import Nytrix.Types.Narrow
import Mathlib.Data.List.Induction
import Mathlib.Tactic.Common

/-! Narrowed branches give bindings their types back exactly where they had one to give back. -/

namespace Nytrix.Types

/-- The type names that a binding gets one after the other, by what is told of it in turn. -/
def givenTypes (current : Option Name) : List (Option Name) → List Name
  | [] => []
  | told :: rest =>
    match narrowedType current told with
    | some type => type :: givenTypes (some type) rest
    | none => givenTypes current rest

/--
A binding that gets its type back: it gets no other, or it has a type and gets one other, or it gets
several and the last but one of them is the type it has.
-/
def GetsBack (current : Option Name) (told : List (Option Name)) : Prop :=
  match givenTypes current told with
  | [] => True
  | [_] => current ≠ none
  | types => types.dropLast.getLast? = current

/-- What a branch is told of a binding, in order. -/
def toldOf (env : NameScopes) (narrow : List NarrowInfo) (trueBranch : Bool) (r : BindingRef) :
    List (Option Name) :=
  ((narrow.filterMap (narrowTarget env trueBranch)).filter (·.1 = r)).map (·.2)

/-- A binding that is in scope. -/
def Live (env : NameScopes) : BindingRef → Prop
  | .inScope s i => ∃ names, env.scopes[s]? = some names ∧ i < names.length
  | .global _ => True

/-- Each branch of some code gives every binding in scope its type back, wherever it is nested. -/
def Restores : NameScopes → NarrowCode → TypeNames → Prop
  | _, .skip, _ => True
  | env, .seq first second, types =>
    Restores env first types ∧ Restores env second (runNarrow env first types)
  | env, .guarded guard branch body, types =>
    (∀ r, Live env r → runNarrow env (.guarded guard branch body) types r = types r) ∧
      Restores env body (nullNarrowApply env guard.narrow branch types).1
  | env, .block bindings body, types =>
    Restores (env.enter bindings) body (declareTypes env.scopes.length bindings types)

/-- Each branch of some code meets, where it begins, what it needs to give types back. -/
def AllGetBack : NameScopes → NarrowCode → TypeNames → Prop
  | _, .skip, _ => True
  | env, .seq first second, types => AllGetBack env first types ∧ AllGetBack env second types
  | env, .guarded guard branch body, types =>
    (∀ r, Live env r → GetsBack (types r) (toldOf env guard.narrow branch r)) ∧
      AllGetBack env body (nullNarrowApply env guard.narrow branch types).1
  | env, .block bindings body, types =>
    AllGetBack (env.enter bindings) body (declareTypes env.scopes.length bindings types)

/-- The type names that are noted for a binding, by what is told of it in turn. -/
def notedTypes (current : Option Name) : List (Option Name) → List (Option Name)
  | [] => []
  | told :: rest =>
    match narrowedType current told with
    | some type => current :: notedTypes (some type) rest
    | none => notedTypes current rest

/-- The type name that a binding has after those noted for it are given back. -/
def giveBack (current : Option Name) : List (Option Name) → Option Name
  | [] => current
  | some type :: rest => giveBack (some type) rest
  | none :: rest => giveBack current rest

theorem notedTypes_eq (current : Option Name) (told : List (Option Name)) :
    notedTypes current told = (current :: (givenTypes current told).map some).dropLast := by
  induction told generalizing current with
  | nil => rfl
  | cons first rest ih =>
    rw [notedTypes, givenTypes]
    cases narrowedType current first with
    | none => exact ih current
    | some type =>
      -- What is given becomes what is noted next.
      simp only [List.map_cons, List.dropLast_cons_cons]
      rw [ih]

theorem giveBack_some (current : Option Name) (front : List (Option Name)) (type : Name) :
    giveBack current (front ++ [some type]) = some type := by
  induction front generalizing current with
  | nil => rfl
  | cons first rest ih =>
    cases first with
    | none => exact ih current
    | some other => exact ih (some other)

/-- The type that a binding has when all that is told of it has been used. -/
def lastType (current : Option Name) (told : List (Option Name)) : Option Name :=
  (givenTypes current told).getLast?.or current

theorem getsBack_several {current : Option Name} {told : List (Option Name)} {front : List Name}
    {before last : Name} (given : givenTypes current told = front ++ [before] ++ [last]) :
    GetsBack current told ↔ some before = current := by
  have several : ∀ types : List Name, 2 ≤ types.length → givenTypes current told = types →
      (GetsBack current told ↔ types.dropLast.getLast? = current) := by
    intro types long same
    rw [GetsBack, same]
    match types, long with
    | _ :: _ :: _, _ => exact Iff.rfl
  rw [several _ (by simp) given, List.dropLast_concat, List.getLast?_concat]

theorem giveBack_iff (current : Option Name) (told : List (Option Name)) :
    giveBack (lastType current told) (notedTypes current told) = current ↔
      GetsBack current told := by
  rw [notedTypes_eq, lastType]
  rcases List.eq_nil_or_concat (givenTypes current told) with given | ⟨front, last, given⟩
  · simp [given, giveBack, GetsBack]
  · rcases List.eq_nil_or_concat front with none | ⟨front, before, rfl⟩
    · -- One type was given, so the one before is the only one that is noted.
      subst none
      cases current with
      | none => simp [given, giveBack, GetsBack]
      | some type => simp [given, giveBack, GetsBack]
    · -- Several were given, so the last one noted is the last but one of them.
      rw [List.concat_eq_append, List.concat_eq_append] at given
      have noted : (current :: (givenTypes current told).map some).dropLast =
          (current :: front.map some) ++ [some before] := by
        rw [given, List.map_append, List.map_append]
        show (((current :: front.map some) ++ [some before]) ++ [some last]).dropLast = _
        exact List.dropLast_concat
      rw [getsBack_several given, noted, giveBack_some]

/-- What the entries of a list are, of those for one binding. -/
def forBinding (r : BindingRef) (list : List (BindingRef × Option Name)) : List (Option Name) :=
  (list.filter (·.1 = r)).map (·.2)

theorem forBinding_same (r : BindingRef) (o : Option Name) (list : List (BindingRef × Option Name)) :
    forBinding r ((r, o) :: list) = o :: forBinding r list := by
  simp [forBinding]

theorem forBinding_other {r r' : BindingRef} (other : r' ≠ r) (o : Option Name)
    (list : List (BindingRef × Option Name)) :
    forBinding r ((r', o) :: list) = forBinding r list := by
  simp [forBinding, other]

theorem narrowAll_spec (targets : List (BindingRef × Option Name)) (state : TypeNames × RestoreList)
    (r : BindingRef) :
    (targets.foldl narrowBinding state).1 r = lastType (state.1 r) (forBinding r targets) ∧
      forBinding r (targets.foldl narrowBinding state).2 =
        forBinding r state.2 ++ notedTypes (state.1 r) (forBinding r targets) := by
  -- Induction on the targets, with the types and the notes so far.
  induction targets generalizing state with
  | nil => simp [forBinding, lastType, givenTypes, notedTypes]
  | cons target rest ih =>
    obtain ⟨r', o⟩ := target
    rw [List.foldl_cons]
    obtain ⟨types, noted⟩ := ih (narrowBinding state (r', o))
    rw [types, noted, narrowBinding]
    by_cases same : r' = r
    · subst same
      rw [forBinding_same]
      -- The target is this binding: it gets a type or stays as it is.
      cases narrowed : narrowedType (state.1 r') o with
      | none => simp [lastType, givenTypes, notedTypes, narrowed]
      | some type =>
        have end_ : lastType (some type) (forBinding r' rest) =
            lastType (state.1 r') (o :: forBinding r' rest) := by
          rw [lastType, lastType, givenTypes, narrowed]
          rcases List.eq_nil_or_concat (givenTypes (some type) (forBinding r' rest)) with
            given | ⟨front, last, given⟩
          · simp [given]
          · rw [List.concat_eq_append] at given
            simp only [given, ← List.cons_append, List.getLast?_concat, Option.some_or]
        refine ⟨?_, ?_⟩
        · simpa [setType] using end_
        · simp [setType, notedTypes, narrowed, forBinding]
    · rw [forBinding_other same]
      -- The target is another binding, which neither changes this one nor is noted for it.
      cases narrowedType (state.1 r') o with
      | none => exact ⟨rfl, rfl⟩
      | some type =>
        have kept : setType state.1 r' (some type) r = state.1 r := by
          simp [setType, Ne.symm same]
        refine ⟨by simp only [kept], ?_⟩
        simp only [kept]
        congr 1
        simp [forBinding, same]

theorem nullNarrowRestore_spec (applied : RestoreList) (types : TypeNames) (r : BindingRef) :
    nullNarrowRestore applied types r = giveBack (types r) (forBinding r applied) := by
  induction applied generalizing types with
  | nil => rfl
  | cons saved rest ih =>
    obtain ⟨r', o⟩ := saved
    rw [nullNarrowRestore, List.foldl_cons, ← nullNarrowRestore, ih]
    by_cases same : r' = r
    · subst same
      rw [forBinding_same]
      cases o with
      | none => rfl
      | some type => simp [setType, giveBack]
    · rw [forBinding_other same]
      cases o with
      | none => rfl
      | some type => simp [setType, Ne.symm same]

theorem nullNarrowApply_spec (env : NameScopes) (narrow : List NarrowInfo) (branch : Bool)
    (types : TypeNames) (r : BindingRef) :
    (nullNarrowApply env narrow branch types).1 r =
        lastType (types r) (toldOf env narrow branch r) ∧
      forBinding r (nullNarrowApply env narrow branch types).2 =
        notedTypes (types r) (toldOf env narrow branch r) := by
  obtain ⟨last, noted⟩ := narrowAll_spec (narrow.filterMap (narrowTarget env branch)) (types, []) r
  exact ⟨last, noted⟩

theorem restore_apply_iff (env : NameScopes) (narrow : List NarrowInfo) (branch : Bool)
    (types inner : TypeNames) (r : BindingRef)
    (kept : inner r = (nullNarrowApply env narrow branch types).1 r) :
    nullNarrowRestore (nullNarrowApply env narrow branch types).2 inner r = types r ↔
      GetsBack (types r) (toldOf env narrow branch r) := by
  obtain ⟨last, noted⟩ := nullNarrowApply_spec env narrow branch types r
  rw [nullNarrowRestore_spec, kept, last, noted]
  exact giveBack_iff _ _

theorem Live.enter {env : NameScopes} {r : BindingRef} (live : Live env r)
    (bindings : List (Name × Option Name)) : Live (env.enter bindings) r := by
  cases r with
  | inScope s i =>
    obtain ⟨names, found, inside⟩ := live
    refine ⟨names, ?_, inside⟩
    rw [NameScopes.enter, List.getElem?_append_left (List.getElem?_eq_some_iff.mp found).1]
    exact found
  | global i => trivial

theorem declareTypes_live {env : NameScopes} {r : BindingRef} (live : Live env r)
    (bindings : List (Name × Option Name)) (types : TypeNames) :
    declareTypes env.scopes.length bindings types r = types r := by
  cases r with
  | inScope s i =>
    obtain ⟨names, found, -⟩ := live
    have inside : s < env.scopes.length := (List.getElem?_eq_some_iff.mp found).1
    rw [declareTypes, if_neg (by omega)]
  | global i => rfl

theorem Restores.run {env : NameScopes} {code : NarrowCode} {types : TypeNames}
    (restores : Restores env code types) {r : BindingRef} (live : Live env r) :
    runNarrow env code types r = types r := by
  induction code generalizing env types with
  | skip => rfl
  | seq first second ihFirst ihSecond =>
    rw [runNarrow, ihSecond restores.2 live, ihFirst restores.1 live]
  | guarded guard branch body ih => exact restores.1 r live
  | block bindings body ih =>
    rw [runNarrow, ih restores (live.enter bindings), declareTypes_live live]

theorem allGetBack_congr {env : NameScopes} {code : NarrowCode} {types types' : TypeNames}
    (same : ∀ r, Live env r → types r = types' r) :
    AllGetBack env code types ↔ AllGetBack env code types' := by
  induction code generalizing env types types' with
  | skip => rfl
  | seq first second ihFirst ihSecond =>
    rw [AllGetBack, AllGetBack, ihFirst same, ihSecond same]
  | guarded guard branch body ih =>
    rw [AllGetBack, AllGetBack]
    refine and_congr ?_ (ih ?_)
    · refine forall_congr' fun r => imp_congr_right fun live => ?_
      rw [same r live]
    · intro r live
      rw [(nullNarrowApply_spec env _ branch types r).1, (nullNarrowApply_spec env _ branch types' r).1,
        same r live]
  | block bindings body ih =>
    rw [AllGetBack, AllGetBack]
    apply ih
    intro r live
    -- A binding in the block is declared there, the same in both, or was in scope before.
    cases r with
    | global i => exact same (.global i) trivial
    | inScope s i =>
      obtain ⟨names, found, inside⟩ := live
      rw [declareTypes, declareTypes]
      split
      · rename_i here
        subst here
        simp only [NameScopes.enter, List.getElem?_concat_length, Option.some.injEq] at found
        subst found
        rw [List.length_map] at inside
        simp [inside]
      · rename_i other
        refine same (.inScope s i) ⟨names, ?_, inside⟩
        have bound := (List.getElem?_eq_some_iff.mp found).1
        rw [NameScopes.enter, List.length_append, List.length_singleton] at bound
        rw [NameScopes.enter, List.getElem?_append_left (by omega)] at found
        exact found

/--
Every branch of some code, nested ones included, gives every binding in scope its type name back
exactly if every binding that a branch narrows can get its type back where the branch begins: it has
a type name, and where several names stand for it, the type given last but one is that one.
-/
theorem narrow_restores_iff (env : NameScopes) (code : NarrowCode) (types : TypeNames) :
    Restores env code types ↔ AllGetBack env code types := by
  induction code generalizing env types with
  | skip => rfl
  | seq first second ihFirst ihSecond =>
    rw [Restores, AllGetBack, ihFirst, ihSecond]
    refine and_congr_right fun before => ?_
    -- The first part leaves the types as they were, so the second one begins with the same.
    exact allGetBack_congr fun r live => ((ihFirst env types).mpr before).run live
  | guarded guard branch body ih =>
    rw [Restores, AllGetBack, ih]
    refine and_congr_left fun inner => forall_congr' fun r => imp_congr_right fun live => ?_
    rw [runNarrow]
    exact restore_apply_iff env _ branch types _ r (((ih env _).mpr inner).run live)
  | block bindings body ih =>
    rw [Restores, AllGetBack]
    exact ih _ _

/-- A scope with one variable, and two names that stand for one global variable. -/
def oneVariable : NameScopes where
  scopes := [[nm "x"]]
  globals := fun name => if name = nm "y" ∨ name = nm "z" then some 0 else none

/-- The call of a function that tests the type of a variable. -/
def typeTest (test variableName : String) : TestExpr :=
  .call (.ident (nm test)) [.ident (nm variableName)]

/-- A branch for lists, of a variable. -/
def listBranch : NarrowCode := .guarded (.test (typeTest "is_list" "x")) true .skip

/-- A branch for lists, of two names. -/
def listsBranch : NarrowCode :=
  .guarded (.test (.logical (nm "&&") (typeTest "is_list" "y") (typeTest "is_list" "z"))) true .skip

/--
A variable without a type stays a list behind the branch of a test for lists, and a global variable
that two names stand for stays a list behind a test of both.
-/
theorem not_restored_oneVariable :
    (Live oneVariable (.inScope 0 0) ∧
      runNarrow oneVariable listBranch (fun _ => none) (.inScope 0 0) = some (nm "list")) ∧
    Live oneVariable (.global 0) ∧
      runNarrow oneVariable listsBranch (fun _ => some (nm "any")) (.global 0) =
        some (nm "list") := by
  refine ⟨⟨⟨_, rfl, by decide⟩, by decide⟩, trivial, by decide⟩

end Nytrix.Types
