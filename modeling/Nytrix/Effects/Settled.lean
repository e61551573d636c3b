import Nytrix.Effects.Visible
import Mathlib.Order.Nat

/-! When the purity and the effects that are recorded hold for whole programs. -/

namespace Nytrix.Effects

open Nytrix.Types (Name nm)
open Nytrix.Lib.Rounds (Near mark_run near_run)

/-- The effects that a mask can have. -/
inductive Effect where
  | io | alloc | ffi | thread
  deriving DecidableEq

/-- The place of an effect in a mask. -/
def Effect.bit : Effect → Nat
  | .io => 0
  | .alloc => 1
  | .ffi => 2
  | .thread => 3

/-- Whether a mask has an effect. -/
def Has (mask : Mask) (effect : Effect) : Prop := mask.getLsbD effect.bit = true

section Items

variable {program : Program}

theorem Item.has_unknown (effects : Nat → Mask) (effect : Effect) :
    Item.has program effects effect.bit (.call none) = true := by
  have all : fxAll.getLsbD effect.bit = true := by cases effect <;> decide
  simp [Item.has, callEffects, nySigEffects, all]

theorem Item.has_user {g : Nat} {fn : Fn} (user : program.sigs[g]? = some (.user fn))
    (home : fn.isExtern = false) {effects : Nat → Mask} {bit : Nat}
    (recorded : (effects g).getLsbD bit = true) :
    Item.has program effects bit (.call (some g)) = true := by
  simp [Item.has, callEffects, nySigEffects, user, home, recorded]

theorem Item.has_cases {effects : Nat → Mask} {bit : Nat} {item : Item}
    (has : Item.has program effects bit item = true) :
    Item.has program (fun _ => fxNone) bit item = true ∨
      ∃ g fn, item = .call (some g) ∧ program.sigs[g]? = some (.user fn) ∧
        (effects g).getLsbD bit = true := by
  cases item with
  | part mask isPure => exact Or.inl has
  | call sig =>
    cases sig with
    | none => exact Or.inl has
    | some g =>
      simp only [Item.has, callEffects, nySigEffects] at has ⊢
      cases known : program.sigs[g]? with
      | none => exact Or.inl (by simpa [known] using has)
      | some sig =>
        cases sig with
        | user fn =>
          cases foreign : fn.isExtern with
          | true => exact Or.inl (by simpa [known, foreign] using has)
          | false =>
            -- only here does it matter what is recorded
            refine Or.inr ⟨g, fn, rfl, known, ?_⟩
            simpa [known, foreign, fxNone] using has
        | builtin name => exact Or.inl (by simpa [known] using has)
        | foreign mask => exact Or.inl (by simpa [known] using has)
        | std foreign => exact Or.inl (by cases foreign <;> simpa [known] using has)

theorem Item.has_mono {bit : Nat} {item : Item}
    (has : Item.has program (fun _ => fxNone) bit item = true) (effects : Nat → Mask) :
    Item.has program effects bit item = true := by
  cases item with
  | part mask isPure => exact has
  | call sig =>
    cases sig with
    | none => exact has
    | some g =>
      simp only [Item.has, callEffects, nySigEffects] at has ⊢
      cases known : program.sigs[g]? with
      | none => simpa [known] using has
      | some sig =>
        cases sig with
        | user fn => simp [known, fxNone] at has
        | builtin name => simpa [known] using has
        | foreign mask => simpa [known] using has
        | std foreign => cases foreign <;> simpa [known] using has

theorem Item.impure_user {g : Nat} {fn : Fn} (user : program.sigs[g]? = some (.user fn))
    {pure : Nat → Bool} (impure : pure g = false) :
    Item.isSafe program pure (.call (some g)) = false := by
  simp [Item.isSafe, nySigIsPure, user, impure]

theorem Item.impure_cases {pure : Nat → Bool} {item : Item}
    (impure : Item.isSafe program pure item = false) :
    Item.isSafe program (fun _ => true) item = false ∨
      ∃ g fn, item = .call (some g) ∧ program.sigs[g]? = some (.user fn) ∧ pure g = false := by
  cases item with
  | part mask isPure => exact Or.inl impure
  | call sig =>
    cases sig with
    | none => exact Or.inl rfl
    | some g =>
      simp only [Item.isSafe, nySigIsPure] at impure ⊢
      cases known : program.sigs[g]? with
      | none => exact Or.inl rfl
      | some sig =>
        cases sig with
        | user fn =>
          cases recorded : pure g with
          | false => exact Or.inr ⟨g, fn, rfl, known, recorded⟩
          | true => exact Or.inl (by simpa [known, recorded] using impure)
        | builtin name => exact Or.inl (by simpa [known] using impure)
        | foreign mask => exact Or.inl rfl
        | std foreign => exact Or.inl rfl

theorem Item.impure_mono {item : Item}
    (impure : Item.isSafe program (fun _ => true) item = false) (pure : Nat → Bool) :
    Item.isSafe program pure item = false := by
  cases item with
  | part mask isPure => exact impure
  | call sig =>
    cases sig with
    | none => rfl
    | some g =>
      simp only [Item.isSafe, nySigIsPure] at impure ⊢
      cases known : program.sigs[g]? with
      | none => rfl
      | some sig =>
        cases sig with
        | user fn =>
          simp only [known, Bool.and_true] at impure
          simp only [impure, Bool.false_and]
        | builtin name => simpa [known] using impure
        | foreign mask => rfl
        | std foreign => rfl

end Items

section Programs

variable (patternBinds : Expr → List Name) (program : Program)

/-- A function that has been declared, and is not one of the standard library. -/
def IsUser (i : Nat) : Prop := ∃ fn, program.sigs[i]? = some (.user fn)

/-- What a function performs itself. -/
def Performs (i : Nat) (act : Act) : Prop :=
  ∃ fn body, program.sigs[i]? = some (.user fn) ∧ fn.body = some body ∧
    act ∈ (actsStmts patternBinds program i (addNames [] fn.params) body).1

/-- A function calls another one itself. -/
def Calls (i j : Nat) : Prop := Performs patternBinds program i (.call (some j)) ∧ IsUser program j

/-- A function performs a call, itself or by functions that it calls. -/
def Reaches (i : Nat) (sig : Option Nat) : Prop :=
  ∃ g, Relation.ReflTransGen (Calls patternBinds program) i g ∧
    Performs patternBinds program g (.call sig)

/-- The effects that are recorded for what is called. -/
def recordedEffects (sig : Option Nat) : Mask :=
  match sig with
  | none => fxAll
  | some g =>
    match program.sigs[g]? with
    | none => fxAll
    | some (.builtin name) => nyBuiltinNameEffects name
    | some (.foreign mask) => mask
    | some (.std _) => fxAll
    | some (.user _) => inferEffects program g

/--
What is recorded holds for every function.

It has the effects of all that it calls, and a pure one assigns nothing that is not its own and
calls nothing that is not pure.
-/
structure Sound : Prop where
  effects : ∀ i sig, IsUser program i → Reaches patternBinds program i sig → ∀ effect,
    Has (recordedEffects program sig) effect → Has (inferEffects program i) effect
  assigns : ∀ i, IsUser program i → inferPure program i = true →
    ¬ Performs patternBinds program i .assign
  pure : ∀ i sig, IsUser program i → inferPure program i = true →
    Reaches patternBinds program i sig → nySigIsPure program (inferPure program) sig = true

/-- A function has an effect by its own text. -/
def OwnEffect (effect : Effect) (i : Nat) : Prop :=
  IsUser program i ∧ Has (effectsPass program (fun _ => fxNone) i) effect

/-- A function is not pure by its own text. -/
def OwnImpure (i : Nat) : Prop :=
  IsUser program i ∧ purePass program (fun _ => true) i = false

/-- The walks see all that the bodies of a program perform. -/
def Sees : Prop :=
  ∀ i fn body, program.sigs[i]? = some (.user fn) → fn.body = some body →
    SeesStmts patternBinds program i (addNames [] fn.params) (addNames [] fn.params) body

/--
What reaches a function by calls does so in the rounds that there are.

A call of a function that comes earlier takes no round, and one of another function takes one.
-/
structure Settles : Prop where
  effects : ∀ i effect,
    (∃ j, Relation.ReflTransGen (Calls patternBinds program) i j ∧ OwnEffect program effect j) →
    Near (OwnEffect program effect) (Calls patternBinds program) maxIters i
  pure : ∀ i,
    (∃ j, Relation.ReflTransGen (Calls patternBinds program) i j ∧ OwnImpure program j) →
    Near (OwnImpure program) (Calls patternBinds program) maxIters i

end Programs

section Passes

variable {patternBinds : Expr → List Name} {program : Program}

theorem mem_visited {i : Nat} : i ∈ visited program ↔ IsUser program i := by
  unfold visited IsUser
  rw [List.mem_filter, List.mem_range]
  constructor
  · rintro ⟨-, user⟩
    split at user
    · rename_i fn known
      exact ⟨fn, known⟩
    · cases user
  · rintro ⟨fn, known⟩
    refine ⟨?_, by rw [known]⟩
    by_contra outside
    rw [List.getElem?_eq_none (by omega)] at known
    cases known

theorem sorted_visited : (visited program).Pairwise (· < ·) :=
  List.pairwise_lt_range.filter _

theorem Sees.covers (sees : Sees patternBinds program) {i : Nat} {fn : Fn} {body : Stmts}
    (user : program.sigs[i]? = some (.user fn)) (text : fn.body = some body) :
    Covers program (seenStmts program i (addNames [] fn.params) body).1
      (actsStmts patternBinds program i (addNames [] fn.params) body).1 :=
  covers_stmts body (sees i fn body user text)

theorem has_effectsPass {i : Nat} {fn : Fn} {body : Stmts}
    (user : program.sigs[i]? = some (.user fn)) (text : fn.body = some body)
    (effects : Nat → Mask) (effect : Effect) :
    Has (effectsPass program effects i) effect ↔
      ((if fn.attrThread then fxThread else fxNone) |||
        (if fn.attrNaked then fxFfi else fxNone)).getLsbD effect.bit = true ∨
      ∃ item ∈ (seenStmts program i (addNames [] fn.params) body).1,
        Item.has program effects effect.bit item = true := by
  have seen := (effectsStmts_seen program i effects effect.bit (addNames [] fn.params) body).1
  unfold Has effectsPass nyFuncDeclEffects
  simp only [user, text]
  rw [BitVec.getLsbD_or, seen, Bool.or_eq_true, List.any_eq_true]

theorem lifts_effects (sees : Sees patternBinds program) (effect : Effect) (effects : Nat → Mask) :
    ∀ i ∈ visited program,
      (OwnEffect program effect i ∨ ∃ j, Calls patternBinds program i j ∧ Has (effects j) effect) →
      Has (effectsPass program effects i) effect := by
  intro i among from'
  obtain ⟨fn, user⟩ := mem_visited.1 among
  rcases from' with ⟨-, own⟩ | ⟨j, ⟨⟨fn', body, user', text, act⟩, fn'', callee⟩, recorded⟩
  · cases text : fn.body with
    | none =>
      -- without a text a function has all effects
      unfold Has effectsPass nyFuncDeclEffects at own ⊢
      simpa only [user, text] using own
    | some body =>
      rw [has_effectsPass user text] at own ⊢
      rcases own with attrs | ⟨item, seen, has⟩
      · exact Or.inl attrs
      · exact Or.inr ⟨item, seen, Item.has_mono has effects⟩
  · obtain rfl : fn = fn' := by
      rw [user] at user'
      simpa using user'
    have covers := sees.covers user text
    rw [has_effectsPass user text]
    right
    rcases covers.calls _ act with seen | unknown
    · have home := covers.home _ act j rfl _ callee
      exact ⟨_, seen, Item.has_user callee home recorded⟩
    · exact ⟨_, unknown, Item.has_unknown effects effect⟩

theorem origin_effects (sees : Sees patternBinds program) (effect : Effect)
    (effects : Nat → Mask) : ∀ i ∈ visited program,
      Has (effectsPass program effects i) effect →
      OwnEffect program effect i ∨
        ∃ j, Calls patternBinds program i j ∧ Has (effects j) effect := by
  intro i among has
  obtain ⟨fn, user⟩ := mem_visited.1 among
  cases text : fn.body with
  | none =>
    left
    refine ⟨⟨fn, user⟩, ?_⟩
    unfold Has effectsPass nyFuncDeclEffects at has ⊢
    simpa only [user, text] using has
  | some body =>
    rw [has_effectsPass user text] at has
    rcases has with attrs | ⟨item, seen, has⟩
    · exact Or.inl ⟨⟨fn, user⟩, (has_effectsPass user text _ _).2 (Or.inl attrs)⟩
    · rcases Item.has_cases has with own | ⟨g, fn', rfl, callee, recorded⟩
      · exact Or.inl ⟨⟨fn, user⟩, (has_effectsPass user text _ _).2 (Or.inr ⟨item, seen, own⟩)⟩
      · refine Or.inr ⟨g, ⟨⟨fn, body, user, text, ?_⟩, fn', callee⟩, recorded⟩
        exact (sees.covers user text).known g seen

theorem impure_purePass {i : Nat} {fn : Fn} {body : Stmts}
    (user : program.sigs[i]? = some (.user fn)) (text : fn.body = some body) (pure : Nat → Bool) :
    purePass program pure i = false ↔
      (fn.name = [] ∨ fn.attrThread ∨ fn.attrNaked) ∨
      ∃ item ∈ (seenStmts program i (addNames [] fn.params) body).1,
        Item.isSafe program pure item = false := by
  have seen := stmtsCheckSafe_seen program i pure (addNames [] fn.params) body
  unfold purePass nyFuncDeclIsPure
  simp only [user, text]
  by_cases attrs : fn.name = [] ∨ fn.attrThread = true ∨ fn.attrNaked = true
  · simp [attrs]
  · rw [if_neg attrs, seen]
    have all : (ifSafe program pure (seenStmts program i (addNames [] fn.params) body)).isSome =
        allSafe program pure (seenStmts program i (addNames [] fn.params) body).1 := by
      unfold ifSafe
      split
      · rename_i safe
        rw [safe]
        rfl
      · rename_i impure
        rw [Bool.eq_false_iff.2 impure]
        rfl
    rw [all]
    unfold allSafe
    rw [List.all_eq_false]
    simp [attrs]

theorem lifts_pure (sees : Sees patternBinds program) (pure : Nat → Bool) :
    ∀ i ∈ visited program,
      (OwnImpure program i ∨ ∃ j, Calls patternBinds program i j ∧ pure j = false) →
      purePass program pure i = false := by
  intro i among from'
  obtain ⟨fn, user⟩ := mem_visited.1 among
  rcases from' with ⟨-, own⟩ | ⟨j, ⟨⟨fn', body, user', text, act⟩, fn'', callee⟩, recorded⟩
  · cases text : fn.body with
    | none => simp [purePass, user, nyFuncDeclIsPure, text]
    | some body =>
      rw [impure_purePass user text] at own ⊢
      rcases own with attrs | ⟨item, seen, impure⟩
      · exact Or.inl attrs
      · exact Or.inr ⟨item, seen, Item.impure_mono impure pure⟩
  · obtain rfl : fn = fn' := by
      rw [user] at user'
      simpa using user'
    have covers := sees.covers user text
    rw [impure_purePass user text]
    right
    rcases covers.calls _ act with seen | unknown
    · exact ⟨_, seen, Item.impure_user callee recorded⟩
    · exact ⟨_, unknown, rfl⟩

theorem origin_pure (sees : Sees patternBinds program) (pure : Nat → Bool) :
    ∀ i ∈ visited program, purePass program pure i = false →
      OwnImpure program i ∨ ∃ j, Calls patternBinds program i j ∧ pure j = false := by
  intro i among impure
  obtain ⟨fn, user⟩ := mem_visited.1 among
  cases text : fn.body with
  | none => exact Or.inl ⟨⟨fn, user⟩, by simp [purePass, user, nyFuncDeclIsPure, text]⟩
  | some body =>
    rw [impure_purePass user text] at impure
    rcases impure with attrs | ⟨item, seen, impure⟩
    · exact Or.inl ⟨⟨fn, user⟩, (impure_purePass user text _).2 (Or.inl attrs)⟩
    · rcases Item.impure_cases impure with own | ⟨g, fn', rfl, callee, recorded⟩
      · exact Or.inl ⟨⟨fn, user⟩, (impure_purePass user text _).2 (Or.inr ⟨item, seen, own⟩)⟩
      · refine Or.inr ⟨g, ⟨⟨fn, body, user, text, ?_⟩, fn', callee⟩, recorded⟩
        exact (sees.covers user text).known g seen

theorem has_inferEffects (sees : Sees patternBinds program) (effect : Effect) {i : Nat}
    (user : IsUser program i) :
    Has (inferEffects program i) effect ↔
      Near (OwnEffect program effect) (Calls patternBinds program) maxIters i := by
  have closed : ∀ i j, Calls patternBinds program i j → j ∈ visited program := fun _ _ calls =>
    mem_visited.2 calls.2
  constructor
  · intro has
    refine near_run (fun mask => Has mask effect) sorted_visited
      (origin_effects sees effect) ?_ has
    intro j none
    simp [Has, fxNone] at none
  · intro near
    exact mark_run (fun mask => Has mask effect) sorted_visited closed
      (lifts_effects sees effect) (mem_visited.2 user) near fun _ => fxNone

theorem impure_inferPure (sees : Sees patternBinds program) {i : Nat} (user : IsUser program i) :
    inferPure program i = false ↔
      Near (OwnImpure program) (Calls patternBinds program) maxIters i := by
  have closed : ∀ i j, Calls patternBinds program i j → j ∈ visited program := fun _ _ calls =>
    mem_visited.2 calls.2
  constructor
  · intro impure
    exact near_run (fun pure => pure = false) sorted_visited (origin_pure sees)
      (fun _ none => absurd none (by simp)) impure
  · intro near
    exact mark_run (fun pure => pure = false) sorted_visited closed (lifts_pure sees)
      (mem_visited.2 user) near fun _ => true

end Passes

section Results

variable {patternBinds : Expr → List Name} {program : Program}

theorem own_of_performed (sees : Sees patternBinds program) {effect : Effect} {g : Nat}
    {sig : Option Nat} (performs : Performs patternBinds program g (.call sig))
    (recorded : Has (recordedEffects program sig) effect) :
    OwnEffect program effect g ∨
      ∃ j, Calls patternBinds program g j ∧ Has (inferEffects program j) effect := by
  obtain ⟨fn, body, user, text, act⟩ := performs
  have covers := sees.covers user text
  -- a call that is seen with an effect of its own
  have own : ∀ item ∈ (seenStmts program g (addNames [] fn.params) body).1,
      Item.has program (fun _ => fxNone) effect.bit item = true → OwnEffect program effect g :=
    fun item seen has =>
      ⟨⟨fn, user⟩, (has_effectsPass user text _ effect).2 (Or.inr ⟨item, seen, has⟩)⟩
  by_cases function : ∃ j, sig = some j ∧ IsUser program j
  · obtain ⟨j, rfl, fn', callee⟩ := function
    right
    refine ⟨j, ⟨⟨fn, body, user, text, act⟩, fn', callee⟩, ?_⟩
    simpa only [recordedEffects, callee] using recorded
  · left
    rcases covers.calls sig act with seen | unknown
    · refine own _ seen ?_
      cases sig with
      | none => exact Item.has_unknown _ effect
      | some j =>
        simp only [Has, recordedEffects] at recorded
        simp only [Item.has, callEffects, nySigEffects]
        cases known : program.sigs[j]? with
        | none => simp_all
        | some s =>
          have home := covers.home _ act j rfl s known
          cases s with
          | user fn' => exact absurd ⟨j, rfl, fn', known⟩ function
          | std foreign =>
            obtain rfl : foreign = none := home
            simp_all
          | builtin name => simp_all
          | foreign mask => simp_all
    · exact own _ unknown (Item.has_unknown _ effect)

theorem impure_of_performed (sees : Sees patternBinds program) {g : Nat} {sig : Option Nat}
    (performs : Performs patternBinds program g (.call sig))
    (impure : nySigIsPure program (inferPure program) sig = false) :
    OwnImpure program g ∨
      ∃ j, Calls patternBinds program g j ∧ inferPure program j = false := by
  obtain ⟨fn, body, user, text, act⟩ := performs
  have covers := sees.covers user text
  have own : ∀ item ∈ (seenStmts program g (addNames [] fn.params) body).1,
      Item.isSafe program (fun _ => true) item = false → OwnImpure program g :=
    fun item seen impure =>
      ⟨⟨fn, user⟩, (impure_purePass user text _).2 (Or.inr ⟨item, seen, impure⟩)⟩
  rcases covers.calls sig act with seen | unknown
  · have notSafe : Item.isSafe program (inferPure program) (.call sig) = false := impure
    rcases Item.impure_cases notSafe with mine | ⟨j, fn', same, callee, recorded⟩
    · exact Or.inl (own _ seen mine)
    · obtain rfl : sig = some j := by simpa using same
      exact Or.inr ⟨j, ⟨⟨fn, body, user, text, act⟩, fn', callee⟩, recorded⟩
  · exact Or.inl (own _ unknown rfl)

theorem reaches_of_path {i j : Nat}
    (path : Relation.ReflTransGen (Calls patternBinds program) i j) :
    i = j ∨ Reaches patternBinds program i (some j) := by
  rcases Relation.ReflTransGen.cases_tail path with same | ⟨k, before, last⟩
  · exact Or.inl same.symm
  · exact Or.inr ⟨k, before, last.1⟩

theorem isUser_of_path {i j : Nat}
    (path : Relation.ReflTransGen (Calls patternBinds program) i j) (user : IsUser program j) :
    IsUser program i := by
  rcases Relation.ReflTransGen.cases_head path with same | ⟨k, ⟨⟨fn, _, known, _⟩, _⟩, _⟩
  · exact same ▸ user
  · exact ⟨fn, known⟩

theorem Settles.sound (sees : Sees patternBinds program) (settles : Settles patternBinds program) :
    Sound patternBinds program where
  effects := by
    rintro i sig user ⟨g, path, performs⟩ effect recorded
    rw [has_inferEffects sees effect user]
    refine settles.effects i effect ?_
    rcases own_of_performed sees performs recorded with mine | ⟨j, calls, has⟩
    · exact ⟨g, path, mine⟩
    · -- the effect of a function that is called comes from where it is near
      obtain ⟨k, rest, mine⟩ := ((has_inferEffects sees effect calls.2).1 has).traces
      exact ⟨k, path.trans (.head calls rest), mine⟩
  assigns := by
    rintro i user recorded ⟨fn, body, known, text, act⟩
    have seen := (sees.covers known text).assigns act
    have mine : OwnImpure program i :=
      ⟨user, (impure_purePass known text _).2 (Or.inr ⟨_, seen, rfl⟩)⟩
    rw [(impure_inferPure sees user).2 (.own mine)] at recorded
    cases recorded
  pure := by
    rintro i sig user recorded ⟨g, path, performs⟩
    by_contra impure
    have near : Near (OwnImpure program) (Calls patternBinds program) maxIters i := by
      refine settles.pure i ?_
      rcases impure_of_performed sees performs (by simpa using impure) with mine | ⟨j, calls, has⟩
      · exact ⟨g, path, mine⟩
      · obtain ⟨k, rest, mine⟩ := ((impure_inferPure sees calls.2).1 has).traces
        exact ⟨k, path.trans (.head calls rest), mine⟩
    rw [(impure_inferPure sees user).2 near] at recorded
    cases recorded

theorem Sound.settles (sees : Sees patternBinds program) (sound : Sound patternBinds program) :
    Settles patternBinds program where
  effects := by
    rintro i effect ⟨j, path, mine⟩
    rcases reaches_of_path path with rfl | reaches
    · exact .own mine
    · have user := isUser_of_path path mine.1
      rw [← has_inferEffects sees effect user]
      refine sound.effects i (some j) user reaches effect ?_
      obtain ⟨fn, known⟩ := mine.1
      simp only [recordedEffects, known]
      exact (has_inferEffects sees effect mine.1).2 (.own mine)
  pure := by
    rintro i ⟨j, path, mine⟩
    rcases reaches_of_path path with rfl | reaches
    · exact .own mine
    · have user := isUser_of_path path mine.1
      rw [← impure_inferPure sees user]
      by_contra recorded
      have pure := sound.pure i (some j) user (by simpa using recorded) reaches
      obtain ⟨fn, known⟩ := mine.1
      have impure := (impure_inferPure sees mine.1).2 (.own mine)
      simp [nySigIsPure, known, impure] at pure

/-- What is recorded holds for a program of which all is seen if and only if rounds are enough. -/
theorem sound_iff_settles (sees : Sees patternBinds program) :
    Sound patternBinds program ↔ Settles patternBinds program :=
  ⟨Sound.settles sees, Settles.sound sees⟩

end Results

section Examples

/-- No pattern binds a name. -/
def noBinds : Expr → List Name := fun _ => []

/-- The name of the builtin that writes. -/
def printName : Name := nm "__print"

/-- A call of the builtin that writes. -/
def printCall : Expr := .call (.ident printName) .nil

/-- A function without parameters and attributes. -/
def plainFn (body : Stmts) : Fn := ⟨[1], [], false, false, false, some body⟩

/-- A function that writes in what stands before the test of an `if`. -/
def headerCalls : Program where
  sigs := [.user (plainFn (.cons (.iff
    (.cons (.var true [[2]] (.cons printCall .nil)) .nil) (.node .literal .nil) .nil .nil) .nil)),
    .builtin printName]
  resolveCall := fun _ _ _ => some 1
  resolveMemcall := fun _ _ _ => none
  isGlobal := fun _ _ => false

/-- A function that calls one that is declared to be elsewhere. -/
def foreignCalls : Program where
  sigs := [.user (plainFn (.cons (.expr (.call (.ident [2]) .nil)) .nil)),
    .user ⟨[2], [], false, false, true, none⟩]
  resolveCall := fun _ _ _ => some 1
  resolveMemcall := fun _ _ _ => none
  isGlobal := fun _ _ => false

/-- A function that calls the one that comes next. -/
def callNext : Fn := plainFn (.cons (.expr (.call (.ident [2]) .nil)) .nil)

/-- So many functions that call the one that comes next, and a builtin that writes. -/
def chain (count : Nat) : Program where
  sigs := List.replicate count (.user callNext) ++ [.builtin printName]
  resolveCall := fun caller _ _ => some (caller + 1)
  resolveMemcall := fun _ _ _ => none
  isGlobal := fun _ _ => false

theorem chain_sigs (count i : Nat) :
    (chain count).sigs[i]? =
      if i < count then some (.user callNext)
      else if i = count then some (.builtin printName) else none := by
  unfold chain
  simp only [List.getElem?_append, List.length_replicate, List.getElem?_replicate]
  split
  · rfl
  · split
    · rename_i last
      simp [last]
    · rw [List.getElem?_eq_none]
      simp only [List.length_singleton]
      omega

theorem sees_chain (count : Nat) : Sees noBinds (chain count) := by
  intro i fn body user text
  rw [chain_sigs] at user
  split at user
  · obtain rfl : callNext = fn := by simpa using user
    obtain rfl : Stmts.cons (.expr (.call (.ident [2]) .nil)) .nil = body := by
      simpa [callNext, plainFn] using text
    simp only [SeesStmts, SeesStmt, SeesExpr, SeesExprs, SeesCall, true_and, and_true]
    refine ⟨fun none => none, ?_⟩
    intro g _ sig known
    rw [chain_sigs] at known
    split at known
    · obtain rfl : Sig.user callNext = sig := by simpa using known
      rfl
    · split at known
      · obtain rfl : Sig.builtin printName = sig := by simpa using known
        trivial
      · cases known
  · split at user <;> simp at user

theorem performs_chain {count i : Nat} {act : Act} :
    Performs noBinds (chain count) i act ↔ i < count ∧ act = .call (some (i + 1)) := by
  constructor
  · rintro ⟨fn, body, user, text, among⟩
    rw [chain_sigs] at user
    split at user
    · rename_i inside
      obtain rfl : callNext = fn := by simpa using user
      obtain rfl : Stmts.cons (.expr (.call (.ident [2]) .nil)) .nil = body := by
        simpa [callNext, plainFn] using text
      refine ⟨inside, ?_⟩
      simpa [actsStmts, actsStmt, actsExpr, actsExprs, purityResolveCallSig, callNext, plainFn,
        addNames, assignedNameContains, chain] using among
    · split at user <;> simp at user
  · rintro ⟨inside, rfl⟩
    refine ⟨callNext, _, by rw [chain_sigs, if_pos inside], rfl, ?_⟩
    simp [actsStmts, actsStmt, actsExpr, actsExprs, purityResolveCallSig, plainFn,
      addNames, assignedNameContains, chain, callNext]

theorem calls_chain {count i j : Nat} :
    Calls noBinds (chain count) i j ↔ j = i + 1 ∧ j < count := by
  unfold Calls
  rw [performs_chain]
  constructor
  · rintro ⟨⟨-, same⟩, fn, user⟩
    obtain rfl : j = i + 1 := by simpa using same
    refine ⟨rfl, ?_⟩
    by_contra outside
    rw [chain_sigs, if_neg outside] at user
    split at user <;> simp at user
  · rintro ⟨rfl, inside⟩
    exact ⟨⟨by omega, rfl⟩, callNext, by rw [chain_sigs, if_pos inside]⟩

theorem ownEffect_chain {count i : Nat} (own : OwnEffect (chain count) .io i) :
    count ≤ i + 1 := by
  obtain ⟨⟨fn, user⟩, has⟩ := own
  by_contra inside
  have here : (chain count).sigs[i]? = some (.user callNext) := by
    rw [chain_sigs, if_pos (by omega)]
  have next : (chain count).sigs[i + 1]? = some (.user callNext) := by
    rw [chain_sigs, if_pos (by omega)]
  rw [has_effectsPass here rfl] at has
  have resolve : (chain count).resolveCall i [2] 0 = some (i + 1) := rfl
  simp [seenStmts, seenStmt, seenExpr, seenExprs, Expr.isIdent, purityResolveCallSig, addNames,
    assignedNameContains, callNext, plainFn, Exprs.length, resolve, Item.has, callEffects,
    nySigEffects, next, fxNone] at has

theorem near_chain {count rounds i : Nat}
    (near : Near (OwnEffect (chain count) .io) (Calls noBinds (chain count)) rounds i) :
    count ≤ i + rounds := by
  induction near with
  | own mine =>
    have := ownEffect_chain mine
    omega
  | earlier calls less _ _ =>
    have := (calls_chain.1 calls).1
    omega
  | later calls _ ih =>
    have := (calls_chain.1 calls).1
    omega

theorem path_chain {count : Nat} (i : Nat) (inside : i < count) :
    Relation.ReflTransGen (Calls noBinds (chain count)) 0 i := by
  induction i with
  | zero => exact .refl
  | succ i ih => exact .tail (ih (by omega)) (calls_chain.2 ⟨rfl, inside⟩)

/-- What is recorded may not hold: for a header, for one that is elsewhere, for a long chain. -/
theorem not_sound_headerCalls :
    ¬ Sound noBinds headerCalls ∧ ¬ Sound noBinds foreignCalls ∧ ¬ Sound noBinds (chain 65) := by
  refine ⟨fun sound => ?_, fun sound => ?_, fun sound => ?_⟩
  · -- the call in the header is not visited
    have reaches : Reaches noBinds headerCalls 0 (some 1) :=
      ⟨0, .refl, _, _, rfl, rfl, by decide +kernel⟩
    have has := sound.effects 0 (some 1) ⟨_, rfl⟩ reaches .io (by unfold Has; decide +kernel)
    exact absurd has (by unfold Has; decide +kernel)
  · -- what is elsewhere counts as if it had no effects
    have reaches : Reaches noBinds foreignCalls 0 (some 1) :=
      ⟨0, .refl, _, _, rfl, rfl, by decide +kernel⟩
    have has := sound.effects 0 (some 1) ⟨_, rfl⟩ reaches .ffi (by unfold Has; decide +kernel)
    exact absurd has (by unfold Has; decide +kernel)
  · -- the last of the functions is one round too far
    have mine : OwnEffect (chain 65) .io 64 := ⟨⟨callNext, rfl⟩, by unfold Has; decide +kernel⟩
    have near := (sound.settles (sees_chain 65)).effects 0 .io ⟨64, path_chain 64 (by omega), mine⟩
    have far := near_chain near
    simp [maxIters] at far

/-- What is recorded for a chain holds if and only if there are rounds enough. -/
theorem sound_iff_settles_chain :
    Sound noBinds (chain 65) ↔ Settles noBinds (chain 65) :=
  sound_iff_settles (sees_chain 65)

end Examples

end Nytrix.Effects
