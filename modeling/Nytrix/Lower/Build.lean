import Nytrix.Lower.StmtLaws
import Nytrix.Nir.Residue

/-! The lowering of a program's functions, and which of them the callers take them for. -/

namespace Nytrix.Lower

open Nytrix.Nir Nytrix.Lib

/-- The text of an error buffer after a failure, which need not have written to it. -/
def setError (err text : String) : String := if text = "" then err else text

/-- The optimiser and the verifier, on a function that is lowered. -/
def finalize (err : String) (f : Func) : Except LowerError Func :=
  match optimize f with
  | none => .error (.fail (setError "native NYIR: optimization failed" err))
  | some f => match verify f with
    | .ok () => .ok f
    | .error text => .error (.fail text)

/-- Brings the parameters of a function into scope, in the first slots. -/
def bindParams : List Param → LowerM Unit
  | [] => pure ()
  | param :: rest => do
    let _ ← bindLocalTyped param.name (typeNameIsF64 param.type) (typeNameIsF32 param.type)
    bindParams rest

/-- Returns the value of a body that control did not leave, or zero when it has none. -/
def returnLast (b : Builder) : LowerM Unit := do
  let value ← initialResult b
  emitRet value

/-- The lowering of a function's parameters and body. -/
def lowerFunction (env : Env) (params : List Param) (body : Stmt) : LowerM Unit := do
  bindParams params
  lowerStmt env body
  let b ← get
  onlyIf (!b.emittedReturn) (returnLast b)

/-- A function of the program, lowered without the foreign functions and finalized. -/
def buildFunction (prog : List Stmt) : Stmt → Except LowerError Func
  | .func _ _ params body =>
    match lowerFunction { prog := prog } params body {} with
    | .ok (_, b) => finalize "" b.nir
    | .error err => .error err
  | _ => .error (.fail "")

/-- The lowering of the program's own statements, which must leave a value or return one. -/
def lowerProgram (env : Env) : LowerM Unit := do
  lowerStmts env (Stmts.ofList env.prog)
  let b ← get
  if b.emittedReturn then pure ()
  else if b.lastValue < 0 then fail "native NYIR: program has no raw expression result"
  else emitRet b.lastValue

/-- The entry function of the program, lowered and finalized. -/
def buildRtMain (env : Env) (err : String) : Except LowerError Func :=
  match lowerProgram env {} with
  | .ok (_, b) => finalize err b.nir
  | .error .overflow => .error .overflow
  | .error (.fail text) => .error (.fail (setError err text))

/-- Whether a statement declares a function. -/
def Stmt.isFunc : Stmt → Bool
  | .func _ _ _ _ => true
  | _ => false

/-- The functions built so far and the text of the error buffer. -/
structure Pool where
  funcs : List Func := []
  err : String := ""

/-- The loop that builds the functions of a program, as long as there is room for one more. -/
def buildFunctions (prog : List Stmt) (maxFuncs : Nat) : List Stmt → Pool → Except LowerError Pool
  | [], pool => .ok pool
  | s :: rest, pool =>
    if maxFuncs ≤ pool.funcs.length then .ok pool
    else if !s.isFunc then buildFunctions prog maxFuncs rest pool
    else match buildFunction prog s with
      | .ok f => buildFunctions prog maxFuncs rest { pool with funcs := pool.funcs ++ [f] }
      | .error .overflow => .error .overflow
      | .error (.fail text) =>
        -- What was built is freed, but it still counts.
        buildFunctions prog maxFuncs rest
          { funcs := pool.funcs.map fun _ => {}, err := setError pool.err text }

/-- What the callers get: the entry function, the functions, and the text of the error buffer. -/
structure Built where
  rtMain : Func
  funcs : List Func
  err : String

/-- Lowers a program, with the table of foreign functions that its declarations give. -/
def buildNir (buildExternTable : List Stmt → Except String (List ExternEntry))
    (prog : List Stmt) (maxFuncs : Nat) (err : String) : Except LowerError Built :=
  match buildExternTable prog with
  | .error text => .error (.fail ("NYIR extern: " ++ text))
  | .ok externs =>
    match buildFunctions prog maxFuncs prog { err := err } with
    | .error err => .error err
    | .ok pool => match buildRtMain { prog := prog, externs := externs } pool.err with
      | .error err => .error err
      | .ok rtMain => .ok { rtMain := rtMain, funcs := pool.funcs, err := pool.err }

/-- The functions of a program in the order of its body, by whose position the callers go. -/
def functions (prog : List Stmt) : List Stmt := prog.filter Stmt.isFunc

/-- Whether a function of the program can be built. -/
def Lowers (prog : List Stmt) (s : Stmt) : Prop := ∃ f, buildFunction prog s = .ok f

/-- Every function built is the one of the statement at its position, and not an empty one. -/
def PairsUp (prog : List Stmt) (funcs : List Func) : Prop :=
  ∀ (i : Nat) (f : Func), funcs[i]? = some f →
    f.data ≠ [] ∧ ∃ s, (functions prog)[i]? = some s ∧ buildFunction prog s = .ok f

theorem keeps_bindParams (params : List Param) : Keeps Enclosed (bindParams params) := by
  induction params with
  | nil => exact .pure ()
  | cons param rest ih => exact .bind (keeps_bindLocalTyped _ _ _) fun _ => ih

theorem lowerFunction_hasRet {env : Env} {params : List Param} {body : Stmt} {b : Builder}
    (done : lowerFunction env params body {} = .ok ((), b)) : HasRet b.nir.data := by
  simp only [lowerFunction, bind_ok_iff] at done
  obtain ⟨_, b₁, bound, _, b₂, lowered, seen, b₃, got, ended⟩ := done
  obtain ⟨rfl, rfl⟩ := Prod.mk.inj (get_ok_iff.mp got)
  have whole : Enclosed {} b₂ :=
    (keeps_bindParams _ _ _ _ bound).trans (keeps_lowerStmt _ _ _ _ _ lowered)
  cases left : b₂.emittedReturn with
  | true =>
    -- Control cannot leave the body by a jump, since no loop is around it.
    rw [onlyIf, left] at ended
    obtain ⟨-, rfl⟩ := Prod.mk.inj (pure_ok_iff.mp ended)
    rcases whole.leaves left with before | inLoop | returned
    · cases before
    · exact absurd rfl inLoop
    · exact returned
  | false =>
    rw [onlyIf, left] at ended
    simp only [Bool.not_false, if_true, returnLast, bind_ok_iff] at ended
    obtain ⟨value, b₃, -, returned⟩ := ended
    obtain ⟨-, rfl⟩ := Prod.mk.inj (Except.ok.inj returned)
    exact ⟨b₃.emitted (retInst value), by simp [push_data], rfl⟩

theorem buildFunction_nonempty {prog : List Stmt} {s : Stmt} {f : Func}
    (built : buildFunction prog s = .ok f) : f.data ≠ [] := by
  unfold buildFunction at built
  split at built
  · split at built
    · next done =>
      unfold finalize at built
      split at built
      · cases built
      · next optimized =>
        split at built
        · cases built
          exact optimize_nonempty (lowerFunction_hasRet done) optimized
        · cases built
    · cases built
  · cases built

theorem finalize_verified {err : String} {f g : Func} (done : finalize err f = .ok g) :
    verify g = .ok () := by
  unfold finalize at done
  split at done
  · cases done
  · split at done
    · next accepted =>
      cases done
      exact accepted
    · cases done

theorem buildFunction_verified {prog : List Stmt} {s : Stmt} {f : Func}
    (built : buildFunction prog s = .ok f) : verify f = .ok () := by
  unfold buildFunction at built
  split at built
  · split at built
    · exact finalize_verified built
    · cases built
  · cases built

theorem buildFunctions_verified {prog : List Stmt} {maxFuncs : Nat} {body : List Stmt}
    {pool done : Pool} (before : ∀ f ∈ pool.funcs, verify f = .ok ())
    (ran : buildFunctions prog maxFuncs body pool = .ok done) :
    ∀ f ∈ done.funcs, verify f = .ok () := by
  fun_induction buildFunctions prog maxFuncs body pool with
  | case1 pool => cases ran; exact before
  | case2 => cases ran; exact before
  | case3 _ _ _ _ _ ih => exact ih before ran
  | case4 _ _ pool _ _ f built ih =>
    refine ih ?_ ran
    intro g member
    rcases List.mem_append.mp member with member | member
    · exact before g member
    · rw [List.mem_singleton.mp member]
      exact buildFunction_verified built
  | case5 => cases ran
  | case6 _ _ pool _ _ _ _ ih =>
    refine ih ?_ ran
    intro g member
    obtain ⟨-, -, rfl⟩ := List.mem_map.mp member
    rfl

theorem buildNir_verified {buildExternTable : List Stmt → Except String (List ExternEntry)}
    {prog : List Stmt} {maxFuncs : Nat} {err : String} {built : Built}
    (done : buildNir buildExternTable prog maxFuncs err = .ok built) :
    (∀ f ∈ built.funcs, verify f = .ok ()) ∧ verify built.rtMain = .ok () := by
  unfold buildNir at done
  split at done
  · cases done
  · split at done
    · cases done
    · next pool ran =>
      split at done
      · cases done
      · next rtMain main =>
        cases done
        refine ⟨buildFunctions_verified (by simp) ran, ?_⟩
        unfold buildRtMain at main
        split at main
        · exact finalize_verified main
        · cases main
        · cases main

theorem buildFunctions_filter (prog : List Stmt) (maxFuncs : Nat) (body : List Stmt) (pool : Pool) :
    buildFunctions prog maxFuncs body pool =
      buildFunctions prog maxFuncs (body.filter Stmt.isFunc) pool := by
  induction body generalizing pool with
  | nil => rfl
  | cons s rest ih =>
    cases func : s.isFunc with
    | true => simp only [List.filter_cons, func, if_true, buildFunctions, ih]
    | false =>
      simp only [List.filter_cons, func, Bool.false_eq_true, if_false, buildFunctions,
        Bool.not_false, if_true, ← ih]
      split
      · next full =>
        -- A full pool stays as it is whatever statements are left.
        cases rest with
        | nil => rfl
        | cons s rest => rw [buildFunctions, if_pos full]
      · rfl

theorem buildFunctions_cons {prog : List Stmt} {maxFuncs : Nat} {s : Stmt} {rest : List Stmt}
    {pool done : Pool} (func : s.isFunc = true) (room : pool.funcs.length < maxFuncs)
    (ran : buildFunctions prog maxFuncs (s :: rest) pool = .ok done) :
    (∃ f, buildFunction prog s = .ok f ∧
      buildFunctions prog maxFuncs rest { pool with funcs := pool.funcs ++ [f] } = .ok done) ∨
    (¬ Lowers prog s ∧ ∃ err, buildFunctions prog maxFuncs rest
      { funcs := pool.funcs.map fun _ => {}, err := err } = .ok done) := by
  rw [buildFunctions, if_neg (by omega), func] at ran
  simp only [Bool.not_true, Bool.false_eq_true, if_false] at ran
  split at ran
  · next f built => exact .inl ⟨f, built, ran⟩
  · cases ran
  · next failed =>
    refine .inr ⟨?_, _, ran⟩
    intro ⟨f, built⟩
    rw [failed] at built
    cases built

theorem buildFunctions_length {prog : List Stmt} {maxFuncs : Nat} {body : List Stmt}
    {pool done : Pool} (ran : buildFunctions prog maxFuncs body pool = .ok done) :
    pool.funcs.length ≤ done.funcs.length := by
  fun_induction buildFunctions prog maxFuncs body pool with
  | case1 pool => cases ran; exact Nat.le_refl _
  | case2 => cases ran; exact Nat.le_refl _
  | case3 _ _ _ _ _ ih => exact ih ran
  | case4 _ _ _ _ _ _ _ ih => exact Nat.le_trans (by simp) (ih ran)
  | case5 => cases ran
  | case6 _ _ _ _ _ _ _ ih => exact Nat.le_trans (by simp) (ih ran)

theorem buildFunctions_all {prog : List Stmt} {maxFuncs : Nat} {body : List Stmt}
    {pool done : Pool} (funcs : ∀ s ∈ body, s.isFunc = true)
    (ran : buildFunctions prog maxFuncs body pool = .ok done)
    (all : ∀ s ∈ body.take (maxFuncs - pool.funcs.length), Lowers prog s) :
    ∃ fs, done.funcs = pool.funcs ++ fs ∧
      ∀ (i : Nat) (f : Func), fs[i]? = some f →
        ∃ s, body[i]? = some s ∧ buildFunction prog s = .ok f := by
  induction body generalizing pool with
  | nil =>
    cases ran
    exact ⟨[], by simp, by simp⟩
  | cons s rest ih =>
    by_cases room : pool.funcs.length < maxFuncs
    · obtain ⟨k, space⟩ : ∃ k, maxFuncs - pool.funcs.length = k + 1 :=
        ⟨maxFuncs - pool.funcs.length - 1, by omega⟩
      rw [space, List.take_succ_cons] at all
      rcases buildFunctions_cons (funcs s (by simp)) room ran with
        ⟨f, built, ran⟩ | ⟨failed, -⟩
      · have fewer : maxFuncs - (pool.funcs ++ [f]).length = k := by
          simp only [List.length_append, List.length_singleton]
          omega
        obtain ⟨fs, appended, each⟩ := ih (fun t member => funcs t (by simp [member])) ran
          (fewer ▸ fun t member => all t (by simp [member]))
        refine ⟨f :: fs, by simp [appended], ?_⟩
        intro i g found
        cases i with
        | zero => exact ⟨s, rfl, by simpa using (Option.some.inj found) ▸ built⟩
        | succ i => exact each i g found
      · exact absurd (all s (by simp)) failed
    · rw [buildFunctions, if_pos (by omega)] at ran
      cases ran
      exact ⟨[], by simp, by simp⟩

theorem buildFunctions_none {prog : List Stmt} {maxFuncs : Nat} {body : List Stmt}
    {pool done : Pool} (none : ∀ s ∈ body, ¬ Lowers prog s)
    (ran : buildFunctions prog maxFuncs body pool = .ok done) :
    done.funcs.length = pool.funcs.length := by
  fun_induction buildFunctions prog maxFuncs body pool with
  | case1 pool => cases ran; rfl
  | case2 => cases ran; rfl
  | case3 _ _ _ _ _ ih => exact ih (fun t member => none t (by simp [member])) ran
  | case4 s _ _ _ _ f built _ => exact absurd ⟨f, built⟩ (none s (by simp))
  | case5 => cases ran
  | case6 _ _ _ _ _ _ _ ih => simpa using ih (fun t member => none t (by simp [member])) ran

theorem buildFunctions_added {prog : List Stmt} {maxFuncs : Nat} {body : List Stmt}
    {pool done : Pool} (funcs : ∀ s ∈ body, s.isFunc = true)
    (room : pool.funcs.length < maxFuncs)
    (ran : buildFunctions prog maxFuncs body pool = .ok done)
    (same : done.funcs.length ≤ pool.funcs.length) : ∀ s ∈ body, ¬ Lowers prog s := by
  induction body generalizing pool with
  | nil => simp
  | cons s rest ih =>
    rcases buildFunctions_cons (funcs s (by simp)) room ran with ⟨f, -, ran⟩ | ⟨failed, err, ran⟩
    · have grown := buildFunctions_length ran
      simp only [List.length_append, List.length_singleton] at grown
      omega
    · have later := ih (fun t member => funcs t (by simp [member])) (by simpa using room) ran
        (by simpa using same)
      intro t member
      rcases List.mem_cons.mp member with rfl | member
      · exact failed
      · exact later t member

theorem buildFunctions_empty {prog : List Stmt} {maxFuncs : Nat} {body : List Stmt}
    {pool done : Pool} {f g : Func} (ran : buildFunctions prog maxFuncs body pool = .ok done)
    (first : pool.funcs[0]? = some f) (empty : f.data = []) (last : done.funcs[0]? = some g) :
    g.data = [] := by
  fun_induction buildFunctions prog maxFuncs body pool generalizing f with
  | case1 pool => cases ran; rwa [← Option.some.inj (first.symm.trans last)]
  | case2 => cases ran; rwa [← Option.some.inj (first.symm.trans last)]
  | case3 _ _ _ _ _ ih => exact ih ran first empty
  | case4 _ _ pool _ _ h _ ih =>
    refine ih ran (f := f) ?_ empty
    rw [List.getElem?_append_left (List.getElem?_eq_some_iff.mp first).1, first]
  | case5 => cases ran
  | case6 _ _ pool _ _ _ _ ih => exact ih ran (f := {}) (by rw [List.getElem?_map, first]; rfl) rfl

theorem buildFunctions_lowers {prog : List Stmt} {maxFuncs : Nat} {body : List Stmt}
    {pool done : Pool} {f g : Func} (funcs : ∀ s ∈ body, s.isFunc = true)
    (ran : buildFunctions prog maxFuncs body pool = .ok done)
    (first : pool.funcs[0]? = some f) (last : done.funcs[0]? = some g) (full : g.data ≠ []) :
    ∀ s ∈ body.take (maxFuncs - pool.funcs.length), Lowers prog s := by
  induction body generalizing pool f with
  | nil => simp
  | cons s rest ih =>
    by_cases room : pool.funcs.length < maxFuncs
    · rcases buildFunctions_cons (funcs s (by simp)) room ran with
        ⟨h, built, ran⟩ | ⟨-, err, ran⟩
      · have later := ih (fun t member => funcs t (by simp [member])) ran (f := f) (by
          rw [List.getElem?_append_left (List.getElem?_eq_some_iff.mp first).1, first])
        intro t member
        obtain ⟨k, space⟩ : ∃ k, maxFuncs - pool.funcs.length = k + 1 :=
          ⟨maxFuncs - pool.funcs.length - 1, by omega⟩
        rw [space, List.take_succ_cons, List.mem_cons] at member
        rcases member with rfl | member
        · exact ⟨h, built⟩
        · refine later t ?_
          rwa [show maxFuncs - (pool.funcs ++ [h]).length = k by
            simp only [List.length_append, List.length_singleton]; omega]
      · have emptied : (pool.funcs.map fun _ => ({} : Func))[0]? = some ({} : Func) := by
          rw [List.getElem?_map, first]
          rfl
        exact absurd (buildFunctions_empty ran emptied rfl last) full
    · rw [Nat.sub_eq_zero_of_le (by omega)]
      simp

theorem buildFunctions_pairs {prog : List Stmt} {maxFuncs : Nat} {err : String} {done : Pool}
    (ran : buildFunctions prog maxFuncs prog { err := err } = .ok done) :
    PairsUp prog done.funcs ↔ (∀ s ∈ (functions prog).take maxFuncs, Lowers prog s) ∨
      ∀ s ∈ functions prog, ¬ Lowers prog s := by
  rw [buildFunctions_filter] at ran
  have funcs : ∀ s ∈ functions prog, s.isFunc = true := by simp [functions]
  constructor
  · intro pairs
    cases heads : functions prog with
    | nil => exact .inl (by simp)
    | cons s rest =>
      by_cases room : 0 < maxFuncs
      swap
      · rw [Nat.eq_zero_of_not_pos room]
        exact .inl (by simp)
      rw [show prog.filter Stmt.isFunc = s :: rest from heads] at ran
      rw [heads] at funcs
      rcases buildFunctions_cons (funcs s (by simp)) room ran with
        ⟨f, built, ran⟩ | ⟨failed, err, ran⟩
      · -- The first function is there, so nothing after it can have emptied it.
        have grown := buildFunctions_length ran
        obtain ⟨g, last⟩ : ∃ g, done.funcs[0]? = some g :=
          ⟨_, List.getElem?_eq_getElem (Nat.lt_of_lt_of_le (by simp) grown)⟩
        have later := buildFunctions_lowers (fun t member => funcs t (by simp [member])) ran
          (f := f) rfl last (pairs 0 g last).1
        refine .inl ?_
        intro t member
        rw [show maxFuncs = maxFuncs - 1 + 1 by omega, List.take_succ_cons, List.mem_cons] at member
        rcases member with rfl | member
        · exact ⟨f, built⟩
        · exact later t (by simpa using member)
      · -- The first statement has no function, so there may not be any at all.
        have absent : done.funcs = [] := by
          cases built : done.funcs with
          | nil => rfl
          | cons g _ =>
            obtain ⟨-, t, position, lowered⟩ := pairs 0 g (by simp [built])
            rw [heads] at position
            cases Option.some.inj position
            exact absurd ⟨g, lowered⟩ failed
        have later := buildFunctions_added (fun t member => funcs t (by simp [member])) room ran
          (by simp [absent])
        refine .inr ?_
        intro t member
        rcases List.mem_cons.mp member with rfl | member
        · exact failed
        · exact later t member
  · rintro (all | none)
    · obtain ⟨fs, appended, each⟩ := buildFunctions_all funcs ran (by simpa using all)
      intro i f found
      rw [appended] at found
      obtain ⟨s, position, built⟩ := each i f (by simpa using found)
      exact ⟨buildFunction_nonempty built, s, position, built⟩
    · intro i f found
      have length := buildFunctions_none none ran
      rw [List.eq_nil_of_length_eq_zero length] at found
      cases found

/--
The functions pair up with the statements the callers take them for exactly when all functions that
there is room for can be built, or none of the program can.
-/
theorem buildNir_pairs_iff {buildExternTable : List Stmt → Except String (List ExternEntry)}
    {prog : List Stmt} {maxFuncs : Nat} {err : String} {built : Built}
    (done : buildNir buildExternTable prog maxFuncs err = .ok built) :
    PairsUp prog built.funcs ↔ (∀ s ∈ (functions prog).take maxFuncs, Lowers prog s) ∨
      ∀ s ∈ functions prog, ¬ Lowers prog s := by
  unfold buildNir at done
  split at done
  · cases done
  · split at done
    · cases done
    · next ran =>
      split at done
      · cases done
      · cases done
        exact buildFunctions_pairs ran

/-- A program with a function that cannot be built before one that can. -/
def misnamed : List Stmt :=
  [.func "bad" none [] (.block false (.cons (.returnValue (.literal .str)) .nil)),
    .func "good" none [] (.block false (.cons (.returnValue (.literal (.int 7))) .nil)),
    .expr (.call (.ident "good") .nil)]

/-- There the only function built stands at the position of the one that could not be. -/
theorem buildNir_misnamed : ∃ built, buildNir (fun _ => .ok []) misnamed 128 "" = .ok built ∧
    ¬ PairsUp misnamed built.funcs := by
  refine ⟨_, rfl, ?_⟩
  intro pairs
  obtain ⟨-, s, position, lowered⟩ := pairs 0 _ rfl
  cases position
  cases lowered

/-- A program all of whose functions can be built. -/
def wellNamed : List Stmt := misnamed.tail

/-- There the functions pair up. -/
theorem buildNir_wellNamed : ∃ built, buildNir (fun _ => .ok []) wellNamed 128 "" = .ok built ∧
    PairsUp wellNamed built.funcs := by
  have done : buildNir (fun _ => .ok []) wellNamed 128 "" = .ok ⟨_, _, _⟩ := rfl
  refine ⟨_, done, (buildNir_pairs_iff done).mpr (.inl ?_)⟩
  intro s member
  cases List.mem_singleton.mp member
  exact ⟨_, rfl⟩

end Nytrix.Lower
