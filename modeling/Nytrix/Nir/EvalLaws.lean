import Mathlib.Data.List.Induction
import Nytrix.Nir.VerifyLaws

/-! What one VM step can do, where labels lead, and how a step budget relates to a whole run. -/

namespace Nytrix.Nir

open Nytrix.Lib

variable {σ : Type}

/-- The label an instruction defines, if it is one. -/
def Inst.labelMark (inst : Inst) : Option I64 :=
  if inst.op = .label then some inst.imm else none

theorem Inst.labelMark_eq_some {inst : Inst} {l : I64} :
    inst.labelMark = some l ↔ inst.op = .label ∧ inst.imm = l := by
  unfold labelMark
  split <;> simp_all

theorem labelTable_append (insts : List Inst) (inst : Inst) (n : Int) :
    labelTable { data := insts ++ [inst], nextValue := n } =
      if inst.op = .label && decide (0 ≤ inst.imm.toInt) then
        Function.update (labelTable { data := insts, nextValue := n }) inst.imm
          (some (insts.length + 1))
      else labelTable { data := insts, nextValue := n } := by
  simp only [labelTable, List.zipIdx_append, List.foldl_append]
  simp

theorem labelTable_some {f : Func} {l : I64} {pc : Nat} (entry : labelTable f l = some pc) :
    ∃ i inst, pc = i + 1 ∧ f.data[i]? = some inst ∧ inst.op = .label ∧ inst.imm = l ∧
      0 ≤ l.toInt := by
  -- The table grows at the end of the list, so the induction removes the last instruction.
  obtain ⟨data, n⟩ := f
  induction data using List.reverseRecOn with
  | nil => simp [labelTable] at entry
  | append_singleton insts inst ih =>
    rw [labelTable_append] at entry
    have older (earlier : labelTable { data := insts, nextValue := n } l = some pc) :
        ∃ i inst', pc = i + 1 ∧ (insts ++ [inst])[i]? = some inst' ∧ inst'.op = .label ∧
          inst'.imm = l ∧ 0 ≤ l.toInt := by
      obtain ⟨i, inst', rfl, found, rest⟩ := ih earlier
      have bound := (List.getElem?_eq_some_iff.mp found).1
      exact ⟨i, inst', rfl, by rw [List.getElem?_append_left bound]; exact found, rest⟩
    split at entry
    · rename_i isLabel
      simp only [Bool.and_eq_true, decide_eq_true_eq] at isLabel
      rw [Function.update_apply] at entry
      split at entry
      · rename_i same
        subst same
        exact ⟨insts.length, inst, by simpa using entry.symm, by simp, isLabel.1, rfl, isLabel.2⟩
      · exact older entry
    · exact older entry

theorem labelTable_isSome {f : Func} {i : Nat} {inst : Inst} (found : f.data[i]? = some inst)
    (isLabel : inst.op = .label) (nonneg : 0 ≤ inst.imm.toInt) :
    ∃ pc, labelTable f inst.imm = some pc := by
  obtain ⟨data, n⟩ := f
  induction data using List.reverseRecOn with
  | nil => simp at found
  | append_singleton insts last ih =>
    rw [labelTable_append]
    by_cases final : last.op = .label ∧ 0 ≤ last.imm.toInt ∧ last.imm = inst.imm
    · obtain ⟨lastLabel, lastNonneg, same⟩ := final
      rw [if_pos (by simp [lastLabel, lastNonneg]), ← same, Function.update_self]
      exact ⟨_, rfl⟩
    · -- The label is an earlier one, and the last instruction does not hide it.
      have earlier : insts[i]? = some inst := by
        rcases Nat.lt_or_ge i insts.length with inside | outside
        · rwa [List.getElem?_append_left inside] at found
        · rw [List.getElem?_append_right outside] at found
          obtain rfl : inst = last := List.mem_singleton.mp (List.mem_of_getElem? found)
          exact absurd ⟨isLabel, nonneg, rfl⟩ final
      obtain ⟨pc, entry⟩ := ih earlier
      refine ⟨pc, ?_⟩
      split
      · rename_i isLast
        simp only [Bool.and_eq_true, decide_eq_true_eq] at isLast
        rw [Function.update_of_ne fun same => final ⟨isLast.1, isLast.2, same.symm⟩]
        exact entry
      · exact entry

theorem labelTable_congr {f g : Func}
    (same : f.data.map Inst.labelMark = g.data.map Inst.labelMark) :
    labelTable f = labelTable g := by
  obtain ⟨xs, n⟩ := f
  obtain ⟨ys, k⟩ := g
  simp only at same
  induction xs using List.reverseRecOn generalizing ys with
  | nil =>
    have : ys = [] := by simpa using same.symm
    subst this
    rfl
  | append_singleton xs x ih =>
    rcases List.eq_nil_or_concat ys with rfl | ⟨ys, y, rfl⟩
    · simp at same
    · have lengths : xs.length = ys.length := by
        have := congrArg List.length same
        simpa using this
      simp only [List.concat_eq_append, List.map_append, List.map_cons, List.map_nil] at same
      obtain ⟨front, back⟩ := List.append_inj same (by simp [lengths])
      have tables := ih ys front
      rw [List.concat_eq_append, labelTable_append, labelTable_append, tables, lengths]
      have marks : x.labelMark = y.labelMark := by simpa using back
      by_cases isLabel : x.op = .label
      · have other := Inst.labelMark_eq_some.mp (marks ▸ Inst.labelMark_eq_some.mpr ⟨isLabel, rfl⟩)
        simp [isLabel, other.1, other.2]
      · have other : ¬ y.op = .label := fun yLabel =>
          isLabel (Inst.labelMark_eq_some.mp (marks ▸ Inst.labelMark_eq_some.mpr ⟨yLabel, rfl⟩)).1
        simp [isLabel, other]

theorem label_unique {f : Func} (accepted : verify f = .ok ()) {i j : Nat} {p q : Inst}
    (first : f.data[i]? = some p) (second : f.data[j]? = some q) (pLabel : p.op = .label)
    (qLabel : q.op = .label) (same : p.imm = q.imm) : i = j := by
  -- The later of two equal labels fails the duplicate check.
  have clash : ∀ {i j : Nat} {p q : Inst}, f.data[i]? = some p → f.data[j]? = some q →
      p.op = .label → q.op = .label → p.imm = q.imm → i < j → False := by
    intro i j p q first second pLabel qLabel same before
    have checks := (OpOk.of_verify accepted second).fresh qLabel
    simp only [List.any_eq_false] at checks
    have member : p ∈ f.data.take j :=
      List.mem_of_getElem? (i := i) (by rw [List.getElem?_take_of_lt before]; exact first)
    exact checks p member (by simp [pLabel, same])
  rcases Nat.lt_trichotomy i j with before | equal | after
  · exact (clash first second pLabel qLabel same before).elim
  · exact equal
  · exact (clash second first qLabel pLabel same.symm after).elim

theorem labelTable_of_verify {f : Func} (accepted : verify f = .ok ()) {i : Nat} {inst : Inst}
    (found : f.data[i]? = some inst) (isLabel : inst.op = .label) (nonneg : 0 ≤ inst.imm.toInt) :
    labelTable f inst.imm = some (i + 1) := by
  obtain ⟨pc, entry⟩ := labelTable_isSome found isLabel nonneg
  obtain ⟨j, other, rfl, at_, otherLabel, same, -⟩ := labelTable_some entry
  have := label_unique accepted found at_ isLabel otherLabel same.symm
  rw [entry, this]

theorem labelExists_iff {f : Func} {l : I64} :
    labelExists f l = true ↔
      ∃ (i : Nat) (inst : Inst), f.data[i]? = some inst ∧ inst.op = .label ∧ inst.imm = l := by
  simp only [labelExists, List.any_eq_true, Bool.and_eq_true, decide_eq_true_eq]
  constructor
  · rintro ⟨inst, member, isLabel, same⟩
    obtain ⟨i, found⟩ := List.mem_iff_getElem?.mp member
    exact ⟨i, inst, found, isLabel, same⟩
  · rintro ⟨i, inst, found, isLabel, same⟩
    exact ⟨inst, List.mem_of_getElem? found, isLabel, same⟩

/-- Whether opcodes of this shape produce the value they name as their destination. -/
def Shape.writes : Shape → Bool
  | .nop | .label | .storeLocal | .storeI64 | .copyStruct | .ret | .br | .brIf => false
  | _ => true

/-- The value an instruction produces, if it produces one. -/
def Inst.writes (inst : Inst) : Option Int :=
  if inst.op.shape.writes && decide (0 ≤ inst.dst) then some inst.dst else none

theorem Inst.writes_eq_some {inst : Inst} {v : Int} :
    inst.writes = some v ↔ inst.op.shape.writes = true ∧ 0 ≤ v ∧ inst.dst = v := by
  unfold writes
  split
  · rename_i producing
    simp only [Bool.and_eq_true, decide_eq_true_eq] at producing
    simp only [Option.some.injEq]
    exact ⟨fun same => ⟨producing.1, same ▸ producing.2, same⟩, fun all => all.2.2⟩
  · rename_i silent
    simp only [Bool.and_eq_true, decide_eq_true_eq, not_and] at silent
    simp only [reduceCtorEq, false_iff, not_and]
    rintro producing nonneg rfl
    exact silent producing nonneg

/-- Control may pass from position `i`, holding this instruction, to position `j`. -/
def Edge (f : Func) (i : Nat) (inst : Inst) (j : Nat) : Prop :=
  match inst.op.shape with
  | .ret => False
  | .br => labelTable f inst.imm = some j
  | .brIf => j = i + 1 ∨ labelTable f inst.imm = some j
  | _ => j = i + 1

/-- The values after a move: one new value for a producing instruction, no change otherwise. -/
inductive ValuesStep (inst : Inst) (before after : Int → Option I64) : Prop
  | same (silent : inst.writes = none) (kept : after = before)
  | written (v : Int) (x : I64) (produced : inst.writes = some v)
      (updated : after = Function.update before v (some x))

theorem writeDst_next {inst : Inst} {s s' : State σ} {x : I64}
    (moved : writeDst inst s x = .inl s') :
    0 ≤ inst.dst ∧
      s' = { s with pc := s.pc + 1, values := Function.update s.values inst.dst (some x) } := by
  unfold writeDst at moved
  split at moved
  · rename_i has
    exact ⟨has, by simpa using moved.symm⟩
  · cases moved

theorem jump_next {f : Func} {inst : Inst} {s s' : State σ} (moved : jump f inst s = .inl s') :
    labelTable f inst.imm = some s'.pc ∧ s' = { s with pc := s'.pc } := by
  unfold jump at moved
  split at moved
  · rename_i pc entry
    obtain rfl : { s with pc := pc } = s' := by simpa using moved
    exact ⟨entry, rfl⟩
  · cases moved

theorem ValuesStep.of_writeDst {inst : Inst} {s s' : State σ} {x : I64}
    (producing : inst.op.shape.writes = true) (moved : writeDst inst s x = .inl s') :
    ValuesStep inst s.values s'.values ∧ s'.pc = s.pc + 1 := by
  obtain ⟨has, rfl⟩ := writeDst_next moved
  exact ⟨.written inst.dst x (Inst.writes_eq_some.mpr ⟨producing, has, rfl⟩) rfl, rfl⟩

theorem execute_next {f : Func} {cfg : EvalConfig σ} {inst : Inst} {xs : List I64}
    {s s' : State σ} (moved : execute f cfg inst xs s = .inl s') :
    Edge f s.pc inst s'.pc ∧ ValuesStep inst s.values s'.values := by
  have silent (quiet : inst.op.shape.writes = false) : inst.writes = none := by
    simp [Inst.writes, quiet]
  cases shape : inst.op.shape <;> simp only [execute, shape] at moved
  case nop | label | storeLocal =>
    obtain rfl := by simpa using moved
    exact ⟨by simp [Edge, shape], .same (silent (by simp [shape, Shape.writes])) rfl⟩
  case const =>
    split at moved
    · obtain ⟨values, pc⟩ := ValuesStep.of_writeDst (by simp [shape, Shape.writes]) moved
      exact ⟨by simp [Edge, shape, pc], values⟩
    · rename_i none
      obtain rfl := by simpa using moved
      exact ⟨by simp [Edge, shape], .same (by simp [Inst.writes, none]) rfl⟩
  case unary | addrLocal | loadLocal =>
    obtain ⟨values, pc⟩ := ValuesStep.of_writeDst (by simp [shape, Shape.writes]) moved
    exact ⟨by simp [Edge, shape, pc], values⟩
  case loadI64 =>
    split at moved
    · cases moved
    · obtain ⟨values, pc⟩ := ValuesStep.of_writeDst (by simp [shape, Shape.writes]) moved
      exact ⟨by simp [Edge, shape, pc], values⟩
  case addrSymbol | alloca | copyStruct | captureRet | ret => cases moved
  case storeI64 =>
    split at moved
    · cases moved
    · obtain rfl := by simpa using moved
      exact ⟨by simp [Edge, shape], .same (silent (by simp [shape, Shape.writes])) rfl⟩
  case binary =>
    split at moved
    · obtain ⟨values, pc⟩ := ValuesStep.of_writeDst (by simp [shape, Shape.writes]) moved
      exact ⟨by simp [Edge, shape, pc], values⟩
    · cases moved
  case br =>
    obtain ⟨entry, same⟩ := jump_next moved
    exact ⟨by simpa [Edge, shape] using entry,
      .same (silent (by simp [shape, Shape.writes])) (by rw [same])⟩
  case brIf =>
    split at moved
    · obtain rfl := by simpa using moved
      exact ⟨by simp [Edge, shape], .same (silent (by simp [shape, Shape.writes])) rfl⟩
    · obtain ⟨entry, same⟩ := jump_next moved
      exact ⟨by simpa [Edge, shape] using .inr entry,
        .same (silent (by simp [shape, Shape.writes])) (by rw [same])⟩
  case call =>
    split at moved
    · cases moved
    · split at moved
      · cases moved
      · split at moved
        · obtain ⟨values, pc⟩ := ValuesStep.of_writeDst (by simp [shape, Shape.writes]) moved
          exact ⟨by simp [Edge, shape, pc], values⟩
        · rename_i none
          obtain rfl := by simpa using moved
          exact ⟨by simp [Edge, shape], .same (by simp [Inst.writes, none]) rfl⟩

theorem stepInst_next {f : Func} {cfg : EvalConfig σ} {inst : Inst} {s : State σ}
    {next : State σ} (moved : stepInst f cfg inst s = .inl next) :
    precheck cfg inst s.pc = none ∧ ∃ xs, inst.reads.mapM (readValue s.values) = some xs ∧
      execute f cfg inst xs s = .inl next := by
  unfold stepInst at moved
  cases checked : precheck cfg inst s.pc with
  | some err => simp [checked] at moved
  | none =>
    simp only [checked] at moved
    cases read : inst.reads.mapM (readValue s.values) with
    | none => simp [read] at moved
    | some xs =>
      simp only [read] at moved
      exact ⟨rfl, xs, rfl, moved⟩

/-- What an instruction without effects computes from its operands. -/
def Inst.pureResult (inst : Inst) (xs : List I64) : Option I64 :=
  match inst.op.shape with
  | .const => some inst.imm
  | .unary => some (unaryResult inst.op (xs.getD 0 0))
  | .binary => binaryResult inst.op inst.cmp (xs.getD 0 0) (xs.getD 1 0)
  | _ => none

theorem execute_pure {f : Func} {cfg : EvalConfig σ} {inst : Inst} {xs : List I64} {s : State σ}
    (pure : inst.op.shape.isPure = true) (has : 0 ≤ inst.dst) :
    execute f cfg inst xs s = match inst.pureResult xs with
      | some x => .inl { s with
          pc := s.pc + 1, values := Function.update s.values inst.dst (some x) }
      | none => .inr (.error (.unsupported inst s.pc)) := by
  cases shape : inst.op.shape <;> simp only [shape, Shape.isPure, reduceCtorEq] at pure
  case const => simp only [execute, shape, Inst.pureResult, writeDst, if_pos has]
  case unary => simp only [execute, shape, Inst.pureResult, writeDst, if_pos has]
  case binary =>
    simp only [execute, shape, Inst.pureResult]
    cases binaryResult inst.op inst.cmp (xs.getD 0 0) (xs.getD 1 0) with
    | none => rfl
    | some x => simp only [writeDst, if_pos has]

theorem mapM_readValue_one {values : Int → Option I64} {v : Int} {xs : List I64}
    (read : [v].mapM (readValue values) = some xs) : ∃ x, xs = [x] ∧ values v = some x := by
  simp only [List.mapM_cons, List.mapM_nil, Option.bind_eq_bind, Option.bind_eq_some_iff,
    Option.pure_def, Option.some.injEq] at read
  obtain ⟨x, value, _, rfl, rfl⟩ := read
  refine ⟨x, rfl, ?_⟩
  unfold readValue at value
  split at value
  · cases value
  · exact value

theorem mapM_readValue_two {values : Int → Option I64} {v w : Int} {xs : List I64}
    (read : [v, w].mapM (readValue values) = some xs) :
    ∃ x y, xs = [x, y] ∧ values v = some x ∧ values w = some y := by
  rw [List.mapM_cons] at read
  simp only [Option.bind_eq_bind, Option.bind_eq_some_iff, Option.pure_def,
    Option.some.injEq] at read
  obtain ⟨x, value, ys, rest, rfl⟩ := read
  obtain ⟨y, rfl, second⟩ := mapM_readValue_one rest
  refine ⟨x, y, rfl, ?_, second⟩
  unfold readValue at value
  split at value
  · cases value
  · exact value

theorem copy_next {f : Func} {cfg : EvalConfig σ} {inst : Inst} {s s' : State σ}
    (isCopy : inst.op = .copy) (moved : stepInst f cfg inst s = .inl s') :
    s'.values = Function.update s.values inst.dst (s.values inst.a) := by
  obtain ⟨-, xs, read, executed⟩ := stepInst_next moved
  simp only [Inst.reads, isCopy, Op.shape] at read
  obtain ⟨x, rfl, value⟩ := mapM_readValue_one read
  simp only [execute, isCopy, Op.shape] at executed
  obtain ⟨-, rfl⟩ := writeDst_next executed
  simp [unaryResult, value]

theorem vm_next {f : Func} {cfg : EvalConfig σ} {s s' : State σ}
    (moved : (vm f cfg).step s = .inl s') :
    ∃ inst, f.data[s.pc]? = some inst ∧ stepInst f cfg inst s = .inl s' := by
  simp only [vm] at moved
  cases found : f.data[s.pc]? with
  | none => simp [found] at moved
  | some inst =>
    simp only [found] at moved
    exact ⟨inst, rfl, moved⟩

theorem vm_step_of_found {f : Func} {cfg : EvalConfig σ} {s : State σ} {inst : Inst}
    (found : f.data[s.pc]? = some inst) : (vm f cfg).step s = stepInst f cfg inst s := by
  simp only [vm, found]

theorem ret_of_stop {f : Func} {cfg : EvalConfig σ} {inst : Inst} {s : State σ}
    {r : EvalResult σ} (stopped : stepInst f cfg inst s = .inr (.ok r)) : inst.op = .ret := by
  have noWrite {t : State σ} {x : I64} : writeDst inst t x ≠ .inr (.ok r) := by
    unfold writeDst
    split <;> simp
  have noJump : jump f inst s ≠ .inr (.ok r) := by
    unfold jump
    split <;> simp
  unfold stepInst at stopped
  split at stopped
  · simp at stopped
  · split at stopped
    · simp at stopped
    · cases shape : inst.op.shape <;> simp only [execute, shape] at stopped
      case ret => exact Op.of_shape shape rfl
      case nop | label | storeLocal => cases stopped
      case const =>
        split at stopped
        · exact absurd stopped noWrite
        · cases stopped
      case unary | addrLocal | loadLocal => exact absurd stopped noWrite
      case loadI64 =>
        split at stopped
        · simp at stopped
        · exact absurd stopped noWrite
      case addrSymbol | alloca | copyStruct | captureRet => simp at stopped
      case storeI64 =>
        split at stopped
        · simp at stopped
        · cases stopped
      case br => exact absurd stopped noJump
      case brIf =>
        split at stopped
        · cases stopped
        · exact absurd stopped noJump
      case binary =>
        split at stopped
        · exact absurd stopped noWrite
        · simp at stopped
      case call =>
        split at stopped
        · simp at stopped
        · split at stopped
          · simp at stopped
          · split at stopped
            · exact absurd stopped noWrite
            · cases stopped

theorem evalLoop_of_ends {f : Func} {cfg : EvalConfig σ} {s : State σ} {out : Outcome σ}
    (ended : (vm f cfg).Ends s out) : ∃ n, ∀ m, n ≤ m → evalLoop f cfg m s = out := by
  obtain ⟨t, run, stopped⟩ := ended
  induction run using Relation.ReflTransGen.head_induction_on with
  | refl =>
    refine ⟨1, fun m enough => ?_⟩
    obtain ⟨m, rfl⟩ : ∃ k, m = k + 1 := ⟨m - 1, by omega⟩
    simp only [vm] at stopped
    rw [evalLoop]
    split
    · simp_all
    · simp_all
  | head moved _ ih =>
    obtain ⟨n, enough⟩ := ih
    refine ⟨n + 1, fun m bound => ?_⟩
    obtain ⟨m, rfl⟩ : ∃ k, m = k + 1 := ⟨m - 1, by omega⟩
    obtain ⟨inst, found, stepped⟩ := vm_next moved
    rw [evalLoop, found]
    simp only [stepped]
    exact enough m (by omega)

theorem ends_of_evalLoop (f : Func) (cfg : EvalConfig σ) (n : Nat) (s : State σ) :
    evalLoop f cfg n s = .error .stepLimit ∨ (vm f cfg).Ends s (evalLoop f cfg n s) := by
  induction n generalizing s with
  | zero =>
    rw [evalLoop]
    cases found : f.data[s.pc]? with
    | none => exact .inr (Machine.Ends.of_stop (by simp [vm, found]))
    | some inst => exact .inl rfl
  | succ n ih =>
    rw [evalLoop]
    cases found : f.data[s.pc]? with
    | none => exact .inr (Machine.Ends.of_stop (by simp [vm, found]))
    | some inst =>
      simp only
      cases stepped : stepInst f cfg inst s with
      | inl next =>
        have moved : (vm f cfg).step s = .inl next := by rw [vm_step_of_found found, stepped]
        rcases ih next with limit | ended
        · exact .inl limit
        · exact .inr (Machine.Ends.of_steps (.single moved) ended)
      | inr out =>
        exact .inr (Machine.Ends.of_stop (by rw [vm_step_of_found found, stepped]))

/-- The VM succeeds on a function: under some step budget it ends without an error. -/
def Succeeds (f : Func) (cfg : EvalConfig σ) (w : World σ) (r : EvalResult σ) : Prop :=
  ∃ maxSteps, evalWithCalls f cfg maxSteps w = .ok r

theorem succeeds_iff {f : Func} {cfg : EvalConfig σ} {w : World σ} {r : EvalResult σ} :
    Succeeds f cfg w r ↔
      verify f = .ok () ∧ (vm f cfg).Ends (initialState w) (.ok r) := by
  constructor
  · rintro ⟨maxSteps, evaluated⟩
    unfold evalWithCalls at evaluated
    cases checked : verify f with
    | error text => simp [checked] at evaluated
    | ok done =>
      simp only [checked] at evaluated
      refine ⟨rfl, ?_⟩
      have ends := ends_of_evalLoop f cfg (if maxSteps = 0 then 1000000 else maxSteps)
        (initialState w)
      rw [evaluated] at ends
      simpa using ends
  · rintro ⟨accepted, ended⟩
    obtain ⟨n, enough⟩ := evalLoop_of_ends ended
    refine ⟨n + 1, ?_⟩
    simp only [evalWithCalls, accepted, Nat.add_eq_zero_iff, Nat.one_ne_zero, and_false, if_false]
    exact enough (n + 1) (by omega)

end Nytrix.Nir
