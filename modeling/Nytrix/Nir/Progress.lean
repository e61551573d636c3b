import Mathlib.Data.Set.Insert
import Nytrix.Nir.EvalLaws

/-! When the verifier's textual check is enough for a run never to read an absent value. -/

namespace Nytrix.Nir

open Nytrix.Lib

variable {σ : Type}

/--
A position is reached along some path of the control-flow graph, on which exactly these values
have been produced.
-/
inductive Reach (f : Func) : Nat → Set Int → Prop
  | entry : Reach f 0 ∅
  | edge {i j : Nat} {W : Set Int} {inst : Inst} (path : Reach f i W)
      (found : f.data[i]? = some inst) (passes : Edge f i inst j) :
      Reach f j (W ∪ {v | inst.writes = some v})

/-- On every path from the entry, a value is produced before it is read. -/
def DefinedOnAllPaths (f : Func) : Prop :=
  ∀ i W inst, Reach f i W → f.data[i]? = some inst → ∀ v ∈ inst.reads, v ∈ W

theorem DefinedOnAllPaths.of_available {f : Func} (avail : Nat → Set Int)
    (start : avail 0 = ∅)
    (flows : ∀ i inst j, f.data[i]? = some inst → Edge f i inst j →
      avail j ⊆ avail i ∪ {v | inst.writes = some v})
    (covers : ∀ i inst, f.data[i]? = some inst → ∀ v ∈ inst.reads, v ∈ avail i) :
    DefinedOnAllPaths f := by
  -- Along any path, the certified set stays inside what that path has produced.
  have inside : ∀ i W, Reach f i W → avail i ⊆ W := by
    intro i W path
    induction path with
    | entry => simp [start]
    | edge _ found passes ih =>
      exact (flows _ _ _ found passes).trans (Set.union_subset_union_left _ ih)
  intro i W inst path found v read
  exact inside i W path (covers i inst found v read)

/-- The positions control may pass to, as a list. -/
def successors (f : Func) (i : Nat) (inst : Inst) : List Nat :=
  match inst.op.shape with
  | .ret => []
  | .br => (labelTable f inst.imm).toList
  | .brIf => (i + 1) :: (labelTable f inst.imm).toList
  | _ => [i + 1]

theorem mem_successors {f : Func} {i j : Nat} {inst : Inst} :
    j ∈ successors f i inst ↔ Edge f i inst j := by
  unfold successors Edge
  cases inst.op.shape <;> simp

/-- Whether a list of availability sets, one for each position, passes along every edge. -/
def certifies (f : Func) (avail : List (List Int)) : Bool :=
  (avail.getD 0 []).isEmpty && f.data.zipIdx.all fun (inst, i) =>
    inst.reads.all (fun v => v ∈ avail.getD i []) &&
      (successors f i inst).all fun j => (avail.getD j []).all fun v =>
        v ∈ avail.getD i [] || inst.writes = some v

theorem DefinedOnAllPaths.of_certifies {f : Func} (avail : List (List Int))
    (checked : certifies f avail = true) : DefinedOnAllPaths f := by
  simp only [certifies, Bool.and_eq_true, List.all_eq_true, decide_eq_true_eq, Bool.or_eq_true,
    List.isEmpty_iff, Prod.forall] at checked
  obtain ⟨start, all⟩ := checked
  have at_ {i : Nat} {inst : Inst} (found : f.data[i]? = some inst) := all inst i (by
    rw [List.mk_mem_zipIdx_iff_getElem?]
    exact found)
  refine .of_available (fun i => {v | v ∈ avail.getD i []}) ?_ ?_ ?_
  · simp only [start, List.not_mem_nil, Set.ofPred_false]
  · intro i inst j found passes v member
    exact (at_ found).2 j (mem_successors.mpr passes) v member
  · intro i inst found v read
    exact (at_ found).1 v read

/-- Every branch goes to a label whose number is not negative. -/
def BranchesNonneg (f : Func) : Prop :=
  ∀ (i : Nat) (inst : Inst), f.data[i]? = some inst → inst.op = .br ∨ inst.op = .brIf → 0 ≤ inst.imm.toInt

/-- Every two-operand instruction has a destination. -/
def BinariesHaveDst (f : Func) : Prop :=
  ∀ (i : Nat) (inst : Inst), f.data[i]? = some inst → inst.op.shape = .binary → 0 ≤ inst.dst

/-- The failures a well-formed function may still run into. -/
inductive EvalError.Benign (cfg : EvalConfig σ) : EvalError → Prop
  | stepLimit : Benign cfg .stepLimit
  | resolverFailed (text : String) : Benign cfg (.resolverFailed text)
  | noResolver (inst : Inst) (index : Nat) (absent : cfg.resolver = none) :
      Benign cfg (.noResolver inst index)
  | unsupported (inst : Inst) (index : Nat) : Benign cfg (.unsupported inst index)

/-- The states in which everything some path has produced is available. -/
def Available (f : Func) (s : State σ) : Prop :=
  ∃ W, Reach f s.pc W ∧ ∀ v ∈ W, s.values v ≠ none

theorem Available.next {f : Func} {cfg : EvalConfig σ} {s s' : State σ} (holds : Available f s)
    (moved : (vm f cfg).step s = .inl s') : Available f s' := by
  obtain ⟨W, path, known⟩ := holds
  obtain ⟨inst, found, stepped⟩ := vm_next moved
  obtain ⟨-, xs, -, executed⟩ := stepInst_next stepped
  obtain ⟨passes, values⟩ := execute_next executed
  refine ⟨_, .edge path found passes, fun v member => ?_⟩
  cases values with
  | same silent kept =>
    rw [kept]
    rcases member with old | new
    · exact known v old
    · simp [silent] at new
  | written u x produced updated =>
    rw [updated, Function.update_apply]
    split
    · simp
    · rename_i other
      rcases member with old | new
      · exact known v old
      · rw [Set.mem_ofPred_eq, produced, Option.some.injEq] at new
        exact absurd new.symm other

theorem lt_localCount {f : Func} {i : Nat} {inst : Inst} (found : f.data[i]? = some inst)
    (access : inst.op = .loadLocal ∨ inst.op = .storeLocal ∨ inst.op = .addrLocal)
    (nonneg : 0 ≤ inst.imm.toInt) : inst.imm.toNat < localCount f := by
  -- The running maximum never drops, and it passes this slot when it meets the access.
  have general : ∀ (insts : List Inst) (count : Nat), count ≤ insts.foldl coverSlot count ∧
      (inst ∈ insts → inst.imm.toNat < insts.foldl coverSlot count) := by
    intro insts
    induction insts with
    | nil => intro count; simp
    | cons head rest ih =>
      intro count
      simp only [List.foldl_cons, List.mem_cons]
      have tail := ih (coverSlot count head)
      refine ⟨?_, ?_⟩
      · refine Nat.le_trans ?_ tail.1
        unfold coverSlot
        split
        · rename_i bigger
          simp only [Bool.and_eq_true, decide_eq_true_eq] at bigger
          have := toNat_of_nonneg (x := head.imm) (by omega)
          omega
        · exact Nat.le_refl _
      · rintro (rfl | later)
        · refine Nat.lt_of_lt_of_le ?_ tail.1
          have same := toNat_of_nonneg nonneg
          unfold coverSlot
          split
          · omega
          · rename_i smaller
            have small : ¬ (count : Int) ≤ inst.imm.toInt := by
              intro le
              refine smaller ?_
              rcases access with op | op | op <;> simp [op, le]
            omega
        · exact tail.2 later
  exact (general f.data 0).2 (List.mem_of_getElem? found)

theorem mapM_readValue_isSome {values : Int → Option I64} {reads : List Int}
    (known : ∀ v ∈ reads, 0 ≤ v ∧ values v ≠ none) :
    ∃ xs, reads.mapM (readValue values) = some xs := by
  induction reads with
  | nil => exact ⟨[], rfl⟩
  | cons v rest ih =>
    obtain ⟨xs, tail⟩ := ih fun u member => known u (by simp [member])
    obtain ⟨nonneg, present⟩ := known v (by simp)
    obtain ⟨x, value⟩ := Option.ne_none_iff_exists'.mp present
    refine ⟨x :: xs, ?_⟩
    simp [readValue, value, tail, Int.not_lt.mpr nonneg]

section Progress

variable {f : Func} {cfg : EvalConfig σ} (accepted : verify f = .ok ())
  (paths : DefinedOnAllPaths f) (branches : BranchesNonneg f) (dsts : BinariesHaveDst f)
  (slots : localCount f ≤ cfg.locals.count)

include accepted branches in
/-- A branch of an accepted function finds its label. -/
theorem jump_moves {i : Nat} {inst : Inst} (found : f.data[i]? = some inst)
    (isBranch : inst.op = .br ∨ inst.op = .brIf) (s : State σ) :
    ∃ s', jump f inst s = (.inl s' : State σ ⊕ Outcome σ) := by
  have target := (OpOk.of_verify accepted found).target isBranch
  obtain ⟨j, label, at_, isLabel, same⟩ := labelExists_iff.mp target
  have nonneg := branches i inst found isBranch
  obtain ⟨pc, entry⟩ := labelTable_isSome at_ isLabel (by rw [same]; exact nonneg)
  rw [same] at entry
  exact ⟨{ s with pc := pc }, by simp only [jump, entry]⟩

include accepted branches dsts in
/-- Executing a well-formed instruction fails only in the ways that depend on its operands. -/
theorem execute_benign {inst : Inst} {s : State σ} (found : f.data[s.pc]? = some inst)
    {xs : List I64} {err : EvalError}
    (failed : execute f cfg inst xs s = .inr (.error err)) : err.Benign cfg := by
  have formed := (OpOk.of_verify accepted found).wellFormed
  have written (dst : 0 ≤ inst.dst) (x : I64)
      (bad : writeDst inst s x = .inr (.error err)) : err.Benign cfg := by
    simp only [writeDst, if_pos dst, reduceCtorEq] at bad
  have jumped (isBranch : inst.op = .br ∨ inst.op = .brIf)
      (bad : jump f inst s = .inr (.error err)) : err.Benign cfg := by
    obtain ⟨s', moves⟩ := jump_moves accepted branches found isBranch s
    simp [moves] at bad
  have unsupported : (.inr (.error (.unsupported inst s.pc)) : State σ ⊕ Outcome σ) =
      .inr (.error err) → err.Benign cfg := by
    intro same
    obtain rfl := by simpa using same
    exact .unsupported _ _
  cases shape : inst.op.shape <;> simp only [execute, shape] at failed <;>
    simp only [Inst.wellFormed, shape, Bool.and_eq_true, decide_eq_true_eq] at formed
  case nop | label | storeLocal => cases failed
  case const =>
    rw [if_pos formed] at failed
    exact written formed _ failed
  case unary => exact written formed _ failed
  case loadLocal | addrLocal => exact written formed.1 _ failed
  case loadI64 =>
    split at failed
    · exact unsupported failed
    · exact written formed _ failed
  case addrSymbol | alloca | copyStruct | captureRet => exact unsupported failed
  case storeI64 =>
    split at failed
    · exact unsupported failed
    · cases failed
  case ret => cases failed
  case br => exact jumped (.inl (Op.of_shape shape rfl)) failed
  case brIf =>
    split at failed
    · cases failed
    · exact jumped (.inr (Op.of_shape shape rfl)) failed
  case binary =>
    split at failed
    · exact written (dsts s.pc inst found shape) _ failed
    · exact unsupported failed
  case call =>
    split at failed
    · rename_i absent
      obtain rfl := by simpa using failed
      exact .noResolver _ _ absent
    · split at failed
      · obtain rfl := by simpa using failed
        exact .resolverFailed _
      · split at failed
        · rename_i dst
          simp only [writeDst, if_pos dst, reduceCtorEq] at failed
        · cases failed

include accepted slots in
/-- The checks before reading fail only for want of a resolver. -/
theorem precheck_benign {inst : Inst} {s : State σ} (found : f.data[s.pc]? = some inst)
    {err : EvalError} (failed : precheck cfg inst s.pc = some err) : err.Benign cfg := by
  have formed := (OpOk.of_verify accepted found).wellFormed
  have local_ (nonneg : 0 ≤ inst.imm.toInt)
      (access : inst.op = .loadLocal ∨ inst.op = .storeLocal ∨ inst.op = .addrLocal)
      (bad : (inst.imm.toInt < 0 || decide (cfg.locals.count ≤ inst.imm.toNat)) = true) : False := by
    have below := lt_localCount found access nonneg
    simp only [Bool.or_eq_true, decide_eq_true_eq] at bad
    omega
  unfold precheck at failed
  cases shape : inst.op.shape <;> simp only [shape, reduceCtorEq] at failed <;>
    simp only [Inst.wellFormed, shape, Bool.and_eq_true, decide_eq_true_eq] at formed
  case loadLocal =>
    split at failed
    · exact (local_ formed.2 (.inl (Op.of_shape shape rfl)) ‹_›).elim
    · cases failed
  case addrLocal =>
    split at failed
    · exact (local_ formed.2 (.inr (.inr (Op.of_shape shape rfl))) ‹_›).elim
    · cases failed
  case storeLocal =>
    split at failed
    · exact (local_ formed (.inr (.inl (Op.of_shape shape rfl))) ‹_›).elim
    · cases failed
  case call =>
    split at failed
    · rename_i absent
      obtain rfl := by simpa using failed
      exact .noResolver _ _ (by simpa using absent)
    · split at failed
      · rename_i bad
        simp only [callWellFormed, Bool.and_eq_true, decide_eq_true_eq] at formed
        simp only [Bool.or_eq_true, decide_eq_true_eq] at bad
        omega
      · cases failed

include accepted paths branches dsts slots in
/-- From an available state, the VM fails only in the ways that depend on its operands. -/
theorem step_benign {s : State σ} (holds : Available f s) {err : EvalError}
    (failed : (vm f cfg).step s = .inr (.error err)) : err.Benign cfg := by
  simp only [vm] at failed
  cases found : f.data[s.pc]? with
  | none => simp [found] at failed
  | some inst =>
    simp only [found, stepInst] at failed
    cases checked : precheck cfg inst s.pc with
    | some early =>
      obtain rfl : early = err := by simpa [checked] using failed
      exact precheck_benign accepted slots found checked
    | none =>
      obtain ⟨W, path, known⟩ := holds
      have available : ∀ v ∈ inst.reads, 0 ≤ v ∧ s.values v ≠ none := fun v member =>
        ⟨(read_defined accepted found member).1, known v (paths s.pc W inst path found v member)⟩
      obtain ⟨xs, read⟩ := mapM_readValue_isSome available
      simp only [checked, read] at failed
      exact execute_benign accepted branches dsts found failed

end Progress

/-- A branch over the only definition of the value that is returned. -/
def skippedDefinition : Func := refreshMetadata {
  data := [{ op := .br, dst := -1, imm := 0 }, { op := .constI64, dst := 0, imm := 7 },
    { op := .label, dst := -1, imm := 0 }, { op := .ret, dst := -1, a := 0 }]
  nextValue := 1 }

/-- A branch to a label with a negative number, which the verifier finds and the VM does not. -/
def negativeLabel : Func := refreshMetadata {
  data := [{ op := .br, dst := -1, imm := -1 }, { op := .label, dst := -1, imm := -1 }]
  nextValue := 0 }

/-- A loop-free function that branches on a value and returns it at the join. -/
def guardedReturn : Func := refreshMetadata {
  data := [{ op := .loadLocal, dst := 0, imm := 1 }, { op := .brIf, dst := -1, a := 0, imm := 3 },
    { op := .storeLocal, dst := -1, a := 0, imm := 2 }, { op := .label, dst := -1, imm := 3 },
    { op := .ret, dst := -1, a := 0 }]
  nextValue := 1 }

theorem guardedReturn_definedOnAllPaths : DefinedOnAllPaths guardedReturn :=
  .of_certifies [[], [0], [0], [0], [0]] (by decide)

end Nytrix.Nir
