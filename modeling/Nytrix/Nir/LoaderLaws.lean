import Nytrix.Nir.BinaryLaws

/-! What the loader leaves behind, for every byte stream and whatever was there before. -/

namespace Nytrix.Nir

open Nytrix.Lib

/-- A function the passes may be given: accepted, with every operand inside their tables. -/
structure Usable (f : Func) : Prop where
  accepted : verify f = .ok ()
  bounded : ∀ inst ∈ f.data, ∀ v ∈ inst.operands, 0 ≤ v → v < f.nextValue

/-- A successful load leaves a usable function, and a failed one what was there. -/
def LoadsSafely (nameLen : Nat) (bytes : List UInt8) (slots : LoadSlots) : Prop :=
  ((loadBinary nameLen bytes slots).1 = true → Usable (loadBinary nameLen bytes slots).2.func) ∧
    ((loadBinary nameLen bytes slots).1 = false →
      (loadBinary nameLen bytes slots).2.func = slots.func)

/-- The operands that the verifier does not look up are inside the tables all the same. -/
def UncheckedBounded (f : Func) : Prop :=
  ∀ inst ∈ f.data, (inst.op = .copyStruct → inst.a < f.nextValue ∧ inst.b < f.nextValue) ∧
    (inst.op ≠ .call → ∀ v ∈ inst.extraArgs, v < f.nextValue)

theorem loadBinary_atomic {nameLen : Nat} {bytes : List UInt8} {slots : LoadSlots}
    (failed : (loadBinary nameLen bytes slots).1 = false) :
    (loadBinary nameLen bytes slots).2.func = slots.func := by
  revert failed
  unfold loadBinary
  split
  · intro _
    rfl
  · split
    · intro _
      rfl
    · intro failed
      cases failed

theorem verify_refresh_iff {f : Func} (accepted : verify f = .ok ()) :
    verify (refreshMetadata f) = .ok () ↔ KeptReads f := by
  have fresh := DstsFresh.of_verify accepted
  constructor
  · intro after i inst found v read
    have found' : (refreshMetadata f).data[i]? = some (refreshInst inst) := by
      rw [refreshMetadata_getElem?, found]
      rfl
    have formed := (OpOk.of_verify accepted found).wellFormed
    rw [← refreshInst_reads formed] at read
    rw [← definedBefore_refresh]
    exact (read_defined after found' read).2.2
  · intro kept
    refine verify_refresh (verify_ok_iff.mp accepted).1 fresh (fun i inst found => ?_) fun i inst found => ?_
    · have common := CommonOk.of_verify accepted found
      have own := OpOk.of_verify accepted found
      refine ⟨common.argSizes, common.rangePaired, common.rangeOrdered, common.debug,
        common.dstBelow, fun nonneg => ?_, ?_, own.wellFormed, own.fresh, own.target, own.follows⟩
      · have unseen := common.dstFresh nonneg
        cases seen : keptBefore f i inst.dst with
        | false => rfl
        | true => rw [definedBefore_of_keptBefore seen] at unseen; cases unseen
      · intro v read
        obtain ⟨nonneg, below, -⟩ := read_defined accepted found read
        simp only [valueDefined, nonneg, below, decide_true, Bool.true_and]
        exact kept i inst found v read
    · exact (constraintChecks_none_iff.mp (validateConstraints_ok_iff.mp
        (verify_ok_iff.mp accepted).2.2 i inst found)).2

theorem callOperands_complete {inst : Inst} {v : Int} (formed : callWellFormed inst = true)
    (given : 0 ≤ v) (member : v ∈ inst.operands) : v ∈ callOperands inst := by
  obtain ⟨nonneg, lengths⟩ := callWellFormed_arity formed
  have all := (forall_callOperands (p := fun v => v ∈ callOperands inst) nonneg lengths).mp
    fun _ inside => inside
  simp only [callWellFormed, Bool.and_eq_true, Bool.or_eq_true, decide_eq_true_eq] at formed
  obtain ⟨⟨⟨⟨⟨⟨⟨⟨⟨⟨⟨-, -⟩, -⟩, a⟩, b⟩, c⟩, d⟩, e⟩, f⟩, -⟩, -⟩, -⟩ := formed
  simp only [Inst.operands, List.mem_cons] at member
  -- An operand field that is given is below the arity, so it is one of the arguments.
  rcases member with rfl | rfl | rfl | rfl | rfl | rfl | extra
  · exact all.1 (by omega)
  · exact all.2.1 (by omega)
  · exact all.2.2.1 (by omega)
  · exact all.2.2.2.1 (by omega)
  · exact all.2.2.2.2.1 (by omega)
  · exact all.2.2.2.2.2.1 (by omega)
  · exact all.2.2.2.2.2.2 v extra

theorem refreshInst_operand {inst : Inst} {v : Int} (formed : inst.wellFormed = true)
    (given : 0 ≤ v) (member : v ∈ (refreshInst inst).operands) :
    v ∈ inst.reads ∨ (inst.op = .copyStruct ∧ (v = inst.a ∨ v = inst.b)) ∨
      (inst.op ≠ .call ∧ v ∈ inst.extraArgs) := by
  obtain ⟨r, eq, -⟩ := refreshInst_eq inst
  rw [eq] at member
  have member : v ∈ (normalizeOperands inst).operands := member
  have absent : v ≠ -1 := by omega
  cases shape : inst.op.shape
  case call =>
    have formed : callWellFormed inst = true := by simpa [Inst.wellFormed, shape] using formed
    obtain ⟨same, formed'⟩ := normalizeOperands_call shape formed
    rw [Inst.reads, shape]
    show v ∈ callOperands inst ∨ _
    rw [← same]
    exact .inl (callOperands_complete formed' given member)
  all_goals
    have other : inst.op ≠ .call := by
      intro isCall
      rw [isCall] at shape
      cases shape
    simp only [Inst.operands, normalizeOperands, shape, List.mem_cons, absent, false_or] at member
    simp only [Inst.reads, shape]
  case ret =>
    rcases member with rfl | extra
    · rw [if_pos given]
      exact .inl (List.mem_singleton.mpr rfl)
    · exact .inr (.inr ⟨other, extra⟩)
  case copyStruct =>
    have op : inst.op = .copyStruct := Op.of_shape shape rfl
    simp only [List.not_mem_nil, false_or, op, true_and]
    rcases member with rfl | rfl | extra
    · exact .inl (.inl rfl)
    · exact .inl (.inr rfl)
    · exact .inr ⟨by decide, extra⟩
  all_goals
    simp only [List.mem_cons, List.not_mem_nil, or_false]
    tauto

theorem refresh_bounded_iff {f : Func} (accepted : verify f = .ok ()) :
    (∀ inst ∈ (refreshMetadata f).data, ∀ v ∈ inst.operands, 0 ≤ v → v < f.nextValue) ↔
      UncheckedBounded f := by
  have counted := (verify_ok_iff.mp accepted).1
  simp only [refreshMetadata, List.forall_mem_map]
  constructor
  · intro all inst member
    have inside := all inst member
    obtain ⟨r, eq, -⟩ := refreshInst_eq inst
    rw [eq] at inside
    -- A negative operand is below the count anyway.
    have below : ∀ v ∈ (normalizeOperands inst).operands, v < f.nextValue := by
      intro v operand
      by_cases given : 0 ≤ v
      · exact inside v operand given
      · omega
    constructor
    · intro isCopy
      exact ⟨below _ (by simp [Inst.operands, normalizeOperands, isCopy, Op.shape]),
        below _ (by simp [Inst.operands, normalizeOperands, isCopy, Op.shape])⟩
    · intro other v extra
      refine below v ?_
      have kept : (normalizeOperands inst).extraArgs = inst.extraArgs := by
        cases shape : inst.op.shape <;> simp only [normalizeOperands, shape]
        exact absurd (Op.of_shape shape rfl) other
      simp [Inst.operands, kept, extra]
  · intro bounded inst member v operand given
    obtain ⟨i, found⟩ := List.getElem?_of_mem member
    have formed := (OpOk.of_verify accepted found).wellFormed
    rcases refreshInst_operand formed given operand with read | ⟨isCopy, rfl | rfl⟩ | ⟨other, extra⟩
    · exact (read_defined accepted found read).2.1
    · exact ((bounded inst member).1 isCopy).1
    · exact ((bounded inst member).1 isCopy).2
    · exact (bounded inst member).2 other v extra

/--
A load is safe exactly when the function that the stream holds, if the verifier accepts it, reads no
value that a refresh erases and has no operand outside the tables that the verifier skips.
-/
theorem loadsSafely_iff (nameLen : Nat) (bytes : List UInt8) (slots : LoadSlots) :
    LoadsSafely nameLen bytes slots ↔
      ∀ name f rest, readFunc bytes = .ok ((name, f), rest) → verify f = .ok () →
        KeptReads f ∧ UncheckedBounded f := by
  constructor
  · intro ⟨succeeds, _⟩ name f rest read accepted
    have usable := succeeds (loadBinary_ok_iff.mpr ⟨name, f, rest, read, accepted⟩)
    rw [loadBinary_func read accepted] at usable
    exact ⟨(verify_refresh_iff accepted).mp usable.accepted,
      (refresh_bounded_iff accepted).mp usable.bounded⟩
  · intro stray
    refine ⟨fun done => ?_, loadBinary_atomic⟩
    obtain ⟨name, f, rest, read, accepted⟩ := loadBinary_ok_iff.mp done
    obtain ⟨kept, bounded⟩ := stray name f rest read accepted
    rw [loadBinary_func read accepted]
    exact ⟨(verify_refresh_iff accepted).mpr kept, (refresh_bounded_iff accepted).mpr bounded⟩

/-- A function that reads the destination of a store. -/
def readsStore : Func where
  data := [
    { op := .constI64, dst := 0, imm := 5 },
    { op := .storeLocal, dst := 1, a := 0, effects := effectWriteLocal },
    { op := .ret, dst := -1, a := 1, effects := effectControl }]
  nextValue := 2

/-- Its binary form. -/
def erasedRead : List UInt8 := writeHeader readsStore "f" ++ readsStore.data.flatMap writeInst

/-- It is loaded, and what is stored the verifier does not accept. -/
theorem erasedRead_unsafe : (loadBinary 16 erasedRead {}).1 = true ∧
    ¬ LoadsSafely 16 erasedRead {} := by
  have done : (loadBinary 16 erasedRead {}).1 = true := by decide +kernel
  refine ⟨done, ?_⟩
  intro ⟨succeeds, _⟩
  have accepted := (succeeds done).accepted
  revert accepted
  decide +kernel

end Nytrix.Nir
