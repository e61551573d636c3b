import Nytrix.Nir.Rewriting

/-! What a metadata refresh keeps of an instruction and of a function. -/

namespace Nytrix.Nir

open Nytrix.Lib

variable {σ : Type}

/-- Whether a refresh erases the destination of opcodes of this shape. -/
def Shape.dropsDst : Shape → Bool
  | .storeLocal | .storeI64 | .copyStruct => true
  | _ => false

theorem normalizeOperands_kept (inst : Inst) :
    (normalizeOperands inst).op = inst.op ∧ (normalizeOperands inst).imm = inst.imm ∧
      (normalizeOperands inst).cmp = inst.cmp ∧ (normalizeOperands inst).symbol = inst.symbol ∧
      (normalizeOperands inst).debug = inst.debug ∧ (normalizeOperands inst).range = inst.range ∧
      (normalizeOperands inst).argSizes = inst.argSizes := by
  unfold normalizeOperands
  split <;> exact ⟨rfl, rfl, rfl, rfl, rfl, rfl, rfl⟩

theorem refreshInst_eq (inst : Inst) :
    ∃ r, refreshInst inst = { normalizeOperands inst with
      effects := instEffects (normalizeOperands inst), range := r } ∧
      (r = inst.range ∨ ∃ lo hi, r = .closed lo hi ∧ lo.toInt ≤ hi.toInt) := by
  unfold refreshInst
  simp only
  split
  · exact ⟨_, rfl, .inr ⟨_, _, rfl, Int.le_refl _⟩⟩
  · split
    · exact ⟨_, rfl, .inr ⟨_, _, rfl, by decide⟩⟩
    · exact ⟨_, rfl, .inl (normalizeOperands_kept inst).2.2.2.2.2.1⟩

@[simp] theorem refreshInst_op (inst : Inst) : (refreshInst inst).op = inst.op := by
  obtain ⟨r, eq, -⟩ := refreshInst_eq inst
  rw [eq]
  exact (normalizeOperands_kept inst).1

@[simp] theorem refreshInst_imm (inst : Inst) : (refreshInst inst).imm = inst.imm := by
  obtain ⟨r, eq, -⟩ := refreshInst_eq inst
  rw [eq]
  exact (normalizeOperands_kept inst).2.1

theorem refreshInst_dst (inst : Inst) :
    (refreshInst inst).dst = if inst.op.shape.dropsDst then -1 else inst.dst := by
  obtain ⟨r, eq, -⟩ := refreshInst_eq inst
  rw [eq]
  cases shape : inst.op.shape <;> simp [normalizeOperands, shape, Shape.dropsDst]

theorem sameAction_refreshInst (inst : Inst) : SameAction inst (refreshInst inst) := by
  refine ⟨refreshInst_op inst, fun writes => ?_, refreshInst_imm inst, ?_, ?_⟩
  · rw [refreshInst_op] at writes
    rw [refreshInst_dst, if_neg]
    revert writes
    cases inst.op.shape <;> simp [Shape.writes, Shape.dropsDst]
  · obtain ⟨r, eq, -⟩ := refreshInst_eq inst
    rw [eq]
    exact (normalizeOperands_kept inst).2.2.1
  · obtain ⟨r, eq, -⟩ := refreshInst_eq inst
    rw [eq]
    exact (normalizeOperands_kept inst).2.2.2.1

theorem callWellFormed_arity {inst : Inst} (formed : callWellFormed inst = true) :
    0 ≤ inst.imm.toInt ∧ inst.extraArgs.length = inst.imm.toInt.toNat - 6 := by
  simp only [callWellFormed, Bool.and_eq_true, decide_eq_true_eq] at formed
  exact ⟨formed.1.1.1.1.1.1.1.1.1.1.2, formed.2⟩

theorem normalizeOperands_call {inst : Inst} (isCall : inst.op.shape = .call)
    (formed : callWellFormed inst = true) :
    callOperands (normalizeOperands inst) = callOperands inst ∧
      callWellFormed (normalizeOperands inst) = true := by
  obtain ⟨nonneg, lengths⟩ := callWellFormed_arity formed
  have arity := toNat_of_nonneg nonneg
  have extra : (if inst.imm.toInt ≤ 6 then [] else inst.extraArgs.take (inst.imm.toNat - 6)) =
      inst.extraArgs := by
    split
    · exact (List.length_eq_zero_iff.mp (by omega)).symm
    · exact List.take_of_length_le (by omega)
  constructor
  · simp only [normalizeOperands, isCall, callOperands, extra]
    refine List.map_congr_left fun k inside => ?_
    have bound := List.mem_range.mp inside
    rcases k with _ | _ | _ | _ | _ | _ | k <;> first | rfl | exact if_neg (by omega)
  · simp only [callWellFormed, Bool.and_eq_true, Bool.or_eq_true, decide_eq_true_eq] at formed ⊢
    obtain ⟨⟨⟨⟨⟨⟨⟨⟨⟨⟨⟨symbol, low⟩, many⟩, s0⟩, s1⟩, s2⟩, s3⟩, s4⟩, s5⟩, sizes⟩, bad⟩, length⟩ := formed
    have absent {few k v : Int} (old : few ≤ inst.imm.toInt ∨ v < 0) :
        few ≤ inst.imm.toInt ∨ (if inst.imm.toInt ≤ k then -1 else v) < 0 := by
      split
      · exact .inr (by decide)
      · exact old
    simp only [normalizeOperands, isCall, extra]
    exact ⟨⟨⟨⟨⟨⟨⟨⟨⟨⟨⟨symbol, low⟩, many⟩, absent s0⟩, absent s1⟩, absent s2⟩, absent s3⟩, absent s4⟩,
      absent s5⟩, sizes⟩, bad⟩, length⟩

theorem refreshInst_reads {inst : Inst} (formed : inst.wellFormed = true) :
    (refreshInst inst).reads = inst.reads := by
  obtain ⟨r, eq, -⟩ := refreshInst_eq inst
  rw [eq]
  have op := (normalizeOperands_kept inst).1
  by_cases isCall : inst.op.shape = .call
  · have formed : callWellFormed inst = true := by simpa [Inst.wellFormed, isCall] using formed
    have same := (normalizeOperands_call isCall formed).1
    simp only [Inst.reads, op, isCall]
    exact same
  · cases shape : inst.op.shape <;> simp [Inst.reads, normalizeOperands, shape]
    exact absurd shape isCall

theorem refreshInst_wellFormed {inst : Inst} (formed : inst.wellFormed = true) :
    (refreshInst inst).wellFormed = true := by
  obtain ⟨r, eq, -⟩ := refreshInst_eq inst
  rw [eq]
  have op := (normalizeOperands_kept inst).1
  by_cases isCall : inst.op.shape = .call
  · have formed : callWellFormed inst = true := by simpa [Inst.wellFormed, isCall] using formed
    have same := (normalizeOperands_call isCall formed).2
    simp only [Inst.wellFormed, op, isCall]
    exact same
  · cases shape : inst.op.shape <;> simp only [Inst.wellFormed, shape] at formed <;>
      simp only [Inst.wellFormed, op, shape] <;> simp only [normalizeOperands, shape]
    all_goals first | exact formed | exact absurd shape isCall

theorem refreshMetadata_getElem? (f : Func) (i : Nat) :
    (refreshMetadata f).data[i]? = f.data[i]?.map refreshInst := by
  simp [refreshMetadata]

theorem refreshMetadata_map {α : Type} {f : Func} (field : Inst → α)
    (kept : ∀ inst, field (refreshInst inst) = field inst) :
    (refreshMetadata f).data.map field = f.data.map field := by
  simp only [refreshMetadata, List.map_map]
  exact List.map_congr_left fun inst _ => kept inst

theorem refreshInst_labelMark (inst : Inst) : (refreshInst inst).labelMark = inst.labelMark := by
  simp [Inst.labelMark]

theorem stepInst_refresh {f f' : Func} {cfg : EvalConfig σ} {inst : Inst} {s : State σ}
    (formed : inst.wellFormed = true) (labels : labelTable f' = labelTable f)
    (fine : Fine (stepInst f cfg inst s)) :
    stepInst f' cfg (refreshInst inst) s = stepInst f cfg inst s :=
  stepInst_congr (sameAction_refreshInst inst) (by rw [labels])
    (by rw [refreshInst_reads formed]) fine

/-- Whether an instruction before position `i` keeps this value as its destination. -/
def keptBefore (f : Func) (i : Nat) (v : Int) : Bool :=
  decide (0 ≤ v) && (f.data.take i).any fun inst => !inst.op.shape.dropsDst && decide (inst.dst = v)

theorem definedBefore_refresh (f : Func) (i : Nat) :
    definedBefore (refreshMetadata f) i = keptBefore f i := by
  funext v
  simp only [definedBefore, keptBefore, refreshMetadata, ← List.map_take, List.any_map]
  by_cases nonneg : 0 ≤ v
  · simp only [nonneg, decide_true, Bool.true_and]
    congr 1
    funext inst
    simp only [Function.comp, refreshInst_dst]
    cases inst.op.shape.dropsDst
    · simp
    · simp only [if_true, Bool.not_true, Bool.false_and, decide_eq_false_iff_not]
      omega
  · simp [nonneg]

theorem keptBefore_iff {f : Func} {i : Nat} {v : Int} :
    keptBefore f i v = true ↔ 0 ≤ v ∧ ∃ j inst, j < i ∧ f.data[j]? = some inst ∧
      inst.op.shape.dropsDst = false ∧ inst.dst = v := by
  rw [← definedBefore_refresh, definedBefore_iff]
  refine and_congr_right fun nonneg => ?_
  constructor
  · rintro ⟨j, inst', before, found, same⟩
    rw [refreshMetadata_getElem?, Option.map_eq_some_iff] at found
    obtain ⟨inst, found, rfl⟩ := found
    rw [refreshInst_dst] at same
    cases drops : inst.op.shape.dropsDst
    · exact ⟨j, inst, before, found, drops, by simpa [drops] using same⟩
    · simp only [drops, if_true] at same
      omega
  · rintro ⟨j, inst, before, found, drops, same⟩
    refine ⟨j, refreshInst inst, before, ?_, ?_⟩
    · rw [refreshMetadata_getElem?, found]
      rfl
    · simp [refreshInst_dst, drops, same]

/-- The conditions on an instruction under which its refreshed form passes the verifier's checks. -/
structure RawOk (f : Func) (i : Nat) (inst : Inst) : Prop where
  argSizes : inst.op ≠ .call → inst.argSizes = none
  rangePaired : inst.range.hasMin = inst.range.hasMax
  rangeOrdered : inst.range.hasMin = true → inst.range.min.toInt ≤ inst.range.max.toInt
  debug : inst.debug.line = 0 → inst.debug.column = 0 ∧ inst.debug.file.getD "" = ""
  dstBelow : inst.dst < f.nextValue
  dstFresh : 0 ≤ inst.dst → keptBefore f i inst.dst = false
  own : OpOk f (keptBefore f i) i inst

theorem RawOk.refresh {f : Func} {i : Nat} {inst : Inst} (counted : 0 ≤ f.nextValue)
    (raw : RawOk f i inst) : InstOk (refreshMetadata f) i (refreshInst inst) := by
  have marks : (refreshMetadata f).data.map Inst.labelMark = f.data.map Inst.labelMark :=
    refreshMetadata_map _ refreshInst_labelMark
  obtain ⟨op, imm, -, -, debug, -, sizes⟩ := normalizeOperands_kept inst
  obtain ⟨r, eq, ranged⟩ := refreshInst_eq inst
  refine instOk_iff.mpr ⟨⟨?_, ?_, ?_, ?_, ?_, ?_, ?_⟩, ?_⟩
  · rw [refreshInst_op, eq]
    intro other
    exact sizes.trans (raw.argSizes other)
  · rw [eq]
    rfl
  · rw [eq]
    rcases ranged with rfl | ⟨lo, hi, rfl, -⟩
    · exact raw.rangePaired
    · rfl
  · rw [eq]
    rcases ranged with rfl | ⟨lo, hi, rfl, ordered⟩
    · exact raw.rangeOrdered
    · exact fun _ => ordered
  · have same : (refreshInst inst).debug = inst.debug := by
      rw [eq]
      exact debug
    rw [same]
    exact raw.debug
  · rw [refreshInst_dst]
    split
    · exact Int.lt_of_lt_of_le (by decide) counted
    · exact raw.dstBelow
  · rw [definedBefore_refresh, refreshInst_dst]
    split
    · intro bad
      exact absurd bad (by decide)
    · exact raw.dstFresh
  · rw [definedBefore_refresh]
    refine ⟨?_, refreshInst_wellFormed raw.own.wellFormed, ?_, ?_, ?_⟩
    · rw [refreshInst_reads raw.own.wellFormed]
      exact raw.own.reads
    · rw [refreshInst_op, refreshInst_imm, any_label_eq, List.map_take, marks, ← List.map_take,
        ← any_label_eq]
      exact raw.own.fresh
    · rw [refreshInst_op, refreshInst_imm, labelExists, any_label_eq, marks, ← any_label_eq]
      exact raw.own.target
    · rw [refreshInst_op, followsCall_congr (refreshMetadata_map _ fun inst => by
        simp only [Inst.startsCapture, refreshInst_op])]
      exact raw.own.follows

theorem constsBefore_refresh {f : Func} (fresh : DstsFresh f) {i : Nat}
    (inside : i ≤ f.data.length) : constsBefore (refreshMetadata f) i = constsBefore f i := by
  induction i with
  | zero => rfl
  | succ i ih =>
    obtain ⟨inst, found⟩ : ∃ inst, f.data[i]? = some inst :=
      ⟨_, List.getElem?_eq_getElem (by omega)⟩
    have found' : (refreshMetadata f).data[i]? = some (refreshInst inst) := by
      rw [refreshMetadata_getElem?, found]
      rfl
    rw [constsBefore_succ found', constsBefore_succ found, ih (by omega)]
    cases drops : inst.op.shape.dropsDst
    · have dst : (refreshInst inst).dst = inst.dst := by simp [refreshInst_dst, drops]
      by_cases isCopy : inst.op = .copy
      · have a : (refreshInst inst).a = inst.a := by
          obtain ⟨r, eq, -⟩ := refreshInst_eq inst
          simp [eq, normalizeOperands, isCopy, Op.shape]
        simp only [noteConst, refreshInst_op, refreshInst_imm, dst, a]
      · simp [noteConst, dst, isCopy]
    · -- A store's destination is erased, and nothing was known of it either.
      have dst : (refreshInst inst).dst = -1 := by simp [refreshInst_dst, drops]
      have noConst : inst.op ≠ .constI64 := fun same => by simp [same, Op.shape, Shape.dropsDst] at drops
      have noCopy : inst.op ≠ .copy := fun same => by simp [same, Op.shape, Shape.dropsDst] at drops
      simp only [noteConst, dst, noConst, noCopy]
      by_cases has : 0 ≤ inst.dst
      · have none := constsBefore_undefined (i := i) (by omega) (fresh i inst found has)
        simp [has, ← none]
      · simp [has]

theorem keptBefore_congr {f f' : Func}
    (same : f'.data.map (fun inst => (inst.op.shape.dropsDst, inst.dst)) =
      f.data.map fun inst => (inst.op.shape.dropsDst, inst.dst)) (i : Nat) :
    keptBefore f' i = keptBefore f i := by
  have general : ∀ (g : Func) (v : Int), keptBefore g i v = (decide (0 ≤ v) &&
      ((g.data.map fun inst => (inst.op.shape.dropsDst, inst.dst)).take i).any
        fun p => !p.1 && decide (p.2 = v)) := by
    intro g v
    simp only [keptBefore, ← List.map_take, List.any_map]
    rfl
  funext v
  rw [general, general, same]

theorem definedBefore_of_keptBefore {f : Func} {i : Nat} {v : Int}
    (kept : keptBefore f i v = true) : definedBefore f i v = true := by
  obtain ⟨nonneg, j, inst, before, found, -, same⟩ := keptBefore_iff.mp kept
  exact definedBefore_iff.mpr ⟨nonneg, j, inst, before, found, same⟩

/-- No instruction reads a value whose definition a refresh erases. -/
def KeptReads (f : Func) : Prop :=
  ∀ (i : Nat) (inst : Inst), f.data[i]? = some inst → ∀ v ∈ inst.reads, keptBefore f i v = true

theorem constTrap_refresh (known : ConstTable) (inst : Inst) :
    constTrap known (refreshInst inst) = constTrap known inst := by
  obtain ⟨r, eq, -⟩ := refreshInst_eq inst
  refine constTrap_congr (refreshInst_op inst) (fun binary => ?_) fun binary => ?_
  · rw [eq]
    simp [normalizeOperands, binary]
  · rw [eq]
    simp [normalizeOperands, binary]

theorem constraints_refresh {known : ConstTable} {inst : Inst}
    (ordered : inst.range.hasMin = true → inst.range.min.toInt ≤ inst.range.max.toInt)
    (safe : constTrap known inst = false) :
    firstFailure (constraintChecks known (refreshInst inst)) = none := by
  obtain ⟨r, eq, ranged⟩ := refreshInst_eq inst
  refine constraintChecks_none_iff.mpr ⟨?_, ?_⟩
  · rw [eq]
    rcases ranged with rfl | ⟨lo, hi, rfl, closed⟩
    · exact fun has _ => ordered has
    · exact fun _ _ => closed
  · rw [constTrap_refresh, safe]

theorem verify_refresh {f : Func} (counted : 0 ≤ f.nextValue) (fresh : DstsFresh f)
    (raw : ∀ (i : Nat) (inst : Inst), f.data[i]? = some inst → RawOk f i inst)
    (safe : ∀ (i : Nat) (inst : Inst), f.data[i]? = some inst →
      constTrap (constsBefore f i) inst = false) :
    verify (refreshMetadata f) = .ok () := by
  refine verify_ok_iff.mpr ⟨counted, fun i inst' found' => ?_,
    validateConstraints_ok_iff.mpr fun i inst' found' => ?_⟩ <;>
    rw [refreshMetadata_getElem?, Option.map_eq_some_iff] at found' <;>
    obtain ⟨inst, found, rfl⟩ := found'
  · exact (raw i inst found).refresh counted
  · have inside := (List.getElem?_eq_some_iff.mp found).1
    rw [constsBefore_refresh fresh (by omega)]
    exact constraints_refresh (raw i inst found).rangeOrdered (safe i inst found)

theorem constTrap_of_refresh {f : Func} (fresh : DstsFresh f)
    (after : verify (refreshMetadata f) = .ok ()) {i : Nat} {inst : Inst}
    (found : f.data[i]? = some inst) : constTrap (constsBefore f i) inst = false := by
  have inside := (List.getElem?_eq_some_iff.mp found).1
  have found' : (refreshMetadata f).data[i]? = some (refreshInst inst) := by
    rw [refreshMetadata_getElem?, found]
    rfl
  have passed := (constraintChecks_none_iff.mp (validateConstraints_ok_iff.mp
    (verify_ok_iff.mp after).2.2 i _ found')).2
  rw [constsBefore_refresh fresh (by omega)] at passed
  rw [← passed, constTrap_refresh]

theorem normalizeOperands_idem (inst : Inst) :
    normalizeOperands (normalizeOperands inst) = normalizeOperands inst := by
  cases shape : inst.op.shape <;> simp only [normalizeOperands, shape]
  case call =>
    have twice {k v : Int} : (if inst.imm.toInt ≤ k then -1 else if inst.imm.toInt ≤ k then -1 else v) =
        if inst.imm.toInt ≤ k then -1 else v := by
      split <;> rfl
    have extra : (if inst.imm.toInt ≤ 6 then [] else
        (if inst.imm.toInt ≤ 6 then [] else inst.extraArgs.take (inst.imm.toNat - 6)).take
          (inst.imm.toNat - 6)) =
        if inst.imm.toInt ≤ 6 then [] else inst.extraArgs.take (inst.imm.toNat - 6) := by
      split
      · rfl
      · rw [List.take_take, Nat.min_self]
    simp only [twice, extra]

theorem refreshInst_fixed {inst : Inst} (operands : normalizeOperands inst = inst)
    (effects : inst.effects = instEffects inst)
    (const : inst.op = .constI64 → inst.range = .closed inst.imm inst.imm)
    (cmp : inst.op.isCmp = true → inst.range = .closed 0 1) : refreshInst inst = inst := by
  unfold refreshInst
  simp only [operands, ← effects]
  split
  · rename_i isConst
    rw [← const isConst]
  · split
    · rename_i isCmp
      rw [← cmp isCmp]
    · rfl

theorem refreshInst_range (inst : Inst) :
    (inst.op = .constI64 → (refreshInst inst).range = .closed inst.imm inst.imm) ∧
      (inst.op.isCmp = true → (refreshInst inst).range = .closed 0 1) := by
  obtain ⟨op, imm, -⟩ := normalizeOperands_kept inst
  unfold refreshInst
  simp only [op, imm]
  constructor
  · intro isConst
    rw [if_pos isConst]
  · intro isCmp
    rw [if_neg, if_pos isCmp]
    intro isConst
    simp [isConst, Op.isCmp] at isCmp

theorem refreshInst_idem (inst : Inst) : refreshInst (refreshInst inst) = refreshInst inst := by
  obtain ⟨r, eq, -⟩ := refreshInst_eq inst
  refine refreshInst_fixed ?_ ?_ ?_ ?_
  · -- Normalisation looks neither at the effects nor at the range.
    have general : ∀ (p : Inst) (e : BitVec 32), normalizeOperands { p with effects := e, range := r } =
        { normalizeOperands p with effects := e, range := r } := by
      intro p e
      cases shape : p.op.shape <;> simp only [normalizeOperands, shape]
    rw [eq, general, normalizeOperands_idem]
  · rw [eq]
    rfl
  · rw [refreshInst_op, refreshInst_imm]
    exact (refreshInst_range inst).1
  · rw [refreshInst_op]
    exact (refreshInst_range inst).2

theorem refreshMetadata_idem (f : Func) : refreshMetadata (refreshMetadata f) = refreshMetadata f := by
  simp only [refreshMetadata, List.map_map]
  congr 1
  exact List.map_congr_left fun inst _ => refreshInst_idem inst

end Nytrix.Nir
