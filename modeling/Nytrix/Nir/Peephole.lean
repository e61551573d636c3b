import Nytrix.Nir.Analysis
import Nytrix.Nir.Cleanup

/-! Peephole simplification, and when the verifier still accepts its result. -/

namespace Nytrix.Nir

/-- Turns an instruction into a copy, every field but its destination reset. -/
def makeCopy (inst : Inst) (src : Int) : Inst :=
  { op := .copy, dst := inst.dst, a := src, b := -1 }

/-- Turns an instruction into a constant, every field but its destination reset. -/
def makeConst (inst : Inst) (value : I64) : Inst :=
  { op := .constI64, dst := inst.dst, a := -1, b := -1, imm := value }

/-- How a value compares with itself. -/
def cmpSameValue : Cmp → I64
  | .eq | .le | .ge => 1
  | .ne | .lt | .gt => 0

/-- The outcome of a comparison that two intervals decide. -/
def cmpRangeFold (cmp : Cmp) (a b : Range) : Option I64 :=
  let disjoint := decide (a.max.toInt < b.min.toInt) || decide (b.max.toInt < a.min.toInt)
  if !a.hasMin || !a.hasMax || !b.hasMin || !b.hasMax then none
  else match cmp with
    | .eq => if disjoint then some 0 else none
    | .ne => if disjoint then some 1 else none
    | .lt =>
      if a.max.toInt < b.min.toInt then some 1
      else if b.max.toInt ≤ a.min.toInt then some 0 else none
    | .le =>
      if a.max.toInt ≤ b.min.toInt then some 1
      else if b.max.toInt < a.min.toInt then some 0 else none
    | .gt =>
      if b.max.toInt < a.min.toInt then some 1
      else if a.max.toInt ≤ b.min.toInt then some 0 else none
    | .ge =>
      if b.max.toInt ≤ a.min.toInt then some 1
      else if a.max.toInt < b.min.toInt then some 0 else none

/-- What the peephole rules make of an instruction that has two operands and a destination. -/
def peepholeRule (known : ConstTable) (facts : FactTable) (inst : Inst) : Inst :=
  let a := known inst.a
  let b := known inst.b
  let nonzero := fun value : I64 => value ≠ 0
  match inst.op with
  | .addI64 =>
    if b = some 0 then makeCopy inst inst.a else if a = some 0 then makeCopy inst inst.b else inst
  | .subI64 =>
    if inst.a = inst.b then makeConst inst 0
    else if b = some 0 then makeCopy inst inst.a else inst
  | .mulI64 =>
    if b = some 0 || a = some 0 then makeConst inst 0
    else if b = some 1 then makeCopy inst inst.a
    else if a = some 1 then makeCopy inst inst.b else inst
  | .divI64 =>
    if b = some 1 then makeCopy inst inst.a
    else if a = some 0 && b.any nonzero then makeConst inst 0 else inst
  | .modI64 =>
    if b = some 1 || b = some (-1) then makeConst inst 0
    else if a = some 0 && b.any nonzero then makeConst inst 0 else inst
  | .andI64 =>
    if inst.a = inst.b then makeCopy inst inst.a
    else if b = some 0 || a = some 0 then makeConst inst 0
    else if b = some (-1) then makeCopy inst inst.a
    else if a = some (-1) then makeCopy inst inst.b else inst
  | .orI64 =>
    if inst.a = inst.b then makeCopy inst inst.a
    else if b = some (-1) || a = some (-1) then makeConst inst (-1)
    else if b = some 0 then makeCopy inst inst.a
    else if a = some 0 then makeCopy inst inst.b else inst
  | .xorI64 =>
    if inst.a = inst.b then makeConst inst 0
    else if b = some 0 then makeCopy inst inst.a
    else if a = some 0 then makeCopy inst inst.b else inst
  | .shlI64 | .sarI64 =>
    if b = some 0 then makeCopy inst inst.a
    else if a = some 0 then makeConst inst 0 else inst
  | .cmpI64 =>
    if inst.a = inst.b then makeConst inst (cmpSameValue inst.cmp)
    else match cmpRangeFold inst.cmp (facts inst.a).range (facts inst.b).range with
      | some folded => makeConst inst folded
      | none => inst
  | _ => inst

/-- What the peephole pass does at one instruction. -/
def peepholeInst (known : ConstTable) (facts : FactTable) (inst : Inst) : Inst :=
  if inst.dst < 0 || decide (inst.a < 0) || decide (inst.b < 0) then inst
  else peepholeRule known facts inst

/-- Peephole simplification over a whole function. -/
def peephole (f : Func) : Option Func :=
  if f.nextValue ≤ 0 then some f
  else match analyzeValues f f.nextValue.toNat with
    | .error _ => none
    | .ok facts => some { f with data := f.data.map (peepholeInst (collectConsts f) facts) }

/-- Everything the pass may make of an instruction. -/
inductive Peepholed (inst : Inst) : Inst → Prop
  | same : Peepholed inst inst
  | copy (src : Int) (binary : inst.op.shape = .binary) (has : 0 ≤ inst.dst)
      (source : src = inst.a ∨ src = inst.b) : Peepholed inst (makeCopy inst src)
  | const (value : I64) (binary : inst.op.shape = .binary) (has : 0 ≤ inst.dst) :
      Peepholed inst (makeConst inst value)

theorem peepholeRule_cases (known : ConstTable) (facts : FactTable) {inst : Inst}
    (has : 0 ≤ inst.dst) : Peepholed inst (peepholeRule known facts inst) := by
  have either {c : Prop} [Decidable c] {x y : Inst} (first : Peepholed inst x)
      (second : Peepholed inst y) : Peepholed inst (if c then x else y) := by
    split
    · exact first
    · exact second
  have copyA (binary : inst.op.shape = .binary) : Peepholed inst (makeCopy inst inst.a) :=
    .copy _ binary has (.inl rfl)
  have copyB (binary : inst.op.shape = .binary) : Peepholed inst (makeCopy inst inst.b) :=
    .copy _ binary has (.inr rfl)
  cases op : inst.op <;> simp only [peepholeRule, op]
  case addI64 => exact either (copyA (by rw [op]; rfl)) (either (copyB (by rw [op]; rfl)) .same)
  case subI64 =>
    exact either (.const _ (by rw [op]; rfl) has) (either (copyA (by rw [op]; rfl)) .same)
  case mulI64 =>
    exact either (.const _ (by rw [op]; rfl) has)
      (either (copyA (by rw [op]; rfl)) (either (copyB (by rw [op]; rfl)) .same))
  case divI64 =>
    exact either (copyA (by rw [op]; rfl)) (either (.const _ (by rw [op]; rfl) has) .same)
  case modI64 =>
    exact either (.const _ (by rw [op]; rfl) has) (either (.const _ (by rw [op]; rfl) has) .same)
  case andI64 | orI64 =>
    exact either (copyA (by rw [op]; rfl)) (either (.const _ (by rw [op]; rfl) has)
      (either (copyA (by rw [op]; rfl)) (either (copyB (by rw [op]; rfl)) .same)))
  case xorI64 =>
    exact either (.const _ (by rw [op]; rfl) has)
      (either (copyA (by rw [op]; rfl)) (either (copyB (by rw [op]; rfl)) .same))
  case shlI64 | sarI64 =>
    exact either (copyA (by rw [op]; rfl)) (either (.const _ (by rw [op]; rfl) has) .same)
  case cmpI64 =>
    refine either (.const _ (by rw [op]; rfl) has) ?_
    split
    · exact .const _ (by rw [op]; rfl) has
    · exact .same
  all_goals exact .same

theorem peepholeInst_cases (known : ConstTable) (facts : FactTable) (inst : Inst) :
    Peepholed inst (peepholeInst known facts inst) := by
  unfold peepholeInst
  split
  · exact .same
  · rename_i given
    simp only [Bool.or_eq_true, decide_eq_true_eq, not_or, Int.not_lt] at given
    exact peepholeRule_cases known facts given.1.1

theorem peephole_eq {f : Func} (positive : 0 < f.nextValue) :
    ∃ facts, peephole f =
      some { f with data := f.data.map (peepholeInst (collectConsts f) facts) } := by
  have count : ((f.nextValue.toNat : Nat) : Int) = f.nextValue := Int.toNat_of_nonneg (by omega)
  rw [peephole, if_neg (by omega), analyzeValues, if_neg (by omega), if_neg (by omega)]
  exact ⟨_, rfl⟩

theorem peephole_isSome (f : Func) : ∃ f', peephole f = some f' := by
  by_cases positive : 0 < f.nextValue
  · obtain ⟨facts, eq⟩ := peephole_eq positive
    exact ⟨_, eq⟩
  · rw [peephole, if_pos (by omega)]
    exact ⟨f, rfl⟩

/-- The constants the pass leaves make no shift or division it leaves alone one that can only fail. -/
def PeepholeSafe (f : Func) : Prop :=
  ∀ f', peephole f = some f' → ∀ (i : Nat) (inst : Inst), f.data[i]? = some inst →
    f'.data[i]? = some inst → constTrap (constsBefore f' i) inst = false

section Accepted

variable {f f' : Func} (accepted : verify f = .ok ()) (rewritten : peephole f = some f')

include rewritten

theorem peephole_at {i : Nat} {inst' : Inst} (found' : f'.data[i]? = some inst') :
    ∃ inst, f.data[i]? = some inst ∧ Peepholed inst inst' := by
  by_cases positive : 0 < f.nextValue
  · obtain ⟨facts, eq⟩ := peephole_eq positive
    obtain rfl := Option.some.inj (eq.symm.trans rewritten)
    simp only [List.getElem?_map, Option.map_eq_some_iff] at found'
    obtain ⟨inst, found, rfl⟩ := found'
    exact ⟨inst, found, peepholeInst_cases _ _ inst⟩
  · rw [peephole, if_pos (by omega)] at rewritten
    obtain rfl := Option.some.inj rewritten
    exact ⟨inst', found', .same⟩

theorem peephole_map {α : Type} (field : Inst → α)
    (kept : ∀ inst inst', Peepholed inst inst' → field inst' = field inst) :
    f'.nextValue = f.nextValue ∧ f'.data.map field = f.data.map field := by
  by_cases positive : 0 < f.nextValue
  · obtain ⟨facts, eq⟩ := peephole_eq positive
    obtain rfl := Option.some.inj (eq.symm.trans rewritten)
    refine ⟨rfl, ?_⟩
    simp only [List.map_map]
    exact List.map_congr_left fun inst _ => kept inst _ (peepholeInst_cases _ _ inst)
  · rw [peephole, if_pos (by omega)] at rewritten
    obtain rfl := Option.some.inj rewritten
    exact ⟨rfl, rfl⟩

end Accepted

theorem Peepholed.keeps {inst inst' : Inst} (peep : Peepholed inst inst') :
    inst'.dst = inst.dst ∧ inst'.labelMark = inst.labelMark ∧
      inst'.startsCapture = inst.startsCapture ∧
      inst'.op.shape.dropsDst = inst.op.shape.dropsDst := by
  have other (op : Op) (binary : inst.op.shape = .binary) (apart : op.shape ≠ .binary) :
      inst.op ≠ op := fun same => apart (by rw [← same]; exact binary)
  cases peep with
  | same => exact ⟨rfl, rfl, rfl, rfl⟩
  | copy src binary =>
    refine ⟨rfl, ?_, ?_, ?_⟩
    · simp [Inst.labelMark, makeCopy, other .label binary (by decide)]
    · simp [Inst.startsCapture, makeCopy, other .call binary (by decide),
        other .captureRet binary (by decide)]
    · rw [binary]
      rfl
  | const value binary =>
    refine ⟨rfl, ?_, ?_, ?_⟩
    · simp [Inst.labelMark, makeConst, other .label binary (by decide)]
    · simp [Inst.startsCapture, makeConst, other .call binary (by decide),
        other .captureRet binary (by decide)]
    · rw [binary]
      rfl

section Accepted

variable {f f' : Func} (accepted : verify f = .ok ()) (rewritten : peephole f = some f')

include accepted rewritten

theorem verify_peephole (kept : KeptReads f) (safe : PeepholeSafe f) :
    verify (refreshMetadata f') = .ok () := by
  obtain ⟨counted, -, -⟩ := verify_ok_iff.mp accepted
  obtain ⟨next, dsts⟩ := peephole_map rewritten Inst.dst fun _ _ peep => peep.keeps.1
  obtain ⟨-, marks⟩ := peephole_map rewritten Inst.labelMark fun _ _ peep => peep.keeps.2.1
  obtain ⟨-, chains⟩ := peephole_map rewritten Inst.startsCapture fun _ _ peep => peep.keeps.2.2.1
  have keeps : ∀ i, keptBefore f' i = keptBefore f i := keptBefore_congr (peephole_map rewritten
    (fun inst => (inst.op.shape.dropsDst, inst.dst)) fun _ _ peep => by
      rw [peep.keeps.1, peep.keeps.2.2.2]).2
  have fresh : DstsFresh f' := by
    intro i inst' found' has
    obtain ⟨inst, found, peep⟩ := peephole_at rewritten found'
    rw [definedBefore_congr dsts, peep.keeps.1]
    rw [peep.keeps.1] at has
    exact DstsFresh.of_verify accepted i inst found has
  refine verify_refresh (by omega) fresh (fun i inst' found' => ?_) fun i inst' found' => ?_ <;>
    obtain ⟨inst, found, peep⟩ := peephole_at rewritten found'
  · have common := CommonOk.of_verify accepted found
    have own := OpOk.of_verify accepted found
    have dstFresh : 0 ≤ inst.dst → keptBefore f i inst.dst = false := by
      intro has
      by_contra known
      have := definedBefore_of_keptBefore (by simpa using known)
      rw [common.dstFresh has] at this
      cases this
    have readOk {v : Int} (read : v ∈ inst.reads) : valueDefined f' (keptBefore f i) v = true := by
      have := read_defined accepted found read
      simp [valueDefined, next, this, kept i inst found v read]
    cases peep with
    | same =>
      refine ⟨common.argSizes, common.rangePaired, common.rangeOrdered, common.debug,
        by rw [next]; exact common.dstBelow, by rw [keeps]; exact dstFresh, ?_⟩
      rw [keeps]
      refine ⟨fun v read => readOk read, own.wellFormed, ?_, ?_, ?_⟩
      · rw [any_label_eq, List.map_take, marks, ← List.map_take, ← any_label_eq]
        exact own.fresh
      · rw [labelExists, any_label_eq, marks, ← any_label_eq]
        exact own.target
      · rw [followsCall_congr chains]
        exact own.follows
    | copy src binary has source =>
      refine ⟨fun _ => rfl, rfl, (by rintro ⟨⟩), fun _ => ⟨rfl, rfl⟩,
        by rw [next]; exact common.dstBelow,
        by rw [keeps]; exact dstFresh, ?_⟩
      rw [keeps]
      refine ⟨fun v read => readOk ?_, by simp [Inst.wellFormed, makeCopy, Op.shape, has], ?_, ?_, ?_⟩
      · simp only [Inst.reads, makeCopy, Op.shape, List.mem_singleton] at read
        rcases source with rfl | rfl <;> simp [Inst.reads, binary, read]
      all_goals simp [makeCopy]
    | const value binary has =>
      refine ⟨fun _ => rfl, rfl, (by rintro ⟨⟩), fun _ => ⟨rfl, rfl⟩,
        by rw [next]; exact common.dstBelow,
        by rw [keeps]; exact dstFresh, ?_⟩
      rw [keeps]
      refine ⟨?_, by simp [Inst.wellFormed, makeConst, Op.shape, has], ?_, ?_, ?_⟩
      all_goals simp [makeConst, Inst.reads, Op.shape]
  · cases peep with
    | same => exact safe f' rewritten i inst' found found'
    | copy | const => exact constTrap_of_not_binary (by simp [makeCopy, makeConst, Op.shape])

theorem peepholeSafe_of_verify (after : verify (refreshMetadata f') = .ok ()) : PeepholeSafe f := by
  intro f'' again i inst found found'
  obtain rfl := Option.some.inj (rewritten.symm.trans again)
  have dsts := (peephole_map rewritten Inst.dst fun _ _ peep => peep.keeps.1).2
  have fresh : DstsFresh f' := by
    intro j p' at_ has
    obtain ⟨p, at', peep⟩ := peephole_at rewritten at_
    rw [definedBefore_congr dsts, peep.keeps.1]
    rw [peep.keeps.1] at has
    exact DstsFresh.of_verify accepted j p at' has
  exact constTrap_of_refresh fresh after found'

end Accepted

end Nytrix.Nir
