import Nytrix.Nir.RangeLaws
import Nytrix.Nir.Rewriting

/-! The facts of the value analysis hold of every value a run computes, and exactly when. -/

namespace Nytrix.Nir

open Nytrix.Lib

variable {σ : Type}

/-- What a fact says of a value, without the counts of its uses and effects. -/
def ValueFact.claim (fact : ValueFact) : Bool × I64 × Range :=
  (fact.knownConst, fact.constValue, fact.range)

theorem ValueFact.eq_of_claim {p q : ValueFact} (same : p.claim = q.claim) :
    ∃ n e, q = { p with useCount := n, effects := e } := by
  obtain ⟨known, value, range, _, _⟩ := p
  obtain ⟨known', value', range', _, _⟩ := q
  simp only [claim, Prod.mk.injEq] at same
  obtain ⟨rfl, rfl, rfl⟩ := same
  exact ⟨_, _, rfl⟩

theorem ValueFact.Holds.congr {p q : ValueFact} (same : p.claim = q.claim) {x : I64} :
    p.Holds x ↔ q.Holds x := by
  obtain ⟨n, e, rfl⟩ := ValueFact.eq_of_claim same
  exact ⟨fun h => ⟨h.const, h.range⟩, fun h => ⟨h.const, h.range⟩⟩

theorem analyzeBinaryFold_other {op : Op} (other : op.shape ≠ .binary) (x y : I64) :
    analyzeBinaryFold op x y = none := by
  cases op <;> simp_all [Op.shape, analyzeBinaryFold]

theorem factBinaryRange_other {op : Op} (other : op.shape ≠ .binary) (a b : ValueFact) :
    factBinaryRange op a b = none := by
  cases op <;> simp_all [Op.shape, factBinaryRange, intervalRange]

theorem arithFact_other {op : Op} (other : op.shape ≠ .binary) (a b dst : ValueFact) :
    arithFact op a b dst = dst := by
  simp [arithFact, analyzeBinaryFold_other other, factBinaryRange_other other]

section Claims

variable {a a' b b' dst dst' : ValueFact} (first : a.claim = a'.claim)
  (second : b.claim = b'.claim) (result : dst.claim = dst'.claim)

include first second

theorem factBinaryRange_claim (op : Op) : factBinaryRange op a' b' = factBinaryRange op a b := by
  obtain ⟨n, e, rfl⟩ := ValueFact.eq_of_claim first
  obtain ⟨n', e', rfl⟩ := ValueFact.eq_of_claim second
  cases op <;> rfl

include result

theorem arithFact_claim (op : Op) : (arithFact op a b dst).claim = (arithFact op a' b' dst').claim := by
  have range := factBinaryRange_claim first second op
  obtain ⟨n, e, rfl⟩ := ValueFact.eq_of_claim first
  obtain ⟨n', e', rfl⟩ := ValueFact.eq_of_claim second
  obtain ⟨n'', e'', rfl⟩ := ValueFact.eq_of_claim result
  simp only [arithFact, range]
  split
  · rfl
  · split <;> rfl

theorem cmpFact_claim (cmp : Cmp) (inTable : Bool) :
    (cmpFact cmp inTable a b dst).claim = (cmpFact cmp inTable a' b' dst').claim := by
  obtain ⟨n, e, rfl⟩ := ValueFact.eq_of_claim first
  obtain ⟨n', e', rfl⟩ := ValueFact.eq_of_claim second
  obtain ⟨n'', e'', rfl⟩ := ValueFact.eq_of_claim result
  simp only [cmpFact]
  split <;> rfl

end Claims

theorem opFact_other {count : Nat} {facts : FactTable} {inst : Inst} {dst : ValueFact}
    (other : inst.op.shape ≠ .binary) (noCopy : inst.op ≠ .copy) (noConst : inst.op ≠ .constI64) :
    opFact count facts inst dst = dst := by
  have none := arithFact_other other (facts inst.a) (facts inst.b) dst
  unfold opFact
  split
  · exact absurd ‹_› noConst
  · exact absurd ‹_› noCopy
  · rename_i isCmp
    rw [isCmp] at other
    exact absurd rfl other
  · simp only [none, ite_self]

theorem opFact_claim {count : Nat} {facts facts' : FactTable} {inst : Inst}
    {dst dst' : ValueFact} (result : dst.claim = dst'.claim)
    (operands : ∀ v ∈ inst.reads, (facts v).claim = (facts' v).claim) :
    (opFact count facts inst dst).claim = (opFact count facts' inst dst').claim := by
  by_cases binary : inst.op.shape = .binary
  · have first := operands inst.a (by simp [Inst.reads, binary])
    have second := operands inst.b (by simp [Inst.reads, binary])
    unfold opFact
    split
    · simp_all [Op.shape]
    · simp_all [Op.shape]
    · exact cmpFact_claim first second result _ _
    · split
      · exact arithFact_claim first second result _
      · exact result
  · by_cases isCopy : inst.op = .copy
    · have first := operands inst.a (by simp [Inst.reads, isCopy, Op.shape])
      simp only [opFact, isCopy]
      split
      · exact first
      · exact result
    · by_cases isConst : inst.op = .constI64
      · simp only [opFact, isConst]
        rfl
      · rw [opFact_other binary isCopy isConst, opFact_other binary isCopy isConst]
        exact result

theorem countUse_claim (count : Nat) (facts : FactTable) (v u : Int) :
    (countUse count facts v u).claim = (facts u).claim := by
  unfold countUse
  split
  · rw [Function.update_apply]
    split
    · rename_i same
      rw [same]
      rfl
    · rfl
  · rfl

theorem foldl_countUse_claim (count : Nat) (operands : List Int) (facts : FactTable) (u : Int) :
    ((operands.foldl (countUse count) facts) u).claim = (facts u).claim := by
  induction operands generalizing facts with
  | nil => rfl
  | cons v rest ih => rw [List.foldl_cons, ih, countUse_claim]

theorem analyzeInst_other {count : Nat} {facts : FactTable} {inst : Inst} {v : Int}
    (other : v ≠ inst.dst) : (analyzeInst count facts inst v).claim = (facts v).claim := by
  unfold analyzeInst
  simp only
  split
  · rw [Function.update_of_ne other, Function.update_of_ne other, foldl_countUse_claim]
  · exact foldl_countUse_claim ..

/-- What is known of a destination before its own opcode is looked at. -/
def freshFact (inst : Inst) : ValueFact :=
  { range := if inst.range.hasMin || inst.range.hasMax then inst.range else {} }

theorem analyzeInst_dst {count : Nat} {facts : FactTable} {inst : Inst} (has : 0 ≤ inst.dst)
    (inside : inst.dst < count) (fresh : (facts inst.dst).claim = ({} : ValueFact).claim)
    (apart : ∀ v ∈ inst.reads, v ≠ inst.dst) :
    (analyzeInst count facts inst inst.dst).claim =
      (opFact count facts inst (freshFact inst)).claim := by
  unfold analyzeInst
  simp only [if_pos (And.intro has inside), Function.update_self]
  refine opFact_claim ?_ fun v member => ?_
  · have start := foldl_countUse_claim count (countedOperands inst) facts inst.dst
    rw [fresh] at start
    obtain ⟨n, e, plain⟩ := ValueFact.eq_of_claim start.symm
    rw [plain]
    simp only [freshFact]
    split <;> rfl
  · rw [Function.update_of_ne (apart v member), foldl_countUse_claim]

/-- The facts before position `i`. -/
def factsBefore (f : Func) (count i : Nat) : FactTable :=
  (f.data.take i).foldl (analyzeInst count) fun _ => {}

theorem factsBefore_succ {f : Func} {count i : Nat} {inst : Inst}
    (found : f.data[i]? = some inst) :
    factsBefore f count (i + 1) = analyzeInst count (factsBefore f count i) inst := by
  simp only [factsBefore, List.take_add_one, found, Option.toList_some, List.foldl_append,
    List.foldl_cons, List.foldl_nil]

theorem factsBefore_fresh {f : Func} {count i : Nat} (inside : i ≤ f.data.length) {v : Int}
    (nonneg : 0 ≤ v) (undefined : definedBefore f i v = false) :
    (factsBefore f count i v).claim = ({} : ValueFact).claim := by
  induction i with
  | zero => rfl
  | succ i ih =>
    obtain ⟨inst, found⟩ : ∃ inst, f.data[i]? = some inst :=
      ⟨_, List.getElem?_eq_getElem (by omega)⟩
    have split := definedBefore_succ (v := v) found
    rw [undefined] at split
    simp only [Bool.false_eq_true, false_iff, not_or, Bool.not_eq_true, not_and] at split
    rw [factsBefore_succ found, analyzeInst_other (Ne.symm (split.2 nonneg))]
    exact ih (by omega) split.1

section Accepted

variable {f : Func} {count : Nat} (accepted : verify f = .ok ())
  (enough : f.nextValue ≤ count)

include accepted

theorem factsBefore_stable {i k : Nat} {v : Int} (known : definedBefore f i v = true)
    (later : i ≤ k) (inside : k ≤ f.data.length) :
    (factsBefore f count k v).claim = (factsBefore f count i v).claim := by
  induction k with
  | zero => rw [Nat.le_zero.mp later]
  | succ k ih =>
    rcases Nat.lt_or_ge k i with before | after
    · rw [Nat.le_antisymm later before]
    · obtain ⟨inst, found⟩ : ∃ inst, f.data[k]? = some inst :=
        ⟨_, List.getElem?_eq_getElem (by omega)⟩
      have other : v ≠ inst.dst := by
        rintro rfl
        have fresh := (CommonOk.of_verify accepted found).dstFresh (definedBefore_iff.mp known).1
        rw [definedBefore_mono after known] at fresh
        cases fresh
      rw [factsBefore_succ found, analyzeInst_other other]
      exact ih after (by omega)

include enough

theorem facts_dst {i : Nat} {inst : Inst} (found : f.data[i]? = some inst) (has : 0 ≤ inst.dst) :
    (factsBefore f count f.data.length inst.dst).claim =
      (opFact count (factsBefore f count f.data.length) inst (freshFact inst)).claim := by
  have inside := (List.getElem?_eq_some_iff.mp found).1
  have common := CommonOk.of_verify accepted found
  have read : ∀ v ∈ inst.reads, definedBefore f i v = true := fun v member =>
    (read_defined accepted found member).2.2
  rw [factsBefore_stable accepted (i := i + 1)
      ((definedBefore_succ found).mpr (.inr ⟨has, rfl⟩)) (by omega) (Nat.le_refl _),
    factsBefore_succ found, analyzeInst_dst has (by have := common.dstBelow; omega)
      (factsBefore_fresh (by omega) has (common.dstFresh has))]
  · exact opFact_claim rfl fun v member =>
      (factsBefore_stable accepted (read v member) (by omega) (Nat.le_refl _)).symm
  · rintro v member rfl
    have fresh := common.dstFresh has
    rw [read _ member] at fresh
    cases fresh

end Accepted

/-- The range metadata that emitting and refreshing compute. -/
def computedRange (inst : Inst) : Range :=
  if inst.op = .constI64 then .closed inst.imm inst.imm
  else if inst.op.isCmp then .closed 0 1
  else {}

/-- Every range metadata is absent, or what emitting and refreshing compute. -/
def CanonicalRanges (f : Func) : Prop :=
  ∀ (i : Nat) (inst : Inst), f.data[i]? = some inst →
    (inst.range.hasMin = false ∧ inst.range.hasMax = false) ∨ inst.range = computedRange inst

theorem ofBool_bounds (p : Bool) : 0 ≤ (ofBool p).toInt ∧ (ofBool p).toInt ≤ 1 := by
  cases p <;> decide

theorem freshFact_holds {inst : Inst} {z : I64}
    (canonical : (inst.range.hasMin = false ∧ inst.range.hasMax = false) ∨
      inst.range = computedRange inst)
    (noConst : inst.op ≠ .constI64)
    (boolean : inst.op.isCmp = true → ∃ p, z = ofBool p) : (freshFact inst).Holds z := by
  refine ⟨fun known => by simp [freshFact] at known, ?_⟩
  unfold freshFact
  rcases canonical with ⟨noMin, noMax⟩ | computed
  · intro closed
    simp [noMin, noMax, Range.isClosed] at closed
  · by_cases isCmp : inst.op.isCmp = true
    · obtain ⟨p, rfl⟩ := boolean isCmp
      have range : inst.range = .closed 0 1 := by
        rw [computed, computedRange, if_neg noConst, if_pos isCmp]
      simp only [range, Range.closed, Bool.or_true, if_true]
      exact Range.closed_holds.mpr (ofBool_bounds p)
    · have range : inst.range = {} := by
        rw [computed, computedRange, if_neg noConst, if_neg isCmp]
      intro closed
      simp [range, Range.isClosed] at closed

section Facts

variable {a b dst : ValueFact} {op : Op} {x y z : I64}

theorem arithFact_holds (first : a.Holds x) (second : b.Holds y) (start : dst.Holds z)
    (computed : analyzeBinaryFold op x y = some z)
    (union : unionRule op a b = true → z.toInt ≤ (a.range.max ||| b.range.max).toInt) :
    (arithFact op a b dst).Holds z := by
  unfold arithFact
  split
  · -- Both operands are constants, so the folded result is the computed one.
    rename_i folded constant
    split at constant
    · rename_i known
      simp only [Bool.and_eq_true] at known
      rw [← first.const known.1, ← second.const known.2, computed, Option.some.injEq] at constant
      rw [← constant]
      exact factSetConst_holds dst z
    · cases constant
  · rename_i unfolded
    have notBoth : (a.knownConst && b.knownConst) = false := by
      by_contra both
      rw [Bool.not_eq_false] at both
      have known := both
      simp only [Bool.and_eq_true] at known
      rw [if_pos both, ← first.const known.1, ← second.const known.2, computed] at unfolded
      cases unfolded
    split
    · rename_i r ranged
      refine ⟨start.const, ?_⟩
      simp only [factBinaryRange] at ranged
      cases masked : (if op = .andI64 then maskRange a b else none) with
      | some mask =>
        obtain rfl : mask = r := by simpa [masked] using ranged
        split at masked
        · rename_i isAnd
          subst isAnd
          obtain rfl := by simpa [analyzeBinaryFold] using computed
          exact maskRange_holds masked first second
        · cases masked
      | none =>
        rw [masked] at ranged
        replace ranged : (if a.range.isClosed && b.range.isClosed then intervalRange op a b
          else none) = some r := ranged
        split at ranged
        · rename_i closed
          simp only [Bool.and_eq_true] at closed
          refine intervalRange_holds (first.range closed.1) (second.range closed.2) ranged
            second.const computed fun isUnion => union ?_
          have nonneg : 0 ≤ a.range.min.toInt ∧ 0 ≤ b.range.min.toInt := by
            rcases isUnion with rfl | rfl <;> simp only [intervalRange] at ranged <;>
              split at ranged <;> first | cases ranged | skip
            all_goals
              rename_i signs
              simpa using signs
          rcases isUnion with rfl | rfl <;>
            simp [unionRule, closed.1, closed.2, notBoth, nonneg.1, nonneg.2]
        · cases ranged
    · exact start

theorem arithFact_union (first : a.Holds x) (second : b.Holds y)
    (computed : analyzeBinaryFold op x y = some z) (claimed : unionRule op a b = true)
    (holds : (arithFact op a b dst).Holds z) :
    z.toInt ≤ (a.range.max ||| b.range.max).toInt := by
  simp only [unionRule, Bool.and_eq_true, Bool.not_eq_true', Bool.or_eq_true,
    decide_eq_true_eq] at claimed
  obtain ⟨⟨⟨⟨⟨isUnion, notBoth⟩, closedA⟩, closedB⟩, nonnegA⟩, nonnegB⟩ := claimed
  have boundsA := first.range closedA
  have boundsB := second.range closedB
  have large := or_bounds (x := a.range.max) (y := b.range.max) (by omega) (by omega)
  have zero : (0 : I64).toInt = 0 := rfl
  have ranged : intervalRange op a b = some (.closed 0 (a.range.max ||| b.range.max)) := by
    rcases isUnion with rfl | rfl <;>
      simp only [intervalRange, orderedRange] <;>
      rw [if_neg (by simp [nonnegA, nonnegB]), if_neg (by omega)]
  have isOther : op ≠ .andI64 := by
    rcases isUnion with rfl | rfl <;> decide
  have range : (arithFact op a b dst).range = .closed 0 (a.range.max ||| b.range.max) := by
    simp [arithFact, notBoth, factBinaryRange, isOther, closedA, closedB, ranged]
  refine (unionRange_holds boundsA boundsB isUnion ranged computed).mp ?_
  rw [← range]
  exact holds.range

end Facts

/-- Every value of a state satisfies its fact. -/
def FactsHold (facts : FactTable) (s : State σ) : Prop :=
  ∀ v x, s.values v = some x → (facts v).Holds x

/--
The instruction a state is about to execute respects the union rule.

If it is an or or an exclusive or that the rule bounds, its result is at most the union of its
operands' upper bounds.
-/
def UnionBounded (f : Func) (facts : FactTable) (s : State σ) : Prop :=
  ∀ inst x y z, f.data[s.pc]? = some inst →
    unionRule inst.op (facts inst.a) (facts inst.b) = true → s.values inst.a = some x →
    s.values inst.b = some y → analyzeBinaryFold inst.op x y = some z →
    z.toInt ≤ ((facts inst.a).range.max ||| (facts inst.b).range.max).toInt

/-- The integer operations. -/
def Op.isArith : Op → Bool
  | .addI64 | .subI64 | .mulI64 | .divI64 | .modI64 | .andI64 | .orI64 | .xorI64 | .shlI64
  | .sarI64 => true
  | _ => false

theorem arithFact_float {op : Op} (other : op.isArith = false) (a b dst : ValueFact) :
    arithFact op a b dst = dst := by
  cases op <;> simp_all [Op.isArith, arithFact, analyzeBinaryFold, factBinaryRange, intervalRange]

theorem binaryFact_holds {count : Nat} {facts : FactTable} {inst : Inst} {x y z : I64}
    (canonical : (inst.range.hasMin = false ∧ inst.range.hasMax = false) ∨
      inst.range = computedRange inst)
    (binary : inst.op.shape = .binary) (inTable : operandsInTable count inst = true)
    (first : (facts inst.a).Holds x) (second : (facts inst.b).Holds y)
    (computed : binaryResult inst.op inst.cmp x y = some z)
    (union : unionRule inst.op (facts inst.a) (facts inst.b) = true →
      analyzeBinaryFold inst.op x y = some z →
      z.toInt ≤ ((facts inst.a).range.max ||| (facts inst.b).range.max).toInt) :
    (opFact count facts inst (freshFact inst)).Holds z := by
  have noConst : inst.op ≠ .constI64 := fun same => by simp [same, Op.shape] at binary
  have noCopy : inst.op ≠ .copy := fun same => by simp [same, Op.shape] at binary
  by_cases isCmp : inst.op = .cmpI64
  · simp only [isCmp, binaryResult, Option.some.injEq] at computed
    subst computed
    simp only [opFact, isCmp, cmpFact]
    split
    · rename_i known
      simp only [Bool.and_eq_true] at known
      rw [first.const known.1.2, second.const known.2]
      exact factSetConst_holds _ _
    · exact ⟨fun known => by simp [freshFact] at known, Range.closed_holds.mpr (ofBool_bounds _)⟩
  · have start : (freshFact inst).Holds z := by
      refine freshFact_holds canonical noConst fun compares => ?_
      simp only [Op.isCmp, Bool.or_eq_true, decide_eq_true_eq] at compares
      rcases compares with (same | same) | same
      · exact absurd same isCmp
      · simp only [same, binaryResult, Option.some.injEq] at computed
        exact ⟨_, computed.symm⟩
      · simp only [same, binaryResult, Option.some.injEq] at computed
        exact ⟨_, computed.symm⟩
    unfold opFact
    split
    · exact absurd ‹_› noConst
    · exact absurd ‹_› noCopy
    · exact absurd ‹_› isCmp
    · simp only [inTable, if_true]
      by_cases arith : inst.op.isArith = true
      · have integer : binaryResult inst.op inst.cmp x y = analyzeBinaryFold inst.op x y := by
          revert arith
          cases inst.op <;> simp [Op.isArith, binaryResult]
        rw [integer] at computed
        exact arithFact_holds first second start computed fun claimed => union claimed computed
      · rw [arithFact_float (by simpa using arith)]
        exact start

section Runs

variable {f : Func} {count : Nat} (accepted : verify f = .ok ())
  (enough : f.nextValue ≤ count) (ranges : CanonicalRanges f)

include accepted enough

theorem operandsInTable_of_verify {i : Nat} {inst : Inst} (found : f.data[i]? = some inst)
    (binary : inst.op.shape = .binary) : operandsInTable count inst = true := by
  have read (v : Int) (member : v ∈ inst.reads) : 0 ≤ v ∧ v < count := by
    have := read_defined accepted found member
    omega
  have first := read inst.a (by simp [Inst.reads, binary])
  have second := read inst.b (by simp [Inst.reads, binary])
  simp [operandsInTable, first, second]

include ranges

/-- A move from a state that respects the union rule keeps the facts. -/
theorem FactsHold.next {cfg : EvalConfig σ} {s s' : State σ}
    (holds : FactsHold (factsBefore f count f.data.length) s)
    (union : UnionBounded f (factsBefore f count f.data.length) s)
    (moved : (vm f cfg).step s = .inl s') :
    FactsHold (factsBefore f count f.data.length) s' := by
  obtain ⟨inst, found, stepped⟩ := vm_next moved
  obtain ⟨-, xs, read, executed⟩ := stepInst_next stepped
  have canonical := ranges s.pc inst found
  obtain ⟨-, values⟩ := execute_next executed
  cases values with
  | same silent kept =>
    intro v x value
    exact holds v x (by rw [← kept]; exact value)
  | written v z produced updated =>
    obtain ⟨writes, has, rfl⟩ := Inst.writes_eq_some.mp produced
    intro u x value
    rw [updated, Function.update_apply] at value
    split at value
    swap
    · exact holds u x value
    rename_i same
    subst same
    obtain rfl : z = x := by simpa using value
    refine (ValueFact.Holds.congr (facts_dst accepted enough found has)).mpr ?_
    by_cases pure : inst.op.shape.isPure = true
    · -- The written value is the pure result of the operands that were read.
      rw [execute_pure pure has] at executed
      cases computed : inst.pureResult xs with
      | none => simp [computed] at executed
      | some y =>
        obtain rfl : y = z := by
          simp only [computed, Sum.inl.injEq] at executed
          rw [← executed] at updated
          have := congrFun updated inst.dst
          simpa using this
        cases shape : inst.op.shape <;>
          simp only [shape, Shape.isPure, Bool.false_eq_true] at pure <;>
          simp only [Inst.pureResult, shape, Option.some.injEq] at computed <;>
          simp only [Inst.reads, shape] at read
        case const =>
          by_cases isConst : inst.op = .constI64
          · simp only [opFact, isConst, computed]
            exact factSetConst_holds _ _
          · rw [opFact_other (by simp [shape]) (fun same => by simp [same, Op.shape] at shape) isConst]
            exact freshFact_holds canonical isConst fun compares => by
              revert shape compares
              cases inst.op <;> simp [Op.shape, Op.isCmp]
        case unary =>
          obtain ⟨x, rfl, valueA⟩ := mapM_readValue_one read
          have noConst : inst.op ≠ .constI64 := fun same => by simp [same, Op.shape] at shape
          by_cases isCopy : inst.op = .copy
          · have inTable : 0 ≤ inst.a ∧ inst.a < count := by
              have := read_defined accepted found (v := inst.a) (by simp [Inst.reads, shape])
              omega
            have source := holds inst.a x valueA
            obtain rfl : x = y := by simpa [isCopy, unaryResult] using computed
            simp only [opFact, isCopy, if_pos inTable]
            exact ⟨source.const, source.range⟩
          · rw [opFact_other (by simp [shape]) isCopy noConst]
            exact freshFact_holds canonical noConst fun compares => by
              revert shape compares
              cases inst.op <;> simp [Op.shape, Op.isCmp]
        case binary =>
          obtain ⟨x, x', rfl, valueA, valueB⟩ := mapM_readValue_two read
          exact binaryFact_holds canonical shape
            (operandsInTable_of_verify accepted enough found shape) (holds _ _ valueA)
            (holds _ _ valueB) computed fun claimed folded =>
              union inst x x' y found claimed valueA valueB folded
    · -- Loads, addresses and calls claim nothing of what they write.
      have notBinary : inst.op.shape ≠ .binary := fun same => pure (by rw [same]; rfl)
      have noCopy : inst.op ≠ .copy := fun same => pure (by rw [same]; rfl)
      have noConst : inst.op ≠ .constI64 := fun same => pure (by rw [same]; rfl)
      rw [opFact_other notBinary noCopy noConst]
      exact freshFact_holds canonical noConst fun compares => by
        revert notBinary compares
        cases inst.op <;> simp [Op.shape, Op.isCmp]

omit ranges in
/-- A move that keeps the facts respected the union rule. -/
theorem UnionBounded.of_next {cfg : EvalConfig σ} {s s' : State σ}
    (holds : FactsHold (factsBefore f count f.data.length) s)
    (moved : (vm f cfg).step s = .inl s')
    (kept : FactsHold (factsBefore f count f.data.length) s') :
    UnionBounded f (factsBefore f count f.data.length) s := by
  intro inst x y z found claimed valueA valueB folded
  obtain ⟨inst', found', stepped⟩ := vm_next moved
  obtain rfl : inst = inst' := by simpa [found] using found'
  have isUnion : inst.op = .orI64 ∨ inst.op = .xorI64 := by
    simp only [unionRule, Bool.and_eq_true, Bool.or_eq_true, decide_eq_true_eq] at claimed
    exact claimed.1.1.1.1.1
  have binary : inst.op.shape = .binary := by
    rcases isUnion with same | same <;> rw [same] <;> rfl
  obtain ⟨-, xs, read, executed⟩ := stepInst_next stepped
  simp only [Inst.reads, binary] at read
  obtain ⟨x', y', rfl, valueA', valueB'⟩ := mapM_readValue_two read
  obtain rfl : x = x' := by simpa [valueA] using valueA'
  obtain rfl : y = y' := by simpa [valueB] using valueB'
  have result : binaryResult inst.op inst.cmp x y = some z := by
    rw [← folded]
    rcases isUnion with same | same <;> rw [same] <;> rfl
  simp only [execute, binary, List.getD_cons_zero, List.getD_cons_succ, result] at executed
  obtain ⟨has, rfl⟩ := writeDst_next executed
  have written := kept inst.dst z (by simp)
  rw [ValueFact.Holds.congr (facts_dst accepted enough found has)] at written
  have isArith : opFact count (factsBefore f count f.data.length) inst (freshFact inst) =
      arithFact inst.op (factsBefore f count f.data.length inst.a)
        (factsBefore f count f.data.length inst.b) (freshFact inst) := by
    have inTable := operandsInTable_of_verify accepted enough found binary
    rcases isUnion with same | same <;> simp only [opFact, same, inTable, if_true]
  rw [isArith] at written
  exact arithFact_union (holds _ _ valueA) (holds _ _ valueB) folded claimed written

end Runs

theorem analyzeValues_ok {f : Func} {count : Nat} {facts : FactTable}
    (analyzed : analyzeValues f count = .ok facts) :
    f.nextValue ≤ count ∧ facts = factsBefore f count f.data.length := by
  unfold analyzeValues at analyzed
  split at analyzed
  · cases analyzed
  · split at analyzed
    · cases analyzed
    · rename_i enough
      rw [Except.ok.injEq] at analyzed
      exact ⟨by omega, by rw [← analyzed, factsBefore, List.take_length]⟩

/--
The value analysis is sound along a run exactly when the run respects the union rule.

The facts hold of every value in every state the run visits if and only if every or and exclusive
or it executes stays within the union of its operands' upper bounds where the analysis claims so.
-/
theorem analyzeValues_sound_iff {f : Func} {count : Nat} {facts : FactTable}
    (accepted : verify f = .ok ()) (ranges : CanonicalRanges f)
    (analyzed : analyzeValues f count = .ok facts) (cfg : EvalConfig σ) (w : World σ) :
    (∀ s, (vm f cfg).Steps (initialState w) s → FactsHold facts s) ↔
      ∀ s s', (vm f cfg).Steps (initialState w) s → (vm f cfg).step s = .inl s' →
        UnionBounded f facts s := by
  obtain ⟨enough, rfl⟩ := analyzeValues_ok analyzed
  constructor
  · intro sound s s' run moved
    exact UnionBounded.of_next accepted enough (sound s run) moved (sound s' (run.tail moved))
  · intro bounded s run
    -- The invariant is carried from the entry, where no value exists yet.
    induction run with
    | refl =>
      intro v x value
      cases value
    | tail before moved ih =>
      exact FactsHold.next accepted enough ranges ih (bounded _ _ before moved) moved

theorem canonicalRanges_refresh {f : Func} (plain : ∀ inst ∈ f.data, inst.range = {}) :
    CanonicalRanges (refreshMetadata f) := by
  intro i inst found
  simp only [refreshMetadata, List.getElem?_map, Option.map_eq_some_iff] at found
  obtain ⟨old, at_, rfl⟩ := found
  have range : (normalizeOperands old).range = {} := by
    rw [← plain old (List.mem_of_getElem? at_)]
    unfold normalizeOperands
    split <;> rfl
  refine .inr ?_
  unfold refreshInst computedRange
  simp only
  split
  · rfl
  · split
    · rfl
    · exact range

/-- A masked slot divided by two. -/
def maskedHalf : Func := refreshMetadata {
  data := [{ op := .loadLocal, dst := 0, imm := 0 }, { op := .constI64, dst := 1, imm := 255 },
    { op := .andI64, dst := 2, a := 0, b := 1 }, { op := .constI64, dst := 3, imm := 2 },
    { op := .divI64, dst := 4, a := 2, b := 3 }, { op := .ret, dst := -1, a := 4 }]
  nextValue := 5 }

/-- The run on a masked slot keeps the facts, the halved mask among them. -/
theorem maskedHalf_sound :
    (factsBefore maskedHalf 5 6 4).range = .closed 0 127 ∧
      ∀ s, (vm maskedHalf fourSlotsConfig).Steps (initialState (slotsWorld [300])) s →
        FactsHold (factsBefore maskedHalf 5 6) s := by
  have analyzed : analyzeValues maskedHalf 5 = .ok (factsBefore maskedHalf 5 6) := rfl
  refine ⟨by decide, (analyzeValues_sound_iff rfl (canonicalRanges_refresh (by decide)) analyzed
    fourSlotsConfig _).mpr ?_⟩
  -- No instruction of the function is an or or an exclusive or.
  intro s s' _ _ inst x y z found claimed
  have plain : ∀ inst ∈ maskedHalf.data, ¬ (inst.op = .orI64 ∨ inst.op = .xorI64) := by decide
  refine absurd ?_ (plain inst (List.mem_of_getElem? found))
  simp only [unionRule, Bool.and_eq_true, Bool.or_eq_true, decide_eq_true_eq] at claimed
  exact claimed.1.1.1.1.1

/-- The union of two slots that each hold at most four. -/
def smallUnion : Func := refreshMetadata {
  data := [{ op := .loadLocal, dst := 0, imm := 0 }, { op := .loadLocal, dst := 1, imm := 1 },
    { op := .constI64, dst := 2, imm := 3 }, { op := .constI64, dst := 3, imm := 1 },
    { op := .andI64, dst := 4, a := 0, b := 2 }, { op := .andI64, dst := 5, a := 1, b := 2 },
    { op := .addI64, dst := 6, a := 4, b := 3 }, { op := .addI64, dst := 7, a := 5, b := 3 },
    { op := .orI64, dst := 8, a := 6, b := 7 }, { op := .ret, dst := -1, a := 8 }]
  nextValue := 9 }

/-- The union of three and four is seven, and the analysis claims at most four. -/
theorem smallUnion_unsound :
    verify smallUnion = .ok () ∧ CanonicalRanges smallUnion ∧
      ∃ facts s, analyzeValues smallUnion 9 = .ok facts ∧ (facts 8).range = .closed 0 4 ∧
        (vm smallUnion fourSlotsConfig).Steps (initialState (slotsWorld [2, 3])) s ∧
        s.values 8 = some 7 ∧ ¬ FactsHold facts s := by
  have value : ∃ s, (vm smallUnion fourSlotsConfig).run 9 (initialState (slotsWorld [2, 3])) =
      some s ∧ s.values 8 = some 7 := ⟨_, rfl, by decide⟩
  obtain ⟨s, ran, seven⟩ := value
  refine ⟨rfl, canonicalRanges_refresh (by decide), _, s, rfl, by decide, .of_run ran, seven, ?_⟩
  intro holds
  exact absurd ((holds 8 7 seven).range (by decide)).2 (by decide)

end Nytrix.Nir
