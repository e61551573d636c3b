import Nytrix.Nir.AnalysisLaws
import Nytrix.Nir.BranchLaws
import Nytrix.Nir.Peephole

/-! The peephole rules keep what a function computes, wherever the verifier accepts their result. -/

namespace Nytrix.Nir

open Nytrix.Lib

variable {σ : Type}

section Identities

/--
What an instruction with two operands always computes: one of its operands, or a constant.

The identities are those of arithmetic, of constants that are known, and of intervals.
-/
def identity (known : ConstTable) (facts : FactTable) (inst : Inst) : Option (Int ⊕ I64) :=
  let a := known inst.a
  let b := known inst.b
  let nonzero := fun value : I64 => value ≠ 0
  if inst.dst < 0 || decide (inst.a < 0) || decide (inst.b < 0) then none
  else match inst.op with
  | .addI64 =>
    if b = some 0 then some (.inl inst.a) else if a = some 0 then some (.inl inst.b) else none
  | .subI64 =>
    if inst.a = inst.b then some (.inr 0) else if b = some 0 then some (.inl inst.a) else none
  | .mulI64 =>
    if b = some 0 || a = some 0 then some (.inr 0)
    else if b = some 1 then some (.inl inst.a)
    else if a = some 1 then some (.inl inst.b) else none
  | .divI64 =>
    if b = some 1 then some (.inl inst.a)
    else if a = some 0 && b.any nonzero then some (.inr 0) else none
  | .modI64 =>
    if b = some 1 || b = some (-1) then some (.inr 0)
    else if a = some 0 && b.any nonzero then some (.inr 0) else none
  | .andI64 =>
    if inst.a = inst.b then some (.inl inst.a)
    else if b = some 0 || a = some 0 then some (.inr 0)
    else if b = some (-1) then some (.inl inst.a)
    else if a = some (-1) then some (.inl inst.b) else none
  | .orI64 =>
    if inst.a = inst.b then some (.inl inst.a)
    else if b = some (-1) || a = some (-1) then some (.inr (-1))
    else if b = some 0 then some (.inl inst.a)
    else if a = some 0 then some (.inl inst.b) else none
  | .xorI64 =>
    if inst.a = inst.b then some (.inr 0)
    else if b = some 0 then some (.inl inst.a)
    else if a = some 0 then some (.inl inst.b) else none
  | .shlI64 | .sarI64 =>
    if b = some 0 then some (.inl inst.a) else if a = some 0 then some (.inr 0) else none
  | .cmpI64 =>
    if inst.a = inst.b then some (.inr (cmpSameValue inst.cmp))
    else (cmpRangeFold inst.cmp (facts inst.a).range (facts inst.b).range).map .inr
  | _ => none

/-- An instruction that computes what is always the same, or else the instruction as it is. -/
def applyIdentity (inst : Inst) : Option (Int ⊕ I64) → Inst
  | some (.inl src) => makeCopy inst src
  | some (.inr value) => makeConst inst value
  | none => inst

theorem applyIdentity_ite (inst : Inst) (c : Prop) [Decidable c] (x y : Option (Int ⊕ I64)) :
    applyIdentity inst (if c then x else y) =
      if c then applyIdentity inst x else applyIdentity inst y := by
  split <;> rfl

variable {known : ConstTable} {facts : FactTable} {inst : Inst}

theorem peepholeInst_eq (known : ConstTable) (facts : FactTable) (inst : Inst) :
    peepholeInst known facts inst = applyIdentity inst (identity known facts inst) := by
  unfold peepholeInst identity peepholeRule
  simp only [applyIdentity_ite]
  have copies (src : Int) : applyIdentity inst (some (.inl src)) = makeCopy inst src := rfl
  have consts (value : I64) : applyIdentity inst (some (.inr value)) = makeConst inst value := rfl
  have stays : applyIdentity inst none = inst := rfl
  split
  · rfl
  · cases op : inst.op <;> simp only [applyIdentity_ite, copies, consts, stays]
    -- What is left is the comparison of two intervals.
    cases cmpRangeFold inst.cmp (facts inst.a).range (facts inst.b).range <;> rfl

theorem identity_binary {k : Int ⊕ I64} (identified : identity known facts inst = some k) :
    inst.op.shape = .binary ∧ 0 ≤ inst.dst ∧ 0 ≤ inst.a ∧ 0 ≤ inst.b := by
  unfold identity at identified
  simp only at identified
  split at identified
  · cases identified
  · rename_i given
    simp only [Bool.or_eq_true, decide_eq_true_eq, not_or, Int.not_lt] at given
    refine ⟨?_, given.1.1, given.1.2, given.2⟩
    cases op : inst.op <;> simp only [op, reduceCtorEq] at identified <;> rfl

theorem identity_source {src : Int} (identified : identity known facts inst = some (.inl src)) :
    src = inst.a ∨ src = inst.b := by
  have binary := (identity_binary identified).1
  have peep := peepholeInst_cases known facts inst
  rw [peepholeInst_eq, identified] at peep
  generalize eq : applyIdentity inst (some (.inl src)) = inst' at peep
  cases peep with
  | same =>
    rw [← congrArg Inst.op eq] at binary
    cases binary
  | copy src' _ _ source =>
    obtain rfl : src = src' := congrArg Inst.a eq
    exact source
  | const => exact absurd (congrArg Inst.op eq) (by simp [applyIdentity, makeCopy, makeConst])

end Identities

theorem and_neg_one (x : I64) : x &&& -1 = x := BitVec.and_allOnes

theorem neg_one_and (x : I64) : -1 &&& x = x := BitVec.allOnes_and

theorem or_neg_one (x : I64) : x ||| -1 = -1 := BitVec.or_allOnes

theorem neg_one_or (x : I64) : -1 ||| x = -1 := BitVec.allOnes_or

theorem srem_neg_one (x : I64) : x.srem (-1) = 0 := by
  apply BitVec.eq_of_toInt_eq
  rw [BitVec.toInt_srem, show (-1 : I64).toInt = -1 by decide, Int.tmod_neg, Int.tmod_one]
  rfl

theorem cmpRangeFold_holds {cmp : Cmp} {a b : Range} {x y folded : I64}
    (decided : cmpRangeFold cmp a b = some folded) (first : a.Holds x) (second : b.Holds y) :
    analyzeCmpFold cmp x y = folded := by
  unfold cmpRangeFold at decided
  simp only at decided
  split at decided
  · cases decided
  · rename_i closed
    simp only [Bool.or_eq_true, Bool.not_eq_true', not_or, Bool.not_eq_false] at closed
    obtain ⟨⟨⟨minA, maxA⟩, minB⟩, maxB⟩ := closed
    obtain ⟨lowA, highA⟩ := first (by simp [Range.isClosed, minA, maxA])
    obtain ⟨lowB, highB⟩ := second (by simp [Range.isClosed, minB, maxB])
    have apart : x = y → x.toInt = y.toInt := congrArg BitVec.toInt
    -- Each predicate has its own ends to compare.
    cases cmp <;> simp only [Bool.or_eq_true, decide_eq_true_eq] at decided <;>
      split at decided
    case eq.isTrue | ne.isTrue =>
      obtain rfl := Option.some.inj decided
      have differ : x ≠ y := fun same => by
        have := apart same
        omega
      simp [analyzeCmpFold, ofBool, differ]
    case eq.isFalse | ne.isFalse => cases decided
    case lt.isTrue | le.isTrue | gt.isTrue | ge.isTrue =>
      obtain rfl := Option.some.inj decided
      simp only [analyzeCmpFold, ofBool, decide_eq_true_eq]
      exact if_pos (by omega)
    all_goals
      split at decided
      · obtain rfl := Option.some.inj decided
        simp only [analyzeCmpFold, ofBool, decide_eq_true_eq]
        exact if_neg (by omega)
      · cases decided

theorem analyzeCmpFold_self (cmp : Cmp) (x : I64) : analyzeCmpFold cmp x x = cmpSameValue cmp := by
  cases cmp <;> simp [analyzeCmpFold, ofBool, cmpSameValue]

/-- What is known of the two words that an instruction reads. -/
structure OperandsHold (known : ConstTable) (facts : FactTable) (inst : Inst) (x y : I64) :
    Prop where
  constA : ∀ c, known inst.a = some c → x = c
  constB : ∀ c, known inst.b = some c → y = c
  same : inst.a = inst.b → x = y
  rangeA : (facts inst.a).range.Holds x
  rangeB : (facts inst.b).range.Holds y

/-- A word is what is said of it: that of an operand, or a constant. -/
def Stands (inst : Inst) (x y z : I64) : Int ⊕ I64 → Prop
  | .inl v => v = inst.a ∧ z = x ∨ v = inst.b ∧ z = y
  | .inr c => z = c

/-- A word is what an identity says of it, if there is one. -/
def Right (inst : Inst) (x y z : I64) (k : Option (Int ⊕ I64)) : Prop :=
  ∀ said, k = some said → Stands inst x y z said

section Right

variable {inst : Inst} {x y z : I64}

theorem Right.nothing : Right inst x y z none := fun _ said => nomatch said

theorem Right.first (same : z = x) : Right inst x y z (some (.inl inst.a)) := by
  rintro _ ⟨⟩
  exact .inl ⟨rfl, same⟩

theorem Right.second (same : z = y) : Right inst x y z (some (.inl inst.b)) := by
  rintro _ ⟨⟩
  exact .inr ⟨rfl, same⟩

theorem Right.const {c : I64} (same : z = c) : Right inst x y z (some (.inr c)) := by
  rintro _ ⟨⟩
  exact same

theorem Right.ite {c : Prop} [Decidable c] {k k' : Option (Int ⊕ I64)}
    (yes : c → Right inst x y z k) (no : Right inst x y z k') :
    Right inst x y z (if c then k else k') := by
  split
  · exact yes ‹_›
  · exact no

/-- Every identity holds for all words for which the operation is defined. -/
theorem identity_right {known : ConstTable} {facts : FactTable}
    (holds : OperandsHold known facts inst x y)
    (result : binaryResult inst.op inst.cmp x y = some z) :
    Right inst x y z (identity known facts inst) := by
  obtain ⟨constA, constB, same, rangeA, rangeB⟩ := holds
  unfold identity
  refine .ite (fun _ => .nothing) ?_
  cases op : inst.op <;> simp only [op, binaryResult, analyzeBinaryFold] at result ⊢
  case addI64 =>
    obtain rfl := Option.some.inj result
    exact .ite (fun zero => .first (by simp [constB _ zero]))
      (.ite (fun zero => .second (by simp [constA _ zero])) .nothing)
  case subI64 =>
    obtain rfl := Option.some.inj result
    exact .ite (fun one => .const (by simp [same one]))
      (.ite (fun zero => .first (by simp [constB _ zero])) .nothing)
  case mulI64 =>
    obtain rfl := Option.some.inj result
    refine .ite (fun zero => .const ?_)
      (.ite (fun one => .first (by simp [constB _ one]))
        (.ite (fun one => .second (by simp [constA _ one])) .nothing))
    rcases (by simpa using zero : _ ∨ _) with zero | zero
    · simp [constB _ zero]
    · simp [constA _ zero]
  case divI64 =>
    split at result
    · cases result
    · obtain rfl := Option.some.inj result
      refine .ite (fun one => .first (by simp [constB _ one])) (.ite (fun zero => .const ?_) .nothing)
      rw [Bool.and_eq_true, decide_eq_true_eq] at zero
      simp [constA _ zero.1]
  case modI64 =>
    split at result
    · cases result
    · obtain rfl := Option.some.inj result
      refine .ite (fun one => .const ?_) (.ite (fun zero => .const ?_) .nothing)
      · rcases (by simpa using one : _ ∨ _) with one | minus
        · simp [constB _ one]
        · rw [constB _ minus]
          exact srem_neg_one x
      · rw [Bool.and_eq_true, decide_eq_true_eq] at zero
        simp [constA _ zero.1]
  case andI64 =>
    obtain rfl := Option.some.inj result
    refine .ite (fun one => .first (by simp [same one])) (.ite (fun zero => .const ?_)
      (.ite (fun ones => .first (by rw [constB _ ones, and_neg_one]))
        (.ite (fun ones => .second (by rw [constA _ ones, neg_one_and])) .nothing)))
    rcases (by simpa using zero : _ ∨ _) with zero | zero
    · simp [constB _ zero]
    · simp [constA _ zero]
  case orI64 =>
    obtain rfl := Option.some.inj result
    refine .ite (fun one => .first (by simp [same one])) (.ite (fun ones => .const ?_)
      (.ite (fun zero => .first (by simp [constB _ zero]))
        (.ite (fun zero => .second (by simp [constA _ zero])) .nothing)))
    rcases (by simpa using ones : _ ∨ _) with ones | ones
    · rw [constB _ ones]
      exact or_neg_one x
    · rw [constA _ ones]
      exact neg_one_or y
  case xorI64 =>
    obtain rfl := Option.some.inj result
    exact .ite (fun one => .const (by simp [same one]))
      (.ite (fun zero => .first (by simp [constB _ zero]))
        (.ite (fun zero => .second (by simp [constA _ zero])) .nothing))
  case shlI64 | sarI64 =>
    split at result
    · cases result
    · obtain rfl := Option.some.inj result
      exact .ite (fun zero => .first (by simp [constB _ zero]))
        (.ite (fun zero => .const (by simp [constA _ zero])) .nothing)
  case cmpI64 =>
    obtain rfl := Option.some.inj result
    refine .ite (fun one => .const ?_) fun said folded => ?_
    · rw [same one, analyzeCmpFold_self]
    · obtain ⟨value, decided, rfl⟩ := Option.map_eq_some_iff.1 folded
      exact cmpRangeFold_holds decided rangeA rangeB
  all_goals exact .nothing

end Right

section Steps

variable {f : Func} {cfg : EvalConfig σ} {s : State σ} {inst : Inst}

/-- Every value of a state lies in its interval. -/
def RangesHold (facts : FactTable) (s : State σ) : Prop :=
  ∀ v x, s.values v = some x → (facts v).range.Holds x

theorem peepholeInst_agrees {f' : Func} {facts : FactTable} (accepted : verify f = .ok ())
    (consts : ConstsHold f s) (ranges : RangesHold facts s)
    (found : f.data[s.pc]? = some inst) (labels : labelTable f' = labelTable f)
    (fine : Fine (stepInst f cfg inst s)) :
    stepInst f' cfg (peepholeInst (collectConsts f) facts inst) s = stepInst f cfg inst s := by
  rw [peepholeInst_eq]
  cases identified : identity (collectConsts f) facts inst with
  | none => exact stepInst_congr ⟨rfl, fun _ => rfl, rfl, rfl, rfl⟩ (by rw [labels]) rfl fine
  | some said =>
    obtain ⟨binary, has, givenA, givenB⟩ := identity_binary identified
    obtain ⟨xs, z, read, result, stepped⟩ := stepInst_pure (by rw [binary]; rfl) has fine
    simp only [Inst.reads, binary] at read
    obtain ⟨x, y, rfl, valueA, valueB⟩ := mapM_readValue_two read
    simp only [Inst.pureResult, binary, List.getD_cons_zero, List.getD_cons_succ] at result
    have known {v : Int} {x c : I64} (given : 0 ≤ v) (value : s.values v = some x)
        (isConst : collectConsts f v = some c) : x = c :=
      consts v x c value (constsBefore_of_collectConsts (by rw [constOf, if_pos given, isConst]))
    have holds : OperandsHold (collectConsts f) facts inst x y := by
      refine ⟨fun c => known givenA valueA, fun c => known givenB valueB, fun same => ?_,
        ranges _ _ valueA, ranges _ _ valueB⟩
      rw [same, valueB, Option.some.injEq] at valueA
      exact valueA.symm
    have stands := identity_right holds result said identified
    rw [stepped]
    cases said with
    | inr c =>
      -- A constant is written without reading the operands.
      rw [show z = c from stands]
      exact stepInst_const rfl has
    | inl src =>
      -- A copy reads the one operand that is left.
      have source : s.values src = some z ∧ 0 ≤ src := by
        rcases stands with ⟨rfl, rfl⟩ | ⟨rfl, rfl⟩
        · exact ⟨valueA, givenA⟩
        · exact ⟨valueB, givenB⟩
      simp [applyIdentity, makeCopy, stepInst, precheck, Inst.reads, Op.shape, execute, writeDst,
        readValue, unaryResult, has, source.1, Int.not_lt.2 source.2]

end Steps

section Verified

variable {f f' : Func} {facts : FactTable}

/--
The constants of the values that are defined before a position, when the identities are applied.

A value that an identity says to be another one has the constant of that one.
-/
def settledConsts (f : Func) (facts : FactTable) (i : Nat) : ConstTable :=
  (f.data.take i).foldl (fun settled inst =>
    if 0 ≤ inst.dst then
      Function.update settled inst.dst (match identity (collectConsts f) facts inst with
        | some (.inl src) => settled src
        | some (.inr value) => some value
        | none => if inst.op = .constI64 then some inst.imm
          else if inst.op = .copy && decide (0 ≤ inst.a) then settled inst.a
          else none)
    else settled) fun _ => none

/-- No shift or division that has no identity can only fail on the constants of its operands. -/
def TrapFree (f : Func) (facts : FactTable) : Prop :=
  ∀ (i : Nat) (inst : Inst), f.data[i]? = some inst →
    identity (collectConsts f) facts inst = none →
      constTrap (settledConsts f facts i) inst = false

/-- The function with the identities applied. -/
def applied (f : Func) (facts : FactTable) : Func :=
  { f with data := f.data.map (peepholeInst (collectConsts f) facts) }

theorem noteConst_peepholeInst {known consts : ConstTable} {inst : Inst} :
    noteConst consts (peepholeInst known facts inst) =
      if 0 ≤ inst.dst then
        Function.update consts inst.dst (match identity known facts inst with
          | some (.inl src) => consts src
          | some (.inr value) => some value
          | none => if inst.op = .constI64 then some inst.imm
            else if inst.op = .copy && decide (0 ≤ inst.a) then consts inst.a
            else none)
      else consts := by
  rw [peepholeInst_eq]
  cases identified : identity known facts inst with
  | none => rfl
  | some said =>
    obtain ⟨binary, has, givenA, givenB⟩ := identity_binary identified
    cases said with
    | inr c => simp [applyIdentity, noteConst, makeConst, has]
    | inl src =>
      have given : 0 ≤ src := by
        rcases identity_source identified with rfl | rfl
        · exact givenA
        · exact givenB
      simp [applyIdentity, noteConst, makeCopy, has, given]

theorem constsBefore_applied (f : Func) (facts : FactTable) (i : Nat) :
    constsBefore (applied f facts) i = settledConsts f facts i := by
  unfold constsBefore settledConsts applied
  simp only [← List.map_take, List.foldl_map, noteConst_peepholeInst]

theorem applied_at {i : Nat} {inst' : Inst} (found : (applied f facts).data[i]? = some inst') :
    ∃ inst, f.data[i]? = some inst ∧ inst' = peepholeInst (collectConsts f) facts inst ∧
      Peepholed inst inst' := by
  simp only [applied, List.getElem?_map, Option.map_eq_some_iff] at found
  obtain ⟨inst, found, rfl⟩ := found
  exact ⟨inst, found, rfl, peepholeInst_cases _ _ _⟩

theorem applied_map {α : Type} (field : Inst → α)
    (kept : ∀ inst inst', Peepholed inst inst' → field inst' = field inst) :
    (applied f facts).data.map field = f.data.map field := by
  simp only [applied, List.map_map]
  exact List.map_congr_left fun inst _ => kept inst _ (peepholeInst_cases _ _ inst)

theorem peephole_applied (accepted : verify f = .ok ())
    (analyzed : analyzeValues f f.nextValue.toNat = .ok facts) :
    peephole f = some (applied f facts) := by
  unfold peephole
  split
  · -- Without values there is no destination, and so no identity.
    rename_i none
    have stays : ∀ inst ∈ f.data, peepholeInst (collectConsts f) facts inst = inst := by
      intro inst inList
      obtain ⟨i, found⟩ := List.getElem?_of_mem inList
      have below := (CommonOk.of_verify accepted found).dstBelow
      rw [peepholeInst, if_pos (by simp; omega)]
    rw [applied, List.map_congr_left stays, List.map_id']
  · rw [analyzed]
    rfl

/-- The verifier accepts the result exactly if nothing that is left can only fail. -/
theorem verify_applied_iff (accepted : verify f = .ok ()) :
    verify (applied f facts) = .ok () ↔ TrapFree f facts := by
  obtain ⟨counted, -, constraints⟩ := verify_ok_iff.mp accepted
  have defines : ∀ i, definedBefore (applied f facts) i = definedBefore f i :=
    definedBefore_congr (applied_map _ fun _ _ peep => peep.keeps.1)
  have marks : (applied f facts).data.map Inst.labelMark = f.data.map Inst.labelMark :=
    applied_map Inst.labelMark fun _ _ peep => peep.keeps.2.1
  have chains : (applied f facts).data.map Inst.startsCapture = f.data.map Inst.startsCapture :=
    applied_map Inst.startsCapture fun _ _ peep => peep.keeps.2.2.1
  rw [verify_ok_iff, validateConstraints_ok_iff]
  constructor
  · rintro ⟨-, -, checked⟩ i inst found unidentified
    have found' : (applied f facts).data[i]? = some inst := by
      rw [applied, List.getElem?_map, found, Option.map_some, peepholeInst_eq, unidentified]
      rfl
    rw [← constsBefore_applied]
    exact (constraintChecks_none_iff.mp (checked i inst found')).2
  · intro free
    refine ⟨counted, fun i inst' found' => ?_, fun i inst' found' => ?_⟩
    · obtain ⟨inst, found, -, peep⟩ := applied_at found'
      have common := CommonOk.of_verify accepted found
      have own := OpOk.of_verify accepted found
      have readOk {v : Int} (read : v ∈ inst.reads) :
          valueDefined (applied f facts) (definedBefore f i) v = true := own.reads v read
      rw [instOk_iff, defines]
      cases peep with
      | same =>
        refine ⟨⟨common.argSizes, common.effects, common.rangePaired, common.rangeOrdered,
          common.debug, common.dstBelow, by rw [defines]; exact common.dstFresh⟩,
          fun v read => readOk read, own.wellFormed, ?_, ?_, ?_⟩
        · rw [any_label_eq, List.map_take, marks, ← List.map_take, ← any_label_eq]
          exact own.fresh
        · rw [labelExists, any_label_eq, marks, ← any_label_eq]
          exact own.target
        · rw [followsCall_congr chains]
          exact own.follows
      | copy src binary has source =>
        refine ⟨⟨fun _ => rfl, rfl, rfl, (by rintro ⟨⟩), fun _ => ⟨rfl, rfl⟩,
          common.dstBelow,
          by rw [defines]; exact common.dstFresh⟩, fun v read => readOk ?_,
          by simp [Inst.wellFormed, makeCopy, Op.shape, has], ?_, ?_, ?_⟩
        · simp only [Inst.reads, makeCopy, Op.shape, List.mem_singleton] at read
          rcases source with rfl | rfl <;> simp [Inst.reads, binary, read]
        all_goals simp [makeCopy]
      | const value binary has =>
        refine ⟨⟨fun _ => rfl, rfl, rfl, (by rintro ⟨⟩), fun _ => ⟨rfl, rfl⟩,
          common.dstBelow,
          by rw [defines]; exact common.dstFresh⟩, ?_,
          by simp [Inst.wellFormed, makeConst, Op.shape, has], ?_, ?_, ?_⟩
        all_goals simp [makeConst, Inst.reads, Op.shape]
    · obtain ⟨inst, found, eq, peep⟩ := applied_at found'
      rw [constsBefore_applied, constraintChecks_none_iff]
      rw [peepholeInst_eq] at eq
      cases identified : identity (collectConsts f) facts inst with
      | none =>
        rw [identified] at eq
        obtain rfl : inst' = inst := eq
        have old := validateConstraints_ok_iff.mp constraints i _ found
        exact ⟨(constraintChecks_none_iff.mp old).1, free i _ found identified⟩
      | some said =>
        rw [identified] at eq
        subst eq
        cases said <;>
          exact ⟨by rintro ⟨⟩, constTrap_of_not_binary (by
            simp [applyIdentity, makeCopy, makeConst, Op.shape])⟩

end Verified

section Preservation

variable {f : Func} {facts : FactTable}

/--
The rules preserve what a function computes, if the intervals they use are right.

A run that succeeds does so after them within the same budget, with the same result and memory,
exactly if no shift or division that they leave can only fail on constants that are settled then.
-/
theorem peephole_preserves_iff (accepted : verify f = .ok ())
    (analyzed : analyzeValues f f.nextValue.toNat = .ok facts) {cfg : EvalConfig σ} {w : World σ}
    (ranged : ∀ s, (vm f cfg).Steps (initialState w) s → RangesHold facts s) {maxSteps : Nat}
    {r : EvalResult σ} (evaluated : evalWithCalls f cfg maxSteps w = .ok r) :
    (∃ f', peephole f = some f' ∧ evalWithCalls f' cfg maxSteps w = .ok r) ↔ TrapFree f facts := by
  rw [peephole_applied accepted analyzed]
  constructor
  · rintro ⟨f', same, again⟩
    obtain rfl := Option.some.inj same
    -- A run that succeeds has passed the verifier.
    unfold evalWithCalls at again
    cases verified : verify (applied f facts) with
    | error text => simp [verified] at again
    | ok done => exact (verify_applied_iff accepted).1 verified
  · intro free
    refine ⟨_, rfl, ?_⟩
    unfold evalWithCalls at evaluated ⊢
    simp only [accepted] at evaluated
    simp only [(verify_applied_iff accepted).2 free]
    have labels : labelTable (applied f facts) = labelTable f :=
      labelTable_congr (applied_map _ fun _ _ peep => peep.keeps.2.1)
    -- The invariant also remembers that the state is one the run visits.
    refine evalLoop_agree
      (I := fun s => (vm f cfg).Steps (initialState w) s ∧ ConstsHold f s)
      (fun s s' holds moved => ⟨holds.1.tail moved, holds.2.next accepted moved⟩)
      (fun s inst holds found fine => ?_) (fun i none => ?_)
      ⟨.refl _, fun v x c value => nomatch value⟩ evaluated
    · refine ⟨_, by rw [applied, List.getElem?_map, found, Option.map_some], ?_⟩
      exact peepholeInst_agrees accepted holds.2 (ranged s holds.1) found labels fine
    · rw [applied, List.getElem?_map, none, Option.map_none]

theorem rangesHold_of_noUnion (accepted : verify f = .ok ()) (ranges : CanonicalRanges f)
    (analyzed : analyzeValues f f.nextValue.toNat = .ok facts)
    (plain : ∀ inst ∈ f.data, ¬ (inst.op = .orI64 ∨ inst.op = .xorI64)) (cfg : EvalConfig σ)
    (w : World σ) : ∀ s, (vm f cfg).Steps (initialState w) s → RangesHold facts s := by
  have sound := (analyzeValues_sound_iff accepted ranges analyzed cfg w).mpr
    fun s s' _ _ inst x y z found claimed => by
      refine absurd ?_ (plain inst (List.mem_of_getElem? found))
      simp only [unionRule, Bool.and_eq_true, Bool.or_eq_true, decide_eq_true_eq] at claimed
      exact claimed.1.1.1.1.1
  exact fun s run v x value => (sound s run v x value).range

/-- A masked slot that is compared with a constant above the mask. -/
def maskedBelow : Func := refreshMetadata {
  data := [{ op := .loadLocal, dst := 0, imm := 0 }, { op := .constI64, dst := 1, imm := 255 },
    { op := .andI64, dst := 2, a := 0, b := 1 }, { op := .constI64, dst := 3, imm := 256 },
    { op := .cmpI64, dst := 4, a := 2, b := 3, cmp := .lt }, { op := .ret, dst := -1, a := 4 }]
  nextValue := 5 }

/-- The comparison becomes a constant, and the function still returns one. -/
theorem maskedBelow_preserved :
    ∃ f', peephole maskedBelow = some f' ∧
      evalWithCalls f' fourSlotsConfig 10 (slotsWorld [300]) =
        .ok { returned := true, result := 1, world := slotsWorld [300] } := by
  refine (peephole_preserves_iff (f := maskedBelow) rfl rfl
    (rangesHold_of_noUnion rfl (canonicalRanges_refresh (by decide)) rfl (by decide) _ _) rfl).2 ?_
  intro i inst found
  rcases i with _ | _ | _ | _ | _ | _ | i <;> cases found <;> decide

/-- A division by the difference of a slot and itself, which a branch skips. -/
def skippedDivision : Func := refreshMetadata {
  data := [{ op := .loadLocal, dst := 0, imm := 0 }, { op := .subI64, dst := 1, a := 0, b := 0 },
    { op := .br, dst := -1, imm := 0 }, { op := .divI64, dst := 2, a := 0, b := 1 },
    { op := .label, dst := -1, imm := 0 }, { op := .ret, dst := -1, a := 0 }]
  nextValue := 3 }

/-- The function returns its slot, and is rejected once the difference is a constant zero. -/
theorem skippedDivision_rejected :
    verify skippedDivision = .ok () ∧
      (∃ facts, analyzeValues skippedDivision 3 = .ok facts ∧
        ∀ s, (vm skippedDivision fourSlotsConfig).Steps (initialState (slotsWorld [7])) s →
          RangesHold facts s) ∧
      (∃ r, evalWithCalls skippedDivision fourSlotsConfig 10 (slotsWorld [7]) = .ok r) ∧
      ¬ ∃ f' r, peephole skippedDivision = some f' ∧
        evalWithCalls f' fourSlotsConfig 10 (slotsWorld [7]) = .ok r := by
  have ranged := rangesHold_of_noUnion (f := skippedDivision) rfl
    (canonicalRanges_refresh (by decide)) rfl (by decide) fourSlotsConfig (slotsWorld [7])
  refine ⟨rfl, ⟨_, rfl, ranged⟩, ⟨_, rfl⟩, ?_⟩
  rintro ⟨f', r, rewritten, evaluated⟩
  obtain rfl := Option.some.inj ((peephole_applied rfl rfl).symm.trans rewritten)
  cases evaluated

end Preservation

end Nytrix.Nir
