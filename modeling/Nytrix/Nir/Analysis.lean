import Nytrix.Nir.Arith

/-! The value analysis: for every value a constant, an interval, its uses and its effects. -/

namespace Nytrix.Nir

/-- What the analysis records of one value. -/
structure ValueFact where
  knownConst : Bool := false
  constValue : I64 := 0
  range : Range := {}
  useCount : Nat := 0
  effects : BitVec 32 := 0
  deriving DecidableEq

/-- The facts of all values; an entry past the table's end is never written. -/
abbrev FactTable := Int → ValueFact

/-- Records a constant, with the interval that holds only it. -/
def factSetConst (fact : ValueFact) (value : I64) : ValueFact :=
  { fact with knownConst := true, constValue := value, range := .closed value value }

/-- The largest signed 64-bit integer. -/
def int64Max : I64 := BitVec.intMax 64

/-- Addition, absent when it overflows. -/
def addChecked (a b : I64) : Option I64 :=
  if (decide (0 < b.toInt) && decide ((int64Max - b).toInt < a.toInt)) ||
      (decide (b.toInt < 0) && decide (a.toInt < (int64Min - b).toInt))
  then none else some (a + b)

/-- Subtraction, absent when it overflows. -/
def subChecked (a b : I64) : Option I64 :=
  if (decide (b.toInt < 0) && decide ((int64Max + b).toInt < a.toInt)) ||
      (decide (0 < b.toInt) && decide (a.toInt < (int64Min + b).toInt))
  then none else some (a - b)

/-- Division, absent when it traps. -/
def divChecked (a b : I64) : Option I64 :=
  if divTraps a b then none else some (a.sdiv b)

/-- Multiplication, absent when it overflows, as the compiler's built-in reports it. -/
def mulChecked (a b : I64) : Option I64 :=
  if a.smulOverflow b then none else some (a * b)

/-- The smaller of two words, read as signed. -/
def smin (a b : I64) : I64 := if b.toInt < a.toInt then b else a

/-- The larger of two words, read as signed. -/
def smax (a b : I64) : I64 := if a.toInt < b.toInt then b else a

/-- The smallest interval with these corners. -/
def rangeFromCorners (v : I64) (rest : List I64) : Range :=
  .closed (rest.foldl smin v) (rest.foldl smax v)

/-- The interval of the four combinations of two intervals' ends, when all are defined. -/
def cornerRange (op : I64 → I64 → Option I64) (a b : Range) : Option Range := do
  let v₀ ← op a.min b.min
  let v₁ ← op a.min b.max
  let v₂ ← op a.max b.min
  let v₃ ← op a.max b.max
  return rangeFromCorners v₀ [v₁, v₂, v₃]

/-- The interval with these ends, when they are in order. -/
def orderedRange (lo hi : I64) : Option Range :=
  if hi.toInt < lo.toInt then none else some (.closed lo hi)

/-- The interval of a masking by a non-negative constant, which needs no interval of the other. -/
def maskRange (a b : ValueFact) : Option Range :=
  if b.knownConst && decide (0 ≤ b.constValue.toInt) then some (.closed 0 b.constValue)
  else if a.knownConst && decide (0 ≤ a.constValue.toInt) then some (.closed 0 a.constValue)
  else none

/-- The interval of an operation on two values that both have one. -/
def intervalRange (op : Op) (a b : ValueFact) : Option Range :=
  match op with
  | .addI64 => do
    orderedRange (← addChecked a.range.min b.range.min) (← addChecked a.range.max b.range.max)
  | .subI64 => do
    orderedRange (← subChecked a.range.min b.range.max) (← subChecked a.range.max b.range.min)
  | .mulI64 => cornerRange mulChecked a.range b.range
  | .divI64 =>
    if b.range.min.toInt ≤ 0 && decide (0 ≤ b.range.max.toInt) then none
    else cornerRange divChecked a.range b.range
  | .modI64 =>
    if !b.knownConst || b.constValue = 0 || b.constValue = int64Min then none
    else
      let hi := if b.constValue.toInt < 0 then -b.constValue - 1 else b.constValue - 1
      let lo := if a.range.min.toInt < 0 then -hi else 0
      orderedRange lo (if a.range.max.toInt ≤ 0 then 0 else hi)
  | .shlI64 =>
    if !b.knownConst || decide (b.constValue.toInt < 0) || decide (63 ≤ b.constValue.toInt) ||
        decide (a.range.min.toInt < 0) then none
    else do
      let scale : I64 := (1 : I64) <<< b.constValue.toNat
      orderedRange (← mulChecked a.range.min scale) (← mulChecked a.range.max scale)
  | .sarI64 =>
    if !b.knownConst || decide (b.constValue.toInt < 0) || decide (64 ≤ b.constValue.toInt) then none
    else
      orderedRange (a.range.min.sshiftRight b.constValue.toNat)
        (a.range.max.sshiftRight b.constValue.toNat)
  | .andI64 | .orI64 | .xorI64 =>
    if a.range.min.toInt < 0 || decide (b.range.min.toInt < 0) then none
    else orderedRange 0 (a.range.max ||| b.range.max)
  | _ => none

/-- Whether both bounds of an interval are present. -/
def Range.isClosed (r : Range) : Bool := r.hasMin && r.hasMax

/-- The interval of an operation's result, from what is known of its operands. -/
def factBinaryRange (op : Op) (a b : ValueFact) : Option Range :=
  let masked := if op = .andI64 then maskRange a b else none
  masked <|> if a.range.isClosed && b.range.isClosed then intervalRange op a b else none

/-- Counts one use of an operand, when it is given and inside the table. -/
def countUse (count : Nat) (facts : FactTable) (v : Int) : FactTable :=
  if 0 ≤ v ∧ v < count then
    Function.update facts v { facts v with useCount := (facts v).useCount + 1 }
  else facts

/-- The operands whose uses are counted: the first two of any instruction, and a call's others. -/
def countedOperands (inst : Inst) : List Int :=
  inst.a :: inst.b :: if inst.op = .call then inst.extraArgs else []

/-- Whether both operands are given and inside the table. -/
def operandsInTable (count : Nat) (inst : Inst) : Bool :=
  decide (0 ≤ inst.a) && decide (0 ≤ inst.b) && decide (inst.a < count) && decide (inst.b < count)

/-- The fact of an arithmetic result: a folded constant, else an interval, else no news. -/
def arithFact (op : Op) (a b dst : ValueFact) : ValueFact :=
  match if a.knownConst && b.knownConst then analyzeBinaryFold op a.constValue b.constValue
    else none with
  | some folded => factSetConst dst folded
  | none => match factBinaryRange op a b with
    | some r => { dst with range := r }
    | none => dst

/-- The fact of a comparison result. -/
def cmpFact (cmp : Cmp) (inTable : Bool) (a b dst : ValueFact) : ValueFact :=
  let dst := { dst with range := .closed 0 1 }
  if inTable && a.knownConst && b.knownConst then
    factSetConst dst (analyzeCmpFold cmp a.constValue b.constValue)
  else dst

/-- What an instruction's own opcode adds to the fact of its destination. -/
def opFact (count : Nat) (facts : FactTable) (inst : Inst) (dst : ValueFact) : ValueFact :=
  let a := facts inst.a
  let b := facts inst.b
  match inst.op with
  | .constI64 => factSetConst dst inst.imm
  | .copy =>
    if 0 ≤ inst.a ∧ inst.a < count then
      { dst with knownConst := a.knownConst, constValue := a.constValue, range := a.range }
    else dst
  | .cmpI64 => cmpFact inst.cmp (operandsInTable count inst) a b dst
  | op => if operandsInTable count inst then arithFact op a b dst else dst

/-- What one instruction does to the facts. -/
def analyzeInst (count : Nat) (facts : FactTable) (inst : Inst) : FactTable :=
  let facts := (countedOperands inst).foldl (countUse count) facts
  if 0 ≤ inst.dst ∧ inst.dst < count then
    let dst := facts inst.dst
    let dst := { dst with effects := dst.effects ||| (inst.effects ||| instEffects inst) }
    let dst := if inst.range.hasMin || inst.range.hasMax then { dst with range := inst.range } else dst
    -- A destination that is its own operand is read as updated so far.
    let facts := Function.update facts inst.dst dst
    Function.update facts inst.dst (opFact count facts inst dst)
  else facts

/-- The value analysis, into a table of the given size. -/
def analyzeValues (f : Func) (factCount : Nat) : Except String FactTable :=
  if f.nextValue < 0 then .error "native NYIR analysis: invalid value count"
  else if (factCount : Int) < f.nextValue then
    .error ("native NYIR analysis: fact table too small (" ++ toString factCount ++ " < " ++
      toString f.nextValue ++ ")")
  else .ok (f.data.foldl (analyzeInst factCount) fun _ => {})

end Nytrix.Nir
