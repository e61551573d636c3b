import Nytrix.Nir.RefreshLaws

/-! The clean-up passes: branch simplification, dead code elimination and compaction. -/

namespace Nytrix.Nir

/-- The constants of a whole function, as the passes collect them before they rewrite. -/
def collectConsts (f : Func) : ConstTable :=
  if f.nextValue ≤ 0 then fun _ => none else f.data.foldl noteConst fun _ => none

/-- An instruction the branch rules write, with every other field zero. -/
def bareInst (op : Op) (imm : I64) : Inst := { op := op, dst := -1, a := -1, b := -1, imm := imm }

/-- Resolves a conditional branch on a constant. -/
def resolveBranch (known : ConstTable) (inst : Inst) : Inst :=
  match if inst.op = .brIf then constOf known inst.a else none with
  | some value => if value ≠ 0 then bareInst .br inst.imm else bareInst .nop 0
  | none => inst

/-- Whether the first instruction that is not a no-op is this label. -/
def labelComesNext (rest : List Inst) (label : I64) : Bool :=
  match rest.find? fun next => next.op ≠ .nop with
  | some next => next.op = .label && next.imm = label
  | none => false

/-- What branch simplification does at one instruction, given those after it. -/
def simplifyInst (known : ConstTable) (inst : Inst) (rest : List Inst) : Inst :=
  let inst := resolveBranch known inst
  if inst.op = .br && labelComesNext rest inst.imm then bareInst .nop 0 else inst

/-- Branch simplification over the rest of a function. -/
def simplifyLoop (known : ConstTable) : List Inst → List Inst
  | [] => []
  | inst :: rest => simplifyInst known inst rest :: simplifyLoop known rest

/-- Branch simplification over a whole function. -/
def cfgSimplify (f : Func) : Func :=
  { f with data := simplifyLoop (collectConsts f) f.data }

/-- Whether the instruction is a branch. -/
def Op.isBranch (op : Op) : Bool := op = .br || op = .brIf

/-- Raises a running maximum to one instruction's label. -/
def raiseMaxLabel (top : Int) (inst : Inst) : Int :=
  if (inst.op = .label || inst.op.isBranch) && decide (0 ≤ inst.imm.toInt) &&
      decide (top < inst.imm.toInt)
  then inst.imm.toInt else top

/-- The largest label number, or minus one. -/
def maxLabel (f : Func) : Int := f.data.foldl raiseMaxLabel (-1)

/-- Whether the table of referenced labels is built: the numbers must not be too sparse. -/
def hasLabelTable (f : Func) : Bool :=
  decide (0 ≤ maxLabel f) && decide (maxLabel f ≤ f.data.length * 4 + 1024)

/-- Whether some instruction of a list branches to a label. -/
def branchesTo (insts : List Inst) (label : I64) : Bool :=
  insts.any fun inst => inst.op.isBranch && inst.imm = label

/--
Whether a label is referenced.

The table holds the branches of the function as it was; a label outside the table is looked up by
scanning the function as rewritten so far.
-/
def referenced (f : Func) (current : List Inst) (label : I64) : Bool :=
  if hasLabelTable f && decide (0 ≤ label.toInt) && decide (label.toInt ≤ maxLabel f)
  then branchesTo f.data label else branchesTo current label

/-- What the forward scan carries. -/
structure ReachFlags where
  reachable : Bool := true
  fallthrough : Bool := true
  firstInst : Bool := true

/-- The flags at an instruction, before it is looked at. -/
def enterFlags (f : Func) (current : List Inst) (fl : ReachFlags) (inst : Inst) : ReachFlags :=
  if inst.op = .label then
    let r := fl.firstInst || fl.fallthrough || referenced f current inst.imm
    { fl with reachable := r, fallthrough := r }
  else fl

/-- The flags behind an instruction that is kept. -/
def leaveFlags (fl : ReachFlags) (inst : Inst) : ReachFlags :=
  if inst.op = .ret || inst.op = .br then
    { reachable := false, fallthrough := false, firstInst := false }
  else if inst.op ≠ .nop then { fl with fallthrough := fl.reachable, firstInst := false }
  else { fl with firstInst := false }

/-- The forward scan: discards what no fall-through or referenced label reaches. -/
def dceForward (f : Func) : List Inst → List Inst → ReachFlags → List Inst
  | done, [], _ => done
  | done, inst :: rest, fl =>
    let fl := enterFlags f (done ++ inst :: rest) fl inst
    if !fl.reachable && inst.op ≠ .label then
      dceForward f (done ++ [instDiscard inst]) rest { fl with firstInst := false }
    else dceForward f (done ++ [inst]) rest (leaveFlags fl inst)

/-- Marks the operands an instruction gives. -/
def markUsed (used : Int → Bool) (inst : Inst) : Int → Bool := fun v =>
  used v || (decide (0 ≤ v) && inst.operands.contains v)

/-- Whether an instruction stays, whoever uses its value. -/
def sideEffect (f : Func) (current : List Inst) (inst : Inst) : Bool :=
  if inst.op = .label then referenced f current inst.imm
  else inst.effects ≠ effectNone || inst.op = .ret || inst.op.isBranch

/-- The backward scan over the instructions before those already done, last one first. -/
def dceBackward (f : Func) : List Inst → (Int → Bool) → List Inst → List Inst
  | [], _, done => done
  | inst :: before, used, done =>
    if sideEffect f (before.reverse ++ inst :: done) inst ||
        (decide (0 ≤ inst.dst) && used inst.dst) then
      dceBackward f before (markUsed used inst) (inst :: done)
    else dceBackward f before used (instDiscard inst :: done)

/-- Dead code elimination over a whole function. -/
def dce (f : Func) : Func :=
  if f.nextValue ≤ 0 then f
  else { f with data := dceBackward f (dceForward f [] f.data {}).reverse (fun _ => false) [] }

/-- The new numbers given so far, and the next one to give. -/
structure Numbering where
  map : Int → Int := fun _ => -1
  next : Int := 0

/-- Numbers the destination of one instruction, or fails when it is out of range. -/
def numberDst (nextValue : Int) (given : Numbering) (inst : Inst) : Option Numbering :=
  if 0 ≤ inst.dst then
    if nextValue ≤ inst.dst then none
    else some { map := Function.update given.map inst.dst given.next, next := given.next + 1 }
  else some given

/-- The new number of a value, absent when it has none. -/
def remapValue (map : Int → Int) (nextValue v : Int) : Option Int :=
  if v < 0 then some v
  else if nextValue ≤ v || decide (map v < 0) then none
  else some (map v)

/-- Renumbers an instruction's destination and operands. -/
def remapInst (map : Int → Int) (nextValue : Int) (inst : Inst) : Option Inst := do
  let remap := remapValue map nextValue
  let dst ← remap inst.dst
  let a ← remap inst.a
  let b ← remap inst.b
  let c ← remap inst.c
  let d ← remap inst.d
  let e ← remap inst.e
  let f ← remap inst.f
  let extraArgs ← inst.extraArgs.mapM remap
  return { inst with
    dst := dst, a := a, b := b, c := c, d := d, e := e, f := f, extraArgs := extraArgs }

/-- Compaction: drops the no-ops and renumbers the values in order of definition, or fails. -/
def compact (f : Func) : Option Func :=
  let data := f.data.filter fun inst => inst.op ≠ .nop
  if f.data = [] then some f
  else if f.nextValue ≤ 0 then some { f with data := data }
  else do
    let numbering ← data.foldlM (numberDst f.nextValue) {}
    let data ← data.mapM (remapInst numbering.map f.nextValue)
    return { data := data, nextValue := numbering.next }

end Nytrix.Nir
