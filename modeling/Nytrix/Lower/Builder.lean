import Nytrix.Lower.Ast
import Nytrix.Nir.Arith
import Mathlib.Algebra.Order.Ring.Int

/-! The state the lowering builds a function in, and the operations that append to it. -/

namespace Nytrix.Lower

open Nytrix.Nir

/-- How the SysV convention passes one eightbyte of an aggregate. -/
inductive AggClass where
  | none | integer | sse | memory | unsupported
  deriving DecidableEq

/-- What is known of a foreign function, with the packed aggregate metadata of its arguments. -/
structure ExternEntry where
  nyName : String
  cSymbol : String
  paramCount : Nat := 0
  retAggregateSize : BitVec 32 := 0
  retClass : AggClass := .none
  retClass2 : AggClass := .none
  argAggregateSizes : List (BitVec 32) := []
  deriving DecidableEq

/-- What the lowering of one function may look at and never changes. -/
structure Env where
  prog : List Stmt := []
  externs : List ExternEntry := []

/-- The entry of a foreign function, by the name the program calls it. -/
def externTableLookup (env : Env) (name : String) : Option ExternEntry :=
  env.externs.find? fun entry => entry.nyName = name

/-- The declared types of a function of the program. -/
structure Signature where
  returnType : Option String
  params : List Param

/-- The signature a statement declares under a name, when it is that function. -/
def Stmt.signature (name : String) : Stmt → Option Signature
  | .func fn returnType params _ => if fn = name then some ⟨returnType, params⟩ else none
  | _ => none

/-- The first function of the program with this name. -/
def findUserFunction (env : Env) (name : String) : Option Signature :=
  env.prog.findSome? (Stmt.signature name)

/-- A local variable: its slot, and whether the lowering takes it for a float. -/
structure Local where
  name : String
  slot : Nat
  isF64 : Bool := false
  isF32 : Bool := false
  deriving DecidableEq

/-- Where `continue` and `break` go in one loop. -/
structure LoopLabels where
  continueLabel : Nat
  endLabel : Nat
  deriving DecidableEq

/-- The lowering's state, its stacks having the innermost entry first. -/
structure Builder where
  nir : Func := {}
  locals : List Local := []
  nextLocalSlot : Nat := 0
  nextLabel : Nat := 0
  lastValue : Int := -1
  loops : List LoopLabels := []
  emittedReturn : Bool := false
  deriving DecidableEq

/-- Why a lowering stops. -/
inductive LowerError where
  | fail (text : String)
  /-- An `int` counter would pass its maximum here, which C leaves undefined. -/
  | overflow
  deriving DecidableEq

/-- The lowering's computations. -/
abbrev LowerM := StateT Builder (Except LowerError)

/-- Stops with a message. -/
def fail {α : Type} (text : String) : LowerM α := fun _ => .error (.fail text)

/-- The largest `int`. -/
def intMax : Nat := 2 ^ 31 - 1

/-- The most locals that may be in scope. -/
def maxLocals : Nat := 256

/-- The deepest nesting of loops. -/
def maxLoops : Nat := 64

/-- The builder after one more instruction. -/
def Builder.push (b : Builder) (inst : Inst) : Builder := { b with nir := (emit b.nir inst).2 }

/-- Appends an instruction and answers the value it defines. -/
def emitValue (inst : Inst) : LowerM Int := fun b => .ok ((emit b.nir inst).1, b.push inst)

/-- Appends an instruction that defines nothing. -/
def emitEffect (inst : Inst) : LowerM Unit := fun b => .ok ((), b.push inst)

/-- The next unused local slot. -/
def tempSlot : LowerM Nat := fun b =>
  if b.nextLocalSlot < intMax then
    .ok (b.nextLocalSlot, { b with nextLocalSlot := b.nextLocalSlot + 1 })
  else .error .overflow

/-- The next unused label. -/
def freshLabel : LowerM Nat := fun b =>
  if b.nextLabel < intMax then .ok (b.nextLabel, { b with nextLabel := b.nextLabel + 1 })
  else .error .overflow

/-- The innermost local of a name. -/
def findLocal (locals : List Local) (name : String) : Option Local :=
  locals.find? fun l => l.name = name

/-- Brings a name into scope in a new slot; a blank name is refused without a message. -/
def bindLocalTyped (name : String) (isF64 isF32 : Bool) : LowerM Nat := fun b =>
  if name = "" || name = "_" then .error (.fail "")
  else if maxLocals ≤ b.locals.length then
    .error (.fail "native NYIR lower: local limit exceeded")
  else match tempSlot b with
    | .error err => .error err
    | .ok (slot, b) => .ok (slot, { b with locals := ⟨name, slot, isF64, isF32⟩ :: b.locals })

/-- Brings an integer name into scope. -/
def bindLocal (name : String) : LowerM Nat := bindLocalTyped name false false

/-- The slot of a name, bringing it into scope when it is not. -/
def addLocal (name : String) : LowerM Nat := fun b =>
  if name = "" || name = "_" then .error (.fail "")
  else match findLocal b.locals name with
    | some l => .ok (l.slot, b)
    | none => bindLocal name b

/-- Raises the float flags of the innermost local of a name. -/
def raiseFlags (name : String) (isF64 isF32 : Bool) : List Local → List Local
  | [] => []
  | l :: rest =>
    if l.name = name then { l with isF64 := l.isF64 || isF64, isF32 := l.isF32 || isF32 } :: rest
    else l :: raiseFlags name isF64 isF32 rest

/-- Drops the locals that came into scope after there were this many. -/
def scopeRestore (mark : Nat) (b : Builder) : Builder :=
  { b with locals := b.locals.drop (b.locals.length - mark) }

/-- The instruction for a label. -/
def labelInst (label : Nat) : Inst :=
  { op := .label, dst := -1, a := -1, b := -1, imm := BitVec.ofNat 64 label }

/-- The instruction for a jump. -/
def brInst (label : Nat) : Inst :=
  { op := .br, dst := -1, a := -1, b := -1, imm := BitVec.ofNat 64 label }

/-- The instruction for a jump taken when a value is not zero. -/
def brIfInst (value : Int) (label : Nat) : Inst :=
  { op := .brIf, dst := -1, a := value, b := -1, imm := BitVec.ofNat 64 label }

/-- The instruction that stores a value in a slot. -/
def storeInst (slot : Nat) (value : Int) (symbol : Option String) : Inst :=
  { op := .storeLocal, dst := -1, a := value, b := -1, imm := BitVec.ofNat 64 slot,
    symbol := symbol }

/-- The instruction that loads a slot. -/
def loadInst (slot : Nat) (symbol : Option String) : Inst :=
  { op := .loadLocal, dst := -1, a := -1, b := -1, imm := BitVec.ofNat 64 slot, symbol := symbol }

/-- The instruction for an operation of two values. -/
def binaryInst (op : Op) (a rhs : Int) (cmp : Cmp) : Inst :=
  { op := op, dst := -1, a := a, b := rhs, cmp := cmp }

/-- The instruction for a conversion or a load through a pointer. -/
def unaryInst (op : Op) (value : Int) : Inst := { op := op, dst := -1, a := value, b := -1 }

/-- The instruction for a constant. -/
def constInst (op : Op) (imm : I64) : Inst := { op := op, dst := -1, a := -1, b := -1, imm := imm }

/-- The instruction that returns a value. -/
def retInst (value : Int) : Inst := { op := .ret, dst := -1, a := value, b := -1 }

/-- The instruction for the address of a local. -/
def addrLocalInst (slot : Nat) (symbol : String) : Inst :=
  { op := .addrLocal, dst := -1, a := -1, b := -1, imm := BitVec.ofNat 64 slot,
    symbol := some symbol }

/-- The instruction for the address of a linker symbol. -/
def addrSymbolInst (symbol : String) : Inst :=
  { op := .addrSymbol, dst := -1, a := -1, b := -1, imm := 0, symbol := some symbol }

/-- The instruction that stores a value through a pointer. -/
def storeI64Inst (addr value : Int) : Inst :=
  { op := .storeI64, dst := -1, a := addr, b := -1, c := value }

/-- Places a label. -/
def emitLabel (label : Nat) : LowerM Unit := emitEffect (labelInst label)

/-- Jumps to a label. -/
def emitBr (label : Nat) : LowerM Unit := emitEffect (brInst label)

/-- Jumps to a label when a value is not zero. -/
def emitBrIf (value : Int) (label : Nat) : LowerM Unit := emitEffect (brIfInst value label)

/-- Returns a value. -/
def emitRet (value : Int) : LowerM Unit := fun b =>
  .ok ((), { b.push (retInst value) with emittedReturn := true, lastValue := value })

/-- An integer constant. -/
def emitConst (value : I64) : LowerM Int := emitValue (constInst .constI64 value)

/-- A double constant. -/
def emitConstF64 (bits : I64) : LowerM Int := emitValue (constInst .constF64 bits)

/-- A single constant, rounded from a double. -/
def emitConstF32 (bits : I64) : LowerM Int :=
  emitValue (constInst .constF32 (unaryResult .f64ToF32 bits))

/-- A conversion. -/
def emitConvert (op : Op) (value : Int) : LowerM Int := emitValue (unaryInst op value)

/-- A sum of integers. -/
def emitAddI64 (a rhs : Int) : LowerM Int := emitValue (binaryInst .addI64 a rhs .eq)

/-- A load through a pointer. -/
def emitLoadI64 (addr : Int) : LowerM Int := emitValue (unaryInst .loadI64 addr)

/-- The address of a local. -/
def emitAddrLocal (slot : Nat) (symbol : String) : LowerM Int :=
  emitValue (addrLocalInst slot symbol)

/-- The address of a linker symbol. -/
def emitAddrSymbol (symbol : String) : LowerM Int :=
  emitValue (addrSymbolInst symbol)

/-- A store through a pointer. -/
def emitStoreI64 (addr value : Int) : LowerM Unit :=
  emitEffect (storeI64Inst addr value)

/-- Stores a value in a slot. -/
def storeLocalValue (slot : Nat) (value : Int) : LowerM Unit :=
  emitEffect (storeInst slot value none)

/-- Loads a slot. -/
def loadLocalValue (slot : Nat) : LowerM Int := emitValue (loadInst slot none)

/-- A comparison of integers. -/
def emitCmp (a rhs : Int) (cmp : Cmp) : LowerM Int := emitValue (binaryInst .cmpI64 a rhs cmp)

/-- Runs a lowering only under a condition. -/
def onlyIf (cond : Bool) (lower : LowerM Unit) : LowerM Unit := if cond then lower else pure ()

/-- Whether a value is zero. -/
def emitIsZero (value : Int) : LowerM Int := do
  let zero ← emitConst 0
  emitCmp value zero .eq

/-- Jumps to a label when a value is zero. -/
def emitBrUnless (value : Int) (label : Nat) : LowerM Unit := do
  let isZero ← emitIsZero value
  emitBrIf isZero label

/--
Runs two lowerings and only then looks whether one of them failed, the later message winning.

The second does not depend on what the first one emitted before it failed.
-/
def both (first second : LowerM Int) : LowerM (Int × Int) := fun b =>
  match first b with
  | .ok (v, b) => match second b with
    | .ok (w, b) => .ok ((v, w), b)
    | .error err => .error err
  | .error err => match second b with
    | .ok _ => .error err
    | .error later => .error later

end Nytrix.Lower
