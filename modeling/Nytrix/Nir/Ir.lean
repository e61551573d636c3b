import Mathlib.Logic.Function.Basic

/-! The instructions and functions of NYIR, and the metadata every emitter and pass keeps on them. -/

namespace Nytrix.Nir

/-- A raw 64-bit cell, read as signed wherever the source compares or divides. -/
abbrev I64 := BitVec 64

/-- The opcodes of NYIR, in the order of the source's enumeration. -/
inductive Op where
  | nop | constI64 | copy
  | addI64 | subI64 | mulI64 | divI64 | modI64 | andI64 | orI64 | xorI64 | shlI64 | sarI64
  | cmpI64 | label | loadLocal | storeLocal | call | ret | br | brIf
  | constF64 | addF64 | subF64 | mulF64 | divF64 | i64ToF64 | cmpF64
  | constF32 | addF32 | subF32 | mulF32 | divF32 | i64ToF32 | f64ToF32 | f32ToF64 | cmpF32
  | addrLocal | loadI64 | storeI64 | addrSymbol | alloca | copyStruct | captureRet
  deriving DecidableEq

/-- The comparison predicates. -/
inductive Cmp where
  | eq | ne | lt | le | gt | ge
  deriving DecidableEq

/--
How an opcode uses its fields.

The switches of the verifier, of the VM and of operand normalisation all group the opcodes this
way, so each of them is one case per shape.
-/
inductive Shape where
  | nop | label | const | unary | loadI64 | loadLocal | addrLocal | addrSymbol | alloca
  | copyStruct | captureRet | storeLocal | storeI64 | ret | br | brIf | call | binary
  deriving DecidableEq

/-- The group of case labels an opcode stands in. -/
def Op.shape : Op → Shape
  | .nop => .nop
  | .label => .label
  | .constI64 | .constF64 | .constF32 => .const
  | .copy | .i64ToF64 | .i64ToF32 | .f64ToF32 | .f32ToF64 => .unary
  | .loadI64 => .loadI64
  | .loadLocal => .loadLocal
  | .addrLocal => .addrLocal
  | .addrSymbol => .addrSymbol
  | .alloca => .alloca
  | .copyStruct => .copyStruct
  | .captureRet => .captureRet
  | .storeLocal => .storeLocal
  | .storeI64 => .storeI64
  | .ret => .ret
  | .br => .br
  | .brIf => .brIf
  | .call => .call
  | .addI64 | .subI64 | .mulI64 | .divI64 | .modI64 | .andI64 | .orI64 | .xorI64 | .shlI64
  | .sarI64 | .cmpI64 | .addF64 | .subF64 | .mulF64 | .divF64 | .cmpF64
  | .addF32 | .subF32 | .mulF32 | .divF32 | .cmpF32 => .binary

/-- The printed names of the opcodes. -/
def opName : Op → String
  | .nop => "nop" | .constI64 => "const.i64" | .copy => "copy"
  | .addI64 => "add.i64" | .subI64 => "sub.i64" | .mulI64 => "mul.i64" | .divI64 => "div.i64"
  | .modI64 => "mod.i64" | .andI64 => "and.i64" | .orI64 => "or.i64" | .xorI64 => "xor.i64"
  | .shlI64 => "shl.i64" | .sarI64 => "sar.i64" | .cmpI64 => "cmp.i64" | .label => "label"
  | .loadLocal => "load.local" | .storeLocal => "store.local" | .call => "call"
  | .ret => "ret" | .br => "br" | .brIf => "br.if"
  | .constF64 => "const.f64" | .addF64 => "add.f64" | .subF64 => "sub.f64"
  | .mulF64 => "mul.f64" | .divF64 => "div.f64" | .i64ToF64 => "i64.to.f64"
  | .cmpF64 => "cmp.f64" | .constF32 => "const.f32" | .addF32 => "add.f32"
  | .subF32 => "sub.f32" | .mulF32 => "mul.f32" | .divF32 => "div.f32"
  | .i64ToF32 => "i64.to.f32" | .f64ToF32 => "f64.to.f32" | .f32ToF64 => "f32.to.f64"
  | .cmpF32 => "cmp.f32" | .addrLocal => "addr.local" | .loadI64 => "load.i64"
  | .storeI64 => "store.i64" | .addrSymbol => "addr.symbol" | .alloca => "alloca"
  | .copyStruct => "copy.struct" | .captureRet => "capture.ret"

/-- No effect. -/
def effectNone : BitVec 32 := 0
/-- The instruction reads a local slot. -/
def effectReadLocal : BitVec 32 := 1
/-- The instruction writes a local slot. -/
def effectWriteLocal : BitVec 32 := 2
/-- The instruction calls, or touches memory the optimiser cannot see. -/
def effectCall : BitVec 32 := 4
/-- The instruction transfers control. -/
def effectControl : BitVec 32 := 8

/-- The call goes to a linker symbol. -/
def flagExtern : BitVec 32 := 1
/-- The call returns an `f64`. -/
def flagRetF64 : BitVec 32 := 2
/-- The call returns an `f32`. -/
def flagRetF32 : BitVec 32 := 4

/-- The most arguments one call may carry. -/
def callMaxArgs : Nat := 64

/-- A source position, absent when the line is zero. -/
structure DebugLoc where
  file : Option String := none
  line : BitVec 32 := 0
  column : BitVec 32 := 0
  deriving DecidableEq

/-- A claimed interval of a value, each bound optional. -/
structure Range where
  hasMin : Bool := false
  hasMax : Bool := false
  min : I64 := 0
  max : I64 := 0
  deriving DecidableEq

/-- The interval with both bounds present. -/
def Range.closed (lo hi : I64) : Range :=
  { hasMin := true, hasMax := true, min := lo, max := hi }

/--
One instruction.

A negative operand or destination means absent, and omitted fields are zero as in the source's
initialisers. A call keeps its arguments beyond the sixth in `extraArgs`, and `argSizes` is its
packed aggregate metadata.
-/
structure Inst where
  op : Op := .nop
  dst : Int := 0
  a : Int := 0
  b : Int := 0
  c : Int := 0
  d : Int := 0
  e : Int := 0
  f : Int := 0
  imm : I64 := 0
  cmp : Cmp := .eq
  symbol : Option String := none
  flags : BitVec 32 := 0
  effects : BitVec 32 := 0
  debug : DebugLoc := {}
  range : Range := {}
  extraArgs : List Int := []
  argSizes : Option (List (BitVec 32)) := none
  deriving DecidableEq

/-- A function: its instructions and the number of values they may name. -/
structure Func where
  data : List Inst := []
  nextValue : Int := 0
  deriving DecidableEq

/-- The effect mask an opcode must carry. -/
def instEffects (inst : Inst) : BitVec 32 :=
  match inst.op.shape with
  | .loadLocal => effectReadLocal
  | .storeLocal => effectWriteLocal
  | .loadI64 => effectCall
  | .storeI64 => effectCall ||| effectWriteLocal
  | .call => effectCall
  | .ret | .br | .brIf => effectControl
  | _ => effectNone

/-- Clears the operand fields an opcode does not use. -/
def normalizeOperands (inst : Inst) : Inst :=
  match inst.op.shape with
  | .unary | .loadI64 | .ret | .brIf => { inst with b := -1, c := -1, d := -1, e := -1, f := -1 }
  | .addrLocal | .addrSymbol | .alloca | .captureRet =>
    { inst with a := -1, b := -1, c := -1, d := -1, e := -1, f := -1 }
  | .storeLocal => { inst with dst := -1, b := -1, c := -1, d := -1, e := -1, f := -1 }
  | .storeI64 => { inst with dst := -1, b := -1, d := -1, e := -1, f := -1 }
  | .copyStruct => { inst with dst := -1, c := -1, d := -1, e := -1, f := -1 }
  | .call =>
    { inst with
      a := if inst.imm.toInt ≤ 0 then -1 else inst.a
      b := if inst.imm.toInt ≤ 1 then -1 else inst.b
      c := if inst.imm.toInt ≤ 2 then -1 else inst.c
      d := if inst.imm.toInt ≤ 3 then -1 else inst.d
      e := if inst.imm.toInt ≤ 4 then -1 else inst.e
      f := if inst.imm.toInt ≤ 5 then -1 else inst.f
      -- A longer call only has its length reset, so arguments past it are no longer seen.
      extraArgs := if inst.imm.toInt ≤ 6 then [] else inst.extraArgs.take (inst.imm.toNat - 6) }
  | .binary => { inst with c := -1, d := -1, e := -1, f := -1 }
  | .nop | .const | .label | .loadLocal | .br =>
    { inst with a := -1, b := -1, c := -1, d := -1, e := -1, f := -1 }

/-- Whether the opcode is one of the three comparisons. -/
def Op.isCmp (op : Op) : Bool :=
  op = .cmpI64 || op = .cmpF64 || op = .cmpF32

/-- The metadata a freshly emitted instruction gets, keeping a range it already has. -/
def initInstMetadata (inst : Inst) : Inst :=
  let inst := { inst with effects := instEffects inst }
  if inst.op = .constI64 && !inst.range.hasMin && !inst.range.hasMax then
    { inst with range := .closed inst.imm inst.imm }
  else if inst.op.isCmp && !inst.range.hasMin && !inst.range.hasMax then
    { inst with range := .closed 0 1 }
  else inst

/-- What a metadata refresh does to one instruction. -/
def refreshInst (inst : Inst) : Inst :=
  let inst := normalizeOperands inst
  let inst := { inst with effects := instEffects inst }
  if inst.op = .constI64 then { inst with range := .closed inst.imm inst.imm }
  else if inst.op.isCmp then { inst with range := .closed 0 1 }
  else inst

/-- Normalises the operands and recomputes the effects and ranges of a whole function. -/
def refreshMetadata (f : Func) : Func :=
  { f with data := f.data.map refreshInst }

/-- Whether an emitted opcode without a destination stays without one. -/
def Op.emitsNoValue (op : Op) : Bool :=
  op = .storeLocal || op = .ret || op = .br || op = .brIf || op = .label || op = .nop

/-- Appends one instruction, giving it the next value when it needs a destination. -/
def emit (f : Func) (inst : Inst) : Int × Func :=
  let inst := normalizeOperands inst
  -- Stores through pointers are not exempt here, so they take a value that nothing writes.
  let fresh := decide (inst.dst < 0) && !inst.op.emitsNoValue
  let inst := if fresh then { inst with dst := f.nextValue } else inst
  let next := if fresh then f.nextValue + 1 else f.nextValue
  (inst.dst, { data := f.data ++ [initInstMetadata inst], nextValue := next })

/-- The code returns somewhere. -/
def HasRet (data : List Inst) : Prop := ∃ inst ∈ data, inst.op = .ret

/-- Resets an instruction to a no-op, as the passes do with what they discard. -/
def instDiscard (_ : Inst) : Inst :=
  { op := .nop, dst := -1, a := -1, b := -1, c := -1, d := -1, e := -1, f := -1 }

/-- The text of a diagnostic about one instruction. -/
def instErr (inst : Inst) (index : Nat) (reason : String) : String :=
  "native NYIR verify: inst " ++ toString index ++ " opcode=" ++ opName inst.op ++
    " dst=v" ++ toString inst.dst ++ " a=v" ++ toString inst.a ++ " b=v" ++ toString inst.b ++
    " imm=" ++ toString inst.imm.toInt ++ ": " ++ reason

/-- Raises a running slot count to cover one instruction's slot. -/
def coverSlot (count : Nat) (inst : Inst) : Nat :=
  if (inst.op = .loadLocal || inst.op = .storeLocal || inst.op = .addrLocal) &&
      decide ((count : Int) ≤ inst.imm.toInt)
  then inst.imm.toNat + 1 else count

/-- One more than the largest local slot a function names. -/
def localCount (f : Func) : Nat :=
  f.data.foldl coverSlot 0

end Nytrix.Nir
