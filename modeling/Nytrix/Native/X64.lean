import Nytrix.Nir.Verify
import Nytrix.Native.Asm
import Nytrix.Native.FloatMaps
import Mathlib.Algebra.Order.Ring.Int

/-! The x86-64 assembly backend: a stack slot for every value, and one text for each instruction. -/

namespace Nytrix.Native

open Nytrix.Nir

/-- A 64-bit immediate read as an `int`. -/
def toCInt (imm : I64) : Int := (imm.setWidth 32).toInt

/-- What the emitter of one function keeps. -/
structure NirCtx where
  target : Target
  nir : Func
  maxLocalSlot : Int
  classes : Classes
  epilogueLabel : Text

/-- Raises the largest local that is loaded or stored to cover an instruction. -/
def coverLocal (largest : Int) (inst : Inst) : Int :=
  if (inst.op = .loadLocal || inst.op = .storeLocal) && decide (largest < toCInt inst.imm)
  then toCInt inst.imm else largest

/-- One more than the largest local that is loaded or stored. -/
def maxLocalSlot (f : Func) : Int := f.data.foldl coverLocal (-1) + 1

/-- The bytes of a frame with so many slots. -/
def frameBytes (slots : Int) : Int := (slots * 8 + 15) / 16 * 16 + 8

/-- The slot of a value, behind those of the locals. -/
def NirCtx.slot (c : NirCtx) (v : Int) : Int :=
  if v < 0 || c.nir.nextValue ≤ v then -1 else c.maxLocalSlot + v

/-- Where a slot is in the frame. -/
def slotOperand (slot : Int) : Operand := .mem (-((slot + 1) * 8)) .rbp

/-- A register. -/
def Reg.op (r : Reg) : Operand := .reg r

/-- One instruction as a line. -/
def ins (mnemonic : Mnemonic) (operands : List Operand) : List Line := [.inst mnemonic operands]

/-- A text that moves between a slot and a register, unless there is no such slot. -/
def withSlot (slot : Int) (lines : Operand → List Line) : Emitted :=
  if slot < 0 || nirMaxSlots ≤ slot then .error (.fail "") else .ok (lines (slotOperand slot))

/-- Loads a slot. -/
def loadSlot (slot : Int) : Emitted := withSlot slot fun m => ins .movq [m, Reg.rax.op]

/-- Stores to a slot. -/
def storeSlot (slot : Int) : Emitted := withSlot slot fun m => ins .movq [Reg.rax.op, m]

/-- Loads a value. -/
def NirCtx.load (c : NirCtx) (v : Int) : Emitted := loadSlot (c.slot v)

/-- Stores a value. -/
def NirCtx.store (c : NirCtx) (v : Int) : Emitted := storeSlot (c.slot v)

/-- Loads a value into a vector register as a double. -/
def NirCtx.loadXmm (c : NirCtx) (v : Int) (xmm : Nat) : Emitted :=
  withSlot (c.slot v) fun m => ins .movsd [m, .xmm xmm]

/-- Stores the first vector register as a double. -/
def NirCtx.storeXmm (c : NirCtx) (v : Int) : Emitted :=
  withSlot (c.slot v) fun m => ins .movsd [.xmm 0, m]

/-- Loads a value into a vector register as a single. -/
def NirCtx.loadXmmF32 (c : NirCtx) (v : Int) (xmm : Nat) : Emitted :=
  withSlot (c.slot v) fun m => ins .movss [m, .xmm xmm]

/-- Stores the first vector register as a single. -/
def NirCtx.storeXmmF32 (c : NirCtx) (v : Int) : Emitted :=
  withSlot (c.slot v) fun m => ins .movss [.xmm 0, m]

/-- Whether the backend takes a value for a double. -/
def NirCtx.isF64 (c : NirCtx) (v : Int) : Bool := decide (v < nirMaxSlots) && c.classes.value64 v

/-- Whether the backend takes a value for a single. -/
def NirCtx.isF32 (c : NirCtx) (v : Int) : Bool := decide (v < nirMaxSlots) && c.classes.value32 v

/-- The constant that a value is defined as. -/
def NirCtx.constOf (c : NirCtx) (v : Int) : Option Int :=
  if !inSlots v then none
  else match c.nir.data.reverse.find? fun inst => inst.dst = v with
    | some inst => if inst.op = .constI64 then some inst.imm.toInt else none
    | none => none

/-- The constant that a value is defined as, if it is the immediate of an instruction. -/
def NirCtx.tryConstI32 (c : NirCtx) (v : Int) : Option Int :=
  (c.constOf v).filter fun n => decide (-2 ^ 31 ≤ n) && decide (n < 2 ^ 31)

/-- The constant that a value is defined as, if it is the count of a shift. -/
def NirCtx.tryShiftImm (c : NirCtx) (v : Int) : Option Int :=
  (c.constOf v).filter fun n => decide (1 ≤ n) && decide (n ≤ 63)

/-- The instruction that sets a byte after an integer comparison. -/
def setcc : Cmp → Mnemonic
  | .eq => .sete | .ne => .setne | .lt => .setl | .le => .setle | .gt => .setg | .ge => .setge

/-- The instruction that sets a byte after a float comparison. -/
def f64Setcc : Cmp → Mnemonic
  | .eq => .sete | .ne => .setne | .lt => .setb | .le => .setbe | .gt => .seta | .ge => .setae

/-- Loads both operands, the left one in `rax` and the right one in `rbx`. -/
def NirCtx.loadPair (c : NirCtx) (inst : Inst) : Emitted := do
  return (← c.load inst.a) ++ ins .pushq [Reg.rax.op] ++ (← c.load inst.b) ++
    ins .movq [Reg.rax.op, Reg.rbx.op] ++ ins .popq [Reg.rax.op]

/-- An operation on both operands. -/
def NirCtx.binop (c : NirCtx) (inst : Inst) (lines : List Line) : Emitted := do
  return (← c.loadPair inst) ++ lines ++ (← c.store inst.dst)

/-- An operation on one operand. -/
def NirCtx.unop (c : NirCtx) (inst : Inst) (v : Int) (lines : List Line) : Emitted := do
  return (← c.load v) ++ lines ++ (← c.store inst.dst)

/-- The operands of an arithmetic instruction with an immediate. -/
def immOperands (mnemonic : Mnemonic) (n : Int) : List Operand :=
  if mnemonic = .imulq then [.imm n, Reg.rax.op, Reg.rax.op] else [.imm n, Reg.rax.op]

/-- Arithmetic with an immediate on either side, if there is one. -/
def NirCtx.commutative (c : NirCtx) (inst : Inst) (mnemonic : Mnemonic) : Emitted :=
  match c.tryConstI32 inst.b with
  | some n => c.unop inst inst.a (ins mnemonic (immOperands mnemonic n))
  | none => match c.tryConstI32 inst.a with
    | some n => c.unop inst inst.b (ins mnemonic (immOperands mnemonic n))
    | none => c.binop inst (ins mnemonic [Reg.rbx.op, Reg.rax.op])

/-- A shift, by an immediate if there is one. -/
def NirCtx.shift (c : NirCtx) (inst : Inst) (mnemonic : Mnemonic) : Emitted :=
  match c.tryShiftImm inst.b with
  | some n => c.unop inst inst.a (ins mnemonic [.imm n, Reg.rax.op])
  | none => c.binop inst
    (ins .movb [Reg.bl.op, Reg.cl.op] ++ ins mnemonic [Reg.cl.op, Reg.rax.op])

/-- Arithmetic of doubles, whose right operand is read from its slot without a check. -/
def NirCtx.arithF64 (c : NirCtx) (inst : Inst) (mnemonic : Mnemonic) : Emitted := do
  let left ← c.loadXmm inst.a 0
  if c.slot inst.b < 0 then .error .undefined
  else return left ++ ins mnemonic [slotOperand (c.slot inst.b), .xmm 0] ++ (← c.storeXmm inst.dst)

/-- Arithmetic of singles, whose right operand is read from its slot without a check. -/
def NirCtx.arithF32 (c : NirCtx) (inst : Inst) (mnemonic : Mnemonic) : Emitted := do
  let left ← c.loadXmmF32 inst.a 0
  if c.slot inst.b < 0 then .error .undefined
  else return left ++ ins mnemonic [slotOperand (c.slot inst.b), .xmm 0] ++
    (← c.storeXmmF32 inst.dst)

/-- The label of a NYIR label. -/
def nirLabel (imm : I64) : Text := text ".Lny_nir_L" ++ decimal imm.toInt

/-- The label of a float comparison whose operands are unordered. -/
def unorderedLabel (dst : Int) : Text := text ".Lny_nir_fcmp_unordered_" ++ decimal dst

/-- The label behind a float comparison. -/
def doneLabel (dst : Int) : Text := text ".Lny_nir_fcmp_done_" ++ decimal dst

/-- The text behind the comparison of two floats. -/
def NirCtx.fcmp (c : NirCtx) (inst : Inst) (operands : List Line) (mnemonic : Mnemonic) :
    Emitted := do
  return operands ++ ins mnemonic [.xmm 1, .xmm 0] ++
    [.jump .jp (unorderedLabel inst.dst)] ++ ins (f64Setcc inst.cmp) [Reg.al.op] ++
    [.jump .jmp (doneLabel inst.dst), .label (unorderedLabel inst.dst)] ++
    ins .movb [.imm (if inst.cmp = .ne then 1 else 0), Reg.al.op] ++
    [.label (doneLabel inst.dst)] ++ ins .movzbq [Reg.al.op, Reg.rax.op] ++
    (← c.store inst.dst)

/-- The text of an instruction that names a local, unless the local is not one of the frame's. -/
def NirCtx.withLocal (c : NirCtx) (inst : Inst) (what : String) (lines : Int → Emitted) :
    Emitted :=
  if decide (inst.imm.toInt < 0) || decide (c.maxLocalSlot ≤ toCInt inst.imm) then
    .error (.fail ("nyir x86-64: " ++ what ++ " invalid slot " ++ toString inst.imm.toInt))
  else if nirMaxSlots ≤ inst.imm.toInt then .error .undefined
  else lines inst.imm.toInt

/-- An eightbyte of an aggregate in a register. -/
inductive Chunk where
  | none
  | gp (index : Nat)
  | sse (index : Nat)
  deriving DecidableEq

/-- Where the caller puts an argument. -/
inductive ArgPlace where
  | gp (index : Nat)
  | sse (index : Nat) (single : Bool)
  | stack (double single : Bool)
  | aggRegs (first second : Chunk)
  | aggStack (size : Nat)
  deriving DecidableEq

/-- The registers and the stack words that are taken. -/
structure ArgState where
  gp : Nat := 0
  sse : Nat := 0
  stackArgc : Nat := 0
  deriving DecidableEq

/-- The class of an eightbyte in an integer register. -/
def argClassInteger : BitVec 32 := 1

/-- The class of an eightbyte in a vector register. -/
def argClassSse : BitVec 32 := 2

/-- The place of an eightbyte of an aggregate that goes into registers. -/
def placeChunk (cls : BitVec 32) (s : ArgState) : Chunk × ArgState :=
  if cls = argClassInteger then (.gp s.gp, { s with gp := s.gp + 1 })
  else if cls = argClassSse then (.sse s.sse, { s with sse := s.sse + 1 })
  else (.none, s)

/-- How many of two eightbytes have a class. -/
def countClass (packed cls : BitVec 32) : Nat :=
  (if argAggClass packed false = cls then 1 else 0) +
    (if argAggClass packed true = cls then 1 else 0)

/-- Whether a class is one that can be in registers. -/
def classInRegs (cls : BitVec 32) : Bool :=
  cls = 0 || cls = argClassInteger || cls = argClassSse

/-- The place of an aggregate. -/
def placeAggregate (packed : BitVec 32) (s : ArgState) : ArgPlace × ArgState :=
  let size := (argAggSize packed).toNat
  if classInRegs (argAggClass packed false) && classInRegs (argAggClass packed true) &&
      decide (size ≤ 16) && decide (s.gp + countClass packed argClassInteger ≤ 6) &&
      decide (s.sse + countClass packed argClassSse ≤ 8) then
    let first := placeChunk (argAggClass packed false) s
    let second := placeChunk (argAggClass packed true) first.2
    (.aggRegs first.1 second.1, second.2)
  else (.aggStack size, { s with stackArgc := s.stackArgc + (size + 7) / 8 })

/-- The place of an argument, by what the backend takes its value for. -/
def NirCtx.placeArg (c : NirCtx) (packed : BitVec 32) (v : Int) (s : ArgState) :
    ArgPlace × ArgState :=
  if packed ≠ 0 then placeAggregate packed s
  else if c.isF64 v || c.isF32 v then
    if s.sse < 8 then (.sse s.sse (c.isF32 v), { s with sse := s.sse + 1 })
    else (.stack (c.isF64 v) (c.isF32 v), { s with stackArgc := s.stackArgc + 1 })
  else if s.gp < 6 then (.gp s.gp, { s with gp := s.gp + 1 })
  else (.stack false false, { s with stackArgc := s.stackArgc + 1 })

/-- The places of the arguments in their order, and what they take. -/
def NirCtx.placeArgs (c : NirCtx) : List (BitVec 32 × Int) → ArgState →
    List (ArgPlace × Int) × ArgState
  | [], s => ([], s)
  | (packed, v) :: rest, s =>
    let here := c.placeArg packed v s
    let places := c.placeArgs rest here.2
    ((here.1, v) :: places.1, places.2)

/-- The text that puts an argument on the stack, if that is its place. -/
def NirCtx.pushArg (c : NirCtx) (arg : ArgPlace × Int) : Emitted :=
  let grow := ins .subq [.imm 8, Reg.rsp.op]
  match arg.1 with
  | .gp _ | .sse _ _ | .aggRegs _ _ => .ok []
  | .aggStack size => do
    return ins .subq [.imm ((size + 7) / 8 * 8 : Nat), Reg.rsp.op] ++ (← c.load arg.2) ++
      ins .movq [Reg.rax.op, Reg.rsi.op] ++ ins .movq [Reg.rsp.op, Reg.rdi.op] ++
      ins .movq [.imm size, Reg.rcx.op] ++ ins .repMovsb []
  | .stack true _ => do
    return (← c.loadXmm arg.2 0) ++ grow ++ ins .movsd [.xmm 0, .mem 0 .rsp]
  | .stack false true => do
    return (← c.loadXmmF32 arg.2 0) ++ grow ++ ins .movss [.xmm 0, .mem 0 .rsp]
  | .stack false false => do
    return (← c.load arg.2) ++ ins .pushq [Reg.rax.op]

/-- The register of an integer argument, which the target need not have. -/
def NirCtx.gpArgReg (c : NirCtx) (index : Nat) : Operand :=
  match c.target.gpArgRegs[index]? with
  | some r => .reg r
  | none => .null

/-- The text that loads an eightbyte of an aggregate. -/
def NirCtx.loadChunk (c : NirCtx) (offset : Int) : Chunk → List Line
  | .none => []
  | .gp index => ins .movq [.mem offset .rax, c.gpArgReg index]
  | .sse index => ins .movq [.mem offset .rax, .xmm index]

/-- The text that puts an argument in registers, if that is its place. -/
def NirCtx.loadArg (c : NirCtx) (arg : ArgPlace × Int) : Emitted :=
  match arg.1 with
  | .stack _ _ | .aggStack _ => .ok []
  | .aggRegs first second => do
    return (← c.load arg.2) ++ c.loadChunk 0 first ++ c.loadChunk 8 second
  | .sse index true => c.loadXmmF32 arg.2 index
  | .sse index false => c.loadXmm arg.2 index
  | .gp index => do
    return (← c.load arg.2) ++ ins .movq [Reg.rax.op, c.gpArgReg index]

/-- The texts of a list, one after the other. -/
def emitAll {α : Type} (emit : α → Emitted) : List α → Emitted
  | [] => .ok []
  | x :: rest => do
    return (← emit x) ++ (← emitAll emit rest)

/-- The values a call passes, where one that is missing is negative. -/
def argVals (inst : Inst) (argc : Nat) : List Int :=
  ([inst.a, inst.b, inst.c, inst.d, inst.e, inst.f] ++
    (List.range (argc - 6)).map fun i => inst.extraArgs.getD i (-1)).take argc

/-- The arguments of a call with their aggregate metadata. -/
def callArgs (inst : Inst) (argc : Nat) : List (BitVec 32 × Int) :=
  ((List.range argc).map fun i => (inst.argSizes.getD []).getD i 0).zip (argVals inst argc)

/-- The label a call goes to. -/
def NirCtx.callLabel (c : NirCtx) (inst : Inst) : Text :=
  let name := inst.symbol.getD "<null>"
  if inst.flags &&& flagExtern ≠ 0 then snprintf 256 (text c.target.symbolPrefix ++ text name)
  else snprintf 256 (text c.target.symbolPrefix ++ text "ny_fn_" ++ text name)

/-- The text that stores what a call returns. -/
def NirCtx.storeResult (c : NirCtx) (inst : Inst) : Emitted :=
  if inst.dst < 0 then .ok []
  else if c.isF64 inst.dst then c.storeXmm inst.dst
  else if c.isF32 inst.dst then c.storeXmmF32 inst.dst
  else c.store inst.dst

/-- The text that moves the stack pointer by a number of bytes, if it is not zero. -/
def adjustStack (mnemonic : Mnemonic) (bytes : Nat) : List Line :=
  if bytes = 0 then [] else ins mnemonic [.imm bytes, Reg.rsp.op]

/-- The text that puts the arguments of a call in their places, and the words on the stack. -/
def NirCtx.passArgs (c : NirCtx) (inst : Inst) : Except EmitError (List Line × Nat) := do
  let args := callArgs inst (toCInt inst.imm).toNat
  let placed := c.placeArgs args {}
  let pad := placed.2.stackArgc % 2
  let pushed ← emitAll c.pushArg placed.1.reverse
  let loaded ← emitAll c.loadArg placed.1
  return (adjustStack .subq (pad * 8) ++ pushed ++ loaded, placed.2.stackArgc + pad)

/-- The text of a call. -/
def NirCtx.emitCall (c : NirCtx) (inst : Inst) : Emitted :=
  if toCInt inst.imm < 0 || (callMaxArgs : Int) < toCInt inst.imm then
    .error (.fail "nyir x86-64: call exceeds the maximum supported argument count")
  else if (argVals inst (toCInt inst.imm).toNat).any fun v => decide (v < 0) then
    .error (.fail "")
  else do
    let passed ← c.passArgs inst
    let stored ← c.storeResult inst
    return passed.1 ++ adjustStack .subq c.target.shadowSpaceBytes ++
      [.call (c.callLabel inst)] ++ adjustStack .addq c.target.shadowSpaceBytes ++
      adjustStack .addq (passed.2 * 8) ++ stored

/-- The text that loads what a function returns. -/
def NirCtx.loadReturn (c : NirCtx) (v : Int) : Emitted :=
  if v < 0 then .ok (ins .xorq [Reg.rax.op, Reg.rax.op])
  else if c.isF64 v then c.loadXmm v 0
  else if c.isF32 v then c.loadXmmF32 v 0
  else c.load v

/-- The text that moves a further returned register to `rax`. -/
def captureRet (selector : Int) : Emitted :=
  if selector = 0 then .ok (ins .movq [Reg.rdx.op, Reg.rax.op])
  else if selector = 1 then .ok []
  else if selector = 2 then .ok (ins .movq [.xmm 0, Reg.rax.op])
  else if selector = 3 then .ok (ins .movq [.xmm 1, Reg.rax.op])
  else .error (.fail "nyir x86-64: invalid capture.ret selector")

/-- The text of a comparison of integers, behind the loads of its operands. -/
def cmpText (inst : Inst) (right : Operand) : List Line :=
  ins .cmpq [right, Reg.rax.op] ++ ins (setcc inst.cmp) [Reg.al.op] ++
    ins .movzbq [Reg.al.op, Reg.rax.op]

/-- The text of a subtraction, by an immediate if there is one on the right. -/
def NirCtx.emitSub (c : NirCtx) (inst : Inst) : Emitted :=
  match c.tryConstI32 inst.b with
  | some n => c.unop inst inst.a (ins .subq [.imm n, Reg.rax.op])
  | none => c.binop inst (ins .subq [Reg.rbx.op, Reg.rax.op])

/-- The text of a comparison of integers, with an immediate if there is one on the right. -/
def NirCtx.emitCmp (c : NirCtx) (inst : Inst) : Emitted :=
  match c.tryConstI32 inst.b with
  | some n => c.unop inst inst.a (cmpText inst (.imm n))
  | none => c.binop inst (cmpText inst Reg.rbx.op)

/-- The text of an instruction that gives a value, which is none if it has no destination. -/
def onlyDst (inst : Inst) (lines : Emitted) : Emitted := if inst.dst < 0 then .ok [] else lines

/-- The text of one instruction. -/
def NirCtx.emitInst (c : NirCtx) (inst : Inst) : Emitted :=
  match inst.op with
  | .nop => .ok []
  | .constI64 | .constF64 | .constF32 =>
    onlyDst inst <|
      if c.slot inst.dst < 0 then .error .undefined
      else do return ins .movabsq [.imm inst.imm.toInt, Reg.rax.op] ++ (← c.store inst.dst)
  | .copy => onlyDst inst <| do return (← c.load inst.a) ++ (← c.store inst.dst)
  | .loadLocal =>
    onlyDst inst <| c.withLocal inst "load.local" fun slot => do
      return (← loadSlot slot) ++ (← c.store inst.dst)
  | .addrLocal =>
    onlyDst inst <| c.withLocal inst "addr.local" fun slot => do
      return ins .leaq [slotOperand slot, Reg.rax.op] ++ (← c.store inst.dst)
  | .addrSymbol =>
    onlyDst inst <|
      if inst.symbol.getD "" = "" then
        .error (.fail "nyir x86-64: addr.symbol missing symbol name")
      else do
        return ins .leaq [.symbol (inst.symbol.getD ""), Reg.rax.op] ++ (← c.store inst.dst)
  | .alloca =>
    onlyDst inst <| do
      return ins .subq [.imm inst.imm.toInt, Reg.rsp.op] ++ ins .andq [.imm (-16), Reg.rsp.op] ++
        ins .movq [Reg.rsp.op, Reg.rax.op] ++ (← c.store inst.dst)
  | .copyStruct =>
    if inst.imm.toInt ≤ 0 then .ok []
    else do
      return (← c.load inst.b) ++ ins .movq [Reg.rax.op, Reg.rsi.op] ++ (← c.load inst.a) ++
        ins .movq [Reg.rax.op, Reg.rdi.op] ++ ins .movq [.imm inst.imm.toInt, Reg.rcx.op] ++
        ins .repMovsb []
  | .captureRet =>
    onlyDst inst <| do return (← captureRet inst.imm.toInt) ++ (← c.store inst.dst)
  | .storeLocal =>
    c.withLocal inst "store.local" fun slot => do
      return (← c.load inst.a) ++ (← storeSlot slot)
  | .loadI64 => c.unop inst inst.a (ins .movq [.mem 0 .rax, Reg.rax.op])
  | .storeI64 => do
    return (← c.load inst.c) ++ ins .pushq [Reg.rax.op] ++ (← c.load inst.a) ++
      ins .popq [Reg.rbx.op] ++ ins .movq [Reg.rbx.op, .mem 0 .rax]
  | .addI64 => c.commutative inst .addq
  | .subI64 => c.emitSub inst
  | .mulI64 => c.commutative inst .imulq
  | .divI64 => c.binop inst (ins .cqto [] ++ ins .idivq [Reg.rbx.op])
  | .modI64 =>
    c.binop inst (ins .cqto [] ++ ins .idivq [Reg.rbx.op] ++ ins .movq [Reg.rdx.op, Reg.rax.op])
  | .andI64 => c.commutative inst .andq
  | .orI64 => c.commutative inst .orq
  | .xorI64 => c.commutative inst .xorq
  | .shlI64 => c.shift inst .shlq
  | .sarI64 => c.shift inst .sarq
  | .addF64 => c.arithF64 inst .addsd
  | .subF64 => c.arithF64 inst .subsd
  | .mulF64 => c.arithF64 inst .mulsd
  | .divF64 => c.arithF64 inst .divsd
  | .i64ToF64 => do
    return (← c.load inst.a) ++ ins .cvtsi2sdq [Reg.rax.op, .xmm 0] ++ (← c.storeXmm inst.dst)
  | .addF32 => c.arithF32 inst .addss
  | .subF32 => c.arithF32 inst .subss
  | .mulF32 => c.arithF32 inst .mulss
  | .divF32 => c.arithF32 inst .divss
  | .i64ToF32 => do
    return (← c.load inst.a) ++ ins .cvtsi2ssq [Reg.rax.op, .xmm 0] ++ (← c.storeXmmF32 inst.dst)
  | .f32ToF64 => do
    return (← c.loadXmmF32 inst.a 0) ++ ins .cvtss2sd [.xmm 0, .xmm 0] ++ (← c.storeXmm inst.dst)
  | .f64ToF32 => do
    return (← c.loadXmm inst.a 0) ++ ins .cvtsd2ss [.xmm 0, .xmm 0] ++ (← c.storeXmmF32 inst.dst)
  | .cmpI64 => c.emitCmp inst
  | .cmpF64 => do
    c.fcmp inst ((← c.loadXmm inst.a 0) ++ (← c.loadXmm inst.b 1)) .ucomisd
  | .cmpF32 => do
    c.fcmp inst ((← c.loadXmmF32 inst.a 0) ++ (← c.loadXmmF32 inst.b 1)) .ucomiss
  | .label => .ok [.label (nirLabel inst.imm)]
  | .br => .ok [.jump .jmp (nirLabel inst.imm)]
  | .brIf => do
    return (← c.load inst.a) ++ ins .testq [Reg.rax.op, Reg.rax.op] ++
      [.jump .jne (nirLabel inst.imm)]
  | .ret => do return (← c.loadReturn inst.a) ++ [.jump .jmp c.epilogueLabel]
  | .call => c.emitCall inst

/-- The locals that are stored, and those that are loaded before any store, so far. -/
structure ParamScan where
  stored : Int → Bool := fun _ => false
  param : Int → Bool := fun _ => false

/-- What the scan for parameters does at one instruction. -/
def ParamScan.visit (maxLocal : Int) (s : ParamScan) (inst : Inst) : ParamScan :=
  let slot := toCInt inst.imm
  if slot < 0 || maxLocal ≤ slot then s
  else if inst.op = .storeLocal then { s with stored := Function.update s.stored slot true }
  else if inst.op = .loadLocal && !s.stored slot then
    { s with param := Function.update s.param slot true }
  else s

/-- The locals that the prologue takes for parameters. -/
def paramInit (f : Func) (maxLocal : Int) : Int → Bool :=
  (f.data.foldl (ParamScan.visit maxLocal) {}).param

/-- The text that moves one parameter into its local, and what the parameters have taken. -/
def NirCtx.homeParam (c : NirCtx) (i : Int) (s : ArgState) : List Line × ArgState :=
  let float64 := decide (i < nirMaxSlots) && c.classes.local64 i
  let float32 := decide (i < nirMaxSlots) && c.classes.local32 i
  if (float64 || float32) && decide (s.sse < 8) then
    (ins (if float32 then .movss else .movsd) [.xmm s.sse, slotOperand i],
      { s with sse := s.sse + 1 })
  else if !float64 && !float32 && decide (s.gp < 6) then
    (ins .movq [c.gpArgReg s.gp, slotOperand i], { s with gp := s.gp + 1 })
  else
    (ins .movq [.mem (16 + c.target.shadowSpaceBytes + s.stackArgc * 8 : Nat) .rbp, Reg.rax.op] ++
      ins .movq [Reg.rax.op, slotOperand i], { s with stackArgc := s.stackArgc + 1 })

/-- The text that moves the parameters into their locals, in the order of the locals. -/
def NirCtx.homeParams (c : NirCtx) (param : Int → Bool) : List Nat → ArgState → List Line
  | [], _ => []
  | i :: rest, s =>
    if param i then (c.homeParam i s).1 ++ c.homeParams param rest (c.homeParam i s).2
    else c.homeParams param rest s

/-- The name of the function that runs a program. -/
def rtMain : Text := text "rt_main"

/-- What the emitter of a function starts from. -/
def nirCtx (target : Target) (f : Func) (name : Text) : NirCtx :=
  { target := target
    nir := f
    maxLocalSlot := maxLocalSlot f
    classes := classifyValues f
    epilogueLabel := snprintf 128 (text ".Lny_nir_epilogue_" ++ name) }

/-- The directives and the label at the head of a function. -/
def header (target : Target) (symbol : Text) : List Line :=
  [if target.isMacho then .directive .p2align [] else .directive .type symbol,
    .directive .globl symbol, .label symbol]

/-- The text that sets up a frame with so many slots. -/
def setupFrame (slots : Int) : List Line :=
  ins .pushq [Reg.rbp.op] ++ ins .movq [Reg.rsp.op, Reg.rbp.op] ++ ins .pushq [Reg.rbx.op] ++
    ins .subq [.imm (frameBytes slots), Reg.rsp.op]

/-- The text that sets up the frame of a function and moves the parameters into it. -/
def NirCtx.prologue (c : NirCtx) (name : Text) : List Line :=
  setupFrame (c.maxLocalSlot + c.nir.nextValue) ++
    if name = rtMain then []
    else c.homeParams (paramInit c.nir c.maxLocalSlot) (List.range c.maxLocalSlot.toNat) {}

/-- The text that leaves a function. -/
def epilogue (target : Target) (symbol : Text) (label : Text) (tagReturn : Bool) : List Line :=
  [.label label] ++
    (if tagReturn then ins .leaq [.scaled 1 .rax 2, Reg.rax.op] else []) ++
    ins .movq [.mem (-8) .rbp, Reg.rbx.op] ++ ins .leave [] ++ ins .ret [] ++
    (if target.isMacho then [] else [.directive .size symbol])

/-- The text of a function. More slots than the table has are written outside of it. -/
def emitNir (target : Target) (f : Func) (funcName : Text) (tagReturn : Bool) : Emitted :=
  let name := if funcName = [] then rtMain else funcName
  let c := nirCtx target f name
  let symbol := text target.symbolPrefix ++ name
  if nirMaxSlots < c.maxLocalSlot + f.nextValue then .error .undefined
  else do
    return header target symbol ++ c.prologue name ++ (← emitAll c.emitInst f.data) ++
      epilogue target symbol c.epilogueLabel tagReturn

end Nytrix.Native
