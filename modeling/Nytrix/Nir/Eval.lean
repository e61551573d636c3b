import Nytrix.Lib.Blocks
import Nytrix.Lib.Machine
import Nytrix.Nir.Arith
import Mathlib.Algebra.Order.Ring.Int

/-! The NYIR virtual machine. -/

namespace Nytrix.Nir

open Nytrix.Lib

/-- What a call may read and change: the memory, and the resolver's own context. -/
structure World (σ : Type) where
  mem : Mem
  ext : σ

/-- A call resolver: it answers a symbol and its arguments, or fails with a message. -/
abbrev CallResolver (σ : Type) := World σ → String → List I64 → Except String (I64 × World σ)

/-- The array of local slots, which lies inside the address space and not at the null address. -/
structure Locals where
  base : I64
  count : Nat
  fits : base.toNat + 8 * count ≤ 2 ^ 64
  nonNull : 0 < base.toNat

/-- The address of a local slot. -/
def Locals.addr (l : Locals) (slot : Nat) : I64 := l.base + BitVec.ofNat 64 (8 * slot)

/-- The contents of the local slots, in order. -/
def Locals.contents (l : Locals) (m : Mem) : List I64 :=
  (List.range l.count).map fun slot => m.load64 (l.addr slot)

/-- What a run is given besides the function: the slots, and a resolver if there is one. -/
structure EvalConfig (σ : Type) where
  locals : Locals
  resolver : Option (CallResolver σ)

/-- The machine state: program counter, the values computed so far, and the world. -/
structure State (σ : Type) where
  pc : Nat
  values : Int → Option I64
  world : World σ

/-- The reasons a run fails. -/
inductive EvalError where
  /-- The verifier refused the function. -/
  | rejected (text : String)
  | stepLimit
  | missingValue (inst : Inst) (index : Nat)
  | badLocal (inst : Inst) (index : Nat)
  | missingLabel (inst : Inst) (index : Nat)
  | unsupported (inst : Inst) (index : Nat)
  | noResolver (inst : Inst) (index : Nat)
  | tooManyArgs (inst : Inst) (index : Nat)
  | resolverFailed (text : String)
  /-- The source writes in front of its value array here, which C leaves undefined. -/
  | badDst (inst : Inst) (index : Nat)
  deriving DecidableEq

/-- The message each failure leaves. -/
def EvalError.text : EvalError → String
  | .rejected text => "native NYIR VM: verifier rejected input: " ++ text
  | .stepLimit => "native NYIR VM: step limit exceeded"
  | .missingValue inst i => instErr inst i "NYIR VM read an unavailable value"
  | .badLocal inst i => instErr inst i "NYIR VM local slot is out of range"
  | .missingLabel inst i => instErr inst i "NYIR VM branch target is missing"
  | .unsupported inst i => instErr inst i "NYIR VM operation is unsupported for these operands"
  | .noResolver inst i => instErr inst i "NYIR VM does not execute external calls yet"
  | .tooManyArgs inst i => instErr inst i "NYIR VM supports a bounded number of call args"
  | .resolverFailed text => text
  | .badDst _ _ => ""

/-- What a successful run leaves: whether it returned, its result, and the world. -/
structure EvalResult (σ : Type) where
  returned : Bool
  result : I64
  world : World σ

/-- What a run ends with. -/
abbrev Outcome (σ : Type) := Except EvalError (EvalResult σ)

/-- The positions after each non-negative label, the last one winning. -/
def labelTable (f : Func) : I64 → Option Nat :=
  f.data.zipIdx.foldl (fun table (inst, i) =>
    if inst.op = .label && decide (0 ≤ inst.imm.toInt) then
      Function.update table inst.imm (some (i + 1))
    else table) fun _ => none

/-- The value operands of a call, in argument order. -/
def callOperands (inst : Inst) : List Int :=
  (List.range inst.imm.toNat).map fun k =>
    match k with
    | 0 => inst.a | 1 => inst.b | 2 => inst.c | 3 => inst.d | 4 => inst.e | 5 => inst.f
    | k => inst.extraArgs.getD (k - 6) (-1)

/-- The values an instruction reads, in the order it reads them. -/
def Inst.reads (inst : Inst) : List Int :=
  match inst.op.shape with
  | .unary | .loadI64 | .storeLocal | .brIf => [inst.a]
  | .storeI64 => [inst.a, inst.c]
  | .binary => [inst.a, inst.b]
  | .ret => if 0 ≤ inst.a then [inst.a] else []
  | .call => callOperands inst
  | _ => []

/-- Reads one value, absent for a missing operand or one not computed yet. -/
def readValue (values : Int → Option I64) (v : Int) : Option I64 :=
  if v < 0 then none else values v

variable {σ : Type}

/-- The checks an instruction makes before it reads its operands. -/
def precheck (cfg : EvalConfig σ) (inst : Inst) (index : Nat) : Option EvalError :=
  match inst.op.shape with
  | .loadLocal | .storeLocal | .addrLocal =>
    if inst.imm.toInt < 0 || decide (cfg.locals.count ≤ inst.imm.toNat) then
      some (.badLocal inst index)
    else none
  | .call =>
    if cfg.resolver.isNone then some (.noResolver inst index)
    else if inst.imm.toInt < 0 || decide ((callMaxArgs : Int) < inst.imm.toInt) then
      some (.tooManyArgs inst index)
    else none
  | _ => none

/-- Moves past an instruction that wrote its destination. -/
def writeDst (inst : Inst) (s : State σ) (x : I64) : State σ ⊕ Outcome σ :=
  if 0 ≤ inst.dst then
    .inl { s with pc := s.pc + 1, values := Function.update s.values inst.dst (some x) }
  else .inr (.error (.badDst inst s.pc))

/-- Moves to a label. -/
def jump (f : Func) (inst : Inst) (s : State σ) : State σ ⊕ Outcome σ :=
  match labelTable f inst.imm with
  | some pc => .inl { s with pc := pc }
  | none => .inr (.error (.missingLabel inst s.pc))

/-- Executes one instruction on the operand values it read. -/
def execute (f : Func) (cfg : EvalConfig σ) (inst : Inst) (xs : List I64) (s : State σ) :
    State σ ⊕ Outcome σ :=
  let a := xs.getD 0 0
  let b := xs.getD 1 0
  match inst.op.shape with
  | .nop | .label => .inl { s with pc := s.pc + 1 }
  | .const => if 0 ≤ inst.dst then writeDst inst s inst.imm else .inl { s with pc := s.pc + 1 }
  | .unary => writeDst inst s (unaryResult inst.op a)
  | .loadI64 =>
    if a = 0 then .inr (.error (.unsupported inst s.pc))
    else writeDst inst s (s.world.mem.load64 a)
  | .addrLocal => writeDst inst s (cfg.locals.addr inst.imm.toNat)
  | .addrSymbol | .alloca | .copyStruct | .captureRet => .inr (.error (.unsupported inst s.pc))
  | .storeI64 =>
    if a = 0 then .inr (.error (.unsupported inst s.pc))
    else .inl { s with
      pc := s.pc + 1, world := { s.world with mem := s.world.mem.store64 a b } }
  | .loadLocal => writeDst inst s (s.world.mem.load64 (cfg.locals.addr inst.imm.toNat))
  | .storeLocal => .inl { s with
      pc := s.pc + 1
      world := { s.world with mem := s.world.mem.store64 (cfg.locals.addr inst.imm.toNat) a } }
  | .binary => match binaryResult inst.op inst.cmp a b with
    | some x => writeDst inst s x
    | none => .inr (.error (.unsupported inst s.pc))
  | .br => jump f inst s
  | .brIf => if a = 0 then .inl { s with pc := s.pc + 1 } else jump f inst s
  | .ret => .inr (.ok { returned := true, result := a, world := s.world })
  | .call => match cfg.resolver with
    | none => .inr (.error (.noResolver inst s.pc))
    | some resolve => match resolve s.world (inst.symbol.getD "") xs with
      | .error text => .inr (.error (.resolverFailed text))
      | .ok (x, world) =>
        if 0 ≤ inst.dst then writeDst inst { s with world := world } x
        else .inl { s with pc := s.pc + 1, world := world }

/-- One turn of the VM's loop on an instruction: check, read the operands, execute. -/
def stepInst (f : Func) (cfg : EvalConfig σ) (inst : Inst) (s : State σ) :
    State σ ⊕ Outcome σ :=
  match precheck cfg inst s.pc with
  | some err => .inr (.error err)
  | none => match inst.reads.mapM (readValue s.values) with
    | none => .inr (.error (.missingValue inst s.pc))
    | some xs => execute f cfg inst xs s

/-- The VM as a machine: falling off the end stops it without a result. -/
def vm (f : Func) (cfg : EvalConfig σ) : Machine (State σ) (Outcome σ) where
  step s := match f.data[s.pc]? with
    | none => .inr (.ok { returned := false, result := 0, world := s.world })
    | some inst => stepInst f cfg inst s

/-- The VM's loop under a budget of steps. -/
def evalLoop (f : Func) (cfg : EvalConfig σ) : Nat → State σ → Outcome σ
  | fuel, s => match f.data[s.pc]? with
    | none => .ok { returned := false, result := 0, world := s.world }
    | some inst => match fuel with
      | 0 => .error .stepLimit
      | fuel + 1 => match stepInst f cfg inst s with
        | .inl next => evalLoop f cfg fuel next
        | .inr out => out

/-- The state a run starts in: no value is available yet. -/
def initialState (w : World σ) : State σ :=
  { pc := 0, values := fun _ => none, world := w }

/-- Evaluates a function: verify it, then run it, a budget of zero meaning a million steps. -/
def evalWithCalls (f : Func) (cfg : EvalConfig σ) (maxSteps : Nat) (w : World σ) : Outcome σ :=
  match verify f with
  | .error text => .error (.rejected text)
  | .ok () => evalLoop f cfg (if maxSteps = 0 then 1000000 else maxSteps) (initialState w)

/-- Four slots at a fixed address, for concrete runs. -/
def fourSlots : Locals := { base := 0x1000, count := 4, fits := by decide, nonNull := by decide }

/-- Four slots and no resolver. -/
def fourSlotsConfig : EvalConfig Unit := { locals := fourSlots, resolver := none }

/-- A world whose memory is zero. -/
def zeroWorld : World Unit := { mem := fun _ => 0, ext := () }

/-- A world whose local slots hold these words and whose memory is zero elsewhere. -/
def slotsWorld (words : List I64) : World Unit where
  mem := words.zipIdx.foldl (fun m (x, i) => m.store64 (fourSlots.addr i) x) fun _ => 0
  ext := ()

end Nytrix.Nir
