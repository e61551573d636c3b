import Nytrix.Nir.Ir

/-! The NYIR verifier: a textual scan for defined operands and labels, then constant constraints. -/

namespace Nytrix.Nir

/-- The reason of the first check that fires, in the order the checks are written. -/
def firstFailure : List (Bool × String) → Option String
  | [] => none
  | (bad, reason) :: rest => if bad then some reason else firstFailure rest

/-- Whether the operand names a value an earlier instruction has as its destination. -/
def valueDefined (f : Func) (defined : Int → Bool) (v : Int) : Bool :=
  decide (0 ≤ v) && decide (v < f.nextValue) && defined v

/-- Whether some label instruction carries this number. -/
def labelExists (f : Func) (label : I64) : Bool :=
  f.data.any fun inst => inst.op = .label && inst.imm = label

/-- Whether some branch goes to this label. -/
def labelReferenced (f : Func) (label : I64) : Bool :=
  f.data.any fun inst => (inst.op = .br || inst.op = .brIf) && inst.imm = label

/-- The effect bits the verifier knows. -/
def knownEffectMask : BitVec 32 :=
  effectReadLocal ||| effectWriteLocal ||| effectCall ||| effectControl

/-- The aggregate size packed in one argument's metadata. -/
def argAggSize (packed : BitVec 32) : BitVec 32 := packed &&& 0x00ffffff

/-- The class of the first or second eightbyte packed in one argument's metadata. -/
def argAggClass (packed : BitVec 32) (second : Bool) : BitVec 32 :=
  (packed >>> (if second then 28 else 24)) &&& 0x0f

/-- The largest eightbyte class. -/
def argClassUnsupported : BitVec 32 := 4

/-- Whether one argument's aggregate metadata is malformed. -/
def argSizeBad (packed : BitVec 32) : Bool :=
  packed ≠ 0 &&
    (argAggSize packed = 0 || decide (argClassUnsupported < argAggClass packed false) ||
      decide (argClassUnsupported < argAggClass packed true))

/-- The checks made of every instruction, whatever its opcode. -/
def commonChecks (f : Func) (defined : Int → Bool) (inst : Inst) : List (Bool × String) :=
  [(inst.op ≠ .call && inst.argSizes.isSome,
      "non-call instruction has aggregate argument metadata"),
    (inst.effects &&& ~~~knownEffectMask ≠ 0, "invalid effect mask"),
    (inst.effects ≠ instEffects inst, "effect mask does not match opcode effects"),
    (inst.range.hasMin != inst.range.hasMax, "incomplete range fact"),
    (inst.range.hasMin && inst.range.hasMax && decide (inst.range.max.toInt < inst.range.min.toInt),
      "invalid range fact"),
    ((inst.debug.line = 0 && inst.debug.column ≠ 0) ||
        (inst.debug.line = 0 && (inst.debug.file.getD "") ≠ ""), "invalid debug location"),
    (decide (f.nextValue ≤ inst.dst), "invalid destination value"),
    (decide (0 ≤ inst.dst) && defined inst.dst, "destination value is already defined")]

/-- The checks made of a call. -/
def callChecks (f : Func) (defined : Int → Bool) (inst : Inst) : List (Bool × String) :=
  let n := inst.imm.toInt
  let given := fun v : Int => decide (0 ≤ v)
  let undefined := fun v : Int => !valueDefined f defined v
  [((inst.symbol.getD "") = "", "call has no symbol"),
    (decide (n < 0), "negative call arg count"),
    (n = 0 && (given inst.a || given inst.b || given inst.c || given inst.d || given inst.e ||
      given inst.f), "zero-argument call has value operands"),
    (n = 1 && (given inst.b || given inst.c || given inst.d || given inst.e || given inst.f),
      "one-argument call has extra value operand"),
    (n = 2 && (given inst.c || given inst.d || given inst.e || given inst.f),
      "two-argument call has extra value operand"),
    (n = 3 && (given inst.d || given inst.e || given inst.f),
      "three-argument call has extra value operand"),
    (n = 4 && (given inst.e || given inst.f), "four-argument call has extra value operand"),
    (n = 5 && given inst.f, "five-argument call has extra value operand"),
    (decide (0 < n) && undefined inst.a, "call arg0 is invalid"),
    (decide (1 < n) && undefined inst.b, "call arg1 is invalid"),
    (decide (2 < n) && undefined inst.c, "call arg2 is invalid"),
    (decide (3 < n) && undefined inst.d, "call arg3 is invalid"),
    (decide (4 < n) && undefined inst.e, "call arg4 is invalid"),
    (decide (5 < n) && undefined inst.f, "call arg5 is invalid"),
    (decide ((callMaxArgs : Int) < n), "call exceeds the maximum supported argument count"),
    (inst.argSizes.isSome && decide (n ≤ 0), "zero-argument call has aggregate argument metadata"),
    ((inst.argSizes.getD []).take n.toNat |>.any argSizeBad, "invalid aggregate argument metadata"),
    (decide (n ≤ 6) && inst.extraArgs ≠ [],
      "call has stray stack-args for a register-only arity"),
    (decide (6 < n) && inst.extraArgs.length ≠ n.toNat - 6,
      "call stack-arg count does not match arity"),
    (decide (6 < n) && inst.extraArgs.any undefined, "call stack-arg is invalid")]

/-- Whether the instruction before position `i` is a call or another capture. -/
def followsCall (f : Func) (i : Nat) : Bool :=
  match i with
  | 0 => false
  | j + 1 => match f.data[j]? with
    | some prev => prev.op = .call || prev.op = .captureRet
    | none => false

/-- The checks made of the instruction at position `i` for its own opcode. -/
def opChecks (f : Func) (defined : Int → Bool) (i : Nat) (inst : Inst) : List (Bool × String) :=
  let undefined := fun v : Int => !valueDefined f defined v
  let noDst := decide (inst.dst < 0)
  let negative := decide (inst.imm.toInt < 0)
  match inst.op.shape with
  | .nop => []
  | .label =>
    [((f.data.take i).any fun prev => prev.op = .label && prev.imm = inst.imm, "duplicate label")]
  | .const => [(noDst, "constant has no destination")]
  | .unary | .loadI64 => [(noDst || undefined inst.a, "invalid unary value operand")]
  | .loadLocal => [(noDst || negative, "invalid local load")]
  | .addrLocal => [(noDst || negative, "invalid local address")]
  | .addrSymbol =>
    [(noDst || (inst.symbol.getD "") = "", "addr.symbol requires a non-empty symbol")]
  | .alloca => [(noDst || negative, "alloca requires a valid destination and positive size")]
  | .copyStruct =>
    [(decide (inst.a < 0) || decide (inst.b < 0) || negative,
      "copy.struct requires valid src, dst, and size")]
  | .captureRet =>
    [(noDst || negative || decide (3 < inst.imm.toInt) || !followsCall f i,
      "capture.ret requires a call/capture chain immediately before it and selector 0..3")]
  | .storeLocal => [(negative || undefined inst.a, "invalid local store")]
  | .storeI64 => [(undefined inst.a || undefined inst.c, "invalid memory store")]
  | .ret => [(decide (0 ≤ inst.a) && undefined inst.a, "invalid return value")]
  | .br => [(!labelExists f inst.imm, "missing branch target label")]
  | .brIf =>
    [(undefined inst.a || !labelExists f inst.imm, "invalid conditional branch operand or target")]
  | .call => callChecks f defined inst
  -- The default case: it asks for both operands and never for a destination.
  | .binary => [(undefined inst.a || undefined inst.b, "invalid value operands")]

/-- Marks the destination of an instruction, when it has one. -/
def markDefined (defined : Int → Bool) (inst : Inst) : Int → Bool :=
  if 0 ≤ inst.dst then Function.update defined inst.dst true else defined

/-- The verifier's loop from position `i` on. -/
def verifyLoop (f : Func) : List Inst → Nat → (Int → Bool) → Except String Unit
  | [], _, _ => .ok ()
  | inst :: rest, i, defined =>
    match firstFailure (commonChecks f defined inst ++ opChecks f defined i inst) with
    | some reason => .error (instErr inst i reason)
    | none => verifyLoop f rest (i + 1) (markDefined defined inst)

/-- The smallest signed 64-bit integer. -/
def int64Min : I64 := BitVec.intMin 64

/-- The constants the constraint scan has seen, by value. -/
abbrev ConstTable := Int → Option I64

/-- The constant an operand is known to be, if it is given and known. -/
def constOf (known : ConstTable) (v : Int) : Option I64 := if 0 ≤ v then known v else none

/-- The constraints on one instruction, given the constants seen so far. -/
def constraintChecks (known : ConstTable) (inst : Inst) : List (Bool × String) :=
  let shift := inst.op = .shlI64 || inst.op = .sarI64
  let divide := inst.op = .divI64 || inst.op = .modI64
  let lhs := constOf known inst.a
  let rhs := constOf known inst.b
  [(inst.range.hasMin && inst.range.hasMax && decide (inst.range.max.toInt < inst.range.min.toInt),
      "range minimum exceeds maximum"),
    (shift && rhs.any fun n => decide (n.toInt < 0) || decide (64 ≤ n.toInt),
      "constant shift amount out of range"),
    (divide && rhs.any fun n => n = 0, "constant divide/modulo by zero"),
    (divide && (lhs.any fun n => n = int64Min) && rhs.any fun n => n = -1,
      "constant signed divide/modulo overflow")]

/-- Records whether the destination of an instruction is a constant. -/
def noteConst (known : ConstTable) (inst : Inst) : ConstTable :=
  if 0 ≤ inst.dst then
    Function.update known inst.dst
      (if inst.op = .constI64 then some inst.imm
      else if inst.op = .copy && decide (0 ≤ inst.a) then known inst.a
      else none)
  else known

/-- The constraint scan from position `i` on. -/
def constraintLoop : List Inst → Nat → ConstTable → Except String Unit
  | [], _, _ => .ok ()
  | inst :: rest, i, known =>
    match firstFailure (constraintChecks known inst) with
    | some reason => .error (instErr inst i reason)
    | none => constraintLoop rest (i + 1) (noteConst known inst)

/-- Rejects shifts and divisions whose constant operands can only fail. -/
def validateConstraints (f : Func) : Except String Unit :=
  constraintLoop f.data 0 fun _ => none

/-- The NYIR verifier. -/
def verify (f : Func) : Except String Unit :=
  if f.nextValue < 0 then .error "native NYIR verify: invalid value count"
  else do
    verifyLoop f f.data 0 fun _ => false
    validateConstraints f

end Nytrix.Nir
