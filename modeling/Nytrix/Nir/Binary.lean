import Nytrix.Nir.RefreshLaws
import Nytrix.Lib.Wire

/-! The binary form of a function: its writer, and its loader for all versions of the format. -/

namespace Nytrix.Nir

open Nytrix.Lib

/-- The opcodes in the order of their numbers. -/
def allOps : List Op :=
  [.nop, .constI64, .copy, .addI64, .subI64, .mulI64, .divI64, .modI64, .andI64, .orI64, .xorI64,
    .shlI64, .sarI64, .cmpI64, .label, .loadLocal, .storeLocal, .call, .ret, .br, .brIf, .constF64,
    .addF64, .subF64, .mulF64, .divF64, .i64ToF64, .cmpF64, .constF32, .addF32, .subF32, .mulF32,
    .divF32, .i64ToF32, .f64ToF32, .f32ToF64, .cmpF32, .addrLocal, .loadI64, .storeI64, .addrSymbol,
    .alloca, .copyStruct, .captureRet]

/-- The comparison predicates in the order of their numbers. -/
def allCmps : List Cmp := [.eq, .ne, .lt, .le, .gt, .ge]

/-- The number of an opcode. -/
def Op.code (op : Op) : Nat := allOps.idxOf op

/-- The number of a comparison predicate. -/
def Cmp.code (cmp : Cmp) : Nat := allCmps.idxOf cmp

/-- A signed 32-bit field. -/
def writeI32 (v : Int) : List UInt8 := leBytes 4 (BitVec.ofInt 32 v).toNat

/-- An unsigned 32-bit field. -/
def writeU32 (v : BitVec 32) : List UInt8 := leBytes 4 v.toNat

/-- A 64-bit field. -/
def writeI64 (v : I64) : List UInt8 := leBytes 8 v.toNat

/-- A one-byte flag. -/
def writeFlag (flag : Bool) : List UInt8 := leBytes 1 (if flag then 1 else 0)

/-- A string with its length ahead, an absent one being empty. -/
def writeStr (text : Option String) : List UInt8 :=
  let n := (text.getD "").length % 2 ^ 32
  leBytes 4 n ++ (stringBytes (text.getD "")).take n

/-- The metadata of an instruction. -/
def writeMeta (inst : Inst) : List UInt8 :=
  writeU32 inst.effects ++ (writeU32 inst.debug.line ++ (writeU32 inst.debug.column ++
    (writeFlag inst.range.hasMin ++ (writeFlag inst.range.hasMax ++ (writeI64 inst.range.min ++
    (writeI64 inst.range.max ++ writeStr inst.debug.file))))))

/-- The arguments of a call beyond the sixth. -/
def writeExtra (args : List Int) : List UInt8 :=
  leBytes 4 args.length ++ args.flatMap writeI32

/-- The aggregate metadata of a call, as many entries as it has arguments. -/
def writeArgSizes (imm : I64) : Option (List (BitVec 32)) → List UInt8
  | none => leBytes 4 0
  | some sizes => leBytes 4 imm.toNat ++ (sizes.take (imm.toNat % 2 ^ 32)).flatMap writeU32

/-- The record of one instruction. -/
def writeInst (inst : Inst) : List UInt8 :=
  leBytes 2 inst.op.code ++ (leBytes 2 inst.cmp.code ++ (writeI32 inst.dst ++ (writeI32 inst.a ++
    (writeI32 inst.b ++ (writeI32 inst.c ++ (writeI32 inst.d ++ (writeI32 inst.e ++
    (writeI32 inst.f ++ (writeI64 inst.imm ++ (writeU32 inst.flags ++ (writeMeta inst ++
    (writeStr inst.symbol ++ (writeExtra inst.extraArgs ++
    writeArgSizes inst.imm inst.argSizes)))))))))))))

/-- Whether the writer refuses an instruction, whose aggregate metadata is not a call's. -/
def argSizesMisplaced (inst : Inst) : Bool :=
  inst.argSizes.isSome && (inst.op ≠ .call || decide (inst.imm.toInt ≤ 0) ||
    decide ((callMaxArgs : Int) < inst.imm.toInt))

/-- The four bytes every binary starts with. -/
def magic : List UInt8 := stringBytes "NYIR"

/-- The header of the current version. -/
def writeHeader (f : Func) (name : String) : List UInt8 :=
  magic ++ (leBytes 2 7 ++ (leBytes 2 0 ++ (writeStr (some (if name = "" then "<anon>" else name)) ++
    (writeI32 f.nextValue ++ leBytes 4 f.data.length))))

/-- The writer; it fails at an instruction that it refuses. -/
def dumpBinary (f : Func) (name : String) : Option (List UInt8) :=
  if f.data.any argSizesMisplaced then none
  else some (writeHeader f name ++ f.data.flatMap writeInst)

/-- The message for everything that is not a binary. -/
def malformed : String := "native NYIR load: malformed binary dump"

/-- The loader's computations. -/
abbrev Load := Reader String

/-- Stops the loader with a message. -/
def refuse {α : Type} (text : String) : Load α := fun _ => .error text

/-- A signed 32-bit field. -/
def readI32 : Load Int := do
  let n ← readLe malformed 4
  return (BitVec.ofNat 32 n).toInt

/-- An unsigned 32-bit field. -/
def readU32 : Load (BitVec 32) := do
  let n ← readLe malformed 4
  return BitVec.ofNat 32 n

/-- A 64-bit field. -/
def readI64 : Load I64 := do
  let n ← readLe malformed 8
  return BitVec.ofNat 64 n

/-- A one-byte flag. -/
def readFlag : Load Bool := do
  let n ← readLe malformed 1
  return n ≠ 0

/-- A string of bounded length. -/
def readStr (maxLen : Nat) : Load String := do
  let n ← readLe malformed 4
  if maxLen < n then refuse malformed
  else
    let bytes ← readBytes malformed n
    return cString bytes

/-- A string as an instruction keeps it, absent when it is empty. -/
def ownText (text : String) : Option String := if text = "" then none else some text

/-- The metadata of an instruction. -/
structure Meta where
  effects : BitVec 32 := 0
  debug : DebugLoc := {}
  range : Range := {}

/-- The metadata that a record has since the second version. -/
def readMeta : Load Meta := do
  let effects ← readU32
  let line ← readU32
  let column ← readU32
  let hasMin ← readFlag
  let hasMax ← readFlag
  let min ← readI64
  let max ← readI64
  let file ← readStr 4096
  return ⟨effects, ⟨ownText file, line, column⟩, ⟨hasMin, hasMax, min, max⟩⟩

/-- The arguments of a call beyond the sixth. -/
def readExtra : Load (List Int) := do
  let n ← readLe malformed 4
  if callMaxArgs < n then refuse malformed
  else readMany readI32 n

/-- One entry of the aggregate metadata, to which the older form gives the memory class. -/
def readArgSize (version : Nat) : Load (BitVec 32) := do
  let packed ← readU32
  return if version < 7 && packed ≠ 0 then (packed &&& 0x00ffffff) ||| (3 <<< 24) else packed

/-- The aggregate metadata of a call. -/
def readArgSizes (version op : Nat) (imm : I64) : Load (Option (List (BitVec 32))) := do
  let n ← readLe malformed 4
  if n ≠ 0 && (op ≠ Op.call.code || decide (imm.toInt ≤ 0) || n ≠ imm.toNat % 2 ^ 32 ||
      decide (callMaxArgs < n)) then refuse malformed
  else if n = 0 then return none
  else
    let sizes ← readMany (readArgSize version) n
    return some sizes

/-- The record of one instruction. -/
def readInst (version : Nat) : Load Inst := do
  let op ← readLe malformed 2
  let cmp ← readLe malformed 2
  let dst ← readI32
  let a ← readI32
  let b ← readI32
  let c ← readIf (3 ≤ version) readI32 (-1)
  let d ← readIf (3 ≤ version) readI32 (-1)
  let e ← readIf (4 ≤ version) readI32 (-1)
  let f ← readIf (4 ≤ version) readI32 (-1)
  let imm ← readI64
  let flags ← readU32
  let details ← readIf (2 ≤ version) readMeta {}
  let symbol ← readStr 4096
  let extraArgs ← readIf (5 ≤ version) readExtra []
  let argSizes ← readIf (6 ≤ version) (readArgSizes version op imm) none
  match allOps[op]?, allCmps[cmp]? with
  | some op, some cmp =>
    return { op, dst, a, b, c, d, e, f, imm, cmp, symbol := ownText symbol, flags,
             effects := details.effects, debug := details.debug, range := details.range,
             extraArgs, argSizes }
  | _, _ => refuse malformed

/-- The size of the source's instruction structure under the 64-bit convention. -/
def instSize : Nat := 128

/-- A number in hexadecimal digits. -/
def hexDigits (n : Nat) : String := String.ofList (Nat.toDigits 16 n)

/-- Everything up to the instructions: the version, the name, and the two counts. -/
def readHeader : Load (Nat × String × Int × Nat) := do
  let start ← readBytes malformed 4
  if start ≠ magic then refuse malformed
  else
    let version ← readLe malformed 2
    let flags ← readLe malformed 2
    if version < 1 || 7 < version then
      refuse ("native NYIR load: unsupported version " ++ toString version)
    else if flags ≠ 0 then refuse ("native NYIR load: unsupported flags 0x" ++ hexDigits flags)
    else
      let name ← readStr 1024
      let nextValue ← readI32
      let count ← readLe malformed 4
      if nextValue < 0 then refuse malformed
      -- The limit is cut to 32 bits before the comparison.
      else if ((2 ^ 64 - 1) / instSize) % 2 ^ 32 < count then
        refuse "native NYIR load: instruction count too large"
      else return (version, name, nextValue, count)

/-- The name and the function a binary holds, before any check of its instructions. -/
def readFunc : Load (String × Func) := do
  let (version, name, nextValue, count) ← readHeader
  let data ← readMany (readInst version) count
  return (name, { data, nextValue })

/-- What the loader is given to write to: a function, a name and an error text. -/
structure LoadSlots where
  func : Func := {}
  name : String := ""
  err : String := ""

/-- A name cut to the room there is for it. -/
def cutName (nameLen : Nat) (name : String) : String := String.ofList (name.toList.take (nameLen - 1))

/-- The loader; it answers whether it succeeded, and what is in its slots afterwards. -/
def loadBinary (nameLen : Nat) (bytes : List UInt8) (slots : LoadSlots) : Bool × LoadSlots :=
  match readFunc bytes with
  | .error text => (false, { slots with err := text })
  | .ok ((name, f), _) => match verify f with
    | .error text => (false, { slots with err := text })
    | .ok () =>
      (true, { func := refreshMetadata f
               name := if nameLen = 0 then slots.name else cutName nameLen name
               err := "" })

end Nytrix.Nir
