import Nytrix.Rt.Classify

/-! Allocation: pools of freed blocks, raw blocks, boxed floats, small strings; runs with tests. -/

namespace Nytrix.Rt

open Nytrix.Lib

/-- The source files of the runtime. -/
inductive RtFile where
  | ast | bigint | core | ffi | ffigates | gc | math | memory | os | proof | simmd | string
  deriving DecidableEq

/-- The state of a thread of the runtime. -/
structure RtState (U : Type) where
  mem : Mem
  heapPtr : DirectCache := DirectCache.empty
  units : U → UnitCaches := fun _ => {}
  pools : Nat → Nat := fun _ => 0
  fltCache : Nat := 0
  ssoStrings : Nat := 0

/-- What the C library does: the block it gives, zero for none, and the memory it leaves. -/
structure Given where
  block : Nat
  mem : Mem

/-- The sizes of the blocks in the pools. -/
def poolSizes : List Nat := [32, 64, 128, 256, 512, 1024, 2048, 4096]

/-- The pool for blocks of so many bytes, if there is one. -/
def nyMemPoolSlot (total : Nat) : Option Nat := poolSizes.findIdx? (total ≤ ·)

/-- Whether an allocated block is one that a program may use. -/
def usable (m : Mem) (block n : Nat) : Bool :=
  0x1000 ≤ block && block + n ≤ 2 ^ 63 && m.covers block n

/-- Writes bytes; a page that is not mapped stops the program. -/
def Mem.put (m : Mem) (p : Nat) (bytes : List (BitVec 8)) : Option Mem :=
  if m.covers p bytes.length then some (m.write p bytes) else none

/-- Writes a word. -/
def Mem.putWord (m : Mem) (p w : Nat) : Option Mem := m.put p (wordBytes w)

/-- Reads a word; a page that is not mapped stops the program. -/
def Mem.getWord (m : Mem) (p : Nat) : Option Nat :=
  if m.covers p 8 then some (m.word p) else none

/-- The number in an argument, tagged or not. -/
def sizeArg (size : BitVec 64) : Int :=
  if size.toNat % 2 = 1 then size.toInt / 2 else size.toInt

/-- The size of a block with so large a body. -/
def bodySize (n : Nat) : Nat := (n + 15) / 16 * 16

section Units

variable {U : Type} [DecidableEq U] (unitOf : RtFile → U)

namespace RtState

/-- The caches that a source file sees. -/
def view (s : RtState U) (file : RtFile) : Caches := ⟨s.heapPtr, s.units (unitOf file)⟩

/-- The state with the caches that a source file leaves. -/
def leave (s : RtState U) (file : RtFile) (c : Caches) : RtState U :=
  { s with
    heapPtr := c.heapPtr
    units := fun u => if u = unitOf file then c.unit else s.units u }

/-- A test in a source file. -/
def probe (s : RtState U) (file : RtFile) (test : Mem → Caches → BitVec 64 → Option (Bool × Caches))
    (v : BitVec 64) : Option (Bool × RtState U) :=
  (test s.mem (s.view unitOf file) v).map fun answer => (answer.1, s.leave unitOf file answer.2)

/-- A block from its pool, or else from the C library, with the size it has in memory. -/
def takeBlock (s : RtState U) (total : Nat) (given : Given) : Option (Nat × Nat × RtState U) :=
  match nyMemPoolSlot total with
  | none => some (given.block, total, { s with mem := given.mem })
  | some slot =>
    let size := poolSizes.getD slot 0
    if s.pools slot ≠ 0 then do
      let next ← s.mem.getWord (s.pools slot)
      return (s.pools slot, size, { s with pools := Function.update s.pools slot next })
    else some (given.block, size, { s with mem := given.mem })

/--
A block with its header, for a body of so many bytes; zeroed first or not.

A block that was given and not taken back stays mapped: there is no run in which it is not.
-/
def mallocWith (zeroed : Bool) (s : RtState U) (size : BitVec 64) (given : Given) :
    Option (Nat × RtState U) :=
  let n := sizeArg size
  if n < 0 then some (0, s)
  else
    let body := bodySize n.toNat
    match s.takeBlock (body + 32) given with
    | none => none
    | some (block, fill, s) =>
      if block = 0 then some (0, s)
      else if !usable s.mem block fill then none
      else do
        let m := if zeroed then s.mem.zero block fill else s.mem
        let m ← m.putWord block magic1
        let m ← m.putWord (block + 8) (body * 2 + 1)
        let s := { s with mem := m }
        return (block + 32,
          s.leave unitOf .memory (rtHeapPtrCacheStore (s.view unitOf .memory) (block + 32)))

/-- Allocates a heap object with a body of zeros. -/
def rtMalloc (s : RtState U) (size : BitVec 64) (given : Given) : Option (Nat × RtState U) :=
  s.mallocWith unitOf true size given

/-- Allocates a heap object and leaves its body as it is. -/
def rtMallocUninit (s : RtState U) (size : BitVec 64) (given : Given) : Option (Nat × RtState U) :=
  s.mallocWith unitOf false size given

/-- Allocates a block without a header. -/
def rtMallocRaw (s : RtState U) (given : Given) : Nat × RtState U :=
  let s := { s with mem := given.mem }
  if given.block = 0 then (0, s)
  else
    let c := s.view unitOf .memory
    (given.block,
      s.leave unitOf .memory { c with unit := rtHeapPtrNegCacheStore c.unit given.block })

/-- Gives back a boxed float. -/
def rtFltFree (s : RtState U) (v : BitVec 64) : Option (RtState U) :=
  if v = 0 then some s
  else do
    let c := s.view unitOf .math
    let s := s.leave unitOf .math { c with unit := rtFloatCacheForget c.unit v.toNat }
    let slot := (v - 8).toNat
    let m ← s.mem.putWord slot s.fltCache
    return { s with mem := m, fltCache := slot }

/-- What a word is that is to be freed. -/
inductive Kind where
  | heap | float | other
  deriving DecidableEq

/-- Tells what a word to be freed is. -/
def freeKind (s : RtState U) (ptr : BitVec 64) : Option (Kind × RtState U) := do
  let first ← s.probe unitOf .memory isValidHeapPtr ptr
  let heap ← first.2.probe unitOf .memory isValidHeapPtr ptr
  if heap.1 then return (.heap, heap.2)
  else
    let float ← heap.2.probe unitOf .memory isVFlt ptr
    return (if float.1 then .float else .other, float.2)

/-- Gives back a heap object: to its pool, or else to the C library with the memory that leaves. -/
def freeBlock (s : RtState U) (ptr : BitVec 64) (freed : Mem) : Option (RtState U) := do
  let s := s.leave unitOf .memory (rtHeapPtrCacheForget (s.view unitOf .memory) ptr.toNat)
  let base := ptr.toNat - 32
  let word ← s.mem.getWord (base + 8)
  let body := if word % 2 = 1 then word / 2 else word
  match nyMemPoolSlot ((bodySize body + 32) % 2 ^ 64) with
  | some slot =>
    let m ← s.mem.putWord base (s.pools slot)
    return { s with mem := m, pools := Function.update s.pools slot base }
  | none => return { s with mem := freed }

/-- Gives back what was told to be of a kind. -/
def freeAs (s : RtState U) (kind : Kind) (ptr : BitVec 64) (freed : Mem) : Option (RtState U) :=
  match kind with
  | .heap => s.freeBlock unitOf ptr freed
  | .float => s.rtFltFree unitOf ptr
  | .other => some s

/-- Gives back a heap object or a boxed float, and leaves every other word. -/
def rtFree (s : RtState U) (ptr : BitVec 64) (freed : Mem) : Option (RtState U) :=
  match s.freeKind unitOf ptr with
  | none => none
  | some (kind, s) => s.freeAs unitOf kind ptr freed

/-- Gives back a block without a header. -/
def rtFreeRaw (s : RtState U) (ptr : BitVec 64) (freed : Mem) : RtState U :=
  if ptr = 0 then s
  else
    let s := s.leave unitOf .memory (rtHeapPtrCacheForget (s.view unitOf .memory) ptr.toNat)
    { s with mem := freed }

/-- Makes a chunk the list of its slots, from a slot on. -/
def carve (m : Mem) (chunk : Nat) : Nat → Option Mem
  | 0 => some m
  | n + 1 => do
    let m ← m.putWord (chunk + (255 - (n + 1)) * 16) (chunk + (255 - n) * 16)
    carve m chunk n

/-- Fills the list of slots for floats when it is empty. -/
def refill (s : RtState U) (given : Given) : Option (RtState U) :=
  if s.fltCache ≠ 0 then some s
  else do
    let chunk ← s.rtMalloc unitOf 8193 given
    if chunk.1 = 0 then return chunk.2
    else
      let m ← carve chunk.2.mem chunk.1 255
      let m ← m.putWord (chunk.1 + 255 * 16) 0
      return { chunk.2 with mem := m, fltCache := chunk.1 }

/-- Takes the first slot for a float and boxes the bits of one there. -/
def boxSlot (s : RtState U) (bits : BitVec 64) : Option (Nat × RtState U) :=
  if s.fltCache = 0 then some (0, s)
  else do
    let slot := s.fltCache
    let next ← s.mem.getWord slot
    let m ← s.mem.putWord slot tagFloat
    let m ← m.putWord (slot + 8) bits.toNat
    let s := { s with mem := m, fltCache := next }
    let c := s.view unitOf .math
    return (slot + 8, s.leave unitOf .math { c with unit := rtFloatCacheStore c.unit (slot + 8) })

/-- Boxes the bits of a float. -/
def rtFltBoxVal (s : RtState U) (bits : BitVec 64) (given : Given) : Option (Nat × RtState U) := do
  let s ← s.refill unitOf given
  s.boxSlot unitOf bits

omit [DecidableEq U] in
/-- Whether there is no block of small strings with a slot left. -/
def ssoFull (s : RtState U) : Option Bool :=
  if s.ssoStrings = 0 then some true
  else (s.mem.getWord (s.ssoStrings + 8)).map fun used => 1024 ≤ used

omit [DecidableEq U] in
/-- Puts a new block of small strings, all zeros, before the others. -/
def ssoGrow (s : RtState U) (given : Given) : Option (RtState U) :=
  if !usable given.mem given.block (16 + 1024 * 56) then none
  else do
    let m := given.mem.zero given.block (16 + 1024 * 56)
    let m ← m.putWord given.block s.ssoStrings
    return { s with mem := m, ssoStrings := given.block }

omit [DecidableEq U] in
/-- Writes a small string into the next slot of the first block. -/
def ssoWrite (s : RtState U) (bytes : List (BitVec 8)) : Option (Nat × RtState U) := do
  let block := s.ssoStrings
  let used ← s.mem.getWord (block + 8)
  let m ← s.mem.putWord (block + 8) (used + 1)
  let slot := block + 16 + used * 56
  let m ← m.putWord slot 0
  let m ← m.putWord (slot + 8) 0
  let m ← m.putWord (slot + 16) (bytes.length * 2 + 1)
  let m ← m.putWord (slot + 24) tagStr
  let m ← m.put (slot + 32) bytes
  let m ← m.put (slot + 32 + bytes.length) [0]
  return (slot + 32, { s with mem := m })

omit [DecidableEq U] in
/-- Allocates a small string; the C library is asked when no block has a slot left. -/
def rtAllocSmallStringLen (s : RtState U) (bytes : List (BitVec 8)) (given : Given) :
    Option (Nat × RtState U) :=
  if 23 < bytes.length then some (0, s)
  else do
    let full ← s.ssoFull
    if full && given.block = 0 then return (0, { s with mem := given.mem })
    else
      let s ← if full then s.ssoGrow given else some s
      s.ssoWrite bytes

end RtState

/-- What a run does next: a test in a source file, an allocation, or the end of one. -/
inductive RtOp where
  | heap (file : RtFile) (v : BitVec 64)
  | flt (file : RtFile) (v : BitVec 64)
  | str (file : RtFile) (v : BitVec 64)
  | malloc (size : BitVec 64) (given : Given)
  | mallocUninit (size : BitVec 64) (given : Given)
  | mallocRaw (given : Given)
  | free (ptr : BitVec 64) (freed : Mem)
  | freeRaw (ptr : BitVec 64) (freed : Mem)
  | fltBox (bits : BitVec 64) (given : Given)
  | fltFree (v : BitVec 64)
  | smallString (bytes : List (BitVec 8)) (given : Given)

/-- The state that an operation leaves, if the program does not stop in it. -/
def RtOp.exec (s : RtState U) : RtOp → Option (RtState U)
  | .heap file v => (s.probe unitOf file isValidHeapPtr v).map Prod.snd
  | .flt file v => (s.probe unitOf file isVFlt v).map Prod.snd
  | .str file v => (s.probe unitOf file isVStr v).map Prod.snd
  | .malloc size given => (s.rtMalloc unitOf size given).map Prod.snd
  | .mallocUninit size given => (s.rtMallocUninit unitOf size given).map Prod.snd
  | .mallocRaw given => some (s.rtMallocRaw unitOf given).2
  | .free ptr freed => s.rtFree unitOf ptr freed
  | .freeRaw ptr freed => some (s.rtFreeRaw unitOf ptr freed)
  | .fltBox bits given => (s.rtFltBoxVal unitOf bits given).map Prod.snd
  | .fltFree v => s.rtFltFree unitOf v
  | .smallString bytes given => (s.rtAllocSmallStringLen bytes given).map Prod.snd

/-- The state after a run. -/
def rtRun (s : RtState U) : List RtOp → Option (RtState U)
  | [] => some s
  | op :: ops => do rtRun (← op.exec unitOf s) ops

end Units

end Nytrix.Rt
