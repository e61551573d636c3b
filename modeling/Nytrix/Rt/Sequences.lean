import Nytrix.Lib.Blocks
import Nytrix.Rt.Math
import Nytrix.Rt.Pools

/-! Lists, tuples and strings in their memory blocks, and the operations that build new ones. -/

namespace Nytrix.Rt.Sequences

open Nytrix.Lib

/-- The memory from which blocks come. -/
structure Allocator where
  /-- Whether a block with a body of so many bytes is given. -/
  grants : Nat → Bool
  /-- Whether there is a slot for a small string. -/
  slots : Bool
  /-- What the words of a block hold that is not cleared. -/
  rest : Nat → BitVec 64

/-- The bytes of the body that a request gets. -/
def Allocator.body (a : Allocator) (size : BitVec 64) : Option Nat :=
  let n := sizeArg size
  if n < 0 then none
  else if a.grants (bodySize n.toNat) then some (bodySize n.toNat)
  else none

/-- A block of words that are not cleared. -/
def Allocator.mallocUninit (a : Allocator) (size : BitVec 64) : Option (Block (BitVec 64)) :=
  (a.body size).map fun bytes => ⟨bytes / 8, a.rest⟩

/-- A block of bytes that are zero. -/
def Allocator.malloc (a : Allocator) (size : BitVec 64) : Option (Block (BitVec 8)) :=
  (a.body size).map fun bytes => ⟨bytes, fun _ => 0⟩

/-- A list or a tuple: the words of its block are the length, the capacity and the items. -/
structure Seq where
  tuple : Bool
  block : Block (BitVec 64)

/-- A string: the word with its length, which stands in the header, and its bytes. -/
structure Str where
  length : BitVec 64
  block : Block (BitVec 8)

/-- What an operation ends with: a write outside a block, nil, or an object. -/
inductive Made (α : Type) where
  | fault
  | nil
  | object (made : α)

/-- What writes end with, one of which may not stay within its block. -/
def Made.ofWrites {α : Type} : Option α → Made α
  | none => .fault
  | some made => .object made

/-- The word at a byte offset into a list. -/
def wordAt (offset : BitVec 64) : Nat := offset.toNat / 8

/-- The items of a list, from the first word behind its length and its capacity. -/
def Seq.items (s : Seq) : Nat → BitVec 64 := fun i => s.block.cells (wordAt 16 + i)

/-- The raw length of a list or a tuple. -/
def seqLenRaw (s : Seq) : BitVec 64 := rawBits (s.block.cells 0)

/-- A new list with room for so many items. -/
def rtListNew (a : Allocator) (nV : BitVec 64) : Made Seq :=
  let n := rawBits nV
  let n := if n.slt 0 then 0 else n
  match a.mallocUninit (16 + n * 8) with
  | none => .nil
  | some block => .ofWrites do
    let block ← block.store 0 1
    let block ← block.store 1 (tagWord n)
    return ⟨false, block⟩

/-- A list with one more item, in its own block or in one of twice the capacity. -/
def rtAppend (a : Allocator) (lst : Seq) (val : BitVec 64) : Made Seq :=
  if lst.tuple then .object lst
  else
    let lenV := lst.block.cells 0
    let n := rawBits lenV
    let cap := rawBits (lst.block.cells 1)
    let finish (block : Block (BitVec 64)) : Option Seq := do
      let block ← block.store (wordAt (16 + n * 8)) val
      let block ← block.store 0 (tagWord (n + 1))
      return ⟨false, block⟩
    if cap.sle n then
      let newCap := if cap = 0 then 8 else cap * 2
      match a.mallocUninit (16 + newCap * 8) with
      | none => .object lst
      | some block => .ofWrites do
        let block ← block.store 0 lenV
        let block ← block.store 1 (tagWord newCap)
        let block ← block.copy (wordAt 16) (wordAt (n * 8)) lst.items
        finish block
    else .ofWrites (finish lst.block)

/-- So many items copied, where there are any. -/
def copyItems (block : Block (BitVec 64)) (place : Nat) (n : BitVec 64) (src : Nat → BitVec 64) :
    Option (Block (BitVec 64)) :=
  if (0 : BitVec 64).slt n then block.copy place (wordAt (n * 8)) src else some block

/-- A list with at least so much capacity. -/
def rtListReserve (a : Allocator) (lst : Seq) (capV : BitVec 64) : Made Seq :=
  let want := rawBits capV
  let lenV := lst.block.cells 0
  let n := rawBits lenV
  let cap := rawBits (lst.block.cells 1)
  if lst.tuple || want.sle 0 || want.sle cap then .object lst
  else match a.mallocUninit (16 + want * 8) with
  | none => .object lst
  | some block => .ofWrites do
    let block ← block.store 0 lenV
    let block ← block.store 1 (tagWord want)
    let block ← copyItems block (wordAt 16) n lst.items
    return ⟨false, block⟩

/-- Two lists or tuples behind each other: a tuple when both are. -/
def rtSeqConcat (a : Allocator) (x y : Seq) : Made Seq :=
  let na := seqLenRaw x
  let nb := seqLenRaw y
  if na.slt 0 || nb.slt 0 || (BitVec.intMax 64 - nb).slt na then .nil
  else
    let total := na + nb
    match rtListNew a (tagWord total) with
    | .fault => .fault
    | .nil => .nil
    | .object out => .ofWrites do
      let block ← copyItems out.block (wordAt 16) na x.items
      let block ← copyItems block (wordAt (16 + na * 8)) nb y.items
      let block ← block.store 0 (tagWord total)
      return ⟨x.tuple && y.tuple, block⟩

/-- The items of a list so many times. -/
def repeatList (a : Allocator) (lst : Seq) (b : BitVec 64) : Made Seq :=
  let count := untagWord b
  let len := seqLenRaw lst
  if count.sle 0 || len.sle 0 then rtListNew a 1
  else
    let total := len * count
    match rtListNew a (tagWord total) with
    | .fault => .fault
    -- The allocation's result is not looked at: the length is written through the null pointer.
    | .nil => .fault
    | .object out => .ofWrites do
      let block ← out.block.store 0 (tagWord total)
      let block ← block.copies (fun i => wordAt (16 + BitVec.ofNat 64 i * len * 8))
        (wordAt (len * 8)) lst.items count.toNat
      return ⟨false, block⟩

/-- A string in a slot for small strings. -/
def rtAllocSmallStringLen (s : Nat → BitVec 8) (len : BitVec 64) : Option Str := do
  let slot : Block (BitVec 8) := ⟨24, fun _ => 0⟩
  let block ← slot.copy 0 len.toNat s
  let block ← block.store len.toNat 0
  return ⟨tagWord len, block⟩

/-- A string of so many bytes. -/
def rtAllocStringLen (a : Allocator) (s : Nat → BitVec 8) (len : BitVec 64) : Made Str :=
  if len ≤ 23 && a.slots then .ofWrites (rtAllocSmallStringLen s len)
  else match a.malloc (tagWord (len + 1)) with
  | none => .nil
  | some block => .ofWrites do
    let block ← block.copy 0 len.toNat s
    let block ← block.store len.toNat 0
    return ⟨tagWord len, block⟩

/-- The bytes of a string so many times. -/
def repeatStr (a : Allocator) (s : Str) (b : BitVec 64) : Made Str :=
  let count := untagWord b
  if count.sle 0 then rtAllocStringLen a (fun _ => 0) 0
  else
    let len := untagWord s.length
    if len.sle 0 then .object s
    else
      let total := len * count
      match a.malloc (tagWord (total + 1)) with
      | none => .nil
      | some block => .ofWrites do
        let block ← block.copies (fun i => (BitVec.ofNat 64 i * len).toNat) len.toNat
          s.block.cells count.toNat
        let block ← block.store total.toNat 0
        return ⟨tagWord total, block⟩

/-- The length of a string as the machine's `int`. -/
def Str.intLen (s : Str) : BitVec 32 := (untagWord s.length).setWidth 32

/-- An `int` as a size. -/
def sizeOfInt (n : BitVec 32) : Nat := (n.signExtend 64).toNat

/-- The bytes of two strings written behind each other, with a zero byte after them. -/
def writeBoth (block : Block (BitVec 8)) (x y : Str) : Option (Block (BitVec 8)) := do
  let la := x.intLen
  let lb := y.intLen
  let block ← block.copy 0 (sizeOfInt la) x.block.cells
  let block ← block.copy (sizeOfInt la) (sizeOfInt lb) y.block.cells
  block.store (sizeOfInt (la + lb)) 0

/-- Two strings behind each other. -/
def rtStrConcat (a : Allocator) (x y : Str) : Made Str :=
  let total := x.intLen + y.intLen
  if total.sle 23 then
    match writeBoth ⟨24, fun _ => 0⟩ x y with
    | none => .fault
    | some small => rtAllocStringLen a small.cells (total.signExtend 64)
  else match a.malloc ((((total + 1) <<< 1) ||| 1).signExtend 64) with
  | none => .nil
  | some block => .ofWrites do
    let block ← writeBoth block x y
    return ⟨((total <<< 1) ||| 1).signExtend 64, block⟩

/-- An operand of addition and multiplication: a small integer, a string, a list or a tuple. -/
inductive Operand where
  | int (word : BitVec 64)
  | str (s : Str)
  | seq (s : Seq)

/-- A result as an operand. -/
def Made.map {α β : Type} (f : α → β) : Made α → Made β
  | .fault => .fault
  | .nil => .nil
  | .object made => .object (f made)

/-- Addition of two strings, or of two lists or tuples; nothing for other operands. -/
def rtAdd (a : Allocator) : Operand → Operand → Option (Made Operand)
  | .str x, .str y => some ((rtStrConcat a x y).map .str)
  | .seq x, .seq y => some ((rtSeqConcat a x y).map .seq)
  | _, _ => none

/-- Multiplication of a string or a list and an integer; nothing for other operands. -/
def rtMul (a : Allocator) : Operand → Operand → Option (Made Operand)
  | .str s, .int b => some ((repeatStr a s b).map .str)
  | .int b, .str s => some ((repeatStr a s b).map .str)
  | .seq s, .int b => if s.tuple then none else some ((repeatList a s b).map .seq)
  | .int b, .seq s => if s.tuple then none else some ((repeatList a s b).map .seq)
  | _, _ => none

end Nytrix.Rt.Sequences
