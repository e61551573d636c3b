import Nytrix.Lib.DirectCache
import Mathlib.Algebra.Order.Ring.Int

/-! How the runtime tells what a word is: the words it reads at an address, and the caches before. -/

namespace Nytrix.Rt

open Nytrix.Lib

/-- Memory: the byte at each address, and which pages can be read and written, by their number. -/
structure Mem where
  byte : Nat → BitVec 8
  mapped : Nat → Bool

namespace Mem

/-- Whether all pages that some bytes lie on are mapped, within the address space. -/
def covers (m : Mem) (p n : Nat) : Bool :=
  p + n ≤ 2 ^ 64 && (List.range' (p / 4096) ((p + n - 1) / 4096 + 1 - p / 4096)).all m.mapped

/-- The word of eight bytes at an address, the lowest byte first. -/
def word (m : Mem) (p : Nat) : Nat :=
  ((List.range 8).map fun i => (m.byte (p + i)).toNat * 256 ^ i).sum

/-- Memory with other bytes from an address on. -/
def write (m : Mem) (p : Nat) (bytes : List (BitVec 8)) : Mem :=
  { m with byte := fun a => if p ≤ a ∧ a < p + bytes.length then bytes.getD (a - p) 0 else m.byte a }

/-- Memory with zeros from an address on. -/
def zero (m : Mem) (p n : Nat) : Mem :=
  { m with byte := fun a => if p ≤ a ∧ a < p + n then 0 else m.byte a }

end Mem

/-- The bytes of a word, the lowest first. -/
def wordBytes (w : Nat) : List (BitVec 8) :=
  (List.range 8).map fun i => BitVec.ofNat 8 (w / 256 ^ i)

/-- The first word of the header of a heap object. -/
def magic1 : Nat := 0x545249584E5954

/-- The tag of a boxed float. -/
def tagFloat : Nat := 110

/-- The tag of a string. -/
def tagStr : Nat := 120

/-- The tag of a constant string. -/
def tagStrConst : Nat := 121

/-- The page that an address lies on, by the address of its first byte. -/
def pageBase (p : Nat) : Nat := p - p % 4096

/-- The mix of the bits of a pointer that its slots are taken from. -/
def ptrMix (p : Nat) : Nat := (p >>> 4) ^^^ (p >>> 12) ^^^ (p >>> 21)

/-- The slot of a pointer in the cache of heap pointers. -/
def heapPtrSlot (p : Nat) : Nat := ptrMix p % 2 ^ 13

/-- The slot of a pointer in the other caches of pointers. -/
def ptrSlot (p : Nat) : Nat := ptrMix p % 2 ^ 12

/-- The slot of a page in the caches of pages. -/
def pageSlot (pg : Nat) : Nat := ((pg >>> 12) ^^^ (pg >>> 21) ^^^ (pg >>> 30)) % 2 ^ 11

/--
The caches that each translation unit has of its own.

What is no heap pointer, constant strings and what is no string, floats and what is no float; then
pages that could be read: the last ones of the heap test, the last ones of the header test with its
table, and the last one of the plain test with its table.
-/
structure UnitCaches where
  negHeap : DirectCache := DirectCache.empty
  constStr : DirectCache := DirectCache.empty
  nonStr : DirectCache := DirectCache.empty
  float : DirectCache := DirectCache.empty
  nonFloat : DirectCache := DirectCache.empty
  lastHdr : Nat × Nat := (0, 0)
  lastHdrPages : Nat × Nat := (0, 0)
  hdrPages : DirectCache := DirectCache.empty
  lastPage : Nat := 0
  pages : DirectCache := DirectCache.empty

/-- The caches that a test sees: the shared one of heap pointers, and those of its unit. -/
structure Caches where
  heapPtr : DirectCache
  unit : UnitCaches

/-- Puts a page into a table of pages, and a second one when the bytes lie on two. -/
def storePages (c : DirectCache) (pg1 pg2 : Nat) : DirectCache :=
  let c := c.store pageSlot pg1
  if pg2 ≠ pg1 then c.store pageSlot pg2 else c

/-- Whether a range of addresses is one that a test looks at. -/
def inRange (p n : Nat) : Bool := 0x1000 ≤ p && n ≠ 0 && p ≤ 2 ^ 64 - 1 - n

/-- Whether bytes can be read, as the system tells. -/
def rtAddrMapped (m : Mem) (p n : Nat) : Bool := inRange p n && m.covers p n

/-- Whether bytes can be read, by the last page and the table of pages before the system. -/
def rtAddrReadable (m : Mem) (u : UnitCaches) (p n : Nat) : Bool × UnitCaches :=
  let pg1 := pageBase p
  let pg2 := pageBase (p + n - 1)
  if !inRange p n then (false, u)
  else if pg1 = u.lastPage ∧ pg1 = pg2 then (true, u)
  else if u.pages.hit pageSlot pg1 && (pg1 = pg2 || u.pages.hit pageSlot pg2) then
    (true, { u with lastPage := pg1 })
  else if !rtAddrMapped m p n then (false, u)
  else (true, { u with lastPage := pg1, pages := storePages u.pages pg1 pg2 })

/-- Reads a word when it can be read; a page that is told readable and is not stops the program. -/
def rtTryReadI64 (m : Mem) (u : UnitCaches) (p : Nat) : Option (Option Nat × UnitCaches) :=
  let ok := rtAddrReadable m u p 8
  if !ok.1 then some (none, ok.2)
  else if m.covers p 8 then some (some (m.word p), ok.2)
  else none

/-- Whether the pages of a header are known to be readable. -/
def rtReadableHdrCacheHit (u : UnitCaches) (p n : Nat) : Bool × UnitCaches :=
  let pg1 := pageBase p
  let pg2 := pageBase (p + n - 1)
  if !inRange p n then (false, u)
  else if u.lastHdrPages = (pg1, pg2) then (true, u)
  else if !u.hdrPages.hit pageSlot pg1 then (false, u)
  else if pg2 ≠ pg1 ∧ !u.hdrPages.hit pageSlot pg2 then (false, u)
  else (true, { u with lastHdrPages := (pg1, pg2) })

/-- Records that the pages of a header are readable. -/
def rtReadableHdrCacheStore (u : UnitCaches) (p n : Nat) : UnitCaches :=
  if !inRange p n then u
  else { u with hdrPages := storePages u.hdrPages (pageBase p) (pageBase (p + n - 1)) }

/-- Whether a header can be read. -/
def rtHeaderReadableCached (m : Mem) (u : UnitCaches) (p n : Nat) : Bool × UnitCaches :=
  let known := rtReadableHdrCacheHit u p n
  if known.1 then (true, known.2)
  else
    let ok := rtAddrReadable m known.2 p n
    if !ok.1 then (false, ok.2) else (true, rtReadableHdrCacheStore ok.2 p n)

/-- Whether the header of a heap object can be read, by the pages of the last one first. -/
def headerReadable (m : Mem) (u : UnitCaches) (hdr : Nat) : Bool × UnitCaches :=
  let pgs := (pageBase hdr, pageBase (hdr + 31))
  if pgs = u.lastHdr then (true, u)
  else
    let ok := rtHeaderReadableCached m u hdr 32
    if !ok.1 then (false, ok.2) else (true, { ok.2 with lastHdr := pgs })

/-- Records a heap pointer. -/
def rtHeapPtrCacheStore (c : Caches) (p : Nat) : Caches where
  heapPtr := c.heapPtr.store heapPtrSlot p
  unit := { c.unit with negHeap := c.unit.negHeap.clear ptrSlot p }

/-- Forgets a heap pointer, and whatever is at its slots. -/
def rtHeapPtrCacheForget (c : Caches) (p : Nat) : Caches where
  heapPtr := c.heapPtr.clear heapPtrSlot p
  unit := { c.unit with negHeap := c.unit.negHeap.clear ptrSlot p }

/-- Records that a word is no heap pointer. -/
def rtHeapPtrNegCacheStore (u : UnitCaches) (p : Nat) : UnitCaches :=
  { u with negHeap := u.negHeap.store ptrSlot p }

/-- Records a constant string. -/
def rtConstStrCacheStore (u : UnitCaches) (p : Nat) : UnitCaches :=
  { u with constStr := u.constStr.store ptrSlot p, nonStr := u.nonStr.clear ptrSlot p }

/-- Records that a word is no string. -/
def rtNonStrCacheStore (u : UnitCaches) (p : Nat) : UnitCaches :=
  { u with nonStr := u.nonStr.store ptrSlot p }

/-- Records a float. -/
def rtFloatCacheStore (u : UnitCaches) (p : Nat) : UnitCaches :=
  { u with float := u.float.store ptrSlot p, nonFloat := u.nonFloat.clear ptrSlot p }

/-- Records that a word is no float. -/
def rtNonFloatCacheStore (u : UnitCaches) (p : Nat) : UnitCaches :=
  { u with nonFloat := u.nonFloat.store ptrSlot p, float := u.float.clear ptrSlot p }

/-- Forgets what is recorded of a float. -/
def rtFloatCacheForget (u : UnitCaches) (p : Nat) : UnitCaches :=
  { u with float := u.float.forget ptrSlot p, nonFloat := u.nonFloat.forget ptrSlot p }

/-- Whether a word is a pointer by its bits. -/
def isPtr (v : BitVec 64) : Bool := v.toNat % 2 = 0 && 0x1000 < v.toNat

/-- Whether a word is a native pointer by its bits. -/
def isNative (v : BitVec 64) : Bool := v.toNat % 8 = 6

/-- A pointer without its tag bits. -/
def rtMaskPtr (v : BitVec 64) : BitVec 64 := v &&& ~~~7#64

/-- Whether a word is a pointer to a heap object; `none` when the program stops. -/
def isValidHeapPtr (m : Mem) (c : Caches) (v : BitVec 64) : Option (Bool × Caches) :=
  let p := v.toNat
  if ¬ (0x1000 < v.toInt ∧ p % 16 = 0) then some (false, c)
  else if c.heapPtr.hit heapPtrSlot p then some (true, c)
  else if c.unit.negHeap.hit ptrSlot p then some (false, c)
  else
    let seen := headerReadable m c.unit (p - 32)
    if !seen.1 then some (false, { c with unit := rtHeapPtrNegCacheStore seen.2 p })
    else
      match rtTryReadI64 m seen.2 (p - 32) with
      | none => none
      | some (none, u) => some (false, { c with unit := rtHeapPtrNegCacheStore u p })
      | some (some m1, u) =>
        if m1 ≠ magic1 then some (false, { c with unit := rtHeapPtrNegCacheStore u p })
        else some (true, rtHeapPtrCacheStore { c with unit := u } p)

/-- The heap object that a word points to, with or without tag bits; zero when there is none. -/
def rtHeapObjectPtr (m : Mem) (c : Caches) (v : BitVec 64) : Option (BitVec 64 × Caches) :=
  let object : BitVec 64 → Option (BitVec 64 × Caches) := fun base =>
    (isValidHeapPtr m c base).map fun answer => (if answer.1 then base else 0, answer.2)
  if v = 0 ∨ isNative v then some (0, c)
  else if isPtr v && v.toNat % 8 = 0 then object v
  else if (rtMaskPtr v).toNat ≤ 0x1000 then some (0, c)
  else object (rtMaskPtr v)

/-- Whether a word is a boxed float. -/
def isVFlt (m : Mem) (c : Caches) (v : BitVec 64) : Option (Bool × Caches) :=
  let p := v.toNat
  if !isPtr v || p % 16 ≠ 8 then some (false, c)
  else if c.unit.float.hit ptrSlot p then some (true, c)
  else if c.unit.nonFloat.hit ptrSlot p then some (false, c)
  else
    match rtTryReadI64 m c.unit (p - 8) with
    | none => none
    | some (none, u) => some (false, { c with unit := rtNonFloatCacheStore u p })
    | some (some tag, u) =>
      if tag = tagFloat then some (true, { c with unit := rtFloatCacheStore u p })
      else some (false, { c with unit := rtNonFloatCacheStore u p })

/-- Whether a tag is that of a string. -/
def isStrTag (tag : Nat) : Bool := tag = tagStr || tag = tagStrConst

/-- Whether the heap object at an address is a string. -/
def heapObjectIsStr (m : Mem) (c : Caches) (p : Nat) : Option (Bool × Caches) :=
  match rtTryReadI64 m c.unit (p - 8) with
  | none => none
  | some (none, u) => some (false, { c with unit := u })
  | some (some tag, u) =>
    some (isStrTag tag,
      { c with unit := if tag = tagStrConst then rtConstStrCacheStore u p else u })

/-- Whether an address outside the heap is that of a string. -/
def outsideIsStr (m : Mem) (c : Caches) (p : Nat) : Option (Bool × Caches) :=
  if c.unit.constStr.hit ptrSlot p then some (true, c)
  else if c.unit.nonStr.hit ptrSlot p then some (false, c)
  else
    match rtTryReadI64 m c.unit (p - 8) with
    | none => none
    | some (none, u) => some (false, { c with unit := u })
    | some (some tag, u) =>
      some (isStrTag tag,
        { c with unit :=
          if tag = tagStrConst then rtConstStrCacheStore u p
          else if tag ≠ tagStr then rtNonStrCacheStore u p
          else u })

/-- Whether a word is a string. -/
def isVStr (m : Mem) (c : Caches) (v : BitVec 64) : Option (Bool × Caches) :=
  match rtHeapObjectPtr m c v with
  | none => none
  | some (object, c) =>
    if object ≠ 0 then heapObjectIsStr m c object.toNat
    else if !isPtr v || v.toNat % 8 ≠ 0 then some (false, c)
    else outsideIsStr m c v.toNat

/-- Whether the word before an address can be read and is a magic word at the start of a header. -/
def hasMagic (m : Mem) (p : Nat) : Bool := rtAddrMapped m (p - 32) 32 && m.word (p - 32) = magic1

/-- Whether the tag before an address can be read and is that of a float. -/
def hasFloatTag (m : Mem) (p : Nat) : Bool := rtAddrMapped m (p - 8) 8 && m.word (p - 8) = tagFloat

/-- Whether the tag before an address can be read and is that of a string. -/
def hasStrTag (m : Mem) (p : Nat) : Bool := rtAddrMapped m (p - 8) 8 && isStrTag (m.word (p - 8))

/-- Whether an address may be that of a heap object. -/
def heapGuard (p : Nat) : Bool := 0x1000 < p && p < 2 ^ 63 && p % 16 = 0

/-- Whether an address may be that of a boxed float. -/
def floatGuard (p : Nat) : Bool := 0x1000 < p && p % 16 = 8

/-- Whether an address may be that of a string. -/
def strGuard (p : Nat) : Bool := 0x1000 < p && p % 8 = 0

/-- The heap test without a cache. -/
def heapTest (m : Mem) (v : BitVec 64) : Bool := heapGuard v.toNat && hasMagic m v.toNat

/-- The heap object that a word points to, without a cache. -/
def heapObject (m : Mem) (v : BitVec 64) : BitVec 64 :=
  if v = 0 ∨ isNative v then 0
  else if isPtr v && v.toNat % 8 = 0 then if heapTest m v then v else 0
  else if (rtMaskPtr v).toNat ≤ 0x1000 then 0
  else if heapTest m (rtMaskPtr v) then rtMaskPtr v else 0

/-- The float test without a cache. -/
def floatTest (m : Mem) (v : BitVec 64) : Bool := floatGuard v.toNat && hasFloatTag m v.toNat

/-- The string test without a cache. -/
def strTest (m : Mem) (v : BitVec 64) : Bool :=
  if heapObject m v ≠ 0 then hasStrTag m (heapObject m v).toNat
  else strGuard v.toNat && hasStrTag m v.toNat

end Nytrix.Rt
