import Nytrix.Lib.DirectCache
import Nytrix.Lib.OpenTable
import Mathlib.Algebra.Order.Ring.Int

/-! The table of interned strings, with its map of hashes, its map of pointers, and its cache. -/

namespace Nytrix.Base

open Nytrix.Lib

/-- The initial number of slots of the map of hashes. -/
def internMapCapInit : Nat := 8192

/-- The number of slots of the pointer cache. -/
def internPtrCacheSlots : Nat := 8192

/-- The initial number of slots of the map of pointers. -/
def internPtrMapCapInit : Nat := 8192

/-- The mixing step of the hash. -/
def fasthashMix (h : UInt64) : UInt64 :=
  let h := h ^^^ (h >>> 23)
  let h := h * 0x2127599bf4325c37
  h ^^^ (h >>> 47)

/-- The value of bytes of which the first is the least significant one. -/
def littleEndian (bytes : List UInt8) : UInt64 :=
  bytes.foldr (fun byte value => (value <<< 8) ||| byte.toUInt64) 0

/-- The hash over whole words of eight bytes and what is left after them. -/
def hash64Words (m : UInt64) : Nat → List UInt8 → UInt64 → UInt64
  | 0, tail, h => if tail.isEmpty then h else (h ^^^ fasthashMix (littleEndian tail)) * m
  | words + 1, bytes, h =>
    hash64Words m words (bytes.drop 8) ((h ^^^ fasthashMix (littleEndian (bytes.take 8))) * m)

/-- The hash of a string. -/
def hash64 (bytes : List UInt8) : UInt64 :=
  let m : UInt64 := 0x880355f21e6d1965
  let seed : UInt64 := 0xcbf29ce484222325 ^^^ (UInt64.ofNat bytes.length * m)
  fasthashMix (hash64Words m (bytes.length / 8) bytes seed)

/-- The hash of a pointer. -/
def internPtrHash (ptr : Nat) : Nat :=
  let x : UInt64 := UInt64.ofNat ptr
  let x := x >>> 3
  let x := x ^^^ (x >>> 33)
  let x := x * 0xff51afd7ed558ccd
  let x := x ^^^ (x >>> 33)
  x.toNat

/-- An interned string: where its bytes are, how many they are, and their hash. -/
structure InternEntry where
  str : Nat
  len : Nat
  hash : UInt64

/--
The state of the string table.

The memory that pointers point to is part of it: the bytes of each string that was allocated.
-/
structure Interns where
  /-- The entries: what is beyond those written is arbitrary. -/
  table : Nat → InternEntry
  /-- Whether the table was allocated. -/
  allocated : Bool
  count : Nat
  cap : Nat
  map : OpenTable
  ptrCache : DirectCache
  ptrMap : OpenTable
  ptrMapLen : Nat
  memory : Nat → List UInt8

/-- The next slot of a table of a size that is a power of two. -/
def nextSlot (size : Nat) (i : Nat) : Nat := (i + 1) &&& (size - 1)

/-- The slot where the walk for a hash begins. -/
def startSlot (size : Nat) (hash : Nat) : Nat := hash &&& (size - 1)

/-- The slot of a pointer in the cache. -/
def cacheSlot (ptr : Nat) : Nat := (ptr >>> 3) &&& (internPtrCacheSlots - 1)

/-- Moves the pointers to a map of another size. -/
def internPtrMapResize (s : Interns) (newCap : Nat) : Option Interns :=
  let old := s.ptrMap.filter (· ≠ 0)
  (OpenTable.placeAll (nextSlot newCap) (OpenTable.fresh newCap)
    (old.map fun ptr => (startSlot newCap (internPtrHash ptr), ptr))).map fun moved =>
      { s with ptrMap := moved, ptrMapLen := old.length }

/-- Makes room for one more pointer. -/
def internPtrMapGrow (s : Interns) : Option Interns :=
  if s.ptrMap.isEmpty then
    some { s with ptrMap := OpenTable.fresh internPtrMapCapInit, ptrMapLen := 0 }
  else if (s.ptrMapLen + 1) * 10 > s.ptrMap.length * 7 then
    internPtrMapResize s (s.ptrMap.length * 2)
  else some s

/-- The walk for a pointer in the map of pointers. -/
def ptrMapSeek (s : Interns) (ptr : Nat) : Option Sought :=
  OpenTable.seek (· == ptr) (nextSlot s.ptrMap.length) s.ptrMap s.ptrMap.length
    (startSlot s.ptrMap.length (internPtrHash ptr))

/-- Puts a pointer in the map of pointers. -/
def internPtrMapPut (s : Interns) (ptr : Nat) : Option Interns :=
  if ptr = 0 then some s
  else (internPtrMapGrow s).bind fun s =>
    match ptrMapSeek s ptr with
    | none => none
    | some (.hit _) => some s
    | some (.room i) => some { s with ptrMap := s.ptrMap.set i ptr, ptrMapLen := s.ptrMapLen + 1 }

/-- The tables as they are allocated, with the empty string, a literal of the program, as first entry. -/
def internAllocated (lit : Nat) (s : Interns) : Interns :=
  { s with
    table := Function.update s.table 0 { str := lit, len := 0, hash := 0 }
    allocated := true
    count := 1
    cap := 4096
    map := OpenTable.fresh internMapCapInit
    ptrMap := OpenTable.fresh internPtrMapCapInit
    ptrMapLen := 0 }

/-- Allocates the tables when they are not there. -/
def internInit (lit : Nat) (s : Interns) : Option Interns :=
  if s.allocated then some s else internPtrMapPut (internAllocated lit s) lit

/-- Whether the entry with an id is the string. -/
def entryIs (s : Interns) (str : List UInt8) (hash : UInt64) (id : Nat) : Bool :=
  let e := s.table id
  e.len == str.length && e.hash == hash && (s.memory e.str).take str.length == str

/-- Moves the ids to a map of twice the size when the map is too full. -/
def internMapGrow (s : Interns) : Option Interns :=
  if s.count * 10 > s.map.length * 7 then
    let newCap := s.map.length * 2
    -- The ids are stored in 32 bits.
    (OpenTable.placeAll (nextSlot newCap) (OpenTable.fresh newCap)
      ((List.range' 1 (s.count - 1)).map fun id =>
        (startSlot newCap (s.table id).hash.toNat, id % 2 ^ 32))).map
      fun moved => { s with map := moved }
  else some s

/-- Writes the entry of a new string, with its bytes at a pointer that was just allocated. -/
def internEnter (s : Interns) (dup : Nat) (str : List UInt8) (hash : UInt64) (newId : Nat) :
    Interns :=
  { s with
    cap := if s.count ≥ s.cap then s.cap * 2 else s.cap
    count := s.count + 1
    memory := Function.update s.memory dup (str ++ [0])
    table := Function.update s.table newId { str := dup, len := str.length, hash := hash }
    ptrCache := DirectCache.store cacheSlot s.ptrCache dup }

/-- Adds a string that is at no entry. -/
def internAdd (s : Interns) (dup : Nat) (str : List UInt8) (hash : UInt64) (idx : Nat) :
    Option (Interns × Nat) :=
  -- The new id is the count, in 32 bits.
  let newId := s.count % 2 ^ 32
  (internPtrMapPut (internEnter s dup str hash newId) dup).bind fun s =>
    (internMapGrow { s with map := s.map.set idx newId }).map fun s => (s, newId)

/--
The id of a string.

There is no result when a walk along a map does not end.
-/
def internStr (lit : Nat) (s : Interns) (dup : Nat) (str : List UInt8) : Option (Interns × Nat) :=
  if str.isEmpty then some (s, 0)
  else (internInit lit s).bind fun s =>
    let hash := hash64 str
    match OpenTable.seek (entryIs s str hash) (nextSlot s.map.length) s.map s.map.length
      (startSlot s.map.length hash.toNat) with
    | none => none
    | some (.hit id) => some (s, id)
    | some (.room idx) => internAdd s dup str hash idx

/-- The string of an id. -/
def internGet (lit : Nat) (s : Interns) (id : Nat) : Nat :=
  if id ≥ s.count then lit else (s.table id).str

/-- Whether a pointer is that of an interned string. -/
def internContainsPtr (s : Interns) (ptr : Nat) : Option (Interns × Bool) :=
  if ptr = 0 ∨ s.allocated = false then some (s, false)
  else if DirectCache.hit cacheSlot s.ptrCache ptr then some (s, true)
  else if s.ptrMap.isEmpty then some (s, false)
  else
    match ptrMapSeek s ptr with
    | none => none
    | some (.hit _) =>
      some ({ s with ptrCache := DirectCache.store cacheSlot s.ptrCache ptr }, true)
    | some (.room _) => some (s, false)

/-- The state at the start of the program, where only the literal is in memory. -/
def internStart (lit : Nat) (table : Nat → InternEntry) : Interns where
  table := table
  allocated := false
  count := 0
  cap := 0
  map := []
  ptrCache := DirectCache.empty
  ptrMap := []
  ptrMapLen := 0
  memory := Function.update (fun _ => []) lit [0]

end Nytrix.Base
