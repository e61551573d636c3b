import Nytrix.Lib.Probing
import Mathlib.Algebra.Order.Ring.Int

/-! Dictionaries, as the language's own library and as the runtime work on them. -/

namespace Nytrix.Rt

open Nytrix.Lib

/-- A key of a dictionary: a small integer, a string by its bytes, or nil. -/
inductive Key where
  | int (value : BitVec 63)
  | str (bytes : List (BitVec 8))
  | nil
  deriving DecidableEq

/-- Whether two keys are equal for the language, where nil equals zero. -/
def keyEq : Key → Key → Bool
  | .int a, .int b => a = b
  | .int a, .nil => a = 0
  | .int _, .str _ => false
  | .nil, .int b => b = 0
  | .nil, .nil => true
  | .nil, .str _ => false
  | .str a, .str b => a = b
  | .str _, .int _ => false
  | .str _, .nil => false

/-- The hash of a string. -/
def strHash (bytes : List (BitVec 8)) : BitVec 64 :=
  bytes.foldl (fun h b => ((h ^^^ b.setWidth 64) * 16777619) &&& 2147483647) 2166136261

/-- The hash of a key for the runtime. -/
def dictHashRaw : Key → BitVec 64
  | .int value => value.signExtend 64
  | .nil => 0
  | .str bytes => strHash bytes

/-- The hash of a key for the library. -/
def dictHash : Key → BitVec 64
  | .int value => value.signExtend 64
  | .nil => 0
  | .str bytes => strHash bytes

/-- How a free slot came to be free: its memory is new, or a tagged zero was stored. -/
inductive Mark where
  | zero
  | cleared
  deriving DecidableEq

/-- Whether the library takes the slot for an empty one. -/
def Mark.isFalsy : Mark → Bool
  | .zero => true
  | .cleared => true

/-- Whether the runtime takes the slot for an empty one. -/
def Mark.isZero : Mark → Bool
  | .zero => true
  | .cleared => false

/-- A dictionary: the number of entries it keeps, and its slots. -/
structure Dict (V : Type) where
  count : Int
  slots : List (Slot Mark Key V)
  deriving DecidableEq

variable {V : Type}

/-- The number of slots. -/
def Dict.cap (d : Dict V) : Nat := d.slots.length

/-- The largest power of two for which the bytes of the table are a small integer. -/
def maxCap : Nat := 2 ^ 57

/-- A new table, whose memory is zero; there is none beyond the largest size. -/
def dictNew (cap : Nat) : Option (Dict V) :=
  if cap ≤ maxCap then some ⟨0, List.replicate cap (.free .zero)⟩ else none

/-- Doubles until the bound is reached, and never ends once a double is no small integer. -/
def pow2Loop : Nat → Nat → Int → Option Nat
  | 0, _, _ => none
  | fuel + 1, v, n => if (v : Int) < n then pow2Loop fuel (2 * v) n else some v

/-- The least power of two that is at least the given number. -/
def pow2 (n : Int) : Option Nat := pow2Loop 62 1 n

/-- A new dictionary with room for the given number of slots. -/
def dict (cap : Int) : Option (Dict V) := (pow2 cap).bind dictNew

/-- The slot to look at first. -/
def firstSlot (hash : BitVec 64) (cap : Nat) : Nat := hash.toNat &&& (cap - 1)

/-- The slot to look at next. -/
def nextSlot (cap : Nat) (idx : Nat) : Nat := (idx + 1) &&& (cap - 1)

/-- The slot of a key, or the slot to put it, for the library. -/
def dictFindOff (d : Dict V) (key : Key) : Option Nat :=
  if d.cap = 0 then none
  else search Mark.isFalsy keyEq (nextSlot d.cap) d.slots key d.cap
    (firstSlot (dictHash key) d.cap) none

/-- The slot of a key, or the slot to put it, for the runtime. -/
def dictFindOffFast (d : Dict V) (key : Key) : Option Nat :=
  if d.cap = 0 then none
  else search Mark.isZero keyEq (nextSlot d.cap) d.slots key d.cap
    (firstSlot (dictHashRaw key) d.cap) none

/-- The number of slots after growing. -/
def grownCap (cap : Nat) : Nat := if cap < 8 then 8 else cap * 2

/-- Replaces the value at a slot in use, or puts in a new entry. -/
def Dict.store (d : Dict V) (off : Nat) (key : Key) (value : V) : Dict V :=
  match d.slots[off]? with
  | some (.live k _) => { d with slots := d.slots.set off (.live k value) }
  | _ => { count := d.count + 1, slots := d.slots.set off (.live key value) }

/-- Whether the slot is in use. -/
def Dict.isLive (d : Dict V) (off : Nat) : Bool :=
  match d.slots[off]? with
  | some slot => slot.isLive
  | none => false

/-- Writes every entry of the slots to a table. -/
def copyLive (write : Dict V → Key → V → Option (Dict V)) :
    List (Slot Mark Key V) → Dict V → Option (Dict V)
  | [], nd => some nd
  | .live key value :: rest, nd => do
    let nd ← write nd key value
    copyLive write rest nd
  | _ :: rest, nd => copyLive write rest nd

/--
Writes a key, for the library: the given table afterwards, and the table that is returned.

Growing leaves the given table as it is and goes on with a new one. Each entry copied is written in
the same way, and a table that this write returned in place of the new one would be lost.
-/
def dictWrite : Nat → Dict V → Key → V → Option (Dict V × Dict V)
  | 0, _, _, _ => none
  | fuel + 1, d, key, value =>
    let grow := do
      let nd ← dictNew (grownCap d.cap)
      let nd ← copyLive (fun nd k v => (dictWrite fuel nd k v).map Prod.fst) d.slots nd
      let (_, r) ← dictWrite fuel nd key value
      return (d, r)
    match dictFindOff d key with
    | none => grow
    | some off =>
      if d.isLive off then some (d.store off key value, d.store off key value)
      else if (d.cap : Int) < (d.count + 1) * 2 then grow
      else some (d.store off key value, d.store off key value)

/-- Writes a key to a table that is not grown. -/
def dictInsertNoResizeFast (d : Dict V) (key : Key) (value : V) : Dict V :=
  match dictFindOffFast d key with
  | none => d
  | some off => d.store off key value

/-- A table with the given number of slots and the entries of another, for the runtime. -/
def dictCopyFast (d : Dict V) (cap : Nat) : Option (Dict V) := do
  let nd ← dictNew (if cap < 1 then 1 else cap)
  copyLive (fun nd k v => some (dictInsertNoResizeFast nd k v)) d.slots nd

/-- Writes a key, for the runtime. -/
def dictWriteFast (d : Dict V) (key : Key) (value : V) : Option (Dict V) :=
  let grow := do
    let nd ← dictCopyFast d (grownCap d.cap)
    return dictInsertNoResizeFast nd key value
  if d.cap = 0 then some d
  else
    match dictFindOffFast d key with
    | none => grow
    | some off =>
      if d.isLive off then some (d.store off key value)
      else if (d.cap : Int) < (d.count + 1) * 2 then grow
      else some (d.store off key value)

/-- The largest machine integer. -/
def int64Max : Int := 9223372036854775807

/-- Doubles until the bound is reached, as long as the double is a machine integer. -/
def wantCapLoop : Nat → Int → Int → Int
  | 0, want, _ => want
  | fuel + 1, want, least =>
    if want < least && want ≤ int64Max / 2 then wantCapLoop fuel (want * 2) least else want

/-- Makes room for more entries. -/
def dictReserve (d : Dict V) (additional : Int) : Option (Dict V) :=
  if additional ≤ 0 then some d
  else
    let wantCount := d.count + additional
    let minCap := if int64Max / 2 < wantCount then int64Max else wantCount * 2
    let wantCap := wantCapLoop 60 8 minCap
    if wantCount < d.count || wantCap ≤ 0 || wantCap ≤ d.cap then some d
    else dictCopyFast d wantCap.toNat

/-- Gives up the entry at a slot. -/
def Dict.giveUp (d : Dict V) (off : Nat) : Dict V :=
  { count := d.count - 1, slots := d.slots.set off .removed }

/-- Removes a key. -/
def dictRemove (d : Dict V) (key : Key) : Dict V :=
  match dictFindOff d key with
  | none => d
  | some off => if d.isLive off then d.giveUp off else d

/-- The value of a key, and the dictionary without it. -/
def dictPop (d : Dict V) (key : Key) (default : V) : V × Dict V :=
  match dictFindOff d key with
  | none => (default, d)
  | some off =>
    match d.slots[off]? with
    | some (.live _ value) => (value, d.giveUp off)
    | _ => (default, d)

/-- The entry in the last of the first slots that are in use, and the dictionary without it. -/
def popItemLoop (d : Dict V) : Nat → Option (Key × V) × Dict V
  | 0 => (none, d)
  | i + 1 =>
    match d.slots[i]? with
    | some (.live key value) => (some (key, value), d.giveUp i)
    | _ => popItemLoop d i

/-- An entry, and the dictionary without it. -/
def dictPopItem (d : Dict V) : Option (Key × V) × Dict V := popItemLoop d d.cap

/-- Removes every entry, with a tagged zero stored in every slot. -/
def dictClear (d : Dict V) : Dict V :=
  { count := 0, slots := d.slots.map fun _ => .free .cleared }

/-- Writes every entry of another dictionary. -/
def dictMerge (fuel : Nat) (dst src : Dict V) : Option (Dict V) :=
  copyLive (fun nd k v => (dictWrite fuel nd k v).map Prod.snd) src.slots dst

/-- The number of entries. -/
def dictLen (d : Dict V) : Int := d.count

/-- The value of a key, or the default. -/
def dictRead (d : Dict V) (key : Key) (default : V) : V :=
  match dictFindOff d key with
  | none => default
  | some off =>
    match d.slots[off]? with
    | some (.live _ value) => value
    | _ => default

/-- The entries, in a list with room for the number of entries kept; it must not run over. -/
def dictItems (d : Dict V) : Option (List (Key × V)) :=
  if ((entries d.slots).length : Int) ≤ d.count then some (entries d.slots) else none

/-- The keys. -/
def dictKeys (d : Dict V) : Option (List Key) := (dictItems d).map fun items => items.map Prod.fst

/-- The values. -/
def dictValues (d : Dict V) : Option (List V) := (dictItems d).map fun items => items.map Prod.snd

/-- Whether the key is there. -/
def dictExists (d : Dict V) (key : Key) : Bool :=
  match dictFindOff d key with
  | none => false
  | some off => d.isLive off

/-- The value of a key, which is the default where it was not there; and the given table after. -/
def dictSetdefault (fuel : Nat) (d : Dict V) (key : Key) (default : V) : Option (V × Dict V) :=
  if dictExists d key then some (dictRead d key default, d)
  else (dictWrite fuel d key default).map fun tables => (default, tables.1)

/-- A slot of a copy: an entry stays where it is, and any other slot is as in the new table. -/
def cloneSlot : Slot Mark Key V → Slot Mark Key V → Slot Mark Key V
  | .live key value, _ => .live key value
  | .free _, new => new
  | .removed, new => new

/-- A copy of the table. -/
def dictClone (d : Dict V) : Option (Dict V) := do
  let nd ← dictNew d.cap
  return { count := d.count, slots := List.zipWith cloneSlot d.slots nd.slots }

end Nytrix.Rt
