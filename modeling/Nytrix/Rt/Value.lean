import Nytrix.Rt.Dict
import Nytrix.Rt.Math

/-! Runtime values with their addresses, when they are equal, and how they are hashed as keys. -/

namespace Nytrix.Rt

open Nytrix.Lib

/--
A value without cycles: an immediate, or an object at an address.

Floats and the parts of complex numbers are the bits of doubles. The kind of string object (small,
heap or constant) makes no difference to what is below.
-/
inductive Value where
  | int (value : BitVec 63)
  | nil
  | fls
  | tru
  | big (addr : BitVec 64) (sign : Int) (limbs : List (BitVec 64))
  | flt (addr bits : BitVec 64)
  | complex (addr re im : BitVec 64)
  | str (addr : BitVec 64) (bytes : List (BitVec 8))
  | seq (addr : BitVec 64) (tuple : Bool) (items : List Value)
  | range (addr : BitVec 64) (start stop step : BitVec 63)

/-- The word of a value. -/
def Value.word : Value → BitVec 64
  | .int value => tagWord (value.signExtend 64)
  | .nil => 0
  | .fls => 2
  | .tru => 8
  | .big addr _ _ => addr
  | .flt addr _ => addr
  | .complex addr _ _ => addr
  | .str addr _ => addr
  | .seq addr _ _ => addr
  | .range addr _ _ _ => addr

/-- Whether the value is a big integer object. -/
def Value.isBigintObj : Value → Bool
  | .big _ _ _ => true
  | _ => false

/-- Whether the value is a small integer. -/
def Value.isInt : Value → Bool
  | .int _ => true
  | _ => false

/-- Whether the value is a float object. -/
def Value.isFlt : Value → Bool
  | .flt _ _ => true
  | _ => false

/-- Whether the value is a complex object. -/
def Value.isComplex : Value → Bool
  | .complex _ _ _ => true
  | _ => false

/-- Whether the word of the value is a pointer. -/
def Value.isPtr : Value → Bool
  | .int _ => false
  | .nil => false
  | .fls => false
  | .tru => false
  | _ => true

/-- The value as the integer operations see it. -/
def Value.toNum : Value → Num
  | .big _ sign limbs => .big sign limbs
  | v => .word v.word

/-- Whether the bits of a double are those of a number. -/
def isFinite (bits : BitVec 64) : Bool := bits &&& 0x7ff0000000000000 ≠ 0x7ff0000000000000

/-- Whether the bits of a double are those of no number. -/
def isNan (bits : BitVec 64) : Bool :=
  bits &&& 0x7ff0000000000000 = 0x7ff0000000000000 && bits &&& 0x000fffffffffffff ≠ 0

/-- Whether two doubles compare equal: the zeros do, and what is no number does not. -/
def doubleEq (x y : BitVec 64) : Bool :=
  !isNan x && !isNan y && (x = y || (x <<< 1 = 0 && y <<< 1 = 0))

/-- The double nearest to an integer, the even one of two that are equally near. -/
def intToDouble (n : Int) : BitVec 64 :=
  let mag := n.natAbs
  if mag = 0 then 0
  else
    let e := mag.log2
    let mant :=
      if e ≤ 52 then mag <<< (52 - e)
      else
        let q := mag >>> (e - 52)
        let rest := mag % 2 ^ (e - 52)
        let half := 2 ^ (e - 53)
        if half < rest || (rest = half && q % 2 = 1) then q + 1 else q
    -- A mantissa rounded up to the next power carries into the exponent.
    let bits := BitVec.ofNat 64 ((e + 1023) * 2 ^ 52 + mant - 2 ^ 52)
    if n < 0 then bits ||| 0x8000000000000000 else bits

/-- The double a value counts as next to a float; most objects count as zero. -/
def Value.getFlt : Value → BitVec 64
  | .int value => intToDouble value.toInt
  | .nil => 0
  | .flt _ bits => bits
  | .fls => if isFinite 2 then 2 else 0
  | .tru => if isFinite 8 then 8 else 0
  | _ => 0

/-- The real part a value counts as next to a complex number. -/
def Value.complexRe : Value → BitVec 64
  | .complex _ re _ => re
  | v => v.getFlt

/-- The imaginary part a value counts as next to a complex number. -/
def Value.complexIm : Value → BitVec 64
  | .complex _ _ im => im
  | _ => 0

/-- The bytes of a string. -/
def Value.bytes? : Value → Option (List (BitVec 8))
  | .str _ bytes => some bytes
  | _ => none

/--
Equality up to sequences: the answer, or nothing when both are objects that are neither numbers nor
two strings.
-/
def leafEq (a b : Value) : Option Bool :=
  if a.word = b.word then some true
  else if a.isBigintObj || b.isBigintObj then
    some ((a.isBigintObj || a.isInt) && (b.isBigintObj || b.isInt) &&
      decide (valToMpz a.toNum = valToMpz b.toNum))
  else if (a.word = 0 && b.word = tagWord 0) || (a.word = tagWord 0 && b.word = 0) then some true
  else if a.isFlt || b.isFlt then some (doubleEq a.getFlt b.getFlt)
  else if a.isInt ≠ b.isInt then some false
  else if a.isPtr && b.isPtr then
    if a.isComplex || b.isComplex then
      some (doubleEq a.complexRe b.complexRe && doubleEq a.complexIm b.complexIm)
    else if a.bytes?.isSome && b.bytes?.isSome then some (a.bytes? = b.bytes?)
    else none
  else some false

/-- The number of items of a range. -/
def rangeLen (start stop step : BitVec 63) : Nat :=
  let start := start.toInt
  let stop := stop.toInt
  let step := step.toInt
  if step = 0 then 0
  else if 0 < step then
    if stop ≤ start then 0 else ((stop - start - 1) / step + 1).toNat
  else if start ≤ stop then 0 else ((start - stop - 1) / -step + 1).toNat

/-- An item of a range. -/
def rangeItem (start step : BitVec 63) (i : Nat) : Value :=
  .int (BitVec.ofInt 63 (start.toInt + i * step.toInt))

/-- The items of a range. -/
def rangeItems (start stop step : BitVec 63) : List Value :=
  (List.range (rangeLen start stop step)).map (rangeItem start step)

/-- Whether items are equal to small integers, one by one. -/
def intItemsEq : List Value → List Value → Bool
  | x :: xs, y :: ys => (leafEq x y).getD false && intItemsEq xs ys
  | _, _ => true

mutual

/-- Equality of the language. -/
def rtEq (a b : Value) : Bool :=
  match leafEq a b with
  | some answer => answer
  | none =>
    match a with
    | .seq _ _ xs =>
      match b with
      | .seq _ _ ys => decide (xs.length = ys.length) && itemsEq xs ys
      | .range _ start stop step =>
        decide (xs.length = rangeLen start stop step) &&
          intItemsEq xs (rangeItems start stop step)
      | _ => false
    | .range _ start stop step =>
      match b with
      | .seq _ _ ys =>
        decide (rangeLen start stop step = ys.length) &&
          intItemsEq (rangeItems start stop step) ys
      | .range _ start' stop' step' =>
        decide (rangeLen start stop step = rangeLen start' stop' step') &&
          intItemsEq (rangeItems start stop step) (rangeItems start' stop' step')
      | _ => false
    | _ => false

/-- Equality of items, one by one. -/
def itemsEq : List Value → List Value → Bool
  | x :: xs, y :: ys => rtEq x y && itemsEq xs ys
  | _, _ => true

end

/-- The bits of an object's address that pick its slot. -/
def addrHash (addr : BitVec 64) : BitVec 64 := (addr >>> 3) &&& 2147483647

/-- Mixes the bits of a double for the runtime's hash. -/
def dictHashMix64 (bits : BitVec 64) : BitVec 64 :=
  let bits := bits ^^^ (bits >>> 33)
  let bits := bits * 0xff51afd7ed558ccd
  let bits := bits ^^^ (bits >>> 33)
  let bits := bits * 0xc4ceb9fe1a85ec53
  let bits := bits ^^^ (bits >>> 33)
  bits &&& 2147483647

/-- The hash of a key for the runtime. -/
def Value.dictHashRaw : Value → BitVec 64
  | .int value => value.signExtend 64
  | .nil => 0
  | .fls => 0
  | .tru => 0
  | .str _ bytes => strHash bytes
  | .flt _ bits =>
    let bits := if bits = 0x8000000000000000 then 0 else bits
    let bits := if isNan bits then 0x7ff8000000000000 else bits
    dictHashMix64 bits
  | .big addr _ _ => addrHash addr
  | .complex addr _ _ => addrHash addr
  | .seq addr _ _ => addrHash addr
  | .range addr _ _ _ => addrHash addr

/-- The hash of a double for the library. -/
def fltHash (d : BitVec 64) : BitVec 64 :=
  let bits := if d = 0x8000000000000000 then 0 else d
  let bits := if isNan d then 0x7ff8000000000000 else bits
  let h := bits ^^^ (bits >>> 33)
  let h := h * 0xff51afd7ed558ccd
  let h := h ^^^ (h >>> 33)
  let h := h * 0xc4ceb9fe1a85ec53
  let h := h ^^^ (h >>> 33)
  h &&& 0x7fffffff

/-- Whether the library takes the value for a pointer: its low bits are zero. -/
def looksLikePtr (x : Value) : Bool := rtAnd x.toNum (tagV 7) = tagV 0

/-- The machine integer of a small result. -/
def resultBits : Num → BitVec 64
  | .word bits => rawBits bits
  | .big sign limbs => BitVec.ofInt 64 (valToMpz (.big sign limbs))

/-- The hash of a key for the library. -/
def Value.dictHash : Value → BitVec 64
  | .int value => value.signExtend 64
  | .nil => 0
  | .fls => 0
  | .str _ bytes => strHash bytes
  | .flt _ bits => fltHash bits
  | x =>
    if looksLikePtr x then
      match rtShr x.toNum (tagV 3) with
      | some shifted => resultBits (rtAnd shifted (tagV 2147483647))
      | none => 0
    else 0

end Nytrix.Rt
