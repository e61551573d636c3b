import Mathlib.Data.Int.Bitwise
import Nytrix.Rt.Bigint

/-! The arithmetic and bit operators of the language on integers. -/

namespace Nytrix.Rt

open Nytrix.Lib

/-- Whether the machine integer is a small one. -/
def smallIntFitsI64 (raw : BitVec 64) : Bool :=
  decide (smallIntMin ≤ raw.toInt) && decide (raw.toInt ≤ smallIntMax)

/--
An operator on machine words that hands over to big integers when its result is no small one.

Nil and the truth values are neither small nor big integers, and give a tagged zero.
-/
def promoting (overflow : BitVec 64 → BitVec 64 → Bool) (op : BitVec 64 → BitVec 64 → BitVec 64)
    (big : Num → Num → Num) : Num → Num → Num
  | .word a, .word b =>
    if isInt (.word a) && isInt (.word b) then
      let raw := op (untagWord a) (untagWord b)
      if overflow (untagWord a) (untagWord b) || !smallIntFitsI64 raw then big (.word a) (.word b)
      else tagV raw
    else tagV 0
  | a, b => big a b

/-- The sum. -/
def rtAdd : Num → Num → Num := promoting BitVec.saddOverflow (· + ·) bigintAdd

/-- The difference. -/
def rtSub : Num → Num → Num := promoting BitVec.ssubOverflow (· - ·) bigintSub

/-- The product. -/
def rtMul : Num → Num → Num := promoting BitVec.smulOverflow (· * ·) bigintMul

/-- The quotient of big integers, rounded towards zero. -/
def bigintDiv (a b : Num) : Except String Num :=
  if valToMpz b = 0 then .error "division by zero"
  else .ok (fromMpz ((valToMpz a).tdiv (valToMpz b)))

/-- The remainder of big integers, with the sign of the divisor. -/
def bigintMod (a b : Num) : Except String Num :=
  if valToMpz b = 0 then .error "modulo by zero"
  else .ok (fromMpz ((valToMpz a).fmod (valToMpz b)))

/-- The quotient, or the text of the panic. -/
def rtDiv : Num → Num → Except String Num
  | .word a, .word b =>
    if isInt (.word a) && isInt (.word b) then
      if untagWord b = 0 then .error "division by zero"
      else .ok (tagV ((untagWord a).sdiv (untagWord b)))
    else .ok (tagV 0)
  | a, b => bigintDiv a b

/-- The remainder, or the text of the panic. -/
def rtMod : Num → Num → Except String Num
  | .word a, .word b =>
    if isInt (.word a) && isInt (.word b) then
      if untagWord b = 0 then .error "modulo by zero"
      else .ok (tagV ((untagWord a).srem (untagWord b)))
    else .ok (tagV 0)
  | a, b => bigintMod a b

/-- Whether an integer is a small one. -/
def mpzFitsSmallInt (v : Int) : Bool :=
  if 0 ≤ v then decide (v ≤ smallIntMax) else decide (-v ≤ smallIntMax + 1)

/-- The machine integer of an integer whose magnitude is one limb. -/
def mpzGetI64 (v : Int) : BitVec 64 :=
  let mag := BitVec.ofNat 64 v.natAbs
  if v < 0 then -(mag - 1) - 1 else mag

/-- The result of a bit operation of big integers, as a small integer where it is one. -/
def compactMpz (v : Int) : Num := if mpzFitsSmallInt v then tagV (mpzGetI64 v) else fromMpz v

/-- The machine word of a value that is no object. -/
def rawBits (bits : BitVec 64) : BitVec 64 := if isInt (.word bits) then untagWord bits else bits

/-- A bit operator, on machine words or on big integers. -/
def bitOp (word : BitVec 64 → BitVec 64 → BitVec 64) (mpz : Int → Int → Int) : Num → Num → Num
  | .word a, .word b => tagV (word (rawBits a) (rawBits b))
  | a, b => compactMpz (mpz (valToMpz a) (valToMpz b))

/-- The bits in both. -/
def rtAnd : Num → Num → Num := bitOp (· &&& ·) Int.land

/-- The bits in either. -/
def rtOr : Num → Num → Num := bitOp (· ||| ·) Int.lor

/-- The bits in one only. -/
def rtXor : Num → Num → Num := bitOp (· ^^^ ·) Int.xor

/-- The bits turned. -/
def rtNot : Num → Num
  | .word a => tagV (~~~rawBits a)
  | a => compactMpz (Int.lnot (valToMpz a))

/--
A shift, on machine words or on big integers.

A machine shift by the width of the word or more has no defined result. A big count is cut to one
limb, and a negative one leaves the integer as it is.
-/
def shift (word : BitVec 64 → Nat → BitVec 64) (mpz : Int → Nat → Int) : Num → Num → Option Num
  | .word a, .word b =>
    let count := (rawBits b).toNat
    if count < 64 then some (tagV (word (rawBits a) count)) else none
  | a, b =>
    let ma := valToMpz a
    let mb := valToMpz b
    some (compactMpz (if mb < 0 then ma else mpz ma (mb.natAbs % 2 ^ 64)))

/-- The shift to the left. -/
def rtShl : Num → Num → Option Num := shift (fun a n => a <<< n) fun a n => a * 2 ^ n

/-- The shift to the right, which fills a machine word with zeros. -/
def rtShr : Num → Num → Option Num := shift (fun a n => a >>> n) fun a n => a.fdiv (2 ^ n)

end Nytrix.Rt
