import Nytrix.Lib.Limbs

/-! Integers of the runtime, as tagged words or as objects of limbs, and their exact arithmetic. -/

namespace Nytrix.Rt

open Nytrix.Lib

/--
A value as the integer operations see it.

A big integer is a heap object that keeps a sign and the limbs of its magnitude; everything that is
not a pointer is its word.
-/
inductive Num where
  | word (bits : BitVec 64)
  | big (sign : Int) (limbs : List (BitVec 64))
  deriving DecidableEq

/-- Whether the word has the tag bit of a small integer. -/
def isInt : Num → Bool
  | .word bits => bits &&& 1 ≠ 0
  | .big _ _ => false

/-- Whether the value is a big integer object. -/
def isBigintObj : Num → Bool
  | .word _ => false
  | .big _ _ => true

/-- The word of a small integer. -/
def tagWord (v : BitVec 64) : BitVec 64 := (v <<< 1) ||| 1

/-- The integer of a tagged word. -/
def untagWord (bits : BitVec 64) : BitVec 64 := bits.sshiftRight 1

/-- A small integer. -/
def tagV (v : BitVec 64) : Num := .word (tagWord v)

/-- The largest small integer. -/
def smallIntMax : Int := 4611686018427387903

/-- The smallest small integer. -/
def smallIntMin : Int := -smallIntMax - 1

/-- The result of an operation of 128-bit integers. -/
def i128 (n : Int) : Int := Int.bmod n (2 ^ 128)

/-- The magnitude of a machine integer. -/
def magnitude (raw : BitVec 64) : BitVec 64 := if raw.slt 0 then -(raw + 1) + 1 else raw

/-- The sign and the limbs of a value with at most two of them. -/
def readLimb2 : Num → Option (Int × List (BitVec 64))
  | .word bits =>
    if isInt (.word bits) then
      let raw := untagWord bits
      if raw = 0 then some (0, []) else some (if raw.slt 0 then -1 else 1, [magnitude raw])
    else none
  | .big sign limbs =>
    if 2 < limbs.length then none
    else
      let used := normWords limbs
      some (if used = [] then 0 else if sign < 0 then -1 else if 0 < sign then 1 else 0, used)

/-- Whether the value is zero, as far as its sign and its number of limbs tell. -/
def isZeroFast : Num → Bool
  | .word bits => isInt (.word bits) && untagWord bits = 0
  | .big sign limbs => sign = 0 || limbs.length = 0

/-- An object for a sign and limbs. -/
def fromLimbs (sign : Int) (limbs : List (BitVec 64)) : Num :=
  let used := normWords limbs
  .big (if used = [] then 0 else if sign < 0 then -1 else if 0 < sign then 1 else 0) used

/-- A small integer for a sign and limbs if there is one, else an object. -/
def fromLimbsOrSmallInt (sign : Int) (limbs : List (BitVec 64)) : Num :=
  match normWords limbs with
  | [] => tagV 0
  | [mag] =>
    if 0 ≤ sign && decide ((mag.toNat : Int) ≤ smallIntMax) then tagV mag
    else if sign < 0 && decide ((mag.toNat : Int) ≤ smallIntMax + 1) then tagV (-mag)
    else fromLimbs sign [mag]
  | used => fromLimbs sign used

/-- The value of a 128-bit integer, as a small one only where that is asked for. -/
def fromI128Value (v : Int) (compact : Bool) : Num :=
  if compact && decide (smallIntMin ≤ v) && decide (v ≤ smallIntMax) then tagV (BitVec.ofInt 64 v)
  else
    let sign : Int := if v < 0 then -1 else if 0 < v then 1 else 0
    let mag := v.natAbs % 2 ^ 128
    let limbs := [BitVec.ofNat 64 mag, BitVec.ofNat 64 (mag / 2 ^ 64)]
    let used :=
      limbs.take (if limbs[1]? ≠ some 0 then 2 else if limbs[0]? ≠ some 0 then 1 else 0)
    if compact then fromLimbsOrSmallInt sign used else fromLimbs sign used

/-- The sum of two magnitudes. -/
def magAdd4 (a b : List (BitVec 64)) : List (BitVec 64) :=
  let n := max a.length b.length
  let sum := addWords n a b 0
  normWords (if sum.2 ≠ 0 && decide (n < 4) then sum.1 ++ [BitVec.ofNat 64 sum.2] else sum.1)

/-- The difference of two magnitudes. -/
def magSub4 (a b : List (BitVec 64)) : List (BitVec 64) := normWords (subWords a b false).1

/-- The signed integer of at most one limb. -/
def signedLimb (sign : Int) (limbs : List (BitVec 64)) : Int :=
  let limb : Int := (limbs.headD 0).toNat
  if sign < 0 then -limb else if 0 < sign then limb else 0

/-- A sign and the limbs, as an object or as the smallest form. -/
def finish (compact : Bool) (sign : Int) (limbs : List (BitVec 64)) : Num :=
  if compact then fromLimbsOrSmallInt sign limbs else fromLimbs sign limbs

/-- The sum or difference of two integers of at most two limbs. -/
def tryAddLimb2Kind (a b : Num) (subB compact : Bool) : Option Num :=
  match a, b with
  | .word aw, .word bw =>
    if isInt a && isInt b then
      let av := (untagWord aw).toInt
      let bv := (untagWord bw).toInt
      some (fromI128Value (i128 (if subB then av - bv else av + bv)) compact)
    else none
  | a, b => do
    let (as, al) ← readLimb2 a
    let (bs, bl) ← readLimb2 b
    let bs := if subB then -bs else bs
    if al.length ≤ 1 && bl.length ≤ 1 then
      return fromI128Value (i128 (signedLimb as al + signedLimb bs bl)) compact
    else if as = 0 then return finish compact bs bl
    else if bs = 0 then return finish compact as al
    else if as = bs then return finish compact as (magAdd4 al bl)
    else match cmpWords al bl with
      | .eq => return finish compact 0 []
      | .gt => return finish compact as (magSub4 al bl)
      | .lt => return finish compact bs (magSub4 bl al)

/-- The four zero limbs a product is added to. -/
def zeroLimbs : List (BitVec 64) := List.replicate 4 0

/-- The product of two integers of at most two limbs. -/
def tryMulLimb2 (a b : Num) : Option Num := do
  let (as, al) ← readLimb2 a
  let (bs, bl) ← readLimb2 b
  if as = 0 || bs = 0 then return fromLimbs 0 []
  else
    let rl ← mulWords al bl zeroLimbs
    return fromLimbs (if as = bs then 1 else -1) rl

/-- Adds a product with its sign turned to an integer of at most two limbs. -/
def addProduct (as : Int) (al : List (BitVec 64)) (rhsSign : Int) (pl : List (BitVec 64)) :
    Option Num :=
  if as = 0 then some (fromLimbsOrSmallInt rhsSign pl)
  else if pl.length = 0 then some (fromLimbsOrSmallInt as al)
  else if as = rhsSign then
    let n := max al.length pl.length
    let sum := addWords n al pl 0
    if sum.2 ≠ 0 then
      if 5 ≤ n then none
      else some (fromLimbsOrSmallInt as (normWords (sum.1 ++ [BitVec.ofNat 64 sum.2])))
    else some (fromLimbsOrSmallInt as (normWords sum.1))
  else match cmpWords al pl with
    | .eq => some (fromLimbsOrSmallInt 0 [])
    | .gt => some (fromLimbsOrSmallInt as (normWords (subWords al pl false).1))
    | .lt => some (fromLimbsOrSmallInt rhsSign (normWords (subWords pl al false).1))

/-- The difference `a - q * b` of integers of at most two limbs. -/
def trySubmulLimb2 (a q b : Num) : Option Num := do
  let (as, al) ← readLimb2 a
  let (qs, ql) ← readLimb2 q
  let (bs, bl) ← readLimb2 b
  if qs = 0 || bs = 0 then return fromLimbsOrSmallInt as al
  else
    let pl ← mulWords ql bl zeroLimbs
    let ps : Int := if qs = bs then 1 else -1
    addProduct as al (-ps) (normWords pl)

/-- The difference `a - q * b` for a machine integer `q`. -/
def trySubmulI64Limb2 (a : Num) (q : BitVec 64) (b : Num) : Option Num :=
  match a, b with
  | .word aw, .word bw =>
    if isInt a && isInt b then
      some (fromI128Value (i128 ((untagWord aw).toInt - q.toInt * (untagWord bw).toInt)) true)
    else none
  | a, b => do
    let (as, al) ← readLimb2 a
    let (bs, bl) ← readLimb2 b
    if q = 0 || bs = 0 then return fromLimbsOrSmallInt as al
    else if al.length ≤ 1 && bl.length ≤ 1 then
      return fromI128Value (i128 (signedLimb as al - q.toInt * signedLimb bs bl)) true
    else
      let row := mulRow (magnitude q) bl (List.replicate bl.length 0) 0
      let pl := if row.2 ≠ 0 then row.1 ++ [BitVec.ofNat 64 row.2] else row.1
      let ps : Int := if (if q.slt 0 then -1 else 1) = bs then 1 else -1
      addProduct as al (-ps) (normWords pl)

/-- The integer of a value for the slow paths, zero when it is none. -/
def valToMpz : Num → Int
  | .word bits => if isInt (.word bits) then (untagWord bits).toInt else 0
  | .big sign limbs => if sign < 0 then -(limbsValue limbs : Int) else limbsValue limbs

/-- The object of an integer. -/
def fromMpz (v : Int) : Num := .big v.sign (limbsOf 64 v.natAbs)

/-- The slow sum. -/
def bigintAddSlow (a b : Num) : Num := fromMpz (valToMpz a + valToMpz b)

/-- The slow difference. -/
def bigintSubSlow (a b : Num) : Num := fromMpz (valToMpz a - valToMpz b)

/-- The slow product. -/
def bigintMulSlow (a b : Num) : Num := fromMpz (valToMpz a * valToMpz b)

/-- The slow difference `a - q * b`. -/
def bigintSubmulSlow (a q b : Num) : Num := fromMpz (valToMpz a - valToMpz q * valToMpz b)

/-- The sum of two integers. -/
def bigintAdd (a b : Num) : Num := (tryAddLimb2Kind a b false false).getD (bigintAddSlow a b)

/-- The difference of two integers. -/
def bigintSub (a b : Num) : Num := (tryAddLimb2Kind a b true false).getD (bigintSubSlow a b)

/-- The product of two integers. -/
def bigintMul (a b : Num) : Num := (tryMulLimb2 a b).getD (bigintMulSlow a b)

/-- The small integer of a value, when it is one. -/
def smallRaw : Num → Option (BitVec 64)
  | .word bits => if isInt (.word bits) then some (untagWord bits) else none
  | .big _ _ => none

/-- The difference `a - q * b`. -/
def bigintSubmul (a q b : Num) : Num :=
  if q = tagV 0 || isZeroFast b then a
  else
    let plus := if q = tagV 1 then tryAddLimb2Kind a b true true else none
    let minus := if q = tagV (-1) then tryAddLimb2Kind a b false true else none
    let small := (smallRaw q).bind fun raw => trySubmulI64Limb2 a raw b
    (((plus.or minus).or small).or (trySubmulLimb2 a q b)).getD (bigintSubmulSlow a q b)

end Nytrix.Rt
