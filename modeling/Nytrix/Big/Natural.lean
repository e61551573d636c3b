import Nytrix.Codec.Text
import Nytrix.Lib.Positional

/-! Natural numbers of any size, as lists of limbs with the least limb first. -/

namespace Nytrix.Big

open Nytrix.Codec (Text chr)
open Nytrix.Lib.Positional (carried borrowed)

/-- The base of the limbs. -/
def bigBase : Nat := 1000000000

/-- The limbs of a number. A loop that does not come to its end gives the empty list. -/
abbrev Limbs := List Nat

section Comparison

/-- The limbs without the leading one. -/
def bigRmLast (lst : Limbs) : Limbs := if lst.length ≤ 1 then [0] else lst.dropLast

/-- Takes leading zero limbs away, in so many turns. -/
def trimLoop : Nat → Limbs → Limbs
  | 0, lst => lst
  | turns + 1, lst =>
    if 1 < lst.length ∧ lst.getLast? = some 0 then trimLoop turns (bigRmLast lst) else lst

/-- The limbs without leading zero limbs. -/
def bigTrim (lst : Limbs) : Limbs := trimLoop lst.length lst

/-- Compares pairs of limbs, from the first pair on. -/
def cmpLoop : List (Nat × Nat) → Int
  | [] => 0
  | (ai, bi) :: lower => if ai > bi then 1 else if ai < bi then -1 else cmpLoop lower

/-- Whether a number is smaller, equal or larger: minus one, zero or one. -/
def bigCmp (a b : Limbs) : Int :=
  if a.length > b.length then 1
  else if a.length < b.length then -1
  else cmpLoop (a.zip b).reverse

/-- Whether a number is at least another. -/
def bigGte (a b : Limbs) : Bool := bigCmp a b ≥ 0

/-- Whether two numbers are equal. -/
def bigEq (a b : Limbs) : Bool := bigCmp a b = 0

end Comparison

section Arithmetic

/-- The difference of a number and one that is not larger. -/
def bigSub (a b : Limbs) : Limbs := bigTrim (borrowed bigBase 0 a b)

/-- The sums of the limbs, where a missing limb counts as zero. -/
def addColumns : Limbs → Limbs → List Nat
  | [], b => b
  | a, [] => a
  | ai :: a, bi :: b => (ai + bi) :: addColumns a b

/-- The sum. -/
def bigAdd (a b : Limbs) : Limbs := bigTrim (carried bigBase (addColumns a b) 0)

/-- The product with a small number. -/
def bigMulSmall (digits : Limbs) (n : Nat) : Limbs :=
  if n = 0 then [0]
  else if n = 1 then digits
  else bigTrim (carried bigBase (digits.map (· * n)) 0)

/-- The sum with a small number, where leading zero limbs stay. -/
def bigAddSmall (digits : Limbs) (n : Nat) : Limbs :=
  if n = 0 then digits else carried bigBase digits n

/-- Adds a multiple of the second number to a result, from one of its limbs on. -/
def mulRow (ai : Nat) : Limbs → Nat → Limbs → Limbs
  | bj :: b, carry, old :: result =>
    let prod := ai * bj + old + carry
    prod % bigBase :: mulRow ai b (prod / bigBase) result
  | [], carry, old :: result => (old + carry) :: result
  | _, _, [] => []

/-- Adds a row for each limb of the first number, each one limb further on. -/
def mulRows (b : Limbs) : Limbs → Limbs → Limbs
  | [], result => result
  | ai :: a, result =>
    match mulRow ai b 0 result with
    | [] => []
    | low :: high => low :: mulRows b a high

/-- The product. -/
def bigMul (a b : Limbs) : Limbs :=
  bigTrim (mulRows b a (List.replicate (a.length + b.length) 0))

end Arithmetic

section Division

/-- A remainder with the next limb of the dividend behind it. -/
def shiftIn (rem : Limbs) (d : Nat) : Limbs := bigTrim (bigAddSmall (bigMulSmall rem bigBase) d)

/-- Takes a number away as long as it can be, in so many turns. -/
def reduceLoop (n : Limbs) : Nat → Limbs → Limbs
  | 0, _ => []
  | turns + 1, rem => if bigGte rem n then reduceLoop n turns (bigSub rem n) else rem

/-- The remainder of a division. -/
def bigModDigits (a n : Limbs) : Limbs :=
  if a.length = 0 then [0]
  else if a.length < n.length then a
  else if a.length = n.length then
    let cmp := bigCmp a n
    if cmp < 0 then a else if cmp = 0 then [0] else bigSub a n
  else bigTrim (a.foldr (fun d rem => reduceLoop n bigBase (shiftIn rem d)) [0])

/-- One limb of the quotient by a small number, and what is left. -/
def divSmallStep (d digit : Nat) (state : Limbs × Nat) : Limbs × Nat :=
  let (result, rem) := state
  let cur := rem * bigBase + digit
  (cur / d :: result, cur % d)

/-- Quotient and remainder of a division by a small number. -/
def bigDivSmall (digits : Limbs) (d : Nat) : Limbs × Nat :=
  if digits.length = 0 then ([0], 0)
  else
    let (result, rem) := digits.foldr (divSmallStep d) ([], 0)
    (bigTrim result, rem)

/-- Squares and multiplies, in so many turns. -/
def powmodLoop (modDigits : Limbs) : Nat → Limbs → Limbs → Limbs → Limbs
  | 0, _, _, _ => []
  | turns + 1, b, e, result =>
    if e.length > 1 ∨ e.headD 0 > 0 then
      let result := if e.headD 0 % 2 ≠ 0 then bigModDigits (bigMul result b) modDigits else result
      powmodLoop modDigits turns (bigModDigits (bigMul b b) modDigits) (bigDivSmall e 2).1 result
    else result

/-- A power modulo a number. -/
def bigPowmod (baseDigits expDigits modDigits : Limbs) : Limbs :=
  if expDigits.length = 1 ∧ expDigits.headD 0 = 0 then [1]
  else if baseDigits.length = 1 ∧ baseDigits.headD 0 = 0 then [0]
  -- The base is below the thirtieth power of two, and each turn halves the exponent.
  else powmodLoop modDigits (30 * expDigits.length + 1) (bigModDigits baseDigits modDigits)
    expDigits [1]

/-- The Euclidean algorithm, in so many turns. -/
def gcdLoop : Nat → Limbs → Limbs → Limbs
  | 0, _, _ => []
  | turns + 1, aa, bb =>
    if bb.length = 1 ∧ bb.headD 0 = 0 then aa else gcdLoop turns bb (bigModDigits aa bb)

/-- The greatest common divisor. -/
def bigGcd (a b : Limbs) : Limbs :=
  bigTrim (gcdLoop (2 * (bigBase ^ a.length + bigBase ^ b.length)) a b)

/-- Searches the largest factor of the divisor that is not above the remainder. -/
def quotLoop (b rem : Limbs) : Nat → Nat → Nat → Nat
  | 0, lo, _ => lo
  | turns + 1, lo, hi =>
    if lo < hi then
      let mid := (lo + hi + 1) / 2
      if bigGte rem (bigMulSmall b mid) then quotLoop b rem turns mid hi
      else quotLoop b rem turns lo (mid - 1)
    else lo

/-- One limb of the quotient, and what is left of the remainder. -/
def divStep (b : Limbs) (d : Nat) (state : Limbs × Limbs) : Limbs × Limbs :=
  let (quot, rem) := state
  let rem := shiftIn rem d
  -- Each turn halves what is left of the limb's range.
  let lo := quotLoop b rem 30 0 (bigBase - 1)
  (lo :: quot, if lo > 0 then bigSub rem (bigMulSmall b lo) else rem)

/-- Quotient and remainder of a division. -/
def bigDiv (a b : Limbs) : Limbs × Limbs :=
  let cmp := bigCmp a b
  if cmp < 0 then ([0], a)
  else if cmp = 0 then ([1], [0])
  else
    let (quot, rem) := a.foldr (divStep b) ([], [0])
    (bigTrim quot, bigTrim rem)

end Division

section Decimal

/-- The decimal digits of a number as character codes, in so many turns. -/
def digitLoop : Nat → Nat → List Nat
  | 0, _ => []
  | turns + 1, val => if val > 0 then (val % 10 + 48) :: digitLoop turns (val / 10) else []

/-- The decimal text of a limb. -/
def int2s (n : Nat) : Text :=
  if n = 0 then [48] else (digitLoop n n).reverse.flatMap fun (c : Nat) => chr c

/-- The text of a limb, with zeros in front of each limb but the leading one. -/
def limbText (leading : Bool) (val : Nat) : Text :=
  let chunk := int2s val
  if leading then chunk else List.replicate (9 - chunk.length) 48 ++ chunk

/-- The decimal text of a number. -/
def bigToDec (digits : Limbs) : Text :=
  match digits.reverse with
  | [] => [48]
  | top :: lower => limbText true top ++ lower.flatMap (limbText false)

/-- The number that some decimal characters stand for. -/
def chunkVal (chunk : Text) : Nat := chunk.foldl (fun val c => val * 10 + (c.toNat - 48)) 0

/-- Reads a decimal text, nine characters at a time, in so many turns. -/
def fromDecLoop : Nat → Limbs → Text → Limbs
  | 0, _, _ => []
  | turns + 1, result, text =>
    if text = [] then result
    else
      let chunk := text.take 9
      let result := bigAddSmall (bigMulSmall result (10 ^ chunk.length)) (chunkVal chunk)
      fromDecLoop turns (bigTrim result) (text.drop 9)

/-- The number that a decimal text stands for. -/
def bigFromDec (s : Text) : Limbs := fromDecLoop (s.length + 1) [0] s

end Decimal

end Nytrix.Big
