import Nytrix.Big.Division
import Mathlib.Data.Nat.Cast.Field
import Mathlib.Data.Rat.Floor
import Mathlib.Tactic.FieldSimp
import Mathlib.Tactic.LinearCombination

/-! Rational numbers as a numerator, a denominator and a sign. -/

namespace Nytrix.Big

open Nytrix.Lib
open Nytrix.Lib.Positional
open Nat (ofDigits ofDigits_cons)

/-- A numerator, a denominator, and the sign of both. -/
structure BigRat where
  num : Limbs
  den : Limbs
  sign : Int
  deriving DecidableEq

section Functions

/-- Zero. -/
def ratZero : BigRat := ⟨[0], [1], 1⟩

/-- A machine integer. -/
def ratFromInt (n : Int) : BigRat :=
  if n = 0 then ratZero
  else
    let sign := if n < 0 then -1 else 1
    let absN := if n < 0 then 0 - n else n
    ⟨[absN.toNat], [1], sign⟩

/-- Whether the numerator is zero. -/
def ratNumIsZero (r : BigRat) : Bool := r.num.length = 1 ∧ r.num.headD 0 = 0

/-- The negative. -/
def ratNeg (r : BigRat) : BigRat := if ratNumIsZero r then r else ⟨r.num, r.den, 0 - r.sign⟩

/-- The absolute value. -/
def ratAbs (r : BigRat) : BigRat := ⟨r.num, r.den, 1⟩

/-- The same number in lowest terms. -/
def ratSimplify (r : BigRat) : BigRat :=
  if r.num.length = 1 ∧ r.num.headD 0 = 0 then ratZero
  else
    let g := bigGcd r.num r.den
    if bigEq g [1] then r else ⟨(bigDiv r.num g).1, (bigDiv r.den g).1, r.sign⟩

/-- A fraction of two machine integers. -/
def ratFromIntDen (numInt denInt : Int) : BigRat :=
  if numInt = 0 then ratZero
  else
    let sign := if (numInt < 0) ≠ (denInt < 0) then -1 else 1
    let absN := if numInt < 0 then 0 - numInt else numInt
    let absD := if denInt < 0 then 0 - denInt else denInt
    ratSimplify ⟨[absN.toNat], [absD.toNat], sign⟩

/-- The sum. -/
def ratAdd (a b : BigRat) : BigRat :=
  let newDen := bigMul a.den b.den
  let termA := bigMul a.num b.den
  let termB := bigMul b.num a.den
  if a.sign = b.sign then ratSimplify ⟨bigAdd termA termB, newDen, a.sign⟩
  else
    let cmp := bigCmp termA termB
    if cmp = 0 then ratZero
    else if cmp > 0 then ratSimplify ⟨bigSub termA termB, newDen, a.sign⟩
    else ratSimplify ⟨bigSub termB termA, newDen, b.sign⟩

/-- The difference. -/
def ratSub (a b : BigRat) : BigRat := ratAdd a (ratNeg b)

/-- The product. -/
def ratMul (a b : BigRat) : BigRat :=
  ratSimplify ⟨bigMul a.num b.num, bigMul a.den b.den, a.sign * b.sign⟩

/-- The quotient by a number that is not zero. -/
def ratDiv (a b : BigRat) : BigRat :=
  ratSimplify ⟨bigMul a.num b.den, bigMul a.den b.num, a.sign * b.sign⟩

/-- Whether a number is smaller, equal or larger: minus one, zero or one. -/
def ratCmp (a b : BigRat) : Int :=
  let diff := ratSub a b
  if ratNumIsZero diff then 0 else if diff.sign > 0 then 1 else -1

/-- The sum of limbs times the powers of the base, from a power and a sum so far on. -/
def floorLoop : Limbs → Int → Int → Int
  | [], _, q => q
  | d :: digits, base, q => floorLoop digits (base * bigBase) (q + d * base)

/-- The floor. -/
def ratFloor (r : BigRat) : Int :=
  if ratNumIsZero r then 0
  else
    let (qDigits, remDigits) := bigDiv r.num r.den
    let hasRem := ¬(remDigits.length = 1 ∧ remDigits.headD 0 = 0)
    let q := floorLoop qDigits 1 0
    if r.sign < 0 ∧ hasRem then 0 - q - 1
    else if r.sign < 0 then 0 - q
    else q

/-- The nearest integer. -/
def ratRound (r : BigRat) : Int :=
  let half := ratFromIntDen 1 2
  let fl := ratFloor (ratAdd (ratAbs r) half)
  if r.sign < 0 then 0 - fl else fl

end Functions

section Exactness

/-- The sign of a number, where zero is positive. -/
def signOf (q : ℚ) : Int := if q < 0 then -1 else 1

/-- A number in lowest terms: its parts are those of the rational number that it stands for. -/
structure Exact (r : BigRat) (q : ℚ) : Prop where
  num : Denotes r.num q.num.natAbs
  den : Denotes r.den q.den
  sign : r.sign = signOf q

variable {a b : BigRat} {num den : Limbs} {p d : Nat} {q u : ℚ} {s : Int}

theorem ratZero_exact : Exact ratZero 0 where
  num := denotes_digit bigBase_positive
  den := denotes_digit bigBase_large
  sign := rfl

theorem signOf_cases (q : ℚ) : signOf q = 1 ∨ signOf q = -1 := by
  rw [signOf]
  split <;> simp

theorem Exact.value (exact_ : Exact a q) : q = a.sign * q.num.natAbs / q.den := by
  have parts : (a.sign * q.num.natAbs : ℤ) = q.num := by
    rw [exact_.sign, signOf]
    by_cases negative : q < 0
    · have := Rat.num_neg.mpr negative
      rw [if_pos negative]
      omega
    · have := Rat.num_nonneg.mpr (not_lt.mp negative)
      rw [if_neg negative]
      omega
  have whole := Rat.num_div_den q
  rw [← parts, Int.cast_mul, Int.cast_natCast] at whole
  exact whole.symm

theorem exact_of_coprime (top : Denotes num p) (bottom : Denotes den d) (some : 0 < p)
    (positive : 0 < d) (sign : s = 1 ∨ s = -1) (coprime : Nat.Coprime p d) :
    Exact ⟨num, den, s⟩ (s * p / d) := by
  have size : (s * p).natAbs = p := by
    rw [Int.natAbs_mul, Int.natAbs_natCast]
    rcases sign with rfl | rfl <;> simp
  have apart : Nat.Coprime (s * p).natAbs (d : ℤ).natAbs := by rwa [size, Int.natAbs_natCast]
  have cast : (s * p / d : ℚ) = ((s * p : ℤ) : ℚ) / ((d : ℤ) : ℚ) := by push_cast; rfl
  have below : (0 : ℤ) < d := by omega
  have upper := Rat.num_div_eq_of_coprime below apart
  have lower := Rat.den_div_eq_of_coprime below apart
  rw [← cast] at upper lower
  refine ⟨?_, ?_, ?_⟩
  · rw [upper, size]
    exact top
  · rw [show (s * p / d : ℚ).den = d by exact_mod_cast lower]
    exact bottom
  · have negative : (s * p / d : ℚ) < 0 ↔ s < 0 := by
      rw [← Rat.num_neg, upper]
      rcases sign with rfl | rfl <;> omega
    rw [signOf]
    simp only [negative]
    rcases sign with rfl | rfl <;> rfl

theorem ratSimplify_exact (top : Denotes num p) (bottom : Denotes den d) (positive : 0 < d)
    (sign : s = 1 ∨ s = -1) : Exact (ratSimplify ⟨num, den, s⟩) (s * p / d) := by
  rw [ratSimplify]
  by_cases zero : p = 0
  · rw [if_pos ((isZero_iff top).mpr zero), zero]
    simpa using ratZero_exact
  · have some := Nat.pos_of_ne_zero zero
    have common := bigGcd_denotes top bottom
    rw [if_neg (mt (isZero_iff top).mp zero)]
    dsimp only
    rw [bigEq_denotes common (denotes_digit bigBase_large)]
    by_cases one : Nat.gcd p d = 1
    · rw [if_pos (by simpa using one)]
      exact exact_of_coprime top bottom some positive sign one
    · rw [if_neg (by simpa using one)]
      have divisor := Nat.gcd_pos_of_pos_left d some
      have reducedTop := (bigDiv_denotes top common divisor).1
      have reducedBottom := (bigDiv_denotes bottom common divisor).1
      have lowest := exact_of_coprime reducedTop reducedBottom
        (Nat.div_pos (Nat.gcd_le_left d some) divisor)
        (Nat.div_pos (Nat.gcd_le_right p positive) divisor) sign
        (Nat.coprime_div_gcd_div_gcd divisor)
      have same : (s * (p / Nat.gcd p d : ℕ) / (d / Nat.gcd p d : ℕ) : ℚ) = s * p / d := by
        have nonzero : (Nat.gcd p d : ℚ) ≠ 0 := by exact_mod_cast divisor.ne'
        rw [Nat.cast_div (Nat.gcd_dvd_left p d) nonzero,
          Nat.cast_div (Nat.gcd_dvd_right p d) nonzero]
        field_simp
      rwa [same] at lowest

end Exactness

section Operations

variable {a b : BigRat} {q u : ℚ}

theorem den_cast_ne_zero (q : ℚ) : (q.den : ℚ) ≠ 0 := by exact_mod_cast q.den_ne_zero

theorem ratNumIsZero_iff (exact_ : Exact a q) : ratNumIsZero a = true ↔ q = 0 := by
  rw [ratNumIsZero, decide_eq_true_iff, isZero_iff exact_.num, Int.natAbs_eq_zero, Rat.num_eq_zero]

theorem ratFromInt_exact {n : Int} (small : n.natAbs < bigBase) : Exact (ratFromInt n) n := by
  rw [ratFromInt]
  split
  · rename_i zero
    rw [zero]
    exact ratZero_exact
  · refine ⟨?_, denotes_digit bigBase_large, ?_⟩
    · have size : (if n < 0 then 0 - n else n).toNat = n.natAbs := by omega
      show Denotes [(if n < 0 then 0 - n else n).toNat] n.natAbs
      rw [size]
      exact denotes_digit small
    · simp [signOf]

theorem ratFromIntDen_exact {n d : Int} (top : n.natAbs < bigBase) (bottom : d.natAbs < bigBase)
    (nonzero : d ≠ 0) : Exact (ratFromIntDen n d) (n / d) := by
  rw [ratFromIntDen]
  split
  · rename_i zero
    rw [zero]
    simpa using ratZero_exact
  · dsimp only
    rw [show (if n < 0 then 0 - n else n).toNat = n.natAbs by omega,
      show (if d < 0 then 0 - d else d).toNat = d.natAbs by omega]
    have sized : ∀ x : Int, (x.natAbs : ℚ) = if x < 0 then -(x : ℚ) else x := by
      intro x
      split
      · rw [← Int.cast_natCast, show (x.natAbs : Int) = -x by omega, Int.cast_neg]
      · rw [← Int.cast_natCast, show (x.natAbs : Int) = x by omega]
    have built := ratSimplify_exact (s := if (n < 0) ≠ (d < 0) then -1 else 1)
      (denotes_digit top) (denotes_digit bottom) (by omega) (by split <;> simp)
    convert built using 1
    rw [sized, sized]
    -- The signs of both parts cancel, or one is left.
    by_cases above : n < 0 <;> by_cases below : d < 0 <;> simp [above, below, neg_div, div_neg]

theorem ratNeg_exact (exact_ : Exact a q) : Exact (ratNeg a) (-q) := by
  rw [ratNeg]
  by_cases zero : q = 0
  · rw [if_pos ((ratNumIsZero_iff exact_).mpr zero), zero, neg_zero]
    rwa [zero] at exact_
  · rw [if_neg (mt (ratNumIsZero_iff exact_).mp zero)]
    refine ⟨?_, ?_, ?_⟩
    · rw [Rat.num_neg_eq_neg_num, Int.natAbs_neg]
      exact exact_.num
    · rw [Rat.den_neg_eq_den]
      exact exact_.den
    · rw [exact_.sign, signOf, signOf]
      rcases lt_or_gt_of_ne zero with negative | positive
      · simp [negative, not_lt.mpr negative.le]
      · simp [positive, not_lt.mpr positive.le]

theorem ratAbs_exact (exact_ : Exact a q) : Exact (ratAbs a) |q| where
  num := by rw [Rat.num_abs_eq_abs_num, Int.natAbs_abs]; exact exact_.num
  den := by rw [Rat.den_abs_eq_den]; exact exact_.den
  sign := by simp [ratAbs, signOf, not_lt.mpr (abs_nonneg q)]

theorem ratAdd_exact (left : Exact a q) (right : Exact b u) : Exact (ratAdd a b) (q + u) := by
  have newDen := bigMul_denotes left.den right.den
  have termA := bigMul_denotes left.num right.den
  have termB := bigMul_denotes right.num left.den
  have positive := Nat.mul_pos q.den_pos u.den_pos
  have first := left.value
  have second := right.value
  have leftDen := den_cast_ne_zero q
  have rightDen := den_cast_ne_zero u
  rw [ratAdd]
  dsimp only
  split
  · -- The same sign: the sizes are added.
    rename_i same
    have sum := ratSimplify_exact (bigAdd_denotes termA termB) newDen positive
      (left.sign ▸ signOf_cases q)
    convert sum using 1
    conv_lhs => rw [first, second, ← same]
    push_cast
    field_simp
  · -- Different signs: the smaller size is taken from the larger.
    rename_i differ
    have opposite : b.sign = -a.sign := by
      rcases left.sign ▸ signOf_cases q with one | one <;>
        rcases right.sign ▸ signOf_cases u with two | two <;> omega
    rw [bigCmp_denotes termA termB]
    rcases Nat.lt_trichotomy (q.num.natAbs * u.den) (u.num.natAbs * q.den) with
      less | equal | more
    · have rest := ratSimplify_exact (bigSub_denotes termB termA less.le) newDen positive
        (right.sign ▸ signOf_cases u)
      rw [if_neg (not_lt.mpr less.le), if_pos less, if_neg (by decide), if_neg (by decide)]
      convert rest using 1
      rw [Nat.cast_sub less.le, opposite]
      conv_lhs => rw [first, second, opposite]
      push_cast
      field_simp
      ring
    · rw [if_neg equal.not_gt, if_neg equal.not_lt, if_pos rfl]
      convert ratZero_exact using 1
      have balance : (q.num.natAbs * u.den : ℚ) = u.num.natAbs * q.den := by exact_mod_cast equal
      rw [first, second, opposite]
      push_cast
      field_simp
      linear_combination (a.sign : ℚ) * balance
    · have rest := ratSimplify_exact (bigSub_denotes termA termB more.le) newDen positive
        (left.sign ▸ signOf_cases q)
      rw [if_pos more, if_neg (by decide), if_pos (by decide)]
      convert rest using 1
      rw [Nat.cast_sub more.le]
      conv_lhs => rw [first, second, opposite]
      push_cast
      field_simp
      ring

theorem ratSub_exact (left : Exact a q) (right : Exact b u) : Exact (ratSub a b) (q - u) := by
  rw [sub_eq_add_neg]
  exact ratAdd_exact left (ratNeg_exact right)

theorem sign_mul (left : Exact a q) (right : Exact b u) :
    a.sign * b.sign = 1 ∨ a.sign * b.sign = -1 := by
  rw [left.sign, right.sign]
  rcases signOf_cases q with one | one <;> rcases signOf_cases u with two | two <;>
    simp [one, two]

theorem ratMul_exact (left : Exact a q) (right : Exact b u) : Exact (ratMul a b) (q * u) := by
  have product := ratSimplify_exact (bigMul_denotes left.num right.num)
    (bigMul_denotes left.den right.den) (Nat.mul_pos q.den_pos u.den_pos) (sign_mul left right)
  rw [ratMul]
  convert product using 1
  conv_lhs => rw [left.value, right.value]
  push_cast
  ring

theorem ratDiv_exact (left : Exact a q) (right : Exact b u) (nonzero : u ≠ 0) :
    Exact (ratDiv a b) (q / u) := by
  have numerator : 0 < u.num.natAbs :=
    Int.natAbs_pos.mpr (Rat.num_ne_zero.mpr nonzero)
  have quotient := ratSimplify_exact (bigMul_denotes left.num right.den)
    (bigMul_denotes left.den right.num) (Nat.mul_pos q.den_pos numerator) (sign_mul left right)
  rw [ratDiv]
  convert quotient using 1
  have leftDen := den_cast_ne_zero q
  have rightDen := den_cast_ne_zero u
  have size : (u.num.natAbs : ℚ) ≠ 0 := by exact_mod_cast numerator.ne'
  have square : (b.sign : ℚ) * b.sign = 1 := by
    rcases right.sign ▸ signOf_cases u with one | one <;> simp [one]
  have some : (b.sign : ℚ) ≠ 0 := fun zero => by simp [zero] at square
  conv_lhs => rw [left.value, right.value]
  push_cast
  field_simp
  linear_combination -((a.sign : ℚ) * q.num.natAbs) * square

theorem ratCmp_exact (left : Exact a q) (right : Exact b u) :
    ratCmp a b = if q < u then -1 else if q = u then 0 else 1 := by
  have difference := ratSub_exact left right
  rw [ratCmp]
  rcases lt_trichotomy q u with less | equal | more
  · have negative : q - u < 0 := sub_neg.mpr less
    rw [if_neg (mt (ratNumIsZero_iff difference).mp negative.ne), difference.sign, signOf,
      if_pos negative, if_pos less]
    rfl
  · rw [if_pos ((ratNumIsZero_iff difference).mpr (sub_eq_zero.mpr equal)), equal]
    simp
  · have positive : 0 < q - u := sub_pos.mpr more
    rw [if_neg (mt (ratNumIsZero_iff difference).mp positive.ne'), difference.sign, signOf,
      if_neg (not_lt.mpr positive.le), if_neg (not_lt.mpr more.le), if_neg more.ne']
    rfl

end Operations

section Rounding

variable {a : BigRat} {q : ℚ}

theorem floorLoop_eq (digits : Limbs) (base sum : Int) :
    floorLoop digits base sum = sum + base * ofDigits bigBase digits := by
  induction digits generalizing base sum with
  | nil => simp [floorLoop]
  | cons d digits ih =>
    rw [floorLoop, ih, ofDigits_cons]
    push_cast
    ring

theorem ratFloor_exact (exact_ : Exact a q) : ratFloor a = ⌊q⌋ := by
  rw [ratFloor]
  by_cases zero : q = 0
  · rw [if_pos ((ratNumIsZero_iff exact_).mpr zero), zero, Int.floor_zero]
  · rw [if_neg (mt (ratNumIsZero_iff exact_).mp zero)]
    obtain ⟨quotient, rest⟩ := bigDiv_denotes exact_.num exact_.den q.den_pos
    have whole := Nat.mod_add_div q.num.natAbs q.den
    have small := Nat.mod_lt q.num.natAbs q.den_pos
    dsimp only
    simp only [floorLoop_eq, isZero_iff rest]
    rw [Rat.floor_def', quotient.value, exact_.sign, signOf]
    generalize q.num.natAbs / q.den = k at whole
    generalize q.num.natAbs % q.den = r at whole small
    have settled : ∀ {z s : Int}, s + q.den * z = q.num → 0 ≤ s → s < q.den →
        z = q.num / q.den := fun split low high =>
      ((Int.ediv_emod_unique (by omega)).mpr ⟨split, low, high⟩).1.symm
    have wholeCast : (r + q.den * k : Int) = q.num.natAbs := by exact_mod_cast whole
    by_cases negative : q < 0
    · have size := Rat.num_neg.mpr negative
      have flipped : (q.num.natAbs : Int) = -q.num := by omega
      rw [if_pos negative]
      by_cases none : r = 0
      · rw [if_neg (by simp [none]), if_pos (by decide)]
        refine settled (s := 0) ?_ (Int.le_refl 0) (by omega)
        rw [none] at wholeCast
        linear_combination -wholeCast - flipped
      · rw [if_pos ⟨by decide, none⟩]
        refine settled (s := q.den - r) ?_ (by omega) (by omega)
        linear_combination -wholeCast - flipped
    · have size := Rat.num_nonneg.mpr (not_lt.mp negative)
      have same : (q.num.natAbs : Int) = q.num := by omega
      rw [if_neg negative, if_neg (by simp), if_neg (by decide)]
      refine settled (s := r) ?_ (by omega) (by omega)
      linear_combination wholeCast + same

/-- The nearest integer, where of two integers as near the one farther from zero is taken. -/
def RoundsAway (q : ℚ) (z : Int) : Prop :=
  |q - z| ≤ 1 / 2 ∧ (|q - z| = 1 / 2 → |q| < |(z : ℚ)|)

theorem roundsAway_floor {q : ℚ} (nonneg : 0 ≤ q) : RoundsAway q ⌊q + 1 / 2⌋ := by
  have low := Int.floor_le (q + 1 / 2)
  have high := Int.lt_floor_add_one (q + 1 / 2)
  have floor : (0 : ℚ) ≤ ⌊q + 1 / 2⌋ := by exact_mod_cast Int.floor_nonneg.mpr (by linarith)
  refine ⟨abs_le.mpr ⟨by linarith, by linarith⟩, fun tie => ?_⟩
  rw [abs_of_nonneg nonneg, abs_of_nonneg floor]
  rcases abs_eq (by norm_num) |>.mp tie with above | below
  · linarith
  · linarith

theorem RoundsAway.neg {z : Int} (rounds : RoundsAway q z) : RoundsAway (-q) (-z) := by
  have flip : -q - ((-z : Int) : ℚ) = -(q - z) := by push_cast; ring
  rw [RoundsAway, flip, abs_neg, abs_neg, Int.cast_neg, abs_neg]
  exact rounds

theorem ratRound_exact (exact_ : Exact a q) : RoundsAway q (ratRound a) := by
  have half : Exact (ratFromIntDen 1 2) (1 / 2) := by
    rw [show (1 / 2 : ℚ) = ((1 : Int) : ℚ) / ((2 : Int) : ℚ) by norm_num]
    exact ratFromIntDen_exact (by decide) (by decide) (by decide)
  have floor := ratFloor_exact (ratAdd_exact (ratAbs_exact exact_) half)
  have rounds := roundsAway_floor (abs_nonneg q)
  rw [ratRound, floor, exact_.sign, signOf]
  by_cases negative : q < 0
  · rw [if_pos negative, if_pos (by decide), zero_sub]
    rw [abs_of_neg negative] at rounds ⊢
    simpa using rounds.neg
  · rw [if_neg negative, if_neg (by decide)]
    rwa [abs_of_nonneg (not_lt.mp negative)] at rounds ⊢

end Rounding

section Compositions

/-- A composition of the functions on rational numbers. -/
inductive Composition where
  | fromInt (n : Int)
  | fromIntDen (n d : Int)
  | add (a b : Composition)
  | sub (a b : Composition)
  | mul (a b : Composition)
  | div (a b : Composition)
  | neg (a : Composition)
  | abs (a : Composition)

/-- What the functions compute. -/
def Composition.eval : Composition → BigRat
  | fromInt n => ratFromInt n
  | fromIntDen n d => ratFromIntDen n d
  | add a b => ratAdd a.eval b.eval
  | sub a b => ratSub a.eval b.eval
  | mul a b => ratMul a.eval b.eval
  | div a b => ratDiv a.eval b.eval
  | neg a => ratNeg a.eval
  | abs a => ratAbs a.eval

/-- The rational number that a composition stands for. -/
def Composition.value : Composition → ℚ
  | fromInt n => n
  | fromIntDen n d => n / d
  | add a b => a.value + b.value
  | sub a b => a.value - b.value
  | mul a b => a.value * b.value
  | div a b => a.value / b.value
  | neg a => -a.value
  | abs a => |a.value|

/-- No division in a composition is by zero. -/
def Composition.Defined : Composition → Prop
  | fromInt _ => True
  | fromIntDen _ d => d ≠ 0
  | add a b | sub a b | mul a b => a.Defined ∧ b.Defined
  | div a b => a.Defined ∧ b.Defined ∧ b.value ≠ 0
  | neg a | abs a => a.Defined

/-- Every machine integer of a composition is below the base of the limbs. -/
def Composition.Fits : Composition → Prop
  | fromInt n => n.natAbs < bigBase
  | fromIntDen n d => n.natAbs < bigBase ∧ d.natAbs < bigBase
  | add a b | sub a b | mul a b | div a b => a.Fits ∧ b.Fits
  | neg a | abs a => a.Fits

theorem Composition.eval_exact {c : Composition} (defined : c.Defined) (fits : c.Fits) :
    Exact c.eval c.value := by
  induction c with
  | fromInt n => exact ratFromInt_exact fits
  | fromIntDen n d => exact ratFromIntDen_exact fits.1 fits.2 defined
  | add a b left right => exact ratAdd_exact (left defined.1 fits.1) (right defined.2 fits.2)
  | sub a b left right => exact ratSub_exact (left defined.1 fits.1) (right defined.2 fits.2)
  | mul a b left right => exact ratMul_exact (left defined.1 fits.1) (right defined.2 fits.2)
  | div a b left right =>
    exact ratDiv_exact (left defined.1 fits.1) (right defined.2.1 fits.2) defined.2.2
  | neg a inner => exact ratNeg_exact (inner defined fits)
  | abs a inner => exact ratAbs_exact (inner defined fits)

/-- An integer of the base or above is put into one limb. -/
theorem ratFromInt_fails :
    (Composition.fromInt 1000000000).Defined ∧
      ¬Exact (Composition.fromInt 1000000000).eval (Composition.fromInt 1000000000).value := by
  refine ⟨trivial, fun exact_ => ?_⟩
  have limb := exact_.num.digit_lt 1000000000 (by decide)
  exact absurd limb (by decide)

/-- Rational numbers are exact and in lowest terms when every machine integer is a limb. -/
theorem rationals_exact {c : Composition} (defined : c.Defined) :
    (∀ n, c = .fromInt n → (Exact c.eval c.value ↔ c.Fits)) ∧
      (c.Fits → Exact c.eval c.value ∧ ratFloor c.eval = ⌊c.value⌋ ∧
        RoundsAway c.value (ratRound c.eval) ∧
        ∀ d : Composition, d.Defined → d.Fits → ratCmp c.eval d.eval =
          if c.value < d.value then -1 else if c.value = d.value then 0 else 1) := by
  constructor
  · rintro n rfl
    refine ⟨fun exact_ => ?_, Composition.eval_exact defined⟩
    have limbs := exact_.num.digit_lt
    show n.natAbs < bigBase
    by_cases zero : n = 0
    · rw [zero]
      decide
    · have size : (if n < 0 then 0 - n else n).toNat = n.natAbs := by omega
      rw [← size]
      refine limbs _ ?_
      rw [Composition.eval, ratFromInt, if_neg zero]
      exact List.mem_singleton_self _
  · intro fits
    have exact_ := Composition.eval_exact defined fits
    exact ⟨exact_, ratFloor_exact exact_, ratRound_exact exact_,
      fun d defined fits => ratCmp_exact exact_ (Composition.eval_exact defined fits)⟩

/-- One and a half. -/
theorem rationals_exact_half :
    Exact (ratAdd (ratFromInt 1) (ratFromIntDen 1 2)) ((1 : Int) + (1 : Int) / (2 : Int)) := by
  have defined : (Composition.add (.fromInt 1) (.fromIntDen 1 2)).Defined :=
    ⟨trivial, show (2 : Int) ≠ 0 by decide⟩
  exact ((rationals_exact defined).2
    ⟨show (1 : Int).natAbs < bigBase by decide, by decide, by decide⟩).1

end Compositions

end Nytrix.Big
