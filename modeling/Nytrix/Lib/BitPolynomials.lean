import Mathlib.Algebra.Field.ZMod
import Mathlib.Algebra.Polynomial.FieldDivision

/-! Numbers as polynomials over the field of two elements, whose coefficients are their bits. -/

namespace Nytrix.Lib.BitPolynomials

open Polynomial

section Bits

variable {m n k i : Nat}

/-- The polynomial whose coefficients are the bits of a number. -/
noncomputable def toPoly (n : Nat) : (ZMod 2)[X] :=
  ∑ i ∈ Finset.range n, if n.testBit i then X ^ i else 0

theorem coeff_toPoly (n i : Nat) : (toPoly n).coeff i = if n.testBit i then 1 else 0 := by
  rw [toPoly, finset_sum_coeff]
  by_cases set : n.testBit i = true
  · have below : i < n := Nat.lt_of_lt_of_le Nat.lt_two_pow_self (Nat.ge_two_pow_of_testBit set)
    rw [Finset.sum_eq_single i, if_pos set, if_pos set, coeff_X_pow_self]
    · intro j _ other
      split
      · rw [coeff_X_pow, if_neg (Ne.symm other)]
      · exact coeff_zero i
    · exact fun outside => absurd (Finset.mem_range.mpr below) outside
  · rw [if_neg set]
    refine Finset.sum_eq_zero fun j _ => ?_
    split
    · next other =>
      rw [coeff_X_pow, if_neg]
      rintro rfl
      exact set other
    · exact coeff_zero i

theorem toPoly_injective : Function.Injective toPoly := by
  intro m n same
  refine Nat.eq_of_testBit_eq fun i => ?_
  have coefficient := congrArg (fun p => p.coeff i) same
  simp only [coeff_toPoly] at coefficient
  cases set : m.testBit i <;> cases other : n.testBit i <;> simp_all

@[simp] theorem toPoly_zero : toPoly 0 = 0 := by
  ext i
  simp [coeff_toPoly]

theorem toPoly_two_pow (k : Nat) : toPoly (2 ^ k) = X ^ k := by
  ext i
  rw [coeff_toPoly, coeff_X_pow, Nat.testBit_two_pow]
  simp [eq_comm]

@[simp] theorem toPoly_one : toPoly 1 = 1 := toPoly_two_pow 0

theorem toPoly_xor (m n : Nat) : toPoly (m ^^^ n) = toPoly m + toPoly n := by
  ext i
  rw [coeff_add, coeff_toPoly, coeff_toPoly, coeff_toPoly, Nat.testBit_xor]
  cases m.testBit i <;> cases n.testBit i <;> decide

theorem toPoly_shiftLeft (n k : Nat) : toPoly (n <<< k) = X ^ k * toPoly n := by
  ext i
  rw [coeff_X_pow_mul', coeff_toPoly, Nat.testBit_shiftLeft]
  by_cases above : k ≤ i
  · rw [if_pos above, coeff_toPoly]
    simp [above]
  · simp [above]

theorem toPoly_half (n : Nat) :
    toPoly n = (if n.testBit 0 then (1 : (ZMod 2)[X]) else 0) + X * toPoly (n >>> 1) := by
  ext i
  cases i with
  | zero =>
    rw [coeff_add, coeff_toPoly, mul_coeff_zero, coeff_X_zero, zero_mul, add_zero]
    split
    · exact coeff_one_zero.symm
    · exact (coeff_zero 0).symm
  | succ i =>
    rw [coeff_add, coeff_X_mul, coeff_toPoly, coeff_toPoly, Nat.testBit_shiftRight, Nat.add_comm 1 i]
    have none : (if n.testBit 0 then (1 : (ZMod 2)[X]) else 0).coeff (i + 1) = 0 := by
      split
      · rw [coeff_one, if_neg (Nat.succ_ne_zero i)]
      · exact coeff_zero _
    rw [none, zero_add]

theorem degree_lt (below : n < 2 ^ k) : (toPoly n).degree < k := by
  rw [degree_lt_iff_coeff_zero]
  intro i above
  have below : n < 2 ^ i := Nat.lt_of_lt_of_le below (Nat.pow_le_pow_right (by decide) above)
  rw [coeff_toPoly, Nat.testBit_lt_two_pow below]
  rfl

theorem degree_toPoly (some : n ≠ 0) : (toPoly n).degree = n.log2 := by
  have one : (toPoly n).coeff n.log2 = 1 := by
    rw [coeff_toPoly, Nat.testBit_log2 some, if_pos rfl]
  refine le_antisymm ((degree_le_iff_coeff_zero _ _).mpr fun i above => ?_)
    (le_degree_of_ne_zero (one ▸ one_ne_zero))
  have above : n.log2 + 1 ≤ i := by exact_mod_cast above
  have below : n < 2 ^ i :=
    Nat.lt_of_lt_of_le Nat.lt_log2_self (Nat.pow_le_pow_right (by decide) above)
  rw [coeff_toPoly, Nat.testBit_lt_two_pow below]
  rfl

theorem monic_toPoly (some : n ≠ 0) : (toPoly n).Monic := by
  rw [Monic, leadingCoeff, natDegree_eq_of_degree_eq_some (degree_toPoly some), coeff_toPoly,
    Nat.testBit_log2 some, if_pos rfl]

end Bits

section Division

variable {a m r : Nat}

theorem xor_shift_lt (some : a ≠ 0) (divisor : m ≠ 0) (le : m.log2 ≤ a.log2) :
    a ^^^ (m <<< (a.log2 - m.log2)) < 2 ^ a.log2 := by
  refine Nat.lt_pow_two_of_testBit _ fun i above => ?_
  rw [Nat.testBit_xor, Nat.testBit_shiftLeft]
  rcases Nat.eq_or_lt_of_le above with rfl | higher
  · -- Both have the highest bit.
    rw [Nat.testBit_log2 some, show a.log2 - (a.log2 - m.log2) = m.log2 by omega,
      Nat.testBit_log2 divisor]
    simp
  · have high (n j : Nat) (less : n.log2 < j) : n.testBit j = false :=
      Nat.testBit_lt_two_pow
        (Nat.lt_of_lt_of_le Nat.lt_log2_self (Nat.pow_le_pow_right (by decide) less))
    rw [high a i higher, high m _ (by omega)]
    simp

theorem sub_eq_add_poly (p q : (ZMod 2)[X]) : p - q = p + q := CharTwo.sub_eq_add p q

theorem eq_mod (divisor : m ≠ 0) (below : r < 2 ^ m.log2) {p : (ZMod 2)[X]}
    (multiple : toPoly m ∣ p - toPoly r) : toPoly r = p % toPoly m := by
  have monic := monic_toPoly divisor
  obtain ⟨q, whole⟩ := multiple
  have small : (toPoly r).degree < (toPoly m).degree := by
    rw [degree_toPoly divisor]
    exact degree_lt below
  rw [← modByMonic_eq_mod p monic]
  refine ((div_modByMonic_unique q (toPoly r) monic ⟨?_, small⟩).2).symm
  rw [← whole]
  ring

theorem eq_one_of_isUnit (unit : IsUnit (toPoly a)) : a = 1 := by
  have some : a ≠ 0 := by
    rintro rfl
    rw [toPoly_zero] at unit
    exact not_isUnit_zero unit
  have flat := degree_eq_zero_of_isUnit unit
  rw [degree_toPoly some] at flat
  have low : a.log2 = 0 := by exact_mod_cast flat
  have below := Nat.lt_log2_self (n := a)
  rw [low] at below
  omega

end Division

end Nytrix.Lib.BitPolynomials
