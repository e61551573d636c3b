import Nytrix.Big.NaturalLaws

/-! Quotients, remainders, powers modulo a number, and greatest common divisors. -/

namespace Nytrix.Big

open Nytrix.Lib
open Nytrix.Lib.Positional
open Nat (ofDigits ofDigits_nil ofDigits_cons)

/-- A number that has as many limbs as another and is at least twice as large. -/
def Overlong (x n : Nat) : Prop := digitCount bigBase x = digitCount bigBase n ∧ 2 * n ≤ x

/-- What the remainder function makes of two numbers. -/
def reduced (m n : Nat) : Nat :=
  if digitCount bigBase m = digitCount bigBase n ∧ n ≤ m then m - n else m % n

variable {a b : Limbs} {m n : Nat}

section Remainder

theorem reduced_eq_mod_iff (positive : 0 < n) : reduced m n = m % n ↔ ¬Overlong m n := by
  rw [reduced, Overlong]
  split
  · rename_i alike
    constructor
    · rintro equal ⟨-, twice⟩
      have := Nat.mod_lt m positive
      omega
    · intro short
      have less : m - n < n := by
        by_contra more
        exact short ⟨alike.1, by omega⟩
      rw [Nat.mod_eq_sub_mod alike.2, Nat.mod_eq_of_lt less]
  · rename_i apart
    simp only [true_iff, not_and]
    exact fun same twice => apart ⟨same, by omega⟩

theorem reduced_modEq (m n : Nat) : reduced m n ≡ m [MOD n] := by
  rw [reduced]
  split
  · rename_i alike
    exact Nat.ModEq.symm (by rw [Nat.ModEq, Nat.mod_eq_sub_mod alike.2])
  · exact Nat.mod_modEq m n

theorem reduced_add_le (le : n ≤ m) (positive : 0 < n) : reduced m n + n ≤ m := by
  rw [reduced]
  split
  · omega
  · have split := Nat.mod_add_div m n
    have whole := Nat.mul_le_mul_left n (Nat.div_pos le positive)
    omega

theorem reduced_of_lt (less : m < n) : reduced m n = m := by
  rw [reduced, if_neg (by omega), Nat.mod_eq_of_lt less]

theorem reduceLoop_denotes {rem : Limbs} {r turns : Nat} (divisor : Denotes b n)
    (denotes : Denotes rem r) (enough : r < n * turns) :
    Denotes (reduceLoop b turns rem) (r % n) := by
  induction turns generalizing rem r with
  | zero => simp at enough
  | succ turns ih =>
    rw [reduceLoop, bigGte_denotes denotes divisor]
    by_cases le : n ≤ r
    · rw [if_pos (by simpa using le), Nat.mod_eq_sub_mod le]
      refine ih (bigSub_denotes denotes divisor le) ?_
      rw [Nat.mul_succ] at enough
      omega
    · rw [if_neg (by simpa using le), Nat.mod_eq_of_lt (by omega)]
      exact denotes

theorem shifted_lt {r d : Nat} (less : r < n) (limb : d < bigBase) :
    r * bigBase + d < n * bigBase := by
  have bound := Nat.mul_le_mul_right bigBase (Nat.succ_le_of_lt less)
  rw [Nat.succ_mul] at bound
  omega

theorem longMod_denotes (divisor : Denotes b n) (positive : 0 < n)
    (digit_lt : ∀ d ∈ a, d < bigBase) :
    Denotes (a.foldr (fun d rem => reduceLoop b bigBase (shiftIn rem d)) [0])
      (ofDigits bigBase a % n) := by
  induction a with
  | nil =>
    rw [ofDigits_nil, Nat.zero_mod]
    exact denotes_digit bigBase_positive
  | cons d a ih =>
    have upper := ih fun x member => digit_lt x (List.mem_cons_of_mem _ member)
    have less := Nat.mod_lt (ofDigits bigBase a) positive
    have step := reduceLoop_denotes divisor (mulAddSmall_denotes upper bigBase d)
      (shifted_lt less (digit_lt d List.mem_cons_self))
    have same : (ofDigits bigBase a % n * bigBase + d) % n = ofDigits bigBase (d :: a) % n := by
      rw [ofDigits_cons, Nat.add_comm d, Nat.mul_comm bigBase, Nat.add_mod, Nat.mul_mod,
        Nat.mod_mod, ← Nat.mul_mod, ← Nat.add_mod]
    rw [same] at step
    exact step

theorem bigModDigits_denotes (left : Denotes a m) (right : Denotes b n) (positive : 0 < n) :
    Denotes (bigModDigits a b) (reduced m n) := by
  have some : a.length ≠ 0 := mt List.length_eq_zero_iff.mp left.nonempty
  rw [bigModDigits, if_neg some]
  split
  · rename_i shorter
    rw [reduced_of_lt (left.lt_of_length_lt bigBase_large right shorter)]
    exact left
  · split
    · -- As many limbs: the numbers are compared, and the divisor is taken away once.
      rename_i same
      have alike : digitCount bigBase m = digitCount bigBase n := by
        rw [← left.length_eq bigBase_large, ← right.length_eq bigBase_large, same]
      simp only [bigCmp_denotes left right]
      rcases Nat.lt_trichotomy m n with less | equal | more
      · rw [reduced_of_lt less]
        simpa [less, Nat.lt_asymm less] using left
      · subst equal
        have zero : reduced m m = 0 := by simp [reduced]
        rw [zero]
        simpa using denotes_digit bigBase_positive
      · have once : reduced m n = m - n := if_pos ⟨alike, Nat.le_of_lt more⟩
        rw [once]
        simpa [more] using bigSub_denotes left right (Nat.le_of_lt more)
    · rename_i apart
      have differ : digitCount bigBase m ≠ digitCount bigBase n := by
        rwa [← left.length_eq bigBase_large, ← right.length_eq bigBase_large]
      rw [reduced, if_neg fun alike => differ alike.1, ← left.value]
      exact (longMod_denotes right positive left.digit_lt).trim

end Remainder

section Gcd

theorem gcd_reduced (m n : Nat) : Nat.gcd n (reduced m n) = Nat.gcd m n := by
  rw [Nat.gcd_comm]
  exact (reduced_modEq m n).gcd_eq

theorem gcdLoop_denotes {turns : Nat} (left : Denotes a m) (right : Denotes b n)
    (enough : 2 * (m + n) + (if m < n then 1 else 0) < turns) :
    Denotes (gcdLoop turns a b) (Nat.gcd m n) := by
  -- A turn takes the divisor from the sum, or else puts the two numbers in order.
  induction turns generalizing a b m n with
  | zero => simp at enough
  | succ turns ih =>
    rw [gcdLoop]
    by_cases done : n = 0
    · rw [if_pos ((isZero_iff right).mpr done), done, Nat.gcd_zero_right]
      exact left
    · have positive := Nat.pos_of_ne_zero done
      rw [if_neg (mt (isZero_iff right).mp done), ← gcd_reduced]
      refine ih right (bigModDigits_denotes left right positive) ?_
      by_cases less : m < n
      · rw [if_pos less] at enough
        rw [reduced_of_lt less, if_neg (Nat.lt_asymm less)]
        omega
      · have smaller := reduced_add_le (Nat.le_of_not_lt less) positive
        rw [if_neg less] at enough
        split <;> omega

theorem bigGcd_denotes (left : Denotes a m) (right : Denotes b n) :
    Denotes (bigGcd a b) (Nat.gcd m n) := by
  have first := left.lt_pow bigBase_large
  have second := right.lt_pow bigBase_large
  refine (gcdLoop_denotes left right ?_).trim
  split <;> omega

end Gcd

section Quotient

theorem div_mod_of_split {x q r d : Nat} (split : r + d * q = x) (less : r < d) :
    x / d = q ∧ x % d = r :=
  (Nat.div_mod_unique (Nat.zero_lt_of_lt less)).mpr ⟨split, less⟩

theorem divSmall_fold {d : Nat} (positive : 0 < d) (digit_lt : ∀ x ∈ a, x < bigBase) :
    (∀ x ∈ (a.foldr (divSmallStep d) ([], 0)).1, x < bigBase) ∧
      (a.foldr (divSmallStep d) ([], 0)).1.length = a.length ∧
      (a.foldr (divSmallStep d) ([], 0)).2 < d ∧
      (a.foldr (divSmallStep d) ([], 0)).2 +
        d * ofDigits bigBase (a.foldr (divSmallStep d) ([], 0)).1 = ofDigits bigBase a := by
  induction a with
  | nil => simpa using positive
  | cons digit a ih =>
    obtain ⟨limbs, length, less, value⟩ :=
      ih fun x member => digit_lt x (List.mem_cons_of_mem _ member)
    rw [List.foldr_cons]
    generalize a.foldr (divSmallStep d) ([], 0) = state at limbs length less value
    have bound := shifted_lt less (digit_lt digit List.mem_cons_self)
    have split := Nat.mod_add_div (state.2 * bigBase + digit) d
    refine ⟨?_, by simp [divSmallStep, length], Nat.mod_lt _ positive, ?_⟩
    · simp only [divSmallStep, List.mem_cons, forall_eq_or_imp]
      exact ⟨(Nat.div_lt_iff_lt_mul positive).mpr (by rwa [Nat.mul_comm bigBase]), limbs⟩
    · simp only [divSmallStep, ofDigits_cons, ← value]
      calc (state.2 * bigBase + digit) % d +
            d * ((state.2 * bigBase + digit) / d + bigBase * ofDigits bigBase state.1)
          = (state.2 * bigBase + digit) % d + d * ((state.2 * bigBase + digit) / d) +
              d * (bigBase * ofDigits bigBase state.1) := by ring
        _ = digit + bigBase * (state.2 + d * ofDigits bigBase state.1) := by rw [split]; ring

theorem bigDivSmall_denotes {d : Nat} (denotes : Denotes a m) (positive : 0 < d) :
    Denotes (bigDivSmall a d).1 (m / d) ∧ (bigDivSmall a d).2 = m % d := by
  have some : a.length ≠ 0 := mt List.length_eq_zero_iff.mp denotes.nonempty
  obtain ⟨limbs, length, less, value⟩ := divSmall_fold positive denotes.digit_lt
  rw [denotes.value] at value
  obtain ⟨quotient, rest⟩ := div_mod_of_split value less
  rw [bigDivSmall, if_neg some, quotient, rest]
  refine ⟨bigTrim_denotes (fun nil => some ?_) limbs, rfl⟩
  rw [← length, nil, List.length_nil]

theorem quotLoop_eq {rem : Limbs} {r turns lo hi : Nat} (divisor : Denotes b n)
    (denotes : Denotes rem r) (le : lo ≤ hi) (above : n * lo ≤ r) (below : r < n * (hi + 1))
    (enough : hi - lo < 2 ^ turns) : quotLoop b rem turns lo hi = r / n := by
  have settled : ∀ {lo hi}, lo = hi → n * lo ≤ r → r < n * (hi + 1) → lo = r / n := by
    intro lo hi same above below
    subst same
    exact (Nat.div_eq_of_lt_le (by rwa [Nat.mul_comm]) (by rwa [Nat.mul_comm])).symm
  induction turns generalizing lo hi with
  | zero =>
    rw [Nat.pow_zero] at enough
    exact settled (show lo = hi by omega) above below
  | succ turns ih =>
    rw [quotLoop]
    by_cases apart : lo < hi
    · have trial := bigMulSmall_denotes divisor ((lo + hi + 1) / 2)
      rw [Nat.pow_succ] at enough
      rw [if_pos apart]
      dsimp only
      rw [bigGte_denotes denotes trial]
      by_cases fits : n * ((lo + hi + 1) / 2) ≤ r
      · rw [if_pos (by simpa using fits)]
        exact ih (by omega) fits below (by omega)
      · rw [if_neg (by simpa using fits)]
        refine ih (by omega) above ?_ (by omega)
        rw [show (lo + hi + 1) / 2 - 1 + 1 = (lo + hi + 1) / 2 by omega]
        omega
    · rw [if_neg apart]
      exact settled (by omega) above below

theorem longDiv_denotes (divisor : Denotes b n) (positive : 0 < n)
    (digit_lt : ∀ d ∈ a, d < bigBase) :
    (∀ x ∈ (a.foldr (divStep b) ([], [0])).1, x < bigBase) ∧
      (a.foldr (divStep b) ([], [0])).1.length = a.length ∧
      ofDigits bigBase (a.foldr (divStep b) ([], [0])).1 = ofDigits bigBase a / n ∧
      Denotes (a.foldr (divStep b) ([], [0])).2 (ofDigits bigBase a % n) := by
  induction a with
  | nil =>
    refine ⟨by simp, rfl, by simp, ?_⟩
    rw [ofDigits_nil, Nat.zero_mod]
    exact denotes_digit bigBase_positive
  | cons d a ih =>
    obtain ⟨limbs, length, quotient, upper⟩ :=
      ih fun x member => digit_lt x (List.mem_cons_of_mem _ member)
    rw [List.foldr_cons]
    generalize a.foldr (divStep b) ([], [0]) = state at limbs length quotient upper
    have less := Nat.mod_lt (ofDigits bigBase a) positive
    have bound := shifted_lt less (digit_lt d List.mem_cons_self)
    have rest := mulAddSmall_denotes upper bigBase d
    -- The next limb of the quotient, and what is left.
    generalize whole : ofDigits bigBase a % n * bigBase + d = r at bound rest
    have found : quotLoop b (shiftIn state.2 d) 30 0 (bigBase - 1) = r / n :=
      quotLoop_eq divisor rest (Nat.zero_le _) (by simp) (by simpa [bigBase] using bound)
        (by decide)
    have split := Nat.mod_add_div r n
    have value : ofDigits bigBase (d :: a) =
        r % n + n * (r / n + bigBase * (ofDigits bigBase a / n)) := by
      have parts := Nat.mod_add_div (ofDigits bigBase a) n
      rw [ofDigits_cons, Nat.mul_add, ← Nat.add_assoc, split, ← whole]
      conv_lhs => rw [← parts]
      ring
    have unique := div_mod_of_split value.symm (Nat.mod_lt r positive)
    rw [divStep]
    dsimp only
    rw [found]
    refine ⟨?_, by simp [length], ?_, ?_⟩
    · simp only [List.mem_cons, forall_eq_or_imp]
      exact ⟨(Nat.div_lt_iff_lt_mul positive).mpr (by rwa [Nat.mul_comm]), limbs⟩
    · rw [ofDigits_cons, quotient, unique.1]
    · rw [unique.2]
      split_ifs with some
      · have taken := bigSub_denotes rest (bigMulSmall_denotes divisor (r / n)) (by omega)
        rwa [show r - n * (r / n) = r % n by omega] at taken
      · have zero : r / n = 0 := by omega
        rw [zero, Nat.mul_zero, Nat.add_zero] at split
        rw [split]
        exact rest

theorem bigDiv_denotes (left : Denotes a m) (right : Denotes b n) (positive : 0 < n) :
    Denotes (bigDiv a b).1 (m / n) ∧ Denotes (bigDiv a b).2 (m % n) := by
  rw [bigDiv]
  simp only [bigCmp_denotes left right]
  rcases Nat.lt_trichotomy m n with less | equal | more
  · rw [Nat.div_eq_of_lt less, Nat.mod_eq_of_lt less]
    simpa [less, Nat.lt_asymm less] using And.intro (denotes_digit bigBase_positive) left
  · subst equal
    rw [Nat.div_self positive, Nat.mod_self]
    simpa using And.intro (denotes_digit bigBase_large) (denotes_digit bigBase_positive)
  · obtain ⟨limbs, length, quotient, rest⟩ := longDiv_denotes right positive left.digit_lt
    have some : (a.foldr (divStep b) ([], [0])).1 ≠ [] := by
      rw [← List.length_pos_iff, length]
      exact List.length_pos_iff.mpr left.nonempty
    rw [left.value] at quotient rest
    simpa [more, quotient] using And.intro (bigTrim_denotes some limbs) rest.trim

end Quotient

end Nytrix.Big
