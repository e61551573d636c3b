import Mathlib.Data.Nat.Digits.Lemmas
import Mathlib.Tactic.Linarith

/-! Digit lists of a base, least digit first: normal forms, carries, borrows and comparison. -/

namespace Nytrix.Lib.Positional

open Nat (ofDigits ofDigits_nil ofDigits_cons ofDigits_append ofDigits_singleton)

/-- A digit list in normal form: not empty, and without a leading zero of its own. -/
structure Normal (b : Nat) (digits : List Nat) : Prop where
  nonempty : digits ≠ []
  digit_lt : ∀ d ∈ digits, d < b
  leading : 1 < digits.length → digits.getLast? ≠ some 0

/-- A digit list in normal form that stands for a number. -/
structure Denotes (b : Nat) (digits : List Nat) (n : Nat) : Prop extends Normal b digits where
  value : ofDigits b digits = n

/-- How many digits a number has. -/
def digitCount (b n : Nat) : Nat := Nat.log b n + 1

variable {b : Nat}

section Forms

theorem denotes_digit {d : Nat} (small : d < b) : Denotes b [d] d where
  nonempty := List.cons_ne_nil _ _
  digit_lt := by simpa using small
  leading := fun long => absurd long (by simp)
  value := ofDigits_singleton

theorem pow_le_ofDigits {digits : List Nat} (nonempty : digits ≠ [])
    (leading : digits.getLast? ≠ some 0) : b ^ (digits.length - 1) ≤ ofDigits b digits := by
  -- The leading digit is split off, and it alone reaches the power.
  have top : 0 < digits.getLast nonempty := by
    rw [List.getLast?_eq_some_getLast nonempty] at leading
    exact Nat.pos_of_ne_zero fun zero => leading (by rw [zero])
  have split := List.dropLast_append_getLast nonempty
  calc b ^ (digits.length - 1)
      ≤ b ^ (digits.length - 1) * digits.getLast nonempty := Nat.le_mul_of_pos_right _ top
    _ ≤ ofDigits b (digits.dropLast ++ [digits.getLast nonempty]) := by
      rw [ofDigits_append, ofDigits_singleton, List.length_dropLast]
      exact Nat.le_add_left _ _
    _ = ofDigits b digits := by rw [split]

theorem ofDigits_lt_of_length_lt (large : 1 < b) {short long : List Nat}
    (digit_lt : ∀ d ∈ short, d < b) (shorter : short.length < long.length)
    (nonempty : short ≠ []) (normal : Normal b long) : ofDigits b short < ofDigits b long := by
  have positive := List.length_pos_iff.mpr nonempty
  have reached := pow_le_ofDigits (b := b) normal.nonempty (normal.leading (by omega))
  calc ofDigits b short < b ^ short.length := Nat.ofDigits_lt_base_pow_length large digit_lt
    _ ≤ b ^ (long.length - 1) := Nat.pow_le_pow_right (by omega) (by omega)
    _ ≤ ofDigits b long := reached

variable {digits other : List Nat} {m n : Nat}

theorem Denotes.lt_pow (large : 1 < b) (denotes : Denotes b digits n) : n < b ^ digits.length := by
  rw [← denotes.value]
  exact Nat.ofDigits_lt_base_pow_length large denotes.digit_lt

theorem Denotes.lt_of_length_lt (large : 1 < b) (left : Denotes b digits m)
    (right : Denotes b other n) (shorter : digits.length < other.length) : m < n := by
  rw [← left.value, ← right.value]
  exact ofDigits_lt_of_length_lt large left.digit_lt shorter left.nonempty right.toNormal

theorem Denotes.length_eq (large : 1 < b) (denotes : Denotes b digits n) :
    digits.length = digitCount b n := by
  have positive := List.length_pos_iff.mpr denotes.nonempty
  have above := denotes.lt_pow large
  have same : digits.length - 1 + 1 = digits.length := Nat.sub_add_cancel positive
  rw [digitCount, ← same, Nat.add_right_cancel_iff]
  by_cases several : 1 < digits.length
  · -- The leading digit puts the number between two powers of the base.
    have reached := pow_le_ofDigits (b := b) denotes.nonempty (denotes.leading several)
    rw [denotes.value] at reached
    exact (Nat.log_eq_of_pow_le_of_lt_pow reached (same.symm ▸ above)).symm
  · have one : digits.length = 1 := by omega
    rw [one] at above ⊢
    exact (Nat.log_of_lt (by simpa using above)).symm

theorem Denotes.unique (large : 1 < b) (left : Denotes b digits n) (right : Denotes b other n) :
    digits = other :=
  Nat.ofDigits_inj_of_len_eq large ((left.length_eq large).trans (right.length_eq large).symm)
    left.digit_lt right.digit_lt (left.value.trans right.value.symm)

theorem Denotes.eq_zero_iff (large : 1 < b) (denotes : Denotes b digits n) :
    n = 0 ↔ digits = [0] := by
  constructor
  · intro zero
    subst zero
    exact denotes.unique large (denotes_digit (by omega))
  · intro same
    rw [← denotes.value, same, ofDigits_singleton]

theorem ofDigits_dropLast (zero : digits.getLast? = some 0) :
    ofDigits b digits.dropLast = ofDigits b digits := by
  have nonempty : digits ≠ [] := fun nil => by simp [nil] at zero
  rw [List.getLast?_eq_some_getLast nonempty, Option.some.injEq] at zero
  conv_rhs => rw [← List.dropLast_append_getLast nonempty, zero]
  rw [ofDigits_append, ofDigits_singleton, Nat.mul_zero, Nat.add_zero]

end Forms

section Carries

/-- Adds a carry to a row of columns, and gives one digit for each column and the carry left. -/
def ripple (b : Nat) : Nat → List Nat → List Nat × Nat
  | carry, [] => ([], carry)
  | carry, column :: columns =>
    let rest := ripple b ((column + carry) / b) columns
    ((column + carry) % b :: rest.1, rest.2)

/-- The digits of a carry, within so many turns. -/
def spill (b : Nat) : Nat → Nat → List Nat
  | 0, _ => []
  | turns + 1, carry => if carry = 0 then [] else carry % b :: spill b turns (carry / b)

/-- One digit for each column, and the digits of the carry that is left. -/
def carried (b : Nat) (columns : List Nat) (carry : Nat) : List Nat :=
  let pass := ripple b carry columns
  pass.1 ++ spill b pass.2 pass.2

@[simp] theorem length_ripple (carry : Nat) (columns : List Nat) :
    (ripple b carry columns).1.length = columns.length := by
  induction columns generalizing carry with
  | nil => rfl
  | cons column columns ih => simp [ripple, ih]

theorem ripple_value (carry : Nat) (columns : List Nat) :
    ofDigits b (ripple b carry columns).1 + b ^ columns.length * (ripple b carry columns).2 =
      ofDigits b columns + carry := by
  induction columns generalizing carry with
  | nil => simp [ripple]
  | cons column columns ih =>
    -- The column and its carry split into the digit and what the next column is given.
    have next := ih ((column + carry) / b)
    have split := Nat.mod_add_div (column + carry) b
    simp only [ripple, ofDigits_cons, List.length_cons, Nat.pow_succ]
    calc (column + carry) % b + b * ofDigits b (ripple b ((column + carry) / b) columns).1 +
          b ^ columns.length * b * (ripple b ((column + carry) / b) columns).2
        = (column + carry) % b + b * (ofDigits b (ripple b ((column + carry) / b) columns).1 +
            b ^ columns.length * (ripple b ((column + carry) / b) columns).2) := by ring
      _ = (column + carry) % b + b * ((column + carry) / b) + b * ofDigits b columns := by
        rw [next]; ring
      _ = column + b * ofDigits b columns + carry := by rw [split]; ring

theorem ripple_digit_lt (positive : 0 < b) (carry : Nat) (columns : List Nat) :
    ∀ d ∈ (ripple b carry columns).1, d < b := by
  induction columns generalizing carry with
  | nil => simp [ripple]
  | cons column columns ih =>
    simp only [ripple, List.mem_cons, forall_eq_or_imp]
    exact ⟨Nat.mod_lt _ positive, ih _⟩

theorem spill_value (large : 1 < b) {turns carry : Nat} (enough : carry ≤ turns) :
    ofDigits b (spill b turns carry) = carry := by
  induction turns generalizing carry with
  | zero => rw [spill, ofDigits_nil]; omega
  | succ turns ih =>
    by_cases zero : carry = 0
    · simp [spill, zero]
    · have smaller : carry / b < carry := Nat.div_lt_self (by omega) large
      rw [spill, if_neg zero, ofDigits_cons, ih (by omega)]
      exact Nat.mod_add_div _ _

theorem spill_digit_lt (positive : 0 < b) (turns carry : Nat) :
    ∀ d ∈ spill b turns carry, d < b := by
  induction turns generalizing carry with
  | zero => simp [spill]
  | succ turns ih =>
    rw [spill]
    split
    · simp
    · simp only [List.mem_cons, forall_eq_or_imp]
      exact ⟨Nat.mod_lt _ positive, ih _⟩

theorem carried_value (large : 1 < b) (columns : List Nat) (carry : Nat) :
    ofDigits b (carried b columns carry) = ofDigits b columns + carry := by
  rw [carried, ofDigits_append, length_ripple, spill_value large (Nat.le_refl _), ripple_value]

theorem carried_digit_lt (positive : 0 < b) (columns : List Nat) (carry : Nat) :
    ∀ d ∈ carried b columns carry, d < b := by
  intro d member
  rw [carried, List.mem_append] at member
  exact member.elim (ripple_digit_lt positive _ _ d) (spill_digit_lt positive _ _ d)

theorem carried_ne_nil {columns : List Nat} (nonempty : columns ≠ []) (carry : Nat) :
    carried b columns carry ≠ [] := by
  cases columns with
  | nil => exact absurd rfl nonempty
  | cons column columns => simp [carried, ripple]

theorem ofDigits_map_mul (columns : List Nat) (factor : Nat) :
    ofDigits b (columns.map (· * factor)) = ofDigits b columns * factor := by
  induction columns with
  | nil => simp
  | cons column columns ih => simp only [List.map_cons, ofDigits_cons, ih]; ring

end Carries

section Borrows

/-- Takes the second list and a borrow away from the first, digit by digit. -/
def borrowed (b : Nat) : Nat → List Nat → List Nat → List Nat
  | _, [], _ => []
  | borrow, d :: digits, other =>
    let taken := other.headD 0 + borrow
    if d < taken then (d + b - taken) :: borrowed b 1 digits other.tail
    else (d - taken) :: borrowed b 0 digits other.tail

theorem ofDigits_headD (other : List Nat) :
    ofDigits b other = other.headD 0 + b * ofDigits b other.tail := by
  cases other with
  | nil => simp
  | cons e other => rfl

theorem headD_lt (positive : 0 < b) {other : List Nat} (digit_lt : ∀ e ∈ other, e < b) :
    other.headD 0 < b := by
  cases other with
  | nil => exact positive
  | cons e other => exact digit_lt e List.mem_cons_self

theorem borrowed_value {borrow : Nat} {digits other : List Nat} (one : borrow ≤ 1)
    (positive : 0 < b) (digit_lt : ∀ d ∈ digits, d < b) (other_lt : ∀ e ∈ other, e < b)
    (le : ofDigits b other + borrow ≤ ofDigits b digits) :
    ofDigits b (borrowed b borrow digits other) + (ofDigits b other + borrow) =
      ofDigits b digits := by
  -- The induction is on the longer list, with the borrow as a part of what is taken away.
  induction digits generalizing borrow other with
  | nil => simp only [borrowed, ofDigits_nil] at le ⊢; omega
  | cons d digits ih =>
    have small : d < b := digit_lt d List.mem_cons_self
    have head := headD_lt positive other_lt
    have smaller : ∀ e ∈ digits, e < b := fun e member => digit_lt e (List.mem_cons_of_mem _ member)
    have tail : ∀ e ∈ other.tail, e < b := fun e member => other_lt e (List.mem_of_mem_tail member)
    rw [ofDigits_headD other, ofDigits_cons] at le ⊢
    rw [borrowed]
    split
    · -- The digit is too small: the rest of the list gives one of its own.
      have rest : ofDigits b other.tail + 1 ≤ ofDigits b digits := by
        by_contra above
        have bound := Nat.mul_le_mul_left b
          (show ofDigits b digits ≤ ofDigits b other.tail by omega)
        omega
      have next := congrArg (b * ·) (ih (Nat.le_refl 1) smaller tail rest)
      rw [ofDigits_cons]
      simp only [Nat.mul_add, Nat.mul_one] at next
      omega
    · have rest : ofDigits b other.tail + 0 ≤ ofDigits b digits := by
        by_contra above
        have bound := Nat.mul_le_mul_left b
          (show ofDigits b digits + 1 ≤ ofDigits b other.tail by omega)
        rw [Nat.mul_add] at bound
        omega
      have next := congrArg (b * ·) (ih (Nat.zero_le 1) smaller tail rest)
      rw [ofDigits_cons]
      simp only [Nat.mul_add, Nat.mul_zero] at next
      omega

theorem borrowed_digit_lt {borrow : Nat} {digits other : List Nat}
    (digit_lt : ∀ d ∈ digits, d < b) : ∀ d ∈ borrowed b borrow digits other, d < b := by
  induction digits generalizing borrow other with
  | nil => simp [borrowed]
  | cons d digits ih =>
    have small : d < b := digit_lt d List.mem_cons_self
    have rest := fun borrow => @ih borrow other.tail
      fun e member => digit_lt e (List.mem_cons_of_mem _ member)
    rw [borrowed]
    split
    · simp only [List.mem_cons, forall_eq_or_imp]
      exact ⟨by omega, rest 1⟩
    · simp only [List.mem_cons, forall_eq_or_imp]
      exact ⟨by omega, rest 0⟩

@[simp] theorem length_borrowed (borrow : Nat) (digits other : List Nat) :
    (borrowed b borrow digits other).length = digits.length := by
  induction digits generalizing borrow other with
  | nil => rfl
  | cons d digits ih => rw [borrowed]; split <;> simp [ih]

end Borrows

section Comparison

theorem ofDigits_lt_of_tail_lt {d e : Nat} {left right : List Nat} (small : d < b)
    (less : ofDigits b left < ofDigits b right) :
    ofDigits b (d :: left) < ofDigits b (e :: right) := by
  have step := Nat.mul_le_mul_left b (Nat.succ_le_of_lt less)
  rw [Nat.mul_succ] at step
  rw [ofDigits_cons, ofDigits_cons]
  omega

end Comparison

end Nytrix.Lib.Positional
