import Mathlib.Data.List.DropRight
import Mathlib.Data.Nat.Digits.Lemmas
import Mathlib.Tactic.Ring
import Mathlib.Tactic.Linarith

/-! Natural numbers as lists of machine words, the least significant first, and loops over them. -/

namespace Nytrix.Lib

variable {w : Nat}

/-- The number that words stand for. -/
def limbsValue (l : List (BitVec w)) : Nat := Nat.ofDigits (2 ^ w) (l.map BitVec.toNat)

/-- The words of a number, without a leading zero. -/
def limbsOf (w n : Nat) : List (BitVec w) := (Nat.digits (2 ^ w) n).map (BitVec.ofNat w)

/-- Drops the zero words at the most significant end. -/
def normWords (l : List (BitVec w)) : List (BitVec w) := l.rdropWhile fun x => x = 0#w

@[simp] theorem limbsValue_nil : limbsValue ([] : List (BitVec w)) = 0 := rfl

@[simp] theorem limbsValue_cons (x : BitVec w) (l : List (BitVec w)) :
    limbsValue (x :: l) = x.toNat + 2 ^ w * limbsValue l := rfl

theorem limbsValue_append (l m : List (BitVec w)) :
    limbsValue (l ++ m) = limbsValue l + (2 ^ w) ^ l.length * limbsValue m := by
  simp [limbsValue, Nat.ofDigits_append]

theorem limbsValue_head (l : List (BitVec w)) :
    limbsValue l = (l.headD 0#w).toNat + 2 ^ w * limbsValue l.tail := by
  cases l <;> simp

theorem limbsValue_lt (l : List (BitVec w)) : limbsValue l < (2 ^ w) ^ l.length := by
  induction l with
  | nil => simp
  | cons x l ih =>
    have small := x.isLt
    rw [limbsValue_cons, List.length_cons, Nat.pow_succ]
    calc x.toNat + 2 ^ w * limbsValue l
        < 2 ^ w + 2 ^ w * limbsValue l := by omega
      _ = 2 ^ w * (limbsValue l + 1) := by ring
      _ ≤ 2 ^ w * (2 ^ w) ^ l.length := Nat.mul_le_mul_left _ ih
      _ = (2 ^ w) ^ l.length * 2 ^ w := Nat.mul_comm _ _

@[simp] theorem limbsValue_normWords (l : List (BitVec w)) :
    limbsValue (normWords l) = limbsValue l := by
  -- The list is built from its most significant end.
  induction l using List.reverseRecOn with
  | nil => rfl
  | append_singleton l x ih =>
    rw [normWords, List.rdropWhile_concat]
    split
    · next zero =>
      have zero : x = 0#w := by simpa using zero
      rw [limbsValue_append, zero]
      simpa [normWords] using ih
    · rfl

/-- The most significant word, if there is one, is not zero. -/
def Normal (l : List (BitVec w)) : Prop := ∀ nonempty : l ≠ [], l.getLast nonempty ≠ 0#w

theorem normWords_normal (l : List (BitVec w)) : Normal (normWords l) := by
  intro nonempty
  have last := List.rdropWhile_last_not _ l nonempty
  rw [decide_eq_true_eq] at last
  exact last

theorem limbsOf_limbsValue (positive : 0 < w) {l : List (BitVec w)} (normal : Normal l) :
    limbsOf w (limbsValue l) = l := by
  have base : 1 < 2 ^ w := Nat.one_lt_two_pow (by omega)
  have digits : Nat.digits (2 ^ w) (limbsValue l) = l.map BitVec.toNat := by
    refine Nat.digits_ofDigits _ base _ ?_ ?_
    · intro d member
      obtain ⟨x, -, rfl⟩ := List.mem_map.mp member
      exact x.isLt
    · intro nonempty
      rw [List.getLast_map]
      have last := normal (by simpa using nonempty)
      simpa using fun zero => last (BitVec.eq_of_toNat_eq (by simpa using zero))
  rw [limbsOf, digits, List.map_map]
  exact (List.map_congr_left fun x _ => by simp).trans (List.map_id l)

@[simp] theorem limbsValue_limbsOf (positive : 0 < w) (n : Nat) :
    limbsValue (limbsOf w n) = n := by
  have base : 1 < 2 ^ w := Nat.one_lt_two_pow (by omega)
  have back : ((Nat.digits (2 ^ w) n).map (BitVec.ofNat w)).map BitVec.toNat =
      Nat.digits (2 ^ w) n := by
    rw [List.map_map]
    refine (List.map_congr_left fun d member => ?_).trans (List.map_id _)
    simp [Nat.mod_eq_of_lt (Nat.digits_lt_base base member)]
  rw [limbsValue, limbsOf, back, Nat.ofDigits_digits]

theorem limbsOf_normal (positive : 0 < w) (n : Nat) : Normal (limbsOf w n) := by
  intro nonempty
  have base : 1 < 2 ^ w := Nat.one_lt_two_pow (by omega)
  have digits : Nat.digits (2 ^ w) n ≠ [] := by simpa [limbsOf] using nonempty
  have nonzero : n ≠ 0 := Nat.digits_ne_nil_iff_ne_zero.mp digits
  have last := Nat.getLast_digit_ne_zero (2 ^ w) nonzero
  have small := Nat.digits_lt_base base (List.getLast_mem digits)
  simp only [limbsOf, List.getLast_map]
  intro zero
  have value := congrArg BitVec.toNat zero
  simp only [BitVec.toNat_ofNat, Nat.mod_eq_of_lt small, Nat.zero_mod] at value
  exact last value

theorem normal_eq_nil_iff {l : List (BitVec w)} (normal : Normal l) :
    l = [] ↔ limbsValue l = 0 := by
  constructor
  · intro empty
    rw [empty, limbsValue_nil]
  · intro zero
    by_contra nonempty
    -- The most significant word alone is worth more than zero.
    have split := List.dropLast_append_getLast nonempty
    rw [← split, limbsValue_append] at zero
    have positive : 0 < (l.getLast nonempty).toNat := by
      refine Nat.pos_of_ne_zero fun nothing => normal nonempty (BitVec.eq_of_toNat_eq ?_)
      simpa using nothing
    have power : 0 < (2 ^ w) ^ l.dropLast.length := Nat.pow_pos (Nat.pow_pos (by decide))
    have product := Nat.mul_pos power positive
    simp only [limbsValue_cons, limbsValue_nil, Nat.mul_zero, Nat.add_zero] at zero
    omega

/-- A sum cut into the word that is kept and what is carried. -/
def carried (w s : Nat) : BitVec w × Nat := (BitVec.ofNat w s, s / 2 ^ w)

theorem carried_value (w s : Nat) : (carried w s).1.toNat + 2 ^ w * (carried w s).2 = s := by
  simp only [carried, BitVec.toNat_ofNat]
  exact Nat.mod_add_div s (2 ^ w)

/-- Adds this many words, reading zero past the end; answers the words and what is carried. -/
def addWords : Nat → List (BitVec w) → List (BitVec w) → Nat → List (BitVec w) × Nat
  | 0, _, _, carry => ([], carry)
  | n + 1, a, b, carry =>
    let cur := carried w ((a.headD 0#w).toNat + (b.headD 0#w).toNat + carry)
    let rest := addWords n a.tail b.tail cur.2
    (cur.1 :: rest.1, rest.2)

@[simp] theorem addWords_length (n : Nat) (a b : List (BitVec w)) (carry : Nat) :
    (addWords n a b carry).1.length = n := by
  induction n generalizing a b carry with
  | zero => rfl
  | succ n ih => simp [addWords, ih]

theorem addWords_value {n : Nat} {a b : List (BitVec w)} (carry : Nat) (fitsA : a.length ≤ n)
    (fitsB : b.length ≤ n) :
    limbsValue (addWords n a b carry).1 + (2 ^ w) ^ n * (addWords n a b carry).2 =
      limbsValue a + limbsValue b + carry := by
  induction n generalizing a b carry with
  | zero =>
    rw [List.length_eq_zero_iff.mp (Nat.le_zero.mp fitsA),
      List.length_eq_zero_iff.mp (Nat.le_zero.mp fitsB)]
    simp [addWords]
  | succ n ih =>
    simp only [addWords, limbsValue_cons]
    generalize split : carried w ((a.headD 0#w).toNat + (b.headD 0#w).toNat + carry) = cur
    have whole := carried_value w ((a.headD 0#w).toNat + (b.headD 0#w).toNat + carry)
    have rest := ih cur.2 (show a.tail.length ≤ n by simp; omega)
      (show b.tail.length ≤ n by simp; omega)
    rw [split] at whole
    rw [limbsValue_head a, limbsValue_head b]
    calc cur.1.toNat + 2 ^ w * limbsValue (addWords n a.tail b.tail cur.2).1 +
          (2 ^ w) ^ (n + 1) * (addWords n a.tail b.tail cur.2).2
        = cur.1.toNat + 2 ^ w * (limbsValue (addWords n a.tail b.tail cur.2).1 +
          (2 ^ w) ^ n * (addWords n a.tail b.tail cur.2).2) := by ring
      _ = cur.1.toNat + 2 ^ w * cur.2 + 2 ^ w * (limbsValue a.tail + limbsValue b.tail) := by
        rw [rest]
        ring
      _ = (a.headD 0#w).toNat + 2 ^ w * limbsValue a.tail +
          ((b.headD 0#w).toNat + 2 ^ w * limbsValue b.tail) + carry := by
        rw [whole]
        ring

theorem addWords_carry {n : Nat} {a b : List (BitVec w)} {carry : Nat} (small : carry ≤ 1) :
    (addWords n a b carry).2 ≤ 1 := by
  induction n generalizing a b carry with
  | zero => exact small
  | succ n ih =>
    refine ih ?_
    have first := (a.headD 0#w).isLt
    have second := (b.headD 0#w).isLt
    exact Nat.lt_succ_iff.mp (Nat.div_lt_of_lt_mul (by omega))

/-- Subtracts word by word; answers the words and whether one was borrowed in the end. -/
def subWords : List (BitVec w) → List (BitVec w) → Bool → List (BitVec w) × Bool
  | [], _, borrow => ([], borrow)
  | x :: a, b, borrow =>
    let sub := b.headD 0#w + (if borrow then 1#w else 0#w)
    let next := (borrow && sub = 0#w) || decide (x.toNat < sub.toNat)
    let rest := subWords a b.tail next
    ((x - sub) :: rest.1, rest.2)

/-- What a borrow is worth. -/
def borrowed (borrow : Bool) : Nat := if borrow then 1 else 0

theorem subWords_step (positive : 0 < w) (x y : BitVec w) (borrow : Bool) :
    let sub := y + (if borrow then 1#w else 0#w)
    let next := (borrow && sub = 0#w) || decide (x.toNat < sub.toNat)
    (x - sub).toNat + y.toNat + borrowed borrow = x.toNat + 2 ^ w * borrowed next := by
  have one : 1 < 2 ^ w := Nat.one_lt_two_pow (by omega)
  have xs := x.isLt
  have ys := y.isLt
  cases borrow with
  | false =>
    simp only [Bool.false_eq_true, if_false, BitVec.add_zero, Bool.false_and, Bool.false_or,
      borrowed, decide_eq_true_eq, Nat.add_zero]
    rw [BitVec.toNat_sub]
    split
    · rw [Nat.mod_eq_of_lt (by omega)]
      omega
    · rw [show 2 ^ w - y.toNat + x.toNat = 2 ^ w + (x.toNat - y.toNat) by omega,
        Nat.add_mod_left, Nat.mod_eq_of_lt (by omega)]
      omega
  | true =>
    simp only [if_true, Bool.true_and, borrowed, Bool.or_eq_true, decide_eq_true_eq]
    have wide : (1#w).toNat = 1 := by simp [Nat.mod_eq_of_lt one]
    by_cases full : y.toNat + 1 = 2 ^ w
    · -- The word to subtract wraps to zero, and the borrow goes on.
      have zero : y + 1#w = 0#w :=
        BitVec.eq_of_toNat_eq (by rw [BitVec.toNat_add, wide, full]; simp)
      rw [if_pos (.inl zero), zero, BitVec.sub_zero]
      omega
    · have sum : (y + 1#w).toNat = y.toNat + 1 := by
        rw [BitVec.toNat_add, wide, Nat.mod_eq_of_lt (by omega)]
      have nonzero : y + 1#w ≠ 0#w := by
        intro zero
        rw [zero] at sum
        simp at sum
      rw [BitVec.toNat_sub, sum]
      simp only [nonzero, false_or]
      split
      · rw [Nat.mod_eq_of_lt (by omega)]
        omega
      · rw [show 2 ^ w - (y.toNat + 1) + x.toNat = 2 ^ w + (x.toNat - (y.toNat + 1)) by omega,
          Nat.add_mod_left, Nat.mod_eq_of_lt (by omega)]
        omega

theorem subWords_value (positive : 0 < w) {a b : List (BitVec w)} (borrow : Bool)
    (fits : b.length ≤ a.length) :
    limbsValue (subWords a b borrow).1 + limbsValue b + borrowed borrow =
      limbsValue a + (2 ^ w) ^ a.length * borrowed (subWords a b borrow).2 := by
  induction a generalizing b borrow with
  | nil =>
    rw [List.length_eq_zero_iff.mp (Nat.le_zero.mp fits)]
    simp [subWords]
  | cons x a ih =>
    have step := subWords_step positive x (b.headD 0#w) borrow
    simp only [subWords, limbsValue_cons]
    simp only at step
    generalize (b.headD 0#w + if borrow then 1#w else 0#w) = sub at step ⊢
    generalize (borrow && decide (sub = 0#w) || decide (x.toNat < sub.toNat)) = next at step ⊢
    have rest := ih next (show b.tail.length ≤ a.length by
      simp only [List.length_tail, List.length_cons] at fits ⊢
      omega)
    rw [limbsValue_head b, List.length_cons]
    have scaled : 2 ^ w * (limbsValue (subWords a b.tail next).1 + limbsValue b.tail +
        borrowed next) = 2 ^ w * (limbsValue a + (2 ^ w) ^ a.length *
        borrowed (subWords a b.tail next).2) := by rw [rest]
    rw [Nat.pow_succ]
    linarith

theorem subWords_exact (positive : 0 < w) {a b : List (BitVec w)} (fits : b.length ≤ a.length)
    (smaller : limbsValue b ≤ limbsValue a) :
    limbsValue (subWords a b false).1 = limbsValue a - limbsValue b := by
  have whole := subWords_value positive false fits
  have length : (subWords a b false).1.length = a.length := by
    clear whole smaller fits
    generalize false = borrow
    induction a generalizing b borrow with
    | nil => rfl
    | cons x a ih => simp [subWords, ih]
  have below := limbsValue_lt (subWords a b false).1
  rw [length] at below
  cases last : (subWords a b false).2 with
  | false =>
    simp only [last, borrowed, Bool.false_eq_true, if_false] at whole
    omega
  | true =>
    simp only [last, borrowed, Bool.false_eq_true, if_false, if_true] at whole
    omega

/-- Compares words from the most significant end, given in that order. -/
def cmpRev : List (BitVec w) → List (BitVec w) → Ordering
  | x :: a, y :: b => if x ≠ y then compare x.toNat y.toNat else cmpRev a b
  | _, _ => .eq

/-- Compares two numbers by their words. -/
def cmpWords (a b : List (BitVec w)) : Ordering :=
  let a := normWords a
  let b := normWords b
  if a.length ≠ b.length then compare a.length b.length else cmpRev a.reverse b.reverse

theorem compare_weighted {base low low' high high' : Nat} (fits : low < base) (fits' : low' < base)
    (different : high ≠ high') :
    compare (low + base * high) (low' + base * high') = compare high high' := by
  have positive : 0 < base := by omega
  rcases Nat.lt_or_gt_of_ne different with less | greater
  · have step : base * (high + 1) ≤ base * high' := Nat.mul_le_mul_left _ less
    rw [Nat.mul_add] at step
    rw [Nat.compare_eq_lt.mpr less, Nat.compare_eq_lt]
    omega
  · have step : base * (high' + 1) ≤ base * high := Nat.mul_le_mul_left _ greater
    rw [Nat.mul_add] at step
    rw [Nat.compare_eq_gt.mpr greater, Nat.compare_eq_gt]
    omega

theorem cmpRev_eq {a b : List (BitVec w)} (lengths : a.length = b.length) :
    cmpRev a b = compare (limbsValue a.reverse) (limbsValue b.reverse) := by
  induction a generalizing b with
  | nil =>
    rw [List.length_eq_zero_iff.mp lengths.symm]
    simp [cmpRev]
  | cons x a ih =>
    cases b with
    | nil => cases lengths
    | cons y b =>
      have lengths : a.length = b.length := Nat.succ.inj lengths
      simp only [cmpRev, List.reverse_cons, limbsValue_append, List.length_reverse, limbsValue_cons,
        limbsValue_nil, Nat.mul_zero, Nat.add_zero, lengths]
      split
      · next different =>
        have low := limbsValue_lt a.reverse
        have low' := limbsValue_lt b.reverse
        rw [List.length_reverse, lengths] at low
        rw [List.length_reverse] at low'
        rw [compare_weighted low low' fun same => different (BitVec.eq_of_toNat_eq same)]
      · next same =>
        rw [not_not] at same
        rw [ih lengths, same]
        simp [Nat.compare_eq_ite_lt]

theorem compare_of_length {a b : List (BitVec w)} (normal : Normal a)
    (longer : b.length < a.length) : limbsValue b < limbsValue a := by
  have nonempty : a ≠ [] := List.ne_nil_of_length_pos (by omega)
  have split := List.dropLast_append_getLast nonempty
  have last : 0 < (a.getLast nonempty).toNat := by
    refine Nat.pos_of_ne_zero fun nothing => normal nonempty (BitVec.eq_of_toNat_eq ?_)
    simpa using nothing
  have value : limbsValue a = limbsValue a.dropLast +
      (2 ^ w) ^ (a.length - 1) * (a.getLast nonempty).toNat := by
    conv_lhs => rw [← split]
    rw [limbsValue_append, List.length_dropLast]
    simp
  calc limbsValue b < (2 ^ w) ^ b.length := limbsValue_lt b
    _ ≤ (2 ^ w) ^ (a.length - 1) :=
      Nat.pow_le_pow_right (Nat.pow_pos (by decide)) (by omega)
    _ ≤ (2 ^ w) ^ (a.length - 1) * (a.getLast nonempty).toNat := Nat.le_mul_of_pos_right _ last
    _ ≤ limbsValue a := by omega

theorem cmpWords_eq (a b : List (BitVec w)) :
    cmpWords a b = compare (limbsValue a) (limbsValue b) := by
  rw [← limbsValue_normWords a, ← limbsValue_normWords b, cmpWords]
  split
  · next different =>
    rcases Nat.lt_or_gt_of_ne different with less | greater
    · rw [Nat.compare_eq_lt.mpr less,
        Nat.compare_eq_lt.mpr (compare_of_length (normWords_normal b) less)]
    · rw [Nat.compare_eq_gt.mpr greater,
        Nat.compare_eq_gt.mpr (compare_of_length (normWords_normal a) greater)]
  · next same =>
    rw [not_not] at same
    rw [cmpRev_eq (by simpa using same), List.reverse_reverse, List.reverse_reverse]

/-- Adds what is carried to the words that follow; answers what is carried past the last. -/
def addCarry : List (BitVec w) → Nat → List (BitVec w) × Nat
  | [], carry => ([], carry)
  | r :: acc, carry =>
    if carry = 0 then (r :: acc, 0)
    else
      let cur := carried w (r.toNat + carry)
      let rest := addCarry acc cur.2
      (cur.1 :: rest.1, rest.2)

/-- Adds a word times a number to the words that follow. -/
def mulRow (x : BitVec w) : List (BitVec w) → List (BitVec w) → Nat → List (BitVec w) × Nat
  | [], acc, carry => addCarry acc carry
  | y :: b, acc, carry =>
    let cur := carried w (x.toNat * y.toNat + (acc.headD 0#w).toNat + carry)
    let rest := mulRow x b acc.tail cur.2
    (cur.1 :: rest.1, rest.2)

/-- Adds the product of two numbers to words, row by row; none if a carry is left over. -/
def mulWords : List (BitVec w) → List (BitVec w) → List (BitVec w) → Option (List (BitVec w))
  | [], _, acc => some acc
  | x :: a, b, acc =>
    let row := mulRow x b acc 0
    if row.2 ≠ 0 then none
    else (mulWords a b row.1.tail).map fun rest => row.1.headD 0#w :: rest

theorem addCarry_value (acc : List (BitVec w)) (carry : Nat) :
    limbsValue (addCarry acc carry).1 + (2 ^ w) ^ acc.length * (addCarry acc carry).2 =
      limbsValue acc + carry ∧ (addCarry acc carry).1.length = acc.length := by
  induction acc generalizing carry with
  | nil => simp [addCarry]
  | cons r acc ih =>
    simp only [addCarry]
    split
    · next none => simp [none]
    · have whole := carried_value w (r.toNat + carry)
      generalize carried w (r.toNat + carry) = cur at whole ⊢
      obtain ⟨rest, length⟩ := ih cur.2
      refine ⟨?_, by simp [length]⟩
      have scaled : 2 ^ w * (limbsValue (addCarry acc cur.2).1 + (2 ^ w) ^ acc.length *
          (addCarry acc cur.2).2) = 2 ^ w * (limbsValue acc + cur.2) := by rw [rest]
      rw [limbsValue_cons, limbsValue_cons, List.length_cons, Nat.pow_succ]
      linarith

theorem mulRow_value (x : BitVec w) {b acc : List (BitVec w)} (carry : Nat)
    (fits : b.length ≤ acc.length) :
    limbsValue (mulRow x b acc carry).1 + (2 ^ w) ^ acc.length * (mulRow x b acc carry).2 =
      limbsValue acc + x.toNat * limbsValue b + carry ∧
      (mulRow x b acc carry).1.length = acc.length := by
  induction b generalizing acc carry with
  | nil => simpa [mulRow] using addCarry_value acc carry
  | cons y b ih =>
    cases acc with
    | nil => cases fits
    | cons r acc =>
      have fits : b.length ≤ acc.length := Nat.le_of_succ_le_succ fits
      simp only [mulRow, List.headD_cons, List.tail_cons]
      have whole := carried_value w (x.toNat * y.toNat + r.toNat + carry)
      generalize carried w (x.toNat * y.toNat + r.toNat + carry) = cur at whole ⊢
      obtain ⟨rest, length⟩ := ih cur.2 fits
      refine ⟨?_, by simp [length]⟩
      have scaled : 2 ^ w * (limbsValue (mulRow x b acc cur.2).1 + (2 ^ w) ^ acc.length *
          (mulRow x b acc cur.2).2) = 2 ^ w * (limbsValue acc + x.toNat * limbsValue b + cur.2) := by
        rw [rest]
      rw [limbsValue_cons, limbsValue_cons, limbsValue_cons, List.length_cons, Nat.pow_succ]
      linarith

theorem mulWords_value {a b acc out : List (BitVec w)} (fits : a.length + b.length ≤ acc.length)
    (done : mulWords a b acc = some out) :
    limbsValue out = limbsValue acc + limbsValue a * limbsValue b := by
  induction a generalizing acc out with
  | nil =>
    cases done
    simp
  | cons x a ih =>
    simp only [mulWords, List.length_cons] at done fits
    obtain ⟨exact', length⟩ := mulRow_value x 0 (show b.length ≤ acc.length by omega)
    split at done
    · cases done
    · next none =>
      rw [not_not] at none
      obtain ⟨rest, ran, rfl⟩ := Option.map_eq_some_iff.mp done
      have tail := ih (by simp only [List.length_tail, length]; omega) ran
      have head := limbsValue_head (mulRow x b acc 0).1
      rw [none, Nat.mul_zero] at exact'
      rw [limbsValue_cons, limbsValue_cons, tail]
      have scaled : 2 ^ w * (limbsValue (mulRow x b acc 0).1.tail + limbsValue a * limbsValue b) =
          2 ^ w * limbsValue (mulRow x b acc 0).1.tail + 2 ^ w * limbsValue a * limbsValue b := by
        ring
      rw [scaled, Nat.add_mul]
      omega

end Nytrix.Lib
