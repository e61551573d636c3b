import Nytrix.Big.Natural

/-! Comparison, sum, difference and product of limb lists. -/

namespace Nytrix.Big

open Nytrix.Lib
open Nytrix.Lib.Positional
open Nat (ofDigits ofDigits_nil ofDigits_cons ofDigits_append)

/-- A limb list in normal form that stands for a number. -/
abbrev Denotes (a : Limbs) (n : Nat) : Prop := Positional.Denotes bigBase a n

theorem bigBase_large : 1 < bigBase := by decide

theorem bigBase_positive : 0 < bigBase := by decide

variable {a b : Limbs} {m n : Nat}

section Comparison

theorem trimLoop_denotes {turns : Nat} {lst : Limbs} (enough : lst.length ≤ turns)
    (nonempty : lst ≠ []) (digit_lt : ∀ d ∈ lst, d < bigBase) :
    Denotes (trimLoop turns lst) (ofDigits bigBase lst) := by
  induction turns generalizing lst with
  | zero => exact absurd (List.length_eq_zero_iff.mp (by omega)) nonempty
  | succ turns ih =>
    rw [trimLoop]
    split
    · -- A leading zero limb goes, and the value stays.
      rename_i zero
      have shorter : bigRmLast lst = lst.dropLast := if_neg (by omega)
      rw [shorter, ← ofDigits_dropLast zero.2]
      refine ih (by rw [List.length_dropLast]; omega) (fun nil => ?_)
        fun d member => digit_lt d (List.mem_of_mem_dropLast member)
      have := congrArg List.length nil
      rw [List.length_dropLast, List.length_nil] at this
      omega
    · rename_i kept
      exact ⟨⟨nonempty, digit_lt, fun several zero => kept ⟨several, zero⟩⟩, rfl⟩

theorem bigTrim_denotes {lst : Limbs} (nonempty : lst ≠ [])
    (digit_lt : ∀ d ∈ lst, d < bigBase) : Denotes (bigTrim lst) (ofDigits bigBase lst) :=
  trimLoop_denotes (Nat.le_refl _) nonempty digit_lt

theorem Denotes.trim (denotes : Denotes a m) : Denotes (bigTrim a) m := by
  rw [← denotes.value]
  exact bigTrim_denotes denotes.nonempty denotes.digit_lt

theorem cmpLoop_append (upper : List (Nat × Nat)) (pair : Nat × Nat) :
    cmpLoop (upper ++ [pair]) = if cmpLoop upper = 0 then cmpLoop [pair] else cmpLoop upper := by
  induction upper with
  | nil => simp [cmpLoop]
  | cons first upper ih =>
    rw [List.cons_append, cmpLoop, cmpLoop, ih]
    split
    · simp
    · split
      · simp
      · rfl

theorem cmpLoop_zip (same : a.length = b.length) (left : ∀ d ∈ a, d < bigBase)
    (right : ∀ d ∈ b, d < bigBase) :
    cmpLoop (a.zip b).reverse =
      if ofDigits bigBase a > ofDigits bigBase b then 1
      else if ofDigits bigBase a < ofDigits bigBase b then -1 else 0 := by
  -- The induction is on the lists; the limbs beyond the first are compared before it.
  induction a generalizing b with
  | nil => cases b with
    | nil => rfl
    | cons e b => simp at same
  | cons d a ih => cases b with
    | nil => simp at same
    | cons e b =>
      have low := left d List.mem_cons_self
      have other := right e List.mem_cons_self
      have upper := ih (by simpa using same)
        (fun x member => left x (List.mem_cons_of_mem _ member))
        fun x member => right x (List.mem_cons_of_mem _ member)
      rw [List.zip_cons_cons, List.reverse_cons, cmpLoop_append, upper]
      rcases Nat.lt_trichotomy (ofDigits bigBase a) (ofDigits bigBase b) with less | equal | more
      · have whole := ofDigits_lt_of_tail_lt (e := e) low less
        simp [less, whole, Nat.lt_asymm less, Nat.lt_asymm whole]
      · simp [cmpLoop, equal, ofDigits_cons]
      · have whole := ofDigits_lt_of_tail_lt (e := d) other more
        simp [more, whole]

theorem bigCmp_denotes (left : Denotes a m) (right : Denotes b n) :
    bigCmp a b = if m > n then 1 else if m < n then -1 else 0 := by
  rw [bigCmp]
  split
  · rename_i longer
    rw [if_pos (right.lt_of_length_lt bigBase_large left longer)]
  · split
    · rename_i shorter
      have less := left.lt_of_length_lt bigBase_large right shorter
      rw [if_neg (by omega), if_pos less]
    · have compared := cmpLoop_zip (by omega) left.digit_lt right.digit_lt
      rwa [left.value, right.value] at compared

theorem bigGte_denotes (left : Denotes a m) (right : Denotes b n) :
    bigGte a b = decide (n ≤ m) := by
  rw [bigGte, bigCmp_denotes left right]
  by_cases more : m > n
  · simp [more, Nat.le_of_lt more]
  · by_cases less : m < n
    · simp [more, less]
    · simp [more, less, Nat.le_of_not_lt less]

theorem bigEq_denotes (left : Denotes a m) (right : Denotes b n) :
    bigEq a b = decide (m = n) := by
  rw [bigEq, bigCmp_denotes left right]
  rcases Nat.lt_trichotomy m n with less | equal | more
  · simp [less, Nat.lt_asymm less, Nat.ne_of_lt less]
  · simp [equal]
  · simp [more, Nat.ne_of_gt more]

theorem isZero_iff (denotes : Denotes a m) : (a.length = 1 ∧ a.headD 0 = 0) ↔ m = 0 := by
  rw [denotes.eq_zero_iff bigBase_large]
  constructor
  · rintro ⟨one, head⟩
    obtain ⟨d, rfl⟩ := List.length_eq_one_iff.mp one
    simpa using head
  · rintro rfl
    exact ⟨rfl, rfl⟩

end Comparison

section Arithmetic

theorem bigSub_denotes (left : Denotes a m) (right : Denotes b n) (le : n ≤ m) :
    Denotes (bigSub a b) (m - n) := by
  have nonempty : borrowed bigBase 0 a b ≠ [] := by
    rw [← List.length_pos_iff, length_borrowed]
    exact List.length_pos_iff.mpr left.nonempty
  have difference := borrowed_value (Nat.zero_le 1) bigBase_positive left.digit_lt right.digit_lt
    (by rw [left.value, right.value]; exact le)
  have trimmed := bigTrim_denotes nonempty (borrowed_digit_lt left.digit_lt)
  rw [left.value, right.value] at difference
  rwa [show ofDigits bigBase (borrowed bigBase 0 a b) = m - n by omega] at trimmed

theorem ofDigits_addColumns (a b : Limbs) :
    ofDigits bigBase (addColumns a b) = ofDigits bigBase a + ofDigits bigBase b := by
  fun_induction addColumns a b with
  | case1 => simp
  | case2 => simp
  | case3 ai a bi b ih => simp only [ofDigits_cons, ih]; ring

theorem addColumns_ne_nil (nonempty : a ≠ []) : addColumns a b ≠ [] := by
  fun_cases addColumns a b with
  | case1 => exact absurd rfl nonempty
  | case2 => exact nonempty
  | case3 => exact List.cons_ne_nil _ _

theorem carried_denotes (columns : List Nat) (nonempty : columns ≠ []) (carry : Nat) :
    Denotes (bigTrim (carried bigBase columns carry)) (ofDigits bigBase columns + carry) := by
  rw [← carried_value bigBase_large]
  exact bigTrim_denotes (carried_ne_nil nonempty carry)
    (carried_digit_lt bigBase_positive columns carry)

theorem bigAdd_denotes (left : Denotes a m) (right : Denotes b n) :
    Denotes (bigAdd a b) (m + n) := by
  have sum := carried_denotes (addColumns a b) (addColumns_ne_nil left.nonempty) 0
  rwa [ofDigits_addColumns, left.value, right.value] at sum

theorem bigMulSmall_denotes (denotes : Denotes a m) (factor : Nat) :
    Denotes (bigMulSmall a factor) (m * factor) := by
  rw [bigMulSmall]
  split
  · rename_i zero
    rw [zero, Nat.mul_zero]
    exact denotes_digit bigBase_positive
  · split
    · rename_i one
      rw [one, Nat.mul_one]
      exact denotes
    · have product := carried_denotes (a.map (· * factor))
        (by simpa using denotes.nonempty) 0
      rwa [ofDigits_map_mul, denotes.value] at product

theorem mulAddSmall_denotes (denotes : Denotes a m) (factor d : Nat) :
    Denotes (bigTrim (bigAddSmall (bigMulSmall a factor) d)) (m * factor + d) := by
  have product := bigMulSmall_denotes denotes factor
  rw [bigAddSmall]
  split
  · rename_i zero
    rw [zero, Nat.add_zero]
    exact product.trim
  · rw [← product.value]
    exact carried_denotes _ product.nonempty d

theorem mulRow_value {ai carry : Nat} {old : Limbs} (zeros : Limbs) (small : ai < bigBase)
    (within : carry < bigBase) (same : old.length = b.length)
    (digit_lt : ∀ d ∈ b, d < bigBase) (old_lt : ∀ d ∈ old, d < bigBase) :
    ∃ row, mulRow ai b carry (old ++ 0 :: zeros) = row ++ zeros ∧ row.length = b.length + 1 ∧
      (∀ d ∈ row, d < bigBase) ∧
      ofDigits bigBase row = ofDigits bigBase old + ai * ofDigits bigBase b + carry := by
  -- The induction is on the second number; its end leaves the carry in the free limb.
  induction b generalizing carry old with
  | nil =>
    have empty : old = [] := List.length_eq_zero_iff.mp same
    subst empty
    exact ⟨[carry], by simp [mulRow], rfl, by simpa using within, by simp⟩
  | cons bj b ih => cases old with
    | nil => simp at same
    | cons low old =>
      have factor := digit_lt bj List.mem_cons_self
      have start := old_lt low List.mem_cons_self
      have next : (ai * bj + low + carry) / bigBase < bigBase := by
        rw [Nat.div_lt_iff_lt_mul bigBase_positive]
        have product := Nat.mul_le_mul (Nat.le_sub_one_of_lt small) (Nat.le_sub_one_of_lt factor)
        simp only [bigBase] at product within start ⊢
        omega
      obtain ⟨row, equal, length, limbs, value⟩ := ih next (by simpa using same)
        (fun d member => digit_lt d (List.mem_cons_of_mem _ member))
        fun d member => old_lt d (List.mem_cons_of_mem _ member)
      refine ⟨(ai * bj + low + carry) % bigBase :: row, ?_, by simp [length], ?_, ?_⟩
      · simp only [List.cons_append, mulRow, equal]
      · simp only [List.mem_cons, forall_eq_or_imp]
        exact ⟨Nat.mod_lt _ bigBase_positive, limbs⟩
      · have split := Nat.mod_add_div (ai * bj + low + carry) bigBase
        simp only [ofDigits_cons, value]
        calc (ai * bj + low + carry) % bigBase + bigBase * (ofDigits bigBase old +
              ai * ofDigits bigBase b + (ai * bj + low + carry) / bigBase)
            = (ai * bj + low + carry) % bigBase + bigBase * ((ai * bj + low + carry) / bigBase) +
                bigBase * (ofDigits bigBase old + ai * ofDigits bigBase b) := by ring
          _ = _ := by rw [split]; ring

theorem mulRows_value (old : Limbs) (left : ∀ d ∈ a, d < bigBase)
    (same : old.length = b.length) (right : ∀ d ∈ b, d < bigBase)
    (old_lt : ∀ d ∈ old, d < bigBase) :
    (∀ d ∈ mulRows b a (old ++ List.replicate a.length 0), d < bigBase) ∧
      (mulRows b a (old ++ List.replicate a.length 0)).length = a.length + b.length ∧
      ofDigits bigBase (mulRows b a (old ++ List.replicate a.length 0)) =
        ofDigits bigBase old + ofDigits bigBase a * ofDigits bigBase b := by
  induction a generalizing old with
  | nil => simpa [mulRows, same] using old_lt
  | cons ai a ih =>
    obtain ⟨row, equal, length, limbs, value⟩ := mulRow_value (List.replicate a.length 0)
      (left ai List.mem_cons_self) bigBase_positive same right old_lt
    cases row with
    | nil => simp at length
    | cons low high =>
      -- The row's least limb is final, and the next row begins behind it.
      obtain ⟨digits, size, rest⟩ := ih high
        (fun d member => left d (List.mem_cons_of_mem _ member)) (by simpa using length)
        fun d member => limbs d (List.mem_cons_of_mem _ member)
      simp only [List.length_cons, List.replicate_succ, mulRows, equal, List.cons_append]
      refine ⟨?_, by rw [size]; omega, ?_⟩
      · simp only [List.mem_cons, forall_eq_or_imp]
        exact ⟨limbs low List.mem_cons_self, digits⟩
      · rw [ofDigits_cons] at value
        rw [ofDigits_cons, ofDigits_cons, rest]
        calc low + bigBase * (ofDigits bigBase high + ofDigits bigBase a * ofDigits bigBase b)
            = low + bigBase * ofDigits bigBase high +
                bigBase * (ofDigits bigBase a * ofDigits bigBase b) := by ring
          _ = _ := by rw [value]; ring

theorem bigMul_denotes (left : Denotes a m) (right : Denotes b n) :
    Denotes (bigMul a b) (m * n) := by
  have window : List.replicate (a.length + b.length) 0 =
      List.replicate b.length 0 ++ List.replicate a.length 0 := by
    rw [List.replicate_append_replicate, Nat.add_comm]
  obtain ⟨digits, size, value⟩ := mulRows_value (List.replicate b.length 0) left.digit_lt
    List.length_replicate right.digit_lt
    fun d member => (List.eq_of_mem_replicate member).symm ▸ bigBase_positive
  rw [Nat.ofDigits_replicate_zero, left.value, right.value, Nat.zero_add] at value
  rw [bigMul, window, ← value]
  refine bigTrim_denotes (fun nil => ?_) digits
  have positive := List.length_pos_iff.mpr left.nonempty
  rw [nil, List.length_nil] at size
  omega

end Arithmetic

end Nytrix.Big
