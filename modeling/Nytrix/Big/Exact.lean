import Nytrix.Big.Division

/-! Powers modulo a number, decimal texts, and what is exact of the arithmetic of naturals. -/

namespace Nytrix.Big

open Nytrix.Lib
open Nytrix.Lib.Positional
open Nytrix.Codec (Text chr chr_byte)
open Nat (ofDigits ofDigits_cons ofDigits_append ofDigits_singleton)

variable {a b c : Limbs} {m n k : Nat}

section Powers

/-- No number that square-and-multiply reduces on its way is too long for one subtraction. -/
def Unhindered (base exp n : Nat) : Prop :=
  exp = 0 ∨ base = 0 ∨ ¬Overlong base n ∧ ∀ j, 2 ^ j ≤ exp →
    (exp / 2 ^ j % 2 ≠ 0 → ¬Overlong (base ^ (exp % 2 ^ j) % n * (base ^ 2 ^ j % n)) n) ∧
    (2 ^ (j + 1) ≤ exp → ¬Overlong (base ^ 2 ^ j % n * (base ^ 2 ^ j % n)) n)

theorem isPositive_iff (denotes : Denotes a m) : (a.length > 1 ∨ a.headD 0 > 0) ↔ m ≠ 0 := by
  rw [← not_iff_not, not_not, ← isZero_iff denotes]
  have positive := List.length_pos_iff.mpr denotes.nonempty
  omega

theorem head_parity (denotes : Denotes a m) : a.headD 0 % 2 = m % 2 := by
  have split := ofDigits_headD (b := bigBase) a
  rw [denotes.value] at split
  simp only [bigBase] at split
  omega

theorem powmodLoop_zero {x e result : Limbs} (exponent : Denotes e 0) (turns : Nat) :
    powmodLoop c (turns + 1) x e result = result := by
  rw [powmodLoop, if_neg]
  rw [isPositive_iff exponent]
  exact fun wrong => wrong rfl

theorem powmodLoop_modEq {x e result : Limbs} {u v w turns : Nat} (modulus : Denotes c k)
    (positive : 0 < k) (square : Denotes x u) (exponent : Denotes e v) (sofar : Denotes result w)
    (enough : v < 2 ^ turns) :
    ∃ r, Denotes (powmodLoop c (turns + 1) x e result) r ∧ r ≡ w * u ^ v [MOD k] := by
  -- A turn squares the base and halves the exponent, and takes one factor when it is odd.
  induction turns generalizing x e result u v w with
  | zero =>
    have zero : v = 0 := by rw [Nat.pow_zero] at enough; omega
    subst zero
    exact ⟨w, (powmodLoop_zero exponent 0).symm ▸ sofar, by simp [Nat.ModEq]⟩
  | succ turns ih =>
    by_cases zero : v = 0
    · subst zero
      exact ⟨w, (powmodLoop_zero exponent _).symm ▸ sofar, by simp [Nat.ModEq]⟩
    · rw [powmodLoop, if_pos ((isPositive_iff exponent).mpr zero), head_parity exponent]
      have squared := bigModDigits_denotes (bigMul_denotes square square) modulus positive
      have halved := (bigDivSmall_denotes exponent (d := 2) (by decide)).1
      have less : v / 2 < 2 ^ turns := by rw [Nat.pow_succ] at enough; omega
      have squares : reduced (u * u) k ^ (v / 2) ≡ (u * u) ^ (v / 2) [MOD k] :=
        (reduced_modEq _ _).pow _
      have parity := Nat.mod_add_div v 2
      by_cases odd : v % 2 = 0
      · rw [if_neg (by omega)]
        obtain ⟨r, denotes, congruent⟩ := ih squared halved sofar less
        refine ⟨r, denotes, congruent.trans ?_⟩
        have power : u ^ v = (u * u) ^ (v / 2) := by
          rw [← Nat.pow_two, ← Nat.pow_mul, show 2 * (v / 2) = v by omega]
        rw [power]
        exact squares.mul_left w
      · rw [if_pos odd]
        have product := bigModDigits_denotes (bigMul_denotes sofar square) modulus positive
        obtain ⟨r, denotes, congruent⟩ := ih squared halved product less
        refine ⟨r, denotes, congruent.trans ?_⟩
        have power : w * u ^ v = w * u * (u * u) ^ (v / 2) := by
          rw [← Nat.pow_two, ← Nat.pow_mul, Nat.mul_assoc, ← Nat.pow_succ',
            show (2 * (v / 2)).succ = v by omega]
        rw [power]
        exact (reduced_modEq _ _).mul squares

theorem exponent_lt (exponent : Denotes b n) : n < 2 ^ (30 * b.length) := by
  calc n < bigBase ^ b.length := exponent.lt_pow bigBase_large
    _ ≤ (2 ^ 30) ^ b.length := Nat.pow_le_pow_left (by decide) _
    _ = 2 ^ (30 * b.length) := (Nat.pow_mul 2 30 b.length).symm

theorem bigPowmod_modEq (base : Denotes a m) (exponent : Denotes b n) (modulus : Denotes c k)
    (positive : 0 < k) : ∃ r, Denotes (bigPowmod a b c) r ∧ r ≡ m ^ n [MOD k] := by
  rw [bigPowmod]
  by_cases none : n = 0
  · rw [if_pos ((isZero_iff exponent).mpr none), none]
    exact ⟨1, denotes_digit bigBase_large, by simp [Nat.ModEq]⟩
  · rw [if_neg (mt (isZero_iff exponent).mp none)]
    by_cases zero : m = 0
    · rw [if_pos ((isZero_iff base).mpr zero), zero, Nat.zero_pow (Nat.pos_of_ne_zero none)]
      exact ⟨0, denotes_digit bigBase_positive, rfl⟩
    · rw [if_neg (mt (isZero_iff base).mp zero)]
      obtain ⟨r, denotes, congruent⟩ := powmodLoop_modEq modulus positive
        (bigModDigits_denotes base modulus positive) exponent (denotes_digit bigBase_large)
        (exponent_lt exponent)
      rw [Nat.one_mul] at congruent
      exact ⟨r, denotes, congruent.trans ((reduced_modEq m k).pow n)⟩

theorem mod_two_pow_succ (n j : Nat) : n % 2 ^ (j + 1) = n % 2 ^ j + 2 ^ j * (n / 2 ^ j % 2) := by
  rw [Nat.pow_succ, Nat.mod_mul]

theorem powmodLoop_denotes {x e result : Limbs} {turns j : Nat} (modulus : Denotes c k)
    (positive : 0 < k) (square : 2 ^ j ≤ n → Denotes x (m ^ 2 ^ j % k))
    (exponent : Denotes e (n / 2 ^ j)) (sofar : Denotes result (m ^ (n % 2 ^ j) % k))
    (short : ∀ j, 2 ^ j ≤ n →
      (n / 2 ^ j % 2 ≠ 0 → ¬Overlong (m ^ (n % 2 ^ j) % k * (m ^ 2 ^ j % k)) k) ∧
      (2 ^ (j + 1) ≤ n → ¬Overlong (m ^ 2 ^ j % k * (m ^ 2 ^ j % k)) k))
    (enough : n / 2 ^ j < 2 ^ turns) :
    Denotes (powmodLoop c (turns + 1) x e result) (m ^ n % k) := by
  -- After j turns the base is squared j times and the low j bits of the exponent are done.
  have last : n / 2 ^ j = 0 → n % 2 ^ j = n := fun zero =>
    Nat.mod_eq_of_lt ((Nat.div_eq_zero_iff_lt (Nat.two_pow_pos j)).mp zero)
  induction turns generalizing x e result j with
  | zero =>
    rw [Nat.pow_zero] at enough
    have zero : n / 2 ^ j = 0 := Nat.lt_one_iff.mp enough
    rw [zero] at exponent
    rw [powmodLoop_zero exponent]
    rwa [last zero] at sofar
  | succ turns ih =>
    by_cases zero : n / 2 ^ j = 0
    · rw [zero] at exponent
      rw [powmodLoop_zero exponent]
      rwa [last zero] at sofar
    · have reached : 2 ^ j ≤ n := by
        by_contra less
        exact zero (Nat.div_eq_of_lt (Nat.lt_of_not_le less))
      have base := square reached
      have halved := (bigDivSmall_denotes exponent (d := 2) (by decide)).1
      rw [Nat.div_div_eq_div_mul, ← Nat.pow_succ] at halved
      have squared : 2 ^ (j + 1) ≤ n →
          Denotes (bigModDigits (bigMul x x) c) (m ^ 2 ^ (j + 1) % k) := by
        intro more
        have step := bigModDigits_denotes (bigMul_denotes base base) modulus positive
        rw [(reduced_eq_mod_iff positive).mpr ((short j reached).2 more), ← Nat.mul_mod,
          ← Nat.pow_add, ← Nat.two_mul, ← Nat.pow_succ'] at step
        exact step
      have less : n / 2 ^ (j + 1) < 2 ^ turns := by
        rw [Nat.pow_succ, ← Nat.div_div_eq_div_mul]
        rw [Nat.pow_succ] at enough
        omega
      have split := mod_two_pow_succ n j
      rw [powmodLoop, if_pos ((isPositive_iff exponent).mpr zero), head_parity exponent]
      refine ih squared halved ?_ less fun zero =>
        Nat.mod_eq_of_lt ((Nat.div_eq_zero_iff_lt (Nat.two_pow_pos _)).mp zero)
      by_cases odd : n / 2 ^ j % 2 = 0
      · rw [if_neg (by omega), split, odd, Nat.mul_zero, Nat.add_zero]
        exact sofar
      · have step := bigModDigits_denotes (bigMul_denotes sofar base) modulus positive
        rw [(reduced_eq_mod_iff positive).mpr ((short j reached).1 odd), ← Nat.mul_mod,
          ← Nat.pow_add] at step
        rw [if_pos odd, split, show n / 2 ^ j % 2 = 1 by omega, Nat.mul_one]
        exact step

theorem bigPowmod_denotes (base : Denotes a m) (exponent : Denotes b n) (modulus : Denotes c k)
    (large : 1 < k) (short : Unhindered m n k) : Denotes (bigPowmod a b c) (m ^ n % k) := by
  rw [bigPowmod]
  by_cases none : n = 0
  · rw [if_pos ((isZero_iff exponent).mpr none), none, Nat.pow_zero, Nat.mod_eq_of_lt large]
    exact denotes_digit bigBase_large
  · rw [if_neg (mt (isZero_iff exponent).mp none)]
    by_cases zero : m = 0
    · rw [if_pos ((isZero_iff base).mpr zero), zero, Nat.zero_pow (Nat.pos_of_ne_zero none),
        Nat.zero_mod]
      exact denotes_digit bigBase_positive
    · rw [if_neg (mt (isZero_iff base).mp zero)]
      have ⟨first, later⟩ := (short.resolve_left none).resolve_left zero
      have start := bigModDigits_denotes base modulus (by omega)
      rw [(reduced_eq_mod_iff (by omega)).mpr first] at start
      refine powmodLoop_denotes (j := 0) modulus (by omega) (fun _ => ?_) ?_ ?_ later ?_
      · rw [Nat.pow_zero, Nat.pow_one]
        exact start
      · rw [Nat.pow_zero, Nat.div_one]
        exact exponent
      · rw [Nat.pow_zero, Nat.mod_one, Nat.pow_zero, Nat.mod_eq_of_lt large]
        exact denotes_digit bigBase_large
      · rw [Nat.pow_zero, Nat.div_one]
        exact exponent_lt exponent

end Powers

section Decimal

theorem chunkVal_append (left right : Text) :
    chunkVal (left ++ right) = chunkVal left * 10 ^ right.length + chunkVal right := by
  induction right using List.reverseRecOn with
  | nil => simp [chunkVal]
  | append_singleton right d ih =>
    simp only [chunkVal, ← List.append_assoc, List.foldl_append, List.foldl_cons, List.foldl_nil,
      List.length_append, List.length_singleton, Nat.pow_succ] at ih ⊢
    rw [ih]
    ring

theorem chr_digit (val : Nat) : chr ((val % 10 + 48 : Nat) : Int) = [.ofNat (val % 10 + 48)] := by
  have range := Nat.mod_lt val (show 0 < 10 by decide)
  have code : (UInt8.ofNat (val % 10 + 48)).toNat = val % 10 + 48 := by
    rw [UInt8.toNat_ofNat']
    exact Nat.mod_eq_of_lt (by omega)
  have text := chr_byte (.ofNat (val % 10 + 48))
  rw [code] at text
  rcases text with ⟨zero, -⟩ | ⟨-, same⟩ | ⟨high, -⟩
  · have := congrArg UInt8.toNat zero
    rw [code] at this
    simp at this
  · exact same
  · rw [UInt8.le_iff_toNat_le, code] at high
    have : (128 : UInt8).toNat = 128 := rfl
    omega

theorem digitLoop_value {turns val : Nat} (enough : val ≤ turns) :
    chunkVal ((digitLoop turns val).reverse.flatMap fun (c : Nat) => chr c) = val ∧
      ∀ size, val < 10 ^ size →
        ((digitLoop turns val).reverse.flatMap fun (c : Nat) => chr c).length ≤ size := by
  induction turns generalizing val with
  | zero =>
    rw [Nat.le_zero.mp enough]
    exact ⟨rfl, fun size _ => Nat.zero_le size⟩
  | succ turns ih =>
    rw [digitLoop]
    split
    · obtain ⟨value, length⟩ := ih (show val / 10 ≤ turns by omega)
      have digit : (UInt8.ofNat (val % 10 + 48)).toNat = val % 10 + 48 := by
        rw [UInt8.toNat_ofNat']
        omega
      rw [List.reverse_cons, List.flatMap_append, List.flatMap_singleton, chr_digit]
      constructor
      · rw [chunkVal_append, value]
        simp only [chunkVal, List.foldl_cons, List.foldl_nil, List.length_singleton, digit]
        omega
      · intro size small
        cases size with
        | zero => rw [Nat.pow_zero] at small; omega
        | succ size =>
          have upper := length size (by rw [Nat.pow_succ] at small; omega)
          rw [List.length_append, List.length_singleton]
          omega
    · have zero : val = 0 := by omega
      subst zero
      exact ⟨rfl, fun size _ => Nat.zero_le size⟩

theorem int2s_value (n : Nat) :
    chunkVal (int2s n) = n ∧ (n < bigBase → (int2s n).length ≤ 9) := by
  rw [int2s]
  split
  · rename_i zero
    rw [zero]
    exact ⟨rfl, fun _ => by decide⟩
  · obtain ⟨value, length⟩ := digitLoop_value (Nat.le_refl n)
    exact ⟨value, fun small => length 9 small⟩

theorem chunkVal_zeros (count : Nat) (text : Text) :
    chunkVal (List.replicate count 48 ++ text) = chunkVal text := by
  have zeros : chunkVal (List.replicate count 48) = 0 := by
    induction count with
    | zero => rfl
    | succ count ih => rwa [List.replicate_succ, chunkVal, List.foldl_cons]
  rw [chunkVal_append, zeros, Nat.zero_mul, Nat.zero_add]

theorem lowerText_value (lower : Limbs) (digit_lt : ∀ d ∈ lower, d < bigBase) :
    chunkVal (lower.flatMap (limbText false)) = ofDigits bigBase lower.reverse ∧
      (lower.flatMap (limbText false)).length = 9 * lower.length := by
  induction lower with
  | nil => exact ⟨rfl, rfl⟩
  | cons d lower ih =>
    obtain ⟨value, length⟩ := ih fun x member => digit_lt x (List.mem_cons_of_mem _ member)
    obtain ⟨limb, short⟩ := int2s_value d
    have size := short (digit_lt d List.mem_cons_self)
    rw [List.flatMap_cons]
    constructor
    · rw [chunkVal_append, value, length, Nat.pow_mul, List.reverse_cons, ofDigits_append,
        ofDigits_singleton, List.length_reverse]
      simp only [limbText, Bool.false_eq_true, if_false, chunkVal_zeros, limb]
      rw [Nat.add_comm, Nat.mul_comm]
      rfl
    · rw [List.length_append, length]
      simp only [limbText, Bool.false_eq_true, if_false, List.length_append,
        List.length_replicate, List.length_cons]
      omega

theorem bigToDec_value (denotes : Denotes a m) : chunkVal (bigToDec a) = m := by
  rw [bigToDec, ← denotes.value]
  split
  · rename_i empty
    exact absurd (List.reverse_eq_nil_iff.mp empty) denotes.nonempty
  · rename_i top lower shape
    have order : a = lower.reverse ++ [top] := by
      rw [← List.reverse_reverse a, shape, List.reverse_cons]
    obtain ⟨value, length⟩ := lowerText_value lower fun d member =>
      denotes.digit_lt d (by rw [order]; simp [member])
    rw [chunkVal_append, value, length, Nat.pow_mul, order, ofDigits_append, ofDigits_singleton,
      List.length_reverse]
    simp only [limbText, if_true, (int2s_value top).1]
    rw [Nat.add_comm, Nat.mul_comm]
    rfl

theorem fromDecLoop_denotes {turns r : Nat} {result : Limbs} (text : Text)
    (denotes : Denotes result r) (enough : text.length < turns) :
    Denotes (fromDecLoop turns result text) (r * 10 ^ text.length + chunkVal text) := by
  induction turns generalizing result r text with
  | zero => exact absurd enough (Nat.not_lt_zero _)
  | succ turns ih =>
    rw [fromDecLoop]
    split
    · rename_i empty
      simpa [empty, chunkVal] using denotes
    · rename_i some
      have positive := List.length_pos_iff.mpr some
      have rest := ih (text.drop 9) (mulAddSmall_denotes denotes (10 ^ (text.take 9).length)
        (chunkVal (text.take 9))) (by rw [List.length_drop]; omega)
      have whole : (r * 10 ^ (text.take 9).length + chunkVal (text.take 9)) *
          10 ^ (text.drop 9).length + chunkVal (text.drop 9) =
          r * 10 ^ text.length + chunkVal text := by
        have value := chunkVal_append (text.take 9) (text.drop 9)
        have size := congrArg List.length (List.take_append_drop 9 text)
        rw [List.take_append_drop] at value
        rw [List.length_append] at size
        rw [value, ← size, Nat.pow_add]
        ring
      rw [whole] at rest
      exact rest

theorem bigFromDec_bigToDec (denotes : Denotes a m) : bigFromDec (bigToDec a) = a := by
  have read := fromDecLoop_denotes (bigToDec a) (denotes_digit bigBase_positive)
    (Nat.lt_succ_self (bigToDec a).length)
  rw [Nat.zero_mul, Nat.zero_add, bigToDec_value denotes] at read
  exact read.unique bigBase_large denotes

end Decimal

/-- What one subtraction leaves of a number can be larger than the divisor. -/
theorem bigModDigits_fails :
    Denotes [9] 9 ∧ Denotes [4] 4 ∧ ¬Denotes (bigModDigits [9] [4]) (9 % 4) := by
  refine ⟨denotes_digit (by decide), denotes_digit (by decide), fun denotes => ?_⟩
  have same : bigModDigits [9] [4] = [5] := by decide
  rw [same] at denotes
  exact absurd denotes.value (by decide)

/-- The arithmetic of naturals is exact but for remainders of numbers that are too long. -/
theorem naturals_exact_iff (left : Denotes a m) (right : Denotes b n) (modulus : Denotes c k)
    (large : 1 < k) :
    Denotes (bigAdd a b) (m + n) ∧ Denotes (bigMul a b) (m * n) ∧
      (n ≤ m → Denotes (bigSub a b) (m - n)) ∧
      (0 < n → Denotes (bigDiv a b).1 (m / n) ∧ Denotes (bigDiv a b).2 (m % n)) ∧
      Denotes (bigGcd a b) (Nat.gcd m n) ∧ bigFromDec (bigToDec a) = a ∧
      (0 < n → (Denotes (bigModDigits a b) (m % n) ↔ ¬Overlong m n)) ∧
      (∃ r, Denotes (bigPowmod a b c) r ∧ r ≡ m ^ n [MOD k]) ∧
      (Unhindered m n k → Denotes (bigPowmod a b c) (m ^ n % k)) := by
  refine ⟨bigAdd_denotes left right, bigMul_denotes left right, bigSub_denotes left right,
    bigDiv_denotes left right, bigGcd_denotes left right, bigFromDec_bigToDec left, ?_,
    bigPowmod_modEq left right modulus (by omega), bigPowmod_denotes left right modulus large⟩
  intro positive
  have found := bigModDigits_denotes left right positive
  rw [← reduced_eq_mod_iff positive]
  constructor
  · intro denotes
    rw [← found.value, denotes.value]
  · intro same
    rwa [same] at found

/-- Two numbers and a modulus of one limb. -/
theorem naturals_exact_iff_digits :
    Denotes (bigAdd [2] [3]) 5 ∧ Denotes (bigModDigits [2] [3]) 2 ∧
      Denotes (bigPowmod [2] [3] [10]) 8 := by
  have ⟨sum, _, _, _, _, _, rest, _, power⟩ := naturals_exact_iff
    (denotes_digit (show 2 < bigBase by decide)) (denotes_digit (show 3 < bigBase by decide))
    (denotes_digit (show 10 < bigBase by decide)) (by decide)
  refine ⟨sum, (rest (by decide)).mpr fun long => absurd long.2 (by decide), power ?_⟩
  refine .inr (.inr ⟨fun long => absurd long.2 (by decide), fun j reached => ?_⟩)
  -- The exponent has two bits.
  have bits : j < 2 := by
    by_contra more
    have := Nat.pow_le_pow_right (show 0 < 2 by decide) (Nat.le_of_not_lt more)
    omega
  rcases Nat.lt_succ_iff_lt_or_eq.mp bits with low | high
  · rw [Nat.lt_one_iff.mp low]
    exact ⟨fun _ long => absurd long.2 (by decide), fun _ long => absurd long.2 (by decide)⟩
  · rw [high]
    exact ⟨fun _ long => absurd long.2 (by decide), fun wrong => absurd wrong (by decide)⟩

end Nytrix.Big
