import Nytrix.Rt.MathLaws

/-! Big integers as machine integers, with the words that an export writes. -/

namespace Nytrix.Rt

open Nytrix.Lib

/--
The words that an export of a number writes, the least significant first.

It writes as many 64-bit words as the number has, and none for zero, whatever the room is.
-/
def mpzExport (n : Nat) : List (BitVec 64) := limbsOf 64 n

/--
The machine integer of an integer, with its undefined behaviour left out.

There is room for one exported word. The signed operations of the negative case have a result only
where it is a machine integer.
-/
def mpzGetI64Checked (v : Int) : Option (BitVec 64) :=
  let words := mpzExport v.natAbs
  if 1 < words.length then none
  else
    let mag := words.headD 0
    if v < 0 then
      if (mag - 1).negOverflow then none
      else if BitVec.ssubOverflow (-(mag - 1)) 1 then none
      else some (-(mag - 1) - 1)
    else some mag

/-- The big integer of a small one. -/
def bigintFromInt (n : BitVec 64) : Num := fromMpz (untagWord n).toInt

/-- The small integer of a value, where it is defined. -/
def bigintToInt (a : Num) : Option Num := (mpzGetI64Checked (valToMpz a)).map tagV

/-- A conversion that stays inside its word and is right where there is a small integer. -/
structure ConvertsBounded (a : Num) : Prop where
  oneWord : (mpzExport (valToMpz a).natAbs).length ≤ 1
  defined : (bigintToInt a).isSome = true
  exact : Small (valToMpz a) → ∃ bits, mpzGetI64Checked (valToMpz a) = some bits ∧
    bits.toInt = valToMpz a
  back : ∀ n, Small n → a = bigintFromInt (tagWord (BitVec.ofInt 64 n)) →
    bigintToInt a = some (tagV (BitVec.ofInt 64 n))

theorem length_mpzExport (n : Nat) : (mpzExport n).length ≤ 1 ↔ n < 2 ^ 64 := by
  -- The number of digits is the least exponent whose power exceeds the number.
  rw [mpzExport, limbsOf, List.length_map, Nat.digits_length_le_iff (by norm_num), pow_one]

theorem headD_mpzExport {n : Nat} (fits : n < 2 ^ 64) :
    (mpzExport n).headD 0 = BitVec.ofNat 64 n := by
  rcases Nat.eq_zero_or_pos n with rfl | positive
  · rfl
  · rw [mpzExport, limbsOf, Nat.digits_of_lt _ _ (by omega) fits]
    rfl

theorem ofNat_sub_one {n : Nat} (positive : 0 < n) :
    BitVec.ofNat 64 n - 1 = BitVec.ofNat 64 (n - 1) := by
  rw [show n = n - 1 + 1 by omega, BitVec.ofNat_add, Nat.add_sub_cancel]
  exact BitVec.add_sub_cancel _ _

theorem negOverflow_ofNat {m : Nat} (fits : m < 2 ^ 64) :
    (BitVec.ofNat 64 m).negOverflow = true ↔ m = 2 ^ 63 := by
  simp only [BitVec.negOverflow, beq_iff_eq]
  rw [BitVec.toInt_eq_toNat_cond, BitVec.toNat_ofNat, Nat.mod_eq_of_lt fits]
  split <;> omega

theorem ssubOverflow_neg {x : BitVec 64} (turned : x.negOverflow = false) :
    BitVec.ssubOverflow (-x) 1 = false := by
  have inside : (-x).toInt = -x.toInt :=
    BitVec.toInt_neg_of_not_negOverflow (Bool.eq_false_iff.mp turned)
  have low : -2 ^ 63 ≤ x.toInt := BitVec.le_toInt x
  have high : x.toInt < 2 ^ 63 := BitVec.toInt_lt
  simp only [BitVec.negOverflow, beq_eq_false_iff_ne, Nat.reduceSub] at turned
  simp only [BitVec.ssubOverflow, inside, show (1 : BitVec 64).toInt = 1 from rfl,
    Bool.or_eq_false_iff, decide_eq_false_iff_not]
  omega

theorem mpzGetI64Checked_eq (v : Int) :
    mpzGetI64Checked v =
      if v.natAbs < 2 ^ 64 ∧ v ≠ -(2 ^ 63 + 1) then some (mpzGetI64 v) else none := by
  unfold mpzGetI64Checked mpzGetI64
  by_cases fits : v.natAbs < 2 ^ 64
  · have one : ¬ 1 < (mpzExport v.natAbs).length := Nat.not_lt.mpr ((length_mpzExport _).mpr fits)
    simp only [if_neg one, headD_mpzExport fits]
    by_cases negative : v < 0
    · -- The magnitude is counted down once before the sign is turned.
      have positive : 0 < v.natAbs := by omega
      simp only [if_pos negative, ofNat_sub_one positive]
      have overflow := negOverflow_ofNat (m := v.natAbs - 1) (by omega)
      by_cases odd : v = -(2 ^ 63 + 1)
      · rw [if_pos (overflow.mpr (by omega)), if_neg (by simp [odd])]
      · have turned := Bool.eq_false_iff.mpr (mt overflow.mp (by omega))
        simp only [turned, ssubOverflow_neg turned]
        rw [if_neg (by decide), if_neg (by decide), if_pos ⟨fits, odd⟩]
    · rw [if_neg negative, if_neg negative, if_pos ⟨fits, by omega⟩]
  · have many := Nat.lt_of_not_le (mt (length_mpzExport _).mp fits)
    rw [if_pos many, if_neg (fun both => fits both.1)]

theorem mpzGetI64Checked_small {v : Int} (small : Small v) :
    mpzGetI64Checked v = some (BitVec.ofInt 64 v) := by
  have bounds := small_iff.mp small
  rw [mpzGetI64Checked_eq, if_pos (by omega), mpzGetI64_eq]

theorem valToMpz_bigintFromInt {n : Int} (small : Small n) :
    valToMpz (bigintFromInt (tagWord (BitVec.ofInt 64 n))) = n := by
  have tagged := denotes_word (tagV_ofInt_denotes small)
  rw [bigintFromInt, tagged.2]
  exact valToMpz_eq (fromMpz_denotes n)

/--
A conversion writes one word and is right below the base, except at one integer.

The bit operators meet this always, since they convert small integers only.
-/
theorem convertsBounded_iff (a : Num) :
    ConvertsBounded a ↔
      (valToMpz a).natAbs < 2 ^ 64 ∧ valToMpz a ≠ -(2 ^ 63 + 1) := by
  constructor
  · intro bounded
    have defined := bounded.defined
    rw [bigintToInt, mpzGetI64Checked_eq] at defined
    by_contra outside
    rw [if_neg outside] at defined
    exact absurd defined (by decide)
  · intro inside
    refine ⟨(length_mpzExport _).mpr inside.1, ?_, ?_, ?_⟩
    · rw [bigintToInt, mpzGetI64Checked_eq, if_pos inside]
      rfl
    · intro small
      exact ⟨_, mpzGetI64Checked_small small, toInt_ofInt_small small⟩
    · rintro n small rfl
      rw [bigintToInt, valToMpz_bigintFromInt small, mpzGetI64Checked_small small]
      rfl

/-- A number of two words does not fit, and neither does the integer below the least word. -/
theorem not_convertsBounded :
    ¬ ConvertsBounded (fromMpz (2 ^ 64)) ∧ (mpzExport (2 ^ 64)).length = 2 ∧
      bigintToInt (fromMpz (-(2 ^ 63 + 1))) = none := by
  refine ⟨?_, ?_, ?_⟩
  · intro bounded
    have short := (length_mpzExport _).mp bounded.oneWord
    rw [valToMpz_eq (fromMpz_denotes _)] at short
    omega
  · rw [mpzExport, limbsOf]
    norm_num
  · rw [bigintToInt, valToMpz_eq (fromMpz_denotes _), mpzGetI64Checked_eq, if_neg (by decide)]
    rfl

end Nytrix.Rt
