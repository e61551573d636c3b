import Nytrix.Lib.TwosComplement
import Nytrix.Rt.BigintLaws
import Nytrix.Rt.Math

/-! Where the operators agree on the two representations of an integer, and where they do not. -/

namespace Nytrix.Rt

open Nytrix.Lib

/-- The integer is a small one. -/
def Small (n : Int) : Prop := smallIntMin ≤ n ∧ n ≤ smallIntMax

/-- Smallness is decided by comparing with the ends of the range. -/
instance (n : Int) : Decidable (Small n) := inferInstanceAs (Decidable (_ ∧ _))

theorem small_iff {n : Int} : Small n ↔ -2 ^ 62 ≤ n ∧ n < 2 ^ 62 := by
  rw [Small, smallIntMin, smallIntMax]
  omega

theorem denotes_word {bits : BitVec 64} {n : Int} (denoted : Denotes (.word bits) n) :
    isInt (.word bits) = true ∧ (untagWord bits).toInt = n := by
  cases denoted with
  | small tagged => exact ⟨tagged, rfl⟩

theorem small_of_word {bits : BitVec 64} {n : Int} (denoted : Denotes (.word bits) n) :
    Small n := by
  rw [← (denotes_word denoted).2]
  exact untagWord_bounds bits

theorem Denotes.unique {v : Num} {m n : Int} (first : Denotes v m) (second : Denotes v n) :
    m = n := by
  rw [← valToMpz_eq first, valToMpz_eq second]

theorem toInt_ofInt_small {n : Int} (small : Small n) : (BitVec.ofInt 64 n).toInt = n := by
  have bounds := small_iff.mp small
  rw [BitVec.toInt_ofInt]
  exact Int.bmod_eq_of_le (by omega) (by omega)

theorem tagV_ofInt_denotes {n : Int} (small : Small n) :
    Denotes (tagV (BitVec.ofInt 64 n)) n :=
  tagV_denotes (toInt_ofInt_small small) small.1 small.2

theorem untagWord_tagWord_toInt (v : BitVec 64) :
    (untagWord (tagWord v)).toInt = Int.bmod v.toInt (2 ^ 63) := by
  have same : (tagWord v).toInt = 2 * Int.bmod v.toInt (2 ^ 63) + 1 := by
    rw [tagWord_eq, BitVec.toInt_add, BitVec.toInt_add, show (1#64).toInt = 1 from rfl]
    have low : -2 ^ 63 ≤ v.toInt := BitVec.le_toInt v
    have high : v.toInt < 2 ^ 63 := BitVec.toInt_lt
    simp only [Int.bmod]
    omega
  rw [untagWord, BitVec.toInt_sshiftRight, Int.shiftRight_eq_div_pow, same]
  omega

theorem tagV_denotes_bmod (v : BitVec 64) : Denotes (tagV v) (Int.bmod v.toInt (2 ^ 63)) := by
  rw [← untagWord_tagWord_toInt]
  exact .small (isInt_tagV v)

theorem tagV_denotes_iff {v : BitVec 64} {n : Int} :
    Denotes (tagV v) n ↔ n = Int.bmod v.toInt (2 ^ 63) := by
  constructor
  · intro denoted
    exact denoted.unique (tagV_denotes_bmod v)
  · rintro rfl
    exact tagV_denotes_bmod v

theorem smallIntFitsI64_iff {raw : BitVec 64} : smallIntFitsI64 raw = true ↔ Small raw.toInt := by
  rw [smallIntFitsI64, Bool.and_eq_true, decide_eq_true_eq, decide_eq_true_eq, Small]

section Promoting

variable {a b : Num} {m n : Int}

theorem promoting_denotes {overflow : BitVec 64 → BitVec 64 → Bool}
    {op : BitVec 64 → BitVec 64 → BitVec 64} {big : Num → Num → Num} {f : Int → Int → Int}
    (machine : ∀ x y, overflow x y = false → (op x y).toInt = f x.toInt y.toInt)
    (exact : Denotes (big a b) (f m n)) (left : Denotes a m) (right : Denotes b n) :
    Denotes (promoting overflow op big a b) (f m n) := by
  cases left with
  | big canonical => cases right <;> exact exact
  | small taggedA =>
    cases right with
    | big canonical => exact exact
    | small taggedB =>
      simp only [promoting, taggedA, taggedB, Bool.and_self, if_true]
      split
      · exact exact
      · next inside =>
        rw [Bool.or_eq_true, Bool.not_eq_true', not_or, Bool.not_eq_true, Bool.not_eq_false] at inside
        have small := smallIntFitsI64_iff.mp inside.2
        exact tagV_denotes (machine _ _ inside.1) (machine _ _ inside.1 ▸ small.1)
          (machine _ _ inside.1 ▸ small.2)

theorem promoted_exact (left : Denotes a m) (right : Denotes b n) :
    Denotes (rtAdd a b) (m + n) ∧ Denotes (rtSub a b) (m - n) ∧ Denotes (rtMul a b) (m * n) := by
  have add : Denotes (bigintAdd a b) (m + n) := (bigintAdd_eq left right).1 ▸ fromMpz_denotes _
  have sub : Denotes (bigintSub a b) (m - n) := (bigintSub_eq left right).1 ▸ fromMpz_denotes _
  have mul : Denotes (bigintMul a b) (m * n) := (bigintMul_eq left right).1 ▸ fromMpz_denotes _
  refine ⟨promoting_denotes ?_ add left right, promoting_denotes ?_ sub left right,
    promoting_denotes ?_ mul left right⟩
  · intro x y inside
    exact BitVec.toInt_add_of_not_saddOverflow (by rw [inside]; decide)
  · intro x y inside
    exact BitVec.toInt_sub_of_not_ssubOverflow (by rw [inside]; decide)
  · intro x y inside
    exact BitVec.toInt_mul_of_not_smulOverflow (by rw [inside]; decide)

end Promoting

section Division

variable {a b : Int}

theorem tmod_eq_fmod_iff (nonzero : b ≠ 0) : a.tmod b = a.fmod b ↔ b ∣ a ∨ 0 < a * b := by
  rw [Int.fmod_eq_tmod]
  by_cases divides : b ∣ a
  · simp [divides]
  · have some : a ≠ 0 := fun zero => divides (zero ▸ Int.dvd_zero b)
    rw [if_neg divides]
    -- The product is positive when both integers are on one side of zero.
    rcases Int.lt_or_gt_of_ne some with negA | posA <;>
      rcases Int.lt_or_gt_of_ne nonzero with negB | posB
    · have := Int.mul_pos_of_neg_of_neg negA negB
      rw [if_neg (by omega), if_neg (by omega)]
      omega
    · have := Int.mul_neg_of_neg_of_pos negA posB
      rw [if_neg (by omega), if_pos (by omega)]
      omega
    · have := Int.mul_neg_of_pos_of_neg posA negB
      rw [if_pos (by omega), if_neg (by omega)]
      omega
    · have := Int.mul_pos posA posB
      rw [if_pos (by omega), if_pos (by omega)]
      omega

theorem rtDiv_object {va vb : Num} (left : Denotes va a) (right : Denotes vb b) (nonzero : b ≠ 0)
    (object : isBigintObj va = true ∨ isBigintObj vb = true) :
    rtDiv va vb = .ok (fromMpz (a.tdiv b)) := by
  have path : rtDiv va vb = bigintDiv va vb := by
    cases va <;> cases vb <;> simp [isBigintObj] at object <;> rfl
  rw [path, bigintDiv, valToMpz_eq left, valToMpz_eq right, if_neg nonzero]

theorem rtMod_object {va vb : Num} (left : Denotes va a) (right : Denotes vb b) (nonzero : b ≠ 0)
    (object : isBigintObj va = true ∨ isBigintObj vb = true) :
    rtMod va vb = .ok (fromMpz (a.fmod b)) := by
  have path : rtMod va vb = bigintMod va vb := by
    cases va <;> cases vb <;> simp [isBigintObj] at object <;> rfl
  rw [path, bigintMod, valToMpz_eq left, valToMpz_eq right, if_neg nonzero]

theorem untagWord_ne_zero {bits : BitVec 64} (denoted : Denotes (.word bits) b)
    (nonzero : b ≠ 0) : untagWord bits ≠ 0 := by
  intro zero
  apply nonzero
  rw [← (denotes_word denoted).2, zero]
  rfl

theorem rtDiv_words {x y : BitVec 64} (left : Denotes (.word x) a) (right : Denotes (.word y) b)
    (nonzero : b ≠ 0) : ∃ v, rtDiv (.word x) (.word y) = .ok (tagV v) ∧ v.toInt = a.tdiv b := by
  obtain ⟨taggedA, valueA⟩ := denotes_word left
  obtain ⟨taggedB, valueB⟩ := denotes_word right
  refine ⟨(untagWord x).sdiv (untagWord y), ?_, ?_⟩
  · simp only [rtDiv, taggedA, taggedB, Bool.and_self, if_true]
    rw [if_neg (untagWord_ne_zero right nonzero)]
  · -- The quotient is no larger than a small integer, so it fits a machine word.
    have bounds := small_iff.mp (small_of_word left)
    have smaller := Int.natAbs_tdiv_le_natAbs a b
    rw [BitVec.toInt_sdiv, valueA, valueB]
    exact Int.bmod_eq_of_le (by omega) (by omega)

theorem rtMod_words {x y : BitVec 64} (left : Denotes (.word x) a) (right : Denotes (.word y) b)
    (nonzero : b ≠ 0) : ∃ v, rtMod (.word x) (.word y) = .ok v ∧ Denotes v (a.tmod b) := by
  obtain ⟨taggedA, valueA⟩ := denotes_word left
  obtain ⟨taggedB, valueB⟩ := denotes_word right
  refine ⟨tagV ((untagWord x).srem (untagWord y)), ?_, ?_⟩
  · simp only [rtMod, taggedA, taggedB, Bool.and_self, if_true]
    rw [if_neg (untagWord_ne_zero right nonzero)]
  · have bounds := small_iff.mp (small_of_word left)
    have smaller : (a.tmod b).natAbs ≤ a.natAbs := by
      rw [Int.natAbs_tmod]
      exact Nat.mod_le _ _
    have small : Small (a.tmod b) := by
      rw [small_iff]
      rcases Int.le_total 0 a with positive | negative
      · have := Int.tmod_nonneg b positive
        omega
      · have := Int.tmod_nonneg b (Int.neg_nonneg_of_nonpos negative)
        rw [Int.neg_tmod] at this
        omega
    have value : ((untagWord x).srem (untagWord y)).toInt = a.tmod b := by
      rw [BitVec.toInt_srem, valueA, valueB]
    exact tagV_denotes value small.1 small.2

theorem small_tdiv (small : Small a) (nonzero : b ≠ 0) :
    Small (a.tdiv b) ↔ ¬(a = smallIntMin ∧ b = -1) := by
  rw [small_iff] at small
  rw [small_iff, show smallIntMin = -2 ^ 62 from rfl]
  have smaller := Int.natAbs_tdiv_le_natAbs a b
  by_cases minus : b = -1
  · subst minus
    rw [Int.tdiv_neg, Int.tdiv_one]
    omega
  · -- A magnitude that is not halved at least is divided by one.
    have inside : (a.tdiv b).natAbs < 2 ^ 62 ∨ a.tdiv b = a := by
      by_cases one : b = 1
      · exact .inr (by rw [one, Int.tdiv_one])
      · left
        have half : a.natAbs / b.natAbs ≤ a.natAbs / 2 := Nat.div_le_div_left (by omega) (by decide)
        rw [Int.natAbs_tdiv]
        show a.natAbs / b.natAbs < 2 ^ 62
        omega
    omega

/--
Quotient and remainder depend on the integers alone, and give the dividend back.

The quotient is off by less than one, so it is no wrapped one.
-/
def DividesExactly (a b : Int) : Prop :=
  ∃ q r : Int, a = q * b + r ∧ r.natAbs < b.natAbs ∧ ∀ va vb, Denotes va a → Denotes vb b →
    (∃ vq, rtDiv va vb = .ok vq ∧ Denotes vq q) ∧ ∃ vr, rtMod va vb = .ok vr ∧ Denotes vr r

theorem DividesExactly.rounds (exact : DividesExactly a b) (nonzero : b ≠ 0) :
    b ∣ a ∨ 0 < a * b := by
  obtain ⟨q, r, sum, -, every⟩ := exact
  have left := fromMpz_denotes a
  have right := fromMpz_denotes b
  obtain ⟨⟨vq, div, quotient⟩, vr, mod, remainder⟩ := every _ _ left right
  rw [rtDiv_object left right nonzero (.inl rfl)] at div
  rw [rtMod_object left right nonzero (.inl rfl)] at mod
  cases div
  cases mod
  have quotient := quotient.unique (fromMpz_denotes _)
  have remainder := remainder.unique (fromMpz_denotes _)
  subst quotient remainder
  have whole := Int.tdiv_mul_add_tmod a b
  exact (tmod_eq_fmod_iff nonzero).mp (by omega)

theorem not_dividesExactly_least : ¬DividesExactly smallIntMin (-1) := by
  rintro ⟨q, r, sum, inside, every⟩
  have left := tagV_ofInt_denotes (show Small smallIntMin by decide)
  have right := tagV_ofInt_denotes (show Small (-1) by decide)
  obtain ⟨⟨vq, div, quotient⟩, -⟩ := every _ _ left right
  obtain ⟨v, same, value⟩ := rtDiv_words left right (by decide)
  cases same.symm.trans div
  -- Two to the sixty-second loses its top bit under the tag.
  have wrapped : q = smallIntMin := by
    rw [tagV_denotes_iff.mp quotient, value]
    decide
  rw [wrapped, smallIntMin, smallIntMax] at sum
  omega

/--
Quotient and remainder are exact when the division is or the signs are equal, but for one pair.

Objects have their remainder rounded down and everything else is rounded towards zero, and the
quotient of the least small integer by minus one is no small integer.
-/
theorem dividesExactly_iff (nonzero : b ≠ 0) :
    DividesExactly a b ↔ (b ∣ a ∨ 0 < a * b) ∧ ¬(a = smallIntMin ∧ b = -1) := by
  constructor
  · intro exact
    refine ⟨exact.rounds nonzero, ?_⟩
    rintro ⟨rfl, rfl⟩
    exact not_dividesExactly_least exact
  · rintro ⟨rounds, edge⟩
    have same := (tmod_eq_fmod_iff nonzero).mpr rounds
    refine ⟨a.tdiv b, a.tmod b, (Int.tdiv_mul_add_tmod a b).symm, ?_, ?_⟩
    · rw [Int.natAbs_tmod]
      exact Nat.mod_lt _ (Int.natAbs_pos.mpr nonzero)
    · intro va vb left right
      by_cases object : isBigintObj va = true ∨ isBigintObj vb = true
      · refine ⟨⟨_, rtDiv_object left right nonzero object, fromMpz_denotes _⟩,
          _, rtMod_object left right nonzero object, ?_⟩
        rw [same]
        exact fromMpz_denotes _
      · -- Two words go through the machine's own division.
        cases va with
        | big => simp [isBigintObj] at object
        | word x =>
          cases vb with
          | big => simp [isBigintObj] at object
          | word y =>
            obtain ⟨v, div, value⟩ := rtDiv_words left right nonzero
            have small := (small_tdiv (small_of_word left) nonzero).mpr edge
            exact ⟨⟨_, div, tagV_denotes value small.1 small.2⟩, rtMod_words left right nonzero⟩

/-- Division of a positive integer beyond the small ones is exact. -/
theorem dividesExactly_large : (7 : Int) ≠ 0 ∧ DividesExactly (2 ^ 64 + 3) 7 :=
  ⟨by decide, (dividesExactly_iff (by decide)).mpr ⟨.inr (by decide), by decide⟩⟩

/-- Neither `-7` by `2` nor the least small integer by `-1` is divided exactly. -/
theorem not_dividesExactly_edges :
    ¬DividesExactly (-7) 2 ∧ ¬DividesExactly smallIntMin (-1) := by
  refine ⟨?_, not_dividesExactly_least⟩
  intro exact
  have rounds := exact.rounds (by decide)
  revert rounds
  decide

end Division

theorem mpzFitsSmallInt_iff {n : Int} : mpzFitsSmallInt n = true ↔ Small n := by
  unfold mpzFitsSmallInt Small
  rw [smallIntMin, smallIntMax]
  split <;> rw [decide_eq_true_eq] <;> omega

theorem mpzGetI64_eq (n : Int) : mpzGetI64 n = BitVec.ofInt 64 n := by
  unfold mpzGetI64
  split
  · next negative =>
    have turned : BitVec.ofInt 64 n = -BitVec.ofNat 64 n.natAbs := by
      rw [show n = -(n.natAbs : Int) by omega, BitVec.ofInt_neg, BitVec.ofInt_natCast]
      congr 2
      omega
    rw [turned]
    bv_omega
  · next positive =>
    rw [← BitVec.ofInt_natCast, Int.natAbs_of_nonneg (Int.not_lt.mp positive)]

theorem compactMpz_denotes (n : Int) : Denotes (compactMpz n) n := by
  unfold compactMpz
  split
  · next fits =>
    rw [mpzGetI64_eq]
    exact tagV_ofInt_denotes (mpzFitsSmallInt_iff.mp fits)
  · exact fromMpz_denotes n

theorem rawBits_eq {bits : BitVec 64} (tagged : isInt (.word bits) = true) :
    rawBits bits = untagWord bits := if_pos tagged

theorem tagV_untagWord_denotes (bits : BitVec 64) :
    Denotes (tagV (untagWord bits)) (untagWord bits).toInt :=
  tagV_denotes rfl (untagWord_bounds bits).1 (untagWord_bounds bits).2

theorem bitOp_denotes {word : BitVec 64 → BitVec 64 → BitVec 64} {mpz : Int → Int → Int}
    {a b : Num} {m n : Int}
    (through : ∀ x y, word (untagWord x) (untagWord y) = untagWord (word x y))
    (machine : ∀ x y, (word x y).toInt = mpz x.toInt y.toInt) (left : Denotes a m)
    (right : Denotes b n) : Denotes (bitOp word mpz a b) (mpz m n) := by
  by_cases object : isBigintObj a = true ∨ isBigintObj b = true
  · have path : bitOp word mpz a b = compactMpz (mpz (valToMpz a) (valToMpz b)) := by
      cases a <;> cases b <;> simp [isBigintObj] at object <;> rfl
    rw [path, valToMpz_eq left, valToMpz_eq right]
    exact compactMpz_denotes _
  · cases left with
    | big => simp [isBigintObj] at object
    | small taggedA =>
      cases right with
      | big => simp [isBigintObj] at object
      | small taggedB =>
        rw [bitOp, rawBits_eq taggedA, rawBits_eq taggedB, ← machine, through]
        exact tagV_untagWord_denotes _

theorem rtNot_denotes {a : Num} {m : Int} (denoted : Denotes a m) :
    Denotes (rtNot a) (Int.lnot m) := by
  cases denoted with
  | big canonical =>
    show Denotes (compactMpz (Int.lnot (valToMpz _))) _
    rw [valToMpz_eq (.big canonical)]
    exact compactMpz_denotes _
  | @small bits tagged =>
    have through : ~~~untagWord bits = untagWord (~~~bits) := by
      ext i inside
      simp [untagWord, BitVec.getElem_sshiftRight]
      split <;> simp
    rw [rtNot, rawBits_eq tagged, ← toInt_lnot (by decide), through]
    exact tagV_untagWord_denotes _

/-- The operators on bits are those of unbounded two's complement, in every representation. -/
def BitwiseExact (a b : Int) : Prop :=
  ∀ va vb, Denotes va a → Denotes vb b →
    Denotes (rtAnd va vb) (Int.land a b) ∧ Denotes (rtOr va vb) (Int.lor a b) ∧
    Denotes (rtXor va vb) (Int.xor a b) ∧ Denotes (rtNot va) (Int.lnot a)

theorem bitwiseExact (a b : Int) : BitwiseExact a b := by
  intro va vb left right
  refine ⟨bitOp_denotes ?_ toInt_land left right, bitOp_denotes ?_ toInt_lor left right,
    bitOp_denotes ?_ toInt_lxor left right, rtNot_denotes left⟩
  · intro x y
    exact (BitVec.sshiftRight_and_distrib x y 1).symm
  · intro x y
    exact (BitVec.sshiftRight_or_distrib x y 1).symm
  · intro x y
    exact (BitVec.sshiftRight_xor_distrib x y 1).symm

section Shifts

variable {a : Int} {n : Nat}

theorem shift_object {word : BitVec 64 → Nat → BitVec 64} {mpz : Int → Nat → Int} {va vn : Num}
    (left : Denotes va a) (right : Denotes vn n)
    (object : isBigintObj va = true ∨ isBigintObj vn = true) :
    shift word mpz va vn = some (compactMpz (mpz a (n % 2 ^ 64))) := by
  have path : shift word mpz va vn = some (compactMpz (if valToMpz vn < 0 then valToMpz va
      else mpz (valToMpz va) ((valToMpz vn).natAbs % 2 ^ 64))) := by
    cases va <;> cases vn <;> simp [isBigintObj] at object <;> rfl
  rw [path, valToMpz_eq left, valToMpz_eq right, if_neg (by omega), Int.natAbs_natCast]

theorem shift_words {word : BitVec 64 → Nat → BitVec 64} {mpz : Int → Nat → Int}
    {x y : BitVec 64} (left : Denotes (.word x) a) (right : Denotes (.word y) n) :
    shift word mpz (.word x) (.word y) =
      if n < 64 then some (tagV (word (untagWord x) n)) else none := by
  obtain ⟨taggedA, -⟩ := denotes_word left
  obtain ⟨taggedN, value⟩ := denotes_word right
  have count : (untagWord y).toNat = n := by
    have signed := BitVec.toInt_eq_toNat_cond (untagWord y)
    have bound := (untagWord y).isLt
    split at signed <;> omega
  rw [shift, rawBits_eq taggedA, rawBits_eq taggedN, count]

/--
A shift is exact in every representation.

The count is an integer as well, and both may be words or objects.
-/
def ShiftExact (op : Num → Num → Option Num) (f : Int → Nat → Int) (a : Int) (n : Nat) : Prop :=
  ∀ va vn, Denotes va a → Denotes vn n → ∃ v, op va vn = some v ∧ Denotes v (f a n)

theorem shiftExact_iff {word : BitVec 64 → Nat → BitVec 64} {mpz : Int → Nat → Int} :
    ShiftExact (shift word mpz) mpz a n ↔
      (Small a → Small n → n < 64 ∧
        mpz a n = Int.bmod (word (BitVec.ofInt 64 a) n).toInt (2 ^ 63)) ∧
      mpz a (n % 2 ^ 64) = mpz a n := by
  constructor
  · intro exact
    constructor
    · -- The two small forms go to the machine.
      intro smallA smallN
      have left := tagV_ofInt_denotes smallA
      have right := tagV_ofInt_denotes smallN
      obtain ⟨v, done, denoted⟩ := exact _ _ left right
      rw [tagV, tagV, shift_words left right] at done
      split at done
      · next inside =>
        cases done
        have held : untagWord (tagWord (BitVec.ofInt 64 a)) = BitVec.ofInt 64 a := by
          apply BitVec.eq_of_toInt_eq
          rw [(denotes_word left).2, toInt_ofInt_small smallA]
        rw [held] at denoted
        exact ⟨inside, tagV_denotes_iff.mp denoted⟩
      · cases done
    · -- Two objects go to the big integers.
      have left := fromMpz_denotes a
      have right := fromMpz_denotes n
      obtain ⟨v, done, denoted⟩ := exact _ _ left right
      rw [shift_object left right (.inl rfl)] at done
      cases done
      exact (compactMpz_denotes _).unique denoted
  · rintro ⟨words, limb⟩ va vn left right
    by_cases object : isBigintObj va = true ∨ isBigintObj vn = true
    · refine ⟨_, shift_object left right object, ?_⟩
      rw [limb]
      exact compactMpz_denotes _
    · cases va with
      | big => simp [isBigintObj] at object
      | word x =>
        cases vn with
        | big => simp [isBigintObj] at object
        | word y =>
          obtain ⟨inside, value⟩ := words (small_of_word left) (small_of_word right)
          refine ⟨_, (shift_words left right).trans (if_pos inside), ?_⟩
          rw [value, ← (denotes_word left).2, BitVec.ofInt_toInt]
          exact tagV_denotes_bmod _

theorem bmod_eq_iff_small {n : Int} : Int.bmod n (2 ^ 63) = n ↔ Small n := by
  rw [small_iff]
  constructor
  · intro same
    have low := Int.le_bmod (x := n) (m := 2 ^ 63) (by decide)
    have high := Int.bmod_lt (x := n) (m := 2 ^ 63) (by decide)
    omega
  · intro bounds
    exact Int.bmod_eq_of_le (by omega) (by omega)

theorem shlExact_iff :
    ShiftExact rtShl (fun a n => a * 2 ^ n) a n ↔
      (Small a → Small n → n < 64 ∧ Small (a * 2 ^ n)) ∧ (n < 2 ^ 64 ∨ a = 0) := by
  rw [rtShl, shiftExact_iff]
  apply and_congr
  · apply forall_congr'
    intro smallA
    apply forall_congr'
    intro smallN
    apply and_congr_right
    intro inside
    have value : Int.bmod (BitVec.ofInt 64 a <<< n).toInt (2 ^ 63) =
        Int.bmod (a * 2 ^ n) (2 ^ 63) := by
      have shifted : BitVec.ofInt 64 a <<< n = BitVec.ofInt 64 (a * 2 ^ n) := by
        rw [BitVec.shiftLeft_eq_mul_twoPow, BitVec.ofInt_mul]
        congr 1
        apply BitVec.eq_of_toNat_eq
        have power : (2 : Int) ^ n = ((2 ^ n : Nat) : Int) := by norm_cast
        rw [BitVec.toNat_twoPow, power, BitVec.ofInt_natCast, BitVec.toNat_ofNat]
      rw [shifted, BitVec.toInt_ofInt]
      simp only [Int.bmod]
      omega
    rw [value, eq_comm, bmod_eq_iff_small]
  · rw [mul_eq_mul_left_iff, pow_right_inj₀ (by decide) (by decide), Nat.mod_eq_iff_lt (by decide)]

theorem ediv_pow_eq_iff {k : Nat} (less : k < n) :
    a / 2 ^ k = a / 2 ^ n ↔ -2 ^ k ≤ a ∧ a < 2 ^ k := by
  obtain ⟨d, rfl⟩ := Nat.exists_eq_add_of_lt less
  have positive : (0 : Int) < 2 ^ k := Int.pow_pos (by decide)
  have two : (2 : Int) ≤ 2 ^ (d + 1) := by
    have : (1 : Int) ≤ 2 ^ d := Int.pow_pos (by decide)
    omega
  have nested : a / 2 ^ (k + d + 1) = a / 2 ^ k / 2 ^ (d + 1) := by
    rw [Int.ediv_ediv_of_nonneg (Int.le_of_lt positive), ← pow_add, Nat.add_assoc]
  have whole := Int.mul_ediv_add_emod a (2 ^ k)
  have low := Int.emod_nonneg a (Int.ne_of_gt positive)
  have high := Int.emod_lt_of_pos a positive
  rw [nested]
  generalize a / 2 ^ k = q at whole
  generalize (2 : Int) ^ (d + 1) = wide at two
  -- Only zero and minus one are their own quotients.
  have fixed : q = q / wide ↔ q = 0 ∨ q = -1 := by
    have split := Int.mul_ediv_add_emod q wide
    have lowQ := Int.emod_nonneg q (show wide ≠ 0 by omega)
    have highQ := Int.emod_lt_of_pos q (show 0 < wide by omega)
    constructor
    · intro same
      rw [← same] at split
      by_contra other
      rcases (show 1 ≤ q ∨ q ≤ -2 by omega) with above | below
      · nlinarith
      · nlinarith
    · rintro (rfl | rfl)
      · exact (Int.zero_ediv wide).symm
      · rw [Int.neg_one_ediv, Int.sign_eq_one_of_pos (show 0 < wide by omega)]
  rw [fixed]
  constructor
  · rintro (rfl | rfl) <;> constructor <;> omega
  · rintro ⟨below, above⟩
    by_contra other
    rcases (show 1 ≤ q ∨ q ≤ -2 by omega) with far | far
    · nlinarith
    · nlinarith

theorem ushiftRight_small_iff (small : Small a) :
    a / 2 ^ n = Int.bmod (BitVec.ofInt 64 a >>> n).toInt (2 ^ 63) ↔ 0 ≤ a ∨ n ≤ 1 := by
  have bounds := small_iff.mp small
  have bits : ((BitVec.ofInt 64 a).toNat : Int) = a % 2 ^ 64 := by
    rw [BitVec.toNat_ofInt]
    omega
  rw [BitVec.toInt_ushiftRight, toInt_ofInt_small small]
  rcases n with _ | _ | n
  · simp only [pow_zero, Int.ediv_one, if_true, Nat.zero_le, or_true, iff_true]
    exact (bmod_eq_iff_small.mpr small).symm
  · simp only [Nat.zero_add, pow_one, Nat.le_refl, or_true, iff_true]
    rw [if_neg (by decide), Nat.shiftRight_eq_div_pow, Int.natCast_ediv, bits]
    simp only [Int.bmod]
    omega
  · -- Two zeros or more come in from the left, so the word is no longer negative.
    have below : (2 : Int) ^ (n + 2) = 4 * 2 ^ n := by ring
    have four : (4 : Int) ≤ 2 ^ (n + 2) := by
      have : (1 : Int) ≤ 2 ^ n := Int.pow_pos (by decide)
      omega
    have power : ((2 ^ (n + 2) : Nat) : Int) = 2 ^ (n + 2) := by norm_cast
    rw [if_neg (by omega), Nat.shiftRight_eq_div_pow, Int.natCast_ediv, bits, power]
    generalize (2 : Int) ^ (n + 2) = wide at four
    have nonneg : 0 ≤ a % 2 ^ 64 / wide := Int.ediv_nonneg (by omega) (by omega)
    have quarter : a % 2 ^ 64 / wide < 2 ^ 62 := by
      apply Int.ediv_lt_of_lt_mul (by omega)
      omega
    rw [Int.bmod_eq_of_le (by omega) (by omega)]
    rcases Int.lt_or_le a 0 with negative | positive
    · have less := Int.ediv_neg_of_neg_of_pos negative (show 0 < wide by omega)
      omega
    · rw [Int.emod_eq_of_lt positive (by omega)]
      exact ⟨fun _ => .inl positive, fun _ => rfl⟩

theorem shrExact_iff :
    ShiftExact rtShr (fun a n => a.fdiv (2 ^ n)) a n ↔
      (Small a → Small n → n < 64 ∧ (0 ≤ a ∨ n ≤ 1)) ∧
      (n < 2 ^ 64 ∨ (-2 ^ (n % 2 ^ 64) ≤ a ∧ a < 2 ^ (n % 2 ^ 64))) := by
  have floor (k : Nat) : a.fdiv (2 ^ k) = a / 2 ^ k :=
    Int.fdiv_eq_ediv_of_nonneg a (Int.le_of_lt (Int.pow_pos (by decide)))
  rw [rtShr, shiftExact_iff]
  simp only [floor]
  apply and_congr
  · apply forall_congr'
    intro smallA
    apply forall_congr'
    intro smallN
    rw [ushiftRight_small_iff smallA]
  · rcases Nat.lt_or_ge n (2 ^ 64) with within | beyond
    · rw [Nat.mod_eq_of_lt within]
      exact ⟨fun _ => .inl within, fun _ => rfl⟩
    · rw [ediv_pow_eq_iff (Nat.lt_of_lt_of_le (Nat.mod_lt n (by decide)) beyond)]
      exact (or_iff_right (Nat.not_lt.mpr beyond)).symm

/-- Bit operators and shifts give in every representation what they give on integers. -/
def BitOpsExact (a b : Int) (n : Nat) : Prop :=
  BitwiseExact a b ∧ ShiftExact rtShl (fun a n => a * 2 ^ n) a n ∧
    ShiftExact rtShr (fun a n => a.fdiv (2 ^ n)) a n

/--
The bit operators are exact, and the shifts are when small operands stay small.

Two words are shifted by the machine, which loses what leaves the word, fills a negative one with
zeros and has no shift by sixty-four bits; big integers are shifted by one limb of the count.
-/
theorem bitOpsExact_iff (a b : Int) (n : Nat) :
    BitOpsExact a b n ↔
      (Small a → Small n → n < 64 ∧ Small (a * 2 ^ n) ∧ (0 ≤ a ∨ n ≤ 1)) ∧
      (n < 2 ^ 64 ∨ a = 0) := by
  rw [BitOpsExact, shlExact_iff, shrExact_iff]
  constructor
  · rintro ⟨-, ⟨left, limb⟩, right, -⟩
    refine ⟨?_, limb⟩
    intro smallA smallN
    exact ⟨(left smallA smallN).1, (left smallA smallN).2, (right smallA smallN).2⟩
  · rintro ⟨words, limb⟩
    refine ⟨bitwiseExact a b, ⟨?_, limb⟩, ?_, ?_⟩
    · intro smallA smallN
      exact ⟨(words smallA smallN).1, (words smallA smallN).2.1⟩
    · intro smallA smallN
      exact ⟨(words smallA smallN).1, (words smallA smallN).2.2⟩
    · -- Zero is within every power of two.
      rcases limb with within | rfl
      · exact .inl within
      · have positive : (0 : Int) < 2 ^ (n % 2 ^ 64) := Int.pow_pos (by decide)
        exact .inr ⟨by omega, positive⟩

/-- Small integers are shifted wrongly: `-8` by two to the right, and the top bit to the left. -/
theorem not_bitOpsExact_small : ¬BitOpsExact (-8) 0 2 ∧ ¬BitOpsExact (2 ^ 61) 0 1 := by
  constructor
  · rintro ⟨-, -, right⟩
    have bad := (shrExact_iff.mp right).1 (by decide) (by decide)
    revert bad
    decide
  · rintro ⟨-, left, -⟩
    have bad := (shlExact_iff.mp left).1 (by decide) (by decide)
    revert bad
    decide

end Shifts

end Nytrix.Rt
