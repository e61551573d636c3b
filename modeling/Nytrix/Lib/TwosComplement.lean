import Mathlib.Data.Int.Bitwise

/-! Machine words as windows on the unbounded two's complement of integers. -/

namespace Nytrix.Lib

variable {w : Nat}

theorem int_eq_of_testBit {m n : Int} (same : ∀ i, m.testBit i = n.testBit i) : m = n := by
  -- Far enough up, the bits of an integer show its sign, so integers of opposite sign differ there.
  have apart (p q : Nat) (same : ∀ i, Nat.testBit p i = !Nat.testBit q i) : False := by
    have below (r : Nat) (le : r ≤ max p q) : Nat.testBit r (max p q) = false :=
      Nat.testBit_lt_two_pow (Nat.lt_of_le_of_lt le Nat.lt_two_pow_self)
    have := same (max p q)
    rw [below p (Nat.le_max_left p q), below q (Nat.le_max_right p q)] at this
    cases this
  cases m with
  | ofNat p =>
    cases n with
    | ofNat q => exact congrArg Int.ofNat (Nat.eq_of_testBit_eq same)
    | negSucc q => exact (apart p q same).elim
  | negSucc p =>
    cases n with
    | ofNat q => exact (apart q p fun i => (same i).symm).elim
    | negSucc q =>
      exact congrArg Int.negSucc (Nat.eq_of_testBit_eq fun i => Bool.not_inj (same i))

theorem toInt_of_msb {x : BitVec w} (negative : x.msb = true) :
    x.toInt = Int.negSucc (~~~x).toNat := by
  have bound := x.isLt
  rw [BitVec.toInt_eq_msb_cond, if_pos negative, BitVec.toNat_not]
  omega

theorem testBit_toInt (x : BitVec w) (i : Nat) :
    x.toInt.testBit i = if i < w then x.getLsbD i else x.msb := by
  cases negative : x.msb with
  | false =>
    rw [BitVec.toInt_eq_msb_cond, negative, if_neg (by decide)]
    show x.toNat.testBit i = _
    rw [BitVec.testBit_toNat]
    split
    · rfl
    · next outside => exact BitVec.getLsbD_of_ge x i (Nat.not_lt.mp outside)
  | true =>
    rw [toInt_of_msb negative]
    show (!(~~~x).toNat.testBit i) = _
    rw [BitVec.testBit_toNat, BitVec.getLsbD_not]
    split <;> simp_all

theorem toInt_land (x y : BitVec w) : (x &&& y).toInt = Int.land x.toInt y.toInt := by
  apply int_eq_of_testBit
  intro i
  rw [Int.testBit_land, testBit_toInt, testBit_toInt, testBit_toInt, BitVec.getLsbD_and,
    BitVec.msb_and]
  split <;> rfl

theorem toInt_lor (x y : BitVec w) : (x ||| y).toInt = Int.lor x.toInt y.toInt := by
  apply int_eq_of_testBit
  intro i
  rw [Int.testBit_lor, testBit_toInt, testBit_toInt, testBit_toInt, BitVec.getLsbD_or,
    BitVec.msb_or]
  split <;> rfl

theorem toInt_lxor (x y : BitVec w) : (x ^^^ y).toInt = Int.xor x.toInt y.toInt := by
  apply int_eq_of_testBit
  intro i
  rw [Int.testBit_lxor, testBit_toInt, testBit_toInt, testBit_toInt, BitVec.getLsbD_xor,
    BitVec.msb_xor]
  split <;> rfl

theorem toInt_lnot (positive : 0 < w) (x : BitVec w) : (~~~x).toInt = Int.lnot x.toInt := by
  apply int_eq_of_testBit
  intro i
  rw [Int.testBit_lnot, testBit_toInt, testBit_toInt, BitVec.getLsbD_not, BitVec.msb_not]
  split <;> simp_all

theorem land_two_pow_sub_one (v : Int) (k : Nat) : Int.land v (2 ^ k - 1 : Nat) = v % 2 ^ k := by
  have power : ((2 ^ k : Nat) : Int) = 2 ^ k := by norm_cast
  cases v with
  | ofNat m =>
    show ((m &&& (2 ^ k - 1) : Nat) : Int) = (m : Int) % 2 ^ k
    rw [Nat.and_two_pow_sub_one_eq_mod, ← power, Int.natCast_emod]
  | negSucc m =>
    show ((Nat.ldiff (2 ^ k - 1) m : Nat) : Int) = _
    have positive := Nat.two_pow_pos k
    have below : m % 2 ^ k < 2 ^ k := Nat.mod_lt m positive
    have turned : Nat.ldiff (2 ^ k - 1) m = 2 ^ k - (m % 2 ^ k + 1) := by
      apply Nat.eq_of_testBit_eq
      intro i
      rw [Nat.testBit_ldiff, Nat.testBit_two_pow_sub_one, Nat.testBit_two_pow_sub_succ below,
        Nat.testBit_mod_two_pow]
      cases decide (i < k) <;> simp
    rw [turned, ← power, Int.negSucc_emod m (by exact_mod_cast positive)]
    omega

end Nytrix.Lib
