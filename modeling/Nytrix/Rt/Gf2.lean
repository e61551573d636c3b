import Mathlib.Data.Int.Bitwise
import Mathlib.RingTheory.PrincipalIdealDomain
import Mathlib.Tactic.LinearCombination
import Nytrix.Lib.BitPolynomials
import Nytrix.Lib.Machine
import Nytrix.Rt.BigintLaws

/-! Integers as polynomials over the field of two elements: remainder, product and inverse. -/

namespace Nytrix.Rt

open Polynomial Nytrix.Lib Nytrix.Lib.BitPolynomials

section Loops

/-- The degree of a polynomial: one less than the bits of the magnitude. -/
def gf2Deg (a : Int) : Int := if a = 0 then -1 else a.natAbs.log2

/-- The loop that cancels the highest bit, until the degree is below that of the modulus. -/
def gf2ModLoop (m mDeg : Int) : Nat → Int → Option Int
  | 0, _ => none
  | fuel + 1, out =>
    if gf2Deg out < mDeg then some out
    else gf2ModLoop m mDeg fuel (out.xor (m <<< (gf2Deg out - mDeg).toNat))

/-- The remainder, zero for the modulus zero. -/
def gf2Mod (fuel : Nat) (a m : Int) : Option Int :=
  if gf2Deg m < 0 then some 0 else gf2ModLoop m (gf2Deg m) fuel a

/-- The loop that sets the bits of the quotient on the way to the remainder. -/
def gf2DivLoop (b bDeg : Int) : Nat → Int → Int → Option (Int × Int)
  | 0, _, _ => none
  | fuel + 1, q, r =>
    if gf2Deg r < bDeg then some (q, r)
    else
      let shift := (gf2Deg r - bDeg).toNat
      gf2DivLoop b bDeg fuel (q.lor (2 ^ shift)) (r.xor (b <<< shift))

/-- Quotient and remainder. -/
def gf2DivQr (fuel : Nat) (a b : Int) : Option (Int × Int) :=
  if gf2Deg b < 0 then some (0, a) else gf2DivLoop b (gf2Deg b) fuel 0 a

/-- The loop over the bits of the second factor. -/
def gf2MulLoop (m : Int) (mDeg : Nat) : Nat → Int → Int → Int → Option Int
  | 0, _, _, _ => none
  | fuel + 1, out, va, vb =>
    if vb = 0 then some out
    else
      let out := if vb.testBit 0 then out.xor va else out
      let vb := vb >>> (1 : Nat)
      if vb = 0 then gf2MulLoop m mDeg fuel out va vb
      else
        let va := va <<< (1 : Nat)
        let va := if va.testBit mDeg then va.xor m else va
        gf2MulLoop m mDeg fuel out va vb

/-- The product modulo a polynomial, zero for the modulus zero. -/
def gf2Mulmod (fuel : Nat) (a b m : Int) : Option Int :=
  if gf2Deg m < 0 then some 0
  else (gf2Mod fuel a m).bind fun va => gf2MulLoop m (gf2Deg m).toNat fuel 0 va b

/-- One turn of Euclid's algorithm: the next remainder and the next coefficient. -/
def gf2InvStep (fuel : Nat) (m r0 r1 t0 t1 : Int) : Option (Int × Int) :=
  (gf2DivQr fuel r0 r1).bind fun qr =>
    (gf2Mulmod fuel qr.1 t1 m).bind fun prod =>
      (gf2Mod fuel (t0.xor prod) m).map fun next => (qr.2, next)

/-- The loop of Euclid's algorithm: the last remainder but zero, and its coefficient. -/
def gf2InvLoop (m : Int) : Nat → Int → Int → Int → Int → Option (Int × Int)
  | 0, _, _, _, _ => none
  | fuel + 1, r0, r1, t0, t1 =>
    if r1 = 0 then some (r0, t0)
    else (gf2InvStep fuel m r0 r1 t0 t1).bind fun next =>
      gf2InvLoop m fuel r1 next.1 t1 next.2

/-- The inverse modulo a polynomial, zero if there is none. -/
def gf2Inv (fuel : Nat) (a m : Int) : Option Int :=
  (gf2Mod fuel a m).bind fun r1 =>
    (gf2InvLoop m fuel m r1 0 1).map fun last => if gf2Deg last.1 > 0 then 0 else last.2

/-- The remainder of two values. -/
def bigintGf2Mod (fuel : Nat) (a m : Num) : Option Num :=
  (gf2Mod fuel (valToMpz a) (valToMpz m)).map fromMpz

/-- The product of two values modulo a third. -/
def bigintGf2Mulmod (fuel : Nat) (a b m : Num) : Option Num :=
  (gf2Mulmod fuel (valToMpz a) (valToMpz b) (valToMpz m)).map fromMpz

/-- The inverse of a value modulo another. -/
def bigintGf2Inv (fuel : Nat) (a m : Num) : Option Num :=
  (gf2Inv fuel (valToMpz a) (valToMpz m)).map fromMpz

/-- The greatest common divisor, by remainders until one is zero. -/
def gf2Gcd : Nat → Num → Num → Option Num
  | 0, _, _ => none
  | fuel + 1, va, vb =>
    if valToMpz vb = 0 then some va
    else (bigintGf2Mod fuel va vb).bind fun rest => gf2Gcd fuel vb rest

end Loops

section Naturals

variable {a b m n : Nat}

theorem gf2Deg_natCast (some : n ≠ 0) : gf2Deg n = n.log2 := by
  rw [gf2Deg, if_neg (by exact_mod_cast some), Int.natAbs_natCast]

theorem gf2Deg_lt_iff (divisor : m ≠ 0) : gf2Deg n < gf2Deg m ↔ n < 2 ^ m.log2 := by
  rw [gf2Deg_natCast divisor]
  rcases Nat.eq_zero_or_pos n with rfl | positive
  · simp only [gf2Deg, Nat.cast_zero, if_true, Nat.two_pow_pos, iff_true]
    omega
  · rw [gf2Deg_natCast (by omega), Int.ofNat_lt, Nat.log2_lt (by omega)]

theorem gf2Deg_nonneg (divisor : m ≠ 0) : ¬ gf2Deg m < 0 := by
  rw [gf2Deg_natCast divisor]
  omega

/-- What a turn of the two division loops does to the remainder. -/
theorem shifted (divisor : m ≠ 0) (above : ¬ gf2Deg n < gf2Deg m) :
    ∃ k, (gf2Deg n - gf2Deg m).toNat = k ∧ n ≠ 0 ∧ k + m.log2 = n.log2 ∧
      n ^^^ (m <<< k) < 2 ^ n.log2 := by
  have some : n ≠ 0 := by
    rintro rfl
    rw [gf2Deg_lt_iff divisor] at above
    exact above (Nat.two_pow_pos _)
  rw [gf2Deg_natCast some, gf2Deg_natCast divisor] at above ⊢
  have le : m.log2 ≤ n.log2 := by omega
  exact ⟨n.log2 - m.log2, by omega, some, by omega, xor_shift_lt some divisor le⟩

theorem gf2ModLoop_settles (divisor : m ≠ 0) (n : Nat) :
    ∃ r : Nat, Settles (gf2ModLoop m (gf2Deg m) · n) r ∧ r < 2 ^ m.log2 ∧
      toPoly m ∣ toPoly n - toPoly r := by
  induction n using Nat.strong_induction_on with
  | _ n ih =>
    by_cases below : gf2Deg n < gf2Deg m
    · refine ⟨n, .succ (.of_eq fun fuel => ?_), (gf2Deg_lt_iff divisor).mp below, ?_⟩
      · rw [gf2ModLoop, if_pos below]
      · rw [sub_self]
        exact dvd_zero _
    · obtain ⟨k, shift, some, -, less⟩ := shifted divisor below
      obtain ⟨r, settled, small, multiple⟩ :=
        ih _ (Nat.lt_of_lt_of_le less (Nat.log2_self_le some))
      refine ⟨r, .succ ?_, small, ?_⟩
      · simp only [gf2ModLoop, if_neg below, shift]
        exact settled
      · -- The multiple of the modulus that is taken away changes no remainder.
        rw [toPoly_xor, toPoly_shiftLeft] at multiple
        have whole := dvd_sub multiple (dvd_mul_left (toPoly m) (X ^ k))
        rwa [show toPoly n + X ^ k * toPoly m - toPoly r - X ^ k * toPoly m = toPoly n - toPoly r by
          ring] at whole

theorem gf2Mod_settles (divisor : m ≠ 0) (n : Nat) :
    ∃ r : Nat, Settles (gf2Mod · n m) r ∧ r < 2 ^ m.log2 ∧ toPoly m ∣ toPoly n - toPoly r := by
  obtain ⟨r, settled, rest⟩ := gf2ModLoop_settles divisor n
  refine ⟨r, ?_, rest⟩
  simpa only [gf2Mod, if_neg (gf2Deg_nonneg divisor)] using settled

theorem toPoly_setBit {q k : Nat} (clear : q.testBit k = false) :
    toPoly (q ||| 2 ^ k) = toPoly q + X ^ k := by
  have same : q ||| 2 ^ k = q ^^^ 2 ^ k := by
    refine Nat.eq_of_testBit_eq fun i => ?_
    rw [Nat.testBit_or, Nat.testBit_xor, Nat.testBit_two_pow]
    by_cases here : k = i
    · subst here
      simp [clear]
    · simp [here]
  rw [same, toPoly_xor, toPoly_two_pow]

theorem gf2DivLoop_settles (divisor : b ≠ 0) (n q : Nat)
    (clear : ∀ i, n ≠ 0 → i + b.log2 ≤ n.log2 → q.testBit i = false) :
    ∃ q' r : Nat, Settles (gf2DivLoop b (gf2Deg b) · q n) (q', r) ∧ r < 2 ^ b.log2 ∧
      toPoly q' * toPoly b + toPoly r = toPoly q * toPoly b + toPoly n := by
  induction n using Nat.strong_induction_on generalizing q with
  | _ n ih =>
    by_cases below : gf2Deg n < gf2Deg b
    · refine ⟨q, n, .succ (.of_eq fun fuel => ?_), (gf2Deg_lt_iff divisor).mp below, rfl⟩
      rw [gf2DivLoop, if_pos below]
    · obtain ⟨k, shift, some, degree, less⟩ := shifted divisor below
      have higher : ∀ i, n ^^^ (b <<< k) ≠ 0 → i + b.log2 ≤ (n ^^^ (b <<< k)).log2 →
          (q ||| 2 ^ k).testBit i = false := by
        intro i rest within
        have lower := (Nat.log2_lt rest).mpr less
        rw [Nat.testBit_or, clear i some (by omega), Nat.testBit_two_pow]
        simp only [Bool.false_or, decide_eq_false_iff_not]
        omega
      obtain ⟨q', r, settled, small, whole⟩ :=
        ih _ (Nat.lt_of_lt_of_le less (Nat.log2_self_le some)) _ higher
      refine ⟨q', r, .succ ?_, small, ?_⟩
      · simp only [gf2DivLoop, if_neg below, shift]
        have bit : (q : Int).lor (2 ^ k) = ((q ||| 2 ^ k : Nat) : Int) := by
          rw [show (2 : Int) ^ k = ((2 ^ k : Nat) : Int) by norm_cast]
          rfl
        rw [bit]
        exact settled
      · rw [whole, toPoly_setBit (clear k some (by omega)), toPoly_xor, toPoly_shiftLeft]
        have twice : (2 : (ZMod 2)[X]) = 0 := CharTwo.two_eq_zero
        linear_combination (X ^ k * toPoly b) * twice

theorem gf2DivQr_settles (divisor : b ≠ 0) (n : Nat) :
    ∃ q r : Nat, Settles (gf2DivQr · n b) (q, r) ∧ r < 2 ^ b.log2 ∧
      toPoly n = toPoly q * toPoly b + toPoly r := by
  obtain ⟨q, r, settled, small, whole⟩ :=
    gf2DivLoop_settles divisor n 0 fun i _ _ => Nat.zero_testBit i
  refine ⟨q, r, ?_, small, ?_⟩
  · simpa only [gf2DivQr, if_neg (gf2Deg_nonneg divisor), Nat.cast_zero] using settled
  · rw [whole, toPoly_zero]
    ring

/-- The next multiple of the first factor, reduced. -/
def nextMultiple (m va : Nat) : Nat :=
  if (va <<< 1).testBit m.log2 then (va <<< 1) ^^^ m else va <<< 1

theorem nextMultiple_spec (divisor : m ≠ 0) {va : Nat} (small : va < 2 ^ m.log2) :
    nextMultiple m va < 2 ^ m.log2 ∧ toPoly m ∣ X * toPoly va - toPoly (nextMultiple m va) := by
  have double : va <<< 1 < 2 ^ (m.log2 + 1) := by
    rw [Nat.shiftLeft_eq, Nat.pow_succ]
    omega
  rw [nextMultiple]
  split
  · next top =>
    refine ⟨Nat.lt_pow_two_of_testBit _ fun i above => ?_, ?_⟩
    · rw [Nat.testBit_xor]
      rcases Nat.eq_or_lt_of_le above with rfl | higher
      · rw [top, Nat.testBit_log2 divisor]
        rfl
      · have high (k : Nat) (below : k < 2 ^ (m.log2 + 1)) : k.testBit i = false :=
          Nat.testBit_lt_two_pow (Nat.lt_of_lt_of_le below (Nat.pow_le_pow_right (by decide) higher))
        rw [high _ double, high _ Nat.lt_log2_self]
        rfl
    · rw [toPoly_xor, toPoly_shiftLeft, pow_one]
      exact ⟨-1, by ring⟩
  · next top =>
    refine ⟨Nat.lt_pow_two_of_testBit _ fun i above => ?_, ?_⟩
    · rcases Nat.eq_or_lt_of_le above with rfl | higher
      · simpa using top
      · exact Nat.testBit_lt_two_pow
          (Nat.lt_of_lt_of_le double (Nat.pow_le_pow_right (by decide) higher))
    · rw [toPoly_shiftLeft, pow_one, sub_self]
      exact dvd_zero _

theorem gf2MulLoop_settles (divisor : m ≠ 0) (vb out va : Nat) (small : va < 2 ^ m.log2)
    (low : out < 2 ^ m.log2) :
    ∃ r : Nat, Settles (gf2MulLoop m m.log2 · out va vb) r ∧ r < 2 ^ m.log2 ∧
      toPoly m ∣ toPoly out + toPoly va * toPoly vb - toPoly r := by
  induction vb using Nat.strong_induction_on generalizing out va with
  | _ vb ih =>
    by_cases done : vb = 0
    · subst done
      refine ⟨out, .succ (.of_eq fun fuel => ?_), low, ?_⟩
      · rw [gf2MulLoop, if_pos Nat.cast_zero]
      · rw [toPoly_zero, mul_zero, add_zero, sub_self]
        exact dvd_zero _
    · have less : vb >>> 1 < vb := by
        rw [Nat.shiftRight_eq_div_pow]
        omega
      have half := toPoly_half vb
      have notZero : ¬ (vb : Int) = 0 := by exact_mod_cast done
      -- The lowest bit adds the multiple.
      obtain ⟨out', added, low', sum⟩ : ∃ out' : Nat,
          (if (vb : Int).testBit 0 then (out : Int).xor va else out) = out' ∧ out' < 2 ^ m.log2 ∧
            toPoly out' = toPoly out + toPoly va * (if vb.testBit 0 then 1 else 0) := by
        by_cases set : vb.testBit 0 = true
        · refine ⟨out ^^^ va, if_pos set, Nat.xor_lt_two_pow low small, ?_⟩
          rw [toPoly_xor, if_pos set, mul_one]
        · exact ⟨out, if_neg set, low, by rw [if_neg set, mul_zero, add_zero]⟩
      obtain ⟨multiple, step⟩ := nextMultiple_spec divisor small
      by_cases last : vb >>> 1 = 0
      · obtain ⟨r, settled, small', whole⟩ := ih _ less out' va small low'
        refine ⟨r, .succ ?_, small', ?_⟩
        · have zero : (vb : Int) >>> (1 : Nat) = 0 := congrArg Nat.cast last
          simp only [gf2MulLoop, if_neg notZero, added, zero, if_true]
          rw [last] at settled
          exact settled
        · rw [last, toPoly_zero, mul_zero, add_zero, sum] at whole
          rwa [half, last, toPoly_zero, mul_zero, add_zero]
      · obtain ⟨r, settled, small', whole⟩ := ih _ less out' _ multiple low'
        refine ⟨r, .succ ?_, small', ?_⟩
        · have more : ¬ (vb : Int) >>> (1 : Nat) = 0 := fun zero => last (Int.ofNat.inj zero)
          have next : (if ((va : Int) <<< (1 : Nat)).testBit m.log2 then ((va : Int) <<< (1 : Nat)).xor m
              else (va : Int) <<< (1 : Nat)) = (nextMultiple m va : Int) := by
            rw [nextMultiple, Nat.cast_ite]
            rfl
          simp only [gf2MulLoop, if_neg notZero, added, if_neg more, next]
          exact settled
        · rw [sum] at whole
          rw [half]
          have all := dvd_add whole (step.mul_right (toPoly (vb >>> 1)))
          convert all using 1
          ring

theorem gf2Mulmod_settles (divisor : m ≠ 0) (a b : Nat) :
    ∃ r : Nat, Settles (gf2Mulmod · a b m) r ∧ r < 2 ^ m.log2 ∧
      toPoly m ∣ toPoly a * toPoly b - toPoly r := by
  obtain ⟨va, reduced, small, multiple⟩ := gf2Mod_settles divisor a
  obtain ⟨r, settled, small', whole⟩ :=
    gf2MulLoop_settles divisor b 0 va small (Nat.two_pow_pos _)
  refine ⟨r, ?_, small', ?_⟩
  · simp only [gf2Mulmod, if_neg (gf2Deg_nonneg divisor)]
    refine reduced.bind ?_
    rw [gf2Deg_natCast divisor]
    exact settled
  · have all := dvd_add whole (multiple.mul_right (toPoly b))
    rwa [toPoly_zero, show 0 + toPoly va * toPoly b - toPoly r +
      (toPoly a - toPoly va) * toPoly b = toPoly a * toPoly b - toPoly r by ring] at all

theorem gf2InvStep_settles (divisor : m ≠ 0) {r0 r1 t0 t1 : Nat} (some : r1 ≠ 0)
    (first : toPoly m ∣ toPoly a * toPoly t0 - toPoly r0)
    (second : toPoly m ∣ toPoly a * toPoly t1 - toPoly r1) :
    ∃ rest next : Nat, Settles (gf2InvStep · m r0 r1 t0 t1) (rest, next) ∧ rest < r1 ∧
      toPoly m ∣ toPoly a * toPoly next - toPoly rest ∧
      ∃ q, toPoly r0 = q * toPoly r1 + toPoly rest := by
  obtain ⟨q, rest, divided, small, whole⟩ := gf2DivQr_settles some r0
  obtain ⟨prod, multiplied, -, product⟩ := gf2Mulmod_settles divisor q t1
  obtain ⟨next, reduced, -, remainder⟩ := gf2Mod_settles divisor (t0 ^^^ prod)
  refine ⟨rest, next, ?_, Nat.lt_of_lt_of_le small (Nat.log2_self_le some), ?_, _, whole⟩
  · exact divided.bind (multiplied.bind (reduced.map fun next => ((rest : Int), next)))
  · -- The coefficient follows the remainder, up to multiples of the modulus.
    rw [toPoly_xor] at remainder
    have twice : (2 : (ZMod 2)[X]) = 0 := CharTwo.two_eq_zero
    have all := dvd_sub (dvd_add first (second.mul_left (toPoly q)))
      ((dvd_add remainder product).mul_left (toPoly a))
    convert all using 1
    linear_combination whole + (toPoly q * toPoly r1) * twice

theorem gf2InvLoop_settles (divisor : m ≠ 0) (r1 r0 t0 t1 : Nat)
    (first : toPoly m ∣ toPoly a * toPoly t0 - toPoly r0)
    (second : toPoly m ∣ toPoly a * toPoly t1 - toPoly r1) :
    ∃ r t : Nat, Settles (gf2InvLoop m · r0 r1 t0 t1) (r, t) ∧
      toPoly m ∣ toPoly a * toPoly t - toPoly r ∧
      ∀ d, d ∣ toPoly r ↔ d ∣ toPoly r0 ∧ d ∣ toPoly r1 := by
  induction r1 using Nat.strong_induction_on generalizing r0 t0 t1 with
  | _ r1 ih =>
    by_cases done : r1 = 0
    · subst done
      refine ⟨r0, t0, .succ (.of_eq fun fuel => ?_), first, fun d => ?_⟩
      · rw [gf2InvLoop, if_pos Nat.cast_zero]
      · rw [toPoly_zero]
        exact ⟨fun divides => ⟨divides, dvd_zero d⟩, fun both => both.1⟩
    · obtain ⟨rest, next, stepped, less, third, q, whole⟩ :=
        gf2InvStep_settles divisor done first second
      obtain ⟨r, t, settled, last, same⟩ := ih rest less r1 t1 next second third
      refine ⟨r, t, .succ ?_, last, fun d => ?_⟩
      · have notZero : ¬ (r1 : Int) = 0 := by exact_mod_cast done
        simp only [gf2InvLoop, if_neg notZero]
        exact stepped.bind settled
      · rw [same d, whole]
        constructor
        · exact fun ⟨left, right⟩ => ⟨dvd_add (left.mul_left q) right, left⟩
        · exact fun ⟨sum, left⟩ => ⟨left, (dvd_add_right (left.mul_left q)).mp sum⟩

/-- Inverses are found when there are any, and zero stands for none. -/
theorem gf2Inv_settles (divisor : m ≠ 0) (a : Nat) :
    ∃ x : Nat, Settles (gf2Inv · a m) x ∧
      (IsCoprime (toPoly a) (toPoly m) → toPoly m ∣ toPoly a * toPoly x - 1) ∧
      (¬ IsCoprime (toPoly a) (toPoly m) → x = 0) := by
  obtain ⟨r1, reduced, -, remainder⟩ := gf2Mod_settles divisor a
  obtain ⟨r, t, settled, last, same⟩ := gf2InvLoop_settles (a := a) divisor r1 m 0 1
    ⟨-1, by rw [toPoly_zero]; ring⟩ (by rwa [toPoly_one, mul_one])
  have divides := (same (toPoly r)).mp dvd_rfl
  have all : Settles (gf2Inv · a m) (if gf2Deg r > 0 then 0 else (t : Int)) := by
    simp only [Nat.cast_zero, Nat.cast_one] at settled
    simp only [gf2Inv]
    exact reduced.bind (settled.map fun last => if gf2Deg last.1 > 0 then 0 else last.2)
  have common : toPoly r ∣ toPoly a := by
    have sum := dvd_add (divides.1.trans remainder) divides.2
    rwa [sub_add_cancel] at sum
  have notZero : r ≠ 0 := by
    rintro rfl
    rw [toPoly_zero, zero_dvd_iff] at divides
    exact divisor (toPoly_injective (divides.1.trans toPoly_zero.symm))
  by_cases positive : gf2Deg r > 0
  · refine ⟨0, by simpa only [if_pos positive, Nat.cast_zero] using all, fun coprime => ?_, fun _ => rfl⟩
    -- A divisor of positive degree is common to both.
    have one := eq_one_of_isUnit (coprime.isUnit_of_dvd' common divides.1)
    subst one
    exact absurd positive (by decide)
  · have one : r = 1 := by
      rw [gf2Deg_natCast notZero] at positive
      have below := Nat.lt_log2_self (n := r)
      rw [show r.log2 = 0 by omega] at below
      omega
    subst one
    rw [toPoly_one] at last
    refine ⟨t, by simpa only [if_neg positive] using all, fun _ => last, fun apart => ?_⟩
    obtain ⟨k, whole⟩ := last
    exact absurd ⟨toPoly t, -k, by linear_combination whole⟩ apart

end Naturals

section Values

/-- The polynomial that a value encodes. -/
noncomputable def polyOf (x : Num) : (ZMod 2)[X] := toPoly (valToMpz x).toNat

theorem exists_nat {x : Num} (natural : 0 ≤ valToMpz x) :
    ∃ n : Nat, valToMpz x = n ∧ polyOf x = toPoly n :=
  ⟨(valToMpz x).toNat, (Int.toNat_of_nonneg natural).symm, rfl⟩

theorem gf2Inv_zero (a : Int) : Settles (gf2Inv · a 0) 0 := by
  refine .succ (.of_eq fun fuel => ?_)
  rfl

/--
On natural numbers, remainder, product and inverse end with what polynomials over two elements say.

For the modulus zero each of them still ends.
-/
theorem gf2_ends_right (a b m : Num) (naturalA : 0 ≤ valToMpz a) (naturalB : 0 ≤ valToMpz b)
    (naturalM : 0 ≤ valToMpz m) :
    ∃ r p x : Nat, Settles (bigintGf2Mod · a m) (fromMpz r) ∧
      Settles (bigintGf2Mulmod · a b m) (fromMpz p) ∧
      Settles (bigintGf2Inv · a m) (fromMpz x) ∧
      (0 < valToMpz m →
        toPoly r = polyOf a % polyOf m ∧ toPoly p = polyOf a * polyOf b % polyOf m ∧
        (polyOf m ∣ polyOf a * toPoly x - 1 ↔ IsUnit (EuclideanDomain.gcd (polyOf a) (polyOf m))) ∧
        (¬ IsUnit (EuclideanDomain.gcd (polyOf a) (polyOf m)) → x = 0)) := by
  obtain ⟨i, isA, polyA⟩ := exists_nat naturalA
  obtain ⟨j, isB, polyB⟩ := exists_nat naturalB
  obtain ⟨k, isM, polyM⟩ := exists_nat naturalM
  simp only [bigintGf2Mod, bigintGf2Mulmod, bigintGf2Inv, isA, isB, isM, polyA, polyB, polyM]
  by_cases divisor : k = 0
  · subst divisor
    refine ⟨0, 0, 0, .of_eq fun _ => rfl, .of_eq fun _ => rfl, (gf2Inv_zero i).map fromMpz, ?_⟩
    exact fun positive => absurd positive (Int.lt_irrefl 0)
  · obtain ⟨r, reduced, small, remainder⟩ := gf2Mod_settles divisor i
    obtain ⟨p, multiplied, small', product⟩ := gf2Mulmod_settles divisor i j
    obtain ⟨x, inverted, inverse, zero⟩ := gf2Inv_settles divisor i
    refine ⟨r, p, x, reduced.map fromMpz, multiplied.map fromMpz, inverted.map fromMpz,
      fun _ => ⟨eq_mod divisor small remainder, eq_mod divisor small' product, ?_, ?_⟩⟩
    · rw [EuclideanDomain.gcd_isUnit_iff]
      refine ⟨fun ⟨c, whole⟩ => ⟨toPoly x, -c, by linear_combination whole⟩, inverse⟩
    · rwa [EuclideanDomain.gcd_isUnit_iff]

theorem gf2_ends_right_three :
    0 ≤ valToMpz (tagV 3) ∧ ∃ r : Nat, Settles (bigintGf2Mod · (tagV 3) (tagV 7)) (fromMpz r) := by
  obtain ⟨r, -, -, settled, -⟩ := gf2_ends_right (tagV 3) (tagV 3) (tagV 7) (by decide) (by decide)
    (by decide)
  exact ⟨by decide, r, settled⟩

theorem gf2Gcd_settles (n : Nat) (a b : Num) (naturalA : 0 ≤ valToMpz a) (isB : valToMpz b = n) :
    ∃ g : Num, Settles (gf2Gcd · a b) g ∧ 0 ≤ valToMpz g ∧
      ∀ d, d ∣ polyOf g ↔ d ∣ polyOf a ∧ d ∣ polyOf b := by
  induction n using Nat.strong_induction_on generalizing a b with
  | _ n ih =>
    have polyB : polyOf b = toPoly n := by rw [polyOf, isB, Int.toNat_natCast]
    by_cases done : n = 0
    · subst done
      refine ⟨a, .succ (.of_eq fun fuel => by rw [gf2Gcd, if_pos (by exact isB)]), naturalA,
        fun d => ?_⟩
      rw [polyB, toPoly_zero]
      exact ⟨fun divides => ⟨divides, dvd_zero d⟩, fun both => both.1⟩
    · obtain ⟨i, isA, polyA⟩ := exists_nat naturalA
      obtain ⟨r, reduced, small, multiple⟩ := gf2Mod_settles done i
      have isR : valToMpz (fromMpz r) = r := valToMpz_eq (fromMpz_denotes r)
      obtain ⟨g, settled, natural, same⟩ := ih r
        (Nat.lt_of_lt_of_le small (Nat.log2_self_le done)) b (fromMpz r) (by omega) isR
      have polyR : polyOf (fromMpz r) = toPoly r := by rw [polyOf, isR, Int.toNat_natCast]
      refine ⟨g, .succ ?_, natural, fun d => ?_⟩
      · simp only [gf2Gcd, isB, if_neg (show ¬ (n : Int) = 0 by exact_mod_cast done)]
        refine Settles.bind (?_ : Settles (bigintGf2Mod · a b) (fromMpz r)) settled
        simp only [bigintGf2Mod, isA, isB]
        exact reduced.map fromMpz
      · -- Both pairs have the same common divisors.
        rw [same d, polyR, polyA, polyB]
        rw [polyB] at same
        constructor
        · rintro ⟨left, right⟩
          have sum := dvd_add (left.trans multiple) right
          exact ⟨by rwa [sub_add_cancel] at sum, left⟩
        · rintro ⟨left, right⟩
          have difference := dvd_sub left (right.trans multiple)
          exact ⟨right, by rwa [sub_sub_cancel] at difference⟩

/-- The Euclidean algorithm ends with a greatest common divisor. -/
theorem gf2_gcd_right (a b : Num) (naturalA : 0 ≤ valToMpz a) (naturalB : 0 ≤ valToMpz b) :
    ∃ g : Num, Settles (gf2Gcd · a b) g ∧ 0 ≤ valToMpz g ∧
      ∀ d, d ∣ polyOf g ↔ d ∣ polyOf a ∧ d ∣ polyOf b := by
  obtain ⟨n, isB, -⟩ := exists_nat naturalB
  exact gf2Gcd_settles n a b naturalA isB

theorem gf2_gcd_right_three :
    0 ≤ valToMpz (tagV 3) ∧ ∃ g : Num, Settles (gf2Gcd · (tagV 3) (tagV 5)) g := by
  obtain ⟨g, settled, -⟩ := gf2_gcd_right (tagV 3) (tagV 5) (by decide) (by decide)
  exact ⟨by decide, g, settled⟩

/-- Minus one as second factor is shifted forever. -/
theorem gf2Mulmod_endless :
    ¬ ∀ a b m : Num, ∃ r, Settles (bigintGf2Mulmod · a b m) r := by
  intro ends
  obtain ⟨r, least, settled⟩ := ends (tagV 1) (tagV (-1)) (tagV 3)
  have loops : ∀ fuel out va, gf2MulLoop 3 1 fuel out va (-1) = none := by
    intro fuel
    induction fuel with
    | zero => exact fun _ _ => rfl
    | succ fuel ih => exact fun out va => ih _ _
  have settled : (gf2Mulmod least (valToMpz (tagV 1)) (valToMpz (tagV (-1)))
      (valToMpz (tagV 3))).map fromMpz = some r := settled least (Nat.le_refl least)
  have never : gf2Mulmod least (valToMpz (tagV 1)) (-1) 3 = none := by
    rw [gf2Mulmod, if_neg (by decide)]
    cases gf2Mod least (valToMpz (tagV 1)) 3 with
    | none => rfl
    | some va => exact loops least 0 va
  rw [show valToMpz (tagV (-1)) = -1 by decide, show valToMpz (tagV 3) = 3 by decide, never] at settled
  cases settled

end Values

end Nytrix.Rt
