import Mathlib
import Nytrix.Lib.Corners
import Nytrix.Nir.Analysis

/-! The interval rules of the value analysis are sound, bitwise or and exclusive or apart. -/

namespace Nytrix.Nir

open Nytrix.Lib Set

/-- A word lies in an interval, if the interval has both its bounds. -/
def Range.Holds (r : Range) (x : I64) : Prop :=
  r.isClosed = true → r.min.toInt ≤ x.toInt ∧ x.toInt ≤ r.max.toInt

theorem toInt_bounds (x : I64) : -2 ^ 63 ≤ x.toInt ∧ x.toInt < 2 ^ 63 :=
  ⟨BitVec.le_toInt x, BitVec.toInt_lt⟩

theorem bmod_of_between {n : Int} (lo hi : I64) (low : lo.toInt ≤ n) (high : n ≤ hi.toInt) :
    n.bmod (2 ^ 64) = n := by
  have := toInt_bounds lo
  have := toInt_bounds hi
  exact Int.bmod_eq_of_le (by omega) (by omega)

theorem toInt_int64Max : int64Max.toInt = 2 ^ 63 - 1 := by decide

theorem toInt_int64Min : int64Min.toInt = -2 ^ 63 := by decide

theorem addChecked_some {a b r : I64} (added : addChecked a b = some r) :
    r.toInt = a.toInt + b.toInt := by
  -- The guards are exact because neither difference overflows on its own side of zero.
  have ba := toInt_bounds a
  have bb := toInt_bounds b
  unfold addChecked at added
  split at added
  · cases added
  · rename_i fits
    obtain rfl : a + b = r := by simpa using added
    simp only [Bool.or_eq_true, Bool.and_eq_true, decide_eq_true_eq, not_or, not_and,
      BitVec.toInt_sub, toInt_int64Max, toInt_int64Min] at fits
    rw [BitVec.toInt_add]
    apply Int.bmod_eq_of_le
    · rcases lt_or_ge b.toInt 0 with negative | nonneg
      · have low := fits.2 negative
        rw [Int.bmod_eq_of_le (by omega) (by omega)] at low
        omega
      · omega
    · rcases lt_or_ge 0 b.toInt with positive | nonpos
      · have high := fits.1 positive
        rw [Int.bmod_eq_of_le (by omega) (by omega)] at high
        omega
      · omega

theorem subChecked_some {a b r : I64} (subtracted : subChecked a b = some r) :
    r.toInt = a.toInt - b.toInt := by
  have ba := toInt_bounds a
  have bb := toInt_bounds b
  unfold subChecked at subtracted
  split at subtracted
  · cases subtracted
  · rename_i fits
    obtain rfl : a - b = r := by simpa using subtracted
    simp only [Bool.or_eq_true, Bool.and_eq_true, decide_eq_true_eq, not_or, not_and,
      BitVec.toInt_add, toInt_int64Max, toInt_int64Min] at fits
    rw [BitVec.toInt_sub]
    apply Int.bmod_eq_of_le
    · rcases lt_or_ge 0 b.toInt with positive | nonpos
      · have low := fits.2 positive
        rw [Int.bmod_eq_of_le (by omega) (by omega)] at low
        omega
      · omega
    · rcases lt_or_ge b.toInt 0 with negative | nonneg
      · have high := fits.1 negative
        rw [Int.bmod_eq_of_le (by omega) (by omega)] at high
        omega
      · omega

theorem mulChecked_some {a b r : I64} (multiplied : mulChecked a b = some r) :
    r.toInt = a.toInt * b.toInt := by
  unfold mulChecked at multiplied
  split at multiplied
  · cases multiplied
  · rename_i fits
    obtain rfl : a * b = r := by simpa using multiplied
    exact BitVec.toInt_mul_of_not_smulOverflow fits

theorem divChecked_some {a b r : I64} (divided : divChecked a b = some r) :
    r.toInt = a.toInt.tdiv b.toInt := by
  unfold divChecked at divided
  split at divided
  · cases divided
  · rename_i fits
    obtain rfl : a.sdiv b = r := by simpa using divided
    simp only [divTraps, Bool.or_eq_true, Bool.and_eq_true, decide_eq_true_eq, not_or,
      not_and] at fits
    refine BitVec.toInt_sdiv_of_ne_or_ne a b ?_
    by_cases least : a = int64Min
    · exact .inr (fits.2 least)
    · exact .inl least

theorem orderedRange_some {lo hi : I64} {r : Range} (ordered : orderedRange lo hi = some r) :
    r = .closed lo hi := by
  unfold orderedRange at ordered
  split at ordered
  · cases ordered
  · simpa using ordered.symm

theorem toInt_smin (a b : I64) : (smin a b).toInt = min a.toInt b.toInt := by
  unfold smin
  split <;> omega

theorem toInt_smax (a b : I64) : (smax a b).toInt = max a.toInt b.toInt := by
  unfold smax
  split <;> omega

theorem cornerRange_holds {op : I64 → I64 → Option I64} {g : Int → Int → Int}
    (exact : ∀ a b r, op a b = some r → r.toInt = g a.toInt b.toInt) {a b r : Range}
    (ranged : cornerRange op a b = some r) {x y : Int}
    (first : x ∈ Icc a.min.toInt a.max.toInt) (second : y ∈ Icc b.min.toInt b.max.toInt)
    (left : ∀ y ∈ Icc b.min.toInt b.max.toInt,
      MonotonicOn (fun x => g x y) (Icc a.min.toInt a.max.toInt))
    (right : ∀ x ∈ Icc a.min.toInt a.max.toInt, MonotonicOn (g x) (Icc b.min.toInt b.max.toInt)) :
    r.min.toInt ≤ g x y ∧ g x y ≤ r.max.toInt := by
  unfold cornerRange at ranged
  simp only [Option.bind_eq_bind, Option.bind_eq_some_iff, Option.pure_def,
    Option.some.injEq] at ranged
  obtain ⟨v₀, c₀, v₁, c₁, v₂, c₂, v₃, c₃, rfl⟩ := ranged
  have bound := corners_bound first second left right
  rw [← exact _ _ _ c₀, ← exact _ _ _ c₁, ← exact _ _ _ c₂, ← exact _ _ _ c₃] at bound
  simp only [rangeFromCorners, Range.closed, List.foldl_cons, List.foldl_nil, toInt_smin,
    toInt_smax]
  rwa [min_assoc, max_assoc]

theorem monotonicOn_mul (y : Int) (s : Set Int) : MonotonicOn (fun x => x * y) s := by
  rcases le_total 0 y with nonneg | nonpos
  · exact .inl fun _ _ _ _ le => Int.mul_le_mul_of_nonneg_right le nonneg
  · exact .inr fun _ _ _ _ le => Int.mul_le_mul_of_nonpos_right le nonpos

theorem monotonicOn_tdiv_left (y : Int) (s : Set Int) : MonotonicOn (fun x => x.tdiv y) s := by
  rcases lt_trichotomy y 0 with negative | rfl | positive
  · refine .inr fun a _ b _ le => ?_
    have flipped := Int.tdiv_le_tdiv (c := -y) (by omega) le
    simp only [Int.tdiv_neg] at flipped
    simp only
    omega
  · exact .inl fun _ _ _ _ _ => by simp
  · exact .inl fun _ _ _ _ le => Int.tdiv_le_tdiv positive le

theorem tdiv_le_tdiv_left {x b c : Int} (nonneg : 0 ≤ x) (positive : 0 < b) (le : b ≤ c) :
    x.tdiv c ≤ x.tdiv b := by
  obtain ⟨x, rfl⟩ := Int.eq_ofNat_of_zero_le nonneg
  obtain ⟨b, rfl⟩ := Int.eq_ofNat_of_zero_le (by omega : 0 ≤ b)
  obtain ⟨c, rfl⟩ := Int.eq_ofNat_of_zero_le (by omega : 0 ≤ c)
  rw [← Int.ofNat_tdiv, ← Int.ofNat_tdiv, Int.ofNat_le]
  exact Nat.div_le_div_left (by omega) (by omega)

theorem monotonicOn_tdiv_right (x : Int) {lo hi : Int} (signed : ¬ (lo ≤ 0 ∧ 0 ≤ hi)) :
    MonotonicOn (fun y => x.tdiv y) (Icc lo hi) := by
  -- Flipping both signs reduces every case to a non-negative dividend and a positive divisor.
  rcases le_or_gt lo 0 with low | high
  · have negative : hi < 0 := by omega
    rcases le_total 0 x with nonneg | nonpos
    · refine .inr fun a ina b inb le => ?_
      have := tdiv_le_tdiv_left nonneg (b := -b) (c := -a) (by have := inb.2; omega) (by omega)
      simp only [Int.tdiv_neg] at this
      simp only
      omega
    · refine .inl fun a ina b inb le => ?_
      have := tdiv_le_tdiv_left (x := -x) (by omega) (b := -b) (c := -a)
        (by have := inb.2; omega) (by omega)
      simpa using this
  · rcases le_total 0 x with nonneg | nonpos
    · exact .inr fun a ina b inb le => tdiv_le_tdiv_left nonneg (by have := ina.1; omega) le
    · refine .inl fun a ina b inb le => ?_
      have := tdiv_le_tdiv_left (x := -x) (by omega) (b := a) (c := b)
        (by have := ina.1; omega) le
      simp only [Int.neg_tdiv] at this
      simp only
      omega

theorem and_bounds {x c : I64} (nonneg : 0 ≤ c.toInt) :
    0 ≤ (x &&& c).toInt ∧ (x &&& c).toInt ≤ c.toInt := by
  have small : (x &&& c).toNat ≤ c.toNat := by
    rw [BitVec.toNat_and]
    exact Nat.and_le_right
  have same := toNat_of_nonneg nonneg
  have := toInt_bounds c
  rw [BitVec.toInt_eq_toNat_cond]
  split <;> omega

theorem or_bounds {x y : I64} (first : 0 ≤ x.toInt) (second : 0 ≤ y.toInt) :
    x.toInt ≤ (x ||| y).toInt := by
  have large : x.toNat ≤ (x ||| y).toNat := by
    rw [BitVec.toNat_or]
    exact Nat.left_le_or
  have bound : (x ||| y).toNat < 2 ^ 63 := by
    rw [BitVec.toNat_or]
    have := toInt_bounds x
    have := toInt_bounds y
    exact Nat.or_lt_two_pow (by have := toNat_of_nonneg first; omega)
      (by have := toNat_of_nonneg second; omega)
  have same := toNat_of_nonneg first
  rw [BitVec.toInt_eq_toNat_cond (x ||| y)]
  split <;> omega

/-- What a fact says of a word. -/
structure ValueFact.Holds (fact : ValueFact) (x : I64) : Prop where
  const : fact.knownConst = true → x = fact.constValue
  range : fact.range.Holds x

theorem Range.closed_holds {lo hi x : I64} :
    (Range.closed lo hi).Holds x ↔ lo.toInt ≤ x.toInt ∧ x.toInt ≤ hi.toInt := by
  simp [Range.Holds, Range.closed, Range.isClosed]

theorem factSetConst_holds (fact : ValueFact) (x : I64) : (factSetConst fact x).Holds x :=
  ⟨fun _ => rfl, Range.closed_holds.mpr ⟨le_refl _, le_refl _⟩⟩

attribute [local simp] intervalRange

section Rules

variable {a b : ValueFact} {x y z : I64} {r : Range}

theorem maskRange_holds (ranged : maskRange a b = some r) (first : a.Holds x)
    (second : b.Holds y) : r.Holds (x &&& y) := by
  unfold maskRange at ranged
  split at ranged
  · rename_i known
    simp only [Bool.and_eq_true, decide_eq_true_eq] at known
    obtain rfl := by simpa using ranged.symm
    rw [second.const known.1]
    exact Range.closed_holds.mpr (and_bounds known.2)
  · split at ranged
    · rename_i known
      simp only [Bool.and_eq_true, decide_eq_true_eq] at known
      obtain rfl := by simpa using ranged.symm
      rw [first.const known.1, BitVec.and_comm]
      exact Range.closed_holds.mpr (and_bounds known.2)
    · cases ranged

variable (first : a.range.min.toInt ≤ x.toInt ∧ x.toInt ≤ a.range.max.toInt)
  (second : b.range.min.toInt ≤ y.toInt ∧ y.toInt ≤ b.range.max.toInt)

include first second

theorem addRange_holds (ranged : intervalRange .addI64 a b = some r) : r.Holds (x + y) := by
  simp only [intervalRange, Option.bind_eq_bind, Option.bind_eq_some_iff] at ranged
  obtain ⟨lo, low, hi, high, ordered⟩ := ranged
  have low := addChecked_some low
  have high := addChecked_some high
  rw [orderedRange_some ordered, Range.closed_holds, BitVec.toInt_add,
    bmod_of_between lo hi (by omega) (by omega)]
  omega

theorem subRange_holds (ranged : intervalRange .subI64 a b = some r) : r.Holds (x - y) := by
  simp only [intervalRange, Option.bind_eq_bind, Option.bind_eq_some_iff] at ranged
  obtain ⟨lo, low, hi, high, ordered⟩ := ranged
  have low := subChecked_some low
  have high := subChecked_some high
  rw [orderedRange_some ordered, Range.closed_holds, BitVec.toInt_sub,
    bmod_of_between lo hi (by omega) (by omega)]
  omega

theorem mulRange_holds (ranged : intervalRange .mulI64 a b = some r) : r.Holds (x * y) := by
  have bounds := cornerRange_holds (g := fun x y => x * y) (fun _ _ _ => mulChecked_some) ranged
    first second (fun y _ => monotonicOn_mul y _) (fun x _ => by
      simpa only [Int.mul_comm x] using monotonicOn_mul x (Icc _ _))
  intro _
  rw [BitVec.toInt_mul, bmod_of_between _ _ bounds.1 bounds.2]
  exact bounds

theorem divRange_holds (ranged : intervalRange .divI64 a b = some r)
    (divided : divTraps x y = false) : r.Holds (x.sdiv y) := by
  simp only [intervalRange] at ranged
  split at ranged
  · cases ranged
  · rename_i signed
    simp only [Bool.and_eq_true, decide_eq_true_eq] at signed
    have bounds := cornerRange_holds (g := fun x y => x.tdiv y) (fun _ _ _ => divChecked_some) ranged
      first second (fun y _ => monotonicOn_tdiv_left y _) (fun x _ => monotonicOn_tdiv_right x signed)
    intro _
    rw [divChecked_some (a := x) (b := y) (r := x.sdiv y) (by simp [divChecked, divided])]
    exact bounds

omit second in
/-- The rule for remainders by a constant. -/
theorem modRange_holds (ranged : intervalRange .modI64 a b = some r)
    (known : b.knownConst = true → y = b.constValue) : r.Holds (x.srem y) := by
  simp only [intervalRange] at ranged
  split at ranged
  · cases ranged
  · rename_i guards
    simp only [Bool.or_eq_true, Bool.not_eq_true', decide_eq_true_eq, not_or,
      Bool.not_eq_false] at guards
    obtain ⟨⟨isConst, nonzero⟩, notMin⟩ := guards
    obtain rfl := known isConst
    -- The remainder has the sign of the dividend and stays below the divisor.
    have cb := toInt_bounds b.constValue
    have above : b.constValue.toInt ≠ -2 ^ 63 := fun same =>
      notMin (BitVec.eq_of_toInt_eq (same.trans toInt_int64Min.symm))
    have apart : b.constValue.toInt ≠ 0 := fun same => nonzero (BitVec.eq_of_toInt_eq same)
    have one : (1 : I64).toInt = 1 := rfl
    have zero : (0 : I64).toInt = 0 := rfl
    have limit : (if b.constValue.toInt < 0 then -b.constValue - 1 else b.constValue - 1).toInt =
        b.constValue.toInt.natAbs - 1 := by
      split
      · rw [BitVec.toInt_sub, BitVec.toInt_neg, one, Int.bmod_eq_of_le (n := -_) (by omega) (by omega),
          Int.bmod_eq_of_le (by omega) (by omega)]
        omega
      · rw [BitVec.toInt_sub, one, Int.bmod_eq_of_le (by omega) (by omega)]
        omega
    generalize (if b.constValue.toInt < 0 then -b.constValue - 1 else b.constValue - 1) = hi
      at limit ranged
    have lower : (-hi).toInt = -hi.toInt := by
      rw [BitVec.toInt_neg, Int.bmod_eq_of_le (by omega) (by omega)]
    have size := Int.natAbs_tmod x.toInt b.constValue.toInt
    have below := Nat.mod_lt x.toInt.natAbs (y := b.constValue.toInt.natAbs) (by omega)
    have nonneg := fun sign => Int.tmod_nonneg (a := x.toInt) b.constValue.toInt sign
    have nonpos : x.toInt ≤ 0 → x.toInt.tmod b.constValue.toInt ≤ 0 := by
      intro sign
      have := Int.tmod_nonneg (a := -x.toInt) b.constValue.toInt (by omega)
      rw [Int.neg_tmod] at this
      omega
    rw [orderedRange_some ranged, Range.closed_holds, BitVec.toInt_srem]
    refine ⟨?_, ?_⟩
    · split
      · omega
      · have := nonneg (by omega)
        omega
    · split
      · have := nonpos (by omega)
        omega
      · omega

omit second in
/-- The rule for left shifts by a constant. -/
theorem shlRange_holds (ranged : intervalRange .shlI64 a b = some r)
    (known : b.knownConst = true → y = b.constValue) : r.Holds (x <<< y.toNat) := by
  simp only [intervalRange] at ranged
  split at ranged
  · cases ranged
  · rename_i guards
    simp only [Bool.or_eq_true, Bool.not_eq_true', decide_eq_true_eq, not_or,
      Bool.not_eq_false, Int.not_lt, Int.not_le] at guards
    obtain ⟨⟨⟨isConst, low⟩, high⟩, nonneg⟩ := guards
    obtain rfl := known isConst
    simp only [Option.bind_eq_bind, Option.bind_eq_some_iff] at ranged
    obtain ⟨lo, low', hi, high', ordered⟩ := ranged
    have amount : b.constValue.toNat < 63 := by
      have := toNat_of_nonneg low
      omega
    -- The shift is a multiplication by a positive power of two.
    have scaled : x <<< b.constValue.toNat = x * ((1 : I64) <<< b.constValue.toNat) := by
      rw [BitVec.shiftLeft_eq_mul_twoPow, BitVec.twoPow_eq]
      rfl
    have positive : 0 ≤ ((1 : I64) <<< b.constValue.toNat).toInt := by
      have shifted : (1 : I64) <<< b.constValue.toNat = BitVec.twoPow 64 b.constValue.toNat := by
        rw [BitVec.twoPow_eq]
        rfl
      rw [shifted, BitVec.toInt_twoPow, if_neg (by omega), if_neg (by omega)]
      exact Int.le_of_lt (Int.pow_pos (by decide))
    have low' := mulChecked_some low'
    have high' := mulChecked_some high'
    have below := Int.mul_le_mul_of_nonneg_right first.1 positive
    have above := Int.mul_le_mul_of_nonneg_right first.2 positive
    rw [orderedRange_some ordered, Range.closed_holds, scaled, BitVec.toInt_mul,
      bmod_of_between lo hi (by omega) (by omega)]
    omega

omit second in
/-- The rule for right shifts by a constant. -/
theorem sarRange_holds (ranged : intervalRange .sarI64 a b = some r)
    (known : b.knownConst = true → y = b.constValue) : r.Holds (x.sshiftRight y.toNat) := by
  simp only [intervalRange] at ranged
  split at ranged
  · cases ranged
  · rename_i guards
    simp only [Bool.or_eq_true, Bool.not_eq_true', not_or, Bool.not_eq_false] at guards
    obtain rfl := known guards.1.1
    have monotone {u v : Int} (le : u ≤ v) (n : Nat) : u >>> n ≤ v >>> n := by
      rw [Int.shiftRight_eq_div_pow, Int.shiftRight_eq_div_pow]
      exact Int.ediv_le_ediv (Int.natCast_pos.mpr (Nat.two_pow_pos n)) le
    rw [orderedRange_some ranged, Range.closed_holds, BitVec.toInt_sshiftRight,
      BitVec.toInt_sshiftRight, BitVec.toInt_sshiftRight]
    exact ⟨monotone first.1 _, monotone first.2 _⟩

theorem andRange_holds (ranged : intervalRange .andI64 a b = some r) : r.Holds (x &&& y) := by
  simp only [intervalRange] at ranged
  split at ranged
  · cases ranged
  · rename_i nonneg
    simp only [Bool.or_eq_true, decide_eq_true_eq, not_or, Int.not_lt] at nonneg
    rw [orderedRange_some ranged, Range.closed_holds]
    have bounds := and_bounds (x := x) (c := y) (by omega)
    have large := or_bounds (x := b.range.max) (y := a.range.max) (by omega) (by omega)
    rw [BitVec.or_comm] at large
    have zero : (0 : I64).toInt = 0 := rfl
    omega

theorem unionRange_holds {op : Op} (union : op = .orI64 ∨ op = .xorI64)
    (ranged : intervalRange op a b = some r) (computed : analyzeBinaryFold op x y = some z) :
    r.Holds z ↔ z.toInt ≤ (a.range.max ||| b.range.max).toInt := by
  have ranged : (if a.range.min.toInt < 0 || decide (b.range.min.toInt < 0) then none
      else orderedRange 0 (a.range.max ||| b.range.max)) = some r := by
    rcases union with rfl | rfl <;> exact ranged
  split at ranged
  · cases ranged
  · rename_i nonneg
    simp only [Bool.or_eq_true, decide_eq_true_eq, not_or, Int.not_lt] at nonneg
    have sx := toNat_of_nonneg (x := x) (by omega)
    have sy := toNat_of_nonneg (x := y) (by omega)
    have := toInt_bounds x
    have := toInt_bounds y
    have small : z.toNat < 2 ^ 63 := by
      rcases union with rfl | rfl <;>
        simp only [analyzeBinaryFold, Option.some.injEq] at computed <;> subst computed
      · rw [BitVec.toNat_or]
        exact Nat.or_lt_two_pow (by omega) (by omega)
      · rw [BitVec.toNat_xor]
        exact Nat.xor_lt_two_pow (by omega) (by omega)
    have zero : (0 : I64).toInt = 0 := rfl
    have positive : 0 ≤ z.toInt := by
      rw [BitVec.toInt_eq_toNat_cond]
      split <;> omega
    rw [orderedRange_some ranged, Range.closed_holds, zero]
    exact ⟨fun both => both.2, fun upper => ⟨positive, upper⟩⟩

theorem intervalRange_holds {op : Op} (ranged : intervalRange op a b = some r)
    (known : b.knownConst = true → y = b.constValue)
    (computed : analyzeBinaryFold op x y = some z)
    (union : op = .orI64 ∨ op = .xorI64 → z.toInt ≤ (a.range.max ||| b.range.max).toInt) :
    r.Holds z := by
  cases op <;> simp only [analyzeBinaryFold, Option.some.injEq, reduceCtorEq] at computed
  case addI64 => exact computed ▸ addRange_holds first second ranged
  case subI64 => exact computed ▸ subRange_holds first second ranged
  case mulI64 => exact computed ▸ mulRange_holds first second ranged
  case andI64 => exact computed ▸ andRange_holds first second ranged
  case orI64 =>
    refine (unionRange_holds first second (.inl rfl) ranged ?_).mpr (union (.inl rfl))
    simp [analyzeBinaryFold, computed]
  case xorI64 =>
    refine (unionRange_holds first second (.inr rfl) ranged ?_).mpr (union (.inr rfl))
    simp [analyzeBinaryFold, computed]
  case divI64 =>
    split at computed
    · cases computed
    · rename_i fine
      obtain rfl := by simpa using computed
      exact divRange_holds first second ranged (by simpa using fine)
  case modI64 =>
    split at computed
    · cases computed
    · obtain rfl := by simpa using computed
      exact modRange_holds first ranged known
  case shlI64 =>
    split at computed
    · cases computed
    · obtain rfl := by simpa using computed
      exact shlRange_holds first ranged known
  case sarI64 =>
    split at computed
    · cases computed
    · obtain rfl := by simpa using computed
      exact sarRange_holds first ranged known

end Rules

/-- Whether an or or an exclusive or gets the union of its operands' upper bounds as its own. -/
def unionRule (op : Op) (a b : ValueFact) : Bool :=
  (op = .orI64 || op = .xorI64) && !(a.knownConst && b.knownConst) &&
    a.range.isClosed && b.range.isClosed &&
    decide (0 ≤ a.range.min.toInt) && decide (0 ≤ b.range.min.toInt)

end Nytrix.Nir
