import Mathlib.Algebra.Order.Ring.Abs
import Nytrix.Rt.Bigint

/-! The arithmetic of the runtime's integers is exact, on every path and in every representation. -/

namespace Nytrix.Rt

open Nytrix.Lib

/-- An object without a leading zero limb whose sign is zero exactly when its magnitude is. -/
def Canonical (sign : Int) (limbs : List (BitVec 64)) : Prop :=
  Normal limbs ∧ ((limbs = [] ∧ sign = 0) ∨ (limbs ≠ [] ∧ (sign = 1 ∨ sign = -1)))

/-- The value stands for this integer, as a small one or as a canonical object. -/
inductive Denotes : Num → Int → Prop
  | small {bits : BitVec 64} (tagged : isInt (.word bits) = true) :
    Denotes (.word bits) (untagWord bits).toInt
  | big {sign : Int} {limbs : List (BitVec 64)} (canonical : Canonical sign limbs) :
    Denotes (.big sign limbs) (sign * limbsValue limbs)

/-- A sign and limbs that make up an integer, the sign being free when the limbs are zero. -/
def Signed (sign : Int) (limbs : List (BitVec 64)) (n : Int) : Prop :=
  (sign = 1 ∧ n = limbsValue limbs) ∨ (sign = -1 ∧ n = -(limbsValue limbs : Int)) ∨
    (sign = 0 ∧ limbsValue limbs = 0 ∧ n = 0)

theorem Signed.norm {sign : Int} {limbs : List (BitVec 64)} {n : Int} (parts : Signed sign limbs n) :
    Signed sign (normWords limbs) n := by
  unfold Signed
  rw [limbsValue_normWords]
  exact parts

theorem Signed.eq {sign : Int} {limbs : List (BitVec 64)} {n : Int} (parts : Signed sign limbs n) :
    n = sign * limbsValue limbs := by
  rcases parts with ⟨rfl, rfl⟩ | ⟨rfl, rfl⟩ | ⟨rfl, zero, rfl⟩
  · omega
  · omega
  · omega

theorem Signed.neg {sign : Int} {limbs : List (BitVec 64)} {n : Int} (parts : Signed sign limbs n) :
    Signed (-sign) limbs (-n) := by
  rcases parts with ⟨rfl, rfl⟩ | ⟨rfl, rfl⟩ | ⟨rfl, zero, rfl⟩
  · exact .inr (.inl ⟨rfl, rfl⟩)
  · exact .inl ⟨rfl, by omega⟩
  · exact .inr (.inr ⟨rfl, zero, rfl⟩)

theorem untagWord_bounds (bits : BitVec 64) :
    smallIntMin ≤ (untagWord bits).toInt ∧ (untagWord bits).toInt ≤ smallIntMax := by
  have low : -2 ^ 63 ≤ bits.toInt := BitVec.le_toInt bits
  have high : bits.toInt < 2 ^ 63 := BitVec.toInt_lt
  rw [untagWord, BitVec.toInt_sshiftRight, Int.shiftRight_eq_div_pow, smallIntMin, smallIntMax]
  omega

theorem tagWord_eq (v : BitVec 64) : tagWord v = v + v + 1#64 := by
  have apart : v <<< 1 &&& 1#64 = 0#64 := by
    ext i
    rcases i with _ | i <;> simp
  rw [tagWord]
  show v <<< 1 ||| 1#64 = _
  rw [← BitVec.add_eq_or_of_and_eq_zero _ _ apart, BitVec.shiftLeft_eq_mul_twoPow]
  bv_omega

theorem untagWord_tagWord {v : BitVec 64} (low : smallIntMin ≤ v.toInt)
    (high : v.toInt ≤ smallIntMax) : untagWord (tagWord v) = v := by
  rw [smallIntMin, smallIntMax] at low
  rw [smallIntMax] at high
  have inner : Int.bmod (v.toInt + v.toInt) (2 ^ 64) = v.toInt + v.toInt :=
    Int.bmod_eq_of_le (by omega) (by omega)
  have doubled : (tagWord v).toInt = 2 * v.toInt + 1 := by
    rw [tagWord_eq, BitVec.toInt_add, BitVec.toInt_add, inner, show (1#64).toInt = 1 from rfl,
      Int.bmod_eq_of_le (by omega) (by omega)]
    omega
  apply BitVec.eq_of_toInt_eq
  rw [untagWord, BitVec.toInt_sshiftRight, Int.shiftRight_eq_div_pow, doubled]
  omega

theorem isInt_iff {bits : BitVec 64} : isInt (.word bits) = true ↔ bits.toNat % 2 = 1 := by
  have low : (bits &&& 1).toNat = bits.toNat % 2 := by
    rw [BitVec.toNat_and]
    exact Nat.and_one_is_mod _
  have zero : bits &&& 1 = 0 ↔ (bits &&& 1).toNat = 0 := by
    rw [← BitVec.toNat_inj]
    rfl
  simp only [isInt, ne_eq, decide_not, Bool.not_eq_true', decide_eq_false_iff_not, zero, low]
  omega

theorem isInt_tagV (v : BitVec 64) : isInt (tagV v) = true := by
  rw [tagV, isInt_iff, tagWord_eq]
  bv_omega

theorem tagV_denotes {v : BitVec 64} {n : Int} (same : v.toInt = n) (low : smallIntMin ≤ n)
    (high : n ≤ smallIntMax) : Denotes (tagV v) n := by
  have denoted : Denotes (tagV v) (untagWord (tagWord v)).toInt := .small (isInt_tagV v)
  rw [untagWord_tagWord (same ▸ low) (same ▸ high), same] at denoted
  exact denoted

theorem magnitude_toNat (raw : BitVec 64) : (magnitude raw).toNat = raw.toInt.natAbs := by
  have signed := BitVec.toInt_eq_toNat_cond raw
  have zero : (0 : BitVec 64).toInt = 0 := rfl
  unfold magnitude
  split at signed
  · split
    · next negative =>
      rw [BitVec.slt_iff_toInt_lt] at negative
      omega
    · omega
  · split
    · bv_omega
    · next negative =>
      rw [BitVec.slt_iff_toInt_lt] at negative
      omega

theorem fromLimbs_denotes {sign : Int} {limbs : List (BitVec 64)} {n : Int}
    (parts : Signed sign limbs n) : Denotes (fromLimbs sign limbs) n := by
  have normal := normWords_normal limbs
  have empty := normal_eq_nil_iff normal
  rw [limbsValue_normWords] at empty
  have value := parts.eq
  rw [fromLimbs]
  by_cases none : normWords limbs = []
  · -- No limbs are left, so the integer is zero.
    have zero := empty.mp none
    have denoted : Denotes (.big 0 []) (0 * limbsValue ([] : List (BitVec 64))) :=
      .big ⟨none ▸ normal, .inl ⟨rfl, rfl⟩⟩
    rw [none, if_pos rfl]
    rw [zero] at value
    simpa [value] using denoted
  · have used : limbsValue limbs ≠ 0 := fun zero => none (empty.mpr zero)
    simp only [if_neg none]
    rcases parts with ⟨rfl, -⟩ | ⟨rfl, -⟩ | ⟨-, zero, -⟩
    · have denoted : Denotes (.big 1 (normWords limbs)) _ := .big ⟨normal, .inr ⟨none, .inl rfl⟩⟩
      rw [limbsValue_normWords, ← value] at denoted
      exact denoted
    · have denoted : Denotes (.big (-1) (normWords limbs)) _ :=
        .big ⟨normal, .inr ⟨none, .inr rfl⟩⟩
      rw [limbsValue_normWords, ← value] at denoted
      exact denoted
    · exact absurd zero used

theorem fromLimbsOrSmallInt_denotes {sign : Int} {limbs : List (BitVec 64)} {n : Int}
    (parts : Signed sign limbs n) : Denotes (fromLimbsOrSmallInt sign limbs) n := by
  have normed := parts.norm
  rw [fromLimbsOrSmallInt]
  split
  · next none =>
    rw [none] at normed
    have zero : n = 0 := by rw [normed.eq, limbsValue_nil]; omega
    exact tagV_denotes (zero ▸ rfl) (by rw [zero]; decide) (by rw [zero]; decide)
  · next mag one =>
    rw [one] at normed
    have value : limbsValue [mag] = mag.toNat := by simp
    have signed := BitVec.toInt_eq_toNat_cond mag
    have small := mag.isLt
    unfold Signed at normed
    rw [value] at normed
    rw [smallIntMax]
    split
    · next fits =>
      simp only [Bool.and_eq_true, decide_eq_true_eq] at fits
      have low : smallIntMin ≤ n := by
        rw [smallIntMin, smallIntMax]
        omega
      have high : n ≤ smallIntMax := by
        rw [smallIntMax]
        omega
      exact tagV_denotes (by omega) low high
    · split
      · next fits =>
        simp only [Bool.and_eq_true, decide_eq_true_eq] at fits
        have turned : (-mag).toInt = -(mag.toNat : Int) := by
          rw [BitVec.toInt_neg, BitVec.toInt_eq_toNat_of_lt (by omega)]
          exact Int.bmod_eq_of_le (by omega) (by omega)
        have low : smallIntMin ≤ n := by
          rw [smallIntMin, smallIntMax]
          omega
        have high : n ≤ smallIntMax := by
          rw [smallIntMax]
          omega
        exact tagV_denotes (by omega) low high
      · exact fromLimbs_denotes (one ▸ parts.norm)
  · exact fromLimbs_denotes parts.norm

theorem finish_denotes {compact : Bool} {sign : Int} {limbs : List (BitVec 64)} {n : Int}
    (parts : Signed sign limbs n) : Denotes (finish compact sign limbs) n := by
  unfold finish
  split
  · exact fromLimbsOrSmallInt_denotes parts
  · exact fromLimbs_denotes parts

theorem i128_eq {n : Int} (low : -2 ^ 127 ≤ n) (high : n < 2 ^ 127) : i128 n = n :=
  Int.bmod_eq_of_le (by omega) (by omega)

theorem limbsValue_pair {mag : Nat} (small : mag < 2 ^ 128) :
    limbsValue [BitVec.ofNat 64 mag, BitVec.ofNat 64 (mag / 2 ^ 64)] = mag := by
  simp only [limbsValue_cons, limbsValue_nil, BitVec.toNat_ofNat]
  omega

theorem limbsValue_pair_used (low high : BitVec 64) :
    limbsValue ([low, high].take
      (if [low, high][1]? ≠ some 0 then 2 else if [low, high][0]? ≠ some 0 then 1 else 0)) =
      limbsValue [low, high] := by
  by_cases upper : high = 0#64
  · by_cases lower : low = 0#64
    · simp [upper, lower]
    · simp [upper, lower]
  · simp [upper]

theorem fromI128Value_denotes {v : Int} {compact : Bool} (low : -2 ^ 127 ≤ v)
    (high : v < 2 ^ 127) : Denotes (fromI128Value v compact) v := by
  unfold fromI128Value
  split
  · next small =>
    simp only [Bool.and_eq_true, decide_eq_true_eq] at small
    refine tagV_denotes ?_ small.1.2 small.2
    rw [smallIntMin, smallIntMax] at small
    rw [BitVec.toInt_ofInt]
    exact Int.bmod_eq_of_le (by omega) (by omega)
  · have mag : v.natAbs % 2 ^ 128 = v.natAbs := Nat.mod_eq_of_lt (by omega)
    have value := limbsValue_pair (show v.natAbs < 2 ^ 128 by omega)
    rw [← limbsValue_pair_used] at value
    simp only [mag]
    show Denotes (finish compact _ _) _
    refine finish_denotes ?_
    unfold Signed
    rw [value]
    split
    · omega
    · split <;> omega

/-- What is read of an integer: its sign and its limbs. -/
structure Parts (sign : Int) (limbs : List (BitVec 64)) (n : Int) : Prop where
  signed : Signed sign limbs n
  short : limbs.length ≤ 2
  normal : Normal limbs
  zero : sign = 0 ↔ n = 0

/-- Reading the limbs of an integer gives its parts. -/
theorem readLimb2_parts {v : Num} {n sign : Int} {limbs : List (BitVec 64)} (denoted : Denotes v n)
    (read : readLimb2 v = some (sign, limbs)) : Parts sign limbs n := by
  cases denoted with
  | @small bits tagged =>
    simp only [readLimb2, tagged, if_true] at read
    have size := magnitude_toNat (untagWord bits)
    have sign := BitVec.slt_iff_toInt_lt (x := untagWord bits) (y := 0)
    have zero : (0 : BitVec 64).toInt = 0 := rfl
    split at read
    · next none =>
      cases read
      rw [none]
      refine ⟨.inr (.inr ⟨rfl, rfl, rfl⟩), by simp, ?_, by simp⟩
      intro nonempty
      exact absurd rfl nonempty
    · next nonzero =>
      have apart : (untagWord bits).toInt ≠ 0 := by
        intro bad
        exact nonzero (BitVec.eq_of_toInt_eq (bad.trans zero.symm))
      obtain ⟨rfl, rfl⟩ := Prod.mk.inj (Option.some.inj read)
      refine ⟨?_, by simp, ?_, ?_⟩
      · unfold Signed
        rw [limbsValue_cons, limbsValue_nil, Nat.mul_zero, Nat.add_zero, size]
        split
        · next negative =>
          have negative := sign.mp negative
          omega
        · next other =>
          have other := mt sign.mpr other
          omega
      · intro _ bad
        simp only [List.getLast_singleton] at bad
        rw [bad] at size
        simp at size
        omega
      · split <;> simp [apart]
  | @big s l canonical =>
    obtain ⟨normal, shape⟩ := canonical
    simp only [readLimb2] at read
    split at read
    · cases read
    · next short =>
      have same : normWords l = l := by
        rw [normWords, List.rdropWhile_eq_self_iff]
        intro nonempty
        simpa using normal nonempty
      have empty := normal_eq_nil_iff normal
      rw [same] at read
      obtain ⟨rfl, rfl⟩ := Prod.mk.inj (Option.some.inj read)
      rcases shape with ⟨rfl, rfl⟩ | ⟨nonempty, rfl | rfl⟩
      · exact ⟨.inr (.inr ⟨rfl, rfl, rfl⟩), by simp, normal, by simp⟩
      · have positive : limbsValue l ≠ 0 := fun zero => nonempty (empty.mpr zero)
        refine ⟨?_, by omega, normal, ?_⟩
        · rw [if_neg nonempty]
          exact .inl ⟨rfl, by omega⟩
        · rw [if_neg nonempty]
          simp
          omega
      · have positive : limbsValue l ≠ 0 := fun zero => nonempty (empty.mpr zero)
        refine ⟨?_, by omega, normal, ?_⟩
        · rw [if_neg nonempty]
          exact .inr (.inl ⟨rfl, by omega⟩)
        · rw [if_neg nonempty]
          simp
          omega

theorem signedLimb_eq {sign : Int} {limbs : List (BitVec 64)} {n : Int} (parts : Parts sign limbs n)
    (single : limbs.length ≤ 1) : signedLimb sign limbs = n ∧ -2 ^ 64 < n ∧ n < 2 ^ 64 := by
  have head : limbsValue limbs = (limbs.headD 0).toNat := by
    match limbs, single with
    | [], _ => rfl
    | [limb], _ => simp
  have small := (limbs.headD 0).isLt
  have value := parts.signed
  unfold Signed at value
  rw [head] at value
  simp only [signedLimb]
  generalize (limbs.headD 0).toNat = mag at *
  rcases value with ⟨rfl, rfl⟩ | ⟨rfl, rfl⟩ | ⟨rfl, none, rfl⟩
  · simp
    omega
  · simp
    omega
  · simp

theorem addWords_total {a b : List (BitVec 64)} :
    let sum := addWords (max a.length b.length) a b 0
    limbsValue (sum.1 ++ [BitVec.ofNat 64 sum.2]) = limbsValue a + limbsValue b ∧
      (sum.2 = 0 → limbsValue sum.1 = limbsValue a + limbsValue b) := by
  have whole := addWords_value (a := a) (b := b) 0 (Nat.le_max_left _ _) (Nat.le_max_right _ _)
  have carry := addWords_carry (n := max a.length b.length) (a := a) (b := b) (Nat.zero_le 1)
  simp only [limbsValue_append, addWords_length, limbsValue_cons, limbsValue_nil, Nat.mul_zero,
    Nat.add_zero, BitVec.toNat_ofNat] at whole ⊢
  constructor
  · rw [Nat.mod_eq_of_lt (by omega)]
    exact whole
  · intro none
    rw [none, Nat.mul_zero, Nat.add_zero] at whole
    exact whole

theorem magAdd4_value {a b : List (BitVec 64)} (shortA : a.length ≤ 2) (shortB : b.length ≤ 2) :
    limbsValue (magAdd4 a b) = limbsValue a + limbsValue b := by
  obtain ⟨total, bare⟩ := addWords_total (a := a) (b := b)
  rw [magAdd4, limbsValue_normWords]
  split
  · exact total
  · next none =>
    have room : max a.length b.length < 4 := by omega
    simp only [room, decide_true, Bool.and_true, ne_eq, decide_eq_true_eq, not_not] at none
    exact bare none

theorem length_le_of_value_le {a b : List (BitVec 64)} (normal : Normal b)
    (smaller : limbsValue b ≤ limbsValue a) : b.length ≤ a.length := by
  by_contra longer
  have := compare_of_length normal (Nat.lt_of_not_le longer)
  omega

theorem subWords_norm_value {a b : List (BitVec 64)} (normal : Normal b)
    (smaller : limbsValue b ≤ limbsValue a) :
    limbsValue (normWords (subWords a b false).1) = limbsValue a - limbsValue b := by
  rw [limbsValue_normWords]
  exact subWords_exact (by decide) (length_le_of_value_le normal smaller) smaller

theorem Signed.sum {sign : Int} {a b c : List (BitVec 64)} {m n : Int} (first : Signed sign a m)
    (second : Signed sign b n) (total : limbsValue c = limbsValue a + limbsValue b) :
    Signed sign c (m + n) := by
  rcases first with ⟨rfl, rfl⟩ | ⟨rfl, rfl⟩ | ⟨rfl, none, rfl⟩
  · rcases second with ⟨-, rfl⟩ | ⟨other, -⟩ | ⟨other, -⟩
    · exact .inl ⟨rfl, by omega⟩
    · exact absurd other (by decide)
    · exact absurd other (by decide)
  · rcases second with ⟨other, -⟩ | ⟨-, rfl⟩ | ⟨other, -⟩
    · exact absurd other (by decide)
    · exact .inr (.inl ⟨rfl, by omega⟩)
    · exact absurd other (by decide)
  · rcases second with ⟨other, -⟩ | ⟨other, -⟩ | ⟨-, none', rfl⟩
    · exact absurd other (by decide)
    · exact absurd other (by decide)
    · exact .inr (.inr ⟨rfl, by omega, rfl⟩)

theorem Signed.difference {s t : Int} {a b c : List (BitVec 64)} {m n : Int}
    (first : Signed s a m) (second : Signed t b n) (nonzero : s ≠ 0) (other : t ≠ 0)
    (apart : s ≠ t) (smaller : limbsValue b ≤ limbsValue a)
    (rest : limbsValue c = limbsValue a - limbsValue b) : Signed s c (m + n) := by
  rcases first with ⟨rfl, rfl⟩ | ⟨rfl, rfl⟩ | ⟨rfl, -⟩
  · rcases second with ⟨rfl, -⟩ | ⟨-, rfl⟩ | ⟨rfl, -⟩
    · exact absurd rfl apart
    · exact .inl ⟨rfl, by omega⟩
    · exact absurd rfl other
  · rcases second with ⟨-, rfl⟩ | ⟨rfl, -⟩ | ⟨rfl, -⟩
    · exact .inr (.inl ⟨rfl, by omega⟩)
    · exact absurd rfl apart
    · exact absurd rfl other
  · exact absurd rfl nonzero

/-- The fast sum or difference is exact. -/
theorem tryAddLimb2Kind_denotes {a b r : Num} {m n : Int} {subB compact : Bool}
    (left : Denotes a m) (right : Denotes b n)
    (done : tryAddLimb2Kind a b subB compact = some r) :
    Denotes r (if subB then m - n else m + n) := by
  unfold tryAddLimb2Kind at done
  split at done
  · next aw bw =>
    -- Two small integers are added as machine integers.
    cases left
    cases right
    split at done
    · cases done
      have boundA := untagWord_bounds aw
      have boundB := untagWord_bounds bw
      rw [smallIntMin, smallIntMax] at boundA boundB
      have low : -2 ^ 127 ≤ (if subB then (untagWord aw).toInt - (untagWord bw).toInt
          else (untagWord aw).toInt + (untagWord bw).toInt) := by split <;> omega
      have high : (if subB then (untagWord aw).toInt - (untagWord bw).toInt
          else (untagWord aw).toInt + (untagWord bw).toInt) < 2 ^ 127 := by split <;> omega
      rw [i128_eq low high]
      exact fromI128Value_denotes low high
    · cases done
  · simp only [Option.bind_eq_bind, Option.bind_eq_some_iff, Option.pure_def] at done
    obtain ⟨⟨as, al⟩, readA, ⟨bs, bl⟩, readB, done⟩ := done
    have partsA := readLimb2_parts left readA
    have partsB := readLimb2_parts right readB
    simp only at done
    -- A difference is a sum with the second sign turned.
    obtain ⟨t, sign, k, goal, partsB⟩ : ∃ t, (if subB then -bs else bs) = t ∧
        ∃ k, (if subB then m - n else m + n) = m + k ∧ Parts t bl k := by
      cases subB with
      | false => exact ⟨bs, rfl, n, rfl, partsB⟩
      | true =>
        refine ⟨-bs, rfl, -n, by simp; omega, partsB.signed.neg, partsB.short, partsB.normal, ?_⟩
        have zero := partsB.zero
        omega
    rw [goal]
    rw [sign] at done
    split at done
    · next single =>
      simp only [Bool.and_eq_true, decide_eq_true_eq] at single
      cases done
      obtain ⟨valueA, lowA, highA⟩ := signedLimb_eq partsA single.1
      obtain ⟨valueB, lowB, highB⟩ := signedLimb_eq partsB single.2
      rw [valueA, valueB, i128_eq (by omega) (by omega)]
      exact fromI128Value_denotes (by omega) (by omega)
    · split at done
      · next none =>
        cases done
        rw [partsA.zero.mp none, Int.zero_add]
        exact finish_denotes partsB.signed
      · next someA =>
        split at done
        · next none =>
          cases done
          rw [partsB.zero.mp none, Int.add_zero]
          exact finish_denotes partsA.signed
        · next someB =>
          split at done
          · next same =>
            cases done
            have turned := same ▸ partsB.signed
            exact finish_denotes (partsA.signed.sum turned (magAdd4_value partsA.short partsB.short))
          · next apart =>
            have order := cmpWords_eq al bl
            split at done
            · next equal =>
              cases done
              rw [equal] at order
              have values := Nat.compare_eq_eq.mp order.symm
              have cancel : m + k = 0 := by
                have first := partsA.signed
                have second := partsB.signed
                unfold Signed at first second
                omega
              rw [cancel]
              exact finish_denotes (.inr (.inr ⟨rfl, rfl, rfl⟩))
            · next greater =>
              cases done
              rw [greater] at order
              have smaller := Nat.le_of_lt (Nat.compare_eq_gt.mp order.symm)
              exact finish_denotes (partsA.signed.difference partsB.signed someA someB apart smaller
                (subWords_norm_value partsB.normal smaller))
            · next less =>
              cases done
              rw [less] at order
              have smaller := Nat.le_of_lt (Nat.compare_eq_lt.mp order.symm)
              rw [Int.add_comm]
              exact finish_denotes (partsB.signed.difference partsA.signed someB someA
                (Ne.symm apart) smaller (subWords_norm_value partsA.normal smaller))

theorem Signed.product {s t : Int} {a b c : List (BitVec 64)} {m n : Int} (first : Signed s a m)
    (second : Signed t b n) (nonzero : s ≠ 0) (other : t ≠ 0)
    (total : limbsValue c = limbsValue a * limbsValue b) :
    Signed (if s = t then 1 else -1) c (m * n) := by
  unfold Signed
  rw [total]
  rcases first with ⟨rfl, rfl⟩ | ⟨rfl, rfl⟩ | ⟨rfl, -, rfl⟩
  · rcases second with ⟨rfl, rfl⟩ | ⟨rfl, rfl⟩ | ⟨rfl, -, rfl⟩
    · exact .inl ⟨rfl, by push_cast; ring⟩
    · exact .inr (.inl ⟨rfl, by push_cast; ring⟩)
    · exact absurd rfl other
  · rcases second with ⟨rfl, rfl⟩ | ⟨rfl, rfl⟩ | ⟨rfl, -, rfl⟩
    · exact .inr (.inl ⟨rfl, by push_cast; ring⟩)
    · exact .inl ⟨rfl, by push_cast; ring⟩
    · exact absurd rfl other
  · exact absurd rfl nonzero

theorem mulWords_zeroLimbs {a b out : List (BitVec 64)} (shortA : a.length ≤ 2)
    (shortB : b.length ≤ 2) (done : mulWords a b zeroLimbs = some out) :
    limbsValue out = limbsValue a * limbsValue b := by
  have whole := mulWords_value (show a.length + b.length ≤ zeroLimbs.length by
    simp only [zeroLimbs, List.length_replicate]
    omega) done
  have zero : limbsValue zeroLimbs = 0 := by decide
  rw [whole, zero, Nat.zero_add]

theorem tryMulLimb2_denotes {a b r : Num} {m n : Int} (left : Denotes a m) (right : Denotes b n)
    (done : tryMulLimb2 a b = some r) : Denotes r (m * n) := by
  simp only [tryMulLimb2, Option.bind_eq_bind, Option.bind_eq_some_iff, Option.pure_def] at done
  obtain ⟨⟨as, al⟩, readA, ⟨bs, bl⟩, readB, done⟩ := done
  have partsA := readLimb2_parts left readA
  have partsB := readLimb2_parts right readB
  simp only at done
  split at done
  · next none =>
    cases done
    have zero : m * n = 0 := by
      simp only [Bool.or_eq_true, decide_eq_true_eq] at none
      rcases none with none | none
      · rw [partsA.zero.mp none, Int.zero_mul]
      · rw [partsB.zero.mp none, Int.mul_zero]
    rw [zero]
    exact fromLimbs_denotes (.inr (.inr ⟨rfl, rfl, rfl⟩))
  · next some =>
    simp only [Bool.or_eq_true, decide_eq_true_eq, not_or] at some
    obtain ⟨rl, product, done⟩ := Option.bind_eq_some_iff.mp done
    cases done
    exact fromLimbs_denotes (partsA.signed.product partsB.signed some.1 some.2
      (mulWords_zeroLimbs partsA.short partsB.short product))

theorem addProduct_denotes {as rhsSign : Int} {al pl : List (BitVec 64)} {m p : Int} {r : Num}
    (parts : Parts as al m) (product : Signed rhsSign pl p) (nonzero : rhsSign ≠ 0)
    (normal : Normal pl) (done : addProduct as al rhsSign pl = some r) : Denotes r (m + p) := by
  unfold addProduct at done
  split at done
  · next none =>
    cases done
    rw [parts.zero.mp none, Int.zero_add]
    exact fromLimbsOrSmallInt_denotes product
  · next someA =>
    split at done
    · next none =>
      cases done
      have zero : p = 0 := by
        rw [product.eq, List.length_eq_zero_iff.mp none, limbsValue_nil]
        omega
      rw [zero, Int.add_zero]
      exact fromLimbsOrSmallInt_denotes parts.signed
    · split at done
      · next same =>
        obtain ⟨total, bare⟩ := addWords_total (a := al) (b := pl)
        have turned := same ▸ product
        simp only at done
        split at done
        · split at done
          · cases done
          · cases done
            exact fromLimbsOrSmallInt_denotes
              (parts.signed.sum turned ((limbsValue_normWords _).trans total))
        · next none =>
          rw [not_not] at none
          cases done
          exact fromLimbsOrSmallInt_denotes
            (parts.signed.sum turned ((limbsValue_normWords _).trans (bare none)))
      · next apart =>
        have order := cmpWords_eq al pl
        split at done
        · next equal =>
          cases done
          rw [equal] at order
          have values := Nat.compare_eq_eq.mp order.symm
          have cancel : m + p = 0 := by
            have first := parts.signed
            unfold Signed at first product
            omega
          rw [cancel]
          exact fromLimbsOrSmallInt_denotes (.inr (.inr ⟨rfl, rfl, rfl⟩))
        · next greater =>
          cases done
          rw [greater] at order
          have smaller := Nat.le_of_lt (Nat.compare_eq_gt.mp order.symm)
          exact fromLimbsOrSmallInt_denotes (parts.signed.difference product someA nonzero apart
            smaller (subWords_norm_value normal smaller))
        · next less =>
          cases done
          rw [less] at order
          have smaller := Nat.le_of_lt (Nat.compare_eq_lt.mp order.symm)
          rw [Int.add_comm]
          exact fromLimbsOrSmallInt_denotes (product.difference parts.signed nonzero someA
            (Ne.symm apart) smaller (subWords_norm_value parts.normal smaller))

theorem productSign_ne_zero (s t : Int) : -(if s = t then (1 : Int) else -1) ≠ 0 := by
  split <;> decide

theorem trySubmulLimb2_denotes {a q b r : Num} {m k n : Int} (left : Denotes a m)
    (factor : Denotes q k) (right : Denotes b n) (done : trySubmulLimb2 a q b = some r) :
    Denotes r (m - k * n) := by
  simp only [trySubmulLimb2, Option.bind_eq_bind, Option.bind_eq_some_iff, Option.pure_def] at done
  obtain ⟨⟨as, al⟩, readA, ⟨qs, ql⟩, readQ, ⟨bs, bl⟩, readB, done⟩ := done
  have partsA := readLimb2_parts left readA
  have partsQ := readLimb2_parts factor readQ
  have partsB := readLimb2_parts right readB
  simp only at done
  split at done
  · next none =>
    cases done
    have zero : k * n = 0 := by
      simp only [Bool.or_eq_true, decide_eq_true_eq] at none
      rcases none with none | none
      · rw [partsQ.zero.mp none, Int.zero_mul]
      · rw [partsB.zero.mp none, Int.mul_zero]
    rw [zero, Int.sub_zero]
    exact fromLimbsOrSmallInt_denotes partsA.signed
  · next some =>
    simp only [Bool.or_eq_true, decide_eq_true_eq, not_or] at some
    obtain ⟨pl, product, done⟩ := Option.bind_eq_some_iff.mp done
    have signed := (partsQ.signed.product partsB.signed some.1 some.2
      (mulWords_zeroLimbs partsQ.short partsB.short product)).neg.norm
    rw [Int.sub_eq_add_neg]
    exact addProduct_denotes partsA signed (productSign_ne_zero _ _) (normWords_normal pl) done

theorem limbsValue_replicate (count : Nat) : limbsValue (List.replicate count 0#64) = 0 := by
  induction count with
  | zero => rfl
  | succ count ih => simp [List.replicate_succ, ih]

theorem mulRow_total (x : BitVec 64) (b : List (BitVec 64)) :
    let row := mulRow x b (List.replicate b.length 0#64) 0
    limbsValue (if row.2 ≠ 0 then row.1 ++ [BitVec.ofNat 64 row.2] else row.1) =
      x.toNat * limbsValue b := by
  obtain ⟨whole, length⟩ := mulRow_value x 0 (show b.length ≤ (List.replicate b.length 0#64).length
    by simp)
  have zero := limbsValue_replicate b.length
  rw [zero, Nat.zero_add, Nat.add_zero, List.length_replicate] at whole
  rw [List.length_replicate] at length
  have below : x.toNat * limbsValue b < 2 ^ 64 * (2 ^ 64) ^ b.length :=
    Nat.mul_lt_mul'' x.isLt (limbsValue_lt b)
  show limbsValue (if _ then _ else _) = _
  split
  · -- What is carried is a single limb, since the product has at most one more.
    have small : (mulRow x b (List.replicate b.length 0#64) 0).2 < 2 ^ 64 := by
      refine lt_of_mul_lt_mul_left (a := (2 ^ 64) ^ b.length) ?_ (Nat.zero_le _)
      calc (2 ^ 64) ^ b.length * (mulRow x b (List.replicate b.length 0#64) 0).2
          ≤ x.toNat * limbsValue b := whole ▸ Nat.le_add_left _ _
        _ < 2 ^ 64 * (2 ^ 64) ^ b.length := below
        _ = (2 ^ 64) ^ b.length * 2 ^ 64 := Nat.mul_comm _ _
    rw [limbsValue_append, length]
    simp only [limbsValue_cons, limbsValue_nil, Nat.mul_zero, Nat.add_zero, BitVec.toNat_ofNat]
    rw [Nat.mod_eq_of_lt small]
    exact whole
  · next none =>
    rw [not_not] at none
    have none : (mulRow x b (List.replicate b.length 0#64) 0).2 = 0 := none
    rw [none, Nat.mul_zero, Nat.add_zero] at whole
    exact whole

theorem signed_machine (q : BitVec 64) :
    Signed (if q.slt 0 then -1 else 1) [magnitude q] q.toInt := by
  have size := magnitude_toNat q
  have sign := BitVec.slt_iff_toInt_lt (x := q) (y := 0)
  have zero : (0 : BitVec 64).toInt = 0 := rfl
  unfold Signed
  rw [limbsValue_cons, limbsValue_nil, Nat.mul_zero, Nat.add_zero, size]
  split
  · next negative =>
    have negative := sign.mp negative
    omega
  · next other =>
    have other := mt sign.mpr other
    omega

/-- The fast difference of a machine multiple is exact. -/
theorem trySubmulI64Limb2_denotes {a b r : Num} {q : BitVec 64} {m n : Int} (left : Denotes a m)
    (right : Denotes b n) (low : smallIntMin ≤ q.toInt) (high : q.toInt ≤ smallIntMax)
    (done : trySubmulI64Limb2 a q b = some r) : Denotes r (m - q.toInt * n) := by
  rw [smallIntMin, smallIntMax] at low
  rw [smallIntMax] at high
  -- A product of a small integer and a limb is far from the end of 128 bits.
  have bounded {x y : Int} (lowX : -2 ^ 64 < x) (highX : x < 2 ^ 64) (lowY : -2 ^ 64 < y)
      (highY : y < 2 ^ 64) : -2 ^ 127 ≤ x - q.toInt * y ∧ x - q.toInt * y < 2 ^ 127 := by
    have product : |q.toInt * y| ≤ 2 ^ 62 * 2 ^ 64 := by
      rw [abs_mul]
      exact Int.mul_le_mul (abs_le.mpr ⟨by omega, by omega⟩) (abs_le.mpr ⟨by omega, by omega⟩)
        (abs_nonneg _) (by decide)
    have both := abs_le.mp product
    constructor <;> omega
  unfold trySubmulI64Limb2 at done
  split at done
  · next aw bw =>
    cases left
    cases right
    split at done
    · cases done
      have boundA := untagWord_bounds aw
      have boundB := untagWord_bounds bw
      rw [smallIntMin, smallIntMax] at boundA boundB
      obtain ⟨low, high⟩ := bounded (x := (untagWord aw).toInt) (y := (untagWord bw).toInt)
        (by omega) (by omega) (by omega) (by omega)
      rw [i128_eq low high]
      exact fromI128Value_denotes low high
    · cases done
  · simp only [Option.bind_eq_bind, Option.bind_eq_some_iff, Option.pure_def] at done
    obtain ⟨⟨as, al⟩, readA, ⟨bs, bl⟩, readB, done⟩ := done
    have partsA := readLimb2_parts left readA
    have partsB := readLimb2_parts right readB
    simp only at done
    split at done
    · next none =>
      cases done
      have zero : q.toInt * n = 0 := by
        simp only [Bool.or_eq_true, decide_eq_true_eq] at none
        rcases none with rfl | none
        · exact Int.zero_mul n
        · rw [partsB.zero.mp none, Int.mul_zero]
      rw [zero, Int.sub_zero]
      exact fromLimbsOrSmallInt_denotes partsA.signed
    · next some =>
      simp only [Bool.or_eq_true, decide_eq_true_eq, not_or] at some
      split at done
      · next single =>
        simp only [Bool.and_eq_true, decide_eq_true_eq] at single
        cases done
        obtain ⟨valueA, lowA, highA⟩ := signedLimb_eq partsA single.1
        obtain ⟨valueB, lowB, highB⟩ := signedLimb_eq partsB single.2
        obtain ⟨low, high⟩ := bounded lowA highA lowB highB
        rw [valueA, valueB, i128_eq low high]
        exact fromI128Value_denotes low high
      · have total := mulRow_total (magnitude q) bl
        have factor := signed_machine q
        have nonzero : (if q.slt 0 then -1 else 1 : Int) ≠ 0 := by split <;> decide
        have value : limbsValue [magnitude q] * limbsValue bl = (magnitude q).toNat * limbsValue bl :=
          by simp
        have signed := (factor.product partsB.signed nonzero some.2 (total.trans value.symm)).neg.norm
        rw [Int.sub_eq_add_neg]
        exact addProduct_denotes partsA signed (productSign_ne_zero _ _) (normWords_normal _) done

theorem valToMpz_eq {v : Num} {n : Int} (denoted : Denotes v n) : valToMpz v = n := by
  cases denoted with
  | small tagged => rw [valToMpz, if_pos tagged]
  | big canonical =>
    obtain ⟨-, ⟨rfl, rfl⟩ | ⟨-, rfl | rfl⟩⟩ := canonical
    · rfl
    · rw [valToMpz, if_neg (by decide), Int.one_mul]
    · rw [valToMpz, if_pos (by decide)]
      omega

theorem fromMpz_denotes (n : Int) : Denotes (fromMpz n) n := by
  have normal : Normal (limbsOf 64 n.natAbs) := limbsOf_normal (by decide) _
  have value : limbsValue (limbsOf 64 n.natAbs) = n.natAbs := limbsValue_limbsOf (by decide) _
  have canonical : Canonical n.sign (limbsOf 64 n.natAbs) := by
    refine ⟨normal, ?_⟩
    rw [ne_eq, normal_eq_nil_iff normal, value, Int.natAbs_eq_zero]
    rcases Int.lt_trichotomy n 0 with negative | rfl | positive
    · exact .inr ⟨by omega, .inr (Int.sign_eq_neg_one_of_neg negative)⟩
    · exact .inl ⟨rfl, rfl⟩
    · exact .inr ⟨by omega, .inl (Int.sign_eq_one_of_pos positive)⟩
  have denoted := Denotes.big canonical
  rw [value, Int.sign_mul_natAbs] at denoted
  exact denoted

theorem eq_fromMpz {v : Num} {n : Int} (denoted : Denotes v n) (object : isBigintObj v = true) :
    v = fromMpz n := by
  cases denoted with
  | small tagged => cases object
  | @big sign limbs canonical =>
    obtain ⟨normal, shape⟩ := canonical
    have back := limbsOf_limbsValue (by decide) normal
    have zero := normal_eq_nil_iff normal
    rw [fromMpz]
    rcases shape with ⟨rfl, rfl⟩ | ⟨some, rfl | rfl⟩
    · rfl
    · have positive : 0 < (limbsValue limbs : Int) := by have := mt zero.mpr some; omega
      rw [Int.one_mul, Int.sign_eq_one_of_pos positive, Int.natAbs_natCast, back]
    · have positive : 0 < (limbsValue limbs : Int) := by have := mt zero.mpr some; omega
      rw [Int.neg_one_mul, Int.sign_neg, Int.sign_eq_one_of_pos positive, Int.natAbs_neg,
        Int.natAbs_natCast, back]

theorem fromI128Value_object (v : Int) : isBigintObj (fromI128Value v false) = true := rfl

theorem tryAddLimb2Kind_object {a b r : Num} {subB : Bool}
    (done : tryAddLimb2Kind a b subB false = some r) : isBigintObj r = true := by
  unfold tryAddLimb2Kind at done
  split at done
  · split at done
    · cases done
      exact fromI128Value_object _
    · cases done
  · simp only [Option.bind_eq_bind, Option.bind_eq_some_iff, Option.pure_def] at done
    obtain ⟨⟨as, al⟩, -, ⟨bs, bl⟩, -, done⟩ := done
    simp only at done
    -- Every branch ends in an object of limbs.
    repeat' split at done
    all_goals cases done; rfl

theorem tryMulLimb2_object {a b r : Num} (done : tryMulLimb2 a b = some r) :
    isBigintObj r = true := by
  simp only [tryMulLimb2, Option.bind_eq_bind, Option.bind_eq_some_iff, Option.pure_def] at done
  obtain ⟨⟨as, al⟩, -, ⟨bs, bl⟩, -, done⟩ := done
  simp only at done
  split at done
  · cases done
    rfl
  · obtain ⟨rl, -, done⟩ := Option.bind_eq_some_iff.mp done
    cases done
    rfl

theorem getD_fromMpz {fast : Option Num} {n : Int}
    (exact : ∀ r, fast = some r → Denotes r n ∧ isBigintObj r = true) :
    fast.getD (fromMpz n) = fromMpz n := by
  cases found : fast with
  | none => rfl
  | some r => exact eq_fromMpz (exact r found).1 (exact r found).2

section Exact

variable {a b c : Num} {m n k : Int}

theorem bigintAdd_eq (left : Denotes a m) (right : Denotes b n) :
    bigintAdd a b = fromMpz (m + n) ∧ bigintAddSlow a b = fromMpz (m + n) := by
  have slow : bigintAddSlow a b = fromMpz (m + n) := by
    rw [bigintAddSlow, valToMpz_eq left, valToMpz_eq right]
  refine ⟨?_, slow⟩
  rw [bigintAdd, slow]
  apply getD_fromMpz
  intro r found
  exact ⟨tryAddLimb2Kind_denotes left right found, tryAddLimb2Kind_object found⟩

theorem bigintSub_eq (left : Denotes a m) (right : Denotes b n) :
    bigintSub a b = fromMpz (m - n) ∧ bigintSubSlow a b = fromMpz (m - n) := by
  have slow : bigintSubSlow a b = fromMpz (m - n) := by
    rw [bigintSubSlow, valToMpz_eq left, valToMpz_eq right]
  refine ⟨?_, slow⟩
  rw [bigintSub, slow]
  apply getD_fromMpz
  intro r found
  exact ⟨tryAddLimb2Kind_denotes left right found, tryAddLimb2Kind_object found⟩

theorem bigintMul_eq (left : Denotes a m) (right : Denotes b n) :
    bigintMul a b = fromMpz (m * n) ∧ bigintMulSlow a b = fromMpz (m * n) := by
  have slow : bigintMulSlow a b = fromMpz (m * n) := by
    rw [bigintMulSlow, valToMpz_eq left, valToMpz_eq right]
  refine ⟨?_, slow⟩
  rw [bigintMul, slow]
  apply getD_fromMpz
  intro r found
  exact ⟨tryMulLimb2_denotes left right found, tryMulLimb2_object found⟩

theorem denotes_tagV {v : BitVec 64} (low : smallIntMin ≤ v.toInt) (high : v.toInt ≤ smallIntMax)
    (denoted : Denotes (tagV v) m) : m = v.toInt := by
  rw [← valToMpz_eq denoted, valToMpz_eq (tagV_denotes rfl low high)]

theorem isZeroFast_eq_zero (denoted : Denotes a m) (zero : isZeroFast a = true) : m = 0 := by
  cases denoted with
  | small tagged =>
    simp only [isZeroFast, tagged, Bool.true_and, decide_eq_true_eq] at zero
    rw [zero]
    rfl
  | big canonical =>
    simp only [isZeroFast, Bool.or_eq_true, decide_eq_true_eq, List.length_eq_zero_iff] at zero
    rcases zero with rfl | rfl
    · exact Int.zero_mul _
    · exact Int.mul_zero _

theorem bigintSubmul_fast (first : Denotes a m) (second : Denotes b n) (third : Denotes c k)
    {r : Num}
    (found : ((if b = tagV 1 then tryAddLimb2Kind a c true true else none).or
      (if b = tagV (-1) then tryAddLimb2Kind a c false true else none)).or
        ((smallRaw b).bind fun raw => trySubmulI64Limb2 a raw c) = some r) :
    Denotes r (m - n * k) := by
  rw [Option.or_eq_some_iff, Option.or_eq_some_iff] at found
  rcases found with (plus | ⟨-, minus⟩) | ⟨-, small⟩
  · split at plus
    · next one =>
      subst one
      have one : n = 1 := denotes_tagV (by decide) (by decide) second
      rw [one, Int.one_mul]
      exact tryAddLimb2Kind_denotes first third plus
    · cases plus
  · split at minus
    · next one =>
      subst one
      have one : n = -1 := denotes_tagV (by decide) (by decide) second
      rw [one, Int.neg_one_mul, Int.sub_neg]
      exact tryAddLimb2Kind_denotes first third minus
    · cases minus
  · obtain ⟨raw, small, found⟩ := Option.bind_eq_some_iff.mp small
    cases second with
    | @small bits tagged =>
      rw [smallRaw, if_pos tagged] at small
      cases small
      exact trySubmulI64Limb2_denotes first third (untagWord_bounds bits).1
        (untagWord_bounds bits).2 found
    | big canonical => cases small

theorem bigintSubmul_denotes (first : Denotes a m) (second : Denotes b n) (third : Denotes c k) :
    Denotes (bigintSubmul a b c) (m - n * k) ∧ bigintSubmulSlow a b c = fromMpz (m - n * k) := by
  have slow : bigintSubmulSlow a b c = fromMpz (m - n * k) := by
    rw [bigintSubmulSlow, valToMpz_eq first, valToMpz_eq second, valToMpz_eq third]
  refine ⟨?_, slow⟩
  unfold bigintSubmul
  split
  · next none =>
    have zero : n * k = 0 := by
      rw [Bool.or_eq_true, decide_eq_true_eq] at none
      rcases none with rfl | none
      · rw [denotes_tagV (by decide) (by decide) second]
        exact Int.zero_mul k
      · rw [isZeroFast_eq_zero third none, Int.mul_zero]
    rw [zero, Int.sub_zero]
    exact first
  · rw [slow]
    dsimp only
    cases fast : (Option.or _ _).or (trySubmulLimb2 a b c) with
    | none => exact fromMpz_denotes _
    | some r =>
      rcases Option.or_eq_some_iff.mp fast with found | ⟨-, found⟩
      · exact bigintSubmul_fast first second third found
      · exact trySubmulLimb2_denotes first second third found

/--
Sums, differences and products of integers are exact in every representation.

The objects made are canonical, which is part of standing for an integer, and sums, differences and
products are the very objects of the slow paths. The difference with a product may be a small
integer where the slow path makes an object; both stand for the same integer.
-/
theorem bigint_exact (first : Denotes a m) (second : Denotes b n) (third : Denotes c k) :
    (Denotes (bigintAdd a b) (m + n) ∧ bigintAdd a b = bigintAddSlow a b) ∧
    (Denotes (bigintSub a b) (m - n) ∧ bigintSub a b = bigintSubSlow a b) ∧
    (Denotes (bigintMul a b) (m * n) ∧ bigintMul a b = bigintMulSlow a b) ∧
    (Denotes (bigintSubmul a b c) (m - n * k) ∧ Denotes (bigintSubmulSlow a b c) (m - n * k)) := by
  obtain ⟨add, addSlow⟩ := bigintAdd_eq first second
  obtain ⟨sub, subSlow⟩ := bigintSub_eq first second
  obtain ⟨mul, mulSlow⟩ := bigintMul_eq first second
  obtain ⟨submul, submulSlow⟩ := bigintSubmul_denotes first second third
  refine ⟨⟨?_, add.trans addSlow.symm⟩, ⟨?_, sub.trans subSlow.symm⟩,
    ⟨?_, mul.trans mulSlow.symm⟩, submul, ?_⟩
  · rw [add]
    exact fromMpz_denotes _
  · rw [sub]
    exact fromMpz_denotes _
  · rw [mul]
    exact fromMpz_denotes _
  · rw [submulSlow]
    exact fromMpz_denotes _

end Exact

/-- The least small integer, an object of one limb and one of two limbs. -/
theorem bigint_exact_edges :
    Denotes (tagV (BitVec.ofInt 64 smallIntMin)) smallIntMin ∧
    Denotes (.big 1 [-1#64]) (2 ^ 64 - 1) ∧
    Denotes (.big (-1) [-1#64, -1#64]) (-(2 ^ 128 - 1)) ∧
    Denotes (bigintSubmul (tagV (BitVec.ofInt 64 smallIntMin)) (.big 1 [-1#64])
      (.big (-1) [-1#64, -1#64])) (smallIntMin - (2 ^ 64 - 1) * -(2 ^ 128 - 1)) := by
  have first : Denotes (tagV (BitVec.ofInt 64 smallIntMin)) smallIntMin :=
    tagV_denotes (by decide) (by decide) (by decide)
  have second : Denotes (.big 1 [-1#64]) (2 ^ 64 - 1) :=
    .big ⟨by simp [Lib.Normal], .inr ⟨by simp, .inl rfl⟩⟩
  have third : Denotes (.big (-1) [-1#64, -1#64]) (-(2 ^ 128 - 1)) :=
    .big ⟨by simp [Lib.Normal], .inr ⟨by simp, .inr rfl⟩⟩
  exact ⟨first, second, third, (bigint_exact first second third).2.2.2.1⟩

end Nytrix.Rt
