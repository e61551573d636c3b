import Nytrix.Rt.MathLaws
import Nytrix.Rt.Value

/-! Which equal values have equal hashes, in the runtime and in the library. -/

namespace Nytrix.Rt

open Nytrix.Lib

/-- The address of an object that is hashed by it. -/
def Value.objAddr? : Value → Option (BitVec 64)
  | .big addr _ _ => some addr
  | .complex addr _ _ => some addr
  | .seq addr _ _ => some addr
  | .range addr _ _ _ => some addr
  | _ => none

/-- A pointer is beyond the first page, and an object hashed by it is at a multiple of eight. -/
structure Value.Placed (v : Value) : Prop where
  mapped : v.isPtr = true → 4096 < v.word.toNat
  aligned : ∀ addr, v.objAddr? = some addr → addr.toNat % 8 = 0

/-- The library's hash of a big integer, an eighth of it when that is whole. -/
def bigHash (n : Int) : BitVec 64 := if n % 8 = 0 then BitVec.ofInt 64 (n / 8 % 2 ^ 31) else 0

/-- The runtime and the library hash the value in the same way. -/
def HashedAlike : Value → Prop
  | .tru => False
  | .big addr sign limbs => addrHash addr = bigHash (valToMpz (.big sign limbs))
  | _ => True

theorem rawBits_tagWord {w : BitVec 64} (small : Small w.toInt) : rawBits (tagWord w) = w := by
  rw [rawBits_eq (isInt_tagV w)]
  exact untagWord_tagWord small.1 small.2

theorem small_of_toNat_lt {w : BitVec 64} (less : w.toNat < 2 ^ 61) : Small w.toInt := by
  rw [small_iff, BitVec.toInt_eq_toNat_of_lt (by omega)]
  omega

theorem rawBits_addr {addr : BitVec 64} (aligned : addr.toNat % 8 = 0) : rawBits addr = addr := by
  have even : isInt (.word addr) = false := by
    cases odd : isInt (.word addr) with
    | false => rfl
    | true =>
      have := isInt_iff.mp odd
      omega
  rw [rawBits, even]
  rfl

theorem hash_addr {addr : BitVec 64} (aligned : addr.toNat % 8 = 0) :
    rtAnd (.word addr) (tagV 7) = tagV 0 ∧
      ∃ shifted, rtShr (.word addr) (tagV 3) = some shifted ∧
        resultBits (rtAnd shifted (tagV 2147483647)) = addrHash addr := by
  have raw := rawBits_addr aligned
  have seven : rawBits (tagWord 7) = 7 := by decide
  have three : rawBits (tagWord 3) = 3 := by decide
  have mask : rawBits (tagWord 2147483647) = 2147483647 := by decide
  constructor
  · show tagV (rawBits addr &&& rawBits (tagWord 7)) = tagV 0
    rw [raw, seven]
    congr 1
    apply BitVec.eq_of_toNat_eq
    rw [BitVec.toNat_and]
    show addr.toNat &&& (2 ^ 3 - 1) = 0
    rw [Nat.and_two_pow_sub_one_eq_mod]
    exact aligned
  · refine ⟨tagV (addr >>> 3), ?_, ?_⟩
    · show (if (rawBits (tagWord 3)).toNat < 64 then
        some (tagV (rawBits addr >>> (rawBits (tagWord 3)).toNat)) else none) = _
      rw [raw, three]
      rfl
    · have less : (addr >>> 3).toNat < 2 ^ 61 := by
        rw [BitVec.toNat_ushiftRight, Nat.shiftRight_eq_div_pow]
        omega
      have masked : (addr >>> 3 &&& 2147483647#64).toNat < 2 ^ 61 := by
        rw [BitVec.toNat_and]
        exact Nat.lt_of_le_of_lt Nat.and_le_left less
      show rawBits (tagWord (rawBits (tagWord (addr >>> 3)) &&& rawBits (tagWord 2147483647))) = _
      rw [rawBits_tagWord (small_of_toNat_lt less), mask]
      exact rawBits_tagWord (small_of_toNat_lt masked)

theorem compactMpz_eq_zero {n : Int} : compactMpz n = tagV 0 ↔ n = 0 := by
  constructor
  · intro zero
    have denoted := compactMpz_denotes n
    rw [zero] at denoted
    exact denoted.unique (tagV_denotes rfl (by decide) (by decide))
  · rintro rfl
    decide

theorem resultBits_eq {v : Num} {n : Int} (denoted : Denotes v n) :
    resultBits v = BitVec.ofInt 64 n := by
  cases denoted with
  | small tagged => rw [resultBits, rawBits_eq tagged, BitVec.ofInt_toInt]
  | big canonical => rw [resultBits, valToMpz_eq (.big canonical)]

theorem dictHash_big (addr : BitVec 64) (sign : Int) (limbs : List (BitVec 64)) :
    (Value.big addr sign limbs).dictHash = bigHash (valToMpz (.big sign limbs)) := by
  have low : rtAnd (.big sign limbs) (tagV 7) =
      compactMpz (valToMpz (.big sign limbs) % 2 ^ 3) := by
    rw [← land_two_pow_sub_one]
    rfl
  have shifted : rtShr (.big sign limbs) (tagV 3) =
      some (compactMpz ((valToMpz (.big sign limbs)).fdiv (2 ^ 3))) := rfl
  unfold Value.dictHash looksLikePtr bigHash
  simp only [Value.toNum, low, shifted, compactMpz_eq_zero, decide_eq_true_eq]
  generalize valToMpz (.big sign limbs) = n
  have eighth : n.fdiv (2 ^ 3) = n / 8 := Int.fdiv_eq_ediv_of_nonneg n (by decide)
  rw [eighth]
  have mask : Denotes (tagV 2147483647) ((2 ^ 31 - 1 : Nat) : Int) :=
    tagV_denotes (by decide) (by decide) (by decide)
  have result : Denotes (rtAnd (compactMpz (n / 8)) (tagV 2147483647)) (n / 8 % 2 ^ 31) := by
    rw [← land_two_pow_sub_one]
    exact (bitwiseExact _ _ _ _ (compactMpz_denotes (n / 8)) mask).1
  rw [resultBits_eq result]
  rfl

theorem dictHash_flt (addr bits : BitVec 64) :
    (Value.flt addr bits).dictHashRaw = fltHash bits := by
  by_cases minus : bits = 0x8000000000000000
  · subst minus
    exact (by decide : dictHashMix64 0 = fltHash 0x8000000000000000)
  · simp only [Value.dictHashRaw, fltHash, if_neg minus]
    rfl

theorem objectHash {v : Value} {addr : BitVec 64} (aligned : addr.toNat % 8 = 0)
    (word : v.toNum = .word addr) :
    (if looksLikePtr v then
      match rtShr v.toNum (tagV 3) with
      | some shifted => resultBits (rtAnd shifted (tagV 2147483647))
      | none => 0
    else 0) = addrHash addr := by
  obtain ⟨looks, shifted, shift, result⟩ := hash_addr aligned
  rw [looksLikePtr, word, looks, shift]
  exact result

theorem dictHash_eq_iff {v : Value} (placed : v.Placed) :
    v.dictHashRaw = v.dictHash ↔ HashedAlike v := by
  have object {addr : BitVec 64} (known : v.objAddr? = some addr) (word : v.toNum = .word addr) :=
    objectHash (placed.aligned addr known) word
  cases v with
  | int value => exact iff_of_true rfl trivial
  | nil => exact iff_of_true rfl trivial
  | fls => exact iff_of_true rfl trivial
  | tru => exact iff_of_false (by decide) (fun h => h)
  | str addr bytes => exact iff_of_true rfl trivial
  | flt addr bits => exact iff_of_true (dictHash_flt addr bits) trivial
  | big addr sign limbs =>
    rw [dictHash_big]
    rfl
  | complex addr re im => exact iff_of_true (object rfl rfl).symm trivial
  | seq addr tuple items => exact iff_of_true (object rfl rfl).symm trivial
  | range addr start stop step => exact iff_of_true (object rfl rfl).symm trivial

theorem Value.eq_nil {v : Value} (placed : v.Placed) (zero : v.word = 0) : v = .nil := by
  have mapped := placed.mapped
  rw [zero] at mapped
  cases v with
  | nil => rfl
  | int value =>
    have odd := isInt_tagV (value.signExtend 64)
    rw [show tagV (value.signExtend 64) = .word 0 from congrArg Num.word zero] at odd
    cases odd
  | fls => cases zero
  | tru => cases zero
  | big _ _ _ => exact absurd (mapped rfl) (by decide)
  | flt _ _ => exact absurd (mapped rfl) (by decide)
  | complex _ _ _ => exact absurd (mapped rfl) (by decide)
  | str _ _ => exact absurd (mapped rfl) (by decide)
  | seq _ _ _ => exact absurd (mapped rfl) (by decide)
  | range _ _ _ _ => exact absurd (mapped rfl) (by decide)

theorem Value.eq_zero {v : Value} (placed : v.Placed) (zero : v.word = tagWord 0) :
    v = .int 0 := by
  have mapped := placed.mapped
  rw [zero] at mapped
  cases v with
  | nil => cases zero
  | int value =>
    have held : value.toInt = 0 := by
      have same := congrArg (fun w => (untagWord w).toInt) zero
      have bounds := value.toInt_lt
      have low := value.le_toInt
      have small : Small (value.signExtend 64).toInt := by
        rw [small_iff, BitVec.toInt_signExtend_of_le (by decide)]
        omega
      simp only [Value.word] at same
      rw [untagWord_tagWord small.1 small.2, BitVec.toInt_signExtend_of_le (by decide)] at same
      exact same
    rw [BitVec.eq_of_toInt_eq (held.trans (by decide : (0 : Int) = (0 : BitVec 63).toInt))]
  | fls => cases zero
  | tru => cases zero
  | big _ _ _ => exact absurd (mapped rfl) (by decide)
  | flt _ _ => exact absurd (mapped rfl) (by decide)
  | complex _ _ _ => exact absurd (mapped rfl) (by decide)
  | str _ _ => exact absurd (mapped rfl) (by decide)
  | seq _ _ _ => exact absurd (mapped rfl) (by decide)
  | range _ _ _ _ => exact absurd (mapped rfl) (by decide)

/-- What can make two values with different words equal. -/
inductive EqualBy : Value → Value → Prop
  | integer {a b : Value} (some : (a.isBigintObj || b.isBigintObj) = true)
    (left : (a.isBigintObj || a.isInt) = true) (right : (b.isBigintObj || b.isInt) = true) :
    EqualBy a b
  | nilZero : EqualBy .nil (.int 0)
  | zeroNil : EqualBy (.int 0) .nil
  | float {a b : Value} (left : a.isBigintObj = false) (right : b.isBigintObj = false)
    (some : (a.isFlt || b.isFlt) = true) (equal : doubleEq a.getFlt b.getFlt = true) : EqualBy a b
  | complex {a b : Value} (left : a.isPtr = true) (right : b.isPtr = true)
    (leftFlt : a.isFlt = false) (rightFlt : b.isFlt = false)
    (some : (a.isComplex || b.isComplex) = true) : EqualBy a b
  | string {p q : BitVec 64} {bytes : List (BitVec 8)} : EqualBy (.str p bytes) (.str q bytes)
  | sequence {a b : Value} {p q : BitVec 64} (left : a.objAddr? = some p)
    (right : b.objAddr? = some q) : EqualBy a b

theorem rtEq_inv {a b : Value} (placedA : a.Placed) (placedB : b.Placed)
    (differ : a.word ≠ b.word) (equal : rtEq a b = true) : EqualBy a b := by
  unfold rtEq at equal
  split at equal
  · next answer leaf =>
    subst equal
    unfold leafEq at leaf
    rw [if_neg differ] at leaf
    -- The tests come in the order of the source.
    split at leaf
    · next some =>
      simp only [Option.some.injEq, Bool.and_eq_true] at leaf
      exact .integer some leaf.1.1 leaf.1.2
    · next none =>
      rw [Bool.or_eq_true, not_or, Bool.not_eq_true, Bool.not_eq_true] at none
      split at leaf
      · next zero =>
        simp only [Bool.or_eq_true, Bool.and_eq_true, decide_eq_true_eq] at zero
        rcases zero with ⟨left, right⟩ | ⟨left, right⟩
        · rw [Value.eq_nil placedA left, Value.eq_zero placedB right]
          exact .nilZero
        · rw [Value.eq_zero placedA left, Value.eq_nil placedB right]
          exact .zeroNil
      · split at leaf
        · next some => exact .float none.1 none.2 some (Option.some.inj leaf)
        · next notFlt =>
          rw [Bool.or_eq_true, not_or, Bool.not_eq_true, Bool.not_eq_true] at notFlt
          split at leaf
          · cases leaf
          · split at leaf
            · next ptrs =>
              rw [Bool.and_eq_true] at ptrs
              split at leaf
              · next some => exact .complex ptrs.1 ptrs.2 notFlt.1 notFlt.2 some
              · split at leaf
                · next both =>
                  simp only [Option.some.injEq, decide_eq_true_eq] at leaf
                  cases a <;> cases b <;>
                    simp only [Value.bytes?, Option.isSome_none, Option.isSome_some,
                      Bool.and_false, Bool.false_and, Bool.false_eq_true] at both
                  cases leaf
                  exact .string
                · cases leaf
            · cases leaf
  · split at equal
    · split at equal
      · exact .sequence rfl rfl
      · exact .sequence rfl rfl
      · cases equal
    · split at equal
      · exact .sequence rfl rfl
      · exact .sequence rfl rfl
      · cases equal
    · cases equal

/-- Nil, the integer zero and the zeros of doubles. -/
def IsZero : Value → Prop
  | .nil => True
  | .int value => value = 0
  | .flt _ bits => bits <<< 1 = 0
  | _ => False

/-- Pairs whose hashes are equal whenever they are. -/
inductive Alike : Value → Value → Prop
  | same {a b : Value} (word : a.word = b.word) : Alike a b
  | strs {p q : BitVec 64} {x y : List (BitVec 8)} : Alike (.str p x) (.str q y)
  | flts {p q x y : BitVec 64} : Alike (.flt p x) (.flt q y)
  | zeros {a b : Value} (left : IsZero a) (right : IsZero b) : Alike a b

/--
Other pairs that are hashed to the same number by chance.

An object is hashed by the bits from the fourth to the thirty-fourth of its address, an integer by
itself, a string and a double by what they hold.
-/
inductive Coincide : Value → Value → Prop
  | objects {a b : Value} {p q : BitVec 64} (left : a.objAddr? = some p)
    (right : b.objAddr? = some q) (meet : p.toNat % 2 ^ 34 = q.toNat % 2 ^ 34) : Coincide a b
  | objectInt {a : Value} {p : BitVec 64} {v : BitVec 63} (left : a.objAddr? = some p)
    (meet : (p.toNat / 8 % 2 ^ 31 : Nat) = v.toInt) : Coincide a (.int v)
  | objectStr {a : Value} {p q : BitVec 64} {bytes : List (BitVec 8)}
    (left : a.objAddr? = some p) (meet : p.toNat / 8 % 2 ^ 31 = (strHash bytes).toNat) :
    Coincide a (.str q bytes)
  | objectFlt {a : Value} {p q bits : BitVec 64} (left : a.objAddr? = some p)
    (zero : bits <<< 1 = 0) (meet : p.toNat % 2 ^ 34 = 0) : Coincide a (.flt q bits)
  | fltInt {q bits : BitVec 64} {v : BitVec 63} (meet : fltHash bits = v.signExtend 64) :
    Coincide (.flt q bits) (.int v)
  | fltStr {q r bits : BitVec 64} {bytes : List (BitVec 8)} (zero : bits <<< 1 = 0)
    (meet : strHash bytes = 0) : Coincide (.flt q bits) (.str r bytes)
  | symm {a b : Value} (other : Coincide a b) : Coincide b a

theorem toNat_addrHash (p : BitVec 64) : (addrHash p).toNat = p.toNat / 8 % 2 ^ 31 := by
  rw [addrHash, BitVec.toNat_and, BitVec.toNat_ushiftRight, Nat.shiftRight_eq_div_pow]
  exact Nat.and_two_pow_sub_one_eq_mod _ 31

theorem addrHash_eq_iff {p q : BitVec 64} (alignedP : p.toNat % 8 = 0)
    (alignedQ : q.toNat % 8 = 0) :
    addrHash p = addrHash q ↔ p.toNat % 2 ^ 34 = q.toNat % 2 ^ 34 := by
  rw [← BitVec.toNat_inj, toNat_addrHash, toNat_addrHash]
  omega

theorem addrHash_eq_zero_iff {p : BitVec 64} (aligned : p.toNat % 8 = 0) :
    addrHash p = 0 ↔ p.toNat % 2 ^ 34 = 0 := by
  rw [← BitVec.toNat_inj, toNat_addrHash]
  show _ = 0 ↔ _
  omega

theorem addrHash_eq_int_iff {p : BitVec 64} {v : BitVec 63} :
    addrHash p = v.signExtend 64 ↔ (p.toNat / 8 % 2 ^ 31 : Nat) = v.toInt := by
  rw [← BitVec.toInt_inj, BitVec.toInt_signExtend_of_le (by decide), ← toNat_addrHash,
    BitVec.toInt_eq_toNat_of_lt]
  rw [toNat_addrHash]
  omega

theorem zero_cases {bits : BitVec 64} (zero : bits <<< 1 = 0) :
    bits = 0 ∨ bits = 0x8000000000000000 := by
  have doubled := congrArg BitVec.toNat zero
  rw [BitVec.toNat_shiftLeft, Nat.shiftLeft_eq] at doubled
  have doubled : bits.toNat * 2 ^ 1 % 2 ^ 64 = 0 := doubled
  have bound := bits.isLt
  rcases (show bits.toNat = 0 ∨ bits.toNat = 2 ^ 63 by omega) with low | high
  · exact .inl (BitVec.eq_of_toNat_eq low)
  · exact .inr (BitVec.eq_of_toNat_eq high)

theorem fltHash_zero {bits : BitVec 64} (zero : bits <<< 1 = 0) : fltHash bits = 0 := by
  rcases zero_cases zero with rfl | rfl
  · decide
  · decide

theorem fltHash_eq {x y : BitVec 64} (equal : doubleEq x y = true) : fltHash x = fltHash y := by
  simp only [doubleEq, Bool.and_eq_true, Bool.or_eq_true, decide_eq_true_eq] at equal
  rcases equal.2 with rfl | ⟨left, right⟩
  · rfl
  · rw [fltHash_zero left, fltHash_zero right]

theorem zero_of_doubleEq {x : BitVec 64} (equal : doubleEq x 0 = true) : x <<< 1 = 0 := by
  simp only [doubleEq, Bool.and_eq_true, Bool.or_eq_true, decide_eq_true_eq] at equal
  rcases equal.2 with rfl | ⟨left, -⟩
  · decide
  · exact left

theorem eq_of_doubleEq {x y : BitVec 64} (equal : doubleEq x y = true) (some : y <<< 1 ≠ 0) :
    x = y := by
  simp only [doubleEq, Bool.and_eq_true, Bool.or_eq_true, decide_eq_true_eq] at equal
  rcases equal.2 with same | ⟨-, zero⟩
  · exact same
  · exact absurd zero some

theorem doubleEq_symm (x y : BitVec 64) : doubleEq x y = doubleEq y x := by
  unfold doubleEq
  rw [Bool.and_comm (!isNan x), show decide (x = y) = decide (y = x) from
    decide_eq_decide.mpr eq_comm, Bool.and_comm (decide (x <<< 1 = 0))]

theorem dictHashRaw_object {v : Value} {p : BitVec 64} (known : v.objAddr? = some p) :
    v.dictHashRaw = addrHash p := by
  cases v <;> simp only [Value.objAddr?, reduceCtorEq, Option.some.injEq] at known <;>
    rw [← known] <;> rfl

theorem Coincide.hash_eq {a b : Value} (chance : Coincide a b) (placedA : a.Placed)
    (placedB : b.Placed) : a.dictHashRaw = b.dictHashRaw := by
  induction chance with
  | objects left right meet =>
    rw [dictHashRaw_object left, dictHashRaw_object right]
    exact (addrHash_eq_iff (placedA.aligned _ left) (placedB.aligned _ right)).mpr meet
  | objectInt left meet =>
    rw [dictHashRaw_object left]
    exact addrHash_eq_int_iff.mpr meet
  | objectStr left meet =>
    rw [dictHashRaw_object left]
    apply BitVec.eq_of_toNat_eq
    rw [toNat_addrHash]
    exact meet
  | objectFlt left zero meet =>
    rw [dictHashRaw_object left, dictHash_flt, fltHash_zero zero]
    exact (addrHash_eq_zero_iff (placedA.aligned _ left)).mpr meet
  | fltInt meet => rw [dictHash_flt, meet]; rfl
  | fltStr zero meet =>
    rw [dictHash_flt, fltHash_zero zero]
    exact meet.symm
  | symm other ih => exact (ih placedB placedA).symm

theorem IsZero.hash_eq {v : Value} (zero : IsZero v) : v.dictHashRaw = 0 := by
  cases v with
  | nil => rfl
  | int value =>
    rw [show value = 0 from zero]
    decide
  | flt addr bits => rw [dictHash_flt, fltHash_zero zero]
  | _ => cases zero

theorem Alike.hash_eq {a b : Value} (alike : Alike a b) (placedA : a.Placed) (placedB : b.Placed)
    (heap : a.word = b.word → a = b) (equal : rtEq a b = true) :
    a.dictHashRaw = b.dictHashRaw := by
  by_cases differ : a.word = b.word
  · rw [heap differ]
  · have reason := rtEq_inv placedA placedB differ equal
    cases alike with
    | same word => exact absurd word differ
    | zeros left right => rw [left.hash_eq, right.hash_eq]
    | strs =>
      cases reason with
      | integer some _ _ => cases some
      | float _ _ some _ => cases some
      | complex _ _ _ _ some => cases some
      | string => rfl
      | sequence left _ => cases left
    | flts =>
      cases reason with
      | integer some _ _ => cases some
      | float _ _ _ equal =>
        rw [dictHash_flt, dictHash_flt]
        exact fltHash_eq equal
      | complex _ _ leftFlt _ _ => cases leftFlt
      | sequence left _ => cases left

theorem settled_flt {p x : BitVec 64} {b : Value} (placed : b.Placed) (small : b.isBigintObj = false)
    (equal : doubleEq x b.getFlt = true) (hash : fltHash x = b.dictHashRaw) :
    Alike (.flt p x) b ∨ Coincide (.flt p x) b := by
  have object {q : BitVec 64} (known : b.objAddr? = some q) (zero : b.getFlt = 0) :
      Alike (.flt p x) b ∨ Coincide (.flt p x) b := by
    have nought : x <<< 1 = 0 := zero_of_doubleEq (zero ▸ equal)
    rw [dictHashRaw_object known, fltHash_zero nought] at hash
    exact .inr (.symm (.objectFlt known nought
      ((addrHash_eq_zero_iff (placed.aligned q known)).mp hash.symm)))
  cases b with
  | int v => exact .inr (.fltInt hash)
  | nil => exact .inl (.zeros (zero_of_doubleEq equal) trivial)
  | fls =>
    rw [eq_of_doubleEq (y := 2) equal (by decide)] at hash
    exact absurd hash (by decide)
  | tru =>
    rw [eq_of_doubleEq (y := 8) equal (by decide)] at hash
    exact absurd hash (by decide)
  | big _ _ _ => cases small
  | flt _ _ => exact .inl .flts
  | complex _ _ _ => exact object rfl rfl
  | str _ bytes =>
    have nought : x <<< 1 = 0 := zero_of_doubleEq equal
    rw [fltHash_zero nought] at hash
    exact .inr (.fltStr nought hash.symm)
  | seq _ _ _ => exact object rfl rfl
  | range _ _ _ _ => exact object rfl rfl

theorem Alike.symm {a b : Value} (alike : Alike a b) : Alike b a := by
  cases alike with
  | same word => exact .same word.symm
  | strs => exact .strs
  | flts => exact .flts
  | zeros left right => exact .zeros right left

theorem settled_of_hash {a b : Value} (placedA : a.Placed) (placedB : b.Placed)
    (reason : EqualBy a b) (hash : a.dictHashRaw = b.dictHashRaw) : Alike a b ∨ Coincide a b := by
  have objects {a b : Value} {p q : BitVec 64} (placedA : a.Placed) (placedB : b.Placed)
      (left : a.objAddr? = some p) (right : b.objAddr? = some q)
      (hash : a.dictHashRaw = b.dictHashRaw) : Coincide a b := by
    rw [dictHashRaw_object left, dictHashRaw_object right] at hash
    exact .objects left right
      ((addrHash_eq_iff (placedA.aligned p left) (placedB.aligned q right)).mp hash)
  have string {a : Value} {p q : BitVec 64} {bytes : List (BitVec 8)} (left : a.objAddr? = some p)
      (hash : a.dictHashRaw = strHash bytes) : Coincide a (.str q bytes) := by
    rw [dictHashRaw_object left] at hash
    exact .objectStr left (by rw [← toNat_addrHash, hash])
  cases reason with
  | integer some left right =>
    cases a <;> simp only [Value.isBigintObj, Value.isInt, Bool.or_self, Bool.false_eq_true] at left
    · cases b <;>
        simp only [Value.isBigintObj, Value.isInt, Bool.or_self, Bool.false_eq_true] at right some
      exact .inr (.symm (.objectInt rfl (addrHash_eq_int_iff.mp hash.symm)))
    · cases b <;> simp only [Value.isBigintObj, Value.isInt, Bool.or_self, Bool.false_eq_true] at right
      · exact .inr (.objectInt rfl (addrHash_eq_int_iff.mp hash))
      · exact .inr (objects placedA placedB rfl rfl hash)
  | nilZero => exact .inl (.zeros trivial rfl)
  | zeroNil => exact .inl (.zeros rfl trivial)
  | float left right some equal =>
    rw [Bool.or_eq_true] at some
    rcases some with isFlt | isFlt
    · cases a <;> simp only [Value.isFlt, Bool.false_eq_true] at isFlt
      rw [dictHash_flt] at hash
      exact settled_flt placedB right equal hash
    · cases b <;> simp only [Value.isFlt, Bool.false_eq_true] at isFlt
      rw [dictHash_flt] at hash
      rw [doubleEq_symm] at equal
      exact (settled_flt placedA left equal hash.symm).imp Alike.symm Coincide.symm
  | complex left right leftFlt rightFlt some =>
    rw [Bool.or_eq_true] at some
    rcases some with isComplex | isComplex
    · cases a <;> simp only [Value.isComplex, Bool.false_eq_true] at isComplex
      cases b with
      | str _ _ => exact .inr (string rfl hash)
      | flt _ _ => cases rightFlt
      | big _ _ _ => exact .inr (objects placedA placedB rfl rfl hash)
      | complex _ _ _ => exact .inr (objects placedA placedB rfl rfl hash)
      | seq _ _ _ => exact .inr (objects placedA placedB rfl rfl hash)
      | range _ _ _ _ => exact .inr (objects placedA placedB rfl rfl hash)
      | _ => cases right
    · cases b <;> simp only [Value.isComplex, Bool.false_eq_true] at isComplex
      cases a with
      | str _ _ => exact .inr (.symm (string rfl hash.symm))
      | flt _ _ => cases leftFlt
      | big _ _ _ => exact .inr (objects placedA placedB rfl rfl hash)
      | complex _ _ _ => exact .inr (objects placedA placedB rfl rfl hash)
      | seq _ _ _ => exact .inr (objects placedA placedB rfl rfl hash)
      | range _ _ _ _ => exact .inr (objects placedA placedB rfl rfl hash)
      | _ => cases left
  | string => exact .inl .strs
  | sequence left right => exact .inr (objects placedA placedB left right hash)

/-- Equal values have the same hash, which both implementations take modulo every capacity. -/
def HashRespects (a b : Value) : Prop :=
  rtEq a b = true → a.dictHashRaw = b.dictHashRaw ∧
    ∀ k, a.dictHash.toNat % 2 ^ k = a.dictHashRaw.toNat % 2 ^ k ∧
      b.dictHash.toNat % 2 ^ k = b.dictHashRaw.toNat % 2 ^ k

theorem hash_eq_of_mod {x y : BitVec 64} : (∀ k, x.toNat % 2 ^ k = y.toNat % 2 ^ k) ↔ y = x := by
  constructor
  · intro every
    have whole := every 64
    rw [Nat.mod_eq_of_lt x.isLt, Nat.mod_eq_of_lt y.isLt] at whole
    exact (BitVec.eq_of_toNat_eq whole).symm
  · rintro rfl k
    rfl

end Nytrix.Rt
