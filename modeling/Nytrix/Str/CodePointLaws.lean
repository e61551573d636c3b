import Mathlib.Data.List.TakeWhile
import Nytrix.Str.Splitting

/-! The code points of valid UTF-8, against the encoding of the standard library. -/

namespace Nytrix.Str

open Nytrix.Codec Nytrix.Lib

variable {s : Text}

/-- The bytes of a code point. -/
abbrev encode (c : Char) : Text := String.utf8EncodeChar c

/-- A text that is the bytes of code points, one behind the other. -/
def WellFormed (s : Text) : Prop := ∃ points : List Char, s = points.flatMap encode

theorem load8_drop (s : Text) (i k : Nat) : load8 (s.drop i) k = load8 s (i + k) := by
  rw [load8, load8, List.getD_eq_getElem?_getD, List.getD_eq_getElem?_getD, List.getElem?_drop]

theorem utf8SeqLen_drop (s : Text) (i : Nat) :
    utf8SeqLen (s.drop i) 0 (s.drop i).length = utf8SeqLen s i s.length := by
  have bound (k : Nat) : ((s.drop i).length ≤ k) = (s.length ≤ i + k) := by
    rw [List.length_drop, Nat.sub_le_iff_le_add']
  unfold utf8SeqLen
  simp only [bound, load8_drop, Nat.zero_add, Nat.add_zero]

theorem utf8DecodeAt_drop (s : Text) (i w : Nat) :
    utf8DecodeAt (s.drop i) 0 w = utf8DecodeAt s i w := by
  unfold utf8DecodeAt
  simp only [load8_drop, Nat.zero_add, Nat.add_zero]

@[simp] theorem load8_zero (b : UInt8) (t : Text) : load8 (b :: t) 0 = b.toNat := rfl

@[simp] theorem load8_succ (b : UInt8) (t : Text) (k : Nat) :
    load8 (b :: t) (k + 1) = load8 t k := rfl

theorem char_bounds (c : Char) :
    c.val.toNat < 55296 ∨ 57343 < c.val.toNat ∧ c.val.toNat < 1114112 := c.valid

/-- A byte that continues a code point. -/
def Cont (b : UInt8) : Prop := 128 ≤ b.toNat ∧ b.toNat ≤ 191

/-- The bytes of a code point with their ranges, and its value. -/
inductive Sequence : Text → Nat → Prop
  | one {a : UInt8} (low : a.toNat < 128) : Sequence [a] a.toNat
  | two {a b : UInt8} (first : 194 ≤ a.toNat ∧ a.toNat ≤ 223) (second : Cont b) :
      Sequence [a, b] (a.toNat % 32 * 64 + b.toNat % 64)
  | three {a b c : UInt8} (first : 224 ≤ a.toNat ∧ a.toNat ≤ 239) (second : Cont b)
      (third : Cont c) (long : a.toNat = 224 → 160 ≤ b.toNat)
      (scalar : a.toNat = 237 → b.toNat < 160) :
      Sequence [a, b, c] ((a.toNat % 16 * 64 + b.toNat % 64) * 64 + c.toNat % 64)
  | four {a b c d : UInt8} (first : 240 ≤ a.toNat ∧ a.toNat ≤ 244) (second : Cont b)
      (third : Cont c) (fourth : Cont d) (long : a.toNat = 240 → 144 ≤ b.toNat)
      (scalar : a.toNat = 244 → b.toNat ≤ 143) :
      Sequence [a, b, c, d]
        (((a.toNat % 8 * 64 + b.toNat % 64) * 64 + c.toNat % 64) * 64 + d.toNat % 64)

theorem isUtf8Cont_iff {b : UInt8} : isUtf8Cont b.toNat = true ↔ Cont b := by
  simp [isUtf8Cont, Cont]

theorem Sequence.seqLen {bytes : Text} {v : Nat} (sequence : Sequence bytes v) (rest : Text) :
    utf8SeqLen (bytes ++ rest) 0 (bytes ++ rest).length = some bytes.length := by
  cases sequence with
  | one low => simp [utf8SeqLen, low]
  | two first second =>
    have cont := isUtf8Cont_iff.mpr second
    simp only [utf8SeqLen, List.cons_append, List.nil_append, List.length_cons, load8_zero,
      load8_succ, cont, Nat.zero_add]
    rw [if_neg (by omega), if_neg (by omega), if_pos first, if_neg (by omega),
      if_neg (by decide), List.length_nil]
  | three first second third long scalar =>
    have contB := isUtf8Cont_iff.mpr second
    have contC := isUtf8Cont_iff.mpr third
    simp only [utf8SeqLen, List.cons_append, List.nil_append, List.length_cons, load8_zero,
      load8_succ, contB, contC, Nat.zero_add]
    rw [if_neg (by omega), if_neg (by omega), if_neg (by omega), if_pos first, if_neg (by omega),
      if_neg (by decide), if_neg (by omega), if_neg (by omega), List.length_nil]
  | four first second third fourth long scalar =>
    have contB := isUtf8Cont_iff.mpr second
    have contC := isUtf8Cont_iff.mpr third
    have contD := isUtf8Cont_iff.mpr fourth
    simp only [utf8SeqLen, List.cons_append, List.nil_append, List.length_cons, load8_zero,
      load8_succ, contB, contC, contD, Nat.zero_add]
    rw [if_neg (by omega), if_neg (by omega), if_neg (by omega), if_neg (by omega), if_pos first,
      if_neg (by omega), if_neg (by decide), if_neg (by omega), if_neg (by omega), List.length_nil]

theorem shift_or (high n : Nat) : high <<< 6 ||| n % 64 = high * 64 + n % 64 := by
  rw [← Nat.shiftLeft_add_eq_or_of_lt (Nat.mod_lt n (by decide)), Nat.shiftLeft_eq]

theorem Sequence.decode {bytes : Text} {v : Nat} (sequence : Sequence bytes v) (rest : Text) :
    utf8DecodeAt (bytes ++ rest) 0 bytes.length = v := by
  have six (n : Nat) : n &&& 63 = n % 64 := Nat.and_two_pow_sub_one_eq_mod n 6
  cases sequence with
  | one low => rfl
  | @two a b first second =>
    have five : a.toNat &&& 31 = a.toNat % 32 := Nat.and_two_pow_sub_one_eq_mod _ 5
    simp only [utf8DecodeAt, List.cons_append, List.nil_append, List.length_cons, List.length_nil,
      load8_zero, load8_succ, Nat.zero_add, Nat.reduceAdd]
    rw [six, five, shift_or]
  | @three a b c first second third =>
    have four : a.toNat &&& 15 = a.toNat % 16 := Nat.and_two_pow_sub_one_eq_mod _ 4
    simp only [utf8DecodeAt, List.cons_append, List.nil_append, List.length_cons, List.length_nil,
      load8_zero, load8_succ, Nat.zero_add, Nat.reduceAdd]
    rw [six, six, four, show (12 : Nat) = 6 + 6 from rfl, Nat.shiftLeft_add,
      ← Nat.shiftLeft_or_distrib, shift_or, shift_or]
  | @four a b c d first second third fourth =>
    have three : a.toNat &&& 7 = a.toNat % 8 := Nat.and_two_pow_sub_one_eq_mod _ 3
    simp only [utf8DecodeAt, List.cons_append, List.nil_append, List.length_cons, List.length_nil,
      load8_zero, load8_succ, Nat.zero_add, Nat.reduceAdd]
    rw [six, six, six, three, show (18 : Nat) = 6 + 6 + 6 from rfl,
      show (12 : Nat) = 6 + 6 from rfl, Nat.shiftLeft_add, Nat.shiftLeft_add, Nat.shiftLeft_add,
      ← Nat.shiftLeft_or_distrib, ← Nat.shiftLeft_or_distrib, ← Nat.shiftLeft_or_distrib,
      shift_or, shift_or, shift_or]

/-- Where a length is found, there is a sequence of it. -/
theorem exists_sequence {t : Text} {w : Nat} (found : utf8SeqLen t 0 t.length = some w) :
    ∃ bytes v rest, Sequence bytes v ∧ t = bytes ++ rest ∧ bytes.length = w := by
  have cont {b : UInt8} (test : ¬(!isUtf8Cont b.toNat) = true) : Cont b :=
    isUtf8Cont_iff.mp (by simpa using test)
  cases t with
  | nil => cases found
  | cons a t =>
    simp only [utf8SeqLen, List.length_cons, load8_zero, load8_succ, Nat.zero_add] at found
    rw [if_neg (by omega)] at found
    split at found
    · next low =>
      cases found
      exact ⟨[a], _, t, .one low, rfl, rfl⟩
    split at found
    · next first =>
      match t, found with
      | [], found => cases found
      | b :: t, found =>
        rw [List.length_cons, if_neg (by omega), load8_zero] at found
        split at found
        · cases found
        · next second =>
          cases found
          exact ⟨[a, b], _, t, .two first (cont second), rfl, rfl⟩
    split at found
    · next first =>
      match t, found with
      | [], found => cases found
      | [_], found => cases found
      | b :: c :: t, found =>
        rw [List.length_cons, List.length_cons, if_neg (by omega), load8_zero, load8_succ,
          load8_zero] at found
        split at found
        · cases found
        · next later =>
          rw [Bool.or_eq_true, not_or] at later
          split at found
          · cases found
          · next long =>
            split at found
            · cases found
            · next scalar =>
              cases found
              exact ⟨[a, b, c], _, t, .three first (cont later.1) (cont later.2)
                (by omega) (by omega), rfl, rfl⟩
    split at found
    · next first =>
      match t, found with
      | [], found => cases found
      | [_], found => cases found
      | [_, _], found => cases found
      | b :: c :: d :: t, found =>
        rw [List.length_cons, List.length_cons, List.length_cons, if_neg (by omega), load8_zero,
          load8_succ, load8_succ, load8_succ, load8_zero, load8_zero] at found
        split at found
        · cases found
        · next later =>
          rw [Bool.or_eq_true, Bool.or_eq_true, not_or, not_or] at later
          split at found
          · cases found
          · next long =>
            split at found
            · cases found
            · next scalar =>
              cases found
              exact ⟨[a, b, c, d], _, t, .four first (cont later.1.1) (cont later.1.2)
                (cont later.2) (by omega) (by omega), rfl, rfl⟩
    cases found

theorem toNat_ofNat_add {n k : Nat} (small : n + k < 256) : (UInt8.ofNat (n + k)).toNat = n + k := by
  rw [UInt8.toNat_ofNat', Nat.mod_eq_of_lt small]

theorem cont_ofNat {y : Nat} (small : y < 64) :
    Cont (UInt8.ofNat (y + 128)) ∧ (UInt8.ofNat (y + 128)).toNat % 64 = y := by
  rw [Cont, toNat_ofNat_add (by omega)]
  omega

theorem Sequence.digits2 {x y : Nat} (long : 2 ≤ x) (first : x < 32) (second : y < 64) :
    Sequence [UInt8.ofNat (x + 192), UInt8.ofNat (y + 128)] (x * 64 + y) := by
  have lead := toNat_ofNat_add (show x + 192 < 256 by omega)
  have low : (UInt8.ofNat (x + 192)).toNat % 32 = x := by rw [lead]; omega
  have sequence := Sequence.two (a := UInt8.ofNat (x + 192)) (by rw [lead]; omega)
    (cont_ofNat second).1
  rwa [low, (cont_ofNat second).2] at sequence

theorem Sequence.digits3 {x y z : Nat} (first : x < 16) (second : y < 64) (third : z < 64)
    (long : x = 0 → 32 ≤ y) (scalar : x = 13 → y < 32) :
    Sequence [UInt8.ofNat (x + 224), UInt8.ofNat (y + 128), UInt8.ofNat (z + 128)]
      ((x * 64 + y) * 64 + z) := by
  have lead := toNat_ofNat_add (show x + 224 < 256 by omega)
  have next := toNat_ofNat_add (show y + 128 < 256 by omega)
  have low : (UInt8.ofNat (x + 224)).toNat % 16 = x := by rw [lead]; omega
  have sequence := Sequence.three (a := UInt8.ofNat (x + 224)) (by rw [lead]; omega)
    (cont_ofNat second).1 (cont_ofNat third).1 (by rw [lead, next]; omega)
    (by rw [lead, next]; omega)
  rwa [low, (cont_ofNat second).2, (cont_ofNat third).2] at sequence

theorem Sequence.digits4 {x y z w : Nat} (first : x < 5) (second : y < 64) (third : z < 64)
    (fourth : w < 64) (long : x = 0 → 16 ≤ y) (scalar : x = 4 → y < 16) :
    Sequence [UInt8.ofNat (x + 240), UInt8.ofNat (y + 128), UInt8.ofNat (z + 128),
      UInt8.ofNat (w + 128)] (((x * 64 + y) * 64 + z) * 64 + w) := by
  have lead := toNat_ofNat_add (show x + 240 < 256 by omega)
  have next := toNat_ofNat_add (show y + 128 < 256 by omega)
  have low : (UInt8.ofNat (x + 240)).toNat % 8 = x := by rw [lead]; omega
  have sequence := Sequence.four (a := UInt8.ofNat (x + 240)) (by rw [lead]; omega)
    (cont_ofNat second).1 (cont_ofNat third).1 (cont_ofNat fourth).1
    (by rw [lead, next]; omega) (by rw [lead, next]; omega)
  rwa [low, (cont_ofNat second).2, (cont_ofNat third).2, (cont_ofNat fourth).2] at sequence

theorem sequence_encode (c : Char) : Sequence (encode c) c.val.toNat := by
  have bounds := char_bounds c
  unfold encode String.utf8EncodeChar
  generalize c.val.toNat = v at bounds ⊢
  dsimp only
  split
  · have first : (UInt8.ofNat v).toNat = v := by
      rw [UInt8.toNat_ofNat', Nat.mod_eq_of_lt (by omega)]
    have sequence : Sequence [UInt8.ofNat v] _ := .one (by omega)
    rwa [first] at sequence
  split
  · have sequence := Sequence.digits2 (x := v / 64 % 32) (y := v % 64) (by omega) (by omega)
      (by omega)
    rwa [show v / 64 % 32 * 64 + v % 64 = v by omega] at sequence
  split
  · have sequence := Sequence.digits3 (x := v / 4096 % 16) (y := v / 64 % 64) (z := v % 64)
      (by omega) (by omega) (by omega) (by omega) (by omega)
    rwa [show (v / 4096 % 16 * 64 + v / 64 % 64) * 64 + v % 64 = v by omega] at sequence
  · have sequence := Sequence.digits4 (x := v / 262144 % 8) (y := v / 4096 % 64)
      (z := v / 64 % 64) (w := v % 64) (by omega) (by omega) (by omega) (by omega) (by omega)
      (by omega)
    rwa [show ((v / 262144 % 8 * 64 + v / 4096 % 64) * 64 + v / 64 % 64) * 64 + v % 64 = v
      by omega] at sequence

theorem Cont.digit {b : UInt8} (cont : Cont b) : b.toNat % 64 + 128 = b.toNat := by
  unfold Cont at cont
  omega

theorem values_of_digits {x y z w : Nat} (second : y < 64) (third : z < 64) (fourth : w < 64) :
    (x < 32 → (x * 64 + y) / 64 % 32 = x) ∧ (x * 64 + y) % 64 = y ∧
      (x < 16 → ((x * 64 + y) * 64 + z) / 4096 % 16 = x) ∧
      ((x * 64 + y) * 64 + z) / 64 % 64 = y ∧
      (x < 8 → (((x * 64 + y) * 64 + z) * 64 + w) / 262144 % 8 = x) ∧
      (((x * 64 + y) * 64 + z) * 64 + w) / 4096 % 64 = y := by
  refine ⟨by omega, by omega, by omega, by omega, by omega, by omega⟩

theorem Sequence.exists_char {bytes : Text} {v : Nat} (sequence : Sequence bytes v) :
    ∃ c : Char, encode c = bytes ∧ c.val.toNat = v := by
  have scalar : v.isValidChar := by
    unfold Nat.isValidChar
    cases sequence with
    | one low => omega
    | two first second => omega
    | three first second third long scalar =>
      have next := second.digit
      omega
    | four first second third fourth long scalar =>
      have next := second.digit
      omega
  have value : (Char.ofNat v).val.toNat = v := by
    rw [Char.ofNat, dif_pos scalar]
    rfl
  refine ⟨Char.ofNat v, ?_, value⟩
  unfold encode String.utf8EncodeChar
  rw [value]
  clear value scalar
  have mod (n : Nat) : n % 64 < 64 := Nat.mod_lt n (by decide)
  cases sequence with
  | one low =>
    rw [if_pos (by omega), UInt8.ofNat_toNat]
  | @two a b first second =>
    have lead : a.toNat % 32 + 192 = a.toNat := by omega
    rw [if_neg (by omega), if_pos (by omega)]
    have digits := values_of_digits (x := a.toNat % 32) (mod b.toNat) (mod 0) (mod 0)
    rw [digits.1 (Nat.mod_lt _ (by decide)), digits.2.1, lead, second.digit, UInt8.ofNat_toNat,
      UInt8.ofNat_toNat]
  | @three a b c first second third long scalar =>
    have lead : a.toNat % 16 + 224 = a.toNat := by omega
    have next := second.digit
    rw [if_neg (by omega), if_neg (by omega), if_pos (by omega)]
    have digits := values_of_digits (x := a.toNat % 16) (mod b.toNat) (mod c.toNat) (mod 0)
    have last := values_of_digits (x := a.toNat % 16 * 64 + b.toNat % 64) (mod c.toNat) (mod 0) (mod 0)
    rw [digits.2.2.1 (Nat.mod_lt _ (by decide)), digits.2.2.2.1, last.2.1, lead, next, third.digit,
      UInt8.ofNat_toNat, UInt8.ofNat_toNat, UInt8.ofNat_toNat]
  | @four a b c d first second third fourth long scalar =>
    have lead : a.toNat % 8 + 240 = a.toNat := by omega
    have next := second.digit
    rw [if_neg (by omega), if_neg (by omega), if_neg (by omega)]
    have digits := values_of_digits (x := a.toNat % 8) (mod b.toNat) (mod c.toNat) (mod d.toNat)
    have middle := values_of_digits (x := a.toNat % 8 * 64 + b.toNat % 64) (mod c.toNat)
      (mod d.toNat) (mod 0)
    have last := values_of_digits (x := (a.toNat % 8 * 64 + b.toNat % 64) * 64 + c.toNat % 64)
      (mod d.toNat) (mod 0) (mod 0)
    rw [digits.2.2.2.2.1 (Nat.mod_lt _ (by decide)), digits.2.2.2.2.2, middle.2.2.2.1, last.2.1,
      lead, next, third.digit, fourth.digit, UInt8.ofNat_toNat, UInt8.ofNat_toNat,
      UInt8.ofNat_toNat, UInt8.ofNat_toNat]

theorem cont_or (n : Nat) : 128 ||| n &&& 63 = n % 64 + 128 := by
  rw [show n &&& 63 = n % 64 from Nat.and_two_pow_sub_one_eq_mod n 6, show 128 = 2 ^ 6 * 2 from rfl,
    ← Nat.two_pow_add_eq_or_of_lt (Nat.mod_lt n (by decide))]
  omega

theorem chr_eq (c : Char) : chr c.val.toNat = cstrToStr (encode c) := by
  have bounds := char_bounds c
  unfold encode String.utf8EncodeChar chr
  generalize c.val.toNat = v at bounds ⊢
  rw [if_neg (by omega), Int.toNat_natCast]
  dsimp only
  by_cases one : v ≤ 127
  · rw [if_pos (by omega), if_pos one]
  by_cases two : v ≤ 2047
  · have lead : 192 ||| v >>> 6 = v / 64 % 32 + 192 := by
      rw [Nat.shiftRight_eq_div_pow, show 192 = 2 ^ 5 * 6 from rfl,
        ← Nat.two_pow_add_eq_or_of_lt (by omega)]
      omega
    rw [if_neg (by omega), if_neg one, if_pos (by omega), if_pos two, lead, cont_or]
  by_cases three : v ≤ 65535
  · have lead : 224 ||| v >>> 12 = v / 4096 % 16 + 224 := by
      rw [Nat.shiftRight_eq_div_pow, show 224 = 2 ^ 4 * 14 from rfl,
        ← Nat.two_pow_add_eq_or_of_lt (by omega)]
      omega
    rw [if_neg (by omega), if_neg one, if_neg (by omega), if_neg two, if_pos (by omega),
      if_pos three, lead, cont_or, cont_or, Nat.shiftRight_eq_div_pow]
  · have lead : 240 ||| v >>> 18 = v / 262144 % 8 + 240 := by
      rw [Nat.shiftRight_eq_div_pow, show 240 = 2 ^ 3 * 30 from rfl,
        ← Nat.two_pow_add_eq_or_of_lt (by omega)]
      omega
    rw [if_neg (by omega), if_neg one, if_neg (by omega), if_neg two, if_neg (by omega),
      if_neg three, lead, cont_or, cont_or, cont_or, Nat.shiftRight_eq_div_pow,
      Nat.shiftRight_eq_div_pow]

theorem chr_eq_encode_iff (c : Char) : chr c.val.toNat = encode c ↔ 0 ∉ encode c := by
  rw [chr_eq, cstrToStr, List.takeWhile_eq_self_iff]
  constructor
  · intro all member
    exact absurd (all 0 member) (by decide)
  · intro absent b member
    rw [decide_eq_true_eq]
    rintro rfl
    exact absent member

/-- What the loops see at a position where a code point begins. -/
structure Begins (s : Text) (i : Nat) (c : Char) (rest : Text) : Prop where
  inside : i < s.length
  seqLen : utf8SeqLen s i s.length = some (encode c).length
  value : utf8DecodeAt s i (encode c).length = c.val.toNat
  behind : s.drop (afterPoint s i) = rest

theorem begins_of_drop {i : Nat} {c : Char} {rest : Text} (here : s.drop i = encode c ++ rest) :
    Begins s i c rest := by
  have sequence := sequence_encode c
  have seqLen : utf8SeqLen s i s.length = some (encode c).length := by
    rw [← utf8SeqLen_drop, here]
    exact sequence.seqLen rest
  refine ⟨?_, seqLen, ?_, ?_⟩
  · by_contra past
    rw [List.drop_eq_nil_of_le (Nat.le_of_not_lt past)] at here
    have none := congrArg List.length here
    rw [List.length_nil, List.length_append] at none
    have positive := utf8SeqLen_pos seqLen
    omega
  · rw [← utf8DecodeAt_drop, here]
    exact sequence.decode rest
  · rw [afterPoint, seqLen, ← List.drop_drop, here, List.drop_left]

theorem utf8ValidFrom_of_points (points : List Char) {i : Nat}
    (whole : s.drop i = points.flatMap encode) : utf8ValidFrom s i = true := by
  induction points generalizing i with
  | nil => rw [utf8ValidFrom, if_neg (Nat.not_lt.mpr (List.drop_eq_nil_iff.mp whole))]
  | cons c points ih =>
    have begins := begins_of_drop whole
    rw [utf8ValidFrom, if_pos begins.inside, begins.seqLen]
    exact ih begins.behind

theorem exists_points {i : Nat} (valid : utf8ValidFrom s i = true) :
    ∃ points : List Char, s.drop i = points.flatMap encode := by
  fun_induction utf8ValidFrom s i with
  | case1 i inside found ih =>
    obtain ⟨points, later⟩ := ih valid
    obtain ⟨w, seqLen⟩ := Option.isSome_iff_exists.mp found
    obtain ⟨bytes, v, rest, sequence, here, -⟩ :=
      exists_sequence ((utf8SeqLen_drop s i).trans seqLen)
    obtain ⟨c, rfl, -⟩ := sequence.exists_char
    refine ⟨c :: points, ?_⟩
    rw [List.flatMap_cons, ← later, (begins_of_drop here).behind, here]
  | case2 => cases valid
  | case3 i past => exact ⟨[], List.drop_eq_nil_of_le (Nat.le_of_not_lt past)⟩

theorem utf8Valid_iff : utf8Valid s = true ↔ WellFormed s := by
  constructor
  · intro valid
    exact exists_points valid
  · rintro ⟨points, whole⟩
    exact utf8ValidFrom_of_points points whole

theorem utf8LenFrom_eq (points : List Char) {i count : Nat}
    (whole : s.drop i = points.flatMap encode) :
    utf8LenFrom s i count = count + points.length := by
  induction points generalizing i count with
  | nil => rw [utf8LenFrom, if_neg (Nat.not_lt.mpr (List.drop_eq_nil_iff.mp whole))]; rfl
  | cons c points ih =>
    have begins := begins_of_drop whole
    rw [utf8LenFrom, if_pos begins.inside, ih begins.behind, List.length_cons]
    omega

theorem ordFrom_eq (points : List Char) {i pos k : Nat} {c : Char}
    (whole : s.drop i = points.flatMap encode) (found : points[k]? = some c) :
    ordFrom s (pos + k : Nat) i pos = c.val.toNat := by
  induction points generalizing i pos k with
  | nil => cases found
  | cons d points ih =>
    have begins := begins_of_drop whole
    rw [ordFrom, if_pos begins.inside]
    cases k with
    | zero =>
      cases found
      rw [Nat.add_zero, if_pos rfl, begins.seqLen]
      exact begins.value
    | succ k =>
      rw [if_neg (by omega), show pos + (k + 1) = pos + 1 + k by omega]
      exact ih begins.behind found

section Points

variable {points : List Char}

theorem utf8Len_eq (whole : s = points.flatMap encode) : utf8Len s = points.length := by
  have start : s.drop 0 = points.flatMap encode := whole
  rw [utf8Len, utf8LenFrom_eq points start, Nat.zero_add]

theorem ordAt_eq (whole : s = points.flatMap encode) {k : Nat} {c : Char}
    (found : points[k]? = some c) : ordAt s k = c.val.toNat := by
  have inside := (List.getElem?_eq_some_iff.mp found).1
  have start : s.drop 0 = points.flatMap encode := whole
  have value : ordFrom s (0 + k : Nat) 0 0 = c.val.toNat := ordFrom_eq points start found
  rw [Nat.zero_add] at value
  rw [ordAt, utf8Len_eq whole]
  simp only [if_neg (show ¬(k : Int) < 0 by omega)]
  rw [if_neg (by omega), value]

/-- The texts of the code points, one by one. -/
def texts (points : List Char) : List Text := points.map fun c => chr c.val.toNat

theorem foldl_listPushReserved (text : Nat → Text) {n cap : Nat} (room : n ≤ cap) :
    (List.range n).foldl (fun out ci => listPushReserved out (text ci)) ⟨cap, []⟩ =
      ⟨cap, (List.range n).map text⟩ := by
  induction n with
  | zero => rfl
  | succ n ih =>
    rw [List.range_succ, List.foldl_append, ih (by omega), List.map_append]
    exact listPushReserved_eq (by simp only [List.length_map, List.length_range]; omega) _

theorem split_nil (whole : s = points.flatMap encode) : split s [] = some (texts points) := by
  rw [split, dif_neg (by simp), splitPoints,
    foldl_listPushReserved (fun ci => chr (ordAt s ci)) (Nat.le_refl _), utf8Len_eq whole]
  refine congrArg some (List.ext_getElem (by simp [texts]) fun k first second => ?_)
  have inside : k < points.length := by simpa [texts] using second
  simp only [List.getElem_map, List.getElem_range, texts]
  rw [ordAt_eq whole (List.getElem?_eq_getElem inside)]

theorem join_nil (items : List Text) : join items [] = some items.flatten := by
  rw [join_eq]
  induction items with
  | nil => rfl
  | cons part rest ih =>
    cases rest with
    | nil => simp
    | cons next rest =>
      rw [Option.some.injEq] at ih
      rw [List.intercalate_cons_cons, List.append_nil, ih, List.flatten_cons (l := part)]

theorem sliceUp_eq (whole : s = points.flatMap encode) {i j : Nat} (order : i ≤ j)
    (inside : j ≤ points.length) (positive : (0 : Int) < 1) :
    sliceUp s j 1 positive i = (texts ((points.drop i).take (j - i))).flatten := by
  induction distance : j - i generalizing i with
  | zero => rw [sliceUp, if_neg (by omega)]; rfl
  | succ n ih =>
    have within : i < points.length := by omega
    rw [sliceUp, if_pos (by omega), ordAt_eq whole (List.getElem?_eq_getElem within),
      List.drop_eq_getElem_cons within, List.take_succ_cons, texts, List.map_cons,
      List.flatten_cons]
    exact congrArg _ (ih (i := i + 1) (by omega) (by omega))

theorem utf8Slice_eq (whole : s = points.flatMap encode) {i j : Nat} (order : i ≤ j)
    (inside : j ≤ points.length) :
    utf8Slice s i j 1 =
      if i = 0 ∧ j = points.length then s
      else (texts ((points.drop i).take (j - i))).flatten := by
  unfold utf8Slice
  rw [utf8Len_eq whole]
  simp only [if_neg (show ¬(1 : Int) = 0 by decide), if_neg (show ¬(i : Int) < 0 by omega),
    if_neg (show ¬(j : Int) < 0 by omega), dif_pos (show (0 : Int) < 1 by decide),
    if_neg (show ¬(points.length : Int) < j by omega), true_and]
  rcases Nat.eq_or_lt_of_le order with rfl | before
  · rw [if_pos (Int.le_refl _), Nat.sub_self, List.take_zero]
    split
    · next empty =>
      have none : points = [] := List.eq_nil_of_length_eq_zero (by omega)
      rw [whole, none, List.flatMap_nil]
    · rfl
  · rw [if_neg (by omega)]
    by_cases full : i = 0 ∧ j = points.length
    · rw [if_pos (by omega), if_pos full]
    · rw [if_neg (by omega), if_neg full]
      exact sliceUp_eq whole order inside _

theorem texts_flatten (whole : s = points.flatMap encode) (zero : 0 ∉ s) {part : List Char}
    (sub : part ⊆ points) : (texts part).flatten = part.flatMap encode := by
  rw [texts, List.flatMap_def]
  refine congrArg List.flatten (List.map_congr_left fun c member => ?_)
  rw [chr_eq_encode_iff]
  intro inside
  refine zero ?_
  rw [whole]
  exact List.mem_flatMap.mpr ⟨c, sub member, inside⟩

theorem utf8Slice_clean (whole : s = points.flatMap encode) (zero : 0 ∉ s) {i j : Nat}
    (order : i ≤ j) (inside : j ≤ points.length) :
    utf8Slice s i j 1 = ((points.drop i).take (j - i)).flatMap encode := by
  rw [utf8Slice_eq whole order inside]
  split
  · next full =>
    rw [full.1, full.2, List.drop_zero, Nat.sub_zero, List.take_length]
    exact whole
  · exact texts_flatten whole zero fun c member =>
      List.mem_of_mem_drop (List.mem_of_mem_take member)

/-- The code points of a string put it together again. -/
structure PutsTogether (s : Text) (points : List Char) : Prop where
  len : utf8Len s = points.length
  joined : ∃ parts, split s [] = some parts ∧ join parts [] = some s
  each : ∀ (i : Nat) c, points[i]? = some c → chr (ordAt s i) = encode c
  slices : ∀ i j : Nat, i ≤ j → j ≤ utf8Len s →
    utf8Slice s 0 i 1 ++ utf8Slice s i j 1 ++ utf8Slice s j (utf8Len s) 1 = s

/-- What is promised of the code points of a string. -/
structure Reassembles (s : Text) : Prop where
  valid : utf8Valid s = true ↔ WellFormed s
  points : ∀ points : List Char, s = points.flatMap encode → PutsTogether s points

theorem putsTogether (whole : s = points.flatMap encode) (zero : 0 ∉ s) :
    PutsTogether s points := by
  refine ⟨utf8Len_eq whole, ⟨_, split_nil whole, ?_⟩, ?_, ?_⟩
  · rw [join_nil, texts_flatten whole zero (List.Subset.refl _), ← whole]
  · intro i c found
    rw [ordAt_eq whole found, chr_eq_encode_iff]
    intro inside
    refine zero ?_
    rw [whole]
    exact List.mem_flatMap.mpr ⟨c, List.mem_of_getElem? found, inside⟩
  · intro i j order inside
    rw [utf8Len_eq whole] at inside ⊢
    have first := utf8Slice_clean whole zero (Nat.zero_le i) (Nat.le_trans order inside)
    have second := utf8Slice_clean whole zero order inside
    have third := utf8Slice_clean whole zero inside (Nat.le_refl _)
    rw [Nat.sub_zero, List.drop_zero] at first
    rw [show ((0 : Nat) : Int) = 0 from rfl] at first
    rw [first, second, third, ← List.flatMap_append, ← List.flatMap_append]
    refine Eq.trans (congrArg _ ?_) whole.symm
    -- The three ranges are those of the list itself.
    rw [List.take_of_length_le (Nat.le_of_eq List.length_drop), List.append_assoc]
    have rest := List.take_append_drop (j - i) (points.drop i)
    rw [List.drop_drop, Nat.add_sub_cancel' order] at rest
    rw [rest, List.take_append_drop]

/-- The code points of a string put it together if and only if none of them is zero. -/
theorem reassembles_iff (s : Text) : Reassembles s ↔ (utf8Valid s = true → 0 ∉ s) := by
  constructor
  · intro all valid member
    obtain ⟨points, whole⟩ := utf8Valid_iff.mp valid
    have together := all.points points whole
    rw [whole] at member
    obtain ⟨c, inside, zero⟩ := List.mem_flatMap.mp member
    obtain ⟨i, found⟩ := List.mem_iff_getElem?.mp inside
    -- The text of a zero code point is empty.
    have same := together.each i c found
    rw [ordAt_eq whole found, chr_eq_encode_iff] at same
    exact same zero
  · intro clean
    exact ⟨utf8Valid_iff, fun points whole =>
      putsTogether whole (clean (utf8Valid_iff.mpr ⟨points, whole⟩))⟩

/-- A string of one zero byte is valid, and is lost when it is split and joined. -/
theorem reassembles_fails : utf8Valid [0] = true ∧ ¬Reassembles [0] ∧
    (split [0] []).bind (join · []) = some [] := by
  have whole : ([0] : Text) = [Char.ofNat 0].flatMap encode := by decide
  have valid : utf8Valid [0] = true := utf8Valid_iff.mpr ⟨_, whole⟩
  refine ⟨valid, ?_, ?_⟩
  · rw [reassembles_iff]
    exact fun clean => clean valid (by decide)
  · rw [split_nil whole, Option.bind_some, join_nil]
    decide

end Points

end Nytrix.Str
