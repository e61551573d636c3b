import Mathlib.Data.List.GetD
import Nytrix.Parse.Numbers
import Nytrix.Parse.StringsLaws

/-! Number spellings: where the parser splits them, what it stores and what it reports. -/

-- What holds of all members of a list is decided member by member.
attribute [local instance (2000)] List.decidableBAll

namespace Nytrix.Parse

open Nytrix.Types (nm ch)

/-- The ways to write an integer. -/
inductive Radix where
  | decimal | hex | binary | octal
  deriving DecidableEq

/-- The base of the digits. -/
def Radix.base : Radix → Nat
  | .decimal => 10
  | .hex => 16
  | .binary => 2
  | .octal => 8

/-- Whether a byte is a digit. -/
def Radix.digit : Radix → UInt8 → Bool
  | .decimal => isDigit
  | .hex => nyIsXdigit
  | .binary => nyIsBindigit
  | .octal => nyIsOctdigit

/-- The texts before the digits. -/
def Radix.heads : Radix → List (List UInt8)
  | .decimal => [[]]
  | .hex => [nm "0x", nm "0X"]
  | .binary => [nm "0b", nm "0B"]
  | .octal => [nm "0o", nm "0O"]

/-- The spelling of an integer: a head, digits with separators, a mark, and a suffix. -/
structure Spelling where
  radix : Radix
  head : List UInt8
  digits : List UInt8
  mark : List UInt8
  suffix : List UInt8
  deriving DecidableEq

/-- Digits of a radix with separators between them. -/
structure Separated (digit : UInt8 → Bool) (text : List UInt8) : Prop where
  all : ∀ c ∈ text, digit c = true ∨ c = ch '_'
  closed : text.getLast? ≠ some (ch '_')

namespace Spelling

/-- The text of a spelling. -/
def text (s : Spelling) : List UInt8 := s.head ++ (s.digits ++ (s.mark ++ s.suffix))

/-- The digits without their separators. -/
def pure (s : Spelling) : List UInt8 := s.digits.filter (· ≠ ch '_')

/-- The value of the digits in their base. -/
def value (s : Spelling) : Nat :=
  s.pure.foldl (fun value c => value * s.radix.base + (digitValue 16 c).getD 0) 0

/-- A spelling as the lexer takes one. -/
structure Valid (s : Spelling) : Prop where
  heads : s.head ∈ s.radix.heads
  digits : Separated s.radix.digit s.digits
  some_digit : s.radix ≠ .hex → ∃ d rest, s.digits = d :: rest ∧ s.radix.digit d = true
  mark : s.mark = [] ∨ s.mark = [ch '_']
  suffix : s.suffix = [] ∨ ∃ letter d tail, s.suffix = letter :: d :: tail ∧
    nyNumberSuffixLetter letter (s.radix ≠ .hex) = true ∧ isDigit d = true ∧
    Separated isDigit (d :: tail)

/-- The suffix is not one that names a type. -/
def Unknown (s : Spelling) : Prop := s.suffix ≠ [] ∧ suffixHint s.suffix = none

end Spelling

/-- The largest integer of a type. -/
def hintMax : LitTypeHint → Option Nat
  | .i8 => some (2 ^ 7 - 1)
  | .i16 => some (2 ^ 15 - 1)
  | .i32 => some (2 ^ 31 - 1)
  | .i64 => some (2 ^ 63 - 1)
  | .i128 => some (2 ^ 127 - 1)
  | .u8 => some (2 ^ 8 - 1)
  | .u16 => some (2 ^ 16 - 1)
  | .u32 => some (2 ^ 32 - 1)
  | .u64 => some (2 ^ 64 - 1)
  | .u128 => some (2 ^ 128 - 1)
  | _ => none

section Splitting

variable {s front tail : List UInt8} {letter : UInt8}

theorem numericSuffixStart_none
    (free : ∀ c ∈ s, isDigit c = true ∨ nyNumberSuffixLetter c true = false ∨
      (isHex s = true ∧ (c = ch 'f' ∨ c = ch 'F'))) :
    numericSuffixStart s = none := by
  rw [numericSuffixStart]
  simp only
  split
  · rfl
  · next long =>
    simp only [Bool.or_eq_true, decide_eq_true_eq, not_or] at long
    -- The byte before the digits at the end is one of the text, and no digit.
    have some_text : s.rdropWhile isDigit ≠ [] := fun nil => long.2 (by rw [nil]; rfl)
    obtain ⟨digits, whole⟩ := List.rdropWhile_prefix isDigit s
    have inside : (s.rdropWhile isDigit).length - 1 < (s.rdropWhile isDigit).length := by
      have length := List.length_pos_iff.mpr some_text
      omega
    have last : s.getD ((s.rdropWhile isDigit).length - 1) 0 =
        (s.rdropWhile isDigit).getLast some_text :=
      calc s.getD ((s.rdropWhile isDigit).length - 1) 0
          = (s.rdropWhile isDigit ++ digits).getD ((s.rdropWhile isDigit).length - 1) 0 := by
            rw [whole]
        _ = (s.rdropWhile isDigit).getLast some_text := by
            rw [List.getD_append _ _ _ _ inside, List.getD_eq_getElem _ _ inside,
              List.getLast_eq_getElem]
    have member : (s.rdropWhile isDigit).getLast some_text ∈ s :=
      (List.rdropWhile_prefix isDigit s).subset (List.getLast_mem some_text)
    have other := List.rdropWhile_last_not isDigit s some_text
    rw [last]
    rcases free _ member with digit | letter | ⟨hex, f⟩
    · exact absurd digit other
    · simp [letter]
    · simp [hex, f]

theorem rdropWhile_tail (all : ∀ c ∈ tail, isDigit c = true) (other : isDigit letter = false) :
    (front ++ letter :: tail).rdropWhile isDigit = front ++ [letter] := by
  have front_all : ∀ c ∈ tail.reverse, isDigit c = true := by simpa using all
  rw [List.rdropWhile, List.reverse_append, List.reverse_cons, List.append_assoc,
    List.dropWhile_append_of_pos front_all]
  simp [other]

/-- The letters that may begin a suffix. -/
def suffixLetters : List UInt8 := [ch 'i', ch 'I', ch 'u', ch 'U', ch 'f', ch 'F']

theorem mem_suffixLetters {float : Bool} (isLetter : nyNumberSuffixLetter letter float = true) :
    letter ∈ suffixLetters := by
  simp only [nyNumberSuffixLetter, Bool.or_eq_true, Bool.and_eq_true, decide_eq_true_eq]
    at isLetter
  simp only [suffixLetters, List.mem_cons, List.not_mem_nil, or_false]
  tauto

theorem suffixLetter_spec {float : Bool} (isLetter : nyNumberSuffixLetter letter float = true) :
    isDigit letter = false ∧ letter ≠ ch '_' ∧ letter ≠ ch 'x' ∧ letter ≠ ch 'X' ∧
      letter ≠ ch 'b' ∧ letter ≠ ch 'B' ∧ letter ≠ ch 'o' ∧ letter ≠ ch 'O' ∧
      letter ≠ ch '.' ∧ letter ≠ ch 'e' ∧ letter ≠ ch 'E' := by
  have among := mem_suffixLetters isLetter
  clear isLetter
  revert letter
  decide

theorem numericSuffixStart_letter (isLetter : nyNumberSuffixLetter letter true = true)
    (some_digit : tail ≠ []) (all : ∀ c ∈ tail, isDigit c = true)
    (plain : isHex (front ++ letter :: tail) = true → letter ≠ ch 'f' ∧ letter ≠ ch 'F') :
    numericSuffixStart (front ++ letter :: tail) =
      some (if 0 < front.length && front.getD (front.length - 1) 0 = ch '_'
        then front.length - 1 else front.length, front.length) := by
  have digits := @rdropWhile_tail front tail letter all (suffixLetter_spec isLetter).1
  have length := List.length_pos_iff.mpr some_digit
  have here : (front ++ letter :: tail).getD front.length 0 = letter := by
    rw [List.getD_append_right _ _ _ _ (Nat.le_refl _), Nat.sub_self, List.getD_cons_zero]
  have place : (front ++ [letter]).length - 1 = front.length := by simp
  have size : (front ++ letter :: tail).length = front.length + (tail.length + 1) := by simp
  have inside : ¬ ((decide ((front ++ letter :: tail).length < 2) ||
      decide ((front ++ [letter]).length = (front ++ letter :: tail).length) ||
      decide ((front ++ [letter]).length = 0)) = true) := by
    simp only [size, List.length_append, List.length_singleton, Bool.or_eq_true,
      decide_eq_true_eq]
    omega
  have kept : ¬ ((isHex (front ++ letter :: tail) &&
      (decide (letter = ch 'f') || decide (letter = ch 'F'))) = true) := by
    simp only [Bool.and_eq_true, Bool.or_eq_true, decide_eq_true_eq]
    rintro ⟨hex, f⟩
    have other := plain hex
    tauto
  rw [numericSuffixStart]
  simp only [digits, place, here, isLetter, Bool.not_true, Bool.false_eq_true, if_false]
  rw [if_neg inside, if_neg kept]
  -- What is before the letter is before it in the text.
  by_cases empty : front = []
  · simp [empty]
  · have before := List.length_pos_iff.mpr empty
    rw [List.getD_append _ _ _ _ (by omega)]

theorem numericSuffixStart_separator (all : ∀ c ∈ tail, isDigit c = true) :
    numericSuffixStart (front ++ ch '_' :: tail) = none := by
  have digits := @rdropWhile_tail front tail (ch '_') all (by decide)
  have here : (front ++ ch '_' :: tail).getD front.length 0 = ch '_' := by
    rw [List.getD_append_right _ _ _ _ (Nat.le_refl _), Nat.sub_self, List.getD_cons_zero]
  have place : (front ++ [ch '_']).length - 1 = front.length := by simp
  rw [numericSuffixStart]
  simp only [digits, place, here]
  split
  · rfl
  · rw [if_pos (by decide)]

end Splitting

section Digits

variable {base acc : Nat} {digits rest : List UInt8} {c : UInt8}

theorem toNat_between {low high : UInt8} (between : (low ≤ c && c ≤ high) = true) :
    low.toNat ≤ c.toNat ∧ c.toNat ≤ high.toNat := by
  simpa [UInt8.le_iff_toNat_le] using between

theorem digitValue_isDigit (digit : isDigit c = true) :
    digitValue 16 c = some (c.toNat - 48) ∧ 48 ≤ c.toNat ∧ c.toNat ≤ 57 := by
  have range : 48 ≤ c.toNat ∧ c.toNat ≤ 57 := toNat_between digit
  refine ⟨?_, range⟩
  simp only [digitValue, digit, if_true]
  rw [if_pos (by omega)]

theorem Radix.digit_value {radix : Radix} (digit : radix.digit c = true) :
    ∃ value, digitValue 16 c = some value ∧ value < radix.base := by
  cases radix with
  | decimal =>
    obtain ⟨value, range⟩ := digitValue_isDigit digit
    exact ⟨_, value, show c.toNat - 48 < 10 by omega⟩
  | hex =>
    have sixteen : Radix.hex.base = 16 := rfl
    rw [sixteen]
    simp only [Radix.digit, nyIsXdigit] at digit
    cases decimal : isDigit c with
    | true =>
      obtain ⟨value, range⟩ := digitValue_isDigit decimal
      exact ⟨_, value, by omega⟩
    | false =>
      cases upper : (ch 'A' ≤ c && c ≤ ch 'F') with
      | true =>
        have range : 65 ≤ c.toNat ∧ c.toNat ≤ 70 := toNat_between upper
        refine ⟨c.toNat - 55, ?_, by omega⟩
        simp only [digitValue, decimal, upper, if_true, Bool.false_eq_true, if_false]
        rw [if_pos (by omega)]
      | false =>
        rw [decimal, upper, Bool.false_or, Bool.false_or] at digit
        have range : 97 ≤ c.toNat ∧ c.toNat ≤ 102 := toNat_between digit
        refine ⟨c.toNat - 87, ?_, by omega⟩
        simp only [digitValue, decimal, upper, digit, if_true, Bool.false_eq_true, if_false]
        rw [if_pos (by omega)]
  | binary =>
    simp only [Radix.digit, nyIsBindigit, Bool.or_eq_true, decide_eq_true_eq] at digit
    rcases digit with rfl | rfl
    · exact ⟨0, by decide, by decide⟩
    · exact ⟨1, by decide, by decide⟩
  | octal =>
    have range : 48 ≤ c.toNat ∧ c.toNat ≤ 55 := toNat_between digit
    exact ⟨_, (octdigit_value digit).2, show c.toNat - 48 < 8 by omega⟩

/-- The value that digits make up behind those that come first. -/
def valueFrom (base acc : Nat) (digits : List UInt8) : Nat :=
  digits.foldl (fun value c => value * base + (digitValue 16 c).getD 0) acc

theorem le_valueFrom (positive : 0 < base) : acc ≤ valueFrom base acc digits := by
  induction digits generalizing acc with
  | nil => exact Nat.le_refl acc
  | cons c digits ih =>
    have step : acc ≤ acc * base + (digitValue 16 c).getD 0 :=
      Nat.le_trans (Nat.le_mul_of_pos_right acc positive) (Nat.le_add_right _ _)
    exact Nat.le_trans step ih

theorem parseDigits_append (positive : 0 < base) (bounded : base ≤ 16)
    (all : ∀ c ∈ digits, ∃ value, digitValue 16 c = some value ∧ value < base)
    (small : acc < 2 ^ 64) :
    parseDigits base acc (digits ++ rest) =
      if valueFrom base acc digits < 2 ^ 64 then parseDigits base (valueFrom base acc digits) rest
      else .outOfRange := by
  induction digits generalizing acc with
  | nil => rw [valueFrom, List.foldl_nil, if_pos small, List.nil_append]
  | cons c digits ih =>
    obtain ⟨value, digit, less⟩ := all c List.mem_cons_self
    have next : valueFrom base acc (c :: digits) = valueFrom base (acc * base + value) digits := by
      rw [valueFrom, List.foldl_cons, digit]
      rfl
    rw [List.cons_append, parseDigits, numericDigitValue, digit, next]
    simp only
    rw [if_neg (by omega)]
    -- The test for too large a value compares before it multiplies.
    have exact_test : (2 ^ 64 - 1 - value) / base < acc ↔ 2 ^ 64 - 1 - value < acc * base :=
      Nat.div_lt_iff_lt_mul positive
    by_cases large : 2 ^ 64 ≤ acc * base + value
    · have more := @le_valueFrom base (acc * base + value) digits positive
      rw [if_pos (exact_test.mpr (by omega)), if_neg (by omega)]
    · rw [if_neg fun test => by have := exact_test.mp test; omega]
      exact ih (fun d member => all d (List.mem_cons_of_mem c member)) (by omega)

end Digits

namespace Spelling

variable {s : Spelling} {rest : List UInt8}

theorem Valid.pure_digit (valid : s.Valid) {c : UInt8} (member : c ∈ s.pure) :
    s.radix.digit c = true := by
  obtain ⟨here, other⟩ := List.mem_filter.mp member
  rcases valid.digits.all c here with digit | separator
  · exact digit
  · exact absurd separator (by simpa using other)

theorem separator_no_digit (radix : Radix) : radix.digit (ch '_') = false := by
  cases radix <;> rfl

theorem Valid.pure_cons (valid : s.Valid) (other : s.radix ≠ .hex) :
    ∃ d digits, s.pure = d :: digits := by
  obtain ⟨d, digits, first, digit⟩ := valid.some_digit other
  refine ⟨d, digits.filter (· ≠ ch '_'), ?_⟩
  rw [pure, first, List.filter_cons_of_pos]
  simp only [decide_eq_true_eq]
  rintro rfl
  exact absurd digit (by rw [separator_no_digit]; decide)

theorem digit_no_base {c : UInt8} (digit : isDigit c = true) :
    c ≠ ch 'x' ∧ c ≠ ch 'X' ∧ c ≠ ch 'b' ∧ c ≠ ch 'B' ∧ c ≠ ch 'o' ∧ c ≠ ch 'O' := by
  refine ⟨?_, ?_, ?_, ?_, ?_, ?_⟩ <;>
    · rintro rfl
      revert digit
      decide

/-- What stands behind the digits of a number: nothing, or a letter that may begin a suffix. -/
def Ends (s : Spelling) (rest : List UInt8) : Prop :=
  rest = [] ∨ ∃ letter tail, rest = letter :: tail ∧
    nyNumberSuffixLetter letter (s.radix ≠ .hex) = true

theorem parseDigits_letter {radix : Radix} {letter : UInt8} {tail : List UInt8} (acc : Nat)
    (isLetter : nyNumberSuffixLetter letter (radix ≠ .hex) = true) :
    parseDigits radix.base acc (letter :: tail) = .malformed := by
  have cases : digitValue 16 letter = none ∨
      (digitValue 16 letter = some 15 ∧ radix ≠ .hex) := by
    simp only [nyNumberSuffixLetter, Bool.or_eq_true, Bool.and_eq_true, decide_eq_true_eq]
      at isLetter
    rcases isLetter with (((rfl | rfl) | rfl) | rfl) | ⟨other, rfl | rfl⟩
    · exact .inl (by decide)
    · exact .inl (by decide)
    · exact .inl (by decide)
    · exact .inl (by decide)
    · exact .inr ⟨by decide, other⟩
    · exact .inr ⟨by decide, other⟩
  rw [parseDigits, numericDigitValue]
  rcases cases with none | ⟨fifteen, other⟩
  · rw [none]
  · have small : radix.base ≤ 15 := by
      cases radix with
      | hex => exact absurd rfl other
      | decimal => decide
      | binary => decide
      | octal => decide
    rw [fifteen]
    exact if_pos small

theorem integerBase_head (x : UInt8) (body : List UInt8) :
    Parse.integerBase (ch '0' :: x :: body) =
      if body = [] then (10, 0)
      else if x = ch 'x' || x = ch 'X' then (16, 2)
      else if x = ch 'b' || x = ch 'B' then (2, 2)
      else if x = ch 'o' || x = ch 'O' then (8, 2)
      else (10, 0) := by
  cases body with
  | nil => rfl
  | cons c body => simp [Parse.integerBase]

theorem integerBase_decimal {text : List UInt8}
    (second : ∀ x ∈ [ch 'x', ch 'X', ch 'b', ch 'B', ch 'o', ch 'O'], text.getD 1 0 ≠ x) :
    Parse.integerBase text = (10, 0) := by
  simp only [List.mem_cons, List.not_mem_nil, or_false, forall_eq_or_imp, forall_eq] at second
  obtain ⟨x, x', b, b', o, o'⟩ := second
  simp only [Parse.integerBase, x, x', b, b', o, o', decide_false, Bool.or_false,
    Bool.false_eq_true, if_false, ite_self]

theorem Valid.integerBase (valid : s.Valid) (ends : s.Ends rest) :
    integerBase (s.head ++ (s.pure ++ rest)) =
      if s.pure ++ rest = [] then (10, 0) else (s.radix.base, s.head.length) := by
  have heads := valid.heads
  cases radix : s.radix with
  | decimal =>
    have none : s.head = [] := by simpa [radix, Radix.heads] using heads
    obtain ⟨d, digits, first⟩ := valid.pure_cons (by simp [radix])
    rw [none, first, List.nil_append, if_neg (by simp)]
    refine integerBase_decimal fun x among => ?_
    -- Behind a digit there is a digit, or a letter that names no base.
    show (digits ++ rest).getD 0 0 ≠ x
    have no_base {c : UInt8} (other : c ≠ ch 'x' ∧ c ≠ ch 'X' ∧ c ≠ ch 'b' ∧ c ≠ ch 'B' ∧
        c ≠ ch 'o' ∧ c ≠ ch 'O') : c ≠ x := by
      simp only [List.mem_cons, List.not_mem_nil, or_false] at among
      rcases among with rfl | rfl | rfl | rfl | rfl | rfl <;> tauto
    cases digits with
    | cons e digits =>
      have digit := @Valid.pure_digit s valid e (by simp [first])
      rw [radix] at digit
      exact no_base (digit_no_base digit)
    | nil =>
      rcases ends with rfl | ⟨letter, tail, rfl, isLetter⟩
      · exact no_base (by decide)
      · obtain ⟨-, -, x, x', b, b', o, o', -⟩ := suffixLetter_spec isLetter
        exact no_base ⟨x, x', b, b', o, o'⟩
  | hex =>
    rw [radix] at heads
    rcases List.mem_pair.mp heads with head | head <;>
      · rw [head]
        exact integerBase_head _ _
  | binary =>
    rw [radix] at heads
    rcases List.mem_pair.mp heads with head | head <;>
      · rw [head]
        exact integerBase_head _ _
  | octal =>
    rw [radix] at heads
    rcases List.mem_pair.mp heads with head | head <;>
      · rw [head]
        exact integerBase_head _ _

theorem base_range (radix : Radix) : 0 < radix.base ∧ radix.base ≤ 16 := by
  cases radix <;> decide

theorem Valid.parseInteger (valid : s.Valid) (ends : s.Ends rest) :
    parseIntegerLiteralU64 (s.head ++ (s.pure ++ rest)) =
      if s.pure = [] then .malformed
      else if 2 ^ 64 ≤ s.value then .outOfRange
      else if rest = [] then .done s.value else .malformed := by
  rw [parseIntegerLiteralU64, valid.integerBase ends]
  by_cases nothing : s.pure ++ rest = []
  · -- The head alone is no number.
    obtain ⟨none, rfl⟩ := List.append_eq_nil_iff.mp nothing
    rw [if_pos nothing, if_pos none, none]
    have hex : s.radix = .hex := by
      by_contra other
      obtain ⟨d, digits, first⟩ := valid.pure_cons other
      rw [none] at first
      cases first
    have heads := valid.heads
    rw [hex] at heads
    rcases List.mem_pair.mp heads with head | head
    · rw [head]
      decide
    · rw [head]
      decide
  · rw [if_neg nothing]
    have positive := (base_range s.radix).1
    have small := (base_range s.radix).2
    have long : ¬ (s.head ++ (s.pure ++ rest)).length ≤ s.head.length := by
      have length := List.length_pos_iff.mpr nothing
      rw [List.length_append]
      omega
    have read := @parseDigits_append s.radix.base 0 s.pure rest positive small
      (fun c member => Radix.digit_value (valid.pure_digit member)) (by omega)
    simp only
    rw [if_neg long, List.drop_left, read]
    show (if s.value < 2 ^ 64 then parseDigits s.radix.base s.value rest else .outOfRange) = _
    by_cases large : 2 ^ 64 ≤ s.value
    · -- Without digits the value is zero.
      have some_digit : s.pure ≠ [] := by
        intro none
        rw [value, none] at large
        exact absurd large (show ¬ 2 ^ 64 ≤ 0 by decide)
      rw [if_neg (Nat.not_lt.mpr large), if_neg some_digit, if_pos large]
    · rw [if_pos (Nat.not_le.mp large), if_neg large]
      rcases ends with rfl | ⟨letter, tail, rfl, isLetter⟩
      · have some_digit : s.pure ≠ [] := by simpa using nothing
        rw [if_neg some_digit, if_pos rfl]
        rfl
      · rw [parseDigits_letter _ isLetter, if_neg (List.cons_ne_nil letter tail), ite_self]

theorem Valid.head_byte (valid : s.Valid) {c : UInt8} (member : c ∈ s.head) :
    nyNumberSuffixLetter c true = false ∧ c ≠ ch '_' := by
  have all : ∀ radix ∈ [Radix.decimal, .hex, .binary, .octal], ∀ head ∈ radix.heads, ∀ c ∈ head,
      nyNumberSuffixLetter c true = false ∧ c ≠ ch '_' := by decide
  refine all s.radix ?_ s.head valid.heads c member
  cases s.radix <;> simp

theorem digit_suffixLetter {radix : Radix} {c : UInt8} (digit : radix.digit c = true)
    (isLetter : nyNumberSuffixLetter c true = true) : radix = .hex ∧ (c = ch 'f' ∨ c = ch 'F') := by
  have all : ∀ c ∈ suffixLetters,
      isDigit c = false ∧ nyIsBindigit c = false ∧ nyIsOctdigit c = false ∧
        (nyIsXdigit c = true → c = ch 'f' ∨ c = ch 'F') := by decide
  obtain ⟨decimal, binary, octal, hex⟩ := all c (mem_suffixLetters isLetter)
  cases radix with
  | decimal => exact absurd digit (by simp [Radix.digit, decimal])
  | hex => exact ⟨rfl, hex digit⟩
  | binary => exact absurd digit (by simp [Radix.digit, binary])
  | octal => exact absurd digit (by simp [Radix.digit, octal])

theorem Valid.isHex_iff (valid : s.Valid) : isHex s.text = true ↔ s.radix = .hex := by
  have heads := valid.heads
  have two {x : UInt8} (body : List UInt8) :
      isHex (ch '0' :: x :: body) = (decide (x = ch 'x') || decide (x = ch 'X')) := by
    simp [isHex]
  rw [text]
  cases radix : s.radix with
  | decimal =>
    refine iff_of_false ?_ (by decide)
    have none : s.head = [] := by simpa [radix, Radix.heads] using heads
    obtain ⟨d, digits, first, -⟩ := valid.some_digit (by simp [radix])
    rw [none, first, List.nil_append]
    -- The second byte is a digit, a separator, or a letter that begins a suffix.
    have second : ∀ x ∈ [ch 'x', ch 'X'], (digits ++ (s.mark ++ s.suffix)).getD 0 0 ≠ x := by
      cases digits with
      | cons e digits =>
        rcases valid.digits.all e (by simp [first]) with digit | rfl
        · rw [radix] at digit
          have other := digit_no_base digit
          simpa using ⟨other.1, other.2.1⟩
        · simp [ch]
      | nil =>
        rcases valid.mark with mark | mark
        · rcases valid.suffix with none | ⟨letter, d, tail, suffix, isLetter, -⟩
          · rw [mark, none]
            decide
          · have other := suffixLetter_spec isLetter
            rw [mark, suffix]
            simpa using ⟨other.2.2.1, other.2.2.2.1⟩
        · rw [mark]
          simp [ch]
    simp only [List.mem_cons, List.not_mem_nil, or_false, forall_eq_or_imp, forall_eq] at second
    simp only [isHex, List.cons_append, List.getD_cons_succ, second.1, second.2, decide_false,
      Bool.or_false, Bool.and_false]
    decide
  | hex =>
    refine iff_of_true ?_ rfl
    rw [radix] at heads
    rcases List.mem_pair.mp heads with head | head <;>
      · rw [head]
        exact two _
  | binary =>
    refine iff_of_false ?_ (by decide)
    rw [radix] at heads
    rcases List.mem_pair.mp heads with head | head <;>
      · rw [head]
        exact ne_of_eq_of_ne (two _) (by decide)
  | octal =>
    refine iff_of_false ?_ (by decide)
    rw [radix] at heads
    rcases List.mem_pair.mp heads with head | head <;>
      · rw [head]
        exact ne_of_eq_of_ne (two _) (by decide)

theorem Valid.front_free (valid : s.Valid) {c : UInt8}
    (member : c ∈ s.head ++ (s.digits ++ s.mark)) :
    nyNumberSuffixLetter c true = false ∨ (isHex s.text = true ∧ (c = ch 'f' ∨ c = ch 'F')) := by
  rcases List.mem_append.mp member with head | behind
  · exact .inl (valid.head_byte head).1
  rcases List.mem_append.mp behind with digit | mark
  · cases letter : nyNumberSuffixLetter c true with
    | false => exact .inl rfl
    | true =>
      rcases valid.digits.all c digit with digit | rfl
      · obtain ⟨hex, f⟩ := digit_suffixLetter digit letter
        exact .inr ⟨valid.isHex_iff.mpr hex, f⟩
      · exact absurd letter (by decide)
  · rcases valid.mark with none | one
    · rw [none] at mark
      exact absurd mark List.not_mem_nil
    · rw [one, List.mem_singleton] at mark
      subst mark
      exact .inl (by decide)

theorem Valid.front_closed (valid : s.Valid) :
    (s.head ++ s.digits).getLast? ≠ some (ch '_') := by
  cases digits : s.digits with
  | nil =>
    rw [List.append_nil]
    intro last
    exact (valid.head_byte (List.mem_of_getLast? last)).2 rfl
  | cons d rest =>
    rw [List.getLast?_append_of_ne_nil _ (List.cons_ne_nil d rest), ← digits]
    exact valid.digits.closed

theorem Valid.value_end (valid : s.Valid) :
    (if 0 < (s.head ++ (s.digits ++ s.mark)).length &&
        (s.head ++ (s.digits ++ s.mark)).getD
          ((s.head ++ (s.digits ++ s.mark)).length - 1) 0 = ch '_'
      then (s.head ++ (s.digits ++ s.mark)).length - 1
      else (s.head ++ (s.digits ++ s.mark)).length) = s.head.length + s.digits.length := by
  rw [List.getD_eq_getElem?_getD, ← List.getLast?_eq_getElem?]
  rcases valid.mark with none | one
  · rw [none, List.append_nil, if_neg, List.length_append]
    simp only [Bool.and_eq_true, decide_eq_true_eq, not_and]
    intro _ separator
    cases last : (s.head ++ s.digits).getLast? with
    | none =>
      rw [last] at separator
      exact absurd separator (by decide)
    | some c =>
      rw [last, Option.getD_some] at separator
      exact valid.front_closed (last.trans (congrArg some separator))
  · have long : 0 < (s.head ++ s.digits ++ [ch '_']).length := by
      rw [List.length_append, List.length_singleton]
      omega
    rw [one, ← List.append_assoc, List.getLast?_concat, Option.getD_some, 
      if_pos (by simp only [long, decide_true, Bool.and_self])]
    simp

/-- Where the parser splits a spelling. -/
theorem Valid.numericSuffixStart (valid : s.Valid) :
    numericSuffixStart s.text =
      if s.suffix = [] ∨ ch '_' ∈ s.suffix then none
      else some (s.head.length + s.digits.length,
        s.head.length + s.digits.length + s.mark.length) := by
  have whole : s.text = (s.head ++ (s.digits ++ s.mark)) ++ s.suffix := by
    simp only [text, List.append_assoc]
  rcases valid.suffix with none | ⟨letter, d, tail, suffix, isLetter, digit, separated⟩
  · -- Without a suffix there is no letter to split at.
    rw [if_pos (.inl none)]
    refine numericSuffixStart_none fun c member => .inr ?_
    rw [whole, none, List.append_nil] at member
    exact valid.front_free member
  · have letter_spec := suffixLetter_spec isLetter
    by_cases split : ch '_' ∈ s.suffix
    · -- The last separator of the suffix ends the search.
      rw [if_pos (.inr split)]
      have inside : ch '_' ∈ (d :: tail).reverse := by
        rw [suffix] at split
        rw [List.mem_reverse]
        exact (List.mem_cons.mp split).resolve_left letter_spec.2.1.symm
      obtain ⟨last, before, both, none⟩ := List.eq_append_cons_of_mem inside
      have parts : d :: tail = before.reverse ++ ch '_' :: last.reverse := by
        rw [← List.reverse_reverse (d :: tail), both, List.reverse_append, List.reverse_cons]
        simp
      have all : ∀ c ∈ last.reverse, isDigit c = true := by
        intro c member
        have here : c ∈ d :: tail := by
          rw [parts]
          simp only [List.mem_append, List.mem_cons]
          exact .inr (.inr member)
        refine (separated.all c here).resolve_right ?_
        rintro rfl
        exact none (List.mem_reverse.mp member)
      rw [whole, suffix, parts, ← List.cons_append, ← List.append_assoc]
      exact numericSuffixStart_separator all
    · -- Digits stand behind the letter up to the end.
      have other : ¬ (s.suffix = [] ∨ ch '_' ∈ s.suffix) := by
        rintro (none | separator)
        · exact absurd (suffix.symm.trans none) (List.cons_ne_nil _ _)
        · exact split separator
      have all : ∀ c ∈ d :: tail, isDigit c = true := by
        intro c member
        refine (separated.all c member).resolve_right ?_
        rintro rfl
        exact split (suffix ▸ List.mem_cons_of_mem letter member)
      have wide : nyNumberSuffixLetter letter true = true := by
        simp only [nyNumberSuffixLetter, Bool.or_eq_true, Bool.and_eq_true] at isLetter ⊢
        tauto
      have plain : Parse.isHex s.text = true → letter ≠ ch 'f' ∧ letter ≠ ch 'F' := by
        intro hex
        have radix := valid.isHex_iff.mp hex
        constructor
        · rintro rfl
          exact absurd isLetter (by rw [radix]; decide)
        · rintro rfl
          exact absurd isLetter (by rw [radix]; decide)
      rw [if_neg other]
      rw [whole, suffix] at plain ⊢
      rw [numericSuffixStart_letter wide (List.cons_ne_nil d tail) all plain, valid.value_end]
      simp only [List.length_append, Nat.add_assoc]

theorem suffixHint_no_separator {suffix : List UInt8} (known : suffixHint suffix ≠ none) :
    ch '_' ∉ suffix ∧ suffix ≠ [] := by
  obtain ⟨hint, found⟩ := Option.ne_none_iff_exists'.mp known
  obtain ⟨entry, first, -⟩ := Option.map_eq_some_iff.mp found
  have same : suffix.map toLower = nm entry.1 := by simpa [suffixEq] using List.find?_some first
  have all : ∀ entry ∈ numericSuffixes, ch '_' ∉ nm entry.1 ∧ nm entry.1 ≠ [] := by decide
  obtain ⟨separator, some_text⟩ := all entry (List.mem_of_find?_eq_some first)
  refine ⟨fun member => separator ?_, ?_⟩
  · rw [← same]
    exact List.mem_map.mpr ⟨ch '_', member, by decide⟩
  · rintro rfl
    exact some_text same.symm

theorem Valid.parseNumericSuffix (valid : s.Valid) :
    parseNumericSuffix s.text =
      match suffixHint s.suffix with
      | some hint => ⟨true, s.head.length + s.digits.length, hint, true⟩
      | none => ⟨s.suffix = [] || (ch '_' ∈ s.suffix : Bool), s.text.length, .none, false⟩ := by
  have split := valid.numericSuffixStart
  have whole : s.text = (s.head ++ (s.digits ++ s.mark)) ++ s.suffix := by
    simp only [text, List.append_assoc]
  have dropped : s.text.drop (s.head.length + s.digits.length + s.mark.length) = s.suffix := by
    rw [whole]
    exact List.drop_left' (by simp only [List.length_append, Nat.add_assoc])
  rw [Parse.parseNumericSuffix, split]
  cases known : suffixHint s.suffix with
  | some hint =>
    obtain ⟨separator, some_text⟩ := @suffixHint_no_separator s.suffix (by simp [known])
    rw [if_neg (by simp [separator, some_text])]
    simp only [dropped, known]
  | none =>
    by_cases none : s.suffix = [] ∨ ch '_' ∈ s.suffix
    · rw [if_pos none]
      have ok : (decide (s.suffix = []) || decide (ch '_' ∈ s.suffix)) = true := by simpa using none
      simp only [ok]
    · rw [if_neg none]
      have ok : (decide (s.suffix = []) || decide (ch '_' ∈ s.suffix)) = false := by
        simpa using none
      simp only [dropped, known, ok]

/-- The suffix without its separators. -/
def plainSuffix (s : Spelling) : List UInt8 := s.suffix.filter (· ≠ ch '_')

theorem Valid.plainSuffix_spec (valid : s.Valid) :
    s.Ends s.plainSuffix ∧ (s.plainSuffix = [] ↔ s.suffix = []) ∧
      ∀ c ∈ s.plainSuffix, isDigit c = true ∨ nyNumberSuffixLetter c true = true := by
  rcases valid.suffix with none | ⟨letter, d, tail, suffix, isLetter, -, separated⟩
  · have plain : s.plainSuffix = [] := by rw [plainSuffix, none, List.filter_nil]
    rw [plain]
    exact ⟨.inl rfl, by simp [none], fun c member => absurd member List.not_mem_nil⟩
  · have letter_spec := suffixLetter_spec isLetter
    have plain : s.plainSuffix = letter :: (d :: tail).filter (· ≠ ch '_') := by
      rw [plainSuffix, suffix, List.filter_cons_of_pos (by simpa using letter_spec.2.1)]
    rw [plain]
    refine ⟨.inr ⟨_, _, rfl, isLetter⟩, by simp [suffix], ?_⟩
    intro c member
    rcases List.mem_cons.mp member with rfl | digit
    · refine .inr ?_
      simp only [nyNumberSuffixLetter, Bool.or_eq_true, Bool.and_eq_true] at isLetter ⊢
      tauto
    · obtain ⟨here, other⟩ := List.mem_filter.mp digit
      exact .inl ((separated.all c here).resolve_right (by simpa using other))

theorem filter_separator {text : List UInt8} (none : ∀ c ∈ text, c ≠ ch '_') :
    text.filter (· ≠ ch '_') = text :=
  List.filter_eq_self.mpr fun c member => by simpa using none c member

theorem Valid.valueBuf (valid : s.Valid) :
    numericLiteralValueBuf s.text (s.head.length + s.digits.length) = s.head ++ (s.pure ++ []) ∧
      numericLiteralValueBuf s.text s.text.length = s.head ++ (s.pure ++ s.plainSuffix) := by
  have head := filter_separator fun c member => (valid.head_byte member).2
  have mark : s.mark.filter (· ≠ ch '_') = [] := by
    rcases valid.mark with none | one
    · rw [none, List.filter_nil]
    · rw [one]
      rfl
  constructor
  · have taken : s.text.take (s.head.length + s.digits.length) = s.head ++ s.digits := by
      rw [text, ← List.append_assoc, ← List.length_append, List.take_left]
    rw [numericLiteralValueBuf, taken, List.filter_append, head, List.append_nil]
    rfl
  · rw [numericLiteralValueBuf, List.take_length, text, List.filter_append, List.filter_append,
      List.filter_append, head, mark, List.nil_append]
    rfl

theorem digit_no_float {radix : Radix} {c : UInt8} (digit : radix.digit c = true)
    (other : radix ≠ .hex) : c ≠ ch '.' ∧ c ≠ ch 'e' ∧ c ≠ ch 'E' := by
  have all : ∀ c ∈ [ch '.', ch 'e', ch 'E'], isDigit c = false ∧ nyIsBindigit c = false ∧
      nyIsOctdigit c = false := by decide
  have none {d : UInt8} (among : d ∈ [ch '.', ch 'e', ch 'E']) : c ≠ d := by
    rintro rfl
    obtain ⟨decimal, binary, octal⟩ := all c among
    cases radix with
    | decimal => exact absurd digit (by simp [Radix.digit, decimal])
    | hex => exact other rfl
    | binary => exact absurd digit (by simp [Radix.digit, binary])
    | octal => exact absurd digit (by simp [Radix.digit, octal])
  exact ⟨none (by simp), none (by simp), none (by simp)⟩

theorem Valid.isFloat (valid : s.Valid) {rest : List UInt8}
    (plain : ∀ c ∈ rest, isDigit c = true ∨ nyNumberSuffixLetter c true = true) :
    isFloat (s.head ++ (s.pure ++ rest)) = false := by
  by_cases hex : s.radix = .hex
  · -- The head says that it is an integer, or it is all there is.
    have heads := valid.heads
    have prefixed {x : UInt8} (isX : (decide (x = ch 'x') || decide (x = ch 'X')) = true)
        (c : UInt8) (body : List UInt8) : Parse.isFloat (ch '0' :: x :: c :: body) = false := by
      have yes : isPrefixedInt (ch '0' :: x :: c :: body) = true := by
        simp only [isPrefixedInt, List.getD_cons_succ, List.getD_cons_zero, isX, decide_true,
          Bool.true_or, Bool.and_true, List.length_cons, decide_eq_true_eq]
        omega
      rw [Parse.isFloat, yes]
      rfl
    rw [hex] at heads
    rcases List.mem_pair.mp heads with head | head <;>
      · rw [head]
        cases s.pure ++ rest with
        | nil => decide
        | cons c body => exact prefixed (by decide) c body
  · -- No byte belongs to the notation of floating point numbers.
    have none : ∀ c ∈ s.head ++ (s.pure ++ rest), c ≠ ch '.' ∧ c ≠ ch 'e' ∧ c ≠ ch 'E' := by
      intro c member
      rcases List.mem_append.mp member with head | behind
      · have all : ∀ radix ∈ [Radix.decimal, .hex, .binary, .octal], ∀ head ∈ radix.heads,
            ∀ c ∈ head, c ≠ ch '.' ∧ c ≠ ch 'e' ∧ c ≠ ch 'E' := by decide
        refine all s.radix ?_ s.head valid.heads c head
        cases s.radix <;> simp
      rcases List.mem_append.mp behind with digit | rest
      · exact digit_no_float (valid.pure_digit digit) hex
      · rcases plain c rest with digit | letter
        · exact @digit_no_float .decimal c digit (by decide)
        · exact (suffixLetter_spec letter).2.2.2.2.2.2.2.2
    have free {d : UInt8} (other : ∀ c ∈ s.head ++ (s.pure ++ rest), c ≠ d) :
        (s.head ++ (s.pure ++ rest)).contains d = false := by
      rw [Bool.eq_false_iff]
      intro member
      exact other d (List.contains_iff_mem.mp member) rfl
    rw [Parse.isFloat, free fun c member => (none c member).1,
      free fun c member => (none c member).2.1, free fun c member => (none c member).2.2]
    simp

variable {F : Type} (floats : Floats F)

/-- The value that a literal stores: that of its digits, or the largest of 64 bits with a sign. -/
def stored (s : Spelling) : Int := if 2 ^ 63 - 1 < s.value then 2 ^ 63 - 1 else s.value

/-- The spelling of an integer: no type of floating point numbers is named. -/
def Integer (s : Spelling) : Prop :=
  ∀ hint, suffixHint s.suffix = some hint → hintIsFloat hint = false

theorem Valid.parseNumber_known (valid : s.Valid) (integer : s.Integer) {hint : LitTypeHint}
    (known : suffixHint s.suffix = some hint) :
    parseNumber floats s.text =
      parseIntNumber (s.head ++ (s.pure ++ []))
        ⟨true, s.head.length + s.digits.length, hint, true⟩ := by
  have buf := valid.valueBuf.1
  have noFloat := @Valid.isFloat s valid [] fun c member => absurd member List.not_mem_nil
  rw [parseNumber, valid.parseNumericSuffix, known]
  simp only [buf, noFloat, integer hint known, Bool.and_false, Bool.or_false, Bool.false_eq_true,
    if_false, if_true, List.nil_append]

theorem Valid.parseNumber_unknown (valid : s.Valid) (unknown : suffixHint s.suffix = none) :
    parseNumber floats s.text =
      ((parseIntNumber (s.head ++ (s.pure ++ s.plainSuffix))
        ⟨s.suffix = [] || (ch '_' ∈ s.suffix : Bool), s.text.length, .none, false⟩).1,
      (if s.suffix = [] ∨ ch '_' ∈ s.suffix then [] else ["unknown numeric literal suffix"]) ++
        (parseIntNumber (F := F) (s.head ++ (s.pure ++ s.plainSuffix))
          ⟨s.suffix = [] || (ch '_' ∈ s.suffix : Bool), s.text.length, .none, false⟩).2) := by
  have buf := valid.valueBuf.2
  have noFloat := valid.isFloat valid.plainSuffix_spec.2.2
  have noHint : hintIsFloat .none = false := rfl
  rw [parseNumber, valid.parseNumericSuffix, unknown]
  simp only [buf, noFloat, noHint, Bool.and_false, Bool.or_false, Bool.false_eq_true, if_false,
    List.nil_append, Bool.or_eq_true, decide_eq_true_eq]

theorem value_nil (none : s.pure = []) : s.value = 0 := by
  rw [value, none]
  rfl

theorem Valid.known_result (valid : s.Valid) (integer : s.Integer) {hint : LitTypeHint}
    (known : suffixHint s.suffix = some hint) :
    (parseNumber floats s.text).1.value =
        .int (if 2 ^ 64 ≤ s.value then if hint = .i128 ∨ hint = .u128 then 2 ^ 63 - 1 else 0
          else s.stored) ∧
      ((parseNumber floats s.text).2 = [] ↔
        s.pure ≠ [] ∧ (2 ^ 64 ≤ s.value → hint = .i128 ∨ hint = .u128)) := by
  have silent : ∀ value, (checkIntRange value hint).2 = [] := by
    obtain ⟨entry, found, same⟩ := Option.map_eq_some_iff.mp known
    have all : ∀ entry ∈ numericSuffixes, hintIsFloat entry.2 = false →
        ∀ value, (checkIntRange value entry.2).2 = [] := by
      simp [numericSuffixes, hintIsFloat, checkIntRange]
    have listed := all entry (List.mem_of_find?_eq_some found)
    rw [same] at listed
    exact listed (integer hint known)
  have parsed := valid.parseInteger (.inl rfl)
  rw [valid.parseNumber_known floats integer known]
  generalize s.head ++ (s.pure ++ []) = buf at parsed ⊢
  by_cases none : s.pure = []
  · -- Without digits the text is malformed.
    have zero := value_nil none
    rw [if_pos none] at parsed
    simp [parseIntNumber, parsed, none, stored, zero]
  rw [if_neg none] at parsed
  by_cases large : 2 ^ 64 ≤ s.value
  · -- The value has more than 64 bits.
    rw [if_pos large] at parsed
    have above : 18446744073709551616 ≤ s.value := large
    by_cases wide : hint = .i128 ∨ hint = .u128
    · have allows : hintAllowsIntegerOverflowBigint hint true = true := by
        simpa [hintAllowsIntegerOverflowBigint] using wide
      simp [parseIntNumber, parsed, none, above, allows, wide]
    · have allows : hintAllowsIntegerOverflowBigint hint true = false := by
        simpa [hintAllowsIntegerOverflowBigint] using wide
      simp [parseIntNumber, parsed, above, allows, wide]
  · -- The value is read.
    rw [if_neg large, if_pos rfl] at parsed
    have below : ¬ 18446744073709551616 ≤ s.value := large
    simp [parseIntNumber, parsed, none, below, silent, stored]

theorem Valid.unknown_result (valid : s.Valid) (unknown : suffixHint s.suffix = none) :
    (parseNumber floats s.text).1.value =
        .int (if 2 ^ 64 ≤ s.value then 2 ^ 63 - 1 else if s.suffix = [] then s.stored else 0) ∧
      ((parseNumber floats s.text).2 = [] ↔
        s.pure ≠ [] ∧ (s.suffix = [] ∨ (ch '_' ∈ s.suffix ∧ 2 ^ 64 ≤ s.value))) := by
  have parsed := valid.parseInteger valid.plainSuffix_spec.1
  have same := valid.plainSuffix_spec.2.1
  rw [valid.parseNumber_unknown floats unknown]
  generalize s.head ++ (s.pure ++ s.plainSuffix) = buf at parsed ⊢
  by_cases none : s.pure = []
  · have zero := value_nil none
    rw [if_pos none] at parsed
    simp [parseIntNumber, parsed, none, stored, zero]
  rw [if_neg none] at parsed
  by_cases large : 2 ^ 64 ≤ s.value
  · -- The value is kept as its text, whatever stands behind the digits.
    rw [if_pos large] at parsed
    simp only [parseIntNumber, parsed, large, hintAllowsIntegerOverflowBigint]
    simp [or_iff_not_imp_left, none]
  rw [if_neg large] at parsed
  have below : ¬ 18446744073709551616 ≤ s.value := large
  by_cases bare : s.suffix = []
  · rw [if_pos (same.mpr bare)] at parsed
    simp [parseIntNumber, parsed, none, below, bare, stored]
  · -- The suffix is read as digits and is none.
    rw [if_neg fun plain => bare (same.mp plain)] at parsed
    simp [parseIntNumber, parsed, below, bare]

/-- The parser sees the digits end and the suffix begin where the lexer does. -/
def Agrees (s : Spelling) : Prop :=
  (Parse.numericSuffixStart s.text).getD (s.text.length, s.text.length) =
    (s.head.length + s.digits.length, s.head.length + s.digits.length + s.mark.length)

/--
A spelling in which something is wrong.

It has no digits, its suffix is not known, or its value is larger than those of the type.
-/
def Faulty (s : Spelling) : Prop :=
  s.pure = [] ∨ s.Unknown ∨
    ∃ hint largest, suffixHint s.suffix = some hint ∧ hintMax hint = some largest ∧
      largest < s.value

theorem Valid.printed_iff (valid : s.Valid) :
    s.Agrees ↔ ch '_' ∉ s.suffix ∧ (s.suffix = [] → s.mark = []) := by
  have length : s.text.length =
      s.head.length + (s.digits.length + (s.mark.length + s.suffix.length)) := by
    simp only [text, List.length_append]
  rw [Agrees, valid.numericSuffixStart]
  by_cases bare : s.suffix = []
  · rw [if_pos (.inl bare), Option.getD_none, length, bare]
    simp only [List.length_nil, Nat.add_zero, Prod.mk.injEq, List.not_mem_nil, not_false_eq_true,
      true_and, forall_const, ← List.length_eq_zero_iff (l := s.mark)]
    omega
  · have some_text := List.length_pos_iff.mpr bare
    by_cases split : ch '_' ∈ s.suffix
    · rw [if_pos (.inr split), Option.getD_none, length]
      simp only [Prod.mk.injEq, split, not_true_eq_false, false_and, iff_false, not_and]
      omega
    · rw [if_neg (by simp [bare, split]), Option.getD_some]
      simp [bare, split]

theorem Valid.stored_iff (valid : s.Valid) (integer : s.Integer) :
    (parseNumber floats s.text).1.value = .int s.stored ↔
      (∀ hint, suffixHint s.suffix = some hint → 2 ^ 64 ≤ s.value → hint = .i128 ∨ hint = .u128) ∧
      (s.Unknown → s.value = 0 ∨ 2 ^ 64 ≤ s.value) := by
  cases known : suffixHint s.suffix with
  | some hint =>
    rw [(valid.known_result floats integer known).1]
    simp only [Unknown, known, LiteralValue.int.injEq, Option.some.injEq, forall_eq', reduceCtorEq,
      and_false, false_implies, and_true, stored]
    split
    · split <;> grind
    · grind
  | none =>
    rw [(valid.unknown_result floats known).1]
    simp only [Unknown, known, LiteralValue.int.injEq, reduceCtorEq, false_implies, and_true,
      stored]
    split
    · grind
    · split
      · grind
      · grind

theorem Valid.reported_iff (valid : s.Valid) (integer : s.Integer) :
    ((parseNumber floats s.text).2 ≠ [] ↔ s.Faulty) ↔
      (∀ hint largest, suffixHint s.suffix = some hint → hintMax hint = some largest →
        largest < s.value → 2 ^ 64 ≤ s.value ∧ hint ≠ .i128 ∧ hint ≠ .u128) ∧
      ¬ (s.Unknown ∧ ch '_' ∈ s.suffix ∧ 2 ^ 64 ≤ s.value) := by
  have zero : s.pure = [] → s.value = 0 := value_nil
  cases known : suffixHint s.suffix with
  | some hint =>
    -- Only the types of 128 bits have values of more than 64 bits.
    obtain ⟨largest, bound, narrow⟩ : ∃ largest, hintMax hint = some largest ∧
        (hint ≠ .i128 → hint ≠ .u128 → largest < 2 ^ 64) := by
      obtain ⟨entry, found, same⟩ := Option.map_eq_some_iff.mp known
      have all : ∀ entry ∈ numericSuffixes, hintIsFloat entry.2 = false →
          ∃ largest, hintMax entry.2 = some largest ∧
            (entry.2 ≠ .i128 → entry.2 ≠ .u128 → largest < 2 ^ 64) := by
        simp [numericSuffixes, hintIsFloat, hintMax]
      have listed := all entry (List.mem_of_find?_eq_some found)
      rw [same] at listed
      exact listed (integer hint known)
    rw [ne_eq, (valid.known_result floats integer known).2]
    simp only [Faulty, Unknown, known, bound, Option.some.injEq, exists_and_left, exists_eq_left',
      reduceCtorEq, and_false, false_and, false_or, not_false_eq_true, and_true]
    grind
  | none =>
    rw [ne_eq, (valid.unknown_result floats known).2]
    simp only [Faulty, Unknown, known, reduceCtorEq, false_implies, false_and, exists_const,
      and_true, forall_const]
    grind

end Spelling

end Nytrix.Parse
