import Nytrix.Parse.NumbersLaws
import Nytrix.Parse.StringsLexed

/-! Number tokens: the spelling that the lexer takes, and what the parser makes of it. -/

-- What holds of all members of a list is decided member by member.
attribute [local instance (2000)] List.decidableBAll

namespace Nytrix.Parse

open Nytrix.Lib
open Nytrix.Types (nm ch)

/-- The bytes between two places. -/
def Source.slice (src : Source) (a b : Nat) : List UInt8 := (src.bytes.drop a).take (b - a)

/-- How a number is written, by its first two bytes. -/
def radixAt (src : Source) (start : Nat) : Radix :=
  let c := src.byte start
  let x := src.byte (start + 1)
  if c = ch '0' && (x = ch 'x' || x = ch 'X') then .hex
  else if c = ch '0' && (x = ch 'b' || x = ch 'B') then .binary
  else if c = ch '0' && (x = ch 'o' || x = ch 'O') then .octal
  else .decimal

/-- The length of the head of a number. -/
def Radix.headLength : Radix → Nat
  | .decimal => 0
  | _ => 2

/-- The place where the lexer sees the digits of an integer end. -/
def digitsStop (src : Source) (start : Nat) : Nat :=
  match radixAt src start with
  | .decimal => lexDecimalDigits src (start + 1)
  | radix => digitsEnd src radix.digit (start + 2)

/-- The place where the lexer sees the suffix of an integer begin. -/
def suffixStart (src : Source) (start : Nat) : Nat :=
  let pos := digitsStop src start
  if src.byte pos = ch '_' &&
      nyNumberSuffixLetter (src.byte (pos + 1)) (radixAt src start = .decimal) then pos + 1
  else pos

/-- The place where the lexer sees an integer end. -/
def integerStop (src : Source) (start : Nat) : Nat :=
  lexNumberSuffixDigits src (radixAt src start = .decimal) (digitsStop src start)

/-- A number is written as an integer: without a fraction and without an exponent. -/
def IsInteger (src : Source) (start : Nat) : Prop :=
  radixAt src start = .decimal →
    ¬ (src.byte (digitsStop src start) = ch '.' ∧
      isDigit (src.byte (digitsStop src start + 1)) = true) ∧
    src.byte (digitsStop src start) ≠ ch 'e' ∧ src.byte (digitsStop src start) ≠ ch 'E'

/-- The spelling of an integer, as the lexer takes it. -/
def spellingAt (src : Source) (start : Nat) : Spelling where
  radix := radixAt src start
  head := src.slice start (start + (radixAt src start).headLength)
  digits := src.slice (start + (radixAt src start).headLength) (digitsStop src start)
  mark := src.slice (digitsStop src start) (suffixStart src start)
  suffix := src.slice (suffixStart src start) (integerStop src start)

variable {src : Source} {a b c i pos start : Nat}

namespace Source

theorem slice_cons (less : a < b) (inside : b ≤ src.len) :
    src.slice a b = src.byte a :: src.slice (a + 1) b := by
  have here : a < src.bytes.length := Nat.lt_of_lt_of_le less inside
  have size : b - a = b - (a + 1) + 1 := by omega
  rw [slice, List.drop_eq_getElem_cons here, size, List.take_succ_cons, byte,
    List.getD_eq_getElem _ _ here]
  rfl

theorem slice_self : src.slice a a = [] := by
  rw [slice, Nat.sub_self, List.take_zero]

theorem slice_append (first : a ≤ b) (second : b ≤ c) :
    src.slice a b ++ src.slice b c = src.slice a c := by
  have size : c - a = (b - a) + (c - b) := by omega
  have place : src.bytes.drop b = (src.bytes.drop a).drop (b - a) := by
    rw [List.drop_drop]
    congr 1
    omega
  rw [slice, slice, slice, size, List.take_add, place]

theorem length_slice (inside : b ≤ src.len) : (src.slice a b).length = b - a := by
  rw [slice, List.length_take, List.length_drop]
  rw [len] at inside
  omega

theorem mem_slice {d : UInt8} (inside : b ≤ src.len) (member : d ∈ src.slice a b) :
    ∃ i, a ≤ i ∧ i < b ∧ src.byte i = d := by
  obtain ⟨k, less, same⟩ := List.getElem_of_mem member
  rw [length_slice inside] at less
  refine ⟨a + k, by omega, by omega, ?_⟩
  rw [len] at inside
  rw [byte, List.getD_eq_getElem _ _ (by omega), ← same]
  simp [slice]

theorem getLast?_slice (less : a < b) (inside : b ≤ src.len) :
    (src.slice a b).getLast? = some (src.byte (b - 1)) := by
  have last : src.slice a b = src.slice a (b - 1) ++ [src.byte (b - 1)] := by
    rw [← @slice_append src a (b - 1) b (by omega) (by omega),
      @slice_cons src (b - 1) b (by omega) inside, Nat.sub_add_cancel (by omega), slice_self]
  rw [last, List.getLast?_concat]

end Source

/-- Places that digits and separators before them take up. -/
structure Run (src : Source) (digit : UInt8 → Bool) (a b : Nat) : Prop where
  le : a ≤ b
  inside : b ≤ src.len
  all : ∀ i, a ≤ i → i < b → digit (src.byte i) = true ∨
    (src.byte i = ch '_' ∧ i + 1 < b)

theorem Run.separated {digit : UInt8 → Bool} (no_separator : digit (ch '_') = false)
    (run : Run src digit a b) : Separated digit (src.slice a b) := by
  refine ⟨?_, ?_⟩
  · intro c member
    obtain ⟨i, after, before, rfl⟩ := Source.mem_slice run.inside member
    rcases run.all i after before with isDigit | ⟨separator, -⟩
    · exact .inl isDigit
    · exact .inr separator
  · rcases Nat.eq_or_lt_of_le run.le with rfl | less
    · rw [Source.slice_self]
      simp
    · rw [Source.getLast?_slice less run.inside]
      intro last
      have separator : src.byte (b - 1) = ch '_' := Option.some.inj last
      rcases run.all (b - 1) (by omega) (by omega) with isDigit | ⟨-, more⟩
      · rw [separator, no_separator] at isDigit
        cases isDigit
      · omega

theorem digitsEnd_run {digit : UInt8 → Bool} (zero : digit 0 = false) (inside : pos ≤ src.len) :
    Run src digit pos (digitsEnd src digit pos) := by
  have onward : src.Onward pos (digitsEnd src digit pos) := digitsEnd_onward digit
  have first := @Source.find_first src pos
    (fun i => !(digit (src.byte i) || (src.byte i = ch '_' && digit (src.byte (i + 1))))) inside
  refine ⟨onward.le, onward.inside inside, ?_⟩
  intro i after before
  have passed := first.before i after before
  simp only [Bool.not_eq_true', not_or, Bool.not_eq_false, Bool.or_eq_true, Bool.and_eq_true,
    decide_eq_true_eq] at passed
  rcases passed.2 with isDigit | ⟨separator, next⟩
  · exact .inl isDigit
  · -- The digit behind a separator is passed too.
    refine .inr ⟨separator, ?_⟩
    by_contra last
    have stop : digitsEnd src digit pos = i + 1 := by omega
    rcases first.here with ended | holds
    · have end_byte : src.byte (i + 1) = 0 := by
        rw [Source.byte_eq_zero_iff, ← stop]
        exact Nat.le_of_eq ended.symm
      rw [end_byte, zero] at next
      cases next
    · rw [← digitsEnd, stop, next] at holds
      cases holds

theorem digitsEnd_stops {digit : UInt8 → Bool} (zero : digit 0 = false) (inside : pos ≤ src.len) :
    digit (src.byte (digitsEnd src digit pos)) = false := by
  have first := @Source.find_first src pos
    (fun i => !(digit (src.byte i) || (src.byte i = ch '_' && digit (src.byte (i + 1))))) inside
  rcases first.here with ended | holds
  · rw [digitsEnd, ended, Source.byte_eq_zero_iff.mpr (Nat.le_refl _), zero]
  · rw [Bool.not_eq_true', Bool.or_eq_false_iff] at holds
    exact holds.1

theorem scanEight_passes (p : UInt8 → Bool) (n : Nat) {i : Nat} (after : pos ≤ i)
    (before : i < scanEight src p n pos) : p (src.byte i) = true := by
  induction n generalizing pos with
  | zero =>
    rw [scanEight] at before
    omega
  | succ n ih =>
    rw [scanEight] at before
    split at before
    · next eight =>
      simp only [Bool.and_eq_true, decide_eq_true_eq, List.all_eq_true, List.mem_range] at eight
      rcases Nat.lt_or_ge i (pos + 8) with near | far
      · obtain ⟨k, rfl⟩ := Nat.exists_eq_add_of_le after
        exact eight.2 k (by omega)
      · exact ih far before
    · omega

theorem lexDecimalDigits_run (inside : pos ≤ src.len) :
    Run src isDigit pos (lexDecimalDigits src pos) := by
  have eight := @scanEight_onward src pos isDigit src.len
  have rest := @digitsEnd_run src _ isDigit (by decide) (eight.inside inside)
  refine ⟨Nat.le_trans eight.le rest.le, rest.inside, ?_⟩
  intro i after before
  rcases Nat.lt_or_ge i (scanEight src isDigit src.len pos) with early | late
  · exact .inl (scanEight_passes isDigit src.len after early)
  · exact rest.all i late before

theorem lexDecimalDigits_digit (digit : isDigit (src.byte pos) = true) :
    pos < lexDecimalDigits src pos := by
  have inside := Source.lt_len (isDigit_ne_zero digit)
  have eight := @scanEight_onward src pos isDigit src.len
  have rest := @digitsEnd_onward src (scanEight src isDigit src.len pos) isDigit
  have stops := @digitsEnd_stops src (scanEight src isDigit src.len pos) isDigit (by decide)
    (eight.inside (Nat.le_of_lt inside))
  have le := Nat.le_trans eight.le rest.le
  refine Nat.lt_of_le_of_ne le ?_
  intro same
  rw [lexDecimalDigits] at same
  rw [← same, digit] at stops
  cases stops

theorem radixAt_spec (digit : isDigit (src.byte start) = true) :
    start + (radixAt src start).headLength ≤ src.len ∧
      src.slice start (start + (radixAt src start).headLength) ∈ (radixAt src start).heads := by
  have inside := Source.lt_len (isDigit_ne_zero digit)
  -- A head of two bytes, whose second one has two spellings.
  have named {x y : UInt8} (first : x ≠ 0) (second : y ≠ 0)
      (head : (decide (src.byte start = ch '0') &&
        (decide (src.byte (start + 1) = x) || decide (src.byte (start + 1) = y))) = true) :
      start + 2 ≤ src.len ∧ src.slice start (start + 2) ∈ [[ch '0', x], [ch '0', y]] := by
    simp only [Bool.and_eq_true, Bool.or_eq_true, decide_eq_true_eq] at head
    have some_byte : src.byte (start + 1) ≠ 0 := by
      rcases head.2 with same | same
      · rw [same]
        exact first
      · rw [same]
        exact second
    have more := Source.lt_len some_byte
    refine ⟨more, ?_⟩
    rw [Source.slice_cons (by omega) (by omega), Source.slice_cons (by omega) (by omega),
      Source.slice_self, head.1]
    rcases head.2 with same | same
    · rw [same]
      exact List.mem_pair.mpr (.inl rfl)
    · rw [same]
      exact List.mem_pair.mpr (.inr rfl)
  rw [radixAt]
  split
  · next head => exact named (by decide) (by decide) head
  split
  · next head => exact named (by decide) (by decide) head
  split
  · next head => exact named (by decide) (by decide) head
  · exact ⟨Nat.le_of_lt inside, List.mem_singleton.mpr Source.slice_self⟩

/-- What is required of the digits of a number with a head. -/
def Radix.required : Radix → Option (String × String)
  | .binary => some ("malformed binary numeric constant",
      "binary literals need at least one 0 or 1 digit after 0b")
  | .octal => some ("malformed octal numeric constant",
      "octal literals need at least one 0..7 digit after 0o")
  | _ => none

theorem scanNumber_eq : scanNumber src start =
    if radixAt src start = .decimal then scanDecimal src start
    else lexRadixNumber src start (radixAt src start).digit (radixAt src start).required := by
  simp only [scanNumber, radixAt]
  split
  · rfl
  split
  · rfl
  split
  · rfl
  · rfl

theorem scanNumber_integer (number : (scanNumber src start).kind = some .number)
    (integer : IsInteger src start) :
    (scanNumber src start).stop = integerStop src start ∧
      ((radixAt src start).required ≠ none →
        (radixAt src start).digit (src.byte (start + 2)) = true) := by
  rw [scanNumber_eq] at number ⊢
  by_cases decimal : radixAt src start = .decimal
  · -- There is neither a fraction nor an exponent.
    have stop : digitsStop src start = lexDecimalDigits src (start + 1) := by
      rw [digitsStop, decimal]
    obtain ⟨fraction, lower, upper⟩ := integer decimal
    have ends : fractionEnd src start = digitsStop src start := by
      rw [fractionEnd, ← stop]
      exact if_neg (by simpa using fraction)
    refine ⟨?_, fun some_digit => absurd (by rw [decimal]; rfl) some_digit⟩
    rw [if_pos decimal, scanDecimal, ends, integerStop, decimal]
    simp [lower, upper]
  · have stop : digitsStop src start = digitsEnd src (radixAt src start).digit (start + 2) := by
      rw [digitsStop]
      split
      · next same => exact absurd same decimal
      · rfl
    have false_decimal : decide (radixAt src start = .decimal) = false := decide_eq_false decimal
    rw [if_neg decimal] at number ⊢
    rw [integerStop, false_decimal, stop]
    cases required : (radixAt src start).required with
    | none => exact ⟨rfl, fun some_report => absurd rfl some_report⟩
    | some report =>
      rw [required, lexRadixNumber] at number
      rw [lexRadixNumber]
      split at number
      · next digit =>
        rw [if_pos digit]
        exact ⟨rfl, fun _ => digit⟩
      · cases number

theorem suffixStart_cases :
    suffixStart src start = digitsStop src start ∨
      (suffixStart src start = digitsStop src start + 1 ∧
        src.byte (digitsStop src start) = ch '_' ∧
        nyNumberSuffixLetter (src.byte (digitsStop src start + 1))
          (radixAt src start = .decimal) = true) := by
  by_cases mark : (decide (src.byte (digitsStop src start) = ch '_') &&
      nyNumberSuffixLetter (src.byte (digitsStop src start + 1))
        (radixAt src start = .decimal)) = true
  · have both := mark
    rw [Bool.and_eq_true, decide_eq_true_eq] at both
    exact .inr ⟨if_pos mark, both⟩
  · exact .inl (if_neg mark)

theorem suffixStart_spec (inside : digitsStop src start ≤ src.len) :
    digitsStop src start ≤ suffixStart src start ∧ suffixStart src start ≤ src.len ∧
      (src.slice (digitsStop src start) (suffixStart src start) = [] ∨
        src.slice (digitsStop src start) (suffixStart src start) = [ch '_']) := by
  rcases suffixStart_cases with same | ⟨next, mark, -⟩
  · rw [same]
    exact ⟨Nat.le_refl _, inside, .inl Source.slice_self⟩
  · have less := Source.lt_len_of_eq mark (by decide)
    rw [next]
    refine ⟨by omega, less, .inr ?_⟩
    rw [Source.slice_cons (by omega) less, Source.slice_self, mark]

theorem suffixStart_letter
    (stops : radixAt src start = .hex → nyIsXdigit (src.byte (digitsStop src start)) = false)
    (isLetter : nyNumberSuffixLetter (src.byte (suffixStart src start)) true = true) :
    nyNumberSuffixLetter (src.byte (suffixStart src start)) (radixAt src start ≠ .hex) = true := by
  by_cases hex : radixAt src start = .hex
  · have no_float : decide (radixAt src start ≠ .hex) = false := decide_eq_false (not_not.mpr hex)
    rw [no_float]
    rcases suffixStart_cases with same | ⟨next, -, marked⟩
    · have other := stops hex
      rw [← same] at other
      generalize src.byte (suffixStart src start) = c at isLetter other ⊢
      simp only [nyNumberSuffixLetter, Bool.or_eq_true, Bool.and_eq_true, decide_eq_true_eq]
        at isLetter ⊢
      rcases isLetter with known | ⟨-, rfl | rfl⟩
      · exact .inl known
      · exact absurd other (by decide)
      · exact absurd other (by decide)
    · rw [hex] at marked
      rw [next]
      exact marked
  · have float : decide (radixAt src start ≠ .hex) = true := decide_eq_true hex
    rw [float]
    exact isLetter

theorem integerStop_spec (inside : digitsStop src start ≤ src.len)
    (stops : radixAt src start = .hex → nyIsXdigit (src.byte (digitsStop src start)) = false) :
    suffixStart src start ≤ integerStop src start ∧ integerStop src start ≤ src.len ∧
      (src.slice (suffixStart src start) (integerStop src start) = [] ∨
        ∃ letter d tail, src.slice (suffixStart src start) (integerStop src start) =
            letter :: d :: tail ∧
          nyNumberSuffixLetter letter (radixAt src start ≠ .hex) = true ∧ isDigit d = true ∧
          Separated isDigit (d :: tail)) := by
  have stop : integerStop src start =
      if nyNumberSuffixLetter (src.byte (suffixStart src start)) true &&
          isDigit (src.byte (suffixStart src start + 1)) then
        lexDecimalDigits src (suffixStart src start + 1)
      else suffixStart src start := rfl
  have bounds := suffixStart_spec inside
  rw [stop]
  split
  · next suffix =>
    rw [Bool.and_eq_true] at suffix
    obtain ⟨isLetter, digit⟩ := suffix
    have less := Source.lt_len (isDigit_ne_zero digit)
    have run := @lexDecimalDigits_run src (suffixStart src start + 1) (Nat.le_of_lt less)
    have more := lexDecimalDigits_digit digit
    refine ⟨by omega, run.inside, .inr ⟨src.byte (suffixStart src start),
      src.byte (suffixStart src start + 1),
      src.slice (suffixStart src start + 1 + 1) (lexDecimalDigits src (suffixStart src start + 1)),
      ?_, suffixStart_letter stops isLetter, digit, ?_⟩⟩
    · rw [Source.slice_cons (by omega) run.inside, Source.slice_cons more run.inside]
    · rw [← Source.slice_cons more run.inside]
      exact run.separated (by decide)
  · exact ⟨Nat.le_refl _, bounds.2.1, .inl Source.slice_self⟩

theorem digitsStop_run (digit : isDigit (src.byte start) = true) :
    Run src (radixAt src start).digit (start + (radixAt src start).headLength)
      (digitsStop src start) := by
  have bound := (radixAt_spec digit).1
  rw [digitsStop]
  cases radix : radixAt src start with
  | decimal =>
    -- The first digit is the one that the number begins with.
    have less := Source.lt_len (isDigit_ne_zero digit)
    have rest := @lexDecimalDigits_run src (start + 1) less
    refine ⟨Nat.le_trans (Nat.le_succ start) rest.le, rest.inside, ?_⟩
    intro i after before
    rcases Nat.eq_or_lt_of_le after with rfl | later
    · exact .inl digit
    · exact rest.all i later before
  | hex =>
    rw [radix] at bound
    exact digitsEnd_run rfl bound
  | binary =>
    rw [radix] at bound
    exact digitsEnd_run rfl bound
  | octal =>
    rw [radix] at bound
    exact digitsEnd_run rfl bound

theorem spelling_digit (digit : isDigit (src.byte start) = true)
    (required : (radixAt src start).required ≠ none →
      (radixAt src start).digit (src.byte (start + 2)) = true)
    (other : radixAt src start ≠ .hex) :
    (radixAt src start).digit (src.byte (start + (radixAt src start).headLength)) = true := by
  cases radix : radixAt src start with
  | decimal => exact digit
  | hex => exact absurd radix other
  | binary =>
    rw [radix] at required
    exact required (by decide)
  | octal =>
    rw [radix] at required
    exact required (by decide)

theorem digitsStop_stops (digit : isDigit (src.byte start) = true)
    (other : radixAt src start ≠ .decimal) :
    (radixAt src start).digit (src.byte (digitsStop src start)) = false := by
  have bound := (radixAt_spec digit).1
  rw [digitsStop]
  cases radix : radixAt src start with
  | decimal => exact absurd radix other
  | hex =>
    rw [radix] at bound
    exact digitsEnd_stops rfl bound
  | binary =>
    rw [radix] at bound
    exact digitsEnd_stops rfl bound
  | octal =>
    rw [radix] at bound
    exact digitsEnd_stops rfl bound

theorem digitsStop_lt (digit : isDigit (src.byte start) = true)
    (first : (radixAt src start).digit (src.byte (start + (radixAt src start).headLength)) = true) :
    start + (radixAt src start).headLength < digitsStop src start := by
  have run := digitsStop_run digit
  by_cases decimal : radixAt src start = .decimal
  · rw [digitsStop, decimal]
    exact (@lexDecimalDigits_onward src (start + 1)).le
  · refine Nat.lt_of_le_of_ne run.le fun same => ?_
    have stops := digitsStop_stops digit decimal
    rw [← same, first] at stops
    cases stops

theorem spellingAt_valid (digit : isDigit (src.byte start) = true)
    (number : (scanNumber src start).kind = some .number) (integer : IsInteger src start) :
    (spellingAt src start).Valid ∧
      (spellingAt src start).text = src.slice start (scanNumber src start).stop := by
  obtain ⟨stop, required⟩ := scanNumber_integer number integer
  obtain ⟨-, heads⟩ := radixAt_spec digit
  have run := digitsStop_run digit
  have stops : radixAt src start = .hex → nyIsXdigit (src.byte (digitsStop src start)) = false := by
    intro hex
    have none := digitsStop_stops digit (by rw [hex]; decide)
    rw [hex] at none
    exact none
  obtain ⟨le, inside, mark⟩ := suffixStart_spec run.inside
  obtain ⟨le', inside', suffix⟩ := integerStop_spec run.inside stops
  refine ⟨⟨heads, run.separated (Spelling.separator_no_digit _), ?_, mark, suffix⟩, ?_⟩
  · -- The first digit is there where one is required.
    intro other
    have first := spelling_digit digit required other
    have less := digitsStop_lt digit first
    exact ⟨_, _, Source.slice_cons less run.inside, first⟩
  · rw [Spelling.text, stop]
    show src.slice _ _ ++ (src.slice _ _ ++ (src.slice _ _ ++ src.slice _ _)) = _
    rw [Source.slice_append le le', Source.slice_append run.le (Nat.le_trans le le'),
      Source.slice_append (Nat.le_add_right _ _)
        (Nat.le_trans run.le (Nat.le_trans le le'))]

theorem scanToken_number (number : (scanToken src start).kind = some .number) :
    isDigit (src.byte start) = true ∧ scanToken src start = scanNumber src start := by
  have string (quote : UInt8) (pos : Nat) (kind : TokenKind) (msg : String)
      (other : kind ≠ .number) : (scanString src start quote pos kind msg).kind ≠ some .number := by
    rw [scanString]
    split
    · simpa using other
    · simp
  rw [scanToken] at number ⊢
  split at number
  · exact absurd number (string _ _ _ _ (by decide))
  split at number
  · exact absurd number scanName_no_literal.2
  split at number
  · exact absurd number scanName_no_literal.2
  split at number
  · next noString noName _ _ digit =>
    rw [if_neg noString, if_neg noName, if_pos digit]
    exact ⟨digit, rfl⟩
  split at number
  · exact absurd number (string _ _ _ _ (by decide))
  · exact absurd number scanOperator_no_literal.2

/--
An integer is read as it is spelled, exactly under these conditions.

- The parser splits it where the lexer does: no separator is inside its suffix or at its end.
- It stores the value: neither is it too large for a narrow type, nor is its suffix unknown.
- It reports what is wrong, and only that: values that are too large for their type have more than
  64 bits, and the type is not one of 128 bits.
-/
theorem numeric_literal_iff {F : Type} (floats : Floats F) {lx lx' : Lexer} {token : Token}
    {n : Nat} (next : lexerNext src n lx = some (token, lx')) (kind : token.kind = .number)
    (integer : IsInteger src token.start) (typed : (spellingAt src token.start).Integer) :
    src.lexeme token = (spellingAt src token.start).text ∧
    ((spellingAt src token.start).Agrees ↔
      ch '_' ∉ (spellingAt src token.start).suffix ∧
      ((spellingAt src token.start).suffix = [] → (spellingAt src token.start).mark = [])) ∧
    ((parseNumber floats (src.lexeme token)).1.value = .int (spellingAt src token.start).stored ↔
      (∀ hint, suffixHint (spellingAt src token.start).suffix = some hint →
        2 ^ 64 ≤ (spellingAt src token.start).value → hint = .i128 ∨ hint = .u128) ∧
      ((spellingAt src token.start).Unknown → (spellingAt src token.start).value = 0 ∨
        2 ^ 64 ≤ (spellingAt src token.start).value)) ∧
    (((parseNumber floats (src.lexeme token)).2 ≠ [] ↔ (spellingAt src token.start).Faulty) ↔
      (∀ hint largest, suffixHint (spellingAt src token.start).suffix = some hint →
        hintMax hint = some largest → largest < (spellingAt src token.start).value →
        2 ^ 64 ≤ (spellingAt src token.start).value ∧ hint ≠ .i128 ∧ hint ≠ .u128) ∧
      ¬ ((spellingAt src token.start).Unknown ∧ ch '_' ∈ (spellingAt src token.start).suffix ∧
        2 ^ 64 ≤ (spellingAt src token.start).value)) := by
  rcases lexerNext_scan next with eof | ⟨-, scan, size⟩
  · exact absurd (kind.symm.trans eof) (by decide)
  · rw [kind] at scan
    obtain ⟨digit, same⟩ := scanToken_number scan
    rw [same] at scan size
    obtain ⟨valid, text⟩ := spellingAt_valid digit scan integer
    have lexeme : src.lexeme token = (spellingAt src token.start).text := by
      rw [text, Source.lexeme, size]
      rfl
    rw [lexeme]
    exact ⟨rfl, valid.printed_iff, valid.stored_iff floats typed, valid.reported_iff floats typed⟩

/-- The text of a number of one digit. -/
def sevenText : Source := ⟨nm "7", by decide⟩

/-- The text of a number that is too large for its type. -/
def threeHundredText : Source := ⟨nm "300i8", by decide⟩

/-- The text of a number whose suffix has a separator. -/
def splitSuffixText : Source := ⟨nm "5u1_6", by decide⟩

/-- The text of a number whose suffix is unknown. -/
def unknownSuffixText : Source := ⟨nm "5i7", by decide⟩

/-- Floating point numbers that are only zero. -/
def zeroFloats : Floats Unit := ⟨(), fun _ => ((), true)⟩

/-- A number of one digit is read as it is spelled. -/
theorem numeric_literal_iff_seven :
    lexerNext sevenText 1 lexerInit = some (⟨.number, 0, 1⟩, ⟨1, []⟩) ∧
    (spellingAt sevenText 0).Agrees ∧
    (parseNumber zeroFloats (sevenText.lexeme ⟨.number, 0, 1⟩)).1.value =
      .int (spellingAt sevenText 0).stored ∧
    (spellingAt sevenText 0).stored = 7 := by
  have next : lexerNext sevenText 1 lexerInit = some (⟨.number, 0, 1⟩, ⟨1, []⟩) := by decide
  have bare : (spellingAt sevenText 0).suffix = [] := by decide
  have unknown : suffixHint (spellingAt sevenText 0).suffix = none := by decide
  have typed : (spellingAt sevenText 0).Integer := fun hint known =>
    absurd (unknown.symm.trans known) (by simp)
  obtain ⟨-, agrees, stored, -⟩ :=
    numeric_literal_iff zeroFloats next rfl (fun _ => by decide) typed
  refine ⟨next, agrees.mpr (by decide), stored.mpr ⟨?_, fun odd => absurd bare odd.1⟩, by decide⟩
  exact fun hint known => absurd (unknown.symm.trans known) (by simp)

/-- A value that is too large and not reported, a separator in a suffix, and an unknown suffix. -/
theorem numeric_literal_fail :
    (lexerNext threeHundredText 1 lexerInit = some (⟨.number, 0, 5⟩, ⟨5, []⟩) ∧
      (spellingAt threeHundredText 0).Faulty ∧
      (parseNumber zeroFloats (threeHundredText.lexeme ⟨.number, 0, 5⟩)).2 = []) ∧
    (lexerNext splitSuffixText 1 lexerInit = some (⟨.number, 0, 5⟩, ⟨5, []⟩) ∧
      ¬ (spellingAt splitSuffixText 0).Agrees) ∧
    lexerNext unknownSuffixText 1 lexerInit = some (⟨.number, 0, 3⟩, ⟨3, []⟩) ∧
      (spellingAt unknownSuffixText 0).value = 5 ∧
      (parseNumber zeroFloats (unknownSuffixText.lexeme ⟨.number, 0, 3⟩)).1.value = .int 0 := by
  refine ⟨⟨by decide, .inr (.inr ⟨.i8, 127, ?_, rfl, ?_⟩), by decide⟩, ⟨by decide, ?_⟩, by decide,
    by decide, by decide⟩
  · decide
  · decide
  · unfold Spelling.Agrees
    decide

end Nytrix.Parse
