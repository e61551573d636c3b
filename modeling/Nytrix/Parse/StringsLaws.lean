import Mathlib.Data.List.Basic
import Nytrix.Parse.Strings

/-! What a text with escapes spells, and when the decoder gives just that. -/

-- What holds of all members of a list is decided member by member.
attribute [local instance (2000)] List.decidableBAll

namespace Nytrix.Parse

open Nytrix.Types (nm ch)

/-- The value of octal digits. -/
def octalValue (digits : List UInt8) : Nat :=
  digits.foldl (fun value digit => value * 8 + (digit.toNat - 48)) 0

/-- The escapes, with the bytes that they stand for. -/
inductive Escape : List UInt8 → UInt8 → Prop
  /-- One letter. -/
  | named {e byte : UInt8} (known : namedEscapes.lookup e = some byte) : Escape [ch '\\', e] byte
  /-- Two hexadecimal digits. -/
  | hex {high low : UInt8} {h l : Nat} (first : digitValue 16 high = some h)
    (second : digitValue 16 low = some l) :
    Escape [ch '\\', ch 'x', high, low] (UInt8.ofNat (h * 16 + l))
  /-- Up to three octal digits. -/
  | octal {digits : List UInt8} (some_digit : digits ≠ []) (short : digits.length ≤ 3)
    (all : ∀ d ∈ digits, nyIsOctdigit d = true) :
    Escape (ch '\\' :: digits) (UInt8.ofNat (octalValue digits))

/-- An octal escape of fewer than three digits is not followed by another octal digit. -/
def Whole (piece body : List UInt8) : Prop :=
  piece.length = 4 ∨ nyIsOctdigit (piece.getD 1 0) = false ∨ nyIsOctdigit (body.getD 0 0) = false

/--
A text spells bytes: each byte as itself or by an escape that stands for it.

A backslash stands for itself at the end only, where no letter follows it.
-/
inductive Spells : List UInt8 → List UInt8 → Prop
  | nil : Spells [] []
  | raw {c : UInt8} {body out : List UInt8} (plain : c ≠ ch '\\') (rest : Spells body out) :
    Spells (c :: body) (c :: out)
  | last : Spells [ch '\\'] [ch '\\']
  | escape {piece body out : List UInt8} {byte : UInt8} (esc : Escape piece byte)
    (whole : Whole piece body) (rest : Spells body out) : Spells (piece ++ body) (byte :: out)

/-- Whether what comes next is a byte for itself or an escape that is known. -/
def stepSound : List UInt8 → Bool
  | [] => true
  | [_] => true
  | c :: e :: rest =>
    c ≠ ch '\\' || (namedEscapes.lookup e).isSome || nyIsOctdigit e ||
      (e = ch 'x' && (digitValue 16 (rest.getD 0 0)).isSome &&
        (digitValue 16 (rest.getD 1 0)).isSome)

/-- What is left of a text at each step of the decoder, for at most so many steps. -/
def suffixes : Nat → List UInt8 → List (List UInt8)
  | 0, _ => []
  | n + 1, body =>
    if body.isEmpty then [] else body :: suffixes n (body.drop (unescapeStep body).2)

/--
Whether every escape of a text is known.

That is each backslash which the decoder meets, the last byte apart, is followed by a letter with a
meaning, an octal digit, or an x and two hexadecimal digits.
-/
def soundEscapes (body : List UInt8) : Bool := (suffixes body.length body).all stepSound

section Steps

variable {body : List UInt8} {c e : UInt8}

theorem unescapeEscape_spec (e : UInt8) (rest : List UInt8) :
    2 ≤ (unescapeEscape e rest).2 ∧ (unescapeEscape e rest).2 ≤ rest.length + 2 ∧
      (unescapeEscape e rest).1.length ≤ 1 := by
  unfold unescapeEscape
  split
  · simp
  · split
    · split <;> simp <;> omega
    · split
      · next digit =>
        have digits : (((e :: rest).take 3).takeWhile nyIsOctdigit).length ≤
            ((e :: rest).take 3).length := (List.takeWhile_prefix _).length_le
        rw [List.length_take, List.length_cons] at digits
        have first : ((e :: rest).take 3).takeWhile nyIsOctdigit =
            e :: (rest.take 2).takeWhile nyIsOctdigit := by
          rw [List.take_succ_cons, List.takeWhile_cons_of_pos digit]
        have length := congrArg List.length first
        rw [List.length_cons] at length
        simp only [List.length_singleton]
        omega
      · simp

theorem unescapeStep_spec (some_text : body ≠ []) :
    1 ≤ (unescapeStep body).2 ∧ (unescapeStep body).2 ≤ body.length ∧
      (unescapeStep body).1.length ≤ (unescapeStep body).2 := by
  match body with
  | [] => exact absurd rfl some_text
  | [c] => exact ⟨Nat.le_refl _, Nat.le_refl _, Nat.le_refl _⟩
  | c :: e :: rest =>
    rw [unescapeStep]
    split
    · have escape := unescapeEscape_spec e rest
      simp only [List.length_cons]
      omega
    · simp

theorem suffixes_eq : ∀ {n k : Nat} {body : List UInt8}, body.length ≤ n → body.length ≤ k →
    suffixes n body = suffixes k body := by
  intro n
  -- The induction is on the first bound, and each step shortens the text.
  induction n with
  | zero =>
    intro k body small _
    obtain rfl : body = [] := List.length_eq_zero_iff.mp (by omega)
    cases k <;> rfl
  | succ n ih =>
    intro k body small small'
    cases k with
    | zero =>
      obtain rfl : body = [] := List.length_eq_zero_iff.mp (by omega)
      rfl
    | succ k =>
      unfold suffixes
      split
      · rfl
      · next some_text =>
        have step := @unescapeStep_spec body (by simpa using some_text)
        congr 1
        apply ih <;> rw [List.length_drop] <;> omega

theorem suffixes_step (some_text : body ≠ []) :
    suffixes body.length body =
      body :: suffixes (body.drop (unescapeStep body).2).length
        (body.drop (unescapeStep body).2) := by
  obtain ⟨n, length⟩ : ∃ n, body.length = n + 1 := by
    cases body with
    | nil => exact absurd rfl some_text
    | cons _ rest => exact ⟨rest.length, rfl⟩
  have step := unescapeStep_spec some_text
  have shorter : (body.drop (unescapeStep body).2).length ≤ n := by
    rw [List.length_drop]
    omega
  have nonempty : body.isEmpty = false := by simpa using some_text
  rw [length, suffixes, nonempty]
  simp only [Bool.false_eq_true, if_false]
  rw [suffixes_eq shorter (Nat.le_refl _)]

theorem unescapeLoop_eq (n : Nat) (body : List UInt8) :
    unescapeLoop n body = (suffixes n body).flatMap fun rest => (unescapeStep rest).1 := by
  induction n generalizing body with
  | zero => rfl
  | succ n ih =>
    unfold unescapeLoop suffixes
    split
    · rfl
    · rw [List.flatMap_cons, ih]

theorem parserUnescapeString_step (some_text : body ≠ []) :
    parserUnescapeString body =
      (unescapeStep body).1 ++ parserUnescapeString (body.drop (unescapeStep body).2) := by
  rw [parserUnescapeString, unescapeLoop_eq, suffixes_step some_text, List.flatMap_cons,
    parserUnescapeString, unescapeLoop_eq]

theorem soundEscapes_step (some_text : body ≠ []) :
    soundEscapes body = (stepSound body && soundEscapes (body.drop (unescapeStep body).2)) := by
  rw [soundEscapes, suffixes_step some_text, List.all_cons, soundEscapes]

theorem length_parserUnescapeString (body : List UInt8) :
    (parserUnescapeString body).length ≤ body.length := by
  -- The induction is on the length of what is left.
  induction length : body.length using Nat.strongRecOn generalizing body with
  | ind n ih =>
    by_cases none : body = []
    · subst none
      exact Nat.zero_le _
    · obtain ⟨onward, inside, written⟩ := unescapeStep_spec none
      have rest := ih (body.drop (unescapeStep body).2).length
        (by rw [List.length_drop]; omega) (body.drop (unescapeStep body).2) rfl
      rw [List.length_drop] at rest
      rw [parserUnescapeString_step none, List.length_append]
      omega

end Steps

section Escapes

variable {body piece out : List UInt8} {c byte : UInt8}

theorem unescapeStep_raw (plain : c ≠ ch '\\') : unescapeStep (c :: body) = ([c], 1) := by
  cases body with
  | nil => rfl
  | cons e rest => rw [unescapeStep, if_neg plain]

theorem digit_plain {value : Nat} (digit : digitValue 16 c = some value) :
    isSpaceC c = false ∧ c ≠ ch '-' ∧ c ≠ ch '+' ∧ value < 16 := by
  have small : value < 16 := by
    simp only [digitValue, Option.ite_none_right_eq_some, Option.some.injEq] at digit
    omega
  -- Spaces and signs have no value.
  refine ⟨?_, ?_, ?_, small⟩
  · cases space : isSpaceC c with
    | false => rfl
    | true =>
      have among : c ∈ [9, 10, 11, 12, 13, (32 : UInt8)] := by
        simp only [isSpaceC, Bool.or_eq_true, Bool.and_eq_true, decide_eq_true_eq,
          UInt8.le_iff_toNat_le, ← UInt8.toNat_inj] at space
        simp only [List.mem_cons, ← UInt8.toNat_inj, List.not_mem_nil, or_false]
        simp at space ⊢
        omega
      have none : ∀ c ∈ [9, 10, 11, 12, 13, (32 : UInt8)], digitValue 16 c = none := by decide
      rw [none c among] at digit
      cases digit
  · rintro rfl
    cases (show digitValue 16 (ch '-') = none by decide).symm.trans digit
  · rintro rfl
    cases (show digitValue 16 (ch '+') = none by decide).symm.trans digit

theorem octdigit_value (octal : nyIsOctdigit c = true) :
    digitValue 8 c = some (c.toNat - 48) ∧ digitValue 16 c = some (c.toNat - 48) := by
  have range : 48 ≤ c.toNat ∧ c.toNat ≤ 55 := by
    simp only [nyIsOctdigit, Bool.and_eq_true, decide_eq_true_eq, UInt8.le_iff_toNat_le] at octal
    simpa [ch] using octal
  have digit : isDigit c = true := by
    simp only [isDigit, Bool.and_eq_true, decide_eq_true_eq, UInt8.le_iff_toNat_le]
    simp [ch]
    omega
  simp only [digitValue, digit, if_true]
  rw [if_pos (by omega), if_pos (by omega)]
  exact ⟨rfl, rfl⟩

theorem strtol_digits {radix : Nat} {first : UInt8} {rest : List UInt8} {value : Nat}
    (digit : digitValue 16 first = some value) (short : radix = 16 → rest.length ≤ 1) :
    strtol (first :: rest) radix = digitsValue radix 0 (first :: rest) := by
  obtain ⟨space, minus, plus, -⟩ := digit_plain digit
  have stays : (first :: rest).dropWhile isSpaceC = first :: rest :=
    List.dropWhile_cons_of_neg (by simp [space])
  simp only [strtol, stays, if_neg minus, if_neg plus]
  split
  · next hexadecimal =>
    -- The text is too short for a prefix.
    have few := short hexadecimal
    match rest with
    | [] => rfl
    | [_] => rfl
    | _ :: _ :: more => simp at few
  · rfl

theorem digitsValue_octal (digits : List UInt8) (all : ∀ d ∈ digits, nyIsOctdigit d = true)
    (value : Nat) :
    digitsValue 8 value digits =
      digits.foldl (fun value digit => value * 8 + (digit.toNat - 48)) value := by
  induction digits generalizing value with
  | nil => rfl
  | cons digit rest ih =>
    have octal := (octdigit_value (all digit List.mem_cons_self)).1
    rw [digitsValue, octal, List.foldl_cons]
    exact ih (fun d member => all d (List.mem_cons_of_mem digit member)) _

theorem toByte_natCast (value : Nat) : toByte (value : Int) = UInt8.ofNat value := by
  have reduced : ((value : Int) % 256).toNat = value % 256 := by omega
  rw [toByte, reduced]
  apply UInt8.toNat_inj.mp
  simp

theorem lookup_octdigit (octal : nyIsOctdigit c = true) : namedEscapes.lookup c = none := by
  have letters : ∀ entry ∈ namedEscapes, nyIsOctdigit entry.1 = false := by decide
  rw [List.lookup_eq_none_iff]
  intro entry member
  have letter := letters entry member
  simp only [bne_iff_ne, ne_eq, beq_iff_eq]
  rintro rfl
  rw [letter] at octal
  cases octal

theorem takeWhile_octal {digits : List UInt8} (short : digits.length ≤ 3)
    (all : ∀ d ∈ digits, nyIsOctdigit d = true)
    (ends : digits.length = 3 ∨ nyIsOctdigit (body.getD 0 0) = false) :
    ((digits ++ body).take 3).takeWhile nyIsOctdigit = digits := by
  rw [List.take_append, List.take_of_length_le short, List.takeWhile_append_of_pos all]
  -- What comes behind the digits is cut off, or it does not begin with a digit.
  have nothing : (body.take (3 - digits.length)).takeWhile nyIsOctdigit = [] := by
    rcases ends with full | other
    · rw [full]
      rfl
    · cases body with
      | nil => simp
      | cons first rest =>
        cases 3 - digits.length with
        | zero => rfl
        | succ k =>
          rw [List.take_succ_cons, List.takeWhile_cons_of_neg]
          simpa using other
  rw [nothing, List.append_nil]

theorem unescapeStep_escape (esc : Escape piece byte) (whole : Whole piece body) :
    unescapeStep (piece ++ body) = ([byte], piece.length) := by
  cases esc with
  | named known =>
    show unescapeStep (ch '\\' :: _ :: body) = _
    rw [unescapeStep, if_pos rfl, unescapeEscape, known]
    rfl
  | @hex high low h l first second =>
    show unescapeStep (ch '\\' :: ch 'x' :: high :: low :: body) = _
    obtain ⟨-, -, -, small⟩ := digit_plain first
    obtain ⟨-, -, -, small'⟩ := digit_plain second
    have value : digitsValue 16 0 [high, low] = h * 16 + l := by
      simp only [digitsValue, first, second, Nat.zero_mul, Nat.zero_add]
    have unnamed : namedEscapes.lookup (ch 'x') = none := by decide
    have long : 2 ≤ (high :: low :: body).length := by simp
    have two : (high :: low :: body).take 2 = [high, low] := rfl
    rw [unescapeStep, if_pos rfl, unescapeEscape, unnamed]
    simp only [if_true, if_pos long, two]
    rw [strtol_digits first (fun _ => by simp), value]
    rw [toByte_natCast]
    rfl
  | @octal digits some_digit short all =>
    cases digits with
    | nil => exact absurd rfl some_digit
    | cons digit digits =>
      have octal := all digit List.mem_cons_self
      have ends : (digit :: digits).length = 3 ∨ nyIsOctdigit (body.getD 0 0) = false := by
        rcases whole with long | other | other
        · exact .inl (by simpa using long)
        · exact absurd octal (by simpa using other)
        · exact .inr other
      have taken := takeWhile_octal short all ends
      have letter : digit ≠ ch 'x' := by
        rintro rfl
        exact absurd octal (by decide)
      show unescapeStep (ch '\\' :: digit :: (digits ++ body)) = _
      rw [List.cons_append] at taken
      rw [unescapeStep, if_pos rfl, unescapeEscape, lookup_octdigit octal]
      simp only [if_neg letter, if_pos octal, taken]
      rw [strtol_digits (octdigit_value octal).2 (by omega), digitsValue_octal _ all,
        toByte_natCast]
      rfl

theorem stepSound_escape (esc : Escape piece byte) : stepSound (piece ++ body) = true := by
  cases esc with
  | named known =>
    show stepSound (ch '\\' :: _ :: body) = true
    simp [stepSound, known]
  | hex first second =>
    show stepSound (ch '\\' :: ch 'x' :: _ :: _ :: body) = true
    simp [stepSound, first, second]
  | @octal digits some_digit short all =>
    cases digits with
    | nil => exact absurd rfl some_digit
    | cons digit digits =>
      show stepSound (ch '\\' :: digit :: (digits ++ body)) = true
      simp [stepSound, all digit List.mem_cons_self]

theorem stepSound_raw (plain : c ≠ ch '\\') : stepSound (c :: body) = true := by
  cases body with
  | nil => rfl
  | cons e rest => simp [stepSound, plain]

theorem Escape.ne_nil (esc : Escape piece byte) : piece ≠ [] := by
  cases esc <;> exact List.cons_ne_nil _ _

theorem Spells.decoded (spells : Spells body out) :
    parserUnescapeString body = out ∧ soundEscapes body = true := by
  induction spells with
  | nil => exact ⟨rfl, rfl⟩
  | @raw c body out plain _ ih =>
    rw [parserUnescapeString_step (List.cons_ne_nil c body),
      soundEscapes_step (List.cons_ne_nil c body), unescapeStep_raw plain, stepSound_raw plain]
    exact ⟨congrArg (c :: ·) ih.1, ih.2⟩
  | last => exact ⟨rfl, rfl⟩
  | @escape piece body out byte esc whole _ ih =>
    have some_text : piece ++ body ≠ [] := by simp [esc.ne_nil]
    rw [parserUnescapeString_step some_text, soundEscapes_step some_text,
      unescapeStep_escape esc whole, stepSound_escape esc, List.drop_left]
    exact ⟨congrArg (byte :: ·) ih.1, ih.2⟩

theorem cons_of_getD {p : UInt8 → Bool} {text : List UInt8} (zero : p 0 = false)
    (passes : p (text.getD 0 0) = true) : ∃ first rest, text = first :: rest ∧ p first = true := by
  cases text with
  | nil => exact absurd passes (by simp [zero])
  | cons first rest => exact ⟨first, rest, rfl, by simpa using passes⟩

theorem escape_of_stepSound {e : UInt8} {rest : List UInt8}
    (known : stepSound (ch '\\' :: e :: rest) = true) :
    ∃ piece byte left, ch '\\' :: e :: rest = piece ++ left ∧ Escape piece byte ∧
      Whole piece left := by
  by_cases octal : nyIsOctdigit e = true
  · -- As many octal digits are taken as there are, up to three.
    cases second : nyIsOctdigit (rest.getD 0 0) with
    | false =>
      refine ⟨[ch '\\', e], _, rest, rfl, @Escape.octal [e] (by simp) (by simp) ?_,
        .inr (.inr second)⟩
      simpa using octal
    | true =>
      obtain ⟨a, more, rfl, isA⟩ := cons_of_getD (by decide) second
      cases third : nyIsOctdigit (more.getD 0 0) with
      | false =>
        refine ⟨[ch '\\', e, a], _, more, rfl, @Escape.octal [e, a] (by simp) (by simp) ?_,
          .inr (.inr third)⟩
        simpa using ⟨octal, isA⟩
      | true =>
        obtain ⟨b, left, rfl, isB⟩ := cons_of_getD (by decide) third
        refine ⟨[ch '\\', e, a, b], _, left, rfl, @Escape.octal [e, a, b] (by simp) (by simp)
          ?_, .inl rfl⟩
        simpa using ⟨octal, isA, isB⟩
  · have notOctal : nyIsOctdigit e = false := by simpa using octal
    cases letter : namedEscapes.lookup e with
    | some byte =>
      exact ⟨[ch '\\', e], byte, rest, rfl, .named letter, .inr (.inl notOctal)⟩
    | none =>
      -- What is left is an x with two hexadecimal digits.
      have zero : (fun c => (digitValue 16 c).isSome) 0 = false := by decide
      simp only [stepSound, letter, notOctal, Option.isSome_none, Bool.or_false, ne_eq,
        not_true_eq_false, decide_false, Bool.false_or, Bool.and_eq_true,
        decide_eq_true_eq] at known
      obtain ⟨⟨rfl, first⟩, second⟩ := known
      obtain ⟨high, more, rfl, isHigh⟩ :=
        @cons_of_getD (fun c => (digitValue 16 c).isSome) rest zero first
      obtain ⟨low, left, rfl, isLow⟩ :=
        @cons_of_getD (fun c => (digitValue 16 c).isSome) more zero (by simpa using second)
      obtain ⟨h, high_value⟩ := Option.isSome_iff_exists.mp isHigh
      obtain ⟨l, low_value⟩ := Option.isSome_iff_exists.mp isLow
      exact ⟨[ch '\\', ch 'x', high, low], _, left, rfl, .hex high_value low_value, .inl rfl⟩

theorem spells_of_soundEscapes (sound : soundEscapes body = true) :
    Spells body (parserUnescapeString body) := by
  -- The induction is on the length of what is left.
  induction length : body.length using Nat.strongRecOn generalizing body with
  | ind n ih =>
    match body with
    | [] => exact Spells.nil
    | [c] =>
      by_cases plain : c = ch '\\'
      · subst plain
        exact Spells.last
      · exact Spells.raw plain Spells.nil
    | c :: e :: rest =>
      have some_text : c :: e :: rest ≠ [] := List.cons_ne_nil _ _
      obtain ⟨onward, inside, -⟩ := unescapeStep_spec some_text
      rw [soundEscapes_step some_text, Bool.and_eq_true] at sound
      obtain ⟨known, others⟩ := sound
      have spells := ih _ (by rw [← length, List.length_drop]; omega) others rfl
      rw [parserUnescapeString_step some_text]
      by_cases plain : c = ch '\\'
      · subst plain
        obtain ⟨piece, byte, left, whole_text, esc, whole⟩ := escape_of_stepSound known
        rw [whole_text, unescapeStep_escape esc whole, List.drop_left] at spells
        rw [whole_text, unescapeStep_escape esc whole, List.drop_left]
        exact Spells.escape esc whole spells
      · rw [unescapeStep_raw plain] at spells ⊢
        exact Spells.raw plain spells

theorem spells_iff : Spells body (parserUnescapeString body) ↔ soundEscapes body = true :=
  ⟨fun spells => spells.decoded.2, spells_of_soundEscapes⟩

end Escapes

end Nytrix.Parse
