import Mathlib.Data.List.Chain
import Nytrix.Parse.LexerRuns
import Nytrix.Parse.StringsLaws

/-! String literals that are written from bytes: when the lexer and the decoder give them back. -/

-- What holds of all members of a list is decided member by member.
attribute [local instance (2000)] List.decidableBAll

namespace Nytrix.Parse

open Nytrix.Lib
open Nytrix.Types (nm ch)

/-- Whether a byte is written by an escape: a backslash, the quote, or a control byte. -/
def isEscaped (quote c : UInt8) : Bool := c = ch '\\' || c = quote || c < 32 || c = 127

/-- The ways to write a byte in a literal. -/
inductive Writes (quote : UInt8) : UInt8 → List UInt8 → Prop
  /-- As itself. -/
  | raw {c : UInt8} (plain : isEscaped quote c = false) : Writes quote c [c]
  /-- By the escape of one letter that stands for it. -/
  | named {c e : UInt8} (escaped : isEscaped quote c = true)
    (known : namedEscapes.lookup e = some c) : Writes quote c [ch '\\', e]
  /-- By two hexadecimal digits. -/
  | hex {high low : UInt8} {h l : Nat} (first : digitValue 16 high = some h)
    (second : digitValue 16 low = some l)
    (escaped : isEscaped quote (UInt8.ofNat (h * 16 + l)) = true) :
    Writes quote (UInt8.ofNat (h * 16 + l)) [ch '\\', ch 'x', high, low]
  /-- By three octal digits. -/
  | octal {digits : List UInt8} (three : digits.length = 3)
    (all : ∀ d ∈ digits, nyIsOctdigit d = true)
    (escaped : isEscaped quote (UInt8.ofNat (octalValue digits)) = true) :
    Writes quote (UInt8.ofNat (octalValue digits)) (ch '\\' :: digits)

/-- The forms of a literal: one quote at each end, or three. -/
inductive Form where
  | single
  | triple
  deriving DecidableEq

/-- The quotes at an end of a literal. -/
def Form.quotes (form : Form) (quote : UInt8) : List UInt8 :=
  match form with
  | .single => [quote]
  | .triple => [quote, quote, quote]

/-- The text of a literal whose bytes are written by these pieces. -/
def literalText (quote : UInt8) (form : Form) (pieces : List (List UInt8)) : List UInt8 :=
  form.quotes quote ++ (pieces.flatten ++ form.quotes quote)

/-- A byte that the search for the closing quote passes by itself. -/
def Passed (quote c : UInt8) : Prop := c ≠ quote ∧ c ≠ ch '\\' ∧ c ≠ 0

variable {quote c : UInt8} {piece : List UInt8} {b : List UInt8} {pieces : List (List UInt8)}

/-- A quote: the double one or the single one. -/
def IsQuote (quote : UInt8) : Prop := quote = ch '"' ∨ quote = ch '\''

theorem passed_of_digit (isQuote : IsQuote quote) {value : Nat}
    (digit : digitValue 16 c = some value) : Passed quote c := by
  have none : ∀ d ∈ [ch '"', ch '\'', ch '\\', 0], digitValue 16 d = none := by decide
  have other {d : UInt8} (member : d ∈ [ch '"', ch '\'', ch '\\', 0]) : c ≠ d := by
    rintro rfl
    cases (none c member).symm.trans digit
  refine ⟨?_, other (by simp), other (by simp)⟩
  rcases isQuote with rfl | rfl
  · exact other (by simp)
  · exact other (by simp)

theorem Writes.shape (isQuote : IsQuote quote) (writes : Writes quote c piece) :
    (∃ c, piece = [c] ∧ Passed quote c) ∨
      ∃ e rest, piece = ch '\\' :: e :: rest ∧ e ≠ 0 ∧ ∀ d ∈ rest, Passed quote d := by
  cases writes with
  | raw plain =>
    refine .inl ⟨c, rfl, ?_⟩
    simp only [isEscaped, Bool.or_eq_false_iff, decide_eq_false_iff_not] at plain
    obtain ⟨⟨⟨backslash, other⟩, control⟩, -⟩ := plain
    refine ⟨other, backslash, ?_⟩
    rintro rfl
    exact control (by decide)
  | @named _ e _ known =>
    refine .inr ⟨e, [], rfl, ?_, fun d member => absurd member List.not_mem_nil⟩
    rintro rfl
    cases (show namedEscapes.lookup 0 = none by decide).symm.trans known
  | @hex high low _ _ first second _ =>
    refine .inr ⟨ch 'x', [high, low], rfl, by decide, ?_⟩
    intro d member
    rcases List.mem_cons.mp member with rfl | last
    · exact passed_of_digit isQuote first
    · rw [List.mem_singleton.mp last]
      exact passed_of_digit isQuote second
  | @octal digits three all _ =>
    cases digits with
    | nil => cases three
    | cons e rest =>
      have passed (d : UInt8) (member : d ∈ e :: rest) : Passed quote d :=
        passed_of_digit isQuote (octdigit_value (all d member)).2
      exact .inr ⟨e, rest, rfl, (passed e List.mem_cons_self).2.2,
        fun d member => passed d (List.mem_cons_of_mem e member)⟩

theorem spells_of_writes (written : List.Forall₂ (Writes quote) b pieces) :
    Spells pieces.flatten b := by
  induction written with
  | nil => exact Spells.nil
  | @cons c piece b pieces writes _ ih =>
    rw [List.flatten_cons]
    cases writes with
    | raw plain =>
      refine Spells.raw ?_ ih
      rintro rfl
      simp [isEscaped] at plain
    | named _ known =>
      refine Spells.escape (.named known) ?_ ih
      -- A letter with a meaning is no octal digit.
      cases octal : nyIsOctdigit _ with
      | false => exact .inr (.inl octal)
      | true => cases (lookup_octdigit octal).symm.trans known
    | hex first second _ => exact Spells.escape (.hex first second) (.inl rfl) ih
    | @octal digits three all _ =>
      refine Spells.escape (.octal ?_ (by omega) all) (.inl (by simp [three])) ih
      rintro rfl
      cases three

section Lexing

variable {src : Source} {pos : Nat} {text rest : List UInt8}

theorem byte_of_drop (left : src.bytes.drop pos = c :: rest) :
    src.byte pos = c ∧ src.bytes.drop (pos + 1) = rest := by
  have here : src.bytes[pos]? = some c := by
    rw [← List.head?_drop, left, List.head?_cons]
  refine ⟨?_, ?_⟩
  · rw [Source.byte, List.getD_eq_getElem?_getD, here, Option.getD_some]
  · rw [← List.drop_drop, left, List.drop_one, List.tail_cons]

theorem closingQuote_passed (all : ∀ d ∈ text, Passed quote d) (n : Nat)
    (left : src.bytes.drop pos = text ++ rest) :
    closingQuote src quote (n + text.length) pos =
      closingQuote src quote n (pos + text.length) := by
  induction text generalizing pos with
  | nil => rfl
  | cons c text ih =>
    obtain ⟨here, behind⟩ := byte_of_drop left
    obtain ⟨other, backslash, nonzero⟩ := all c List.mem_cons_self
    rw [List.length_cons, ← Nat.add_assoc, closingQuote, here]
    simp only [other, nonzero, backslash, decide_false, Bool.or_false, Bool.false_and,
      Bool.false_eq_true, if_false]
    rw [ih (fun d member => all d (List.mem_cons_of_mem c member)) behind]
    congr 1
    omega

theorem closingQuote_escape {e : UInt8} (isQuote : IsQuote quote) (nonzero : e ≠ 0) (n : Nat)
    (left : src.bytes.drop pos = ch '\\' :: e :: rest) :
    closingQuote src quote (n + 1) pos = closingQuote src quote n (pos + 2) := by
  obtain ⟨here, behind⟩ := byte_of_drop left
  obtain ⟨next, -⟩ := byte_of_drop behind
  have other : ch '\\' ≠ quote := by
    rcases isQuote with rfl | rfl
    · decide
    · decide
  have some_byte : ch '\\' ≠ 0 := by decide
  rw [closingQuote, here, next]
  simp [other, some_byte, nonzero]

theorem closingQuote_piece (isQuote : IsQuote quote) (writes : Writes quote c piece) {n : Nat}
    (enough : piece.length ≤ n) (left : src.bytes.drop pos = piece ++ rest) :
    ∃ k, n - piece.length ≤ k ∧
      closingQuote src quote n pos = closingQuote src quote k (pos + piece.length) := by
  rcases writes.shape isQuote with ⟨d, rfl, passed⟩ | ⟨e, digits, rfl, nonzero, passed⟩
  · -- A byte takes one step.
    obtain ⟨k, rfl⟩ := Nat.exists_eq_add_of_le' enough
    exact ⟨k, by omega, closingQuote_passed (by simpa using passed) k left⟩
  · -- An escape takes one step, and each of its digits one more.
    simp only [List.length_cons] at enough ⊢
    obtain ⟨k, rfl⟩ := Nat.exists_eq_add_of_le' enough
    obtain ⟨-, behind⟩ := byte_of_drop left
    obtain ⟨-, behind⟩ := byte_of_drop behind
    refine ⟨k + 1, by omega, ?_⟩
    rw [show k + (digits.length + 1 + 1) = k + 1 + digits.length + 1 by omega,
      closingQuote_escape isQuote nonzero _ left, closingQuote_passed passed (k + 1) behind]
    congr 1
    omega

theorem closingQuote_written (isQuote : IsQuote quote)
    (written : List.Forall₂ (Writes quote) b pieces) {n : Nat} (enough : pieces.flatten.length ≤ n)
    (left : src.bytes.drop pos = pieces.flatten ++ quote :: rest) :
    closingQuote src quote n pos = pos + pieces.flatten.length := by
  induction written generalizing pos n with
  | nil =>
    obtain ⟨here, -⟩ := byte_of_drop left
    cases n with
    | zero => rfl
    | succ n => simp [closingQuote, here]
  | @cons c piece b pieces writes _ ih =>
    rw [List.flatten_cons, List.length_append] at enough ⊢
    rw [List.flatten_cons, List.append_assoc] at left
    have onward : src.bytes.drop (pos + piece.length) = pieces.flatten ++ quote :: rest := by
      rw [← List.drop_drop, left, List.drop_left]
    have fits : piece.length ≤ n := by omega
    obtain ⟨k, steps, same⟩ := closingQuote_piece isQuote writes fits left
    rw [same, ih (by omega) onward]
    omega

/-- No quote follows another one. -/
def Apart (quote : UInt8) (text : List UInt8) : Prop :=
  text.IsChain fun first second => first = quote → second ≠ quote

theorem apart_cons (first : UInt8) (others : ∀ d ∈ text, d ≠ quote) :
    Apart quote (first :: text) := by
  induction text generalizing first with
  | nil => exact List.IsChain.singleton first
  | cons second text ih =>
    rw [Apart, List.isChain_cons_cons]
    exact ⟨fun _ => others second List.mem_cons_self,
      ih second fun d member => others d (List.mem_cons_of_mem second member)⟩

theorem backslash_ne_quote (isQuote : IsQuote quote) : ch '\\' ≠ quote := by
  rcases isQuote with rfl | rfl
  · decide
  · decide

theorem Writes.apart (isQuote : IsQuote quote) (writes : Writes quote c piece) :
    Apart quote piece ∧ ∀ first ∈ piece.head?, first ≠ quote := by
  rcases writes.shape isQuote with ⟨d, rfl, passed⟩ | ⟨e, digits, rfl, -, passed⟩
  · exact ⟨List.IsChain.singleton d, by simpa using passed.1⟩
  · refine ⟨?_, by simpa using backslash_ne_quote isQuote⟩
    rw [Apart, List.isChain_cons_cons]
    exact ⟨fun same => absurd same (backslash_ne_quote isQuote),
      apart_cons e fun d member => (passed d member).1⟩

theorem apart_written (isQuote : IsQuote quote) (written : List.Forall₂ (Writes quote) b pieces) :
    Apart quote pieces.flatten ∧ ∀ first ∈ pieces.flatten.head?, first ≠ quote := by
  induction written with
  | nil => exact ⟨List.IsChain.nil, by simp⟩
  | @cons c piece b pieces writes _ ih =>
    obtain ⟨alone, begins⟩ := writes.apart isQuote
    rw [List.flatten_cons]
    refine ⟨?_, ?_⟩
    · refine List.IsChain.append alone ih.1 ?_
      intro last _ first member _
      exact ih.2 first member
    · rcases writes.shape isQuote with ⟨d, rfl, -⟩ | ⟨e, digits, rfl, -⟩
      · simpa using begins
      · simpa using begins

theorem Writes.last (isQuote : IsQuote quote) (writes : Writes quote c piece) :
    piece.getLast? = some quote ↔ piece = [ch '\\', quote] := by
  rcases writes.shape isQuote with ⟨d, rfl, passed⟩ | ⟨e, digits, rfl, -, passed⟩
  · simpa using passed.1
  · rcases List.eq_nil_or_concat digits with rfl | ⟨front, last, rfl⟩
    · simp
    · have other := (passed last (by simp)).1
      simp [List.getLast?_cons, other]

theorem Writes.ne_nil (isQuote : IsQuote quote) (writes : Writes quote c piece) : piece ≠ [] := by
  rcases writes.shape isQuote with ⟨d, rfl, -⟩ | ⟨e, digits, rfl, -⟩ <;> exact List.cons_ne_nil _ _

theorem last_written (isQuote : IsQuote quote) (written : List.Forall₂ (Writes quote) b pieces) :
    pieces.flatten.getLast? = some quote ↔ pieces.getLast? = some [ch '\\', quote] := by
  induction written with
  | nil => simp
  | @cons c piece b pieces writes others ih =>
    rw [List.flatten_cons]
    cases others with
    | nil => simpa using writes.last isQuote
    | @cons d next b' pieces' writes' _ =>
      have some_text : (next :: pieces').flatten ≠ [] := by
        rw [List.flatten_cons]
        exact fun none => writes'.ne_nil isQuote (List.append_eq_nil_iff.mp none).1
      rw [List.getLast?_append_of_ne_nil _ some_text, ih, List.getLast?_cons_cons]

theorem byte_text {form : Form} (whole : src.bytes = literalText quote form pieces) (k : Nat) :
    src.byte ((form.quotes quote).length + k) =
      (pieces.flatten ++ form.quotes quote).getD k 0 := by
  rw [Source.byte, whole, literalText, List.getD_append_right _ _ _ _ (Nat.le_add_right _ _),
    Nat.add_sub_cancel_left]

theorem byte_zero {form : Form} (whole : src.bytes = literalText quote form pieces) :
    src.byte 0 = quote := by
  rw [Source.byte, whole, literalText]
  cases form <;> rfl

theorem scanToken_quote (isQuote : IsQuote quote) {start : Nat} (here : src.byte start = quote) :
    scanToken src start =
      scanString src start quote (start + 1) .string "unterminated string literal" := by
  rcases isQuote with rfl | rfl
  · simp only [scanToken, here]
    rfl
  · simp only [scanToken, here]
    rfl

theorem lexerNext_quote (isQuote : IsQuote quote) (here : src.byte 0 = quote) {stop : Nat}
    (ends : stringEnd src quote 1 = (stop, true)) (n : Nat) :
    lexerNext src (n + 1) lexerInit = some (⟨.string, 0, stop⟩, ⟨stop, []⟩) := by
  have stays : skipWhitespace src (src.len + 1) lexerInit = some lexerInit := by
    have step : skipStep src 0 = .stays := by
      simp only [skipStep, here]
      rcases isQuote with rfl | rfl <;> rfl
    simp only [skipWhitespace, lexerInit, step]
  have nonzero : ¬ src.byte lexerInit.pos = 0 := by
    show ¬ src.byte 0 = 0
    rw [here]
    rcases isQuote with rfl | rfl <;> decide
  have scan : scanToken src lexerInit.pos = ⟨some .string, stop, []⟩ := by
    show scanToken src 0 = _
    rw [scanToken_quote isQuote here, scanString, ends]
  simp only [lexerNext, stays, Option.bind_eq_bind, Option.bind_some, if_neg nonzero, scan]
  rfl

theorem quote_ne_zero (isQuote : IsQuote quote) : quote ≠ 0 := by
  rcases isQuote with rfl | rfl <;> decide

theorem Apart.not_both (isQuote : IsQuote quote) (apart : Apart quote text) {k : Nat}
    (first : text.getD k 0 = quote) : text.getD (k + 1) 0 ≠ quote := by
  intro second
  rcases Nat.lt_or_ge (k + 1) text.length with inside | outside
  · rw [List.getD_eq_getElem _ _ (by omega)] at first
    rw [List.getD_eq_getElem _ _ inside] at second
    exact List.isChain_iff_getElem.mp apart k inside first second
  · rw [List.getD_eq_default _ _ outside] at second
    exact quote_ne_zero isQuote second.symm

theorem stringEnd_single (isQuote : IsQuote quote)
    (written : List.Forall₂ (Writes quote) b pieces)
    (whole : src.bytes = literalText quote .single pieces) :
    stringEnd src quote 1 = (src.len, true) := by
  have length : src.len = pieces.flatten.length + 2 := by
    rw [Source.len, whole]
    simp [literalText, Form.quotes]
  have at_place (k : Nat) : src.byte (1 + k) = (pieces.flatten ++ [quote]).getD k 0 :=
    byte_text whole k
  -- The first two bytes behind the quote are not both quotes.
  have opens : (src.byte 1 = quote && src.byte (1 + 1) = quote) = false := by
    rw [Bool.and_eq_false_iff, decide_eq_false_iff_not, decide_eq_false_iff_not]
    by_cases first : src.byte 1 = quote
    · right
      have here := at_place 0
      have next := at_place 1
      cases text : pieces.flatten with
      | nil =>
        rw [next, text]
        exact (quote_ne_zero isQuote).symm
      | cons c rest =>
        have other := (apart_written isQuote written).2 c (by simp [text])
        rw [text] at here
        exact absurd (here.symm.trans first) other
    · exact .inl first
  have left : src.bytes.drop 1 = pieces.flatten ++ quote :: [] := by
    rw [whole]
    rfl
  have close : closingQuote src quote (src.len - 1) 1 = 1 + pieces.flatten.length :=
    closingQuote_written isQuote written (by omega) left
  have ends : src.byte (1 + pieces.flatten.length) = quote := by
    rw [at_place]
    simp
  rw [stringEnd, opens]
  simp only [Bool.false_eq_true, if_false, close, ends, if_true]
  rw [length]
  congr 1
  omega

theorem stringEnd_triple (whole : src.bytes = literalText quote .triple pieces) :
    stringEnd src quote 1 = tripleEnd src quote 3 := by
  have first : src.byte 1 = quote := by
    rw [Source.byte, whole]
    rfl
  have second : src.byte (1 + 1) = quote := by
    rw [Source.byte, whole]
    rfl
  rw [stringEnd, first, second]
  simp

/-- Where three quotes begin in a triple-quoted literal. -/
theorem tripleEnd_written (isQuote : IsQuote quote)
    (written : List.Forall₂ (Writes quote) b pieces)
    (whole : src.bytes = literalText quote .triple pieces) :
    tripleEnd src quote 3 = (src.len, true) ↔ pieces.getLast? ≠ some [ch '\\', quote] := by
  have length : src.len = pieces.flatten.length + 6 := by
    rw [Source.len, whole]
    simp [literalText, Form.quotes]
  have at_place (k : Nat) :
      src.byte (3 + k) = (pieces.flatten ++ [quote, quote, quote]).getD k 0 := byte_text whole k
  have behind (k : Nat) (less : k < 3) : src.byte (3 + (pieces.flatten.length + k)) = quote := by
    rw [at_place, List.getD_append_right _ _ _ _ (Nat.le_add_right _ _), Nat.add_sub_cancel_left]
    obtain rfl | rfl | rfl : k = 0 ∨ k = 1 ∨ k = 2 := by omega
    all_goals rfl
  have first := @Source.find_first src 3
    (fun i => src.byte i = quote && src.byte (i + 1) = quote && src.byte (i + 2) = quote) (by omega)
  rw [ne_eq, ← last_written isQuote written]
  constructor
  · intro ends last
    -- The escaped quote at the end is the first of three.
    obtain ⟨front, text⟩ := List.getLast?_eq_some_iff.mp last
    have size : pieces.flatten.length = front.length + 1 := by
      rw [text, List.length_append, List.length_singleton]
    have early : src.byte (3 + front.length) = quote := by
      rw [at_place, text]
      simp
    have next := behind 0 (by omega)
    have after := behind 1 (by omega)
    rw [size] at next after
    have stops : (src.byte (3 + front.length) = quote && src.byte (3 + front.length + 1) = quote &&
        src.byte (3 + front.length + 2) = quote) = true := by
      rw [early, show 3 + front.length + 1 = 3 + (front.length + 1 + 0) by omega, next,
        show 3 + front.length + 2 = 3 + (front.length + 1 + 1) by omega, after]
      simp
    have bound : src.find (fun i => src.byte i = quote && src.byte (i + 1) = quote &&
        src.byte (i + 2) = quote) 3 ≤ 3 + front.length := by
      by_contra later
      exact first.before (3 + front.length) (by omega) (by omega) (.inr stops)
    have stop := congrArg Prod.fst ends
    rw [tripleEnd] at stop
    split at stop <;> simp only at stop <;> omega
  · intro last
    -- No quote follows another one before the end of what was written.
    have apart : Apart quote (pieces.flatten ++ [quote]) := by
      refine List.IsChain.append (apart_written isQuote written).1 (List.IsChain.singleton quote) ?_
      intro final member _ _ same
      exact absurd (same ▸ member) last
    have within (k : Nat) (inside : k ≤ pieces.flatten.length) :
        src.byte (3 + k) = (pieces.flatten ++ [quote]).getD k 0 := by
      rw [at_place]
      rcases Nat.lt_or_ge k pieces.flatten.length with less | more
      · rw [List.getD_append _ _ _ _ less, List.getD_append _ _ _ _ less]
      · obtain rfl : k = pieces.flatten.length := by omega
        simp
    have closes : First (fun i => i = src.len ∨ (src.byte i = quote && src.byte (i + 1) = quote &&
        src.byte (i + 2) = quote) = true) 3 (3 + pieces.flatten.length) := by
      refine ⟨by omega, .inr ?_, ?_⟩
      · have one := behind 0 (by omega)
        have two := behind 1 (by omega)
        have three := behind 2 (by omega)
        simp only [← Nat.add_assoc, Nat.add_zero] at one two three
        rw [one, two, three]
        simp
      · intro i after before found
        rcases found with ended | stops
        · omega
        · simp only [Bool.and_eq_true, decide_eq_true_eq] at stops
          obtain ⟨k, rfl⟩ := Nat.exists_eq_add_of_le after
          have here := stops.1.1
          have next := stops.1.2
          rw [within k (by omega)] at here
          rw [Nat.add_assoc, within (k + 1) (by omega)] at next
          exact apart.not_both isQuote here next
    rw [tripleEnd, first.unique closes, if_pos (by omega), length]
    congr 1
    omega

theorem scanString_quote (start : Nat) (msg : String) (pos : Nat) :
    (scanString src start quote pos .string msg).stop = (stringEnd src quote pos).1 ∧
      ((scanString src start quote pos .string msg).kind = some .string ↔
        (stringEnd src quote pos).2 = true) := by
  cases ends : stringEnd src quote pos with
  | mk stop closed => cases closed <;> simp [scanString, ends]

theorem isTriple_literal (isQuote : IsQuote quote)
    (written : List.Forall₂ (Writes quote) b pieces) (form : Form) :
    isTriple (literalText quote form pieces) = decide (form = .triple) := by
  cases form with
  | single =>
    show isTriple (quote :: (pieces.flatten ++ [quote])) = false
    cases text : pieces.flatten with
    | nil => rfl
    | cons c rest =>
      -- What was written does not begin with the quote.
      have other : c ≠ quote := (apart_written isQuote written).2 c (by simp [text])
      simp [isTriple, other.symm]
  | triple =>
    show isTriple (quote :: quote :: quote :: (pieces.flatten ++ [quote, quote, quote])) = true
    simp [isTriple]

theorem decode_literal (isQuote : IsQuote quote) (written : List.Forall₂ (Writes quote) b pieces)
    (form : Form) : parserDecodeString (literalText quote form pieces) = b := by
  have triple := isTriple_literal isQuote written form
  have spelled := (spells_of_writes written).decoded.1
  cases form with
  | single =>
    have body : ((literalText quote .single pieces).drop 1).take
        ((literalText quote .single pieces).length - 1 - 1) = pieces.flatten := by
      simp [literalText, Form.quotes]
    simp only [parserDecodeString, triple, reduceCtorEq, decide_false, Bool.false_eq_true, if_false]
    rw [if_neg (by simp [literalText, Form.quotes]), body, spelled]
  | triple =>
    have body : ((literalText quote .triple pieces).drop 3).take
        ((literalText quote .triple pieces).length - 3 - 3) = pieces.flatten := by
      simp [literalText, Form.quotes]
    simp only [parserDecodeString, triple, decide_true, if_true]
    rw [if_neg (by simp [literalText, Form.quotes]), body, spelled]

theorem lexerNext_scan {lx lx' : Lexer} {token : Token} {n : Nat}
    (next : lexerNext src n lx = some (token, lx')) :
    token.kind = .eof ∨ (src.byte token.start ≠ 0 ∧
      (scanToken src token.start).kind = some token.kind ∧
      token.len = (scanToken src token.start).stop - token.start) := by
  -- The induction is on the steps: each is a token, or a report of what is none.
  induction n generalizing lx with
  | zero => cases next
  | succ n ih =>
    rw [lexerNext] at next
    obtain ⟨lx₁, -, next⟩ := Option.bind_eq_some_iff.mp next
    split at next
    · obtain ⟨rfl, -⟩ := by simpa using next
      exact .inl rfl
    · next here =>
      cases kind : (scanToken src lx₁.pos).kind with
      | none => exact ih (by simpa [kind] using next)
      | some kind' =>
        obtain ⟨rfl, -⟩ : _ ∧ _ := by simpa [kind] using next
        exact .inr ⟨here, kind, rfl⟩

theorem literal_read_iff (isQuote : IsQuote quote) {form : Form}
    (written : List.Forall₂ (Writes quote) b pieces)
    (whole : src.bytes = literalText quote form pieces) (n : Nat) :
    (∃ token lx, lexerNext src (n + 1) lexerInit = some (token, lx) ∧ token.kind = .string ∧
        src.lexeme token = src.bytes ∧ parserDecodeString (src.lexeme token) = b) ↔
      ¬ (form = .triple ∧ pieces.getLast? = some [ch '\\', quote]) := by
  have here : src.byte 0 = quote := byte_zero whole
  -- The whole text is a token when the string ends with it.
  have read (ends : stringEnd src quote 1 = (src.len, true)) :
      ∃ token lx, lexerNext src (n + 1) lexerInit = some (token, lx) ∧ token.kind = .string ∧
        src.lexeme token = src.bytes ∧ parserDecodeString (src.lexeme token) = b := by
    have lexeme : src.lexeme ⟨.string, 0, src.len⟩ = src.bytes := List.take_length
    refine ⟨_, _, lexerNext_quote isQuote here ends n, rfl, lexeme, ?_⟩
    rw [lexeme, whole]
    exact decode_literal isQuote written form
  cases form with
  | single => exact ⟨fun _ => by simp, fun _ => read (stringEnd_single isQuote written whole)⟩
  | triple =>
    have ends := stringEnd_triple whole
    have closes := tripleEnd_written isQuote written whole
    constructor
    · rintro ⟨token, lx, next, kind, lexeme, -⟩ ⟨-, last⟩
      -- The token would end with the text, and the text with three quotes.
      have some_text : 0 < src.len := by
        rw [Source.len, whole]
        simp [literalText, Form.quotes]
      have length : min token.len (src.len - token.start) = src.len := by
        have lengths := congrArg List.length lexeme
        rwa [Source.lexeme, List.length_take, List.length_drop] at lengths
      have start : token.start = 0 := by omega
      rcases lexerNext_scan next with eof | ⟨-, scan, size⟩
      · exact absurd (kind.symm.trans eof) (by decide)
      · rw [start, scanToken_quote isQuote here, kind] at scan
        rw [start, scanToken_quote isQuote here] at size
        obtain ⟨stops, closed⟩ :=
          @scanString_quote quote src 0 "unterminated string literal" (0 + 1)
        have inside := (@tripleEnd_onward src 3 quote (quote_ne_zero isQuote)).inside
        refine closes.mp ?_ last
        rw [stops, Nat.zero_add, ends] at size
        rw [scan, Nat.zero_add, ends] at closed
        refine Prod.ext ?_ (closed.mp rfl)
        have bound := inside (by rw [Source.len, whole]; simp [literalText, Form.quotes])
        show (tripleEnd src quote 3).1 = src.len
        omega
    · intro good
      refine read ?_
      rw [ends, closes]
      exact fun last => good ⟨rfl, last⟩

theorem keywords_no_literal : ∀ entry ∈ keywords, entry.2 ≠ .string ∧ entry.2 ≠ .number := by decide

theorem operators_no_literal :
    ∀ entry ∈ operators, entry.2 ≠ .token .string ∧ entry.2 ≠ .token .number := by decide

theorem scanName_no_literal {start stop : Nat} :
    (scanName src start stop).kind ≠ some .string ∧
      (scanName src start stop).kind ≠ some .number := by
  rw [scanName, identifierType]
  split
  · rename_i entry found
    simpa using keywords_no_literal entry (List.mem_of_find?_eq_some found)
  · split
    · simp
    · simp

theorem scanNumber_no_string {start : Nat} : (scanNumber src start).kind ≠ some .string := by
  -- Every number is one, or it is an error.
  have radix (digit : UInt8 → Bool) (required : Option (String × String)) :
      (lexRadixNumber src start digit required).kind ≠ some .string := by
    cases required with
    | none => simp [lexRadixNumber]
    | some report =>
      simp only [lexRadixNumber]
      split <;> simp
  rw [scanNumber]
  split
  · exact radix _ _
  split
  · exact radix _ _
  split
  · exact radix _ _
  · rw [scanDecimal]
    simp only
    split
    · split <;> simp
    · simp

theorem scanOperator_no_literal {start : Nat} :
    (scanOperator src start).kind ≠ some .string ∧
      (scanOperator src start).kind ≠ some .number := by
  rw [scanOperator]
  split
  · simp
  · rename_i spelling operator found
    have listed := List.mem_of_find?_eq_some found
    cases operator with
    | token kind =>
      have other := operators_no_literal _ listed
      simpa using other
    | refuse msg hint => simp
    | lineComment msg hint => simp
    | blockComment msg hint => simp

theorem scanToken_string {start : Nat} (string : (scanToken src start).kind = some .string) :
    IsQuote (src.byte start) := by
  rw [scanToken] at string
  split at string
  · rw [scanString] at string
    split at string <;> simp at string
  split at string
  · exact absurd string scanName_no_literal.1
  split at string
  · exact absurd string scanName_no_literal.1
  split at string
  · exact absurd string scanNumber_no_string
  split at string
  · next quoted => simpa [IsQuote] using quoted
  · exact absurd string scanOperator_no_literal.1

/-- How many quotes the lexer takes at each end of a string. -/
def quotesAt (src : Source) (start : Nat) : Nat :=
  if src.byte (start + 1) = src.byte start && src.byte (start + 2) = src.byte start then 3 else 1

/-- The body of a literal: what stands between the quotes that the lexer takes. -/
def literalBody (src : Source) (token : Token) : List UInt8 :=
  ((src.lexeme token).drop (quotesAt src token.start)).take
    (token.len - quotesAt src token.start - quotesAt src token.start)

theorem stringEnd_quotes {start : Nat} (isQuote : IsQuote (src.byte start))
    (closed : (stringEnd src (src.byte start) (start + 1)).2 = true) :
    start + 2 * quotesAt src start ≤ (stringEnd src (src.byte start) (start + 1)).1 ∧
      (stringEnd src (src.byte start) (start + 1)).1 ≤ src.len := by
  have nonzero := quote_ne_zero isQuote
  have onward := @stringEnd_onward src (start + 1) _ nonzero
  refine ⟨?_, onward.inside (Source.lt_len nonzero)⟩
  rw [stringEnd] at closed ⊢
  rw [quotesAt]
  split
  · next triple =>
    -- Three quotes are searched for behind the first three.
    rw [if_pos triple, tripleEnd] at closed
    rw [tripleEnd]
    have later := (@Source.find_onward src (start + 1 + 2) fun i => src.byte i = src.byte start &&
      src.byte (i + 1) = src.byte start && src.byte (i + 2) = src.byte start).le
    split at closed
    · next early =>
      rw [if_pos early]
      show start + 2 * 3 ≤ _ + 3
      omega
    · cases closed
  · next single =>
    rw [if_neg single] at closed
    have later : start + 1 ≤
        closingQuote src (src.byte start) (src.len - (start + 1)) (start + 1) :=
      (closingQuote_onward _ _).le
    simp only at closed
    split at closed
    · next same =>
      rw [if_pos same]
      show start + 2 * 1 ≤ _ + 1
      omega
    · cases closed

theorem lexeme_getD {token : Token} {k : Nat} (inside : k < token.len) :
    (src.lexeme token).getD k 0 = src.byte (token.start + k) := by
  rw [Source.lexeme, Source.byte, List.getD_eq_getElem?_getD, List.getElem?_take_of_lt inside,
    List.getElem?_drop, ← List.getD_eq_getElem?_getD]

theorem decode_token {lx lx' : Lexer} {token : Token} {n : Nat}
    (next : lexerNext src n lx = some (token, lx')) (kind : token.kind = .string) :
    parserDecodeString (src.lexeme token) = parserUnescapeString (literalBody src token) ∧
      (literalBody src token).length ≤ token.len := by
  rcases lexerNext_scan next with eof | ⟨-, scan, size⟩
  · exact absurd (kind.symm.trans eof) (by decide)
  · rw [kind] at scan
    have isQuote := scanToken_string scan
    rw [scanToken_quote isQuote rfl] at scan size
    obtain ⟨stops, closes⟩ :=
      @scanString_quote _ src token.start "unterminated string literal" (token.start + 1)
    rw [stops] at size
    obtain ⟨enough, inside⟩ := stringEnd_quotes isQuote (closes.mp scan)
    have length : (src.lexeme token).length = token.len := by
      rw [Source.lexeme, List.length_take, List.length_drop]
      rw [Source.len] at inside
      omega
    have one_or_three : quotesAt src token.start = 1 ∨ quotesAt src token.start = 3 := by
      rw [quotesAt]
      split <;> simp
    have long : 2 * quotesAt src token.start ≤ token.len := by omega
    -- The decoder and the lexer see the same quotes.
    have same : (if isTriple (src.lexeme token) then 3 else 1) = quotesAt src token.start := by
      rw [quotesAt]
      split
      · next triple =>
        simp only [isTriple, length, Bool.and_eq_true, decide_eq_true_eq] at triple
        obtain ⟨⟨six, first⟩, second⟩ := triple
        rw [lexeme_getD (by omega), lexeme_getD (by omega), Nat.add_zero] at first
        rw [lexeme_getD (by omega), lexeme_getD (by omega)] at second
        simp [← second, ← first]
      · next single =>
        split
        · next triple =>
          refine absurd ?_ single
          have six : 6 ≤ token.len := by
            rw [quotesAt, if_pos triple] at long
            exact long
          simp only [Bool.and_eq_true, decide_eq_true_eq] at triple
          simp only [isTriple, length, Bool.and_eq_true, decide_eq_true_eq]
          rw [lexeme_getD (by omega), lexeme_getD (by omega), lexeme_getD (by omega)]
          exact ⟨⟨six, triple.1.symm⟩, triple.1.trans triple.2.symm⟩
        · rfl
    refine ⟨?_, ?_⟩
    · rw [parserDecodeString]
      simp only [same, length]
      rw [if_neg (by omega), literalBody]
    · rw [literalBody, List.length_take]
      omega

theorem token_decoded_iff {lx lx' : Lexer} {token : Token} {n : Nat}
    (next : lexerNext src n lx = some (token, lx')) (kind : token.kind = .string) :
    (parserDecodeString (src.lexeme token)).length ≤ token.len ∧
      (Spells (literalBody src token) (parserDecodeString (src.lexeme token)) ↔
        soundEscapes (literalBody src token) = true) := by
  obtain ⟨decoded, short⟩ := decode_token next kind
  rw [decoded]
  exact ⟨Nat.le_trans (length_parserUnescapeString _) short, spells_iff⟩

/--
String literals decode to what was encoded, and all of a body is decoded, exactly under these
conditions.

- No literal of three quotes writes its last byte as a backslash and the quote.
- Every escape of the body of a token is known.
-/
theorem string_literals_iff (isQuote : IsQuote quote) {form : Form}
    (written : List.Forall₂ (Writes quote) b pieces)
    (whole : src.bytes = literalText quote form pieces) (n : Nat)
    {src' : Source} {lx lx' : Lexer} {token : Token} {n' : Nat}
    (next : lexerNext src' n' lx = some (token, lx')) (kind : token.kind = .string) :
    ((∃ token lx, lexerNext src (n + 1) lexerInit = some (token, lx) ∧ token.kind = .string ∧
        src.lexeme token = src.bytes ∧ parserDecodeString (src.lexeme token) = b) ↔
      ¬ (form = .triple ∧ pieces.getLast? = some [ch '\\', quote])) ∧
    (parserDecodeString (src'.lexeme token)).length ≤ token.len ∧
    (Spells (literalBody src' token) (parserDecodeString (src'.lexeme token)) ↔
      soundEscapes (literalBody src' token) = true) :=
  ⟨literal_read_iff isQuote written whole n, token_decoded_iff next kind⟩

/-- The text of a literal of one letter. -/
def letterText : Source := ⟨nm "\"a\"", by decide⟩

/-- The literal of one letter is read. -/
theorem string_literals_iff_letter :
    List.Forall₂ (Writes (ch '"')) [ch 'a'] [[ch 'a']] ∧
    lexerNext letterText 1 lexerInit = some (⟨.string, 0, 3⟩, ⟨3, []⟩) ∧
    ((∃ token lx, lexerNext letterText (0 + 1) lexerInit = some (token, lx) ∧
        token.kind = .string ∧ letterText.lexeme token = letterText.bytes ∧
        parserDecodeString (letterText.lexeme token) = [ch 'a']) ↔
      ¬ (Form.single = .triple ∧ [[ch 'a']].getLast? = some [ch '\\', ch '"'])) ∧
    (parserDecodeString (letterText.lexeme ⟨.string, 0, 3⟩)).length ≤ 3 ∧
    (Spells (literalBody letterText ⟨.string, 0, 3⟩)
        (parserDecodeString (letterText.lexeme ⟨.string, 0, 3⟩)) ↔
      soundEscapes (literalBody letterText ⟨.string, 0, 3⟩) = true) := by
  have written : List.Forall₂ (Writes (ch '"')) [ch 'a'] [[ch 'a']] :=
    .cons (.raw (by decide)) .nil
  have next : lexerNext letterText 1 lexerInit = some (⟨.string, 0, 3⟩, ⟨3, []⟩) :=
    lexerNext_quote (.inl rfl) rfl (stringEnd_single (.inl rfl) written rfl) 0
  exact ⟨written, next,
    @string_literals_iff (ch '"') [ch 'a'] [[ch 'a']] letterText (.inl rfl) .single written rfl 0
      letterText lexerInit _ _ 1 next rfl⟩

/-- The text of a literal of three quotes whose one byte is an escaped quote. -/
def escapedQuoteText : Source := ⟨nm "\"\"\"\\\"\"\"\"", by decide⟩

/-- The text of a literal whose escape has one hexadecimal digit. -/
def halfEscapeText : Source := ⟨nm "\"\\x4\"", by decide⟩

/-- An escaped quote at the end of a literal of three quotes, and an escape of one digit. -/
theorem string_literals_fail :
    (List.Forall₂ (Writes (ch '"')) [ch '"'] [[ch '\\', ch '"']] ∧
      escapedQuoteText.bytes = literalText (ch '"') .triple [[ch '\\', ch '"']] ∧
      ¬ ∃ token lx, lexerNext escapedQuoteText 1 lexerInit = some (token, lx) ∧
        token.kind = .string ∧ escapedQuoteText.lexeme token = escapedQuoteText.bytes ∧
        parserDecodeString (escapedQuoteText.lexeme token) = [ch '"']) ∧
    lexerNext halfEscapeText 1 lexerInit = some (⟨.string, 0, 5⟩, ⟨5, []⟩) ∧
    parserDecodeString (halfEscapeText.lexeme ⟨.string, 0, 5⟩) = [ch '4'] ∧
    ¬ Spells (literalBody halfEscapeText ⟨.string, 0, 5⟩) [ch '4'] := by
  have written : List.Forall₂ (Writes (ch '"')) [ch '"'] [[ch '\\', ch '"']] :=
    .cons (.named (by decide) (by decide)) .nil
  have whole : escapedQuoteText.bytes = literalText (ch '"') .triple [[ch '\\', ch '"']] := rfl
  have read := literal_read_iff (.inl rfl) written whole 0
  have next : lexerNext halfEscapeText 1 lexerInit = some (⟨.string, 0, 5⟩, ⟨5, []⟩) :=
    lexerNext_quote (.inl rfl) rfl (by decide) 0
  have decoded : parserDecodeString (halfEscapeText.lexeme ⟨.string, 0, 5⟩) = [ch '4'] := by decide
  have sound := (token_decoded_iff next rfl).2
  rw [decoded] at sound
  refine ⟨⟨written, whole, fun holds => read.mp holds ⟨rfl, rfl⟩⟩, next, decoded, ?_⟩
  rw [sound]
  decide

end Lexing

end Nytrix.Parse
