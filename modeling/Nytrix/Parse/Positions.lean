import Nytrix.Parse.LexerRuns
import Nytrix.Parse.NumbersLexed

/-! Lines and columns: how the lexer counts them, and what the parser concludes from columns. -/

-- What holds of all members of a list is decided member by member.
attribute [local instance (2000)] List.decidableBAll

namespace Nytrix.Parse

open Nytrix.Lib
open Nytrix.Types (nm ch)

/-- Where the lexer stands in a text, with the line and the column that it counts. -/
structure Cursor where
  pos : Nat
  line : Int
  col : Int
  deriving DecidableEq

/-- A token with the line and the column that it is given. -/
structure Located extends Token where
  line : Int
  col : Int
  deriving DecidableEq

/-- Goes over one byte. -/
def Cursor.advance (src : Source) (cur : Cursor) : Cursor :=
  let c := src.byte cur.pos
  if c = 0 then cur
  else if c = ch '\n' then ⟨cur.pos + 1, cur.line + 1, 1⟩
  else ⟨cur.pos + 1, cur.line, cur.col + 1⟩

/-- Goes over so many bytes, one after the other. -/
def Cursor.advanceBy (src : Source) : Nat → Cursor → Cursor
  | 0, cur => cur
  | n + 1, cur => (cur.advance src).advanceBy src n

/-- Goes byte by byte up to a place. -/
def Cursor.advanceTo (src : Source) (cur : Cursor) (stop : Nat) : Cursor :=
  cur.advanceBy src (stop - cur.pos)

/-- Goes up to a place at once, and adds to the column what is between. -/
def Cursor.jump (cur : Cursor) (stop : Nat) : Cursor :=
  ⟨stop, cur.line, cur.col + (stop - cur.pos : Nat)⟩

/-- The number of a line directive: of 64 bits with a sign at most, and then cut off to 32 bits. -/
def directiveLine (src : Source) (p : Nat) : Int :=
  let digits := (src.bytes.drop p).takeWhile isDigit
  let value := digits.foldl (fun value c => 10 * value + (c - ch '0').toNat) 0
  (min value (2 ^ 63 - 1) : Int).bmod (2 ^ 32)

/-- The place behind the number of a line directive and the file that it names. -/
def directiveTail (src : Source) (p : Nat) : Nat :=
  let p := src.skipWhile isBlank (src.skipWhile isDigit p)
  if src.byte p = ch '"' then
    let q := src.skipWhile (fun c => c ≠ ch '"' && c ≠ ch '\n') (p + 1)
    if src.byte q = ch '"' then q + 1 else q
  else p

/-- Follows a line directive, with the number of the line behind it. -/
def followDirective (src : Source) (pos : Nat) : Cursor :=
  let number := lineNumberAt src (directiveText src pos)
  let tail : Cursor := ⟨directiveTail src number, directiveLine src number, 1⟩
  let ended := tail.advanceTo src (src.lineEnd tail.pos)
  if src.byte ended.pos = ch '\n' then
    let next := ended.advance src
    { next with line := next.line - 1 }
  else ended

/-- Whether a number sign opens a line directive. -/
def opensDirective (src : Source) (pos : Nat) : Bool :=
  lineWordAt src (directiveText src pos) || isDigit (src.byte (directiveText src pos))

/-- Passes over text between two tokens, which goes up to a place. -/
def Cursor.passOver (src : Source) (cur : Cursor) (stop : Nat) : Cursor :=
  let c := src.byte cur.pos
  if isSpace c && c ≠ ch '\n' then cur.jump stop
  else if c = ch '#' && opensDirective src cur.pos then followDirective src cur.pos
  else cur.advanceTo src stop

/-- Passes over what stands between two tokens; nothing if the steps do not suffice. -/
def skipWhitespaceAt (src : Source) : Nat → Cursor → Option Cursor
  | 0, _ => none
  | n + 1, cur =>
    match skipStep src cur.pos with
    | .stays => some cur
    | .goes stop _ => skipWhitespaceAt src n (cur.passOver src stop)
    | .drops stop => some (cur.advanceTo src stop)

/-- Whether a string begins at a place, with the letter before its quote or without. -/
def opensString (src : Source) (start : Nat) : Bool :=
  let c := src.byte start
  let next := src.byte (start + 1)
  (c = ch 'f' && (next = ch '"' || next = ch '\'')) || c = ch '"' || c = ch '\''

/-- Whether a name or a number begins at a place. -/
def opensWord (src : Source) (start : Nat) : Bool :=
  let c := src.byte start
  isAlpha c || (c = ch '$' && (templateEnd src start).isSome) || isDigit c

/-- Goes over what begins at a place: names and numbers at once, all else byte by byte. -/
def Cursor.scan (src : Source) (cur : Cursor) : Cursor :=
  let stop := (scanToken src cur.pos).stop
  if !opensString src cur.pos && opensWord src cur.pos then cur.jump stop
  else (cur.jump (cur.pos + 1)).advanceTo src stop

/-- A token from a place up to where the lexer stands. -/
def makeToken (cur : Cursor) (kind : TokenKind) (start : Nat) : Located :=
  let len := cur.pos - start
  ⟨⟨kind, start, len⟩, cur.line, cur.col - len⟩

/-- The next token with its line and its column; nothing if the steps do not suffice. -/
def lexerNextAt (src : Source) : Nat → Cursor → Option (Located × Cursor)
  | 0, _ => none
  | n + 1, cur => do
    let cur ← skipWhitespaceAt src (src.len + 1) cur
    if src.byte cur.pos = 0 then some (⟨⟨.eof, cur.pos, 0⟩, cur.line, cur.col⟩, cur)
    else
      let cur' := cur.scan src
      match (scanToken src cur.pos).kind with
      | some kind => some (makeToken cur' kind cur.pos, cur')
      | none => lexerNextAt src n cur'

/-- The lexer at the beginning of a text. -/
def Cursor.init : Cursor := ⟨0, 1, 1⟩

/-- Where the lexer stands after some tokens. -/
inductive Cursor.Reached (src : Source) : Cursor → Prop
  | init : Reached src Cursor.init
  | next {n : Nat} {token : Located} {cur cur' : Cursor} : Reached src cur →
    lexerNextAt src n cur = some (token, cur') → Reached src cur'

/-- Whether the parser joins a token to the part of a name before it. -/
def glues (prev cur : Located) : Bool := cur.kind = .ident && cur.col = prev.col + prev.len

/-- The names that are joined to a part of a name, and the tokens behind them. -/
def glueSegment (src : Source) : Located → List Located → List UInt8 × List Located
  | _, [] => ([], [])
  | prev, cur :: rest =>
    if glues prev cur then
      let (text, rest) := glueSegment src cur rest
      (src.lexeme cur.toToken ++ text, rest)
    else ([], cur :: rest)

/-- The parts of a name behind its first one; the text that is missing if there is none. -/
def parseDottedTail (src : Source) (afterDotErr : Option String) :
    Nat → List UInt8 → List Located → Except String (List UInt8 × List Located)
  | 0, buf, tokens => .ok (buf, tokens)
  | n + 1, buf, tokens =>
    match tokens with
    | dot :: cur :: rest =>
      if dot.kind = .dot then
        if cur.kind = .ident ∨ cur.kind = .number then
          let (text, rest) := glueSegment src cur rest
          parseDottedTail src afterDotErr n (buf ++ nm "." ++ src.lexeme cur.toToken ++ text) rest
        else .error (afterDotErr.getD "expected identifier after '.'")
      else .ok (buf, tokens)
    | _ => .ok (buf, tokens)

/-- A name with dots at the beginning of some tokens, the last of which ends the text. -/
def parseDottedIdent (src : Source) (firstErr afterDotErr : Option String)
    (tokens : List Located) : Except String (List UInt8 × List Located) :=
  match tokens with
  | [] => .error (firstErr.getD "expected identifier")
  | cur :: rest =>
    if cur.kind = .ident ∨ cur.kind = .number then
      let (text, left) := glueSegment src cur rest
      parseDottedTail src afterDotErr left.length (src.lexeme cur.toToken ++ text) left
    else .error (firstErr.getD "expected identifier")

/-- The line of a place: the newlines before it are counted. -/
def Source.lineAt (src : Source) (i : Nat) : Nat := 1 + (src.bytes.take i).count (ch '\n')

/-- The column of a place: the bytes between it and the last newline before it are counted. -/
def Source.colAt (src : Source) (i : Nat) : Nat :=
  1 + ((src.bytes.take i).reverse.takeWhile (· ≠ ch '\n')).length

/-- The lexer counts the line and the column of the place where it stands. -/
structure Cursor.Faithful (src : Source) (cur : Cursor) : Prop where
  inside : cur.pos ≤ src.len
  line : cur.line = src.lineAt cur.pos
  col : cur.col = src.colAt cur.pos

variable {src : Source} {i a b pos stop start : Nat} {cur cur' : Cursor}

namespace Source

/-- No newline is between two places. -/
def Plain (src : Source) (a b : Nat) : Prop := ∀ i, a ≤ i → i < b → src.byte i ≠ ch '\n'

theorem take_succ (inside : i < src.len) :
    src.bytes.take (i + 1) = src.bytes.take i ++ [src.byte i] := by
  rw [List.take_add_one, List.getElem?_eq_getElem inside, byte, List.getD_eq_getElem _ _ inside]
  rfl

theorem lineAt_succ (inside : i < src.len) :
    src.lineAt (i + 1) = src.lineAt i + if src.byte i = ch '\n' then 1 else 0 := by
  rw [lineAt, lineAt, take_succ inside, List.count_append, List.count_singleton]
  simp only [beq_iff_eq]
  omega

theorem colAt_succ (inside : i < src.len) :
    src.colAt (i + 1) = if src.byte i = ch '\n' then 1 else src.colAt i + 1 := by
  rw [colAt, colAt, take_succ inside, List.reverse_concat, List.takeWhile_cons]
  split
  · next plain =>
    rw [if_neg (by simpa using plain), List.length_cons]
    omega
  · next newline =>
    rw [if_pos (by simpa using newline), List.length_nil]

theorem lineAt_mono (le : a ≤ b) (inside : b ≤ src.len) : src.lineAt a ≤ src.lineAt b := by
  induction b, le using Nat.le_induction with
  | base => exact Nat.le_refl _
  | succ b _ ih =>
    rw [lineAt_succ inside]
    exact Nat.le_trans (ih (Nat.le_of_succ_le inside)) (Nat.le_add_right _ _)

theorem lineAt_eq_iff (le : a ≤ b) (inside : b ≤ src.len) :
    src.lineAt b = src.lineAt a ↔ src.Plain a b := by
  induction b, le using Nat.le_induction with
  | base => exact ⟨fun _ i after before => absurd after (by omega), fun _ => rfl⟩
  | succ b le ih =>
    have before := lineAt_mono le (Nat.le_of_succ_le inside)
    have same := ih (Nat.le_of_succ_le inside)
    rw [lineAt_succ inside]
    constructor
    · intro counted i after less
      split at counted
      · omega
      · next other =>
        -- The last place is no newline, and the ones before it are none.
        rcases Nat.eq_or_lt_of_le (Nat.le_of_lt_succ less) with rfl | earlier
        · exact other
        · exact same.mp counted i after earlier
    · intro plain
      rw [if_neg (plain b le (Nat.lt_succ_self b))]
      exact same.mpr fun i after less => plain i after (Nat.lt_succ_of_lt less)

theorem colAt_plain (le : a ≤ b) (inside : b ≤ src.len) (plain : src.Plain a b) :
    src.colAt b = src.colAt a + (b - a) := by
  induction b, le using Nat.le_induction with
  | base => omega
  | succ b le ih =>
    have rest := ih (Nat.le_of_succ_le inside) fun i after less =>
      plain i after (Nat.lt_succ_of_lt less)
    rw [colAt_succ inside, if_neg (plain b le (Nat.lt_succ_self b)), rest]
    omega

theorem Plain.single (other : src.byte a ≠ ch '\n') : src.Plain a (a + 1) := by
  intro i after before
  obtain rfl : i = a := by omega
  exact other

theorem Plain.trans {c : Nat} (first : src.Plain a b) (second : src.Plain b c) :
    src.Plain a c := by
  intro i after before
  rcases Nat.lt_or_ge i b with early | late
  · exact first i after early
  · exact second i late before

theorem Plain.refl : src.Plain a a := fun _ after before => absurd after (by omega)

theorem mem_slice_newline (inside : b ≤ src.len) : ch '\n' ∉ src.slice a b ↔ src.Plain a b := by
  constructor
  · intro apart i after before newline
    refine apart ?_
    rw [← newline, ← slice_append after (Nat.le_of_lt before), slice_cons before inside]
    exact List.mem_append_right _ List.mem_cons_self
  · intro plain member
    obtain ⟨i, after, before, newline⟩ := mem_slice inside member
    exact plain i after before newline

theorem skipWhile_plain (p : UInt8 → Bool) (other : p (ch '\n') = false) :
    src.Plain pos (src.skipWhile p pos) := by
  intro i after before newline
  have passed : (!p (src.byte i)) = false := scanTo_passes after before
  rw [newline, other] at passed
  cases passed

end Source

open Source

namespace Cursor

theorem Faithful.advance (faithful : cur.Faithful src) : (cur.advance src).Faithful src := by
  obtain ⟨inside, line, col⟩ := faithful
  unfold Cursor.advance
  simp only
  split
  · exact ⟨inside, line, col⟩
  next some_byte =>
  have less := Source.lt_len some_byte
  split
  · next newline =>
    refine ⟨less, ?_, ?_⟩
    · simp only [lineAt_succ less, if_pos newline, line]
      omega
    · simp only [colAt_succ less, if_pos newline]
      rfl
  · next other =>
    refine ⟨less, ?_, ?_⟩
    · simp only [lineAt_succ less, if_neg other, line]
      omega
    · simp only [colAt_succ less, if_neg other, col]
      omega

theorem Faithful.advanceBy (n : Nat) (faithful : cur.Faithful src) :
    (cur.advanceBy src n).Faithful src := by
  induction n generalizing cur with
  | zero => exact faithful
  | succ n ih => exact ih faithful.advance

theorem Faithful.advanceTo (stop : Nat) (faithful : cur.Faithful src) :
    (cur.advanceTo src stop).Faithful src := faithful.advanceBy _

theorem Faithful.jump (onward : src.Onward cur.pos stop) (plain : src.Plain cur.pos stop)
    (faithful : cur.Faithful src) : (cur.jump stop).Faithful src := by
  have inside := onward.inside faithful.inside
  refine ⟨inside, ?_, ?_⟩
  · exact faithful.line.trans (congrArg Nat.cast ((lineAt_eq_iff onward.le inside).mpr plain).symm)
  · have counted := colAt_plain onward.le inside plain
    have col := faithful.col
    simp only [Cursor.jump]
    omega

theorem advanceBy_pos (n : Nat) (inside : cur.pos + n ≤ src.len) :
    (cur.advanceBy src n).pos = cur.pos + n := by
  induction n generalizing cur with
  | zero => rfl
  | succ n ih =>
    have some_byte : src.byte cur.pos ≠ 0 := fun zero =>
      absurd (Source.byte_eq_zero_iff.mp zero) (by omega)
    have next : (cur.advance src).pos = cur.pos + 1 := by
      unfold Cursor.advance
      simp only [if_neg some_byte]
      split <;> rfl
    rw [Cursor.advanceBy, ih (by omega), next]
    omega

theorem advanceTo_pos (le : cur.pos ≤ stop) (inside : stop ≤ src.len) :
    (cur.advanceTo src stop).pos = stop := by
  rw [Cursor.advanceTo, advanceBy_pos _ (by omega)]
  omega

end Cursor

section Words

theorem scanTemplateIdentTail_plain (n : Nat) :
    src.Plain pos (scanTemplateIdentTail src n pos) := by
  induction n generalizing pos with
  | zero => exact Plain.refl
  | succ n ih =>
    rw [scanTemplateIdentTail]
    split
    · rename_i opens
      simp only [Bool.and_eq_true, decide_eq_true_eq] at opens
      simp only
      split
      · rename_i closes
        refine (Plain.single (by rw [opens.1.1]; decide)).trans ?_
        refine (Plain.single (by rw [opens.1.2]; decide)).trans ?_
        refine (skipWhile_plain isAlnum (by decide)).trans ?_
        refine (Plain.single (by rw [closes]; decide)).trans ?_
        exact (skipWhile_plain isAlnum (by decide)).trans ih
      · exact Plain.refl
    · exact Plain.refl

theorem scanEight_plain (p : UInt8 → Bool) (other : p (ch '\n') = false) (n : Nat) :
    src.Plain pos (scanEight src p n pos) := by
  intro i after before newline
  have passed := scanEight_passes p n after before
  rw [newline, other] at passed
  cases passed

theorem scanIdent_plain (alpha : isAlpha (src.byte start) = true) :
    src.Plain start (scanIdent src start).stop := by
  have first : src.byte start ≠ ch '\n' := by
    intro newline
    rw [newline] at alpha
    exact absurd alpha (by decide)
  refine (Plain.single first).trans ?_
  refine (scanEight_plain isAlnum (by decide) src.len).trans ?_
  exact (skipWhile_plain isAlnum (by decide)).trans (scanTemplateIdentTail_plain _)

theorem templateEnd_plain (sign : src.byte start = ch '$')
    (ended : templateEnd src start = some stop) : src.Plain start stop := by
  rw [templateEnd] at ended
  split at ended
  · rename_i opens
    simp only [Bool.and_eq_true, decide_eq_true_eq] at opens
    simp only at ended
    split at ended
    · rename_i closes
      cases ended
      refine (Plain.single (by rw [sign]; decide)).trans ?_
      refine (Plain.single (by rw [opens.1]; decide)).trans ?_
      refine (skipWhile_plain isAlnum (by decide)).trans ?_
      refine (Plain.single (by rw [closes]; decide)).trans ?_
      exact (skipWhile_plain isAlnum (by decide)).trans (scanTemplateIdentTail_plain _)
    · cases ended
  · cases ended

theorem digitsEnd_plain (digit : UInt8 → Bool) (other : digit (ch '\n') = false) :
    src.Plain pos (digitsEnd src digit pos) := by
  intro i after before newline
  have passed : (!(digit (src.byte i) ||
      (src.byte i = ch '_' && digit (src.byte (i + 1))))) = false := scanTo_passes after before
  rw [newline, other] at passed
  exact absurd passed (by simp [show ch '\n' ≠ ch '_' by decide])

theorem lexDecimalDigits_plain : src.Plain pos (lexDecimalDigits src pos) :=
  (scanEight_plain isDigit (by decide) _).trans (digitsEnd_plain isDigit (by decide))

theorem lexNumberSuffixDigits_plain (float : Bool) :
    src.Plain pos (lexNumberSuffixDigits src float pos) := by
  have suffix : ∀ pos, src.Plain pos
      (if nyNumberSuffixLetter (src.byte pos) true && isDigit (src.byte (pos + 1)) then
        lexDecimalDigits src (pos + 1) else pos) := by
    intro pos
    split
    · rename_i letter
      rw [Bool.and_eq_true] at letter
      refine (Plain.single fun newline => ?_).trans lexDecimalDigits_plain
      rw [newline] at letter
      exact absurd letter.1 (by decide)
    · exact Plain.refl
  rw [lexNumberSuffixDigits]
  split
  · rename_i underscore
    simp only [Bool.and_eq_true, decide_eq_true_eq] at underscore
    exact (Plain.single (by rw [underscore.1]; decide)).trans (suffix _)
  · exact suffix _

theorem digit_ne_newline (digit : isDigit (src.byte pos) = true) : src.byte pos ≠ ch '\n' := by
  intro newline
  rw [newline] at digit
  exact absurd digit (by decide)

theorem scanDecimal_plain (digit : isDigit (src.byte start) = true) :
    src.Plain start (scanDecimal src start).stop := by
  have whole : src.Plain start (fractionEnd src start) := by
    rw [fractionEnd]
    have first := (Plain.single (digit_ne_newline digit)).trans
      (@lexDecimalDigits_plain src (start + 1))
    split
    · rename_i point
      simp only [Bool.and_eq_true, decide_eq_true_eq] at point
      refine first.trans ?_
      exact (Plain.single (by rw [point.1]; decide)).trans lexDecimalDigits_plain
    · exact first
  rw [scanDecimal]
  simp only
  split
  · rename_i exponent
    simp only [Bool.or_eq_true, decide_eq_true_eq] at exponent
    have letter : src.byte (fractionEnd src start) ≠ ch '\n' := by
      rcases exponent with lower | upper
      · rw [lower]; decide
      · rw [upper]; decide
    have digits : src.Plain start (exponentDigits src (fractionEnd src start)) := by
      refine (whole.trans (Plain.single letter)).trans ?_
      rw [exponentDigits]
      split
      · rename_i sign
        simp only [Bool.or_eq_true, decide_eq_true_eq] at sign
        rcases sign with plus | minus
        · exact Plain.single (by rw [plus]; decide)
        · exact Plain.single (by rw [minus]; decide)
      · exact Plain.refl
    split
    · exact (digits.trans lexDecimalDigits_plain).trans (lexNumberSuffixDigits_plain true)
    · exact digits
  · exact whole.trans (lexNumberSuffixDigits_plain true)

theorem Radix.digit_newline (radix : Radix) : radix.digit (ch '\n') = false := by
  cases radix <;> decide

theorem scanNumber_plain (digit : isDigit (src.byte start) = true) :
    src.Plain start (scanNumber src start).stop := by
  rw [scanNumber_eq]
  split
  · exact scanDecimal_plain digit
  next other =>
  -- The two bytes of a head are neither of them a newline.
  have head : src.Plain start (start + 2) := by
    refine (Plain.single (digit_ne_newline digit)).trans (Plain.single fun newline => other ?_)
    rw [radixAt, newline]
    simp only [Bool.or_eq_true, Bool.and_eq_true, decide_eq_true_eq]
    rw [if_neg fun head => absurd head.2 (by decide), if_neg fun head => absurd head.2 (by decide),
      if_neg fun head => absurd head.2 (by decide)]
  have digits := head.trans
    (@digitsEnd_plain src (start + 2) _ (Radix.digit_newline (radixAt src start)))
  unfold lexRadixNumber
  simp only
  split
  · exact digits.trans (lexNumberSuffixDigits_plain false)
  · split
    · exact digits.trans (lexNumberSuffixDigits_plain false)
    · exact head

theorem scanToken_plain (noString : opensString src start = false)
    (word : opensWord src start = true) : src.Plain start (scanToken src start).stop := by
  simp only [opensString, Bool.or_eq_false_iff, decide_eq_false_iff_not] at noString
  rw [scanToken]
  rw [if_neg (by simp [noString.1.1])]
  split
  · next alpha => exact scanIdent_plain alpha
  next noName =>
  split
  · next ended =>
    split at ended
    · next sign => exact templateEnd_plain sign ended
    · cases ended
  next noTemplate =>
  -- No name begins here, so it is a digit.
  have digit : isDigit (src.byte start) = true := by
    simp only [opensWord, Bool.or_eq_true, Bool.and_eq_true, decide_eq_true_eq] at word
    rcases word with (alpha | ⟨sign, template⟩) | digit
    · exact absurd alpha noName
    · rw [if_pos sign] at noTemplate
      rw [noTemplate] at template
      cases template
    · exact digit
  rw [if_pos digit]
  exact scanNumber_plain digit

end Words

section Steps

theorem lineDirective_of_opens {errors : List LexError} (sign : src.byte pos = ch '#')
    (opens : opensDirective src pos = true) (goes : skipStep src pos = .goes stop errors) :
    LineDirective src pos stop := by
  have text : src.Onward (pos + 1) (directiveText src pos) := Source.skipWhile_onward isBlank
  unfold skipStep at goes
  simp only [sign] at goes
  rw [if_neg (by decide), if_neg (by decide)] at goes
  split at goes
  · next starts =>
    rw [Bool.and_eq_true] at starts
    unfold skipDirective at goes
    rw [← directiveText] at goes
    simp only at goes
    rw [opensDirective] at opens
    rw [if_pos opens] at goes
    split at goes
    · next number =>
      cases goes
      have onward := text.trans lineNumberAt_onward
      have inside := onward.inside (Source.lt_len_of_eq sign (by decide))
      exact ⟨starts.2, sign, by simpa using opens, number, _, endsLine_lineEnd inside, rfl⟩
    · cases goes
  · cases goes

theorem Cursor.passOver_cases {errors : List LexError} (noDirective : ∀ a b, ¬ LineDirective src a b)
    (goes : skipStep src cur.pos = .goes stop errors) :
    (cur.passOver src stop = cur.jump stop ∧ src.Plain cur.pos stop) ∨
      cur.passOver src stop = cur.advanceTo src stop := by
  rw [Cursor.passOver.eq_def]
  simp only
  split
  · next blank =>
    simp only [Bool.and_eq_true, decide_eq_true_eq] at blank
    refine .inl ⟨rfl, ?_⟩
    -- The blanks are passed up to a newline at most.
    unfold skipStep at goes
    simp only [if_pos blank.1, if_neg blank.2] at goes
    cases goes
    exact skipWhile_plain _ (by decide)
  split
  · next directive =>
    simp only [Bool.and_eq_true, decide_eq_true_eq] at directive
    exact absurd (lineDirective_of_opens directive.1 directive.2 goes) (noDirective _ _)
  · exact .inr rfl

theorem Cursor.Faithful.passOver {errors : List LexError}
    (noDirective : ∀ a b, ¬ LineDirective src a b)
    (goes : skipStep src cur.pos = .goes stop errors) (faithful : cur.Faithful src) :
    (cur.passOver src stop).Faithful src ∧ (cur.passOver src stop).pos = stop := by
  obtain ⟨less, inside, -⟩ := skipStep_gap goes
  rcases Cursor.passOver_cases noDirective goes with ⟨jump, plain⟩ | advance
  · rw [jump]
    exact ⟨faithful.jump ⟨Nat.le_of_lt less, fun _ => inside⟩ plain, rfl⟩
  · rw [advance]
    exact ⟨faithful.advanceTo stop, Cursor.advanceTo_pos (Nat.le_of_lt less) inside⟩

theorem skipStep_stays (stays : skipStep src pos = .stays) : src.byte pos ≠ ch '\n' := by
  intro newline
  rw [skipStep, newline] at stays
  cases stays

theorem HalfDirective.next_byte (half : HalfDirective src pos) :
    src.byte (pos + 1) ≠ ch '\n' := by
  intro newline
  have none : directiveText src pos = pos + 1 := by
    rcases Nat.eq_or_lt_of_le (@Source.skipWhile_onward src (pos + 1) isBlank).le with same | later
    · exact same.symm
    · have passed : (!isBlank (src.byte (pos + 1))) = false :=
        scanTo_passes (Nat.le_refl _) later
      rw [newline] at passed
      exact absurd passed (by decide)
  have word := lineWordAt_byte half.word
  rw [none, newline] at word
  exact absurd word (by decide)

theorem skipWhitespaceAt_spec (noDirective : ∀ a b, ¬ LineDirective src a b) {n : Nat}
    (skipped : skipWhitespaceAt src n cur = some cur') (faithful : cur.Faithful src) :
    cur'.Faithful src ∧ src.byte cur'.pos ≠ ch '\n' ∧ cur.pos ≤ cur'.pos ∧
      ∀ errors, ∃ errors', skipWhitespace src n ⟨cur.pos, errors⟩ = some ⟨cur'.pos, errors'⟩ := by
  induction n generalizing cur with
  | zero => cases skipped
  | succ n ih =>
    rw [skipWhitespaceAt] at skipped
    split at skipped
    · next stays =>
      cases skipped
      refine ⟨faithful, skipStep_stays stays, Nat.le_refl _, fun errors => ⟨errors, ?_⟩⟩
      simp only [skipWhitespace, stays]
    · next stop reported goes =>
      obtain ⟨less, -, -⟩ := skipStep_gap goes
      obtain ⟨kept, place⟩ := faithful.passOver noDirective goes
      obtain ⟨done, other, le, same⟩ := ih skipped kept
      rw [place] at le same
      refine ⟨done, other, Nat.le_trans (Nat.le_of_lt less) le, fun errors => ?_⟩
      obtain ⟨errors', rest⟩ := same (errors ++ reported)
      exact ⟨errors', by simp only [skipWhitespace, goes, rest]⟩
    · next stop drops =>
      cases skipped
      obtain ⟨half, rfl⟩ := skipStep_drops_iff.mp drops
      have place := @Cursor.advanceTo_pos src (cur.pos + 1) cur (Nat.le_succ _)
        (Source.lt_len_of_eq half.sign (by decide))
      refine ⟨faithful.advanceTo _, ?_, ?_, fun errors => ⟨errors, ?_⟩⟩
      · rw [place]
        exact half.next_byte
      · rw [place]
        exact Nat.le_succ _
      · simp only [skipWhitespace, drops, place]

theorem Cursor.Faithful.scan (here : src.byte cur.pos ≠ 0) (other : src.byte cur.pos ≠ ch '\n')
    (faithful : cur.Faithful src) :
    (cur.scan src).Faithful src ∧ (cur.scan src).pos = (scanToken src cur.pos).stop := by
  have onward := @scanToken_onward src cur.pos here
  have inside := onward.inside (Source.lt_len here)
  rw [Cursor.scan.eq_def]
  simp only
  split
  · next word =>
    rw [Bool.and_eq_true, Bool.not_eq_true'] at word
    refine ⟨faithful.jump ⟨?_, fun _ => inside⟩ (scanToken_plain word.1 word.2), rfl⟩
    exact Nat.le_of_lt onward.le
  · have first := faithful.jump (Onward.next here) (Plain.single other)
    exact ⟨first.advanceTo _, Cursor.advanceTo_pos onward.le inside⟩

end Steps

/-- What the next token has to do with where the lexer stood before it and stands after it. -/
structure Follows (src : Source) (cur : Cursor) (token : Located) (cur' : Cursor) : Prop where
  faithful : cur'.Faithful src
  le : cur.pos ≤ token.start
  stop : cur'.pos = token.start + token.len
  line : token.line = cur'.line
  col : token.col = cur'.col - token.len

theorem lexerNextAt_spec (noDirective : ∀ a b, ¬ LineDirective src a b) {n : Nat} {token : Located}
    (next : lexerNextAt src n cur = some (token, cur')) (faithful : cur.Faithful src) :
    Follows src cur token cur' ∧ ∀ errors, ∃ errors',
      lexerNext src n ⟨cur.pos, errors⟩ = some (token.toToken, ⟨cur'.pos, errors'⟩) := by
  induction n generalizing cur with
  | zero => cases next
  | succ n ih =>
    rw [lexerNextAt] at next
    simp only [Option.bind_eq_bind] at next
    obtain ⟨ready, skipped, next⟩ := Option.bind_eq_some_iff.mp next
    obtain ⟨kept, other, le, same⟩ := skipWhitespaceAt_spec noDirective skipped faithful
    split at next
    · next eof =>
      cases next
      refine ⟨⟨kept, le, rfl, rfl, ?_⟩, fun errors => ?_⟩
      · exact (Int.sub_zero _).symm
      · obtain ⟨errors', rest⟩ := same errors
        refine ⟨errors', ?_⟩
        rw [lexerNext]
        simp only [rest, Option.bind_eq_bind, Option.bind_some, if_pos eof]
    · next here =>
      obtain ⟨done, place⟩ := kept.scan here other
      obtain ⟨further, -⟩ := scanToken_advances here
      split at next
      · next kind some_kind =>
        cases next
        have stop : ready.pos + ((ready.scan src).pos - ready.pos) = (ready.scan src).pos := by
          omega
        refine ⟨⟨done, le, stop.symm, rfl, rfl⟩, fun errors => ?_⟩
        obtain ⟨errors', rest⟩ := same errors
        refine ⟨errors' ++ (scanToken src ready.pos).errors, ?_⟩
        rw [lexerNext]
        simp only [rest, Option.bind_eq_bind, Option.bind_some, if_neg here, some_kind, place,
          makeToken]
      · next none_kind =>
        -- What is reported is no token, and the lexer goes on behind it.
        obtain ⟨follows, later⟩ := ih next done
        refine ⟨⟨follows.faithful, ?_, follows.stop, follows.line, follows.col⟩, fun errors => ?_⟩
        · have behind := follows.le
          omega
        · obtain ⟨errors', rest⟩ := same errors
          obtain ⟨errors'', token_later⟩ := later (errors' ++ (scanToken src ready.pos).errors)
          refine ⟨errors'', ?_⟩
          rw [lexerNext]
          simp only [rest, Option.bind_eq_bind, Option.bind_some, if_neg here, none_kind]
          rw [← place]
          exact token_later

theorem Cursor.Reached.faithful (noDirective : ∀ a b, ¬ LineDirective src a b)
    (reached : cur.Reached src) : cur.Faithful src := by
  induction reached with
  | init => exact ⟨Nat.zero_le _, rfl, rfl⟩
  | next _ next ih => exact (lexerNextAt_spec noDirective next ih).1.faithful

theorem operators_no_word :
    ∀ entry ∈ operators, entry.2 ≠ .token .ident ∧ entry.2 ≠ .token .number := by decide

theorem opensString_eq_false
    (noPrefixed : ¬ (decide (src.byte start = ch 'f') &&
      (decide (src.byte (start + 1) = ch '"') || decide (src.byte (start + 1) = ch '\''))) = true)
    (double : src.byte start ≠ ch '"') (single : src.byte start ≠ ch '\'') :
    opensString src start = false := by
  rw [opensString]
  simp only [Bool.eq_false_iff.mpr noPrefixed, decide_eq_false double, decide_eq_false single,
    Bool.or_self]

theorem opensWord_of_kind
    (kind : (scanToken src start).kind = some .ident ∨ (scanToken src start).kind = some .number) :
    opensString src start = false ∧ opensWord src start = true := by
  have noString (quote : UInt8) (pos : Nat) (kind : TokenKind) (msg : String)
      (other : kind = .string ∨ kind = .fstring) :
      ¬ ((scanString src start quote pos kind msg).kind = some .ident ∨
        (scanString src start quote pos kind msg).kind = some .number) := by
    rw [scanString]
    rcases other with rfl | rfl
    · split <;> simp
    · split <;> simp
  have noOperator : ¬ ((scanOperator src start).kind = some .ident ∨
      (scanOperator src start).kind = some .number) := by
    rw [scanOperator]
    split
    · simp
    · next spelling operator found =>
      have apart := operators_no_word _ (List.mem_of_find?_eq_some found)
      cases operator with
      | token kind => simpa using apart
      | refuse msg hint => simp
      | lineComment msg hint => simp
      | blockComment msg hint => simp
  -- No byte of a class without quotes is one.
  have apart {p : UInt8 → Bool} {quote : UInt8} (inClass : p (src.byte start) = true)
      (other : p quote = false) : src.byte start ≠ quote := by
    intro same
    rw [same, other] at inClass
    cases inClass
  rw [scanToken] at kind
  split at kind
  · exact absurd kind (noString _ _ _ _ (.inr rfl))
  next noPrefixed =>
  split at kind
  · next alpha =>
    exact ⟨opensString_eq_false noPrefixed (apart alpha (by decide)) (apart alpha (by decide)),
      by simp [opensWord, alpha]⟩
  split at kind
  · next stop ended =>
    split at ended
    · next sign =>
      refine ⟨opensString_eq_false noPrefixed ?_ ?_, by simp [opensWord, sign, ended]⟩
      · rw [sign]; decide
      · rw [sign]; decide
    · cases ended
  split at kind
  · next digit =>
    exact ⟨opensString_eq_false noPrefixed (apart digit (by decide)) (apart digit (by decide)),
      by simp [opensWord, digit]⟩
  split at kind
  · exact absurd kind (noString _ _ _ _ (.inl rfl))
  · exact absurd kind noOperator

theorem Follows.position_iff {token : Located} (follows : Follows src cur token cur') :
    (token.line = src.lineAt token.start ∧ token.col = src.colAt token.start) ↔
      src.Plain token.start cur'.pos := by
  have le : token.start ≤ cur'.pos := by
    have stop := follows.stop
    omega
  have inside := follows.faithful.inside
  constructor
  · rintro ⟨line, -⟩
    rw [← lineAt_eq_iff le inside]
    rw [follows.line, follows.faithful.line] at line
    exact Int.ofNat_inj.mp line
  · intro plain
    refine ⟨?_, ?_⟩
    · rw [follows.line, follows.faithful.line, (lineAt_eq_iff le inside).mpr plain]
    · have counted := colAt_plain le inside plain
      have stop := follows.stop
      rw [follows.col, follows.faithful.col]
      omega

theorem Follows.plain {n : Nat} {lx lx' : Lexer} {token : Located}
    (follows : Follows src cur token cur') (next : lexerNext src n lx = some (token.toToken, lx'))
    (kind : token.kind = .ident ∨ token.kind = .number) : src.Plain token.start cur'.pos := by
  rcases lexerNext_scan next with eof | ⟨here, scan, size⟩
  · rw [eof] at kind
    exact absurd kind (by decide)
  · obtain ⟨noString, word⟩ := @opensWord_of_kind src token.start (by
      rw [scan]
      rcases kind with ident | number
      · exact .inl (congrArg some ident)
      · exact .inr (congrArg some number))
    have whole := scanToken_plain noString word
    have place : (scanToken src token.start).stop = cur'.pos := by
      have onward := (@scanToken_onward src token.start here).le
      have stop := follows.stop
      omega
    rwa [place] at whole

/--
The position of a token is right exactly if its text is on one line.

An identifier is joined to a name before it exactly if it begins where that ends, unless it is on
another line in the column where that ends.
-/
theorem token_positions_iff (noDirective : ∀ a b, ¬ LineDirective src a b)
    (reached : cur.Reached src) {n : Nat} {token : Located}
    (next : lexerNextAt src n cur = some (token, cur')) :
    ((token.line = src.lineAt token.start ∧ token.col = src.colAt token.start) ↔
      ch '\n' ∉ src.lexeme token.toToken) ∧
    ∀ m following cur'', lexerNextAt src m cur' = some (following, cur'') →
      token.kind = .ident ∨ token.kind = .number → following.kind = .ident →
      ((glues token following = true ↔ following.start = token.start + token.len) ↔
        ¬ (src.lineAt token.start < src.lineAt following.start ∧
          src.colAt following.start = src.colAt token.start + token.len)) := by
  obtain ⟨follows, scanned⟩ := lexerNextAt_spec noDirective next (reached.faithful noDirective)
  constructor
  · have text : src.lexeme token.toToken = src.slice token.start cur'.pos := by
      rw [Source.slice, follows.stop, Nat.add_sub_cancel_left]
      rfl
    rw [text, mem_slice_newline follows.faithful.inside]
    exact follows.position_iff
  · intro m following cur'' next' kind ident
    obtain ⟨follows', scanned'⟩ := lexerNextAt_spec noDirective next' follows.faithful
    obtain ⟨_, scan⟩ := scanned []
    obtain ⟨_, scan'⟩ := scanned' []
    have plain := follows.plain scan kind
    have col := (follows.position_iff.mpr plain).2
    have col' := (follows'.position_iff.mpr (follows'.plain scan' (.inl ident))).2
    have test : glues token following = true ↔
        src.colAt following.start = src.colAt token.start + token.len := by
      simp only [glues, ident, col, col', decide_true, Bool.true_and, decide_eq_true_eq]
      omega
    have stop := follows.stop
    have le := follows'.le
    have inside : following.start ≤ src.len := by
      have bound := follows'.faithful.inside
      have behind := follows'.stop
      omega
    rw [test]
    rcases Nat.eq_or_lt_of_le (lineAt_mono (by omega : token.start ≤ following.start) inside)
      with same | later
    · -- On one line the columns tell the places apart.
      have counted := colAt_plain (by omega) inside ((lineAt_eq_iff (by omega) inside).mp same.symm)
      exact ⟨fun _ another => absurd another.1 (by omega), fun _ => by omega⟩
    · -- On another line the identifier does not begin where the token ends.
      have apart : following.start ≠ token.start + token.len := by
        intro adjacent
        have line := (lineAt_eq_iff (by omega) follows.faithful.inside).mpr plain
        rw [stop, ← adjacent] at line
        omega
      simp only [apart, iff_false, later, true_and]

/-- The text of a name, with another one below its end. -/
def belowText : Source := ⟨nm "ab\n  cd", by decide⟩

/-- The text of a string of two lines. -/
def twoLineText : Source := ⟨nm "'a\nb'", by decide⟩

theorem no_directive_of_signless (signless : ch '#' ∉ src.bytes) :
    ∀ a b, ¬ LineDirective src a b := by
  intro a b directive
  have less := Source.lt_len_of_eq directive.sign (by decide)
  refine signless ?_
  rw [← directive.sign, Source.byte, List.getD_eq_getElem _ _ less]
  exact List.getElem_mem less

/-- The position of a name is right. -/
theorem token_positions_iff_name :
    lexerNextAt belowText 1 Cursor.init = some (⟨⟨.ident, 0, 2⟩, 1, 1⟩, ⟨2, 1, 3⟩) ∧
      (1 : Int) = belowText.lineAt 0 ∧ (1 : Int) = belowText.colAt 0 := by
  have next : lexerNextAt belowText 1 Cursor.init =
      some (⟨⟨.ident, 0, 2⟩, 1, 1⟩, ⟨2, 1, 3⟩) := by decide
  have right := (token_positions_iff (no_directive_of_signless (by decide))
    Cursor.Reached.init next).1.mpr (by decide)
  exact ⟨next, right⟩

/-- The position of a string of two lines is not right, and two names on two lines are joined. -/
theorem token_positions_fail :
    (lexerNextAt twoLineText 1 Cursor.init = some (⟨⟨.string, 0, 5⟩, 2, -2⟩, ⟨5, 2, 3⟩) ∧
      twoLineText.lineAt 0 = 1 ∧ twoLineText.colAt 0 = 1) ∧
    ∃ token following : Located,
      lexerNextAt belowText 1 Cursor.init = some (token, ⟨2, 1, 3⟩) ∧
      lexerNextAt belowText 1 ⟨2, 1, 3⟩ = some (following, ⟨7, 2, 5⟩) ∧
      glues token following = true ∧ following.start ≠ token.start + token.len ∧
      parseDottedIdent belowText none none [token, following] = .ok (nm "abcd", []) := by
  refine ⟨⟨by decide, by decide, by decide⟩, ⟨⟨.ident, 0, 2⟩, 1, 1⟩, ⟨⟨.ident, 5, 2⟩, 2, 3⟩, ?_⟩
  refine ⟨by decide, by decide, by decide, by decide, ?_⟩
  rfl

end Nytrix.Parse
