import Nytrix.Parse.LexerLaws

/-! What the lexer passes over between tokens: spaces, comments, directives, and text it reports. -/

namespace Nytrix.Parse

open Nytrix.Lib
open Nytrix.Types (nm ch)

variable {src : Source} {a b pos stop : Nat}

/-- The first place from a place on that ends a line. -/
def EndsLine (src : Source) (start k : Nat) : Prop :=
  First (fun i => i = src.len ∨ src.byte i = ch '\n') start k

/--
A comment, from its semicolon to the place behind it.

It goes to the end of the line; or it is opened by a symbol and goes to the first place where the
matching symbol and a semicolon are; or it is opened by a marker and goes to the first place where
the marker is again, as a word of its own, with a semicolon.
-/
inductive Comment (src : Source) : Nat → Nat → Prop
  | line {a b : Nat} : src.byte a = ch ';' → commentCloser (src.byte (a + 1)) = none →
    isAlpha (src.byte (a + 1)) = false → EndsLine src (a + 1) b → Comment src a b
  | symbol {a k : Nat} {closer : UInt8} : src.byte a = ch ';' →
    commentCloser (src.byte (a + 1)) = some closer →
    First (fun i => src.byte i = closer ∧ src.byte (i + 1) = ch ';') (a + 2) k →
    Comment src a (k + 2)
  | marker {a m k : Nat} : src.byte a = ch ';' → commentCloser (src.byte (a + 1)) = none →
    isAlpha (src.byte (a + 1)) = true →
    First (fun i => isAlnum (src.byte i) = false) (a + 1) m →
    First (fun i => markerCloses src (a + 1) (m - (a + 1)) i = true) m k →
    Comment src a (k + (m - (a + 1)) + 1)

/-- The place behind a number sign and the blanks after it. -/
def directiveText (src : Source) (a : Nat) : Nat := src.skipWhile isBlank (a + 1)

/-- The first line of a script: a number sign and an exclamation mark. -/
structure Shebang (src : Source) (b : Nat) : Prop where
  sign : src.byte 0 = ch '#'
  mark : src.byte (directiveText src 0) = ch '!'
  ends : EndsLine src 0 b

/-- A line directive, up to the beginning of the next line: it has a number. -/
structure LineDirective (src : Source) (a b : Nat) : Prop where
  starts : atLineStart src a = true
  sign : src.byte a = ch '#'
  opens : lineWordAt src (directiveText src a) = true ∨ isDigit (src.byte (directiveText src a)) = true
  number : isDigit (src.byte (lineNumberAt src (directiveText src a))) = true
  ends : ∃ k, EndsLine src (lineNumberAt src (directiveText src a)) k ∧
    b = if src.byte k = ch '\n' then k + 1 else k

/-- A number sign at the beginning of a line with the word of a line directive and no number. -/
structure HalfDirective (src : Source) (a : Nat) : Prop where
  starts : atLineStart src a = true
  sign : src.byte a = ch '#'
  word : lineWordAt src (directiveText src a) = true
  numberless : isDigit (src.byte (lineNumberAt src (directiveText src a))) = false

/-- What the lexer passes over, with what it reports. -/
inductive Gap (src : Source) : Nat → Nat → List LexError → Prop
  | space {a b : Nat} : (∀ i, a ≤ i → i < b → isSpace (src.byte i) = true) → Gap src a b []
  | comment {a b : Nat} : Comment src a b → Gap src a b []
  | shebang {b : Nat} : Shebang src b → Gap src 0 b []
  | directive {a b : Nat} : LineDirective src a b → Gap src a b []
  | reported {e : LexError} : src.byte e.start = ch ';' → e.pos = src.len → Gap src e.start e.pos [e]

theorem endsLine_lineEnd (inside : pos ≤ src.len) : EndsLine src pos (src.lineEnd pos) := by
  have first : First (fun i => i = src.len ∨ (!decide (src.byte i ≠ ch '\n')) = true) pos
      (src.lineEnd pos) := Source.find_first _ inside
  obtain ⟨le, here, before⟩ := first
  refine ⟨le, ?_, ?_⟩
  · simpa using here
  · intro i after earlier
    simpa using before i after earlier

theorem skipSymbolComment_gap {closer : UInt8} {errors : List LexError}
    (semi : src.byte pos = ch ';') (opens : commentCloser (src.byte (pos + 1)) = some closer)
    (inside : pos + 2 ≤ src.len)
    (goes : skipSymbolComment src pos closer = .goes stop errors) :
    pos < stop ∧ stop ≤ src.len ∧ Gap src pos stop errors := by
  have onward : src.Onward (pos + 2) (src.find
      (fun i => src.byte i = closer && src.byte (i + 1) = ch ';') (pos + 2)) :=
    Source.find_onward _
  have first := Source.find_first
    (fun i => src.byte i = closer && src.byte (i + 1) = ch ';') inside
  have le := onward.le
  rw [skipSymbolComment] at goes
  split at goes
  · rename_i early
    cases goes
    have closed := Source.find_holds early
    simp only [Bool.and_eq_true, decide_eq_true_eq] at closed
    have behind := Source.lt_len_of_eq closed.2 (by decide)
    refine ⟨by omega, by omega, Gap.comment (Comment.symbol semi opens ⟨le, closed, ?_⟩)⟩
    intro i after before holds
    exact first.before i after before (Or.inr (by simpa using holds))
  · rename_i late
    cases goes
    have bound := onward.inside inside
    have ended := Nat.le_antisymm bound (Nat.le_of_not_lt late)
    exact ⟨by omega, bound, Gap.reported (e := ⟨pos, _, _, _⟩) semi ended⟩

theorem commentCloser_ne_zero {opener closer : UInt8} (opens : commentCloser opener = some closer) :
    opener ≠ 0 := by
  rintro rfl
  rw [show commentCloser 0 = none from by decide] at opens
  cases opens

theorem skipMarkerComment_gap {errors : List LexError} (semi : src.byte pos = ch ';')
    (plain : commentCloser (src.byte (pos + 1)) = none) (alpha : isAlpha (src.byte (pos + 1)) = true)
    (goes : skipMarkerComment src pos = .goes stop errors) :
    pos < stop ∧ stop ≤ src.len ∧ Gap src pos stop errors := by
  have inside : pos + 1 < src.len := Source.lt_len (isAlpha_ne_zero alpha)
  have word : First (fun i => isAlnum (src.byte i) = false) (pos + 1)
      (src.skipWhile isAlnum (pos + 1)) := by
    have first : First (fun i => i = src.len ∨ (!isAlnum (src.byte i)) = true) (pos + 1)
        (src.skipWhile isAlnum (pos + 1)) := Source.find_first _ (Nat.le_of_lt inside)
    refine ⟨first.from_start, ?_, ?_⟩
    · rcases first.here with ended | other
      · -- At the end there is a zero byte, which is in no word.
        rw [Source.byte_eq_zero_iff.mpr (Nat.le_of_eq ended.symm)]
        decide
      · simpa using other
    · intro i after before other
      exact first.before i after before (Or.inr (by simp [other]))
  have wordEnd : src.skipWhile isAlnum (pos + 1) ≤ src.len :=
    (Source.skipWhile_onward isAlnum).inside (Nat.le_of_lt inside)
  rw [skipMarkerComment] at goes
  generalize src.skipWhile isAlnum (pos + 1) = rest at word wordEnd goes
  have restLe := word.from_start
  have first := Source.find_first (markerCloses src (pos + 1) (rest - (pos + 1))) wordEnd
  have closeLe := first.from_start
  split at goes
  · rename_i early
    cases goes
    have closed := Source.find_holds early
    have semicolon := closed
    simp only [markerCloses, Bool.and_eq_true, decide_eq_true_eq] at semicolon
    have behind := Source.lt_len_of_eq semicolon.1.2 (by decide)
    refine ⟨by omega, by omega, Gap.comment (Comment.marker semi plain alpha word ⟨closeLe, closed, ?_⟩)⟩
    intro i after before holds
    exact first.before i after before (Or.inr holds)
  · rename_i late
    cases goes
    have bound : src.find (markerCloses src (pos + 1) (rest - (pos + 1))) rest ≤ src.len :=
      (Source.find_onward _).inside wordEnd
    have ended := Nat.le_antisymm bound (Nat.le_of_not_lt late)
    exact ⟨by omega, bound, Gap.reported (e := ⟨pos, _, _, _⟩) semi ended⟩

theorem skipComment_gap {errors : List LexError} (semi : src.byte pos = ch ';')
    (goes : skipComment src pos = .goes stop errors) :
    pos < stop ∧ stop ≤ src.len ∧ Gap src pos stop errors := by
  have inside := Source.lt_len_of_eq semi (by decide)
  unfold skipComment at goes
  simp only at goes
  split at goes
  · rename_i closer opens
    exact skipSymbolComment_gap semi opens (Source.lt_len (commentCloser_ne_zero opens)) goes
  · rename_i plain
    split at goes
    · rename_i alpha
      exact skipMarkerComment_gap semi plain alpha goes
    · rename_i other
      cases goes
      have ends : EndsLine src (pos + 1) (src.lineEnd (pos + 1)) := endsLine_lineEnd inside
      have bound : src.lineEnd (pos + 1) ≤ src.len := Source.lineEnd_onward.inside inside
      refine ⟨ends.from_start, bound, Gap.comment (Comment.line semi plain ?_ ends)⟩
      exact Bool.eq_false_iff.mpr other

theorem lineNumberAt_onward {p : Nat} : src.Onward p (lineNumberAt src p) := by
  rw [lineNumberAt]
  split
  · rename_i word
    rw [Bool.and_eq_true] at word
    exact (Source.startsWith_onward word.1).trans (Source.skipWhile_onward isBlank)
  · exact Source.Onward.refl

theorem skipDirective_gap {errors : List LexError} (starts : atLineStart src pos = true)
    (sign : src.byte pos = ch '#') (goes : skipDirective src pos = .goes stop errors) :
    pos < stop ∧ stop ≤ src.len ∧ Gap src pos stop errors := by
  have inside := Source.lt_len_of_eq sign (by decide)
  have text : src.Onward (pos + 1) (directiveText src pos) := Source.skipWhile_onward isBlank
  unfold skipDirective at goes
  rw [← directiveText] at goes
  simp only at goes
  split at goes
  · rename_i opens
    split at goes
    · rename_i number
      cases goes
      have onward := text.trans lineNumberAt_onward
      have numberInside := onward.inside inside
      have ends : EndsLine src (lineNumberAt src (directiveText src pos)) _ :=
        endsLine_lineEnd numberInside
      have bound : src.lineEnd (lineNumberAt src (directiveText src pos)) ≤ src.len :=
        Source.lineEnd_onward.inside numberInside
      have le := Nat.le_trans onward.le ends.from_start
      refine ⟨?_, ?_, Gap.directive ⟨starts, sign, by simpa using opens, number, _, ends, rfl⟩⟩
      · split <;> omega
      · split
        · rename_i newline
          exact Source.lt_len_of_eq newline (by decide)
        · exact bound
    · cases goes
  · split at goes
    · rename_i script
      simp only [Bool.and_eq_true, decide_eq_true_eq] at script
      obtain ⟨rfl, mark⟩ := script
      cases goes
      have ends : EndsLine src 0 (src.lineEnd 0) := endsLine_lineEnd (Nat.zero_le _)
      refine ⟨?_, Source.lineEnd_onward.inside (Nat.zero_le _), Gap.shebang ⟨sign, mark, ends⟩⟩
      -- The number sign is no end of a line, so the line goes on behind it.
      rcases Nat.eq_zero_or_pos (src.lineEnd 0) with zero | positive
      · have here := ends.here
        rw [zero, sign] at here
        rcases here with ended | newline
        · omega
        · exact absurd newline (by decide)
      · exact positive
    · cases goes

theorem skipStep_gap {errors : List LexError} (goes : skipStep src pos = .goes stop errors) :
    pos < stop ∧ stop ≤ src.len ∧ Gap src pos stop errors := by
  unfold skipStep at goes
  simp only at goes
  split at goes
  · rename_i space
    have inside : pos < src.len := by
      refine Source.lt_len ?_
      intro zero
      rw [zero] at space
      exact absurd space (by decide)
    cases goes
    split
    · refine ⟨Nat.lt_succ_self _, inside, Gap.space ?_⟩
      intro i after before
      obtain rfl : i = pos := by omega
      exact space
    · rename_i other
      have first := Source.find_first
        (fun i => !(isSpace (src.byte i) && src.byte i ≠ ch '\n')) (Nat.le_of_lt inside)
      have passed : ∀ i, pos ≤ i →
          i < src.skipWhile (fun c => isSpace c && decide (c ≠ ch '\n')) pos →
          isSpace (src.byte i) = true := by
        intro i after before
        have fails := first.before i after before
        simp only [not_or, Bool.not_eq_true', Bool.not_eq_false, Bool.and_eq_true] at fails
        exact fails.2.1
      refine ⟨?_, (Source.skipWhile_onward _).inside (Nat.le_of_lt inside), Gap.space passed⟩
      -- The first byte is a space that ends no line, so it is passed over.
      rcases Nat.eq_or_lt_of_le first.from_start with same | later
      · have here := first.here
        rw [← same] at here
        rcases here with ended | fails
        · omega
        · simp [space, other] at fails
      · exact later
  · split at goes
    · rename_i semi
      exact skipComment_gap semi goes
    · split at goes
      · rename_i sign
        simp only [Bool.and_eq_true, decide_eq_true_eq] at sign
        exact skipDirective_gap sign.2 sign.1 goes
      · cases goes

theorem skipStep_drops_iff : skipStep src pos = .drops stop ↔ HalfDirective src pos ∧ stop = pos + 1 := by
  constructor
  · intro drops
    unfold skipStep at drops
    simp only at drops
    split at drops
    · cases drops
    split at drops
    · -- No comment drops a byte.
      unfold skipComment skipSymbolComment skipMarkerComment at drops
      simp only at drops
      repeat' split at drops
      all_goals cases drops
    split at drops
    · rename_i sign
      simp only [Bool.and_eq_true, decide_eq_true_eq] at sign
      unfold skipDirective at drops
      rw [← directiveText] at drops
      simp only at drops
      split at drops
      · rename_i opens
        split at drops
        · cases drops
        · rename_i numberless
          cases drops
          refine ⟨⟨sign.2, sign.1, ?_, Bool.eq_false_iff.mpr numberless⟩, rfl⟩
          -- A digit would be the number itself if the word were not there.
          rw [Bool.or_eq_true] at opens
          rcases opens with word | digit
          · exact word
          · by_contra other
            refine numberless ?_
            rw [lineNumberAt, if_neg]
            · exact digit
            · intro word
              rw [Bool.and_eq_true] at word
              exact other (by simp [lineWordAt, word.1, word.2])
      · split at drops
        · cases drops
        · cases drops
    · cases drops
  · rintro ⟨half, rfl⟩
    have sign := half.sign
    have directive : skipDirective src pos = .drops (pos + 1) := by
      unfold skipDirective
      rw [← directiveText]
      simp [half.word, half.numberless]
    unfold skipStep
    simp only [sign, half.starts, directive]
    rw [if_neg (by decide), if_neg (by decide), if_pos (by decide)]

theorem Comment.unique (first : Comment src a b) {b' : Nat} (second : Comment src a b') : b = b' := by
  cases first with
  | line _ plain other ends =>
    cases second with
    | line _ _ _ ends' => exact ends.unique ends'
    | symbol _ opens => rw [plain] at opens; cases opens
    | marker _ _ alpha => rw [other] at alpha; cases alpha
  | symbol _ opens closes =>
    cases second with
    | line _ plain => rw [plain] at opens; cases opens
    | symbol _ opens' closes' =>
      rw [opens] at opens'
      cases opens'
      rw [closes.unique closes']
    | marker _ plain => rw [plain] at opens; cases opens
  | marker _ plain alpha word closes =>
    cases second with
    | line _ _ other => rw [other] at alpha; cases alpha
    | symbol _ opens => rw [plain] at opens; cases opens
    | marker _ _ _ word' closes' =>
      obtain rfl := word.unique word'
      rw [closes.unique closes']

theorem LineDirective.unique (first : LineDirective src a b) {b' : Nat}
    (second : LineDirective src a b') : b = b' := by
  obtain ⟨k, ends, rfl⟩ := first.ends
  obtain ⟨k', ends', rfl⟩ := second.ends
  rw [ends.unique ends']

end Nytrix.Parse
