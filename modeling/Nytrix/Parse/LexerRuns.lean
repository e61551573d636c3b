import Nytrix.Parse.LexerGaps
import Mathlib.Tactic.IntervalCases

/-! Whole runs of the lexer: the tokens, the gaps between them and the reports make up the text. -/

namespace Nytrix.Parse

open Nytrix.Lib
open Nytrix.Types (nm ch)

variable {src : Source} {a b i p start : Nat}

/-- A comment of C, from its first slash to the place behind it. -/
inductive CComment (src : Source) : Nat → Nat → Prop
  | line {a b : Nat} : src.startsWith a "//" = true → EndsLine src (a + 2) b → CComment src a b
  | block {a k : Nat} : src.startsWith a "/*" = true →
    First (fun i => i = src.len ∨ src.byte i = ch '*' ∧ src.byte (i + 1) = ch '/') (a + 2) k →
    CComment src a (if src.byte k = ch '*' then k + 2 else k)

/--
A place that a report covers: from where the text at fault begins to where the lexer stood, or to
the end of the comment of C that begins there.
-/
def Covers (src : Source) (e : LexError) (i : Nat) : Prop :=
  e.start ≤ i ∧ (i < e.pos ∨ ∃ b, CComment src e.start b ∧ i < b)

/-- The place where the lexer looks at the text next, without dropping a byte. -/
def Next (src : Source) (a b : Nat) : Prop :=
  (∃ errors, skipStep src a = .goes b errors) ∨
    (skipStep src a = .stays ∧ src.byte a ≠ 0 ∧ b = (scanToken src a).stop)

/-- The places where the lexer looks at the text, up to the first byte that it drops. -/
inductive Visits (src : Source) : Nat → Prop
  | start : Visits src 0
  | next {a b : Nat} : Visits src a → Next src a b → Visits src b

/-- A token that takes up a place. -/
def Token.Spans (t : Token) (i : Nat) : Prop := t.start ≤ i ∧ i < t.start + t.len

/--
A place of the text that is accounted for: it is in a token, it is a space, it belongs to the first
line of a script, to a comment or a line directive that the lexer comes to, or a report covers it.
-/
def Accounted (src : Source) (tokens : List Token) (errors : List LexError) (i : Nat) : Prop :=
  (∃ t ∈ tokens, t.Spans i) ∨ isSpace (src.byte i) = true ∨ (∃ b, Shebang src b ∧ i < b) ∨
    (∃ a b, Visits src a ∧ (Comment src a b ∨ LineDirective src a b) ∧ a ≤ i ∧ i < b) ∨
    ∃ e ∈ errors, Covers src e i

/--
Tokens that make up a text, with the gaps between them: none is empty, they are in order and do not
overlap, they are inside the text, and every other place is accounted for.
-/
structure Partitions (src : Source) (tokens : List Token) (errors : List LexError) : Prop where
  nonempty : ∀ t ∈ tokens, 0 < t.len
  inside : ∀ t ∈ tokens, t.start + t.len ≤ src.len
  ordered : tokens.Pairwise fun t t' => t.start + t.len ≤ t'.start
  accounted : ∀ i, i < src.len → Accounted src tokens errors i

theorem Next.advances (next : Next src a b) : a < b ∧ b ≤ src.len := by
  rcases next with ⟨errors, goes⟩ | ⟨-, here, rfl⟩
  · exact ⟨(skipStep_gap goes).1, (skipStep_gap goes).2.1⟩
  · exact scanToken_advances here

theorem Next.unique (first : Next src a b) {b' : Nat} (second : Next src a b') : b = b' := by
  rcases first with ⟨errors, goes⟩ | ⟨stays, -, rfl⟩
  · rcases second with ⟨errors', goes'⟩ | ⟨stays', -⟩
    · rw [goes] at goes'
      cases goes'
      rfl
    · rw [goes] at stays'
      cases stays'
  · rcases second with ⟨errors', goes'⟩ | ⟨-, -, rfl⟩
    · rw [stays] at goes'
      cases goes'
    · rfl

theorem Visits.chain (visited : Visits src p) (other : Visits src a) (before : a < p) :
    ∃ b, Next src a b ∧ b ≤ p := by
  -- Strong induction on the later place, by the look that leads to it.
  induction p using Nat.strongRecOn generalizing a with
  | ind p ih =>
    cases visited with
    | start => exact absurd before (Nat.not_lt_zero _)
    | @next q _ earlier next =>
      have le := next.advances.1
      rcases Nat.lt_trichotomy a q with below | rfl | above
      · obtain ⟨b, step, inside⟩ := ih q le earlier other below
        exact ⟨b, step, by omega⟩
      · exact ⟨p, next, Nat.le_refl _⟩
      · -- A place between the two would be stepped over.
        obtain ⟨b, step, inside⟩ := ih a before other earlier above
        rw [step.unique next] at inside
        omega

theorem Visits.le_half (visited : Visits src p) (half : HalfDirective src p) (other : Visits src a) :
    a ≤ p := by
  by_contra beyond
  obtain ⟨b, next, -⟩ := other.chain visited (Nat.lt_of_not_le beyond)
  have drops := skipStep_drops_iff.mpr ⟨half, rfl⟩
  rcases next with ⟨errors, goes⟩ | ⟨stays, -⟩
  · rw [drops] at goes
    cases goes
  · rw [drops] at stays
    cases stays

theorem operators_before_line : ∀ entry ∈ operators.take 22,
    (nm entry.1).getD 0 0 ≠ ch '/' ∨ (1 < (nm entry.1).length ∧ (nm entry.1).getD 1 0 = ch '=') := by
  decide

theorem startsWith_eq_false {spelling : String} (spelled : 0 < (nm spelling).length)
    (differs : src.byte start ≠ (nm spelling).getD 0 0 ∨
      (1 < (nm spelling).length ∧ src.byte (start + 1) ≠ (nm spelling).getD 1 0)) :
    src.startsWith start spelling = false := by
  rw [Bool.eq_false_iff]
  intro found
  rcases differs with first | ⟨long, second⟩
  · exact first (Source.startsWith_byte found spelled)
  · exact second (Source.startsWith_byte found long)

theorem operator_of_line (found : src.startsWith start "//" = true) :
    (operators.find? fun entry => src.startsWith start entry.1) = some ("//",
      .lineComment "C-style line comments '//' are not supported" "use ';' instead") := by
  have slash : src.byte start = ch '/' := Source.startsWith_byte found (k := 0) (by decide)
  have second : src.byte (start + 1) = ch '/' := Source.startsWith_byte found (k := 1) (by decide)
  rw [List.find?_eq_some_iff_append]
  refine ⟨found, operators.take 22, operators.drop 23, by decide, ?_⟩
  intro entry member
  rw [Bool.not_eq_eq_eq_not, Bool.not_true]
  refine startsWith_eq_false (operators_spelled entry (List.mem_of_mem_take member)) ?_
  rcases operators_before_line entry member with other | ⟨long, equals⟩
  · exact Or.inl (slash ▸ other.symm)
  · refine Or.inr ⟨long, ?_⟩
    rw [second, equals]
    decide

theorem operator_of_block (found : src.startsWith start "/*" = true) :
    (operators.find? fun entry => src.startsWith start entry.1) = some ("/*",
      .blockComment "C-style block comments '/* */' are not supported"
        "use ';' for line comments or spaces for inlining") := by
  have slash : src.byte start = ch '/' := Source.startsWith_byte found (k := 0) (by decide)
  have second : src.byte (start + 1) = ch '*' := Source.startsWith_byte found (k := 1) (by decide)
  rw [List.find?_eq_some_iff_append]
  refine ⟨found, operators.take 23, operators.drop 24, by decide, ?_⟩
  intro entry member
  rw [Bool.not_eq_eq_eq_not, Bool.not_true]
  refine startsWith_eq_false (operators_spelled entry (List.mem_of_mem_take member)) ?_
  rw [show operators.take 23 = operators.take 22 ++ [("//", Operator.lineComment
    "C-style line comments '//' are not supported" "use ';' instead")] from by decide,
    List.mem_append, List.mem_singleton] at member
  rcases member with earlier | rfl
  · rcases operators_before_line entry earlier with other | ⟨long, equals⟩
    · exact Or.inl (slash ▸ other.symm)
    · refine Or.inr ⟨long, ?_⟩
      rw [second, equals]
      decide
  · refine Or.inr ⟨by decide, ?_⟩
    rw [second]
    decide

theorem find_blockEnd {pos : Nat} (inside : pos ≤ src.len) :
    First (fun i => i = src.len ∨ src.byte i = ch '*' ∧ src.byte (i + 1) = ch '/') pos
      (src.find (fun i => src.byte i = ch '*' && src.byte (i + 1) = ch '/') pos) := by
  have first := Source.find_first
    (fun i => src.byte i = ch '*' && src.byte (i + 1) = ch '/') inside
  refine ⟨first.from_start, by simpa using first.here, fun i after before => ?_⟩
  simpa using first.before i after before

theorem blockCommentEnd_eq {k pos : Nat} (inside : pos ≤ src.len)
    (closes : First (fun i => i = src.len ∨ src.byte i = ch '*' ∧ src.byte (i + 1) = ch '/') pos k) :
    blockCommentEnd src pos = if src.byte k = ch '*' then k + 2 else k := by
  rw [blockCommentEnd, (find_blockEnd inside).unique closes]

theorem scanToken_slash (slash : src.byte start = ch '/') :
    scanToken src start = scanOperator src start := by
  have other : ch '/' ≠ ch 'f' := by decide
  rw [scanToken, slash]
  rw [if_neg (by simp [other]), if_neg (by decide), if_neg (by decide)]
  simp only
  rw [if_neg (by decide), if_neg (by decide)]

theorem scanToken_comment (comment : CComment src start b) : (scanToken src start).stop = b := by
  have slash : src.byte start = ch '/' := by
    cases comment with
    | line found => exact Source.startsWith_byte found (k := 0) (by decide)
    | block found => exact Source.startsWith_byte found (k := 0) (by decide)
  have nonzero : src.byte start ≠ 0 := by rw [slash]; decide
  rw [scanToken_slash slash, scanOperator]
  cases comment with
  | line found ends =>
    rw [operator_of_line found]
    have inside := (Source.startsWith_onward found).inside (Nat.le_of_lt (Source.lt_len nonzero))
    exact (endsLine_lineEnd inside).unique ends
  | block found closes =>
    rw [operator_of_block found]
    have inside := (Source.startsWith_onward found).inside (Nat.le_of_lt (Source.lt_len nonzero))
    exact blockCommentEnd_eq inside closes

/--
The reports that come with what begins at a place: they are about it, and where no token is taken
there is one that covers all that is passed over. What begins at a byte is not the end.
-/
structure Reports (src : Source) (start : Nat) (scan : Scan) : Prop where
  started : scan.kind ≠ some .eof
  about : ∀ e ∈ scan.errors, e.start = start ∧ e.pos ≤ scan.stop
  covers : scan.kind = none → ∃ e ∈ scan.errors, e.start = start ∧
    (e.pos = scan.stop ∨ CComment src start scan.stop)

theorem Reports.token {kind : TokenKind} {stop : Nat} (started : kind ≠ .eof) :
    Reports src start ⟨some kind, stop, []⟩ :=
  ⟨by simpa using started, fun _ member => absurd member List.not_mem_nil, fun none => nomatch none⟩

theorem Reports.single {kind : Option TokenKind} {stop : Nat} {msg hint : List UInt8}
    (started : kind ≠ some .eof) :
    Reports src start ⟨kind, stop, [⟨start, stop, msg, hint⟩]⟩ := by
  refine ⟨started, ?_, ?_⟩
  · intro e member
    rw [List.mem_singleton] at member
    subst member
    exact ⟨rfl, Nat.le_refl _⟩
  · exact fun _ => ⟨_, List.mem_singleton_self _, rfl, Or.inl rfl⟩

theorem scanString_reports {quote : UInt8} {pos : Nat} {kind : TokenKind} {msg : String}
    (started : kind ≠ .eof) : Reports src start (scanString src start quote pos kind msg) := by
  rw [scanString]
  split
  · exact Reports.token started
  · exact Reports.single (by decide)

theorem keywords_started : ∀ entry ∈ keywords, entry.2 ≠ .eof := by decide

theorem operators_started : ∀ entry ∈ operators, entry.2 ≠ .token .eof := by decide

theorem scanName_reports {stop : Nat} : Reports src start (scanName src start stop) := by
  rw [scanName, identifierType]
  split
  · rename_i entry found
    exact Reports.token (keywords_started entry (List.mem_of_find?_eq_some found))
  · split
    · exact Reports.single (by simp)
    · exact Reports.token (by simp)

theorem lexRadixNumber_reports {digit : UInt8 → Bool} {required : Option (String × String)} :
    Reports src start (lexRadixNumber src start digit required) := by
  cases required with
  | none => exact Reports.token (by decide)
  | some report =>
    unfold lexRadixNumber
    simp only
    split
    · exact Reports.token (by decide)
    · exact Reports.single (by decide)

theorem scanDecimal_reports : Reports src start (scanDecimal src start) := by
  rw [scanDecimal]
  simp only
  split
  · split
    · exact Reports.token (by decide)
    · exact Reports.single (by decide)
  · exact Reports.token (by decide)

theorem scanOperator_reports (here : src.byte start ≠ 0) :
    Reports src start (scanOperator src start) := by
  rw [scanOperator]
  split
  · exact Reports.single (by decide)
  · rename_i spelling operator found
    have there : src.startsWith start spelling = true := by
      simpa using List.find?_some found
    have inside := (Source.startsWith_onward there).inside (Nat.le_of_lt (Source.lt_len here))
    have listed := List.mem_of_find?_eq_some found
    cases operator with
    | token kind =>
      refine Reports.token ?_
      rintro rfl
      exact operators_started _ listed rfl
    | refuse msg hint => exact Reports.single (by decide)
    | lineComment msg hint =>
      -- The only line comments are those of C.
      have spelled : ∀ entry ∈ operators, ∀ msg hint, entry.2 = .lineComment msg hint →
          entry.1 = "//" := by
        simp [operators]
      obtain rfl := spelled _ listed msg hint rfl
      refine ⟨by simp, ?_, ?_⟩
      · intro e member
        rw [List.mem_singleton] at member
        subst member
        exact ⟨rfl, Source.lineEnd_onward.le⟩
      · exact fun _ => ⟨_, List.mem_singleton_self _, rfl,
          Or.inr (CComment.line there (endsLine_lineEnd inside))⟩
    | blockComment msg hint =>
      have spelled : ∀ entry ∈ operators, ∀ msg hint, entry.2 = .blockComment msg hint →
          entry.1 = "/*" := by
        simp [operators]
      obtain rfl := spelled _ listed msg hint rfl
      refine ⟨by simp, ?_, ?_⟩
      · intro e member
        rw [List.mem_singleton] at member
        subst member
        exact ⟨rfl, blockCommentEnd_onward.le⟩
      · refine fun _ => ⟨_, List.mem_singleton_self _, rfl, Or.inr ?_⟩
        exact CComment.block there (find_blockEnd inside)

theorem scanToken_reports (here : src.byte start ≠ 0) : Reports src start (scanToken src start) := by
  rw [scanToken]
  split
  · exact scanString_reports (by decide)
  split
  · exact scanName_reports
  split
  · exact scanName_reports
  split
  · rw [scanNumber]
    split
    · exact lexRadixNumber_reports
    split
    · exact lexRadixNumber_reports
    split
    · exact lexRadixNumber_reports
    · exact scanDecimal_reports
  split
  · exact scanString_reports (by decide)
  · exact scanOperator_reports here

/-- The lexer when it has taken what begins where it stands. -/
def scanned (src : Source) (lx : Lexer) : Lexer :=
  ⟨(scanToken src lx.pos).stop, lx.errors ++ (scanToken src lx.pos).errors⟩

/-- The token that begins at a place, if one does. -/
def tokensAt (src : Source) (pos : Nat) : List Token :=
  match (scanToken src pos).kind with
  | some kind => [⟨kind, pos, (scanToken src pos).stop - pos⟩]
  | none => []

/-- A run of the lexer to the end of the text, look by look, with the tokens that it takes. -/
inductive Runs (src : Source) : Lexer → List Token → Lexer → Prop
  | done {lx : Lexer} : src.byte lx.pos = 0 → Runs src lx [] lx
  | goes {lx lx' : Lexer} {stop : Nat} {errors : List LexError} {tokens : List Token} :
    skipStep src lx.pos = .goes stop errors → Runs src ⟨stop, lx.errors ++ errors⟩ tokens lx' →
    Runs src lx tokens lx'
  | scan {lx lx' : Lexer} {tokens : List Token} :
    skipStep src lx.pos = .stays → src.byte lx.pos ≠ 0 → Runs src (scanned src lx) tokens lx' →
    Runs src lx (tokensAt src lx.pos ++ tokens) lx'
  | drops {lx lx' : Lexer} {stop : Nat} {tokens : List Token} :
    skipStep src lx.pos = .drops stop → src.byte stop ≠ 0 →
    Runs src (scanned src { lx with pos := stop }) tokens lx' →
    Runs src lx (tokensAt src stop ++ tokens) lx'

/-- A run that comes to a lexer between two tokens goes on as a run from there does. -/
structure Ready (src : Source) (lx lx₁ : Lexer) : Prop where
  ended : src.byte lx₁.pos = 0 → Runs src lx [] lx₁
  taken : src.byte lx₁.pos ≠ 0 → ∀ tokens lx', Runs src (scanned src lx₁) tokens lx' →
    Runs src lx (tokensAt src lx₁.pos ++ tokens) lx'

theorem lineWordAt_byte (word : lineWordAt src p = true) : src.byte p = ch 'l' := by
  rw [lineWordAt, Bool.and_eq_true] at word
  exact Source.startsWith_byte word.1 (k := 0) (by decide)

theorem HalfDirective.goes_on {pos : Nat} (half : HalfDirective src pos) : src.byte (pos + 1) ≠ 0 := by
  -- The word is inside the text, and not before the byte.
  have inside := Source.lt_len_of_eq (lineWordAt_byte half.word) (by decide)
  have onward : src.Onward (pos + 1) (directiveText src pos) := Source.skipWhile_onward isBlank
  have le := onward.le
  intro zero
  have outside := Source.byte_eq_zero_iff.mp zero
  omega

theorem skipWhitespace_ready {lx : Lexer} {n : Nat} (inside : lx.pos ≤ src.len)
    (enough : src.len - lx.pos < n) :
    ∃ lx₁, skipWhitespace src n lx = some lx₁ ∧ lx.pos ≤ lx₁.pos ∧ lx₁.pos ≤ src.len ∧
      Ready src lx lx₁ := by
  -- Induction on the steps that are left: each one gets further.
  induction n generalizing lx with
  | zero => omega
  | succ n ih =>
    rw [skipWhitespace]
    cases step : skipStep src lx.pos with
    | stays =>
      refine ⟨lx, rfl, Nat.le_refl _, inside, fun ended => Runs.done ended, ?_⟩
      exact fun here tokens lx' run => Runs.scan step here run
    | goes stop errors =>
      obtain ⟨later, bound, -⟩ := skipStep_gap step
      have less : src.len - stop < n := by omega
      obtain ⟨lx₁, ran, le, le', ready⟩ := @ih ⟨stop, lx.errors ++ errors⟩ bound less
      refine ⟨lx₁, ran, Nat.le_trans (Nat.le_of_lt later) le, le', ?_, ?_⟩
      · exact fun ended => Runs.goes step (ready.ended ended)
      · exact fun here tokens lx' run => Runs.goes step (ready.taken here tokens lx' run)
    | drops stop =>
      obtain ⟨half, rfl⟩ := skipStep_drops_iff.mp step
      have goesOn := half.goes_on
      refine ⟨{ lx with pos := lx.pos + 1 }, rfl, Nat.le_succ _, Source.lt_len_of_eq half.sign
        (by decide), fun ended => absurd ended goesOn, ?_⟩
      exact fun here tokens lx' run => Runs.drops step here run

theorem lexerNext_ready {lx : Lexer} {n : Nat} (inside : lx.pos ≤ src.len)
    (enough : src.len - lx.pos < n) :
    ∃ token lx₁, lexerNext src n lx = some (token, lx₁) ∧ lx₁.pos ≤ src.len ∧
      (token.kind = .eof → Runs src lx [] lx₁) ∧
      (token.kind ≠ .eof → lx.pos < lx₁.pos ∧
        ∀ tokens lx', Runs src lx₁ tokens lx' → Runs src lx (token :: tokens) lx') := by
  induction n generalizing lx with
  | zero => omega
  | succ n ih =>
    obtain ⟨lx₁, ran, le, le', ready⟩ := skipWhitespace_ready (n := src.len + 1) inside (by omega)
    rw [lexerNext, ran]
    simp only [Option.bind_eq_bind, Option.bind_some]
    by_cases ended : src.byte lx₁.pos = 0
    · rw [if_pos ended]
      exact ⟨_, lx₁, rfl, le', fun _ => ready.ended ended, fun other => absurd rfl other⟩
    · rw [if_neg ended]
      obtain ⟨later, bound⟩ := scanToken_advances ended
      have taken := ready.taken ended
      cases kind : (scanToken src lx₁.pos).kind with
      | some kind' =>
        -- A token is taken, and it is not the end.
        have started : kind' ≠ .eof := by
          rintro rfl
          exact (scanToken_reports ended).started kind
        have single : tokensAt src lx₁.pos =
            [⟨kind', lx₁.pos, (scanToken src lx₁.pos).stop - lx₁.pos⟩] := by
          simp [tokensAt, kind]
        rw [single] at taken
        refine ⟨_, scanned src lx₁, rfl, bound, fun eof => absurd eof started, fun _ => ⟨?_, taken⟩⟩
        exact Nat.lt_of_le_of_lt le later
      | none =>
        have less : src.len - (scanned src lx₁).pos < n := by
          show src.len - (scanToken src lx₁.pos).stop < n
          omega
        obtain ⟨token, lx₂, next, bound₂, whenEnded, whenTaken⟩ :=
          @ih (scanned src lx₁) bound less
        have none : tokensAt src lx₁.pos = [] := by simp [tokensAt, kind]
        rw [none] at taken
        refine ⟨token, lx₂, next, bound₂, fun eof => taken _ _ (whenEnded eof), fun other => ?_⟩
        obtain ⟨further, goesOn⟩ := whenTaken other
        refine ⟨?_, fun tokens lx' run => taken _ _ (goesOn tokens lx' run)⟩
        exact Nat.lt_of_le_of_lt (Nat.le_trans le (Nat.le_of_lt later)) further

theorem lexAll_runs {lx : Lexer} {n : Nat} (inside : lx.pos ≤ src.len)
    (enough : src.len - lx.pos < n) :
    ∃ tokens lx', lexAll src n lx = some (tokens, lx') ∧ Runs src lx tokens lx' := by
  induction n generalizing lx with
  | zero => omega
  | succ n ih =>
    obtain ⟨token, lx₁, next, bound, ended, taken⟩ :=
      lexerNext_ready (n := src.len + 1) inside (by omega)
    rw [lexAll, next]
    simp only [Option.bind_eq_bind, Option.bind_some]
    by_cases eof : token.kind = .eof
    · rw [if_pos eof]
      exact ⟨[], lx₁, rfl, ended eof⟩
    · rw [if_neg eof]
      obtain ⟨further, goesOn⟩ := taken eof
      have less : src.len - lx₁.pos < n := by omega
      obtain ⟨tokens, lx', rest, run⟩ := ih bound less
      rw [rest]
      exact ⟨token :: tokens, lx', rfl, goesOn tokens lx' run⟩

theorem tokensAt_spec {pos : Nat} (here : src.byte pos ≠ 0) : ∀ t ∈ tokensAt src pos,
    t.start = pos ∧ 0 < t.len ∧ t.start + t.len = (scanToken src pos).stop := by
  obtain ⟨later, -⟩ := scanToken_advances here
  intro t member
  unfold tokensAt at member
  split at member
  · rw [List.mem_singleton] at member
    subst member
    exact ⟨rfl, Nat.sub_pos_of_lt later, Nat.add_sub_cancel' (Nat.le_of_lt later)⟩
  · cases member

theorem tokensAt_pairwise {pos : Nat} {R : Token → Token → Prop} : (tokensAt src pos).Pairwise R := by
  unfold tokensAt
  split
  · exact List.pairwise_singleton _ _
  · exact List.Pairwise.nil

theorem Gap.about {errors : List LexError} (gap : Gap src a b errors) :
    ∀ e ∈ errors, e.start = a ∧ e.pos = b ∧ src.byte a = ch ';' := by
  intro e member
  cases gap with
  | reported semi ended =>
    rw [List.mem_singleton] at member
    subst member
    exact ⟨rfl, rfl, semi⟩
  | _ => cases member

/-- What holds of the tokens and the new reports of every run. -/
structure Onwards (src : Source) (lx : Lexer) (tokens : List Token) (lx' : Lexer) : Prop where
  nonempty : ∀ t ∈ tokens, 0 < t.len
  inside : ∀ t ∈ tokens, t.start + t.len ≤ src.len
  ordered : tokens.Pairwise fun t t' => t.start + t.len ≤ t'.start
  behind : ∀ t ∈ tokens, lx.pos ≤ t.start
  reports : ∃ new, lx'.errors = lx.errors ++ new ∧ ∀ e ∈ new, lx.pos ≤ e.start

theorem Onwards.taken {lx lx' : Lexer} {tokens : List Token} {pos : Nat} (le : lx.pos ≤ pos)
    (here : src.byte pos ≠ 0) (rest : Onwards src (scanned src ⟨pos, lx.errors⟩) tokens lx') :
    Onwards src lx (tokensAt src pos ++ tokens) lx' := by
  obtain ⟨later, bound⟩ := scanToken_advances here
  have first := tokensAt_spec here
  have behind : ∀ t ∈ tokens, (scanToken src pos).stop ≤ t.start := rest.behind
  refine ⟨?_, ?_, ?_, ?_, ?_⟩
  · intro t member
    rcases List.mem_append.mp member with member | member
    · exact (first t member).2.1
    · exact rest.nonempty t member
  · intro t member
    rcases List.mem_append.mp member with member | member
    · exact (first t member).2.2 ▸ bound
    · exact rest.inside t member
  · refine List.pairwise_append.mpr ⟨tokensAt_pairwise, rest.ordered, ?_⟩
    intro t member t' member'
    exact (first t member).2.2 ▸ behind t' member'
  · intro t member
    rcases List.mem_append.mp member with member | member
    · exact (first t member).1 ▸ le
    · exact Nat.le_trans (Nat.le_trans le (Nat.le_of_lt later)) (behind t member)
  · -- The reports of the first token are about it, and the others are behind it.
    obtain ⟨new, same, after⟩ := rest.reports
    refine ⟨(scanToken src pos).errors ++ new, by rw [same, scanned, List.append_assoc], ?_⟩
    intro e member
    rcases List.mem_append.mp member with member | member
    · exact ((scanToken_reports here).about e member).1 ▸ le
    · exact Nat.le_trans (Nat.le_trans le (Nat.le_of_lt later)) (after e member)

theorem Runs.onwards {lx lx' : Lexer} {tokens : List Token} (run : Runs src lx tokens lx') :
    Onwards src lx tokens lx' := by
  induction run with
  | done _ => exact ⟨by simp, by simp, List.Pairwise.nil, by simp, [], by simp, by simp⟩
  | @goes lx lx' stop errors tokens step _ ih =>
    obtain ⟨later, -, gap⟩ := skipStep_gap step
    have le := Nat.le_of_lt later
    refine ⟨ih.nonempty, ih.inside, ih.ordered, ?_, ?_⟩
    · exact fun t member => Nat.le_trans le (ih.behind t member)
    · obtain ⟨new, same, after⟩ := ih.reports
      refine ⟨errors ++ new, by rw [same, List.append_assoc], ?_⟩
      intro e member
      rcases List.mem_append.mp member with member | member
      · exact Nat.le_of_eq (gap.about e member).1.symm
      · exact Nat.le_trans le (after e member)
  | scan _ here _ ih => exact ih.taken (Nat.le_refl _) here
  | @drops lx lx' stop tokens step here _ ih =>
    obtain ⟨-, rfl⟩ := skipStep_drops_iff.mp step
    exact ih.taken (Nat.le_succ _) here

theorem Accounted.mono {tokens tokens' : List Token} {errors errors' : List LexError}
    (accounted : Accounted src tokens errors i) (more : ∀ t ∈ tokens, t ∈ tokens')
    (reports : ∀ e ∈ errors, e ∈ errors') : Accounted src tokens' errors' i := by
  rcases accounted with ⟨t, member, spans⟩ | space | shebang | gap | ⟨e, member, covers⟩
  · exact Or.inl ⟨t, more t member, spans⟩
  · exact Or.inr (Or.inl space)
  · exact Or.inr (Or.inr (Or.inl shebang))
  · exact Or.inr (Or.inr (Or.inr (Or.inl gap)))
  · exact Or.inr (Or.inr (Or.inr (Or.inr ⟨e, reports e member, covers⟩)))

theorem Gap.accounted {errors all : List LexError} {tokens : List Token} (gap : Gap src a b errors)
    (visited : Visits src a) (reports : ∀ e ∈ errors, e ∈ all) (after : a ≤ i) (before : i < b) :
    Accounted src tokens all i := by
  cases gap with
  | space spaces => exact Or.inr (Or.inl (spaces i after before))
  | comment comment =>
    exact Or.inr (Or.inr (Or.inr (Or.inl ⟨a, b, visited, Or.inl comment, after, before⟩)))
  | shebang shebang => exact Or.inr (Or.inr (Or.inl ⟨b, shebang, before⟩))
  | directive directive =>
    exact Or.inr (Or.inr (Or.inr (Or.inl ⟨a, b, visited, Or.inr directive, after, before⟩)))
  | reported semi ended =>
    exact Or.inr (Or.inr (Or.inr (Or.inr ⟨_, reports _ (List.mem_singleton_self _), after,
      Or.inl before⟩)))

theorem scanToken_accounted {all : List LexError} {tokens : List Token} {pos : Nat}
    (here : src.byte pos ≠ 0) (reports : ∀ e ∈ (scanToken src pos).errors, e ∈ all)
    (after : pos ≤ i) (before : i < (scanToken src pos).stop) :
    Accounted src (tokensAt src pos ++ tokens) all i := by
  cases kind : (scanToken src pos).kind with
  | some kind' =>
    refine Or.inl ⟨⟨kind', pos, (scanToken src pos).stop - pos⟩, by simp [tokensAt, kind], after, ?_⟩
    simp only
    omega
  | none =>
    obtain ⟨e, member, begins, ends⟩ := (scanToken_reports here).covers kind
    refine Or.inr (Or.inr (Or.inr (Or.inr ⟨e, reports e member, begins ▸ after, ?_⟩)))
    rcases ends with same | comment
    · exact Or.inl (same ▸ before)
    · exact Or.inr ⟨_, begins ▸ comment, before⟩

theorem Runs.accounted {lx lx' : Lexer} {tokens : List Token} (run : Runs src lx tokens lx')
    (visited : Visits src lx.pos) (whole : ∀ p, Visits src p → ¬ HalfDirective src p) :
    ∀ i, lx.pos ≤ i → i < src.len → Accounted src tokens lx'.errors i := by
  induction run with
  | done ended =>
    intro i after before
    exact absurd (Source.byte_eq_zero_iff.mp ended) (by omega)
  | @goes lx lx' stop errors tokens step rest ih =>
    obtain ⟨-, -, gap⟩ := skipStep_gap step
    intro i after before
    by_cases within : i < stop
    · refine gap.accounted visited ?_ after within
      obtain ⟨new, same, -⟩ := rest.onwards.reports
      intro e member
      rw [same]
      exact List.mem_append_left _ (List.mem_append_right _ member)
    · exact ih (Visits.next visited (Or.inl ⟨errors, step⟩)) i (Nat.le_of_not_lt within) before
  | @scan lx lx' tokens step here rest ih =>
    intro i after before
    by_cases within : i < (scanToken src lx.pos).stop
    · refine scanToken_accounted here ?_ after within
      obtain ⟨new, same, -⟩ := rest.onwards.reports
      intro e member
      rw [same]
      exact List.mem_append_left _ (List.mem_append_right _ member)
    · have next := Visits.next visited (Or.inr ⟨step, here, rfl⟩)
      refine (ih next i (Nat.le_of_not_lt within) before).mono ?_ (fun _ member => member)
      exact fun t member => List.mem_append_right _ member
  | drops step _ _ _ => exact absurd (skipStep_drops_iff.mp step).1 (whole _ visited)

theorem CComment.slash (comment : CComment src a b) : src.byte a = ch '/' := by
  cases comment with
  | line found => exact Source.startsWith_byte found (k := 0) (by decide)
  | block found => exact Source.startsWith_byte found (k := 0) (by decide)

theorem scanToken_covers {pos : Nat} (here : src.byte pos ≠ 0) (bound : (scanToken src pos).stop ≤ p) :
    ∀ e ∈ (scanToken src pos).errors, ¬ Covers src e p := by
  rintro e member ⟨-, within⟩
  obtain ⟨begins, ends⟩ := (scanToken_reports here).about e member
  rcases within with within | ⟨b, comment, within⟩
  · omega
  · rw [begins] at comment
    rw [scanToken_comment comment] at bound
    omega

theorem Gap.covers {errors : List LexError} (gap : Gap src a b errors) (bound : b ≤ p) :
    ∀ e ∈ errors, ¬ Covers src e p := by
  rintro e member ⟨-, within⟩
  obtain ⟨begins, ends, semi⟩ := gap.about e member
  rcases within with within | ⟨b, comment, within⟩
  · omega
  · rw [begins] at comment
    rw [comment.slash] at semi
    exact absurd semi (by decide)

/-- No token of a run and none of its reports takes up a place where a byte is dropped. -/
theorem Runs.avoids {lx lx' : Lexer} {tokens : List Token} (run : Runs src lx tokens lx')
    (visited : Visits src p) (half : HalfDirective src p) (here : Visits src lx.pos)
    (clear : ∀ e ∈ lx.errors, ¬ Covers src e p) :
    (∀ t ∈ tokens, ¬ t.Spans p) ∧ ∀ e ∈ lx'.errors, ¬ Covers src e p := by
  have drops := skipStep_drops_iff.mpr ⟨half, rfl⟩
  have sign : src.byte p ≠ 0 := by rw [half.sign]; decide
  induction run with
  | @done lx ended =>
    exact ⟨by simp, clear⟩
  | @goes lx lx' stop errors tokens step _ ih =>
    -- The lexer is before the place, and does not step over it.
    have next : Next src lx.pos stop := Or.inl ⟨errors, step⟩
    have before : lx.pos < p := by
      refine Nat.lt_of_le_of_ne (visited.le_half half here) ?_
      rintro same
      rw [same, drops] at step
      cases step
    obtain ⟨b, next', le⟩ := visited.chain here before
    obtain rfl := next.unique next'
    refine ih (Visits.next here next) ?_
    intro e member
    rcases List.mem_append.mp member with member | member
    · exact clear e member
    · exact (skipStep_gap step).2.2.covers le e member
  | @scan lx lx' tokens step nonzero _ ih =>
    have next : Next src lx.pos (scanToken src lx.pos).stop := Or.inr ⟨step, nonzero, rfl⟩
    have before : lx.pos < p := by
      refine Nat.lt_of_le_of_ne (visited.le_half half here) ?_
      rintro same
      rw [same, drops] at step
      cases step
    obtain ⟨b, next', le⟩ := visited.chain here before
    obtain rfl := next.unique next'
    have rest := ih (Visits.next here next) (by
      intro e member
      rcases List.mem_append.mp member with member | member
      · exact clear e member
      · exact scanToken_covers nonzero le e member)
    refine ⟨?_, rest.2⟩
    intro t member spans
    rcases List.mem_append.mp member with member | member
    · have ends := (tokensAt_spec nonzero t member).2.2
      have within := spans.2
      omega
    · exact rest.1 t member spans
  | @drops lx lx' stop tokens step nonzero run ih =>
    -- This is the place; all that follows begins behind it.
    obtain ⟨half', rfl⟩ := skipStep_drops_iff.mp step
    have same : lx.pos = p :=
      Nat.le_antisymm (visited.le_half half here) (here.le_half half' visited)
    have onwards : Onwards src ⟨lx.pos + 1, lx.errors⟩ (tokensAt src (lx.pos + 1) ++ tokens) lx' :=
      run.onwards.taken (Nat.le_refl _) nonzero
    constructor
    · intro t member spans
      have behind := onwards.behind t member
      have within := spans.1
      simp only at behind
      omega
    · obtain ⟨new, errors, after⟩ := onwards.reports
      intro e member covers
      rw [errors] at member
      rcases List.mem_append.mp member with member | member
      · exact clear e member covers
      · have behind := after e member
        have within := covers.1
        simp only at behind
        omega

theorem skipStep_comment (semi : src.byte a = ch ';') :
    ∃ stop errors, skipStep src a = .goes stop errors := by
  have comment : skipStep src a = skipComment src a := by
    rw [skipStep, semi]
    rw [if_neg (by decide), if_pos rfl]
  rw [comment]
  unfold skipComment skipSymbolComment skipMarkerComment
  simp only
  repeat' split
  all_goals exact ⟨_, _, rfl⟩

theorem skipStep_directive (directive : LineDirective src a b) :
    ∃ stop errors, skipStep src a = .goes stop errors := by
  have sign : skipStep src a = skipDirective src a := by
    rw [skipStep, directive.sign]
    rw [if_neg (by decide), if_neg (by decide), if_pos (by simp [directive.starts])]
  rw [sign]
  unfold skipDirective
  rw [← directiveText]
  simp only
  rw [if_pos (by simpa using directive.opens), if_pos directive.number]
  exact ⟨_, _, rfl⟩

theorem Visits.ends_before (visited : Visits src p) (half : HalfDirective src p)
    (other : Visits src a) (kind : Comment src a b ∨ LineDirective src a b) (after : a ≤ p) :
    b ≤ p := by
  have inside : p < src.len := Source.lt_len_of_eq half.sign (by decide)
  have goes : ∃ stop errors, skipStep src a = .goes stop errors := by
    rcases kind with comment | directive
    · have semi : src.byte a = ch ';' := by cases comment <;> assumption
      exact skipStep_comment semi
    · exact skipStep_directive directive
  obtain ⟨stop, errors, step⟩ := goes
  have before : a < p := by
    refine Nat.lt_of_le_of_ne after ?_
    rintro rfl
    rw [skipStep_drops_iff.mpr ⟨half, rfl⟩] at step
    cases step
  obtain ⟨b', next, le⟩ := visited.chain other before
  obtain rfl := Next.unique (Or.inl ⟨errors, step⟩) next
  obtain ⟨-, -, gap⟩ := skipStep_gap step
  -- What the lexer passes over is the comment or the directive, by its first byte.
  rcases kind with comment | directive
  · have semi : src.byte a = ch ';' := by cases comment <;> assumption
    cases gap with
    | space spaces =>
      have space := spaces a (Nat.le_refl _) (skipStep_gap step).1
      rw [semi] at space
      exact absurd space (by decide)
    | comment comment' => exact comment.unique comment' ▸ le
    | shebang shebang =>
      rw [shebang.sign] at semi
      exact absurd semi (by decide)
    | directive directive =>
      rw [directive.sign] at semi
      exact absurd semi (by decide)
    | reported _ ended => omega
  · have sign := directive.sign
    cases gap with
    | space spaces =>
      have space := spaces a (Nat.le_refl _) (skipStep_gap step).1
      rw [sign] at space
      exact absurd space (by decide)
    | comment comment =>
      have semi : src.byte a = ch ';' := by cases comment <;> assumption
      rw [sign] at semi
      exact absurd semi (by decide)
    | shebang shebang =>
      -- The first line of a script has a mark where the directive has its word or a digit.
      exfalso
      have mark := shebang.mark
      rcases directive.opens with word | digit
      · rw [lineWordAt_byte word] at mark
        exact absurd mark (by decide)
      · rw [mark] at digit
        exact absurd digit (by decide)
    | directive directive' => exact directive.unique directive' ▸ le
    | reported semi ended =>
      rw [sign] at semi
      exact absurd semi (by decide)

theorem HalfDirective.not_accounted {tokens : List Token} {errors : List LexError}
    (half : HalfDirective src p) (visited : Visits src p) (tokensClear : ∀ t ∈ tokens, ¬ t.Spans p)
    (errorsClear : ∀ e ∈ errors, ¬ Covers src e p) : ¬ Accounted src tokens errors p := by
  rintro (⟨t, member, spans⟩ | space | ⟨b, shebang, before⟩ | ⟨a, b, other, kind, after, before⟩ |
    ⟨e, member, covers⟩)
  · exact tokensClear t member spans
  · rw [half.sign] at space
    exact absurd space (by decide)
  · have starts := half.starts
    simp only [atLineStart, Bool.or_eq_true, decide_eq_true_eq] at starts
    rcases starts with rfl | newline
    · have mark := shebang.mark
      rw [lineWordAt_byte half.word] at mark
      exact absurd mark (by decide)
    · -- The line of a script ends before the next line begins.
      rcases Nat.eq_zero_or_pos p with rfl | positive
      · rw [Nat.zero_sub, half.sign] at newline
        exact absurd newline (by decide)
      · exact shebang.ends.before (p - 1) (Nat.zero_le _) (by omega) (Or.inr newline)
  · have ends := visited.ends_before half other kind after
    omega
  · exact errorsClear e member covers

theorem Runs.not_partitions {lx : Lexer} {tokens : List Token} (run : Runs src lexerInit tokens lx)
    (visited : Visits src p) (half : HalfDirective src p) : ¬ Partitions src tokens lx.errors := by
  intro partitions
  obtain ⟨tokensClear, errorsClear⟩ :=
    run.avoids visited half Visits.start (by simp [lexerInit])
  exact half.not_accounted visited tokensClear errorsClear
    (partitions.accounted p (Source.lt_len_of_eq half.sign (by decide)))

/--
The lexer comes to the end of every text after finitely many tokens; and the tokens are not empty,
in order, without overlap, and every other place is a space, or belongs to the first line of a
script, a comment or a line directive, or is covered by a report, exactly if the lexer comes nowhere
at the beginning of a line to a number sign with the word of a line directive and no number.
-/
theorem lexAll_partitions_iff (src : Source) :
    ∃ tokens lx, lexAll src (src.len + 1) lexerInit = some (tokens, lx) ∧
      (Partitions src tokens lx.errors ↔ ∀ p, Visits src p → ¬ HalfDirective src p) := by
  obtain ⟨tokens, lx, ran, run⟩ :=
    @lexAll_runs src lexerInit (src.len + 1) (Nat.zero_le _) (by omega)
  refine ⟨tokens, lx, ran, ?_, ?_⟩
  · intro partitions p visited half
    exact run.not_partitions visited half partitions
  · intro whole
    obtain ⟨nonempty, inside, ordered, -, -⟩ := run.onwards
    exact ⟨nonempty, inside, ordered, fun i before =>
      run.accounted Visits.start whole i (Nat.zero_le _) before⟩

/-- A line that begins like a line directive and has no number. -/
def numberlessLine : Source := ⟨nm "#line x", by decide +kernel⟩

/-- The number sign of a directive without a number is skipped without a report. -/
theorem not_partitioned_numberlessLine :
    lexAll numberlessLine 8 lexerInit = some ([⟨.ident, 1, 4⟩, ⟨.ident, 6, 1⟩], ⟨7, []⟩) ∧
      (∀ a b, ¬ LineDirective numberlessLine a b) ∧
      ¬ Partitions numberlessLine [⟨.ident, 1, 4⟩, ⟨.ident, 6, 1⟩] [] := by
  have ran : lexAll numberlessLine 8 lexerInit =
      some ([⟨.ident, 1, 4⟩, ⟨.ident, 6, 1⟩], ⟨7, []⟩) := by decide +kernel
  have half : HalfDirective numberlessLine 0 := by constructor <;> decide +kernel
  refine ⟨ran, ?_, ?_⟩
  · intro a b directive
    have inside : a < 7 := Source.lt_len_of_eq directive.sign (by decide)
    have sign := directive.sign
    have number := directive.number
    interval_cases a
    · rw [half.numberless] at number
      cases number
    all_goals exact absurd sign (by decide)
  · obtain ⟨tokens, lx, ran', run⟩ :=
      @lexAll_runs numberlessLine lexerInit 8 (Nat.zero_le _) (by decide)
    rw [ran] at ran'
    cases ran'
    exact run.not_partitions Visits.start half

end Nytrix.Parse
