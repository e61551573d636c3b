import Nytrix.Parse.Diag

/-! Which parses lose no error: those whose reports are all made, and whose interpolations parse. -/

namespace Nytrix.Parse

open Nytrix.Types (Name nm ch)

variable {α : Type}

theorem parserDiagShouldEmit_of_le {table : DiagTable} {key : Name} (few : table key ≤ 2) :
    (parserDiagShouldEmit table key).1 = true := by
  simp only [parserDiagShouldEmit, decide_eq_true_eq]
  omega

theorem printErrorLine_of_le {p : Parser} {table : DiagTable} {tok : ParseToken} {msg : Name}
    (hint : Option Name) (few : table (reportKey p tok msg) ≤ 2) :
    (printErrorLine p table tok msg hint).map Prod.fst = checkLimit (noteError p tok msg hint) := by
  have emitted := parserDiagShouldEmit_of_le few
  unfold printErrorLine
  simp only [emitted, if_true, Option.map_map, Function.comp_def, Option.map_id']

/-- The hint of a report, or the one for the end of the text. -/
def errorHint (tok : ParseToken) (hint : Option Name) : Option Name :=
  if hint = none ∧ tok.kind = .eof then some (nm "check for missing ';' or unmatched brace")
  else hint

/-- The parser after a report at a token that is made. -/
def errorMade (p : Parser) (tok : ParseToken) (msg : Name) (hint : Option Name) : Option Parser :=
  checkLimit (noteError p tok msg (errorHint tok hint))

theorem parserError_of_le {p : Parser} {table : DiagTable} {tok : ParseToken} {msg : Name}
    (hint : Option Name) (few : table (reportKey p tok msg) ≤ 2) :
    (parserError p table tok msg hint).map Prod.fst = errorMade p tok msg hint :=
  printErrorLine_of_le _ few

/-- The parser after a report that a kind of token is expected, if it is made. -/
def expectMade (p : Parser) (kind : TokenKind) (msg hint : Option Name) : Option Parser :=
  match msg with
  | none =>
    checkLimit (noteError p p.cur (expectMsg kind none) (some (hint.getD (nm "check syntax"))))
  | some msg => errorMade p p.cur msg hint

theorem expectReport_of_le {p : Parser} {table : DiagTable} {kind : TokenKind} {msg : Option Name}
    (hint : Option Name) (few : table (reportKey p p.cur (expectMsg kind msg)) ≤ 2) :
    (expectReport p table kind msg hint).map Prod.fst = expectMade p kind msg hint := by
  cases msg with
  | none => exact printErrorLine_of_le _ few
  | some msg => exact parserError_of_le hint few

section Quiet

/-- Parsers that differ in what they print at most. -/
def Alike (p q : Parser) : Prop := p.loud = q.loud

theorem Alike.on {β : Type} {p q : Parser} (alike : Alike p q) (read : Parser → β) :
    read p.loud = read q.loud :=
  congrArg read alike

theorem Alike.hadError {p q : Parser} (alike : Alike p q) : p.hadError = q.hadError :=
  alike.on Parser.hadError

theorem Alike.cur {p q : Parser} (alike : Alike p q) : p.cur = q.cur :=
  alike.on Parser.cur

theorem Alike.filename {p q : Parser} (alike : Alike p q) : p.filename = q.filename :=
  alike.on Parser.filename

theorem parserAdvance_loud (p : Parser) : (parserAdvance p).loud = parserAdvance p.loud := by
  unfold parserAdvance
  simp only [Parser.loud]
  split <;> rfl

theorem Alike.advance {p q : Parser} (alike : Alike p q) :
    Alike (parserAdvance p) (parserAdvance q) := by
  unfold Alike at alike ⊢
  rw [parserAdvance_loud, parserAdvance_loud, alike]

theorem checkLimit_loud (p : Parser) : (checkLimit p).map Parser.loud = checkLimit p.loud := by
  unfold checkLimit
  by_cases reached : 0 < p.errorLimit ∧ p.errorLimit ≤ p.errorCount
  · by_cases exits : p.exitOnLimit = true
    · simp [Parser.loud, reached, exits]
    · simp [Parser.loud, reached, exits]
  · simp [Parser.loud, reached]

theorem noteError_loud (p : Parser) (tok : ParseToken) (msg : Name) (hint : Option Name) :
    (noteError p tok msg hint).loud = noteError p.loud tok msg hint := rfl

theorem errorMade_loud (p : Parser) (tok : ParseToken) (msg : Name) (hint : Option Name) :
    (errorMade p tok msg hint).map Parser.loud = errorMade p.loud tok msg hint := by
  unfold errorMade
  rw [checkLimit_loud, noteError_loud]

theorem expectMade_loud (p : Parser) (kind : TokenKind) (msg hint : Option Name) :
    (expectMade p kind msg hint).map Parser.loud = expectMade p.loud kind msg hint := by
  cases msg with
  | none =>
    show (checkLimit _).map Parser.loud = checkLimit _
    rw [checkLimit_loud, noteError_loud]
    rfl
  | some msg => exact errorMade_loud p p.cur msg hint

theorem Alike.skipUnlessEof {p q : Parser} (alike : Alike p q) :
    Alike (skipUnlessEof p) (skipUnlessEof q) := by
  unfold Parse.skipUnlessEof
  rw [alike.cur]
  split
  · exact alike.advance
  · exact alike

theorem Alike.quietly {p q : Parser} (alike : Alike p q) (a b : Bool) :
    Alike { p with quiet := a } { q with quiet := b } := by
  unfold Alike at alike ⊢
  exact alike

theorem alike_parserInit (tokens : List (ParseToken × Nat)) (filename : Name) (a b : Bool) :
    Alike (parserInit tokens filename a) (parserInit tokens filename b) :=
  Alike.advance rfl

theorem Alike.takeErrors {p q sub sub' : Parser} (alike : Alike p q) (subs : Alike sub sub') :
    Alike (takeErrors p sub) (takeErrors q sub') := by
  have count : sub.errorCount = sub'.errorCount := subs.on Parser.errorCount
  have outer : p.errorCount = q.errorCount := alike.on Parser.errorCount
  unfold Parse.takeErrors
  rw [subs.hadError, count, outer]
  split
  · exact alike.on fun r =>
      { r with hadError := true, errorCount := q.errorCount + sub'.errorCount }
  · exact alike

end Quiet

section Sticky

theorem hadError_parserAdvance {p : Parser} (had : p.hadError = true) :
    (parserAdvance p).hadError = true := by
  unfold parserAdvance
  split
  · exact had
  · exact had
  · rfl

theorem hadError_skipUnlessEof {p : Parser} (had : p.hadError = true) :
    (skipUnlessEof p).hadError = true := by
  unfold skipUnlessEof
  split
  · exact hadError_parserAdvance had
  · exact had

theorem hadError_checkLimit {p p' : Parser} (limit : checkLimit p = some p') :
    p'.hadError = p.hadError := by
  unfold checkLimit at limit
  split at limit
  · split at limit
    · exact absurd limit (by simp)
    · rw [← Option.some.inj limit]
  · rw [← Option.some.inj limit]

theorem hadError_printErrorLine {p : Parser} {table : DiagTable} {tok : ParseToken} {msg : Name}
    {hint : Option Name} {out : Parser × DiagTable} (had : p.hadError = true)
    (report : printErrorLine p table tok msg hint = some out) : out.1.hadError = true := by
  unfold printErrorLine at report
  simp only at report
  split at report
  · obtain ⟨p', limit, same⟩ := Option.map_eq_some_iff.1 report
    rw [← same]
    exact hadError_checkLimit limit
  · rw [← Option.some.inj report]
    exact had

theorem hadError_expectReport {p : Parser} {table : DiagTable} {kind : TokenKind}
    {msg hint : Option Name} {out : Parser × DiagTable} (had : p.hadError = true)
    (report : expectReport p table kind msg hint = some out) : out.1.hadError = true := by
  cases msg with
  | none => exact hadError_printErrorLine had report
  | some msg => exact hadError_printErrorLine had report

theorem hadError_parserExpect {p : Parser} {table : DiagTable} {kind : TokenKind}
    {msg hint : Option Name} {out : Parser × DiagTable} (had : p.hadError = true)
    (expected : parserExpect p table kind msg hint = some out) : out.1.hadError = true := by
  unfold parserExpect at expected
  split at expected
  · rw [← Option.some.inj expected]
    exact hadError_parserAdvance had
  · obtain ⟨reported, report, same⟩ := Option.map_eq_some_iff.1 expected
    rw [← same]
    exact hadError_skipUnlessEof (hadError_expectReport had report)

theorem hadError_takeErrors {p sub : Parser} (had : p.hadError = true) :
    (takeErrors p sub).hadError = true := by
  unfold takeErrors
  split
  · rfl
  · exact had

theorem hadError_takeErrors_sub (p : Parser) {sub : Parser} (had : sub.hadError = true) :
    (takeErrors p sub).hadError = true := by
  simp [takeErrors, had]

theorem ParseCode.hadError_run (code : ParseCode α) {p : Parser} {table : DiagTable}
    {result : ParseEnd α} (had : p.hadError = true) (ran : code.run p table = some result) :
    result.parser.hadError = true := by
  induction code generalizing p table result with
  | done value =>
    rw [← Option.some.inj ran]
    exact had
  | advance next ih => exact ih (hadError_parserAdvance had) ran
  | error tok msg hint next ih =>
    obtain ⟨out, report, rest⟩ := Option.bind_eq_some_iff.1 ran
    obtain ⟨end', ran', rfl⟩ := Option.map_eq_some_iff.1 rest
    have kept := ih (hadError_printErrorLine had report) ran'
    exact kept
  | expect kind msg hint next ih =>
    obtain ⟨out, expected, rest⟩ := Option.bind_eq_some_iff.1 ran
    obtain ⟨end', ran', rfl⟩ := Option.map_eq_some_iff.1 rest
    have kept := ih (hadError_parserExpect had expected) ran'
    exact kept
  | look next ih => exact ih _ had ran
  | attempt quietly inner keep next ihInner ihNext =>
    obtain ⟨tried, ranInner, rest⟩ := Option.bind_eq_some_iff.1 ran
    simp only at rest
    split at rest
    · obtain ⟨end', ran', rfl⟩ := Option.map_eq_some_iff.1 rest
      have copied : ({ p with quiet := quietly || p.quiet } : Parser).hadError = true := had
      have kept := ihNext _ _ (ihInner copied ranInner) ran'
      exact kept
    · exact ihNext _ _ had rest
  | interpolation tokens inner next ihInner ihNext =>
    obtain ⟨sub, ranInner, rest⟩ := Option.bind_eq_some_iff.1 ran
    obtain ⟨end', ran', rfl⟩ := Option.map_eq_some_iff.1 rest
    have kept := ihNext _ had ran'
    exact kept
  | generated tokens inner next ihInner ihNext =>
    obtain ⟨sub, ranInner, rest⟩ := Option.bind_eq_some_iff.1 ran
    obtain ⟨end', ran', rfl⟩ := Option.map_eq_some_iff.1 rest
    have kept := ihNext _ (hadError_takeErrors had) ran'
    exact kept

end Sticky

/--
No report of the code is one too many, and no interpolation is faulty.

A report, of a copy of the parser too, is about a place and has a text and a token that have been
reported twice at most in the process so far.
-/
def ParseCode.Meets : ParseCode α → Parser → DiagTable → Prop
  | .done _, _, _ => True
  | .advance next, p, table => next.Meets (parserAdvance p) table
  | .error tok msg hint next, p, table =>
    table (reportKey p tok msg) ≤ 2 ∧
      ∀ out, parserError p table tok msg hint = some out → next.Meets out.1 out.2
  | .expect kind msg hint next, p, table =>
    (p.cur.kind ≠ kind → table (reportKey p p.cur (expectMsg kind msg)) ≤ 2) ∧
      ∀ out, parserExpect p table kind msg hint = some out → next.Meets out.1 out.2
  | .look next, p, table => (next p.loud).Meets p table
  | .attempt quietly inner keep next, p, table =>
    inner.Meets { p with quiet := quietly || p.quiet } table ∧
      ∀ tried, inner.run { p with quiet := quietly || p.quiet } table = some tried →
        (next tried.parser.loud tried.value).Meets
          (if keep tried.parser.loud tried.value then tried.parser else p) tried.table
  | .interpolation tokens inner next, p, table =>
    inner.Meets (parserInit tokens p.filename p.quiet) table ∧
      ∀ sub, inner.run (parserInit tokens p.filename p.quiet) table = some sub →
        sub.faulty = false ∧ (next sub.value).Meets p sub.table
  | .generated tokens inner next, p, table =>
    inner.Meets (parserInit tokens p.filename true) table ∧
      ∀ sub, inner.run (parserInit tokens p.filename true) table = some sub →
        (next sub.value).Meets (takeErrors p sub.parser) sub.table

section Found

theorem hadError_errorMade {p p' : Parser} {tok : ParseToken} {msg : Name} {hint : Option Name}
    (made : errorMade p tok msg hint = some p') : p'.hadError = true :=
  hadError_checkLimit made

theorem hadError_expectMade {p p' : Parser} {kind : TokenKind} {msg hint : Option Name}
    (made : expectMade p kind msg hint = some p') : p'.hadError = true := by
  cases msg with
  | none => exact hadError_checkLimit made
  | some msg => exact hadError_errorMade made

theorem hadError_parserExpect_of_le {p : Parser} {table : DiagTable} {kind : TokenKind}
    {msg hint : Option Name} {out : Parser × DiagTable} (other : p.cur.kind ≠ kind)
    (few : table (reportKey p p.cur (expectMsg kind msg)) ≤ 2)
    (expected : parserExpect p table kind msg hint = some out) : out.1.hadError = true := by
  unfold parserExpect at expected
  rw [if_neg other] at expected
  obtain ⟨reported, report, rfl⟩ := Option.map_eq_some_iff.1 expected
  have made := expectReport_of_le hint few
  rw [report] at made
  exact hadError_skipUnlessEof (hadError_expectMade made.symm)

/-- Code that meets the condition loses no error that it finds. -/
theorem ParseCode.hadError_of_failed (code : ParseCode α) {p : Parser} {table : DiagTable}
    {result : ParseEnd α} (meets : code.Meets p table) (ran : code.run p table = some result)
    (failed : result.failed = true) : result.parser.hadError = true := by
  induction code generalizing p table result with
  | done value =>
    rw [← Option.some.inj ran] at failed
    exact absurd failed (by simp)
  | advance next ih => exact ih meets ran failed
  | error tok msg hint next ih =>
    obtain ⟨few, later⟩ := meets
    obtain ⟨out, report, rest⟩ := Option.bind_eq_some_iff.1 ran
    obtain ⟨end', ran', rfl⟩ := Option.map_eq_some_iff.1 rest
    -- the report is made, and what is noted stays
    have made := parserError_of_le hint few
    rw [report] at made
    have kept := next.hadError_run (hadError_errorMade made.symm) ran'
    exact kept
  | expect kind msg hint next ih =>
    obtain ⟨few, later⟩ := meets
    obtain ⟨out, expected, rest⟩ := Option.bind_eq_some_iff.1 ran
    obtain ⟨end', ran', rfl⟩ := Option.map_eq_some_iff.1 rest
    by_cases other : p.cur.kind = kind
    · have found : end'.failed = true := by simpa [ParseEnd.after, other] using failed
      have kept := ih (later out expected) ran' found
      exact kept
    · have noted := hadError_parserExpect_of_le other (few other) expected
      have kept := next.hadError_run noted ran'
      exact kept
  | look next ih => exact ih _ meets ran failed
  | attempt quietly inner keep next ihInner ihNext =>
    obtain ⟨meetsInner, later⟩ := meets
    obtain ⟨tried, ranInner, rest⟩ := Option.bind_eq_some_iff.1 ran
    have meetsNext := later tried ranInner
    simp only at rest
    split at rest
    · rename_i kept
      rw [if_pos kept] at meetsNext
      obtain ⟨end', ran', rfl⟩ := Option.map_eq_some_iff.1 rest
      rcases Bool.or_eq_true_iff.1 failed with before | after
      · have stays := (next _ _).hadError_run (ihInner meetsInner ranInner before) ran'
        exact stays
      · have found := ihNext _ _ meetsNext ran' after
        exact found
    · rename_i dropped
      rw [if_neg dropped] at meetsNext
      exact ihNext _ _ meetsNext rest failed
  | interpolation tokens inner next ihInner ihNext =>
    obtain ⟨meetsInner, later⟩ := meets
    obtain ⟨sub, ranInner, rest⟩ := Option.bind_eq_some_iff.1 ran
    obtain ⟨sound, meetsNext⟩ := later sub ranInner
    obtain ⟨end', ran', rfl⟩ := Option.map_eq_some_iff.1 rest
    have found : end'.failed = true := by simpa [ParseEnd.after, sound] using failed
    have kept := ihNext _ meetsNext ran' found
    exact kept
  | generated tokens inner next ihInner ihNext =>
    obtain ⟨meetsInner, later⟩ := meets
    obtain ⟨sub, ranInner, rest⟩ := Option.bind_eq_some_iff.1 ran
    have meetsNext := later sub ranInner
    obtain ⟨end', ran', rfl⟩ := Option.map_eq_some_iff.1 rest
    rcases Bool.or_eq_true_iff.1 failed with before | after
    · have handed := hadError_takeErrors_sub p (ihInner meetsInner ranInner before)
      have stays := (next _).hadError_run handed ran'
      exact stays
    · have found := ihNext _ meetsNext ran' after
      exact found

end Found

section Again

theorem Alike.errorMade {p q p' q' : Parser} {tok : ParseToken} {msg : Name} {hint : Option Name}
    (alike : Alike p q) (left : errorMade p tok msg hint = some p')
    (right : errorMade q tok msg hint = some q') : Alike p' q' := by
  have same := alike.on fun r => Parse.errorMade r tok msg hint
  rw [← errorMade_loud, ← errorMade_loud, left, right] at same
  exact Option.some.inj same

theorem Alike.expectMade {p q p' q' : Parser} {kind : TokenKind} {msg hint : Option Name}
    (alike : Alike p q) (left : expectMade p kind msg hint = some p')
    (right : expectMade q kind msg hint = some q') : Alike p' q' := by
  have same := alike.on fun r => Parse.expectMade r kind msg hint
  rw [← expectMade_loud, ← expectMade_loud, left, right] at same
  exact Option.some.inj same

theorem Alike.parserExpect {p q : Parser} {table table' : DiagTable} {kind : TokenKind}
    {msg hint : Option Name} {out out' : Parser × DiagTable} (alike : Alike p q)
    (few : p.cur.kind ≠ kind → table (reportKey p p.cur (expectMsg kind msg)) ≤ 2)
    (few' : q.cur.kind ≠ kind → table' (reportKey q q.cur (expectMsg kind msg)) ≤ 2)
    (left : parserExpect p table kind msg hint = some out)
    (right : parserExpect q table' kind msg hint = some out') : Alike out.1 out'.1 := by
  unfold Parse.parserExpect at left right
  by_cases other : p.cur.kind = kind
  · have other' : q.cur.kind = kind := by rw [← alike.cur, other]
    rw [if_pos other] at left
    rw [if_pos other'] at right
    rw [← Option.some.inj left, ← Option.some.inj right]
    exact alike.advance
  · have other' : q.cur.kind ≠ kind := by rw [← alike.cur]; exact other
    rw [if_neg other] at left
    rw [if_neg other'] at right
    obtain ⟨reported, report, rfl⟩ := Option.map_eq_some_iff.1 left
    obtain ⟨reported', report', rfl⟩ := Option.map_eq_some_iff.1 right
    have made := expectReport_of_le hint (few other)
    have made' := expectReport_of_le hint (few' other')
    rw [report] at made
    rw [report'] at made'
    exact (alike.expectMade made.symm made'.symm).skipUnlessEof

/-- Ends with the same value and the same account of errors. -/
def ParseEnd.Same (result result' : ParseEnd α) : Prop :=
  result.value = result'.value ∧ Alike result.parser result'.parser

/-- Code that meets the condition from two tables ends in the same way. -/
theorem ParseCode.same_of_meets (code : ParseCode α) {p q : Parser} {table table' : DiagTable}
    {result result' : ParseEnd α} (alike : Alike p q) (meets : code.Meets p table)
    (meets' : code.Meets q table') (ran : code.run p table = some result)
    (ran' : code.run q table' = some result') : result.Same result' := by
  induction code generalizing p q table table' result result' with
  | done value =>
    rw [← Option.some.inj ran, ← Option.some.inj ran']
    exact ⟨rfl, alike⟩
  | advance next ih => exact ih alike.advance meets meets' ran ran'
  | error tok msg hint next ih =>
    obtain ⟨few, later⟩ := meets
    obtain ⟨few', later'⟩ := meets'
    obtain ⟨out, report, rest⟩ := Option.bind_eq_some_iff.1 ran
    obtain ⟨out', report', rest'⟩ := Option.bind_eq_some_iff.1 ran'
    obtain ⟨_, next₁, rfl⟩ := Option.map_eq_some_iff.1 rest
    obtain ⟨_, next₂, rfl⟩ := Option.map_eq_some_iff.1 rest'
    -- both reports are made
    have made := parserError_of_le hint few
    have made' := parserError_of_le hint few'
    rw [report] at made
    rw [report'] at made'
    have reported := alike.errorMade made.symm made'.symm
    have same := ih reported (later out report) (later' out' report') next₁ next₂
    exact same
  | expect kind msg hint next ih =>
    obtain ⟨few, later⟩ := meets
    obtain ⟨few', later'⟩ := meets'
    obtain ⟨out, expected, rest⟩ := Option.bind_eq_some_iff.1 ran
    obtain ⟨out', expected', rest'⟩ := Option.bind_eq_some_iff.1 ran'
    obtain ⟨_, next₁, rfl⟩ := Option.map_eq_some_iff.1 rest
    obtain ⟨_, next₂, rfl⟩ := Option.map_eq_some_iff.1 rest'
    have reported := alike.parserExpect few few' expected expected'
    have same := ih reported (later out expected) (later' out' expected') next₁ next₂
    exact same
  | look next ih =>
    have seen : p.loud = q.loud := alike
    simp only [ParseCode.Meets, ParseCode.run] at meets ran
    rw [seen] at meets ran
    exact ih _ alike meets meets' ran ran'
  | attempt quietly inner keep next ihInner ihNext =>
    obtain ⟨meetsInner, later⟩ := meets
    obtain ⟨meetsInner', later'⟩ := meets'
    obtain ⟨tried, ranInner, rest⟩ := Option.bind_eq_some_iff.1 ran
    obtain ⟨tried', ranInner', rest'⟩ := Option.bind_eq_some_iff.1 ran'
    have meetsNext := later tried ranInner
    have meetsNext' := later' tried' ranInner'
    -- the copies end in the same way, so what is chosen next is the same
    obtain ⟨value, copies⟩ :=
      ihInner (alike.quietly _ _) meetsInner meetsInner' ranInner ranInner'
    have seen : tried.parser.loud = tried'.parser.loud := copies
    simp only at rest rest'
    rw [seen, value] at rest meetsNext
    split at rest
    · rename_i kept
      rw [if_pos kept] at meetsNext meetsNext' rest'
      obtain ⟨_, next₁, rfl⟩ := Option.map_eq_some_iff.1 rest
      obtain ⟨_, next₂, rfl⟩ := Option.map_eq_some_iff.1 rest'
      have same := ihNext _ _ copies meetsNext meetsNext' next₁ next₂
      exact same
    · rename_i dropped
      rw [if_neg dropped] at meetsNext meetsNext' rest'
      exact ihNext _ _ alike meetsNext meetsNext' rest rest'
  | interpolation tokens inner next ihInner ihNext =>
    obtain ⟨meetsInner, later⟩ := meets
    obtain ⟨meetsInner', later'⟩ := meets'
    obtain ⟨sub, ranInner, rest⟩ := Option.bind_eq_some_iff.1 ran
    obtain ⟨sub', ranInner', rest'⟩ := Option.bind_eq_some_iff.1 ran'
    obtain ⟨_, next₁, rfl⟩ := Option.map_eq_some_iff.1 rest
    obtain ⟨_, next₂, rfl⟩ := Option.map_eq_some_iff.1 rest'
    have inits : Alike (parserInit tokens p.filename p.quiet)
        (parserInit tokens q.filename q.quiet) := by
      rw [alike.filename]
      exact alike_parserInit tokens q.filename p.quiet q.quiet
    obtain ⟨value, -⟩ := ihInner inits meetsInner meetsInner' ranInner ranInner'
    have meetsNext := (later sub ranInner).2
    rw [value] at next₁ meetsNext
    have same := ihNext _ alike meetsNext (later' sub' ranInner').2 next₁ next₂
    exact same
  | generated tokens inner next ihInner ihNext =>
    obtain ⟨meetsInner, later⟩ := meets
    obtain ⟨meetsInner', later'⟩ := meets'
    obtain ⟨sub, ranInner, rest⟩ := Option.bind_eq_some_iff.1 ran
    obtain ⟨sub', ranInner', rest'⟩ := Option.bind_eq_some_iff.1 ran'
    obtain ⟨_, next₁, rfl⟩ := Option.map_eq_some_iff.1 rest
    obtain ⟨_, next₂, rfl⟩ := Option.map_eq_some_iff.1 rest'
    have inits : Alike (parserInit tokens p.filename true) (parserInit tokens q.filename true) := by
      rw [alike.filename]
      exact alike_parserInit tokens q.filename true true
    obtain ⟨value, subs⟩ := ihInner inits meetsInner meetsInner' ranInner ranInner'
    have meetsNext := later sub ranInner
    rw [value] at next₁ meetsNext
    have same :=
      ihNext _ (alike.takeErrors subs) meetsNext (later' sub' ranInner') next₁ next₂
    exact same

end Again

section Histories

/-- Every parse of a history meets the condition from the table that the ones before it leave. -/
def ParsesMeet : List (ParseCode α × Parser) → DiagTable → Prop
  | [], _ => True
  | parse :: parses, table =>
    parse.1.Meets parse.2 table ∧
      ∀ result, parse.1.run parse.2 table = some result → ParsesMeet parses result.table

/--
No error of a history of parses is lost.

An error that is found is one of the parser at the end, and two parses of one text, quiet or not,
find the same.
-/
def KeepsErrors (parses : List (ParseCode α × Parser)) (table : DiagTable) : Prop :=
  (∀ result ∈ runParses parses table, result.failed = true → result.parser.hadError = true) ∧
  ∀ (i j : Nat) (code : ParseCode α) (p q : Parser) (result result' : ParseEnd α),
    parses[i]? = some (code, p) → parses[j]? = some (code, q) → Alike p q →
    (runParses parses table)[i]? = some result → (runParses parses table)[j]? = some result' →
    result.parser.hadError = result'.parser.hadError

theorem ParsesMeet.parse {parses : List (ParseCode α × Parser)} {table : DiagTable}
    (meets : ParsesMeet parses table) {i : Nat} {result : ParseEnd α}
    (ended : (runParses parses table)[i]? = some result) :
    ∃ code p before, parses[i]? = some (code, p) ∧ ParseCode.Meets code p before ∧
      code.run p before = some result := by
  induction parses generalizing table i with
  | nil => exact absurd ended (by simp [runParses])
  | cons parse parses ih =>
    obtain ⟨first, later⟩ := meets
    unfold runParses at ended
    split at ended
    · rename_i result' ran
      cases i with
      | zero =>
        have same : result' = result := by simpa using ended
        exact ⟨parse.1, parse.2, table, rfl, first, same ▸ ran⟩
      | succ i => exact ih (later result' ran) (by simpa using ended)
    · exact absurd ended (by simp)

/--
A history of parses loses no error, if no report is one too many and no interpolation is faulty.
-/
theorem keepsErrors_of_parsesMeet (parses : List (ParseCode α × Parser)) (table : DiagTable)
    (meets : ParsesMeet parses table) : KeepsErrors parses table := by
  refine ⟨fun result among failed => ?_, fun i j code p q result result' => ?_⟩
  · obtain ⟨i, ended⟩ := List.mem_iff_getElem?.1 among
    obtain ⟨code, p, before, -, met, ran⟩ := meets.parse ended
    exact code.hadError_of_failed met ran failed
  · intro left right alike ended ended'
    obtain ⟨_, _, before, found, met, ran⟩ := meets.parse ended
    obtain ⟨_, _, before', found', met', ran'⟩ := meets.parse ended'
    -- both parses are of this code
    obtain ⟨rfl, rfl⟩ := Prod.mk.inj (Option.some.inj (found.symm.trans left))
    obtain ⟨rfl, rfl⟩ := Prod.mk.inj (Option.some.inj (found'.symm.trans right))
    exact (ParseCode.same_of_meets _ alike met met' ran ran').2.hadError

/-- The token of a word on the first line of a file. -/
def firstLine (kind : TokenKind) (text : String) (col : Int) : ParseToken :=
  ⟨kind, some (nm text), some (nm "a.ny"), 1, col⟩

/-- The code for a `break` outside of every loop, at the end of a text. -/
def parseBreakStmt (tok : ParseToken) : ParseCode Unit :=
  .expect .kwBreak (some (nm "'break'")) none
    (.error tok (nm "'break' used outside of a loop")
      (some (nm "put this inside a while/for body")) (.done ()))

/-- The parse of the text `break`. -/
def breakParse : ParseCode Unit × Parser :=
  (parseBreakStmt (firstLine .kwBreak "break" 1),
    parserInit [(firstLine .kwBreak "break" 1, 0), (firstLine .eof "" 6, 0)] (nm "a.ny") false)

/-- A first parse of the text `break` notes its error. -/
theorem keepsErrors_of_parsesMeet_break :
    ParsesMeet [breakParse] (fun _ => 0) ∧ KeepsErrors [breakParse] (fun _ => 0) := by
  have meets : ParsesMeet [breakParse] (fun _ => 0) := by
    refine ⟨⟨fun _ => Nat.zero_le _, fun out expected => ?_⟩, fun _ _ => trivial⟩
    refine ⟨?_, fun _ _ => trivial⟩
    have same : ((parserAdvance breakParse.2, fun _ => 0) : Parser × DiagTable) = out :=
      Option.some.inj expected
    rw [← same]
    exact Nat.zero_le _
  exact ⟨meets, keepsErrors_of_parsesMeet _ _ meets⟩

/-- The parse of an f-string with `a b` between its braces. -/
def fstringParse : ParseCode Unit × Parser :=
  (.advance (.interpolation [(firstLine .ident "a" 1, 0), (firstLine .ident "b" 3, 0),
      (firstLine .eof "" 4, 0)] (.advance (.done ())) fun _ => .done ()),
    parserInit [(firstLine .fstring "f\"\x7ba b\x7d\"" 1, 0), (firstLine .eof "" 9, 0)]
      (nm "a.ny") false)

/-- The fourth parse of the text `break` and the first of an f-string lose their errors. -/
theorem not_keepsErrors_break :
    ¬ KeepsErrors (List.replicate 4 breakParse) (fun _ => 0) ∧
      ¬ KeepsErrors [fstringParse] (fun _ => 0) := by
  constructor
  · rintro ⟨found, -⟩
    have lost : ∃ result ∈ runParses (List.replicate 4 breakParse) (fun _ => 0),
        result.failed = true ∧ result.parser.hadError = false := by decide +kernel
    obtain ⟨result, among, failed, none⟩ := lost
    exact absurd (found result among failed) (by simp [none])
  · rintro ⟨found, -⟩
    have lost : ∃ result ∈ runParses [fstringParse] (fun _ => 0),
        result.failed = true ∧ result.parser.hadError = false := by decide +kernel
    obtain ⟨result, among, failed, none⟩ := lost
    exact absurd (found result among failed) (by simp [none])

end Histories

end Nytrix.Parse
