import Mathlib.Data.List.Pairwise
import Nytrix.Regex.Matcher

/-! Searching a text for the matches of an expression, replacing them, and splitting at them. -/

namespace Nytrix.Regex

section Groups

/-- The part of a text that a group has captured. -/
def group (text : Text) (m : Match) (idx : Nat) : Option Text :=
  match m.caps[idx]?.join with
  | none => none
  | some (a, b) => if b < a then none else some (slice text a b)

/-- The part of a text that the group of a name has captured. -/
def groupNamed (rx : Compiled) (text : Text) (m : Match) (name : Text) : Option Text :=
  (rx.names.lookup name).bind (group text m)

/-- What the groups have captured. -/
def groups (rx : Compiled) (text : Text) (m : Match) : List (Option Text) :=
  (List.range rx.groups).map fun i => group text m (i + 1)

/-- The number that decimal digits write. -/
def numberOf (digits : Text) : Nat :=
  digits.foldl (fun v c => v * 10 + (c.toNat - 48)) 0

/-- What a replacement stands for; `fuel` is at least the length of the replacement. -/
def expandFrom (rx : Compiled) (text : Text) (m : Match) : Nat → Text → Text
  | 0, _ => []
  | _, [] => []
  | fuel + 1, c :: rest =>
    match rest with
    | [] => c :: expandFrom rx text m fuel rest
    | n :: behind =>
      if c ≠ 92 then c :: expandFrom rx text m fuel rest
      else if isDigit n then
        (group text m (numberOf (rest.takeWhile isDigit))).getD [] ++
          expandFrom rx text m fuel (rest.dropWhile isDigit)
      else if n = 103 ∧ behind.head? = some 60 then
        (groupNamed rx text m (behind.tail.takeWhile (· ≠ 62))).getD [] ++
          expandFrom rx text m fuel (behind.tail.dropWhile (· ≠ 62)).tail
      else n :: expandFrom rx text m fuel behind

/-- What a replacement stands for at a match. -/
def expandRepl (rx : Compiled) (text repl : Text) (m : Match) : Text :=
  expandFrom rx text m repl.length repl

end Groups

section Loops

variable (rx : Compiled) (text : Text)

/-- The first match at a number of places from one on. -/
def scanFrom : Nat → Nat → Option Match
  | 0, _ => none
  | n + 1, scan =>
    match runAt rx text scan with
    | some m => some m
    | none => scanFrom n (scan + 1)

/-- The first match at a place or behind it. -/
def nextMatch (pos : Nat) : Option Match := scanFrom rx text (text.length + 1 - pos) pos

/-- The first match of a text. -/
def search : Option Match := nextMatch rx text 0

/-- The match of a whole text. -/
def fullmatch : Option Match :=
  match runAt rx text 0 with
  | some m => if m.stop = text.length then some m else none
  | none => none

/-- Whether an expression matches a whole text. -/
def matchesText : Bool := (fullmatch rx text).isSome

/-- The place at which the search goes on behind a match. -/
def Match.resume (m : Match) : Nat := if m.start < m.stop then m.stop else m.start + 1

/-- The matches from a place on, so many at most. -/
def finditerFrom : Nat → Nat → List Match
  | 0, _ => []
  | n + 1, pos =>
    if pos ≤ text.length then
      match nextMatch rx text pos with
      | none => []
      | some m => m :: finditerFrom n m.resume
    else []

/-- The matches of a text; there is at most one at each place. -/
def finditer : List Match := finditerFrom rx text (text.length + 1) 0

/-- Replaces the matches from a place on, so many at most; `done` have been replaced before. -/
def subFrom (repl : Text) (count : Int) : Nat → Nat → Nat → Text
  | 0, pos, _ => slice text pos text.length
  | n + 1, pos, done =>
    if text.length < pos ∨ (0 < count ∧ count ≤ done) then slice text pos text.length
    else
      match nextMatch rx text pos with
      | none => slice text pos text.length
      | some m =>
        slice text pos m.start ++ expandRepl rx text repl m ++
          if m.stop = m.start then
            (if m.stop < text.length then slice text m.stop (m.stop + 1) else []) ++
              subFrom repl count n (m.stop + 1) (done + 1)
          else subFrom repl count n m.stop (done + 1)

/-- Replaces the matches of a text, the first `count` of them if that is positive. -/
def sub (repl : Text) (count : Int) : Text := subFrom rx text repl count (text.length + 1) 0 0

/-- Splits a text at its matches from a place on, so many at most. -/
def splitFrom (maxsplit : Int) : Nat → Nat → Nat → List (Option Text)
  | 0, pos, _ => [some (slice text pos text.length)]
  | n + 1, pos, done =>
    if text.length < pos ∨ (0 < maxsplit ∧ maxsplit ≤ done) then
      [some (slice text pos text.length)]
    else
      match nextMatch rx text pos with
      | none => [some (slice text pos text.length)]
      | some m =>
        some (slice text pos m.start) :: groups rx text m ++
          splitFrom maxsplit n (if m.start < m.stop then m.stop else m.stop + 1) (done + 1)

/-- Splits a text at its matches, the first `maxsplit` of them if that is positive. -/
def split (maxsplit : Int) : List (Option Text) :=
  splitFrom rx text maxsplit (text.length + 1) 0 0

end Loops

section Places

variable {rx : Compiled} {text : Text} {flags : Flags}

/-- A list of results within a text, none of them before a place. -/
def Onward (text : Text) (pos : Nat) (states : List State) : Prop :=
  ∀ st ∈ states, pos ≤ st.pos ∧ st.pos ≤ text.length

theorem matchByte_onward (right : UInt8 → Bool) (pos : Nat) (caps : Caps) :
    Onward text pos (matchByte right text pos caps) := by
  intro st member
  unfold matchByte at member
  split at member
  · rename_i found
    obtain ⟨b, at_pos, _⟩ := (Option.any_eq_true _ _).mp found
    obtain rfl := List.mem_singleton.mp member
    have below := (List.getElem?_eq_some_iff.mp at_pos).1
    exact ⟨Nat.le_succ pos, below⟩
  · cases member

theorem here_onward {pos : Nat} (inside : pos ≤ text.length) (caps : Caps) (holds : Bool) :
    Onward text pos (if holds then [⟨pos, caps⟩] else []) := by
  intro st member
  cases holds with
  | false => cases member
  | true =>
    obtain rfl := List.mem_singleton.mp member
    exact ⟨Nat.le_refl pos, inside⟩

theorem backrefMatch_onward (idx pos : Nat) (caps : Caps) :
    Onward text pos (backrefMatch idx text pos caps flags) := by
  intro st member
  unfold backrefMatch at member
  split at member
  · cases member
  · split at member
    · cases member
    · split at member
      · cases member
      · rename_i fits
        simp only [Bool.or_eq_true, decide_eq_true_eq, not_or, Nat.not_lt] at fits
        split at member
        · obtain rfl := List.mem_singleton.mp member
          exact ⟨Nat.le_add_right pos _, fits.2⟩
        · cases member

theorem Onward.flatMap {pos : Nat} {states : List State} (onward : Onward text pos states)
    {f : State → List State} (each : ∀ st ∈ states, Onward text st.pos (f st)) :
    Onward text pos (states.flatMap f) := by
  intro st member
  obtain ⟨before, among, later⟩ := List.mem_flatMap.mp member
  exact ⟨Nat.le_trans (onward before among).1 (each before among st later).1,
    (each before among st later).2⟩

/-- Results are within the text, and none is before the place of the search. -/
theorem matching_onward (flags : Flags) (fuel : Nat) :
    (∀ node pos caps, pos ≤ text.length →
      Onward text pos (matchNode fuel node text pos caps flags)) ∧
    (∀ xs pos caps, pos ≤ text.length →
      Onward text pos (matchSeq fuel xs text pos caps flags)) ∧
    ∀ child st count min max greedy, st.pos ≤ text.length →
      Onward text st.pos (repeatCollect fuel child text st count min max greedy flags) := by
  -- Induction on how deep calls may go.
  induction fuel with
  | zero =>
    refine ⟨fun _ _ _ _ st member => by simp [matchNode] at member, fun xs pos caps inside => ?_,
      fun _ _ _ _ _ _ _ st member => by simp [repeatCollect] at member⟩
    unfold matchSeq
    split
    · exact here_onward inside caps true
    · exact here_onward inside caps false
  | succ fuel ih =>
    obtain ⟨nodes, seqs, reps⟩ := ih
    refine ⟨fun node pos caps inside => ?_, fun xs pos caps inside => ?_,
      fun child st count min max greedy inside => ?_⟩
    · cases node with
      | empty =>
        unfold matchNode
        exact here_onward inside caps true
      | lit c | dot | cls neg items =>
        unfold matchNode
        exact matchByte_onward _ pos caps
      | anchor k =>
        unfold matchNode
        exact here_onward inside caps _
      | seq xs =>
        unfold matchNode
        exact seqs xs pos caps inside
      | alt xs =>
        unfold matchNode
        intro st member
        obtain ⟨x, _, among⟩ := List.mem_flatMap.mp member
        exact nodes x pos caps inside st among
      | rep child min max greedy =>
        unfold matchNode
        exact reps child ⟨pos, caps⟩ 0 min max greedy inside
      | cap idx child =>
        unfold matchNode
        intro st member
        obtain ⟨before, among, rfl⟩ := List.mem_map.mp member
        exact nodes child pos caps inside before among
      | look child neg | lookbehind child neg =>
        unfold matchNode
        exact here_onward inside caps _
      | backref idx =>
        unfold matchNode
        exact backrefMatch_onward idx pos caps
    · -- Induction on the trees that are left, from any results within the text.
      unfold matchSeq
      have run (states : List State) (onward : Onward text pos states) :
          Onward text pos (xs.foldl (fun states x =>
            states.flatMap fun st => matchNode fuel x text st.pos st.caps flags) states) := by
        induction xs generalizing states with
        | nil => exact onward
        | cons x xs ih =>
          exact ih _ (onward.flatMap fun st among => nodes x st.pos st.caps (onward st among).2)
      exact run _ (here_onward inside caps true)
    · unfold repeatCollect
      have here : Onward text st.pos (if min ≤ count then [st] else []) := by
        intro st' member
        split at member
        · obtain rfl := List.mem_singleton.mp member
          exact ⟨Nat.le_refl _, inside⟩
        · cases member
      have more : Onward text st.pos (if max.all (count < ·) then
          (matchNode fuel child text st.pos st.caps flags).flatMap fun ns =>
            if ns.pos ≠ st.pos then
              repeatCollect fuel child text ns (count + 1) min max greedy flags
            else []
          else []) := by
        split
        · have first := nodes child st.pos st.caps inside
          refine first.flatMap fun ns among => ?_
          split
          · exact reps child ns (count + 1) min max greedy (first ns among).2
          · intro st' member
            cases member
        · intro st' member
          cases member
      intro st' member
      dsimp only at member
      split at member
      · exact (List.mem_append.mp member).elim (more st') (here st')
      · exact (List.mem_append.mp member).elim (here st') (more st')

theorem runAt_some {pos : Nat} {m : Match} (found : runAt rx text pos = some m) :
    m.start = pos ∧ (pos ≤ text.length → pos ≤ m.stop ∧ m.stop ≤ text.length) := by
  obtain ⟨st, first, rfl⟩ := Option.map_eq_some_iff.mp found
  exact ⟨rfl, fun inside => (matching_onward rx.flags _).1 _ _ _ inside st
    (List.mem_of_mem_head? first)⟩

end Places

section Searching

variable {rx : Compiled} {text : Text}

/-- A match is the first one at a place or behind it. -/
structure IsNext (rx : Compiled) (text : Text) (pos : Nat) (m : Match) : Prop where
  behind : pos ≤ m.start
  inside : m.start ≤ m.stop ∧ m.stop ≤ text.length
  found : runAt rx text m.start = some m
  first : ∀ p, pos ≤ p → p < m.start → runAt rx text p = none

theorem scanFrom_some {n pos : Nat} {m : Match} (within : pos + n ≤ text.length + 1)
    (found : scanFrom rx text n pos = some m) : IsNext rx text pos m := by
  -- Induction on the number of places that are left.
  induction n generalizing pos with
  | zero => cases found
  | succ n ih =>
    unfold scanFrom at found
    split at found
    · rename_i out here
      obtain rfl : out = m := Option.some.inj found
      obtain ⟨start, stop⟩ := runAt_some here
      refine ⟨Nat.le_of_eq start.symm, ?_, by rw [start, here], fun p after before => ?_⟩
      · rw [start]
        exact stop (by omega)
      · omega
    · rename_i none
      have next := ih (by omega) found
      refine ⟨by have := next.behind; omega, next.inside, next.found, fun p after before => ?_⟩
      rcases Nat.eq_or_lt_of_le after with rfl | later
      · exact none
      · exact next.first p later before

theorem scanFrom_none {n pos : Nat} (missing : scanFrom rx text n pos = none) :
    ∀ p, pos ≤ p → p < pos + n → runAt rx text p = none := by
  induction n generalizing pos with
  | zero => exact fun p after before => by omega
  | succ n ih =>
    unfold scanFrom at missing
    split at missing
    · cases missing
    · rename_i none
      intro p after before
      rcases Nat.eq_or_lt_of_le after with rfl | later
      · exact none
      · exact ih missing p later (by omega)

theorem nextMatch_some {pos : Nat} {m : Match} (inside : pos ≤ text.length)
    (found : nextMatch rx text pos = some m) : IsNext rx text pos m :=
  scanFrom_some (by omega) found

theorem nextMatch_none {pos : Nat} (missing : nextMatch rx text pos = none) :
    ∀ p, pos ≤ p → p ≤ text.length → runAt rx text p = none :=
  fun p after before => scanFrom_none missing p after (by omega)

theorem IsNext.resume {pos : Nat} {m : Match} (next : IsNext rx text pos m) :
    pos < m.resume ∧ m.start < m.resume ∧ m.stop ≤ m.resume := by
  have behind := next.behind
  have inside := next.inside.1
  unfold Match.resume
  split <;> omega

/-- Matches one after the other, each the first at or behind the place where the search goes on. -/
inductive Scans (rx : Compiled) (text : Text) : Nat → List Match → Prop
  | done {pos} (missing : ∀ p, pos ≤ p → p ≤ text.length → runAt rx text p = none) :
      Scans rx text pos []
  | next {pos m ms} (first : IsNext rx text pos m) (rest : Scans rx text m.resume ms) :
      Scans rx text pos (m :: ms)

/-- The first of such matches, with or without further ones behind them. -/
inductive Follows (rx : Compiled) (text : Text) : Nat → List Match → Prop
  | nil {pos} : Follows rx text pos []
  | cons {pos m ms} (first : IsNext rx text pos m) (rest : Follows rx text m.resume ms) :
      Follows rx text pos (m :: ms)

theorem Scans.take {pos : Nat} {ms : List Match} (scans : Scans rx text pos ms) (k : Nat) :
    Follows rx text pos (ms.take k) := by
  induction scans generalizing k with
  | done =>
    rw [List.take_nil]
    exact .nil
  | next first _ ih =>
    cases k with
    | zero => exact .nil
    | succ k => exact .cons first (ih k)

theorem finditerFrom_scans {n pos : Nat} (enough : text.length + 1 ≤ pos + n) :
    Scans rx text pos (finditerFrom rx text n pos) := by
  induction n generalizing pos with
  | zero => exact .done fun p after before => by omega
  | succ n ih =>
    unfold finditerFrom
    split
    · rename_i inside
      split
      · rename_i missing
        exact .done (nextMatch_none missing)
      · rename_i m found
        have first := nextMatch_some inside found
        have resume := first.resume
        exact .next first (ih (by omega))
    · exact .done fun p after before => by omega

theorem Scans.behind {pos : Nat} {ms : List Match} (scans : Scans rx text pos ms) :
    ∀ m ∈ ms, pos ≤ m.start := by
  induction scans with
  | done => exact fun m member => by cases member
  | next first rest ih =>
    intro m member
    rcases List.mem_cons.mp member with rfl | later
    · exact first.behind
    · exact Nat.le_trans (Nat.le_of_lt first.resume.1) (ih m later)

theorem Scans.inside {pos : Nat} {ms : List Match} (scans : Scans rx text pos ms) :
    ∀ m ∈ ms, m.start ≤ m.stop ∧ m.stop ≤ text.length := by
  induction scans with
  | done => exact fun m member => by cases member
  | next first rest ih =>
    intro m member
    rcases List.mem_cons.mp member with rfl | later
    · exact first.inside
    · exact ih m later

theorem Scans.ordered {pos : Nat} {ms : List Match} (scans : Scans rx text pos ms) :
    ms.Pairwise fun m m' => m.start < m'.start ∧ m.stop ≤ m'.start := by
  induction scans with
  | done => exact List.Pairwise.nil
  | next first rest ih =>
    refine List.Pairwise.cons (fun m' later => ?_) ih
    have after := rest.behind m' later
    have resume := first.resume
    exact ⟨by omega, by omega⟩

end Searching

section Rewriting

variable {rx : Compiled} {text : Text}

theorem slice_append {a b c : Nat} (low : a ≤ b) (high : b ≤ c) :
    slice text a b ++ slice text b c = slice text a c := by
  unfold slice
  have later : text.drop b = (text.drop a).drop (b - a) := by
    rw [List.drop_drop]
    congr 1
    omega
  rw [later, show c - a = (b - a) + (c - b) by omega, List.take_add]

theorem slice_empty {a b : Nat} (past : b ≤ a) : slice text a b = [] := by
  rw [slice, show b - a = 0 by omega, List.take_zero]

theorem length_slice {a b : Nat} (inside : b ≤ text.length) :
    (slice text a b).length = b - a := by
  rw [slice, List.length_take, List.length_drop]
  omega

/-- The first of some matches, all of them if the number is not positive. -/
def limited (count : Int) (ms : List Match) : List Match :=
  if 0 < count then ms.take count.toNat else ms

/-- The matches that are left when some have been used. -/
def remaining (count : Int) (done : Nat) (ms : List Match) : List Match :=
  if 0 < count then ms.take (count.toNat - done) else ms

/-- A text from a place on with matches replaced and every other byte kept. -/
def replaced (text : Text) (expand : Match → Text) : Nat → List Match → Text
  | pos, [] => slice text pos text.length
  | pos, m :: ms => slice text pos m.start ++ expand m ++ replaced text expand m.stop ms

theorem replaced_earlier (expand : Match → Text) {p q : Nat} (order : p ≤ q)
    (inside : q ≤ text.length) {ms : List Match} (behind : ∀ m ∈ ms, q ≤ m.start) :
    slice text p q ++ replaced text expand q ms = replaced text expand p ms := by
  cases ms with
  | nil => exact slice_append order inside
  | cons m ms =>
    simp only [replaced]
    rw [← List.append_assoc, ← List.append_assoc,
      slice_append order (behind m List.mem_cons_self)]

theorem remaining_cons {count : Int} {done : Nat} (room : ¬(0 < count ∧ count ≤ done))
    (m : Match) (ms : List Match) :
    remaining count done (m :: ms) = m :: remaining count (done + 1) ms := by
  unfold remaining
  split
  · rename_i positive
    obtain ⟨left, more⟩ : ∃ left, count.toNat - done = left + 1 :=
      ⟨count.toNat - done - 1, by omega⟩
    rw [more, List.take_succ_cons, show count.toNat - (done + 1) = left by omega]
  · rfl

theorem remaining_full {count : Int} {done : Nat} (full : 0 < count ∧ count ≤ done)
    (ms : List Match) : remaining count done ms = [] := by
  rw [remaining, if_pos full.1, show count.toNat - done = 0 by omega, List.take_zero]

theorem mem_of_mem_remaining {count : Int} {done : Nat} {m : Match} {ms : List Match}
    (member : m ∈ remaining count done ms) : m ∈ ms := by
  unfold remaining at member
  split at member
  · exact List.mem_of_mem_take member
  · exact member

theorem subFrom_eq (repl : Text) (count : Int) {n pos : Nat}
    (enough : text.length + 1 ≤ pos + n) (done : Nat) :
    subFrom rx text repl count n pos done = replaced text (expandRepl rx text repl) pos
      (remaining count done (finditerFrom rx text n pos)) := by
  -- Induction on the number of rounds that are left.
  induction n generalizing pos done with
  | zero =>
    have none : remaining count done (finditerFrom rx text 0 pos) = [] := by
      simp [remaining, finditerFrom]
    rw [none]
    rfl
  | succ n ih =>
    unfold subFrom
    split
    · rename_i ended
      have none : remaining count done (finditerFrom rx text (n + 1) pos) = [] := by
        rcases ended with past | full
        · rw [finditerFrom, if_neg (by omega)]
          simp [remaining]
        · exact remaining_full full _
      rw [none]
      rfl
    · rename_i going
      rw [not_or, Nat.not_lt] at going
      rw [finditerFrom, if_pos going.1]
      split
      · simp [remaining, replaced]
      · rename_i m found
        have first := nextMatch_some going.1 found
        have inside := first.inside
        have resume := first.resume
        have scans : Scans rx text m.resume (finditerFrom rx text n m.resume) :=
          finditerFrom_scans (by omega)
        have later : ∀ m' ∈ remaining count (done + 1) (finditerFrom rx text n m.resume),
            m.resume ≤ m'.start :=
          fun m' member => scans.behind m' (mem_of_mem_remaining member)
        rw [remaining_cons going.2, replaced]
        congr 1
        split
        · -- An empty match: the byte behind it is kept, if there is one.
          rename_i empty
          have next : m.resume = m.stop + 1 := by
            rw [Match.resume, if_neg (by omega), empty]
          rw [ih (by omega) (done + 1), ← next]
          split
          · exact replaced_earlier _ resume.2.2 (by omega) later
          · -- At the end of the text there is no further match.
            have none : remaining count (done + 1) (finditerFrom rx text n m.resume) = [] := by
              apply List.eq_nil_iff_forall_not_mem.mpr
              intro m' member
              have after := later m' member
              have bound := scans.inside m' (mem_of_mem_remaining member)
              omega
            rw [none, replaced, replaced, slice_empty (by omega), slice_empty (by omega)]
            rfl
        · rename_i nonempty
          have next : m.resume = m.stop := by
            rw [Match.resume, if_pos (by omega)]
          rw [ih (by omega) (done + 1), next]

end Rewriting

section Splitting

variable {rx : Compiled} {text : Text}

/-- Pieces with matches between them. -/
def interleaved : List Text → List Text → Text
  | piece :: pieces, mid :: mids => piece ++ mid ++ interleaved pieces mids
  | pieces, _ => pieces.flatten

/-- The text of a match. -/
def matchText (text : Text) (m : Match) : Text := slice text m.start m.stop

/-- Whether a match is empty and stands before the end of a text. -/
def Match.isEmptyBefore (m : Match) (length : Nat) : Bool :=
  m.start = m.stop && m.stop < length

/-- The pieces between matches, each piece from where the search goes on. -/
def pieces (text : Text) : Nat → List Match → List Text
  | pos, [] => [slice text pos text.length]
  | pos, m :: ms => slice text pos m.start :: pieces text m.resume ms

theorem splitFrom_eq (plain : rx.groups = 0) (maxsplit : Int) {n pos : Nat}
    (enough : text.length + 1 ≤ pos + n) (done : Nat) :
    splitFrom rx text maxsplit n pos done =
      (pieces text pos (remaining maxsplit done (finditerFrom rx text n pos))).map some := by
  -- Induction on the number of rounds that are left.
  induction n generalizing pos done with
  | zero =>
    have none : remaining maxsplit done (finditerFrom rx text 0 pos) = [] := by
      simp [remaining, finditerFrom]
    rw [none]
    rfl
  | succ n ih =>
    unfold splitFrom
    split
    · rename_i ended
      have none : remaining maxsplit done (finditerFrom rx text (n + 1) pos) = [] := by
        rcases ended with past | full
        · rw [finditerFrom, if_neg (by omega)]
          simp [remaining]
        · exact remaining_full full _
      rw [none]
      rfl
    · rename_i going
      rw [not_or, Nat.not_lt] at going
      rw [finditerFrom, if_pos going.1]
      split
      · simp [remaining, pieces]
      · rename_i m found
        have first := nextMatch_some going.1 found
        have inside := first.inside
        have resume := first.resume
        have next : (if m.start < m.stop then m.stop else m.stop + 1) = m.resume := by
          unfold Match.resume
          split <;> omega
        have ungrouped : groups rx text m = [] := by simp [groups, plain]
        rw [remaining_cons going.2, pieces, ungrouped, next, ih (by omega) (done + 1)]
        rfl

theorem length_pieces (pos : Nat) (ms : List Match) :
    (pieces text pos ms).length = ms.length + 1 := by
  induction ms generalizing pos with
  | nil => rfl
  | cons m ms ih => simp [pieces, ih]

theorem length_interleaved_pieces {pos : Nat} {ms : List Match} (follows : Follows rx text pos ms) :
    (interleaved (pieces text pos ms) (ms.map (matchText text))).length +
      ms.countP (·.isEmptyBefore text.length) = text.length - pos := by
  induction follows with
  | nil => simp [pieces, interleaved, length_slice]
  | @cons pos m ms first _ ih =>
    have behind := first.behind
    have inside := first.inside
    have piece : (slice text pos m.start).length = m.start - pos := length_slice (by omega)
    have mid : (matchText text m).length = m.stop - m.start := length_slice inside.2
    simp only [pieces, List.map_cons, interleaved, List.length_append, piece, mid,
      List.countP_cons, Match.isEmptyBefore]
    have resume : m.resume = if m.start < m.stop then m.stop else m.start + 1 := rfl
    split at resume
    · simp only [Bool.and_eq_true, decide_eq_true_eq]
      rw [if_neg (by omega)]
      simp only [Match.isEmptyBefore] at ih
      omega
    · simp only [Bool.and_eq_true, decide_eq_true_eq]
      simp only [Match.isEmptyBefore] at ih
      split <;> omega

theorem interleaved_pieces {pos : Nat} {ms : List Match} (follows : Follows rx text pos ms)
    (solid : ∀ m ∈ ms, m.isEmptyBefore text.length = false) :
    interleaved (pieces text pos ms) (ms.map (matchText text)) = slice text pos text.length := by
  induction follows with
  | nil => simp [pieces, interleaved]
  | @cons pos m ms first _ ih =>
    have behind := first.behind
    have inside := first.inside
    have here := solid m List.mem_cons_self
    simp only [Match.isEmptyBefore, Bool.and_eq_false_iff, decide_eq_false_iff_not,
      Nat.not_lt] at here
    simp only [pieces, List.map_cons, interleaved]
    rw [ih fun m' member => solid m' (List.mem_cons_of_mem m member), matchText,
      slice_append behind inside.1]
    have resume : m.resume = if m.start < m.stop then m.stop else m.start + 1 := rfl
    split at resume
    · rw [resume, slice_append (by omega) inside.2]
    · -- An empty match at the end of the text.
      have stop : m.stop = text.length := by omega
      rw [resume, slice_empty (b := text.length) (by omega), List.append_nil, stop]

end Splitting

section Agreement

variable {rx : Compiled} {text : Text}

/-- What is found, replaced and split at are the same matches, and no text is lost. -/
structure Agrees (rx : Compiled) (text repl : Text) (count maxsplit : Int) : Prop where
  scans : Scans rx text 0 (finditer rx text)
  ordered : (finditer rx text).Pairwise fun m m' => m.start < m'.start ∧ m.stop ≤ m'.start
  substitutes : sub rx text repl count =
    replaced text (expandRepl rx text repl) 0 (limited count (finditer rx text))
  splits : rx.groups = 0 → ∃ ps : List Text, split rx text maxsplit = ps.map some ∧
    ps.length = (limited maxsplit (finditer rx text)).length + 1 ∧
    interleaved ps ((limited maxsplit (finditer rx text)).map (matchText text)) = text

theorem remaining_zero (count : Int) (ms : List Match) : remaining count 0 ms = limited count ms :=
  rfl

theorem limited_follows (count : Int) :
    Follows rx text 0 (limited count (finditer rx text)) := by
  have scans : Scans rx text 0 (finditer rx text) := finditerFrom_scans (by omega)
  unfold limited
  split
  · exact scans.take _
  · simpa using scans.take (finditer rx text).length

theorem interleaved_pieces_iff {ms : List Match} (follows : Follows rx text 0 ms) :
    interleaved (pieces text 0 ms) (ms.map (matchText text)) = text ↔
      ∀ m ∈ ms, m.isEmptyBefore text.length = false := by
  constructor
  · intro whole
    have length := length_interleaved_pieces follows
    rw [whole] at length
    have none : ms.countP (·.isEmptyBefore text.length) = 0 := by omega
    simpa using List.countP_eq_zero.mp none
  · intro solid
    rw [interleaved_pieces follows solid, slice, List.drop_zero, Nat.sub_zero, List.take_length]

/-- The text of three letters. -/
def threeLetters : Text := [97, 98, 99]

/-- The expression without anything in it. -/
def emptyPattern : Compiled := ⟨.empty, ⟨false, false, false⟩, 0, []⟩

end Agreement

section Whole

variable (rx : Compiled) (text : Text)

/-- The best of the matches of a whole text. -/
def bestFull : Option Match :=
  ((results rx text 0).find? fun st => st.pos = text.length).map (makeMatch 0)

theorem fullmatch_eq : fullmatch rx text =
    ((results rx text 0).head?.filter fun st => st.pos = text.length).map (makeMatch 0) := by
  unfold fullmatch runAt
  cases (results rx text 0).head? with
  | none => rfl
  | some st =>
    by_cases whole : st.pos = text.length <;> simp [Option.filter, whole, makeMatch]

/-- The expression of a letter, or the same letter and another one. -/
def shortFirst : Compiled :=
  ⟨.alt [.lit 97, .seq [.lit 97, .lit 98]], ⟨false, false, false⟩, 0, []⟩

end Whole

end Nytrix.Regex
