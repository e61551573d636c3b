import Mathlib.Data.List.Basic

/-! Places found from left to right, each past the one before, and the pieces between them. -/

namespace Nytrix.Lib

universe u

section Scanning

variable {here : Nat → Prop} {width start : Nat}

/-- The leftmost places from a start, each a width past the one before. -/
inductive Leftmost (here : Nat → Prop) (width : Nat) : Nat → List Nat → Prop
  | done {start : Nat} (clear : ∀ i, start ≤ i → ¬here i) : Leftmost here width start []
  | next {start place : Nat} {later : List Nat} (after : start ≤ place) (found : here place)
      (clear : ∀ i, start ≤ i → i < place → ¬here i)
      (tail : Leftmost here width (place + width) later) :
      Leftmost here width start (place :: later)

theorem Leftmost.unique {ps qs : List Nat} (first : Leftmost here width start ps)
    (second : Leftmost here width start qs) : ps = qs := by
  induction first generalizing qs with
  | done clear =>
    cases second with
    | done => rfl
    | next after found => exact absurd found (clear _ after)
  | next after found clear tail ih =>
    cases second with
    | done none => exact absurd found (none _ after)
    | next after' found' clear' tail' =>
      -- Neither place is before the other.
      obtain rfl := Nat.le_antisymm (Nat.le_of_not_lt fun early => clear _ after' early found')
        (Nat.le_of_not_lt fun early => clear' _ after early found)
      rw [ih tail']

theorem Leftmost.hit {ps : List Nat} (leftmost : Leftmost here width start ps)
    (found : here start) :
    ∃ later, ps = start :: later ∧ Leftmost here width (start + width) later := by
  cases leftmost with
  | done clear => exact absurd found (clear _ (Nat.le_refl _))
  | next after found' clear tail =>
    obtain rfl := Nat.le_antisymm after (Nat.le_of_not_lt fun early =>
      clear _ (Nat.le_refl _) early found)
    exact ⟨_, rfl, tail⟩

theorem Leftmost.skip {ps : List Nat} (leftmost : Leftmost here width start ps)
    (missing : ¬here start) : Leftmost here width (start + 1) ps := by
  cases leftmost with
  | done clear => exact .done fun i after => clear i (by omega)
  | next after found clear tail =>
    refine .next ?_ found (fun i after => clear i (by omega)) tail
    exact Nat.succ_le_of_lt (Nat.lt_of_le_of_ne after fun same => missing (same ▸ found))

theorem Leftmost.eq_nil {ps : List Nat} (leftmost : Leftmost here width start ps)
    (clear : ∀ i, start ≤ i → ¬here i) : ps = [] :=
  leftmost.unique (.done clear)

theorem exists_leftmost [DecidablePred here] (positive : 0 < width) {limit : Nat}
    (bounded : ∀ i, here i → i < limit) (start : Nat) : ∃ ps, Leftmost here width start ps := by
  -- The induction is on the distance to the bound.
  induction distance : limit - start using Nat.strongRecOn generalizing start with
  | ind distance ih =>
    subst distance
    by_cases past : limit ≤ start
    · exact ⟨[], .done fun i after found => absurd (bounded i found) (by omega)⟩
    · by_cases found : here start
      · obtain ⟨later, tail⟩ := ih _ (by omega) (start + width) rfl
        exact ⟨_, .next (Nat.le_refl _) found (fun i low high => absurd low (by omega)) tail⟩
      · obtain ⟨ps, tail⟩ := ih _ (by omega) (start + 1) rfl
        cases tail with
        | done clear =>
          refine ⟨[], .done fun i after => ?_⟩
          rcases Nat.eq_or_lt_of_le after with rfl | after
          · exact found
          · exact clear i after
        | next after found' clear tail =>
          refine ⟨_, .next (by omega) found' (fun i low high => ?_) tail⟩
          rcases Nat.eq_or_lt_of_le low with rfl | low
          · exact found
          · exact clear i low high

variable {σ : Type u}

/--
A loop over positions that goes on by a width at a place and by one elsewhere.

It stops where a whole width is left no more, and gives the position it has reached.
-/
def sweep (here : Nat → Bool) (width limit : Nat) (positive : 0 < width)
    (hit skip : Nat → σ → Option σ) (i : Nat) (st : σ) : Option (Nat × σ) :=
  if i + width ≤ limit then
    if here i then (hit i st).bind (sweep here width limit positive hit skip (i + width))
    else (skip i st).bind (sweep here width limit positive hit skip (i + 1))
  else some (i, st)
termination_by limit - i

theorem sweep_rule {here : Nat → Bool} {limit : Nat} (positive : 0 < width)
    (hit skip : Nat → σ → Option σ) (inv : List Nat → Nat → σ → Prop)
    (bounded : ∀ i, here i = true → i + width ≤ limit)
    (onHit : ∀ i later st, i + width ≤ limit → here i = true → inv (i :: later) i st →
      ∃ st', hit i st = some st' ∧ inv later (i + width) st')
    (onSkip : ∀ i ps st, i + width ≤ limit → Leftmost (here · = true) width i ps → here i = false →
      inv ps i st → ∃ st', skip i st = some st' ∧ inv ps (i + 1) st')
    {i : Nat} {ps : List Nat} (leftmost : Leftmost (here · = true) width i ps) (st : σ)
    (holds : inv ps i st) :
    ∃ j st', sweep here width limit positive hit skip i st = some (j, st') ∧ inv [] j st' ∧
      limit < j + width := by
  induction distance : limit - i using Nat.strongRecOn generalizing i ps st with
  | ind distance ih =>
    subst distance
    rw [sweep]
    by_cases inside : i + width ≤ limit
    · rw [if_pos inside]
      cases found : here i with
      | true =>
        obtain ⟨later, rfl, tail⟩ := leftmost.hit found
        obtain ⟨st', done, holds'⟩ := onHit i later st inside found holds
        rw [if_pos rfl, done, Option.bind_some]
        exact ih _ (by omega) tail st' holds' rfl
      | false =>
        obtain ⟨st', done, holds'⟩ := onSkip i ps st inside leftmost found holds
        rw [if_neg (by decide), done, Option.bind_some]
        exact ih _ (by omega) (leftmost.skip (by rw [found]; decide)) st' holds' rfl
    · have clear : ∀ j, i ≤ j → ¬here j = true := fun j after found =>
        absurd (bounded j found) (by omega)
      rw [leftmost.eq_nil clear] at holds
      rw [if_neg inside]
      exact ⟨i, st, rfl, holds, Nat.lt_of_not_le inside⟩

end Scanning

section Pieces

variable {α : Type u} {s sep : List α}

/-- The pieces of a list between places of one width. -/
def pieces (s : List α) (width : Nat) : Nat → List Nat → List (List α)
  | start, [] => [s.drop start]
  | start, place :: later =>
    (s.drop start).take (place - start) :: pieces s width (place + width) later

theorem length_pieces (s : List α) (width start : Nat) (places : List Nat) :
    (pieces s width start places).length = places.length + 1 := by
  induction places generalizing start with
  | nil => rfl
  | cons place later ih => rw [pieces, List.length_cons, ih, List.length_cons]

theorem pieces_ne_nil (s : List α) (width start : Nat) (places : List Nat) :
    pieces s width start places ≠ [] :=
  List.ne_nil_of_length_eq_add_one (length_pieces s width start places)

theorem intercalate_pieces_hit (s new : List α) (width start : Nat) (later : List Nat) :
    List.intercalate new (pieces s width start (start :: later)) =
      new ++ List.intercalate new (pieces s width (start + width) later) := by
  rw [pieces, List.intercalate_cons_of_ne_nil (pieces_ne_nil _ _ _ _), Nat.sub_self, List.take_zero,
    List.nil_append]

theorem intercalate_pieces_skip {here : Nat → Prop} {width start : Nat} {places : List Nat}
    (new : List α) (leftmost : Leftmost here width start places) (missing : ¬here start) {x : α}
    (found : s[start]? = some x) :
    List.intercalate new (pieces s width start places) =
      x :: List.intercalate new (pieces s width (start + 1) places) := by
  obtain ⟨inside, rfl⟩ := List.getElem?_eq_some_iff.mp found
  have split := List.drop_eq_getElem_cons inside
  cases leftmost with
  | done => rw [pieces, pieces, List.intercalate_singleton, List.intercalate_singleton, split]
  | @next _ place later after found' =>
    have before : start < place :=
      Nat.lt_of_le_of_ne after fun same => missing (same ▸ found')
    rw [pieces, pieces, List.intercalate_cons_of_ne_nil (pieces_ne_nil _ _ _ _),
      List.intercalate_cons_of_ne_nil (pieces_ne_nil _ _ _ _), split,
      show place - start = place - (start + 1) + 1 by omega, List.take_succ_cons, List.cons_append,
      List.cons_append]

theorem intercalate_pieces {start : Nat} {places : List Nat}
    (leftmost : Leftmost (fun i => sep <+: s.drop i) sep.length start places) :
    List.intercalate sep (pieces s sep.length start places) = s.drop start := by
  induction leftmost with
  | done => rw [pieces, List.intercalate_singleton]
  | @next start place later after found clear tail ih =>
    obtain ⟨rest, same⟩ := found
    have behind : s.drop (place + sep.length) = rest := by
      rw [← List.drop_drop, ← same, List.drop_left]
    rw [pieces, List.intercalate_cons_of_ne_nil (pieces_ne_nil _ _ _ _), ih, behind,
      List.append_assoc, same]
    -- The piece in front ends where the place begins.
    conv_rhs => rw [← List.take_append_drop (place - start) (s.drop start), List.drop_drop,
      Nat.add_sub_cancel' after]

theorem not_infix_of_mem_pieces (nonempty : sep ≠ []) {start : Nat} {places : List Nat}
    (leftmost : Leftmost (fun i => sep <+: s.drop i) sep.length start places) {piece : List α}
    (member : piece ∈ pieces s sep.length start places) : ¬sep <:+: piece := by
  have positive : 0 < sep.length := List.length_pos_of_ne_nil nonempty
  rintro ⟨front, back, rfl⟩
  induction leftmost with
  | @done start clear =>
    rw [pieces, List.mem_singleton] at member
    refine clear (start + front.length) (Nat.le_add_right _ _) ⟨back, ?_⟩
    rw [← List.drop_drop, ← member, List.append_assoc, List.drop_left]
  | @next start place later after found clear tail ih =>
    rw [pieces, List.mem_cons] at member
    rcases member with same | member
    · have size := congrArg List.length same
      simp only [List.length_append, List.length_take] at size
      refine clear (start + front.length) (Nat.le_add_right _ _) (by omega) ?_
      have inside : front ++ sep ++ back <+: s.drop start := same ▸ List.take_prefix _ _
      obtain ⟨rest, whole⟩ := inside
      refine ⟨back ++ rest, ?_⟩
      rw [← List.drop_drop, ← whole, List.append_assoc, List.append_assoc, List.drop_left]
    · exact ih member

end Pieces

end Nytrix.Lib
