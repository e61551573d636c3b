import Mathlib.Logic.Function.Iterate
import Mathlib.Logic.Relation
import Mathlib.Order.Defs.PartialOrder
import Mathlib.Tactic.Common

/-! Rounds over places in order, each of which gets a new value from the values so far. -/

namespace Nytrix.Lib.Rounds

section Running

variable {ι α : Type} [DecidableEq ι] [DecidableEq α]

/-- One round: the values after it, and whether one of them changed. -/
def round (transfer : (ι → α) → ι → α) : List ι → (ι → α) → (ι → α) × Bool
  | [], s => (s, false)
  | i :: order, s =>
    let value := transfer s i
    let (s', changed) := round transfer order (Function.update s i value)
    (s', decide (s i ≠ value) || changed)

/-- Rounds until nothing changes, so many at most. -/
def run (transfer : (ι → α) → ι → α) (order : List ι) : Nat → (ι → α) → ι → α
  | 0, s => s
  | rounds + 1, s =>
    let (s', changed) := round transfer order s
    if changed then run transfer order rounds s' else s'

theorem round_unchanged {transfer : (ι → α) → ι → α} (order : List ι) (s : ι → α)
    (same : (round transfer order s).2 = false) : (round transfer order s).1 = s := by
  induction order generalizing s with
  | nil => rfl
  | cons i order ih =>
    simp only [round, Bool.or_eq_false_iff, decide_eq_false_iff_not, not_not] at same ⊢
    -- the new value is the old one
    have update : Function.update s i (transfer s i) = s := by
      rw [← same.1]
      exact Function.update_eq_self i s
    rw [update] at same ⊢
    exact ih s same.2

theorem run_eq_iterate (transfer : (ι → α) → ι → α) (order : List ι) (rounds : Nat) (s : ι → α) :
    run transfer order rounds s = (fun s => (round transfer order s).1)^[rounds] s := by
  induction rounds generalizing s with
  | zero => rfl
  | succ rounds ih =>
    have step : run transfer order (rounds + 1) s =
        if (round transfer order s).2 then run transfer order rounds (round transfer order s).1
        else (round transfer order s).1 := rfl
    rw [step, Function.iterate_succ_apply]
    cases changed : (round transfer order s).2 with
    | true =>
      rw [if_pos rfl]
      exact ih _
    | false =>
      -- the values stay as they are from here on
      have same := round_unchanged order s changed
      rw [if_neg (by simp)]
      simp only [same]
      exact (Function.iterate_fixed same rounds).symm

end Running

section Marks

variable {ι α : Type} [DecidableEq ι] [Preorder ι] [DecidableEq α]

/--
A place gets a mark of its own, or one that is fed to it, in so many rounds.

What is fed by a place that comes earlier is there in the same round.
-/
inductive Near (own : ι → Prop) (feeds : ι → ι → Prop) : Nat → ι → Prop
  | own {rounds : Nat} {i : ι} : own i → Near own feeds (rounds + 1) i
  | earlier {rounds : Nat} {i j : ι} :
    feeds i j → j < i → Near own feeds (rounds + 1) j → Near own feeds (rounds + 1) i
  | later {rounds : Nat} {i j : ι} :
    feeds i j → Near own feeds rounds j → Near own feeds (rounds + 1) i

theorem Near.succ {own : ι → Prop} {feeds : ι → ι → Prop} {rounds : Nat} {i : ι}
    (near : Near own feeds rounds i) : Near own feeds (rounds + 1) i := by
  induction near with
  | own mine => exact .own mine
  | earlier fed before _ ih => exact .earlier fed before ih
  | later fed _ ih => exact .later fed ih

variable {own : ι → Prop} {feeds : ι → ι → Prop} {order : List ι} {transfer : (ι → α) → ι → α}
  (mark : α → Prop)

theorem mark_round (sorted : order.Pairwise (· < ·)) (closed : ∀ i j, feeds i j → j ∈ order)
    (lifts : ∀ s, ∀ i ∈ order, (own i ∨ ∃ j, feeds i j ∧ mark (s j)) → mark (transfer s i))
    {rounds : Nat} {done rest : List ι} (split : order = done ++ rest) {s : ι → α}
    (first : ∀ i ∈ done, Near own feeds (rounds + 1) i → mark (s i))
    (before : ∀ i ∈ order, Near own feeds rounds i → mark (s i)) :
    ∀ i ∈ order, Near own feeds (rounds + 1) i → mark ((round transfer rest s).1 i) := by
  induction rest generalizing done s with
  | nil =>
    rw [List.append_nil] at split
    rw [split]
    exact first
  | cons i rest ih =>
    -- the new value is marked by what has come before
    have here : i ∈ order := by simp [split]
    have fresh : Near own feeds (rounds + 1) i → mark (transfer s i) := by
      intro near
      cases near with
      | own mine => exact lifts s i here (Or.inl mine)
      | later fed near => exact lifts s i here (Or.inr ⟨_, fed, before _ (closed _ _ fed) near⟩)
      | @earlier _ _ j fed less near =>
        refine lifts s i here (Or.inr ⟨j, fed, first j ?_ near⟩)
        have among := closed _ _ fed
        rw [split] at sorted among
        rcases List.mem_append.1 among with here | there
        · exact here
        · -- what comes later is greater
          have later := (List.pairwise_append.1 sorted).2.1
          rcases List.mem_cons.1 there with same | there
          · exact absurd less (by rw [same]; exact lt_irrefl i)
          · exact absurd less (lt_asymm ((List.pairwise_cons.1 later).1 j there))
    have split' : order = (done ++ [i]) ++ rest := by simpa using split
    refine ih split' ?_ ?_
    · intro j among near
      by_cases same : j = i
      · rw [same, Function.update_self]
        exact fresh (same ▸ near)
      · rw [Function.update_of_ne same]
        rcases List.mem_append.1 among with here | there
        · exact first j here near
        · exact absurd (List.mem_singleton.1 there) same
    · intro j among near
      by_cases same : j = i
      · rw [same, Function.update_self]
        exact fresh (same ▸ near.succ)
      · rw [Function.update_of_ne same]
        exact before j among near

theorem mark_run (sorted : order.Pairwise (· < ·)) (closed : ∀ i j, feeds i j → j ∈ order)
    (lifts : ∀ s, ∀ i ∈ order, (own i ∨ ∃ j, feeds i j ∧ mark (s j)) → mark (transfer s i))
    {rounds : Nat} {i : ι} (among : i ∈ order) (near : Near own feeds rounds i) (s : ι → α) :
    mark (run transfer order rounds s i) := by
  rw [run_eq_iterate]
  induction rounds generalizing i with
  | zero => cases near
  | succ rounds ih =>
    rw [Function.iterate_succ_apply']
    refine mark_round mark sorted closed lifts (List.nil_append order).symm ?_ ?_ i among near
    · intro j none
      cases none
    · exact fun j among near => ih among near

theorem near_round (sorted : order.Pairwise (· < ·))
    (origin : ∀ s, ∀ i ∈ order, mark (transfer s i) → own i ∨ ∃ j, feeds i j ∧ mark (s j))
    {rounds : Nat} {done rest : List ι} (split : order = done ++ rest) {s : ι → α}
    (first : ∀ i ∈ done, mark (s i) → Near own feeds (rounds + 1) i)
    (before : ∀ i, i ∉ done → mark (s i) → Near own feeds rounds i) :
    ∀ i, mark ((round transfer rest s).1 i) → Near own feeds (rounds + 1) i := by
  induction rest generalizing done s with
  | nil =>
    intro i marked
    by_cases among : i ∈ done
    · exact first i among marked
    · exact (before i among marked).succ
  | cons i rest ih =>
    have here : i ∈ order := by simp [split]
    have fresh : mark (transfer s i) → Near own feeds (rounds + 1) i := by
      intro marked
      rcases origin s i here marked with mine | ⟨j, fed, there⟩
      · exact .own mine
      · by_cases among : j ∈ done
        · -- what has been visited in this round is smaller
          rw [split] at sorted
          have less := (List.pairwise_append.1 sorted).2.2 j among i (by simp)
          exact .earlier fed less (first j among there)
        · exact .later fed (before j among there)
    have split' : order = (done ++ [i]) ++ rest := by simpa using split
    refine ih split' ?_ ?_
    · intro j among marked
      by_cases same : j = i
      · rw [same, Function.update_self] at marked
        rw [same]
        exact fresh marked
      · rw [Function.update_of_ne same] at marked
        rcases List.mem_append.1 among with here | there
        · exact first j here marked
        · exact absurd (List.mem_singleton.1 there) same
    · intro j missing marked
      have same : j ≠ i := fun same => missing (by simp [same])
      rw [Function.update_of_ne same] at marked
      exact before j (fun among => missing (by simp [among])) marked

theorem near_run (sorted : order.Pairwise (· < ·))
    (origin : ∀ s, ∀ i ∈ order, mark (transfer s i) → own i ∨ ∃ j, feeds i j ∧ mark (s j))
    {rounds : Nat} {s : ι → α} (bare : ∀ i, ¬ mark (s i)) {i : ι}
    (marked : mark (run transfer order rounds s i)) : Near own feeds rounds i := by
  rw [run_eq_iterate] at marked
  induction rounds generalizing i with
  | zero => exact absurd marked (bare i)
  | succ rounds ih =>
    rw [Function.iterate_succ_apply'] at marked
    refine near_round mark sorted origin (List.nil_append order).symm ?_ ?_ i marked
    · intro j none
      cases none
    · exact fun j _ there => ih there

theorem Near.traces {rounds : Nat} {i : ι} (near : Near own feeds rounds i) :
    ∃ j, Relation.ReflTransGen feeds i j ∧ own j := by
  induction near with
  | own mine => exact ⟨_, .refl, mine⟩
  | earlier fed _ _ ih =>
    obtain ⟨j, path, mine⟩ := ih
    exact ⟨j, .head fed path, mine⟩
  | later fed _ ih =>
    obtain ⟨j, path, mine⟩ := ih
    exact ⟨j, .head fed path, mine⟩

end Marks

end Nytrix.Lib.Rounds
