import Mathlib.Data.List.Basic
import Mathlib.Order.Basic

/-! Positions: where elements that pass a filter end up, and where a scan of places stops. -/

namespace Nytrix.Lib

section Filtering

universe u

variable {α : Type u}

/-- How many elements before position `i` pass the filter. -/
def rank (p : α → Bool) (xs : List α) (i : Nat) : Nat := ((xs.take i).filter p).length

@[simp] theorem rank_zero (p : α → Bool) (xs : List α) : rank p xs 0 = 0 := by simp [rank]

theorem rank_succ_of_pos {p : α → Bool} {xs : List α} {i : Nat} {x : α} (found : xs[i]? = some x)
    (passes : p x = true) : rank p xs (i + 1) = rank p xs i + 1 := by
  simp [rank, List.take_add_one, found, passes]

theorem rank_succ_of_neg {p : α → Bool} {xs : List α} {i : Nat} {x : α} (found : xs[i]? = some x)
    (fails : p x = false) : rank p xs (i + 1) = rank p xs i := by
  simp [rank, List.take_add_one, found, fails]

theorem rank_mono (p : α → Bool) (xs : List α) {i j : Nat} (later : i ≤ j) :
    rank p xs i ≤ rank p xs j := by
  have split : xs.take i = (xs.take j).take i := by rw [List.take_take, Nat.min_eq_left later]
  rw [rank, rank, split]
  exact (List.Sublist.filter p (List.take_sublist i _)).length_le

theorem rank_lt {p : α → Bool} {xs : List α} {i j : Nat} {x : α} (found : xs[i]? = some x)
    (passes : p x = true) (later : i < j) : rank p xs i < rank p xs j := by
  have := rank_mono p xs (i := i + 1) (j := j) later
  rw [rank_succ_of_pos found passes] at this
  omega

theorem rank_of_length_le {p : α → Bool} {xs : List α} {i : Nat} (outside : xs.length ≤ i) :
    rank p xs i = (xs.filter p).length := by
  rw [rank, List.take_of_length_le outside]

theorem filter_getElem?_rank {p : α → Bool} {xs : List α} {i : Nat} {x : α}
    (found : xs[i]? = some x) (passes : p x = true) : (xs.filter p)[rank p xs i]? = some x := by
  obtain ⟨bound, same⟩ := List.getElem?_eq_some_iff.mp found
  have split : xs.filter p = (xs.take i).filter p ++ (xs.drop i).filter p := by
    rw [← List.filter_append, List.take_append_drop]
  rw [split, rank, List.getElem?_append_right (Nat.le_refl _), Nat.sub_self,
    List.drop_eq_getElem_cons bound, same, List.filter_cons_of_pos passes]
  rfl

theorem exists_rank_of_filter {p : α → Bool} {xs : List α} {k : Nat} {x : α}
    (found : (xs.filter p)[k]? = some x) : ∃ i, xs[i]? = some x ∧ rank p xs i = k := by
  -- The induction goes along the list; a kept head shifts both positions by one.
  induction xs generalizing k with
  | nil => simp at found
  | cons head rest ih =>
    by_cases passes : p head = true
    · rw [List.filter_cons_of_pos passes] at found
      rcases k with _ | k
      · exact ⟨0, found, by simp⟩
      · obtain ⟨i, at_, same⟩ := ih found
        exact ⟨i + 1, at_, by simp [rank, passes, ← same]⟩
    · rw [List.filter_cons_of_neg passes] at found
      obtain ⟨i, at_, same⟩ := ih found
      exact ⟨i + 1, at_, by simp [rank, passes, ← same]⟩

end Filtering

section Scanning

/-- The first place from a place on that has a property. -/
structure First (p : Nat → Prop) (start k : Nat) : Prop where
  from_start : start ≤ k
  here : p k
  before : ∀ i, start ≤ i → i < k → ¬ p i

/-- Goes on place by place until a test holds, for at most so many places. -/
def scanTo (stop : Nat → Bool) : Nat → Nat → Nat
  | 0, pos => pos
  | n + 1, pos => if stop pos then pos else scanTo stop n (pos + 1)

variable {p : Nat → Prop} {stop : Nat → Bool} {n start k l : Nat}

theorem First.unique (first : First p start k) (second : First p start l) : k = l := by
  -- A place before the other would have the property too early.
  rcases Nat.lt_trichotomy k l with below | same | above
  · exact absurd first.here (second.before k first.from_start below)
  · exact same
  · exact absurd second.here (first.before l second.from_start above)

theorem le_scanTo : start ≤ scanTo stop n start := by
  induction n generalizing start with
  | zero => exact Nat.le_refl _
  | succ n ih =>
    rw [scanTo]
    split
    · exact Nat.le_refl _
    · exact Nat.le_trans (Nat.le_succ _) ih

theorem scanTo_le : scanTo stop n start ≤ start + n := by
  induction n generalizing start with
  | zero => exact Nat.le_refl _
  | succ n ih =>
    rw [scanTo]
    split
    · omega
    · have rest : scanTo stop n (start + 1) ≤ start + 1 + n := ih
      omega

theorem scanTo_passes {i : Nat} (after : start ≤ i) (before : i < scanTo stop n start) :
    stop i = false := by
  induction n generalizing start with
  | zero => exact absurd before (by rw [scanTo]; omega)
  | succ n ih =>
    rw [scanTo] at before
    split at before
    · omega
    · rename_i fails
      rcases Nat.eq_or_lt_of_le after with rfl | later
      · exact Bool.eq_false_iff.mpr fails
      · exact ih later before

theorem first_scanTo (early : scanTo stop n start < start + n) :
    First (stop · = true) start (scanTo stop n start) := by
  refine ⟨le_scanTo, ?_, fun i after before => by simp [scanTo_passes after before]⟩
  induction n generalizing start with
  | zero => exact absurd early (by rw [scanTo]; omega)
  | succ n ih =>
    rw [scanTo] at early ⊢
    split
    · assumption
    · rename_i fails
      rw [if_neg fails] at early
      exact ih (by omega)

end Scanning

end Nytrix.Lib
