import Mathlib.Data.List.Sort

/-! Intervals in the order of their starts, and the binary search for the one that holds a place. -/

namespace Nytrix.Lib

universe u

section Bisection

variable {α : Type u}

/--
The number of the first cells that pass a test, found by halving the range.

It has no result when a cell is read that is not there.
-/
def upperBound (p : α → Bool) (cells : List α) (lo hi : Nat) : Option Nat :=
  if lo < hi then
    let mid := lo + (hi - lo) / 2
    cells[mid]?.bind fun c =>
      if p c then upperBound p cells (mid + 1) hi else upperBound p cells lo mid
  else some lo
termination_by hi - lo

variable {p : α → Bool} {cells : List α}

theorem exists_upperBound (falling : cells.Pairwise fun a b => p b = true → p a = true)
    {lo hi : Nat} (order : lo ≤ hi) (inside : hi ≤ cells.length)
    (below : ∀ i c, i < lo → cells[i]? = some c → p c = true)
    (above : ∀ i c, hi ≤ i → cells[i]? = some c → p c = false) :
    ∃ k, upperBound p cells lo hi = some k ∧ k ≤ cells.length ∧
      (∀ i c, i < k → cells[i]? = some c → p c = true) ∧
      ∀ i c, k ≤ i → cells[i]? = some c → p c = false := by
  induction distance : hi - lo using Nat.strongRecOn generalizing lo hi with
  | ind distance ih =>
    subst distance
    rw [upperBound]
    by_cases proper : lo < hi
    · have middle : lo + (hi - lo) / 2 < cells.length := by omega
      have here := List.getElem?_eq_getElem middle
      simp only [if_pos proper, here, Option.bind_some]
      cases test : p cells[lo + (hi - lo) / 2] with
      | true =>
        -- Everything up to the middle passes, since the middle does.
        refine ih _ (by omega) (by omega) inside (fun i c early found => ?_) above rfl
        obtain ⟨within, rfl⟩ := List.getElem?_eq_some_iff.mp found
        rcases Nat.lt_succ_iff_lt_or_eq.mp early with before | same
        · exact List.pairwise_iff_getElem.mp falling _ _ within middle before test
        · simp only [same, test]
      | false =>
        refine ih _ (by omega) (by omega) (by omega) below (fun i c late found => ?_) rfl
        obtain ⟨within, rfl⟩ := List.getElem?_eq_some_iff.mp found
        rcases Nat.eq_or_lt_of_le late with same | behind
        · simp only [← same, test]
        · refine Bool.eq_false_iff.mpr fun passes => ?_
          have back := List.pairwise_iff_getElem.mp falling _ _ middle within behind passes
          rw [test] at back
          cases back
    · have same : lo = hi := by omega
      rw [if_neg proper]
      exact ⟨lo, rfl, by omega, below, same ▸ above⟩

end Bisection

section Lookup

variable {ν : Type u}

/-- A half-open interval with what lies there. -/
structure HalfOpen (ν : Type u) where
  start : Nat
  stop : Nat
  node : ν

/-- The interval holds a place. -/
def HalfOpen.Has (a : HalfOpen ν) (x : Nat) : Prop := a.start ≤ x ∧ x < a.stop

instance (a : HalfOpen ν) (x : Nat) : Decidable (a.Has x) := inferInstanceAs (Decidable (_ ∧ _))

/-- Two intervals have no place in common. -/
def HalfOpen.Apart (a b : HalfOpen ν) : Prop := a.stop ≤ b.start ∨ b.stop ≤ a.start

theorem HalfOpen.Apart.symm {a b : HalfOpen ν} (apart : a.Apart b) : b.Apart a := Or.symm apart

theorem HalfOpen.Apart.not_has {a b : HalfOpen ν} (apart : a.Apart b) {x : Nat} (has : a.Has x) :
    ¬b.Has x := by
  unfold HalfOpen.Apart at apart
  unfold HalfOpen.Has at has ⊢
  omega

/-- Intervals that are no points and lie one behind the other. -/
structure Ordered (cells : List (HalfOpen ν)) : Prop where
  proper : ∀ a ∈ cells, a.start < a.stop
  behind : cells.Pairwise fun a b => a.stop ≤ b.start

variable {cells rows : List (HalfOpen ν)}

theorem Ordered.exists_upperBound (ordered : Ordered cells) (x : Nat) :
    ∃ k, upperBound (fun a => decide (a.start ≤ x)) cells 0 cells.length = some k ∧
      k ≤ cells.length ∧ (∀ i c, i < k → cells[i]? = some c → c.start ≤ x) ∧
      ∀ i c, k ≤ i → cells[i]? = some c → x < c.start := by
  have falling : cells.Pairwise fun a b =>
      decide (b.start ≤ x) = true → decide (a.start ≤ x) = true := by
    refine List.Pairwise.imp_of_mem (fun memberA memberB behind later => ?_) ordered.behind
    rw [decide_eq_true_eq] at later ⊢
    have proper := ordered.proper _ memberA
    omega
  obtain ⟨k, done, room, below, above⟩ := Lib.exists_upperBound falling (Nat.zero_le _)
    (Nat.le_refl _) (fun i c early => absurd early (Nat.not_lt_zero i))
    (fun i c late found => by
      have within := (List.getElem?_eq_some_iff.mp found).1
      omega)
  refine ⟨k, done, room, fun i c early found => ?_, fun i c late found => ?_⟩
  · exact of_decide_eq_true (below i c early found)
  · exact Nat.lt_of_not_le (of_decide_eq_false (above i c late found))

theorem Ordered.not_has_of_first (above : ∀ i c, 0 ≤ i → cells[i]? = some c → x < c.start) :
    ∀ a ∈ cells, ¬a.Has x := by
  intro a member has
  obtain ⟨i, found⟩ := List.mem_iff_getElem?.mp member
  exact Nat.not_lt.mpr has.1 (above i a (Nat.zero_le _) found)

theorem Ordered.not_has_of_last (ordered : Ordered cells) {x k : Nat} {last : HalfOpen ν}
    (found : cells[k]? = some last) (past : last.stop ≤ x)
    (above : ∀ i c, k + 1 ≤ i → cells[i]? = some c → x < c.start) : ∀ a ∈ cells, ¬a.Has x := by
  intro a member has
  obtain ⟨i, here⟩ := List.mem_iff_getElem?.mp member
  rcases Nat.lt_trichotomy i k with before | same | after
  · obtain ⟨withinI, rfl⟩ := List.getElem?_eq_some_iff.mp here
    obtain ⟨withinK, rfl⟩ := List.getElem?_eq_some_iff.mp found
    have behind := List.pairwise_iff_getElem.mp ordered.behind _ _ withinI withinK before
    have proper := ordered.proper _ (List.getElem_mem withinK)
    have inside := has.2
    omega
  · obtain rfl : a = last := Option.some.inj (by rw [← here, same, found])
    exact Nat.not_lt.mpr past has.2
  · exact Nat.not_lt.mpr has.1 (above i a after here)

theorem ordered_of_sorted (proper : ∀ a ∈ cells, a.start < a.stop)
    (sorted : cells.Pairwise fun a b => a.start ≤ b.start) (apart : cells.Pairwise HalfOpen.Apart) :
    Ordered cells := by
  refine ⟨proper, List.Pairwise.imp_of_mem (fun memberA memberB both => ?_)
    (List.pairwise_and_iff.mpr ⟨sorted, apart⟩)⟩
  have first := proper _ memberA
  have second := proper _ memberB
  obtain ⟨order, apart⟩ := both
  unfold HalfOpen.Apart at apart
  omega

theorem find?_eq_some_of_has (apart : cells.Pairwise HalfOpen.Apart) {a : HalfOpen ν} {x : Nat}
    (member : a ∈ cells) (has : a.Has x) : cells.find? (fun b => decide (b.Has x)) = some a := by
  induction cells with
  | nil => cases member
  | cons b rest ih =>
    obtain ⟨first, later⟩ := List.pairwise_cons.mp apart
    rcases List.mem_cons.mp member with rfl | member
    · rw [List.find?_cons, decide_eq_true has]
    · have missed : ¬b.Has x := (first a member).symm.not_has has
      rw [List.find?_cons, decide_eq_false missed]
      exact ih later member

theorem find?_eq_none_of_not_has {x : Nat} (missed : ∀ a ∈ cells, ¬a.Has x) :
    cells.find? (fun b => decide (b.Has x)) = none :=
  List.find?_eq_none.mpr fun a member has => missed a member (of_decide_eq_true has)

end Lookup

end Nytrix.Lib
