import Mathlib.Order.Interval.Set.UnorderedInterval

/-! Bounding a two-argument operation on a box by its values at the four corners. -/

namespace Nytrix.Lib

open Set

/-- Monotone or antitone on a set: moving the argument one way never turns around. -/
def MonotonicOn {α β : Type*} [Preorder α] [Preorder β] (g : α → β) (s : Set α) : Prop :=
  MonotoneOn g s ∨ AntitoneOn g s

theorem MonotonicOn.mem_uIcc {α β : Type*} [LinearOrder α] [LinearOrder β] {g : α → β}
    {lo hi x : α} (monotonic : MonotonicOn g (Icc lo hi)) (inside : x ∈ Icc lo hi) :
    g x ∈ uIcc (g lo) (g hi) := by
  have ends : uIcc lo hi = Icc lo hi := uIcc_of_le (inside.1.trans inside.2)
  rw [← ends] at inside monotonic
  rcases monotonic with up | down
  · exact up.mapsTo_uIcc inside
  · exact down.mapsTo_uIcc inside

section Box

variable {α β γ : Type*} [LinearOrder α] [LinearOrder β] [LinearOrder γ]

theorem corners_bound {g : α → β → γ} {a₀ a₁ x : α} {b₀ b₁ y : β} (first : x ∈ Icc a₀ a₁)
    (second : y ∈ Icc b₀ b₁) (left : ∀ b ∈ Icc b₀ b₁, MonotonicOn (fun a => g a b) (Icc a₀ a₁))
    (right : ∀ a ∈ Icc a₀ a₁, MonotonicOn (g a) (Icc b₀ b₁)) :
    min (min (g a₀ b₀) (g a₀ b₁)) (min (g a₁ b₀) (g a₁ b₁)) ≤ g x y ∧
      g x y ≤ max (max (g a₀ b₀) (g a₀ b₁)) (max (g a₁ b₀) (g a₁ b₁)) := by
  -- Move the first argument to an end, then the second.
  have ordered : a₀ ≤ a₁ := first.1.trans first.2
  have outer := (left y second).mem_uIcc first
  have low := (right a₀ ⟨le_refl _, ordered⟩).mem_uIcc second
  have high := (right a₁ ⟨ordered, le_refl _⟩).mem_uIcc second
  exact ⟨(inf_le_inf low.1 high.1).trans outer.1, outer.2.trans (sup_le_sup low.2 high.2)⟩

end Box

end Nytrix.Lib
