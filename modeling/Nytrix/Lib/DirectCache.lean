import Mathlib.Logic.Function.Basic

/-! Direct-mapped caches of keys: one key at a slot, zero where there is none. -/

namespace Nytrix.Lib

/-- The key at each slot of a cache. -/
abbrev DirectCache := Nat → Nat

namespace DirectCache

/-- The cache that has no key. -/
def empty : DirectCache := fun _ => 0

/-- Whether the slot of a key has that key. -/
def hit (slot : Nat → Nat) (c : DirectCache) (p : Nat) : Bool := c (slot p) == p

/-- Puts a key at its slot, in place of the one there. -/
def store (slot : Nat → Nat) (c : DirectCache) (p : Nat) : DirectCache :=
  fun i => if i = slot p then p else c i

/-- Clears the slot of a key, whichever key is there. -/
def clear (slot : Nat → Nat) (c : DirectCache) (p : Nat) : DirectCache :=
  fun i => if i = slot p then 0 else c i

/-- Clears the slot of a key when it has that key. -/
def forget (slot : Nat → Nat) (c : DirectCache) (p : Nat) : DirectCache :=
  if hit slot c p then clear slot c p else c

/-- A cache keeps a key that it has at the slot of the key. -/
def Keeps (slot : Nat → Nat) (c : DirectCache) (p : Nat) : Prop := p ≠ 0 ∧ c (slot p) = p

variable {slot : Nat → Nat} {c : DirectCache} {p q : Nat} {P Q : Nat → Prop}

theorem not_keeps_empty : ¬ Keeps slot empty p := by
  intro kept
  exact kept.1 kept.2.symm

theorem hit_iff (nonzero : p ≠ 0) : hit slot c p = true ↔ Keeps slot c p := by
  simp [hit, Keeps, nonzero]

theorem keeps_store :
    Keeps slot (store slot c q) p ↔ (p = q ∧ p ≠ 0) ∨ (slot p ≠ slot q ∧ Keeps slot c p) := by
  by_cases same : slot p = slot q
  · simp only [Keeps, store, same]
    constructor
    · rintro ⟨nonzero, kept⟩
      exact Or.inl ⟨by simpa using kept.symm, nonzero⟩
    · rintro (⟨rfl, nonzero⟩ | ⟨apart, -⟩)
      · exact ⟨nonzero, by simp⟩
      · exact absurd rfl apart
  · have other : p ≠ q := fun equal => same (by rw [equal])
    simp [Keeps, store, same, other]

theorem keeps_clear : Keeps slot (clear slot c q) p ↔ slot p ≠ slot q ∧ Keeps slot c p := by
  by_cases same : slot p = slot q
  · simp only [Keeps, clear, same, if_pos]
    constructor
    · rintro ⟨nonzero, kept⟩
      exact absurd kept.symm nonzero
    · rintro ⟨apart, -⟩
      exact absurd rfl apart
  · simp [Keeps, clear, same]

theorem Keeps.of_forget (kept : Keeps slot (forget slot c q) p) : p ≠ q ∧ Keeps slot c p := by
  unfold forget at kept
  split at kept
  · obtain ⟨apart, kept⟩ := keeps_clear.mp kept
    exact ⟨fun equal => apart (by rw [equal]), kept⟩
  · rename_i missed
    refine ⟨?_, kept⟩
    rintro rfl
    exact missed ((hit_iff kept.1).mpr kept)

end DirectCache

end Nytrix.Lib
