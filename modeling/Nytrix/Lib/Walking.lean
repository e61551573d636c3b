import Mathlib.Logic.Function.Iterate
import Nytrix.Lib.Probing

/-! Walks over the slots of a table in an arbitrary order, and the entries that lie on them. -/

namespace Nytrix.Lib

variable {σ E K V : Type}

section Walk

variable (stops : Slot E K V → Bool) (slots : List (Slot E K V)) (next : σ → σ) (pos : σ → Nat)

/-- The first slot on a walk of a number of steps that stops it. -/
def walk : Nat → σ → Option Nat
  | 0, _ => none
  | count + 1, c =>
    match slots[pos c]? with
    | some slot => if stops slot then some (pos c) else walk count (next c)
    | none => none

/-- The slot at a position lets a walk go on. -/
def GoesOn (i : Nat) : Prop := ∃ slot, slots[i]? = some slot ∧ stops slot = false

variable {stops slots next pos}

theorem walk_eq_some {count : Nat} {c : σ} {i : Nat}
    (ended : walk stops slots next pos count c = some i) :
    ∃ m < count, pos (next^[m] c) = i ∧ (∃ slot, slots[i]? = some slot ∧ stops slot = true) ∧
      ∀ l < m, GoesOn stops slots (pos (next^[l] c)) := by
  induction count generalizing c with
  | zero => cases ended
  | succ count ih =>
    unfold walk at ended
    split at ended
    · next slot found =>
      split at ended
      · next stopping =>
        cases ended
        exact ⟨0, by omega, rfl, ⟨slot, found, stopping⟩, by omega⟩
      · next going =>
        obtain ⟨m, less, at_i, stopped, before⟩ := ih ended
        refine ⟨m + 1, by omega, at_i, stopped, ?_⟩
        intro l early
        cases l with
        | zero => exact ⟨slot, found, by simpa using going⟩
        | succ l => exact before l (by omega)
    · cases ended

theorem exists_walk {count : Nat} {c : σ} {m : Nat} (less : m < count)
    (inside : ∀ l ≤ m, pos (next^[l] c) < slots.length)
    (stopped : ∃ slot, slots[pos (next^[m] c)]? = some slot ∧ stops slot = true) :
    ∃ i, walk stops slots next pos count c = some i ∧ ∃ n ≤ m, pos (next^[n] c) = i := by
  induction m generalizing count c with
  | zero =>
    obtain ⟨count, rfl⟩ : ∃ k, count = k + 1 := ⟨count - 1, by omega⟩
    obtain ⟨slot, found, stopping⟩ := stopped
    refine ⟨pos c, ?_, 0, Nat.le_refl 0, rfl⟩
    rw [walk, show slots[pos c]? = some slot from found]
    simp [stopping]
  | succ m ih =>
    obtain ⟨count, rfl⟩ : ∃ k, count = k + 1 := ⟨count - 1, by omega⟩
    have here := List.getElem?_eq_getElem (inside 0 (by omega))
    rw [walk, show slots[pos c]? = some _ from here]
    dsimp only
    split
    · exact ⟨pos c, rfl, 0, by omega, rfl⟩
    · have shorter : m < count := by omega
      obtain ⟨i, ended, n, early, at_i⟩ :=
        ih (c := next c) shorter (fun l low => inside (l + 1) (by omega)) stopped
      exact ⟨i, ended, n + 1, by omega, at_i⟩

end Walk

/-- The position lies on the walk of a number of steps, behind slots that are not free. -/
def OnWalk (next : σ → σ) (pos : σ → Nat) (slots : List (Slot E K V)) (c : σ) (i : Nat) : Prop :=
  ∃ m < slots.length, pos (next^[m] c) = i ∧
    ∀ l < m, ∀ mark, slots[pos (next^[l] c)]? ≠ some (.free mark)

section OnWalk

variable {next : σ → σ} {pos : σ → Nat} {slots : List (Slot E K V)} {c : σ} {i j : Nat}

theorem OnWalk.set {slot : Slot E K V} (there : OnWalk next pos slots c j)
    (taken : ∀ mark, slot ≠ .free mark) : OnWalk next pos (slots.set i slot) c j := by
  obtain ⟨m, less, at_j, before⟩ := there
  refine ⟨m, by rwa [List.length_set], at_j, ?_⟩
  intro l early mark found
  rcases getElem?_set_cases found with ⟨-, eq⟩ | ⟨-, old⟩
  · exact taken mark eq.symm
  · exact before l early mark old

/-- A table whose keys are all different, each on its own walk. -/
structure Walkable (next : σ → σ) (pos : σ → Nat) (start : K → σ) (slots : List (Slot E K V)) :
    Prop where
  unique : ∀ {i j : Nat} {k : K} {v w : V}, slots[i]? = some (.live k v) →
    slots[j]? = some (.live k w) → i = j
  there : ∀ {i : Nat} {k : K} {v : V}, slots[i]? = some (.live k v) →
    OnWalk next pos slots (start k) i

variable {start : K → σ} {key : K} {value : V}

theorem Walkable.insert (good : Walkable next pos start slots)
    (absent : ∀ (j : Nat) (v : V), slots[j]? ≠ some (.live key v))
    (there : OnWalk next pos slots (start key) i) :
    Walkable next pos start (slots.set i (.live key value)) where
  unique := by
    intro a b k v w at_a at_b
    rcases getElem?_set_cases at_a with ⟨rfl, new⟩ | ⟨-, oldA⟩
    · cases new
      rcases getElem?_set_cases at_b with ⟨rfl, -⟩ | ⟨-, oldB⟩
      · rfl
      · exact absurd oldB (absent b w)
    · rcases getElem?_set_cases at_b with ⟨rfl, new⟩ | ⟨-, oldB⟩
      · cases new
        exact absurd oldA (absent a v)
      · exact good.unique oldA oldB
  there := by
    intro a k v at_a
    rcases getElem?_set_cases at_a with ⟨rfl, new⟩ | ⟨-, old⟩
    · cases new
      exact there.set (by simp)
    · exact (good.there old).set (by simp)

theorem Walkable.remove (good : Walkable next pos start slots) :
    Walkable next pos start (slots.set i .removed) where
  unique := by
    intro a b k v w at_a at_b
    rcases getElem?_set_cases at_a with ⟨-, new⟩ | ⟨-, oldA⟩
    · cases new
    · rcases getElem?_set_cases at_b with ⟨-, new⟩ | ⟨-, oldB⟩
      · cases new
      · exact good.unique oldA oldB
  there := by
    intro a k v at_a
    rcases getElem?_set_cases at_a with ⟨-, new⟩ | ⟨-, old⟩
    · cases new
    · exact (good.there old).set (by simp)

theorem Walkable.of_free (free : ∀ slot ∈ slots, slot.isLive = false) :
    Walkable next pos start slots where
  unique := by
    intro a b k v w at_a _
    cases free _ (List.mem_of_getElem? at_a)
  there := by
    intro a k v at_a
    cases free _ (List.mem_of_getElem? at_a)

end OnWalk

end Nytrix.Lib
