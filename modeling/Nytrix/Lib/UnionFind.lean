import Mathlib.Data.Finset.Card
import Mathlib.Logic.Function.Basic
import Mathlib.Logic.Relation

/-! Classes of nodes kept as a forest of parents, with the paths shortened whenever they are walked. -/

namespace Nytrix.Lib.UnionFind

/-- The parents of nodes; a node that is its own parent is a root. -/
abbrev Parents := Nat → Nat

/-- Walks up from a node, for at most so many steps. -/
def rootFrom : Nat → Parents → Nat → Nat
  | 0, _, x => x
  | n + 1, p, x => if p x = x then x else rootFrom n p (p x)

/-- A node leads up to a root. -/
inductive Rooted (p : Parents) : Nat → Nat → Prop
  | stop {x : Nat} : p x = x → Rooted p x x
  | step {x r : Nat} : p x ≠ x → Rooted p (p x) r → Rooted p x r

/-- The parents of so many nodes are among them, and no node leads up to itself. -/
structure Forest (size : Nat) (p : Parents) : Prop where
  inside : ∀ x, x < size → p x < size
  acyclic : ∃ rank : Nat → Nat, ∀ x, p x ≠ x → rank (p x) < rank x

/-- Two nodes have one root. -/
def Same (p : Parents) (x y : Nat) : Prop := ∃ r, Rooted p x r ∧ Rooted p y r

variable {size : Nat} {p p' : Parents} {x y z r s left right : Nat}

theorem Rooted.unique (first : Rooted p x r) (second : Rooted p x s) : r = s := by
  induction first with
  | stop root =>
    cases second with
    | stop => rfl
    | step below => exact absurd root below
  | step below _ ih =>
    cases second with
    | stop root => exact absurd root below
    | step _ rest => exact ih rest

theorem Rooted.root (rooted : Rooted p x r) : p r = r := by
  induction rooted with
  | stop root => exact root
  | step _ _ ih => exact ih

theorem Rooted.inside (rooted : Rooted p x r) (forest : Forest size p) (within : x < size) :
    r < size := by
  induction rooted with
  | stop => exact within
  | step _ _ ih => exact ih (forest.inside _ within)

theorem Rooted.rank_le {rank : Nat → Nat} (falls : ∀ x, p x ≠ x → rank (p x) < rank x)
    (rooted : Rooted p x r) : rank r ≤ rank x := by
  induction rooted with
  | stop => exact Nat.le_refl _
  | step below _ ih => exact Nat.le_trans ih (Nat.le_of_lt (falls _ below))

theorem rooted_rootFrom {rank : Nat → Nat} (forest : Forest size p)
    (falls : ∀ x, p x ≠ x → rank (p x) < rank x) {n : Nat} (within : x < size)
    (enough : ((Finset.range size).filter (rank · < rank x)).card < n) :
    Rooted p x (rootFrom n p x) := by
  induction n generalizing x with
  | zero => omega
  | succ n ih =>
    rw [rootFrom]
    split
    · rename_i root
      exact Rooted.stop root
    · rename_i below
      refine Rooted.step below (ih (forest.inside x within) ?_)
      -- The parent is one of the nodes of a lower rank, and has one less of them.
      have fewer : ((Finset.range size).filter (rank · < rank (p x))).card <
          ((Finset.range size).filter (rank · < rank x)).card := by
        apply Finset.card_lt_card
        refine Finset.ssubset_iff_of_subset ?_ |>.mpr ⟨p x, ?_, by simp⟩
        · intro y member
          simp only [Finset.mem_filter] at member ⊢
          exact ⟨member.1, member.2.trans (falls x below)⟩
        · simp only [Finset.mem_filter, Finset.mem_range]
          exact ⟨forest.inside x within, falls x below⟩
      omega

theorem Forest.rooted (forest : Forest size p) (within : x < size) :
    Rooted p x (rootFrom size p x) := by
  obtain ⟨rank, falls⟩ := forest.acyclic
  refine rooted_rootFrom forest falls within ?_
  have proper : (Finset.range size).filter (rank · < rank x) ⊂ Finset.range size := by
    refine Finset.ssubset_iff_of_subset (Finset.filter_subset _ _) |>.mpr ⟨x, ?_, by simp⟩
    simpa using within
  simpa using Finset.card_lt_card proper

theorem Forest.shortcut (forest : Forest size p) (rooted : Rooted p x r) (within : x < size)
    (below : p x ≠ x) :
    Forest size (Function.update p x r) ∧ ∀ y s, Rooted p y s → Rooted (Function.update p x r) y s := by
  obtain ⟨rank, falls⟩ := forest.acyclic
  have lower : rank r < rank x := by
    cases rooted with
    | stop root => exact absurd root below
    | step _ rest => exact Nat.lt_of_le_of_lt (rest.rank_le falls) (falls x below)
  have other : r ≠ x := by
    rintro rfl
    omega
  refine ⟨⟨?_, rank, ?_⟩, ?_⟩
  · intro y inside
    rw [Function.update_apply]
    split
    · exact rooted.inside forest within
    · exact forest.inside y inside
  · intro y moved
    rw [Function.update_apply] at moved ⊢
    split
    · rename_i same
      rw [same]
      exact lower
    · rename_i different
      rw [if_neg different] at moved
      exact falls y moved
  · have still : Rooted (Function.update p x r) r r := by
      apply Rooted.stop
      rw [Function.update_of_ne other]
      exact rooted.root
    intro y s leads
    induction leads with
    | @stop y root =>
      apply Rooted.stop
      rw [Function.update_of_ne]
      · exact root
      · rintro rfl
        exact below root
    | @step y s up rest ih =>
      by_cases same : y = x
      · subst same
        have one := (Rooted.step up rest).unique rooted
        subst one
        refine Rooted.step ?_ ?_
        · rw [Function.update_self]
          exact other
        · rw [Function.update_self]
          exact still
      · refine Rooted.step ?_ ?_
        · rw [Function.update_of_ne same]
          exact up
        · rw [Function.update_of_ne same]
          exact ih

theorem Forest.link {l : Nat} (forest : Forest size p) (lRoot : p l = l) (rRoot : p r = r)
    (ne : l ≠ r) (within : l < size) :
    Forest size (Function.update p r l) ∧
      ∀ y s, Rooted p y s → Rooted (Function.update p r l) y (if s = r then l else s) := by
  classical
  obtain ⟨rank, falls⟩ := forest.acyclic
  refine ⟨⟨?_, fun y => if Rooted p y r then rank y + rank l + 1 else rank y, ?_⟩, ?_⟩
  · intro y inside
    rw [Function.update_apply]
    split
    · exact within
    · exact forest.inside y inside
  · -- The whole tree of the root is raised above the other root.
    intro y moved
    by_cases same : y = r
    · subst same
      have apart : ¬ Rooted p l y := fun wrong => ne ((Rooted.stop lRoot).unique wrong)
      rw [Function.update_self]
      simp only [if_neg apart, if_pos (Rooted.stop rRoot)]
      omega
    · rw [Function.update_of_ne same] at moved ⊢
      have lower := falls y moved
      have tree : Rooted p (p y) r ↔ Rooted p y r := by
        constructor
        · intro leads
          exact Rooted.step moved leads
        · intro leads
          cases leads with
          | stop root => exact absurd root moved
          | step _ rest => exact rest
      simp only [tree]
      split <;> omega
  · have still : Rooted (Function.update p r l) l l := by
      apply Rooted.stop
      rw [Function.update_of_ne ne]
      exact lRoot
    intro y s leads
    induction leads with
    | @stop y root =>
      by_cases same : y = r
      · subst same
        rw [if_pos rfl]
        refine Rooted.step ?_ ?_
        · rw [Function.update_self]
          exact ne
        · rw [Function.update_self]
          exact still
      · rw [if_neg same]
        apply Rooted.stop
        rw [Function.update_of_ne same]
        exact root
    | @step y s up rest ih =>
      have other : y ≠ r := by
        rintro rfl
        exact up rRoot
      refine Rooted.step ?_ ?_
      · rw [Function.update_of_ne other]
        exact up
      · rw [Function.update_of_ne other]
        exact ih

end Nytrix.Lib.UnionFind
