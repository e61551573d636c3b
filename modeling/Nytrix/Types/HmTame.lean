import Nytrix.Types.HmArena
import Mathlib.Tactic.Common

/-! How arenas grow while types are unified, and the plans that write. -/

namespace Nytrix.Types

namespace Hm

/-- Whether a node is a leaf that unification may make. -/
def FreshShape (s : Shape) : Prop := s = .any ∨ s = .name (nm "str") ∨ s = .name (nm "int")

/-- An arena has more nodes than another, all of them leaves that unification makes. -/
def Grows (hm hm' : Hm) : Prop :=
  ∃ extra, hm'.nodes = hm.nodes ++ extra ∧ ∀ s ∈ extra, FreshShape s

/-- An arena extends another: the nodes are the same, but variables may have got an instance. -/
def Extends (hm hm' : Hm) : Prop :=
  ∀ (r : Nat) (s : Shape), hm.nodes[r]? = some s →
    hm'.nodes[r]? = some s ∨ (s = .var none ∧ ∃ i, hm'.nodes[r]? = some (.var (some i)))

variable {hm hm₁ hm₂ : Hm} {r x y : Nat} {a c c' : Option Nat} {S : Nat → Prop}

theorem FreshShape.edges {s : Shape} (fresh : FreshShape s) : s.edges = [] := by
  rcases fresh with rfl | rfl | rfl <;> rfl

theorem Grows.refl : hm.Grows hm := ⟨[], by simp, by simp⟩

theorem Grows.trans (first : hm.Grows hm₁) (second : hm₁.Grows hm₂) : hm.Grows hm₂ := by
  obtain ⟨e, nodes, fresh⟩ := first
  obtain ⟨e', nodes', fresh'⟩ := second
  refine ⟨e ++ e', by rw [nodes', nodes, List.append_assoc], ?_⟩
  intro s member
  rcases List.mem_append.mp member with member | member
  · exact fresh s member
  · exact fresh' s member

theorem Grows.get (grows : hm.Grows hm₁) {s : Shape} (found : hm.nodes[r]? = some s) :
    hm₁.nodes[r]? = some s := by
  obtain ⟨e, nodes, -⟩ := grows
  rw [nodes, List.getElem?_append_left (inside_of_get found)]
  exact found

theorem Grows.extends (grows : hm.Grows hm₁) : hm.Extends hm₁ :=
  fun _ _ found => Or.inl (grows.get found)

theorem Grows.get_inv (grows : hm.Grows hm₁) {s : Shape} (found : hm₁.nodes[r]? = some s) :
    hm.nodes[r]? = some s ∨ FreshShape s := by
  obtain ⟨e, nodes, fresh⟩ := grows
  rw [nodes, List.getElem?_append] at found
  split at found
  · exact Or.inl found
  · exact Or.inr (fresh s (List.mem_of_getElem? found))

theorem Extends.length_le (extended : hm.Extends hm₁) : hm.nodes.length ≤ hm₁.nodes.length := by
  by_contra shorter
  have inside : hm₁.nodes.length < hm.nodes.length := by omega
  rcases extended hm₁.nodes.length _ (get_shape inside) with found | ⟨-, i, found⟩
  · exact absurd (inside_of_get found) (Nat.lt_irrefl _)
  · exact absurd (inside_of_get found) (Nat.lt_irrefl _)

theorem Grows.ranked (grows : hm.Grows hm₁) {rank : Nat → Nat} (ranked : hm.Ranked rank) :
    hm₁.Ranked rank := by
  intro r s found d edge
  rcases grows.get_inv found with found | fresh
  · exact ranked r s found d edge
  · rw [fresh.edges] at edge
    cases edge

theorem Grows.wf (grows : hm.Grows hm₁) (wf : hm.Wf) : hm₁.Wf := by
  constructor
  · intro r s found d edge
    rcases grows.get_inv found with found | fresh
    · exact Nat.lt_of_lt_of_le (wf.inRange r s found d edge) grows.extends.length_le
    · rw [fresh.edges] at edge
      cases edge
  · obtain ⟨rank, ranked⟩ := wf.acyclic
    exact ⟨rank, grows.ranked ranked⟩

theorem Extends.get (extended : hm.Extends hm₁) {s : Shape} (found : hm.nodes[r]? = some s)
    (bound : s ≠ .var none) : hm₁.nodes[r]? = some s := by
  rcases extended r s found with found | ⟨free, -⟩
  · exact found
  · exact absurd free bound

theorem Prunes.extend (prunes : hm.Prunes r x) (extended : hm.Extends hm₁)
    (later : hm₁.Prunes x y) : hm₁.Prunes r y := by
  induction prunes with
  | stop => exact later
  | step found _ ih => exact Prunes.step (extended.get found (by simp)) (ih later)

theorem hmMergeGenericName_left {n n' : Name} (plain : n.contains (ch '<') = false) :
    hmMergeGenericName n n' = none := by
  have other : hmGenericBaseSame n n' = false := by
    simp only [hmGenericBaseSame, plain, Bool.false_and, Bool.and_false]
  simp [hmMergeGenericName, mergeNameWith, other]

theorem hmMergeGenericName_right {n n' : Name} (plain : n'.contains (ch '<') = false) :
    hmMergeGenericName n n' = none := by
  have other : hmGenericBaseSame n n' = false := by
    simp only [hmGenericBaseSame, plain, Bool.false_and, Bool.and_false]
  simp [hmMergeGenericName, mergeNameWith, other]

theorem FreshShape.plain {n : Name} (fresh : FreshShape (.name n)) :
    n.contains (ch '<') = false := by
  rcases fresh with same | same | same
  · cases same
  · rw [Shape.name.inj same]
    decide
  · rw [Shape.name.inj same]
    decide

theorem Grows.diag {code : HmCode} {context : Option Name} {want got : Nat} :
    hm.Grows (hm.diag code context want got) := ⟨[], by simp [Hm.diag], by simp⟩

theorem Grows.alloc {s : Shape} (fresh : FreshShape s) : hm.Grows (hm.alloc s) :=
  ⟨[s], rfl, by simpa using fresh⟩

end Hm

open Hm

section Plans

variable {a : Option Nat}

theorem plan_rename {sw sg : Shape} {n : Name} (plan : sw.plan sg = .rename n) :
    ∃ k l, sw = .name k ∧ sg = .name l ∧ hmMergeGenericName k l = some n := by
  unfold Shape.plan at plan
  split at plan
  · -- No name is rewritten for a type that can be indexed.
    unfold indexablePlan at plan
    grind
  · unfold indexablePlan at plan
    grind
  · rename_i k l
    refine ⟨k, l, rfl, rfl, ?_⟩
    unfold namePlan at plan
    grind
  all_goals grind

theorem plan_fresh {sw sg : Shape} {s : Shape} (plan : sw.plan sg = .fresh a s) :
    FreshShape s := by
  unfold Shape.plan at plan
  unfold FreshShape
  split at plan
  · unfold indexablePlan at plan
    grind
  · unfold indexablePlan at plan
    grind
  · unfold namePlan at plan
    grind
  all_goals grind

end Plans

end Nytrix.Types
