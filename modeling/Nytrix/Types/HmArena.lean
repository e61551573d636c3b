import Nytrix.Types.Hm
import Mathlib.Algebra.Order.BigOperators.Group.List
import Mathlib.Algebra.Order.Group.Nat
import Mathlib.Data.Finset.Card
import Mathlib.Logic.Relation

/-! Arenas of type nodes without cycles, and the states that inference reaches. -/

namespace Nytrix.Types

/-- The pointers that a node has, the instance of a variable among them. -/
def Shape.edges : Shape → List Nat
  | .var i => i.toList
  | s => s.parts

theorem Shape.edges_of_parts {s : Shape} {c : Nat} (part : c ∈ s.parts) : c ∈ s.edges := by
  cases s with
  | var i => cases part
  | _ => exact part

namespace Hm

/-- A rank that goes down along every pointer. -/
def Ranked (hm : Hm) (rank : Nat → Nat) : Prop :=
  ∀ (r : Nat) (s : Shape), hm.nodes[r]? = some s → ∀ c ∈ s.edges, rank c < rank r

/-- Every pointer of an arena is to one of its nodes, and none leads back to where it is. -/
structure Wf (hm : Hm) : Prop where
  inRange : ∀ (r : Nat) (s : Shape), hm.nodes[r]? = some s → ∀ c ∈ s.edges, c < hm.nodes.length
  acyclic : ∃ rank, hm.Ranked rank

/-- A type may be null, or is a node of the arena. -/
def Has (hm : Hm) (r : Option Nat) : Prop := ∀ x, r = some x → x < hm.nodes.length

/-- One pointer from a node to another. -/
def Edge (hm : Hm) (r c : Nat) : Prop := ∃ s, hm.nodes[r]? = some s ∧ c ∈ s.edges

/-- A node leads to another along pointers. -/
def Reaches (hm : Hm) : Nat → Nat → Prop := Relation.ReflTransGen hm.Edge

/-- A type stands for a node: its instances end there. -/
inductive Prunes (hm : Hm) : Nat → Nat → Prop
  | stop {r : Nat} : (∀ i, hm.nodes[r]? ≠ some (.var (some i))) → Prunes hm r r
  | step {r i x : Nat} : hm.nodes[r]? = some (.var (some i)) → Prunes hm i x → Prunes hm r x

variable {hm : Hm} {r x y w g : Nat}

theorem get_shape (inside : r < hm.nodes.length) : hm.nodes[r]? = some (hm.shape r) := by
  simp [shape, inside]

theorem shape_eq {s : Shape} (found : hm.nodes[r]? = some s) : hm.shape r = s := by
  simp [shape, List.getD, found]

theorem inside_of_get {s : Shape} (found : hm.nodes[r]? = some s) : r < hm.nodes.length :=
  (List.getElem?_eq_some_iff.mp found).1

theorem Wf.rank (wf : hm.Wf) :
    ∃ rank, hm.Ranked rank ∧ ∀ r, r < hm.nodes.length → rank r < hm.nodes.length := by
  obtain ⟨rank, ranked⟩ := wf.acyclic
  refine ⟨fun r => ((Finset.range hm.nodes.length).filter (rank · < rank r)).card, ?_, ?_⟩
  · intro r s found c edge
    apply Finset.card_lt_card
    have lower := ranked r s found c edge
    refine Finset.ssubset_iff_of_subset ?_ |>.mpr ⟨c, ?_, ?_⟩
    · intro y inside
      simp only [Finset.mem_filter] at inside ⊢
      exact ⟨inside.1, inside.2.trans lower⟩
    · simp [wf.inRange r s found c edge, lower]
    · simp
  · intro r inside
    have proper : (Finset.range hm.nodes.length).filter (rank · < rank r) ⊂
        Finset.range hm.nodes.length := by
      refine Finset.ssubset_iff_of_subset (Finset.filter_subset _ _) |>.mpr ⟨r, ?_, ?_⟩
      · simpa using inside
      · simp
    simpa using Finset.card_lt_card proper

theorem Prunes.unique (first : hm.Prunes r x) (second : hm.Prunes r y) : x = y := by
  induction first with
  | stop ended =>
    cases second with
    | stop => rfl
    | step found => exact absurd found (ended _)
  | step found _ ih =>
    cases second with
    | stop ended => exact absurd found (ended _)
    | step again rest =>
      have same := found.symm.trans again
      simp only [Option.some.injEq, Shape.var.injEq] at same
      exact ih (same ▸ rest)

theorem prunes_pruneFrom {rank : Nat → Nat} (ranked : hm.Ranked rank) {n : Nat}
    (enough : rank r < n) : hm.Prunes r (pruneFrom n hm.nodes r) := by
  induction n generalizing r with
  | zero => omega
  | succ n ih =>
    rw [pruneFrom]
    split
    · rename_i i found
      have lower := ranked r _ found i (by simp [Shape.edges])
      exact Prunes.step found (ih (by omega))
    · rename_i ended
      exact Prunes.stop fun i found => ended i found

theorem Wf.prunes (wf : hm.Wf) (r : Nat) : hm.Prunes r (hm.prune r) := by
  obtain ⟨rank, ranked, small⟩ := wf.rank
  by_cases inside : r < hm.nodes.length
  · exact prunes_pruneFrom ranked (small r inside)
  · have missing : hm.nodes[r]? = none := by simpa using inside
    have same : hm.prune r = r := by
      unfold prune
      cases hm.nodes.length with
      | zero => rfl
      | succ n => simp [pruneFrom, missing]
    rw [same]
    exact Prunes.stop (by simp [missing])

theorem Wf.prune_eq (wf : hm.Wf) (prunes : hm.Prunes r x) : hm.prune r = x :=
  (wf.prunes r).unique prunes

theorem Prunes.ended (prunes : hm.Prunes r x) (i : Nat) : hm.nodes[x]? ≠ some (.var (some i)) := by
  induction prunes with
  | stop ended => exact ended i
  | step _ _ ih => exact ih

theorem Prunes.inside (wf : hm.Wf) (prunes : hm.Prunes r x) (inside : r < hm.nodes.length) :
    x < hm.nodes.length := by
  induction prunes with
  | stop => exact inside
  | step found _ ih => exact ih (wf.inRange _ _ found _ (by simp [Shape.edges]))

theorem Prunes.self (prunes : hm.Prunes r x) : hm.Prunes x x := Prunes.stop prunes.ended

theorem Prunes.rank_le {rank : Nat → Nat} (ranked : hm.Ranked rank) (prunes : hm.Prunes r x) :
    rank x ≤ rank r := by
  induction prunes with
  | stop => exact Nat.le_refl _
  | step found _ ih => exact Nat.le_of_lt (Nat.lt_of_le_of_lt ih
      (ranked _ _ found _ (by simp [Shape.edges])))

theorem Prunes.reaches_iff (prunes : hm.Prunes r x) (free : hm.Prunes y y) :
    hm.Reaches r y ↔ hm.Reaches x y := by
  induction prunes with
  | stop => exact Iff.rfl
  | step found rest ih =>
    rw [← ih]
    constructor
    · intro reached
      rcases Relation.ReflTransGen.cases_head reached with rfl | ⟨c, ⟨s, got, edge⟩, reached⟩
      · exact absurd found (free.ended _)
      · have same := found.symm.trans got
        simp only [Option.some.injEq] at same
        subst same
        simp only [Shape.edges, Option.toList_some, List.mem_singleton] at edge
        exact edge ▸ reached
    · exact Relation.ReflTransGen.head ⟨_, found, by simp [Shape.edges]⟩

theorem Prunes.edges_eq (prunes : hm.Prunes r x) : (hm.shape x).edges = (hm.shape x).parts := by
  cases found : hm.nodes[x]? with
  | none =>
    have missing : hm.shape x = .any := by simp [shape, List.getD, found]
    rw [missing]
    rfl
  | some s =>
    rw [shape_eq found]
    cases s with
    | var i =>
      cases i with
      | none => rfl
      | some i => exact absurd found (prunes.ended i)
    | _ => rfl

theorem occursFrom_iff (wf : hm.Wf) {rank : Nat → Nat} (ranked : hm.Ranked rank) {n : Nat}
    (free : hm.Prunes y y) (enough : rank r < n) :
    occursFrom n hm y r = true ↔ hm.Reaches r y := by
  induction n generalizing r with
  | zero => omega
  | succ n ih =>
    have prunes := wf.prunes r
    rw [prunes.reaches_iff free, occursFrom]
    split
    · rename_i same
      rw [same]
      exact iff_of_true rfl Relation.ReflTransGen.refl
    · rename_i other
      rw [List.any_eq_true]
      have lower := prunes.rank_le ranked
      constructor
      · rintro ⟨c, part, found⟩
        have edge : hm.Edge (hm.prune r) c := by
          have inside : hm.prune r < hm.nodes.length := by
            by_contra outside
            have missing : hm.shape (hm.prune r) = .any := by simp [shape, outside]
            rw [missing] at part
            cases part
          exact ⟨_, get_shape inside, prunes.edges_eq ▸ part⟩
        obtain ⟨s, got, member⟩ := edge
        have below := ranked _ _ got _ member
        exact Relation.ReflTransGen.head ⟨s, got, member⟩ ((ih (by omega)).mp found)
      · intro reached
        rcases Relation.ReflTransGen.cases_head reached with same | ⟨c, ⟨s, got, edge⟩, reached⟩
        · exact absurd same other
        · have below := ranked _ _ got _ edge
          rw [← shape_eq got, prunes.edges_eq] at edge
          exact ⟨c, edge, (ih (by omega)).mpr reached⟩

theorem Wf.occurs_iff (wf : hm.Wf) (free : hm.Prunes y y) (inside : r < hm.nodes.length) :
    hm.occurs y r = true ↔ hm.Reaches r y := by
  obtain ⟨rank, ranked, small⟩ := wf.rank
  exact occursFrom_iff wf ranked free (small r inside)

theorem setNode_get {s : Shape} :
    (hm.setNode w s).nodes[r]? =
      if w = r then (if r < hm.nodes.length then some s else none) else hm.nodes[r]? := by
  simp only [setNode, List.getElem?_set]
  split
  · rename_i same
    subst same
    split <;> simp_all
  · rfl

theorem Wf.bind (wf : hm.Wf) (inside : g < hm.nodes.length) (apart : ¬ hm.Reaches g w) :
    (hm.setNode w (.var (some g))).Wf := by
  classical
  obtain ⟨rank, ranked⟩ := wf.acyclic
  have edges : ∀ (r : Nat) (s : Shape), (hm.setNode w (.var (some g))).nodes[r]? = some s →
      (r = w ∧ s = .var (some g)) ∨ hm.nodes[r]? = some s := by
    intro r s found
    rw [setNode_get] at found
    split at found
    · rename_i same
      split at found
      · exact Or.inl ⟨same.symm, (Option.some.inj found).symm⟩
      · cases found
    · exact Or.inr found
  constructor
  · intro r s found c edge
    have length : (hm.setNode w (.var (some g))).nodes.length = hm.nodes.length := by
      simp [setNode]
    rw [length]
    rcases edges r s found with ⟨-, rfl⟩ | found
    · simp only [Shape.edges, Option.toList_some, List.mem_singleton] at edge
      exact edge ▸ inside
    · exact wf.inRange r s found c edge
  · -- Whatever leads to the variable is lifted above its instance.
    refine ⟨fun r => rank r + if hm.Reaches r w then rank g + 1 else 0, ?_⟩
    intro r s found c edge
    rcases edges r s found with ⟨rfl, rfl⟩ | found
    · simp only [Shape.edges, Option.toList_some, List.mem_singleton] at edge
      subst edge
      have self : hm.Reaches r r := Relation.ReflTransGen.refl
      simp only [apart, self, if_false, if_true]
      omega
    · have lower := ranked r s found c edge
      by_cases reached : hm.Reaches c w
      · have also : hm.Reaches r w := Relation.ReflTransGen.head ⟨s, found, edge⟩ reached
        simp only [reached, also, if_true]
        omega
      · simp only [reached, if_false]
        omega

theorem Wf.setNode (wf : hm.Wf) {s : Shape} (leaf : s.edges = []) : (hm.setNode w s).Wf := by
  have edges : ∀ (r : Nat) (s' : Shape), (hm.setNode w s).nodes[r]? = some s' → ∀ c ∈ s'.edges,
      hm.nodes[r]? = some s' := by
    intro r s' found c edge
    rw [setNode_get] at found
    split at found
    · split at found
      · rw [← Option.some.inj found, leaf] at edge
        cases edge
      · cases found
    · exact found
  constructor
  · intro r s' found c edge
    have length : (hm.setNode w s).nodes.length = hm.nodes.length := by simp [Hm.setNode]
    rw [length]
    exact wf.inRange r s' (edges r s' found c edge) c edge
  · obtain ⟨rank, ranked⟩ := wf.acyclic
    exact ⟨rank, fun r s' found c edge => ranked r s' (edges r s' found c edge) c edge⟩

theorem Wf.alloc (wf : hm.Wf) {s : Shape} (inside : ∀ c ∈ s.edges, c < hm.nodes.length) :
    (hm.alloc s).Wf := by
  have edges : ∀ (r : Nat) (s' : Shape), (hm.alloc s).nodes[r]? = some s' →
      hm.nodes[r]? = some s' ∨ (r = hm.nodes.length ∧ s' = s) := by
    intro r s' found
    simp only [Hm.alloc, List.getElem?_append] at found
    split at found
    · exact Or.inl found
    · rename_i outside
      obtain ⟨index, rfl⟩ := List.getElem?_eq_some_iff.mp found
      simp only [List.length_singleton] at index
      exact Or.inr ⟨by omega, by simp⟩
  have length : (hm.alloc s).nodes.length = hm.nodes.length + 1 := by simp [Hm.alloc]
  constructor
  · intro r s' found c edge
    rw [length]
    rcases edges r s' found with found | ⟨-, rfl⟩
    · have := wf.inRange r s' found c edge
      omega
    · have := inside c edge
      omega
  · obtain ⟨rank, ranked⟩ := wf.acyclic
    refine ⟨fun r => if r = hm.nodes.length then (s.edges.map rank).sum + 1 else rank r, ?_⟩
    intro r s' found c edge
    rcases edges r s' found with found | ⟨rfl, rfl⟩
    · have lower := ranked r s' found c edge
      have first := wf.inRange r s' found c edge
      have second := inside_of_get found
      simp only [show c ≠ hm.nodes.length by omega, show r ≠ hm.nodes.length by omega, if_false]
      exact lower
    · have first := inside c edge
      simp only [show c ≠ hm.nodes.length by omega, if_false, if_true]
      have part := List.single_le_sum (by simp) _ (List.mem_map_of_mem (f := rank) edge)
      omega

theorem Wf.diag (wf : hm.Wf) {code : HmCode} {context : Option Name} {want got : Nat} :
    (hm.diag code context want got).Wf := ⟨wf.inRange, wf.acyclic⟩

end Hm

/-- Unification that keeps an arena free of cycles, and its nodes where they are. -/
def KeepsWf (unify : Unifier) : Prop :=
  ∀ hm want got b hm', hm.Wf → hm.Has want → hm.Has got → unify hm want got = some (b, hm') →
    hm'.Wf ∧ hm.nodes.length ≤ hm'.nodes.length

variable {unify : Unifier} {hm hm' : Hm} {b : Bool}

theorem Hm.Has.mono {r : Option Nat} (has : hm.Has r)
    (grown : hm.nodes.length ≤ hm'.nodes.length) : hm'.Has r :=
  fun x same => Nat.lt_of_lt_of_le (has x same) grown

theorem unifyAll_wf (keeps : KeepsWf unify) {pairs : List (Option Nat × Option Nat)} (wf : hm.Wf)
    (has : ∀ pair ∈ pairs, hm.Has pair.1 ∧ hm.Has pair.2)
    (ran : unifyAll unify hm pairs = some (b, hm')) :
    hm'.Wf ∧ hm.nodes.length ≤ hm'.nodes.length := by
  induction pairs generalizing hm with
  | nil =>
    cases ran
    exact ⟨wf, Nat.le_refl _⟩
  | cons pair pairs ih =>
    have here := has pair (by simp)
    rw [unifyAll] at ran
    split at ran
    · rename_i hm₁ first
      obtain ⟨wf₁, grown₁⟩ := keeps hm pair.1 pair.2 true hm₁ wf here.1 here.2 first
      have rest : ∀ pair ∈ pairs, hm₁.Has pair.1 ∧ hm₁.Has pair.2 := by
        intro other member
        have both := has other (by simp [member])
        exact ⟨both.1.mono grown₁, both.2.mono grown₁⟩
      obtain ⟨wf₂, grown₂⟩ := ih wf₁ rest ran
      exact ⟨wf₂, Nat.le_trans grown₁ grown₂⟩
    · exact keeps hm pair.1 pair.2 b hm' wf here.1 here.2 ran

/-- The pointers that a plan unifies are pointers of the two nodes. -/
def Plan.Within (ok : Option Nat → Prop) : Plan → Prop
  | .all pairs => ∀ pair ∈ pairs, ok pair.1 ∧ ok pair.2
  | .fresh a s => ok a ∧ s.edges = []
  | .either a b => ok a ∧ ok b
  | _ => True

theorem element_within {ok : Option Nat → Prop} {a b : Option Nat} (first : ok a)
    (all : ∀ c ∈ b.toList, ok (some c)) :
    (match b with
      | some r => Plan.all [(a, some r)]
      | none => Plan.fresh a .any).Within ok := by
  cases b with
  | none => exact ⟨first, rfl⟩
  | some c => simpa [Plan.Within] using ⟨first, all c (by simp)⟩

theorem indexablePlan_within {ok : Option Nat → Prop} {a : Option Nat} {s : Shape} {flipped : Bool}
    (null : ok none) (first : ok a) (second : ∀ c ∈ s.parts, ok (some c)) :
    (indexablePlan a s flipped).Within ok := by
  have part : ∀ b : Option Nat, (∀ c ∈ b.toList, ok (some c)) → ok b := by
    intro b all
    cases b with
    | none => exact null
    | some c => exact all c (by simp)
  unfold indexablePlan
  cases s with
  | indexable b => simpa [Plan.Within] using ⟨first, part b second⟩
  | box kind b => cases kind <;> first | trivial | exact element_within first second
  | dict c b => exact element_within first fun d member => second d (by simp [Shape.parts, member])
  | name n =>
    simp only
    repeat' split
    all_goals trivial
  | _ => trivial

theorem plan_within {ok : Option Nat → Prop} {sw sg : Shape} (null : ok none)
    (first : ∀ c ∈ sw.parts, ok (some c)) (second : ∀ c ∈ sg.parts, ok (some c)) :
    (sw.plan sg).Within ok := by
  have part : ∀ b : Option Nat, (∀ c ∈ b.toList, ok (some c)) → ok b := by
    intro b all
    cases b with
    | none => exact null
    | some c => exact all c (by simp)
  unfold Shape.plan
  split
  · exact indexablePlan_within null (part _ first) second
  · exact indexablePlan_within null (part _ second) first
  · unfold namePlan
    repeat' split
    all_goals trivial
  · split
    · simpa [Plan.Within] using ⟨part _ first, part _ second⟩
    · trivial
  · simpa [Plan.Within] using ⟨part _ first, part _ second⟩
  · rename_i a b c d
    simp only [Shape.parts, List.mem_append] at first second
    simp only [Plan.Within, List.mem_cons, List.not_mem_nil, or_false]
    rintro pair (rfl | rfl)
    · exact ⟨part _ fun c m => first c (Or.inl m), part _ fun c m => second c (Or.inl m)⟩
    · exact ⟨part _ fun c m => first c (Or.inr m), part _ fun c m => second c (Or.inr m)⟩
  · rename_i args a args' a'
    simp only [Shape.parts, List.mem_append] at first second
    split
    · trivial
    · simp only [Plan.Within, List.mem_append, List.mem_singleton]
      rintro ⟨l, r⟩ (member | same)
      · obtain ⟨left, right⟩ := List.of_mem_zip member
        obtain ⟨c, inl, rfl⟩ := List.mem_map.mp left
        obtain ⟨d, inr, rfl⟩ := List.mem_map.mp right
        exact ⟨first c (Or.inr inl), second d (Or.inr inr)⟩
      · obtain ⟨rfl, rfl⟩ := Prod.mk.inj same
        exact ⟨part _ fun c m => first c (Or.inl m), part _ fun c m => second c (Or.inl m)⟩
  · simp only [Shape.parts, List.mem_append] at first
    exact ⟨part _ fun c m => first c (Or.inl m), part _ fun c m => first c (Or.inr m)⟩
  · trivial

theorem run_wf (keeps : KeepsWf unify) {context : Option Name} {w g : Nat} {plan : Plan}
    (wf : hm.Wf) (gHas : hm.Has (some g)) (within : plan.Within hm.Has)
    (ran : plan.run unify context hm w g = some (b, hm')) :
    hm'.Wf ∧ hm.nodes.length ≤ hm'.nodes.length := by
  cases plan with
  | accept =>
    cases ran
    exact ⟨wf, Nat.le_refl _⟩
  | rename n =>
    cases ran
    exact ⟨wf.setNode rfl, by simp [Hm.setNode]⟩
  | reject code flipped =>
    cases code <;> cases flipped <;> cases ran
    all_goals exact ⟨wf.diag, Nat.le_refl _⟩
  | all pairs => exact unifyAll_wf keeps wf within ran
  | fresh a s =>
    have wfNew : (hm.alloc s).Wf := wf.alloc (by simp [within.2])
    have longer : hm.nodes.length ≤ (hm.alloc s).nodes.length := by simp [Hm.alloc]
    have hasNew : (hm.alloc s).Has (some hm.nodes.length) := by
      intro x same
      cases same
      simp [Hm.alloc]
    obtain ⟨wf', grown⟩ := keeps _ _ _ _ _ wfNew (within.1.mono longer) hasNew ran
    exact ⟨wf', Nat.le_trans longer grown⟩
  | either a c =>
    simp only [Plan.run] at ran
    split at ran
    · rename_i hm₁ first
      obtain ⟨wf₁, grown₁⟩ := keeps _ _ _ _ _ wf within.1 gHas first
      split at ran
      · rename_i hm₂ second
        obtain ⟨wf₂, grown₂⟩ := keeps _ _ _ _ _ wf₁ (within.2.mono grown₁) (gHas.mono grown₁) second
        cases ran
        exact ⟨wf₂.diag, Nat.le_trans grown₁ grown₂⟩
      · obtain ⟨wf₂, grown₂⟩ := keeps _ _ _ _ _ wf₁ (within.2.mono grown₁) (gHas.mono grown₁) ran
        exact ⟨wf₂, Nat.le_trans grown₁ grown₂⟩
    · exact keeps _ _ _ _ _ wf within.1 gHas ran

theorem tryPart_wf {s : Shape} {attempt : Option Nat → Option (Bool × Hm)} (wf : hm.Wf)
    (keeps : ∀ a, s = .nullable a → attempt a = some (b, hm') →
      hm'.Wf ∧ hm.nodes.length ≤ hm'.nodes.length)
    (tried : tryPart s hm attempt = some (b, hm')) : hm'.Wf ∧ hm.nodes.length ≤ hm'.nodes.length := by
  unfold tryPart at tried
  split at tried
  · exact keeps _ rfl tried
  · cases tried
    exact ⟨wf, Nat.le_refl _⟩

theorem Hm.Wf.parts (wf : hm.Wf) {r c : Nat} (inside : r < hm.nodes.length)
    (part : c ∈ (hm.shape r).parts) : hm.Has (some c) := by
  intro x same
  cases same
  exact wf.inRange r _ (Hm.get_shape inside) c (Shape.edges_of_parts part)

theorem unifyNodes_wf (keeps : KeepsWf unify) {context : Option Name} {w g : Nat} (wf : hm.Wf)
    (wHas : hm.Has (some w)) (gHas : hm.Has (some g))
    (ran : unifyNodes unify context hm w g = some (b, hm')) :
    hm'.Wf ∧ hm.nodes.length ≤ hm'.nodes.length := by
  have part : ∀ {r a}, hm.Has (some r) → hm.shape r = .nullable a → hm.Has a := by
    intro r a has found x same
    subst same
    exact wf.parts (has r rfl) (by simp [found, Shape.parts]) x rfl
  unfold unifyNodes at ran
  simp only at ran
  split at ran
  · cases ran
    exact ⟨wf, Nat.le_refl _⟩
  have first : ∀ b hm₁, (tryPart (hm.shape w) hm fun a => unify hm a (some g)) = some (b, hm₁) →
      hm₁.Wf ∧ hm.nodes.length ≤ hm₁.nodes.length := by
    intro b hm₁ tried
    exact tryPart_wf wf (fun a found asked => keeps _ _ _ _ _ wf (part wHas found) gHas asked) tried
  split at ran
  · rename_i hm₁ tried
    obtain ⟨wf₁, grown₁⟩ := first _ _ tried
    have second : ∀ b hm₂, (tryPart (hm.shape g) hm₁ fun a => unify hm₁ (some w) a) =
        some (b, hm₂) → hm₂.Wf ∧ hm₁.nodes.length ≤ hm₂.nodes.length := by
      intro b hm₂ tried
      exact tryPart_wf wf₁ (fun a found asked => keeps _ _ _ _ _ wf₁ (wHas.mono grown₁)
        ((part gHas found).mono grown₁) asked) tried
    split at ran
    · rename_i hm₂ tried
      obtain ⟨wf₂, grown₂⟩ := second _ _ tried
      have grown := Nat.le_trans grown₁ grown₂
      have within : ((hm.shape w).plan (hm.shape g)).Within hm₂.Has := by
        apply plan_within
        · intro x same
          cases same
        · exact fun c member => (wf.parts (wHas w rfl) member).mono grown
        · exact fun c member => (wf.parts (gHas g rfl) member).mono grown
      obtain ⟨wf₃, grown₃⟩ := run_wf keeps wf₂ (gHas.mono grown) within ran
      exact ⟨wf₃, Nat.le_trans grown grown₃⟩
    · obtain ⟨wf₂, grown₂⟩ := second _ _ ran
      exact ⟨wf₂, Nat.le_trans grown₁ grown₂⟩
  · exact first _ _ ran

theorem unifyStep_wf (keeps : KeepsWf unify) {context : Option Name} :
    KeepsWf (unifyStep unify context) := by
  intro hm want got b hm' wf wantHas gotHas ran
  cases want with
  | none =>
    cases ran
    exact ⟨wf, Nat.le_refl _⟩
  | some want =>
    cases got with
    | none =>
      cases ran
      exact ⟨wf, Nat.le_refl _⟩
    | some got =>
      have wPrunes := wf.prunes want
      have gPrunes := wf.prunes got
      have wInside := wPrunes.inside wf (wantHas want rfl)
      have gInside := gPrunes.inside wf (gotHas got rfl)
      have wHas : hm.Has (some (hm.prune want)) := fun x same => by cases same; exact wInside
      have gHas : hm.Has (some (hm.prune got)) := fun x same => by cases same; exact gInside
      simp only [unifyStep] at ran
      split at ran
      · cases ran
        exact ⟨wf, Nat.le_refl _⟩
      split at ran
      · split at ran
        · cases ran
          exact ⟨wf.diag, Nat.le_refl _⟩
        · rename_i absent
          cases ran
          rw [wf.occurs_iff wPrunes.self gInside] at absent
          exact ⟨wf.bind gInside absent, by simp [Hm.setNode]⟩
      · exact keeps _ _ _ _ _ wf gHas wHas ran
      · exact unifyNodes_wf keeps wf wHas gHas ran

theorem hmUnify_wf (context : Option Name) (depth : Nat) : KeepsWf (hmUnify context depth) := by
  induction depth with
  | zero =>
    intro hm want got b hm' _ _ _ ran
    cases ran
  | succ depth ih => exact unifyStep_wf ih

/--
The states that inference reaches: nodes are made of nodes, variables without an instance, and
types are unified.
-/
inductive Reached : Hm → Prop
  | start : Reached ⟨[], []⟩
  | alloc {hm : Hm} {s : Shape} : Reached hm → (∀ c ∈ s.edges, c < hm.nodes.length) →
    (∀ i, s ≠ .var (some i)) → Reached (hm.alloc s)
  | report {hm : Hm} {diags : List HmDiag} : Reached hm → Reached { hm with diags := diags }
  | unify {hm hm' : Hm} {context : Option Name} {depth : Nat} {want got : Option Nat} {b : Bool} :
    Reached hm → hm.Has want → hm.Has got → hmUnify context depth hm want got = some (b, hm') →
    Reached hm'

theorem Reached.wf (reached : Reached hm) : hm.Wf := by
  induction reached with
  | start => exact ⟨by simp, ⟨fun _ => 0, by intro r s found; simp at found⟩⟩
  | alloc _ inside _ ih => exact ih.alloc inside
  | report _ ih => exact ⟨ih.inRange, ih.acyclic⟩
  | unify _ wantHas gotHas ran ih => exact (hmUnify_wf _ _ _ _ _ _ _ ih wantHas gotHas ran).1

theorem Reached.of_nodes {nodes : List Shape} (made : ∀ (r : Nat) (s : Shape), nodes[r]? = some s →
    (∀ c ∈ s.edges, c < r) ∧ ∀ i, s ≠ .var (some i)) : Reached ⟨nodes, []⟩ := by
  induction nodes using List.reverseRecOn with
  | nil => exact Reached.start
  | append_singleton nodes s ih =>
    have last := made nodes.length s (by simp)
    refine Reached.alloc (ih ?_) last.1 last.2
    intro r s found
    refine made r s ?_
    rw [List.getElem?_append_left (List.getElem?_eq_some_iff.mp found).1]
    exact found

end Nytrix.Types
