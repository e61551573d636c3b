import Nytrix.Infer.Unify
import Nytrix.Lib.UnionFind

/-! Arenas of types without a cycle, and what finding the end of a chain of links keeps. -/

namespace Nytrix.Infer

open Nytrix.Lib Nytrix.Lib.UnionFind

/-- The pointers of a node: its links, if it is a variable, and else its parts. -/
def Node.edges (t : Nat) : Node → List Nat
  | .concrete _ => []
  | .var _ parent bound => (if parent = t then [] else [parent]) ++ bound.toList
  | .arrow param ret => param.toList ++ ret.toList
  | .apply _ arg0 arg1 _ => arg0.toList ++ arg1.toList

/-- A node that is no variable. -/
def Node.Solid (n : Node) : Prop := ∀ id parent bound, n ≠ .var id parent bound

theorem Node.Solid.concrete (name : String) : (Node.concrete name).Solid := by rintro _ _ _ ⟨⟩

theorem Node.Solid.arrow (param ret : Option Nat) : (Node.arrow param ret).Solid := by
  rintro _ _ _ ⟨⟩

theorem Node.Solid.apply (name : String) (arg0 arg1 : Option Nat) (arity : Int) :
    (Node.apply name arg0 arg1 arity).Solid := by
  rintro _ _ _ ⟨⟩

namespace Arena

/-- One pointer from a node to another. -/
def Edge (s : Arena) (t c : Nat) : Prop := ∃ n, s.nodes[t]? = some n ∧ c ∈ n.edges t

/-- A node leads to another one along pointers. -/
def Reaches (s : Arena) : Nat → Nat → Prop := Relation.ReflTransGen s.Edge

/-- A rank that goes down along every pointer. -/
def Ranked (s : Arena) (rank : Nat → Nat) : Prop :=
  ∀ (t : Nat) (n : Node), s.nodes[t]? = some n → ∀ c ∈ n.edges t, rank c < rank t

/-- The node that a variable is linked to; other nodes and free variables are their own ones. -/
def parents (s : Arena) : Parents := fun t =>
  match s.nodes[t]? with
  | some (.var _ parent bound) => if parent ≠ t then parent else bound.getD t
  | _ => t

/-- What a node stands for, at the end of the links. -/
abbrev Root (s : Arena) (t r : Nat) : Prop := Rooted s.parents t r

/-- A variable without links. -/
def Free (s : Arena) (t : Nat) : Prop := ∃ id, s.nodes[t]? = some (.var id t none)

/--
An arena that unification leaves.

A variable either has no links, or both of its links lead to one node.
-/
structure Wf (s : Arena) : Prop where
  inRange : ∀ (t : Nat) (n : Node), s.nodes[t]? = some n → ∀ c ∈ n.edges t, c < s.nodes.length
  acyclic : ∃ rank, s.Ranked rank
  linked : ∀ t id parent b, s.nodes[t]? = some (Node.var id parent (some b)) →
    parent ≠ t ∧ Same s.parents parent b
  unlinked : ∀ t id parent, s.nodes[t]? = some (Node.var id parent none) → parent = t

end Arena

open Arena

variable {s s' s'' : Arena} {t r x y : Nat}

section Roots

theorem inside_of_get {n : Node} (found : s.nodes[t]? = some n) : t < s.nodes.length :=
  (List.getElem?_eq_some_iff.mp found).1

theorem parents_solid {n : Node} (found : s.nodes[t]? = some n)
    (noVar : n.Solid) : s.parents t = t := by
  unfold parents
  rw [found]
  cases n with
  | var id parent bound => exact absurd rfl (noVar id parent bound)
  | _ => rfl

theorem Arena.Free.parents (free : s.Free t) : s.parents t = t := by
  obtain ⟨id, found⟩ := free
  unfold Arena.parents
  rw [found]
  simp

theorem Arena.Wf.parents_linked (wf : s.Wf) {id parent b : Nat}
    (found : s.nodes[t]? = some (.var id parent (some b))) : s.parents t = parent := by
  unfold parents
  rw [found]
  exact if_pos (wf.linked t id parent b found).1

theorem Arena.Wf.edge_of_parents (wf : s.Wf) (moved : s.parents t ≠ t) :
    s.Edge t (s.parents t) := by
  cases found : s.nodes[t]? with
  | none =>
    unfold parents at moved
    rw [found] at moved
    exact absurd rfl moved
  | some n =>
    cases n with
    | var id parent bound =>
      cases bound with
      | none =>
        obtain rfl := wf.unlinked t id parent found
        exact absurd (Free.parents ⟨id, found⟩) moved
      | some b =>
        rw [wf.parents_linked found]
        refine ⟨_, found, ?_⟩
        simp [Node.edges, (wf.linked t id parent b found).1]
    | _ => exact absurd (parents_solid found nofun) moved

theorem Arena.Wf.forest (wf : s.Wf) : Forest s.nodes.length s.parents := by
  obtain ⟨rank, ranked⟩ := wf.acyclic
  refine ⟨fun t within => ?_, rank, fun t moved => ?_⟩
  · by_cases moved : s.parents t = t
    · rwa [moved]
    · obtain ⟨n, found, edge⟩ := wf.edge_of_parents moved
      exact wf.inRange t n found _ edge
  · obtain ⟨n, found, edge⟩ := wf.edge_of_parents moved
    exact ranked t n found _ edge

theorem Arena.Wf.rooted (wf : s.Wf) (t : Nat) : ∃ r, s.Root t r := by
  by_cases within : t < s.nodes.length
  · exact ⟨_, wf.forest.rooted within⟩
  · refine ⟨t, .stop ?_⟩
    unfold parents
    rw [List.getElem?_eq_none (by omega)]

theorem Arena.Wf.root_cases (wf : s.Wf) (root : s.parents r = r) {n : Node}
    (found : s.nodes[r]? = some n) :
    s.Free r ∨ n.Solid := by
  cases n with
  | var id parent bound =>
    cases bound with
    | none =>
      obtain rfl := wf.unlinked r id parent found
      exact .inl ⟨id, found⟩
    | some b =>
      rw [wf.parents_linked found] at root
      exact absurd root (wf.linked r id parent b found).1
  | _ => exact .inr nofun

end Roots

section Compression

/-- An arena in which only links have been shortened. -/
structure Compressed (s s' : Arena) : Prop where
  length : s'.nodes.length = s.nodes.length
  solid : ∀ (t : Nat) (n : Node), n.Solid → (s'.nodes[t]? = some n ↔ s.nodes[t]? = some n)
  free : ∀ t id, s'.nodes[t]? = some (Node.var id t none) ↔ s.nodes[t]? = some (Node.var id t none)
  linked : ∀ (t id parent b : Nat), s.nodes[t]? = some (Node.var id parent (some b)) →
    ∃ parent' b' : Nat, s'.nodes[t]? = some (Node.var id parent' (some b'))
  roots : ∀ t r, s.Root t r → s'.Root t r
  ranked : ∀ rank, s.Ranked rank → s'.Ranked rank

theorem Compressed.refl (s : Arena) : Compressed s s :=
  ⟨rfl, fun _ _ _ => .rfl, fun _ _ => .rfl, fun _ _ parent b found => ⟨parent, b, found⟩,
    fun _ _ leads => leads, fun _ ranked => ranked⟩

theorem Compressed.trans (first : Compressed s s') (second : Compressed s' s'') :
    Compressed s s'' where
  length := second.length.trans first.length
  solid t n noVar := (second.solid t n noVar).trans (first.solid t n noVar)
  free t id := (second.free t id).trans (first.free t id)
  linked t id parent b found := by
    obtain ⟨parent', b', found'⟩ := first.linked t id parent b found
    exact second.linked t id parent' b' found'
  roots t r leads := second.roots t r (first.roots t r leads)
  ranked rank ranked := second.ranked rank (first.ranked rank ranked)

theorem Compressed.root_iff (compressed : Compressed s s') (wf : s.Wf) :
    s'.Root t r ↔ s.Root t r := by
  constructor
  · intro leads
    obtain ⟨r', leads'⟩ := wf.rooted t
    rwa [leads.unique (compressed.roots t r' leads')]
  · exact compressed.roots t r

theorem Compressed.free_iff (compressed : Compressed s s') : s'.Free t ↔ s.Free t :=
  exists_congr fun id => compressed.free t id

theorem setParent_get {i : Nat} : (s.setParent t r).nodes[i]? =
    s.nodes[i]?.map fun n => if t = i then (match n with
      | .var id _ bound => .var id r bound
      | n => n) else n := by
  rw [setParent, List.getElem?_modify]
  cases s.nodes[i]? with
  | none => rfl
  | some n =>
    by_cases same : t = i
    · simp only [if_pos same, Option.map_some]
      rfl
    · simp only [if_neg same, Option.map_some]
      rfl

theorem setParent_parents {id parent : Nat} {bound : Option Nat}
    (found : s.nodes[t]? = some (.var id parent bound)) (differ : r ≠ t) :
    (s.setParent t r).parents = Function.update s.parents t r := by
  funext i
  rw [Function.update_apply]
  unfold parents
  rw [setParent_get]
  by_cases same : i = t
  · subst same
    rw [found]
    simp [differ]
  · rw [if_neg same]
    cases s.nodes[i]? with
    | none => rfl
    | some n => simp only [Option.map_some, if_neg (Ne.symm same)]

/-- A variable may be linked right to what it stands for. -/
theorem Arena.Wf.setParent (wf : s.Wf) {id parent b : Nat}
    (found : s.nodes[t]? = some (.var id parent (some b))) (root : s.Root parent r) :
    (s.setParent t r).Wf ∧ Compressed s (s.setParent t r) := by
  obtain ⟨differ, same⟩ := wf.linked t id parent b found
  have moved : s.parents t ≠ t := by rwa [wf.parents_linked found]
  have leads : s.Root t r := .step moved (by rwa [wf.parents_linked found])
  have within := inside_of_get found
  have inside := leads.inside wf.forest within
  -- Any rank of the old arena is one of the new one.
  have below : ∀ rank, s.Ranked rank → rank r < rank t := by
    intro rank ranked
    have falls : ∀ x, s.parents x ≠ x → rank (s.parents x) < rank x := by
      intro x movedX
      obtain ⟨n, foundX, edge⟩ := wf.edge_of_parents movedX
      exact ranked x n foundX _ edge
    have first := falls t moved
    rw [wf.parents_linked found] at first
    exact (root.rank_le falls).trans_lt first
  have apart : r ≠ t := by
    obtain ⟨rank, ranked⟩ := wf.acyclic
    have lower := below rank ranked
    rintro rfl
    omega
  have links := setParent_parents found apart
  have roots : ∀ y z, s.Root y z → (s.setParent t r).Root y z := by
    unfold Root
    rw [links]
    exact (wf.forest.shortcut leads within moved).2
  -- The nodes are the old ones, but for the parent of the variable.
  have nodes : ∀ i n, (s.setParent t r).nodes[i]? = some n →
      (i = t ∧ n = .var id r (some b)) ∨ (i ≠ t ∧ s.nodes[i]? = some n) := by
    intro i n get
    rw [setParent_get] at get
    by_cases here : i = t
    · subst here
      rw [found] at get
      simp only [if_true, Option.map_some, Option.some.injEq] at get
      exact .inl ⟨rfl, get.symm⟩
    · simp only [if_neg (Ne.symm here), Option.map_id_fun'] at get
      exact .inr ⟨here, get⟩
  have others : ∀ i n, i ≠ t → s.nodes[i]? = some n → (s.setParent t r).nodes[i]? = some n := by
    intro i n here get
    rw [setParent_get, get]
    simp only [if_neg (Ne.symm here), Option.map_some]
  have length : (s.setParent t r).nodes.length = s.nodes.length := by
    rw [Arena.setParent, List.length_modify]
  have ranked : ∀ rank, s.Ranked rank → (s.setParent t r).Ranked rank := by
    intro rank old i n get c edge
    rcases nodes i n get with ⟨rfl, rfl⟩ | ⟨-, get⟩
    · simp only [Node.edges, if_neg apart, Option.toList_some, List.mem_append,
        List.mem_singleton] at edge
      rcases edge with rfl | rfl
      · exact below rank old
      · exact old i _ found c (by simp [Node.edges])
    · exact old i n get c edge
  refine ⟨⟨?_, ?_, ?_, ?_⟩, ⟨length, ?_, ?_, ?_, roots, ranked⟩⟩
  · intro i n get c edge
    rw [length]
    rcases nodes i n get with ⟨rfl, rfl⟩ | ⟨-, get⟩
    · simp only [Node.edges, if_neg apart, Option.toList_some, List.mem_append,
        List.mem_singleton] at edge
      rcases edge with rfl | rfl
      · exact inside
      · exact wf.inRange i _ found c (by simp [Node.edges])
    · exact wf.inRange i n get c edge
  · obtain ⟨rank, old⟩ := wf.acyclic
    exact ⟨rank, ranked rank old⟩
  · intro i id' parent' b' get
    rcases nodes i _ get with ⟨rfl, eq⟩ | ⟨-, get⟩
    · cases eq
      refine ⟨apart, r, roots _ _ (.stop root.root), ?_⟩
      obtain ⟨r', leadsP, leadsB⟩ := same
      obtain rfl := leadsP.unique root
      exact roots _ _ leadsB
    · obtain ⟨differ', r', leadsP, leadsB⟩ := wf.linked i id' parent' b' get
      exact ⟨differ', r', roots _ _ leadsP, roots _ _ leadsB⟩
  · intro i id' parent' get
    rcases nodes i _ get with ⟨-, eq⟩ | ⟨-, get⟩
    · cases eq
    · exact wf.unlinked i id' parent' get
  · intro i n noVar
    constructor
    · intro get
      rcases nodes i n get with ⟨-, eq⟩ | ⟨-, get⟩
      · exact absurd eq (noVar _ _ _)
      · exact get
    · intro get
      refine others i n ?_ get
      rintro rfl
      rw [found, Option.some.injEq] at get
      exact noVar _ _ _ get.symm
  · intro i id'
    constructor
    · intro get
      rcases nodes i _ get with ⟨-, eq⟩ | ⟨-, get⟩
      · cases eq
      · exact get
    · intro get
      refine others i _ ?_ get
      rintro rfl
      rw [found, Option.some.injEq] at get
      cases get
  · intro i id' parent' b' get
    by_cases here : i = t
    · subst here
      rw [found, Option.some.injEq] at get
      cases get
      refine ⟨r, b, ?_⟩
      rw [setParent_get, found]
      simp
    · exact ⟨parent', b', others i _ here get⟩

end Compression

section Finding

theorem findNode_settles (wf : s.Wf) (within : t < s.nodes.length) :
    ∃ r s', Settles (fun fuel => findNode fuel s t) (r, s') ∧ s.Root t r ∧ s'.Wf ∧
      Compressed s s' := by
  obtain ⟨rank, ranked⟩ := wf.acyclic
  induction height : rank t using Nat.strong_induction_on generalizing t with
  | _ height shorter =>
    subst height
    -- A node that stands for itself is found at once.
    have stays (here : ∀ fuel, findNode (fuel + 1) s t = some (t, s)) (root : s.parents t = t) :
        ∃ r s', Settles (fun fuel => findNode fuel s t) (r, s') ∧ s.Root t r ∧ s'.Wf ∧
          Compressed s s' :=
      ⟨t, s, .succ (.of_eq here), .stop root, wf, .refl s⟩
    cases found : s.nodes[t]? with
    | none => exact absurd found (by simpa using within)
    | some n =>
      cases n with
      | var id parent bound =>
        cases bound with
        | none =>
          obtain rfl := wf.unlinked t id parent found
          exact stays (fun fuel => by simp [findNode, found]) (Free.parents ⟨id, found⟩)
        | some b =>
          obtain ⟨differ, same⟩ := wf.linked t id parent b found
          have moved : s.parents t ≠ t := by rwa [wf.parents_linked found]
          have edge : parent ∈ (Node.var id parent (some b)).edges t := by
            simp [Node.edges, differ]
          obtain ⟨r, s', settled, leads, wf', compressed⟩ :=
            shorter (rank parent) (ranked t _ found parent edge) (wf.inRange t _ found parent edge)
              rfl
          -- The variable is linked to what its parent stands for.
          obtain ⟨parent', b', found'⟩ := compressed.linked t id parent b found
          have there : s'.Root t r :=
            compressed.roots t r (.step moved (by rwa [wf.parents_linked found]))
          have leads' : s'.Root parent' r := by
            cases there with
            | stop root =>
              rw [wf'.parents_linked found'] at root
              exact absurd root (wf'.linked t id parent' b' found').1
            | step _ rest => rwa [wf'.parents_linked found'] at rest
          obtain ⟨wf'', compressed'⟩ := wf'.setParent found' leads'
          refine ⟨r, s'.setParent t r, .succ ?_, .step moved (by rwa [wf.parents_linked found]),
            wf'', compressed.trans compressed'⟩
          have step : ∀ fuel, findNode (fuel + 1) s t = (findNode fuel s parent).map
              fun found => (found.1, found.2.setParent t found.1) := by
            intro fuel
            simp [findNode, found, differ]
          simp only [step]
          exact settled.map fun found => (found.1, found.2.setParent t found.1)
      | _ => exact stays (fun fuel => by simp [findNode, found]) (parents_solid found nofun)

theorem nyTypeFind_settles (wf : s.Wf) {t : Option Nat} (has : s.Has t) :
    ∃ found s', Settles (fun fuel => nyTypeFind fuel s t) (found, s') ∧
      Option.Rel s.Root t found ∧ s'.Wf ∧ Compressed s s' := by
  cases t with
  | none => exact ⟨none, s, .of_eq fun _ => rfl, .none, wf, .refl s⟩
  | some t =>
    obtain ⟨r, s', settled, leads, wf', compressed⟩ := findNode_settles wf (has t rfl)
    have found := settled.map fun found : Nat × Arena => (some found.1, found.2)
    exact ⟨some r, s', found, .some leads, wf', compressed⟩

end Finding

section Binding

theorem bind_get {id : Nat} (free : s.nodes[x]? = some (.var id x none)) {i : Nat} :
    (s.bind x y).nodes[i]? = if i = x then some (.var id y (some y)) else s.nodes[i]? := by
  rw [Arena.bind, setBound, List.getElem?_modify, setParent_get]
  by_cases same : i = x
  · subst same
    rw [free]
    simp
  · rw [if_neg same]
    cases s.nodes[i]? with
    | none => rfl
    | some n =>
      simp only [Option.map_some, if_neg (Ne.symm same)]
      rfl

theorem bind_parents (free : s.Free x) (differ : y ≠ x) :
    (s.bind x y).parents = Function.update s.parents x y := by
  obtain ⟨id, found⟩ := free
  funext i
  rw [Function.update_apply]
  unfold parents
  rw [bind_get found]
  by_cases same : i = x
  · subst same
    simp [differ]
  · rw [if_neg same, if_neg same]

theorem Arena.Wf.bind (wf : s.Wf) (free : s.Free x) (root : s.parents y = y)
    (within : y < s.nodes.length) (apart : ¬ s.Reaches y x) : (s.bind x y).Wf ∧
      ∀ t r, s.Root t r → (s.bind x y).Root t (if r = x then y else r) := by
  classical
  have differ : y ≠ x := by
    rintro rfl
    exact apart .refl
  have links := bind_parents free differ
  have roots : ∀ t r, s.Root t r → (s.bind x y).Root t (if r = x then y else r) := by
    unfold Root
    rw [links]
    exact (wf.forest.link root free.parents differ within).2
  obtain ⟨id, found⟩ := free
  have length : (s.bind x y).nodes.length = s.nodes.length := by
    rw [Arena.bind, setBound, Arena.setParent, List.length_modify, List.length_modify]
  have nodes : ∀ i n, (s.bind x y).nodes[i]? = some n →
      (i = x ∧ n = .var id y (some y)) ∨ (i ≠ x ∧ s.nodes[i]? = some n) := by
    intro i n get
    rw [bind_get found] at get
    by_cases here : i = x
    · rw [if_pos here, Option.some.injEq] at get
      exact .inl ⟨here, get.symm⟩
    · rw [if_neg here] at get
      exact .inr ⟨here, get⟩
  have only : ∀ c ∈ (Node.var id y (some y)).edges x, c = y := by
    intro c edge
    simpa [Node.edges, differ] using edge
  refine ⟨⟨?_, ?_, ?_, ?_⟩, roots⟩
  · intro i n get c edge
    rw [length]
    rcases nodes i n get with ⟨rfl, rfl⟩ | ⟨-, get⟩
    · rwa [only c edge]
    · exact wf.inRange i n get c edge
  · -- Everything that leads to the variable is raised above what it is bound to.
    obtain ⟨rank, ranked⟩ := wf.acyclic
    refine ⟨fun t => if s.Reaches t x then rank t + rank y + 1 else rank t, ?_⟩
    intro i n get c edge
    rcases nodes i n get with ⟨rfl, rfl⟩ | ⟨-, get⟩
    · rw [only c edge]
      have here : s.Reaches i i := .refl
      simp only [if_neg apart, if_pos here]
      omega
    · have lower := ranked i n get c edge
      have upward : s.Reaches c x → s.Reaches i x := .head ⟨n, get, edge⟩
      by_cases below : s.Reaches c x
      · simp only [if_pos below, if_pos (upward below)]
        omega
      · simp only [if_neg below]
        split <;> omega
  · intro i id' parent' b' get
    rcases nodes i _ get with ⟨rfl, eq⟩ | ⟨-, get⟩
    · cases eq
      refine ⟨differ, y, ?_, ?_⟩ <;> simpa [differ] using roots y y (.stop root)
    · obtain ⟨differ', r', leadsP, leadsB⟩ := wf.linked i id' parent' b' get
      exact ⟨differ', _, roots _ _ leadsP, roots _ _ leadsB⟩
  · intro i id' parent' get
    rcases nodes i _ get with ⟨-, eq⟩ | ⟨-, get⟩
    · cases eq
    · exact wf.unlinked i id' parent' get

end Binding

end Nytrix.Infer
