import Nytrix.Types.HmTame
import Mathlib.Tactic.IntervalCases

/-! Speculative unification: what it leaves behind when it fails. -/

namespace Nytrix.Types

/--
Unifies two types and drops the diagnostics that arise on the way.

Nothing else that unification does is undone.
-/
def hmUnifySilent (context : Option Name) (depth : Nat) : Unifier := fun hm want got =>
  match hmUnify context depth hm want got with
  | some (ok, hm') => some (ok, { hm' with diags := hm'.diags.take hm.diags.length })
  | none => none

/-- The parts of a node that are unified before its last one. -/
def Shape.early : Shape → List Nat
  | .dict a _ => a.toList
  | .fn args _ => args
  | _ => []

namespace Hm

/--
Nodes on which unification has nothing to write, among those that a predicate selects.

There is no variable without an instance, and no generic name is rewritten when it is put together
with another.
-/
structure Still (hm : Hm) (S : Nat → Prop) : Prop where
  bound : ∀ r, S r → hm.nodes[r]? ≠ some (.var none)
  names : ∀ r r' n n', S r → S r' → hm.nodes[r]? = some (.name n) → hm.nodes[r']? = some (.name n') →
    ∀ merged, hmMergeGenericName n n' = some merged → merged = n

/-- A set of nodes that is closed under pointers and has all nodes yet to be made. -/
structure Open (hm : Hm) (S : Nat → Prop) : Prop where
  new : ∀ r, hm.nodes.length ≤ r → S r
  closed : ∀ (r : Nat) (s : Shape), S r → hm.nodes[r]? = some s → ∀ c ∈ s.edges, S c

/-- An arena in which there is nothing to write on a closed set of nodes. -/
structure Settled (hm : Hm) (S : Nat → Prop) : Prop extends hm.Still S, hm.Open S where
  wf : hm.Wf

/--
An arena in which, of the parts of the nodes in a closed set, only last ones have something to
write on: the parts before them are in a set on which there is nothing to write.
-/
structure Orderly (hm : Hm) (T E : Nat → Prop) : Prop extends hm.Open T where
  settled : hm.Settled E
  early : ∀ (r : Nat) (s : Shape), T r → hm.nodes[r]? = some s → ∀ c ∈ s.early, E c

/-- A node that one of two types leads to. -/
def Leads (hm : Hm) (a b : Option Nat) (r : Nat) : Prop :=
  ∃ x, (a = some x ∨ b = some x) ∧ hm.Reaches x r

/--
A node that a part other than the last leads to, of a dict or a function that one of two types
leads to.
-/
def Early (hm : Hm) (a b : Option Nat) (r : Nat) : Prop :=
  ∃ x s c, hm.Leads a b x ∧ hm.nodes[x]? = some s ∧ c ∈ s.early ∧ hm.Reaches c r

/-- A type that is null or in a set. -/
def In (S : Nat → Prop) (a : Option Nat) : Prop := ∀ x, a = some x → S x

variable {hm hm₁ : Hm} {r x : Nat} {S T E : Nat → Prop}

theorem In.some (member : S x) : In S (some x) := by
  intro y same
  exact Option.some.inj same ▸ member

theorem Open.grows (isOpen : hm.Open S) (grows : hm.Grows hm₁) : hm₁.Open S := by
  -- Nodes beyond the longer arena are beyond the shorter one, and fresh leaves point nowhere.
  refine ⟨fun r beyond => isOpen.new r (Nat.le_trans grows.extends.length_le beyond), ?_⟩
  intro r s member found c edge
  rcases grows.get_inv found with found | fresh
  · exact isOpen.closed r s member found c edge
  · rw [fresh.edges] at edge
    cases edge

theorem Still.grows (still : hm.Still S) (grows : hm.Grows hm₁) : hm₁.Still S := by
  constructor
  · intro r member found
    -- A variable is no fresh leaf, so it was there before.
    rcases grows.get_inv found with found | fresh
    · exact still.bound r member found
    · rcases fresh with same | same | same <;> cases same
  · intro r r' n n' member member' found found' merged put
    -- The names of fresh leaves have no arguments, so they are put together with none.
    rcases grows.get_inv found with old | fresh
    · rcases grows.get_inv found' with old' | fresh
      · exact still.names r r' n n' member member' old old' merged put
      · rw [hmMergeGenericName_right fresh.plain] at put
        cases put
    · rw [hmMergeGenericName_left fresh.plain] at put
      cases put

theorem Settled.grows (settled : hm.Settled S) (grows : hm.Grows hm₁) : hm₁.Settled S where
  toStill := settled.toStill.grows grows
  toOpen := settled.toOpen.grows grows
  wf := grows.wf settled.wf

theorem FreshShape.early {s : Shape} (fresh : FreshShape s) : s.early = [] := by
  rcases fresh with rfl | rfl | rfl <;> rfl

theorem Orderly.grows (orderly : hm.Orderly T E) (grows : hm.Grows hm₁) : hm₁.Orderly T E where
  toOpen := orderly.toOpen.grows grows
  settled := orderly.settled.grows grows
  early := by
    intro r s member found c part
    rcases grows.get_inv found with found | fresh
    · exact orderly.early r s member found c part
    · rw [fresh.early] at part
      cases part

theorem Open.prunes (isOpen : hm.Open S) (prunes : hm.Prunes r x) (member : S r) : S x := by
  induction prunes with
  | stop => exact member
  | step found _ ih =>
    -- An instance is a pointer of the variable.
    exact ih (isOpen.closed _ _ member found _ (by simp [Shape.edges]))

theorem Open.parts (isOpen : hm.Open S) (inside : r < hm.nodes.length) (member : S r) {c : Nat}
    (part : c ∈ (hm.shape r).parts) : S c :=
  isOpen.closed r _ member (get_shape inside) c (Shape.edges_of_parts part)

end Hm

open Hm

/--
What is known of arenas in a run, and of the types in it: it stays true while nodes are made, and
rules out that a node is written over where the answers of interest include success.
-/
structure Discipline (ok : Bool → Prop) (I : Hm → Prop) (M : Nat → Prop) : Prop where
  fails : ok false
  grows : ∀ hm hm₁, I hm → hm.Grows hm₁ → I hm₁
  wf : ∀ hm, I hm → hm.Wf
  isOpen : ∀ hm, I hm → hm.Open M
  bind : ∀ (hm : Hm) w, I hm → M w → hm.nodes[w]? = some (.var none) → ¬ ok true
  rename : ∀ (hm : Hm) w g n m merged, I hm → M w → M g → hm.nodes[w]? = some (.name n) →
    hm.nodes[g]? = some (.name m) → hmMergeGenericName n m = some merged → ok true → merged = n

/-- Unification that only makes nodes, when it gives one of the answers of interest. -/
def Tidy (ok : Bool → Prop) (I : Hm → Prop) (M : Nat → Prop) (unify : Unifier) : Prop :=
  ∀ hm want got b hm', I hm → hm.Has want → hm.Has got → In M want → In M got →
    unify hm want got = some (b, hm') → ok b → hm.Grows hm'

section Steps

variable {ok : Bool → Prop} {I : Hm → Prop} {M : Nat → Prop} {unify : Unifier} {hm hm' : Hm}
  {w g : Nat} {b : Bool} {context : Option Name}

theorem Tidy.all (tidy : Tidy (fun _ => True) I M unify)
    (grow : ∀ hm hm₁, I hm → hm.Grows hm₁ → I hm₁) {pairs : List (Option Nat × Option Nat)}
    (known : I hm) (has : ∀ pair ∈ pairs, hm.Has pair.1 ∧ hm.Has pair.2)
    (members : ∀ pair ∈ pairs, In M pair.1 ∧ In M pair.2)
    (ran : unifyAll unify hm pairs = some (b, hm')) : hm.Grows hm' := by
  -- Induction on the pairs, with the arena that each one leaves in turn.
  induction pairs generalizing hm with
  | nil =>
    cases ran
    exact Grows.refl
  | cons pair pairs ih =>
    have here := has pair (by simp)
    have inside := members pair (by simp)
    rw [unifyAll] at ran
    split at ran
    · rename_i hm₁ first
      have grows := tidy hm _ _ _ hm₁ known here.1 here.2 inside.1 inside.2 first trivial
      have longer := grows.extends.length_le
      refine grows.trans (ih (grow hm hm₁ known grows) ?_ ?_ ran)
      · intro other member
        have both := has other (by simp [member])
        exact ⟨both.1.mono longer, both.2.mono longer⟩
      · intro other member
        exact members other (by simp [member])
    · exact tidy hm _ _ _ hm' known here.1 here.2 inside.1 inside.2 ran trivial

/-- Doing what remains for two types only makes nodes, if unifying pairs of parts does. -/
theorem Tidy.run (tidy : Tidy ok I M unify) (discipline : Discipline ok I M) (known : I hm)
    (wInside : w < hm.nodes.length) (gInside : g < hm.nodes.length) (wMember : M w) (gMember : M g)
    (all : ∀ pairs, (hm.shape w).plan (hm.shape g) = .all pairs →
      unifyAll unify hm pairs = some (b, hm') → ok b → hm.Grows hm')
    (ran : ((hm.shape w).plan (hm.shape g)).run unify context hm w g = some (b, hm'))
    (interest : ok b) : hm.Grows hm' := by
  have isOpen := discipline.isOpen hm known
  have wf := discipline.wf hm known
  have within : ((hm.shape w).plan (hm.shape g)).Within fun a => hm.Has a ∧ In M a := by
    -- The parts of both nodes are nodes, and they are in the set.
    have part : ∀ {r}, r < hm.nodes.length → M r → ∀ c ∈ (hm.shape r).parts,
        hm.Has (some c) ∧ In M (some c) := by
      intro r inside member c part
      exact ⟨wf.parts inside part, In.some (isOpen.parts inside member part)⟩
    apply plan_within
    · constructor
      · intro x same
        cases same
      · intro x same
        cases same
    · exact part wInside wMember
    · exact part gInside gMember
  have gHas : hm.Has (some g) := fun x same => Option.some.inj same ▸ gInside
  cases plan : (hm.shape w).plan (hm.shape g) with
  | accept =>
    rw [plan] at ran
    cases ran
    exact Grows.refl
  | rename merged =>
    rw [plan] at ran
    cases ran
    obtain ⟨n, m, wName, gName, put⟩ := plan_rename plan
    have wFound : hm.nodes[w]? = some (.name n) := wName ▸ get_shape wInside
    have gFound : hm.nodes[g]? = some (.name m) := gName ▸ get_shape gInside
    -- The name that is written is the one that is there.
    have same := discipline.rename hm w g n m merged known wMember gMember wFound gFound put interest
    subst same
    obtain ⟨inside, found⟩ := List.getElem?_eq_some_iff.mp wFound
    refine ⟨[], ?_, by simp⟩
    rw [List.append_nil, Hm.setNode, ← found, List.set_getElem_self]
  | reject code flipped =>
    rw [plan] at ran
    cases code <;> cases flipped <;> cases ran
    all_goals exact Grows.diag
  | all pairs =>
    rw [plan] at ran
    exact all pairs plan ran interest
  | fresh a s =>
    rw [plan] at ran within
    have fresh := plan_fresh plan
    have grows : hm.Grows (hm.alloc s) := Grows.alloc fresh
    have longer := grows.extends.length_le
    have hasNew : (hm.alloc s).Has (some hm.nodes.length) := by
      intro x same
      cases same
      simp [Hm.alloc]
    have newMember : In M (some hm.nodes.length) := In.some (isOpen.new _ (Nat.le_refl _))
    exact grows.trans (tidy _ _ _ _ _ (discipline.grows _ _ known grows) (within.1.1.mono longer)
      hasNew within.1.2 newMember ran interest)
  | either a c =>
    rw [plan] at ran within
    simp only [Plan.run] at ran
    split at ran
    · -- The first alternative failed, and made nodes at most.
      rename_i hm₁ first
      have grows := tidy _ _ _ _ _ known within.1.1 gHas within.1.2 (In.some gMember) first
        discipline.fails
      have longer := grows.extends.length_le
      have later := discipline.grows _ _ known grows
      have second : ∀ b hm₂, unify hm₁ c (some g) = some (b, hm₂) → ok b → hm₁.Grows hm₂ := by
        intro b hm₂ ran interest
        exact tidy _ _ _ _ _ later (within.2.1.mono longer) (gHas.mono longer) within.2.2
          (In.some gMember) ran interest
      split at ran
      · rename_i hm₂ failed
        cases ran
        exact (grows.trans (second _ _ failed discipline.fails)).trans Grows.diag
      · exact grows.trans (second _ _ ran interest)
    · exact tidy _ _ _ _ _ known within.1.1 gHas within.1.2 (In.some gMember) ran interest

/-- Unifying two types by their nodes only makes nodes, if unifying pairs of parts does. -/
theorem Tidy.nodes (tidy : Tidy ok I M unify) (discipline : Discipline ok I M)
    (all : ∀ hm w g pairs b hm', I hm → w < hm.nodes.length → g < hm.nodes.length → M w → M g →
      (hm.shape w).plan (hm.shape g) = .all pairs → unifyAll unify hm pairs = some (b, hm') →
      ok b → hm.Grows hm')
    (known : I hm) (wInside : w < hm.nodes.length) (gInside : g < hm.nodes.length) (wMember : M w)
    (gMember : M g) (ran : unifyNodes unify context hm w g = some (b, hm')) (interest : ok b) :
    hm.Grows hm' := by
  have has : ∀ {r}, r < hm.nodes.length → hm.Has (some r) := by
    intro r inside x same
    exact Option.some.inj same ▸ inside
  -- A part of a nullable node is a node, and it is in the set.
  have part : ∀ {r a}, r < hm.nodes.length → M r → hm.shape r = .nullable a →
      hm.Has a ∧ In M a := by
    intro r a inside member found
    constructor
    · intro x same
      exact (discipline.wf hm known).parts inside (by simp [found, Shape.parts, same]) x rfl
    · intro x same
      exact (discipline.isOpen hm known).parts inside member (by simp [found, Shape.parts, same])
  have left : ∀ b hm₁, (tryPart (hm.shape w) hm fun a => unify hm a (some g)) = some (b, hm₁) →
      ok b → hm.Grows hm₁ := by
    intro b hm₁ tried interest
    unfold tryPart at tried
    split at tried
    · rename_i a found
      obtain ⟨aHas, aMember⟩ := part wInside wMember found
      exact tidy _ _ _ _ _ known aHas (has gInside) aMember (In.some gMember) tried interest
    · cases tried
      exact Grows.refl
  unfold unifyNodes at ran
  simp only at ran
  split at ran
  · cases ran
    exact Grows.refl
  split at ran
  · rename_i hm₁ tried
    have grows := left _ _ tried discipline.fails
    have longer := grows.extends.length_le
    have known₁ := discipline.grows _ _ known grows
    have right : ∀ b hm₂, (tryPart (hm.shape g) hm₁ fun a => unify hm₁ (some w) a) =
        some (b, hm₂) → ok b → hm₁.Grows hm₂ := by
      intro b hm₂ tried interest
      unfold tryPart at tried
      split at tried
      · rename_i a found
        obtain ⟨aHas, aMember⟩ := part gInside gMember found
        exact tidy _ _ _ _ _ known₁ ((has wInside).mono longer) (aHas.mono longer)
          (In.some wMember) aMember tried interest
      · cases tried
        exact Grows.refl
    split at ran
    · rename_i hm₂ tried
      have grows₂ := grows.trans (right _ _ tried discipline.fails)
      have longer₂ := grows₂.extends.length_le
      -- The two nodes are where they were, so what remains is planned for them as they are now.
      have wSame : hm₂.shape w = hm.shape w := shape_eq (grows₂.get (get_shape wInside))
      have gSame : hm₂.shape g = hm.shape g := shape_eq (grows₂.get (get_shape gInside))
      rw [← wSame, ← gSame] at ran
      have known₂ := discipline.grows _ _ known grows₂
      have wInside₂ := Nat.lt_of_lt_of_le wInside longer₂
      have gInside₂ := Nat.lt_of_lt_of_le gInside longer₂
      refine grows₂.trans (tidy.run discipline known₂ wInside₂ gInside₂ wMember gMember ?_ ran
        interest)
      intro pairs plan ran interest
      exact all hm₂ w g pairs b hm' known₂ wInside₂ gInside₂ wMember gMember plan ran interest
    · exact grows.trans (right _ _ ran interest)
  · exact left _ _ ran interest

theorem Tidy.step (tidy : Tidy ok I M unify) (discipline : Discipline ok I M)
    (all : ∀ hm w g pairs b hm', I hm → w < hm.nodes.length → g < hm.nodes.length → M w → M g →
      (hm.shape w).plan (hm.shape g) = .all pairs → unifyAll unify hm pairs = some (b, hm') →
      ok b → hm.Grows hm') :
    Tidy ok I M (unifyStep unify context) := by
  intro hm want got b hm' known wantHas gotHas wantMember gotMember ran interest
  cases want with
  | none =>
    cases ran
    exact Grows.refl
  | some want =>
    cases got with
    | none =>
      cases ran
      exact Grows.refl
    | some got =>
      have wf := discipline.wf hm known
      have isOpen := discipline.isOpen hm known
      have wPrunes := wf.prunes want
      have gPrunes := wf.prunes got
      have wInside := wPrunes.inside wf (wantHas want rfl)
      have gInside := gPrunes.inside wf (gotHas got rfl)
      have wMember := isOpen.prunes wPrunes (wantMember want rfl)
      have gMember := isOpen.prunes gPrunes (gotMember got rfl)
      simp only [unifyStep] at ran
      split at ran
      · cases ran
        exact Grows.refl
      split at ran
      · rename_i i found
        split at ran
        · cases ran
          exact Grows.diag
        · -- An instance is written only into a variable that has none.
          cases ran
          have there : hm.nodes[hm.prune want]? = some (.var i) := found ▸ get_shape wInside
          cases i with
          | none => exact absurd interest (discipline.bind hm _ known wMember there)
          | some i => exact absurd there (wPrunes.ended i)
      · have has : ∀ {r}, r < hm.nodes.length → hm.Has (some r) := by
          intro r inside x same
          exact Option.some.inj same ▸ inside
        exact tidy _ _ _ _ _ known (has gInside) (has wInside) (In.some gMember)
          (In.some wMember) ran interest
      · exact tidy.nodes discipline all known wInside gInside wMember gMember ran interest

end Steps

variable {S T E : Nat → Prop} {hm hm' : Hm} {a b : Option Nat}

theorem settled_discipline : Discipline (fun _ => True) (·.Settled S) S where
  fails := trivial
  grows := fun _ _ settled grows => settled.grows grows
  wf := fun _ settled => settled.wf
  isOpen := fun _ settled => settled.toOpen
  bind := fun _ w settled member found _ => settled.bound w member found
  rename := fun _ w g n m merged settled wMember gMember wFound gFound put _ =>
    settled.names w g n m wMember gMember wFound gFound merged put

theorem orderly_discipline : Discipline (· = false) (·.Orderly T E) T where
  fails := rfl
  grows := fun _ _ orderly grows => orderly.grows grows
  wf := fun _ orderly => orderly.settled.wf
  isOpen := fun _ orderly => orderly.toOpen
  bind := fun _ _ _ _ _ wrong => by cases wrong
  rename := fun _ _ _ _ _ _ _ _ _ _ _ _ wrong => by cases wrong

theorem hmUnify_settled (context : Option Name) (depth : Nat) :
    Tidy (fun _ => True) (·.Settled S) S (hmUnify context depth) := by
  induction depth with
  | zero =>
    intro hm want got b hm' _ _ _ _ _ ran
    cases ran
  | succ depth ih =>
    refine ih.step settled_discipline ?_
    intro hm w g pairs b hm' settled wInside gInside wMember gMember plan ran _
    -- All pairs are of parts of the two nodes.
    have part : ∀ {r}, r < hm.nodes.length → S r → ∀ c ∈ (hm.shape r).parts,
        hm.Has (some c) ∧ In S (some c) := by
      intro r inside member c part
      exact ⟨settled.wf.parts inside part, In.some (settled.toOpen.parts inside member part)⟩
    have within : (Plan.all pairs).Within fun a => hm.Has a ∧ In S a := by
      rw [← plan]
      apply plan_within
      · constructor
        · intro x same
          cases same
        · intro x same
          cases same
      · exact part wInside wMember
      · exact part gInside gMember
    refine ih.all (fun _ _ settled grows => settled.grows grows) settled ?_ ?_ ran
    · intro pair member
      exact ⟨(within pair member).1.1, (within pair member).2.1⟩
    · intro pair member
      exact ⟨(within pair member).1.2, (within pair member).2.2⟩

theorem plan_all {sw sg : Shape} {pairs : List (Option Nat × Option Nat)}
    (plan : sw.plan sg = .all pairs) :
    ∃ front last, pairs = front ++ [last] ∧
      ∀ pair ∈ front, In (· ∈ sw.early) pair.1 ∧ In (· ∈ sg.early) pair.2 := by
  have single : ∀ pair : Option Nat × Option Nat, pairs = [pair] → ∃ front last,
      pairs = front ++ [last] ∧
        ∀ pair ∈ front, In (· ∈ sw.early) pair.1 ∧ In (· ∈ sg.early) pair.2 := by
    intro pair same
    exact ⟨[], pair, same, by simp⟩
  have indexed : ∀ a s flipped, indexablePlan a s flipped = .all pairs → ∃ pair, pairs = [pair] := by
    intro a s flipped plan
    unfold indexablePlan at plan
    grind
  unfold Shape.plan at plan
  split at plan
  · obtain ⟨pair, same⟩ := indexed _ _ _ plan
    exact single pair same
  · obtain ⟨pair, same⟩ := indexed _ _ _ plan
    exact single pair same
  · unfold namePlan at plan
    grind
  · split at plan
    · exact single _ (Plan.all.inj plan).symm
    · cases plan
  · exact single _ (Plan.all.inj plan).symm
  · -- The keys of two dicts come first, and the values last.
    rename_i a _ c _
    refine ⟨[(a, c)], _, (Plan.all.inj plan).symm, ?_⟩
    intro pair member
    rw [List.mem_singleton] at member
    subst member
    constructor
    · intro x same
      simpa [Shape.early] using same
    · intro x same
      simpa [Shape.early] using same
  · -- The arguments of two functions come first, and the results last.
    split at plan
    · cases plan
    · refine ⟨_, _, (Plan.all.inj plan).symm, ?_⟩
      rintro ⟨l, r⟩ member
      obtain ⟨left, right⟩ := List.of_mem_zip member
      obtain ⟨c, inl, rfl⟩ := List.mem_map.mp left
      obtain ⟨d, inr, rfl⟩ := List.mem_map.mp right
      exact ⟨In.some inl, In.some inr⟩
  · cases plan
  · cases plan

theorem unifyAll_append {unify : Unifier} {ok : Bool} {front : List (Option Nat × Option Nat)}
    {last : Option Nat × Option Nat} (ran : unifyAll unify hm (front ++ [last]) = some (ok, hm')) :
    unifyAll unify hm front = some (ok, hm') ∨
      ∃ hm₁, unifyAll unify hm front = some (true, hm₁) ∧
        unify hm₁ last.1 last.2 = some (ok, hm') := by
  induction front generalizing hm with
  | nil =>
    refine Or.inr ⟨hm, rfl, ?_⟩
    rw [List.nil_append, unifyAll] at ran
    split at ran
    · rename_i hm₁ first
      rw [first]
      exact ran
    · exact ran
  | cons pair front ih =>
    rw [List.cons_append, unifyAll] at ran
    rw [unifyAll]
    cases first : unify hm pair.1 pair.2 with
    | none =>
      rw [first] at ran
      cases ran
    | some result =>
      obtain ⟨answer, hm₁⟩ := result
      cases answer with
      | false =>
        rw [first] at ran
        exact Or.inl ran
      | true =>
        rw [first] at ran
        exact ih ran

theorem hmUnify_orderly (context : Option Name) (depth : Nat) :
    Tidy (· = false) (·.Orderly T E) T (hmUnify context depth) := by
  induction depth with
  | zero =>
    intro hm want got b hm' _ _ _ _ _ ran
    cases ran
  | succ depth ih =>
    refine ih.step orderly_discipline ?_
    intro hm w g pairs b hm' orderly wInside gInside wMember gMember plan ran failed
    have wf := orderly.settled.wf
    have within : (Plan.all pairs).Within fun a => hm.Has a ∧ In T a := by
      have part : ∀ {r}, r < hm.nodes.length → T r → ∀ c ∈ (hm.shape r).parts,
          hm.Has (some c) ∧ In T (some c) := by
        intro r inside member c part
        exact ⟨wf.parts inside part, In.some (orderly.toOpen.parts inside member part)⟩
      rw [← plan]
      apply plan_within
      · constructor
        · intro x same
          cases same
        · intro x same
          cases same
      · exact part wInside wMember
      · exact part gInside gMember
    obtain ⟨front, last, rfl, firsts⟩ := plan_all plan
    -- The pairs at the front are of types on which there is nothing to write.
    have quiet : ∀ answer hm₁, unifyAll (hmUnify context depth) hm front = some (answer, hm₁) →
        hm.Grows hm₁ := by
      intro answer hm₁ ran
      refine (hmUnify_settled context depth).all (fun _ _ settled grows => settled.grows grows)
        orderly.settled ?_ ?_ ran
      · intro pair member
        have both := within pair (by simp [member])
        exact ⟨both.1.1, both.2.1⟩
      · intro pair member
        have both := firsts pair member
        constructor
        · intro x same
          exact orderly.early w _ wMember (get_shape wInside) x (both.1 x same)
        · intro x same
          exact orderly.early g _ gMember (get_shape gInside) x (both.2 x same)
    -- The last pair is the only one that may be written on, and it is the one that fails.
    rcases unifyAll_append ran with ran | ⟨hm₁, before, ran⟩
    · exact quiet _ _ ran
    · have grows := quiet _ _ before
      have both := within last (by simp)
      have longer := grows.extends.length_le
      exact grows.trans (ih hm₁ _ _ b hm' (orderly.grows grows) (both.1.1.mono longer)
        (both.2.1.mono longer) both.1.2 both.2.2 ran failed)

/-- A relation of arenas that holds of every write that unification makes. -/
structure Covers (R : Hm → Hm → Prop) : Prop where
  refl : ∀ hm, R hm hm
  trans : ∀ hm hm₁ hm₂, R hm hm₁ → R hm₁ hm₂ → R hm hm₂
  diag : ∀ hm code context want got, R hm (hm.diag code context want got)
  alloc : ∀ hm s, R hm (hm.alloc s)
  setNode : ∀ hm r s, R hm (hm.setNode r s)

section Covering

variable {R : Hm → Hm → Prop} {unify : Unifier} {w g : Nat} {ok : Bool} {context : Option Name}

theorem Covers.all (covers : Covers R)
    (inner : ∀ hm want got ok hm', unify hm want got = some (ok, hm') → R hm hm')
    {pairs : List (Option Nat × Option Nat)} (ran : unifyAll unify hm pairs = some (ok, hm')) :
    R hm hm' := by
  induction pairs generalizing hm with
  | nil =>
    cases ran
    exact covers.refl _
  | cons pair pairs ih =>
    rw [unifyAll] at ran
    split at ran
    · rename_i hm₁ first
      exact covers.trans _ _ _ (inner _ _ _ _ _ first) (ih ran)
    · exact inner _ _ _ _ _ ran

theorem Covers.run (covers : Covers R)
    (inner : ∀ hm want got ok hm', unify hm want got = some (ok, hm') → R hm hm') {plan : Plan}
    (ran : plan.run unify context hm w g = some (ok, hm')) : R hm hm' := by
  cases plan with
  | accept =>
    cases ran
    exact covers.refl hm
  | rename n =>
    cases ran
    exact covers.setNode hm w _
  | reject code flipped =>
    cases code <;> cases flipped <;> cases ran
    all_goals apply covers.diag
  | all pairs => exact covers.all inner ran
  | fresh a s => exact covers.trans _ _ _ (covers.alloc hm s) (inner _ _ _ _ _ ran)
  | either a c =>
    simp only [Plan.run] at ran
    split at ran
    · rename_i hm₁ first
      have before := inner _ _ _ _ _ first
      split at ran
      · rename_i hm₂ second
        have after := inner _ _ _ _ _ second
        cases ran
        exact covers.trans _ _ _ (covers.trans _ _ _ before after) (covers.diag _ _ _ _ _)
      · exact covers.trans _ _ _ before (inner _ _ _ _ _ ran)
    · exact inner _ _ _ _ _ ran

theorem Covers.tryPart (covers : Covers R) {s : Shape} {attempt : Option Nat → Option (Bool × Hm)}
    (inner : ∀ a ok hm', attempt a = some (ok, hm') → R hm hm')
    (tried : Types.tryPart s hm attempt = some (ok, hm')) : R hm hm' := by
  unfold Types.tryPart at tried
  split at tried
  · exact inner _ _ _ tried
  · cases tried
    exact covers.refl hm

theorem Covers.step (covers : Covers R)
    (inner : ∀ hm want got ok hm', unify hm want got = some (ok, hm') → R hm hm') (hm : Hm)
    (want got : Option Nat) (ok : Bool) (hm' : Hm)
    (ran : unifyStep unify context hm want got = some (ok, hm')) : R hm hm' := by
  unfold unifyStep at ran
  split at ran
  · simp only at ran
    split at ran
    · cases ran
      exact covers.refl hm
    split at ran
    · split at ran
      · cases ran
        exact covers.diag _ _ _ _ _
      · cases ran
        exact covers.setNode _ _ _
    · exact inner _ _ _ _ _ ran
    · -- First the parts of types that may be nil are tried, then what remains is done.
      unfold unifyNodes at ran
      simp only at ran
      split at ran
      · cases ran
        exact covers.refl hm
      split at ran
      · rename_i hm₁ tried
        have first := covers.tryPart (fun _ _ _ asked => inner _ _ _ _ _ asked) tried
        split at ran
        · rename_i hm₂ tried
          have second := covers.tryPart (fun _ _ _ asked => inner _ _ _ _ _ asked) tried
          exact covers.trans _ _ _ (covers.trans _ _ _ first second) (covers.run inner ran)
        · have second := covers.tryPart (fun _ _ _ asked => inner _ _ _ _ _ asked) ran
          exact covers.trans _ _ _ first second
      · exact covers.tryPart (fun _ _ _ asked => inner _ _ _ _ _ asked) ran
  · cases ran
    exact covers.refl hm

theorem Covers.hmUnify (covers : Covers R) (depth : Nat) (hm : Hm) (want got : Option Nat)
    (ok : Bool) (hm' : Hm) (ran : Types.hmUnify context depth hm want got = some (ok, hm')) :
    R hm hm' := by
  induction depth generalizing hm want got ok hm' with
  | zero => cases ran
  | succ depth ih => exact covers.step ih hm want got ok hm' ran

end Covering

theorem covers_diags : Covers fun hm hm' => hm.diags <+: hm'.diags where
  refl := fun _ => List.prefix_rfl
  trans := fun _ _ _ first second => first.trans second
  diag := fun _ _ _ _ _ => List.prefix_append _ _
  alloc := fun _ _ => List.prefix_rfl
  setNode := fun _ _ _ => List.prefix_rfl

theorem hmUnifySilent_diags {context : Option Name} {depth : Nat} {ok : Bool}
    (ran : hmUnifySilent context depth hm a b = some (ok, hm')) : hm'.diags = hm.diags := by
  unfold hmUnifySilent at ran
  split at ran
  · rename_i answer hm₁ unified
    cases ran
    -- The diagnostics before are the first ones after.
    exact (List.prefix_iff_eq_take.mp (covers_diags.hmUnify _ _ _ _ _ _ unified)).symm
  · cases ran

theorem orderly_of_still (wf : hm.Wf) (still : hm.Still (hm.Early a b)) :
    hm.Orderly (fun r => hm.nodes.length ≤ r ∨ hm.Leads a b r)
      (fun r => hm.nodes.length ≤ r ∨ hm.Early a b r) where
  new := fun _ beyond => Or.inl beyond
  closed := by
    rintro r s (beyond | ⟨x, start, reaches⟩) found c edge
    · exact absurd (inside_of_get found) (by omega)
    · exact Or.inr ⟨x, start, reaches.tail ⟨s, found, edge⟩⟩
  early := by
    rintro r s (beyond | leads) found c part
    · exact absurd (inside_of_get found) (by omega)
    · exact Or.inr ⟨r, s, c, leads, found, part, Relation.ReflTransGen.refl⟩
  settled := by
    refine ⟨⟨?_, ?_⟩, ⟨fun _ beyond => Or.inl beyond, ?_⟩, wf⟩
    · rintro r (beyond | early) found
      · exact absurd (inside_of_get found) (by omega)
      · exact still.bound r early found
    · rintro r r' n n' (beyond | early) (beyond' | early') found found' merged put
      · exact absurd (inside_of_get found) (by omega)
      · exact absurd (inside_of_get found) (by omega)
      · exact absurd (inside_of_get found') (by omega)
      · exact still.names r r' n n' early early' found found' merged put
    · rintro r s (beyond | ⟨x, t, d, leads, there, part, reaches⟩) found c edge
      · exact absurd (inside_of_get found) (by omega)
      · exact Or.inr ⟨x, t, d, leads, there, part, reaches.tail ⟨s, found, edge⟩⟩

/--
Speculative unification that fails has no effect: the diagnostics, every node with its name and
its instance, and what every type stands for are as before.

This is so where there is nothing to write on the parts of dicts and functions other than the last:
neither a variable without an instance nor a generic name that would be rewritten.
-/
theorem hmUnifySilent_failed {context : Option Name} {depth : Nat} (reached : Reached hm)
    (aHas : hm.Has a) (bHas : hm.Has b) (still : hm.Still (hm.Early a b))
    (failed : hmUnifySilent context depth hm a b = some (false, hm')) :
    hm'.diags = hm.diags ∧
      ∀ r, r < hm.nodes.length → hm'.nodes[r]? = hm.nodes[r]? ∧ hm'.prune r = hm.prune r := by
  refine ⟨hmUnifySilent_diags failed, ?_⟩
  unfold hmUnifySilent at failed
  split at failed
  · rename_i answer hm₁ unified
    cases failed
    have wf := reached.wf
    have member : ∀ {x}, (a = some x ∨ b = some x) → hm.nodes.length ≤ x ∨ hm.Leads a b x :=
      fun start => Or.inr ⟨_, start, Relation.ReflTransGen.refl⟩
    have grows : hm.Grows hm₁ :=
      hmUnify_orderly context depth hm a b false hm₁ (orderly_of_still wf still) aHas bHas
        (fun x same => member (Or.inl same)) (fun x same => member (Or.inr same)) unified rfl
    intro r inside
    refine ⟨(grows.get (get_shape inside)).trans (get_shape inside).symm, ?_⟩
    -- What a type stands for is an end of the same chain in the longer arena.
    have prunes := wf.prunes r
    have ended : hm₁.Prunes (hm.prune r) (hm.prune r) := by
      refine Prunes.stop ?_
      intro i found
      have there := get_shape (prunes.inside wf inside)
      have same := grows.get there
      rw [found] at same
      rw [← Option.some.inj same] at there
      exact prunes.ended i there
    exact (grows.wf wf).prune_eq (prunes.extend grows.extends ended)
  · cases failed

/-- An arena with a dictionary of lists whose elements are unknown, and a dictionary of numbers. -/
def listsAndInts : Hm where
  nodes := [.var none, .name (nm "int"), .box .list (some 0), .dict (some 1) (some 2),
    .dict (some 1) (some 1)]
  diags := []

/-- A dictionary of lists and one of numbers, with the same keys, meet the conditions. -/
theorem hmUnifySilent_failed_listsAndInts :
    ∃ hm', hmUnifySilent none 3 listsAndInts (some 3) (some 4) = some (false, hm') ∧
      hm'.diags = [] ∧ ∀ r, r < 5 → hm'.nodes[r]? = listsAndInts.nodes[r]? ∧
        hm'.prune r = listsAndInts.prune r := by
  have small : ∀ {r : Nat} {s : Shape}, listsAndInts.nodes[r]? = some s → r < 5 := inside_of_get
  -- The keys are the only parts that come before last ones, and they lead nowhere.
  have early : ∀ {r}, listsAndInts.Early (some 3) (some 4) r → r = 1 := by
    rintro r ⟨x, s, c, -, found, part, reaches⟩
    have key : c = 1 := by
      have inside := small found
      interval_cases x <;> cases found <;> simp [Shape.early] at part <;> exact part
    subst key
    rcases Relation.ReflTransGen.cases_head reaches with same | ⟨d, ⟨s, found, edge⟩, -⟩
    · exact same.symm
    · cases found
      simp [Shape.edges, Shape.parts] at edge
  have reached : Reached listsAndInts := by
    refine Reached.of_nodes ?_
    intro r s found
    have inside := small found
    interval_cases r <;> cases found <;> simp [Shape.edges, Shape.parts]
  have failed : ∃ hm', hmUnifySilent none 3 listsAndInts (some 3) (some 4) = some (false, hm') :=
    ⟨_, rfl⟩
  obtain ⟨hm', failed⟩ := failed
  refine ⟨hm', failed, hmUnifySilent_failed reached ?_ ?_ ⟨?_, ?_⟩ failed⟩
  · rintro x ⟨⟩
    decide
  · rintro x ⟨⟩
    decide
  · intro r member found
    rw [early member] at found
    cases found
  · intro r r' n n' member _ found _ merged put
    rw [early member] at found
    cases found
    rw [hmMergeGenericName_left (by decide)] at put
    cases put

/-- An arena with a dictionary whose keys are unknown, and one that differs from it in its values. -/
def unknownKeys : Hm where
  nodes := [.var none, .name (nm "int"), .dict (some 0) (some 1), .name (nm "str"),
    .dict (some 1) (some 3)]
  diags := []

/-- The keys stay bound when the values do not go together. -/
theorem not_silent_unknownKeys : Reached unknownKeys ∧
    ∃ hm', hmUnifySilent none 3 unknownKeys (some 2) (some 4) = some (false, hm') ∧
      hm'.nodes[0]? = some (.var (some 1)) ∧ unknownKeys.nodes[0]? = some (.var none) ∧
      hm'.prune 0 = 1 ∧ unknownKeys.prune 0 = 0 := by
  refine ⟨Reached.of_nodes ?_, _, rfl, rfl, rfl, rfl, rfl⟩
  intro r s found
  have inside : r < 5 := (List.getElem?_eq_some_iff.mp found).1
  interval_cases r <;> cases found <;> simp [Shape.edges, Shape.parts]

end Nytrix.Types
