import Nytrix.Rt.GcRuns

/-! The graph of objects a program can reach, and when a collection preserves it. -/

namespace Nytrix.Rt.Gc

open Nytrix.Lib

variable {c : Config} {g g' : State} {h k v x : Nat}

/-- An object is reached from a root, or from a reference of an object that is reached. -/
inductive Reach (c : Config) (g : State) : Nat → Prop
  | root {slot h : Nat} (listed : slot ∈ g.roots) (refers : g.mem slot = h + 48)
      (object : h ∈ objects c g) : Reach c g h
  | field {slot h k : Nat} (before : Reach c g h) (traced : slot ∈ tracedSlots g.mem h)
      (refers : g.mem slot = k + 48) (object : k ∈ objects c g) : Reach c g k

theorem Reach.object (reach : Reach c g h) : h ∈ objects c g := by
  cases reach with
  | root _ _ object => exact object
  | field _ _ _ object => exact object

/-- The words of the roots and of the references of the objects that are reached. -/
inductive Held (c : Config) (g : State) : Nat → Prop
  | root {slot : Nat} (listed : slot ∈ g.roots) : Held c g (g.mem slot)
  | field {slot h : Nat} (reach : Reach c g h) (traced : slot ∈ tracedSlots g.mem h) :
      Held c g (g.mem slot)

theorem Held.reach (held : Held c g v) (refers : v = h + 48) (object : h ∈ objects c g) :
    Reach c g h := by
  cases held with
  | root listed => exact .root listed refers object
  | field reach traced => exact .field reach traced refers object

/-- A word that may be the address of an object of the nursery or of tenured space. -/
def InSpaces (c : Config) (v : Nat) : Prop :=
  InNursery c v ∨ c.tenuredStart + 48 ≤ v ∧ v ≤ c.tenuredLimit

/-- No word that is held is an address of the spaces at which there is no object. -/
def Firm (c : Config) (g : State) : Prop :=
  ∀ v, Held c g v → InSpaces c v → ∃ h ∈ objects c g, v = h + 48

/-- A word that is not redirected by any collection. -/
def Immediate (c : Config) (v : Nat) : Prop := ¬ (isPtr v = true ∧ InSpaces c v)

theorem Layout.inSpaces (lay : Layout c g) (member : h ∈ objects c g) (small : h ∉ largeObjects g) :
    isPtr (h + 48) = true ∧ InSpaces c (h + 48) := by
  have nurseryMapped := c.nurseryMapped
  have tenuredMapped := c.tenuredMapped
  simp only [isPtr, Bool.and_eq_true, decide_eq_true_eq]
  rcases Layout.object_cases member with young | old | large
  · have bounds := lay.nursery_bounds young
    exact ⟨by omega, .inl (lay.inNursery young)⟩
  · have bounds := lay.tenured_bounds old
    exact ⟨by omega, .inr (by omega)⟩
  · exact absurd large small

/-- A word leads to the same object as before, or is the same and still leads to none. -/
def Corresponds (c : Config) (g g' : State) (φ : Nat → Nat) (v v' : Nat) : Prop :=
  (∃ h ∈ objects c g, v = h + 48 ∧ v' = φ h + 48) ∨
    (∀ h ∈ objects c g, v ≠ h + 48) ∧ (∀ h ∈ objects c g', v ≠ h + 48) ∧ v' = v

/--
The graph that is reached in one state is the one reached in another.

The objects correspond one to one, with their sizes, their tags, the slots of their references and
their immediate words; every root and every reference leads to the object it led to.
-/
structure Isomorphic (c : Config) (g g' : State) (φ : Nat → Nat) : Prop where
  roots : g'.roots = g.roots
  root : ∀ slot ∈ g.roots, Corresponds c g g' φ (g.mem slot) (g'.mem slot)
  reach : ∀ k, Reach c g' k ↔ ∃ h, Reach c g h ∧ φ h = k
  injective : ∀ h k, Reach c g h → Reach c g k → φ h = φ k → h = k
  size : ∀ h, Reach c g h → sizeAt g'.mem (φ h) = sizeAt g.mem h
  tag : ∀ h, Reach c g h → tagAt g'.mem (φ h) = tagAt g.mem h
  slots : ∀ h, Reach c g h → ∀ o,
    φ h + o ∈ tracedSlots g'.mem (φ h) ↔ h + o ∈ tracedSlots g.mem h
  field : ∀ h, Reach c g h → ∀ o, h + o ∈ tracedSlots g.mem h →
    Corresponds c g g' φ (g.mem (h + o)) (g'.mem (φ h + o))
  immediate : ∀ h, Reach c g h → ∀ o, 48 ≤ o → o < totalAt g.mem h →
    Immediate c (g.mem (h + o)) → g'.mem (φ h + o) = g.mem (h + o)

namespace Isomorphic

variable {φ : Nat → Nat}

theorem held (iso : Isomorphic c g g' φ) (lay : Layout c g') (held : Held c g' v) :
    ∃ w, Held c g w ∧ Corresponds c g g' φ w v := by
  cases held with
  | @root slot listed =>
    rw [iso.roots] at listed
    exact ⟨_, .root listed, iso.root slot listed⟩
  | @field slot k reach traced =>
    obtain ⟨h, before, rfl⟩ := (iso.reach k).mp reach
    have bounds := (lay.sound _ reach.object).tracedSlots_bounds traced
    obtain ⟨o, rfl⟩ : ∃ o, slot = φ h + o := ⟨slot - φ h, by omega⟩
    have source := (iso.slots h before o).mp traced
    exact ⟨_, .field before source, iso.field h before o source⟩

theorem firm (iso : Isomorphic c g g' φ) (lay : Layout c g') (before : Firm c g) : Firm c g' := by
  intro v held inside
  obtain ⟨w, was, ⟨h, object, refers, leads⟩ | ⟨none, -, same⟩⟩ := iso.held lay held
  · have reach := (iso.reach _).mpr ⟨h, was.reach refers object, rfl⟩
    exact ⟨φ h, reach.object, leads⟩
  · subst same
    obtain ⟨h, object, refers⟩ := before v was inside
    exact absurd refers (none h object)

theorem trans {g'' : State} {ψ : Nat → Nat} (first : Isomorphic c g g' φ)
    (second : Isomorphic c g' g'' ψ) : Isomorphic c g g'' (ψ ∘ φ) := by
  have image : ∀ {h}, Reach c g h → Reach c g' (φ h) := fun {h} reach =>
    (first.reach _).mpr ⟨h, reach, rfl⟩
  have total : ∀ {h}, Reach c g h → totalAt g'.mem (φ h) = totalAt g.mem h := fun {h} reach => by
    rw [totalAt, first.size h reach, totalAt]
  -- A word that leads to an object leads to its image, and that to its own.
  have compose : ∀ {v v' v''}, Held c g v → Corresponds c g g' φ v v' →
      Corresponds c g' g'' ψ v' v'' → Corresponds c g g'' (ψ ∘ φ) v v'' := by
    intro v v' v'' held one two
    rcases one with ⟨h, object, refers, leads⟩ | ⟨none, none', same⟩
    · have there := (image (held.reach refers object)).object
      rcases two with ⟨k, -, refers', leads'⟩ | ⟨none, -, -⟩
      · obtain rfl : φ h = k := by omega
        exact .inl ⟨h, object, refers, leads'⟩
      · exact absurd leads (none _ there)
    · subst same
      rcases two with ⟨k, object, refers, -⟩ | ⟨-, none'', same⟩
      · exact absurd refers (none' k object)
      · exact .inr ⟨none, none'', same⟩
  refine { roots := second.roots.trans first.roots, root := fun slot listed => ?_
           reach := fun k => ?_, injective := fun h k one two shared => ?_
           size := fun h reach => ?_, tag := fun h reach => ?_, slots := fun h reach o => ?_
           field := fun h reach o traced => ?_, immediate := fun h reach o low high plain => ?_ }
  · exact compose (.root listed) (first.root slot listed)
      (second.root slot (by rw [first.roots]; exact listed))
  · rw [second.reach k]
    constructor
    · rintro ⟨j, reach, rfl⟩
      obtain ⟨h, before, rfl⟩ := (first.reach j).mp reach
      exact ⟨h, before, rfl⟩
    · rintro ⟨h, before, rfl⟩
      exact ⟨φ h, image before, rfl⟩
  · exact first.injective h k one two
      (second.injective _ _ (image one) (image two) shared)
  · exact (second.size _ (image reach)).trans (first.size h reach)
  · exact (second.tag _ (image reach)).trans (first.tag h reach)
  · exact (second.slots _ (image reach) o).trans (first.slots h reach o)
  · exact compose (.field reach traced) (first.field h reach o traced)
      (second.field _ (image reach) o ((first.slots h reach o).mpr traced))
  · have word := first.immediate h reach o low high plain
    have next := second.immediate _ (image reach) o low (by rw [total reach]; exact high)
    rw [word] at next
    exact next plain

end Isomorphic

/--
A relocation preserves the graph that is reached.

For this all objects that are reached must be kept, no word of them may dangle, and a slot that is
visited more than once must not be redirected again.
-/
theorem Relocation.isomorphic {map : ForwardMap} {dst : Nat → Nat} {kept : Nat → Prop}
    {count : Nat → Nat} (moves : Relocation c g g' map dst kept count) (lay : Layout c g)
    (firm : Firm c g) (blocks : ∀ h ∈ largeObjects g', h ∈ objects c g)
    (fixed : ∀ h ∈ largeObjects g, dst h = h) (keeps : ∀ h, Reach c g h → kept h)
    (rootsOnce : ∀ slot ∈ g.roots,
      (forward map)^[count slot] (g.mem slot) = forward map (g.mem slot))
    (fieldsOnce : ∀ h, Reach c g h → ∀ o, h + o ∈ tracedSlots g.mem h →
      (forward map)^[count (dst h + o)] (g.mem (h + o)) = forward map (g.mem (h + o))) :
    Isomorphic c g g' dst := by
  -- A held word that leads nowhere does not come to lead anywhere.
  have nowhere : ∀ {v}, Held c g v → (∀ h ∈ objects c g, v ≠ h + 48) →
      ∀ h ∈ objects c g', v ≠ h + 48 := by
    intro v held none h object refers
    by_cases large : h ∈ largeObjects g'
    · exact none h (blocks h large) refers
    · have inside := (moves.layout.inSpaces object large).2
      rw [← refers] at inside
      obtain ⟨k, listed, value⟩ := firm v held inside
      exact none k listed value
  have leads : ∀ {v}, Held c g v → Corresponds c g g' dst v (forward map v) := by
    intro v held
    by_cases refers : ∃ h ∈ objects c g, v = h + 48
    · obtain ⟨h, object, rfl⟩ := refers
      exact .inl ⟨h, object, rfl, moves.redirects h object⟩
    · have none : ∀ h ∈ objects c g, v ≠ h + 48 := fun h object value => refers ⟨h, object, value⟩
      exact .inr ⟨none, nowhere held none, moves.ignores v none⟩
  have root : ∀ slot ∈ g.roots, Corresponds c g g' dst (g.mem slot) (g'.mem slot) := by
    intro slot listed
    rw [moves.outside slot (lay.roots slot listed).2, rootsOnce slot listed]
    exact leads (.root listed)
  have field : ∀ h, Reach c g h → ∀ o, h + o ∈ tracedSlots g.mem h →
      Corresponds c g g' dst (g.mem (h + o)) (g'.mem (dst h + o)) := by
    intro h reach o traced
    rw [(moves.slot_word lay reach.object (keeps h reach) traced).1, fieldsOnce h reach o traced]
    exact leads (.field reach traced)
  have slots : ∀ h, Reach c g h → ∀ o,
      dst h + o ∈ tracedSlots g'.mem (dst h) ↔ h + o ∈ tracedSlots g.mem h := by
    intro h reach o
    rw [moves.mem_tracedSlots lay reach.object (keeps h reach)]
    constructor
    · rintro ⟨p, traced, same⟩
      rwa [Nat.add_left_cancel same]
    · exact fun traced => ⟨o, traced, rfl⟩
  have object : ∀ h, Reach c g h → dst h ∈ objects c g' := fun h reach =>
    (moves.object _).mpr ⟨h, reach.object, keeps h reach, rfl⟩
  -- What a word leads to afterwards is the image of what it led to.
  have origin : ∀ {v v' k}, Held c g v → Corresponds c g g' dst v v' → v' = k + 48 →
      k ∈ objects c g' → ∃ h, Reach c g h ∧ dst h = k := by
    rintro v v' k held (⟨h, listed, refers, goal⟩ | ⟨-, none, same⟩) value there
    · exact ⟨h, held.reach refers listed, by omega⟩
    · subst same
      exact absurd value (none k there)
  refine { roots := moves.roots, root, reach := fun k => ⟨fun reach => ?_, ?_⟩
           injective := fun h k one two shared => ?_, size := fun h reach => ?_
           tag := fun h reach => ?_, slots, field
           immediate := fun h reach o low high plain => ?_ }
  · induction reach with
    | @root slot k listed refers there =>
      rw [moves.roots] at listed
      exact origin (.root listed) (root slot listed) refers there
    | @field slot j k before traced refers there ih =>
      obtain ⟨h, reach, rfl⟩ := ih
      obtain ⟨o, source, rfl⟩ := (moves.mem_tracedSlots lay reach.object (keeps h reach)).mp traced
      exact origin (.field reach source) (field h reach o source) refers there
  · rintro ⟨h, reach, rfl⟩
    induction reach with
    | @root slot h listed refers member =>
      have value : g'.mem slot = dst h + 48 := by
        rcases root slot listed with ⟨k, -, refers', goal⟩ | ⟨none, -, -⟩
        · obtain rfl : h = k := by omega
          exact goal
        · exact absurd refers (none h member)
      exact .root (by rw [moves.roots]; exact listed) value
        (object h (.root listed refers member))
    | @field slot h k before traced refers member ih =>
      have bounds := (lay.sound h before.object).tracedSlots_bounds traced
      obtain ⟨o, rfl⟩ : ∃ o, slot = h + o := ⟨slot - h, by omega⟩
      have value : g'.mem (dst h + o) = dst k + 48 := by
        rcases field h before o traced with ⟨j, -, refers', goal⟩ | ⟨none, -, -⟩
        · obtain rfl : k = j := by omega
          exact goal
        · exact absurd refers (none k member)
      exact .field ih ((slots h before o).mpr traced) value
        (object k (.field before traced refers member))
  · exact moves.injective h one.object k two.object (keeps h one) (keeps k two) shared
  · exact moves.size h reach.object (keeps h reach)
  · -- A tag is no address.
    have sound := lay.sound h reach.object
    have room := sound.room
    have small := sound.tag
    have nurseryMapped := c.nurseryMapped
    have tenuredMapped := c.tenuredMapped
    rw [tagAt, moves.cell h reach.object (keeps h reach) 40 (by omega) (by omega)]
    refine (moves.regular.iterate _ _).resolve_right fun both => ?_
    have low := both.1.low
    simp only [tagAt] at small
    omega
  · -- An immediate word is the address of a large object at most, and these stay.
    rw [moves.cell h reach.object (keeps h reach) o (by omega) high]
    refine Function.iterate_fixed ?_ _
    by_cases refers : ∃ k ∈ objects c g, g.mem (h + o) = k + 48
    · obtain ⟨k, member, value⟩ := refers
      have large : k ∈ largeObjects g := by
        by_contra small
        have address := lay.inSpaces member small
        rw [← value] at address
        exact plain address
      rw [value, moves.redirects k member, fixed k large]
    · exact moves.ignores _ fun k member value => refers ⟨k, member, value⟩

end Nytrix.Rt.Gc
