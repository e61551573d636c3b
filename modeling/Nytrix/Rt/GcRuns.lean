import Nytrix.Rt.GcMutating

/-! Runs of a program with the collector, and the generational invariant along them. -/

namespace Nytrix.Rt.Gc

open Nytrix.Lib

variable {c : Config} {g : State} {h v x : Nat}

/-- The ways into the allocator. -/
inductive Entry
  | plain
  | fast
  | slow
  deriving DecidableEq

/-- What a program does with the collector. -/
inductive Op
  | alloc (entry : Entry) (size tag : Nat) (block : Option Nat)
  | store (slot value : Nat)
  | addRoot (slot : Nat)
  | removeRoot (slot : Nat)
  | minor
  | major
  deriving DecidableEq

/-- Allocates through one of the entries. -/
def allocate (c : Config) (g : State) (size : Nat) (block : Option Nat) :
    Entry → Option (State × Nat)
  | .plain => alloc c g size block
  | .fast => some (allocFast c g size block)
  | .slow => allocSlow c g size block

/-- The maker of an object writes its tag, in the last word before the body. -/
def withTag (r : State × Nat) (tag : Nat) : State :=
  if r.2 = 0 then r.1 else { r.1 with mem := r.1.mem.store (r.2 - 8) tag }

/-- One operation; none is the fatal error of a collection without room in tenured space. -/
def step (c : Config) (g : State) : Op → Option State
  | .alloc entry size tag block => (allocate c g size block entry).map (withTag · tag)
  | .store slot value => some (writeBarrier c g slot value)
  | .addRoot slot => some (addRoot g slot)
  | .removeRoot slot => some (removeRoot g slot)
  | .minor => minorCollect c g
  | .major => majorCollect c g

/--
What the callers and the C allocator promise.

Tags are those of the runtime, blocks are fresh, stores go to objects or to memory outside the
collector, and root slots lie outside.
-/
def Legal (c : Config) (g : State) : Op → Prop
  | .alloc _ size tag block => tag < 0x1000 ∧ ∀ h ∈ block, FreshBlock c g ⟨h, allocSize size⟩
  | .store slot _ => slot = 0 ∨ Writable c g slot
  | .addRoot slot => slot = 0 ∨ Outside c g slot ∧ slot % 8 = 0
  | .removeRoot _ => True
  | .minor => True
  | .major => True

/--
The operations after which the collector keeps its promises.

A size stays below the addresses of the spaces, or is refused by the C allocator; a store makes no
reference to the nursery that the barrier does not notice.
-/
def Careful (c : Config) (g : State) : Op → Prop
  | .alloc _ size _ block => size < c.nurseryStart ∧ size < c.tenuredStart ∨
      c.largeThreshold ≤ allocSize size ∧ block = none
  | .store slot value => slot = 0 ∨ Announced c g slot value
  | .addRoot _ => True
  | .removeRoot _ => True
  | .minor => True
  | .major => True

/-- The states reached by runs of which every step is allowed. -/
inductive Reachable (c : Config) (allowed : State → Op → Prop) : State → Prop
  | start (mem : Memory) : Reachable c allowed (init c mem)
  | step {g g' : State} {op : Op} (before : Reachable c allowed g) (may : allowed g op)
      (taken : step c g op = some g') : Reachable c allowed g'

theorem Reachable.invariant {allowed : State → Op → Prop} (holds : State → Prop)
    (start : ∀ mem, holds (init c mem))
    (keeps : ∀ g op g', holds g → allowed g op → Gc.step c g op = some g' → holds g')
    (reached : Reachable c allowed g) : holds g := by
  induction reached with
  | start mem => exact start mem
  | step _ may taken ih => exact keeps _ _ _ ih may taken

theorem intact_init (c : Config) (mem : Memory) : Intact c (init c mem) := by
  have nursery : Tiled (totalAt mem) c.nurseryStart c.nurseryStart [] := .nil _
  have tenured : Tiled (totalAt mem) c.tenuredStart c.tenuredStart [] := .nil _
  have young : nurseryObjects c (init c mem) = [] := nurseryObjects_eq nursery
  have old : oldObjects c (init c mem) = [] := by
    rw [oldObjects, tenuredObjects_eq (g := init c mem) tenured]
    rfl
  have none : objects c (init c mem) = [] := by rw [objects, young, old]; rfl
  have nurseryRoom := c.nurseryRoom
  have tenuredRoom := c.tenuredRoom
  refine ⟨⟨young ▸ nursery, ?_, ?_, ?_, ?_, .nil, ?_, ?_, ?_⟩, ⟨?_, .nil⟩, ?_, ?_, ?_⟩
  · change c.nurseryStart ≤ c.nurseryLimit
    omega
  · rw [tenuredObjects_eq (g := init c mem) tenured]
    exact tenured
  · change c.tenuredStart ≤ c.tenuredLimit
    omega
  · exact fun l listed => absurd listed (by simp [init])
  · simp [none]
  · simp [none]
  · exact fun slot listed => absurd listed (by simp [init])
  · exact fun slot listed => absurd listed (by simp [init])
  · simp [young]
  · simp [Settled, none]
  · simp [Complete, old]

section Allocating

variable {size tag : Nat} (modest : Modest c size tag)
include modest

theorem allocFastUnlocked_intact (intact : Intact c g) {r : State × Nat}
    (made : allocFastUnlocked c g size = some r) : Intact c (withTag r tag) := by
  rw [allocFastUnlocked] at made
  split at made
  · cases made
  · cases made
    exact (extended_nursery intact.layout modest (by omega)).intact intact

theorem allocTenuredUnlocked_intact (intact : Intact c g) {r : State × Nat}
    (made : allocTenuredUnlocked c g size = some r) : Intact c (withTag r tag) := by
  rw [allocTenuredUnlocked] at made
  split at made
  · cases made
  · cases made
    exact (extended_tenured intact.layout modest (by omega)).intact intact

theorem allocLargeUnlocked_intact (intact : Intact c g) {block : Option Nat}
    (fresh : ∀ h ∈ block, FreshBlock c g ⟨h, allocSize size⟩) :
    Intact c (withTag (allocLargeUnlocked g size block) tag) := by
  cases block with
  | none => exact intact
  | some h => exact (extended_large intact.layout modest (fresh h rfl)).intact intact

theorem allocOld_intact (intact : Intact c g) {r : State × Nat} (made : allocOld c g size = some r) :
    Intact c (withTag r tag) := by
  rw [allocOld] at made
  split at made
  · rename_i direct
    cases made
    exact allocTenuredUnlocked_intact modest intact direct
  · rw [intact.majorCollect_eq] at made
    split at made
    · rename_i room
      have after := intact.major room
      cases made
      cases again : allocTenuredUnlocked c (afterMajor c g) size with
      | none => exact after
      | some r => exact allocTenuredUnlocked_intact modest after again
    · cases made

theorem allocate_intact (intact : Intact c g) {block : Option Nat}
    (fresh : ∀ h ∈ block, FreshBlock c g ⟨h, allocSize size⟩) {entry : Entry} {r : State × Nat}
    (made : allocate c g size block entry = some r) : Intact c (withTag r tag) := by
  have large := allocLargeUnlocked_intact modest intact fresh
  have slow : ∀ r, allocSlow c g size block = some r → Intact c (withTag r tag) := by
    intro r made
    rw [allocSlow] at made
    split at made
    · cases made
      exact large
    · -- The nursery is collected first, and tenured space is the last resort.
      rw [intact.minorCollect_eq] at made
      split at made
      · rename_i room
        have after := intact.minor room
        simp only [Option.bind_eq_bind, Option.bind_some] at made
        split at made
        · rename_i direct
          cases made
          exact allocFastUnlocked_intact modest after direct
        · exact allocOld_intact modest after made
      · cases made
  cases entry with
  | plain =>
    rw [allocate, alloc] at made
    split at made
    · cases made
      exact large
    · split at made
      · rename_i direct
        cases made
        exact allocFastUnlocked_intact modest intact direct
      · exact slow r made
  | fast =>
    rw [allocate, allocFast] at made
    cases made
    split
    · exact large
    · cases direct : allocFastUnlocked c g size with
      | none => exact intact
      | some r => exact allocFastUnlocked_intact modest intact direct
  | slow => exact slow r made

end Allocating

theorem allocate_refused {size : Nat} (large : c.largeThreshold ≤ allocSize size) (entry : Entry) :
    allocate c g size none entry = some (g, 0) := by
  cases entry with
  | plain => rw [allocate, alloc, if_pos large]; rfl
  | fast => rw [allocate, allocFast, if_pos large]; rfl
  | slow => rw [allocate, allocSlow, if_pos large]; rfl

theorem step_intact {op : Op} {g' : State} (intact : Intact c g) (legal : Legal c g op)
    (careful : Careful c g op) (taken : step c g op = some g') : Intact c g' := by
  cases op with
  | alloc entry size tag block =>
    obtain ⟨r, made, rfl⟩ := Option.map_eq_some_iff.mp taken
    rcases careful with below | ⟨large, refused⟩
    · exact allocate_intact ⟨below.1, below.2, legal.1⟩ intact legal.2 made
    · subst refused
      rw [allocate_refused large] at made
      cases made
      exact intact
  | store slot value =>
    cases taken
    by_cases null : slot = 0
    · rw [writeBarrier, if_pos null]
      exact intact
    · exact store_intact intact (legal.resolve_left null) (careful.resolve_left null) null
  | addRoot slot =>
    cases taken
    exact intact.addRoot fun nonnull => (legal.resolve_left nonnull).1
  | removeRoot slot =>
    cases taken
    exact intact.removeRoot slot
  | minor =>
    rw [step, intact.minorCollect_eq] at taken
    split at taken
    · rename_i room
      cases taken
      exact intact.minor room
    · cases taken
  | major =>
    rw [step, intact.majorCollect_eq] at taken
    split at taken
    · rename_i room
      cases taken
      exact intact.major room
    · cases taken

theorem Reachable.intact (reached : Reachable c (fun g op => Legal c g op ∧ Careful c g op) g) :
    Intact c g :=
  reached.invariant (Intact c) (intact_init c) fun _ _ _ intact may taken =>
    step_intact intact may.1 may.2 taken

theorem validateWalk_of_tiled {mem : Memory} {p stop fuel : Nat} {hs : List Nat}
    (tiled : Tiled (totalAt mem) p stop hs) (sound : ∀ h ∈ hs, Sound mem h)
    (enough : stop - p ≤ fuel) : validateWalk mem stop fuel p = true := by
  induction tiled generalizing fuel with
  | nil p => cases fuel <;> simp [validateWalk]
  | @cons p stop rest positive more ih =>
    have ends := more.le
    have first := sound p (by simp)
    have room := first.room
    have body := bodySize_eq first.size
    obtain ⟨fuel, rfl⟩ : ∃ k, fuel = k + 1 := ⟨fuel - 1, by omega⟩
    rw [validateWalk, if_pos (by omega),
      ih (fun h later => sound h (by simp [later])) (by omega)]
    simp only [Bool.and_true, Bool.and_eq_true, decide_eq_true_eq]
    simp only [objectDataOffset, first.magic, first.slack, body]
    refine ⟨⟨⟨⟨?_, ?_⟩, ?_⟩, trivial⟩, ?_⟩ <;> omega

theorem Intact.validate (intact : Intact c g) : validate c g = true := by
  have lay := intact.layout
  have nursery := validateWalk_of_tiled lay.nursery
    (fun h member => lay.sound h (List.mem_append_left _ member)) (Nat.le_refl _)
  have tenured := validateWalk_of_tiled lay.tenured
    (fun h member => lay.sound h (by simp [objects, oldObjects, member])) (Nat.le_refl _)
  simp only [Gc.validate, validateSpace, nursery, tenured, lay.nursery.le, lay.nurseryFits,
    lay.tenured.le, lay.tenuredFits, decide_true, Bool.and_self, Bool.or_true, Bool.true_and,
    Bool.and_eq_true, List.all_eq_true, decide_eq_true_eq]
  refine ⟨fun slot listed => by simpa using (lay.roots slot listed).1, fun slot listed => ?_⟩
  -- A remembered slot is a word of an object, so it is in a large block or in tenured space.
  obtain ⟨h, old, low, high, -⟩ := intact.tracked.body slot listed
  refine ⟨by simpa using fun null => by omega, ?_⟩
  rcases List.mem_append.mp old with inTenured | large
  · have bounds := lay.tenured_bounds inTenured
    have inside : c.tenuredStart ≤ slot ∧ slot < g.tenuredFree := by omega
    simp [inside]
  · have block := (lay.large_bounds large).2.1
    simp only [Bool.or_eq_true, List.any_eq_true, Bool.and_eq_true, decide_eq_true_eq]
    exact .inl ⟨_, block, by dsimp only; omega⟩

/--
The generational invariant.

The walks over both spaces end where the spaces end and the validator finds nothing wrong; every
reference from an old object to the nursery is remembered; and what is remembered is a word of an
old object, listed once.
-/
structure Generational (c : Config) (g : State) : Prop where
  nurseryWalk : Tiled (totalAt g.mem) c.nurseryStart g.nurseryPtr (nurseryObjects c g)
  tenuredWalk : Tiled (totalAt g.mem) c.tenuredStart g.tenuredFree (tenuredObjects c g)
  valid : validate c g = true
  remembers : ∀ h ∈ oldObjects c g, ∀ slot ∈ tracedSlots g.mem h, ∀ k ∈ nurseryObjects c g,
    g.mem slot = objPtr k → slot ∈ g.remembered
  inside : ∀ slot ∈ g.remembered, InBody g.mem (oldObjects c g) slot
  once : g.remembered.Nodup

/-- In every state of a run of legal and careful steps the generational invariant holds. -/
theorem generational_of_reachable
    (reached : Reachable c (fun g op => Legal c g op ∧ Careful c g op) g) : Generational c g := by
  have intact := reached.intact
  exact { nurseryWalk := intact.layout.nursery, tenuredWalk := intact.layout.tenured
          valid := intact.validate
          remembers := fun h old slot traced k young refers =>
            intact.complete h old slot traced k young refers
          inside := intact.tracked.body, once := intact.tracked.once }

section Deciding

instance : Decidable (InNursery c v) := inferInstanceAs (Decidable (_ ∧ _))

instance {a m b n : Nat} : Decidable (Apart a m b n) := inferInstanceAs (Decidable (_ ∨ _))

instance : Decidable (Outside c g x) := inferInstanceAs (Decidable (_ ∧ _ ∧ _))

instance {mem : Memory} {hs : List Nat} : Decidable (InBody mem hs x) :=
  inferInstanceAs (Decidable (∃ h ∈ hs, _))

instance : Decidable (Writable c g x) := inferInstanceAs (Decidable (_ ∨ _ ∧ _))

instance {slot : Nat} : Decidable (Uncovered g slot h x) := inferInstanceAs (Decidable (_ ∨ _))

instance {l : Large} : Decidable (Block c l) :=
  decidable_of_iff (l.header % 16 = 0 ∧ 0x1000 < l.header ∧ l.header + l.total ≤ 2 ^ 47 ∧
      Apart l.header l.total c.nurseryStart (c.nurseryLimit - c.nurseryStart) ∧
      Apart l.header l.total c.tenuredStart (c.tenuredLimit - c.tenuredStart))
    ⟨fun ⟨a, m, u, n, t⟩ => ⟨a, m, u, n, t⟩, fun ⟨a, m, u, n, t⟩ => ⟨a, m, u, n, t⟩⟩

instance {l : Large} : Decidable (FreshBlock c g l) :=
  decidable_of_iff (Block c l ∧ (∀ k ∈ g.large, Apart l.header l.total k.header k.total) ∧
      ∀ slot ∈ g.roots, ¬ (l.header ≤ slot ∧ slot < l.header + l.total))
    ⟨fun ⟨b, a, r⟩ => ⟨b, a, r⟩, fun ⟨b, a, r⟩ => ⟨b, a, r⟩⟩

instance {slot value : Nat} : Decidable (Announced c g slot value) :=
  decidable_of_iff ((InBody g.mem (objects c g) slot → value ≠ magic1) ∧
      (∀ h ∈ objects c g, ∀ s ∈ tracedSlots (g.mem.store slot value) h, Uncovered g slot h s →
        InNursery c (g.mem.store slot value s) →
          ∃ k ∈ nurseryObjects c g, g.mem.store slot value s = k + 48) ∧
      ∀ h ∈ oldObjects c g, ∀ s ∈ tracedSlots (g.mem.store slot value) h, Uncovered g slot h s →
        InNursery c (g.mem.store slot value s) →
          s ∈ g.remembered ∨ s = slot ∧ value ≠ g.nurseryPtr)
    ⟨fun ⟨p, s, n⟩ => ⟨p, s, n⟩, fun ⟨p, s, n⟩ => ⟨p, s, n⟩⟩

instance decidableLegal : (op : Op) → Decidable (Legal c g op)
  | .alloc _ size tag none => decidable_of_iff (tag < 0x1000) (by simp [Legal])
  | .alloc _ size tag (some h) =>
    decidable_of_iff (tag < 0x1000 ∧ FreshBlock c g ⟨h, allocSize size⟩) (by simp [Legal])
  | .store slot _ => inferInstanceAs (Decidable (slot = 0 ∨ Writable c g slot))
  | .addRoot slot => inferInstanceAs (Decidable (slot = 0 ∨ Outside c g slot ∧ slot % 8 = 0))
  | .removeRoot _ => .isTrue trivial
  | .minor => .isTrue trivial
  | .major => .isTrue trivial

instance decidableCareful : (op : Op) → Decidable (Careful c g op)
  | .alloc _ size _ block => inferInstanceAs (Decidable (size < c.nurseryStart ∧
      size < c.tenuredStart ∨ c.largeThreshold ≤ allocSize size ∧ block = none))
  | .store slot value => inferInstanceAs (Decidable (slot = 0 ∨ Announced c g slot value))
  | .addRoot _ => .isTrue trivial
  | .removeRoot _ => .isTrue trivial
  | .minor => .isTrue trivial
  | .major => .isTrue trivial

end Deciding

/-- Runs operations while they are allowed. -/
def run (c : Config) (allowed : State → Op → Prop) [∀ g op, Decidable (allowed g op)] :
    List Op → State → Option State
  | [], g => some g
  | op :: ops, g => if allowed g op then (step c g op).bind (run c allowed ops) else none

theorem Reachable.run {allowed : State → Op → Prop} [∀ g op, Decidable (allowed g op)]
    {ops : List Op} {g' : State} (before : Reachable c allowed g)
    (ran : Gc.run c allowed ops g = some g') : Reachable c allowed g' := by
  induction ops generalizing g with
  | nil =>
    cases ran
    exact before
  | cons op ops ih =>
    rw [Gc.run] at ran
    split at ran
    · rename_i may
      obtain ⟨s, taken, rest⟩ := Option.bind_eq_some_iff.mp ran
      exact ih (.step before may taken) rest
    · cases ran

theorem reachable_of_run (c : Config) (allowed : State → Op → Prop)
    [∀ g op, Decidable (allowed g op)] (holds : State → Prop) [DecidablePred holds]
    (mem : Memory) (ops : List Op)
    (ran : (run c allowed ops (init c mem)).any (fun g => holds g) = true) :
    ∃ g, Reachable c allowed g ∧ holds g := by
  cases result : run c allowed ops (init c mem) with
  | none => simp [result] at ran
  | some g =>
    rw [result, Option.any_some, decide_eq_true_eq] at ran
    exact ⟨g, (Reachable.start mem).run result, ran⟩

/-- Spaces of the least size, at addresses that are easy to read. -/
def smallConfig : Config where
  nurseryStart := 0x100000
  nurseryLimit := 0x110000
  tenuredStart := 0x200000
  tenuredLimit := 0x240000
  largeThreshold := 0x4000
  nurseryAligned := by decide
  tenuredAligned := by decide
  nurseryRoom := by decide
  tenuredRoom := by decide
  nurseryMapped := by decide
  tenuredMapped := by decide
  nurseryUser := by decide
  tenuredUser := by decide
  apart := by decide

/-- A list of one element that is held by a root and has survived until it is tenured. -/
def tenuredList : List Op :=
  [.addRoot 0x8000, .alloc .plain 24 tagList none, .store 0x8000 0x100030, .store 0x100030 3,
    .minor, .minor, .minor]

set_option maxRecDepth 100000 in
/-- The list is tenured, a young object is stored in it and survives a collection. -/
theorem generational_run : ∃ g, Generational smallConfig g ∧
    g.remembered = [0x200040] ∧ g.mem 0x200040 = 0x100030 := by
  obtain ⟨g, reached, facts⟩ := reachable_of_run smallConfig
    (fun g op => Legal smallConfig g op ∧ Careful smallConfig g op)
    (fun g => g.remembered = [0x200040] ∧ g.mem 0x200040 = 0x100030) (fun _ => 0)
    (tenuredList ++ [.alloc .slow 24 tagTuple none, .alloc .fast 16 tagOk none,
      .store 0x200040 0x100080, .minor, .alloc .plain 0x8000 tagDict (some 0x300000)])
    (by decide +kernel)
  exact ⟨g, generational_of_reachable reached, facts⟩

set_option maxRecDepth 100000 in
/-- An object without a body that is the last of the nursery is not noticed by the barrier. -/
theorem not_generational_empty_object :
    ∃ g, Reachable smallConfig (Legal smallConfig) g ∧ ¬ Generational smallConfig g := by
  obtain ⟨g, reached, old, slot, young, refers, forgotten⟩ := reachable_of_run smallConfig
    (Legal smallConfig)
    (fun g => 0x200000 ∈ oldObjects smallConfig g ∧
      0x200040 ∈ tracedSlots g.mem 0x200000 ∧ 0x100000 ∈ nurseryObjects smallConfig g ∧
      g.mem 0x200040 = objPtr 0x100000 ∧ 0x200040 ∉ g.remembered) (fun _ => 0)
    (tenuredList ++ [.alloc .plain 0 tagOk none, .store 0x200040 0x100030]) (by decide +kernel)
  exact ⟨g, reached, fun inv => forgotten (inv.remembers _ old _ slot _ young refers)⟩

end Nytrix.Rt.Gc
