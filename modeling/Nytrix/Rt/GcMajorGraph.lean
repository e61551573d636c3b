import Nytrix.Rt.GcMinorGraph

/-! When a collection of all spaces preserves the graph of objects. -/

namespace Nytrix.Rt.Gc

open Nytrix.Lib

variable {c : Config} {g : State} {h k n t v x : Nat}

open Classical in
/-- What the sweep after a collection of the nursery does with an object of tenured space. -/
noncomputable def oldFate (c : Config) (g : State) (t : Nat) : Fate :=
  if Survives c g t then .stay else .drop

/-- Where the sweep puts an object: after the objects below it that have their mark. -/
noncomputable def sweepLanding (c : Config) (g : State) (t : Nat) : Nat :=
  c.tenuredStart +
    extent (oldFate c g) (totalAt g.mem) .stay ((tenuredObjects c g).filter fun k => k < t)

/--
A slot that the sweep redirects more than once.

It is a root registered again, or a field that comes to lie where a remembered slot was; the
addresses of remembered slots are not updated when the sweep moves the objects.
-/
def Again (c : Config) (g : State) (slot : Nat) : Prop :=
  2 ≤ g.roots.count slot ∨ ∃ h ∈ tenuredObjects c g, Reach c g h ∧ ∃ o, slot = h + o ∧
    slot ∈ tracedSlots g.mem h ∧ ∃ k ∈ tenuredObjects c g,
      sweepLanding c g h + o ∈ tracedSlots g.mem k ∧
      c.nurseryStart + 48 ≤ g.mem (sweepLanding c g h + o) ∧
      g.mem (sweepLanding c g h + o) < c.nurseryLimit + 48

/--
The states in which a collection of all spaces loses nothing that is reached.

What is reached in the nursery stays there, what is reached elsewhere has its mark when the sweeps
begin, and no slot is redirected again.
-/
structure SafeMajor (c : Config) (g : State) : Prop where
  minor : SafeMinor c g
  young : ∀ h ∈ nurseryObjects c g, Reach c g h → ageAt g.mem h + 1 < promotionAge
  tenured : ∀ h ∈ tenuredObjects c g, Reach c g h → Survives c g h
  large : ∀ h ∈ largeObjects g, Reach c g h → Found c g h
  clear : ∀ slot t, Again c g slot → t ∈ tenuredObjects c g → g.mem slot = t + 48 →
    sweepLanding c g t = t ∨
      ¬ (sweepLanding c g t ∈ tenuredObjects c g ∧ Survives c g (sweepLanding c g t))

namespace Intact

variable (intact : Intact c g) (room : minorEnd c g ≤ c.tenuredLimit)
include intact room

theorem afterMinor_tenured : ∃ rest,
    tenuredObjects c (afterMinor c g) = tenuredObjects c g ++ rest ∧
      ∀ k ∈ rest, g.tenuredFree ≤ k := by
  obtain ⟨mem, marked, re, -⟩ := intact.marking
  obtain ⟨lay, -, tenured⟩ := re.layout intact.layout
  have tracked := re.tracked intact.layout intact.tracked
  have nonnull : ∀ slot ∈ ({ g with mem } : State).remembered, slot ≠ 0 := fun slot listed =>
    (tracked.outside lay slot listed).1
  rw [minorEnd, marked] at room
  obtain ⟨after, -, places⟩ := promoted_layout lay room
  have step := promotion lay nonnull room
  have start : Forwarded (moved (survivorMoves c { g with mem })) (promoted c { g with mem }).mem
      (promoted c { g with mem }).mem := fun x => ⟨0, rfl⟩
  have lists := after.forwarded (moved_regular lay room)
    (start.foldl (after.visits_nonnull nonnull))
  refine ⟨Gc.places c { g with mem } .leave, ?_, fun k listed => ?_⟩
  · rw [afterMinor, marked, rebuildRemembered_eq step.layout, ← tenured, ← places]
    exact lists.2.2
  · obtain ⟨n, placed, leaves⟩ := mem_places.mp listed
    rcases (survivorMoves_bounds lay placed).2.2 with ⟨stays, -⟩ | ⟨-, low, -⟩
    · rw [stays] at leaves
      cases leaves
    · exact low

theorem afterMinor_large : largeObjects (afterMinor c g) = largeObjects g := by
  obtain ⟨mem, marked, re, -⟩ := intact.marking
  obtain ⟨lay, -, -⟩ := re.layout intact.layout
  have tracked := re.tracked intact.layout intact.tracked
  rw [minorEnd, marked] at room
  have step := promotion lay (fun slot listed => (tracked.outside lay slot listed).1) room
  rw [afterMinor, marked, rebuildRemembered_eq step.layout]
  rfl

omit room in
/-- An old object is not moved by a collection of the nursery. -/
theorem target_minor_old (old : h ∈ oldObjects c g) :
    target (survivorMoves c (afterMarking c g)) h = h := by
  obtain ⟨mem, marked, re, -⟩ := intact.marking
  obtain ⟨after, -, tenured⟩ := re.layout intact.layout
  rw [marked]
  refine target_old after ?_
  rw [oldObjects, tenured]
  exact old

theorem afterMinor_marked (old : h ∈ oldObjects c g) :
    isMarked (afterMinor c g).mem h = true ↔ Survives c g h := by
  obtain ⟨mem, marked, re, marks⟩ := intact.marking
  obtain ⟨lay, -, tenured⟩ := re.layout intact.layout
  have tracked := re.tracked intact.layout intact.tracked
  have nonnull : ∀ slot ∈ ({ g with mem } : State).remembered, slot ≠ 0 := fun slot listed =>
    (tracked.outside lay slot listed).1
  have old' : h ∈ oldObjects c { g with mem } := by
    rw [oldObjects, tenured]
    exact old
  have member : h ∈ objects c { g with mem } := List.mem_append_right _ old'
  rw [minorEnd, marked] at room
  obtain ⟨after, -, -⟩ := promoted_layout lay room
  have step := promotion lay nonnull room
  have there : h ∈ objects c (promoted c { g with mem }) :=
    (promoted_object_iff lay room h).mpr ⟨h, member, .inl old', target_old lay old'⟩
  -- No slot that is visited is a header.
  have unvisited : h ∉ visits c (promoted c { g with mem }) := by
    intro visited
    simp only [visits, List.mem_append, List.mem_flatMap] at visited
    rcases visited with root | listed | ⟨k, object, traced⟩
    · exact after.outside_not_object (after.roots h root).2 there
    · exact lay.inBody_not_object (tracked.body h listed) member
    · exact tracedSlots_plain after object h traced there
  have word : (afterMinor c g).mem h = mem h := by
    rw [afterMinor, marked, rebuildRemembered_eq step.layout]
    refine (redirected_word after nonnull unvisited).trans ?_
    have long := (lay.sound h member).room
    simpa using promoted_old lay room old' (o := 0) (by omega)
  rw [← (marks h (List.mem_append_right _ old)).1, isMarked_iff, isMarked_iff, word]

theorem afterMinor_total (old : h ∈ oldObjects c g) :
    totalAt (afterMinor c g).mem h = totalAt g.mem h := by
  have moves := intact.minor_relocation room
  have size := moves.size h (List.mem_append_right _ old) (.inl old)
  rw [intact.target_minor_old old] at size
  rw [totalAt, size, totalAt]

theorem sweep_landing (tenured : t ∈ tenuredObjects c g) (survives : Survives c g t) :
    target (sweepMoves c (afterMinor c g)) t = sweepLanding c g t ∧ sweepLanding c g t ≤ t := by
  have after := (intact.minor room).layout
  obtain ⟨rest, list, above⟩ := intact.afterMinor_tenured room
  have old : ∀ {k}, k ∈ tenuredObjects c g → k ∈ oldObjects c g := fun {k} member =>
    List.mem_append_left _ member
  have inside : t ∈ tenuredObjects c (afterMinor c g) := by simp [list, tenured]
  have mark := (intact.afterMinor_marked room (old tenured)).mpr survives
  have stays : sweepFate (afterMinor c g).mem t = .stay := by simp [sweepFate, mark]
  obtain ⟨d, placed⟩ : ∃ d, (t, d) ∈ sweepMoves c (afterMinor c g) :=
    exists_placement inside (by simp [stays])
  have lands : d = sweepLanding c g t := by
    rw [placement_eq_slide after.tenured placed stays, sweepLanding, list, List.filter_append]
    -- What came from the nursery lies above.
    have none : rest.filter (fun k => decide (k < t)) = [] :=
      List.filter_eq_nil_iff.mpr fun k member => by
        have low := above k member
        have bounds := intact.layout.tenured_bounds tenured
        simp
        omega
    rw [none, List.append_nil]
    refine congrArg _ (extent_congr _ (fun k listed => ?_) fun k listed => ?_)
    · have member := old (List.mem_filter.mp listed).1
      have mark := intact.afterMinor_marked room member
      rw [sweepFate, oldFate]
      by_cases survives : Survives c g k
      · rw [if_pos (mark.mpr survives), if_pos survives]
      · rw [if_neg (mt mark.mp survives), if_neg survives]
    · exact intact.afterMinor_total room (old (List.mem_filter.mp listed).1)
  rw [target_of_mem (sweepMoves_nodup after) placed, ← lands]
  exact ⟨rfl, (sweepMoves_bounds after placed).2.2.2.2.1⟩

theorem sweep_once (tenured : t ∈ tenuredObjects c g) (survives : Survives c g t)
    (clear : sweepLanding c g t = t ∨
      ¬ (sweepLanding c g t ∈ tenuredObjects c g ∧ Survives c g (sweepLanding c g t))) :
    forward (moved (sweepMoves c (afterMinor c g))) (sweepLanding c g t + 48) =
      sweepLanding c g t + 48 := by
  have minor := intact.minor room
  have moves := minor.sweep_relocation
  obtain ⟨goal, below⟩ := intact.sweep_landing room tenured survives
  obtain ⟨rest, list, above⟩ := intact.afterMinor_tenured room
  have bounds := intact.layout.tenured_bounds tenured
  have low : c.tenuredStart ≤ sweepLanding c g t := Nat.le_add_right _ _
  rcases clear with still | clear
  · have member : t ∈ objects c (afterMinor c g) := by simp [objects, oldObjects, list, tenured]
    rw [still, moves.redirects t member, goal, still]
  · by_cases other : sweepLanding c g t ∈ tenuredObjects c g
    · -- The object that was there has no mark, so it is not recorded as moved.
      have member : sweepLanding c g t ∈ objects c (afterMinor c g) := by
        simp [objects, oldObjects, list, other]
      have lost : ¬ KeptBySweep c (afterMinor c g) (sweepLanding c g t) := fun keeps => by
        have mark := keeps (by simp [list, other])
        exact clear ⟨other, (intact.afterMinor_marked room (List.mem_append_left _ other)).mp mark⟩
      rw [moves.redirects _ member, moves.dropped _ member lost]
    · -- There was no object, so the address is left alone.
      refine moves.ignores _ fun k member same => ?_
      obtain rfl : sweepLanding c g t = k := by omega
      have spaces := c.apart
      have fits := minor.layout.tenuredFits
      rcases Layout.object_cases member with young | old | large
      · have := minor.layout.nursery_bounds young
        omega
      · rw [list] at old
        rcases List.mem_append.mp old with was | came
        · exact other was
        · have := above _ came
          omega
      · obtain ⟨block, -, positive⟩ := minor.layout.large_bounds large
        have tenured := block.tenured
        simp only [Apart] at tenured
        omega

theorem afterMinor_reach (firm : Firm c g) (safe : SafeMajor c g)
    (reach : Reach c (afterMinor c g) k) :
    (k ∈ nurseryObjects c (afterMinor c g)) ∨
      (k ∈ tenuredObjects c g ∧ Reach c g k ∧ Survives c g k) ∨
      (k ∈ largeObjects g ∧ Reach c g k ∧ Survives c g k) := by
  have iso := intact.minor_isomorphic firm safe.minor room
  obtain ⟨h, before, rfl⟩ := (iso.reach k).mp reach
  rcases Layout.object_cases before.object with young | tenured | large
  · -- It stays in the nursery.
    have found := intact.found_of_reach before young
    have fate : youngFate c g h = .stay := by simp [youngFate, found, safe.young h young before]
    obtain ⟨goal, below⟩ := intact.target_landing young fate
    have bounds := intact.layout.nursery_bounds young
    have low : c.nurseryStart ≤ landing c g h := Nat.le_add_right _ _
    refine .inl ((List.mem_append.mp reach.object).resolve_right fun old => ?_)
    rw [goal] at old
    exact (intact.minor room).layout.old_not_inNursery old ⟨by omega, by omega⟩
  · rw [intact.target_minor_old (List.mem_append_left _ tenured)]
    exact .inr (.inl ⟨tenured, before, safe.tenured h tenured before⟩)
  · rw [intact.target_minor_old (List.mem_append_right _ large)]
    exact .inr (.inr ⟨large, before, .inl (safe.large h large before)⟩)

theorem sweep_roots_count {slot : Nat} (listed : slot ∈ (afterMinor c g).roots) :
    (visits c (swept c (afterMinor c g))).count slot = (afterMinor c g).roots.count slot := by
  have minor := intact.minor room
  obtain ⟨after, -, -⟩ := swept_layout minor.layout
  have notRemembered : slot ∉ (afterMinor c g).remembered := fun member => by
    obtain ⟨h, old, low, high, -⟩ := minor.tracked.body slot member
    have apart := minor.layout.outside_apart (minor.layout.roots slot listed).2
      (List.mem_append_right _ old)
    omega
  have notTraced : slot ∉ (objects c (swept c (afterMinor c g))).flatMap
      (tracedSlots (swept c (afterMinor c g)).mem) := fun member => by
    obtain ⟨h, object, traced⟩ := List.mem_flatMap.mp member
    have bounds := (after.sound h object).tracedSlots_bounds traced
    have apart := after.outside_apart (after.roots slot listed).2 object
    omega
  change ((afterMinor c g).roots ++ ((afterMinor c g).remembered ++ _)).count slot = _
  rw [List.count_append, List.count_append, List.count_eq_zero_of_not_mem notRemembered,
    List.count_eq_zero_of_not_mem notTraced, Nat.add_zero]

theorem sweep_field_count {o : Nat} (member : h ∈ objects c (afterMinor c g))
    (keeps : KeptBySweep c (afterMinor c g) h)
    (traced : h + o ∈ tracedSlots (afterMinor c g).mem h)
    (fresh : target (sweepMoves c (afterMinor c g)) h + o ∉ (afterMinor c g).remembered) :
    (visits c (swept c (afterMinor c g))).count
      (target (sweepMoves c (afterMinor c g)) h + o) = 1 := by
  have minor := intact.minor room
  have moves := minor.sweep_relocation
  obtain ⟨after, -, -⟩ := swept_layout minor.layout
  have visited := (moves.slot_word minor.layout member keeps traced).2
  have there := (moves.object _).mpr ⟨h, member, keeps, rfl⟩
  have slot := (moves.mem_tracedSlots minor.layout member keeps).mpr ⟨o, traced, rfl⟩
  have bounds := (moves.layout.sound _ there).tracedSlots_bounds slot
  have notRoot : target (sweepMoves c (afterMinor c g)) h + o ∉ (afterMinor c g).roots :=
    fun listed => by
      have outside := (moves.layout.roots _ (by rw [moves.roots]; exact listed)).2
      have apart := moves.layout.outside_apart outside there
      omega
  have once := List.nodup_iff_count_le_one.mp after.slots_nodup
    (target (sweepMoves c (afterMinor c g)) h + o)
  change ((afterMinor c g).roots ++ ((afterMinor c g).remembered ++ _)).count _ = 1
  change 0 < ((afterMinor c g).roots ++ ((afterMinor c g).remembered ++ _)).count _ at visited
  rw [List.count_append, List.count_append, List.count_eq_zero_of_not_mem notRoot,
    List.count_eq_zero_of_not_mem fresh] at visited ⊢
  omega

theorem minor_remembered {slot : Nat} (listed : slot ∈ (afterMinor c g).remembered) :
    (∃ k ∈ oldObjects c (afterMinor c g), slot ∈ tracedSlots (afterMinor c g).mem k) ∧
      c.nurseryStart + 48 ≤ (afterMinor c g).mem slot ∧
      (afterMinor c g).mem slot < c.nurseryLimit + 48 := by
  have fits := (intact.minor room).layout.nurseryFits
  have slots : (afterMinor c g).remembered = youngSlots c (afterMinor c g) := by
    obtain ⟨mem, marked, re, -⟩ := intact.marking
    obtain ⟨lay, -, -⟩ := re.layout intact.layout
    have tracked := re.tracked intact.layout intact.tracked
    rw [minorEnd, marked] at room
    have step := promotion lay (fun slot listed => (tracked.outside lay slot listed).1) room
    rw [afterMinor, marked, rebuildRemembered_eq step.layout]
    rfl
  rw [slots] at listed
  obtain ⟨member, points⟩ := List.mem_filter.mp listed
  obtain ⟨k, old, traced⟩ := List.mem_flatMap.mp member
  simp only [slotPointsToNursery, Bool.and_eq_true, decide_eq_true_eq] at points
  simp only [objectDataOffset] at points
  exact ⟨⟨k, old, traced⟩, by omega, by omega⟩

theorem remembered_before {slot : Nat} (listed : slot ∈ (afterMinor c g).remembered)
    (low : c.tenuredStart ≤ slot) (high : slot < g.tenuredFree) :
    ∃ k ∈ tenuredObjects c g, slot ∈ tracedSlots g.mem k ∧
      c.nurseryStart + 48 ≤ g.mem slot ∧ g.mem slot < c.nurseryLimit + 48 := by
  have minor := intact.minor room
  have moves := intact.minor_relocation room
  have tenuredFits := intact.layout.tenuredFits
  obtain ⟨rest, list, above⟩ := intact.afterMinor_tenured room
  obtain ⟨⟨k, old, traced⟩, points⟩ := intact.minor_remembered room listed
  have bounds := (minor.layout.sound k (List.mem_append_right _ old)).tracedSlots_bounds traced
  -- By its address the slot belongs to an object that was in tenured space before.
  have tenured : k ∈ tenuredObjects c g := by
    rcases List.mem_append.mp old with inTenured | large
    · rw [list] at inTenured
      rcases List.mem_append.mp inTenured with was | came
      · exact was
      · have := above k came
        omega
    · have block := (minor.layout.large_bounds large).1.tenured
      simp only [Apart] at block
      omega
  have isOld : k ∈ oldObjects c g := List.mem_append_left _ tenured
  have still := intact.target_minor_old isOld
  have mine : k ∈ objects c g := List.mem_append_right _ isOld
  have traced' : slot ∈ tracedSlots (afterMinor c g).mem
      (target (survivorMoves c (afterMarking c g)) k) := by
    rw [still]
    exact traced
  obtain ⟨o, was, place⟩ := (moves.mem_tracedSlots intact.layout mine (.inl isOld)).mp traced'
  rw [still] at place
  subst place
  have word := (moves.slot_word intact.layout mine (.inl isOld) was).1
  rw [still] at word
  refine ⟨k, tenured, was, ?_⟩
  by_cases refers : ∃ j ∈ objects c g, g.mem (k + o) = j + 48
  · obtain ⟨j, object, value⟩ := refers
    rcases List.mem_append.mp object with young | oldReferent
    · have := intact.layout.nursery_bounds young
      omega
    · -- A reference to an old object is not redirected, so it is the same as after.
      rw [value, Function.iterate_fixed, ← value] at word
      · omega
      · rw [moves.redirects j object, intact.target_minor_old oldReferent]
  · rw [moves.iterate_other fun j object value => refers ⟨j, object, value⟩] at word
    omega

/-- The sweep preserves the graph that is reached. -/
theorem sweep_isomorphic (firm : Firm c g) (safe : SafeMajor c g) :
    Isomorphic c (afterMinor c g) (afterSweep c (afterMinor c g))
      (target (sweepMoves c (afterMinor c g))) := by
  have minor := intact.minor room
  have moves := minor.sweep_relocation
  have iso := intact.minor_isomorphic firm safe.minor room
  have lay := minor.layout
  have firm' := iso.firm lay firm
  have large := intact.afterMinor_large room
  obtain ⟨rest, list, above⟩ := intact.afterMinor_tenured room
  have cases := fun {k} => intact.afterMinor_reach (k := k) room firm safe
  have blocks : largeObjects (afterSweep c (afterMinor c g)) = largeObjects (afterMinor c g) := by
    have step := Gc.sweep lay fun slot listed => (minor.tracked.outside lay slot listed).1
    rw [afterSweep, rebuildRemembered_eq step.layout]
    rfl
  have keeps : ∀ k, Reach c (afterMinor c g) k → KeptBySweep c (afterMinor c g) k := by
    intro k reach tenured
    rcases cases reach with young | ⟨was, -, survives⟩ | ⟨isLarge, -⟩
    · exact absurd tenured (not_tenured lay (.inl young))
    · exact (intact.afterMinor_marked room (List.mem_append_left _ was)).mpr survives
    · exact absurd tenured (not_tenured lay (.inr (large ▸ isLarge)))
  -- A word is redirected once, unless it leads to tenured space.
  have settles : ∀ {v times : Nat}, Held c (afterMinor c g) v → 0 < times →
      (∀ t ∈ tenuredObjects c g, Survives c g t → v = t + 48 → sweepLanding c g t = t ∨
        ¬ (sweepLanding c g t ∈ tenuredObjects c g ∧ Survives c g (sweepLanding c g t))) →
      (forward (moved (sweepMoves c (afterMinor c g))))^[times] v =
        forward (moved (sweepMoves c (afterMinor c g))) v := by
    intro v times held visited clear
    obtain ⟨times, rfl⟩ : ∃ k, times = k + 1 := ⟨times - 1, by omega⟩
    rw [Function.iterate_succ_apply]
    refine Function.iterate_fixed ?_ times
    by_cases refers : ∃ k ∈ objects c (afterMinor c g), v = k + 48
    · obtain ⟨k, object, value⟩ := refers
      have other : k ∉ tenuredObjects c (afterMinor c g) →
          forward (moved (sweepMoves c (afterMinor c g))) v = v := fun outside => by
        rw [value, moves.redirects k object, sweepTarget_other lay outside]
      rcases cases (held.reach value object) with young | ⟨was, -, survives⟩ | ⟨isLarge, -⟩
      · rw [other (not_tenured lay (.inl young)), other (not_tenured lay (.inl young))]
      · rw [value, moves.redirects k object, (intact.sweep_landing room was survives).1]
        exact intact.sweep_once room was survives (clear k was survives value)
      · have outside := not_tenured lay (.inr (large ▸ isLarge))
        rw [other outside, other outside]
    · have none : ∀ k ∈ objects c (afterMinor c g), v ≠ k + 48 := fun k object value =>
        refers ⟨k, object, value⟩
      rw [moves.ignores _ none, moves.ignores _ none]
  -- A word that leads to tenured space afterwards led to the same object before.
  have origin : ∀ {w v t : Nat}, Held c g w → Corresponds c g (afterMinor c g)
      (target (survivorMoves c (afterMarking c g))) w v → t ∈ tenuredObjects c g → v = t + 48 →
      w = t + 48 := by
    rintro w v t held (⟨h, object, refers, goal⟩ | ⟨none, none', same⟩) tenured value
    · have reach := held.reach refers object
      rcases List.mem_append.mp object with young | old
      · -- An object of the nursery stays there.
        have found := intact.found_of_reach reach young
        have fate : youngFate c g h = .stay := by simp [youngFate, found, safe.young h young reach]
        obtain ⟨landed, below⟩ := intact.target_landing young fate
        have bounds := intact.layout.nursery_bounds young
        have bounds' := intact.layout.tenured_bounds tenured
        have low : c.nurseryStart ≤ landing c g h := Nat.le_add_right _ _
        have spaces := c.apart
        omega
      · rw [intact.target_minor_old old] at goal
        omega
    · exact same ▸ value
  refine moves.isomorphic lay firm' (fun h isLarge => ?_) (fun h isLarge => ?_) keeps
    (fun slot listed => ?_) fun h reach o traced => ?_
  · rw [blocks] at isLarge
    exact List.mem_append_right _ (List.mem_append_right _ isLarge)
  · exact sweepTarget_other lay (not_tenured lay (.inr isLarge))
  · have times := intact.sweep_roots_count room listed
    have visited : 0 < (afterMinor c g).roots.count slot := List.count_pos_iff.mpr listed
    by_cases again : 2 ≤ (afterMinor c g).roots.count slot
    · refine settles (.root listed) (by omega) fun t tenured _ value => ?_
      have listed' : slot ∈ g.roots := by rwa [iso.roots] at listed
      have before := origin (.root listed') (iso.root slot listed') tenured value
      exact safe.clear slot t (.inl (by rwa [iso.roots] at again)) tenured before
    · obtain single : (afterMinor c g).roots.count slot = 1 := by omega
      rw [times, single, Function.iterate_one]
  · by_cases stale : target (sweepMoves c (afterMinor c g)) h + o ∈ (afterMinor c g).remembered
    · have visited := (moves.slot_word lay reach.object (keeps h reach) traced).2
      refine settles (.field reach traced) visited fun t tenured survives value => ?_
      have bounds := (lay.sound h reach.object).tracedSlots_bounds traced
      have outside := minor.tracked.outside lay _ stale
      rcases cases reach with young | ⟨was, before, survivesHolder⟩ | ⟨isLarge, before, -⟩
      · -- No remembered slot lies in the nursery.
        have still := sweepTarget_other lay (not_tenured lay (.inl young))
        have inside := lay.nursery_bounds young
        rw [still] at outside
        exact absurd ⟨by omega, by omega⟩ outside.2
      · obtain ⟨goal, below⟩ := intact.sweep_landing room was survivesHolder
        have old : h ∈ oldObjects c g := List.mem_append_left _ was
        have inside := intact.layout.tenured_bounds was
        have total := intact.afterMinor_total room old
        have low : c.tenuredStart ≤ sweepLanding c g h := Nat.le_add_right _ _
        have still := intact.target_minor_old old
        have source : h + o ∈ tracedSlots g.mem h := by
          have slots := (iso.slots h before o).mp
          rw [still] at slots
          exact slots traced
        have word := iso.field h before o source
        rw [still] at word
        have refers := origin (.field before source) word tenured value
        rw [goal] at stale
        obtain ⟨k, other, hit, range⟩ :=
          intact.remembered_before room stale (by omega) (by omega)
        exact safe.clear (h + o) t (.inr ⟨h, was, before, o, rfl, source, k, other, hit, range⟩)
          tenured refers
      · -- A remembered slot of a large object refers to the nursery, not to tenured space.
        have isLarge' : h ∈ largeObjects (afterMinor c g) := large ▸ isLarge
        rw [sweepTarget_other lay (not_tenured lay (.inr isLarge'))] at stale
        have young := (intact.minor_remembered room stale).2
        have bounds := intact.layout.tenured_bounds tenured
        have spaces := c.apart
        omega
    · rw [intact.sweep_field_count room reach.object (keeps h reach) traced stale,
        Function.iterate_one]

theorem afterSweep_large (large : h ∈ largeObjects g) :
    isMarked (afterSweep c (afterMinor c g)).mem h = true ↔ Survives c g h := by
  have minor := intact.minor room
  have lay := minor.layout
  have nonnull : ∀ slot ∈ (afterMinor c g).remembered, slot ≠ 0 := fun slot listed =>
    (minor.tracked.outside lay slot listed).1
  have large' : h ∈ largeObjects (afterMinor c g) := intact.afterMinor_large room ▸ large
  have member : h ∈ objects c (afterMinor c g) := by simp [objects, oldObjects, large']
  have outside := not_tenured lay (.inr large')
  obtain ⟨after, -, -⟩ := swept_layout lay
  have there : h ∈ objects c (swept c (afterMinor c g)) :=
    (swept_object_iff lay h).mpr ⟨h, member, fun tenured => absurd tenured outside,
      sweepTarget_other lay outside⟩
  have unvisited : h ∉ visits c (swept c (afterMinor c g)) := by
    intro visited
    simp only [visits, List.mem_append, List.mem_flatMap] at visited
    rcases visited with root | listed | ⟨k, object, traced⟩
    · exact after.outside_not_object (after.roots h root).2 there
    · exact lay.inBody_not_object (minor.tracked.body h listed) member
    · exact tracedSlots_plain after object h traced there
  have step := Gc.sweep lay nonnull
  have word : (afterSweep c (afterMinor c g)).mem h = (afterMinor c g).mem h := by
    rw [afterSweep, rebuildRemembered_eq step.layout]
    refine (redirected_word after nonnull unvisited).trans ?_
    have long := (lay.sound h member).room
    simpa using swept_other lay member outside (o := 0) (by omega)
  rw [← intact.afterMinor_marked room (List.mem_append_right _ large), isMarked_iff, isMarked_iff,
    word]

theorem major_isomorphic (firm : Firm c g) (safe : SafeMajor c g) :
    Isomorphic c g (afterMajor c g)
      (target (sweepMoves c (afterMinor c g)) ∘ target (survivorMoves c (afterMarking c g))) := by
  have minor := intact.minor room
  have sweep := minor.sweep
  have first := intact.minor_isomorphic firm safe.minor room
  have second := intact.sweep_isomorphic room firm safe
  have both := first.trans second
  have firm' := both.firm sweep.layout firm
  have moves := (sweepLarge_relocation sweep.layout).rebuilt
  have blocks : largeObjects (afterSweep c (afterMinor c g)) = largeObjects g := by
    have step := Gc.sweep minor.layout fun slot listed =>
      (minor.tracked.outside minor.layout slot listed).1
    rw [afterSweep, rebuildRemembered_eq step.layout]
    exact intact.afterMinor_large room
  have third : Isomorphic c (afterSweep c (afterMinor c g)) (afterMajor c g) id := by
    refine moves.isomorphic sweep.layout firm' (fun h large => ?_) (fun _ _ => rfl)
      (fun k reach large => ?_) (fun slot listed => ?_) fun h reach o traced => ?_
    · have step := sweepLarge_relocation sweep.layout
      have fewer : h ∈ largeObjects (Gc.sweepLarge (afterSweep c (afterMinor c g))) := by
        rw [rebuildRemembered_eq step.layout] at large
        exact large
      exact List.mem_append_right _ (List.mem_append_right _
        ((List.filter_sublist.map _).subset fewer))
    · -- A large object that is reached was reached before, and found.
      rw [blocks] at large
      refine (intact.afterSweep_large room large).mpr ?_
      obtain ⟨j, reach', place⟩ := (second.reach k).mp reach
      rcases intact.afterMinor_reach room firm safe reach' with
        young | ⟨was, -, survives⟩ | ⟨isLarge, -, survives⟩
      · have still := sweepTarget_other minor.layout (not_tenured minor.layout (.inl young))
        rw [still] at place
        subst place
        have large' : j ∈ largeObjects (afterMinor c g) := intact.afterMinor_large room ▸ large
        exact absurd (List.mem_append_right _ large') (minor.young_not_old young)
      · have tenured : j ∈ tenuredObjects c (afterMinor c g) := by
          obtain ⟨rest, list, -⟩ := intact.afterMinor_tenured room
          simp [list, was]
        have keeps : KeptBySweep c (afterMinor c g) j := fun _ =>
          (intact.afterMinor_marked room (List.mem_append_left _ was)).mpr survives
        have bounds := sweepTarget_bounds minor.layout tenured keeps
        have long := minor.layout.tenured_bounds tenured
        have large' : k ∈ largeObjects (afterMinor c g) := intact.afterMinor_large room ▸ large
        obtain ⟨block, -, positive⟩ := minor.layout.large_bounds large'
        have apart := block.tenured
        simp only [Apart] at apart
        omega
      · have large' : j ∈ largeObjects (afterMinor c g) := intact.afterMinor_large room ▸ isLarge
        rw [sweepTarget_other minor.layout (not_tenured minor.layout (.inr large'))] at place
        exact place ▸ survives
    · rw [Function.iterate_one]
    · rw [Function.iterate_one]
  exact both.trans third

end Intact

/-- The steps of a run of which every collection is safe. -/
def SafeRun (c : Config) (g : State) (op : Op) : Prop :=
  Legal c g op ∧ Careful c g op ∧ Orderly c (SafeMajor c) g op

/-- In every state of such a run a collection of all spaces preserves the graph, where it is safe. -/
theorem major_preserves_graph (reached : Reachable c (SafeRun c) g) (safe : SafeMajor c g)
    (room : minorEnd c g ≤ c.tenuredLimit) :
    ∃ g' φ, majorCollect c g = some g' ∧ Isomorphic c g g' φ := by
  have steps : Reachable c
    (fun g op => Legal c g op ∧ Careful c g op ∧ Orderly c (SafeMajor c) g op) g := reached
  obtain ⟨intact, firm⟩ := steps.firm fun g intact firm safe room =>
    (intact.major_isomorphic room firm safe).firm (intact.major room).layout firm
  exact ⟨_, _, by rw [intact.majorCollect_eq, if_pos room],
    intact.major_isomorphic room firm safe⟩

theorem safeMajor_of_single (roots : g.roots = [x]) (refers : g.mem x = t + 48)
    (young : nurseryObjects c g = []) (tenured : tenuredObjects c g = [t])
    (large : largeObjects g = [])
    (plain : ∀ slot ∈ tracedSlots g.mem t, g.mem slot < c.nurseryStart + 48) : SafeMajor c g := by
  have found : Found c g t :=
    .start (show x ∈ g.roots ++ g.remembered by simp [roots]) refers (.inr (.inl (by simp [tenured])))
  refine ⟨fun slot n _ member => ?_, fun h member => ?_, fun h member _ => ?_, fun h member => ?_,
    fun slot n again member => ?_⟩
  · simp [young] at member
  · simp [young] at member
  · obtain rfl : h = t := by simpa [tenured] using member
    exact .inl found
  · simp [large] at member
  · -- The root is registered once, and no slot refers to the nursery.
    rcases again with twice | ⟨h, holder, -, o, -, -, k, other, hit, range, -⟩
    · have once : List.count slot [x] ≤ 1 := List.count_le_length
      rw [roots] at twice
      omega
    · obtain rfl : k = t := by simpa [tenured] using other
      have below := plain _ hit
      omega

set_option maxRecDepth 100000 in
/-- A list that has become tenured survives a collection of all spaces. -/
theorem major_preserves_graph_run : ∃ g g' φ, majorCollect smallConfig g = some g' ∧
    Isomorphic smallConfig g g' φ ∧ g'.mem 0x8000 = 0x200030 := by
  obtain ⟨g, reached, roots, refers, young, tenured, large, plain, room, after⟩ :=
    reachable_of_run smallConfig
    (fun g op => Legal smallConfig g op ∧ Careful smallConfig g op ∧
      Gentle smallConfig g op)
    (fun g => g.roots = [0x8000] ∧ g.mem 0x8000 = 0x200000 + 48 ∧
      nurseryObjects smallConfig g = [] ∧ tenuredObjects smallConfig g = [0x200000] ∧
      largeObjects g = [] ∧ (∀ slot ∈ tracedSlots g.mem 0x200000,
        g.mem slot < smallConfig.nurseryStart + 48) ∧
      minorEnd smallConfig g ≤ smallConfig.tenuredLimit ∧
      ∀ g' ∈ majorCollect smallConfig g, g'.mem 0x8000 = 0x200030) (fun _ => 0)
    [.addRoot 0x8000, .alloc .fast 24 tagList none, .store 0x8000 0x100030, .store 0x100030 3,
      .minor, .minor, .minor] (by decide +kernel)
  obtain ⟨g', φ, taken, iso⟩ := major_preserves_graph
    (reached.mono fun _ _ ⟨legal, careful, gentle⟩ => ⟨legal, careful, gentle.orderly⟩)
    (safeMajor_of_single roots refers young tenured large plain) room
  exact ⟨g, g', φ, taken, iso, after g' taken⟩

set_option maxRecDepth 100000 in
/-- An object that a collection of all spaces promotes is swept by it, though a root holds it. -/
theorem not_major_preserves_graph : ∃ g,
    Reachable smallConfig (fun g op => Legal smallConfig g op ∧ Careful smallConfig g op) g ∧
    minorEnd smallConfig g ≤ smallConfig.tenuredLimit ∧
    ¬ ∃ g' φ, majorCollect smallConfig g = some g' ∧ Isomorphic smallConfig g g' φ := by
  obtain ⟨g, reached, room, roots, refers, object, after⟩ := reachable_of_run smallConfig
    (fun g op => Legal smallConfig g op ∧ Careful smallConfig g op)
    (fun g => minorEnd smallConfig g ≤ smallConfig.tenuredLimit ∧ g.roots = [0x8000] ∧
      g.mem 0x8000 = 0x100000 + 48 ∧ 0x100000 ∈ objects smallConfig g ∧
      ∀ g' ∈ majorCollect smallConfig g, objects smallConfig g' = []) (fun _ => 0)
    [.addRoot 0x8000, .alloc .plain 24 tagList none, .store 0x8000 0x100030, .minor, .minor]
    (by decide +kernel)
  refine ⟨g, reached, room, ?_⟩
  rintro ⟨g', φ, taken, iso⟩
  have reach : Reach smallConfig g 0x100000 := .root (by simp [roots]) refers object
  have there := ((iso.reach _).mpr ⟨_, reach, rfl⟩).object
  rw [after g' taken] at there
  cases there

end Nytrix.Rt.Gc
