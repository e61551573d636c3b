import Nytrix.Rt.GcGraph

/-! When a collection of the nursery preserves the graph of objects. -/

namespace Nytrix.Rt.Gc

open Nytrix.Lib

variable {c : Config} {g : State} {h k n v x : Nat}

open Classical in
/-- What a collection of the nursery does with an object of it. -/
noncomputable def youngFate (c : Config) (g : State) (n : Nat) : Fate :=
  if Found c g n then if ageAt g.mem n + 1 < promotionAge then .stay else .leave else .drop

/-- Where an object goes that stays: after the objects below it that are found and stay too. -/
noncomputable def landing (c : Config) (g : State) (n : Nat) : Nat :=
  c.nurseryStart +
    extent (youngFate c g) (totalAt g.mem) .stay ((nurseryObjects c g).filter fun k => k < n)

/-- A slot that a collection visits more than once: a root registered again, or an old field. -/
def Twice (c : Config) (g : State) (slot : Nat) : Prop :=
  2 ≤ g.roots.count slot ∨ ∃ h ∈ oldObjects c g, Reach c g h ∧ slot ∈ tracedSlots g.mem h

/--
No slot that is visited more than once is redirected again.

The object it refers to does not go where another object was that is found as well.
-/
def SafeMinor (c : Config) (g : State) : Prop :=
  ∀ slot n, Twice c g slot → n ∈ nurseryObjects c g → g.mem slot = n + 48 →
    ageAt g.mem n + 1 < promotionAge →
      landing c g n = n ∨ ¬ (landing c g n ∈ nurseryObjects c g ∧ Found c g (landing c g n))

namespace Intact

variable (intact : Intact c g)
include intact

theorem young_not_old (young : n ∈ nurseryObjects c g) : n ∉ oldObjects c g := fun old =>
  (List.nodup_append.mp intact.layout.nodup).2.2 n young n old rfl

theorem survives_young (young : n ∈ nurseryObjects c g) : Survives c g n ↔ Found c g n :=
  ⟨fun survives => survives.resolve_right fun stops =>
    intact.young_not_old young (List.mem_append_left _ stops.1), .inl⟩

theorem found_of_reach (reach : Reach c g n) : n ∈ nurseryObjects c g → Found c g n := by
  induction reach with
  | root listed refers _ =>
    exact fun young => .start (List.mem_append_left _ listed) refers (.inl young)
  | @field slot h k before traced refers _ ih =>
    intro young
    rcases List.mem_append.mp before.object with inNursery | old
    · -- Marking goes on at an object of the nursery.
      have passes : ¬ Stops c g h := fun stops =>
        intact.young_not_old inNursery (List.mem_append_left _ stops.1)
      exact .field (ih inNursery) passes traced refers (.inl young)
    · -- The slots of old objects that refer to the nursery are remembered.
      have listed := intact.complete h old slot traced k young refers
      exact .start (List.mem_append_right _ listed) refers (.inl young)

theorem kept_of_reach (reach : Reach c g h) : KeptByMinor c g h :=
  (List.mem_append.mp reach.object).elim
    (fun young => .inr (.inl (intact.found_of_reach reach young))) .inl

theorem fateAt_afterMarking (young : n ∈ nurseryObjects c g) :
    fateAt (afterMarking c g).mem n = youngFate c g n := by
  obtain ⟨mem, marked, -, marks⟩ := intact.marking
  obtain ⟨mark, age⟩ := marks n (List.mem_append_left _ young)
  rw [intact.survives_young young] at mark
  rw [marked, fateAt, youngFate, age]
  by_cases found : Found c g n
  · rw [if_pos (mark.mpr found), if_pos found]
  · rw [if_neg (mt mark.mp found), if_neg found]

theorem target_landing (young : n ∈ nurseryObjects c g) (stays : youngFate c g n = .stay) :
    target (survivorMoves c (afterMarking c g)) n = landing c g n ∧ landing c g n ≤ n := by
  have fates := fun {k} => intact.fateAt_afterMarking (n := k)
  obtain ⟨mem, marked, re, -⟩ := intact.marking
  obtain ⟨lay, nursery, -⟩ := re.layout intact.layout
  rw [marked] at fates ⊢
  have inside : n ∈ nurseryObjects c { g with mem } := nursery ▸ young
  have stays' : fateAt mem n = .stay := (fates young).trans stays
  obtain ⟨d, placed⟩ : ∃ d, (n, d) ∈ survivorMoves c { g with mem } :=
    exists_placement inside (by simp [stays'])
  have lands : d = landing c g n := by
    rw [placement_eq_slide lay.nursery placed stays', landing, nursery]
    -- The marks and the lengths are those of the state before.
    refine congrArg _ (extent_congr _ (fun k listed => ?_) fun k listed => ?_)
    · exact fates (List.mem_filter.mp listed).1
    · have member : k ∈ objects c g := List.mem_append_left _ (List.mem_filter.mp listed).1
      change totalAt mem k = totalAt g.mem k
      rw [totalAt, (re.sound intact.layout member).2, totalAt]
  rw [target_of_mem (survivorMoves_sources lay).1 placed, ← lands]
  refine ⟨rfl, ?_⟩
  rcases (survivorMoves_bounds lay placed).2.2 with ⟨-, -, below, -⟩ | ⟨leaves, -⟩
  · exact below
  · exact absurd (leaves.symm.trans stays') (by simp)

theorem target_leaves (young : n ∈ nurseryObjects c g) (leaves : youngFate c g n = .leave)
    (room : minorEnd c g ≤ c.tenuredLimit) :
    target (survivorMoves c (afterMarking c g)) n ∉ objects c g := by
  have fate := intact.fateAt_afterMarking young
  obtain ⟨mem, marked, re, -⟩ := intact.marking
  obtain ⟨lay, nursery, -⟩ := re.layout intact.layout
  rw [minorEnd, marked] at room
  rw [marked] at fate ⊢
  have inside : n ∈ nurseryObjects c { g with mem } := nursery ▸ young
  obtain ⟨d, placed⟩ : ∃ d, (n, d) ∈ survivorMoves c { g with mem } :=
    exists_placement inside (by simp [fate.trans leaves])
  rw [target_of_mem (survivorMoves_sources lay).1 placed]
  intro member
  have long := lay.nursery_bounds inside
  have spaces := c.apart
  have tenuredLow := intact.layout.tenured.le
  rcases (survivorMoves_bounds lay placed).2.2 with ⟨stays, -⟩ | ⟨-, low, high⟩
  · rw [stays] at fate
    exact absurd (fate.trans leaves) (by simp)
  · have low : g.tenuredFree ≤ d := low
    rcases Layout.object_cases member with inNursery | old | large
    · have := intact.layout.nursery_bounds inNursery
      omega
    · have := intact.layout.tenured_bounds old
      omega
    · obtain ⟨block, -, positive⟩ := intact.layout.large_bounds large
      have tenured := block.tenured
      simp only [Apart] at tenured
      omega

theorem redirected_once (room : minorEnd c g ≤ c.tenuredLimit) (reach : Reach c g h)
    (free : h ∈ nurseryObjects c g → ageAt g.mem h + 1 < promotionAge → landing c g h = h ∨
      ¬ (landing c g h ∈ nurseryObjects c g ∧ Found c g (landing c g h))) :
    forward (moved (survivorMoves c (afterMarking c g)))
        (target (survivorMoves c (afterMarking c g)) h + 48) =
      target (survivorMoves c (afterMarking c g)) h + 48 := by
  have moves := intact.minor_relocation room
  have lay := intact.layout
  -- An address at which there was no object is left alone.
  have nowhere : target (survivorMoves c (afterMarking c g)) h ∉ objects c g →
      forward (moved (survivorMoves c (afterMarking c g)))
        (target (survivorMoves c (afterMarking c g)) h + 48) =
      target (survivorMoves c (afterMarking c g)) h + 48 := fun none =>
    moves.ignores _ fun k member same => none (by
      obtain rfl : target (survivorMoves c (afterMarking c g)) h = k := by omega
      exact member)
  rcases List.mem_append.mp reach.object with young | old
  · have found := intact.found_of_reach reach young
    by_cases stays : ageAt g.mem h + 1 < promotionAge
    · have fate : youngFate c g h = .stay := by simp [youngFate, found, stays]
      obtain ⟨goal, below⟩ := intact.target_landing young fate
      rcases free young stays with still | clear
      · rw [goal, still, moves.redirects h reach.object, goal, still]
      · rw [goal] at nowhere ⊢
        by_cases other : landing c g h ∈ nurseryObjects c g
        · -- The object that was there is not found, so it is not recorded as moved.
          have lost : ¬ KeptByMinor c g (landing c g h) := by
            rintro (old | survives)
            · exact intact.young_not_old other old
            · exact clear ⟨other, (intact.survives_young other).mp survives⟩
          have member : landing c g h ∈ objects c g := List.mem_append_left _ other
          rw [moves.redirects _ member, moves.dropped _ member lost]
        · refine nowhere fun member => ?_
          have inside := moves.layout.inNursery
            (h := landing c g h) ((List.mem_append.mp ((moves.object _).mpr
              ⟨h, reach.object, intact.kept_of_reach reach, goal⟩)).resolve_right fun old => ?_)
          · exact lay.old_not_inNursery ((List.mem_append.mp member).resolve_left other) inside
          · -- The landing lies below the object, in the nursery.
            have bounds := lay.nursery_bounds young
            have low : c.nurseryStart ≤ landing c g h := Nat.le_add_right _ _
            exact moves.layout.old_not_inNursery old ⟨by omega, by omega⟩
    · have fate : youngFate c g h = .leave := by simp [youngFate, found, stays]
      exact nowhere (intact.target_leaves young fate room)
  · -- An old object stays where it is.
    have still : target (survivorMoves c (afterMarking c g)) h = h := by
      obtain ⟨mem, marked, re, -⟩ := intact.marking
      obtain ⟨after, -, tenured⟩ := re.layout lay
      rw [marked]
      refine target_old after ?_
      rw [oldObjects, tenured]
      exact old
    rw [still, moves.redirects h reach.object, still]

theorem minor_roots_count (room : minorEnd c g ≤ c.tenuredLimit) {slot : Nat}
    (listed : slot ∈ g.roots) :
    (visits c (promoted c (afterMarking c g))).count slot = g.roots.count slot := by
  obtain ⟨mem, marked, re, -⟩ := intact.marking
  obtain ⟨lay, -, -⟩ := re.layout intact.layout
  rw [minorEnd, marked] at room
  rw [marked]
  obtain ⟨after, -, -⟩ := promoted_layout lay room
  have outside := (intact.layout.roots slot listed).2
  -- No word of an object lies outside the collector's memory.
  have notRemembered : slot ∉ g.remembered := fun member => by
    obtain ⟨h, old, low, high, -⟩ := intact.tracked.body slot member
    have apart := intact.layout.outside_apart outside (List.mem_append_right _ old)
    omega
  have notTraced : slot ∉ (objects c (promoted c { g with mem })).flatMap
      (tracedSlots (promoted c { g with mem }).mem) := fun member => by
    obtain ⟨h, object, traced⟩ := List.mem_flatMap.mp member
    have bounds := (after.sound h object).tracedSlots_bounds traced
    have apart := after.outside_apart (after.roots slot listed).2 object
    omega
  change (g.roots ++ (g.remembered ++ _)).count slot = g.roots.count slot
  rw [List.count_append, List.count_append, List.count_eq_zero_of_not_mem notRemembered,
    List.count_eq_zero_of_not_mem notTraced, Nat.add_zero]

/-- A slot of an object of the nursery is visited once. -/
theorem minor_young_count (room : minorEnd c g ≤ c.tenuredLimit) (young : h ∈ nurseryObjects c g)
    (found : Found c g h) {o : Nat} (traced : h + o ∈ tracedSlots g.mem h) :
    (visits c (promoted c (afterMarking c g))).count
      (target (survivorMoves c (afterMarking c g)) h + o) = 1 := by
  have moves := intact.minor_relocation room
  have member : h ∈ objects c g := List.mem_append_left _ young
  have keeps : KeptByMinor c g h := .inr (.inl found)
  have slot := (moves.mem_tracedSlots intact.layout member keeps).mpr ⟨o, traced, rfl⟩
  have there := (moves.object _).mpr ⟨h, member, keeps, rfl⟩
  have visited := (moves.slot_word intact.layout member keeps traced).2
  obtain ⟨mem, marked, re, marks⟩ := intact.marking
  obtain ⟨lay, nursery, tenured⟩ := re.layout intact.layout
  rw [minorEnd, marked] at room
  rw [marked] at slot there visited ⊢
  obtain ⟨after, -, -⟩ := promoted_layout lay room
  have bounds := (moves.layout.sound _ there).tracedSlots_bounds slot
  have old : oldObjects c { g with mem } = oldObjects c g := by
    rw [oldObjects, tenured]
    rfl
  have notOld : h ∉ oldObjects c { g with mem } := old ▸ intact.young_not_old young
  have inside : h ∈ objects c { g with mem } := List.mem_append_left _ (nursery ▸ young)
  have keepsMarked : KeptByPromotion c { g with mem } h := .inr (by
    have fate := intact.fateAt_afterMarking young
    rw [marked] at fate
    change fateAt mem h ≠ .drop
    rw [fate, youngFate, if_pos found]
    split <;> simp)
  have placed := (promoted_object_iff lay room _).mpr ⟨h, inside, keepsMarked, rfl⟩
  have total : totalAt (promoted c { g with mem }).mem (target (survivorMoves c { g with mem }) h) =
      totalAt (afterMinor c g).mem (target (survivorMoves c { g with mem }) h) := by
    have size := moves.size h member keeps
    rw [marked] at size
    have placement := survivor_placed lay inside keepsMarked notOld
    rw [totalAt, totalAt, size, (promoted_sound lay room placement).2]
    exact congrArg _ (re.sound intact.layout member).2
  -- It is no root, and it is not a word of an object that was old.
  have notRoot : target (survivorMoves c { g with mem }) h + o ∉ g.roots := fun listed => by
    have apart := after.outside_apart (after.roots _ listed).2 placed
    omega
  have notRemembered : target (survivorMoves c { g with mem }) h + o ∉ g.remembered := by
    intro listed
    obtain ⟨k, isOld, low, high, -⟩ := intact.tracked.body _ listed
    have isOld' : k ∈ oldObjects c { g with mem } := old ▸ isOld
    have differ := target_ne_old lay inside keepsMarked notOld isOld' room
    have still := promoted_sound_old lay room isOld'
    have kept : k ∈ objects c (promoted c { g with mem }) :=
      (promoted_object_iff lay room k).mpr
        ⟨k, List.mem_append_right _ isOld', .inl isOld', target_old lay isOld'⟩
    have apart := after.apart placed kept differ
    have same : totalAt (promoted c { g with mem }).mem k = totalAt g.mem k := by
      rw [totalAt, still.2, totalAt]
      exact congrArg _ (re.sound intact.layout (List.mem_append_right _ isOld)).2
    simp only [Apart] at apart
    omega
  have once := List.nodup_iff_count_le_one.mp after.slots_nodup
    (target (survivorMoves c { g with mem }) h + o)
  change (g.roots ++ (g.remembered ++ _)).count _ = 1
  change 0 < (g.roots ++ (g.remembered ++ _)).count _ at visited
  rw [List.count_append, List.count_append, List.count_eq_zero_of_not_mem notRoot,
    List.count_eq_zero_of_not_mem notRemembered] at visited ⊢
  omega

theorem minor_isomorphic (firm : Firm c g) (safe : SafeMinor c g)
    (room : minorEnd c g ≤ c.tenuredLimit) :
    Isomorphic c g (afterMinor c g) (target (survivorMoves c (afterMarking c g))) := by
  have moves := intact.minor_relocation room
  have lay := intact.layout
  have blocks : largeObjects (afterMinor c g) = largeObjects g := by
    obtain ⟨mem, marked, re, -⟩ := intact.marking
    obtain ⟨after, -, -⟩ := re.layout lay
    have tracked := re.tracked lay intact.tracked
    rw [minorEnd, marked] at room
    have step := promotion after (fun slot listed => (tracked.outside after slot listed).1) room
    rw [afterMinor, marked, rebuildRemembered_eq step.layout]
    rfl
  -- A slot visited more than once holds a reference that is redirected once.
  have settles : ∀ {slot times : Nat}, Held c g (g.mem slot) → Twice c g slot → 0 < times →
      (forward (moved (survivorMoves c (afterMarking c g))))^[times] (g.mem slot) =
        forward (moved (survivorMoves c (afterMarking c g))) (g.mem slot) := by
    intro slot times held twice visited
    obtain ⟨times, rfl⟩ : ∃ k, times = k + 1 := ⟨times - 1, by omega⟩
    rw [Function.iterate_succ_apply]
    refine Function.iterate_fixed ?_ times
    by_cases refers : ∃ h ∈ objects c g, g.mem slot = h + 48
    · obtain ⟨h, object, value⟩ := refers
      rw [value, moves.redirects h object]
      exact intact.redirected_once room (held.reach value object) fun young age =>
        safe slot h twice young value age
    · have none : ∀ h ∈ objects c g, g.mem slot ≠ h + 48 := fun h object value =>
        refers ⟨h, object, value⟩
      rw [moves.ignores _ none, moves.ignores _ none]
  refine moves.isomorphic lay firm (fun h large => ?_) (fun h large => ?_)
    (fun h reach => intact.kept_of_reach reach) (fun slot listed => ?_)
    fun h reach o traced => ?_
  · rw [blocks] at large
    exact List.mem_append_right _ (List.mem_append_right _ large)
  · obtain ⟨mem, marked, re, -⟩ := intact.marking
    obtain ⟨after, -, -⟩ := re.layout lay
    rw [marked]
    exact target_old after (List.mem_append_right _ large)
  · have times := intact.minor_roots_count room listed
    have visited : 0 < g.roots.count slot := List.count_pos_iff.mpr listed
    by_cases again : 2 ≤ g.roots.count slot
    · exact settles (.root listed) (.inl again) (by omega)
    · obtain single : g.roots.count slot = 1 := by omega
      rw [times, single, Function.iterate_one]
  · rcases List.mem_append.mp reach.object with young | old
    · have found := intact.found_of_reach reach young
      rw [intact.minor_young_count room young found traced, Function.iterate_one]
    · have visited := (moves.slot_word lay reach.object (intact.kept_of_reach reach) traced).2
      exact settles (.field reach traced) (.inr ⟨h, old, reach, traced⟩) visited

end Intact

theorem Extended.firm {g' : State} (more : Extended c g g') (lay : Layout c g) (firm : Firm c g) :
    Firm c g' := by
  have rootWord : ∀ slot ∈ g'.roots, slot ∈ g.roots ∧ g'.mem slot = g.mem slot :=
    fun slot listed => ⟨more.roots ▸ listed, more.outside slot (more.layout.roots slot listed).2⟩
  -- What is reached was reached before, or is the new object, which refers to nothing.
  have reached : ∀ k, Reach c g' k → Reach c g k ∨ k ∉ objects c g := by
    intro k reach
    induction reach with
    | @root slot k listed refers _ =>
      obtain ⟨was, word⟩ := rootWord slot listed
      by_cases object : k ∈ objects c g
      · exact .inl (.root was (word ▸ refers) object)
      · exact .inr object
    | @field slot h k before traced refers _ ih =>
      rcases ih with was | new
      · obtain ⟨source, word⟩ := more.slot_word lay was.object traced
        by_cases object : k ∈ objects c g
        · exact .inl (.field was source (word ▸ refers) object)
        · exact .inr object
      · rw [(more.blank h before.object new).2 slot traced] at refers
        omega
  have stays : ∀ k ∈ objects c g, k ∈ objects c g' := fun k member =>
    (List.mem_append.mp member).elim (fun young => List.mem_append_left _ (more.youngStays k young))
      fun old => List.mem_append_right _ (more.oldStays k old)
  intro v held inside
  have was : Held c g v := by
    cases held with
    | @root slot listed =>
      obtain ⟨was, word⟩ := rootWord slot listed
      rw [word]
      exact .root was
    | @field slot h reach traced =>
      rcases reached h reach with before | new
      · obtain ⟨source, word⟩ := more.slot_word lay before.object traced
        rw [word]
        exact .field before source
      · rw [(more.blank h reach.object new).2 slot traced] at inside
        simp only [InSpaces, InNursery] at inside
        omega
  obtain ⟨h, object, refers⟩ := firm v was inside
  exact ⟨h, stays h object, refers⟩

/-- An allocation collects the nursery: always by the slow entry, else when it is full. -/
def Collects (c : Config) (g : State) (entry : Entry) (size : Nat) : Prop :=
  allocSize size < c.largeThreshold ∧
    (entry = .slow ∨ entry = .plain ∧ allocFastUnlocked c g size = none)

/--
The operations after which no word that is held dangles.

A collection is of a kind that preserves the graph, and neither a store nor a new root brings an
address of the spaces at which there is no object.
-/
def Orderly (c : Config) (whole : State → Prop) (g : State) : Op → Prop
  | .alloc entry size _ _ => Collects c g entry size → SafeMinor c g ∧
      (allocFastUnlocked c (afterMinor c g) size = none →
        allocTenuredUnlocked c (afterMinor c g) size = none → whole (afterMinor c g))
  | .store slot value => Firm c (writeBarrier c g slot value)
  | .addRoot slot => Firm c (addRoot g slot)
  | .removeRoot _ => True
  | .minor => SafeMinor c g
  | .major => whole g

theorem Firm.fewer (firm : Firm c g) {roots : List Nat} (subset : ∀ slot ∈ roots, slot ∈ g.roots) :
    Firm c { g with roots } := by
  have reached : ∀ k, Reach c { g with roots } k → Reach c g k := by
    intro k reach
    induction reach with
    | root listed refers object => exact .root (subset _ listed) refers object
    | field _ traced refers object ih => exact .field ih traced refers object
  intro v held inside
  refine firm v ?_ inside
  cases held with
  | root listed => exact .root (subset _ listed)
  | field reach traced => exact .field (reached _ reach) traced

section Firmness

variable {whole : State → Prop}
  (sweeps : ∀ g, Intact c g → Firm c g → whole g → minorEnd c g ≤ c.tenuredLimit →
    Firm c (afterMajor c g))
include sweeps

omit sweeps in
/-- A collection of the nursery leaves no word dangling. -/
theorem Intact.minor_firm (intact : Intact c g) (firm : Firm c g) (safe : SafeMinor c g)
    (room : minorEnd c g ≤ c.tenuredLimit) : Firm c (afterMinor c g) :=
  (intact.minor_isomorphic firm safe room).firm (intact.minor room).layout firm

theorem allocOld_firm {size tag : Nat} (modest : Modest c size tag) (intact : Intact c g)
    (firm : Firm c g) (major : allocTenuredUnlocked c g size = none → whole g) {r : State × Nat}
    (made : allocOld c g size = some r) : Firm c (withTag r tag) := by
  have direct : ∀ {g : State} {r}, Intact c g → Firm c g →
      allocTenuredUnlocked c g size = some r → Firm c (withTag r tag) := by
    intro g r intact firm made
    rw [allocTenuredUnlocked] at made
    split at made
    · cases made
    · cases made
      exact (extended_tenured intact.layout modest (by omega)).firm intact.layout firm
  rw [allocOld] at made
  split at made
  · rename_i here
    cases made
    exact direct intact firm here
  · rename_i full
    rw [intact.majorCollect_eq] at made
    split at made
    · rename_i room
      have after := sweeps g intact firm (major full) room
      cases made
      cases again : allocTenuredUnlocked c (afterMajor c g) size with
      | none => exact after
      | some r => exact direct (intact.major room) after again
    · cases made

theorem allocate_firm {size tag : Nat} (modest : Modest c size tag) (intact : Intact c g)
    (firm : Firm c g) {block : Option Nat}
    (fresh : ∀ h ∈ block, FreshBlock c g ⟨h, allocSize size⟩) {entry : Entry}
    (orderly : Orderly c whole g (.alloc entry size tag block)) {r : State × Nat}
    (made : allocate c g size block entry = some r) : Firm c (withTag r tag) := by
  have large : Firm c (withTag (allocLargeUnlocked g size block) tag) := by
    cases block with
    | none => exact firm
    | some h => exact (extended_large intact.layout modest (fresh h rfl)).firm intact.layout firm
  have direct : ∀ {g : State} {r}, Intact c g → Firm c g →
      allocFastUnlocked c g size = some r → Firm c (withTag r tag) := by
    intro g r intact firm made
    rw [allocFastUnlocked] at made
    split at made
    · cases made
    · cases made
      exact (extended_nursery intact.layout modest (by omega)).firm intact.layout firm
  have slow : (allocSize size < c.largeThreshold → Collects c g entry size) → ∀ r,
      allocSlow c g size block = some r → Firm c (withTag r tag) := by
    intro collects r made
    rw [allocSlow] at made
    split at made
    · cases made
      exact large
    · rename_i small
      obtain ⟨safe, major⟩ := orderly (collects (by omega))
      rw [intact.minorCollect_eq] at made
      split at made
      · rename_i room
        have after := intact.minor_firm firm safe room
        simp only [Option.bind_eq_bind, Option.bind_some] at made
        split at made
        · rename_i here
          cases made
          exact direct (intact.minor room) after here
        · rename_i full
          exact allocOld_firm sweeps modest (intact.minor room) after (major full) made
      · cases made
  cases entry with
  | plain =>
    rw [allocate, alloc] at made
    split at made
    · cases made
      exact large
    · split at made
      · rename_i here
        cases made
        exact direct intact firm here
      · rename_i full
        exact slow (fun small => ⟨small, .inr ⟨rfl, full⟩⟩) r made
  | fast =>
    rw [allocate, allocFast] at made
    cases made
    split
    · exact large
    · cases here : allocFastUnlocked c g size with
      | none => exact firm
      | some r => exact direct intact firm here
  | slow => exact slow (fun small => ⟨small, .inl rfl⟩) r made

theorem step_firm {op : Op} {g' : State} (intact : Intact c g) (firm : Firm c g)
    (legal : Legal c g op) (careful : Careful c g op) (orderly : Orderly c whole g op)
    (taken : step c g op = some g') : Firm c g' := by
  cases op with
  | alloc entry size tag block =>
    obtain ⟨r, made, rfl⟩ := Option.map_eq_some_iff.mp taken
    rcases careful with below | ⟨large, refused⟩
    · exact allocate_firm sweeps ⟨below.1, below.2, legal.1⟩ intact firm legal.2 orderly made
    · subst refused
      rw [allocate_refused large] at made
      cases made
      exact firm
  | store slot value =>
    cases taken
    exact orderly
  | addRoot slot =>
    cases taken
    exact orderly
  | removeRoot slot =>
    cases taken
    obtain ⟨roots, result, subset⟩ := removeRoot_eq g slot
    rw [result]
    exact firm.fewer subset
  | minor =>
    rw [step, intact.minorCollect_eq] at taken
    split at taken
    · rename_i room
      cases taken
      exact intact.minor_firm firm orderly room
    · cases taken
  | major =>
    rw [step, intact.majorCollect_eq] at taken
    split at taken
    · rename_i room
      cases taken
      exact sweeps g intact firm orderly room
    · cases taken

theorem Reachable.firm
    (reached : Reachable c (fun g op => Legal c g op ∧ Careful c g op ∧ Orderly c whole g op) g) :
    Intact c g ∧ Firm c g := by
  refine reached.invariant (fun g => Intact c g ∧ Firm c g)
    (fun mem => ⟨intact_init c mem, ?_⟩) fun g op g' ⟨intact, firm⟩ ⟨legal, careful, orderly⟩ taken =>
      ⟨step_intact intact legal careful taken,
        step_firm sweeps intact firm legal careful orderly taken⟩
  -- There are no roots to begin with.
  have none : ∀ k, ¬ Reach c (init c mem) k := by
    intro k reach
    induction reach with
    | root listed => exact absurd listed (by simp [init])
    | field _ _ _ _ ih => exact ih
  intro v held
  cases held with
  | root listed => exact absurd listed (by simp [init])
  | field reach => exact absurd reach (none _)

end Firmness

/-- The steps of a run without collections of all spaces and without want of room for them. -/
def MinorRun (c : Config) (g : State) (op : Op) : Prop :=
  Legal c g op ∧ Careful c g op ∧ Orderly c (fun _ => False) g op

/-- In every state of such a run a collection of the nursery preserves the graph, where it is safe. -/
theorem minor_preserves_graph (reached : Reachable c (MinorRun c) g) (safe : SafeMinor c g)
    (room : minorEnd c g ≤ c.tenuredLimit) :
    ∃ g' φ, minorCollect c g = some g' ∧ Isomorphic c g g' φ := by
  have steps : Reachable c
    (fun g op => Legal c g op ∧ Careful c g op ∧ Orderly c (fun _ => False) g op) g := reached
  obtain ⟨intact, firm⟩ := steps.firm fun _ _ _ never => never.elim
  exact ⟨_, _, by rw [intact.minorCollect_eq, if_pos room],
    intact.minor_isomorphic firm safe room⟩

/-- No root and no reference of any object is an address of the spaces without an object. -/
def FirmAll (c : Config) (g : State) : Prop :=
  ∀ slot ∈ g.roots ++ (objects c g).flatMap (tracedSlots g.mem), InSpaces c (g.mem slot) →
    ∃ h ∈ objects c g, g.mem slot = h + 48

theorem FirmAll.firm (all : FirmAll c g) : Firm c g := by
  intro v held inside
  cases held with
  | @root slot listed => exact all slot (List.mem_append_left _ listed) inside
  | @field slot h reach traced =>
    exact all slot (List.mem_append_right _ (List.mem_flatMap.mpr ⟨h, reach.object, traced⟩)) inside

/-- Steps that are orderly for a plain reason: no collection meets a slot twice. -/
def Gentle (c : Config) (g : State) : Op → Prop
  | .alloc entry _ _ _ => entry = .fast
  | .store slot value => FirmAll c (writeBarrier c g slot value)
  | .addRoot slot => FirmAll c (addRoot g slot)
  | .removeRoot _ => True
  | .minor => g.roots.Nodup ∧ oldObjects c g = []
  | .major => False

theorem safeMinor_of_once (roots : g.roots.Nodup) (young : oldObjects c g = []) : SafeMinor c g := by
  rintro slot n (again | ⟨h, old, -⟩)
  · have once := List.nodup_iff_count_le_one.mp roots slot
    omega
  · rw [young] at old
    cases old

theorem Gentle.orderly {whole : State → Prop} {op : Op} (gentle : Gentle c g op) :
    Orderly c whole g op := by
  cases op with
  | alloc entry size tag block =>
    rintro ⟨-, slow | ⟨plain, -⟩⟩
    · cases (show entry = .fast from gentle).symm.trans slow
    · cases (show entry = .fast from gentle).symm.trans plain
  | store slot value => exact FirmAll.firm gentle
  | addRoot slot => exact FirmAll.firm gentle
  | removeRoot slot => trivial
  | minor => exact safeMinor_of_once gentle.1 gentle.2
  | major => exact gentle.elim

theorem Reachable.mono {allowed allowed' : State → Op → Prop}
    (more : ∀ g op, allowed g op → allowed' g op) (reached : Reachable c allowed g) :
    Reachable c allowed' g := by
  induction reached with
  | start mem => exact .start mem
  | step _ may taken ih => exact .step ih (more _ _ may) taken

instance : Decidable (InSpaces c v) := inferInstanceAs (Decidable (_ ∨ _ ∧ _))

instance : Decidable (FirmAll c g) :=
  inferInstanceAs (Decidable (∀ slot ∈ _, _ → _))

instance decidableGentle : (op : Op) → Decidable (Gentle c g op)
  | .alloc entry _ _ _ => inferInstanceAs (Decidable (entry = .fast))
  | .store slot value => inferInstanceAs (Decidable (FirmAll c (writeBarrier c g slot value)))
  | .addRoot slot => inferInstanceAs (Decidable (FirmAll c (addRoot g slot)))
  | .removeRoot _ => .isTrue trivial
  | .minor => inferInstanceAs (Decidable (_ ∧ _))
  | .major => .isFalse id

set_option maxRecDepth 100000 in
/-- A list that holds a younger one survives two collections, the second of which moves both. -/
theorem minor_preserves_graph_run : ∃ g g' φ, minorCollect smallConfig g = some g' ∧
    Isomorphic smallConfig g g' φ ∧ g.mem 0x8000 = 0x100080 ∧ g'.mem 0x8000 = 0x100030 := by
  obtain ⟨g, reached, roots, young, room, before, after⟩ := reachable_of_run smallConfig
    (fun g op => Legal smallConfig g op ∧ Careful smallConfig g op ∧
      Gentle smallConfig g op)
    (fun g => g.roots.Nodup ∧ oldObjects smallConfig g = [] ∧
      minorEnd smallConfig g ≤ smallConfig.tenuredLimit ∧ g.mem 0x8000 = 0x100080 ∧
      ∀ g' ∈ minorCollect smallConfig g, g'.mem 0x8000 = 0x100030) (fun _ => 0)
    [.addRoot 0x8000, .alloc .fast 24 tagTuple none, .store 0x8000 0x100030, .minor,
      .alloc .fast 24 tagList none, .store 0x100080 3, .store 0x8000 0x100080,
      .alloc .fast 16 tagOk none, .store 0x100090 0x1000d0] (by decide +kernel)
  obtain ⟨g', φ, taken, iso⟩ := minor_preserves_graph
    (reached.mono fun _ _ ⟨legal, careful, gentle⟩ => ⟨legal, careful, gentle.orderly⟩)
    (safeMinor_of_once roots young) room
  exact ⟨g, g', φ, taken, iso, before, after g' taken⟩

set_option maxRecDepth 100000 in
/-- A remembered slot is redirected twice, to an object that took the place of another. -/
theorem not_minor_preserves_graph : ∃ g,
    Reachable smallConfig (fun g op => Legal smallConfig g op ∧ Careful smallConfig g op ∧
      op ≠ .major) g ∧ minorEnd smallConfig g ≤ smallConfig.tenuredLimit ∧
    ¬ ∃ g' φ, minorCollect smallConfig g = some g' ∧ Isomorphic smallConfig g g' φ := by
  obtain ⟨g, reached, room, roots, objects, holder, first, slot, second, after⟩ :=
    reachable_of_run smallConfig
    (fun g op => Legal smallConfig g op ∧ Careful smallConfig g op ∧ op ≠ .major)
    (fun g => minorEnd smallConfig g ≤ smallConfig.tenuredLimit ∧
      g.roots = [0x8000, 0x8008] ∧ (∀ h ∈ [0x200000, 0x100050, 0x1000a0],
        h ∈ objects smallConfig g) ∧ g.mem 0x8000 = 0x200000 + 48 ∧
      g.mem 0x8008 = 0x100050 + 48 ∧ 0x200000 + 0x40 ∈ tracedSlots g.mem 0x200000 ∧
      g.mem (0x200000 + 0x40) = 0x1000a0 + 48 ∧ ∀ g' ∈ minorCollect smallConfig g,
        g'.mem 0x8000 = 0x200030 ∧ g'.mem (0x200000 + 0x40) = g'.mem 0x8008) (fun _ => 0)
    (tenuredList ++ [.addRoot 0x8008, .alloc .plain 24 tagList none,
      .alloc .plain 24 tagList none, .store 0x8008 0x100080, .alloc .plain 24 tagOk none,
      .store 0x200040 0x1000d0]) (by decide +kernel)
  refine ⟨g, reached, room, ?_⟩
  rintro ⟨g', φ, taken, iso⟩
  obtain ⟨held, shared⟩ := after g' taken
  -- The two references led to different objects and now lead to one.
  have leads : ∀ {v v' h}, Corresponds smallConfig g g' φ v v' → v = h + 48 →
      h ∈ Gc.objects smallConfig g → v' = φ h + 48 := by
    rintro v v' h (⟨k, -, refers, goal⟩ | ⟨none, -, -⟩) value object
    · obtain rfl : h = k := by omega
      exact goal
    · exact absurd value (none h object)
  have isHolder := objects 0x200000 (by simp)
  have isFirst := objects 0x100050 (by simp)
  have isSecond := objects 0x1000a0 (by simp)
  have reachHolder : Reach smallConfig g 0x200000 := .root (by simp [roots]) holder isHolder
  have reachFirst : Reach smallConfig g 0x100050 := .root (by simp [roots]) first isFirst
  have reachSecond : Reach smallConfig g 0x1000a0 := .field reachHolder slot second isSecond
  have place := leads (iso.root 0x8000 (by simp [roots])) holder isHolder
  have one := leads (iso.root 0x8008 (by simp [roots])) first isFirst
  have two := leads (iso.field _ reachHolder _ slot) second isSecond
  obtain still : φ 0x200000 = 0x200000 := by omega
  rw [still] at two
  have same := iso.injective _ _ reachFirst reachSecond (by omega)
  omega

end Nytrix.Rt.Gc
