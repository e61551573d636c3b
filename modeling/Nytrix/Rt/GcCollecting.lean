import Nytrix.Rt.GcSweeping

/-! What the two collections do to the heap, and the invariant they keep. -/

namespace Nytrix.Rt.Gc

open Nytrix.Lib

variable {c : Config} {g : State} {h v x : Nat}

theorem Regular.alike {map : ForwardMap} (regular : Regular c map) {bound : Nat}
    (modest : bound < c.nurseryStart ∧ bound < c.tenuredStart) (n v : Nat) :
    Alike bound ((forward map)^[n] v) v := by
  rcases regular.iterate n v with same | ⟨before, after⟩
  · exact .inl same
  · -- Both are addresses, and no count of a body reaches an address.
    have := before.low
    have := before.aligned
    have := before.user
    have := after.low
    have := after.aligned
    have := after.user
    exact .inr (by omega)

namespace Relocation

variable {g' : State} {map : ForwardMap} {dst : Nat → Nat} {kept : Nat → Prop} {count : Nat → Nat}

theorem offsets (moves : Relocation c g g' map dst kept count) (lay : Layout c g)
    (member : h ∈ objects c g) (keeps : kept h) :
    (tracedOffsets fun o => g'.mem (dst h + o)) = tracedOffsets fun o => g.mem (h + o) := by
  have sound := lay.sound h member
  have room := sound.room
  have modest := lay.modest h member
  have small := sound.tag
  have nurseryMapped := c.nurseryMapped
  have tenuredMapped := c.tenuredMapped
  simp only [sizeAt] at room modest
  simp only [tagAt] at small
  refine tracedOffsets_congr (moves.size h member keeps) ?_ fun o low high _ => ?_
  · -- A tag is no address, so it is left alone.
    rw [moves.cell h member keeps 40 (by omega) (by omega)]
    refine (moves.regular.iterate _ _).resolve_right fun both => ?_
    have low := both.1.low
    omega
  · rw [moves.cell h member keeps o (by omega) (by omega)]
    exact moves.regular.alike modest _ _

theorem mem_tracedSlots (moves : Relocation c g g' map dst kept count) (lay : Layout c g)
    (member : h ∈ objects c g) (keeps : kept h) {slot : Nat} :
    slot ∈ tracedSlots g'.mem (dst h) ↔ ∃ o, h + o ∈ tracedSlots g.mem h ∧ slot = dst h + o := by
  have same := moves.offsets lay member keeps
  simp only [tracedSlots, same, List.mem_map]
  constructor
  · rintro ⟨o, listed, rfl⟩
    exact ⟨o, ⟨o, listed, rfl⟩, rfl⟩
  · rintro ⟨o, ⟨p, listed, shared⟩, rfl⟩
    obtain rfl := Nat.add_left_cancel shared
    exact ⟨p, listed, rfl⟩

theorem slot_word (moves : Relocation c g g' map dst kept count) (lay : Layout c g)
    (member : h ∈ objects c g) (keeps : kept h) {o : Nat} (traced : h + o ∈ tracedSlots g.mem h) :
    g'.mem (dst h + o) = (forward map)^[count (dst h + o)] (g.mem (h + o)) ∧
      0 < count (dst h + o) := by
  have bounds := (lay.sound h member).tracedSlots_bounds traced
  have there := (moves.object _).mpr ⟨h, member, keeps, rfl⟩
  have slot := (moves.mem_tracedSlots lay member keeps).mpr ⟨o, traced, rfl⟩
  exact ⟨moves.cell h member keeps o (by omega) (by omega), moves.tracedVisited _ there _ slot⟩

theorem iterate (moves : Relocation c g g' map dst kept count) (member : h ∈ objects c g)
    (keeps : kept h) (n : Nat) :
    ∃ k ∈ objects c g, kept k ∧ (forward map)^[n + 1] (h + 48) = dst k + 48 := by
  induction n with
  | zero => exact ⟨h, member, keeps, moves.redirects h member⟩
  | succ n ih =>
    obtain ⟨k, object, keeps, value⟩ := ih
    rw [Function.iterate_succ_apply', value]
    -- The new place may be the old place of another object.
    by_cases other : dst k ∈ objects c g
    · rw [moves.redirects _ other]
      by_cases keepsOther : kept (dst k)
      · exact ⟨dst k, other, keepsOther, rfl⟩
      · exact ⟨k, object, keeps, by rw [moves.dropped _ other keepsOther]⟩
    · refine ⟨k, object, keeps, moves.ignores _ fun j listed same => other ?_⟩
      obtain rfl : dst k = j := by omega
      exact listed

theorem iterate_dropped (moves : Relocation c g g' map dst kept count) (member : h ∈ objects c g)
    (drops : ¬ kept h) (n : Nat) : (forward map)^[n] (h + 48) = h + 48 := by
  refine Function.iterate_fixed ?_ n
  rw [moves.redirects h member, moves.dropped h member drops]

theorem iterate_other (moves : Relocation c g g' map dst kept count)
    (other : ∀ h ∈ objects c g, v ≠ h + 48) (n : Nat) : (forward map)^[n] v = v :=
  Function.iterate_fixed (moves.ignores v other) n

end Relocation

/-- A word that is or may come to be the address of an object of the nursery. -/
def InNursery (c : Config) (v : Nat) : Prop := c.nurseryStart + 48 ≤ v ∧ v ≤ c.nurseryLimit

/-- No slot holds an address of the nursery where there is no object. -/
def Settled (c : Config) (g : State) : Prop :=
  ∀ h ∈ objects c g, ∀ slot ∈ tracedSlots g.mem h, InNursery c (g.mem slot) →
    ∃ k ∈ nurseryObjects c g, g.mem slot = k + 48

/-- Every slot of an old object that refers to the nursery is remembered. -/
def Complete (c : Config) (g : State) : Prop :=
  ∀ h ∈ oldObjects c g, ∀ slot ∈ tracedSlots g.mem h, ∀ k ∈ nurseryObjects c g,
    g.mem slot = k + 48 → slot ∈ g.remembered

theorem Layout.old_not_inNursery (lay : Layout c g) (old : h ∈ oldObjects c g) :
    ¬ InNursery c (h + 48) := by
  have spaces := c.apart
  have nurseryRoom := c.nurseryRoom
  rintro ⟨low, high⟩
  rcases List.mem_append.mp old with tenured | large
  · have := lay.tenured_bounds tenured
    omega
  · obtain ⟨block, -, room⟩ := lay.large_bounds large
    have nursery := block.nursery
    simp only [Apart] at nursery
    omega

theorem Layout.inNursery (lay : Layout c g) (young : h ∈ nurseryObjects c g) :
    InNursery c (h + 48) := by
  have bounds := lay.nursery_bounds young
  exact ⟨by omega, by omega⟩

theorem Relocation.settled {g' : State} {map : ForwardMap} {dst : Nat → Nat} {kept : Nat → Prop}
    {count : Nat → Nat} (moves : Relocation c g g' map dst kept count) (lay : Layout c g)
    (before : Settled c g)
    (closed : ∀ h ∈ objects c g, kept h → ∀ slot ∈ tracedSlots g.mem h, ∀ k ∈ nurseryObjects c g,
      g.mem slot = k + 48 → kept k) : Settled c g' := by
  intro k there slot traced young
  obtain ⟨h, member, keeps, rfl⟩ := (moves.object k).mp there
  obtain ⟨o, source, rfl⟩ := (moves.mem_tracedSlots lay member keeps).mp traced
  obtain ⟨word, visited⟩ := moves.slot_word lay member keeps source
  by_cases refers : ∃ j ∈ objects c g, g.mem (h + o) = j + 48
  · obtain ⟨j, object, value⟩ := refers
    rw [value] at word
    by_cases keepsReferent : kept j
    · -- It leads to an object, which has its address in the nursery and so lies there.
      obtain ⟨i, listed, keepsTarget, goal⟩ :=
        moves.iterate object keepsReferent (count (dst h + o) - 1)
      rw [Nat.sub_add_cancel visited] at goal
      rw [word, goal] at young ⊢
      have target := (moves.object _).mpr ⟨i, listed, keepsTarget, rfl⟩
      refine ⟨dst i, (List.mem_append.mp target).resolve_right fun old => ?_, rfl⟩
      exact moves.layout.old_not_inNursery old young
    · -- What is dropped is not in the nursery.
      rw [word, moves.iterate_dropped object keepsReferent] at young
      refine absurd young (lay.old_not_inNursery ?_)
      exact (List.mem_append.mp object).resolve_left fun inside =>
        keepsReferent (closed h member keeps _ source j inside value)
  · -- A word that refers to no object is the same as before.
    have other : ∀ j ∈ objects c g, g.mem (h + o) ≠ j + 48 := fun j object value =>
      refers ⟨j, object, value⟩
    rw [moves.iterate_other other] at word
    rw [word] at young
    obtain ⟨j, inside, value⟩ := before h member _ source young
    exact absurd value (other j (List.mem_append_left _ inside))

theorem youngSlots_tracked (lay : Layout c g) :
    Tracked c { g with remembered := youngSlots c g } ∧
      Complete c { g with remembered := youngSlots c g } := by
  have all := lay.slots_nodup
  rw [objects, List.flatMap_append] at all
  refine ⟨⟨fun slot listed => ?_, (List.nodup_append.mp all).2.1.filter _⟩, ?_⟩
  · obtain ⟨h, old, traced⟩ := List.mem_flatMap.mp (List.mem_filter.mp listed).1
    have bounds := (lay.sound h (List.mem_append_right _ old)).tracedSlots_bounds traced
    refine ⟨h, old, bounds.1, ?_, bounds.2.2⟩
    change slot < h + totalAt g.mem h
    omega
  · -- The test of the rebuild holds for every object of the nursery.
    intro h old slot traced k young refers
    have young : k ∈ nurseryObjects c g := young
    have refers : g.mem slot = k + 48 := refers
    have bounds := lay.nursery_bounds young
    have nurseryMapped := c.nurseryMapped
    refine List.mem_filter.mpr ⟨List.mem_flatMap.mpr ⟨h, old, traced⟩, ?_⟩
    simp only [slotPointsToNursery, isPtr, Bool.and_eq_true, decide_eq_true_eq]
    simp only [objectDataOffset, refers]
    omega

theorem Relocation.rebuilt {g' : State} {map : ForwardMap} {dst : Nat → Nat} {kept : Nat → Prop}
    {count : Nat → Nat} (moves : Relocation c g g' map dst kept count) :
    Relocation c g (rebuildRemembered c g') map dst kept count := by
  have lay := moves.layout
  rw [rebuildRemembered_eq lay]
  exact { layout := ⟨lay.nursery, lay.nurseryFits, lay.tenured, lay.tenuredFits, lay.blocks,
            lay.blocksApart, lay.sound, lay.modest, lay.roots⟩
          roots := moves.roots, regular := moves.regular, object := moves.object
          injective := moves.injective, dropped := moves.dropped, redirects := moves.redirects
          ignores := moves.ignores, size := moves.size, cell := moves.cell
          outside := moves.outside, rootsVisited := moves.rootsVisited
          tracedVisited := moves.tracedVisited }

theorem Relocation.rehead {mem : Memory} (re : Rehead c g mem) (lay : Layout c g) {g' : State}
    {map : ForwardMap} {dst : Nat → Nat} {kept : Nat → Prop} {count : Nat → Nat}
    (moves : Relocation c { g with mem } g' map dst kept count) :
    Relocation c g g' map dst kept count := by
  have same := re.objects_eq lay
  have total : ∀ h ∈ objects c g, totalAt mem h = totalAt g.mem h := fun h member => by
    rw [totalAt, (re.sound lay member).2, totalAt]
  refine { layout := moves.layout, roots := moves.roots, regular := moves.regular
           object := same ▸ moves.object, injective := same ▸ moves.injective
           dropped := same ▸ moves.dropped, redirects := same ▸ moves.redirects
           ignores := same ▸ moves.ignores, size := fun h member keeps => ?_
           cell := fun h member keeps o low high => ?_, outside := fun x out => ?_
           rootsVisited := moves.rootsVisited, tracedVisited := moves.tracedVisited }
  · rw [moves.size h (same ▸ member) keeps]
    exact (re.sound lay member).2
  · rw [moves.cell h (same ▸ member) keeps o low (by rw [total h member]; exact high)]
    exact congrArg _ (re.cell lay member (by omega) high)
  · rw [moves.outside x out]
    exact congrArg _ (re.body x (lay.outside_not_object out))

theorem Relocation.keeping {g' : State} {map : ForwardMap} {dst : Nat → Nat}
    {kept kept' : Nat → Prop} {count : Nat → Nat}
    (moves : Relocation c g g' map dst kept count)
    (same : ∀ h ∈ objects c g, kept h ↔ kept' h) : Relocation c g g' map dst kept' count where
  layout := moves.layout
  roots := moves.roots
  regular := moves.regular
  object := fun k => by
    rw [moves.object k]
    exact exists_congr fun h => and_congr_right fun member => and_congr_left fun _ => same h member
  injective := fun h first k second one two => moves.injective h first k second
    ((same h first).mpr one) ((same k second).mpr two)
  dropped := fun h member drops => moves.dropped h member (mt (same h member).mp drops)
  redirects := moves.redirects
  ignores := moves.ignores
  size := fun h member keeps => moves.size h member ((same h member).mpr keeps)
  cell := fun h member keeps => moves.cell h member ((same h member).mpr keeps)
  outside := moves.outside
  rootsVisited := moves.rootsVisited
  tracedVisited := moves.tracedVisited

theorem Layout.sublist (lay : Layout c g) {ls : List Large} (fewer : ls.Sublist g.large) :
    Layout c { g with large := ls } := by
  have subset : ∀ h ∈ objects c { g with large := ls }, h ∈ objects c g := by
    intro h member
    rcases Layout.object_cases member with young | old | large
    · exact List.mem_append_left _ young
    · exact List.mem_append_right _ (List.mem_append_left _ old)
    · exact List.mem_append_right _ (List.mem_append_right _ ((fewer.map _).subset large))
  exact { nursery := lay.nursery, nurseryFits := lay.nurseryFits, tenured := lay.tenured
          tenuredFits := lay.tenuredFits
          blocks := fun l listed => lay.blocks l (fewer.subset listed)
          blocksApart := lay.blocksApart.sublist fewer
          sound := fun h member => lay.sound h (subset h member)
          modest := fun h member => lay.modest h (subset h member)
          roots := fun slot listed => ⟨(lay.roots slot listed).1, (lay.roots slot listed).2.1,
            (lay.roots slot listed).2.2.1,
            fun l listed' => (lay.roots slot listed).2.2.2 l (fewer.subset listed')⟩ }

theorem forward_nil (v : Nat) : forward [] v = v := by simp [forward, forwardFind]

/-- What the sweep of the large objects keeps: the marked ones, and all others. -/
def KeptBySweepLarge (g : State) (h : Nat) : Prop := h ∈ largeObjects g → isMarked g.mem h = true

theorem sweepLarge_rehead (lay : Layout c g) : Rehead c g (sweepLarge g).mem := by
  have word : ∀ x, (sweepLarge g).mem x =
      if x ∈ (g.large.filter fun l => isMarked g.mem l.header).map Large.header then
        g.mem x - g.mem x % 2 else g.mem x := foldl_clearMark _ g.mem
  have subset : ∀ h ∈ (g.large.filter fun l => isMarked g.mem l.header).map Large.header,
      h ∈ objects c g := fun h listed => by
    have large : h ∈ largeObjects g := (List.filter_sublist.map _).subset listed
    simp [objects, oldObjects, large]
  refine ⟨fun x outside => ?_, fun h member => ?_⟩
  · rw [word, if_neg fun listed => outside (subset x listed)]
  · have head := (lay.sound h member).head
    rw [word]
    split <;> omega

theorem sweepLarge_relocation (lay : Layout c g) :
    Relocation c g (sweepLarge g) [] id (KeptBySweepLarge g) fun _ => 1 := by
  have re := sweepLarge_rehead lay
  obtain ⟨after, nursery, tenured⟩ := re.layout lay
  have fewer : (sweepLarge g).large.Sublist g.large := List.filter_sublist
  have layout : Layout c (sweepLarge g) := after.sublist fewer
  have young : nurseryObjects c (sweepLarge g) = nurseryObjects c g := nursery
  have old : tenuredObjects c (sweepLarge g) = tenuredObjects c g := tenured
  have large : ∀ h, h ∈ largeObjects (sweepLarge g) ↔
      h ∈ largeObjects g ∧ isMarked g.mem h = true := fun h => by
    simp only [largeObjects, sweepLarge, List.mem_map, List.mem_filter]
    constructor
    · rintro ⟨l, ⟨listed, marked⟩, rfl⟩
      exact ⟨⟨l, listed, rfl⟩, marked⟩
    · rintro ⟨⟨l, listed, rfl⟩, marked⟩
      exact ⟨l, ⟨listed, marked⟩, rfl⟩
  have notLarge : ∀ h, h ∈ nurseryObjects c g ∨ h ∈ tenuredObjects c g → h ∉ largeObjects g := by
    intro h other listed
    have nodup := List.nodup_append.mp lay.nodup
    rcases other with inNursery | inTenured
    · exact nodup.2.2 h inNursery h (List.mem_append_right _ listed) rfl
    · exact (List.nodup_append.mp nodup.2.1).2.2 h inTenured h listed rfl
  have object : ∀ k, k ∈ objects c (sweepLarge g) ↔ k ∈ objects c g ∧ KeptBySweepLarge g k := by
    intro k
    simp only [objects, oldObjects, young, old, List.mem_append, large, KeptBySweepLarge]
    constructor
    · rintro (inNursery | inTenured | ⟨listed, marked⟩)
      · exact ⟨.inl inNursery, fun listed => absurd listed (notLarge k (.inl inNursery))⟩
      · exact ⟨.inr (.inl inTenured), fun listed => absurd listed (notLarge k (.inr inTenured))⟩
      · exact ⟨.inr (.inr listed), fun _ => marked⟩
    · rintro ⟨inNursery | inTenured | listed, keeps⟩
      · exact .inl inNursery
      · exact .inr (.inl inTenured)
      · exact .inr (.inr ⟨listed, keeps listed⟩)
  refine { layout, roots := rfl, regular := fun m listed => absurd listed (by simp)
           object := fun k => ?_, injective := fun _ _ _ _ _ _ same => same
           dropped := fun _ _ _ => rfl, redirects := fun h _ => forward_nil _
           ignores := fun v _ => forward_nil v, size := fun h member _ => (re.sound lay member).2
           cell := fun h member _ o low high => ?_, outside := fun x out => ?_
           rootsVisited := fun _ _ => Nat.one_pos, tracedVisited := fun _ _ _ _ => Nat.one_pos }
  · rw [object k]
    simp
  · rw [Function.iterate_one, forward_nil]
    exact re.cell lay member (by omega) high
  · rw [Function.iterate_one, forward_nil]
    exact re.body x (lay.outside_not_object out)

/-- The invariant of the collector between its operations. -/
structure Intact (c : Config) (g : State) : Prop where
  layout : Layout c g
  tracked : Tracked c g
  unmarked : ∀ h ∈ nurseryObjects c g, isMarked g.mem h = false
  settled : Settled c g
  complete : Complete c g

/-- The state after the marking phase. -/
def afterMarking (c : Config) (g : State) : State := markFromRoots c (clearLargeMarks g)

/-- The state after a collection of the nursery, when there is room for the promoted objects. -/
def afterMinor (c : Config) (g : State) : State :=
  let s := afterMarking c g
  rebuildRemembered c (redirected c (moved (survivorMoves c s)) (promoted c s))

/-- The state after the sweep of tenured space. -/
def afterSweep (c : Config) (g : State) : State :=
  rebuildRemembered c (redirected c (moved (sweepMoves c g)) (swept c g))

/-- The end of tenured space after a collection of the nursery. -/
def minorEnd (c : Config) (g : State) : Nat := tenuredEnd c (afterMarking c g)

/-- What a collection of the nursery keeps: the old objects and what the marking phase marks. -/
def KeptByMinor (c : Config) (g : State) (h : Nat) : Prop := h ∈ oldObjects c g ∨ Survives c g h

theorem Tracked.outside (tracked : Tracked c g) (lay : Layout c g) :
    ∀ slot ∈ g.remembered, slot ≠ 0 ∧ ¬ (c.nurseryStart ≤ slot ∧ slot < c.nurseryLimit) := by
  intro slot listed
  have spaces := c.apart
  obtain ⟨h, old, low, high, -⟩ := tracked.body slot listed
  refine ⟨by omega, fun inside => ?_⟩
  rcases List.mem_append.mp old with tenured | large
  · have := lay.tenured_bounds tenured
    omega
  · have nursery := (lay.large_bounds large).1.nursery
    simp only [Apart] at nursery
    omega

theorem Layout.nursery_not_visited (lay : Layout c g)
    (remembered : ∀ slot ∈ g.remembered, ¬ (c.nurseryStart ≤ slot ∧ slot < c.nurseryLimit))
    (young : h ∈ nurseryObjects c g) : h ∉ visits c g := by
  have bounds := lay.nursery_bounds young
  intro visited
  simp only [visits, List.mem_append, List.mem_flatMap] at visited
  rcases visited with root | listed | ⟨k, member, traced⟩
  · exact (lay.roots h root).2.1 (by omega)
  · exact remembered h listed (by omega)
  · exact tracedSlots_plain lay member h traced (List.mem_append_left _ young)

theorem redirected_word {map : ForwardMap} (lay : Layout c g)
    (remembered : ∀ slot ∈ g.remembered, slot ≠ 0) (unvisited : x ∉ visits c g) :
    (redirected c map g).mem x = g.mem x := by
  refine (foldl_forwardSlot (lay.visits_nonnull remembered) g.mem x).trans ?_
  rw [List.count_eq_zero_of_not_mem unvisited]
  rfl

theorem redirected_unmarked {map : ForwardMap} (lay : Layout c g) (regular : Regular c map)
    (remembered : ∀ slot ∈ g.remembered,
      slot ≠ 0 ∧ ¬ (c.nurseryStart ≤ slot ∧ slot < c.nurseryLimit))
    (unmarked : ∀ h ∈ nurseryObjects c g, isMarked g.mem h = false) :
    ∀ h ∈ nurseryObjects c (redirected c map g), isMarked (redirected c map g).mem h = false := by
  intro h young
  have nonnull := lay.visits_nonnull fun slot listed => (remembered slot listed).1
  have start : Forwarded map g.mem g.mem := fun x => ⟨0, rfl⟩
  have same : nurseryObjects c (redirected c map g) = nurseryObjects c g :=
    (lay.forwarded regular (start.foldl nonnull)).2.1
  rw [same] at young
  have unvisited := lay.nursery_not_visited (fun slot listed => (remembered slot listed).2) young
  have word : (redirected c map g).mem h = g.mem h :=
    redirected_word lay (fun slot listed => (remembered slot listed).1) unvisited
  rw [isMarked_eq_false_iff, word]
  exact isMarked_eq_false_iff.mp (unmarked h young)

theorem intact_rebuilt (lay : Layout c g)
    (unmarked : ∀ h ∈ nurseryObjects c g, isMarked g.mem h = false) (settled : Settled c g) :
    Intact c (rebuildRemembered c g) := by
  obtain ⟨tracked, complete⟩ := youngSlots_tracked lay
  rw [rebuildRemembered_eq lay]
  exact { layout := ⟨lay.nursery, lay.nurseryFits, lay.tenured, lay.tenuredFits, lay.blocks,
            lay.blocksApart, lay.sound, lay.modest, lay.roots⟩
          tracked, unmarked, settled, complete }

namespace Intact

variable (intact : Intact c g)
include intact

theorem marking : ∃ mem, afterMarking c g = { g with mem } ∧ Rehead c g mem ∧
    ∀ h ∈ objects c g, (isMarked mem h = true ↔ Survives c g h) ∧ ageAt mem h = ageAt g.mem h :=
  markPhase intact.layout intact.tracked intact.unmarked

theorem minorCollect_eq : minorCollect c g =
    if minorEnd c g ≤ c.tenuredLimit then some (afterMinor c g) else none := by
  obtain ⟨mem, marked, re, -⟩ := intact.marking
  obtain ⟨lay, -, -⟩ := re.layout intact.layout
  have tracked := re.tracked intact.layout intact.tracked
  have nonnull : ∀ slot ∈ ({ g with mem } : State).remembered, slot ≠ 0 := fun slot listed =>
    (tracked.outside lay slot listed).1
  rw [minorCollect, ← afterMarking, minorEnd, afterMinor, marked, promoteSurvivors_eq lay nonnull]
  split <;> rfl

theorem minor_relocation (room : minorEnd c g ≤ c.tenuredLimit) :
    Relocation c g (afterMinor c g) (moved (survivorMoves c (afterMarking c g)))
      (target (survivorMoves c (afterMarking c g))) (KeptByMinor c g)
      fun x => (visits c (promoted c (afterMarking c g))).count x := by
  obtain ⟨mem, marked, re, marks⟩ := intact.marking
  obtain ⟨lay, -, tenured⟩ := re.layout intact.layout
  have tracked := re.tracked intact.layout intact.tracked
  have nonnull : ∀ slot ∈ ({ g with mem } : State).remembered, slot ≠ 0 := fun slot listed =>
    (tracked.outside lay slot listed).1
  rw [minorEnd, marked] at room
  rw [afterMinor, marked]
  refine ((promotion lay nonnull room).rebuilt.rehead re intact.layout).keeping fun h member => ?_
  -- Exactly the marked objects of the nursery are not dropped.
  have old : oldObjects c { g with mem } = oldObjects c g := by
    rw [oldObjects, tenured]
    rfl
  have survives : fateAt mem h ≠ .drop ↔ Survives c g h := by
    rw [← (marks h member).1, fateAt]
    by_cases was : isMarked mem h = true
    · rw [if_pos was]
      split <;> simp [was]
    · rw [if_neg was]
      simp [was]
  rw [KeptByPromotion, old, KeptByMinor]
  exact or_congr_right survives

theorem minor_closed : ∀ h ∈ objects c g, KeptByMinor c g h → ∀ slot ∈ tracedSlots g.mem h,
    ∀ k ∈ nurseryObjects c g, g.mem slot = k + 48 → KeptByMinor c g k := by
  intro h member keeps slot traced k young refers
  refine .inr (.inl ?_)
  by_cases old : h ∈ oldObjects c g
  · -- The slot of an old object is remembered.
    have listed := intact.complete h old slot traced k young refers
    exact .start (List.mem_append_right _ listed) refers (.inl young)
  · -- Marking goes on at an object of the nursery.
    have passes : ¬ Stops c g h := fun stops => old (List.mem_append_left _ stops.1)
    have found : Found c g h := (keeps.resolve_left old).resolve_right passes
    exact .field found passes traced refers (.inl young)

theorem minor (room : minorEnd c g ≤ c.tenuredLimit) : Intact c (afterMinor c g) := by
  have moves := intact.minor_relocation room
  obtain ⟨mem, marked, re, -⟩ := intact.marking
  obtain ⟨lay, -, -⟩ := re.layout intact.layout
  have tracked := re.tracked intact.layout intact.tracked
  have outside := tracked.outside lay
  rw [minorEnd, marked] at room
  have result : afterMinor c g = rebuildRemembered c
      (redirected c (moved (survivorMoves c { g with mem })) (promoted c { g with mem })) := by
    rw [afterMinor, marked]
  obtain ⟨after, nursery, -⟩ := promoted_layout lay room
  have step := promotion lay (fun slot listed => (outside slot listed).1) room
  -- Every object that stays in the nursery gets a new first word.
  have heads : ∀ h ∈ nurseryObjects c (promoted c { g with mem }),
      isMarked (promoted c { g with mem }).mem h = false := by
    intro d young
    rw [nursery, mem_places] at young
    obtain ⟨h, placed, -⟩ := young
    have inside := lay.nursery_bounds (survivorMoves_bounds lay placed).1
    have head := promoted_cell lay room placed (o := 0) (by omega)
    rw [Nat.add_zero, if_pos rfl] at head
    rw [isMarked_eq_false_iff, head]
    exact (promotedHead_bounds _).2
  have settled : Settled c (afterMinor c g) :=
    moves.settled intact.layout intact.settled intact.minor_closed
  have same := rebuildRemembered_eq step.layout
  rw [result] at settled ⊢
  refine intact_rebuilt step.layout
    (redirected_unmarked after (moved_regular lay room) outside heads) ?_
  rw [same] at settled
  exact settled

theorem sweep_relocation : Relocation c g (afterSweep c g) (moved (sweepMoves c g))
    (target (sweepMoves c g)) (KeptBySweep c g) fun x => (visits c (swept c g)).count x :=
  (sweep intact.layout fun slot listed =>
    (intact.tracked.outside intact.layout slot listed).1).rebuilt

theorem sweep : Intact c (afterSweep c g) := by
  have outside := intact.tracked.outside intact.layout
  have step := Gc.sweep intact.layout fun slot listed => (outside slot listed).1
  obtain ⟨after, nursery, -⟩ := swept_layout intact.layout
  have heads : ∀ h ∈ nurseryObjects c (swept c g), isMarked (swept c g).mem h = false := by
    intro h young
    rw [nursery] at young
    have member : h ∈ objects c g := List.mem_append_left _ young
    have inside := intact.layout.nursery_bounds young
    have head := swept_other intact.layout member (not_tenured intact.layout (.inl young)) (o := 0)
      (by omega)
    rw [Nat.add_zero] at head
    rw [isMarked_eq_false_iff, head]
    exact isMarked_eq_false_iff.mp (intact.unmarked h young)
  refine intact_rebuilt step.layout
    (redirected_unmarked after (sweepMoves_regular intact.layout) outside heads) ?_
  -- Nothing of the nursery is dropped.
  refine step.settled intact.layout intact.settled fun h _ _ slot _ k young _ tenured => ?_
  exact absurd tenured (not_tenured intact.layout (.inl young))

theorem sweepLarge : Intact c (rebuildRemembered c (Gc.sweepLarge g)) := by
  have lay := intact.layout
  have step := sweepLarge_relocation lay
  have re := sweepLarge_rehead lay
  have nodup := List.nodup_append.mp lay.nodup
  have notLarge : ∀ h ∈ nurseryObjects c g, h ∉ largeObjects g := fun h young large =>
    nodup.2.2 h young h (List.mem_append_right _ large) rfl
  refine intact_rebuilt step.layout (fun h young => ?_) ?_
  · have young : h ∈ nurseryObjects c g := (re.layout lay).2.1 ▸ young
    have even := isMarked_eq_false_iff.mp (intact.unmarked h young)
    have word : (Gc.sweepLarge g).mem h = g.mem h := by
      refine (foldl_clearMark _ g.mem h).trans (if_neg fun listed => notLarge h young ?_)
      exact (List.filter_sublist.map _).subset listed
    rw [isMarked_eq_false_iff, word]
    exact even
  · refine step.settled lay intact.settled fun h _ _ slot _ k young _ large => ?_
    exact absurd large (notLarge k young)

end Intact

/-- The state after a collection of all spaces, when there is room for the promoted objects. -/
def afterMajor (c : Config) (g : State) : State :=
  rebuildRemembered c (sweepLarge (afterSweep c (afterMinor c g)))

theorem Intact.majorCollect_eq (intact : Intact c g) : majorCollect c g =
    if minorEnd c g ≤ c.tenuredLimit then some (afterMajor c g) else none := by
  rw [majorCollect, intact.minorCollect_eq]
  split
  · rename_i room
    have after := intact.minor room
    have sweep := sweepTenured_eq after.layout fun slot listed =>
      (after.tracked.outside after.layout slot listed).1
    simp only [Option.bind_eq_bind, Option.bind_some, sweep]
    rfl
  · rfl

theorem Intact.major (intact : Intact c g) (room : minorEnd c g ≤ c.tenuredLimit) :
    Intact c (afterMajor c g) :=
  (intact.minor room).sweep.sweepLarge

end Nytrix.Rt.Gc
