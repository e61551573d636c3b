import Nytrix.Rt.GcMoving

/-! What the sweep of tenured space and of the large objects keeps, and where. -/

namespace Nytrix.Rt.Gc

open Nytrix.Lib

variable {c : Config} {g : State} {h v x : Nat}

/-- What the sweep does with an object of tenured space, by its mark. -/
def sweepFate (mem : Memory) (h : Nat) : Fate := if isMarked mem h then .stay else .drop

/-- The first word of the header of an object the sweep moved. -/
def sweptHead (w : Nat) : Nat :=
  headWord ((w % 2 ^ 32 ||| tenuredFlag) &&& (2 ^ 32 - 1 - markedFlag)) (w / 2 ^ 32)

theorem sweptHead_lt {w : Nat} (small : w < 2 ^ 48) : sweptHead w < 2 ^ 48 := by
  have flags : (w % 2 ^ 32 ||| tenuredFlag) < 2 ^ 32 :=
    Nat.or_lt_two_pow (Nat.mod_lt _ (by decide)) (by decide)
  have masked : (w % 2 ^ 32 ||| tenuredFlag) &&& (2 ^ 32 - 1 - markedFlag) ≤
    w % 2 ^ 32 ||| tenuredFlag := Nat.and_le_left
  simp only [sweptHead, headWord]
  omega

theorem sweepPlan_eq {mem : Memory} {p stop fuel : Nat} {hs : List Nat}
    (tiled : Tiled (totalAt mem) p stop hs) (newFree : Nat) (forwards : ForwardMap)
    (enough : stop - p ≤ fuel) :
    sweepPlan mem stop fuel p newFree forwards =
      (newFree + extent (sweepFate mem) (totalAt mem) .stay hs,
        forwards ++ moved (placements (sweepFate mem) (totalAt mem) hs newFree 0)) := by
  induction tiled generalizing fuel newFree forwards with
  | nil p => cases fuel <;> simp [sweepPlan, placements, moved]
  | @cons p stop rest positive more ih =>
    have ends := more.le
    obtain ⟨fuel, rfl⟩ : ∃ k, fuel = k + 1 := ⟨fuel - 1, by omega⟩
    have left : stop - (p + totalAt mem p) ≤ fuel := by omega
    rw [sweepPlan, if_pos (by omega), extent_cons, placements]
    by_cases marked : isMarked mem p = true
    · have kind : sweepFate mem p = .stay := by simp [sweepFate, marked]
      simp only [marked, if_true, kind]
      rw [ih _ _ left, forwardPush_eq, moved_cons _ (placements _ _ rest _ _), List.append_assoc,
        Nat.add_assoc]
    · have kind : sweepFate mem p = .drop := by simp [sweepFate, marked]
      simp only [marked, Bool.false_eq_true, if_false, kind, reduceCtorEq, Nat.zero_add]
      exact ih _ _ left

theorem sweepMove_eq {mem : Memory} {src dst : Nat} (positive : 0 < totalAt mem src) :
    sweepMove mem (objPtr src, objPtr dst) = transfer sweptHead src dst (totalAt mem src) mem := by
  have first : mem.copy dst src (totalAt mem src) dst = mem src := by
    simp [Memory.copy, positive]
  simp only [sweepMove, objPtr, objectDataOffset, Nat.add_sub_cancel, copy_store]
  rw [flagsAt, ageAt, first]
  rfl

theorem foldl_sweepMove (base : Memory) {ms : List (Nat × Nat)}
    (long : ∀ m ∈ ms, 48 ≤ totalAt base m.1)
    (orderly : ms.Pairwise fun a b => Apart a.2 (totalAt base a.1) b.1 (totalAt base b.1) ∧
      Apart a.2 (totalAt base a.1) b.2 (totalAt base b.1))
    {mem : Memory} (agree : ∀ m ∈ ms, mem (m.1 + 8) = base (m.1 + 8)) :
    (ms.map fun m => (objPtr m.1, objPtr m.2)).foldl sweepMove mem =
      ms.foldl (fun mem m => transfer sweptHead m.1 m.2 (totalAt base m.1) mem) mem := by
  induction ms generalizing mem with
  | nil => rfl
  | cons m ms ih =>
    obtain ⟨first, others⟩ := List.pairwise_cons.mp orderly
    have positive := long m (by simp)
    have total : totalAt mem m.1 = totalAt base m.1 := by
      rw [totalAt, sizeAt, agree m (by simp), totalAt, sizeAt]
    rw [List.map_cons, List.foldl_cons, List.foldl_cons, sweepMove_eq (by omega), total]
    refine ih (fun k later => long k (by simp [later])) others fun k later => ?_
    -- The object that moved was put where no later one still is.
    have apart := (first k later).1
    have room := long k (by simp [later])
    simp only [Apart] at apart
    rw [transfer_outside (by omega) (by omega)]
    exact agree k (by simp [later])

/-- Where the objects of tenured space go. -/
def sweepMoves (c : Config) (g : State) : List (Nat × Nat) :=
  placements (sweepFate g.mem) (totalAt g.mem) (tenuredObjects c g) c.tenuredStart 0

/-- The end of tenured space after the sweep. -/
def sweepEnd (c : Config) (g : State) : Nat :=
  c.tenuredStart + extent (sweepFate g.mem) (totalAt g.mem) .stay (tenuredObjects c g)

/-- The state in which the marked objects have moved and the references have not been redirected. -/
def swept (c : Config) (g : State) : State :=
  { g with mem := ((moved (sweepMoves c g)).foldl sweepMove g.mem).clear (sweepEnd c g)
             (g.tenuredFree - sweepEnd c g)
           tenuredFree := sweepEnd c g }

section Swept

variable (lay : Layout c g)
include lay

theorem sweepMoves_bounds {d : Nat} (member : (h, d) ∈ sweepMoves c g) :
    h ∈ tenuredObjects c g ∧ isMarked g.mem h = true ∧ d % 16 = 0 ∧ c.tenuredStart ≤ d ∧ d ≤ h ∧
      d + totalAt g.mem h ≤ sweepEnd c g := by
  have lengths : ∀ h ∈ tenuredObjects c g, totalAt g.mem h % 16 = 0 := fun h member =>
    (lay.sound h (by simp [objects, oldObjects, member])).room.2
  have aligned : d % 16 = 0 := placement_aligned (k := 16) c.tenuredAligned rfl lengths member
  obtain ⟨inside, ⟨kind, bounds⟩ | ⟨kind, -⟩⟩ := placement_bounds lay.tenured (Nat.le_refl _) member
  · refine ⟨inside, ?_, aligned, bounds⟩
    by_cases marked : isMarked g.mem h = true
    · exact marked
    · simp [sweepFate, marked] at kind
  · -- The sweep lets nothing leave.
    simp only [sweepFate] at kind
    split at kind <;> cases kind

theorem sweepEnd_le : sweepEnd c g ≤ g.tenuredFree := extent_le _ lay.tenured .stay

theorem sweepMoves_orderly : (sweepMoves c g).Pairwise fun a b =>
    Apart a.2 (totalAt g.mem a.1) b.1 (totalAt g.mem b.1) ∧
      Apart a.2 (totalAt g.mem a.1) b.2 (totalAt g.mem b.1) := by
  refine placements_pairwise _ lay.tenured (Nat.le_refl _) (.inr ?_)
  have none : extent (sweepFate g.mem) (totalAt g.mem) .leave (tenuredObjects c g) = 0 := by
    rw [extent, List.filter_eq_nil_iff.mpr]
    · rfl
    · intro h _
      rw [sweepFate]
      split <;> simp
  omega

/-- The first word of an object's header after the sweep: it is rewritten where the object moved. -/
def sweptWord (c : Config) (g : State) (h w : Nat) : Nat :=
  if target (sweepMoves c g) h = h then w else sweptHead w

omit lay in
/-- Moving a record to where it is changes nothing. -/
theorem transfer_self {head : Nat → Nat} {mem : Memory} {n : Nat} (same : head (mem h) = mem h) :
    transfer head h h n mem = mem := by
  funext x
  rw [transfer]
  split
  · rename_i here
    rw [same, here]
  · split
    · rw [Nat.add_sub_cancel' (by omega)]
    · rfl

omit lay in
/-- Records that stay where they are may be left out of the moves. -/
theorem foldl_transfer_filter {head : Nat → Nat → Nat} {len : Nat → Nat} {ms : List (Nat × Nat)}
    (still : ∀ m ∈ ms, m.1 = m.2 → ∀ w, head m.1 w = w) (mem : Memory) :
    (ms.filter fun m => m.1 ≠ m.2).foldl
        (fun mem m => transfer (head m.1) m.1 m.2 (len m.1) mem) mem =
      ms.foldl (fun mem m => transfer (head m.1) m.1 m.2 (len m.1) mem) mem := by
  induction ms generalizing mem with
  | nil => rfl
  | cons m ms ih =>
    have others : ∀ k ∈ ms, k.1 = k.2 → ∀ w, head k.1 w = w := fun k later =>
      still k (by simp [later])
    by_cases same : m.1 = m.2
    · rw [List.filter_cons_of_neg (by simp [same]), List.foldl_cons, ih others, ← same,
        transfer_self (still m (by simp) same _)]
    · rw [List.filter_cons_of_pos (by simp [same]), List.foldl_cons, List.foldl_cons, ih others]

theorem sweepMoves_nodup : ((sweepMoves c g).map Prod.fst).Nodup := placements_nodup lay.tenured

theorem foldl_sweepMove_eq :
    (moved (sweepMoves c g)).foldl sweepMove g.mem = (sweepMoves c g).foldl
      (fun mem m => transfer (sweptWord c g m.1) m.1 m.2 (totalAt g.mem m.1) mem) g.mem := by
  have inside : ∀ m ∈ (sweepMoves c g).filter (fun m => m.1 ≠ m.2), m ∈ sweepMoves c g :=
    fun m listed => (List.mem_filter.mp listed).1
  rw [moved, foldl_sweepMove g.mem, ← foldl_transfer_filter]
  · -- An object that moves gets the new first word.
    refine List.foldl_ext _ _ _ fun mem m listed => ?_
    obtain ⟨here, elsewhere⟩ := List.mem_filter.mp listed
    have goes : target (sweepMoves c g) m.1 = m.2 := target_of_mem (sweepMoves_nodup lay) here
    have word : sweptWord c g m.1 = sweptHead := by
      funext w
      rw [sweptWord, goes, if_neg]
      simp only [ne_eq, decide_not, Bool.not_eq_true', decide_eq_false_iff_not] at elsewhere
      exact fun same => elsewhere same.symm
    rw [word]
  · intro m listed same w
    rw [sweptWord, target_of_mem (sweepMoves_nodup lay) listed, if_pos same.symm]
  · intro m listed
    have bounds := sweepMoves_bounds lay (h := m.1) (d := m.2) (inside m listed)
    exact (lay.tenured_bounds bounds.1).2.2.2.1
  · exact (sweepMoves_orderly lay).filter _
  · exact fun _ _ => rfl

theorem swept_cell {d o : Nat} (member : (h, d) ∈ sweepMoves c g) (inside : o < totalAt g.mem h) :
    (swept c g).mem (d + o) = if o = 0 then sweptWord c g h (g.mem h) else g.mem (h + o) := by
  have bounds := sweepMoves_bounds lay member
  have positive : ∀ m ∈ sweepMoves c g, 0 < totalAt g.mem m.1 := fun m listed =>
    (lay.tenured.bounds (sweepMoves_bounds lay (h := m.1) (d := m.2) listed).1).2.2
  have placed := (foldl_transfer (sweptWord c g) g.mem positive (sweepMoves_orderly lay)).1
    (h, d) member o inside
  simp only [swept, Memory.clear]
  rw [if_neg (by omega), foldl_sweepMove_eq lay]
  exact placed

theorem swept_else (outside : x < c.tenuredStart ∨ g.tenuredFree ≤ x) :
    (swept c g).mem x = g.mem x := by
  have positive : ∀ m ∈ sweepMoves c g, 0 < totalAt g.mem m.1 := fun m listed =>
    (lay.tenured.bounds (sweepMoves_bounds lay (h := m.1) (d := m.2) listed).1).2.2
  have ends := sweepEnd_le lay
  have low : c.tenuredStart ≤ sweepEnd c g := Nat.le_add_right _ _
  simp only [swept, Memory.clear]
  rw [if_neg (by omega), foldl_sweepMove_eq lay]
  refine (foldl_transfer (sweptWord c g) g.mem positive (sweepMoves_orderly lay)).2 x
    fun m listed => ?_
  have bounds := sweepMoves_bounds lay (h := m.1) (d := m.2) listed
  omega

theorem swept_other (member : h ∈ objects c g) (other : h ∉ tenuredObjects c g) {o : Nat}
    (inside : o < totalAt g.mem h) : (swept c g).mem (h + o) = g.mem (h + o) := by
  have spaces := c.apart
  have nurseryFits := lay.nurseryFits
  have tenuredFits := lay.tenuredFits
  have tenuredLow := lay.tenured.le
  refine swept_else lay ?_
  rcases Layout.object_cases member with young | old | large
  · have bounds := lay.nursery_bounds young
    omega
  · exact absurd old other
  · have tenured := (lay.large_bounds large).1.tenured
    simp only [Apart] at tenured
    omega

theorem swept_sound {d : Nat} (member : (h, d) ∈ sweepMoves c g) :
    Sound (swept c g).mem d ∧ sizeAt (swept c g).mem d = sizeAt g.mem h := by
  have bounds := sweepMoves_bounds lay member
  have sound := lay.sound h (by simp [objects, oldObjects, bounds.1])
  refine sound.copied bounds.2.2.1 (fun o low high => ?_) ?_
  · rw [swept_cell lay member high, if_neg (by omega)]
  · have head := swept_cell lay member (o := 0) (by have := sound.room; omega)
    rw [Nat.add_zero, if_pos rfl] at head
    rw [head, sweptWord]
    split
    · exact sound.head
    · exact sweptHead_lt sound.head

theorem swept_sound_other (member : h ∈ objects c g) (other : h ∉ tenuredObjects c g) :
    Sound (swept c g).mem h ∧ sizeAt (swept c g).mem h = sizeAt g.mem h := by
  have sound := lay.sound h member
  refine sound.copied sound.aligned (fun o low high => swept_other lay member other high) ?_
  have head := swept_other lay member other (o := 0) (by have := sound.room; omega)
  rw [Nat.add_zero] at head
  rw [head]
  exact sound.head

omit lay in
/-- What the sweep keeps: the marked objects of tenured space and all others. -/
def KeptBySweep (c : Config) (g : State) (h : Nat) : Prop :=
  h ∈ tenuredObjects c g → isMarked g.mem h = true

theorem not_tenured (other : h ∈ nurseryObjects c g ∨ h ∈ largeObjects g) :
    h ∉ tenuredObjects c g := by
  intro tenured
  have nodup := List.nodup_append.mp lay.nodup
  rcases other with young | large
  · exact nodup.2.2 h young h (List.mem_append_left _ tenured) rfl
  · exact (List.nodup_append.mp nodup.2.1).2.2 h tenured h large rfl

theorem swept_layout :
    Layout c (swept c g) ∧ nurseryObjects c (swept c g) = nurseryObjects c g ∧
      tenuredObjects c (swept c g) = (sweepMoves c g).map Prod.snd := by
  have long : ∀ h ∈ tenuredObjects c g, 0 < totalAt g.mem h := fun h member =>
    (lay.tenured.bounds member).2.2
  have fresh : ∀ m ∈ sweepMoves c g, totalAt (swept c g).mem m.2 = totalAt g.mem m.1 :=
    fun m member => by rw [totalAt, (swept_sound lay (h := m.1) member).2, totalAt]
  have young : ∀ h ∈ nurseryObjects c g, totalAt (swept c g).mem h = totalAt g.mem h :=
    fun h member => by
      rw [totalAt, (swept_sound_other lay (List.mem_append_left _ member)
        (not_tenured lay (.inl member))).2, totalAt]
  have stays := (placements_tiled fresh long).1
  have all : (sweepMoves c g).filter (fun m => sweepFate g.mem m.1 = .stay) = sweepMoves c g := by
    refine List.filter_eq_self.mpr fun m listed => ?_
    simp [sweepFate, (sweepMoves_bounds lay (h := m.1) (d := m.2) listed).2.1]
  have tiled : Tiled (totalAt (swept c g).mem) c.tenuredStart (sweepEnd c g)
      ((sweepMoves c g).map Prod.snd) := all ▸ stays
  have nurseryTiled : Tiled (totalAt (swept c g).mem) c.nurseryStart g.nurseryPtr
      (nurseryObjects c g) := lay.nursery.congr young
  have nursery : nurseryObjects c (swept c g) = nurseryObjects c g :=
    nurseryObjects_eq nurseryTiled
  have tenured : tenuredObjects c (swept c g) = (sweepMoves c g).map Prod.snd :=
    tenuredObjects_eq tiled
  -- Every object is one that was kept in tenured space, or lies elsewhere.
  have origin : ∀ k ∈ objects c (swept c g), (∃ h, (h, k) ∈ sweepMoves c g) ∨
      k ∈ objects c g ∧ k ∉ tenuredObjects c g := by
    intro k member
    rcases Layout.object_cases member with inNursery | inTenured | large
    · rw [nursery] at inNursery
      exact .inr ⟨List.mem_append_left _ inNursery, not_tenured lay (.inl inNursery)⟩
    · rw [tenured] at inTenured
      obtain ⟨m, listed, rfl⟩ := List.mem_map.mp inTenured
      exact .inl ⟨m.1, listed⟩
    · have large : k ∈ largeObjects g := large
      exact .inr ⟨by simp [objects, oldObjects, large], not_tenured lay (.inr large)⟩
  refine ⟨{ nursery := nursery ▸ nurseryTiled, nurseryFits := lay.nurseryFits
            tenured := tenured ▸ tiled
            tenuredFits := Nat.le_trans (sweepEnd_le lay) lay.tenuredFits
            blocks := fun l listed => ?_, blocksApart := lay.blocksApart
            sound := fun k member => ?_, modest := fun k member => ?_
            roots := lay.roots }, nursery, tenured⟩
  · have large : l.header ∈ largeObjects g := List.mem_map_of_mem listed
    rw [totalAt, (swept_sound_other lay (by simp [objects, oldObjects, large])
      (not_tenured lay (.inr large))).2]
    exact lay.blocks l listed
  · rcases origin k member with ⟨h, moved⟩ | ⟨object, other⟩
    · exact (swept_sound lay moved).1
    · exact (swept_sound_other lay object other).1
  · rcases origin k member with ⟨h, moved⟩ | ⟨object, other⟩
    · rw [(swept_sound lay moved).2]
      exact lay.modest h (by simp [objects, oldObjects, (sweepMoves_bounds lay moved).1])
    · rw [(swept_sound_other lay object other).2]
      exact lay.modest k object

theorem sweepMoves_regular : Regular c (moved (sweepMoves c g)) := by
  intro m listed
  obtain ⟨⟨h, d⟩, member, rfl⟩ := List.mem_map.mp listed
  have bounds := sweepMoves_bounds lay (List.mem_filter.mp member).1
  have old := lay.tenured_bounds bounds.1
  have tenuredUser := c.tenuredUser
  simp only [objPtr, objectDataOffset]
  exact ⟨⟨by omega, by omega, by omega⟩, ⟨by omega, by omega, by omega⟩⟩

theorem sweepTarget_other (other : h ∉ tenuredObjects c g) : target (sweepMoves c g) h = h := by
  refine target_of_not_mem fun listed => other ?_
  obtain ⟨m, member, rfl⟩ := List.mem_map.mp listed
  exact (sweepMoves_bounds lay (h := m.1) (d := m.2) member).1

theorem sweep_placed (tenured : h ∈ tenuredObjects c g) (kept : KeptBySweep c g h) :
    (h, target (sweepMoves c g) h) ∈ sweepMoves c g := by
  obtain ⟨d, listed⟩ : ∃ d, (h, d) ∈ sweepMoves c g :=
    exists_placement tenured (by simp [sweepFate, kept tenured])
  rwa [target_of_mem (sweepMoves_nodup lay) listed]

theorem swept_object_iff (k : Nat) : k ∈ objects c (swept c g) ↔
    ∃ h ∈ objects c g, KeptBySweep c g h ∧ target (sweepMoves c g) h = k := by
  obtain ⟨-, nursery, tenured⟩ := swept_layout lay
  have large : largeObjects (swept c g) = largeObjects g := rfl
  constructor
  · intro member
    have same : k ∈ nurseryObjects c g ∨ k ∈ largeObjects g →
        ∃ h ∈ objects c g, KeptBySweep c g h ∧ target (sweepMoves c g) h = k := fun other => by
      have outside := not_tenured lay other
      refine ⟨k, ?_, fun inside => absurd inside outside, sweepTarget_other lay outside⟩
      simp only [objects, oldObjects, List.mem_append]
      tauto
    rcases Layout.object_cases member with young | old | listed
    · exact same (.inl (nursery ▸ young))
    · rw [tenured] at old
      obtain ⟨⟨h, d⟩, placed, rfl⟩ := List.mem_map.mp old
      have bounds := sweepMoves_bounds lay placed
      exact ⟨h, by simp [objects, oldObjects, bounds.1], fun _ => bounds.2.1,
        target_of_mem (sweepMoves_nodup lay) placed⟩
    · exact same (.inr listed)
  · rintro ⟨h, member, kept, rfl⟩
    simp only [objects, oldObjects, nursery, tenured, large, List.mem_append]
    rcases Layout.object_cases member with young | old | listed
    · rw [sweepTarget_other lay (not_tenured lay (.inl young))]
      exact .inl young
    · exact .inr (.inl (List.mem_map_of_mem (sweep_placed lay old kept)))
    · rw [sweepTarget_other lay (not_tenured lay (.inr listed))]
      exact .inr (.inr listed)

theorem sweepTarget_bounds (tenured : h ∈ tenuredObjects c g) (kept : KeptBySweep c g h) :
    c.tenuredStart ≤ target (sweepMoves c g) h ∧
      target (sweepMoves c g) h + totalAt g.mem h ≤ g.tenuredFree := by
  have bounds := sweepMoves_bounds lay (sweep_placed lay tenured kept)
  have ends := sweepEnd_le lay
  omega

theorem sweepTarget_injective : ∀ h ∈ objects c g, ∀ k ∈ objects c g, KeptBySweep c g h →
    KeptBySweep c g k → target (sweepMoves c g) h = target (sweepMoves c g) k → h = k := by
  intro h first k second keptFirst keptSecond shared
  have spaces := c.apart
  have nurseryFits := lay.nurseryFits
  have tenuredFits := lay.tenuredFits
  -- An object elsewhere is not where one of tenured space is put.
  have differ : ∀ {h k}, h ∈ tenuredObjects c g → KeptBySweep c g h → k ∈ objects c g →
      k ∉ tenuredObjects c g → target (sweepMoves c g) h ≠ k := by
    rintro h k tenured kept member other rfl
    have bounds := sweepTarget_bounds lay tenured kept
    have long := lay.tenured_bounds tenured
    rcases Layout.object_cases member with young | old | large
    · have := lay.nursery_bounds young
      omega
    · exact other old
    · obtain ⟨block, -, room⟩ := lay.large_bounds large
      have tenured := block.tenured
      simp only [Apart] at tenured
      omega
  by_cases one : h ∈ tenuredObjects c g <;> by_cases two : k ∈ tenuredObjects c g
  · have placed := sweep_placed lay one keptFirst
    have placed' := sweep_placed lay two keptSecond
    rw [shared] at placed
    obtain ⟨after, -, places⟩ := swept_layout lay
    have nodup : ((sweepMoves c g).map Prod.snd).Nodup := places ▸ after.tenured.nodup
    exact congrArg Prod.fst (List.inj_on_of_nodup_map nodup placed placed' rfl)
  · rw [sweepTarget_other lay two] at shared
    exact absurd shared (differ one keptFirst second two)
  · rw [sweepTarget_other lay one] at shared
    exact absurd shared.symm (differ two keptSecond first one)
  · rwa [sweepTarget_other lay one, sweepTarget_other lay two] at shared

theorem sweep (nonnull : ∀ slot ∈ g.remembered, slot ≠ 0) :
    Relocation c g (redirected c (moved (sweepMoves c g)) (swept c g)) (moved (sweepMoves c g))
      (target (sweepMoves c g)) (KeptBySweep c g) fun x => (visits c (swept c g)).count x := by
  have tenuredMapped := c.tenuredMapped
  have source : ∀ m ∈ sweepMoves c g, m.1 ∈ tenuredObjects c g := fun m listed =>
    (sweepMoves_bounds lay (h := m.1) (d := m.2) listed).1
  refine relocation_of_moves lay (swept_layout lay).1 rfl nonnull (sweepMoves_nodup lay)
    (fun m listed => ?_) (fun m listed => ?_) (sweepMoves_regular lay) (swept_object_iff lay)
    (sweepTarget_injective lay) (fun h member lost => ?_) (fun h member kept o low high => ?_)
    fun x out => ?_
  · have := lay.tenured_bounds (source m listed)
    omega
  · simp [objects, oldObjects, source m listed]
  · refine target_of_not_mem fun listed => lost fun _ => ?_
    obtain ⟨m, placed, rfl⟩ := List.mem_map.mp listed
    exact (sweepMoves_bounds lay (h := m.1) (d := m.2) placed).2.1
  · by_cases tenured : h ∈ tenuredObjects c g
    · rw [swept_cell lay (sweep_placed lay tenured kept) high, if_neg (by omega)]
    · rw [sweepTarget_other lay tenured]
      exact swept_other lay member tenured high
  · have tenuredFits := lay.tenuredFits
    exact swept_else lay (by have := out.2.1; omega)

theorem sweepTenured_eq (nonnull : ∀ slot ∈ g.remembered, slot ≠ 0) :
    sweepTenured c g =
      rebuildRemembered c (redirected c (moved (sweepMoves c g)) (swept c g)) := by
  have plan := sweepPlan_eq lay.tenured c.tenuredStart [] (Nat.le_refl _)
  have apply := applyForwards_eq (swept_layout lay).1 (sweepMoves_regular lay) nonnull
  rw [sweepTenured, plan]
  simp only [List.nil_append]
  -- Where nothing moved, the references are left alone, which is the same.
  split
  · rename_i none
    have none : moved (sweepMoves c g) = [] := none
    rw [redirected, none, foldl_forwardSlot_nil]
    rfl
  · exact congrArg (rebuildRemembered c) apply

end Swept

end Nytrix.Rt.Gc
