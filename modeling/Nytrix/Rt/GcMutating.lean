import Nytrix.Rt.GcCollecting

/-! Allocation, stores and changes of the roots keep the collector's invariant. -/

namespace Nytrix.Rt.Gc

open Nytrix.Lib

variable {c : Config} {g : State} {h v x : Nat}

/-- The memory with a new object, after its maker has written the tag. -/
def newObject (mem : Memory) (h size flags age tag : Nat) : Memory :=
  (initObject mem h size flags age).store (h + 40) tag

section NewObject

variable {mem : Memory} {size flags age tag : Nat}

theorem newObject_outside (outside : x < h ∨ h + allocSize size ≤ x) (small : size < 2 ^ 47) :
    newObject mem h size flags age tag x = mem x := by
  have total := allocSize_eq small
  simp only [newObject, initObject, Memory.store, Memory.clear]
  rw [if_neg (by omega), if_neg (by omega), if_neg (by omega), if_neg (by omega), if_neg (by omega),
    if_neg (by omega)]

theorem newObject_cell {o : Nat} (inside : o < allocSize size) (small : size < 2 ^ 47) :
    newObject mem h size flags age tag (h + o) =
      if o = 0 then headWord flags age else if o = 8 then size else if o = 16 then magic1
      else if o = 24 then 2 * bodySize size + 1 else if o = 40 then tag else 0 := by
  have total := allocSize_eq small
  have body := bodySize_eq small
  have slack : 2 * bodySize size % 2 ^ 64 ||| 1 = 2 * bodySize size + 1 := by
    have bit := or_markedFlag (2 * bodySize size % 2 ^ 64)
    simp only [markedFlag] at bit
    omega
  simp only [newObject, initObject, Memory.store, Memory.clear, slack]
  by_cases tagWord : o = 40
  · simp [tagWord]
  · by_cases slackWord : o = 24
    · simp [slackWord]
    · by_cases magicWord : o = 16
      · simp [magicWord]
      · by_cases sizeWord : o = 8
        · simp [sizeWord]
        · by_cases headerWord : o = 0
          · simp [headerWord]
          · have cleared : h ≤ h + o ∧ h + o < h + allocSize size := by omega
            simp [tagWord, slackWord, magicWord, sizeWord, headerWord, cleared.2]

theorem newObject_size (small : size < 2 ^ 47) :
    sizeAt (newObject mem h size flags age tag) h = size := by
  have total := allocSize_eq small
  rw [sizeAt, newObject_cell (by omega) small]
  simp

theorem newObject_sound (aligned : h % 16 = 0) (small : size < 2 ^ 47) (flagsSmall : flags < 2 ^ 32)
    (ageSmall : age < 2 ^ 15) (tagSmall : tag < 0x1000) :
    Sound (newObject mem h size flags age tag) h := by
  have total := allocSize_eq small
  have body := bodySize_eq small
  have size_eq : sizeAt (newObject mem h size flags age tag) h = size := newObject_size small
  have head : newObject mem h size flags age tag h = headWord flags age := by
    have first : newObject mem h size flags age tag (h + 0) = _ := newObject_cell (by omega) small
    simpa using first
  refine ⟨aligned, ?_, by omega, ?_, ?_, ?_, fun o whole inside magic => ?_⟩
  · rw [head, headWord]
    omega
  · rw [newObject_cell (by omega) small]
    simp
  · rw [newObject_cell (by omega) small, size_eq]
    simp
  · rw [tagAt, newObject_cell (by omega) small]
    simpa using tagSmall
  · -- No other word of a new object is as large as the magic word, or even.
    rw [totalAt, size_eq] at inside
    rw [newObject_cell inside small, magic1] at magic
    simp only [headWord] at magic
    split at magic
    · omega
    · split at magic
      · omega
      · split at magic
        · assumption
        · split at magic
          · omega
          · split at magic <;> omega

theorem newObject_traced (small : size < 2 ^ 47) {slot : Nat}
    (sound : Sound (newObject mem h size flags age tag) h)
    (traced : slot ∈ tracedSlots (newObject mem h size flags age tag) h) :
    newObject mem h size flags age tag slot = 0 := by
  have bounds := sound.tracedSlots_bounds traced
  rw [totalAt, newObject_size small] at bounds
  have cell : newObject mem h size flags age tag (h + (slot - h)) = _ :=
    newObject_cell (by omega) small
  rw [Nat.add_sub_cancel' (by omega)] at cell
  rw [cell, if_neg (by omega), if_neg (by omega), if_neg (by omega), if_neg (by omega),
    if_neg (by omega)]

end NewObject

theorem Layout.growNursery (lay : Layout c g) (sound : Sound g.mem g.nurseryPtr)
    (modest : sizeAt g.mem g.nurseryPtr < c.nurseryStart ∧ sizeAt g.mem g.nurseryPtr < c.tenuredStart)
    (fits : g.nurseryPtr + totalAt g.mem g.nurseryPtr ≤ c.nurseryLimit) :
    Layout c { g with nurseryPtr := g.nurseryPtr + totalAt g.mem g.nurseryPtr } ∧
      nurseryObjects c { g with nurseryPtr := g.nurseryPtr + totalAt g.mem g.nurseryPtr } =
        nurseryObjects c g ++ [g.nurseryPtr] := by
  have room := sound.room
  have tiled := lay.nursery.snoc (by omega)
  have nursery : nurseryObjects c
      { g with nurseryPtr := g.nurseryPtr + totalAt g.mem g.nurseryPtr } =
      nurseryObjects c g ++ [g.nurseryPtr] := nurseryObjects_eq tiled
  have cases : ∀ k ∈ objects c { g with nurseryPtr := g.nurseryPtr + totalAt g.mem g.nurseryPtr },
      k ∈ objects c g ∨ k = g.nurseryPtr := by
    intro k member
    rw [objects, nursery] at member
    rcases List.mem_append.mp member with young | old
    · rcases List.mem_append.mp young with before | new
      · exact .inl (List.mem_append_left _ before)
      · exact .inr (List.mem_singleton.mp new)
    · exact .inl (List.mem_append_right _ old)
  refine ⟨{ nursery := nursery ▸ tiled, nurseryFits := fits, tenured := lay.tenured
            tenuredFits := lay.tenuredFits, blocks := lay.blocks, blocksApart := lay.blocksApart
            sound := fun k member => ?_, modest := fun k member => ?_, roots := lay.roots }, nursery⟩
  · rcases cases k member with before | rfl
    · exact lay.sound k before
    · exact sound
  · rcases cases k member with before | rfl
    · exact lay.modest k before
    · exact modest

theorem Layout.growTenured (lay : Layout c g) (sound : Sound g.mem g.tenuredFree)
    (modest : sizeAt g.mem g.tenuredFree < c.nurseryStart ∧
      sizeAt g.mem g.tenuredFree < c.tenuredStart)
    (fits : g.tenuredFree + totalAt g.mem g.tenuredFree ≤ c.tenuredLimit) :
    Layout c { g with tenuredFree := g.tenuredFree + totalAt g.mem g.tenuredFree } ∧
      tenuredObjects c { g with tenuredFree := g.tenuredFree + totalAt g.mem g.tenuredFree } =
        tenuredObjects c g ++ [g.tenuredFree] := by
  have room := sound.room
  have tiled := lay.tenured.snoc (by omega)
  have tenured : tenuredObjects c
      { g with tenuredFree := g.tenuredFree + totalAt g.mem g.tenuredFree } =
      tenuredObjects c g ++ [g.tenuredFree] := tenuredObjects_eq tiled
  have cases : ∀ k ∈ objects c
      { g with tenuredFree := g.tenuredFree + totalAt g.mem g.tenuredFree },
      k ∈ objects c g ∨ k = g.tenuredFree := by
    intro k member
    rw [objects, oldObjects, tenured] at member
    simp only [List.mem_append, List.mem_singleton] at member
    simp only [objects, oldObjects, List.mem_append]
    rcases member with young | (before | new) | large
    · exact .inl (.inl young)
    · exact .inl (.inr (.inl before))
    · exact .inr new
    · exact .inl (.inr (.inr large))
  refine ⟨{ nursery := lay.nursery, nurseryFits := lay.nurseryFits, tenured := tenured ▸ tiled
            tenuredFits := fits, blocks := lay.blocks, blocksApart := lay.blocksApart
            sound := fun k member => ?_, modest := fun k member => ?_, roots := lay.roots }, tenured⟩
  · rcases cases k member with before | rfl
    · exact lay.sound k before
    · exact sound
  · rcases cases k member with before | rfl
    · exact lay.modest k before
    · exact modest

/-- A block the C allocator may give: apart from the spaces, the other blocks and the roots. -/
structure FreshBlock (c : Config) (g : State) (l : Large) : Prop where
  block : Block c l
  apart : ∀ k ∈ g.large, Apart l.header l.total k.header k.total
  roots : ∀ slot ∈ g.roots, ¬ (l.header ≤ slot ∧ slot < l.header + l.total)

theorem Layout.growLarge (lay : Layout c g) {l : Large} (fresh : FreshBlock c g l)
    (sound : Sound g.mem l.header) (total : l.total = totalAt g.mem l.header)
    (modest : sizeAt g.mem l.header < c.nurseryStart ∧ sizeAt g.mem l.header < c.tenuredStart) :
    Layout c { g with large := l :: g.large } := by
  have cases : ∀ k ∈ objects c { g with large := l :: g.large }, k ∈ objects c g ∨ k = l.header := by
    intro k member
    simp only [objects, oldObjects, largeObjects, List.map_cons, List.mem_append,
      List.mem_cons] at member ⊢
    rcases member with young | tenured | new | large
    · exact .inl (.inl young)
    · exact .inl (.inr (.inl tenured))
    · exact .inr new
    · exact .inl (.inr (.inr large))
  refine { nursery := lay.nursery, nurseryFits := lay.nurseryFits, tenured := lay.tenured
           tenuredFits := lay.tenuredFits, blocks := fun k listed => ?_
           blocksApart := .cons fresh.apart lay.blocksApart
           sound := fun k member => ?_, modest := fun k member => ?_
           roots := fun slot listed => ?_ }
  · rcases List.mem_cons.mp listed with rfl | before
    · exact ⟨fresh.block, total⟩
    · exact lay.blocks k before
  · rcases cases k member with before | rfl
    · exact lay.sound k before
    · exact sound
  · rcases cases k member with before | rfl
    · exact lay.modest k before
    · exact modest
  · obtain ⟨nonnull, nursery, tenured, blocks⟩ := lay.roots slot listed
    refine ⟨nonnull, nursery, tenured, fun k member => ?_⟩
    rcases List.mem_cons.mp member with rfl | before
    · exact fresh.roots slot listed
    · exact blocks k before

/-- What the making of an object changes: there is one more, without marks and references. -/
structure Extended (c : Config) (g g' : State) : Prop where
  layout : Layout c g'
  remembered : g'.remembered = g.remembered
  roots : g'.roots = g.roots
  cells : ∀ k ∈ objects c g, ∀ o < totalAt g.mem k, g'.mem (k + o) = g.mem (k + o)
  outside : ∀ x, Outside c g' x → g'.mem x = g.mem x
  youngStays : ∀ k ∈ nurseryObjects c g, k ∈ nurseryObjects c g'
  oldStays : ∀ k ∈ oldObjects c g, k ∈ oldObjects c g'
  young : ∀ k ∈ nurseryObjects c g', k ∈ nurseryObjects c g ∨ k ∉ objects c g
  old : ∀ k ∈ oldObjects c g', k ∈ oldObjects c g ∨ k ∉ objects c g
  blank : ∀ k ∈ objects c g', k ∉ objects c g →
    isMarked g'.mem k = false ∧ ∀ slot ∈ tracedSlots g'.mem k, g'.mem slot = 0

theorem tracedSlots_of_cells {mem mem' : Memory} (sound : Sound mem h)
    (cells : ∀ o < totalAt mem h, mem' (h + o) = mem (h + o)) :
    tracedSlots mem' h = tracedSlots mem h := by
  have room := sound.room
  simp only [sizeAt] at room
  have offsets : (tracedOffsets fun o => mem' (h + o)) = tracedOffsets fun o => mem (h + o) :=
    tracedOffsets_congr (cells 8 (by omega)) (cells 40 (by omega)) fun o _ high _ =>
      .inl (cells o (by omega))
  rw [tracedSlots, tracedSlots, offsets]

namespace Extended

variable {g' : State}

theorem slot_word (more : Extended c g g') (lay : Layout c g) (member : h ∈ objects c g) {slot : Nat}
    (traced : slot ∈ tracedSlots g'.mem h) :
    slot ∈ tracedSlots g.mem h ∧ g'.mem slot = g.mem slot := by
  have sound := lay.sound h member
  rw [tracedSlots_of_cells sound (more.cells h member)] at traced
  have bounds := sound.tracedSlots_bounds traced
  have word := more.cells h member (slot - h) (by omega)
  rw [Nat.add_sub_cancel' (by omega)] at word
  exact ⟨traced, word⟩

theorem intact (more : Extended c g g') (before : Intact c g) : Intact c g' := by
  have lay := before.layout
  have nurseryMapped := c.nurseryMapped
  have total : ∀ k ∈ objects c g, totalAt g'.mem k = totalAt g.mem k := fun k member => by
    have room := (lay.sound k member).room
    rw [totalAt, sizeAt, more.cells k member 8 (by omega), totalAt, sizeAt]
  refine ⟨more.layout, ⟨fun slot listed => ?_, more.remembered ▸ before.tracked.once⟩,
    fun k young => ?_, fun k member slot traced inside => ?_, fun k old slot traced j young refers => ?_⟩
  · rw [more.remembered] at listed
    obtain ⟨k, old, low, high, aligned⟩ := before.tracked.body slot listed
    exact ⟨k, more.oldStays k old, low, by rwa [total k (List.mem_append_right _ old)], aligned⟩
  · rcases more.young k young with was | new
    · have member : k ∈ objects c g := List.mem_append_left _ was
      have room := (lay.sound k member).room
      have head := more.cells k member 0 (by omega)
      rw [Nat.add_zero] at head
      rw [isMarked_eq_false_iff, head]
      exact isMarked_eq_false_iff.mp (before.unmarked k was)
    · exact (more.blank k (List.mem_append_left _ young) new).1
  · -- A new object holds no address, and the old ones refer to what they referred to.
    by_cases was : k ∈ objects c g
    · obtain ⟨slotWas, word⟩ := more.slot_word lay was traced
      rw [word] at inside ⊢
      obtain ⟨j, young, value⟩ := before.settled k was slot slotWas inside
      exact ⟨j, more.youngStays j young, value⟩
    · rw [(more.blank k member was).2 slot traced, InNursery] at inside
      omega
  · rcases more.old k old with was | new
    · have member : k ∈ objects c g := List.mem_append_right _ was
      obtain ⟨slotWas, word⟩ := more.slot_word lay member traced
      rw [word] at refers
      -- No slot referred to where the new object is.
      have inside : InNursery c (g.mem slot) := by
        rw [refers]
        exact more.layout.inNursery young
      obtain ⟨i, youngWas, value⟩ := before.settled k member slot slotWas inside
      rw [more.remembered]
      exact before.complete k was slot slotWas i youngWas value
    · rw [(more.blank k (List.mem_append_right _ old) new).2 slot traced] at refers
      omega

end Extended

theorem Layout.place (lay : Layout c g) {size : Nat} (flags age tag : Nat) (small : size < 2 ^ 47)
    (free : ∀ k ∈ objects c g, Apart k (totalAt g.mem k) h (allocSize size)) :
    (Layout c { g with mem := newObject g.mem h size flags age tag } ∧
      nurseryObjects c { g with mem := newObject g.mem h size flags age tag } =
        nurseryObjects c g ∧
      tenuredObjects c { g with mem := newObject g.mem h size flags age tag } =
        tenuredObjects c g) ∧
      (∀ k ∈ objects c g, ∀ o < totalAt g.mem k,
        newObject g.mem h size flags age tag (k + o) = g.mem (k + o)) ∧ h ∉ objects c g := by
  have long := allocSize_eq small
  have cells : ∀ k ∈ objects c g, ∀ o < totalAt g.mem k,
      newObject g.mem h size flags age tag (k + o) = g.mem (k + o) := by
    intro k member o inside
    have apart := free k member
    simp only [Apart] at apart
    exact newObject_outside (by omega) small
  have sound : ∀ k ∈ objects c g, Sound (newObject g.mem h size flags age tag) k ∧
      sizeAt (newObject g.mem h size flags age tag) k = sizeAt g.mem k := by
    intro k member
    have was := lay.sound k member
    have room := was.room
    refine was.copied was.aligned (fun o _ high => cells k member o high) ?_
    have head := cells k member 0 (by omega)
    rw [Nat.add_zero] at head
    rw [head]
    exact was.head
  refine ⟨lay.remake (fun k member => (sound k member).2) fun k member => (sound k member).1, cells,
    fun member => ?_⟩
  have apart := free h member
  have room := (lay.sound h member).room
  simp only [Apart] at apart
  omega

/-- The request for an object: its size is below the addresses of the spaces, its tag is small. -/
structure Modest (c : Config) (size tag : Nat) : Prop where
  nursery : size < c.nurseryStart
  tenured : size < c.tenuredStart
  tag : tag < 0x1000

theorem Modest.small {size tag : Nat} (modest : Modest c size tag) : size < 2 ^ 47 := by
  have nurseryRoom := c.nurseryRoom
  have nurseryUser := c.nurseryUser
  have below := modest.nursery
  omega

theorem extended_of_new {g' : State} {size flags age tag : Nat} (lay : Layout c g)
    (after : Layout c g') (modest : Modest c size tag) (even : flags % 2 = 0)
    (memory : g'.mem = newObject g.mem h size flags age tag)
    (remembered : g'.remembered = g.remembered) (roots : g'.roots = g.roots)
    (free : ∀ k ∈ objects c g, Apart k (totalAt g.mem k) h (allocSize size))
    (covered : ∀ x, Outside c g' x → x < h ∨ h + allocSize size ≤ x)
    (youngStays : ∀ k ∈ nurseryObjects c g, k ∈ nurseryObjects c g')
    (oldStays : ∀ k ∈ oldObjects c g, k ∈ oldObjects c g')
    (young : ∀ k ∈ nurseryObjects c g', k ∈ nurseryObjects c g ∨ k = h)
    (old : ∀ k ∈ oldObjects c g', k ∈ oldObjects c g ∨ k = h) : Extended c g g' := by
  have small := modest.small
  have long := allocSize_eq small
  obtain ⟨-, cells, new⟩ :=
    lay.place (h := h) flags age tag small free
  refine { layout := after, remembered, roots, cells := fun k member o inside => ?_
           outside := fun x out => ?_, youngStays, oldStays
           young := fun k member => (young k member).imp_right fun (same : k = h) => same ▸ new
           old := fun k member => (old k member).imp_right fun (same : k = h) => same ▸ new
           blank := fun k member fresh => ?_ }
  · rw [memory]
    exact cells k member o inside
  · rw [memory]
    exact newObject_outside (covered x out) small
  · -- The only object that is new is the one that was made.
    obtain rfl : k = h := by
      rcases List.mem_append.mp member with inNursery | inOld
      · exact (young k inNursery).resolve_left fun was => fresh (List.mem_append_left _ was)
      · exact (old k inOld).resolve_left fun was => fresh (List.mem_append_right _ was)
    have sound := after.sound k member
    rw [memory] at sound ⊢
    refine ⟨?_, fun slot traced => newObject_traced small sound traced⟩
    have head : newObject g.mem k size flags age tag (k + 0) = _ :=
      newObject_cell (by omega) small
    rw [Nat.add_zero, if_pos rfl] at head
    rw [isMarked_eq_false_iff, head, headWord]
    omega

section Making

variable {size tag : Nat} (lay : Layout c g) (modest : Modest c size tag)
include lay modest

theorem extended_nursery (fits : g.nurseryPtr + allocSize size ≤ c.nurseryLimit) :
    Extended c g { g with mem := newObject g.mem g.nurseryPtr size 0 0 tag
                          nurseryPtr := g.nurseryPtr + allocSize size } := by
  have small := modest.small
  have long := allocSize_eq small
  have spaces := c.apart
  have low := lay.nursery.le
  have aligned : g.nurseryPtr % 16 = 0 := lay.nursery.aligned c.nurseryAligned fun k member =>
    (lay.sound k (List.mem_append_left _ member)).room.2
  have free : ∀ k ∈ objects c g, Apart k (totalAt g.mem k) g.nurseryPtr (allocSize size) := by
    intro k member
    simp only [Apart]
    rcases Layout.object_cases member with young | old | large
    · have := lay.nursery_bounds young
      omega
    · have := lay.tenured_bounds old
      omega
    · have block := (lay.large_bounds large).1.nursery
      simp only [Apart] at block
      omega
  -- First the object is written, then the space grows over it.
  obtain ⟨⟨placed, nursery, tenured⟩, -, -⟩ :=
    lay.place 0 0 tag small free
  have sound : Sound (newObject g.mem g.nurseryPtr size 0 0 tag) g.nurseryPtr :=
    newObject_sound aligned small (by decide) (by decide) modest.tag
  have size_eq : sizeAt (newObject g.mem g.nurseryPtr size 0 0 tag) g.nurseryPtr = size :=
    newObject_size small
  have total : totalAt (newObject g.mem g.nurseryPtr size 0 0 tag) g.nurseryPtr =
      allocSize size := by rw [totalAt, size_eq]
  obtain ⟨grown, list⟩ := placed.growNursery sound
    (by simp only [size_eq]; exact ⟨modest.nursery, modest.tenured⟩) (by simp only [total]; exact fits)
  simp only [total, nursery] at grown list
  refine extended_of_new lay grown modest rfl rfl rfl rfl free (fun x out => ?_)
    (fun k member => ?_) (fun k member => ?_) (fun k member => ?_) fun k member => ?_
  · have := out.1
    omega
  · rw [list]
    exact List.mem_append_left _ member
  · exact (List.mem_append.mp member).elim
      (fun old => List.mem_append_left _ (tenured.symm ▸ old)) (List.mem_append_right _)
  · rw [list] at member
    simpa using member
  · exact .inl ((List.mem_append.mp member).elim
      (fun old => List.mem_append_left _ (tenured ▸ old)) (List.mem_append_right _))

theorem extended_tenured (fits : g.tenuredFree + allocSize size ≤ c.tenuredLimit) :
    Extended c g { g with mem := newObject g.mem g.tenuredFree size tenuredFlag promotionAge tag
                          tenuredFree := g.tenuredFree + allocSize size } := by
  have small := modest.small
  have long := allocSize_eq small
  have spaces := c.apart
  have low := lay.tenured.le
  have aligned : g.tenuredFree % 16 = 0 := lay.tenured.aligned c.tenuredAligned fun k member =>
    (lay.sound k (by simp [objects, oldObjects, member])).room.2
  have free : ∀ k ∈ objects c g, Apart k (totalAt g.mem k) g.tenuredFree (allocSize size) := by
    intro k member
    simp only [Apart]
    rcases Layout.object_cases member with young | old | large
    · have := lay.nursery_bounds young
      omega
    · have := lay.tenured_bounds old
      omega
    · have block := (lay.large_bounds large).1.tenured
      simp only [Apart] at block
      omega
  -- First the object is written, then the space grows over it.
  obtain ⟨⟨placed, nursery, tenured⟩, -, -⟩ :=
    lay.place tenuredFlag promotionAge tag small free
  have sound : Sound (newObject g.mem g.tenuredFree size tenuredFlag promotionAge tag)
      g.tenuredFree := newObject_sound aligned small (by decide) (by decide) modest.tag
  have size_eq : sizeAt (newObject g.mem g.tenuredFree size tenuredFlag promotionAge tag)
      g.tenuredFree = size := newObject_size small
  have total : totalAt (newObject g.mem g.tenuredFree size tenuredFlag promotionAge tag)
      g.tenuredFree = allocSize size := by rw [totalAt, size_eq]
  obtain ⟨grown, list⟩ := placed.growTenured sound
    (by simp only [size_eq]; exact ⟨modest.nursery, modest.tenured⟩) (by simp only [total]; exact fits)
  simp only [total, tenured] at grown list
  refine extended_of_new lay grown modest rfl rfl rfl rfl free (fun x out => ?_)
    (fun k member => ?_) (fun k member => ?_) (fun k member => ?_) fun k member => ?_
  · have := out.2.1
    omega
  · exact nursery.symm ▸ member
  · rw [oldObjects, list]
    exact (List.mem_append.mp member).elim
      (fun old => List.mem_append_left _ (List.mem_append_left _ old)) (List.mem_append_right _)
  · exact .inl (nursery ▸ member)
  · rw [oldObjects, list] at member
    simp only [List.mem_append, List.mem_singleton] at member
    rcases member with (old | new) | large
    · exact .inl (List.mem_append_left _ old)
    · exact .inr new
    · exact .inl (List.mem_append_right _ large)

theorem extended_large {block : Nat} (fresh : FreshBlock c g ⟨block, allocSize size⟩) :
    Extended c g { g with
      mem := newObject g.mem block size (tenuredFlag ||| largeFlag) promotionAge tag
      large := ⟨block, allocSize size⟩ :: g.large } := by
  have small := modest.small
  have long := allocSize_eq small
  have inNursery := fresh.block.nursery
  have inTenured := fresh.block.tenured
  have nurseryLow := lay.nursery.le
  have tenuredLow := lay.tenured.le
  simp only [Apart] at inNursery inTenured
  have free : ∀ k ∈ objects c g, Apart k (totalAt g.mem k) block (allocSize size) := by
    intro k member
    simp only [Apart]
    rcases Layout.object_cases member with young | old | large
    · have := lay.nursery_bounds young
      omega
    · have := lay.tenured_bounds old
      omega
    · have apart := fresh.apart _ (lay.large_bounds large).2.1
      simp only [Apart] at apart
      omega
  obtain ⟨⟨placed, nursery, tenured⟩, -, -⟩ :=
    lay.place (tenuredFlag ||| largeFlag) promotionAge tag small free
  have sound : Sound (newObject g.mem block size (tenuredFlag ||| largeFlag) promotionAge tag)
      block := newObject_sound fresh.block.aligned small (by decide) (by decide) modest.tag
  have size_eq : sizeAt (newObject g.mem block size (tenuredFlag ||| largeFlag) promotionAge tag)
      block = size := newObject_size small
  have grown := placed.growLarge (l := ⟨block, allocSize size⟩) ⟨fresh.block, fresh.apart, fresh.roots⟩
    sound (by rw [totalAt, size_eq]) (by rw [size_eq]; exact ⟨modest.nursery, modest.tenured⟩)
  refine extended_of_new lay grown modest (by decide) rfl rfl rfl free (fun x out => ?_)
    (fun k member => ?_) (fun k member => ?_) (fun k member => ?_) fun k member => ?_
  · have := out.2.2 ⟨block, allocSize size⟩ (by simp)
    simp only at this
    omega
  · exact nursery.symm ▸ member
  · exact (List.mem_append.mp member).elim
      (fun old => List.mem_append_left _ (tenured.symm ▸ old))
      fun large => List.mem_append_right _ (List.mem_cons_of_mem _ large)
  · exact .inl (nursery ▸ member)
  · rcases List.mem_append.mp member with old | large
    · exact .inl (List.mem_append_left _ (tenured ▸ old))
    · exact (List.mem_cons.mp large).elim .inr fun was => .inl (List.mem_append_right _ was)

end Making

/-- A slot a program may store to: a word of an object's body, or of its own memory. -/
def Writable (c : Config) (g : State) (slot : Nat) : Prop :=
  InBody g.mem (objects c g) slot ∨ Outside c g slot ∧ slot % 8 = 0

/-- A slot that a store writes, or that was no reference of the object before it. -/
def Uncovered (g : State) (slot h s : Nat) : Prop := s = slot ∨ s ∉ tracedSlots g.mem h

/-- A store that makes no reference the collector does not learn of. -/
structure Announced (c : Config) (g : State) (slot value : Nat) : Prop where
  plain : InBody g.mem (objects c g) slot → value ≠ magic1
  settled : ∀ h ∈ objects c g, ∀ s ∈ tracedSlots (g.mem.store slot value) h,
    Uncovered g slot h s → InNursery c (g.mem.store slot value s) →
      ∃ k ∈ nurseryObjects c g, g.mem.store slot value s = k + 48
  noticed : ∀ h ∈ oldObjects c g, ∀ s ∈ tracedSlots (g.mem.store slot value) h,
    Uncovered g slot h s → InNursery c (g.mem.store slot value s) →
      s ∈ g.remembered ∨ s = slot ∧ value ≠ g.nurseryPtr

/-- The slot lies in an old object and the value is below the end of the nursery. -/
def Noticed (c : Config) (g : State) (slot value : Nat) : Prop :=
  value ≠ 0 ∧ ((c.tenuredStart ≤ slot ∧ slot < g.tenuredFree) ∨ (largeIndexFind g slot).isSome) ∧
    c.nurseryStart ≤ value ∧ value < g.nurseryPtr

theorem writeBarrier_eq {slot : Nat} (value : Nat) (nonnull : slot ≠ 0) :
    ∃ remembered, writeBarrier c g slot value =
        { g with mem := g.mem.store slot value, remembered } ∧
      (remembered = g.remembered ∨
        Noticed c g slot value ∧ slot ∉ g.remembered ∧ remembered = g.remembered ++ [slot]) ∧
      (Noticed c g slot value → slot ∈ remembered) := by
  have test : (value ≠ 0 ∧ ((decide (c.tenuredStart ≤ slot) && decide (slot < g.tenuredFree)) ||
      (largeIndexFind g slot).isSome) = true ∧
      (decide (c.nurseryStart ≤ value) && decide (value < g.nurseryPtr)) = true) ↔
      Noticed c g slot value := by
    simp only [Noticed, Bool.or_eq_true, Bool.and_eq_true, decide_eq_true_eq]
  rw [writeBarrier, if_neg nonnull]
  by_cases noticed : Noticed c g slot value
  · simp only [if_pos (test.mpr noticed), addRemembered]
    by_cases known : slot ∈ g.remembered
    · exact ⟨g.remembered, by rw [if_pos known], .inl rfl, fun _ => known⟩
    · exact ⟨g.remembered ++ [slot], by rw [if_neg known], .inr ⟨noticed, known, rfl⟩,
        fun _ => by simp⟩
  · simp only [if_neg (mt test.mp noticed)]
    exact ⟨g.remembered, rfl, .inl rfl, fun it => absurd it noticed⟩

theorem Layout.outside_apart (lay : Layout c g) (outside : Outside c g x) (member : h ∈ objects c g) :
    x < h ∨ h + totalAt g.mem h ≤ x := by
  obtain ⟨nursery, tenured, blocks⟩ := outside
  rcases Layout.object_cases member with young | old | large
  · have := lay.nursery_bounds young
    omega
  · have := lay.tenured_bounds old
    omega
  · have := blocks _ (lay.large_bounds large).2.1
    simp only at this
    omega

theorem Sound.written {mem mem' : Memory} (sound : Sound mem h)
    (header : ∀ o < 48, mem' (h + o) = mem (h + o))
    (body : ∀ o < totalAt mem h, mem' (h + o) = mem (h + o) ∨ mem' (h + o) ≠ magic1) :
    Sound mem' h ∧ sizeAt mem' h = sizeAt mem h := by
  have size : sizeAt mem' h = sizeAt mem h := header 8 (by omega)
  have head : mem' h = mem h := header 0 (by omega)
  refine ⟨⟨sound.aligned, head ▸ sound.head, size ▸ sound.size, ?_, ?_, ?_, fun o whole inside magic =>
    ?_⟩, size⟩
  · rw [header 16 (by omega), sound.magic]
  · rw [header 24 (by omega), sound.slack, size]
  · rw [tagAt, header 40 (by omega)]
    exact sound.tag
  · rw [totalAt, size] at inside
    rcases body o inside with same | other
    · exact sound.unique o whole inside (same ▸ magic)
    · exact absurd magic other

section Stores

variable {slot value : Nat} (intact : Intact c g) (writable : Writable c g slot)
include intact writable

theorem store_header (member : h ∈ objects c g) {o : Nat} (low : o < 48) :
    g.mem.store slot value (h + o) = g.mem (h + o) := by
  have lay := intact.layout
  have room := (lay.sound h member).room
  refine if_neg fun here => ?_
  rcases writable with ⟨k, other, bottom, top, -⟩ | ⟨outside, -⟩
  · -- A word of a body is no word of a header.
    by_cases same : k = h
    · omega
    · have apart := lay.apart other member same
      simp only [Apart] at apart
      omega
  · have apart := lay.outside_apart outside member
    omega

theorem store_layout (plain : InBody g.mem (objects c g) slot → value ≠ magic1) :
    Layout c { g with mem := g.mem.store slot value } ∧
      nurseryObjects c { g with mem := g.mem.store slot value } = nurseryObjects c g ∧
      tenuredObjects c { g with mem := g.mem.store slot value } = tenuredObjects c g := by
  have written : ∀ h ∈ objects c g, Sound (g.mem.store slot value) h ∧
      sizeAt (g.mem.store slot value) h = sizeAt g.mem h := fun h member =>
    (intact.layout.sound h member).written (fun o low => store_header intact writable member low)
      fun o inside => by
        rw [Memory.store]
        split
        · -- A word of an object is not outside the collector's memory.
          rename_i here
          refine .inr (plain (writable.resolve_right fun other => ?_))
          have apart := intact.layout.outside_apart other.1 member
          omega
        · exact .inl rfl
  exact intact.layout.remake (fun h member => (written h member).2) fun h member =>
    (written h member).1

theorem noticed_inBody (noticed : Noticed c g slot value) :
    InBody g.mem (oldObjects c g) slot := by
  have lay := intact.layout
  have spaces := c.apart
  have fits := lay.tenuredFits
  rcases writable with ⟨h, member, low, high, aligned⟩ | ⟨outside, -⟩
  · refine ⟨h, (List.mem_append.mp member).resolve_left fun young => ?_, low, high, aligned⟩
    have bounds := lay.nursery_bounds young
    rcases noticed.2.1 with tenured | large
    · omega
    · obtain ⟨l, found⟩ := Option.isSome_iff_exists.mp large
      have inside := List.find?_some found
      have block := (lay.blocks l (List.mem_of_find?_eq_some found)).1.nursery
      simp only [Bool.and_eq_true, decide_eq_true_eq] at inside
      simp only [Apart] at block
      omega
  · rcases noticed.2.1 with tenured | large
    · exact absurd ⟨tenured.1, by omega⟩ outside.2.1
    · obtain ⟨l, found⟩ := Option.isSome_iff_exists.mp large
      have inside := List.find?_some found
      simp only [Bool.and_eq_true, decide_eq_true_eq] at inside
      exact absurd inside (outside.2.2 l (List.mem_of_find?_eq_some found))

omit writable in
/-- A reference to the nursery that is written to an old object is noticed. -/
theorem noticed_of_young {k : Nat} (old : h ∈ oldObjects c g) (inside : h ≤ slot)
    (below : slot < h + totalAt g.mem h) (young : k ∈ nurseryObjects c g) (refers : value = k + 48)
    (last : value ≠ g.nurseryPtr) : Noticed c g slot value := by
  have lay := intact.layout
  have bounds := lay.nursery_bounds young
  refine ⟨by omega, ?_, by omega, by omega⟩
  rcases List.mem_append.mp old with tenured | large
  · have := lay.tenured_bounds tenured
    exact .inl (by omega)
  · rw [lay.largeIndexFind_eq large inside below]
    exact .inr rfl

/-- A store that is announced keeps the invariant. -/
theorem store_intact (announced : Announced c g slot value) (nonnull : slot ≠ 0) :
    Intact c (writeBarrier c g slot value) := by
  have lay := intact.layout
  obtain ⟨after, nursery, tenured⟩ := store_layout intact writable announced.plain
  obtain ⟨remembered, result, change, learns⟩ := writeBarrier_eq (c := c) (g := g) value nonnull
  have old : oldObjects c { g with mem := g.mem.store slot value } = oldObjects c g := by
    rw [oldObjects, tenured]
    rfl
  have all : objects c { g with mem := g.mem.store slot value } = objects c g := by
    rw [objects, nursery, old]
    rfl
  have total : ∀ h ∈ objects c g, totalAt (g.mem.store slot value) h = totalAt g.mem h :=
    fun h member => by
      have size : g.mem.store slot value (h + 8) = g.mem (h + 8) :=
        store_header intact writable member (by omega)
      simp only [totalAt, sizeAt, size]
  have keeps : ∀ s ∈ g.remembered, s ∈ remembered := fun s listed => by
    rcases change with same | ⟨-, -, more⟩
    · exact same ▸ listed
    · simp [more, listed]
  rw [result]
  refine ⟨⟨after.nursery, after.nurseryFits, after.tenured, after.tenuredFits, after.blocks,
    after.blocksApart, after.sound, after.modest, after.roots⟩, ⟨fun s listed => ?_, ?_⟩,
    fun h young => ?_, fun h member s traced inside => ?_,
    fun h listed s traced k inYoung refers => ?_⟩
  · -- The new slot is a word of an old object, as the others are.
    have body : InBody g.mem (oldObjects c g) s := by
      rcases change with same | ⟨noticed, -, more⟩
      · exact intact.tracked.body s (same ▸ listed)
      · rcases List.mem_append.mp (more ▸ listed) with was | new
        · exact intact.tracked.body s was
        · rw [List.mem_singleton.mp new]
          exact noticed_inBody intact writable noticed
    obtain ⟨h, member, low, high, aligned⟩ := body
    refine ⟨h, old ▸ member, low, ?_, aligned⟩
    change s < h + totalAt (g.mem.store slot value) h
    rwa [total h (List.mem_append_right _ member)]
  · rcases change with same | ⟨-, new, more⟩
    · exact same ▸ intact.tracked.once
    · change remembered.Nodup
      rw [more]
      exact List.nodup_append.mpr ⟨intact.tracked.once, by simp, fun a was b here same => new (by
        rw [List.mem_singleton] at here
        rwa [← here, ← same])⟩
  · have young : h ∈ nurseryObjects c g := nursery ▸ young
    have head : g.mem.store slot value (h + 0) = g.mem (h + 0) :=
      store_header intact writable (List.mem_append_left _ young) (by omega)
    rw [Nat.add_zero] at head
    change isMarked (g.mem.store slot value) h = false
    rw [isMarked_eq_false_iff, head]
    exact isMarked_eq_false_iff.mp (intact.unmarked h young)
  · have member : h ∈ objects c g := all ▸ member
    have young : ∃ k ∈ nurseryObjects c g, g.mem.store slot value s = k + 48 := by
      by_cases uncovered : s = slot ∨ s ∉ tracedSlots g.mem h
      · exact announced.settled h member s traced uncovered inside
      · obtain ⟨other, was⟩ := not_or.mp uncovered
        have word : g.mem.store slot value s = g.mem s := if_neg other
        change InNursery c (g.mem.store slot value s) at inside
        rw [word] at inside ⊢
        exact intact.settled h member s (not_not.mp was) inside
    obtain ⟨k, listed, value⟩ := young
    exact ⟨k, nursery ▸ listed, value⟩
  · have member : h ∈ oldObjects c g := old ▸ listed
    have young : k ∈ nurseryObjects c g := nursery ▸ inYoung
    have refers : g.mem.store slot value s = k + 48 := refers
    by_cases uncovered : s = slot ∨ s ∉ tracedSlots g.mem h
    · have inside : InNursery c (g.mem.store slot value s) := refers ▸ lay.inNursery young
      rcases announced.noticed h member s traced uncovered inside with was | ⟨rfl, last⟩
      · exact keeps s was
      · -- The slot that was written is noticed, as the object is not the empty last one.
        have sound := after.sound h (all ▸ List.mem_append_right _ member)
        have bounds := sound.tracedSlots_bounds traced
        rw [total h (List.mem_append_right _ member)] at bounds
        have word : g.mem.store s value s = value := if_pos rfl
        exact learns (noticed_of_young intact member (by omega) (by omega) young
          (word.symm.trans refers) last)
    · obtain ⟨other, was⟩ := not_or.mp uncovered
      have word : g.mem.store slot value s = g.mem s := if_neg other
      rw [word] at refers
      exact keeps s (intact.complete h member s (not_not.mp was) k young refers)

end Stores

theorem Intact.addRoot (intact : Intact c g) {slot : Nat} (outside : slot ≠ 0 → Outside c g slot) :
    Intact c (addRoot g slot) := by
  rw [Gc.addRoot]
  split
  · exact intact
  · rename_i nonnull
    have lay := intact.layout
    refine ⟨⟨lay.nursery, lay.nurseryFits, lay.tenured, lay.tenuredFits, lay.blocks,
      lay.blocksApart, lay.sound, lay.modest, fun s listed => ?_⟩,
      ⟨intact.tracked.body, intact.tracked.once⟩, intact.unmarked, intact.settled, intact.complete⟩
    rcases List.mem_append.mp listed with was | new
    · exact lay.roots s was
    · rw [List.mem_singleton.mp new]
      exact ⟨nonnull, outside nonnull⟩

theorem removeRoot_eq (g : State) (slot : Nat) :
    ∃ roots, removeRoot g slot = { g with roots } ∧ ∀ s ∈ roots, s ∈ g.roots := by
  rw [removeRoot]
  split
  · rename_i i found
    refine ⟨_, rfl, fun s listed => ?_⟩
    have listed := (List.dropLast_sublist _).subset listed
    rcases List.mem_or_eq_of_mem_set listed with was | rfl
    · exact was
    · -- The last root fills the place.
      have nonempty : g.roots ≠ [] := fun empty => by simp [empty] at found
      rw [List.getLastD_eq_getLast?, List.getLast?_eq_some_getLast nonempty, Option.getD_some]
      exact List.getLast_mem nonempty
  · exact ⟨g.roots, rfl, fun s => id⟩

theorem Intact.removeRoot (intact : Intact c g) (slot : Nat) : Intact c (removeRoot g slot) := by
  obtain ⟨roots, result, subset⟩ := removeRoot_eq g slot
  have lay := intact.layout
  rw [result]
  exact ⟨⟨lay.nursery, lay.nurseryFits, lay.tenured, lay.tenuredFits, lay.blocks, lay.blocksApart,
    lay.sound, lay.modest, fun s listed => lay.roots s (subset s listed)⟩,
    ⟨intact.tracked.body, intact.tracked.once⟩, intact.unmarked, intact.settled, intact.complete⟩

end Nytrix.Rt.Gc
