import Mathlib.Data.List.Nodup
import Nytrix.Rt.Gc

/-! The layout of the collector's spaces: the objects in them and how an address is told to be one. -/

namespace Nytrix.Rt.Gc

open Nytrix.Lib

/-- The headers a walk over the nursery visits. -/
def nurseryObjects (c : Config) (g : State) : List Nat :=
  tiles (totalAt g.mem) (g.nurseryPtr - c.nurseryStart) c.nurseryStart g.nurseryPtr

/-- The headers a walk over tenured space visits. -/
def tenuredObjects (c : Config) (g : State) : List Nat :=
  tiles (totalAt g.mem) (g.tenuredFree - c.tenuredStart) c.tenuredStart g.tenuredFree

/-- The headers of the large objects. -/
def largeObjects (g : State) : List Nat := g.large.map Large.header

/-- The objects outside the nursery. -/
def oldObjects (c : Config) (g : State) : List Nat := tenuredObjects c g ++ largeObjects g

/-- All objects. -/
def objects (c : Config) (g : State) : List Nat := nurseryObjects c g ++ oldObjects c g

theorem bodySize_eq {size : Nat} (small : size < 2 ^ 47) : bodySize size = (size + 15) / 16 * 16 := by
  simp only [bodySize]
  omega

theorem allocSize_eq {size : Nat} (small : size < 2 ^ 47) :
    allocSize size = 48 + (size + 15) / 16 * 16 := by
  simp only [allocSize, objectDataOffset, bodySize_eq small]
  omega

theorem isMarked_iff {mem : Memory} {h : Nat} : isMarked mem h = true ↔ mem h % 2 = 1 := by
  simp only [isMarked, flagsAt, markedFlag, Nat.and_one_is_mod, decide_eq_true_eq]
  omega

theorem isMarked_eq_false_iff {mem : Memory} {h : Nat} : isMarked mem h = false ↔ mem h % 2 = 0 := by
  rw [← Bool.not_eq_true, isMarked_iff]
  omega

/-- An object as allocation leaves it: header and prefix in order, the magic word nowhere else. -/
structure Sound (mem : Memory) (h : Nat) : Prop where
  aligned : h % 16 = 0
  head : mem h < 2 ^ 48
  size : sizeAt mem h < 2 ^ 47
  magic : mem (h + 16) = magic1
  slack : mem (h + 24) = 2 * bodySize (sizeAt mem h) + 1
  tag : tagAt mem h < 0x1000
  unique : ∀ o, o % 8 = 0 → o < totalAt mem h → mem (h + o) = magic1 → o = 16

namespace Sound

variable {mem : Memory} {h : Nat}

theorem total (sound : Sound mem h) : totalAt mem h = 48 + (sizeAt mem h + 15) / 16 * 16 :=
  allocSize_eq sound.size

theorem room (sound : Sound mem h) :
    48 + sizeAt mem h ≤ totalAt mem h ∧ totalAt mem h % 16 = 0 := by
  have := sound.total
  omega

theorem valid (sound : Sound mem h) {usedEnd : Nat} (fits : h + totalAt mem h ≤ usedEnd) :
    headerCandidateValid mem h usedEnd = true := by
  have room := sound.room
  have small := sound.size
  have body := bodySize_eq small
  simp only [headerCandidateValid, Bool.and_eq_true, decide_eq_true_eq]
  simp only [objectDataOffset, sound.magic, sound.slack, body]
  refine ⟨⟨⟨⟨⟨?_, trivial⟩, ?_⟩, ?_⟩, ?_⟩, ?_⟩ <;> omega

theorem copied (sound : Sound mem h) {mem' : Memory} {d : Nat} (aligned : d % 16 = 0)
    (cells : ∀ o, 8 ≤ o → o < totalAt mem h → mem' (d + o) = mem (h + o))
    (head : mem' d < 2 ^ 48) : Sound mem' d ∧ sizeAt mem' d = sizeAt mem h := by
  have room := sound.room
  have size : sizeAt mem' d = sizeAt mem h := cells 8 (by omega) (by omega)
  have total : totalAt mem' d = totalAt mem h := by rw [totalAt, totalAt, size]
  refine ⟨⟨aligned, head, size ▸ sound.size, ?_, ?_, ?_, ?_⟩, size⟩
  · rw [cells 16 (by omega) (by omega), sound.magic]
  · rw [cells 24 (by omega) (by omega), sound.slack, size]
  · rw [tagAt, cells 40 (by omega) (by omega)]
    exact sound.tag
  · intro o whole inside magic
    rcases Nat.eq_zero_or_pos o with rfl | positive
    · rw [Nat.add_zero, magic1] at magic
      omega
    · rw [total] at inside
      rw [cells o (by omega) inside] at magic
      exact sound.unique o whole inside magic

end Sound

/-- An address outside the collector's memory. -/
def Outside (c : Config) (g : State) (a : Nat) : Prop :=
  ¬ (c.nurseryStart ≤ a ∧ a < c.nurseryLimit) ∧ ¬ (c.tenuredStart ≤ a ∧ a < c.tenuredLimit) ∧
    ∀ l ∈ g.large, ¬ (l.header ≤ a ∧ a < l.header + l.total)

/-- A slot is a word of the body of one of the given objects. -/
def InBody (mem : Memory) (hs : List Nat) (slot : Nat) : Prop :=
  ∃ h ∈ hs, h + 48 ≤ slot ∧ slot < h + totalAt mem h ∧ slot % 8 = 0

/-- A block of the C allocator: aligned, in the user half, apart from the two spaces. -/
structure Block (c : Config) (l : Large) : Prop where
  aligned : l.header % 16 = 0
  mapped : 0x1000 < l.header
  user : l.header + l.total ≤ 2 ^ 47
  nursery : Apart l.header l.total c.nurseryStart (c.nurseryLimit - c.nurseryStart)
  tenured : Apart l.header l.total c.tenuredStart (c.tenuredLimit - c.tenuredStart)

/-- The layout every operation of the collector keeps. -/
structure Layout (c : Config) (g : State) : Prop where
  nursery : Tiled (totalAt g.mem) c.nurseryStart g.nurseryPtr (nurseryObjects c g)
  nurseryFits : g.nurseryPtr ≤ c.nurseryLimit
  tenured : Tiled (totalAt g.mem) c.tenuredStart g.tenuredFree (tenuredObjects c g)
  tenuredFits : g.tenuredFree ≤ c.tenuredLimit
  blocks : ∀ l ∈ g.large, Block c l ∧ l.total = totalAt g.mem l.header
  blocksApart : g.large.Pairwise fun a b => Apart a.header a.total b.header b.total
  sound : ∀ h ∈ objects c g, Sound g.mem h
  modest : ∀ h ∈ objects c g, sizeAt g.mem h < c.nurseryStart ∧ sizeAt g.mem h < c.tenuredStart
  roots : ∀ slot ∈ g.roots, slot ≠ 0 ∧ Outside c g slot

/-- The remembered slots are words of old objects, each listed once. -/
structure Tracked (c : Config) (g : State) : Prop where
  body : ∀ slot ∈ g.remembered, InBody g.mem (oldObjects c g) slot
  once : g.remembered.Nodup

theorem nurseryObjects_eq {c : Config} {g : State} {hs : List Nat}
    (tiled : Tiled (totalAt g.mem) c.nurseryStart g.nurseryPtr hs) : nurseryObjects c g = hs :=
  tiled.tiles_eq (Nat.le_refl _)

theorem tenuredObjects_eq {c : Config} {g : State} {hs : List Nat}
    (tiled : Tiled (totalAt g.mem) c.tenuredStart g.tenuredFree hs) : tenuredObjects c g = hs :=
  tiled.tiles_eq (Nat.le_refl _)

namespace Layout

variable {c : Config} {g : State} {h k v : Nat}

theorem nursery_bounds (lay : Layout c g) (member : h ∈ nurseryObjects c g) :
    c.nurseryStart ≤ h ∧ h + totalAt g.mem h ≤ g.nurseryPtr ∧ g.nurseryPtr ≤ c.nurseryLimit ∧
      48 ≤ totalAt g.mem h ∧ h % 16 = 0 := by
  have inside := lay.nursery.bounds member
  have sound := lay.sound h (List.mem_append_left _ member)
  exact ⟨inside.1, inside.2.1, lay.nurseryFits, by have := sound.room; omega, sound.aligned⟩

theorem tenured_bounds (lay : Layout c g) (member : h ∈ tenuredObjects c g) :
    c.tenuredStart ≤ h ∧ h + totalAt g.mem h ≤ g.tenuredFree ∧ g.tenuredFree ≤ c.tenuredLimit ∧
      48 ≤ totalAt g.mem h ∧ h % 16 = 0 := by
  have inside := lay.tenured.bounds member
  have sound := lay.sound h (by simp [objects, oldObjects, member])
  exact ⟨inside.1, inside.2.1, lay.tenuredFits, by have := sound.room; omega, sound.aligned⟩

theorem large_bounds (lay : Layout c g) (member : h ∈ largeObjects g) :
    Block c ⟨h, totalAt g.mem h⟩ ∧ ⟨h, totalAt g.mem h⟩ ∈ g.large ∧ 48 ≤ totalAt g.mem h := by
  have sound := lay.sound h (by simp [objects, oldObjects, member])
  obtain ⟨l, listed, rfl⟩ := List.mem_map.mp member
  obtain ⟨block, total⟩ := lay.blocks l listed
  have same : (⟨l.header, totalAt g.mem l.header⟩ : Large) = l := by rw [← total]
  rw [same]
  exact ⟨block, listed, by have := sound.room; omega⟩

theorem object_cases (member : h ∈ objects c g) :
    h ∈ nurseryObjects c g ∨ h ∈ tenuredObjects c g ∨ h ∈ largeObjects g := by
  simpa [objects, oldObjects] using member

theorem large_apart (lay : Layout c g) (first : h ∈ largeObjects g) (second : k ∈ largeObjects g)
    (differ : h ≠ k) : Apart h (totalAt g.mem h) k (totalAt g.mem k) := by
  have one := (lay.large_bounds first).2.1
  have two := (lay.large_bounds second).2.1
  have symmetric : Std.Symm fun a b : Large => Apart a.header a.total b.header b.total :=
    ⟨fun _ _ apart => apart.symm⟩
  exact lay.blocksApart.forall one two (by simp [differ])

theorem apart (lay : Layout c g) (first : h ∈ objects c g) (second : k ∈ objects c g)
    (differ : h ≠ k) : Apart h (totalAt g.mem h) k (totalAt g.mem k) := by
  have spaces := c.apart
  have nurseryRoom := c.nurseryRoom
  have tenuredRoom := c.tenuredRoom
  simp only [Apart]
  rcases object_cases first with a | a | a <;> rcases object_cases second with b | b | b
  · exact lay.nursery.apart a b differ
  · have := lay.nursery_bounds a
    have := lay.tenured_bounds b
    omega
  · have := lay.nursery_bounds a
    have block := (lay.large_bounds b).1.nursery
    simp only [Apart] at block
    omega
  · have := lay.tenured_bounds a
    have := lay.nursery_bounds b
    omega
  · exact lay.tenured.apart a b differ
  · have := lay.tenured_bounds a
    have block := (lay.large_bounds b).1.tenured
    simp only [Apart] at block
    omega
  · have := lay.nursery_bounds b
    have block := (lay.large_bounds a).1.nursery
    simp only [Apart] at block
    omega
  · have := lay.tenured_bounds b
    have block := (lay.large_bounds a).1.tenured
    simp only [Apart] at block
    omega
  · exact lay.large_apart a b differ

end Layout

theorem headerInSpace_iff {mem : Memory} {start ptr v h : Nat} {hs : List Nat}
    (tiled : Tiled (totalAt mem) start ptr hs) (sound : ∀ h ∈ hs, Sound mem h) :
    headerInSpace mem v start ptr = some h ↔ v = h + 48 ∧ h ∈ hs := by
  unfold headerInSpace
  simp only [Option.ite_none_right_eq_some, Option.some.injEq]
  simp only [objectDataOffset]
  constructor
  · rintro ⟨⟨low, -, aligned⟩, ⟨-, -, valid⟩, rfl⟩
    simp only [headerCandidateValid, Bool.and_eq_true, decide_eq_true_eq] at valid
    obtain ⟨⟨⟨⟨⟨fits, magic⟩, -⟩, -⟩, -⟩, -⟩ := valid
    simp only [objectDataOffset] at fits
    -- The magic word lies in some object, and there it stands at one place only.
    obtain ⟨k, member, inside⟩ := tiled.covers (x := v - 48 + 16) (by omega) (by omega)
    have object := sound k member
    have at16 := object.unique (v - 48 + 16 - k) (by have := object.aligned; omega) (by omega)
      (by rw [Nat.add_sub_cancel' inside.1, magic])
    obtain rfl : k = v - 48 := by omega
    exact ⟨by omega, member⟩
  · rintro ⟨rfl, member⟩
    have inside := tiled.bounds member
    have object := sound h member
    have room := object.room
    have aligned := object.aligned
    refine ⟨⟨by omega, by omega, by omega⟩, ⟨by omega, by omega, ?_⟩, by omega⟩
    rw [Nat.add_sub_cancel]
    exact object.valid inside.2.1

/-- An object the collector recognises by its address; a large one is not when it has no body. -/
def Known (c : Config) (g : State) (h : Nat) : Prop :=
  h ∈ nurseryObjects c g ∨ h ∈ tenuredObjects c g ∨ h ∈ largeObjects g ∧ 48 < totalAt g.mem h

namespace Layout

variable {c : Config} {g : State} {h k v : Nat}

theorem largeIndexFind_eq (lay : Layout c g) (member : h ∈ largeObjects g) (low : h ≤ v)
    (high : v < h + totalAt g.mem h) : largeIndexFind g v = some ⟨h, totalAt g.mem h⟩ := by
  obtain ⟨-, listed, -⟩ := lay.large_bounds member
  cases found : largeIndexFind g v with
  | none =>
    have := List.find?_eq_none.mp found _ listed
    simp [low, high] at this
  | some l =>
    -- Two blocks that hold one address are the same.
    have inside := List.find?_some found
    have there := List.mem_of_find?_eq_some found
    simp only [Bool.and_eq_true, decide_eq_true_eq] at inside
    have other : l.header ∈ largeObjects g := List.mem_map_of_mem there
    obtain ⟨-, total⟩ := lay.blocks l there
    by_cases same : l.header = h
    · cases l
      simp only at same total ⊢
      subst same
      rw [total]
    · have apart := lay.large_apart other member same
      simp only [Apart] at apart
      omega

theorem headerOfLarge_iff (lay : Layout c g) :
    headerOfLarge g v = some h ↔ v = h + 48 ∧ h ∈ largeObjects g ∧ 48 < totalAt g.mem h := by
  simp only [headerOfLarge, Option.bind_eq_bind, Option.bind_eq_some_iff,
    Option.ite_none_right_eq_some, Option.some.injEq]
  simp only [objPtr, objectDataOffset]
  constructor
  · rintro ⟨l, block, ⟨address, -⟩, rfl⟩
    have listed := List.mem_of_find?_eq_some block
    have inside := List.find?_some block
    have total := (lay.blocks l listed).2
    simp only [Bool.and_eq_true, decide_eq_true_eq] at inside
    exact ⟨address, List.mem_map_of_mem listed, by omega⟩
  · rintro ⟨rfl, member, body⟩
    have sound := lay.sound h (by simp [objects, oldObjects, member])
    exact ⟨_, lay.largeIndexFind_eq member (by omega) (by omega),
      ⟨rfl, sound.valid (Nat.le_refl _)⟩, rfl⟩

theorem headerForObject_iff (lay : Layout c g) :
    headerForObject c g v = some h ↔ v = h + 48 ∧ Known c g h := by
  have inNursery := fun h => headerInSpace_iff (v := v) (h := h) lay.nursery
    fun k member => lay.sound k (List.mem_append_left _ member)
  have inTenured := fun h => headerInSpace_iff (v := v) (h := h) lay.tenured
    fun k member => lay.sound k (by simp [objects, oldObjects, member])
  have inLarge := lay.headerOfLarge_iff (v := v) (h := h)
  have mapped := c.nurseryMapped
  have mapped' := c.tenuredMapped
  have spaces := c.apart
  have pointer : ∀ h, h % 16 = 0 → 0x1000 < h → v = h + 48 → isPtr v = true := by
    intro h aligned low address
    simp only [isPtr, Bool.and_eq_true, decide_eq_true_eq]
    omega
  unfold headerForObject Known
  constructor
  · intro found
    split at found
    · cases found
    · rcases Option.or_eq_some_iff.mp found with young | ⟨-, found⟩
      · have := (inNursery h).mp young
        exact ⟨this.1, .inl this.2⟩
      · rcases Option.or_eq_some_iff.mp found with old | ⟨-, found⟩
        · have := (inTenured h).mp old
          exact ⟨this.1, .inr (.inl this.2)⟩
        · have := inLarge.mp found
          exact ⟨this.1, .inr (.inr this.2)⟩
  · -- The parts of the heap are apart, so the earlier lookups do not find the object.
    rintro ⟨address, young | old | ⟨large, body⟩⟩
    · have bounds := lay.nursery_bounds young
      rw [pointer h bounds.2.2.2.2 (by omega) address, (inNursery h).mpr ⟨address, young⟩]
      rfl
    · have bounds := lay.tenured_bounds old
      have other : headerInSpace g.mem v c.nurseryStart g.nurseryPtr = none := by
        refine Option.eq_none_iff_forall_ne_some.mpr fun k found => ?_
        have found := (inNursery k).mp found
        have := lay.nursery_bounds found.2
        omega
      rw [pointer h bounds.2.2.2.2 (by omega) address, other, (inTenured h).mpr ⟨address, old⟩]
      rfl
    · obtain ⟨block, -, -⟩ := lay.large_bounds large
      have nursery := block.nursery
      have tenured := block.tenured
      have mapped := block.mapped
      simp only [Apart] at nursery tenured
      have none₁ : headerInSpace g.mem v c.nurseryStart g.nurseryPtr = none := by
        refine Option.eq_none_iff_forall_ne_some.mpr fun k found => ?_
        have found := (inNursery k).mp found
        have := lay.nursery_bounds found.2
        omega
      have none₂ : headerInSpace g.mem v c.tenuredStart g.tenuredFree = none := by
        refine Option.eq_none_iff_forall_ne_some.mpr fun k found => ?_
        have found := (inTenured k).mp found
        have := lay.tenured_bounds found.2
        omega
      rw [pointer h block.aligned mapped address, none₁, none₂]
      simpa using inLarge.mpr ⟨address, large, body⟩

theorem interior_not_object (lay : Layout c g) (member : h ∈ objects c g) {o : Nat} (low : 0 < o)
    (high : o < totalAt g.mem h) : h + o ∉ objects c g := by
  intro other
  have apart := lay.apart member other (by omega)
  have room := (lay.sound _ other).room
  simp only [Apart] at apart
  omega

theorem nodup (lay : Layout c g) : (objects c g).Nodup := by
  have spaces := c.apart
  have nurseryRoom := c.nurseryRoom
  have tenuredRoom := c.tenuredRoom
  -- Equal headers of large objects would be blocks that overlap.
  have large : (largeObjects g).Nodup := by
    refine List.pairwise_map.mpr (lay.blocksApart.imp_of_mem fun {a b} first second apart same => ?_)
    have room := (lay.large_bounds (List.mem_map_of_mem first)).2.2
    have room' := (lay.large_bounds (List.mem_map_of_mem second)).2.2
    have total := (lay.blocks a first).2
    have total' := (lay.blocks b second).2
    simp only [Apart] at apart
    omega
  refine List.nodup_append.mpr ⟨lay.nursery.nodup, List.nodup_append.mpr ⟨lay.tenured.nodup, large,
    fun a tenured b listed same => ?_⟩, fun a young b old same => ?_⟩
  · subst same
    have := lay.tenured_bounds tenured
    have block := (lay.large_bounds listed).1.tenured
    simp only [Apart] at block
    omega
  · subst same
    have := lay.nursery_bounds young
    rcases List.mem_append.mp old with tenured | listed
    · have := lay.tenured_bounds tenured
      omega
    · have block := (lay.large_bounds listed).1.nursery
      simp only [Apart] at block
      omega

theorem remake (lay : Layout c g) {mem : Memory}
    (sizes : ∀ h ∈ objects c g, sizeAt mem h = sizeAt g.mem h)
    (sound : ∀ h ∈ objects c g, Sound mem h) :
    Layout c { g with mem } ∧
      nurseryObjects c { g with mem } = nurseryObjects c g ∧
      tenuredObjects c { g with mem } = tenuredObjects c g := by
  have totals : ∀ h ∈ objects c g, totalAt mem h = totalAt g.mem h := fun h member => by
    rw [totalAt, totalAt, sizes h member]
  have nursery : Tiled (totalAt mem) c.nurseryStart g.nurseryPtr (nurseryObjects c g) :=
    lay.nursery.congr fun h member => totals h (List.mem_append_left _ member)
  have tenured : Tiled (totalAt mem) c.tenuredStart g.tenuredFree (tenuredObjects c g) :=
    lay.tenured.congr fun h member => totals h (by simp [objects, oldObjects, member])
  have young : nurseryObjects c { g with mem } = nurseryObjects c g := nurseryObjects_eq nursery
  have old : tenuredObjects c { g with mem } = tenuredObjects c g := tenuredObjects_eq tenured
  have all : objects c { g with mem } = objects c g := by
    rw [objects, oldObjects, young, old]
    rfl
  refine ⟨{ nursery := young ▸ nursery, nurseryFits := lay.nurseryFits, tenured := old ▸ tenured,
            tenuredFits := lay.tenuredFits, blocksApart := lay.blocksApart, roots := lay.roots,
            sound := all ▸ sound, blocks := ?_, modest := ?_ }, young, old⟩
  · intro l listed
    have member : l.header ∈ objects c g := by
      simp [objects, oldObjects, largeObjects, List.mem_map_of_mem listed]
    rw [totals _ member]
    exact lay.blocks l listed
  · intro h member
    rw [all] at member
    rw [sizes h member]
    exact lay.modest h member

end Layout

section Traced

variable {cells cells' : Nat → Nat} {o : Nat}

theorem tracedOffsets_bounds (member : o ∈ tracedOffsets cells) :
    48 ≤ o ∧ o + 8 ≤ 48 + cells 8 ∧ o % 8 = 0 := by
  simp only [tracedOffsets] at member
  split at member
  · obtain ⟨i, below, rfl⟩ := List.mem_map.mp member
    have := List.mem_range.mp below
    omega
  · split at member
    · obtain ⟨i, below, inside⟩ := List.mem_flatMap.mp member
      have := List.mem_range.mp below
      split at inside
      · simp only [List.mem_cons, List.not_mem_nil, or_false] at inside
        omega
      · cases inside
    · split at member
      · rcases List.mem_append.mp member with first | second
        · split at first
          · simp only [List.mem_singleton] at first
            omega
          · cases first
        · split at second
          · simp only [List.mem_singleton] at second
            omega
          · cases second
      · split at member
        · rcases List.mem_append.mp member with first | second
          · split at first
            · simp only [List.mem_singleton] at first
              omega
            · cases first
          · split at second
            · simp only [List.mem_singleton] at second
              omega
            · cases second
        · cases member

theorem tracedOffsets_nodup (cells : Nat → Nat) : (tracedOffsets cells).Nodup := by
  simp only [tracedOffsets]
  split
  · refine List.Nodup.map (fun a b same => ?_) List.nodup_range
    omega
  · split
    · -- The key and the value of one slot come before those of the next.
      rw [List.nodup_flatMap]
      refine ⟨fun i _ => ?_, List.nodup_range.imp fun {i j} differ => ?_⟩
      · split <;> simp
      · refine List.disjoint_left.mpr fun o first second => ?_
        beta_reduce at first second
        split at first
        · split at second
          · simp only [List.mem_cons, List.not_mem_nil, or_false] at first second
            omega
          · cases second
        · cases first
    · split
      · split <;> split <;> simp
      · split
        · split <;> split <;> simp
        · exact .nil

/-- Two words that tracing does not tell apart: the same, or two addresses above a bound. -/
def Alike (bound a b : Nat) : Prop :=
  a = b ∨ (bound ≤ a ∧ a % 2 = 0 ∧ a < 2 ^ 63) ∧ bound ≤ b ∧ b % 2 = 0 ∧ b < 2 ^ 63

theorem Alike.count {bound a b limit : Nat} (alike : Alike bound a b) (low : limit ≤ bound) :
    min (taggedCount a) limit = min (taggedCount b) limit := by
  rcases alike with rfl | ⟨⟨above, even, small⟩, above', even', small'⟩
  · rfl
  · rw [taggedCount, if_neg (by omega), if_neg (by omega), taggedCount, if_neg (by omega),
      if_neg (by omega)]
    omega

theorem Alike.live {bound a b : Nat} (alike : Alike bound a b) : isLive a = isLive b := by
  rcases alike with rfl | ⟨⟨-, even, -⟩, -, even', -⟩
  · rfl
  · simp only [isLive]
    rw [decide_eq_false (by omega), decide_eq_false (by omega), decide_eq_false (by omega),
      decide_eq_false (by omega)]

theorem tracedOffsets_congr (size : cells' 8 = cells 8) (tag : cells' 40 = cells 40)
    (alike : ∀ o, 48 ≤ o → o + 8 ≤ 48 + cells 8 → o % 8 = 0 → Alike (cells 8) (cells' o) (cells o)) :
    tracedOffsets cells' = tracedOffsets cells := by
  -- A count is read only where the body is long enough to hold it.
  have items : min (taggedCount (cells' 48)) ((cells 8 - 16) / 8) =
      min (taggedCount (cells 48)) ((cells 8 - 16) / 8) := by
    rcases Nat.lt_or_ge (cells 8) 24 with short | long
    · rw [show (cells 8 - 16) / 8 = 0 by omega, Nat.min_zero, Nat.min_zero]
    · exact (alike 48 (by omega) (by omega) (by omega)).count (by omega)
  have slots : min (taggedCount (cells' 56)) ((cells 8 - 16) / 24) =
      min (taggedCount (cells 56)) ((cells 8 - 16) / 24) := by
    rcases Nat.lt_or_ge (cells 8) 40 with short | long
    · rw [show (cells 8 - 16) / 24 = 0 by omega, Nat.min_zero, Nat.min_zero]
    · exact (alike 56 (by omega) (by omega) (by omega)).count (by omega)
  simp only [tracedOffsets, size, tag, items, slots]
  split
  · rfl
  · split
    · refine List.flatMap_congr fun i below => ?_
      have := List.mem_range.mp below
      rw [(alike (64 + 24 * i + 16) (by omega) (by omega) (by omega)).live]
    · rfl

theorem Sound.tracedSlots_bounds {mem : Memory} {h slot : Nat} (sound : Sound mem h)
    (member : slot ∈ tracedSlots mem h) :
    h + 48 ≤ slot ∧ slot + 8 ≤ h + totalAt mem h ∧ slot % 8 = 0 := by
  obtain ⟨o, offset, rfl⟩ := List.mem_map.mp member
  have bounds := tracedOffsets_bounds offset
  have room := sound.room
  have aligned := sound.aligned
  simp only [sizeAt] at room
  omega

theorem tracedSlots_nodup (mem : Memory) (h : Nat) : (tracedSlots mem h).Nodup :=
  (tracedOffsets_nodup _).map fun _ _ same => Nat.add_left_cancel same

end Traced

end Nytrix.Rt.Gc
