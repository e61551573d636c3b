import Mathlib.Logic.Function.Iterate
import Nytrix.Rt.GcMarking

/-! How references are redirected to objects that moved, and how slots are remembered. -/

namespace Nytrix.Rt.Gc

open Nytrix.Lib

variable {c : Config} {g : State} {map : ForwardMap} {h v x : Nat}

/-- The value a slot holds after it was redirected once. -/
def forward (map : ForwardMap) (v : Nat) : Nat :=
  if isPtr v = true ∧ forwardFind map v ≠ 0 then forwardFind map v else v

theorem forwardSlot_eq {mem : Memory} {slot : Nat} (nonnull : slot ≠ 0) :
    forwardSlot map mem slot = mem.store slot (forward map (mem slot)) := by
  have unchanged : mem.store slot (mem slot) = mem := by
    funext y
    by_cases here : y = slot <;> simp [Memory.store, here]
  rw [forwardSlot, forward]
  by_cases pointer : isPtr (mem slot) = true
  · by_cases moved : forwardFind map (mem slot) = 0
    · simp [nonnull, pointer, moved, unchanged]
    · simp [nonnull, pointer, moved]
  · simp [nonnull, pointer, unchanged]

theorem foldl_forwardSlot {slots : List Nat} (nonnull : ∀ slot ∈ slots, slot ≠ 0) (mem : Memory)
    (x : Nat) :
    (slots.foldl (forwardSlot map) mem) x = (forward map)^[slots.count x] (mem x) := by
  induction slots generalizing mem with
  | nil => rfl
  | cons slot slots ih =>
    rw [List.foldl_cons, ih (fun s later => nonnull s (by simp [later])),
      forwardSlot_eq (nonnull slot (by simp)), Memory.store]
    by_cases here : x = slot
    · subst here
      simp [Function.iterate_succ_apply]
    · rw [if_neg here, List.count_cons_of_ne (Ne.symm here)]

/-- An address the collector may give to an object. -/
structure Address (c : Config) (v : Nat) : Prop where
  low : c.nurseryStart ≤ v ∨ c.tenuredStart ≤ v
  aligned : v % 16 = 0
  user : v ≤ 2 ^ 47

/-- Every object that moved has an address before and after. -/
def Regular (c : Config) (map : ForwardMap) : Prop := ∀ m ∈ map, Address c m.1 ∧ Address c m.2

theorem forward_cases (map : ForwardMap) (v : Nat) : forward map v = v ∨ (v, forward map v) ∈ map := by
  rw [forward]
  split
  · rename_i found
    refine .inr ?_
    cases look : map.lookup v with
    | none => simp [forwardFind, look] at found
    | some d =>
      rw [forwardFind, look, Option.getD_some]
      obtain ⟨before, after, split, -⟩ := List.lookup_eq_some_iff.mp look
      simp [split]
  · exact .inl rfl

theorem forward_eq_target (addresses : ∀ m ∈ map, m.2 ≠ 0) (pointer : isPtr v = true) :
    forward map v = target map v := by
  rw [forward, target]
  cases look : map.lookup v with
  | none => simp [forwardFind, look]
  | some d =>
    obtain ⟨before, after, split, -⟩ := List.lookup_eq_some_iff.mp look
    have nonnull : d ≠ 0 := addresses (v, d) (by simp [split])
    simp [forwardFind, look, pointer, nonnull]

theorem Regular.iterate (regular : Regular c map) (n v : Nat) :
    (forward map)^[n] v = v ∨ Address c v ∧ Address c ((forward map)^[n] v) := by
  induction n with
  | zero => exact .inl rfl
  | succ n ih =>
    rw [Function.iterate_succ_apply']
    rcases forward_cases map ((forward map)^[n] v) with same | moved
    · rwa [same]
    · have ends := regular _ moved
      rcases ih with same | addresses
      · rw [same] at ends
        exact .inr ⟨ends.1, by rw [same]; exact ends.2⟩
      · exact .inr ⟨addresses.1, ends.2⟩

/-- A memory in which slots were redirected any number of times. -/
def Forwarded (map : ForwardMap) (mem mem' : Memory) : Prop :=
  ∀ x, ∃ n, mem' x = (forward map)^[n] (mem x)

theorem Forwarded.foldl {mem mem' : Memory} (redirected : Forwarded map mem mem') {slots : List Nat}
    (nonnull : ∀ slot ∈ slots, slot ≠ 0) :
    Forwarded map mem (slots.foldl (forwardSlot map) mem') := by
  intro x
  obtain ⟨n, value⟩ := redirected x
  refine ⟨slots.count x + n, ?_⟩
  rw [foldl_forwardSlot nonnull, value, Function.iterate_add_apply]

theorem Layout.forwarded_sound (lay : Layout c g) (regular : Regular c map) {mem : Memory}
    (redirected : Forwarded map g.mem mem) (member : h ∈ objects c g) :
    Sound mem h ∧ sizeAt mem h = sizeAt g.mem h := by
  have sound := lay.sound h member
  have modest := lay.modest h member
  have nurseryMapped := c.nurseryMapped
  have tenuredMapped := c.tenuredMapped
  -- A word that is not an address is left alone, however often it is visited.
  have still : ∀ o, ¬ Address c (g.mem (h + o)) → mem (h + o) = g.mem (h + o) := by
    intro o not
    obtain ⟨n, value⟩ := redirected (h + o)
    rw [value]
    exact (regular.iterate n _).resolve_right fun both => not both.1
  have size : sizeAt mem h = sizeAt g.mem h := still 8 fun address => by
    have low := address.low
    simp only [sizeAt] at modest
    omega
  have magic : mem (h + 16) = g.mem (h + 16) := still 16 fun address => by
    have user := address.user
    rw [sound.magic, magic1] at user
    omega
  have slack : mem (h + 24) = g.mem (h + 24) := still 24 fun address => by
    have aligned := address.aligned
    rw [sound.slack] at aligned
    omega
  have tag : mem (h + 40) = g.mem (h + 40) := still 40 fun address => by
    have low := address.low
    have small := sound.tag
    simp only [tagAt] at small
    omega
  have total : totalAt mem h = totalAt g.mem h := by rw [totalAt, totalAt, size]
  refine ⟨⟨sound.aligned, ?_, size ▸ sound.size, magic.trans sound.magic, ?_, ?_, ?_⟩, size⟩
  · obtain ⟨n, value⟩ := redirected h
    rw [value]
    rcases regular.iterate n (g.mem h) with same | addresses
    · rw [same]
      exact sound.head
    · have := addresses.2.user
      omega
  · rw [slack, sound.slack, size]
  · rw [tagAt, tag]
    exact sound.tag
  · intro o whole inside isMagic
    obtain ⟨n, value⟩ := redirected (h + o)
    rcases regular.iterate n (g.mem (h + o)) with same | addresses
    · rw [value, same] at isMagic
      exact sound.unique o whole (total ▸ inside) isMagic
    · have user := addresses.2.user
      rw [← value, isMagic, magic1] at user
      omega

theorem Layout.forwarded (lay : Layout c g) (regular : Regular c map) {mem : Memory}
    (redirected : Forwarded map g.mem mem) :
    Layout c { g with mem } ∧
      nurseryObjects c { g with mem } = nurseryObjects c g ∧
      tenuredObjects c { g with mem } = tenuredObjects c g :=
  lay.remake (fun _ member => (lay.forwarded_sound regular redirected member).2)
    fun _ member => (lay.forwarded_sound regular redirected member).1

theorem Layout.forwarded_tracedSlots (lay : Layout c g) (regular : Regular c map) {mem : Memory}
    (redirected : Forwarded map g.mem mem) (member : h ∈ objects c g) :
    tracedSlots mem h = tracedSlots g.mem h := by
  have sound := lay.sound h member
  have modest := lay.modest h member
  have tenuredMapped := c.tenuredMapped
  have nurseryMapped := c.nurseryMapped
  simp only [sizeAt] at modest
  have small := sound.tag
  have offsets : (tracedOffsets fun o => mem (h + o)) = tracedOffsets fun o => g.mem (h + o) := by
    refine tracedOffsets_congr (lay.forwarded_sound regular redirected member).2 ?_
      fun o _ _ _ => ?_
    · obtain ⟨n, value⟩ := redirected (h + 40)
      rw [value]
      refine (regular.iterate n _).resolve_right fun both => ?_
      have low := both.1.low
      simp only [tagAt] at small
      omega
    · obtain ⟨n, value⟩ := redirected (h + o)
      rcases regular.iterate n (g.mem (h + o)) with same | ⟨before, after⟩
      · exact .inl (value.trans same)
      · rw [← value] at after
        have := before.low
        have := before.aligned
        have := before.user
        have := after.low
        have := after.aligned
        have := after.user
        exact .inr (by omega)
  rw [tracedSlots, tracedSlots, offsets]

/-- The slots a pass over the references visits, in the order it visits them. -/
def visits (c : Config) (g : State) : List Nat :=
  g.roots ++ (g.remembered ++ (objects c g).flatMap (tracedSlots g.mem))

theorem Layout.tracedSlots_nonnull (lay : Layout c g) (hs : List Nat)
    (inside : ∀ h ∈ hs, h ∈ objects c g) : ∀ slot ∈ hs.flatMap (tracedSlots g.mem), slot ≠ 0 := by
  intro slot member
  obtain ⟨h, listed, traced⟩ := List.mem_flatMap.mp member
  have := (lay.sound h (inside h listed)).tracedSlots_bounds traced
  omega

theorem Layout.visits_nonnull (lay : Layout c g) (remembered : ∀ slot ∈ g.remembered, slot ≠ 0) :
    ∀ slot ∈ visits c g, slot ≠ 0 := by
  intro slot member
  simp only [visits, List.mem_append] at member
  rcases member with root | listed | traced
  · exact (lay.roots slot root).1
  · exact remembered slot listed
  · exact lay.tracedSlots_nonnull _ (fun _ => id) slot traced

theorem foldl_updateObjectRefs (lay : Layout c g) (regular : Regular c map) {hs : List Nat}
    (inside : ∀ h ∈ hs, h ∈ objects c g) {mem : Memory} (redirected : Forwarded map g.mem mem) :
    hs.foldl (updateObjectRefs map) { g with mem } =
      { g with mem := (hs.flatMap (tracedSlots g.mem)).foldl (forwardSlot map) mem } := by
  induction hs generalizing mem with
  | nil => rfl
  | cons h hs ih =>
    have first : h ∈ objects c g := inside h (by simp)
    have others : ∀ k ∈ hs, k ∈ objects c g := fun k later => inside k (by simp [later])
    have nonnull : ∀ slot ∈ tracedSlots g.mem h, slot ≠ 0 := fun slot traced =>
      lay.tracedSlots_nonnull [h] (by simpa using first) slot (by simpa using traced)
    rw [List.foldl_cons, updateObjectRefs, lay.forwarded_tracedSlots regular redirected first,
      ih others (redirected.foldl nonnull), List.flatMap_cons, List.foldl_append]

theorem walk_updateObjectRefs (lay : Layout c g) (regular : Regular c map) {p stop fuel : Nat}
    {hs : List Nat} (tiled : Tiled (totalAt g.mem) p stop hs) (inside : ∀ h ∈ hs, h ∈ objects c g)
    {mem : Memory} (redirected : Forwarded map g.mem mem) (enough : stop - p ≤ fuel) :
    walk (updateObjectRefs map) fuel p stop { g with mem } =
      hs.foldl (updateObjectRefs map) { g with mem } := by
  induction tiled generalizing fuel mem with
  | nil p => cases fuel <;> simp [walk]
  | @cons p stop rest positive more ih =>
    have ends := more.le
    have first : p ∈ objects c g := inside p (by simp)
    have nonnull : ∀ slot ∈ tracedSlots g.mem p, slot ≠ 0 := fun slot traced =>
      lay.tracedSlots_nonnull [p] (by simpa using first) slot (by simpa using traced)
    obtain ⟨fuel, rfl⟩ : ∃ k, fuel = k + 1 := ⟨fuel - 1, by omega⟩
    have moved := redirected.foldl nonnull
    have total : totalAt ((tracedSlots g.mem p).foldl (forwardSlot map) mem) p = totalAt g.mem p := by
      rw [totalAt, (lay.forwarded_sound regular moved first).2, totalAt]
    rw [walk, if_pos (by omega), List.foldl_cons]
    simp only [updateObjectRefs, lay.forwarded_tracedSlots regular redirected first]
    rw [total]
    exact ih (fun k later => inside k (by simp [later])) moved (by omega)

theorem applyForwards_eq (lay : Layout c g) (regular : Regular c map)
    (remembered : ∀ slot ∈ g.remembered, slot ≠ 0) :
    applyForwards c map g = { g with mem := (visits c g).foldl (forwardSlot map) g.mem } := by
  have roots : ∀ slot ∈ g.roots, slot ≠ 0 := fun slot listed => (lay.roots slot listed).1
  have young : ∀ h ∈ nurseryObjects c g, h ∈ objects c g := fun h => List.mem_append_left _
  have tenured : ∀ h ∈ tenuredObjects c g, h ∈ objects c g := fun h member => by
    simp [objects, oldObjects, member]
  have large : ∀ h ∈ largeObjects g, h ∈ objects c g := fun h member => by
    simp [objects, oldObjects, member]
  have start : Forwarded map g.mem g.mem := fun x => ⟨0, rfl⟩
  have afterRoots := start.foldl roots
  have afterRemembered := afterRoots.foldl remembered
  have afterNursery := afterRemembered.foldl (lay.tracedSlots_nonnull _ young)
  have afterTenured := afterNursery.foldl (lay.tracedSlots_nonnull _ tenured)
  have blocks : ∀ s : State, g.large.foldl (fun s l => updateObjectRefs map s l.header) s =
      (largeObjects g).foldl (updateObjectRefs map) s := fun s => by
    rw [largeObjects, List.foldl_map]
  -- Each part of the pass starts from the memory the part before it left.
  simp only [applyForwards, walkNursery, walkTenured]
  rw [walk_updateObjectRefs lay regular lay.nursery young afterRemembered (Nat.le_refl _),
    foldl_updateObjectRefs lay regular young afterRemembered]
  simp only
  rw [walk_updateObjectRefs lay regular lay.tenured tenured afterNursery (Nat.le_refl _),
    foldl_updateObjectRefs lay regular tenured afterNursery]
  simp only
  rw [blocks, foldl_updateObjectRefs lay regular large afterTenured]
  simp only [visits, objects, oldObjects, List.flatMap_append, List.foldl_append]

theorem Layout.slots_nodup (lay : Layout c g) :
    ((objects c g).flatMap (tracedSlots g.mem)).Nodup := by
  refine List.nodup_flatMap.mpr ⟨fun h _ => tracedSlots_nodup g.mem h, ?_⟩
  refine lay.nodup.imp_of_mem fun {h k} first second differ => ?_
  refine List.disjoint_left.mpr fun slot inFirst inSecond => ?_
  have one := (lay.sound h first).tracedSlots_bounds inFirst
  have two := (lay.sound k second).tracedSlots_bounds inSecond
  have apart := lay.apart first second differ
  simp only [Apart] at apart
  omega

/-- The slots of old objects that refer to the nursery. -/
def youngSlots (c : Config) (g : State) : List Nat :=
  ((oldObjects c g).flatMap (tracedSlots g.mem)).filter fun slot =>
    slotPointsToNursery c g (g.mem slot)

theorem foldl_rememberSlotIfNursery {slots : List Nat} (nonnull : ∀ slot ∈ slots, slot ≠ 0)
    (nodup : slots.Nodup) {remembered : List Nat} (fresh : ∀ slot ∈ slots, slot ∉ remembered) :
    slots.foldl (rememberSlotIfNursery c) { g with remembered } =
      { g with remembered :=
          remembered ++ slots.filter fun slot => slotPointsToNursery c g (g.mem slot) } := by
  induction slots generalizing remembered with
  | nil => simp
  | cons slot slots ih =>
    obtain ⟨head, tail⟩ := List.nodup_cons.mp nodup
    have others : ∀ s ∈ slots, s ≠ 0 := fun s later => nonnull s (by simp [later])
    have absent : slot ∉ remembered := fresh slot (by simp)
    have notNull : slot ≠ 0 := nonnull slot (by simp)
    rw [List.foldl_cons]
    have same : slotPointsToNursery c { g with remembered } (g.mem slot) =
      slotPointsToNursery c g (g.mem slot) := rfl
    by_cases young : slotPointsToNursery c g (g.mem slot) = true
    · have step : rememberSlotIfNursery c { g with remembered } slot =
          { g with remembered := remembered ++ [slot] } := by
        simp [rememberSlotIfNursery, addRemembered, notNull, same, young, absent]
      rw [step, ih others tail]
      · simp [young]
      · intro s later listed
        rcases List.mem_append.mp listed with early | here
        · exact fresh s (by simp [later]) early
        · exact head (List.mem_singleton.mp here ▸ later)
    · have step : rememberSlotIfNursery c { g with remembered } slot = { g with remembered } := by
        simp [rememberSlotIfNursery, same, young]
      rw [step, ih others tail fun s later => fresh s (by simp [later])]
      simp [young]

theorem foldl_rememberSlotIfNursery_mem (slots : List Nat) (s : State) :
    (slots.foldl (rememberSlotIfNursery c) s).mem = s.mem := by
  induction slots generalizing s with
  | nil => rfl
  | cons slot slots ih =>
    rw [List.foldl_cons, ih, rememberSlotIfNursery]
    split
    · rw [addRemembered]
      split <;> rfl
    · rfl

theorem foldl_rememberObjectRefs (hs : List Nat) {s : State} (same : s.mem = g.mem) :
    hs.foldl (rememberObjectRefs c) s =
      (hs.flatMap (tracedSlots g.mem)).foldl (rememberSlotIfNursery c) s := by
  induction hs generalizing s with
  | nil => rfl
  | cons h hs ih =>
    rw [List.foldl_cons, rememberObjectRefs, ih ((foldl_rememberSlotIfNursery_mem _ s).trans same),
      same, List.flatMap_cons, List.foldl_append]

theorem walk_eq_foldl {visit : State → Nat → State} (keeps : ∀ s h, (visit s h).mem = s.mem)
    {p stop fuel : Nat} {hs : List Nat} {s : State} (tiled : Tiled (totalAt s.mem) p stop hs)
    (enough : stop - p ≤ fuel) : walk visit fuel p stop s = hs.foldl visit s := by
  induction hs generalizing p fuel s with
  | nil =>
    cases tiled
    cases fuel <;> simp [walk]
  | cons h hs ih =>
    cases tiled with
    | cons positive more =>
      have ends := more.le
      obtain ⟨fuel, rfl⟩ : ∃ k, fuel = k + 1 := ⟨fuel - 1, by omega⟩
      rw [walk, if_pos (by omega), List.foldl_cons]
      simp only [keeps]
      exact ih (by rwa [keeps]) (by omega)

theorem rebuildRemembered_eq (lay : Layout c g) :
    rebuildRemembered c g = { g with remembered := youngSlots c g } := by
  have keeps : ∀ s h, (rememberObjectRefs c s h).mem = s.mem := fun s h =>
    foldl_rememberSlotIfNursery_mem _ s
  have nodup : ((oldObjects c g).flatMap (tracedSlots g.mem)).Nodup := by
    have all := lay.slots_nodup
    rw [objects, List.flatMap_append] at all
    exact (List.nodup_append.mp all).2.1
  have nonnull := lay.tracedSlots_nonnull (oldObjects c g) fun h => List.mem_append_right _
  have blocks : ∀ s : State, g.large.foldl (fun s l => rememberObjectRefs c s l.header) s =
      (largeObjects g).foldl (rememberObjectRefs c) s := fun s => by
    rw [largeObjects, List.foldl_map]
  have tenured : walkTenured c (rememberObjectRefs c) { g with remembered := [] } =
      (tenuredObjects c g).foldl (rememberObjectRefs c) { g with remembered := [] } :=
    walk_eq_foldl keeps lay.tenured (Nat.le_refl _)
  have unchanged : ((tenuredObjects c g).foldl (rememberObjectRefs c)
      { g with remembered := [] }).large = g.large := by
    rw [foldl_rememberObjectRefs (g := g) (s := { g with remembered := [] }) _ rfl, foldl_rememberSlotIfNursery]
    · exact fun slot traced => nonnull slot (by simp only [oldObjects, List.flatMap_append]; simp [traced])
    · rw [oldObjects, List.flatMap_append] at nodup
      exact (List.nodup_append.mp nodup).1
    · simp
  simp only [rebuildRemembered, tenured, unchanged]
  rw [blocks, ← List.foldl_append, foldl_rememberObjectRefs (g := g) (s := { g with remembered := [] }) _ rfl, ← oldObjects,
    foldl_rememberSlotIfNursery nonnull nodup (by simp), List.nil_append]
  rfl

end Nytrix.Rt.Gc
