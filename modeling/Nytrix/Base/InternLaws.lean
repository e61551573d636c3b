import Mathlib.Data.List.Nodup
import Nytrix.Base.Intern

/-! What the string table keeps: distinct strings, each with one id and one pointer. -/

namespace Nytrix.Base

open Nytrix.Lib

theorem nextSlot_eq {size bits : Nat} (power : size = 2 ^ bits) (i : Nat) :
    nextSlot size i = (i + 1) % size := by
  subst power
  exact Nat.and_two_pow_sub_one_eq_mod (i + 1) bits

theorem startSlot_lt {size bits : Nat} (power : size = 2 ^ bits) (hash : Nat) :
    startSlot size hash < size := by
  subst power
  rw [startSlot, Nat.and_two_pow_sub_one_eq_mod]
  exact Nat.mod_lt _ (Nat.two_pow_pos bits)

/-- A map of keys by their hashes, with so many keys, loaded to seven tenths at most. -/
structure Slotted (hash : Nat → Nat) (slots : OpenTable) (keys : Nat → Prop) (n : Nat) : Prop where
  size : ∃ bits, slots.length = 2 ^ (bits + 1)
  ordered : OpenTable.Ordered (fun key => startSlot slots.length (hash key)) slots
  has : ∀ k, OpenTable.Has slots k ↔ keys k
  used : OpenTable.used slots = n
  load : n * 10 ≤ slots.length * 7

namespace Slotted

variable {hash : Nat → Nat} {slots : OpenTable} {keys : Nat → Prop} {n : Nat}

theorem two_le_length (slotted : Slotted hash slots keys n) : 2 ≤ slots.length := by
  obtain ⟨bits, power⟩ := slotted.size
  rw [power, Nat.pow_succ]
  have positive := Nat.two_pow_pos bits
  omega

theorem order (slotted : Slotted hash slots keys n) (i : Nat) :
    nextSlot slots.length i = (i + 1) % slots.length := by
  obtain ⟨bits, power⟩ := slotted.size
  exact nextSlot_eq power i

theorem starts (slotted : Slotted hash slots keys n) (h : Nat) :
    startSlot slots.length h < slots.length := by
  obtain ⟨bits, power⟩ := slotted.size
  exact startSlot_lt power h

theorem free (bits : Nat) :
    Slotted hash (OpenTable.fresh (2 ^ (bits + 1))) (fun _ => False) 0 where
  size := ⟨bits, OpenTable.length_fresh _⟩
  ordered := OpenTable.ordered_fresh _
  has := fun k => ⟨fun has => OpenTable.not_has_fresh _ has, False.elim⟩
  used := OpenTable.used_fresh _
  load := by omega

theorem initial : Slotted hash (OpenTable.fresh 8192) (fun _ => False) 0 := by
  rw [show 8192 = 2 ^ (12 + 1) from rfl]
  exact free 12

theorem seek (slotted : Slotted hash slots keys n) (hits : Nat → Bool) (h : Nat) :
    (∃ k, OpenTable.seek hits (nextSlot slots.length) slots slots.length
        (startSlot slots.length h) = some (.hit k) ∧ keys k ∧ hits k = true) ∨
    (∃ i, OpenTable.seek hits (nextSlot slots.length) slots slots.length
        (startSlot slots.length h) = some (.room i) ∧
      (∀ k, keys k → hash k = h → hits k = false) ∧
      i < slots.length ∧ slots.getD i 0 = 0 ∧
      OpenTable.Met slots (startSlot slots.length h) i) := by
  have order : ∀ i < slots.length, nextSlot slots.length i = (i + 1) % slots.length :=
    fun i _ => slotted.order i
  have positive := slotted.two_le_length
  have load := slotted.load
  have room : OpenTable.used slots < slots.length := by
    rw [slotted.used]
    omega
  obtain ⟨sought, ends⟩ := Option.isSome_iff_exists.mp
    (@OpenTable.seek_isSome hits _ slots _ order (slotted.starts h) room)
  cases sought with
  | hit k =>
    obtain ⟨has, hit⟩ := OpenTable.seek_hit ends
    exact .inl ⟨k, ends, (slotted.has k).mp has, hit⟩
  | room i =>
    obtain ⟨inside, empty, -⟩ := OpenTable.seek_room order (slotted.starts h) ends
    refine .inr ⟨i, ends, ?_, inside, empty, OpenTable.met_of_seek_room order (slotted.starts h) ends⟩
    intro k key same
    refine OpenTable.seek_room_absent order (slotted.starts h) slotted.ordered ends
      ((slotted.has k).mpr key) ?_
    show startSlot slots.length (hash k) = startSlot slots.length h
    rw [same]

theorem put (slotted : Slotted hash slots keys n) {i key : Nat} (inside : i < slots.length)
    (empty : slots.getD i 0 = 0) (met : OpenTable.Met slots (startSlot slots.length (hash key)) i)
    (some_key : key ≠ 0) (load : (n + 1) * 10 ≤ slots.length * 7) :
    Slotted hash (slots.set i key) (fun k => k = key ∨ keys k) (n + 1) where
  size := by
    rw [List.length_set]
    exact slotted.size
  ordered := by
    rw [List.length_set]
    exact slotted.ordered.put inside some_key met
  has := by
    intro k
    rw [OpenTable.has_put inside empty some_key, slotted.has k]
  used := by rw [OpenTable.used_put inside empty some_key, slotted.used]
  load := by rwa [List.length_set]

theorem built {bits : Nat} (items : List (Nat × Nat))
    (begins : ∀ item ∈ items, item.1 = startSlot (2 ^ (bits + 1)) (hash item.2) ∧ item.2 ≠ 0)
    (load : items.length * 10 ≤ 2 ^ (bits + 1) * 7) :
    ∃ placed, OpenTable.placeAll (nextSlot (2 ^ (bits + 1))) (OpenTable.fresh (2 ^ (bits + 1))) items =
        some placed ∧ placed.length = 2 ^ (bits + 1) ∧
      Slotted hash placed (fun k => ∃ item ∈ items, item.2 = k) items.length := by
  have positive : 0 < 2 ^ (bits + 1) := Nat.two_pow_pos (bits + 1)
  obtain ⟨placed, all, size, ordered, used, has⟩ :=
    @OpenTable.placeAll_spec (fun key => startSlot (2 ^ (bits + 1)) (hash key)) (nextSlot (2 ^ (bits + 1)))
      items begins (OpenTable.fresh (2 ^ (bits + 1)))
      (by
        intro i _
        rw [OpenTable.length_fresh]
        exact nextSlot_eq rfl i)
      (by
        intro key
        rw [OpenTable.length_fresh]
        exact startSlot_lt rfl _)
      (OpenTable.ordered_fresh _)
      (by
        rw [OpenTable.used_fresh, OpenTable.length_fresh]
        omega)
  rw [OpenTable.length_fresh] at size
  rw [OpenTable.used_fresh, Nat.zero_add] at used
  refine ⟨placed, all, size, ⟨bits, size⟩, by rwa [size], ?_, used, by rwa [size]⟩
  intro k
  rw [has k]
  exact or_iff_left (OpenTable.not_has_fresh _)

theorem congr {hash' : Nat → Nat} {keys' : Nat → Prop} (slotted : Slotted hash slots keys n)
    (same : ∀ k, keys k ↔ keys' k) (agree : ∀ k, keys k → hash k = hash' k) :
    Slotted hash' slots keys' n where
  size := slotted.size
  ordered := by
    intro i taken
    have key := (slotted.has _).mp (OpenTable.has_of_slot taken)
    show OpenTable.Met slots (startSlot slots.length (hash' (slots.getD i 0))) i
    rw [← agree _ key]
    exact slotted.ordered i taken
  has := fun k => (slotted.has k).trans (same k)
  used := slotted.used
  load := slotted.load

end Slotted

/-- The pointer is that of an entry. -/
def IsEntryPtr (s : Interns) (ptr : Nat) : Prop := ∃ id < s.count, (s.table id).str = ptr

/-- The ids of the entries after the first. -/
def IsEntryId (s : Interns) (id : Nat) : Prop := id ≠ 0 ∧ id < s.count

/--
The table has exactly these strings, each at the id that is its position.

The entries, the map of hashes, the map of pointers and the cache agree on them.
-/
structure Interned (lit : Nat) (s : Interns) (strs : List (List UInt8)) : Prop where
  allocated : s.allocated = true
  count : s.count = strs.length
  first : strs[0]? = some []
  distinct : strs.Nodup
  literal : (s.table 0).str = lit
  entries : ∀ {id : Nat} {str : List UInt8}, strs[id]? = some str →
    (s.table id).len = str.length ∧ s.memory (s.table id).str = str ++ [0] ∧ (s.table id).str ≠ 0
  hashes : ∀ {id : Nat} {str : List UInt8}, id ≠ 0 → strs[id]? = some str →
    (s.table id).hash = hash64 str
  apart : ∀ {i j : Nat}, i < s.count → j < s.count → (s.table i).str = (s.table j).str → i = j
  ids : Slotted (fun id => (s.table id).hash.toNat) s.map (IsEntryId s) (s.count - 1)
  idsLoad : s.count * 10 ≤ s.map.length * 7
  ptrs : Slotted internPtrHash s.ptrMap (IsEntryPtr s) s.ptrMapLen
  cached : ∀ ptr, DirectCache.Keeps cacheSlot s.ptrCache ptr → IsEntryPtr s ptr

/-- A pointer that the allocator may return: not that of anything in memory. -/
structure Fresh (s : Interns) (ptr : Nat) : Prop where
  some_ptr : ptr ≠ 0
  word : ptr < 2 ^ 64
  unused : s.memory ptr = []

section PointerMap

variable {s : Interns} {keys : Nat → Prop} {n ptr : Nat}

theorem internPtrMapGrow_spec (slotted : Slotted internPtrHash s.ptrMap keys n)
    (len : s.ptrMapLen = n) :
    ∃ slots, internPtrMapGrow s = some { s with ptrMap := slots } ∧
      Slotted internPtrHash slots keys n ∧ (n + 1) * 10 ≤ slots.length * 7 := by
  have positive := slotted.two_le_length
  have nonempty : s.ptrMap.isEmpty = false := by
    cases slots : s.ptrMap with
    | nil => simp [slots] at positive
    | cons _ _ => rfl
  unfold internPtrMapGrow
  rw [nonempty, len]
  simp only [Bool.false_eq_true, if_false]
  split
  · next over_ =>
    -- The pointers are moved to a map of twice the size.
    obtain ⟨bits, power⟩ := slotted.size
    have double : s.ptrMap.length * 2 = 2 ^ (bits + 1 + 1) := by rw [power, Nat.pow_succ 2 (bits + 1)]
    have load := slotted.load
    have length : (s.ptrMap.filter (· ≠ 0)).length = n := by
      rw [← List.countP_eq_length_filter]
      exact slotted.used
    obtain ⟨placed, all, size, moved⟩ :=
      @Slotted.built internPtrHash (bits + 1)
        ((s.ptrMap.filter (· ≠ 0)).map fun ptr =>
          (startSlot (2 ^ (bits + 1 + 1)) (internPtrHash ptr), ptr))
        (by
          intro item member
          obtain ⟨p, kept, rfl⟩ := List.mem_map.mp member
          exact ⟨rfl, by simpa using (List.mem_filter.mp kept).2⟩)
        (by
          rw [List.length_map, length, ← double]
          omega)
    rw [List.length_map, length] at moved
    refine ⟨placed, ?_, moved.congr ?_ (fun _ _ => rfl), by omega⟩
    · simp only [internPtrMapResize, double, all, Option.map_some, length]
    · intro k
      rw [← slotted.has k]
      simp only [List.mem_map, List.mem_filter, OpenTable.Has]
      constructor
      · rintro ⟨-, ⟨p, ⟨member, some_ptr⟩, rfl⟩, rfl⟩
        exact ⟨by simpa using some_ptr, member⟩
      · rintro ⟨some_ptr, member⟩
        exact ⟨_, ⟨k, ⟨member, by simpa using some_ptr⟩, rfl⟩, rfl⟩
  · next under =>
    exact ⟨s.ptrMap, by rw [← len], slotted, by omega⟩

theorem internPtrMapPut_spec (slotted : Slotted internPtrHash s.ptrMap keys n)
    (len : s.ptrMapLen = n) (some_ptr : ptr ≠ 0) (absent : ¬ keys ptr) :
    ∃ slots, internPtrMapPut s ptr = some { s with ptrMap := slots, ptrMapLen := n + 1 } ∧
      Slotted internPtrHash slots (fun k => k = ptr ∨ keys k) (n + 1) := by
  obtain ⟨slots, grown, wide, load⟩ := internPtrMapGrow_spec slotted len
  unfold internPtrMapPut
  rw [if_neg some_ptr, grown]
  simp only [Option.bind_some, ptrMapSeek]
  rcases wide.seek (· == ptr) (internPtrHash ptr) with
    ⟨k, -, key, hit⟩ | ⟨i, ends, -, inside, empty, met⟩
  · -- The pointer would be in the map.
    obtain rfl : k = ptr := by simpa using hit
    exact absurd key absent
  · rw [ends]
    exact ⟨slots.set i ptr, by rw [← len], wide.put inside empty met some_ptr load⟩

end PointerMap

section Entries

variable {lit dup : Nat} {s : Interns} {strs : List (List UInt8)} {str : List UInt8} {id : Nat}

theorem Interned.lt_count (interned : Interned lit s strs) (at_id : strs[id]? = some str) :
    id < s.count := by
  rw [interned.count]
  exact (List.getElem?_eq_some_iff.mp at_id).1

theorem Interned.at_lt (interned : Interned lit s strs) (less : id < s.count) :
    ∃ str, strs[id]? = some str := by
  rw [interned.count] at less
  exact ⟨strs[id], List.getElem?_eq_getElem less⟩

theorem Interned.entryIs_iff (interned : Interned lit s strs) (key : IsEntryId s id) :
    entryIs s str (hash64 str) id = true ↔ strs[id]? = some str := by
  obtain ⟨later, less⟩ := key
  obtain ⟨there, at_id⟩ := interned.at_lt less
  obtain ⟨len, memory, -⟩ := interned.entries at_id
  have hash := interned.hashes later at_id
  rw [at_id, Option.some.injEq]
  simp only [entryIs, Bool.and_eq_true, beq_iff_eq, len, hash, memory]
  constructor
  · rintro ⟨⟨same, -⟩, bytes⟩
    rw [← same, List.take_left] at bytes
    exact bytes
  · rintro rfl
    exact ⟨⟨rfl, rfl⟩, List.take_left⟩

theorem Interned.not_isEntryPtr (interned : Interned lit s strs) (fresh : Fresh s dup) :
    ¬ IsEntryPtr s dup := by
  rintro ⟨id, less, rfl⟩
  obtain ⟨str, at_id⟩ := interned.at_lt less
  obtain ⟨-, memory, -⟩ := interned.entries at_id
  rw [fresh.unused] at memory
  simp at memory

theorem Interned.seek (interned : Interned lit s strs) (some_str : str ≠ []) :
    (∃ id, OpenTable.seek (entryIs s str (hash64 str)) (nextSlot s.map.length) s.map s.map.length
        (startSlot s.map.length (hash64 str).toNat) = some (.hit id) ∧ strs[id]? = some str) ∨
    (∃ idx, OpenTable.seek (entryIs s str (hash64 str)) (nextSlot s.map.length) s.map s.map.length
        (startSlot s.map.length (hash64 str).toNat) = some (.room idx) ∧ str ∉ strs ∧
      idx < s.map.length ∧ s.map.getD idx 0 = 0 ∧
      OpenTable.Met s.map (startSlot s.map.length (hash64 str).toNat) idx) := by
  rcases interned.ids.seek (entryIs s str (hash64 str)) (hash64 str).toNat with
    ⟨id, ends, key, hit⟩ | ⟨idx, ends, missed, inside, empty, met⟩
  · exact .inl ⟨id, ends, (interned.entryIs_iff key).mp hit⟩
  · refine .inr ⟨idx, ends, ?_, inside, empty, met⟩
    intro member
    obtain ⟨id, at_id⟩ := List.mem_iff_getElem?.mp member
    -- The string is not the empty one, so that its id is in the map.
    have later : id ≠ 0 := by
      rintro rfl
      rw [interned.first, Option.some.injEq] at at_id
      exact some_str at_id.symm
    have key : IsEntryId s id := ⟨later, interned.lt_count at_id⟩
    have differs := missed id key (congrArg UInt64.toNat (interned.hashes later at_id))
    rw [(interned.entryIs_iff key).mpr at_id] at differs
    cases differs

end Entries

section Steps

variable {lit dup : Nat} {s : Interns} {strs : List (List UInt8)} {str : List UInt8} {id : Nat}

theorem interned_first (some_lit : lit ≠ 0) (allocated : s.allocated = true) (count : s.count = 1)
    (entry : s.table 0 = { str := lit, len := 0, hash := 0 }) (memory : s.memory lit = [0])
    (ids : ∀ hash, Slotted hash s.map (fun _ => False) 0) (idsLoad : 10 ≤ s.map.length * 7)
    (ptrs : Slotted internPtrHash s.ptrMap (fun k => k = lit ∨ False) s.ptrMapLen)
    (cache : s.ptrCache = DirectCache.empty) : Interned lit s [[]] := by
  have only {i : Nat} (less : i < 1) : i = 0 := by omega
  exact
    { allocated := allocated
      count := count
      first := rfl
      distinct := List.nodup_singleton _
      literal := by rw [entry]
      entries := by
        intro id str at_id
        obtain rfl : id = 0 := only (List.getElem?_eq_some_iff.mp at_id).1
        obtain rfl : [] = str := Option.some.inj at_id
        rw [entry]
        exact ⟨rfl, memory, some_lit⟩
      hashes := by
        intro id str later at_id
        exact absurd (only (List.getElem?_eq_some_iff.mp at_id).1) later
      apart := by
        intro i j insideI insideJ _
        rw [count] at insideI insideJ
        rw [only insideI, only insideJ]
      ids := by
        rw [count]
        refine (ids _).congr ?_ (fun _ _ => rfl)
        intro k
        simp only [IsEntryId, count]
        exact ⟨False.elim, fun ⟨later, less⟩ => later (only less)⟩
      idsLoad := by
        rw [count]
        exact idsLoad
      ptrs := by
        refine ptrs.congr ?_ (fun _ _ => rfl)
        intro k
        simp only [IsEntryPtr, count]
        constructor
        · rintro (rfl | absent)
          · exact ⟨0, by omega, by rw [entry]⟩
          · exact absent.elim
        · rintro ⟨i, less, rfl⟩
          rw [only less, entry]
          exact .inl rfl
      cached := by
        intro ptr keeps
        rw [cache] at keeps
        exact absurd keeps DirectCache.not_keeps_empty }

theorem internInit_start (some_lit : lit ≠ 0) (table : Nat → InternEntry) :
    ∃ s, internInit lit (internStart lit table) = some s ∧ Interned lit s [[]] ∧
      s.memory = (internStart lit table).memory := by
  -- The pointer of the literal is put in the free map of pointers.
  have ptrMap : (internAllocated lit (internStart lit table)).ptrMap = OpenTable.fresh 8192 := rfl
  have map : (internAllocated lit (internStart lit table)).map = OpenTable.fresh 8192 := rfl
  obtain ⟨slots, put, slotted⟩ :=
    @internPtrMapPut_spec (internAllocated lit (internStart lit table)) (fun _ => False) 0 lit
      (by
        rw [ptrMap]
        exact Slotted.initial)
      rfl some_lit (fun absent => absent)
  have unallocated : ¬ (internStart lit table).allocated = true := Bool.false_ne_true
  refine ⟨{ internAllocated lit (internStart lit table) with ptrMap := slots, ptrMapLen := 0 + 1 },
    ?_, interned_first some_lit rfl rfl ?_ ?_ ?_ ?_ slotted rfl, rfl⟩
  · rw [internInit, if_neg unallocated]
    exact put
  · simp only [internAllocated, Function.update_self]
  · simp only [internAllocated, internStart, Function.update_self]
  · intro hash
    simp only [map]
    exact Slotted.initial
  · simp only [map, OpenTable.length_fresh]
    omega

theorem internStart_memory (lit : Nat) (table : Nat → InternEntry) :
    (internStart lit table).memory lit = [0] := by
  simp only [internStart, Function.update_self]

theorem internStart_memory_of_ne {ptr : Nat} (table : Nat → InternEntry) (other : ptr ≠ lit) :
    (internStart lit table).memory ptr = [] := by
  simp only [internStart, Function.update_of_ne other]

theorem internInit_again (interned : Interned lit s strs) : internInit lit s = some s := by
  rw [internInit, if_pos interned.allocated]

theorem internStr_known (interned : Interned lit s strs) (at_id : strs[id]? = some str) :
    internStr lit s dup str = some (s, id) := by
  unfold internStr
  cases empty : str.isEmpty with
  | true =>
    -- The empty string is at the id zero only.
    obtain rfl : str = [] := List.isEmpty_iff.mp empty
    obtain ⟨inside, here⟩ := List.getElem?_eq_some_iff.mp at_id
    obtain ⟨begins, first⟩ := List.getElem?_eq_some_iff.mp interned.first
    have zero : id = 0 := (List.Nodup.getElem_inj_iff interned.distinct).mp (here.trans first.symm)
    rw [zero]
    rfl
  | false =>
    have some_str : str ≠ [] := by
      rintro rfl
      cases empty
    simp only [Bool.false_eq_true, if_false, internInit_again interned, Option.bind_some]
    rcases interned.seek some_str with ⟨found, ends, at_found⟩ | ⟨idx, -, absent, -⟩
    · obtain ⟨inside, here⟩ := List.getElem?_eq_some_iff.mp at_id
      obtain ⟨begins, there⟩ := List.getElem?_eq_some_iff.mp at_found
      have same : found = id :=
        (List.Nodup.getElem_inj_iff interned.distinct).mp (there.trans here.symm)
      rw [ends, same]
    · exact absurd (List.mem_of_getElem? at_id) absent

/-- What a later state of the table keeps of an earlier one. -/
structure Extends (before after : Interns) : Prop where
  allocated : before.allocated = true → after.allocated = true
  count : before.count ≤ after.count
  table : ∀ id < before.count, after.table id = before.table id
  memory : ∀ ptr, before.memory ptr ≠ [] → after.memory ptr = before.memory ptr

theorem Extends.refl (s : Interns) : Extends s s :=
  ⟨id, Nat.le_refl _, fun _ _ => rfl, fun _ _ => rfl⟩

theorem Extends.trans {a b c : Interns} (first : Extends a b) (second : Extends b c) :
    Extends a c where
  allocated := fun there => second.allocated (first.allocated there)
  count := Nat.le_trans first.count second.count
  table := fun id less => (second.table id (Nat.lt_of_lt_of_le less first.count)).trans
    (first.table id less)
  memory := by
    intro ptr there
    have kept := first.memory ptr there
    exact (second.memory ptr (by rwa [kept])).trans kept

theorem internMapGrow_spec
    (ids : Slotted (fun id => (s.table id).hash.toNat) s.map (IsEntryId s) (s.count - 1))
    (few : s.count ≤ 2 ^ 32) (load : s.count * 10 ≤ s.map.length * 7 + 10) :
    ∃ slots, internMapGrow s = some { s with map := slots } ∧
      Slotted (fun id => (s.table id).hash.toNat) slots (IsEntryId s) (s.count - 1) ∧
      s.count * 10 ≤ slots.length * 7 := by
  have wide := ids.two_le_length
  unfold internMapGrow
  split
  · next over_ =>
    -- The ids are put in a map of twice the size, from the entries.
    obtain ⟨bits, power⟩ := ids.size
    have double : s.map.length * 2 = 2 ^ (bits + 1 + 1) := by
      rw [power, Nat.pow_succ 2 (bits + 1)]
    have inside {id : Nat} (member : id ∈ List.range' 1 (s.count - 1)) :
        id ≠ 0 ∧ id < s.count ∧ id % 2 ^ 32 = id := by
      rw [List.mem_range'_1] at member
      exact ⟨by omega, by omega, Nat.mod_eq_of_lt (by omega)⟩
    obtain ⟨placed, all, size, moved⟩ :=
      @Slotted.built (fun id => (s.table id).hash.toNat) (bits + 1)
        ((List.range' 1 (s.count - 1)).map fun id =>
          (startSlot (2 ^ (bits + 1 + 1)) (s.table id).hash.toNat, id % 2 ^ 32))
        (by
          intro item member
          obtain ⟨id, within, rfl⟩ := List.mem_map.mp member
          obtain ⟨later, -, fits⟩ := inside within
          rw [fits]
          exact ⟨rfl, later⟩)
        (by
          rw [List.length_map, List.length_range', ← double]
          omega)
    rw [List.length_map, List.length_range'] at moved
    refine ⟨placed, ?_, moved.congr ?_ (fun _ _ => rfl), by omega⟩
    · simp only [double, all, Option.map_some]
    · intro k
      constructor
      · rintro ⟨item, member, rfl⟩
        obtain ⟨id, within, rfl⟩ := List.mem_map.mp member
        obtain ⟨later, less, fits⟩ := inside within
        rw [fits]
        exact ⟨later, less⟩
      · rintro ⟨later, less⟩
        have within : k ∈ List.range' 1 (s.count - 1) := by
          rw [List.mem_range'_1]
          omega
        obtain ⟨-, -, fits⟩ := inside within
        exact ⟨_, List.mem_map.mpr ⟨k, within, rfl⟩, fits⟩
  · next under =>
    exact ⟨s.map, rfl, ids, by omega⟩

theorem internEnter_table (s : Interns) (dup : Nat) (str : List UInt8) (hash : UInt64) (id : Nat) :
    (internEnter s dup str hash id).table id = { str := dup, len := str.length, hash := hash } :=
  Function.update_self id _ _

theorem internEnter_memory (s : Interns) (dup : Nat) (str : List UInt8) (hash : UInt64) (id : Nat) :
    (internEnter s dup str hash id).memory dup = str ++ [0] :=
  Function.update_self dup _ _

theorem internEnter_extends (interned : Interned lit s strs) (fresh : Fresh s dup) :
    Extends s (internEnter s dup str (hash64 str) strs.length) where
  allocated := id
  count := Nat.le_succ _
  table := by
    intro id less
    rw [interned.count] at less
    exact Function.update_of_ne (Nat.ne_of_lt less) _ _
  memory := by
    intro ptr there
    refine Function.update_of_ne ?_ _ _
    rintro rfl
    exact there fresh.unused

theorem isEntryPtr_internEnter (interned : Interned lit s strs) (fresh : Fresh s dup) (ptr : Nat) :
    IsEntryPtr (internEnter s dup str (hash64 str) strs.length) ptr ↔
      ptr = dup ∨ IsEntryPtr s ptr := by
  have extends_ := @internEnter_extends lit dup s strs str interned fresh
  constructor
  · rintro ⟨id, less, rfl⟩
    rcases Nat.lt_succ_iff_lt_or_eq.mp less with old | rfl
    · refine .inr ⟨id, old, ?_⟩
      rw [extends_.table id old]
    · rw [interned.count, internEnter_table]
      exact .inl rfl
  · rintro (rfl | ⟨id, less, rfl⟩)
    · refine ⟨strs.length, ?_, by rw [internEnter_table]⟩
      show strs.length < s.count + 1
      rw [interned.count]
      exact Nat.lt_succ_self _
    · exact ⟨id, Nat.lt_succ_of_lt less, by rw [extends_.table id less]⟩

/-- The table with one more string, whose entry, pointer and id are in it. -/
theorem Interned.add (interned : Interned lit s strs) (fresh : Fresh s dup) (absent : str ∉ strs)
    {ids ptrs : OpenTable}
    (idSlots : Slotted
      (fun id => ((internEnter s dup str (hash64 str) strs.length).table id).hash.toNat) ids
      (IsEntryId (internEnter s dup str (hash64 str) strs.length)) (s.count + 1 - 1))
    (idsLoad : (s.count + 1) * 10 ≤ ids.length * 7)
    (ptrSlots : Slotted internPtrHash ptrs
      (IsEntryPtr (internEnter s dup str (hash64 str) strs.length)) (s.ptrMapLen + 1)) :
    Interned lit
      { internEnter s dup str (hash64 str) strs.length with
        ptrMap := ptrs, ptrMapLen := s.ptrMapLen + 1, map := ids } (strs ++ [str]) := by
  have extends_ := @internEnter_extends lit dup s strs str interned fresh
  have last := internEnter_table s dup str (hash64 str) strs.length
  have positive : 0 < strs.length := (List.getElem?_eq_some_iff.mp interned.first).1
  -- A string of the longer list is an old one at its id, or else the new one at the last id.
  have cases_ {id : Nat} {found : List UInt8} (at_id : (strs ++ [str])[id]? = some found) :
      (id < s.count ∧ strs[id]? = some found) ∨ (id = strs.length ∧ found = str) := by
    rw [interned.count]
    rcases Nat.lt_or_ge id strs.length with less | more
    · rw [List.getElem?_append_left less] at at_id
      exact .inl ⟨less, at_id⟩
    · rw [List.getElem?_append_right more] at at_id
      obtain ⟨inside, rfl⟩ := List.getElem?_eq_some_iff.mp at_id
      simp only [List.length_singleton] at inside
      refine .inr ⟨by omega, ?_⟩
      simp
  exact
    { allocated := interned.allocated
      count := by
        show s.count + 1 = (strs ++ [str]).length
        rw [interned.count, List.length_append, List.length_singleton]
      first := by rw [List.getElem?_append_left positive, interned.first]
      distinct := by
        rw [List.nodup_append]
        refine ⟨interned.distinct, List.nodup_singleton str, ?_⟩
        rintro a member b new rfl
        rw [List.mem_singleton.mp new] at member
        exact absent member
      literal := by
        show ((internEnter s dup str (hash64 str) strs.length).table 0).str = lit
        rw [extends_.table 0 (by rwa [interned.count])]
        exact interned.literal
      entries := by
        intro id found at_id
        show ((internEnter s dup str (hash64 str) strs.length).table id).len = found.length ∧
          (internEnter s dup str (hash64 str) strs.length).memory
            ((internEnter s dup str (hash64 str) strs.length).table id).str = found ++ [0] ∧ _
        rcases cases_ at_id with ⟨less, old⟩ | ⟨rfl, rfl⟩
        · obtain ⟨len, memory, some_ptr⟩ := interned.entries old
          rw [extends_.table id less]
          refine ⟨len, ?_, some_ptr⟩
          rw [extends_.memory _ (by simp [memory]), memory]
        · rw [last]
          exact ⟨rfl, internEnter_memory s dup found (hash64 found) strs.length, fresh.some_ptr⟩
      hashes := by
        intro id found later at_id
        show ((internEnter s dup str (hash64 str) strs.length).table id).hash = hash64 found
        rcases cases_ at_id with ⟨less, old⟩ | ⟨rfl, rfl⟩
        · rw [extends_.table id less]
          exact interned.hashes later old
        · rw [last]
      apart := by
        intro i j insideI insideJ same
        have other {k : Nat} (less : k < s.count) : (s.table k).str ≠ dup := fun equal =>
          interned.not_isEntryPtr fresh ⟨k, less, equal⟩
        have top : s.count = strs.length := interned.count
        change ((internEnter s dup str (hash64 str) strs.length).table i).str =
          ((internEnter s dup str (hash64 str) strs.length).table j).str at same
        rcases Nat.lt_succ_iff_lt_or_eq.mp insideI with oldI | lastI <;>
          rcases Nat.lt_succ_iff_lt_or_eq.mp insideJ with oldJ | lastJ
        · rw [extends_.table i oldI, extends_.table j oldJ] at same
          exact interned.apart oldI oldJ same
        · rw [extends_.table i oldI, lastJ, top, last] at same
          exact absurd same (other oldI)
        · rw [extends_.table j oldJ, lastI, top, last] at same
          exact absurd same.symm (other oldJ)
        · exact lastI.trans lastJ.symm
      ids := idSlots
      idsLoad := idsLoad
      ptrs := ptrSlots
      cached := by
        intro ptr keeps
        refine (isEntryPtr_internEnter interned fresh ptr).mpr ?_
        rcases DirectCache.keeps_store.mp keeps with ⟨new, -⟩ | ⟨-, old⟩
        · exact .inl new
        · exact .inr (interned.cached ptr old) }

theorem internAdd_spec (interned : Interned lit s strs) (fresh : Fresh s dup)
    (absent : str ∉ strs) (few : strs.length < 2 ^ 32) {idx : Nat} (inside : idx < s.map.length)
    (empty : s.map.getD idx 0 = 0)
    (met : OpenTable.Met s.map (startSlot s.map.length (hash64 str).toNat) idx) :
    ∃ s', internAdd s dup str (hash64 str) idx = some (s', strs.length) ∧
      Interned lit s' (strs ++ [str]) ∧ Extends s s' ∧
      ∀ ptr, ptr ≠ dup → s'.memory ptr = s.memory ptr := by
  have fits : s.count % 2 ^ 32 = strs.length := by
    rw [interned.count]
    exact Nat.mod_eq_of_lt few
  have positive : 0 < strs.length := (List.getElem?_eq_some_iff.mp interned.first).1
  have top : s.count = strs.length := interned.count
  have extends_ := @internEnter_extends lit dup s strs str interned fresh
  have last := internEnter_table s dup str (hash64 str) strs.length
  -- The pointer is put in the map of pointers.
  obtain ⟨ptrs, put, ptrSlots⟩ :=
    @internPtrMapPut_spec (internEnter s dup str (hash64 str) strs.length) (IsEntryPtr s)
      s.ptrMapLen dup interned.ptrs rfl fresh.some_ptr (interned.not_isEntryPtr fresh)
  -- The id is put where the walk for the string ended.
  have load := interned.idsLoad
  have kept : Slotted
      (fun id => ((internEnter s dup str (hash64 str) strs.length).table id).hash.toNat) s.map
      (IsEntryId s) (s.count - 1) := by
    refine interned.ids.congr (fun _ => Iff.rfl) ?_
    intro id key
    rw [extends_.table id key.2]
  have placed : Slotted
      (fun id => ((internEnter s dup str (hash64 str) strs.length).table id).hash.toNat)
      (s.map.set idx strs.length) (fun k => k = strs.length ∨ IsEntryId s k) (s.count - 1 + 1) := by
    refine kept.put inside empty ?_ (by omega) (by omega)
    rw [last]
    exact met
  rw [show s.count - 1 + 1 = s.count + 1 - 1 by omega] at placed
  have named : ∀ k, (k = strs.length ∨ IsEntryId s k) ↔
      IsEntryId (internEnter s dup str (hash64 str) strs.length) k := by
    intro k
    show _ ↔ k ≠ 0 ∧ k < s.count + 1
    simp only [IsEntryId]
    omega
  -- The map of hashes grows when it has to.
  obtain ⟨ids, grown, idSlots, idsLoad⟩ :=
    @internMapGrow_spec
      { internEnter s dup str (hash64 str) strs.length with
        ptrMap := ptrs, ptrMapLen := s.ptrMapLen + 1, map := s.map.set idx strs.length }
      (placed.congr named (fun _ _ => rfl))
      (show s.count + 1 ≤ 2 ^ 32 by omega)
      (show (s.count + 1) * 10 ≤ (s.map.set idx strs.length).length * 7 + 10 by
        rw [List.length_set]
        omega)
  refine ⟨_, ?_, interned.add fresh absent idSlots idsLoad
    (ptrSlots.congr (fun k => (isEntryPtr_internEnter interned fresh k).symm) (fun _ _ => rfl)), ?_⟩
  · have same : (internEnter s dup str (hash64 str) strs.length).map = s.map := rfl
    simp only [internAdd, fits, put, Option.bind_some, same, grown, Option.map_some]
  · exact ⟨⟨extends_.allocated, extends_.count, extends_.table, extends_.memory⟩,
      fun ptr other => Function.update_of_ne other _ _⟩

theorem internStr_new (interned : Interned lit s strs) (fresh : Fresh s dup) (absent : str ∉ strs)
    (few : strs.length < 2 ^ 32) :
    ∃ s', internStr lit s dup str = some (s', strs.length) ∧ Interned lit s' (strs ++ [str]) ∧
      Extends s s' ∧ ∀ ptr, ptr ≠ dup → s'.memory ptr = s.memory ptr := by
  have some_str : str ≠ [] := by
    rintro rfl
    exact absent (List.mem_of_getElem? interned.first)
  have nonempty : str.isEmpty = false := by
    cases str with
    | nil => exact absurd rfl some_str
    | cons _ _ => rfl
  rcases interned.seek some_str with ⟨found, -, at_found⟩ | ⟨idx, ends, -, inside, empty, met⟩
  · exact absurd (List.mem_of_getElem? at_found) absent
  · obtain ⟨s', added, rest⟩ := internAdd_spec interned fresh absent few inside empty met
    refine ⟨s', ?_, rest⟩
    unfold internStr
    simp only [nonempty, Bool.false_eq_true, if_false, internInit_again interned,
      Option.bind_some, ends, added]

theorem Interned.store (interned : Interned lit s strs) {ptr : Nat} (entry : IsEntryPtr s ptr) :
    Interned lit { s with ptrCache := DirectCache.store cacheSlot s.ptrCache ptr } strs :=
  { interned with
    cached := by
      intro other keeps
      rcases DirectCache.keeps_store.mp keeps with ⟨rfl, -⟩ | ⟨-, old⟩
      · exact entry
      · exact interned.cached other old }

theorem internContainsPtr_spec (interned : Interned lit s strs) (ptr : Nat) :
    ∃ s' found, internContainsPtr s ptr = some (s', found) ∧ (found = true ↔ IsEntryPtr s ptr) ∧
      Interned lit s' strs ∧ Extends s s' := by
  have wide := interned.ptrs.two_le_length
  have nonempty : s.ptrMap.isEmpty = false := by
    cases slots : s.ptrMap with
    | nil => simp [slots] at wide
    | cons _ _ => rfl
  unfold internContainsPtr
  by_cases null : ptr = 0
  · -- No entry has the null pointer.
    refine ⟨s, false, by rw [if_pos (.inl null)], ?_, interned, Extends.refl s⟩
    refine ⟨fun absent => absurd absent Bool.false_ne_true, ?_⟩
    rintro ⟨id, less, at_ptr⟩
    obtain ⟨str, at_id⟩ := interned.at_lt less
    exact absurd (at_ptr.trans null) (interned.entries at_id).2.2
  · rw [if_neg (by simp [null, interned.allocated])]
    cases hit : DirectCache.hit cacheSlot s.ptrCache ptr with
    | true =>
      have entry := interned.cached ptr ((DirectCache.hit_iff null).mp hit)
      exact ⟨s, true, rfl, ⟨fun _ => entry, fun _ => rfl⟩, interned, Extends.refl s⟩
    | false =>
      simp only [Bool.false_eq_true, if_false, nonempty, ptrMapSeek]
      -- The map of pointers decides.
      rcases interned.ptrs.seek (· == ptr) (internPtrHash ptr) with
        ⟨k, ends, key, equal⟩ | ⟨i, ends, missed, -⟩
      · obtain rfl : k = ptr := by simpa using equal
        rw [ends]
        exact ⟨_, true, rfl, ⟨fun _ => key, fun _ => rfl⟩, interned.store key,
          id, Nat.le_refl _, fun _ _ => rfl, fun _ _ => rfl⟩
      · rw [ends]
        refine ⟨s, false, rfl, ⟨fun absent => absurd absent Bool.false_ne_true, ?_⟩, interned, Extends.refl s⟩
        intro entry
        have differs := missed ptr entry rfl
        simp at differs

theorem isEntryPtr_iff_internGet (interned : Interned lit s strs) (ptr : Nat) :
    IsEntryPtr s ptr ↔ ∃ id, internGet lit s id = ptr := by
  have positive : 0 < s.count := by
    rw [interned.count]
    exact (List.getElem?_eq_some_iff.mp interned.first).1
  constructor
  · rintro ⟨id, less, at_ptr⟩
    exact ⟨id, by rw [internGet, if_neg (by omega), at_ptr]⟩
  · rintro ⟨id, rfl⟩
    unfold internGet
    split
    · -- Beyond the entries the answer is the literal, which the first entry has.
      exact ⟨0, positive, interned.literal⟩
    · next less => exact ⟨id, by omega, rfl⟩

end Steps

end Nytrix.Base
