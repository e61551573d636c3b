import Mathlib.Data.List.GetD
import Nytrix.Lib.Probing

/-! Tables of keys with open addressing: zero where a slot is free, and no key is ever taken out. -/

namespace Nytrix.Lib

/-- The key of each slot of a table, zero where the slot is free. -/
abbrev OpenTable := List Nat

/-- What the walk along the probe order ends at. -/
inductive Sought where
  | hit (key : Nat)
  | room (position : Nat)
  deriving DecidableEq

namespace OpenTable

/--
The walk along the probe order to a key that hits or to a free slot.

There is no result when neither is met within the given number of slots.
-/
def seek (hits : Nat → Bool) (next : Nat → Nat) (slots : OpenTable) : Nat → Nat → Option Sought
  | 0, _ => none
  | count + 1, i =>
    if slots.getD i 0 = 0 then some (.room i)
    else if hits (slots.getD i 0) then some (.hit (slots.getD i 0))
    else seek hits next slots count (next i)

/-- The key is in the table. -/
def Has (slots : OpenTable) (key : Nat) : Prop := key ≠ 0 ∧ key ∈ slots

/-- How many slots have a key. -/
def used (slots : OpenTable) : Nat := slots.countP (· ≠ 0)

/-- The position is met on the walk from the start, after slots that all have a key. -/
def Met (slots : OpenTable) (start position : Nat) : Prop :=
  ∃ steps < slots.length, around slots.length start steps = position ∧
    ∀ step < steps, slots.getD (around slots.length start step) 0 ≠ 0

/-- Every key is met on the walk from its own start. -/
def Ordered (start : Nat → Nat) (slots : OpenTable) : Prop :=
  ∀ i, slots.getD i 0 ≠ 0 → Met slots (start (slots.getD i 0)) i

section Seeking

variable {hits : Nat → Bool} {next start : Nat → Nat} {slots : OpenTable} {key first : Nat}

theorem Has.slot (has : Has slots key) : ∃ i < slots.length, slots.getD i 0 = key := by
  obtain ⟨-, member⟩ := has
  obtain ⟨i, inside, at_i⟩ := List.getElem_of_mem member
  refine ⟨i, inside, ?_⟩
  rw [List.getD_eq_getElem _ _ inside, at_i]

theorem has_of_slot {i : Nat} (taken : slots.getD i 0 ≠ 0) : Has slots (slots.getD i 0) := by
  refine ⟨taken, ?_⟩
  rcases Nat.lt_or_ge i slots.length with inside | outside
  · rw [List.getD_eq_getElem _ _ inside]
    exact List.getElem_mem inside
  · exact absurd (List.getD_eq_default _ _ outside) taken

theorem seek_hit {count i : Nat} (ends : seek hits next slots count i = some (.hit key)) :
    Has slots key ∧ hits key = true := by
  induction count generalizing i with
  | zero => cases ends
  | succ count ih =>
    unfold seek at ends
    split at ends
    · cases ends
    · next taken =>
      split at ends
      · next hit =>
        obtain rfl : slots.getD i 0 = key := by simpa using ends
        exact ⟨has_of_slot taken, hit⟩
      · exact ih ends

theorem seek_from (order : ∀ i < slots.length, next i = (i + 1) % slots.length) :
    ∀ (count seen : Nat), seen + count = slots.length →
      (∀ step < seen, slots.getD (around slots.length first step) 0 ≠ 0 ∧
        hits (slots.getD (around slots.length first step) 0) = false) →
      match seek hits next slots count (around slots.length first seen) with
      | none => ∀ step < slots.length, slots.getD (around slots.length first step) 0 ≠ 0 ∧
          hits (slots.getD (around slots.length first step) 0) = false
      | some (.hit _) => True
      | some (.room i) => i < slots.length ∧ slots.getD i 0 = 0 ∧
          ∃ steps < slots.length, around slots.length first steps = i ∧ ∀ step < steps,
            slots.getD (around slots.length first step) 0 ≠ 0 ∧
              hits (slots.getD (around slots.length first step) 0) = false := by
  intro count
  -- The induction is on the slots left, and all the slots seen were passed.
  induction count with
  | zero =>
    intro seen all passed
    obtain rfl : seen = slots.length := by omega
    exact passed
  | succ count ih =>
    intro seen all passed
    have inside : around slots.length first seen < slots.length := Nat.mod_lt _ (by omega)
    by_cases free : slots.getD (around slots.length first seen) 0 = 0
    · -- A free slot ends the walk.
      simp only [seek, if_pos free]
      exact ⟨inside, free, seen, by omega, rfl, passed⟩
    · cases hit : hits (slots.getD (around slots.length first seen) 0) with
      | true => simp only [seek, if_neg free, hit, if_true]
      | false =>
        -- The slot is passed, and the walk goes on at the next one.
        have onward : next (around slots.length first seen) =
            around slots.length first (seen + 1) := by
          rw [order _ inside]
          simp only [around]
          rw [Nat.mod_add_mod, Nat.add_assoc]
        simp only [seek, if_neg free, hit, Bool.false_eq_true, if_false, onward]
        refine ih (seen + 1) (by omega) ?_
        intro step less
        rcases Nat.lt_succ_iff_lt_or_eq.mp less with before | rfl
        · exact passed step before
        · exact ⟨free, hit⟩

theorem seek_room (order : ∀ i < slots.length, next i = (i + 1) % slots.length)
    (inside : first < slots.length) {i : Nat}
    (ends : seek hits next slots slots.length first = some (.room i)) :
    i < slots.length ∧ slots.getD i 0 = 0 ∧
      ∃ steps < slots.length, around slots.length first steps = i ∧ ∀ step < steps,
        slots.getD (around slots.length first step) 0 ≠ 0 ∧
          hits (slots.getD (around slots.length first step) 0) = false := by
  have begins : around slots.length first 0 = first := Nat.mod_eq_of_lt inside
  have known := @seek_from hits next slots first order slots.length 0 (Nat.zero_add _)
    (fun step less => absurd less (Nat.not_lt_zero step))
  rw [begins, ends] at known
  exact known

theorem met_of_seek_room (order : ∀ i < slots.length, next i = (i + 1) % slots.length)
    (inside : first < slots.length) {i : Nat}
    (ends : seek hits next slots slots.length first = some (.room i)) : Met slots first i := by
  obtain ⟨-, -, steps, within, at_i, passed⟩ := seek_room order inside ends
  exact ⟨steps, within, at_i, fun step less => (passed step less).1⟩

theorem seek_room_absent (order : ∀ i < slots.length, next i = (i + 1) % slots.length)
    (inside : first < slots.length) (ordered : Ordered start slots) {i : Nat}
    (ends : seek hits next slots slots.length first = some (.room i)) (has : Has slots key)
    (same : start key = first) : hits key = false := by
  obtain ⟨-, free, steps, within, at_i, passed⟩ := seek_room order inside ends
  obtain ⟨j, -, at_j⟩ := has.slot
  obtain ⟨before, -, at_before, taken⟩ := ordered j (by rw [at_j]; exact has.1)
  rw [at_j, same] at at_before taken
  -- The key comes before the free slot, since its own walk has no free slot.
  rcases Nat.lt_trichotomy before steps with less | rfl | more
  · have missed := (passed before less).2
    rwa [at_before, at_j] at missed
  · obtain rfl : j = i := at_before.symm.trans at_i
    exact absurd (at_j.symm.trans free) has.1
  · exact absurd (at_i ▸ free) (taken steps more)

theorem seek_isSome (order : ∀ i < slots.length, next i = (i + 1) % slots.length)
    (inside : first < slots.length) (free : used slots < slots.length) :
    (seek hits next slots slots.length first).isSome = true := by
  have begins : around slots.length first 0 = first := Nat.mod_eq_of_lt inside
  have known := @seek_from hits next slots first order slots.length 0 (Nat.zero_add _)
    (fun step less => absurd less (Nat.not_lt_zero step))
  rw [begins] at known
  cases ends : seek hits next slots slots.length first with
  | some _ => rfl
  | none =>
    rw [ends] at known
    -- No slot would be free, since one turn around the table meets each of them.
    have full : used slots = slots.length := by
      refine List.countP_eq_length.mpr fun slot member => ?_
      obtain ⟨i, at_most, rfl⟩ := List.getElem_of_mem member
      obtain ⟨step, less, at_step⟩ := exists_around first at_most
      have taken := (known step less).1
      rw [at_step, List.getD_eq_getElem _ _ at_most] at taken
      simpa using taken
    omega

end Seeking

section Putting

variable {start : Nat → Nat} {slots : OpenTable} {key k i : Nat}

theorem getD_set (inside : i < slots.length) (j : Nat) :
    (slots.set i key).getD j 0 = if i = j then key else slots.getD j 0 := by
  simp only [List.getD_eq_getElem?_getD, List.getElem?_set]
  split
  · next same =>
    subst same
    simp
  · rfl

theorem Ordered.put (ordered : Ordered start slots) (inside : i < slots.length)
    (some_key : key ≠ 0) (met : Met slots (start key) i) : Ordered start (slots.set i key) := by
  -- A walk over keys is one over keys afterwards.
  have kept {from_ j : Nat} (before : Met slots from_ j) : Met (slots.set i key) from_ j := by
    obtain ⟨steps, within, at_j, taken⟩ := before
    refine ⟨steps, by rwa [List.length_set], by rwa [List.length_set], ?_⟩
    intro step less
    rw [List.length_set, getD_set inside]
    split
    · exact some_key
    · exact taken step less
  intro j taken
  rw [getD_set inside] at taken ⊢
  split
  · next same => exact same ▸ kept met
  · next other =>
    rw [if_neg other] at taken
    exact kept (ordered j taken)

theorem has_put (inside : i < slots.length) (free : slots.getD i 0 = 0) (some_key : key ≠ 0) :
    Has (slots.set i key) k ↔ k = key ∨ Has slots k := by
  constructor
  · intro has
    obtain ⟨j, -, at_j⟩ := has.slot
    rw [getD_set inside] at at_j
    split at at_j
    · exact .inl at_j.symm
    · refine .inr ?_
      rw [← at_j]
      exact has_of_slot (at_j ▸ has.1)
  · rintro (rfl | has)
    · exact ⟨some_key, List.mem_of_getElem? (List.getElem?_set_self inside)⟩
    · obtain ⟨j, -, at_j⟩ := has.slot
      -- The slot of a key is not the free one.
      have other : i ≠ j := by
        rintro rfl
        exact has.1 (at_j.symm.trans free)
      have found : (slots.set i key).getD j 0 = k := by rw [getD_set inside, if_neg other, at_j]
      rw [← found]
      exact has_of_slot (found ▸ has.1)

theorem used_put (inside : i < slots.length) (free : slots.getD i 0 = 0) (some_key : key ≠ 0) :
    used (slots.set i key) = used slots + 1 := by
  have empty : slots[i] = 0 := by rwa [List.getD_eq_getElem _ _ inside] at free
  have counted := List.countP_set (p := fun n => decide (n ≠ 0)) (a := key) inside
  simp only [empty, ne_eq, not_true_eq_false, decide_false, Bool.false_eq_true, if_false,
    some_key, not_false_eq_true, decide_true, if_true, Nat.sub_zero] at counted
  exact counted

/-- The free table. -/
def fresh (size : Nat) : OpenTable := List.replicate size 0

@[simp] theorem getD_fresh (size j : Nat) : (fresh size).getD j 0 = 0 := by
  simp only [fresh, List.getD_eq_getElem?_getD, List.getElem?_replicate]
  split <;> rfl

@[simp] theorem length_fresh (size : Nat) : (fresh size).length = size := List.length_replicate

theorem ordered_fresh (size : Nat) : Ordered start (fresh size) := by
  intro i taken
  exact absurd (getD_fresh size i) taken

theorem not_has_fresh (size : Nat) : ¬ Has (fresh size) k := by
  rintro ⟨some_key, member⟩
  exact some_key (List.eq_of_mem_replicate member)

@[simp] theorem used_fresh (size : Nat) : used (fresh size) = 0 := by
  simp [used, fresh, List.countP_replicate]

end Putting

section Rebuilding

variable {start next : Nat → Nat} {slots : OpenTable} {k : Nat}

/-- Puts a key at the first free slot of the walk from its start. -/
def place (next : Nat → Nat) (slots : OpenTable) (item : Nat × Nat) : Option OpenTable :=
  match seek (fun _ => false) next slots slots.length item.1 with
  | some (.room i) => some (slots.set i item.2)
  | _ => none

/-- Puts keys in, one by one, each with its start. -/
def placeAll (next : Nat → Nat) (slots : OpenTable) (items : List (Nat × Nat)) :
    Option OpenTable :=
  items.foldlM (place next) slots

theorem place_spec (order : ∀ i < slots.length, next i = (i + 1) % slots.length)
    (starts : ∀ key, start key < slots.length) (ordered : Ordered start slots)
    (free : used slots < slots.length) {key : Nat} (some_key : key ≠ 0) :
    ∃ placed, place next slots (start key, key) = some placed ∧ placed.length = slots.length ∧
      Ordered start placed ∧ used placed = used slots + 1 ∧
      ∀ k, Has placed k ↔ k = key ∨ Has slots k := by
  obtain ⟨sought, ends⟩ := Option.isSome_iff_exists.mp
    (@seek_isSome (fun _ => false) next slots (start key) order (starts key) free)
  cases sought with
  | hit k => cases (seek_hit ends).2
  | room i =>
    obtain ⟨inside, empty, -⟩ := seek_room order (starts key) ends
    refine ⟨slots.set i key, by simp only [place, ends], List.length_set, ?_, ?_, ?_⟩
    · exact ordered.put inside some_key (met_of_seek_room order (starts key) ends)
    · exact used_put inside empty some_key
    · exact fun k => has_put inside empty some_key

theorem placeAll_spec (items : List (Nat × Nat))
    (begins : ∀ item ∈ items, item.1 = start item.2 ∧ item.2 ≠ 0) :
    ∀ {slots : OpenTable}, (∀ i < slots.length, next i = (i + 1) % slots.length) →
      (∀ key, start key < slots.length) → Ordered start slots →
      used slots + items.length ≤ slots.length →
      ∃ placed, placeAll next slots items = some placed ∧ placed.length = slots.length ∧
        Ordered start placed ∧ used placed = used slots + items.length ∧
        ∀ k, Has placed k ↔ (∃ item ∈ items, item.2 = k) ∨ Has slots k := by
  -- The induction is on the keys, each of which takes one free slot.
  induction items with
  | nil =>
    intro slots _ _ ordered _
    exact ⟨slots, rfl, rfl, ordered, rfl, fun k => by simp⟩
  | cons item items ih =>
    intro slots order starts ordered free
    rw [List.length_cons] at free
    obtain ⟨at_start, some_key⟩ := begins item List.mem_cons_self
    obtain ⟨one, placed_one, size, ordered_one, used_one, has_one⟩ :=
      place_spec order starts ordered (by omega) some_key
    obtain ⟨all, placed_all, size_all, ordered_all, used_all, has_all⟩ :=
      ih (fun k member => begins k (List.mem_cons_of_mem item member))
        (show ∀ i < one.length, next i = (i + 1) % one.length by rwa [size])
        (by rwa [size]) ordered_one (by omega)
    refine ⟨all, ?_, size_all.trans size, ordered_all, ?_, ?_⟩
    · show (place next slots item >>= fun s => items.foldlM (place next) s) = some all
      rw [← at_start] at placed_one
      rw [placed_one]
      exact placed_all
    · rw [used_all, used_one, List.length_cons]
      omega
    · intro k
      rw [has_all k, has_one k, List.exists_mem_cons_iff, eq_comm (a := k), or_assoc,
        or_left_comm]

end Rebuilding

end OpenTable

end Nytrix.Lib
