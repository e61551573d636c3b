import Mathlib.Data.Set.Card
import Nytrix.Lib.Walking
import Nytrix.Rt.Dict

/-! Sets of the language's own library: a table of keys, and the set of values that it is. -/

namespace Nytrix.Rt

open Nytrix.Lib

/-- A key of a set: a small integer, or a string by its bytes. -/
inductive SetKey where
  | int (value : BitVec 63)
  | str (bytes : List (BitVec 8))
  deriving DecidableEq

/-- Whether a key is a string. -/
def SetKey.isStr : SetKey → Bool
  | .int _ => false
  | .str _ => true

/-- The hash of a key, a negative one as the word that a shift to the right takes it for. -/
def setHash : SetKey → BitVec 64
  | .int value => value.signExtend 64
  | .str bytes => strHash bytes

/-- A slot of a set: empty, a key, or the trace of one that was removed. -/
abbrev SetSlot := Slot Unit SetKey Unit

/-- A set: the number of keys it keeps, and its slots. -/
structure SetObj where
  count : Int
  slots : List SetSlot
  deriving DecidableEq

/-- The number of slots. -/
def SetObj.cap (s : SetObj) : Nat := s.slots.length

/-- A new set with at least so many slots; there is none beyond the largest size. -/
def setNew (cap : Int) : Option SetObj := do
  let cap ← pow2 (if cap < 8 then 8 else cap)
  if cap ≤ maxCap then some ⟨0, List.replicate cap (.free ())⟩ else none

/-- Where a probe is, and what is left of the hash to perturb the next step. -/
structure Cursor where
  idx : Nat
  perturb : Nat
  deriving DecidableEq

/-- Where the probe for a key begins. -/
def firstCursor (cap : Nat) (key : SetKey) : Cursor :=
  { idx := (setHash key).toNat &&& (cap - 1), perturb := (setHash key).toNat }

/-- Where the probe goes on. -/
def Cursor.next (cap : Nat) (c : Cursor) : Cursor :=
  { idx := (c.idx * 5 + 1 + (c.perturb >>> 5)) &&& (cap - 1), perturb := c.perturb >>> 5 }

/-- Whether a probe for a key ends at a slot. -/
def endsProbe (key : SetKey) : SetSlot → Bool
  | .free _ => true
  | .live k _ => k = key
  | .removed => false

/-- The slot where a probe for a key ends, empty or with the key, if it does. -/
def setProbe (s : SetObj) (key : SetKey) : Option Nat :=
  walk (endsProbe key) s.slots (Cursor.next s.cap) Cursor.idx s.cap (firstCursor s.cap key)

/-- The first slot that has a key. -/
def setFindExistingOff (s : SetObj) (key : SetKey) : Option Nat :=
  s.slots.findIdx? fun slot => slot.isLive && endsProbe key slot

/-- Gives up the key at a slot. -/
def setTombstoneAt (s : SetObj) (off : Nat) : SetObj :=
  { count := s.count - 1, slots := s.slots.set off .removed }

/-- Whether a slot has a key. -/
def SetObj.isLive (s : SetObj) (off : Nat) : Bool :=
  match s.slots[off]? with
  | some slot => slot.isLive
  | none => false

/-- Puts a key in the first empty slot of its probe, and leaves the set when there is none. -/
def setInsert (s : SetObj) (key : SetKey) : SetObj :=
  if key.isStr && (setFindExistingOff s key).isSome then s
  else
    match setProbe s key with
    | none => s
    | some off =>
      if s.isLive off then s
      else { count := s.count + 1, slots := s.slots.set off (.live key ()) }

/-- The keys of a set in the order of its slots. -/
def SetObj.keys (s : SetObj) : List SetKey := (entries s.slots).map Prod.fst

/-- A new set with so many slots and the keys of another. -/
def setResize (s : SetObj) (newcap : Int) : Option SetObj := do
  let ns ← setNew newcap
  return s.keys.foldl setInsert ns

/-- Whether a set has a key. -/
def setHasExisting (s : SetObj) (key : SetKey) : Bool :=
  if key.isStr then (setFindExistingOff s key).isSome
  else
    match setProbe s key with
    | none => false
    | some off => s.isLive off

/-- Adds a key. -/
def setAdd (s : SetObj) (key : SetKey) : Option SetObj :=
  if setHasExisting s key then some s
  else if (s.cap * 7 : Int) ≤ s.count * 10 then do
    let ns ← setResize s (s.cap * 2 : Nat)
    return setInsert ns key
  else some (setInsert s key)

/-- Removes a key. -/
def setRemove (s : SetObj) (key : SetKey) : SetObj :=
  if key.isStr then
    match setFindExistingOff s key with
    | some off => setTombstoneAt s off
    | none => s
  else
    match setProbe s key with
    | none => s
    | some off => if s.isLive off then setTombstoneAt s off else s

/-- Whether a set contains a key. -/
def setContains (s : SetObj) (key : SetKey) : Bool := setHasExisting s key

/-- The number of keys. -/
def setLen (s : SetObj) : Int := s.count

/-- The keys, in a list with room for the number of keys kept; it must not run over. -/
def setValues (s : SetObj) : Option (List SetKey) :=
  if (s.keys.length : Int) ≤ s.count then some s.keys else none

/-- The slot that the probe for a key looks at after a number of steps. -/
def probeSlot (cap : Nat) (key : SetKey) (n : Nat) : Nat :=
  ((Cursor.next cap)^[n] (firstCursor cap key)).idx

/-- A set in order: its keys are counted, all different, and each on its own probe. -/
structure SetOk (s : SetObj) : Prop where
  power : ∃ k, s.cap = 2 ^ k ∧ 3 ≤ k
  counted : s.count = s.slots.countP Slot.isLive
  good : Walkable (Cursor.next s.cap) Cursor.idx (firstCursor s.cap) s.slots

/-- The set has the key in some slot. -/
def Member (s : SetObj) (key : SetKey) : Prop := ∃ i : Nat, s.slots[i]? = some (.live key ())

theorem SetOk.cap_pos {s : SetObj} (ok : SetOk s) : 0 < s.cap := by
  obtain ⟨k, power, -⟩ := ok.power
  rw [power]
  exact Nat.two_pow_pos k

theorem probeSlot_lt {cap : Nat} (pos : 0 < cap) (key : SetKey) (n : Nat) :
    probeSlot cap key n < cap := by
  have masked (x : Nat) : x &&& (cap - 1) < cap :=
    Nat.lt_of_le_of_lt Nat.and_le_right (by omega)
  cases n with
  | zero => exact masked _
  | succ n =>
    rw [probeSlot, Function.iterate_succ_apply']
    exact masked _

theorem endsProbe_iff {key : SetKey} {slot : SetSlot} :
    endsProbe key slot = true ↔ slot = .free () ∨ slot = .live key () := by
  cases slot with
  | free mark => simp [endsProbe]
  | live k v => simp [endsProbe]
  | removed => simp [endsProbe]

theorem isLive_eq {s : SetObj} {off : Nat} {slot : SetSlot} (found : s.slots[off]? = some slot) :
    s.isLive off = slot.isLive := by
  rw [SetObj.isLive, found]

theorem setFindExistingOff_spec (s : SetObj) (key : SetKey) :
    (∃ off, setFindExistingOff s key = some off ∧ s.slots[off]? = some (.live key ())) ∨
      (setFindExistingOff s key = none ∧ ¬ Member s key) := by
  have matches_iff (slot : SetSlot) :
      (slot.isLive && endsProbe key slot) = true ↔ slot = .live key () := by
    rw [Bool.and_eq_true, endsProbe_iff]
    constructor
    · rintro ⟨live, rfl | rfl⟩
      · cases live
      · rfl
    · rintro rfl
      exact ⟨rfl, .inr rfl⟩
  unfold setFindExistingOff
  cases found : s.slots.findIdx? fun slot => slot.isLive && endsProbe key slot with
  | some off =>
    obtain ⟨inside, fits, -⟩ := List.findIdx?_eq_some_iff_getElem.mp found
    refine .inl ⟨off, rfl, ?_⟩
    rw [List.getElem?_eq_getElem inside, (matches_iff _).mp fits]
  | none =>
    refine .inr ⟨rfl, ?_⟩
    rintro ⟨i, at_i⟩
    have none := List.findIdx?_eq_none_iff.mp found _ (List.mem_of_getElem? at_i)
    rw [(matches_iff _).mpr rfl] at none
    cases none

theorem setProbe_some {s : SetObj} {key : SetKey} {off : Nat} (ended : setProbe s key = some off) :
    ∃ n < s.cap, probeSlot s.cap key n = off ∧
      (s.slots[off]? = some (.free ()) ∨ s.slots[off]? = some (.live key ())) ∧
      ∀ l < n, ∀ mark, s.slots[probeSlot s.cap key l]? ≠ some (.free mark) := by
  obtain ⟨n, less, at_off, ⟨slot, found, stopping⟩, before⟩ := walk_eq_some ended
  refine ⟨n, less, at_off, ?_, ?_⟩
  · rcases endsProbe_iff.mp stopping with rfl | rfl
    · exact .inl found
    · exact .inr found
  · intro l early mark free
    obtain ⟨slot, there, going⟩ := before l early
    cases Option.some.inj (free.symm.trans there)
    cases going

theorem exists_setProbe {s : SetObj} {key : SetKey} {n : Nat} (pos : 0 < s.cap) (less : n < s.cap)
    (met : s.slots[probeSlot s.cap key n]? = some (.free ()) ∨
      s.slots[probeSlot s.cap key n]? = some (.live key ())) :
    ∃ off, setProbe s key = some off ∧ ∃ m ≤ n, probeSlot s.cap key m = off := by
  refine exists_walk less (fun l _ => probeSlot_lt pos key l) ?_
  rcases met with found | found
  · exact ⟨_, found, endsProbe_iff.mpr (.inl rfl)⟩
  · exact ⟨_, found, endsProbe_iff.mpr (.inr rfl)⟩

theorem SetOk.setProbe_live {s : SetObj} (ok : SetOk s) {key : SetKey} {i : Nat}
    (found : s.slots[i]? = some (.live key ())) : setProbe s key = some i := by
  obtain ⟨n, less, at_i, before⟩ := ok.good.there found
  obtain ⟨off, ended, m, early, at_off⟩ := exists_setProbe ok.cap_pos less
    (.inr (by rw [probeSlot, at_i]; exact found))
  obtain ⟨l, -, at_off', stopped, first⟩ := setProbe_some ended
  rw [ended]
  rcases stopped with free | live
  · -- No slot before the key is free, and the one with the key is not.
    rcases Nat.lt_or_eq_of_le early with sooner | rfl
    · exact absurd (by rw [← at_off] at free; exact free) (before m sooner ())
    · rw [← at_off, probeSlot, at_i, found] at free
      cases free
  · rw [ok.good.unique live found]

theorem SetOk.has_iff {s : SetObj} (ok : SetOk s) (key : SetKey) :
    setHasExisting s key = true ↔ Member s key := by
  unfold setHasExisting
  split
  · rcases setFindExistingOff_spec s key with ⟨off, found, live⟩ | ⟨none, absent⟩
    · simp only [found, Option.isSome_some, true_iff]
      exact ⟨off, live⟩
    · simp [none, absent]
  · split
    · next none =>
      constructor
      · intro no
        cases no
      · rintro ⟨i, found⟩
        rw [ok.setProbe_live found] at none
        cases none
    · next off ended =>
      obtain ⟨n, -, -, stopped, -⟩ := setProbe_some ended
      constructor
      · intro live
        rcases stopped with free | found
        · rw [isLive_eq free] at live
          cases live
        · exact ⟨off, found⟩
      · rintro ⟨i, found⟩
        rw [ok.setProbe_live found] at ended
        cases ended
        rw [isLive_eq found]
        rfl

/-- The position is the first free one on the probe for a key. -/
def FirstFree (slots : List SetSlot) (key : SetKey) (i : Nat) : Prop :=
  ∃ n < slots.length, probeSlot slots.length key n = i ∧ slots[i]? = some (.free ()) ∧
    ∀ l < n, slots[probeSlot slots.length key l]? ≠ some (.free ())

/-- Keys that are put in one after the other each meet a free slot on their probe. -/
inductive Fits : List SetSlot → List SetKey → Prop
  | nil {slots : List SetSlot} : Fits slots []
  | cons {slots : List SetSlot} {key : SetKey} {rest : List SetKey} {i : Nat}
    (first : FirstFree slots key i) (others : Fits (slots.set i (.live key ())) rest) :
    Fits slots (key :: rest)

/-- The set with a key put in a slot. -/
def SetObj.put (s : SetObj) (i : Nat) (key : SetKey) : SetObj :=
  { count := s.count + 1, slots := s.slots.set i (.live key ()) }

theorem SetOk.setInsert_eq {s : SetObj} (ok : SetOk s) {key : SetKey} {i : Nat}
    (absent : ¬ Member s key) (first : FirstFree s.slots key i) :
    setInsert s key = s.put i key := by
  obtain ⟨n, less, at_i, free, before⟩ := first
  obtain ⟨off, ended, m, early, at_off⟩ := exists_setProbe ok.cap_pos less
    (.inl (by rw [← at_i] at free; exact free))
  obtain ⟨l, -, at_off', stopped, earlier⟩ := setProbe_some ended
  have here : off = i := by
    rcases stopped with empty | live
    · rcases Nat.lt_or_eq_of_le early with sooner | rfl
      · rw [← at_off] at empty
        exact absurd empty (before m sooner)
      · rw [← at_off, ← at_i]
        rfl
    · exact absurd ⟨off, live⟩ absent
  subst here
  have notFound : (setFindExistingOff s key).isSome = false := by
    rcases setFindExistingOff_spec s key with ⟨j, -, live⟩ | ⟨none, -⟩
    · exact absurd ⟨j, live⟩ absent
    · rw [none]
      rfl
  rw [setInsert, notFound, Bool.and_false, if_neg (by simp), ended]
  dsimp only
  rw [isLive_eq free]
  rfl

theorem SetOk.put {s : SetObj} (ok : SetOk s) {key : SetKey} {i : Nat} (absent : ¬ Member s key)
    (first : FirstFree s.slots key i) : SetOk (s.put i key) where
  power := by
    obtain ⟨k, power, large⟩ := ok.power
    exact ⟨k, by rw [← power]; exact List.length_set, large⟩
  counted := by
    obtain ⟨n, less, at_i, free, before⟩ := first
    obtain ⟨inside, at_slot⟩ := List.getElem?_eq_some_iff.mp free
    have grown := List.countP_set (p := Slot.isLive) (a := (.live key () : SetSlot)) inside
    rw [at_slot] at grown
    simp only [SetObj.put]
    rw [grown, ok.counted]
    simp [Slot.isLive]
  good := by
    have same : (s.put i key).cap = s.cap := List.length_set
    rw [same]
    obtain ⟨n, less, at_i, free, before⟩ := first
    refine ok.good.insert ?_ ⟨n, less, at_i, ?_⟩
    · intro j v live
      exact absent ⟨j, live⟩
    · intro l early mark
      exact before l early

theorem member_put {s : SetObj} {key : SetKey} {i : Nat} (first : FirstFree s.slots key i)
    (other : SetKey) : Member (s.put i key) other ↔ other = key ∨ Member s other := by
  obtain ⟨n, less, at_i, free, before⟩ := first
  have inside := (List.getElem?_eq_some_iff.mp free).1
  constructor
  · rintro ⟨j, found⟩
    rcases getElem?_set_cases found with ⟨-, new⟩ | ⟨-, old⟩
    · cases new
      exact .inl rfl
    · exact .inr ⟨j, old⟩
  · rintro (rfl | ⟨j, found⟩)
    · exact ⟨i, List.getElem?_set_self inside⟩
    · refine ⟨j, ?_⟩
      rw [SetObj.put, List.getElem?_set_ne ?_]
      · exact found
      · rintro rfl
        rw [free] at found
        cases found

theorem SetOk.foldl_setInsert {keys : List SetKey} {s : SetObj} (ok : SetOk s)
    (fits : Fits s.slots keys) (distinct : keys.Nodup) (absent : ∀ k ∈ keys, ¬ Member s k) :
    SetOk (keys.foldl setInsert s) ∧
      ∀ other, Member (keys.foldl setInsert s) other ↔ other ∈ keys ∨ Member s other := by
  induction keys generalizing s with
  | nil => exact ⟨ok, by simp⟩
  | cons key rest ih =>
    cases fits with
    | cons first others =>
      obtain ⟨fresh, distinct⟩ := List.nodup_cons.mp distinct
      have away := absent key List.mem_cons_self
      rw [List.foldl_cons, ok.setInsert_eq away first]
      obtain ⟨after, members⟩ := ih (ok.put away first) others distinct (by
        intro k member inside
        rcases (member_put first k).mp inside with rfl | before
        · exact fresh member
        · exact absent k (List.mem_cons_of_mem _ member) before)
      refine ⟨after, ?_⟩
      intro other
      rw [members other, member_put first other, List.mem_cons]
      tauto

theorem mem_keys {s : SetObj} {key : SetKey} : key ∈ s.keys ↔ Member s key := by
  simp only [SetObj.keys, List.mem_map]
  constructor
  · rintro ⟨e, member, rfl⟩
    obtain ⟨i, found⟩ := List.mem_iff_getElem?.mp (mem_entries.mp member)
    exact ⟨i, found⟩
  · rintro ⟨i, found⟩
    exact ⟨(key, ()), mem_entries.mpr (List.mem_of_getElem? found), rfl⟩

theorem SetOk.keys_nodup {s : SetObj} (ok : SetOk s) : s.keys.Nodup := by
  rw [SetObj.keys, List.Nodup, List.pairwise_map, entries, List.pairwise_filterMap,
    List.pairwise_iff_getElem]
  intro i j insideI insideJ less a foundA b foundB same
  have live {n : Nat} (inside : n < s.slots.length) {e : SetKey × Unit}
      (found : s.slots[n].entry = some e) : s.slots[n]? = some (.live e.1 ()) := by
    rw [List.getElem?_eq_getElem inside]
    cases at_n : s.slots[n] <;> rw [at_n] at found <;>
      simp only [Slot.entry, reduceCtorEq, Option.some.injEq] at found
    rw [← found]
  have second := live insideJ foundB
  rw [← same] at second
  have := ok.good.unique (live insideI foundA) second
  omega

theorem SetOk.keys_length {s : SetObj} (ok : SetOk s) : (s.keys.length : Int) = s.count := by
  rw [SetObj.keys, List.length_map, length_entries, ok.counted]

theorem pow2Loop_eq_some {n : Int} {fuel k v : Nat} (done : pow2Loop fuel (2 ^ k) n = some v) :
    ∃ j, k ≤ j ∧ v = 2 ^ j ∧ n ≤ v ∧ ∀ i, k ≤ i → i < j → ((2 ^ i : Nat) : Int) < n := by
  induction fuel generalizing k with
  | zero => cases done
  | succ fuel ih =>
    unfold pow2Loop at done
    split at done
    · next less =>
      rw [Nat.mul_comm, ← Nat.pow_succ] at done
      obtain ⟨j, later, rfl, enough, smaller⟩ := ih done
      refine ⟨j, by omega, rfl, enough, ?_⟩
      intro i low high
      rcases Nat.eq_or_lt_of_le low with rfl | above
      · exact less
      · exact smaller i above high
    · next enough =>
      cases done
      exact ⟨k, Nat.le_refl k, rfl, by omega, by omega⟩

theorem setNew_eq_some {cap : Int} {s : SetObj} (made : setNew cap = some s) :
    ∃ k, 3 ≤ k ∧ s = ⟨0, List.replicate (2 ^ k) (.free ())⟩ ∧
      ∀ j, 3 ≤ j → cap = ((2 ^ j : Nat) : Int) → k = j := by
  simp only [setNew, bind, Option.bind_eq_some_iff] at made
  obtain ⟨v, rounded, made⟩ := made
  split at made
  · cases made
    obtain ⟨k, -, rfl, enough, smaller⟩ := pow2Loop_eq_some (k := 0) rounded
    have eight : (8 : Int) ≤ if cap < 8 then 8 else cap := by
      split <;> omega
    refine ⟨k, ?_, rfl, ?_⟩
    · -- Fewer than eight slots are never made.
      by_contra few
      have bound : 2 ^ k ≤ 2 ^ 2 := Nat.pow_le_pow_right (by decide) (by omega)
      omega
    · rintro j large rfl
      have atLeast : 2 ^ 3 ≤ 2 ^ j := Nat.pow_le_pow_right (by decide) large
      rw [if_neg (by omega)] at enough smaller
      rcases Nat.lt_trichotomy k j with low | same | high
      · have := Nat.pow_lt_pow_right (a := 2) (by decide) low
        omega
      · exact same
      · exact absurd (smaller j (Nat.zero_le j) high) (by omega)
  · cases made

theorem setOk_free {k : Nat} (large : 3 ≤ k) :
    SetOk ⟨0, List.replicate (2 ^ k) (.free ())⟩ ∧
      ∀ key, ¬ Member ⟨0, List.replicate (2 ^ k) (.free ())⟩ key := by
  have free : ∀ slot ∈ List.replicate (2 ^ k) (.free () : SetSlot), slot.isLive = false := by
    intro slot member
    rw [List.eq_of_mem_replicate member]
    rfl
  refine ⟨⟨⟨k, List.length_replicate, large⟩, ?_, Walkable.of_free free⟩, ?_⟩
  · rw [List.countP_eq_zero.mpr fun slot member => by rw [free slot member]; simp]
    rfl
  · rintro key ⟨i, found⟩
    cases free _ (List.mem_of_getElem? found)

/--
The step that adds a key finds room.

A key that is not there meets a free slot on its probe, in the set as it is or, when it is to grow,
in one with twice the slots in which all keys were put one after the other, each meeting a free one.
-/
def AddFits (s : SetObj) (key : SetKey) : Prop :=
  Member s key ∨ (s.count * 10 < s.cap * 7 ∧ Fits s.slots [key]) ∨
    ((s.cap * 7 : Int) ≤ s.count * 10 ∧
      Fits (List.replicate (s.cap * 2) (.free ())) (s.keys ++ [key]))

theorem SetOk.add {s t : SetObj} (ok : SetOk s) {key : SetKey} (fits : AddFits s key)
    (added : setAdd s key = some t) :
    SetOk t ∧ ∀ other, Member t other ↔ other = key ∨ Member s other := by
  by_cases there : Member s key
  · -- The set stays as it is.
    rw [setAdd, if_pos ((ok.has_iff key).mpr there)] at added
    cases added
    refine ⟨ok, ?_⟩
    intro other
    constructor
    · exact .inr
    · rintro (rfl | member)
      · exact there
      · exact member
  · rw [setAdd, if_neg (fun has => there ((ok.has_iff key).mp has))] at added
    rcases fits with there' | ⟨few, fits⟩ | ⟨many, fits⟩
    · exact absurd there' there
    · rw [if_neg (by omega)] at added
      cases added
      have one := ok.foldl_setInsert fits (List.nodup_singleton key) (by simpa using there)
      simpa using one
    · rw [if_pos many] at added
      simp only [setResize, bind, Option.bind_eq_some_iff, pure, Option.some.injEq] at added
      obtain ⟨ns, ⟨new, made, rfl⟩, rfl⟩ := added
      -- The new table has exactly twice the slots, which are a power of two again.
      obtain ⟨k, power, large⟩ := ok.power
      obtain ⟨k', -, rfl, exact_⟩ := setNew_eq_some made
      have double : ((s.cap * 2 : Nat) : Int) = ((2 ^ (k + 1) : Nat) : Int) := by
        rw [power, Nat.pow_succ]
      rw [exact_ (k + 1) (by omega) double]
      rw [power, ← Nat.pow_succ] at fits
      obtain ⟨empty, none⟩ := setOk_free (k := k + 1) (by omega)
      have distinct : (s.keys ++ [key]).Nodup := by
        refine List.nodup_append.mpr ⟨ok.keys_nodup, List.nodup_singleton key, ?_⟩
        intro a member b isKey same
        rw [same, List.mem_singleton.mp isKey] at member
        exact there (mem_keys.mp member)
      obtain ⟨after, members⟩ := empty.foldl_setInsert fits distinct fun k _ => none k
      rw [List.foldl_append] at after members
      refine ⟨after, ?_⟩
      intro other
      rw [show ∀ (u : SetObj), [key].foldl setInsert u = setInsert u key from fun _ => rfl]
        at members
      rw [members other, List.mem_append, mem_keys, List.mem_singleton]
      have no := none other
      tauto

theorem SetOk.tombstone {s : SetObj} (ok : SetOk s) {key : SetKey} {i : Nat}
    (found : s.slots[i]? = some (.live key ())) :
    SetOk (setTombstoneAt s i) ∧
      ∀ other, Member (setTombstoneAt s i) other ↔ other ≠ key ∧ Member s other := by
  obtain ⟨inside, at_slot⟩ := List.getElem?_eq_some_iff.mp found
  constructor
  · have same : (setTombstoneAt s i).cap = s.cap := List.length_set
    refine ⟨same ▸ ok.power, ?_, ?_⟩
    · have fewer := List.countP_set (p := Slot.isLive) (a := (.removed : SetSlot)) inside
      have some_ : 0 < s.slots.countP Slot.isLive :=
        List.countP_pos_iff.mpr ⟨_, List.mem_of_getElem? found, rfl⟩
      rw [at_slot] at fewer
      simp only [setTombstoneAt]
      rw [fewer, ok.counted]
      simp only [Slot.isLive, if_true, Bool.false_eq_true, if_false]
      omega
    · rw [same]
      exact ok.good.remove
  · intro other
    constructor
    · rintro ⟨j, live⟩
      rcases getElem?_set_cases live with ⟨-, new⟩ | ⟨apart, old⟩
      · cases new
      · refine ⟨?_, j, old⟩
        rintro rfl
        exact apart (ok.good.unique old found)
    · rintro ⟨differs, j, live⟩
      refine ⟨j, ?_⟩
      rw [setTombstoneAt, List.getElem?_set_ne ?_]
      · exact live
      · rintro rfl
        rw [found] at live
        cases live
        exact differs rfl

theorem SetOk.remove {s : SetObj} (ok : SetOk s) (key : SetKey) :
    SetOk (setRemove s key) ∧
      ∀ other, Member (setRemove s key) other ↔ other ≠ key ∧ Member s other := by
  have unchanged (absent : ¬ Member s key) :
      SetOk s ∧ ∀ other, Member s other ↔ other ≠ key ∧ Member s other := by
    refine ⟨ok, fun other => ⟨fun member => ⟨?_, member⟩, And.right⟩⟩
    rintro rfl
    exact absent member
  unfold setRemove
  split
  · rcases setFindExistingOff_spec s key with ⟨off, found, live⟩ | ⟨none, absent⟩
    · rw [found]
      exact ok.tombstone live
    · rw [none]
      exact unchanged absent
  · split
    · next none =>
      refine unchanged ?_
      rintro ⟨i, live⟩
      rw [ok.setProbe_live live] at none
      cases none
    · next off ended =>
      obtain ⟨n, -, -, stopped, -⟩ := setProbe_some ended
      rcases stopped with free | live
      · rw [isLive_eq free]
        refine unchanged ?_
        rintro ⟨i, live⟩
        rw [ok.setProbe_live live] at ended
        cases ended
        rw [live] at free
        cases free
      · rw [isLive_eq live]
        exact ok.tombstone live

/-- An operation that changes a set. -/
inductive SetOp where
  | add (key : SetKey)
  | sub (key : SetKey)
  deriving DecidableEq

/-- The set after operations, each on the set that the one before returned. -/
def setRun (s : SetObj) : List SetOp → Option SetObj
  | [] => some s
  | .add key :: rest => do
    let t ← setAdd s key
    setRun t rest
  | .sub key :: rest => setRun (setRemove s key) rest

/-- Every addition of a run finds room in the set before it. -/
def RunFits (s : SetObj) : List SetOp → Prop
  | [] => True
  | .add key :: rest => AddFits s key ∧ ∀ t, setAdd s key = some t → RunFits t rest
  | .sub key :: rest => RunFits (setRemove s key) rest

/-- The key was added, and not removed after that. -/
def Added (ops : List SetOp) (key : SetKey) : Prop :=
  ∃ before after, ops = before ++ .add key :: after ∧ .sub key ∉ after

theorem added_cons {op : SetOp} {rest : List SetOp} {key : SetKey} :
    Added (op :: rest) key ↔ Added rest key ∨ op = .add key ∧ .sub key ∉ rest := by
  constructor
  · rintro ⟨before, after, split, kept⟩
    cases before with
    | nil =>
      cases split
      exact .inr ⟨rfl, kept⟩
    | cons first before =>
      cases split
      exact .inl ⟨before, after, rfl, kept⟩
  · rintro (⟨before, after, rfl, kept⟩ | ⟨rfl, kept⟩)
    · exact ⟨op :: before, after, rfl, kept⟩
    · exact ⟨[], rest, rfl, kept⟩

theorem SetOk.run {ops : List SetOp} {s t : SetObj} (ok : SetOk s) (fits : RunFits s ops)
    (ran : setRun s ops = some t) :
    SetOk t ∧ ∀ key, Member t key ↔ Added ops key ∨ Member s key ∧ .sub key ∉ ops := by
  induction ops generalizing s with
  | nil =>
    cases ran
    refine ⟨ok, fun key => ⟨fun member => .inr ⟨member, by simp⟩, ?_⟩⟩
    rintro (⟨before, after, none, -⟩ | ⟨member, -⟩)
    · cases before <;> cases none
    · exact member
  | cons op rest ih =>
    cases op with
    | add key =>
      obtain ⟨u, added, ran⟩ := Option.bind_eq_some_iff.mp ran
      obtain ⟨after, members⟩ := ok.add fits.1 added
      obtain ⟨final, later⟩ := ih after (fits.2 u added) ran
      refine ⟨final, ?_⟩
      intro other
      rw [later other, members other, added_cons]
      simp only [SetOp.add.injEq, List.mem_cons, reduceCtorEq, false_or, eq_comm]
      tauto
    | sub key =>
      obtain ⟨after, members⟩ := ok.remove key
      obtain ⟨final, later⟩ := ih after fits ran
      refine ⟨final, ?_⟩
      intro other
      rw [later other, members other, added_cons]
      simp only [SetOp.sub.injEq, List.mem_cons, reduceCtorEq, false_and, or_false, not_or, eq_comm]
      tauto

/--
Sets are finite sets, in every run whose additions all find room.

The set contains exactly what was added and not removed since, it counts these keys, and it lists
each of them once.
-/
theorem setRun_spec {cap : Int} {ops : List SetOp} {s t : SetObj} (made : setNew cap = some s)
    (fits : RunFits s ops) (ran : setRun s ops = some t) :
    (∀ key, setContains t key = true ↔ Added ops key) ∧
      setLen t = (Set.ncard { key | Added ops key } : Int) ∧
      ∃ keys, setValues t = some keys ∧ keys.Nodup ∧ ∀ key, key ∈ keys ↔ Added ops key := by
  obtain ⟨k, large, rfl, -⟩ := setNew_eq_some made
  obtain ⟨empty, none⟩ := setOk_free large
  obtain ⟨ok, members⟩ := empty.run fits ran
  have exactly (key : SetKey) : Member t key ↔ Added ops key := by
    rw [members key]
    have no := none key
    tauto
  have listed : (t.keys.toFinset : Set SetKey) = { key | Added ops key } := by
    ext key
    simp [mem_keys, exactly]
  refine ⟨fun key => (ok.has_iff key).trans (exactly key), ?_, t.keys, ?_, ok.keys_nodup, ?_⟩
  · rw [setLen, ← listed, Set.ncard_coe_finset, List.toFinset_card_of_nodup ok.keys_nodup,
      ok.keys_length]
  · rw [setValues, ok.keys_length, if_pos (Int.le_refl _)]
  · intro key
    rw [mem_keys, exactly key]

/-- Adds and removes the first so many integers. -/
def churn (n : Nat) : List SetOp :=
  (List.range n).flatMap fun i =>
    [.add (.int (BitVec.ofNat 63 i)), .sub (.int (BitVec.ofNat 63 i))]

/-- The empty set with eight slots. -/
def eightFree : SetObj := ⟨0, List.replicate 8 (.free ())⟩

/-- A few operations on keys of both kinds. -/
def fewOps : List SetOp := [.add (.int 1), .sub (.int 1), .add (.str [97])]

theorem runFits_fewOps : RunFits eightFree fewOps := by
  refine ⟨.inr (.inl ⟨by decide, .cons (i := 1) ?_ .nil⟩), ?_⟩
  · exact ⟨0, by decide, by decide, by decide, by omega⟩
  · intro t added
    have same : t = ⟨1, eightFree.slots.set 1 (.live (.int 1) ())⟩ :=
      (Option.some.inj (added.symm.trans (by decide)))
    rw [same]
    refine ⟨.inr (.inl ⟨by decide, .cons (i := 4) ?_ .nil⟩), fun _ _ => trivial⟩
    exact ⟨0, by decide, by decide, by decide, by omega⟩

/-- A run on an integer and a string ends with the string alone. -/
theorem setRun_fewOps : ∃ t, setRun eightFree fewOps = some t ∧
    (∀ key, setContains t key = true ↔ Added fewOps key) ∧
    setLen t = (Set.ncard { key | Added fewOps key } : Int) ∧
    ∃ keys, setValues t = some keys ∧ keys.Nodup ∧ ∀ key, key ∈ keys ↔ Added fewOps key := by
  have made : setNew 8 = some eightFree := by decide
  have ran : setRun eightFree fewOps =
      some ⟨1, (eightFree.slots.set 1 .removed).set 4 (.live (.str [97]) ())⟩ := by decide
  exact ⟨_, ran, setRun_spec made runFits_fewOps ran⟩

/-- Eight keys that came and went leave no free slot, so that the next key is silently lost. -/
theorem setRun_churn : ∃ s t, setNew 8 = some s ∧ setRun s (churn 8 ++ [.add (.int 8)]) = some t ∧
    Added (churn 8 ++ [.add (.int 8)]) (.int 8) ∧ setContains t (.int 8) = false := by
  refine ⟨eightFree, ⟨0, List.replicate 8 .removed⟩, by decide, by decide +kernel, ?_, by decide⟩
  exact ⟨churn 8, [], rfl, by simp⟩

end Nytrix.Rt
