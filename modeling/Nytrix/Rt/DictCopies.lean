import Mathlib.Data.Nat.Find
import Nytrix.Rt.DictRuns

/-! What a copy of a dictionary keeps, and what a default written to one does. -/

namespace Nytrix.Rt

open Nytrix.Lib

variable {V : Type} {d : Dict V} {map : Key → Option V} {key : Key} {value : V}

/-- The tables that writes, removals, pops and resizes lead to, each of bounded size. -/
inductive Reachable (fuel : Nat) : Dict V → Prop
  | dict {cap : Int} {d : Dict V} (small : cap ≤ maxCap) (made : Rt.dict cap = some d) :
    Reachable fuel d
  | write {d given r : Dict V} (before : Reachable fuel d) (small : d.count < 2 ^ 55) (key : Key)
    (value : V) (written : dictWrite fuel d key value = some (given, r)) : Reachable fuel r
  | writeFast {d r : Dict V} (before : Reachable fuel d) (small : d.cap < maxCap) (key : Key)
    (value : V) (written : dictWriteFast d key value = some r) : Reachable fuel r
  | remove {d : Dict V} (before : Reachable fuel d) (key : Key) : Reachable fuel (dictRemove d key)
  | pop {d : Dict V} (before : Reachable fuel d) (key : Key) (default : V) :
    Reachable fuel (dictPop d key default).2
  | popItem {d : Dict V} (before : Reachable fuel d) : Reachable fuel (dictPopItem d).2
  | resize {d r : Dict V} (before : Reachable fuel d) (additional : Int)
    (small : d.count + additional ≤ 2 ^ 55) (resized : dictReserve d additional = some r) :
    Reachable fuel r

section Sound

/-- No slot was cleared, and the table is not beyond the largest size. -/
structure Sound (d : Dict V) : Prop where
  fresh : Fresh d
  small : d.cap ≤ maxCap

theorem dictNew_sound {cap : Nat} {nd : Dict V} (made : dictNew cap = some nd) : Sound nd := by
  unfold dictNew at made
  split at made
  · next small =>
    cases made
    refine ⟨fun member => ?_, ?_⟩
    · cases List.eq_of_mem_replicate member
    · show (List.replicate cap _).length ≤ maxCap
      rwa [List.length_replicate]
  · cases made

theorem Sound.store (sound : Sound d) (off : Nat) (key : Key) (value : V) :
    Sound (d.store off key value) where
  fresh := sound.fresh.store
  small := by
    rw [Dict.cap_store]
    exact sound.small

theorem Sound.giveUp (sound : Sound d) (off : Nat) : Sound (d.giveUp off) where
  fresh := by
    intro member
    rcases List.mem_or_eq_of_mem_set member with before | new
    · exact sound.fresh before
    · cases new
  small := by
    show (d.slots.set off .removed).length ≤ maxCap
    rw [List.length_set]
    exact sound.small

theorem copyLive_sound {write : Dict V → Key → V → Option (Dict V)}
    (keeps : ∀ {nd r : Dict V} {k : Key} {v : V}, Sound nd → write nd k v = some r → Sound r)
    (slots : List (Slot Mark Key V)) {nd r : Dict V} (sound : Sound nd)
    (copied : copyLive write slots nd = some r) : Sound r := by
  induction slots generalizing nd with
  | nil =>
    cases copied
    exact sound
  | cons slot rest ih =>
    cases slot with
    | live k v =>
      obtain ⟨nd', written, later⟩ := Option.bind_eq_some_iff.mp copied
      exact ih (keeps sound written) later
    | free mark => exact ih sound copied
    | removed => exact ih sound copied

theorem dictWrite_sound {fuel : Nat} {given r : Dict V} (sound : Sound d)
    (written : dictWrite fuel d key value = some (given, r)) : Sound given ∧ Sound r := by
  induction fuel generalizing d key value given r with
  | zero => cases written
  | succ fuel ih =>
    -- A table that grows is a new one, and every entry is written to it in the same way.
    have grown (grow : (do
        let nd ← dictNew (grownCap d.cap)
        let nd ← copyLive (fun nd k v => (dictWrite fuel nd k v).map Prod.fst) d.slots nd
        let last ← dictWrite fuel nd key value
        return (d, last.2)) = some (given, r)) : Sound given ∧ Sound r := by
      obtain ⟨empty, made, rest⟩ := Option.bind_eq_some_iff.mp grow
      obtain ⟨nd, copied, rest⟩ := Option.bind_eq_some_iff.mp rest
      obtain ⟨⟨given', r'⟩, last, result⟩ := Option.bind_eq_some_iff.mp rest
      cases result
      refine ⟨sound, (ih (copyLive_sound ?_ d.slots (dictNew_sound made) copied) last).2⟩
      intro nd r k v known done
      obtain ⟨⟨given'', r''⟩, one, rfl⟩ := Option.map_eq_some_iff.mp done
      exact (ih known one).1
    unfold dictWrite at written
    dsimp only at written
    split at written
    · exact grown written
    · split at written
      · cases written
        exact ⟨sound.store _ _ _, sound.store _ _ _⟩
      · split at written
        · exact grown written
        · cases written
          exact ⟨sound.store _ _ _, sound.store _ _ _⟩

theorem dictRemove_sound (sound : Sound d) (key : Key) : Sound (dictRemove d key) := by
  unfold dictRemove
  split
  · exact sound
  · split
    · exact sound.giveUp _
    · exact sound

theorem dictPop_sound (sound : Sound d) (key : Key) (default : V) :
    Sound (dictPop d key default).2 := by
  unfold dictPop
  split
  · exact sound
  · split
    · exact sound.giveUp _
    · exact sound

theorem dictPopItem_sound (sound : Sound d) : Sound (dictPopItem d).2 := by
  rcases popItemLoop_cases d d.cap with ⟨done, -⟩ | ⟨j, k, v, -, done⟩
  · rw [dictPopItem, done]
    exact sound
  · rw [dictPopItem, done]
    exact sound.giveUp j

theorem insertFast_sound (sound : Sound d) (key : Key) (value : V) :
    Sound (dictInsertNoResizeFast d key value) := by
  unfold dictInsertNoResizeFast
  split
  · exact sound
  · exact sound.store _ _ _

theorem dictCopyFast_sound {cap : Nat} {r : Dict V} (copied : dictCopyFast d cap = some r) :
    Sound r := by
  obtain ⟨empty, made, rest⟩ := Option.bind_eq_some_iff.mp copied
  refine copyLive_sound ?_ d.slots (dictNew_sound made) rest
  intro nd r k v known written
  cases written
  exact insertFast_sound known k v

theorem dictWriteFast_sound {r : Dict V} (sound : Sound d)
    (written : dictWriteFast d key value = some r) : Sound r := by
  have grown {cap : Nat} (grow : (do
      let nd ← dictCopyFast d cap
      return dictInsertNoResizeFast nd key value) = some r) : Sound r := by
    obtain ⟨nd, copied, last⟩ := Option.bind_eq_some_iff.mp grow
    cases last
    exact insertFast_sound (dictCopyFast_sound copied) key value
  unfold dictWriteFast at written
  dsimp only at written
  split at written
  · cases written
    exact sound
  · split at written
    · exact grown written
    · split at written
      · cases written
        exact sound.store _ _ _
      · split at written
        · exact grown written
        · cases written
          exact sound.store _ _ _

theorem dictReserve_sound {additional : Int} {r : Dict V} (sound : Sound d)
    (resized : dictReserve d additional = some r) : Sound r := by
  have either {done : Bool} {want : Int}
      (result : (if done then some d else dictCopyFast d want.toNat) = some r) : Sound r := by
    split at result
    · cases result
      exact sound
    · exact dictCopyFast_sound result
  unfold dictReserve at resized
  split at resized
  · cases resized
    exact sound
  · exact either resized

end Sound

theorem Reachable.wf {fuel : Nat} (enough : 2 ≤ fuel) (reachable : Reachable fuel d) :
    (∃ map, Wf d map) ∧ Sound d := by
  -- The induction follows the steps; the runtime buries no key where no slot was cleared.
  induction reachable with
  | @dict cap d small made =>
    obtain ⟨d', made', wf⟩ := dict_wf (V := V) small
    cases made.symm.trans made'
    obtain ⟨size, -, new⟩ := Option.bind_eq_some_iff.mp made
    exact ⟨⟨_, wf⟩, dictNew_sound new⟩
  | write before small key value written ih =>
    obtain ⟨⟨map, wf⟩, sound⟩ := ih
    obtain ⟨given, r, written', wf', -⟩ := dictWrite_wf enough wf small key value
    cases written.symm.trans written'
    exact ⟨⟨_, wf'⟩, (dictWrite_sound sound written).2⟩
  | @writeFast d r before small key value written ih =>
    obtain ⟨⟨map, wf⟩, sound⟩ := ih
    have seen : ¬Buries d key := by
      rintro ⟨-, -, i, j, -, -, cleared, -⟩
      exact sound.fresh (List.mem_of_getElem? cleared)
    obtain ⟨r', written', wf'⟩ := dictWriteFast_wf wf small key value seen
    cases written.symm.trans written'
    exact ⟨⟨_, wf'⟩, dictWriteFast_sound sound written⟩
  | remove before key ih =>
    obtain ⟨⟨map, wf⟩, sound⟩ := ih
    exact ⟨⟨_, dictRemove_wf wf key⟩, dictRemove_sound sound key⟩
  | pop before key default ih =>
    obtain ⟨⟨map, wf⟩, sound⟩ := ih
    exact ⟨⟨_, (dictPop_wf wf key default).2⟩, dictPop_sound sound key default⟩
  | @popItem d before ih =>
    obtain ⟨⟨map, wf⟩, sound⟩ := ih
    have popped := dictPopItem_wf wf
    refine ⟨?_, dictPopItem_sound sound⟩
    cases item : (dictPopItem d).1 with
    | none =>
      rw [item] at popped
      exact ⟨_, popped.2⟩
    | some e =>
      rw [item] at popped
      exact ⟨_, popped.2⟩
  | resize before additional small resized ih =>
    obtain ⟨⟨map, wf⟩, sound⟩ := ih
    obtain ⟨r', resized', wf'⟩ := dictReserve_wf wf small
    cases resized.symm.trans resized'
    exact ⟨⟨_, wf'⟩, dictReserve_sound sound resized⟩

section Defaults

theorem Wf.exists_eq (wf : Wf d map) (key : Key) : dictExists d key = (map key).isSome := by
  unfold dictExists
  by_cases absent : map key = none
  · obtain ⟨off, find, -, unused, -⟩ := wf.find_absent absent
    simp only [find, unused, absent, Option.isSome_none]
  · obtain ⟨old, present⟩ := exists_of_ne_none absent
    obtain ⟨off, k, found, -, find, -⟩ := wf.find_present present
    simp only [find, present, Option.isSome_some, Dict.isLive, found]
    rfl

theorem Wf.read_eq (wf : Wf d map) (key : Key) (default : V) :
    dictRead d key default = (map key).getD default :=
  wf.represents.1 key default

theorem dictWrite_tight {fuel : Nat} (wf : Wf d map) (absent : map key = none)
    (tight : (d.cap : Int) < (d.count + 1) * 2) {given r : Dict V}
    (written : dictWrite fuel d key value = some (given, r)) : given = d := by
  cases fuel with
  | zero => cases written
  | succ fuel =>
    obtain ⟨off, find, -, unused, -⟩ := wf.find_absent absent
    rw [dictWrite, find] at written
    simp only [unused, Bool.false_eq_true, if_false, if_pos tight] at written
    obtain ⟨empty, -, rest⟩ := Option.bind_eq_some_iff.mp written
    obtain ⟨nd, -, rest⟩ := Option.bind_eq_some_iff.mp rest
    obtain ⟨⟨given', r'⟩, -, result⟩ := Option.bind_eq_some_iff.mp rest
    cases result
    rfl

/--
Setting a default takes effect on the dictionary it was called on: the key reads as what was
returned, and every other key as before.
-/
def DefaultSet (fuel : Nat) (d : Dict V) (key : Key) (default : V) : Prop :=
  ∃ r after, dictSetdefault fuel d key default = some (r, after) ∧
    (∀ other, dictRead after key other = r) ∧
    ∀ k, keyEq key k = false → ∀ other, dictRead after k other = dictRead d k other

/-- Setting a default takes effect if and only if the key is there or the table need not grow. -/
theorem dictSetdefault_iff [Nontrivial V] {fuel : Nat} (enough : 2 ≤ fuel)
    (reachable : Reachable fuel d) (key : Key) (default : V) :
    DefaultSet fuel d key default ↔ dictExists d key = true ∨ (d.count + 1) * 2 ≤ d.cap := by
  obtain ⟨⟨map, wf⟩, -⟩ := reachable.wf enough
  constructor
  · -- A table that grows is left as it was, where the key reads as any default.
    rintro ⟨r, after, done, reads, -⟩
    by_contra neither
    rw [not_or] at neither
    obtain ⟨unseen, tight⟩ := neither
    have absent : map key = none := by
      rw [wf.exists_eq key] at unseen
      exact Option.not_isSome_iff_eq_none.mp unseen
    rw [dictSetdefault, if_neg unseen] at done
    obtain ⟨⟨given, r'⟩, written, result⟩ := Option.map_eq_some_iff.mp done
    obtain rfl : given = d := dictWrite_tight wf absent (by omega) written
    cases result
    obtain ⟨other, differs⟩ := exists_ne default
    have read := reads other
    rw [wf.read_eq, absent] at read
    exact differs read
  · intro either
    by_cases present : dictExists d key = true
    · refine ⟨dictRead d key default, d, by rw [dictSetdefault, if_pos present], ?_,
        fun _ _ _ => rfl⟩
      intro other
      rw [wf.exists_eq key] at present
      obtain ⟨old, found⟩ := Option.isSome_iff_exists.mp present
      rw [wf.read_eq, wf.read_eq, found]
      rfl
    · obtain ⟨fuel, rfl⟩ := Nat.exists_eq_add_of_le enough
      rw [Nat.add_comm 2 fuel]
      have room : 2 * (d.count + 1) ≤ d.cap := by
        have room := either.resolve_left present
        omega
      obtain ⟨off, written, wf'⟩ := dictWrite_ready (fuel + 1) key default wf (.inr room)
      refine ⟨default, _, by rw [dictSetdefault, if_neg present, written]; rfl, ?_, ?_⟩
      · intro other
        rw [wf'.read_eq, extend, if_pos ((keyed d.cap).refl key)]
        rfl
      · intro k differs other
        rw [wf'.read_eq, wf.read_eq, extend, if_neg (by simp [differs])]

/-- A dictionary with four of its eight slots in use. -/
def halfFull : Dict Nat where
  count := 4
  slots := [.live (.int 0) 10, .live (.int 1) 11, .live (.int 2) 12, .live (.int 3) 13] ++
    List.replicate 4 (.free .zero)

theorem halfFull_reachable : Reachable 2 halfFull := by
  have new : Reachable 2 (⟨0, List.replicate 8 (.free .zero)⟩ : Dict Nat) :=
    .dict (show ((8 : Int) ≤ maxCap) by decide) (by decide)
  have one := new.write (by decide) (.int 0) 10 rfl
  have two := one.write (by decide) (.int 1) 11 rfl
  have three := two.write (by decide) (.int 2) 12 rfl
  exact three.write (by decide) (.int 3) 13 rfl

/-- The default of a key that is there is not set. -/
theorem dictSetdefault_iff_halfFull : DefaultSet 2 halfFull (.int 3) 20 :=
  (dictSetdefault_iff (Nat.le_refl 2) halfFull_reachable (.int 3) 20).mpr (.inl (by decide))

/-- The default of a fifth key is returned, and is not in the dictionary. -/
theorem dictSetdefault_fails : Reachable 2 halfFull ∧ ¬DefaultSet 2 halfFull (.int 4) 14 := by
  refine ⟨halfFull_reachable, ?_⟩
  rintro ⟨r, after, done, reads, -⟩
  cases (show dictSetdefault 2 halfFull (.int 4) 14 = some (14, halfFull) by decide).symm.trans done
  have read := reads 0
  rw [show dictRead halfFull (.int 4) 0 = 0 by decide] at read
  cases read

end Defaults

section Clones

/-- The slots of a copy. -/
def copied (d : Dict V) : Dict V where
  count := d.count
  slots := d.slots.map fun slot => cloneSlot slot (.free .zero)

theorem dictClone_eq (sound : Sound d) : dictClone d = some (copied d) := by
  have pairs : ∀ slots : List (Slot Mark Key V),
      List.zipWith cloneSlot slots (List.replicate slots.length (.free .zero)) =
        slots.map fun slot => cloneSlot slot (.free .zero) := by
    intro slots
    induction slots with
    | nil => rfl
    | cons slot rest ih => exact congrArg (cloneSlot slot (.free .zero) :: ·) ih
  rw [dictClone, dictNew, if_pos sound.small]
  show some (Dict.mk d.count _) = some (Dict.mk d.count _)
  rw [show d.cap = d.slots.length from rfl, pairs d.slots]

theorem cap_copied (d : Dict V) : (copied d).cap = d.cap := List.length_map _

theorem copied_live {i : Nat} {k : Key} {v : V} :
    (copied d).slots[i]? = some (.live k v) ↔ d.slots[i]? = some (.live k v) := by
  show (d.slots.map _)[i]? = _ ↔ _
  rw [List.getElem?_map]
  cases d.slots[i]? with
  | none => simp
  | some slot => cases slot <;> simp [cloneSlot]

theorem copied_free {i : Nat} {slot : Slot Mark Key V} (found : d.slots[i]? = some slot)
    (unused : slot.isLive = false) : (copied d).slots[i]? = some (.free .zero) := by
  show (d.slots.map _)[i]? = _
  rw [List.getElem?_map, found]
  cases slot with
  | live k v => cases unused
  | free mark => rfl
  | removed => rfl

/-- An entry sits behind a slot that was given up, which a search for it passes. -/
def Detours (d : Dict V) : Prop :=
  ∃ (i : Nat) (k : Key) (v : V), d.slots[i]? = some (.live k v) ∧
    ∃ step, (∀ s ≤ step, around d.cap (startOf d.cap k) s ≠ i) ∧
      d.slots[around d.cap (startOf d.cap k) step]? = some .removed

theorem Wf.copied (wf : Wf d map) (straight : ¬Detours d) : Wf (copied d) map where
  power := by
    rw [cap_copied]
    exact wf.power
  chained := by
    rw [cap_copied]
    refine ⟨fun at_i at_j => wf.chained.unique (copied_live.mp at_i) (copied_live.mp at_j), ?_⟩
    intro i k v at_i
    have old := copied_live.mp at_i
    obtain ⟨steps, within, here, taken⟩ := wf.chained.reached old
    -- Up to the first time the entry's slot is met, every slot on the way is in use.
    have meets : ∃ s, around d.cap (startOf d.cap k) s = i := ⟨steps, here⟩
    classical
    have first := Nat.find_spec meets
    have least : ∀ s < Nat.find meets, around d.cap (startOf d.cap k) s ≠ i :=
      fun s less => Nat.find_min meets less
    have early : Nat.find meets ≤ steps := Nat.find_min' meets here
    have size : (Rt.copied d).slots.length = d.cap := cap_copied d
    refine ⟨Nat.find meets, by rw [size]; exact Nat.lt_of_le_of_lt early within, ?_, ?_⟩
    · rw [size]
      exact first
    · intro step less mark free
      rw [size] at free
      have inside : around d.cap (startOf d.cap k) step < d.slots.length := Nat.mod_lt _ wf.cap_pos
      have found := List.getElem?_eq_getElem inside
      cases slot : d.slots[around d.cap (startOf d.cap k) step] with
      | live l w =>
        rw [slot] at found
        rw [copied_live.mpr found] at free
        cases free
      | free other =>
        rw [slot] at found
        exact taken step (Nat.lt_of_lt_of_le less early) other found
      | removed =>
        rw [slot] at found
        exact straight ⟨i, k, v, old, step, fun s upto => least s (Nat.lt_of_le_of_lt upto less),
          found⟩
  counted := by
    rw [show (Rt.copied d).count = d.count from rfl, wf.counted]
    show _ = (((d.slots.map _).countP Slot.isLive : Nat) : Int)
    rw [List.countP_map]
    congr 2
    funext slot
    cases slot <;> rfl
  half := by
    rw [cap_copied]
    exact wf.half
  marks := by
    refine ⟨.zero, ?_⟩
    intro m member
    obtain ⟨slot, -, eq⟩ := List.mem_map.mp member
    cases slot <;> cases eq <;> rfl
  holds := by
    intro key value
    rw [wf.holds key value]
    constructor
    · rintro ⟨i, k, found, equal⟩
      exact ⟨i, k, copied_live.mpr found, equal⟩
    · rintro ⟨i, k, found, equal⟩
      exact ⟨i, k, copied_live.mp found, equal⟩

theorem Detours.hides (wf : Wf d map) (detours : Detours d) :
    ∃ key, dictExists d key = true ∧ dictExists (copied d) key = false := by
  obtain ⟨i, k, v, live, step, apart, removed⟩ := detours
  have order : ∀ j < (copied d).slots.length,
      nextSlot d.cap j = (j + 1) % (copied d).slots.length := by
    intro j _
    rw [show (copied d).slots.length = d.slots.length from cap_copied d]
    exact wf.next_eq j
  have size : (copied d).slots.length = d.cap := cap_copied d
  have slot_of (s : Nat) : ∃ slot, d.slots[around d.cap (startOf d.cap k) s]? = some slot :=
    ⟨_, List.getElem?_eq_getElem (Nat.mod_lt _ wf.cap_pos)⟩
  -- The search of the copy stops at the first slot on the way that is not in use.
  have stops : ∃ s, (copied d).slots[around d.cap (startOf d.cap k) s]? = some (.free .zero) :=
    ⟨step, copied_free removed rfl⟩
  classical
  have free := Nat.find_spec stops
  have early : Nat.find stops ≤ step := Nat.find_min' stops (copied_free removed rfl)
  have others : ∀ l < Nat.find stops, ∃ k' v',
      (copied d).slots[around (copied d).slots.length (startOf d.cap k) l]? = some (.live k' v') ∧
        keyEq k' k = false := by
    intro l less
    rw [size]
    obtain ⟨slot, found⟩ := slot_of l
    cases slot with
    | live k' v' =>
      refine ⟨k', v', copied_live.mpr found, ?_⟩
      cases equal : keyEq k' k with
      | false => rfl
      | true => exact absurd (wf.chained.unique found live equal) (apart l (by omega))
    | free mark => exact absurd (copied_free found rfl) (Nat.find_min stops less)
    | removed => exact absurd (copied_free found rfl) (Nat.find_min stops less)
  -- It stops within one turn, since the slot is met again after each.
  have turn : ∀ s, around d.cap (startOf d.cap k) s =
      around d.cap (startOf d.cap k) (s % d.cap) := by
    intro s
    rw [around, around, Nat.add_mod_mod]
  have within : Nat.find stops < (copied d).slots.length := by
    rw [size]
    refine Nat.lt_of_le_of_lt (Nat.find_min' stops ?_) (Nat.mod_lt (Nat.find stops) wf.cap_pos)
    rw [← turn]
    exact free
  have found : dictFindOff (copied d) k =
      some (around (copied d).slots.length (startOf d.cap k) (Nat.find stops)) := by
    have start : startOf d.cap k < (copied d).slots.length := by
      rw [size]
      exact wf.start_lt
    have result : search Mark.isFalsy keyEq (nextSlot d.cap) (copied d).slots k
        (copied d).slots.length (startOf d.cap k) none = _ :=
      search_stop order start within others (by rw [size]; exact free) rfl
    rw [dictFindOff, cap_copied, if_neg (Nat.ne_of_gt wf.cap_pos)]
    simp only [size] at result ⊢
    exact result
  refine ⟨k, ?_, ?_⟩
  · rw [wf.exists_eq k, (wf.holds k v).mpr ⟨i, k, live, (keyed d.cap).refl k⟩]
    rfl
  · rw [dictExists, found]
    simp only [Dict.isLive, size, free]
    rfl

/-- A write or a removal. -/
inductive Change (V : Type) where
  | write (key : Key) (value : V)
  | remove (key : Key)

/-- The dictionary after changes, each made to the one that the change before returned. -/
def changed (fuel : Nat) : Dict V → List (Change V) → Option (Dict V)
  | d, [] => some d
  | d, .write key value :: rest => do
    let (_, r) ← dictWrite fuel d key value
    changed fuel r rest
  | d, .remove key :: rest => changed fuel (dictRemove d key) rest

/-- Two dictionaries answer alike. -/
def AnswerAlike (c d : Dict V) : Prop :=
  (∀ key default, dictRead c key default = dictRead d key default) ∧
    (∀ key, dictExists c key = dictExists d key) ∧ dictLen c = dictLen d

/--
A dictionary is copied as a map: its copy answers as it does, and goes on to do so when the same
writes and removals are made to both.
-/
def CopiedRight (fuel : Nat) (d : Dict V) : Prop :=
  ∃ c, dictClone d = some c ∧ AnswerAlike c d ∧
    ∀ changes : List (Change V), d.count + changes.length ≤ 2 ^ 55 →
      ∃ c' d', changed fuel c changes = some c' ∧ changed fuel d changes = some d' ∧ AnswerAlike c' d'

/-- The one of the equal keys that stands for them. -/
def Key.standard : Key → Key
  | .nil => .int 0
  | other => other

theorem keyEq_iff (k l : Key) : keyEq k l = true ↔ k.standard = l.standard := by
  cases k <;> cases l <;> simp only [keyEq, Key.standard, decide_eq_true_eq, Key.int.injEq,
    Key.str.injEq, reduceCtorEq, Bool.false_eq_true]
  exact eq_comm

theorem Wf.count_eq {c : Dict V} (left : Wf c map) (right : Wf d map) : c.count = d.count := by
  -- The keys that stand for the entries are the same ones, each once.
  have keys {d : Dict V} (wf : Wf d map) : ((entries d.slots).map fun e => e.1.standard).Nodup ∧
      ∀ k, k ∈ (entries d.slots).map (fun e => e.1.standard) ↔
        ∃ key v, map key = some v ∧ key.standard = k := by
    refine ⟨?_, ?_⟩
    · rw [List.Nodup, List.pairwise_map]
      refine wf.chained.entries_distinct.imp ?_
      intro a b differs same
      rw [(keyEq_iff a.1 b.1).mpr same] at differs
      cases differs
    · intro k
      rw [List.mem_map]
      constructor
      · rintro ⟨e, member, rfl⟩
        exact ⟨e.1, e.2, wf.holds.iff_entries.mpr ⟨e, member, (keyed d.cap).refl e.1, rfl⟩, rfl⟩
      · rintro ⟨key, v, found, rfl⟩
        obtain ⟨e, member, equal, -⟩ := wf.holds.iff_entries.mp found
        exact ⟨e, member, (keyEq_iff e.1 key).mp equal⟩
  have same := (List.perm_ext_iff_of_nodup (keys left).1 (keys right).1).mpr fun k =>
    ((keys left).2 k).trans ((keys right).2 k).symm
  have lengths := same.length_eq
  rw [List.length_map, List.length_map, length_entries, length_entries] at lengths
  rw [left.counted, right.counted, lengths]

theorem Wf.alike {c : Dict V} (left : Wf c map) (right : Wf d map) : AnswerAlike c d := by
  refine ⟨?_, ?_, left.count_eq right⟩
  · intro key default
    rw [left.read_eq, right.read_eq]
  · intro key
    rw [left.exists_eq, right.exists_eq]

theorem changed_wf {fuel : Nat} (enough : 2 ≤ fuel) (changes : List (Change V)) {c : Dict V}
    (left : Wf c map) (right : Wf d map) (small : d.count + changes.length ≤ 2 ^ 55) :
    ∃ c' d' map', changed fuel c changes = some c' ∧ changed fuel d changes = some d' ∧
      Wf c' map' ∧ Wf d' map' := by
  induction changes generalizing c d map with
  | nil => exact ⟨c, d, map, rfl, rfl, left, right⟩
  | cons change rest ih =>
    rw [List.length_cons] at small
    cases change with
    | write key value =>
      have count := left.count_eq right
      obtain ⟨given, r, written, wf, -⟩ := dictWrite_wf enough left (by omega) key value
      obtain ⟨given', r', written', wf', bound⟩ := dictWrite_wf enough right (by omega) key value
      obtain ⟨c', d', map', first, second, rest'⟩ := ih wf wf' (by omega)
      refine ⟨c', d', map', ?_, ?_, rest'⟩
      · simp only [changed, written, Option.bind_eq_bind, Option.bind_some, first]
      · simp only [changed, written', Option.bind_eq_bind, Option.bind_some, second]
    | remove key =>
      have fewer : (dictRemove d key).count ≤ d.count := by
        unfold dictRemove
        split
        · exact Int.le_refl _
        · split
          · show d.count - 1 ≤ d.count
            omega
          · exact Int.le_refl _
      exact ih (dictRemove_wf left key) (dictRemove_wf right key) (by omega)

/--
A dictionary is copied as a map if and only if none of its entries sits behind a slot that was
given up.
-/
theorem dictClone_iff {fuel : Nat} (enough : 2 ≤ fuel) (reachable : Reachable fuel d) :
    CopiedRight fuel d ↔ ¬Detours d := by
  obtain ⟨⟨map, wf⟩, sound⟩ := reachable.wf enough
  constructor
  · -- The copy does not find the entry that the dictionary has.
    rintro ⟨c, made, ⟨-, present, -⟩, -⟩ detours
    cases (dictClone_eq sound).symm.trans made
    obtain ⟨key, there, hidden⟩ := detours.hides wf
    rw [present key, there] at hidden
    cases hidden
  · intro straight
    have wf' := wf.copied straight
    refine ⟨copied d, dictClone_eq sound, wf'.alike wf, ?_⟩
    intro changes small
    obtain ⟨c', d', map', first, second, left, right⟩ := changed_wf enough changes wf' wf small
    exact ⟨c', d', first, second, left.alike right⟩

/-- A copy of a dictionary without slots given up is right. -/
theorem dictClone_iff_halfFull : CopiedRight 2 halfFull := by
  refine (dictClone_iff (Nat.le_refl 2) halfFull_reachable).mpr ?_
  rintro ⟨i, k, v, live, step, apart, removed⟩
  have member := List.mem_of_getElem? removed
  revert member
  decide

/-- What is left when two keys that start at one slot are written and the first is removed. -/
def collided : Dict Nat where
  count := 1
  slots := (((List.replicate 8 (.free .zero)).set 1 .removed).set 2 (.live (.int 9) 19))

theorem collided_reachable : Reachable 2 collided := by
  have new : Reachable 2 (⟨0, List.replicate 8 (.free .zero)⟩ : Dict Nat) :=
    .dict (show ((8 : Int) ≤ maxCap) by decide) (by decide)
  have one := new.write (by decide) (.int 1) 11 rfl
  have two := one.write (by decide) (.int 9) 19 rfl
  exact two.remove (.int 1)

/-- The second key reads as its value, and in a copy as the default. -/
theorem dictClone_fails : Reachable 2 collided ∧ dictRead collided (.int 9) 0 = 19 ∧
    (dictClone collided).map (dictRead · (.int 9) 0) = some 0 ∧ ¬CopiedRight 2 collided := by
  have read : (dictClone collided).map (dictRead · (.int 9) 0) = some 0 := by decide
  refine ⟨collided_reachable, by decide, read, ?_⟩
  rintro ⟨c, made, ⟨reads, -⟩, -⟩
  rw [made, Option.map_some, reads (.int 9) 0] at read
  revert read
  decide

end Clones

end Nytrix.Rt
