import Nytrix.Rt.DictLaws

/-! Every history of a dictionary leaves it a finite map, read and listed as such. -/

namespace Nytrix.Rt

open Nytrix.Lib

/-- How a dictionary came about, each step on the one the step before returned. -/
inductive History (V : Type) where
  | dict (cap : Int)
  | write (before : History V) (key : Key) (value : V)
  | writeFast (before : History V) (key : Key) (value : V)
  | reserve (before : History V) (additional : Int)
  | remove (before : History V) (key : Key)
  | pop (before : History V) (key : Key) (default : V)
  | popItem (before : History V)
  | clear (before : History V)
  | merge (before other : History V)

variable {V : Type}

/-- The dictionary at the end of a history, where the writes have the given depth of calls. -/
def History.run (fuel : Nat) : History V → Option (Dict V)
  | .dict cap => Rt.dict cap
  | .write h key value => do
    let d ← h.run fuel
    (dictWrite fuel d key value).map Prod.snd
  | .writeFast h key value => do
    let d ← h.run fuel
    dictWriteFast d key value
  | .reserve h additional => do
    let d ← h.run fuel
    dictReserve d additional
  | .remove h key => do
    let d ← h.run fuel
    return dictRemove d key
  | .pop h key default => do
    let d ← h.run fuel
    return (dictPop d key default).2
  | .popItem h => do
    let d ← h.run fuel
    return (dictPopItem d).2
  | .clear h => do
    let d ← h.run fuel
    return dictClear d
  | .merge h other => do
    let dst ← h.run fuel
    let src ← other.run fuel
    dictMerge fuel dst src

/--
The map a history leaves: the value of the last write of each key that was not taken out since.

Popping an entry takes out the key that it returns.
-/
def History.meaning (fuel : Nat) : History V → Key → Option V
  | .dict _ => fun _ => none
  | .write h key value => extend keyEq (h.meaning fuel) key value
  | .writeFast h key value => extend keyEq (h.meaning fuel) key value
  | .reserve h _ => h.meaning fuel
  | .remove h key => erase keyEq (h.meaning fuel) key
  | .pop h key _ => erase keyEq (h.meaning fuel) key
  | .popItem h =>
    match (h.run fuel).bind fun d => (dictPopItem d).1 with
    | none => h.meaning fuel
    | some (key, _) => erase keyEq (h.meaning fuel) key
  | .clear _ => fun _ => none
  | .merge h other => fun key => (other.meaning fuel key).or (h.meaning fuel key)

/--
No table of a history outgrows the memory, and the runtime buries no key.

The conditions are on the dictionary before each step: the number of its entries and of its slots,
and where the runtime would put a new key.
-/
def History.Admissible (fuel : Nat) : History V → Prop
  | .dict cap => cap ≤ maxCap
  | .write h _ _ => h.Admissible fuel ∧ ∀ d, h.run fuel = some d → d.count < 2 ^ 55
  | .writeFast h key _ =>
    h.Admissible fuel ∧ ∀ d, h.run fuel = some d → d.cap < maxCap ∧ ¬Buries d key
  | .reserve h additional =>
    h.Admissible fuel ∧ ∀ d, h.run fuel = some d → d.count + additional ≤ 2 ^ 55
  | .remove h _ => h.Admissible fuel
  | .pop h _ _ => h.Admissible fuel
  | .popItem h => h.Admissible fuel
  | .clear h => h.Admissible fuel
  | .merge h other => h.Admissible fuel ∧ other.Admissible fuel ∧
    ∀ dst src, h.run fuel = some dst → other.run fuel = some src →
      dst.count + src.count ≤ 2 ^ 55

/-- The dictionary reads as the map, and lists each key of it once. -/
def Represents (d : Dict V) (map : Key → Option V) : Prop :=
  (∀ key default, dictRead d key default = (map key).getD default) ∧
  ∃ items : List (Key × V), dictItems d = some items ∧
    dictKeys d = some (items.map Prod.fst) ∧ dictValues d = some (items.map Prod.snd) ∧
    dictLen d = items.length ∧ (items.Pairwise fun a b => keyEq a.1 b.1 = false) ∧
    ∀ key value, map key = some value ↔ ∃ e ∈ items, keyEq e.1 key = true ∧ e.2 = value

theorem Wf.represents {d : Dict V} {map : Key → Option V} (wf : Wf d map) : Represents d map := by
  have live : ((entries d.slots).length : Int) = d.count := by
    rw [length_entries, wf.counted]
  have items : dictItems d = some (entries d.slots) := if_pos (Int.le_of_eq live)
  refine ⟨?_, entries d.slots, items, ?_, ?_, live.symm, wf.chained.entries_distinct, ?_⟩
  · intro key default
    unfold dictRead
    by_cases absent : map key = none
    · obtain ⟨off, find, inside, unused, -⟩ := wf.find_absent absent
      rw [Dict.isLive, List.getElem?_eq_getElem inside] at unused
      rw [absent, find]
      simp only [List.getElem?_eq_getElem inside]
      cases at_off : d.slots[off] with
      | live k v =>
        rw [at_off] at unused
        cases unused
      | free mark => rfl
      | removed => rfl
    · obtain ⟨old, present⟩ := exists_of_ne_none absent
      obtain ⟨off, k, found, -, find, -⟩ := wf.find_present present
      simp only [find, found, present]
      rfl
  · rw [dictKeys, items]
    rfl
  · rw [dictValues, items]
    rfl
  · intro key value
    exact wf.holds.iff_entries

theorem History.run_wf {fuel : Nat} (enough : 2 ≤ fuel) (h : History V)
    (admissible : h.Admissible fuel) : ∃ d, h.run fuel = some d ∧ Wf d (h.meaning fuel) := by
  -- The induction follows the steps; each one keeps the table in order on the map it should hold.
  induction h with
  | dict cap => exact dict_wf admissible
  | write h key value ih =>
    obtain ⟨d, run, wf⟩ := ih admissible.1
    obtain ⟨d', r, written, wf', -⟩ := dictWrite_wf enough wf (admissible.2 d run) key value
    refine ⟨r, ?_, wf'⟩
    simp only [History.run, run, written, Option.bind_eq_bind, Option.bind_some, Option.map_some]
  | writeFast h key value ih =>
    obtain ⟨d, run, wf⟩ := ih admissible.1
    obtain ⟨below, seen⟩ := admissible.2 d run
    obtain ⟨r, written, wf'⟩ := dictWriteFast_wf wf below key value seen
    refine ⟨r, ?_, wf'⟩
    simp only [History.run, run, written, Option.bind_eq_bind, Option.bind_some]
  | reserve h additional ih =>
    obtain ⟨d, run, wf⟩ := ih admissible.1
    obtain ⟨r, reserved, wf'⟩ := dictReserve_wf wf (admissible.2 d run)
    refine ⟨r, ?_, wf'⟩
    simp only [History.run, run, reserved, Option.bind_eq_bind, Option.bind_some]
  | remove h key ih =>
    obtain ⟨d, run, wf⟩ := ih admissible
    refine ⟨dictRemove d key, ?_, dictRemove_wf wf key⟩
    simp only [History.run, run, Option.bind_eq_bind, Option.bind_some, Option.pure_def]
  | pop h key default ih =>
    obtain ⟨d, run, wf⟩ := ih admissible
    refine ⟨(dictPop d key default).2, ?_, (dictPop_wf wf key default).2⟩
    simp only [History.run, run, Option.bind_eq_bind, Option.bind_some, Option.pure_def]
  | popItem h ih =>
    obtain ⟨d, run, wf⟩ := ih admissible
    refine ⟨(dictPopItem d).2, ?_, ?_⟩
    · simp only [History.run, run, Option.bind_eq_bind, Option.bind_some, Option.pure_def]
    · have popped := dictPopItem_wf wf
      simp only [History.meaning, run, Option.bind_some]
      cases item : (dictPopItem d).1 with
      | none =>
        rw [item] at popped
        exact popped.2
      | some e =>
        rw [item] at popped
        exact popped.2
  | clear h ih =>
    obtain ⟨d, run, wf⟩ := ih admissible
    refine ⟨dictClear d, ?_, dictClear_wf wf⟩
    simp only [History.run, run, Option.bind_eq_bind, Option.bind_some, Option.pure_def]
  | merge h other ih ihOther =>
    obtain ⟨d, run, wf⟩ := ih admissible.1
    obtain ⟨src, runOther, wfOther⟩ := ihOther admissible.2.1
    obtain ⟨r, merged, wf'⟩ := dictMerge_wf enough wf wfOther (admissible.2.2 d src run runOther)
    refine ⟨r, ?_, wf'⟩
    simp only [History.run, run, runOther, merged, Option.bind_eq_bind, Option.bind_some]

/-- Along an admissible history the dictionary is the finite map of the writes and removals. -/
theorem History.run_represents {fuel : Nat} (enough : 2 ≤ fuel) (h : History V)
    (admissible : h.Admissible fuel) :
    ∃ d, h.run fuel = some d ∧ Represents d (h.meaning fuel) := by
  obtain ⟨d, run, wf⟩ := h.run_wf enough admissible
  exact ⟨d, run, wf.represents⟩

/-- A history that clears, writes and removes a key. -/
def clearedHistory : History Nat := .remove (.write (.clear (.dict 8)) (.int 1) 10) (.int 1)

/-- What it leaves: one slot given up among slots that were cleared. -/
def clearedDict : Dict Nat where
  count := 0
  slots := (List.replicate 8 (.free .cleared)).set 1 .removed

theorem clearedHistory_run : clearedHistory.run 2 = some clearedDict := by
  decide

/-- The runtime writes the key given up again, and nothing is buried. -/
theorem clearedHistory_represents :
    ∃ d, (History.writeFast clearedHistory (.int 1) 20).run 2 = some d ∧
      Represents d ((History.writeFast clearedHistory (.int 1) 20).meaning 2) := by
  refine (History.writeFast clearedHistory (.int 1) 20).run_represents (by decide) ⟨⟨?_, ?_⟩, ?_⟩
  · show (8 : Int) ≤ maxCap
    decide
  · intro d run
    have empty : (History.clear (.dict 8)).run 2 =
        some (⟨0, List.replicate 8 (.free .cleared)⟩ : Dict Nat) := by decide
    cases empty.symm.trans run
    decide
  · intro d run
    cases clearedHistory_run.symm.trans run
    refine ⟨by decide, ?_⟩
    rintro ⟨-, -, i, j, less, -, -, -, first⟩
    -- The search meets the slot given up at once.
    exact first 0 (by omega) (by decide)

/-- The runtime puts another key in the slot given up, where the library does not look for it. -/
theorem clearedHistory_buried :
    ∃ d, (History.writeFast clearedHistory (.int 2) 20).run 2 = some d ∧
      (History.writeFast clearedHistory (.int 2) 20).meaning 2 (.int 2) = some 20 ∧
      dictRead d (.int 2) 0 = 0 ∧
      ¬Represents d ((History.writeFast clearedHistory (.int 2) 20).meaning 2) := by
  have run : (History.writeFast clearedHistory (.int 2) 20).run 2 = some
      ⟨1, (List.replicate 8 (.free .cleared)).set 1 (.live (.int 2) 20)⟩ := by decide
  have read : dictRead (⟨1, (List.replicate 8 (.free .cleared)).set 1 (.live (.int 2) 20)⟩ : Dict Nat)
      (.int 2) 0 = 0 := by decide
  have written : (History.writeFast clearedHistory (.int 2) 20).meaning 2 (.int 2) = some 20 := rfl
  refine ⟨_, run, written, read, ?_⟩
  rintro ⟨reads, -⟩
  have wrong := reads (.int 2) 0
  rw [read, written] at wrong
  cases wrong

end Nytrix.Rt
