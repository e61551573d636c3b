import Nytrix.Rt.Dict

/-! Dictionaries are finite maps, as long as the runtime buries no entry behind a cleared slot. -/

namespace Nytrix.Rt

open Nytrix.Lib

theorem dictHashRaw_eq (key : Key) : dictHashRaw key = dictHash key := by
  cases key <;> rfl

/-- The slot where the search for a key starts. -/
def startOf (cap : Nat) (key : Key) : Nat := firstSlot (dictHash key) cap

theorem keyed (cap : Nat) : Keyed keyEq (startOf cap) where
  refl := by
    intro k
    cases k <;> simp [keyEq]
  symm := by
    intro k l
    cases k <;> cases l <;> first | rfl | exact decide_eq_decide.mpr eq_comm
  trans := by
    intro k l m first second
    cases k <;> cases l <;> cases m <;> simp_all [keyEq]
  start_eq := by
    intro k l equal
    have hash : dictHash k = dictHash l := by
      cases k <;> cases l <;> simp_all [keyEq, dictHash]
    rw [startOf, startOf, hash]

variable {V : Type}

/-- The dictionary is in order and holds the map. -/
structure Wf (d : Dict V) (map : Key → Option V) : Prop where
  power : ∃ k, d.cap = 2 ^ k
  chained : Chained keyEq (startOf d.cap) d.slots
  counted : d.count = d.slots.countP Slot.isLive
  half : 2 * d.count ≤ d.cap
  marks : ∃ mark, ∀ m, .free m ∈ d.slots → m = mark
  holds : Holds keyEq d.slots map

section Finding

variable {d : Dict V} {map : Key → Option V} {key : Key}

theorem Wf.cap_pos (wf : Wf d map) : 0 < d.cap := by
  obtain ⟨k, size⟩ := wf.power
  rw [size]
  exact Nat.two_pow_pos k

theorem Wf.next_eq (wf : Wf d map) (i : Nat) : nextSlot d.cap i = (i + 1) % d.slots.length := by
  obtain ⟨k, size⟩ := wf.power
  rw [nextSlot, size, Nat.and_two_pow_sub_one_eq_mod, ← size]
  rfl

theorem Wf.start_lt (wf : Wf d map) : startOf d.cap key < d.slots.length := by
  obtain ⟨k, size⟩ := wf.power
  rw [startOf, firstSlot, size, Nat.and_two_pow_sub_one_eq_mod, ← size]
  exact Nat.mod_lt _ wf.cap_pos

theorem Wf.findOff_outcome (wf : Wf d map) :
    Outcome Mark.isFalsy keyEq d.slots key (startOf d.cap key) (dictFindOff d key) := by
  rw [dictFindOff, if_neg (Nat.ne_of_gt wf.cap_pos)]
  exact search_outcome (fun i _ => wf.next_eq i) wf.start_lt

theorem Wf.findOffFast_outcome (wf : Wf d map) :
    Outcome Mark.isZero keyEq d.slots key (startOf d.cap key) (dictFindOffFast d key) := by
  rw [dictFindOffFast, if_neg (Nat.ne_of_gt wf.cap_pos), dictHashRaw_eq]
  exact search_outcome (fun i _ => wf.next_eq i) wf.start_lt

theorem Wf.find_present (wf : Wf d map) {value : V} (present : map key = some value) :
    ∃ (off : Nat) (k : Key), d.slots[off]? = some (.live k value) ∧ keyEq k key = true ∧
      dictFindOff d key = some off ∧ dictFindOffFast d key = some off := by
  obtain ⟨off, k, found, equal⟩ := (wf.holds key value).mp present
  exact ⟨off, k, found, equal,
    wf.findOff_outcome.eq_of_live (keyed d.cap) wf.chained found equal,
    wf.findOffFast_outcome.eq_of_live (keyed d.cap) wf.chained found equal⟩

theorem Wf.not_all_live (wf : Wf d map) : ∃ slot ∈ d.slots, slot.isLive = false := by
  by_contra none
  have all : d.slots.countP Slot.isLive = d.slots.length := by
    rw [List.countP_eq_length]
    intro slot member
    cases live : slot.isLive with
    | true => rfl
    | false => exact absurd ⟨slot, member, live⟩ none
  have half := wf.half
  have positive := wf.cap_pos
  rw [wf.counted, all] at half
  have same : d.slots.length = d.cap := rfl
  omega

theorem mem_of_full {stops : Mark → Bool} (wf : Wf d map)
    (passed : ∀ l < d.slots.length,
      Passes stops keyEq d.slots key (around d.slots.length (startOf d.cap key) l))
    (first : ∀ l < d.slots.length,
      d.slots[around d.slots.length (startOf d.cap key) l]? ≠ some .removed) :
    ∃ mark, stops mark = false ∧ .free mark ∈ d.slots := by
  obtain ⟨slot, member, unused⟩ := wf.not_all_live
  obtain ⟨i, at_i⟩ := List.mem_iff_getElem?.mp member
  have inside : i < d.slots.length := (List.getElem?_eq_some_iff.mp at_i).1
  obtain ⟨step, less, rfl⟩ := exists_around (startOf d.cap key) inside
  cases slot with
  | free mark => exact ⟨mark, (passed step less).1 mark at_i, member⟩
  | live k v => cases unused
  | removed => exact absurd at_i (first step less)

theorem isLive_eq_false {off : Nat}
    (slot : d.slots[off]? = some .removed ∨ ∃ mark, d.slots[off]? = some (.free mark)) :
    d.isLive off = false := by
  rcases slot with removed | ⟨mark, free⟩
  · rw [Dict.isLive, removed]
    rfl
  · rw [Dict.isLive, free]
    rfl

theorem Wf.find_absent (wf : Wf d map) (absent : map key = none) :
    ∃ off, dictFindOff d key = some off ∧ off < d.slots.length ∧ d.isLive off = false ∧
      Reached d.slots (startOf d.cap key) off := by
  have outcome : Outcome _ _ _ key _ (dictFindOff d key) := wf.findOff_outcome
  have unused := wf.holds.absent.mpr absent
  generalize dictFindOff d key = result at outcome
  cases outcome with
  | found within live equal =>
    rw [unused _ _ _ live] at equal
    cases equal
  | @room step stop within before stopped passed first slot =>
    refine ⟨_, rfl, Nat.mod_lt _ wf.cap_pos, isLive_eq_false ?_, step, within, rfl, ?_⟩
    · rcases slot with removed | rfl
      · exact .inl removed
      · rcases stopped with rfl | ⟨mark, -, free⟩
        · exact absurd within (Nat.lt_irrefl _)
        · exact .inr ⟨mark, free⟩
    · -- Every free slot stops this search, so none was passed.
      intro l less mark free
      have goes := (passed l (by omega)).1 mark free
      cases mark <;> cases goes
  | full passed first =>
    obtain ⟨mark, goes, -⟩ := mem_of_full wf passed first
    cases mark <;> cases goes

/-- The dictionary has no slot that was cleared. -/
def Fresh (d : Dict V) : Prop := .free .cleared ∉ d.slots

theorem Wf.findFast_absent (wf : Wf d map) (absent : map key = none) :
    (∃ step < d.slots.length, dictFindOffFast d key =
        some (around d.slots.length (startOf d.cap key) step) ∧
      d.isLive (around d.slots.length (startOf d.cap key) step) = false ∧
      (∀ l < step, d.slots[around d.slots.length (startOf d.cap key) l]? ≠ some (.free .zero) ∧
        d.slots[around d.slots.length (startOf d.cap key) l]? ≠ some .removed) ∧
      (d.slots[around d.slots.length (startOf d.cap key) step]? = some .removed ∨
        d.slots[around d.slots.length (startOf d.cap key) step]? = some (.free .zero))) ∨
    (dictFindOffFast d key = none ∧ ¬Fresh d) := by
  have outcome : Outcome _ _ _ key _ (dictFindOffFast d key) := wf.findOffFast_outcome
  have unused := wf.holds.absent.mpr absent
  generalize dictFindOffFast d key = result at outcome
  cases outcome with
  | found within live equal =>
    rw [unused _ _ _ live] at equal
    cases equal
  | @room step stop within before stopped passed first slot =>
    have ends : d.slots[around d.slots.length (startOf d.cap key) step]? = some .removed ∨
        d.slots[around d.slots.length (startOf d.cap key) step]? = some (.free .zero) := by
      rcases slot with removed | rfl
      · exact .inl removed
      · rcases stopped with rfl | ⟨mark, stopping, free⟩
        · exact absurd within (Nat.lt_irrefl _)
        · cases mark with
          | zero => exact .inr free
          | cleared => cases stopping
    refine .inl ⟨step, within, rfl, isLive_eq_false (ends.imp_right fun free => ⟨_, free⟩), ?_, ends⟩
    intro l less
    refine ⟨?_, first l less⟩
    intro free
    cases (passed l (by omega)).1 .zero free
  | full passed first =>
    obtain ⟨mark, goes, member⟩ := mem_of_full wf passed first
    refine .inr ⟨rfl, ?_⟩
    cases mark with
    | zero => cases goes
    | cleared => exact fun fresh => fresh member

end Finding

section Storing

variable {d : Dict V} {map : Key → Option V} {key k : Key} {value old : V} {off : Nat}

theorem countP_set_live {slots : List (Slot Mark Key V)} {before : Slot Mark Key V}
    (slot : Slot Mark Key V) (at_off : slots[off]? = some before) :
    (slots.set off slot).countP Slot.isLive + (if before.isLive then 1 else 0) =
      slots.countP Slot.isLive + if slot.isLive then 1 else 0 := by
  obtain ⟨inside, eq⟩ := List.getElem?_eq_some_iff.mp at_off
  rw [List.countP_set inside, eq]
  have positive : before.isLive = true → 0 < slots.countP Slot.isLive := by
    intro live
    exact List.countP_pos_iff.mpr ⟨before, List.mem_of_getElem? at_off, live⟩
  split
  · next live =>
    have := positive live
    omega
  · omega

theorem marks_set {slots : List (Slot Mark Key V)} {slot : Slot Mark Key V}
    (marks : ∃ mark, ∀ m, .free m ∈ slots → m = mark) (taken : ∀ m, slot ≠ .free m) :
    ∃ mark, ∀ m, .free m ∈ slots.set off slot → m = mark := by
  obtain ⟨mark, one⟩ := marks
  refine ⟨mark, fun m member => ?_⟩
  rcases List.mem_or_eq_of_mem_set member with before | new
  · exact one m before
  · exact absurd new.symm (taken m)

theorem Wf.store_present (wf : Wf d map) (value : V) (found : d.slots[off]? = some (.live k old))
    (equal : keyEq k key = true) :
    Wf (d.store off key value) (extend keyEq map key value) := by
  have stored : d.store off key value = { d with slots := d.slots.set off (.live k value) } := by
    rw [Dict.store, found]
  have cap : (d.store off key value).cap = d.cap := by
    rw [stored]
    exact List.length_set
  have live : (d.slots.set off (.live k value)).countP Slot.isLive + 1 =
      d.slots.countP Slot.isLive + 1 := countP_set_live (.live k value) found
  refine ⟨?_, ?_, ?_, ?_, ?_, ?_⟩
  · rw [cap]
    exact wf.power
  · rw [cap, stored]
    exact wf.chained.update found
  · rw [stored]
    show d.count = _
    rw [wf.counted]
    simp only
    omega
  · rw [cap, stored]
    exact wf.half
  · rw [stored]
    exact marks_set wf.marks (by simp)
  · rw [stored]
    exact wf.holds.update (keyed d.cap) wf.chained found equal

theorem Wf.store_absent (wf : Wf d map) (value : V) (absent : map key = none) (inside : off < d.slots.length)
    (unused : d.isLive off = false) (reached : Reached d.slots (startOf d.cap key) off)
    (room : 2 * (d.count + 1) ≤ d.cap) :
    Wf (d.store off key value) (extend keyEq map key value) := by
  obtain ⟨before, found, unused⟩ : ∃ before, d.slots[off]? = some before ∧ before.isLive = false := by
    have found := List.getElem?_eq_getElem inside
    rw [Dict.isLive, found] at unused
    exact ⟨_, found, unused⟩
  have stored : d.store off key value =
      { count := d.count + 1, slots := d.slots.set off (.live key value) } := by
    rw [Dict.store, found]
    cases before with
    | live k v => cases unused
    | free mark => rfl
    | removed => rfl
  have cap : (d.store off key value).cap = d.cap := by
    rw [stored]
    exact List.length_set
  have none := wf.holds.absent.mpr absent
  have live := countP_set_live (.live key value) found
  rw [unused] at live
  have live : (d.slots.set off (.live key value)).countP Slot.isLive =
    d.slots.countP Slot.isLive + 1 := live
  refine ⟨?_, ?_, ?_, ?_, ?_, ?_⟩
  · rw [cap]
    exact wf.power
  · rw [cap, stored]
    exact wf.chained.insert (keyed d.cap).symm none reached
  · rw [stored]
    show d.count + 1 = (((d.slots.set off (.live key value)).countP Slot.isLive : Nat) : Int)
    rw [wf.counted, live]
    omega
  · rw [cap, stored]
    exact room
  · rw [stored]
    exact marks_set wf.marks (by simp)
  · rw [stored]
    refine wf.holds.insert (keyed d.cap) none inside ?_
    intro l v at_off
    rw [found] at at_off
    cases at_off
    cases unused

theorem Wf.giveUp (wf : Wf d map) (found : d.slots[off]? = some (.live k old))
    (equal : keyEq k key = true) : Wf (d.giveUp off) (erase keyEq map key) := by
  have cap : (d.giveUp off).cap = d.cap := List.length_set
  have live : (d.slots.set off .removed).countP Slot.isLive + 1 = d.slots.countP Slot.isLive :=
    countP_set_live .removed found
  have counted := wf.counted
  have half := wf.half
  have less : (d.giveUp off).count = d.count - 1 := rfl
  refine ⟨?_, ?_, ?_, ?_, ?_, ?_⟩
  · rw [cap]
    exact wf.power
  · rw [cap]
    exact wf.chained.remove
  · rw [less, counted]
    show _ = (((d.slots.set off .removed).countP Slot.isLive : Nat) : Int)
    omega
  · rw [less, cap]
    omega
  · exact marks_set wf.marks (by simp)
  · exact wf.holds.remove (keyed d.cap) wf.chained found equal

theorem Dict.cap_store (d : Dict V) (off : Nat) (key : Key) (value : V) :
    (d.store off key value).cap = d.cap := by
  unfold Dict.store
  split
  · exact List.length_set
  · exact List.length_set

theorem Dict.count_store (d : Dict V) (off : Nat) (key : Key) (value : V) :
    (d.store off key value).count ≤ d.count + 1 := by
  unfold Dict.store
  split
  · show d.count ≤ _
    omega
  · exact Int.le_refl _

theorem Fresh.store (fresh : Fresh d) : Fresh (d.store off key value) := by
  unfold Dict.store
  split
  · intro member
    rcases List.mem_or_eq_of_mem_set member with before | new
    · exact fresh before
    · cases new
  · intro member
    rcases List.mem_or_eq_of_mem_set member with before | new
    · exact fresh before
    · cases new

end Storing

section Writing

variable {d nd : Dict V} {map : Key → Option V} {key : Key} {value : V}

theorem exists_of_ne_none (present : map key ≠ none) : ∃ old, map key = some old :=
  Option.ne_none_iff_exists'.mp present

theorem dictWrite_ready (fuel : Nat) (key : Key) (value : V) (wf : Wf d map)
    (ready : map key ≠ none ∨ 2 * (d.count + 1) ≤ d.cap) :
    ∃ off, dictWrite (fuel + 1) d key value =
        some (d.store off key value, d.store off key value) ∧
      Wf (d.store off key value) (extend keyEq map key value) := by
  by_cases absent : map key = none
  · obtain ⟨off, find, inside, unused, reached⟩ := wf.find_absent absent
    have room : 2 * (d.count + 1) ≤ d.cap := ready.resolve_left (not_not.mpr absent)
    refine ⟨off, ?_, wf.store_absent value absent inside unused reached room⟩
    rw [dictWrite, find]
    simp only [unused, Bool.false_eq_true, if_false]
    rw [if_neg (by omega)]
  · obtain ⟨old, present⟩ := exists_of_ne_none absent
    obtain ⟨off, k, found, equal, find, -⟩ := wf.find_present present
    refine ⟨off, ?_, wf.store_present value found equal⟩
    have live : d.isLive off = true := by
      rw [Dict.isLive, found]
      rfl
    rw [dictWrite, find]
    simp only [live, if_true]

theorem dictInsertNoResizeFast_ready (key : Key) (value : V) (wf : Wf d map) (fresh : Fresh d)
    (ready : map key ≠ none ∨ 2 * (d.count + 1) ≤ d.cap) :
    ∃ off, dictInsertNoResizeFast d key value = d.store off key value ∧
      Wf (d.store off key value) (extend keyEq map key value) := by
  by_cases absent : map key = none
  · have room : 2 * (d.count + 1) ≤ d.cap := ready.resolve_left (not_not.mpr absent)
    rcases wf.findFast_absent absent with ⟨step, within, find, unused, passed, -⟩ | ⟨-, stale⟩
    · refine ⟨around d.slots.length (startOf d.cap key) step,
        by rw [dictInsertNoResizeFast, find], wf.store_absent value absent
          (Nat.mod_lt _ wf.cap_pos) unused ⟨step, within, rfl, ?_⟩ room⟩
      intro l less mark free
      cases mark with
      | zero => exact (passed l less).1 free
      | cleared => exact fresh (List.mem_of_getElem? free)
    · exact absurd fresh stale
  · obtain ⟨old, present⟩ := exists_of_ne_none absent
    obtain ⟨off, k, found, equal, -, find⟩ := wf.find_present present
    exact ⟨off, by rw [dictInsertNoResizeFast, find], wf.store_present value found equal⟩

/-- A write that stores in place where there is room and keeps a property of the table. -/
def StoresReady (keeps : Dict V → Prop) (write : Dict V → Key → V → Option (Dict V)) : Prop :=
  ∀ {nd : Dict V} {map : Key → Option V} (key : Key) (value : V), Wf nd map → keeps nd →
    (map key ≠ none ∨ 2 * (nd.count + 1) ≤ nd.cap) →
    ∃ off, write nd key value = some (nd.store off key value) ∧
      Wf (nd.store off key value) (extend keyEq map key value) ∧ keeps (nd.store off key value)

theorem copyLive_ready {keeps : Dict V → Prop} {write : Dict V → Key → V → Option (Dict V)}
    (stores : StoresReady keeps write) {slots : List (Slot Mark Key V)} (wf : Wf nd map)
    (kept : keeps nd) (room : 2 * (nd.count + (entries slots).length) ≤ nd.cap) :
    ∃ nd', copyLive write slots nd = some nd' ∧
      Wf nd' ((entries slots).foldl (fun m e => extend keyEq m e.1 e.2) map) ∧ keeps nd' ∧
      nd'.cap = nd.cap ∧ nd'.count ≤ nd.count + (entries slots).length := by
  induction slots generalizing nd map with
  | nil => exact ⟨nd, rfl, wf, kept, rfl, by simp [entries]⟩
  | cons slot rest ih =>
    cases slot with
    | live k v =>
      have length : ((entries (.live k v :: rest)).length : Int) = (entries rest).length + 1 := by
        simp [entries, Slot.entry]
      obtain ⟨off, written, wf', kept'⟩ := stores k v wf kept (.inr (by omega))
      have count := Dict.count_store nd off k v
      have cap := Dict.cap_store nd off k v
      obtain ⟨nd', copied, wf'', kept'', same, bound⟩ := ih wf' kept' (by omega)
      refine ⟨nd', ?_, wf'', kept'', same.trans cap, by omega⟩
      simp only [copyLive, written, Option.bind_eq_bind, Option.bind_some]
      exact copied
    | free mark => exact ih wf kept room
    | removed => exact ih wf kept room

theorem storesReady_dictWrite (fuel : Nat) :
    StoresReady (V := V) (fun _ => True) fun nd k v => (dictWrite (fuel + 1) nd k v).map Prod.fst := by
  intro nd map key value wf _ ready
  obtain ⟨off, written, wf'⟩ := dictWrite_ready fuel key value wf ready
  exact ⟨off, by simp only [written, Option.map_some], wf', trivial⟩

theorem storesReady_insertFast :
    StoresReady (V := V) Fresh fun nd k v => some (dictInsertNoResizeFast nd k v) := by
  intro nd map key value wf fresh ready
  obtain ⟨off, written, wf'⟩ := dictInsertNoResizeFast_ready key value wf fresh ready
  exact ⟨off, congrArg some written, wf', fresh.store⟩

theorem dictNew_wf {cap : Nat} (power : ∃ k, cap = 2 ^ k) (small : cap ≤ maxCap) :
    ∃ nd : Dict V, dictNew cap = some nd ∧ Wf nd (fun _ => none) ∧ Fresh nd ∧ nd.cap = cap ∧
      nd.count = 0 := by
  have free : ∀ slot ∈ List.replicate cap (Slot.free (K := Key) (V := V) Mark.zero),
      slot = .free .zero := by
    intro slot member
    exact List.eq_of_mem_replicate member
  have unused : ∀ slot ∈ List.replicate cap (Slot.free (K := Key) (V := V) Mark.zero),
      slot.isLive = false := by
    intro slot member
    rw [free slot member]
    rfl
  have length : (List.replicate cap (Slot.free (K := Key) (V := V) Mark.zero)).length = cap :=
    List.length_replicate
  refine ⟨⟨0, List.replicate cap (.free .zero)⟩, if_pos small, ⟨?_, ?_, ?_, ?_, ?_, ?_⟩, ?_, length,
    rfl⟩
  · rw [Dict.cap, length]
    exact power
  · exact .of_free unused
  · show (0 : Int) = ((List.replicate cap _).countP Slot.isLive : Nat)
    rw [List.countP_eq_zero.mpr]
    · rfl
    · intro slot member
      rw [unused slot member]
      decide
  · show 2 * (0 : Int) ≤ _
    omega
  · refine ⟨.zero, ?_⟩
    intro m member
    cases free _ member
    rfl
  · exact .of_free unused
  · intro member
    cases free _ member

theorem grownCap_room (wf : Wf d map) :
    (∃ k, grownCap d.cap = 2 ^ k) ∧ 2 * (d.count + 1) ≤ grownCap d.cap := by
  obtain ⟨k, size⟩ := wf.power
  have half := wf.half
  unfold grownCap
  split
  · next few =>
    refine ⟨⟨3, rfl⟩, ?_⟩
    -- A table of fewer than eight slots has one, two or four.
    have three : k < 3 := by
      rw [size, show 8 = 2 ^ 3 from rfl] at few
      exact (Nat.pow_lt_pow_iff_right (show 1 < 2 by decide)).mp few
    have most : d.cap ≤ 4 := by
      rw [size]
      exact Nat.pow_le_pow_right (show 0 < 2 by decide) (show k ≤ 2 by omega)
    omega
  · exact ⟨⟨k + 1, by rw [size, Nat.pow_succ]⟩, by omega⟩

theorem grownCap_le (wf : Wf d map) (below : d.cap < maxCap) : grownCap d.cap ≤ maxCap := by
  obtain ⟨k, size⟩ := wf.power
  unfold grownCap
  split
  · decide
  · rw [size, maxCap] at below
    have less := (Nat.pow_lt_pow_iff_right (show 1 < 2 by decide)).mp below
    rw [size, ← Nat.pow_succ, maxCap]
    exact Nat.pow_le_pow_right (by decide) less

theorem copyLive_new {keeps : Dict V → Prop} {write : Dict V → Key → V → Option (Dict V)}
    (stores : StoresReady keeps write) (wf : Wf d map) {empty : Dict V}
    (new : Wf empty fun _ => none) (none : empty.count = 0) (kept : keeps empty)
    (room : 2 * d.count ≤ empty.cap) :
    ∃ nd, copyLive write d.slots empty = some nd ∧ Wf nd map ∧ keeps nd ∧ nd.cap = empty.cap ∧
      nd.count ≤ d.count := by
  have live : ((entries d.slots).length : Int) = d.count := by
    rw [length_entries, wf.counted]
  have fits : 2 * (empty.count + (entries d.slots).length) ≤ empty.cap := by
    rw [none, live, Int.zero_add]
    exact room
  obtain ⟨nd, copied, wf', kept', cap, bound⟩ := copyLive_ready stores new kept fits
  rw [wf.holds.foldl_entries (keyed d.cap) wf.chained] at wf'
  simp only [Option.or_none] at wf'
  exact ⟨nd, copied, wf', kept', cap, by omega⟩

theorem dictWrite_wf {fuel : Nat} (enough : 2 ≤ fuel) (wf : Wf d map) (small : d.count < 2 ^ 55)
    (key : Key) (value : V) :
    ∃ d' r, dictWrite fuel d key value = some (d', r) ∧ Wf r (extend keyEq map key value) ∧
      r.count ≤ d.count + 1 := by
  obtain ⟨fuel, rfl⟩ := Nat.exists_eq_add_of_le enough
  rw [Nat.add_comm 2 fuel]
  by_cases ready : map key ≠ none ∨ 2 * (d.count + 1) ≤ d.cap
  · obtain ⟨off, written, wf'⟩ := dictWrite_ready (fuel + 1) key value wf ready
    exact ⟨_, _, written, wf', Dict.count_store d off key value⟩
  · rw [not_or, not_not] at ready
    obtain ⟨absent, tight⟩ := ready
    obtain ⟨power, room⟩ := grownCap_room wf
    have below : d.cap < maxCap := by
      rw [maxCap]
      omega
    obtain ⟨empty, made, new, -, cap, none⟩ := dictNew_wf (V := V) power (grownCap_le wf below)
    obtain ⟨nd, copied, wf', -, cap', bound⟩ :=
      copyLive_new (storesReady_dictWrite fuel) wf new none trivial (by omega)
    obtain ⟨off, written, wf''⟩ := dictWrite_ready fuel key value wf' (.inr (by omega))
    have count := Dict.count_store nd off key value
    refine ⟨d, _, ?_, wf'', by omega⟩
    obtain ⟨at_off, find, -, unused, -⟩ := wf.find_absent absent
    rw [dictWrite, find]
    simp only [unused, Bool.false_eq_true, if_false, if_pos (show (d.cap : Int) < (d.count + 1) * 2
      by omega), made, copied, written, Option.bind_eq_bind, Option.bind_some, Option.pure_def]

theorem dictCopyFast_wf (wf : Wf d map) {cap : Nat} (power : ∃ k, cap = 2 ^ k)
    (small : cap ≤ maxCap) (room : 2 * d.count ≤ cap) :
    ∃ nd, dictCopyFast d cap = some nd ∧ Wf nd map ∧ Fresh nd ∧ nd.cap = cap ∧
      nd.count ≤ d.count := by
  have positive : ¬cap < 1 := by
    obtain ⟨k, rfl⟩ := power
    exact Nat.not_lt.mpr (Nat.two_pow_pos k)
  obtain ⟨empty, made, new, fresh, size, none⟩ := dictNew_wf (V := V) power small
  obtain ⟨nd, copied, wf', fresh', cap', bound⟩ :=
    copyLive_new storesReady_insertFast wf new none fresh (by omega)
  refine ⟨nd, ?_, wf', fresh', by omega, bound⟩
  simp only [dictCopyFast, if_neg positive, made, Option.bind_eq_bind, Option.bind_some]
  exact copied

/--
The runtime would put a new key behind a slot that was cleared.

The library takes that slot for empty and does not look further, but the runtime passes it on its
way to the first slot that was given up.
-/
def Buries (d : Dict V) (key : Key) : Prop :=
  Absent keyEq d.slots key ∧ 2 * (d.count + 1) ≤ d.cap ∧
    ∃ i j : Nat, i < j ∧ j < d.cap ∧
      d.slots[around d.cap (startOf d.cap key) i]? = some (.free .cleared) ∧
      d.slots[around d.cap (startOf d.cap key) j]? = some .removed ∧
      ∀ l < j, d.slots[around d.cap (startOf d.cap key) l]? ≠ some .removed

theorem reached_of_not_buries (wf : Wf d map) (absent : map key = none)
    (room : 2 * (d.count + 1) ≤ d.cap) (seen : ¬Buries d key) {step : Nat}
    (within : step < d.slots.length)
    (passed : ∀ l < step,
      d.slots[around d.slots.length (startOf d.cap key) l]? ≠ some (.free .zero) ∧
      d.slots[around d.slots.length (startOf d.cap key) l]? ≠ some .removed)
    (ends : d.slots[around d.slots.length (startOf d.cap key) step]? = some .removed ∨
      d.slots[around d.slots.length (startOf d.cap key) step]? = some (.free .zero)) :
    Reached d.slots (startOf d.cap key) (around d.slots.length (startOf d.cap key) step) := by
  refine ⟨step, within, rfl, ?_⟩
  intro l less mark free
  cases mark with
  | zero => exact (passed l less).1 free
  | cleared =>
    rcases ends with removed | zero
    · exact seen ⟨wf.holds.absent.mpr absent, room, l, step, less, within, free, removed,
        fun l less => (passed l less).2⟩
    · -- Free slots are all of one kind.
      obtain ⟨mark, one⟩ := wf.marks
      have first := one _ (List.mem_of_getElem? free)
      have second := one _ (List.mem_of_getElem? zero)
      rw [← first] at second
      cases second

theorem dictWriteFast_wf (wf : Wf d map) (below : d.cap < maxCap) (key : Key) (value : V)
    (seen : ¬Buries d key) :
    ∃ r, dictWriteFast d key value = some r ∧ Wf r (extend keyEq map key value) := by
  have some_slot : d.cap ≠ 0 := Nat.ne_of_gt wf.cap_pos
  by_cases absent : map key = none
  · -- A new key goes to a larger table, or to the slot the search gave.
    obtain ⟨power, room⟩ := grownCap_room wf
    obtain ⟨nd, copied, wf', fresh, cap, bound⟩ :=
      dictCopyFast_wf wf power (grownCap_le wf below) (by omega)
    obtain ⟨off, written, wf''⟩ :=
      dictInsertNoResizeFast_ready key value wf' fresh (.inr (by omega))
    rw [← written] at wf''
    rcases wf.findFast_absent absent with ⟨step, within, find, unused, passed, ends⟩ | ⟨find, -⟩
    · by_cases tight : (d.cap : Int) < (d.count + 1) * 2
      · refine ⟨_, ?_, wf''⟩
        simp only [dictWriteFast, if_neg some_slot, find, unused, Bool.false_eq_true, if_false,
          if_pos tight, copied, Option.bind_eq_bind, Option.bind_some, Option.pure_def]
      · have reached := reached_of_not_buries wf absent (by omega) seen within passed ends
        refine ⟨d.store (around d.slots.length (startOf d.cap key) step) key value, ?_,
          wf.store_absent value absent (Nat.mod_lt _ wf.cap_pos) unused reached (by omega)⟩
        simp only [dictWriteFast, if_neg some_slot, find, unused, Bool.false_eq_true, if_false,
          if_neg tight]
    · refine ⟨_, ?_, wf''⟩
      simp only [dictWriteFast, if_neg some_slot, find, copied, Option.bind_eq_bind,
        Option.bind_some, Option.pure_def]
  · obtain ⟨old, present⟩ := exists_of_ne_none absent
    obtain ⟨off, k, found, equal, -, find⟩ := wf.find_present present
    have live : d.isLive off = true := by
      rw [Dict.isLive, found]
      rfl
    refine ⟨d.store off key value, ?_, wf.store_present value found equal⟩
    simp only [dictWriteFast, if_neg some_slot, find, live, if_true]

theorem wantCapLoop_power (least : Int) (small : least ≤ 2 ^ 57) :
    ∀ fuel k, 57 ≤ k + fuel → ∃ j, wantCapLoop fuel (2 ^ k) least = 2 ^ j ∧ least ≤ 2 ^ j ∧
      (j = k ∨ (2 : Int) ^ j < 2 * least) := by
  intro fuel
  induction fuel with
  | zero =>
    intro k enough
    have far : (2 : Int) ^ 57 ≤ 2 ^ k := by
      exact_mod_cast Nat.pow_le_pow_right (show 0 < 2 by decide) (show 57 ≤ k by omega)
    exact ⟨k, rfl, by omega, .inl rfl⟩
  | succ fuel ih =>
    intro k enough
    unfold wantCapLoop
    split
    · next more =>
      rw [Bool.and_eq_true, decide_eq_true_eq, decide_eq_true_eq] at more
      obtain ⟨j, result, reached, stops⟩ := ih (k + 1) (by omega)
      rw [← Int.pow_succ]
      refine ⟨j, result, reached, .inr ?_⟩
      rcases stops with rfl | stops
      · rw [Int.pow_succ]
        omega
      · exact stops
    · next done =>
      rw [Bool.and_eq_true, decide_eq_true_eq, decide_eq_true_eq, int64Max] at done
      exact ⟨k, rfl, by omega, .inl rfl⟩

theorem dictReserve_wf (wf : Wf d map) {additional : Int}
    (small : d.count + additional ≤ 2 ^ 55) :
    ∃ r, dictReserve d additional = some r ∧ Wf r map := by
  unfold dictReserve
  split
  · exact ⟨d, rfl, wf⟩
  · next more =>
    have counted := wf.counted
    have min : (if int64Max / 2 < d.count + additional then int64Max
        else (d.count + additional) * 2) = (d.count + additional) * 2 := by
      rw [if_neg]
      rw [int64Max]
      omega
    obtain ⟨j, result, reached, stops⟩ :=
      wantCapLoop_power ((d.count + additional) * 2) (by omega) 60 3 (by decide)
    have result : wantCapLoop 60 8 ((d.count + additional) * 2) = 2 ^ j := result
    simp only [min, result]
    split
    · exact ⟨d, rfl, wf⟩
    · have nat : ((2 : Int) ^ j).toNat = 2 ^ j := by
        rw [Int.toNat_pow_of_nonneg (by decide)]
        rfl
      have cast : ((2 ^ j : Nat) : Int) = 2 ^ j := by norm_cast
      have below : 2 ^ j ≤ maxCap := by
        rw [maxCap]
        rcases stops with rfl | stops
        · decide
        · omega
      obtain ⟨nd, copied, wf', -⟩ := dictCopyFast_wf wf ⟨j, rfl⟩ below (by omega)
      rw [nat]
      exact ⟨nd, copied, wf'⟩

theorem copyLive_write {fuel : Nat} (enough : 2 ≤ fuel) (slots : List (Slot Mark Key V))
    (wf : Wf nd map) (small : nd.count + (entries slots).length ≤ 2 ^ 55) :
    ∃ r, copyLive (fun nd k v => (dictWrite fuel nd k v).map Prod.snd) slots nd = some r ∧
      Wf r ((entries slots).foldl (fun m e => extend keyEq m e.1 e.2) map) := by
  induction slots generalizing nd map with
  | nil => exact ⟨nd, rfl, wf⟩
  | cons slot rest ih =>
    cases slot with
    | live k v =>
      have length : ((entries (.live k v :: rest)).length : Int) = (entries rest).length + 1 := by
        simp [entries, Slot.entry]
      obtain ⟨d', r, written, wf', bound⟩ := dictWrite_wf enough wf (by omega) k v
      obtain ⟨r', copied, wf''⟩ := ih wf' (by omega)
      refine ⟨r', ?_, wf''⟩
      simp only [copyLive, written, Option.map_some, Option.bind_eq_bind, Option.bind_some]
      exact copied
    | free mark => exact ih wf small
    | removed => exact ih wf small

theorem dictMerge_wf {fuel : Nat} (enough : 2 ≤ fuel) (wf : Wf d map) {src : Dict V}
    {added : Key → Option V} (other : Wf src added) (small : d.count + src.count ≤ 2 ^ 55) :
    ∃ r, dictMerge fuel d src = some r ∧ Wf r fun key => (added key).or (map key) := by
  have live : ((entries src.slots).length : Int) = src.count := by
    rw [length_entries, other.counted]
  obtain ⟨r, merged, wf'⟩ := copyLive_write enough src.slots wf (by omega)
  rw [other.holds.foldl_entries (keyed src.cap) other.chained] at wf'
  exact ⟨r, merged, wf'⟩

theorem dictRemove_wf (wf : Wf d map) (key : Key) : Wf (dictRemove d key) (erase keyEq map key) := by
  unfold dictRemove
  by_cases absent : map key = none
  · obtain ⟨off, find, -, unused, -⟩ := wf.find_absent absent
    have same := wf.holds.erase_absent (keyed d.cap) absent
    simp only [find, unused, Bool.false_eq_true, if_false, same]
    exact wf
  · obtain ⟨old, present⟩ := exists_of_ne_none absent
    obtain ⟨off, k, found, equal, find, -⟩ := wf.find_present present
    have live : d.isLive off = true := by
      rw [Dict.isLive, found]
      rfl
    simp only [find, live, if_true]
    exact wf.giveUp found equal

theorem dictPop_wf (wf : Wf d map) (key : Key) (default : V) :
    (dictPop d key default).1 = (map key).getD default ∧
      Wf (dictPop d key default).2 (erase keyEq map key) := by
  unfold dictPop
  by_cases absent : map key = none
  · obtain ⟨off, find, inside, unused, -⟩ := wf.find_absent absent
    rw [Dict.isLive, List.getElem?_eq_getElem inside] at unused
    rw [absent, wf.holds.erase_absent (keyed d.cap) absent, find]
    simp only [List.getElem?_eq_getElem inside]
    cases at_off : d.slots[off] with
    | live k v =>
      rw [at_off] at unused
      cases unused
    | free mark => exact ⟨rfl, wf⟩
    | removed => exact ⟨rfl, wf⟩
  · obtain ⟨old, present⟩ := exists_of_ne_none absent
    obtain ⟨off, k, found, equal, find, -⟩ := wf.find_present present
    simp only [find, found, present]
    exact ⟨rfl, wf.giveUp found equal⟩

theorem popItemLoop_cases (d : Dict V) (i : Nat) :
    (popItemLoop d i = (none, d) ∧ ∀ j < i, ∀ k v, d.slots[j]? ≠ some (.live k v)) ∨
    ∃ j k v, d.slots[j]? = some (.live k v) ∧ popItemLoop d i = (some (k, v), d.giveUp j) := by
  induction i with
  | zero => exact .inl ⟨rfl, fun j less => absurd less (Nat.not_lt_zero j)⟩
  | succ i ih =>
    unfold popItemLoop
    split
    · next k v found => exact .inr ⟨i, k, v, found, rfl⟩
    · next other =>
      rcases ih with ⟨done, none⟩ | found
      · refine .inl ⟨done, ?_⟩
        intro j less k v at_j
        rcases Nat.lt_succ_iff_lt_or_eq.mp less with before | rfl
        · exact none j before k v at_j
        · exact other k v at_j
      · exact .inr found

theorem dictPopItem_wf (wf : Wf d map) :
    match (dictPopItem d).1 with
    | none => (map = fun _ => none) ∧ Wf (dictPopItem d).2 map
    | some (k, v) => map k = some v ∧ Wf (dictPopItem d).2 (erase keyEq map k) := by
  rcases popItemLoop_cases d d.cap with ⟨done, none⟩ | ⟨j, k, v, found, done⟩
  · rw [dictPopItem, done]
    refine ⟨?_, wf⟩
    funext key
    apply wf.holds.absent.mp
    intro i l w at_i
    exact absurd at_i (none i (List.getElem?_eq_some_iff.mp at_i).1 l w)
  · rw [dictPopItem, done]
    exact ⟨(wf.holds k v).mpr ⟨j, k, found, (keyed d.cap).refl k⟩,
      wf.giveUp found ((keyed d.cap).refl k)⟩

theorem dictClear_wf (wf : Wf d map) : Wf (dictClear d) fun _ => none := by
  have cap : (dictClear d).cap = d.cap := List.length_map _
  have all : ∀ slot ∈ (dictClear d).slots, slot = .free .cleared := by
    intro slot member
    obtain ⟨before, -, rfl⟩ := List.mem_map.mp member
    rfl
  have unused : ∀ slot ∈ (dictClear d).slots, slot.isLive = false := by
    intro slot member
    rw [all slot member]
    rfl
  refine ⟨?_, .of_free unused, ?_, ?_, ?_, .of_free unused⟩
  · rw [cap]
    exact wf.power
  · show (0 : Int) = ((dictClear d).slots.countP Slot.isLive : Nat)
    rw [List.countP_eq_zero.mpr]
    · rfl
    · intro slot member
      rw [unused slot member]
      decide
  · show 2 * (0 : Int) ≤ _
    omega
  · refine ⟨.cleared, ?_⟩
    intro m member
    cases all _ member
    rfl

theorem pow2Loop_power {n : Int} (small : n ≤ maxCap) :
    ∀ fuel k, 57 < k + fuel → k ≤ 57 → ∃ j ≤ 57, pow2Loop fuel (2 ^ k) n = some (2 ^ j) := by
  intro fuel
  induction fuel with
  | zero =>
    intro k enough inside
    omega
  | succ fuel ih =>
    intro k enough inside
    unfold pow2Loop
    split
    · next more =>
      have cast : (((2 ^ k : Nat)) : Int) < ((2 ^ 57 : Nat) : Int) := by
        rw [maxCap] at small
        omega
      have less : k < 57 :=
        (Nat.pow_lt_pow_iff_right (show 1 < 2 by decide)).mp (Int.ofNat_lt.mp cast)
      obtain ⟨j, bound, result⟩ := ih (k + 1) (by omega) (by omega)
      refine ⟨j, bound, ?_⟩
      rw [Nat.mul_comm, ← Nat.pow_succ]
      exact result
    · exact ⟨k, inside, rfl⟩

theorem dict_wf {cap : Int} (small : cap ≤ maxCap) :
    ∃ d : Dict V, dict cap = some d ∧ Wf d fun _ => none := by
  obtain ⟨j, bound, result⟩ := pow2Loop_power small 62 0 (by decide) (by decide)
  have below : 2 ^ j ≤ maxCap := Nat.pow_le_pow_right (by decide) bound
  obtain ⟨d, made, wf, -⟩ := dictNew_wf (V := V) ⟨j, rfl⟩ below
  refine ⟨d, ?_, wf⟩
  rw [dict, pow2, show (1 : Nat) = 2 ^ 0 from rfl, result]
  exact made

end Writing

end Nytrix.Rt
