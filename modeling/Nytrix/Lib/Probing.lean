import Mathlib.Data.List.Basic

/-! Tables with open addressing: slots, probe order, and what keeps every entry in reach. -/

namespace Nytrix.Lib

/-- A slot of a table, free with a mark, in use, or given up. -/
inductive Slot (E K V : Type) where
  | free (mark : E)
  | live (key : K) (value : V)
  | removed
  deriving DecidableEq

variable {E K V : Type}

/-- Whether the slot is in use. -/
def Slot.isLive : Slot E K V → Bool
  | .live _ _ => true
  | _ => false

/-- The entry of a slot in use. -/
def Slot.entry : Slot E K V → Option (K × V)
  | .live key value => some (key, value)
  | _ => none

/-- The entries of a table, in the order of its slots. -/
def entries (slots : List (Slot E K V)) : List (K × V) := slots.filterMap Slot.entry

/-- The position that is so many steps from a start, around the table. -/
def around (size start step : Nat) : Nat := (start + step) % size

theorem exists_around {size position : Nat} (start : Nat) (inside : position < size) :
    ∃ step < size, around size start step = position := by
  have start_lt : start % size < size := Nat.mod_lt _ (by omega)
  unfold around
  rcases Nat.lt_or_ge position (start % size) with before | after
  · refine ⟨size + position - start % size, by omega, ?_⟩
    rw [Nat.add_mod, Nat.mod_eq_of_lt (show size + position - start % size < size by omega),
      show start % size + (size + position - start % size) = position + size by omega,
      Nat.add_mod_right, Nat.mod_eq_of_lt inside]
  · refine ⟨position - start % size, by omega, ?_⟩
    rw [Nat.add_mod, Nat.mod_eq_of_lt (show position - start % size < size by omega),
      show start % size + (position - start % size) = position by omega,
      Nat.mod_eq_of_lt inside]

/-- The slot is not a free one. -/
def Taken (slots : List (Slot E K V)) (position : Nat) : Prop :=
  ∀ mark, slots[position]? ≠ some (.free mark)

/-- The position is reached from the start over slots that are not free. -/
def Reached (slots : List (Slot E K V)) (start position : Nat) : Prop :=
  ∃ steps < slots.length, around slots.length start steps = position ∧
    ∀ step < steps, Taken slots (around slots.length start step)

/-- A table in which no two entries have the same key and every entry is in reach of its start. -/
structure Chained (same : K → K → Bool) (start : K → Nat) (slots : List (Slot E K V)) : Prop where
  unique : ∀ {i j : Nat} {k l : K} {v w : V}, slots[i]? = some (.live k v) →
    slots[j]? = some (.live l w) → same k l = true → i = j
  reached : ∀ {i : Nat} {k : K} {v : V}, slots[i]? = some (.live k v) → Reached slots (start k) i

/-- The table maps the key to the value. -/
def Maps (same : K → K → Bool) (slots : List (Slot E K V)) (key : K) (value : V) : Prop :=
  ∃ (i : Nat) (k : K), slots[i]? = some (.live k value) ∧ same k key = true

/-- No slot in use has the key. -/
def Absent (same : K → K → Bool) (slots : List (Slot E K V)) (key : K) : Prop :=
  ∀ (i : Nat) (k : K) (v : V), slots[i]? = some (.live k v) → same k key = false

section Updates

variable {same : K → K → Bool} {start : K → Nat} {slots : List (Slot E K V)} {i : Nat} {key : K}
  {value : V}

theorem getElem?_set_cases {slot found : Slot E K V} {j : Nat}
    (at_j : (slots.set i slot)[j]? = some found) :
    (j = i ∧ found = slot) ∨ (j ≠ i ∧ slots[j]? = some found) := by
  rw [List.getElem?_set] at at_j
  split at at_j
  · next same =>
    split at at_j
    · exact .inl ⟨same.symm, (Option.some.inj at_j).symm⟩
    · cases at_j
  · next other => exact .inr ⟨fun eq => other eq.symm, at_j⟩

theorem Reached.set {slot : Slot E K V} {from_ j : Nat} (reached : Reached slots from_ j)
    (taken : ∀ mark, slot ≠ .free mark) : Reached (slots.set i slot) from_ j := by
  obtain ⟨steps, within, at_j, before⟩ := reached
  refine ⟨steps, by rwa [List.length_set], by rwa [List.length_set], ?_⟩
  intro step less mark found
  rw [List.length_set] at found
  rcases getElem?_set_cases found with ⟨-, eq⟩ | ⟨-, old⟩
  · exact taken mark eq.symm
  · exact before step less mark old

theorem Chained.insert (chained : Chained same start slots)
    (symm : ∀ k l, same k l = same l k) (absent : Absent same slots key)
    (reached : Reached slots (start key) i) :
    Chained same start (slots.set i (.live key value)) where
  unique := by
    intro a b k l v w at_a at_b equal
    rcases getElem?_set_cases at_a with ⟨rfl, new⟩ | ⟨-, oldA⟩
    · cases new
      rcases getElem?_set_cases at_b with ⟨rfl, -⟩ | ⟨-, oldB⟩
      · rfl
      · rw [symm, absent b l w oldB] at equal
        cases equal
    · rcases getElem?_set_cases at_b with ⟨rfl, new⟩ | ⟨-, oldB⟩
      · cases new
        rw [absent a k v oldA] at equal
        cases equal
      · exact chained.unique oldA oldB equal
  reached := by
    intro a k v at_a
    rcases getElem?_set_cases at_a with ⟨rfl, new⟩ | ⟨-, old⟩
    · cases new
      exact reached.set (by simp)
    · exact (chained.reached old).set (by simp)

theorem Chained.update (chained : Chained same start slots) {old : V}
    (found : slots[i]? = some (.live key old)) :
    Chained same start (slots.set i (.live key value)) where
  unique := by
    intro a b k l v w at_a at_b equal
    -- The keys are where they were.
    have before {c : Nat} {m : K} {x : V}
        (at_c : (slots.set i (.live key value))[c]? = some (.live m x)) :
        ∃ y, slots[c]? = some (.live m y) := by
      rcases getElem?_set_cases at_c with ⟨rfl, new⟩ | ⟨-, same⟩
      · cases new
        exact ⟨old, found⟩
      · exact ⟨x, same⟩
    obtain ⟨v, oldA⟩ := before at_a
    obtain ⟨w, oldB⟩ := before at_b
    exact chained.unique oldA oldB equal
  reached := by
    intro a k v at_a
    rcases getElem?_set_cases at_a with ⟨rfl, new⟩ | ⟨-, old⟩
    · cases new
      exact (chained.reached found).set (by simp)
    · exact (chained.reached old).set (by simp)

theorem Chained.remove (chained : Chained same start slots) :
    Chained same start (slots.set i .removed) where
  unique := by
    intro a b k l v w at_a at_b equal
    rcases getElem?_set_cases at_a with ⟨-, new⟩ | ⟨-, oldA⟩
    · cases new
    · rcases getElem?_set_cases at_b with ⟨-, new⟩ | ⟨-, oldB⟩
      · cases new
      · exact chained.unique oldA oldB equal
  reached := by
    intro a k v at_a
    rcases getElem?_set_cases at_a with ⟨-, new⟩ | ⟨-, old⟩
    · cases new
    · exact (chained.reached old).set (by simp)

theorem Chained.of_free (free : ∀ slot ∈ slots, slot.isLive = false) :
    Chained same start slots where
  unique := by
    intro a b k l v w at_a _ _
    cases free _ (List.mem_of_getElem? at_a)
  reached := by
    intro a k v at_a
    cases free _ (List.mem_of_getElem? at_a)

end Updates

section Search

variable (stops : E → Bool) (same : K → K → Bool) (next : Nat → Nat) (slots : List (Slot E K V))
  (key : K)

/--
The search for a key along the probe order, with the first slot given up on the way.

It ends at the key, at a free slot that stops it, or after the given number of slots.
-/
def search : Nat → Nat → Option Nat → Option Nat
  | 0, _, given => given
  | count + 1, i, given =>
    match slots[i]? with
    | some (.free mark) =>
      if stops mark then some (given.getD i) else search count (next i) given
    | some (.live k _) => if same k key then some i else search count (next i) given
    | some .removed => search count (next i) (some (given.getD i))
    | none => none

/-- The search goes on after the slot. -/
def Passes (i : Nat) : Prop :=
  (∀ mark, slots[i]? = some (.free mark) → stops mark = false) ∧
    ∀ (k : K) (v : V), slots[i]? = some (.live k v) → same k key = false

/-- What a search from a start can end with. -/
inductive Outcome (start : Nat) : Option Nat → Prop
  /-- The key was found. -/
  | found {step : Nat} {k : K} {v : V} (within : step < slots.length)
    (live : slots[around slots.length start step]? = some (.live k v)) (equal : same k key = true) :
    Outcome start (some (around slots.length start step))
  /-- The key was not found before the end, and there is room for it. -/
  | room {step stop : Nat} (within : step < slots.length) (before : step ≤ stop)
    (stopped : stop = slots.length ∨
      ∃ mark, stops mark = true ∧ slots[around slots.length start stop]? = some (.free mark))
    (passed : ∀ l < stop, Passes stops same slots key (around slots.length start l))
    (first : ∀ l < step, slots[around slots.length start l]? ≠ some .removed)
    (slot : slots[around slots.length start step]? = some .removed ∨ step = stop) :
    Outcome start (some (around slots.length start step))
  /-- The key was not found, and there is no room for it. -/
  | full (passed : ∀ l < slots.length, Passes stops same slots key (around slots.length start l))
    (first : ∀ l < slots.length, slots[around slots.length start l]? ≠ some .removed) :
    Outcome start none

variable {stops same next slots key}

/-- What the search keeps about the slot it will fall back to. -/
def Given (slots : List (Slot E K V)) (start seen : Nat) : Option Nat → Prop
  | none => ∀ l < seen, slots[around slots.length start l]? ≠ some .removed
  | some i => ∃ step < seen, around slots.length start step = i ∧ slots[i]? = some .removed ∧
    ∀ l < step, slots[around slots.length start l]? ≠ some .removed

theorem Given.pass {start seen : Nat} {given : Option Nat} (known : Given slots start seen given)
    (other : slots[around slots.length start seen]? ≠ some .removed) :
    Given slots start (seen + 1) given := by
  cases given with
  | none =>
    intro l less
    rcases Nat.lt_succ_iff_lt_or_eq.mp less with before | rfl
    · exact known l before
    · exact other
  | some i =>
    obtain ⟨step, less, rest⟩ := known
    exact ⟨step, by omega, rest⟩

theorem Given.take {start seen : Nat} {given : Option Nat} (known : Given slots start seen given)
    (removed : slots[around slots.length start seen]? = some .removed) :
    Given slots start (seen + 1) (some (given.getD (around slots.length start seen))) := by
  cases given with
  | none => exact ⟨seen, by omega, rfl, removed, known⟩
  | some i =>
    obtain ⟨step, less, rest⟩ := known
    exact ⟨step, by omega, rest⟩

/-- A search from the middle of the probe order ends as one from its start does. -/
theorem search_from {start : Nat}
    (order : ∀ i < slots.length, next i = (i + 1) % slots.length) :
    ∀ (count seen : Nat) (given : Option Nat), seen + count = slots.length →
      (∀ l < seen, Passes stops same slots key (around slots.length start l)) →
      Given slots start seen given →
      Outcome stops same slots key start
        (search stops same next slots key count (around slots.length start seen) given) := by
  intro count
  -- The induction is on the slots left, and the fallback is the first one given up so far.
  induction count with
  | zero =>
    intro seen given all passed known
    have whole : seen = slots.length := by omega
    subst whole
    cases given with
    | none => exact .full passed known
    | some i =>
      obtain ⟨step, less, rfl, removed, first⟩ := known
      exact .room less (Nat.le_of_lt less) (.inl rfl) passed first (.inl removed)
  | succ count ih =>
    intro seen given all passed known
    have inside : around slots.length start seen < slots.length := Nat.mod_lt _ (by omega)
    have step : next (around slots.length start seen) = around slots.length start (seen + 1) := by
      rw [order _ inside, around, around, Nat.mod_add_mod, Nat.add_assoc]
    have further (pass : Passes stops same slots key (around slots.length start seen)) :
        ∀ l < seen + 1, Passes stops same slots key (around slots.length start l) := by
      intro l less
      rcases Nat.lt_succ_iff_lt_or_eq.mp less with before | rfl
      · exact passed l before
      · exact pass
    unfold search
    cases at_seen : slots[around slots.length start seen]? with
    | none => exact absurd (List.getElem?_eq_none_iff.mp at_seen) (by omega)
    | some slot =>
      cases slot with
      | free mark =>
        dsimp only
        split
        · next stopping =>
          -- The search stops here and falls back to a slot given up before, if there is one.
          have stopped : seen = slots.length ∨ ∃ mark, stops mark = true ∧
            slots[around slots.length start seen]? = some (.free mark) :=
            .inr ⟨mark, stopping, at_seen⟩
          cases given with
          | none =>
            exact .room (by omega) (Nat.le_refl seen) stopped passed known (.inr rfl)
          | some i =>
            obtain ⟨back, less, rfl, removed, first⟩ := known
            exact .room (by omega) (Nat.le_of_lt less) stopped passed first (.inl removed)
        · next goes =>
          rw [step]
          refine ih (seen + 1) given (by omega) (further ⟨?_, ?_⟩) (known.pass ?_)
          · intro other found
            rw [at_seen] at found
            cases found
            exact Bool.not_eq_true _ ▸ goes
          · intro k v found
            rw [at_seen] at found
            cases found
          · rw [at_seen]
            simp
      | live k v =>
        dsimp only
        split
        · next equal => exact .found (by omega) at_seen equal
        · next differs =>
          rw [step]
          refine ih (seen + 1) given (by omega) (further ⟨?_, ?_⟩) (known.pass ?_)
          · intro mark found
            rw [at_seen] at found
            cases found
          · intro other w found
            rw [at_seen] at found
            cases found
            exact Bool.not_eq_true _ ▸ differs
          · rw [at_seen]
            simp
      | removed =>
        dsimp only
        rw [step]
        refine ih (seen + 1) _ (by omega) (further ⟨?_, ?_⟩) (known.take at_seen)
        · intro mark found
          rw [at_seen] at found
          cases found
        · intro k v found
          rw [at_seen] at found
          cases found

theorem search_outcome {start : Nat} (order : ∀ i < slots.length, next i = (i + 1) % slots.length)
    (inside : start < slots.length) :
    Outcome stops same slots key start
      (search stops same next slots key slots.length start none) := by
  have begins : around slots.length start 0 = start := Nat.mod_eq_of_lt inside
  have whole : Outcome stops same slots key start
      (search stops same next slots key slots.length (around slots.length start 0) none) := by
    apply search_from order slots.length 0 none (Nat.zero_add _)
    · intro l less
      omega
    · intro l less
      omega
  rwa [begins] at whole

theorem search_stop {start stop : Nat} {mark : E}
    (order : ∀ i < slots.length, next i = (i + 1) % slots.length) (inside : start < slots.length)
    (within : stop < slots.length)
    (others : ∀ l < stop, ∃ k v, slots[around slots.length start l]? = some (.live k v) ∧
      same k key = false)
    (free : slots[around slots.length start stop]? = some (.free mark))
    (stopping : stops mark = true) :
    search stops same next slots key slots.length start none =
      some (around slots.length start stop) := by
  -- The induction is on the slots between the one looked at and the free one.
  have general : ∀ left seen count, seen + left = stop → left < count →
      search stops same next slots key count (around slots.length start seen) none =
        some (around slots.length start stop) := by
    intro left
    induction left with
    | zero =>
      intro seen count here more
      obtain ⟨count, rfl⟩ := Nat.exists_eq_add_of_lt more
      obtain rfl : seen = stop := here
      rw [show 0 + count + 1 = count + 1 by omega, search, free]
      simp [stopping]
    | succ left ih =>
      intro seen count here more
      obtain ⟨count, rfl⟩ := Nat.exists_eq_add_of_lt more
      obtain ⟨k, v, live, differs⟩ := others seen (by omega)
      have around_lt : around slots.length start seen < slots.length := Nat.mod_lt _ (by omega)
      have step : next (around slots.length start seen) = around slots.length start (seen + 1) := by
        rw [order _ around_lt, around, around, Nat.mod_add_mod, Nat.add_assoc]
      rw [show left + 1 + count + 1 = (left + 1 + count) + 1 by omega, search, live]
      simp only [differs, Bool.false_eq_true, if_false]
      rw [step]
      exact ih (seen + 1) _ (by omega) (by omega)
  have begins : around slots.length start 0 = start := Nat.mod_eq_of_lt inside
  rw [← begins]
  simpa only [begins] using general stop 0 slots.length (Nat.zero_add _) within

end Search

/-- Keys that are the same have the same start. -/
structure Keyed (same : K → K → Bool) (start : K → Nat) : Prop where
  refl : ∀ k, same k k = true
  symm : ∀ k l, same k l = same l k
  trans : ∀ {k l m}, same k l = true → same l m = true → same k m = true
  start_eq : ∀ {k l}, same k l = true → start k = start l

/-- A map with a value written for every key that is the same. -/
def extend (same : K → K → Bool) (map : K → Option V) (key : K) (value : V) : K → Option V :=
  fun k => if same key k then some value else map k

/-- A map with every key that is the same taken out. -/
def erase (same : K → K → Bool) (map : K → Option V) (key : K) : K → Option V :=
  fun k => if same key k then none else map k

/-- The table holds the map. -/
def Holds (same : K → K → Bool) (slots : List (Slot E K V)) (map : K → Option V) : Prop :=
  ∀ key value, map key = some value ↔ Maps same slots key value

section Holds

variable {stops : E → Bool} {same : K → K → Bool} {start : K → Nat} {slots : List (Slot E K V)}
  {map : K → Option V} {i : Nat} {key k : K} {value old : V}

theorem Holds.absent (holds : Holds same slots map) :
    Absent same slots key ↔ map key = none := by
  constructor
  · intro absent
    cases found : map key with
    | none => rfl
    | some v =>
      obtain ⟨j, l, at_j, equal⟩ := (holds key v).mp found
      rw [absent j l v at_j] at equal
      cases equal
  · intro none j l v at_j
    cases equal : same l key with
    | false => rfl
    | true =>
      rw [(holds key v).mpr ⟨j, l, at_j, equal⟩] at none
      cases none

theorem Holds.of_free (free : ∀ slot ∈ slots, slot.isLive = false) :
    Holds same slots fun _ => none := by
  intro key value
  constructor
  · intro found
    cases found
  · rintro ⟨j, l, at_j, -⟩
    cases free _ (List.mem_of_getElem? at_j)

theorem Holds.insert (holds : Holds same slots map) (keyed : Keyed same start)
    (absent : Absent same slots key) (inside : i < slots.length)
    (unused : ∀ l v, slots[i]? ≠ some (.live l v)) :
    Holds same (slots.set i (.live key value)) (extend same map key value) := by
  have here : (slots.set i (.live key value))[i]? = some (.live key value) :=
    List.getElem?_set_self inside
  intro other v
  unfold extend
  split
  · next equal =>
    constructor
    · intro eq
      cases eq
      exact ⟨i, key, here, equal⟩
    · rintro ⟨j, l, at_j, equal'⟩
      rcases getElem?_set_cases at_j with ⟨-, new⟩ | ⟨-, before⟩
      · cases new
        rfl
      · have apart := absent j l v before
        rw [keyed.trans equal' (keyed.symm other key ▸ equal)] at apart
        cases apart
  · next differs =>
    rw [holds other v]
    constructor
    · rintro ⟨j, l, at_j, equal⟩
      refine ⟨j, l, ?_, equal⟩
      rw [List.getElem?_set_ne ?_]
      · exact at_j
      · rintro rfl
        exact unused l v at_j
    · rintro ⟨j, l, at_j, equal⟩
      rcases getElem?_set_cases at_j with ⟨-, new⟩ | ⟨-, before⟩
      · cases new
        exact absurd equal differs
      · exact ⟨j, l, before, equal⟩

theorem Holds.update (holds : Holds same slots map) (keyed : Keyed same start)
    (chained : Chained same start slots) (found : slots[i]? = some (.live k old))
    (equal : same k key = true) :
    Holds same (slots.set i (.live k value)) (extend same map key value) := by
  have inside : i < slots.length := (List.getElem?_eq_some_iff.mp found).1
  have here : (slots.set i (.live k value))[i]? = some (.live k value) :=
    List.getElem?_set_self inside
  intro other v
  unfold extend
  split
  · next same_other =>
    constructor
    · intro eq
      cases eq
      exact ⟨i, k, here, keyed.trans equal same_other⟩
    · rintro ⟨j, l, at_j, equal'⟩
      rcases getElem?_set_cases at_j with ⟨-, new⟩ | ⟨apart, before⟩
      · cases new
        rfl
      · have link := keyed.trans (keyed.trans equal same_other) (keyed.symm l other ▸ equal')
        exact absurd (chained.unique found before link).symm apart
  · next differs =>
    rw [holds other v]
    constructor
    · rintro ⟨j, l, at_j, equal'⟩
      refine ⟨j, l, ?_, equal'⟩
      rw [List.getElem?_set_ne ?_]
      · exact at_j
      · rintro rfl
        rw [found] at at_j
        cases at_j
        exact differs (keyed.trans (keyed.symm k key ▸ equal) equal')
    · rintro ⟨j, l, at_j, equal'⟩
      rcases getElem?_set_cases at_j with ⟨-, new⟩ | ⟨-, before⟩
      · cases new
        exact absurd (keyed.trans (keyed.symm k key ▸ equal) equal') differs
      · exact ⟨j, l, before, equal'⟩

theorem Holds.remove (holds : Holds same slots map) (keyed : Keyed same start)
    (chained : Chained same start slots) (found : slots[i]? = some (.live k old))
    (equal : same k key = true) :
    Holds same (slots.set i .removed) (erase same map key) := by
  intro other v
  unfold erase
  split
  · next same_other =>
    constructor
    · intro eq
      cases eq
    · rintro ⟨j, l, at_j, equal'⟩
      rcases getElem?_set_cases at_j with ⟨-, new⟩ | ⟨apart, before⟩
      · cases new
      · have link := keyed.trans (keyed.trans equal same_other) (keyed.symm l other ▸ equal')
        exact absurd (chained.unique found before link).symm apart
  · next differs =>
    rw [holds other v]
    constructor
    · rintro ⟨j, l, at_j, equal'⟩
      refine ⟨j, l, ?_, equal'⟩
      rw [List.getElem?_set_ne ?_]
      · exact at_j
      · rintro rfl
        rw [found] at at_j
        cases at_j
        exact differs (keyed.trans (keyed.symm k key ▸ equal) equal')
    · rintro ⟨j, l, at_j, equal'⟩
      rcases getElem?_set_cases at_j with ⟨-, new⟩ | ⟨-, before⟩
      · cases new
      · exact ⟨j, l, before, equal'⟩

theorem Holds.erase_absent (holds : Holds same slots map) (keyed : Keyed same start)
    (absent : map key = none) : erase same map key = map := by
  funext other
  unfold erase
  split
  · next equal =>
    have away := holds.absent.mpr absent
    -- No slot has the other key either, since the keys are the same.
    have none : Absent same slots other := by
      intro i l v found
      cases near : same l other with
      | false => rfl
      | true =>
        have differs := away i l v found
        rw [keyed.trans near (keyed.symm key other ▸ equal)] at differs
        cases differs
    exact (holds.absent.mp none).symm
  · rfl

theorem Outcome.eq_of_live {result : Option Nat} (keyed : Keyed same start)
    (chained : Chained same start slots) (found : slots[i]? = some (.live k old))
    (equal : same k key = true) (outcome : Outcome stops same slots key (start key) result) :
    result = some i := by
  obtain ⟨steps, within, at_i, taken⟩ := chained.reached found
  rw [keyed.start_eq equal] at at_i taken
  have back (stop : Nat) (stopped : stop = slots.length ∨ ∃ mark, stops mark = true ∧
        slots[around slots.length (start key) stop]? = some (.free mark))
      (passed : ∀ l < stop, Passes stops same slots key (around slots.length (start key) l)) :
      False := by
    -- The entry is not passed over, and no free slot comes before it.
    rcases Nat.lt_trichotomy steps stop with less | rfl | more
    · have differs := (passed steps less).2 k old (at_i ▸ found)
      rw [equal] at differs
      cases differs
    · rcases stopped with rfl | ⟨mark, -, free⟩
      · exact absurd within (by omega)
      · rw [at_i, found] at free
        cases free
    · rcases stopped with rfl | ⟨mark, -, free⟩
      · exact absurd within (by omega)
      · exact taken stop more mark free
  cases outcome with
  | found within' live equal' =>
    rw [chained.unique live found (keyed.trans equal' (keyed.symm k key ▸ equal))]
  | room _ _ stopped passed _ _ => exact (back _ stopped passed).elim
  | full passed _ => exact (back _ (.inl rfl) passed).elim

end Holds

section Entries

variable {same : K → K → Bool} {start : K → Nat} {slots : List (Slot E K V)}

theorem mem_entries {e : K × V} : e ∈ entries slots ↔ .live e.1 e.2 ∈ slots := by
  simp only [entries, List.mem_filterMap]
  constructor
  · rintro ⟨slot, member, found⟩
    cases slot <;> simp only [Slot.entry, reduceCtorEq, Option.some.injEq] at found
    subst found
    exact member
  · intro member
    exact ⟨_, member, rfl⟩

theorem length_entries : (entries slots).length = slots.countP Slot.isLive := by
  rw [entries, List.length_filterMap_eq_countP]
  apply List.countP_congr
  intro slot _
  cases slot <;> simp [Slot.entry, Slot.isLive]

theorem Chained.entries_distinct (chained : Chained same start slots) :
    (entries slots).Pairwise fun a b => same a.1 b.1 = false := by
  rw [entries, List.pairwise_filterMap, List.pairwise_iff_getElem]
  intro i j insideI insideJ less a foundA b foundB
  have live {n : Nat} (inside : n < slots.length) {e : K × V} (found : slots[n].entry = some e) :
      slots[n]? = some (.live e.1 e.2) := by
    rw [List.getElem?_eq_getElem inside]
    cases at_n : slots[n] <;> rw [at_n] at found <;>
      simp only [Slot.entry, reduceCtorEq, Option.some.injEq] at found
    rw [← found]
  cases equal : same a.1 b.1 with
  | false => rfl
  | true => exact absurd (chained.unique (live insideI foundA) (live insideJ foundB) equal) (by omega)

theorem Holds.iff_entries {map : K → Option V} (holds : Holds same slots map) {key : K} {value : V} :
    map key = some value ↔ ∃ e ∈ entries slots, same e.1 key = true ∧ e.2 = value := by
  rw [holds key value]
  constructor
  · rintro ⟨i, k, found, equal⟩
    exact ⟨(k, value), mem_entries.mpr (List.mem_of_getElem? found), equal, rfl⟩
  · rintro ⟨e, member, equal, rfl⟩
    obtain ⟨i, found⟩ := List.mem_iff_getElem?.mp (mem_entries.mp member)
    exact ⟨i, e.1, found, equal⟩

theorem foldl_extend (keyed : Keyed same start) {es : List (K × V)}
    (distinct : es.Pairwise fun a b => same a.1 b.1 = false) (map : K → Option V) (key : K) :
    (∀ e ∈ es, same e.1 key = true →
      es.foldl (fun m e => extend same m e.1 e.2) map key = some e.2) ∧
    ((∀ e ∈ es, same e.1 key = false) →
      es.foldl (fun m e => extend same m e.1 e.2) map key = map key) := by
  induction es generalizing map with
  | nil => exact ⟨fun e member => (List.not_mem_nil member).elim, fun _ => rfl⟩
  | cons first rest ih =>
    obtain ⟨apart, distinct⟩ := List.pairwise_cons.mp distinct
    obtain ⟨present, absent⟩ := ih distinct (extend same map first.1 first.2)
    constructor
    · intro e member equal
      rcases List.mem_cons.mp member with rfl | member
      · -- No later entry has this key.
        rw [List.foldl_cons, absent, extend, if_pos equal]
        intro other inside
        cases found : same other.1 key with
        | false => rfl
        | true =>
          have differs := apart other inside
          rw [keyed.trans equal (keyed.symm other.1 key ▸ found)] at differs
          cases differs
      · exact present e member equal
    · intro none
      rw [List.foldl_cons, absent fun e member => none e (List.mem_cons_of_mem _ member), extend,
        none first List.mem_cons_self]
      rfl

theorem Holds.foldl_entries (keyed : Keyed same start) (chained : Chained same start slots)
    {added : K → Option V} (holds : Holds same slots added) (map : K → Option V) :
    (entries slots).foldl (fun m e => extend same m e.1 e.2) map =
      fun key => (added key).or (map key) := by
  funext key
  obtain ⟨present, absent⟩ := foldl_extend keyed chained.entries_distinct map key
  cases found : added key with
  | some value =>
    obtain ⟨e, member, equal, rfl⟩ := holds.iff_entries.mp found
    exact present e member equal
  | none =>
    apply absent
    intro e member
    cases equal : same e.1 key with
    | false => rfl
    | true =>
      rw [holds.iff_entries.mpr ⟨e, member, equal, rfl⟩] at found
      cases found

end Entries

end Nytrix.Lib
