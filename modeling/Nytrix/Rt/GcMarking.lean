import Nytrix.Lib.Marking
import Nytrix.Rt.GcLayout

/-! What the marking phase of a collection marks. -/

namespace Nytrix.Rt.Gc

open Nytrix.Lib

variable {c : Config} {g : State} {h k v : Nat}

/-- An object of tenured space that is marked from an earlier collection; marking stops there. -/
def Stops (c : Config) (g : State) (h : Nat) : Prop :=
  h ∈ tenuredObjects c g ∧ isMarked g.mem h = true

/-- Marking comes to an object from a root or a remembered slot, and goes on where it does not stop. -/
inductive Found (c : Config) (g : State) : Nat → Prop
  | start {slot h : Nat} (listed : slot ∈ g.roots ++ g.remembered) (refers : g.mem slot = h + 48)
      (known : Known c g h) : Found c g h
  | field {slot h k : Nat} (found : Found c g h) (passes : ¬ Stops c g h)
      (traced : slot ∈ tracedSlots g.mem h) (refers : g.mem slot = k + 48) (known : Known c g k) :
      Found c g k

/-- An object has its mark after the marking phase. -/
def Survives (c : Config) (g : State) (h : Nat) : Prop := Found c g h ∨ Stops c g h

theorem Known.object (known : Known c g h) : h ∈ objects c g := by
  rcases known with young | old | ⟨large, -⟩
  · exact List.mem_append_left _ young
  · simp [objects, oldObjects, old]
  · simp [objects, oldObjects, large]

theorem Found.object (found : Found c g h) : h ∈ objects c g := by
  cases found with
  | start _ _ known => exact known.object
  | field _ _ _ _ known => exact known.object

/-- A memory that differs in the first words of headers only. -/
structure Rehead (c : Config) (g : State) (mem : Memory) : Prop where
  body : ∀ x, x ∉ objects c g → mem x = g.mem x
  heads : ∀ h ∈ objects c g, mem h < 2 ^ 48

namespace Rehead

variable {mem : Memory}

theorem refl (lay : Layout c g) : Rehead c g g.mem :=
  ⟨fun _ _ => rfl, fun h member => (lay.sound h member).head⟩

theorem cell (re : Rehead c g mem) (lay : Layout c g) (member : h ∈ objects c g) {o : Nat}
    (low : 0 < o) (high : o < totalAt g.mem h) : mem (h + o) = g.mem (h + o) :=
  re.body _ (lay.interior_not_object member low high)

theorem sound (re : Rehead c g mem) (lay : Layout c g) (member : h ∈ objects c g) :
    Sound mem h ∧ sizeAt mem h = sizeAt g.mem h :=
  (lay.sound h member).copied (lay.sound h member).aligned
    (fun _ low high => re.cell lay member (by omega) high) (re.heads h member)

theorem layout (re : Rehead c g mem) (lay : Layout c g) :
    Layout c { g with mem } ∧
      nurseryObjects c { g with mem } = nurseryObjects c g ∧
      tenuredObjects c { g with mem } = tenuredObjects c g :=
  lay.remake (fun _ member => (re.sound lay member).2) fun _ member => (re.sound lay member).1

theorem objects_eq (re : Rehead c g mem) (lay : Layout c g) :
    objects c { g with mem } = objects c g := by
  have same := (re.layout lay).2
  rw [objects, oldObjects, same.1, same.2]
  rfl

theorem tracked (re : Rehead c g mem) (lay : Layout c g) (tracked : Tracked c g) :
    Tracked c { g with mem } := by
  refine ⟨fun slot listed => ?_, tracked.once⟩
  obtain ⟨h, member, low, high, aligned⟩ := tracked.body slot listed
  have old : oldObjects c { g with mem } = oldObjects c g := by
    rw [oldObjects, (re.layout lay).2.2]
    rfl
  refine ⟨h, old ▸ member, low, ?_, aligned⟩
  rw [totalAt, (re.sound lay (List.mem_append_right _ member)).2]
  exact high

theorem tracedSlots_eq (re : Rehead c g mem) (lay : Layout c g) (member : h ∈ objects c g) :
    tracedSlots mem h = tracedSlots g.mem h := by
  have room := (lay.sound h member).room
  simp only [sizeAt] at room
  have offsets : (tracedOffsets fun o => mem (h + o)) = tracedOffsets fun o => g.mem (h + o) := by
    refine tracedOffsets_congr (re.cell lay member (by omega) (by omega))
      (re.cell lay member (by omega) (by omega)) fun o low high _ => .inl ?_
    exact re.cell lay member (by omega) (by omega)
  rw [tracedSlots, tracedSlots, offsets]

theorem known_iff (re : Rehead c g mem) (lay : Layout c g) :
    Known c { g with mem } h ↔ Known c g h := by
  have same := (re.layout lay).2
  simp only [Known, same.1, same.2]
  refine or_congr_right (or_congr_right (and_congr_right fun large => ?_))
  have object : h ∈ objects c g := by simp [objects, oldObjects, show h ∈ largeObjects g from large]
  rw [totalAt, (re.sound lay object).2, totalAt]

theorem headerForObject_eq (re : Rehead c g mem) (lay : Layout c g) (v : Nat) :
    headerForObject c { g with mem } v = headerForObject c g v := by
  refine Option.ext fun h => ?_
  rw [(re.layout lay).1.headerForObject_iff, lay.headerForObject_iff, re.known_iff lay]

end Rehead

/-- The memory in which some objects got their mark. -/
def withMarks (mem : Memory) (marks : List Nat) : Memory := fun x =>
  if x ∈ marks then mem x ||| markedFlag else mem x

theorem or_markedFlag (w : Nat) : (w ||| markedFlag) % 2 = 1 ∧ (w ||| markedFlag) / 2 = w / 2 := by
  refine ⟨?_, ?_⟩
  · rw [Nat.or_mod_two_eq_one]
    exact .inr rfl
  · rw [markedFlag, Nat.or_div_two]
    simp

section Marks

variable {marks : List Nat}

theorem withMarks_rehead (lay : Layout c g) (inside : ∀ h ∈ marks, h ∈ objects c g) :
    Rehead c g (withMarks g.mem marks) := by
  refine ⟨fun x outside => if_neg fun marked => outside (inside x marked), fun h member => ?_⟩
  rw [withMarks]
  split
  · have mark := or_markedFlag (g.mem h)
    have head := (lay.sound h member).head
    omega
  · exact (Rehead.refl lay).heads h member

theorem setMark_withMarks (mem : Memory) (h : Nat) (fresh : h ∉ marks) :
    setMark (withMarks mem marks) h = withMarks mem (h :: marks) := by
  funext x
  simp only [setMark, Memory.store, withMarks, List.mem_cons]
  by_cases here : x = h
  · subst here
    simp [fresh]
  · simp [here]

theorem isMarked_withMarks {mem : Memory} :
    isMarked (withMarks mem marks) h = true ↔ isMarked mem h = true ∨ h ∈ marks := by
  rw [isMarked_iff, isMarked_iff, withMarks]
  split
  · rename_i marked
    simp [(or_markedFlag (mem h)).1, marked]
  · rename_i fresh
    simp [fresh]

/-- The objects an object refers to. -/
def referents (c : Config) (g : State) (h : Nat) : List Nat :=
  (tracedSlots g.mem h).filterMap fun slot => headerForObject c g (g.mem slot)

theorem referents_closed (lay : Layout c g) : ∀ h ∈ objects c g, ∀ k ∈ referents c g h,
    k ∈ objects c g := by
  intro h _ k member
  obtain ⟨slot, -, found⟩ := List.mem_filterMap.mp member
  exact (lay.headerForObject_iff.mp found).2.object

/-- The state in which some objects got their mark. -/
def marked (g : State) (marks : List Nat) : State := { g with mem := withMarks g.mem marks }

/-- Marks that are on objects, and on all that were marked before. -/
structure Admissible (c : Config) (g : State) (marks : List Nat) : Prop where
  inside : ∀ h ∈ marks, h ∈ objects c g
  full : ∀ h ∈ objects c g, isMarked g.mem h = true → h ∈ marks

theorem Admissible.visit (lay : Layout c g) {fuel : Nat} (good : Admissible c g marks)
    (member : h ∈ objects c g) : Admissible c g (visit (referents c g) fuel marks h) :=
  visit_invariant (referents_closed lay)
    (fun marks a inside good => ⟨by simpa [inside] using good.inside,
      fun k object was => List.mem_cons_of_mem _ (good.full k object was)⟩) member good

theorem foldl_mark (lay : Layout c g) {fuel : Nat} (slots : List Nat) (guard : Nat → Prop)
    [DecidablePred guard] (skips : ∀ v, ¬ guard v → headerForObject c g v = none)
    (plain : ∀ slot ∈ slots, slot ∉ objects c g) (good : Admissible c g marks)
    (step : ∀ marks v, Admissible c g marks → mark c fuel (marked g marks) v =
      marked g ((headerForObject c g v).toList.foldl (visit (referents c g) fuel) marks)) :
    slots.foldl (fun s slot => if guard (s.mem slot) then mark c fuel s (s.mem slot) else s)
        (marked g marks) =
      marked g ((slots.filterMap fun slot => headerForObject c g (g.mem slot)).foldl
        (visit (referents c g) fuel) marks) := by
  induction slots generalizing marks with
  | nil => rfl
  | cons slot slots ih =>
    have others : ∀ s ∈ slots, s ∉ objects c g := fun s later => plain s (by simp [later])
    have word : (marked g marks).mem slot = g.mem slot :=
      (withMarks_rehead lay good.inside).body slot (plain slot (by simp))
    rw [List.foldl_cons, word, List.filterMap_cons]
    by_cases ok : guard (g.mem slot)
    · rw [if_pos ok, step marks _ good]
      cases found : headerForObject c g (g.mem slot) with
      | none => exact ih others good
      | some h =>
        exact ih others (good.visit lay (lay.headerForObject_iff.mp found).2.object)
    · rw [if_neg ok, skips _ ok]
      exact ih others good

theorem tracedSlots_plain (lay : Layout c g) (member : h ∈ objects c g) :
    ∀ slot ∈ tracedSlots g.mem h, slot ∉ objects c g := by
  intro slot traced
  have bounds := (lay.sound h member).tracedSlots_bounds traced
  have inside := lay.interior_not_object member (o := slot - h) (by omega) (by omega)
  rwa [Nat.add_sub_cancel' (by omega)] at inside

theorem headerForObject_of_not_isPtr (not : isPtr v ≠ true) : headerForObject c g v = none := by
  simp [headerForObject, not]

theorem mark_eq (lay : Layout c g) (fuel : Nat) (marks : List Nat) (v : Nat)
    (good : Admissible c g marks) : mark c fuel (marked g marks) v =
      marked g ((headerForObject c g v).toList.foldl (visit (referents c g) fuel) marks) := by
  induction fuel generalizing marks v with
  | zero => cases headerForObject c g v <;> rfl
  | succ fuel ih =>
    have re := withMarks_rehead lay good.inside
    have same : headerForObject c (marked g marks) v = headerForObject c g v :=
      re.headerForObject_eq lay v
    rw [mark, same]
    cases found : headerForObject c g v with
    | none => rfl
    | some h =>
      have member := (lay.headerForObject_iff.mp found).2.object
      have mark_iff : isMarked (marked g marks).mem h = true ↔ h ∈ marks := by
        rw [marked, isMarked_withMarks]
        exact ⟨fun was => was.elim (good.full h member) id, .inr⟩
      simp only [Option.toList_some, List.foldl_cons, List.foldl_nil, visit]
      by_cases seen : h ∈ marks
      · rw [if_pos (mark_iff.mpr seen), if_pos seen]
      · rw [if_neg (mt mark_iff.mp seen), if_neg seen]
        -- The object gets its mark before its slots are looked at.
        have slots : tracedSlots (marked g marks).mem h = tracedSlots g.mem h :=
          re.tracedSlots_eq lay member
        have first : { marked g marks with mem := setMark (marked g marks).mem h } =
            marked g (h :: marks) := by
          rw [marked, marked, setMark_withMarks g.mem h seen]
        rw [slots, first]
        exact foldl_mark lay _ _ (fun v not => headerForObject_of_not_isPtr not)
          (tracedSlots_plain lay member)
          ⟨by simpa [member] using good.inside, fun k object was => by simp [good.full k object was]⟩
          ih

theorem Layout.outside_not_object (lay : Layout c g) {a : Nat} (outside : Outside c g a) :
    a ∉ objects c g := by
  intro member
  obtain ⟨nursery, tenured, blocks⟩ := outside
  rcases Layout.object_cases member with young | old | large
  · have := lay.nursery_bounds young
    omega
  · have := lay.tenured_bounds old
    omega
  · obtain ⟨-, listed, room⟩ := lay.large_bounds large
    exact blocks _ listed ⟨Nat.le_refl _, Nat.lt_add_of_pos_right (by dsimp only; omega)⟩

theorem Layout.inBody_not_object (lay : Layout c g) {slot : Nat}
    (body : InBody g.mem (oldObjects c g) slot) : slot ∉ objects c g := by
  obtain ⟨h, member, low, high, -⟩ := body
  have inside := lay.interior_not_object (List.mem_append_right _ member) (o := slot - h)
    (by omega) (by omega)
  rwa [Nat.add_sub_cancel' (by omega)] at inside

theorem Layout.length_objects_le (lay : Layout c g) : (objects c g).length ≤ markDepth c g := by
  have young := lay.nursery.length_le
  have old := lay.tenured.length_le
  simp only [objects, oldObjects, largeObjects, List.length_append, List.length_map, markDepth]
  omega

theorem marked_self (marks : List Nat) (was : ∀ h ∈ marks, isMarked g.mem h = true) :
    marked g marks = g := by
  have same : withMarks g.mem marks = g.mem := by
    funext x
    rw [withMarks]
    split
    · rename_i listed
      have odd := isMarked_iff.mp (was x listed)
      have mark := or_markedFlag (g.mem x)
      omega
    · rfl
  rw [marked, same]

theorem markFromRoots_eq (lay : Layout c g) (tracked : Tracked c g)
    (stops : ∀ h ∈ objects c g, isMarked g.mem h = true → h ∈ tenuredObjects c g) :
    ∃ marks, markFromRoots c g = marked g marks ∧
      ∀ h, h ∈ marks ↔ h ∈ objects c g ∧ Survives c g h := by
  let before := (objects c g).filter (isMarked g.mem)
  have before_iff : ∀ h, h ∈ before ↔ Stops c g h := fun h => by
    simp only [before, List.mem_filter, Stops]
    exact ⟨fun ⟨member, was⟩ => ⟨stops h member was, was⟩,
      fun ⟨tenured, was⟩ => ⟨by simp [objects, oldObjects, tenured], was⟩⟩
  have good : Admissible c g before :=
    ⟨fun h member => (List.mem_filter.mp member).1, fun h member was => List.mem_filter.mpr ⟨member, was⟩⟩
  have none : ∀ v, ¬ v ≠ 0 → headerForObject c g v = none := fun v zero =>
    headerForObject_of_not_isPtr (by simp only [ne_eq, not_not] at zero; simp [zero, isPtr])
  have roots : ∀ slot ∈ g.roots, slot ∉ objects c g := fun slot listed =>
    lay.outside_not_object (lay.roots slot listed).2
  have remembered : ∀ slot ∈ g.remembered, slot ∉ objects c g := fun slot listed =>
    lay.inBody_not_object (tracked.body slot listed)
  let starts := (g.roots ++ g.remembered).filterMap fun slot => headerForObject c g (g.mem slot)
  have inside : ∀ h ∈ starts, h ∈ objects c g := fun h member => by
    obtain ⟨slot, -, found⟩ := List.mem_filterMap.mp member
    exact (lay.headerForObject_iff.mp found).2.object
  refine ⟨starts.foldl (visit (referents c g) (markDepth c g)) before, ?_, fun h => ?_⟩
  · -- Marking from the remembered slots continues from what the roots led to.
    have begin : marked g before = g := marked_self before fun h member => (List.mem_filter.mp member).2
    have steps := fun marks v good => mark_eq lay (markDepth c g) marks v good
    have all := foldl_mark lay (g.roots ++ g.remembered) (· ≠ 0) none
      (fun slot listed => (List.mem_append.mp listed).elim (roots slot) (remembered slot)) good steps
    rw [begin, List.foldl_append] at all
    exact all
  · -- Every mark is met by a visit, and what a visit meets is what is found.
    have enough : (unmarked (objects c g) before).length ≤ markDepth c g :=
      Nat.le_trans (List.length_filter_le _ _) lay.length_objects_le
    rw [mem_foldl_visit (referents_closed lay) inside enough, before_iff]
    constructor
    · rintro (stop | met)
      · exact ⟨by simp [objects, oldObjects, stop.1], .inr stop⟩
      · have found : Found c g h := by
          induction met with
          | start first =>
            obtain ⟨slot, listed, found⟩ := List.mem_filterMap.mp first
            have refers := lay.headerForObject_iff.mp found
            exact .start listed refers.1 refers.2
          | next _ fresh leads ih =>
            obtain ⟨slot, traced, found⟩ := List.mem_filterMap.mp leads
            have refers := lay.headerForObject_iff.mp found
            exact .field ih (mt (before_iff _).mpr fresh) traced refers.1 refers.2
        exact ⟨found.object, .inl found⟩
    · rintro ⟨-, found | stop⟩
      · refine .inr ?_
        induction found with
        | start listed refers known =>
          exact .start (List.mem_filterMap.mpr ⟨_, listed, lay.headerForObject_iff.mpr ⟨refers, known⟩⟩)
        | field _ passes traced refers known ih =>
          exact .next ih (mt (before_iff _).mp passes)
            (List.mem_filterMap.mpr ⟨_, traced, lay.headerForObject_iff.mpr ⟨refers, known⟩⟩)
      · exact .inl stop

end Marks

theorem clear_word (w : Nat) :
    headWord (w % 2 ^ 32 &&& (2 ^ 32 - 1 - markedFlag)) (w / 2 ^ 32) = w - w % 2 := by
  have half : (w % 2 ^ 32 &&& (2 ^ 32 - 1 - markedFlag)) / 2 = w % 2 ^ 32 / 2 := by
    rw [Nat.and_div_two, show (2 ^ 32 - 1 - markedFlag) / 2 = 2 ^ 31 - 1 from rfl,
      Nat.and_two_pow_sub_one_eq_mod]
    omega
  have even : (w % 2 ^ 32 &&& (2 ^ 32 - 1 - markedFlag)) % 2 ≠ 1 := by
    rw [Ne, Nat.and_mod_two_eq_one]
    exact fun both => absurd both.2 (by decide)
  simp only [headWord]
  omega

theorem foldl_clearMark (ls : List Large) (mem : Memory) (x : Nat) :
    (ls.foldl (fun mem l => clearMark mem l.header) mem) x =
      if x ∈ ls.map Large.header then mem x - mem x % 2 else mem x := by
  induction ls generalizing mem with
  | nil => rfl
  | cons l ls ih =>
    rw [List.foldl_cons, ih, clearMark, Memory.store, flagsAt, ageAt, clear_word]
    simp only [List.map_cons, List.mem_cons]
    by_cases here : x = l.header
    · subst here
      simp only [true_or, if_true]
      split
      · omega
      · rfl
    · simp [here]

namespace Rehead

variable {mem : Memory}

theorem found (re : Rehead c g mem) (lay : Layout c g) (tracked : Tracked c g)
    (stops : ∀ h, Stops c g h → Stops c { g with mem } h) (found : Found c { g with mem } h) :
    Found c g h := by
  induction found with
  | @start slot h listed refers known =>
    have plain : slot ∉ objects c g := by
      rcases List.mem_append.mp listed with root | remembered
      · exact lay.outside_not_object (lay.roots slot root).2
      · exact lay.inBody_not_object (tracked.body slot remembered)
    exact .start listed ((re.body slot plain).symm.trans refers) ((re.known_iff lay).mp known)
  | @field slot h k _ passes traced refers known ih =>
    have traced : slot ∈ tracedSlots g.mem h := re.tracedSlots_eq lay ih.object ▸ traced
    have plain := tracedSlots_plain lay ih.object slot traced
    exact .field ih (mt (stops h) passes) traced ((re.body slot plain).symm.trans refers)
      ((re.known_iff lay).mp known)

theorem symm (re : Rehead c g mem) (lay : Layout c g) : Rehead c { g with mem } g.mem where
  body := fun x outside => (re.body x (re.objects_eq lay ▸ outside)).symm
  heads := fun h member => (lay.sound h (re.objects_eq lay ▸ member)).head

end Rehead

/-- The marking phase leaves the mark of what survives, and changes nothing else of an object. -/
theorem markPhase (lay : Layout c g) (tracked : Tracked c g)
    (unmarked : ∀ h ∈ nurseryObjects c g, isMarked g.mem h = false) :
    ∃ mem, markFromRoots c (clearLargeMarks g) = { g with mem } ∧ Rehead c g mem ∧
      ∀ h ∈ objects c g, (isMarked mem h = true ↔ Survives c g h) ∧ ageAt mem h = ageAt g.mem h := by
  let mem₀ : Memory := g.large.foldl (fun mem l => clearMark mem l.header) g.mem
  have word : ∀ x, mem₀ x = if x ∈ largeObjects g then g.mem x - g.mem x % 2 else g.mem x :=
    foldl_clearMark g.large g.mem
  have cleared : Rehead c g mem₀ := by
    refine ⟨fun x outside => ?_, fun h member => ?_⟩
    · rw [word, if_neg fun large => outside (by simp [objects, oldObjects, large])]
    · have head := (lay.sound h member).head
      rw [word]
      split <;> omega
  have lay₀ := (cleared.layout lay).1
  have tracked₀ := cleared.tracked lay tracked
  have lists := (cleared.layout lay).2
  -- The large objects have no mark now, and those of the nursery had none.
  have nodup := lay.nodup
  have notLarge : ∀ h ∈ tenuredObjects c g, h ∉ largeObjects g := fun h tenured large =>
    (List.nodup_append.mp (List.nodup_append.mp nodup).2.1).2.2 h tenured h large rfl
  have youngNotLarge : ∀ h ∈ nurseryObjects c g, h ∉ largeObjects g := fun h young large =>
    (List.nodup_append.mp nodup).2.2 h young h (List.mem_append_right _ large) rfl
  have stops_iff : ∀ h, Stops c { g with mem := mem₀ } h ↔ Stops c g h := fun h => by
    simp only [Stops, lists.2]
    refine and_congr_right fun tenured => ?_
    rw [isMarked_iff, isMarked_iff, word, if_neg (notLarge h tenured)]
  have found_iff : ∀ h, Found c { g with mem := mem₀ } h ↔ Found c g h := fun h =>
    ⟨cleared.found lay tracked fun k => (stops_iff k).mpr,
      (cleared.symm lay).found lay₀ tracked₀ fun k => (stops_iff k).mp⟩
  have onlyTenured : ∀ h ∈ objects c { g with mem := mem₀ }, isMarked mem₀ h = true →
      h ∈ tenuredObjects c { g with mem := mem₀ } := by
    intro h member was
    rw [cleared.objects_eq lay] at member
    rw [isMarked_iff, word] at was
    rw [lists.2]
    rcases Layout.object_cases member with young | old | large
    · rw [if_neg (youngNotLarge h young)] at was
      have even := isMarked_eq_false_iff.mp (unmarked h young)
      omega
    · exact old
    · rw [if_pos large] at was
      omega
  obtain ⟨marks, marked_eq, marks_iff⟩ := markFromRoots_eq lay₀ tracked₀ onlyTenured
  have onObjects : ∀ h ∈ marks, h ∈ objects c g := fun h listed =>
    cleared.objects_eq lay ▸ ((marks_iff h).mp listed).1
  refine ⟨withMarks mem₀ marks, marked_eq, ?_, fun h member => ?_⟩
  · have again := withMarks_rehead lay₀ fun h listed => ((marks_iff h).mp listed).1
    refine ⟨fun x outside => ?_, fun h member => ?_⟩
    · rw [← cleared.body x outside]
      exact again.body x (by rwa [cleared.objects_eq lay])
    · exact again.heads h (by rwa [cleared.objects_eq lay])
  · have survives : Survives c { g with mem := mem₀ } h ↔ Survives c g h :=
      or_congr (found_iff h) (stops_iff h)
    constructor
    · rw [isMarked_withMarks, marks_iff, cleared.objects_eq lay, survives]
      refine ⟨fun was => was.elim (fun was => ?_) And.right, fun it => .inr ⟨member, it⟩⟩
      have tenured := onlyTenured h (by rwa [cleared.objects_eq lay]) was
      exact .inr ((stops_iff h).mp ⟨tenured, was⟩)
    · -- Neither taking nor setting the mark reaches the half with the age.
      have half : mem₀ h / 2 = g.mem h / 2 := by
        rw [word]
        split <;> omega
      have same : withMarks mem₀ marks h / 2 = g.mem h / 2 := by
        rw [withMarks]
        split
        · rw [(or_markedFlag _).2, half]
        · exact half
      simp only [ageAt]
      omega

end Nytrix.Rt.Gc
