import Mathlib.Logic.Relation
import Nytrix.Lib.Intervals
import Nytrix.Rt.Gc

/-! The sorted index of the large objects, rebuilt when dirty, against the walk of their list. -/

namespace Nytrix.Rt.LargeIndex

open Nytrix.Lib Nytrix.Rt.Gc

/-- A node of the list of large objects: its own address, and the block of the object. -/
structure LargeObject where
  node : Nat
  header : Nat
  totalSize : Nat

/-- The cell of the index for a node. -/
def LargeObject.interval (n : LargeObject) : HalfOpen Nat :=
  ⟨n.header, n.header + n.totalSize, n.node⟩

/--
The part of the collector's state that large objects are found by.

The index is null, or an array with room for `indexCap` cells of which the first ones are written.
-/
structure State where
  initialized : Bool
  enableNursery : Bool
  largeThreshold : Nat
  largeObjects : List LargeObject
  largeCount : Nat
  index : Option (List (HalfOpen Nat))
  indexCount : Nat
  indexCap : Nat
  indexDirty : Bool

/-- The state in which the process starts. -/
def start : State := ⟨false, false, 0, [], 0, none, 0, 0, false⟩

/-- The room for a count: doubled until it is enough. -/
def grow (count next : Nat) : Nat :=
  if next < count ∧ 0 < next then grow count (next * 2) else next
termination_by count - next

/-- The cells in the order of their starts. -/
def sortCells (rows : List (HalfOpen Nat)) : List (HalfOpen Nat) :=
  rows.mergeSort fun a b => a.start ≤ b.start

/-- Writes the index anew; there is no result when a cell is written that is not there. -/
def largeIndexRebuild (g : State) : Option State :=
  let count := g.largeCount
  let g :=
    if g.indexCap < count then
      { g with
        index := some []
        indexCap := grow count (if 0 < g.indexCap then g.indexCap else 64) }
    else g
  let rows := (g.largeObjects.take count).map LargeObject.interval
  match g.index with
  | none =>
    if rows = [] then some { g with indexCount := 0, indexDirty := false } else none
  | some _ =>
    if rows.length ≤ g.indexCap then
      some { g with index := some (sortCells rows), indexCount := rows.length, indexDirty := false }
    else none

/-- The node of the last interval of the index that starts at most at an address, if it holds it. -/
def largeIndexSearch (g : State) (addr : Nat) : Option (Option Nat) :=
  match g.index with
  | none => some none
  | some cells =>
    if g.indexCount = 0 then some none
    else
      (upperBound (fun c => decide (c.start ≤ addr)) cells 0 g.indexCount).bind fun lo =>
        if lo = 0 then some none
        else cells[lo - 1]?.map fun c => if c.stop ≤ addr then none else some c.node

/-- The node whose block holds an address, with the state after the lookup. -/
def largeIndexFind (g : State) (addr : Nat) : Option (State × Option Nat) :=
  (if g.indexDirty then largeIndexRebuild g else some g).bind fun g =>
    (largeIndexSearch g addr).map (g, ·)

/-- Puts a node for a new object in front of the list. -/
def allocLargeUnlocked (g : State) (node header size : Nat) : State :=
  { g with
    largeObjects := ⟨node, header, allocSize size⟩ :: g.largeObjects
    largeCount := g.largeCount + 1
    indexDirty := true }

/-- Frees the objects without a mark. -/
def sweepLargeUnlocked (g : State) (marked : LargeObject → Bool) : State :=
  { g with
    largeObjects := g.largeObjects.filter marked
    largeCount := g.largeCount - (g.largeObjects.filter fun n => !marked n).length
    indexDirty := true }

/-- Sets the collector up, unless it is. -/
def init (g : State) (enableNursery : Bool) (largeThreshold : Nat) : State :=
  if g.initialized then g
  else
    { g with
      initialized := true
      enableNursery
      largeThreshold
      largeObjects := []
      largeCount := 0 }

/-- Frees everything, when the collector is set up. -/
def dispose (g : State) : State :=
  if g.initialized then
    { g with
      initialized := false
      enableNursery := false
      largeThreshold := 0
      largeObjects := []
      largeCount := 0
      index := none
      indexCount := 0
      indexCap := 0 }
  else g

/-- The C allocator gives blocks that no live one overlaps. -/
def Fresh (g : State) (header size : Nat) : Prop :=
  ∀ n ∈ g.largeObjects, HalfOpen.Apart ⟨header, header + allocSize size, 0⟩ n.interval

/--
What can happen to the large objects.

A threshold below the offset of an object's data is not accepted. Marking and everything else the
collector does between these steps leaves this part of its state as it is.
-/
inductive Step : State → State → Prop
  | init {g : State} (enableNursery : Bool) {largeThreshold : Nat}
      (least : objectDataOffset ≤ largeThreshold) : Step g (init g enableNursery largeThreshold)
  | alloc {g : State} {node header size : Nat} (ready : g.initialized = true)
      (enabled : g.enableNursery = true) (large : g.largeThreshold ≤ allocSize size)
      (fresh : Fresh g header size) : Step g (allocLargeUnlocked g node header size)
  | sweep {g : State} (ready : g.initialized = true) (marked : LargeObject → Bool) :
      Step g (sweepLargeUnlocked g marked)
  | dispose {g : State} : Step g (dispose g)
  | find {g g' : State} {addr : Nat} {found : Option Nat}
      (done : largeIndexFind g addr = some (g', found)) : Step g g'

/-- The states that the collector gets into. -/
def Reachable (g : State) : Prop := Relation.ReflTransGen Step start g

/-- The walk of the list for an address. -/
def walkFind (g : State) (addr : Nat) : Option Nat :=
  (g.largeObjects.find? fun n => decide (n.interval.Has addr)).map LargeObject.node

/--
What holds between the steps.

The count is the length of the list, and the index has a cell for every node unless it is dirty.
-/
structure Valid (g : State) : Prop where
  count : g.largeCount = g.largeObjects.length
  proper : ∀ n ∈ g.largeObjects, 0 < n.totalSize
  apart : (g.largeObjects.map LargeObject.interval).Pairwise HalfOpen.Apart
  threshold : g.initialized = true → 0 < g.largeThreshold
  bare : g.initialized = false → g.largeObjects = []
  noIndex : g.index = none → g.indexCap = 0 ∧ g.indexCount = 0
  clean : g.indexDirty = false → g.index = none ∧ g.largeObjects = [] ∨
    g.index = some (sortCells (g.largeObjects.map LargeObject.interval)) ∧
      g.indexCount = g.largeObjects.length

theorem start_valid : Valid start where
  count := rfl
  proper n member := by cases member
  apart := List.Pairwise.nil
  threshold ready := by cases ready
  bare _ := rfl
  noIndex _ := ⟨rfl, rfl⟩
  clean _ := .inl ⟨rfl, rfl⟩

theorem le_grow (count : Nat) {next : Nat} (positive : 0 < next) : count ≤ grow count next := by
  induction distance : count - next using Nat.strongRecOn generalizing next with
  | ind distance ih =>
    subst distance
    rw [grow]
    split
    · next short => exact ih _ (by omega) (by omega) rfl
    · omega

theorem sortCells_perm (rows : List (HalfOpen Nat)) : (sortCells rows).Perm rows :=
  List.mergeSort_perm rows _

theorem sortCells_ordered {rows : List (HalfOpen Nat)} (proper : ∀ a ∈ rows, a.start < a.stop)
    (apart : rows.Pairwise HalfOpen.Apart) : Ordered (sortCells rows) := by
  have perm := sortCells_perm rows
  refine ordered_of_sorted (fun a member => proper a (perm.mem_iff.mp member)) ?_
    ((perm.pairwise_iff HalfOpen.Apart.symm).mpr apart)
  have sorted : (sortCells rows).Pairwise fun a b => decide (a.start ≤ b.start) = true := by
    refine List.pairwise_mergeSort (fun a b c first second => ?_) (fun a b => ?_) rows
    · rw [decide_eq_true_eq] at first second ⊢
      exact Nat.le_trans first second
    · rw [Bool.or_eq_true, decide_eq_true_eq, decide_eq_true_eq]
      exact Nat.le_total _ _
  exact sorted.imp fun order => of_decide_eq_true order

theorem Valid.proper_rows {g : State} (valid : Valid g) :
    ∀ a ∈ g.largeObjects.map LargeObject.interval, a.start < a.stop := by
  intro a member
  obtain ⟨n, inside, rfl⟩ := List.mem_map.mp member
  exact Nat.lt_add_of_pos_right (valid.proper n inside)

theorem Valid.rebuild {g : State} (valid : Valid g) :
    ∃ g', largeIndexRebuild g = some g' ∧ Valid g' ∧ g'.largeObjects = g.largeObjects ∧
      g'.indexDirty = false := by
  have all : g.largeObjects.take g.largeCount = g.largeObjects :=
    List.take_of_length_le (Nat.le_of_eq valid.count.symm)
  unfold largeIndexRebuild
  by_cases short : g.indexCap < g.largeCount
  · -- The array is a new one with enough room.
    have room : (g.largeObjects.map LargeObject.interval).length ≤
        grow g.largeCount (if 0 < g.indexCap then g.indexCap else 64) := by
      rw [List.length_map, ← valid.count]
      exact le_grow _ (by split <;> omega)
    simp only [if_pos short, all, if_pos room]
    exact ⟨_, rfl, ⟨valid.count, valid.proper, valid.apart, valid.threshold, valid.bare,
      fun null => (by cases null), fun _ => .inr ⟨rfl, List.length_map _⟩⟩, rfl, rfl⟩
  · simp only [if_neg short, all]
    cases array : g.index with
    | none =>
      have empty : g.largeObjects = [] := by
        apply List.eq_nil_of_length_eq_zero
        have cap := (valid.noIndex array).1
        have count := valid.count
        omega
      have bare : g.largeObjects.map LargeObject.interval = [] := by rw [empty, List.map_nil]
      simp only [if_pos bare]
      exact ⟨_, rfl, ⟨valid.count, valid.proper, valid.apart, valid.threshold, valid.bare,
        fun _ => ⟨(valid.noIndex array).1, rfl⟩, fun _ => .inl ⟨rfl, empty⟩⟩, rfl, rfl⟩
    | some cells =>
      have room : (g.largeObjects.map LargeObject.interval).length ≤ g.indexCap := by
        rw [List.length_map, ← valid.count]
        omega
      simp only [if_pos room]
      exact ⟨_, rfl, ⟨valid.count, valid.proper, valid.apart, valid.threshold, valid.bare,
        fun null => (by cases null), fun _ => .inr ⟨rfl, List.length_map _⟩⟩, rfl, rfl⟩

theorem walkFind_eq (g : State) (addr : Nat) :
    walkFind g addr = ((g.largeObjects.map LargeObject.interval).find?
      fun a => decide (a.Has addr)).map HalfOpen.node := by
  rw [walkFind, List.find?_map, Option.map_map]
  rfl

theorem Valid.walkFind_eq_some {g : State} (valid : Valid g) {addr : Nat} {a : HalfOpen Nat}
    (member : a ∈ g.largeObjects.map LargeObject.interval) (has : a.Has addr) :
    walkFind g addr = some a.node := by
  rw [walkFind_eq, find?_eq_some_of_has valid.apart member has, Option.map_some]

theorem walkFind_eq_none {g : State} {addr : Nat}
    (missed : ∀ a ∈ g.largeObjects.map LargeObject.interval, ¬a.Has addr) :
    walkFind g addr = none := by
  rw [walkFind_eq, find?_eq_none_of_not_has missed, Option.map_none]

theorem Valid.search {g : State} (valid : Valid g) (clean : g.indexDirty = false) (addr : Nat) :
    largeIndexSearch g addr = some (walkFind g addr) := by
  unfold largeIndexSearch
  rcases valid.clean clean with ⟨null, empty⟩ | ⟨array, count⟩
  · rw [null, walkFind, empty]
    rfl
  · have perm := sortCells_perm (g.largeObjects.map LargeObject.interval)
    have ordered := sortCells_ordered valid.proper_rows valid.apart
    have length : g.indexCount = (sortCells (g.largeObjects.map LargeObject.interval)).length := by
      rw [perm.length_eq, List.length_map, count]
    rw [array, length]
    generalize sortCells (g.largeObjects.map LargeObject.interval) = cells at perm ordered ⊢
    have missed (nowhere : ∀ a ∈ cells, ¬a.Has addr) : walkFind g addr = none :=
      walkFind_eq_none fun a member => nowhere a (perm.mem_iff.mpr member)
    obtain ⟨k, done, room, below, above⟩ := ordered.exists_upperBound addr
    dsimp only
    split
    · next empty =>
      rw [List.eq_nil_of_length_eq_zero empty] at missed
      rw [missed fun a member => (by cases member)]
    rw [done, Option.bind_some]
    split
    · next first =>
      subst first
      rw [missed (Ordered.not_has_of_first above)]
    · next later =>
      have inside : k - 1 < cells.length := by omega
      have found := List.getElem?_eq_getElem inside
      rw [found, Option.map_some]
      split
      · next past =>
        rw [missed (ordered.not_has_of_last found past fun i c after => above i c (by omega))]
      · next before =>
        have has : cells[k - 1].Has addr :=
          ⟨below _ _ (by omega) found, Nat.lt_of_not_le before⟩
        rw [valid.walkFind_eq_some (perm.mem_iff.mp (List.getElem_mem inside)) has]

theorem Valid.find {g : State} (valid : Valid g) (addr : Nat) :
    ∃ g', largeIndexFind g addr = some (g', walkFind g addr) ∧ Valid g' ∧
      g'.largeObjects = g.largeObjects := by
  -- The search starts from a clean index.
  obtain ⟨h, cleaned, validH, same, clean⟩ : ∃ h,
      (if g.indexDirty then largeIndexRebuild g else some g) = some h ∧ Valid h ∧
        h.largeObjects = g.largeObjects ∧ h.indexDirty = false := by
    cases dirty : g.indexDirty with
    | true => exact valid.rebuild
    | false => exact ⟨g, rfl, valid, rfl, dirty⟩
  have walk : walkFind g addr = walkFind h addr := by rw [walkFind, walkFind, same]
  refine ⟨h, ?_, validH, same⟩
  rw [largeIndexFind, cleaned, walk, Option.bind_some, validH.search clean, Option.map_some]

theorem Valid.step {g g' : State} (valid : Valid g) (step : Step g g') : Valid g' := by
  cases step with
  | init enableNursery least =>
    unfold init
    split
    · exact valid
    · next fresh =>
      -- There was nothing to forget.
      have empty := valid.bare (Bool.eq_false_iff.mpr fresh)
      refine ⟨rfl, fun n member => (by cases member), List.Pairwise.nil, fun _ => ?_, fun _ => rfl,
        valid.noIndex, ?_⟩
      · exact Nat.lt_of_lt_of_le (by decide) least
      · have clean := valid.clean
        rw [empty] at clean
        exact clean
  | @alloc node header size ready enabled large fresh =>
    refine ⟨congrArg (· + 1) valid.count, ?_, ?_, valid.threshold, ?_, valid.noIndex,
      fun clean => (by cases clean)⟩
    · intro n member
      rcases List.mem_cons.mp member with rfl | member
      · exact Nat.lt_of_lt_of_le (valid.threshold ready) large
      · exact valid.proper n member
    · rw [allocLargeUnlocked, List.map_cons]
      refine List.Pairwise.cons (fun a member => ?_) valid.apart
      obtain ⟨n, inside, rfl⟩ := List.mem_map.mp member
      exact fresh n inside
    · intro bare
      rw [allocLargeUnlocked, ready] at bare
      cases bare
  | sweep ready marked =>
    have sub : (g.largeObjects.filter marked).Sublist g.largeObjects := List.filter_sublist
    refine ⟨?_, fun n member => valid.proper n (sub.subset member), ?_, valid.threshold, ?_,
      valid.noIndex, fun clean => (by cases clean)⟩
    · have parts := List.length_eq_length_filter_add (l := g.largeObjects) marked
      have count := valid.count
      simp only [sweepLargeUnlocked]
      omega
    · exact valid.apart.sublist (sub.map _)
    · intro bare
      rw [sweepLargeUnlocked, ready] at bare
      cases bare
  | dispose =>
    unfold dispose
    split
    · exact ⟨rfl, fun n member => (by cases member), List.Pairwise.nil,
        fun ready => (by cases ready), fun _ => rfl, fun _ => ⟨rfl, rfl⟩, fun _ => .inl ⟨rfl, rfl⟩⟩
    · exact valid
  | @find _ addr found done =>
    obtain ⟨h, same, validH, -⟩ := valid.find addr
    rw [done, Option.some.injEq, Prod.mk.injEq] at same
    exact same.1 ▸ validH

theorem Reachable.valid {g : State} (reachable : Reachable g) : Valid g := by
  induction reachable with
  | refl => exact start_valid
  | tail _ step ih => exact ih.step step

/-- A lookup in any state of any run gives what the walk of the list does. -/
theorem largeIndexFind_eq_walk (g : State) (reachable : Reachable g) (addr : Nat) :
    (∃ g', largeIndexFind g addr = some (g', walkFind g addr) ∧
      g'.largeObjects = g.largeObjects) ∧
      ∀ node, walkFind g addr = some node ↔
        ∃ n ∈ g.largeObjects, n.node = node ∧ n.header ≤ addr ∧ addr < n.header + n.totalSize := by
  have valid := reachable.valid
  obtain ⟨g', done, -, same⟩ := valid.find addr
  refine ⟨⟨g', done, same⟩, fun node => ⟨fun found => ?_, ?_⟩⟩
  · obtain ⟨n, here, rfl⟩ := Option.map_eq_some_iff.mp found
    have test := List.find?_some here
    have has : n.interval.Has addr := of_decide_eq_true test
    exact ⟨n, List.mem_of_find?_eq_some here, rfl, has⟩
  · rintro ⟨n, member, rfl, has⟩
    exact valid.walkFind_eq_some (List.mem_map_of_mem member) has

/-- A state with one object, after it was looked up. -/
def oneObject : State :=
  allocLargeUnlocked (init start true objectDataOffset) 64 4096 16

/-- The object is found at its last byte. -/
theorem largeIndexFind_eq_walk_one :
    (∃ g', largeIndexFind oneObject 4159 = some (g', walkFind oneObject 4159) ∧
      g'.largeObjects = oneObject.largeObjects) ∧
      ∀ node, walkFind oneObject 4159 = some node ↔
        ∃ n ∈ oneObject.largeObjects, n.node = node ∧ n.header ≤ 4159 ∧
          4159 < n.header + n.totalSize :=
  largeIndexFind_eq_walk oneObject
    ((Relation.ReflTransGen.single (Step.init true (Nat.le_refl _))).tail
      (.alloc rfl rfl (by decide) fun n member => (by cases member))) 4159

end Nytrix.Rt.LargeIndex
