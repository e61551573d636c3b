import Nytrix.Rt.GcForwarding

/-! Where the survivors of a collection of the nursery go, and the memory they leave. -/

namespace Nytrix.Rt.Gc

open Nytrix.Lib

variable {c : Config} {g : State} {h v x : Nat}

/-- What the promotion loop does with an object, by its mark and its age. -/
def fateAt (mem : Memory) (h : Nat) : Fate :=
  if isMarked mem h then if ageAt mem h + 1 < promotionAge then .stay else .leave else .drop

/-- The first word of a survivor's header after it was moved. -/
def promotedHead (w : Nat) : Nat :=
  if w / 2 ^ 32 + 1 < promotionAge then
    headWord (w % 2 ^ 32 &&& (2 ^ 32 - 1 - (markedFlag + tenuredFlag + scannedFlag)))
      (w / 2 ^ 32 + 1)
  else headWord ((w % 2 ^ 32 ||| tenuredFlag) &&& (2 ^ 32 - 1 - (markedFlag + scannedFlag)))
    promotionAge

theorem promotedHead_bounds (w : Nat) : promotedHead w < 2 ^ 48 ∧ promotedHead w % 2 = 0 := by
  have low : ∀ mask, w % 2 ^ 32 &&& mask ≤ w % 2 ^ 32 := fun mask => Nat.and_le_left
  have high : (w % 2 ^ 32 ||| tenuredFlag) < 2 ^ 32 :=
    Nat.or_lt_two_pow (Nat.mod_lt _ (by decide)) (by decide)
  have flags : ∀ x mask : Nat, mask % 2 = 0 → (x &&& mask) % 2 = 0 := fun x mask even => by
    have : (x &&& mask) % 2 ≠ 1 := by
      rw [Ne, Nat.and_mod_two_eq_one]
      omega
    omega
  rw [promotedHead, promotionAge]
  split
  · have masked := low (2 ^ 32 - 1 - (markedFlag + tenuredFlag + scannedFlag))
    have even := flags (w % 2 ^ 32) (2 ^ 32 - 1 - (markedFlag + tenuredFlag + scannedFlag)) (by decide)
    simp only [headWord]
    omega
  · have masked : (w % 2 ^ 32 ||| tenuredFlag) &&& (2 ^ 32 - 1 - (markedFlag + scannedFlag)) ≤
      w % 2 ^ 32 ||| tenuredFlag := Nat.and_le_left
    have even := flags (w % 2 ^ 32 ||| tenuredFlag) (2 ^ 32 - 1 - (markedFlag + scannedFlag)) (by decide)
    simp only [headWord]
    omega

theorem copy_store {mem : Memory} {dst src n w : Nat} :
    (mem.copy dst src n).store dst w = transfer (fun _ => w) src dst n mem := by
  funext x
  by_cases here : x = dst <;> simp [Memory.store, Memory.copy, transfer, here]

/-- The part of the moves that leads elsewhere, by the addresses of the objects. -/
def moved (ms : List (Nat × Nat)) : ForwardMap :=
  (ms.filter fun m => m.1 ≠ m.2).map fun m => (objPtr m.1, objPtr m.2)

theorem forwardPush_eq (map : ForwardMap) (src dst : Nat) :
    forwardPush map (objPtr src) (objPtr dst) = map ++ moved [(src, dst)] := by
  by_cases same : src = dst
  · simp [forwardPush, moved, same]
  · have elsewhere : ¬ (objPtr src = 0 ∨ objPtr src = objPtr dst) := by
      simp only [objPtr, objectDataOffset]
      omega
    rw [forwardPush, if_neg elsewhere]
    simp [moved, same]

theorem moved_cons (m : Nat × Nat) (ms : List (Nat × Nat)) :
    moved (m :: ms) = moved [m] ++ moved ms := by
  rw [← List.singleton_append]
  simp only [moved, List.filter_append, List.map_append]

theorem target_moved {ms : List (Nat × Nat)} (nodup : (ms.map Prod.fst).Nodup) (h : Nat) :
    target (moved ms) (h + 48) = target ms h + 48 := by
  induction ms with
  | nil => rfl
  | cons m ms ih =>
    obtain ⟨k, e⟩ := m
    simp only [List.map_cons, List.nodup_cons] at nodup
    have rest := ih nodup.2
    by_cases here : h = k
    · subst here
      by_cases still : h = e
      · -- It is not recorded, and no other move is its own.
        subst still
        rw [target_of_not_mem nodup.1] at rest
        have skipped : moved ((h, h) :: ms) = moved ms := by simp [moved]
        rw [skipped, rest]
        simp [target]
      · have pushed : moved ((h, e) :: ms) = (h + 48, e + 48) :: moved ms := by
          simp [moved, still, objPtr, objectDataOffset]
        simp [target, pushed]
    · have other : target ((k, e) :: ms) h = target ms h := by
        simp [target, List.lookup_cons, beq_false_of_ne here]
      rw [other, ← rest]
      by_cases still : k = e
      · have skipped : moved ((k, e) :: ms) = moved ms := by simp [moved, still]
        rw [skipped]
      · have pushed : moved ((k, e) :: ms) = (k + 48, e + 48) :: moved ms := by
          simp [moved, still, objPtr, objectDataOffset]
        have differ : h + 48 ≠ k + 48 := by omega
        rw [pushed, target, target, List.lookup_cons, beq_false_of_ne differ]

theorem forward_moved {ms : List (Nat × Nat)} (nodup : (ms.map Prod.fst).Nodup)
    (mapped : ∀ m ∈ ms, 0x1000 < m.1 ∧ m.1 % 16 = 0) (h : Nat) :
    forward (moved ms) (h + 48) = target ms h + 48 := by
  have nonnull : ∀ m ∈ moved ms, m.2 ≠ 0 := fun m member => by
    obtain ⟨n, -, rfl⟩ := List.mem_map.mp member
    simp [objPtr, objectDataOffset]
  by_cases pointer : isPtr (h + 48) = true
  · rw [forward_eq_target nonnull pointer, target_moved nodup]
  · -- Only addresses are sources of moves.
    have absent : h ∉ ms.map Prod.fst := fun listed => by
      obtain ⟨m, member, rfl⟩ := List.mem_map.mp listed
      have := mapped m member
      simp only [isPtr, Bool.and_eq_true, decide_eq_true_eq] at pointer
      omega
    rw [forward, if_neg fun both => pointer both.1, target_of_not_mem absent]

theorem forward_moved_of_ne {ms : List (Nat × Nat)} (other : ∀ m ∈ ms, v ≠ m.1 + 48) :
    forward (moved ms) v = v := by
  refine (forward_cases (moved ms) v).resolve_right fun listed => ?_
  obtain ⟨m, member, same⟩ := List.mem_map.mp listed
  simp only [objPtr, objectDataOffset, Prod.mk.injEq] at same
  exact other m (List.mem_filter.mp member).1 same.1.symm

theorem promoteOne_eq (s : Promotion) (positive : 0 < totalAt s.mem s.ptr) :
    promoteOne c s = match fateAt s.mem s.ptr with
      | .stay => some
          { s with mem := transfer promotedHead s.ptr s.nurseryTo (totalAt s.mem s.ptr) s.mem,
                   ptr := s.ptr + totalAt s.mem s.ptr,
                   nurseryTo := s.nurseryTo + totalAt s.mem s.ptr,
                   forwards := s.forwards ++ moved [(s.ptr, s.nurseryTo)] }
      | .leave => if s.tenuredFree + totalAt s.mem s.ptr ≤ c.tenuredLimit then some
          { s with mem := transfer promotedHead s.ptr s.tenuredFree (totalAt s.mem s.ptr) s.mem,
                   ptr := s.ptr + totalAt s.mem s.ptr,
                   tenuredFree := s.tenuredFree + totalAt s.mem s.ptr,
                   forwards := s.forwards ++ moved [(s.ptr, s.tenuredFree)] } else none
      | .drop => some { s with ptr := s.ptr + totalAt s.mem s.ptr } := by
  have older : (if ageAt s.mem s.ptr < 2 ^ 32 - 1 then ageAt s.mem s.ptr + 1 else ageAt s.mem s.ptr) <
      promotionAge ↔ ageAt s.mem s.ptr + 1 < promotionAge := by
    simp only [promotionAge]
    split <;> omega
  -- The first word of the copy is the one of the original.
  have first : ∀ dst, s.mem.copy dst s.ptr (totalAt s.mem s.ptr) dst = s.mem s.ptr := fun dst => by
    simp [Memory.copy, positive]
  have kept : (if s.nurseryTo ≠ s.ptr then s.mem.copy s.nurseryTo s.ptr (totalAt s.mem s.ptr)
      else s.mem) = s.mem.copy s.nurseryTo s.ptr (totalAt s.mem s.ptr) := by
    split
    · rfl
    · rename_i same
      funext y
      simp only [ne_eq, not_not] at same
      simp only [Memory.copy, same]
      split
      · rw [Nat.add_sub_cancel' (by omega)]
      · rfl
  have sameTransfer : ∀ (head : Nat → Nat) {w dst : Nat}, head (s.mem s.ptr) = w →
      transfer (fun _ => w) s.ptr dst (totalAt s.mem s.ptr) s.mem =
        transfer head s.ptr dst (totalAt s.mem s.ptr) s.mem := by
    rintro head w dst rfl
    rfl
  simp only [promoteOne, fateAt]
  by_cases marked : isMarked s.mem s.ptr = true
  · simp only [marked, if_true, kept, older]
    by_cases young : ageAt s.mem s.ptr + 1 < promotionAge
    · have grows : ageAt s.mem s.ptr < 2 ^ 32 - 1 := by
        simp only [promotionAge] at young
        omega
      simp only [young, if_true, grows, copy_store, forwardPush_eq]
      rw [sameTransfer promotedHead]
      simp only [ageAt] at young
      rw [promotedHead, if_pos young, flagsAt, first, ageAt]
    · simp only [young, if_false, copy_store, forwardPush_eq]
      rw [sameTransfer promotedHead]
      simp only [ageAt] at young
      rw [promotedHead, if_neg young, flagsAt, first]
  · simp only [marked, Bool.false_eq_true, if_false]

/-- The memory after objects were moved one after the other. -/
def relocate (base : Memory) (ms : List (Nat × Nat)) (mem : Memory) : Memory :=
  ms.foldl (fun mem m => transfer promotedHead m.1 m.2 (totalAt base m.1) mem) mem

theorem fateAt_congr {mem base : Memory} (head : mem h = base h) (size : mem (h + 8) = base (h + 8)) :
    fateAt mem h = fateAt base h ∧ totalAt mem h = totalAt base h := by
  have mark : isMarked mem h = isMarked base h := by rw [isMarked, isMarked, flagsAt, flagsAt, head]
  have age : ageAt mem h = ageAt base h := by rw [ageAt, ageAt, head]
  exact ⟨by rw [fateAt, fateAt, mark, age], by rw [totalAt, totalAt, sizeAt, sizeAt, size]⟩

/-- The promotion loop moves the survivors to their places, when tenured space has room for them. -/
theorem promoteLoop_eq {base : Memory} {p stop fuel : Nat} {hs : List Nat}
    (tiled : Tiled (totalAt base) p stop hs) (long : ∀ h ∈ hs, 48 ≤ totalAt base h)
    {s : Promotion} (cursor : s.ptr = p) (agree : ∀ x, p ≤ x → x < stop → s.mem x = base x)
    (below : s.nurseryTo ≤ p) (fits : s.tenuredFree ≤ c.tenuredLimit)
    (outside : stop ≤ s.tenuredFree ∨ c.tenuredLimit ≤ p) (enough : stop - p ≤ fuel) :
    promoteLoop c stop fuel s =
      if s.tenuredFree + extent (fateAt base) (totalAt base) .leave hs ≤ c.tenuredLimit then some
        { mem := relocate base
            (placements (fateAt base) (totalAt base) hs s.nurseryTo s.tenuredFree) s.mem
          ptr := stop
          nurseryTo := s.nurseryTo + extent (fateAt base) (totalAt base) .stay hs
          tenuredFree := s.tenuredFree + extent (fateAt base) (totalAt base) .leave hs
          forwards := s.forwards ++
            moved (placements (fateAt base) (totalAt base) hs s.nurseryTo s.tenuredFree) }
      else none := by
  induction tiled generalizing fuel s with
  | nil p =>
    have stopped : promoteLoop c p fuel s = some s := by
      cases fuel <;> simp [promoteLoop, cursor]
    obtain ⟨mem, ptr, home, away, forwards⟩ := s
    simp only at cursor fits
    subst cursor
    simp [stopped, fits, placements, relocate, moved]
  | @cons p stop rest positive more ih =>
    have ends := more.le
    have first := long p (by simp)
    have others : ∀ h ∈ rest, 48 ≤ totalAt base h := fun h later => long h (by simp [later])
    obtain ⟨fuel, rfl⟩ : ∃ k, fuel = k + 1 := ⟨fuel - 1, by omega⟩
    have left : stop - (p + totalAt base p) ≤ fuel := by omega
    have still : stop ≤ s.tenuredFree ∨ c.tenuredLimit ≤ p + totalAt base p := by omega
    -- The object at the cursor has not been touched yet.
    obtain ⟨sameFate, sameTotal⟩ := fateAt_congr (h := p) (agree p (by omega) (by omega))
      (agree (p + 8) (by omega) (by omega))
    have step := promoteOne_eq (c := c) s (by rw [cursor, sameTotal]; exact positive)
    rw [cursor, sameFate, sameTotal] at step
    rw [promoteLoop, if_pos (by omega), step]
    simp only [extent_cons, placements]
    cases kind : fateAt base p with
    | stay =>
      simp only [reduceCtorEq, if_false, if_true, Nat.zero_add]
      have next := ih (s :=
        { s with mem := transfer promotedHead p s.nurseryTo (totalAt base p) s.mem,
                 ptr := p + totalAt base p, nurseryTo := s.nurseryTo + totalAt base p,
                 forwards := s.forwards ++ moved [(p, s.nurseryTo)] }) others rfl
        (fun x low high => (transfer_outside positive (by omega)).trans (agree x (by omega) high))
        (Nat.add_le_add_right below _) fits still left
      refine next.trans ?_
      rw [moved_cons _ (placements _ _ rest _ _)]
      simp only [relocate, List.foldl_cons, List.append_assoc, Nat.add_assoc]
    | leave =>
      simp only [reduceCtorEq, if_false, if_true, Nat.zero_add]
      by_cases room : s.tenuredFree + totalAt base p ≤ c.tenuredLimit
      · rw [if_pos room]
        have next := ih (s :=
          { s with mem := transfer promotedHead p s.tenuredFree (totalAt base p) s.mem,
                   ptr := p + totalAt base p, tenuredFree := s.tenuredFree + totalAt base p,
                   forwards := s.forwards ++ moved [(p, s.tenuredFree)] }) others rfl
          (fun x low high => (transfer_outside positive (by omega)).trans (agree x (by omega) high))
          (Nat.le_trans below (Nat.le_add_right _ _)) room
          (still.imp (Nat.le_trans · (Nat.le_add_right _ _)) id) left
        refine next.trans ?_
        rw [moved_cons _ (placements _ _ rest _ _)]
        simp only [relocate, List.foldl_cons, List.append_assoc, Nat.add_assoc]
      · rw [if_neg room, if_neg (by omega)]
        rfl
    | drop =>
      simp only [reduceCtorEq, if_false, Nat.zero_add]
      exact ih (s := { s with ptr := p + totalAt base p }) others rfl
        (fun x low high => agree x (by omega) high) (Nat.le_trans below (Nat.le_add_right _ _)) fits
        still left

/--
What moving objects and redirecting references does to the heap.

The objects that are kept go to new places, with the words of their bodies; a word is redirected
as often as its slot is visited, and the slots of roots and references are visited.
-/
structure Relocation (c : Config) (g g' : State) (map : ForwardMap) (dst : Nat → Nat)
    (kept : Nat → Prop) (count : Nat → Nat) : Prop where
  layout : Layout c g'
  roots : g'.roots = g.roots
  regular : Regular c map
  object : ∀ k, k ∈ objects c g' ↔ ∃ h ∈ objects c g, kept h ∧ dst h = k
  injective : ∀ h ∈ objects c g, ∀ k ∈ objects c g, kept h → kept k → dst h = dst k → h = k
  dropped : ∀ h ∈ objects c g, ¬ kept h → dst h = h
  redirects : ∀ h ∈ objects c g, forward map (h + 48) = dst h + 48
  ignores : ∀ v, (∀ h ∈ objects c g, v ≠ h + 48) → forward map v = v
  size : ∀ h ∈ objects c g, kept h → sizeAt g'.mem (dst h) = sizeAt g.mem h
  cell : ∀ h ∈ objects c g, kept h → ∀ o, 8 ≤ o → o < totalAt g.mem h →
    g'.mem (dst h + o) = (forward map)^[count (dst h + o)] (g.mem (h + o))
  outside : ∀ x, Outside c g x → g'.mem x = (forward map)^[count x] (g.mem x)
  rootsVisited : ∀ slot ∈ g.roots, 0 < count slot
  tracedVisited : ∀ k ∈ objects c g', ∀ slot ∈ tracedSlots g'.mem k, 0 < count slot

/-- The state after all slots were redirected. -/
def redirected (c : Config) (map : ForwardMap) (g : State) : State :=
  { g with mem := (visits c g).foldl (forwardSlot map) g.mem }

theorem relocation_of_moves {s : State} {ms : List (Nat × Nat)} {kept : Nat → Prop}
    (lay : Layout c g) (after : Layout c s) (roots : s.roots = g.roots)
    (nonnull : ∀ slot ∈ s.remembered, slot ≠ 0) (nodup : (ms.map Prod.fst).Nodup)
    (mapped : ∀ m ∈ ms, 0x1000 < m.1 ∧ m.1 % 16 = 0) (sources : ∀ m ∈ ms, m.1 ∈ objects c g)
    (regular : Regular c (moved ms))
    (object : ∀ k, k ∈ objects c s ↔ ∃ h ∈ objects c g, kept h ∧ target ms h = k)
    (injective : ∀ h ∈ objects c g, ∀ k ∈ objects c g, kept h → kept k →
      target ms h = target ms k → h = k)
    (dropped : ∀ h ∈ objects c g, ¬ kept h → target ms h = h)
    (cells : ∀ h ∈ objects c g, kept h → ∀ o, 8 ≤ o → o < totalAt g.mem h →
      s.mem (target ms h + o) = g.mem (h + o))
    (outside : ∀ x, Outside c g x → s.mem x = g.mem x) :
    Relocation c g (redirected c (moved ms) s) (moved ms) (target ms) kept
      fun x => (visits c s).count x := by
  have slots := after.visits_nonnull nonnull
  have start : Forwarded (moved ms) s.mem s.mem := fun x => ⟨0, rfl⟩
  have forwarded := start.foldl slots
  have lists := after.forwarded regular forwarded
  have word : ∀ x, (redirected c (moved ms) s).mem x =
      (forward (moved ms))^[(visits c s).count x] (s.mem x) := foldl_forwardSlot slots _
  have same : objects c (redirected c (moved ms) s) = objects c s := by
    rw [objects, oldObjects, redirected, lists.2.1, lists.2.2]
    rfl
  refine { layout := lists.1, roots, regular, object := fun k => same ▸ object k, injective,
           dropped,
           redirects := fun h _ => forward_moved nodup mapped h, ignores := fun v other => ?_,
           size := fun h member kept => ?_, cell := fun h member kept o low high => ?_,
           outside := fun x out => ?_, rootsVisited := fun slot listed => ?_,
           tracedVisited := fun k member slot traced => ?_ }
  · exact forward_moved_of_ne fun m listed => other m.1 (sources m listed)
  · have room := (lay.sound h member).room
    have moved := (object _).mpr ⟨h, member, kept, rfl⟩
    exact ((after.forwarded_sound regular forwarded moved).2).trans
      (cells h member kept 8 (by omega) (by omega))
  · rw [word, cells h member kept o low high]
  · rw [word, outside x out]
  · exact List.count_pos_iff.mpr (List.mem_append_left _ (roots ▸ listed))
  · rw [same] at member
    rw [redirected, after.forwarded_tracedSlots regular forwarded member] at traced
    refine List.count_pos_iff.mpr ?_
    simp only [visits, List.mem_append, List.mem_flatMap]
    exact .inr (.inr ⟨k, member, traced⟩)

/-- Where the objects of the nursery go. -/
def survivorMoves (c : Config) (g : State) : List (Nat × Nat) :=
  placements (fateAt g.mem) (totalAt g.mem) (nurseryObjects c g) c.nurseryStart g.tenuredFree

/-- The end of the nursery after the promotion. -/
def nurseryEnd (c : Config) (g : State) : Nat :=
  c.nurseryStart + extent (fateAt g.mem) (totalAt g.mem) .stay (nurseryObjects c g)

/-- The end of tenured space after the promotion. -/
def tenuredEnd (c : Config) (g : State) : Nat :=
  g.tenuredFree + extent (fateAt g.mem) (totalAt g.mem) .leave (nurseryObjects c g)

/-- The state in which the survivors have moved and the references have not been redirected. -/
def promoted (c : Config) (g : State) : State :=
  { g with mem := (relocate g.mem (survivorMoves c g) g.mem).clear (nurseryEnd c g)
             (g.nurseryPtr - nurseryEnd c g)
           nurseryPtr := nurseryEnd c g
           tenuredFree := tenuredEnd c g }

theorem foldl_forwardSlot_nil (slots : List Nat) (mem : Memory) :
    slots.foldl (forwardSlot []) mem = mem := by
  induction slots with
  | nil => rfl
  | cons slot slots ih =>
    have same : forwardSlot [] mem slot = mem := by simp [forwardSlot, forwardFind]
    rw [List.foldl_cons, same, ih]

section Promoted

variable (lay : Layout c g)
include lay

theorem survivorMoves_bounds {d : Nat} (member : (h, d) ∈ survivorMoves c g) :
    h ∈ nurseryObjects c g ∧ d % 16 = 0 ∧
      ((fateAt g.mem h = .stay ∧ c.nurseryStart ≤ d ∧ d ≤ h ∧
          d + totalAt g.mem h ≤ nurseryEnd c g) ∨
        (fateAt g.mem h = .leave ∧ g.tenuredFree ≤ d ∧ d + totalAt g.mem h ≤ tenuredEnd c g)) := by
  have young : ∀ h ∈ nurseryObjects c g, totalAt g.mem h % 16 = 0 := fun h member =>
    (lay.sound h (List.mem_append_left _ member)).room.2
  have old : ∀ h ∈ tenuredObjects c g, totalAt g.mem h % 16 = 0 := fun h member =>
    (lay.sound h (by simp [objects, oldObjects, member])).room.2
  have placed := placement_bounds lay.nursery (Nat.le_refl _) member
  refine ⟨placed.1, ?_, placed.2⟩
  exact placement_aligned (k := 16) c.nurseryAligned
    (lay.tenured.aligned c.tenuredAligned old) young member

theorem nurseryEnd_le : nurseryEnd c g ≤ g.nurseryPtr := extent_le _ lay.nursery .stay

theorem tenured_outside (room : tenuredEnd c g ≤ c.tenuredLimit) :
    g.nurseryPtr ≤ g.tenuredFree ∨ tenuredEnd c g ≤ c.nurseryStart := by
  have spaces := c.apart
  have nurseryFits := lay.nurseryFits
  have tenuredLow := lay.tenured.le
  omega

theorem promoted_cell (room : tenuredEnd c g ≤ c.tenuredLimit) {d o : Nat}
    (member : (h, d) ∈ survivorMoves c g) (inside : o < totalAt g.mem h) :
    (promoted c g).mem (d + o) = if o = 0 then promotedHead (g.mem h) else g.mem (h + o) := by
  have outside := tenured_outside lay room
  have ends := nurseryEnd_le lay
  have bounds := survivorMoves_bounds lay member
  have orderly := placements_pairwise (fateAt g.mem) lay.nursery (Nat.le_refl _) outside
  have positive : ∀ m ∈ survivorMoves c g, 0 < totalAt g.mem m.1 := fun m listed =>
    (lay.nursery.bounds (survivorMoves_bounds lay listed).1).2.2
  have placed := (foldl_transfer (fun _ => promotedHead) g.mem positive orderly).1
    (h, d) member o inside
  have low : c.nurseryStart ≤ nurseryEnd c g := Nat.le_add_right _ _
  -- A new place never lies in the part of the nursery that is cleared.
  simp only [promoted, Memory.clear]
  rw [if_neg (by omega)]
  exact placed

theorem promoted_else (room : tenuredEnd c g ≤ c.tenuredLimit)
    (nursery : x < c.nurseryStart ∨ g.nurseryPtr ≤ x)
    (tenured : x < g.tenuredFree ∨ tenuredEnd c g ≤ x) : (promoted c g).mem x = g.mem x := by
  have outside := tenured_outside lay room
  have ends := nurseryEnd_le lay
  have orderly := placements_pairwise (fateAt g.mem) lay.nursery (Nat.le_refl _) outside
  have positive : ∀ m ∈ survivorMoves c g, 0 < totalAt g.mem m.1 := fun m listed =>
    (lay.nursery.bounds (survivorMoves_bounds lay listed).1).2.2
  have low : c.nurseryStart ≤ nurseryEnd c g := Nat.le_add_right _ _
  simp only [promoted, Memory.clear]
  rw [if_neg (by omega)]
  refine (foldl_transfer (fun _ => promotedHead) g.mem positive orderly).2 x
    fun m listed => ?_
  have bounds := survivorMoves_bounds lay (h := m.1) (d := m.2) listed
  omega

theorem promoted_old (room : tenuredEnd c g ≤ c.tenuredLimit) (old : h ∈ oldObjects c g) {o : Nat}
    (inside : o < totalAt g.mem h) : (promoted c g).mem (h + o) = g.mem (h + o) := by
  have spaces := c.apart
  have grown : g.tenuredFree ≤ tenuredEnd c g := Nat.le_add_right _ _
  have nurseryFits := lay.nurseryFits
  have nurseryLow := lay.nursery.le
  have tenuredLow := lay.tenured.le
  rcases List.mem_append.mp old with tenured | large
  · have bounds := lay.tenured_bounds tenured
    exact promoted_else lay room (by omega) (by omega)
  · obtain ⟨block, -, -⟩ := lay.large_bounds large
    have nursery := block.nursery
    have tenured := block.tenured
    simp only [Apart] at nursery tenured
    exact promoted_else lay room (by omega) (by omega)

theorem promoted_sound (room : tenuredEnd c g ≤ c.tenuredLimit) {d : Nat}
    (member : (h, d) ∈ survivorMoves c g) :
    Sound (promoted c g).mem d ∧ sizeAt (promoted c g).mem d = sizeAt g.mem h := by
  have bounds := survivorMoves_bounds lay member
  have sound := lay.sound h (List.mem_append_left _ bounds.1)
  refine sound.copied bounds.2.1 (fun o low high => ?_) ?_
  · rw [promoted_cell lay room member high, if_neg (by omega)]
  · have head := promoted_cell lay room member (o := 0) (by have := sound.room; omega)
    rw [Nat.add_zero, if_pos rfl] at head
    rw [head]
    exact (promotedHead_bounds _).1

theorem promoted_sound_old (room : tenuredEnd c g ≤ c.tenuredLimit) (old : h ∈ oldObjects c g) :
    Sound (promoted c g).mem h ∧ sizeAt (promoted c g).mem h = sizeAt g.mem h := by
  have sound := lay.sound h (List.mem_append_right _ old)
  refine sound.copied sound.aligned (fun o low high => promoted_old lay room old high) ?_
  have head := promoted_old lay room old (o := 0) (by have := sound.room; omega)
  rw [Nat.add_zero] at head
  rw [head]
  exact sound.head

/-- The new places of the survivors of one fate. -/
def places (c : Config) (g : State) (kind : Fate) : List Nat :=
  ((survivorMoves c g).filter fun m => fateAt g.mem m.1 = kind).map Prod.snd

omit lay in
/-- A place of one fate is where an object of that fate goes. -/
theorem mem_places {kind : Fate} {d : Nat} :
    d ∈ places c g kind ↔ ∃ h, (h, d) ∈ survivorMoves c g ∧ fateAt g.mem h = kind := by
  simp [places]

theorem promoted_layout (room : tenuredEnd c g ≤ c.tenuredLimit) :
    Layout c (promoted c g) ∧ nurseryObjects c (promoted c g) = places c g .stay ∧
      tenuredObjects c (promoted c g) = tenuredObjects c g ++ places c g .leave := by
  have long : ∀ h ∈ nurseryObjects c g, 0 < totalAt g.mem h := fun h member =>
    (lay.nursery.bounds member).2.2
  have fresh : ∀ m ∈ survivorMoves c g, totalAt (promoted c g).mem m.2 = totalAt g.mem m.1 :=
    fun m member => by rw [totalAt, (promoted_sound lay room (h := m.1) member).2, totalAt]
  have same : ∀ h ∈ oldObjects c g, totalAt (promoted c g).mem h = totalAt g.mem h :=
    fun h old => by rw [totalAt, (promoted_sound_old lay room old).2, totalAt]
  obtain ⟨stays, leaves⟩ := placements_tiled fresh long
  have nursery : nurseryObjects c (promoted c g) = places c g .stay := nurseryObjects_eq stays
  have tiled := (lay.tenured.congr fun h member => same h (List.mem_append_left _ member)).append leaves
  have tenured : tenuredObjects c (promoted c g) = tenuredObjects c g ++ places c g .leave :=
    tenuredObjects_eq tiled
  -- Every object is a moved survivor or an old one.
  have origin : ∀ k ∈ objects c (promoted c g),
      (∃ h, (h, k) ∈ survivorMoves c g) ∨ k ∈ oldObjects c g := by
    intro k member
    simp only [objects, oldObjects, nursery, tenured, List.mem_append, mem_places] at member
    rcases member with ⟨h, moved, -⟩ | ((old | ⟨h, moved, -⟩) | large)
    · exact .inl ⟨h, moved⟩
    · exact .inr (List.mem_append_left _ old)
    · exact .inl ⟨h, moved⟩
    · exact .inr (List.mem_append_right _ large)
  refine ⟨{ nursery := nursery ▸ stays
            nurseryFits := Nat.le_trans (nurseryEnd_le lay) lay.nurseryFits
            tenured := tenured ▸ tiled, tenuredFits := room
            blocks := fun l listed => ?_, blocksApart := lay.blocksApart
            sound := fun k member => ?_, modest := fun k member => ?_
            roots := lay.roots }, nursery, tenured⟩
  · rw [same l.header (List.mem_append_right _ (List.mem_map_of_mem listed))]
    exact lay.blocks l listed
  · rcases origin k member with ⟨h, moved⟩ | old
    · exact (promoted_sound lay room moved).1
    · exact (promoted_sound_old lay room old).1
  · rcases origin k member with ⟨h, moved⟩ | old
    · rw [(promoted_sound lay room moved).2]
      exact lay.modest h (List.mem_append_left _ (survivorMoves_bounds lay moved).1)
    · rw [(promoted_sound_old lay room old).2]
      exact lay.modest k (List.mem_append_right _ old)

theorem moved_regular (room : tenuredEnd c g ≤ c.tenuredLimit) :
    Regular c (moved (survivorMoves c g)) := by
  intro m listed
  obtain ⟨⟨h, d⟩, member, rfl⟩ := List.mem_map.mp listed
  have bounds := survivorMoves_bounds lay (List.mem_filter.mp member).1
  have young := lay.nursery_bounds bounds.1
  have ends := nurseryEnd_le lay
  have tenuredLow := lay.tenured.le
  have nurseryUser := c.nurseryUser
  have tenuredUser := c.tenuredUser
  simp only [objPtr, objectDataOffset]
  exact ⟨⟨by omega, by omega, by omega⟩, ⟨by omega, by omega, by omega⟩⟩

theorem survivorMoves_sources :
    ((survivorMoves c g).map Prod.fst).Nodup ∧
      ∀ m ∈ survivorMoves c g, 0x1000 < m.1 ∧ m.1 % 16 = 0 := by
  refine ⟨placements_nodup lay.nursery, fun m member => ?_⟩
  have young := lay.nursery_bounds (survivorMoves_bounds lay (h := m.1) (d := m.2) member).1
  have mapped := c.nurseryMapped
  omega

theorem old_not_source (old : h ∈ oldObjects c g) : h ∉ (survivorMoves c g).map Prod.fst := by
  intro listed
  obtain ⟨m, member, rfl⟩ := List.mem_map.mp listed
  have young := (survivorMoves_bounds lay (h := m.1) (d := m.2) member).1
  exact (List.nodup_append.mp lay.nodup).2.2 _ young _ old rfl

theorem survivorMoves_injective (room : tenuredEnd c g ≤ c.tenuredLimit) {k d : Nat}
    (first : (h, d) ∈ survivorMoves c g) (second : (k, d) ∈ survivorMoves c g) : h = k := by
  have one := survivorMoves_bounds lay first
  have two := survivorMoves_bounds lay second
  have long := lay.nursery_bounds one.1
  have long' := lay.nursery_bounds two.1
  have outside := tenured_outside lay room
  have ends := nurseryEnd_le lay
  obtain ⟨after, nursery, tenured⟩ := promoted_layout lay room
  have nodup : ∀ kind, (places c g kind).Nodup → fateAt g.mem h = kind → fateAt g.mem k = kind →
      h = k := fun kind nodup here there => by
    have same := List.inj_on_of_nodup_map nodup (List.mem_filter.mpr ⟨first, by simpa using here⟩)
      (List.mem_filter.mpr ⟨second, by simpa using there⟩) rfl
    exact congrArg Prod.fst same
  have stays : (places c g .stay).Nodup := nursery ▸ after.nursery.nodup
  have leaves : (places c g .leave).Nodup :=
    (List.nodup_append.mp (tenured ▸ after.tenured.nodup)).2.1
  rcases one.2.2 with ⟨kind, low⟩ | ⟨kind, low⟩ <;> rcases two.2.2 with ⟨kind', low'⟩ | ⟨kind', low'⟩
  · exact nodup .stay stays kind kind'
  · omega
  · omega
  · exact nodup .leave leaves kind kind'

theorem promoteSurvivors_eq (nonnull : ∀ slot ∈ g.remembered, slot ≠ 0) :
    promoteSurvivors c g = if tenuredEnd c g ≤ c.tenuredLimit then
      some (redirected c (moved (survivorMoves c g)) (promoted c g)) else none := by
  have spaces := c.apart
  have nurseryFits := lay.nurseryFits
  have tenuredLow := lay.tenured.le
  have side : g.nurseryPtr ≤ g.tenuredFree ∨ c.tenuredLimit ≤ c.nurseryStart := by omega
  have loop := promoteLoop_eq (c := c) lay.nursery
    (fun h member => (lay.nursery_bounds member).2.2.2.1)
    (s := ⟨g.mem, c.nurseryStart, c.nurseryStart, g.tenuredFree, []⟩) rfl (fun _ _ _ => rfl)
    (Nat.le_refl _) lay.tenuredFits side (Nat.le_refl _)
  rw [promoteSurvivors, loop]
  by_cases room : tenuredEnd c g ≤ c.tenuredLimit
  · have apply := applyForwards_eq (promoted_layout lay room).1 (moved_regular lay room) nonnull
    simp only [tenuredEnd] at room
    rw [if_pos room, tenuredEnd, if_pos room]
    simp only [Option.bind_eq_bind, Option.bind_some, List.nil_append]
    -- Where nothing moved, the references are left alone, which is the same.
    split
    · rename_i none
      have none : moved (survivorMoves c g) = [] := none
      rw [redirected, none, foldl_forwardSlot_nil]
      rfl
    · exact congrArg some apply
  · simp only [tenuredEnd] at room
    rw [if_neg room, tenuredEnd, if_neg room]
    rfl

/-- What the promotion keeps: the old objects and the marked ones of the nursery. -/
def KeptByPromotion (c : Config) (g : State) (h : Nat) : Prop :=
  h ∈ oldObjects c g ∨ fateAt g.mem h ≠ .drop

theorem target_old (old : h ∈ oldObjects c g) : target (survivorMoves c g) h = h :=
  target_of_not_mem (old_not_source lay old)

theorem survivor_placed (member : h ∈ objects c g) (kept : KeptByPromotion c g h)
    (young : h ∉ oldObjects c g) : (h, target (survivorMoves c g) h) ∈ survivorMoves c g := by
  have inNursery : h ∈ nurseryObjects c g := (List.mem_append.mp member).resolve_right young
  obtain ⟨d, listed⟩ : ∃ d, (h, d) ∈ survivorMoves c g :=
    exists_placement inNursery (kept.resolve_left young)
  rwa [target_of_mem (survivorMoves_sources lay).1 listed]

theorem promoted_object_iff (room : tenuredEnd c g ≤ c.tenuredLimit) (k : Nat) :
    k ∈ objects c (promoted c g) ↔
      ∃ h ∈ objects c g, KeptByPromotion c g h ∧ target (survivorMoves c g) h = k := by
  obtain ⟨-, nursery, tenured⟩ := promoted_layout lay room
  have nodup := (survivorMoves_sources lay).1
  have large : largeObjects (promoted c g) = largeObjects g := rfl
  simp only [objects, oldObjects, nursery, tenured, large, List.mem_append, mem_places]
  constructor
  · rintro (⟨h, listed, kind⟩ | (old | ⟨h, listed, kind⟩) | old)
    · exact ⟨h, .inl (survivorMoves_bounds lay listed).1, .inr (by simp [kind]),
        target_of_mem nodup listed⟩
    · exact ⟨k, .inr (.inl old), .inl (List.mem_append_left _ old),
        target_old lay (List.mem_append_left _ old)⟩
    · exact ⟨h, .inl (survivorMoves_bounds lay listed).1, .inr (by simp [kind]),
        target_of_mem nodup listed⟩
    · exact ⟨k, .inr (.inr old), .inl (List.mem_append_right _ old),
        target_old lay (List.mem_append_right _ old)⟩
  · rintro ⟨h, member, kept, rfl⟩
    by_cases old : h ∈ oldObjects c g
    · rw [target_old lay old]
      rcases List.mem_append.mp old with inTenured | large
      · exact .inr (.inl (.inl inTenured))
      · exact .inr (.inr large)
    · have listed := survivor_placed lay (by simpa [objects, oldObjects] using member) kept old
      rcases (survivorMoves_bounds lay listed).2.2 with ⟨kind, -⟩ | ⟨kind, -⟩
      · exact .inl ⟨h, listed, kind⟩
      · exact .inr (.inl (.inr ⟨h, listed, kind⟩))

theorem target_ne_old (member : h ∈ objects c g) (kept : KeptByPromotion c g h)
    (young : h ∉ oldObjects c g) {k : Nat} (old : k ∈ oldObjects c g)
    (room : tenuredEnd c g ≤ c.tenuredLimit) : target (survivorMoves c g) h ≠ k := by
  intro here
  have bounds := survivorMoves_bounds lay (survivor_placed lay member kept young)
  have inside := lay.nursery_bounds bounds.1
  have ends := nurseryEnd_le lay
  have spaces := c.apart
  have tenuredLow := lay.tenured.le
  rcases List.mem_append.mp old with inTenured | large
  · have := lay.tenured_bounds inTenured
    omega
  · obtain ⟨block, -, long⟩ := lay.large_bounds large
    have nursery := block.nursery
    have tenured := block.tenured
    simp only [Apart] at nursery tenured
    omega

theorem target_injective (room : tenuredEnd c g ≤ c.tenuredLimit) :
    ∀ h ∈ objects c g, ∀ k ∈ objects c g, KeptByPromotion c g h → KeptByPromotion c g k →
      target (survivorMoves c g) h = target (survivorMoves c g) k → h = k := by
  intro h first k second keptFirst keptSecond shared
  by_cases oldFirst : h ∈ oldObjects c g
  · by_cases oldSecond : k ∈ oldObjects c g
    · rwa [target_old lay oldFirst, target_old lay oldSecond] at shared
    · rw [target_old lay oldFirst] at shared
      exact absurd shared.symm (target_ne_old lay second keptSecond oldSecond oldFirst room)
  · by_cases oldSecond : k ∈ oldObjects c g
    · rw [target_old lay oldSecond] at shared
      exact absurd shared (target_ne_old lay first keptFirst oldFirst oldSecond room)
    · have one := survivor_placed lay first keptFirst oldFirst
      have two := survivor_placed lay second keptSecond oldSecond
      rw [shared] at one
      exact survivorMoves_injective lay room one two

theorem promotion (nonnull : ∀ slot ∈ g.remembered, slot ≠ 0)
    (room : tenuredEnd c g ≤ c.tenuredLimit) :
    Relocation c g (redirected c (moved (survivorMoves c g)) (promoted c g))
      (moved (survivorMoves c g)) (target (survivorMoves c g)) (KeptByPromotion c g)
      fun x => (visits c (promoted c g)).count x := by
  obtain ⟨nodup, mapped⟩ := survivorMoves_sources lay
  refine relocation_of_moves lay (promoted_layout lay room).1 rfl nonnull nodup mapped
    (fun m listed => ?_) (moved_regular lay room) (promoted_object_iff lay room)
    (target_injective lay room) (fun h member lost => ?_) (fun h member kept o low high => ?_)
    fun x out => ?_
  · exact List.mem_append_left _ (survivorMoves_bounds lay (h := m.1) (d := m.2) listed).1
  · -- A source of a move is not dropped.
    refine target_of_not_mem fun listed => lost (.inr ?_)
    obtain ⟨m, placed, rfl⟩ := List.mem_map.mp listed
    rcases (survivorMoves_bounds lay (h := m.1) (d := m.2) placed).2.2 with ⟨kind, -⟩ | ⟨kind, -⟩ <;>
      simp [kind]
  · by_cases old : h ∈ oldObjects c g
    · rw [target_old lay old]
      exact promoted_old lay room old high
    · rw [promoted_cell lay room (survivor_placed lay member kept old) high, if_neg (by omega)]
  · have nurseryFits := lay.nurseryFits
    have tenuredLow := lay.tenured.le
    exact promoted_else lay room (by have := out.1; omega) (by have := out.2.1; omega)

end Promoted

end Nytrix.Rt.Gc
