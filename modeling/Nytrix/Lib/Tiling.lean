import Mathlib.Algebra.Order.Ring.Int
import Mathlib.Data.List.Basic
import Mathlib.Data.List.Pairwise

/-! Records laid end to end in a memory of cells, and their orderly transfer to new addresses. -/

namespace Nytrix.Lib

/-- Records of given lengths, laid end to end from one address to another. -/
inductive Tiled (len : Nat → Nat) : Nat → Nat → List Nat → Prop
  | nil (p : Nat) : Tiled len p p []
  | cons {p q : Nat} {rest : List Nat} (positive : 0 < len p) (more : Tiled len (p + len p) q rest) :
      Tiled len p q (p :: rest)

/-- The addresses a walk from record to record visits before it reaches the end. -/
def tiles (len : Nat → Nat) : Nat → Nat → Nat → List Nat
  | 0, _, _ => []
  | fuel + 1, p, stop => if p < stop then p :: tiles len fuel (p + len p) stop else []

variable {len len' : Nat → Nat} {p q r : Nat} {hs rest : List Nat}

namespace Tiled

theorem le (tiled : Tiled len p q hs) : p ≤ q := by
  induction tiled with
  | nil => exact Nat.le_refl _
  | cons _ _ ih => omega

theorem bounds (tiled : Tiled len p q hs) {h : Nat} (member : h ∈ hs) :
    p ≤ h ∧ h + len h ≤ q ∧ 0 < len h := by
  induction tiled with
  | nil => cases member
  | cons positive more ih =>
    have ends := more.le
    rcases List.mem_cons.mp member with rfl | later
    · exact ⟨Nat.le_refl _, ends, positive⟩
    · have inside := ih later
      omega

theorem pairwise (tiled : Tiled len p q hs) : hs.Pairwise fun a b => a + len a ≤ b := by
  induction tiled with
  | nil => exact .nil
  | cons _ more ih => exact .cons (fun h member => (more.bounds member).1) ih

theorem nodup (tiled : Tiled len p q hs) : hs.Nodup := by
  induction tiled with
  | nil => exact .nil
  | cons positive more ih =>
    refine List.nodup_cons.mpr ⟨fun again => ?_, ih⟩
    have := (more.bounds again).1
    omega

theorem length_le (tiled : Tiled len p q hs) : hs.length ≤ q - p := by
  induction tiled with
  | nil => simp
  | cons positive more ih =>
    have := more.le
    rw [List.length_cons]
    omega

theorem aligned (tiled : Tiled len p q hs) {k : Nat} (start : p % k = 0)
    (each : ∀ h ∈ hs, len h % k = 0) : q % k = 0 := by
  induction tiled with
  | nil => exact start
  | @cons p q rest _ _ ih =>
    have first := each p (by simp)
    refine ih ?_ fun h member => each h (by simp [member])
    rw [Nat.add_mod, start, first, Nat.zero_add, Nat.zero_mod]

theorem apart (tiled : Tiled len p q hs) {a b : Nat} (first : a ∈ hs) (second : b ∈ hs)
    (differ : a ≠ b) : a + len a ≤ b ∨ b + len b ≤ a := by
  induction tiled with
  | nil => cases first
  | cons _ more ih =>
    rcases List.mem_cons.mp first with rfl | firstLater
    · rcases List.mem_cons.mp second with rfl | secondLater
      · exact absurd rfl differ
      · exact .inl (more.bounds secondLater).1
    · rcases List.mem_cons.mp second with rfl | secondLater
      · exact .inr (more.bounds firstLater).1
      · exact ih firstLater secondLater

theorem covers (tiled : Tiled len p q hs) {x : Nat} (low : p ≤ x) (high : x < q) :
    ∃ h ∈ hs, h ≤ x ∧ x < h + len h := by
  induction tiled with
  | nil => omega
  | @cons p q rest positive more ih =>
    rcases Nat.lt_or_ge x (p + len p) with within | beyond
    · exact ⟨p, by simp, low, within⟩
    · obtain ⟨h, member, inside⟩ := ih beyond high
      exact ⟨h, by simp [member], inside⟩

theorem congr (tiled : Tiled len p q hs) (same : ∀ h ∈ hs, len' h = len h) :
    Tiled len' p q hs := by
  induction tiled with
  | nil => exact .nil _
  | @cons p q rest positive more ih =>
    have first : len' p = len p := same p (by simp)
    refine .cons (first ▸ positive) ?_
    rw [first]
    exact ih fun h member => same h (by simp [member])

theorem append (tiled : Tiled len p q hs) (more : Tiled len q r rest) :
    Tiled len p r (hs ++ rest) := by
  induction tiled with
  | nil => exact more
  | cons positive _ ih => exact .cons positive (ih more)

theorem snoc (tiled : Tiled len p q hs) (positive : 0 < len q) :
    Tiled len p (q + len q) (hs ++ [q]) :=
  tiled.append (.cons positive (.nil _))

theorem tiles_eq (tiled : Tiled len p q hs) {fuel : Nat} (enough : q - p ≤ fuel) :
    tiles len fuel p q = hs := by
  induction tiled generalizing fuel with
  | nil p => cases fuel <;> simp [tiles]
  | @cons p q rest positive more ih =>
    have ends := more.le
    obtain ⟨fuel, rfl⟩ : ∃ k, fuel = k + 1 := ⟨fuel - 1, by omega⟩
    rw [tiles, if_pos (by omega), ih (by omega)]

end Tiled

/-- What becomes of a record: it stays in its space, leaves for another one, or is dropped. -/
inductive Fate where
  | stay
  | leave
  | drop
  deriving DecidableEq

/-- The cells taken by the records of one fate. -/
def extent (fate : Nat → Fate) (len : Nat → Nat) (kind : Fate) (hs : List Nat) : Nat :=
  ((hs.filter fun h => fate h = kind).map len).sum

/-- Where the records go: those that stay from one cursor on, those that leave from another. -/
def placements (fate : Nat → Fate) (len : Nat → Nat) : List Nat → Nat → Nat → List (Nat × Nat)
  | [], _, _ => []
  | h :: hs, home, away => match fate h with
    | .stay => (h, home) :: placements fate len hs (home + len h) away
    | .leave => (h, away) :: placements fate len hs home (away + len h)
    | .drop => placements fate len hs home away

section Extent

variable {fate : Nat → Fate}

@[simp] theorem extent_nil (kind : Fate) : extent fate len kind [] = 0 := rfl

theorem extent_cons (kind : Fate) (h : Nat) :
    extent fate len kind (h :: hs) =
      (if fate h = kind then len h else 0) + extent fate len kind hs := by
  by_cases same : fate h = kind <;> simp [extent, same]

theorem extent_le (fate : Nat → Fate) (tiled : Tiled len p q hs) (kind : Fate) : p + extent fate len kind hs ≤ q := by
  induction tiled with
  | nil => simp
  | cons _ _ ih =>
    rw [extent_cons]
    split <;> omega

theorem extent_congr {fate' : Nat → Fate} (kind : Fate) (fates : ∀ h ∈ hs, fate' h = fate h)
    (lens : ∀ h ∈ hs, len' h = len h) : extent fate' len' kind hs = extent fate len kind hs := by
  induction hs with
  | nil => rfl
  | cons h hs ih =>
    rw [extent_cons, extent_cons, fates h (by simp), lens h (by simp),
      ih (fun k member => fates k (by simp [member])) fun k member => lens k (by simp [member])]

end Extent

/-- Two stretches of cells share none. -/
def Apart (a m b n : Nat) : Prop := a + m ≤ b ∨ b + n ≤ a

section Placements

variable {fate : Nat → Fate} {home away : Nat}

theorem placements_sources :
    (placements fate len hs home away).map Prod.fst = hs.filter fun h => fate h ≠ .drop := by
  induction hs generalizing home away with
  | nil => rfl
  | cons h hs ih =>
    rw [placements]
    cases kind : fate h <;> simp [kind, ih]

theorem placements_nodup (tiled : Tiled len p q hs) :
    ((placements fate len hs home away).map Prod.fst).Nodup := by
  rw [placements_sources]
  exact tiled.nodup.filter _

theorem exists_placement {h : Nat} (member : h ∈ hs) (kept : fate h ≠ .drop) :
    ∃ d, (h, d) ∈ placements fate len hs home away := by
  have source : h ∈ (placements fate len hs home away).map Prod.fst := by
    rw [placements_sources]
    exact List.mem_filter.mpr ⟨member, by simpa using kept⟩
  obtain ⟨⟨_, d⟩, placed, rfl⟩ := List.mem_map.mp source
  exact ⟨d, placed⟩

theorem placement_bounds (tiled : Tiled len p q hs) (below : home ≤ p) {h d : Nat}
    (member : (h, d) ∈ placements fate len hs home away) :
    h ∈ hs ∧
      ((fate h = .stay ∧ home ≤ d ∧ d ≤ h ∧ d + len h ≤ home + extent fate len .stay hs) ∨
        (fate h = .leave ∧ away ≤ d ∧ d + len h ≤ away + extent fate len .leave hs)) := by
  induction tiled generalizing home away with
  | nil => cases member
  | @cons p q rest positive more ih =>
    rw [placements] at member
    simp only [extent_cons]
    cases kind : fate p with
    | stay =>
      simp only [kind, List.mem_cons, Prod.mk.injEq] at member
      rcases member with ⟨rfl, rfl⟩ | later
      · exact ⟨by simp, .inl ⟨kind, by simp, below, by simp⟩⟩
      · have placed := ih (by omega) later
        simp only [reduceCtorEq, if_true, if_false]
        exact ⟨by simp [placed.1], placed.2.imp
          (fun ⟨stays, low, down, high⟩ => ⟨stays, by omega, down, by omega⟩)
          fun ⟨leaves, low, high⟩ => ⟨leaves, by omega, by omega⟩⟩
    | leave =>
      simp only [kind, List.mem_cons, Prod.mk.injEq] at member
      rcases member with ⟨rfl, rfl⟩ | later
      · exact ⟨by simp, .inr ⟨kind, by simp, by simp⟩⟩
      · have placed := ih (by omega) later
        simp only [reduceCtorEq, if_true, if_false]
        exact ⟨by simp [placed.1], placed.2.imp
          (fun ⟨stays, low, down, high⟩ => ⟨stays, by omega, down, by omega⟩)
          fun ⟨leaves, low, high⟩ => ⟨leaves, by omega, by omega⟩⟩
    | drop =>
      simp only [kind] at member
      have placed := ih (by omega) member
      simp only [reduceCtorEq, if_false, Nat.zero_add]
      exact ⟨by simp [placed.1], placed.2⟩

theorem placements_pairwise (fate : Nat → Fate) (tiled : Tiled len p q hs) (below : home ≤ p)
    (outside : q ≤ away ∨ away + extent fate len .leave hs ≤ home) :
    (placements fate len hs home away).Pairwise fun a b =>
      Apart a.2 (len a.1) b.1 (len b.1) ∧ Apart a.2 (len a.1) b.2 (len b.1) := by
  induction tiled generalizing home away with
  | nil => exact .nil
  | @cons p q rest positive more ih =>
    have ends := more.le
    have fits := extent_le fate more .stay
    rw [placements]
    simp only [extent_cons] at outside
    cases kind : fate p with
    | stay =>
      simp only [kind, reduceCtorEq, if_false, Nat.zero_add] at outside
      refine .cons (fun ⟨h, d⟩ later => ?_) (ih (by omega) (by omega))
      have placed := placement_bounds more (by omega) later
      have inside := more.bounds placed.1
      simp only [Apart]
      omega
    | leave =>
      simp only [kind, if_true] at outside
      refine .cons (fun ⟨h, d⟩ later => ?_) (ih (by omega) (by omega))
      have placed := placement_bounds more (by omega) later
      have inside := more.bounds placed.1
      simp only [Apart]
      omega
    | drop =>
      simp only [kind, reduceCtorEq, if_false, Nat.zero_add] at outside
      exact ih (by omega) (by omega)

theorem placements_tiled (fresh : ∀ m ∈ placements fate len hs home away, len' m.2 = len m.1)
    (positive : ∀ h ∈ hs, 0 < len h) :
    Tiled len' home (home + extent fate len .stay hs)
        (((placements fate len hs home away).filter fun m => fate m.1 = .stay).map Prod.snd) ∧
      Tiled len' away (away + extent fate len .leave hs)
        (((placements fate len hs home away).filter fun m => fate m.1 = .leave).map Prod.snd) := by
  induction hs generalizing home away with
  | nil => exact ⟨.nil _, .nil _⟩
  | cons h hs ih =>
    have long : 0 < len h := positive h (by simp)
    have others : ∀ k ∈ hs, 0 < len k := fun k member => positive k (by simp [member])
    rw [placements] at fresh ⊢
    simp only [extent_cons]
    cases kind : fate h with
    | stay =>
      simp only [kind, List.mem_cons, forall_eq_or_imp] at fresh
      obtain ⟨stays, leaves⟩ := ih fresh.2 others
      simp only [kind, decide_true, List.filter_cons_of_pos, List.map_cons, reduceCtorEq,
        decide_false, Bool.false_eq_true, not_false_eq_true, List.filter_cons_of_neg, if_true,
        if_false, Nat.zero_add]
      refine ⟨.cons (by omega) ?_, leaves⟩
      rw [fresh.1, ← Nat.add_assoc]
      exact stays
    | leave =>
      simp only [kind, List.mem_cons, forall_eq_or_imp] at fresh
      obtain ⟨stays, leaves⟩ := ih fresh.2 others
      simp only [kind, decide_true, List.filter_cons_of_pos, List.map_cons, reduceCtorEq,
        decide_false, Bool.false_eq_true, not_false_eq_true, List.filter_cons_of_neg, if_true,
        if_false, Nat.zero_add]
      refine ⟨stays, .cons (by omega) ?_⟩
      rw [fresh.1, ← Nat.add_assoc]
      exact leaves
    | drop =>
      simp only [kind] at fresh
      simpa [kind] using ih fresh others

theorem placement_aligned {k : Nat} (first : home % k = 0) (second : away % k = 0)
    (each : ∀ h ∈ hs, len h % k = 0) {m : Nat × Nat}
    (member : m ∈ placements fate len hs home away) : m.2 % k = 0 := by
  induction hs generalizing home away with
  | nil => cases member
  | cons h hs ih =>
    have long := each h (by simp)
    have others : ∀ h ∈ hs, len h % k = 0 := fun h later => each h (by simp [later])
    have next : ∀ {a : Nat}, a % k = 0 → (a + len h) % k = 0 := fun {a} aligned => by
      rw [Nat.add_mod, aligned, long, Nat.zero_add, Nat.zero_mod]
    rw [placements] at member
    cases kind : fate h with
    | stay =>
      simp only [kind, List.mem_cons] at member
      rcases member with rfl | later
      · exact first
      · exact ih (next first) second others later
    | leave =>
      simp only [kind, List.mem_cons] at member
      rcases member with rfl | later
      · exact second
      · exact ih first (next second) others later
    | drop =>
      simp only [kind] at member
      exact ih first second others member

theorem placement_eq_slide (tiled : Tiled len p q hs) {h d : Nat}
    (member : (h, d) ∈ placements fate len hs home away) (stays : fate h = .stay) :
    d = home + extent fate len .stay (hs.filter fun k => k < h) := by
  induction tiled generalizing home away with
  | nil => cases member
  | @cons p q rest positive more ih =>
    -- Nothing after a record lies below it.
    have above : ∀ k ∈ rest, p < k := fun k later => by
      have := (more.bounds later).1
      omega
    have below : rest.filter (fun k => decide (k < p)) = [] :=
      List.filter_eq_nil_iff.mpr fun k later => by
        have := above k later
        simp
        omega
    have source : ∀ {home away : Nat}, (h, d) ∈ placements fate len rest home away → h ∈ rest :=
      fun {home away} later => by
        have : h ∈ (placements fate len rest home away).map Prod.fst := List.mem_map_of_mem later
        rw [placements_sources] at this
        exact (List.mem_filter.mp this).1
    rw [placements] at member
    cases kind : fate p with
    | stay =>
      simp only [kind, List.mem_cons, Prod.mk.injEq] at member
      rcases member with ⟨rfl, rfl⟩ | later
      · simp [below]
      · have first := above h (source later)
        rw [List.filter_cons_of_pos (by simpa using first), extent_cons, if_pos kind, ih later]
        omega
    | leave =>
      simp only [kind, List.mem_cons, Prod.mk.injEq] at member
      rcases member with ⟨rfl, rfl⟩ | later
      · exact absurd (kind.symm.trans stays) (by simp)
      · have first := above h (source later)
        rw [List.filter_cons_of_pos (by simpa using first), extent_cons, if_neg (by simp [kind]), ih later]
        omega
    | drop =>
      simp only [kind] at member
      have first := above h (source member)
      rw [List.filter_cons_of_pos (by simpa using first), extent_cons, if_neg (by simp [kind]), ih member]
      omega

end Placements

/-- The address a record is placed at; its own when it is not placed. -/
def target (ms : List (Nat × Nat)) (h : Nat) : Nat := (ms.lookup h).getD h

theorem target_of_mem {ms : List (Nat × Nat)} (nodup : (ms.map Prod.fst).Nodup) {h d : Nat}
    (member : (h, d) ∈ ms) : target ms h = d := by
  induction ms with
  | nil => cases member
  | cons m ms ih =>
    obtain ⟨k, e⟩ := m
    simp only [List.map_cons, List.nodup_cons, List.mem_map, not_exists, not_and] at nodup
    rcases List.mem_cons.mp member with same | later
    · cases same
      simp [target]
    · have differ : h ≠ k := fun same => nodup.1 (h, d) later same
      simpa [target, List.lookup_cons, beq_false_of_ne differ] using ih nodup.2 later

theorem target_of_not_mem {ms : List (Nat × Nat)} {h : Nat} (absent : h ∉ ms.map Prod.fst) :
    target ms h = h := by
  induction ms with
  | nil => rfl
  | cons m ms ih =>
    obtain ⟨k, e⟩ := m
    simp only [List.map_cons, List.mem_cons, not_or] at absent
    simpa [target, List.lookup_cons, beq_false_of_ne absent.1] using ih absent.2

section Transfer

variable {α : Type}

/-- Copies a record to a new address and rewrites its first cell. -/
def transfer (head : α → α) (src dst n : Nat) (mem : Nat → α) : Nat → α := fun x =>
  if x = dst then head (mem src)
  else if dst ≤ x ∧ x < dst + n then mem (src + (x - dst)) else mem x

theorem transfer_outside {head : α → α} {src dst n x : Nat} {mem : Nat → α} (positive : 0 < n)
    (outside : x < dst ∨ dst + n ≤ x) : transfer head src dst n mem x = mem x := by
  rw [transfer, if_neg (by omega), if_neg (by omega)]

theorem transfer_inside {head : α → α} {src dst n o : Nat} {mem : Nat → α} (inside : o < n) :
    transfer head src dst n mem (dst + o) = if o = 0 then head (mem src) else mem (src + o) := by
  by_cases first : o = 0
  · simp [transfer, first]
  · rw [transfer, if_neg (by omega), if_pos (by omega), if_neg first, Nat.add_sub_cancel_left]

theorem foldl_transfer (head : Nat → α → α) {ms : List (Nat × Nat)} (mem : Nat → α)
    (positive : ∀ m ∈ ms, 0 < len m.1)
    (orderly : ms.Pairwise fun a b =>
      Apart a.2 (len a.1) b.1 (len b.1) ∧ Apart a.2 (len a.1) b.2 (len b.1)) :
    (∀ m ∈ ms, ∀ o < len m.1,
        (ms.foldl (fun mem m => transfer (head m.1) m.1 m.2 (len m.1) mem) mem) (m.2 + o) =
          if o = 0 then head m.1 (mem m.1) else mem (m.1 + o)) ∧
      ∀ x, (∀ m ∈ ms, x < m.2 ∨ m.2 + len m.1 ≤ x) →
        (ms.foldl (fun mem m => transfer (head m.1) m.1 m.2 (len m.1) mem) mem) x = mem x := by
  induction ms generalizing mem with
  | nil => simp
  | cons m ms ih =>
    obtain ⟨first, others⟩ := List.pairwise_cons.mp orderly
    have long := positive m (by simp)
    have longs : ∀ k ∈ ms, 0 < len k.1 := fun k member => positive k (by simp [member])
    obtain ⟨placed, untouched⟩ :=
      ih (transfer (head m.1) m.1 m.2 (len m.1) mem) longs others
    simp only [List.foldl_cons]
    constructor
    · intro k member o inside
      rcases List.mem_cons.mp member with rfl | later
      · -- The record just placed is not overwritten by a later one.
        rw [untouched, transfer_inside inside]
        intro b after
        have apart := (first b after).2
        have := longs b after
        simp only [Apart] at apart
        omega
      · -- A later record still has its old cells when its turn comes.
        rw [placed k later o inside]
        have apart := (first k later).1
        have := longs k later
        simp only [Apart] at apart
        rw [transfer_outside long (by omega), transfer_outside long (by omega)]
    · intro x outside
      rw [untouched x fun k later => outside k (by simp [later]),
        transfer_outside long (outside m (by simp))]

end Transfer

end Nytrix.Lib
