import Mathlib.Algebra.Order.Ring.Int
import Mathlib.Tactic.Common

/-! Memory: flat bytes with 64-bit words, and blocks of cells with copies that stay within them. -/

namespace Nytrix.Lib

/-- One byte for every 64-bit address. -/
abbrev Mem := BitVec 64 → BitVec 8

namespace Mem

/-- The byte a given distance after an address. -/
def byte (m : Mem) (p : BitVec 64) (k : Nat) : BitVec 8 := m (p + BitVec.ofNat 64 k)

/-- The little-endian word at an address. -/
def load64 (m : Mem) (p : BitVec 64) : BitVec 64 :=
  m.byte p 7 ++ m.byte p 6 ++ m.byte p 5 ++ m.byte p 4 ++ m.byte p 3 ++ m.byte p 2 ++
    m.byte p 1 ++ m.byte p 0

/-- Writes a little-endian word at an address. -/
def store64 (m : Mem) (p v : BitVec 64) : Mem := fun q =>
  if (q - p).toNat < 8 then v.extractLsb' (8 * (q - p).toNat) 8 else m q

/-- The words at two addresses share a byte. -/
def Overlaps (p q : BitVec 64) : Prop :=
  ∃ k, k < 8 ∧ (q + BitVec.ofNat 64 k - p).toNat < 8

theorem byte_store64 (m : Mem) (p v : BitVec 64) {k : Nat} (within : k < 8) :
    (m.store64 p v).byte p k = v.extractLsb' (8 * k) 8 := by
  -- The distance from the store's address is the byte's own position.
  have distance : p + BitVec.ofNat 64 k - p = BitVec.ofNat 64 k := by
    rw [BitVec.add_comm, BitVec.add_sub_cancel]
  have small : (BitVec.ofNat 64 k).toNat = k := by
    simp only [BitVec.toNat_ofNat]
    omega
  simp only [byte, store64, distance, small, if_pos within]

@[simp] theorem load64_store64 (m : Mem) (p v : BitVec 64) : (m.store64 p v).load64 p = v := by
  simp only [load64, byte_store64, Nat.reduceLT]
  -- Each bit of the word lies in exactly one of the eight bytes.
  ext i within
  simp only [BitVec.getElem_append, BitVec.getElem_extractLsb']
  rw [← BitVec.getLsbD_eq_getElem]
  have place {k : Nat} (same : k = i) : v.getLsbD k = v.getLsbD i := congrArg v.getLsbD same
  repeat' split
  all_goals
    apply place
    omega

theorem load64_store64_of_not_overlaps (m : Mem) {p q : BitVec 64} (v : BitVec 64)
    (apart : ¬ Overlaps p q) : (m.store64 p v).load64 q = m.load64 q := by
  have same : ∀ k, k < 8 → (m.store64 p v).byte q k = m.byte q k := by
    intro k within
    have outside : ¬ (q + BitVec.ofNat 64 k - p).toNat < 8 :=
      fun inside => apart ⟨k, within, inside⟩
    simp only [byte, store64, if_neg outside]
  simp only [load64, same, Nat.reduceLT]

theorem not_overlaps_slots {base : BitVec 64} {i j count : Nat} (apart : i ≠ j)
    (first : i < count) (second : j < count) (fits : base.toNat + 8 * count ≤ 2 ^ 64) :
    ¬ Overlaps (base + BitVec.ofNat 64 (8 * i)) (base + BitVec.ofNat 64 (8 * j)) := by
  rintro ⟨k, within, inside⟩
  -- Neither address wraps, so the distance is the difference of the two offsets.
  simp only [BitVec.toNat_sub, BitVec.toNat_add, BitVec.toNat_ofNat] at inside
  omega

end Mem

section Cells

universe u

/-- A block of memory, in cells of one kind. -/
structure Block (α : Type u) where
  size : Nat
  cells : Nat → α

namespace Block

variable {α : Type u}

/-- Cells copied to a place in the block; nothing where they do not stay within it. -/
def copy (b : Block α) (start n : Nat) (src : Nat → α) : Option (Block α) :=
  if start + n ≤ b.size then
    some { b with
      cells := fun i => if start ≤ i ∧ i < start + n then src (i - start) else b.cells i }
  else none

/-- One cell written. -/
def store (b : Block α) (place : Nat) (value : α) : Option (Block α) :=
  b.copy place 1 fun _ => value

/-- A loop of copies of the same cells, each to a place of its own. -/
def copies (b : Block α) (place : Nat → Nat) (n : Nat) (src : Nat → α) : Nat → Option (Block α)
  | 0 => some b
  | count + 1 => (b.copies place n src count).bind fun c => c.copy (place count) n src

/-- A block with a part of it replaced. -/
structure Filled (b c : Block α) (start n : Nat) (src : Nat → α) : Prop where
  size : c.size = b.size
  inside : ∀ i < n, c.cells (start + i) = src i
  outside : ∀ i, i < start ∨ start + n ≤ i → c.cells i = b.cells i

variable {b c : Block α} {place : Nat → Nat} {start n count : Nat} {src : Nat → α}

theorem exists_copy (fits : start + n ≤ b.size) (src : Nat → α) :
    ∃ c, b.copy start n src = some c ∧ Filled b c start n src := by
  refine ⟨_, if_pos fits, rfl, ?_, ?_⟩
  · intro i low
    dsimp only
    rw [if_pos ⟨Nat.le_add_right _ _, Nat.add_lt_add_left low _⟩, Nat.add_sub_cancel_left]
  · intro i away
    dsimp only
    rw [if_neg (by omega)]

theorem exists_store (fits : start < b.size) (value : α) :
    ∃ c, b.store start value = some c ∧ Filled b c start 1 fun _ => value :=
  exists_copy fits _

theorem copy_eq_none (large : b.size < start + n) : b.copy start n src = none :=
  if_neg (Nat.not_le.mpr large)

theorem size_copy (done : b.copy start n src = some c) : c.size = b.size := by
  unfold copy at done
  split at done
  · cases done
    rfl
  · cases done

theorem size_copies (done : b.copies place n src count = some c) : c.size = b.size := by
  induction count generalizing c with
  | zero => cases done; rfl
  | succ count ih =>
    obtain ⟨d, before, last⟩ := Option.bind_eq_some_iff.mp done
    exact (size_copy last).trans (ih before)

theorem copies_eq_none {j : Nat} (run : j < count) (large : b.size < place j + n) :
    b.copies place n src count = none := by
  induction count with
  | zero => cases run
  | succ count ih =>
    rw [copies]
    rcases Nat.lt_succ_iff_lt_or_eq.mp run with earlier | rfl
    · rw [ih earlier]
      rfl
    · cases before : b.copies place n src j with
      | none => rfl
      | some d =>
        rw [Option.bind_some]
        exact copy_eq_none (by rw [size_copies before]; exact large)

theorem copies_eq_none_of_large (places : ∀ i, start + i * n ≤ b.size → place i = start + i * n)
    (room : start ≤ b.size) (large : b.size < start + count * n) (src : Nat → α) :
    b.copies place n src count = none := by
  have positive : 0 < n := by
    rcases Nat.eq_zero_or_pos n with rfl | positive
    · omega
    · exact positive
  -- The last copy that starts within the block ends outside.
  have below := Nat.div_mul_le_self (b.size - start) n
  have above := Nat.lt_div_mul_add positive (a := b.size - start)
  have run : (b.size - start) / n < count := by
    rw [Nat.div_lt_iff_lt_mul positive]
    omega
  exact copies_eq_none run (by rw [places _ (by omega)]; omega)

theorem exists_copies (places : ∀ i < count, place i = start + i * n)
    (fits : start + count * n ≤ b.size) (src : Nat → α) :
    ∃ c, b.copies place n src count = some c ∧
      Filled b c start (count * n) fun i => src (i % n) := by
  induction count with
  | zero => exact ⟨b, rfl, rfl, fun i low => absurd low (by simp), fun _ _ => rfl⟩
  | succ count ih =>
    rw [Nat.succ_mul] at fits
    obtain ⟨d, before, filled⟩ :=
      ih (fun i low => places i (Nat.lt_succ_of_lt low)) (by omega)
    obtain ⟨c, last, part⟩ :=
      exists_copy (show place count + n ≤ d.size by
        rw [filled.size, places count (Nat.lt_succ_self _)]; omega) src
    have here := places count (Nat.lt_succ_self _)
    refine ⟨c, by rw [copies, before]; exact last, part.size.trans filled.size, ?_, ?_⟩
    · intro i low
      rw [Nat.succ_mul] at low
      by_cases earlier : i < count * n
      · rw [part.outside _ (by omega), filled.inside i earlier]
      · -- The last copy holds the cells behind those of the copies before.
        have split : start + i = place count + (i - count * n) := by omega
        have within : i - count * n < n := by omega
        have same : i % n = i - count * n := by
          rw [show i = i - count * n + count * n by omega, Nat.add_mul_mod_self_right,
            Nat.mod_eq_of_lt within]
          omega
        rw [split, part.inside _ within, same]
    · intro i away
      rw [Nat.succ_mul] at away
      rw [part.outside i (by omega), filled.outside i (by omega)]

/-- A block that begins with the elements of a list. -/
structure Begins (b : Block α) (l : List α) : Prop where
  fits : l.length ≤ b.size
  cells : ∀ i x, l[i]? = some x → b.cells i = x

theorem begins_nil (b : Block α) : Begins b [] := ⟨Nat.zero_le _, fun i x found => by cases found⟩

theorem Begins.exists_copy {l m : List α} (begins : Begins b l)
    (fits : l.length + m.length ≤ b.size) {src : Nat → α}
    (source : ∀ i x, m[i]? = some x → src i = x) :
    ∃ c, b.copy l.length m.length src = some c ∧ c.size = b.size ∧ Begins c (l ++ m) := by
  obtain ⟨c, done, filled⟩ := Block.exists_copy fits src
  refine ⟨c, done, filled.size, ?_, ?_⟩
  · rw [List.length_append, filled.size]
    exact fits
  · intro i x found
    by_cases early : i < l.length
    · rw [List.getElem?_append_left early] at found
      rw [filled.outside i (.inl early), begins.cells i x found]
    · rw [List.getElem?_append_right (Nat.not_lt.mp early)] at found
      have inside := (List.getElem?_eq_some_iff.mp found).1
      have placed := filled.inside _ inside
      rw [Nat.add_sub_cancel' (Nat.not_lt.mp early)] at placed
      rw [placed, source _ x found]

theorem Begins.exists_store {l : List α} (begins : Begins b l) {place : Nat}
    (behind : l.length ≤ place) (fits : place < b.size) (value : α) :
    ∃ c, b.store place value = some c ∧ c.size = b.size ∧ Begins c l := by
  obtain ⟨c, done, filled⟩ := Block.exists_store fits value
  refine ⟨c, done, filled.size, filled.size.symm ▸ begins.fits, ?_⟩
  intro i x found
  have inside := (List.getElem?_eq_some_iff.mp found).1
  rw [filled.outside i (.inl (by omega)), begins.cells i x found]

theorem Begins.map_range {l : List α} (begins : Begins b l) :
    (List.range l.length).map b.cells = l := by
  refine List.ext_getElem (by rw [List.length_map, List.length_range]) fun i _ inside => ?_
  rw [List.getElem_map, List.getElem_range]
  exact begins.cells i _ (List.getElem?_eq_getElem inside)

end Block

theorem length_repeated {α : Type u} (xs : List α) (n : Nat) :
    (List.replicate n xs).flatten.length = n * xs.length := by
  rw [List.length_flatten, List.map_replicate, List.sum_replicate_nat]

theorem getElem?_repeated {α : Type u} {xs : List α} {n i : Nat} {x : α}
    (found : (List.replicate n xs).flatten[i]? = some x) : xs[i % xs.length]? = some x := by
  induction n generalizing i with
  | zero => cases found
  | succ n ih =>
    rw [List.replicate_succ, List.flatten_cons] at found
    by_cases early : i < xs.length
    · rw [List.getElem?_append_left early] at found
      rw [Nat.mod_eq_of_lt early, found]
    · rw [List.getElem?_append_right (Nat.not_lt.mp early)] at found
      rw [← ih found, ← Nat.mod_eq_sub_mod (Nat.not_lt.mp early)]

end Cells

end Nytrix.Lib
