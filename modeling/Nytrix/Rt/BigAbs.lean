import Nytrix.Big.NaturalLaws
import Nytrix.Rt.SequencesLaws

/-! Sums, differences and products of lists of digits in base one thousand million. -/

namespace Nytrix.Rt.Sequences

open Nytrix.Lib Nytrix.Lib.Positional
open Nytrix.Big (bigBase bigBase_large bigBase_positive addColumns ofDigits_addColumns)

/-- The length of a list. -/
def listLen (lst : Seq) : BitVec 64 := seqLenRaw lst

/-- The digit at an index. -/
def listGet (lst : Seq) (i : Nat) : BitVec 64 := rawBits (lst.items i)

/-- The word of the base. -/
def baseWord : BitVec 64 := 1000000000

/--
What a list is after an append whose result is dropped.

An append to a full list writes to another block, and leaves the list as it is.
-/
def appendDropped (a : Allocator) (out : Seq) (val : BitVec 64) : Made Seq :=
  if (rawBits (out.block.cells 1)).sle (rawBits (out.block.cells 0)) then
    match rtAppend a out val with
    | .fault => .fault
    | _ => .object out
  else rtAppend a out val

/-- A new list for so many digits, whose length is set to zero. -/
def newDigits (a : Allocator) (n : BitVec 64) : Made Seq :=
  match rtListNew a (tagWord n) with
  | .object out => .ofWrites ((out.block.store 0 1).map fun block => { out with block })
  -- The allocation's result is not looked at: the length is written through the null pointer.
  | _ => .fault

/-- Adds the digits from an index on, in so many turns, and appends the carry that is left. -/
def addLoop (alloc : Allocator) (a b : Seq) (na nb : Nat) : Nat → Nat → BitVec 64 → Seq → Made Seq
  | 0, _, carry, out =>
    if (0 : BitVec 64).slt carry then appendDropped alloc out (tagWord 1) else .object out
  | turns + 1, i, carry, out =>
    let va := if i < na then listGet a i else 0
    let vb := if i < nb then listGet b i else 0
    let sum := va + vb + carry
    let full := baseWord.sle sum
    match appendDropped alloc out (tagWord (if full then sum - baseWord else sum)) with
    | .object out => addLoop alloc a b na nb turns (i + 1) (if full then 1 else 0) out
    | other => other

/-- The sum of two lists of digits. -/
def bigAddAbs (alloc : Allocator) (a b : Seq) : Made Seq :=
  let na := listLen a
  let nb := listLen b
  let nmax := if nb.slt na then na else nb
  match newDigits alloc (nmax + 1) with
  | .object out => addLoop alloc a b na.toNat nb.toNat nmax.toNat 0 0 out
  | other => other

/-- Takes the digits away from an index on, in so many turns. -/
def subLoop (alloc : Allocator) (a b : Seq) (nb : Nat) : Nat → Nat → BitVec 64 → Seq → Made Seq
  | 0, _, _, out => .object out
  | turns + 1, i, borrow, out =>
    let va := listGet a i - borrow
    let vb := if i < nb then listGet b i else 0
    let under := va.slt vb
    let va := if under then va + baseWord else va
    match appendDropped alloc out (tagWord (va - vb)) with
    | .object out => subLoop alloc a b nb turns (i + 1) (if under then 1 else 0) out
    | other => other

/-- The difference of two lists of digits. -/
def bigSubAbs (alloc : Allocator) (a b : Seq) : Made Seq :=
  let na := listLen a
  match newDigits alloc na with
  | .object out => subLoop alloc a b (listLen b).toNat na.toNat 0 0 out
  | other => other

/-- Sets so many words to zero digits. -/
def zeroLoop : Nat → Nat → Block (BitVec 64) → Option (Block (BitVec 64))
  | 0, _, raw => some raw
  | turns + 1, k, raw => (raw.store (wordAt 16 + k) 1).bind (zeroLoop turns (k + 1))

/-- Adds a multiple of the second list to the words from `i` on, and the carry behind them. -/
def mulRow (b : Seq) (va : BitVec 64) (i nb : Nat) :
    Nat → Nat → BitVec 64 → Block (BitVec 64) → Option (Block (BitVec 64))
  | 0, _, carry, raw =>
    let place := wordAt 16 + (i + nb)
    if (0 : BitVec 64).slt carry then
      raw.store place (tagWord (rawBits (raw.cells place) + carry))
    else some raw
  | turns + 1, j, carry, raw =>
    let cur := rawBits (raw.cells (wordAt 16 + (i + j)))
    let prod := cur + va * listGet b j + carry
    (raw.store (wordAt 16 + (i + j)) (tagWord (prod.srem baseWord))).bind
      (mulRow b va i nb turns (j + 1) (prod.sdiv baseWord))

/-- Adds a row for every digit of the first list, in so many turns. -/
def mulRows (a b : Seq) (nb : Nat) : Nat → Nat → Block (BitVec 64) → Option (Block (BitVec 64))
  | 0, _, raw => some raw
  | turns + 1, i, raw =>
    (mulRow b (listGet a i) i nb nb 0 0 raw).bind (mulRows a b nb turns (i + 1))

/-- The product of two lists of digits, written to the words of a new list. -/
def bigMulAbs (alloc : Allocator) (a b : Seq) : Made Seq :=
  let na := listLen a
  let nb := listLen b
  if na = 0 ∨ nb = 0 then rtListNew alloc 1
  else
    match rtListNew alloc (tagWord (na + nb)) with
    | .object out => .ofWrites do
      let raw ← zeroLoop (na + nb).toNat 0 out.block
      let raw ← mulRows a b nb.toNat na.toNat 0 raw
      return { out with block := raw }
    -- The words are cleared through the null pointer.
    | _ => .fault

/-- The word of a digit in a list. -/
def digitWord (d : Nat) : BitVec 64 := tagWord (BitVec.ofNat 64 d)

/-- The list holds these digits. -/
def IsDigits (s : Seq) (ds : List Nat) : Prop :=
  (∃ cap, IsSeq s cap (ds.map digitWord)) ∧ ∀ d ∈ ds, d < bigBase

section Reading

variable {s : Seq} {ds : List Nat} {cap : Nat}

/-- The digits of a list as they are read from an index on, where those behind it are zero. -/
def Reads (s : Seq) (n i : Nat) (ds : List Nat) : Prop :=
  ∀ k, (if i + k < n then listGet s (i + k) else 0) = BitVec.ofNat 64 (ds.getD k 0)

theorem IsSeq.reads (held : IsSeq s cap (ds.map digitWord)) (digit_lt : ∀ d ∈ ds, d < bigBase) :
    Reads s ds.length 0 ds := by
  intro k
  rw [Nat.zero_add]
  split
  · next inside =>
    have found := List.getElem?_eq_getElem inside
    have item := held.items k (digitWord ds[k]) (by rw [List.getElem?_map, found, Option.map_some])
    have small := digit_lt _ (List.getElem_mem inside)
    rw [listGet, item, List.getD_eq_getElem?_getD, found, Option.getD_some, digitWord,
      rawBits_tagWord_ofNat (by unfold bigBase at small; omega)]
  · next outside =>
    rw [List.getD_eq_getElem?_getD, List.getElem?_eq_none (Nat.le_of_not_lt outside),
      Option.getD_none]
    rfl

theorem Reads.head {n i : Nat} (reads : Reads s n i ds) :
    (if i < n then listGet s i else 0) = BitVec.ofNat 64 (ds.headD 0) := by
  rw [show ds.headD 0 = ds.getD 0 0 by cases ds <;> rfl]
  exact reads 0

theorem Reads.tail {n i : Nat} (reads : Reads s n i ds) : Reads s n (i + 1) ds.tail := by
  intro k
  have next := reads (k + 1)
  rw [show i + (k + 1) = i + 1 + k by omega] at next
  rw [next]
  cases ds <;> rfl

theorem IsSeq.listLen_eq (held : IsSeq s cap (ds.map digitWord)) :
    listLen s = BitVec.ofNat 64 ds.length ∧ ds.length ≤ 2 ^ 60 - 2 := by
  have small := held.cap_lt
  have fits := held.fits
  rw [List.length_map] at fits
  refine ⟨?_, by omega⟩
  rw [listLen, seqLenRaw, held.len_eq, List.length_map]

end Reading

section Writing

variable {alloc : Allocator} {out : Seq} {cap : Nat} {xs : List (BitVec 64)}

/-- A list of digits in the making, with room for more. -/
structure Making (out : Seq) (cap : Nat) (xs : List (BitVec 64)) : Prop where
  list : out.tuple = false
  held : IsSeq out cap xs

theorem Making.append (making : Making out cap xs) (room : xs.length < cap) (val : BitVec 64) :
    ∃ s, appendDropped alloc out val = .object s ∧ Making s cap (xs ++ [val]) := by
  have held := making.held
  have small := held.cap_lt
  have free : ¬(BitVec.ofNat 64 cap).sle (BitVec.ofNat 64 xs.length) = true :=
    mt (sle_ofNat (by omega) (by omega)).mp (Nat.not_le.mpr room)
  have next : BitVec.ofNat 64 xs.length + 1 = BitVec.ofNat 64 (xs.length + 1) :=
    (BitVec.ofNat_add ..).symm
  have place : wordAt (16 + BitVec.ofNat 64 xs.length * 8) = 2 + xs.length :=
    wordAt_item (by omega)
  obtain ⟨c, d, first, second, list⟩ := held.hasItems.push room val
  refine ⟨⟨false, d⟩, ?_, rfl, list false⟩
  rw [appendDropped, held.cap_eq, held.len_eq, if_neg free, rtAppend,
    if_neg (by simp [making.list])]
  simp only [held.len_eq, held.cap_eq, if_neg free, place, next, first, second,
    Option.bind_eq_bind, Option.bind_some]
  rfl

/-- There is memory for a list of so many items. -/
def Grants (alloc : Allocator) (n : Nat) : Prop := alloc.body (BitVec.ofNat 64 (16 + 8 * n)) ≠ none

theorem exists_newDigits {n : Nat} (small : n < 2 ^ 61 - 2) (granted : Grants alloc n) :
    ∃ out, newDigits alloc (BitVec.ofNat 64 n) = .object out ∧ Making out n [] := by
  have same : asked (tagWord (BitVec.ofNat 64 n)) = n := asked_tagWord (by omega)
  have split := rtListNew_cases alloc (tagWord (BitVec.ofNat 64 n)) (by rw [same]; omega)
  rw [same] at split
  rcases split with ⟨-, refused⟩ | ⟨-, block, made, items⟩
  · exact absurd refused granted
  · obtain ⟨c, done, list⟩ := items.finish
    have written : block.store 0 1 = some c := done
    refine ⟨⟨false, c⟩, ?_, rfl, list false⟩
    unfold newDigits
    simp only [made, written, Option.map_some, Made.ofWrites]

theorem ofNat_sub_ofNat {m n : Nat} (le : n ≤ m) :
    BitVec.ofNat 64 m - BitVec.ofNat 64 n = BitVec.ofNat 64 (m - n) := by
  conv_lhs => rw [← Nat.sub_add_cancel le, BitVec.ofNat_add]
  exact BitVec.add_sub_cancel _ _

theorem baseWord_eq : baseWord = BitVec.ofNat 64 bigBase := rfl

theorem column_words {n : Nat} (small : n < 2 * bigBase) :
    (if baseWord.sle (BitVec.ofNat 64 n) then BitVec.ofNat 64 n - baseWord
        else BitVec.ofNat 64 n) =
        BitVec.ofNat 64 (n % bigBase) ∧
      (if baseWord.sle (BitVec.ofNat 64 n) then 1 else 0) = BitVec.ofNat 64 (n / bigBase) := by
  have reaches : baseWord.sle (BitVec.ofNat 64 n) = true ↔ bigBase ≤ n :=
    sle_ofNat (by decide) (by unfold bigBase at small; omega)
  by_cases large : bigBase ≤ n
  · have quotient : n / bigBase = 1 := by
      rw [Nat.div_eq_sub_div bigBase_positive large, Nat.div_eq_of_lt (by omega)]
    have remainder : n % bigBase = n - bigBase := by
      rw [Nat.mod_eq_sub_mod large, Nat.mod_eq_of_lt (by omega)]
    rw [if_pos (reaches.mpr large), if_pos (reaches.mpr large), quotient, remainder, baseWord_eq,
      ofNat_sub_ofNat large]
    exact ⟨rfl, rfl⟩
  · have less := Nat.lt_of_not_le large
    rw [if_neg (mt reaches.mp large), if_neg (mt reaches.mp large), Nat.mod_eq_of_lt less,
      Nat.div_eq_of_lt less]
    exact ⟨rfl, rfl⟩

theorem carried_cons (c : Nat) (columns : List Nat) (carry : Nat) :
    carried bigBase (c :: columns) carry =
      (c + carry) % bigBase :: carried bigBase columns ((c + carry) / bigBase) := rfl

theorem addLoop_eq (alloc : Allocator) {a b : Seq} {na nb : Nat} (columns : List Nat)
    {i carry : Nat} {ds es : List Nat} (making : Making out cap xs) (one : carry ≤ 1)
    (readsA : Reads a na i ds) (readsB : Reads b nb i es)
    (left : ∀ d ∈ ds, d < bigBase) (right : ∀ e ∈ es, e < bigBase)
    (sums : ∀ k c, columns[k]? = some c → c = ds.getD k 0 + es.getD k 0)
    (room : xs.length + columns.length < cap) :
    ∃ s, addLoop alloc a b na nb columns.length i (BitVec.ofNat 64 carry) out = .object s ∧
      Making s cap (xs ++ (carried bigBase columns carry).map digitWord) := by
  induction columns generalizing i carry ds es out xs with
  | nil =>
    rcases Nat.le_one_iff_eq_zero_or_eq_one.mp one with rfl | rfl
    · exact ⟨out, rfl, by rw [show carried bigBase [] 0 = [] from rfl, List.map_nil,
        List.append_nil]; exact making⟩
    · exact making.append room (digitWord 1)
  | cons c columns ih =>
    have first : c = ds.headD 0 + es.headD 0 := by
      rw [sums 0 c rfl]
      cases ds <;> cases es <;> rfl
    have smallD := headD_lt bigBase_positive left
    have smallE := headD_lt bigBase_positive right
    have sum : BitVec.ofNat 64 (ds.headD 0) + BitVec.ofNat 64 (es.headD 0) +
        BitVec.ofNat 64 carry = BitVec.ofNat 64 (c + carry) := by
      rw [first, BitVec.ofNat_add, BitVec.ofNat_add]
    obtain ⟨digit, next⟩ := column_words (n := c + carry) (by omega)
    rw [List.length_cons] at room
    obtain ⟨s, appended, making'⟩ := making.append (by omega) (digitWord ((c + carry) % bigBase))
    have below : c + carry < bigBase * 2 := by omega
    obtain ⟨t, done, made⟩ := ih making' (Nat.le_of_lt_succ (Nat.div_lt_of_lt_mul below))
      readsA.tail readsB.tail (fun d member => left d (List.mem_of_mem_tail member))
      (fun e member => right e (List.mem_of_mem_tail member))
      (fun k c' found => by
        rw [sums (k + 1) c' found]
        cases ds <;> cases es <;> rfl)
      (by rw [List.length_append, List.length_singleton]; omega)
    refine ⟨t, ?_, ?_⟩
    · rw [List.length_cons, addLoop]
      simp only [readsA.head, readsB.head, sum, digit, next]
      rw [show tagWord (BitVec.ofNat 64 ((c + carry) % bigBase)) =
        digitWord ((c + carry) % bigBase) from rfl, appended]
      exact done
    · rw [carried_cons, List.map_cons]
      rw [List.append_assoc] at made
      exact made

theorem borrow_words {d e borrow : Nat} (smallD : d < bigBase) (smallE : e < bigBase)
    (one : borrow ≤ 1) :
    ((BitVec.ofNat 64 d - BitVec.ofNat 64 borrow).slt (BitVec.ofNat 64 e) = true ↔
        d < e + borrow) ∧
      (d < e + borrow →
        BitVec.ofNat 64 d - BitVec.ofNat 64 borrow + baseWord - BitVec.ofNat 64 e =
          BitVec.ofNat 64 (d + bigBase - (e + borrow))) ∧
      (¬d < e + borrow →
        BitVec.ofNat 64 d - BitVec.ofNat 64 borrow - BitVec.ofNat 64 e =
          BitVec.ofNat 64 (d - (e + borrow))) := by
  have wide : bigBase < 2 ^ 62 := by decide
  refine ⟨?_, fun under => ?_, fun above => ?_⟩
  · have value {n : Nat} (small : n < 2 ^ 62) : (BitVec.ofNat 64 n).toInt = n := by
      rw [BitVec.toInt_ofNat', Int.bmod_eq_of_le (by omega) (by omega)]
    rw [BitVec.slt_iff_toInt_lt, BitVec.toInt_sub, value (by omega), value (by omega),
      value (by omega), Int.bmod_eq_of_le (by omega) (by omega)]
    omega
  · rw [← ofNat_sub_ofNat (show e + borrow ≤ d + bigBase by omega), BitVec.ofNat_add,
      BitVec.ofNat_add, baseWord_eq]
    grind
  · rw [← ofNat_sub_ofNat (Nat.le_of_not_lt above), BitVec.ofNat_add]
    grind

theorem subLoop_eq (alloc : Allocator) {a b : Seq} {nb : Nat} (ds : List Nat)
    {na i borrow : Nat} {es : List Nat}
    (making : Making out cap xs) (one : borrow ≤ 1) (whole : i + ds.length = na)
    (readsA : Reads a na i ds) (readsB : Reads b nb i es)
    (left : ∀ d ∈ ds, d < bigBase) (right : ∀ e ∈ es, e < bigBase)
    (room : xs.length + ds.length ≤ cap) :
    ∃ s, subLoop alloc a b nb ds.length i (BitVec.ofNat 64 borrow) out = .object s ∧
      Making s cap (xs ++ (Positional.borrowed bigBase borrow ds es).map digitWord) := by
  induction ds generalizing i borrow es out xs with
  | nil =>
    refine ⟨out, rfl, ?_⟩
    rw [Positional.borrowed, List.map_nil, List.append_nil]
    exact making
  | cons d ds ih =>
    rw [List.length_cons] at room whole
    have here := readsA.head
    rw [if_pos (by omega), List.headD_cons] at here
    have smallD : d < bigBase := left d List.mem_cons_self
    have smallE := headD_lt bigBase_positive right
    obtain ⟨test, low, high⟩ := borrow_words smallD smallE one
    have step (digit carry : Nat) (atMost : carry ≤ 1) :
        ∃ s t, appendDropped alloc out (digitWord digit) = .object s ∧
          subLoop alloc a b nb ds.length (i + 1) (BitVec.ofNat 64 carry) s = .object t ∧
          Making t cap (xs ++ digitWord digit ::
            (Positional.borrowed bigBase carry ds es.tail).map digitWord) := by
      obtain ⟨s, appended, making'⟩ := making.append (by omega) (digitWord digit)
      obtain ⟨t, done, made⟩ := ih making' atMost (by omega) readsA.tail readsB.tail
        (fun x member => left x (List.mem_cons_of_mem _ member))
        (fun e member => right e (List.mem_of_mem_tail member))
        (by rw [List.length_append, List.length_singleton]; omega)
      rw [List.append_assoc] at made
      exact ⟨s, t, appended, done, made⟩
    rw [List.length_cons, subLoop, Positional.borrowed]
    simp only [here, readsB.head]
    by_cases under : d < es.headD 0 + borrow
    · obtain ⟨s, t, appended, done, made⟩ :=
        step (d + bigBase - (es.headD 0 + borrow)) 1 (Nat.le_refl 1)
      simp only [test.mpr under, if_true, low under, if_pos under, List.map_cons]
      rw [show tagWord (BitVec.ofNat 64 (d + bigBase - (es.headD 0 + borrow))) =
        digitWord (d + bigBase - (es.headD 0 + borrow)) from rfl, appended]
      exact ⟨t, done, made⟩
    · obtain ⟨s, t, appended, done, made⟩ := step (d - (es.headD 0 + borrow)) 0 (Nat.zero_le 1)
      simp only [Bool.eq_false_iff.mpr (mt test.mp under), Bool.false_eq_true, if_false,
        high under, if_neg under, List.map_cons]
      rw [show tagWord (BitVec.ofNat 64 (d - (es.headD 0 + borrow))) =
        digitWord (d - (es.headD 0 + borrow)) from rfl, appended]
      exact ⟨t, done, made⟩

end Writing

section Products

/-- What the writes of a product leave as it is: the size and the header of the block. -/
structure Kept (b c : Block (BitVec 64)) : Prop where
  size : c.size = b.size
  length : c.cells 0 = b.cells 0
  capacity : c.cells 1 = b.cells 1

theorem Kept.trans {b c d : Block (BitVec 64)} (first : Kept b c) (second : Kept c d) : Kept b d :=
  ⟨second.size.trans first.size, second.length.trans first.length,
    second.capacity.trans first.capacity⟩

theorem Kept.isSeq {s : Seq} {c : Block (BitVec 64)} {cap : Nat} (kept : Kept s.block c)
    (held : IsSeq s cap []) : IsSeq { s with block := c } cap [] :=
  ⟨kept.length.trans held.lenWord, kept.capacity.trans held.capWord, held.fits,
    kept.size ▸ held.room, kept.size ▸ held.half, nofun⟩

theorem exists_store_item (b : Block (BitVec 64)) {k : Nat} (inside : 2 + k < b.size)
    (value : BitVec 64) : ∃ c, b.store (wordAt 16 + k) value = some c ∧ Kept b c := by
  obtain ⟨c, done, filled⟩ := Block.exists_store inside value
  rw [wordAt_sixteen]
  exact ⟨c, done, filled.size, filled.outside 0 (by omega), filled.outside 1 (by omega)⟩

theorem exists_zeroLoop (turns k : Nat) (b : Block (BitVec 64)) (inside : 2 + k + turns ≤ b.size) :
    ∃ c, zeroLoop turns k b = some c ∧ Kept b c := by
  induction turns generalizing k b with
  | zero => exact ⟨b, rfl, rfl, rfl, rfl⟩
  | succ turns ih =>
    obtain ⟨c, stored, kept⟩ := exists_store_item b (show 2 + k < b.size by omega) 1
    obtain ⟨d, later, kept'⟩ := ih (k + 1) c (by rw [kept.size]; omega)
    exact ⟨d, by rw [zeroLoop, stored, Option.bind_some, later], kept.trans kept'⟩

theorem exists_mulRow (b : Seq) (va : BitVec 64) {i nb turns j : Nat} (whole : j + turns = nb)
    (carry : BitVec 64) {raw : Block (BitVec 64)} (inside : 2 + (i + nb) < raw.size) :
    ∃ c, mulRow b va i nb turns j carry raw = some c ∧ Kept raw c := by
  induction turns generalizing j carry raw with
  | zero =>
    rw [mulRow]
    split
    · exact exists_store_item raw inside _
    · exact ⟨raw, rfl, rfl, rfl, rfl⟩
  | succ turns ih =>
    rw [mulRow]
    obtain ⟨c, stored, kept⟩ := exists_store_item raw (show 2 + (i + j) < raw.size by omega) _
    obtain ⟨d, later, kept'⟩ := ih (show j + 1 + turns = nb by omega) _ (kept.size ▸ inside)
    exact ⟨d, by rw [stored, Option.bind_some, later], kept.trans kept'⟩

theorem exists_mulRows (a b : Seq) {na nb turns i : Nat} (whole : i + turns = na)
    {raw : Block (BitVec 64)} (inside : 2 + (na + nb) ≤ raw.size) :
    ∃ c, mulRows a b nb turns i raw = some c ∧ Kept raw c := by
  induction turns generalizing i raw with
  | zero => exact ⟨raw, rfl, rfl, rfl, rfl⟩
  | succ turns ih =>
    have room : 2 + (i + nb) < raw.size := by omega
    obtain ⟨c, row, kept⟩ := exists_mulRow b (listGet a i) (Nat.zero_add nb) 0 room
    obtain ⟨d, later, kept'⟩ := ih (show i + 1 + turns = na by omega) (kept.size ▸ inside)
    exact ⟨d, by rw [mulRows, row, Option.bind_some, later], kept.trans kept'⟩

end Products

section Results

variable {alloc : Allocator} {a b s : Seq} {ds es : List Nat} {m n : Nat}

/-- The list stands for a number, in digits over its length. -/
def Stands (s : Seq) (n : Nat) : Prop := ∃ ps, IsDigits s ps ∧ Nat.ofDigits bigBase ps = n

theorem Making.stands {cap : Nat} {ps : List Nat} (making : Making s cap (ps.map digitWord))
    (digit_lt : ∀ d ∈ ps, d < bigBase) : Stands s (Nat.ofDigits bigBase ps) :=
  ⟨ps, ⟨⟨cap, making.held⟩, digit_lt⟩, rfl⟩

theorem ofNat_eq_zero (small : n < 2 ^ 62) : BitVec.ofNat 64 n = 0 ↔ n = 0 := by
  refine ⟨fun zero => ?_, fun zero => zero ▸ rfl⟩
  have same := congrArg BitVec.toNat zero
  rwa [BitVec.toNat_ofNat, Nat.mod_eq_of_lt (by omega)] at same

theorem stands_of_empty {cap : Nat} (empty : IsSeq s cap []) (stands : Stands s n) : n = 0 := by
  obtain ⟨ps, ⟨⟨cap, held⟩, -⟩, rfl⟩ := stands
  have length := held.len_eq
  have fits := held.fits
  have small := held.cap_lt
  rw [List.length_map] at fits
  rw [empty.len_eq, List.length_map] at length
  have none : ps = [] :=
    List.eq_nil_of_length_eq_zero ((ofNat_eq_zero (by omega)).mp length.symm)
  rw [none, Nat.ofDigits_nil]

theorem addColumns_spec (ds es : List Nat) :
    (addColumns ds es).length = max ds.length es.length ∧
      ∀ k c, (addColumns ds es)[k]? = some c → c = ds.getD k 0 + es.getD k 0 := by
  fun_induction addColumns ds es with
  | case1 es =>
    refine ⟨by simp, fun k c found => ?_⟩
    rw [List.getD_eq_getElem?_getD, List.getD_eq_getElem?_getD, found]
    simp
  | case2 ds =>
    refine ⟨by simp, fun k c found => ?_⟩
    rw [List.getD_eq_getElem?_getD, List.getD_eq_getElem?_getD, found]
    simp
  | case3 d ds e es ih =>
    refine ⟨by simp only [List.length_cons, ih.1]; omega, fun k c found => ?_⟩
    cases k with
    | zero => cases found; rfl
    | succ k => exact ih.2 k c found

theorem larger_length {m n : Nat} (left : m < 2 ^ 62) (right : n < 2 ^ 62) :
    (if (BitVec.ofNat 64 n).slt (BitVec.ofNat 64 m) then BitVec.ofNat 64 m
      else BitVec.ofNat 64 n) = BitVec.ofNat 64 (max m n) := by
  have order := slt_ofNat (m := n) (n := m) (by omega) (by omega)
  by_cases longer : n < m
  · rw [if_pos (order.mpr longer), Nat.max_eq_left (by omega)]
  · rw [if_neg (mt order.mp longer), Nat.max_eq_right (by omega)]

theorem bigAddAbs_right (alloc : Allocator) (heldA : IsDigits a ds) (heldB : IsDigits b es)
    (granted : Grants alloc (max ds.length es.length + 1)) :
    (bigAddAbs alloc a b).Right fun s =>
      Stands s (Nat.ofDigits bigBase ds + Nat.ofDigits bigBase es) := by
  obtain ⟨⟨_, seqA⟩, left⟩ := heldA
  obtain ⟨⟨_, seqB⟩, right⟩ := heldB
  obtain ⟨lenA, smallA⟩ := seqA.listLen_eq
  obtain ⟨lenB, smallB⟩ := seqB.listLen_eq
  have most : max ds.length es.length ≤ 2 ^ 60 - 2 := by omega
  obtain ⟨length, sums⟩ := addColumns_spec ds es
  unfold bigAddAbs
  simp only [lenA, lenB, larger_length (show ds.length < 2 ^ 62 by omega)
    (show es.length < 2 ^ 62 by omega)]
  rw [← length] at most granted ⊢
  have more : BitVec.ofNat 64 (addColumns ds es).length + 1 =
      BitVec.ofNat 64 ((addColumns ds es).length + 1) := (BitVec.ofNat_add ..).symm
  have nat {n : Nat} (small : n < 2 ^ 62) : (BitVec.ofNat 64 n).toNat = n := by
    rw [BitVec.toNat_ofNat, Nat.mod_eq_of_lt (by omega)]
  rw [more, nat (by omega), nat (by omega), nat (by omega)]
  obtain ⟨out, made, making⟩ :=
    exists_newDigits (show (addColumns ds es).length + 1 < 2 ^ 61 - 2 by omega) granted
  obtain ⟨s, done, result⟩ := addLoop_eq alloc (addColumns ds es) making
    (Nat.zero_le 1) (seqA.reads left) (seqB.reads right) left right sums
    (by rw [List.length_nil]; omega)
  rw [made]
  dsimp only
  rw [show (0 : BitVec 64) = BitVec.ofNat 64 0 from rfl, done]
  have stands := result.stands (carried_digit_lt bigBase_positive _ _)
  rw [carried_value bigBase_large, Nat.add_zero, ofDigits_addColumns] at stands
  exact stands

theorem bigSubAbs_right (alloc : Allocator) (heldA : IsDigits a ds) (heldB : IsDigits b es)
    (granted : Grants alloc ds.length)
    (le : Nat.ofDigits bigBase es ≤ Nat.ofDigits bigBase ds) :
    (bigSubAbs alloc a b).Right fun s =>
      Stands s (Nat.ofDigits bigBase ds - Nat.ofDigits bigBase es) := by
  obtain ⟨⟨_, seqA⟩, left⟩ := heldA
  obtain ⟨⟨_, seqB⟩, right⟩ := heldB
  obtain ⟨lenA, smallA⟩ := seqA.listLen_eq
  obtain ⟨lenB, smallB⟩ := seqB.listLen_eq
  have nat {n : Nat} (small : n < 2 ^ 62) : (BitVec.ofNat 64 n).toNat = n := by
    rw [BitVec.toNat_ofNat, Nat.mod_eq_of_lt (by omega)]
  unfold bigSubAbs
  simp only [lenA, lenB]
  rw [nat (by omega), nat (by omega)]
  obtain ⟨out, made, making⟩ :=
    exists_newDigits (show ds.length < 2 ^ 61 - 2 by omega) granted
  obtain ⟨s, done, result⟩ := subLoop_eq alloc ds making (Nat.zero_le 1)
    (Nat.zero_add _) (seqA.reads left) (seqB.reads right) left right
    (by rw [List.length_nil]; omega)
  rw [made]
  dsimp only
  rw [show (0 : BitVec 64) = BitVec.ofNat 64 0 from rfl, done]
  have stands := result.stands (borrowed_digit_lt left)
  have value := borrowed_value (Nat.zero_le 1) bigBase_positive left right (by omega)
  rw [show Nat.ofDigits bigBase ds - Nat.ofDigits bigBase es =
    Nat.ofDigits bigBase (Positional.borrowed bigBase 0 ds es) by omega]
  exact stands

theorem rtListNew_empty (alloc : Allocator) {n : Nat} (small : n < 2 ^ 61 - 2) :
    (rtListNew alloc (tagWord (BitVec.ofNat 64 n))).Right fun s =>
      s.tuple = false ∧ IsSeq s n [] := by
  have same : asked (tagWord (BitVec.ofNat 64 n)) = n := asked_tagWord (by omega)
  have right := rtListNew_right_iff alloc (tagWord (BitVec.ofNat 64 n))
  rw [same] at right
  exact right.mpr (.inl (by omega))

theorem rtListNew_stands (alloc : Allocator) :
    (rtListNew alloc 1).Right fun s => Stands s 0 := by
  have right := rtListNew_empty alloc (show 0 < 2 ^ 61 - 2 by decide)
  rw [show tagWord (BitVec.ofNat 64 0) = 1 from rfl] at right
  cases made : rtListNew alloc 1 with
  | fault =>
    rw [made] at right
    exact right
  | nil => trivial
  | object s =>
    rw [made] at right
    exact ⟨[], ⟨⟨0, right.2⟩, nofun⟩, rfl⟩

theorem bigMulAbs_of_empty (heldA : IsDigits a ds) (heldB : IsDigits b es)
    (empty : ds = [] ∨ es = []) : bigMulAbs alloc a b = rtListNew alloc 1 := by
  obtain ⟨⟨_, seqA⟩, -⟩ := heldA
  obtain ⟨⟨_, seqB⟩, -⟩ := heldB
  unfold bigMulAbs
  simp only [seqA.listLen_eq.1, seqB.listLen_eq.1]
  rw [if_pos]
  rcases empty with rfl | rfl
  · exact .inl rfl
  · exact .inr rfl

theorem bigMulAbs_empty (heldA : IsDigits a ds) (heldB : IsDigits b es) (someA : ds ≠ [])
    (someB : es ≠ []) (granted : Grants alloc (ds.length + es.length)) :
    ∃ s, bigMulAbs alloc a b = .object s ∧ IsSeq s (ds.length + es.length) [] := by
  obtain ⟨⟨_, seqA⟩, -⟩ := heldA
  obtain ⟨⟨_, seqB⟩, -⟩ := heldB
  obtain ⟨lenA, smallA⟩ := seqA.listLen_eq
  obtain ⟨lenB, smallB⟩ := seqB.listLen_eq
  have nat {n : Nat} (small : n < 2 ^ 62) : (BitVec.ofNat 64 n).toNat = n := by
    rw [BitVec.toNat_ofNat, Nat.mod_eq_of_lt (by omega)]
  have total : BitVec.ofNat 64 ds.length + BitVec.ofNat 64 es.length =
      BitVec.ofNat 64 (ds.length + es.length) := (BitVec.ofNat_add ..).symm
  have small : ds.length + es.length < 2 ^ 61 - 2 := by omega
  have none : ¬(BitVec.ofNat 64 ds.length = 0 ∨ BitVec.ofNat 64 es.length = 0) :=
    not_or.mpr ⟨mt (ofNat_eq_zero (by omega)).mp (mt List.eq_nil_of_length_eq_zero someA),
      mt (ofNat_eq_zero (by omega)).mp (mt List.eq_nil_of_length_eq_zero someB)⟩
  unfold bigMulAbs
  simp only [lenA, lenB, if_neg none, total]
  rw [nat (by omega), nat (by omega), nat (by omega)]
  have right := rtListNew_empty alloc small
  cases made : rtListNew alloc (tagWord (BitVec.ofNat 64 (ds.length + es.length))) with
  | fault =>
    rw [made] at right
    exact right.elim
  | nil =>
    have split := rtListNew_cases alloc (tagWord (BitVec.ofNat 64 (ds.length + es.length)))
      (by rw [asked_tagWord (by omega)]; omega)
    rw [asked_tagWord (by omega), made] at split
    rcases split with ⟨-, refused⟩ | ⟨-, _, other, -⟩
    · exact absurd refused granted
    · cases other
  | object out =>
    rw [made] at right
    have room := right.2.room
    obtain ⟨raw, cleared, kept⟩ :=
      exists_zeroLoop (ds.length + es.length) 0 out.block (by omega)
    have inside : 2 + (ds.length + es.length) ≤ raw.size := by
      rw [kept.size]
      omega
    obtain ⟨last, rows, kept'⟩ := exists_mulRows a b (Nat.zero_add ds.length) inside
    refine ⟨{ out with block := last }, ?_, ?_⟩
    · simp only [cleared, rows, Option.bind_eq_bind, Option.bind_some, Made.ofWrites]
      rfl
    · exact (kept.trans kept').isSeq right.2

/-- The three results are right, as far as there is memory for them. -/
structure AbsRight (alloc : Allocator) (a b : Seq) (ds es : List Nat) : Prop where
  add : Grants alloc (max ds.length es.length + 1) → (bigAddAbs alloc a b).Right fun s =>
    Stands s (Nat.ofDigits bigBase ds + Nat.ofDigits bigBase es)
  mul : Grants alloc (ds.length + es.length) → (bigMulAbs alloc a b).Right fun s =>
    Stands s (Nat.ofDigits bigBase ds * Nat.ofDigits bigBase es)
  sub : Grants alloc ds.length → Nat.ofDigits bigBase es ≤ Nat.ofDigits bigBase ds →
    (bigSubAbs alloc a b).Right fun s =>
      Stands s (Nat.ofDigits bigBase ds - Nat.ofDigits bigBase es)

/-- The three results are right exactly when the product is zero or cannot be written. -/
theorem absRight_iff (alloc : Allocator) (a b : Seq) (ds es : List Nat) (heldA : IsDigits a ds)
    (heldB : IsDigits b es) :
    AbsRight alloc a b ds es ↔
      Nat.ofDigits bigBase ds * Nat.ofDigits bigBase es = 0 ∨
        ¬Grants alloc (ds.length + es.length) := by
  have add := bigAddAbs_right alloc heldA heldB
  have sub := bigSubAbs_right alloc heldA heldB
  by_cases granted : Grants alloc (ds.length + es.length)
  · by_cases empty : ds = [] ∨ es = []
    · -- A factor without digits is zero, and the product is a new list.
      have zero : Nat.ofDigits bigBase ds * Nat.ofDigits bigBase es = 0 := by
        rcases empty with rfl | rfl
        · rw [Nat.ofDigits_nil, Nat.zero_mul]
        · rw [Nat.ofDigits_nil, Nat.mul_zero]
      refine iff_of_true ⟨add, fun _ => ?_, sub⟩ (.inl zero)
      rw [zero, bigMulAbs_of_empty heldA heldB empty]
      exact rtListNew_stands alloc
    · -- Other products have the length of zero digits.
      obtain ⟨someA, someB⟩ := not_or.mp empty
      obtain ⟨s, made, held⟩ := bigMulAbs_empty heldA heldB someA someB granted
      constructor
      · intro right
        have stands := right.mul granted
        rw [made] at stands
        exact .inl (stands_of_empty held stands)
      · rintro (zero | refused)
        · refine ⟨add, fun _ => ?_, sub⟩
          rw [made, zero]
          exact ⟨[], ⟨⟨_, held⟩, nofun⟩, rfl⟩
        · exact absurd granted refused
  · exact iff_of_true ⟨add, fun given => absurd given granted, sub⟩ (.inr granted)

/-- A list of the single digit one. -/
def oneList : Seq :=
  ⟨false, ⟨3, fun i => if i < 2 then tagWord 1 else digitWord 1⟩⟩

theorem oneList_isDigits : IsDigits oneList [1] := by
  refine ⟨⟨1, by decide, by decide, by decide, by decide, by decide, ?_⟩, by decide⟩
  intro i x found
  obtain ⟨low, rfl⟩ := List.getElem?_eq_some_iff.mp found
  obtain rfl : i = 0 := Nat.lt_one_iff.mp low
  rfl

/-- A list without digits. -/
def noneList : Seq := ⟨false, ⟨2, fun _ => tagWord 0⟩⟩

theorem noneList_isDigits : IsDigits noneList [] :=
  ⟨⟨0, by decide, by decide, by decide, by decide, by decide, nofun⟩, nofun⟩

/-- One and zero are added, multiplied and taken away right. -/
theorem absRight_one_zero : AbsRight plenty oneList noneList [1] [] :=
  (absRight_iff plenty _ _ _ _ oneList_isDigits noneList_isDigits).mpr (.inl rfl)

/-- The product of one and one is an empty list. -/
theorem not_absRight :
    ¬∀ alloc a b ds es, IsDigits a ds → IsDigits b es → AbsRight alloc a b ds es := by
  intro all
  have granted : Grants plenty ([1].length + [1].length) := by
    unfold Grants
    decide
  have right := (all plenty _ _ _ _ oneList_isDigits oneList_isDigits).mul granted
  obtain ⟨s, made, held⟩ :=
    bigMulAbs_empty oneList_isDigits oneList_isDigits (by simp) (by simp) granted
  rw [made] at right
  exact absurd (stands_of_empty held right) (by decide)

end Results

end Nytrix.Rt.Sequences
