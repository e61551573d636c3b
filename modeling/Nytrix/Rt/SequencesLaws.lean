import Nytrix.Rt.MathLaws
import Nytrix.Rt.Sequences

/-! Which operations on sequences give blocks that are as large as they say, and when. -/

namespace Nytrix.Rt.Sequences

open Nytrix.Lib

section Words

theorem rawBits_tagWord_toInt (v : BitVec 64) :
    (rawBits (tagWord v)).toInt = Int.bmod v.toInt (2 ^ 63) := by
  rw [rawBits_eq (isInt_tagV v), untagWord_tagWord_toInt]

theorem rawBits_tagWord_ofNat {n : Nat} (small : n < 2 ^ 62) :
    rawBits (tagWord (BitVec.ofNat 64 n)) = BitVec.ofNat 64 n := by
  apply BitVec.eq_of_toInt_eq
  have same : (BitVec.ofNat 64 n).toInt = n := by
    rw [BitVec.toInt_ofNat']
    exact Int.bmod_eq_of_le (by omega) (by omega)
  rw [rawBits_tagWord_toInt, same]
  exact Int.bmod_eq_of_le (by omega) (by omega)

theorem untagWord_tagWord_ofNat {n : Nat} (small : n < 2 ^ 62) :
    untagWord (tagWord (BitVec.ofNat 64 n)) = BitVec.ofNat 64 n := by
  rw [← rawBits_eq (isInt_tagV _), rawBits_tagWord_ofNat small]

theorem le_bodySize (n : Nat) : n ≤ bodySize n ∧ bodySize n < n + 16 ∧ bodySize n % 16 = 0 := by
  unfold bodySize
  omega

theorem sizeArg_tagWord (v : BitVec 64) : sizeArg (tagWord v) = Int.bmod v.toInt (2 ^ 63) := by
  have odd : (tagWord v).toNat % 2 = 1 := isInt_iff.mp (isInt_tagV v)
  have held := untagWord_tagWord_toInt v
  rw [untagWord, BitVec.toInt_sshiftRight, Int.shiftRight_eq_div_pow] at held
  rw [sizeArg, if_pos odd, ← held]
  rfl

end Words

section Requests

variable {a : Allocator} {N B : Nat}

theorem Allocator.body_eq_some {size : BitVec 64} (given : a.body size = some B) :
    0 ≤ sizeArg size ∧ B = bodySize (sizeArg size).toNat := by
  unfold Allocator.body at given
  dsimp only at given
  split at given
  · cases given
  · next positive =>
    split at given
    · cases given
      exact ⟨Int.not_lt.mp positive, rfl⟩
    · cases given

theorem Allocator.body_words (even : N % 8 = 0) (given : a.body (BitVec.ofNat 64 N) = some B) :
    B % 16 = 0 ∧ B ≤ 2 ^ 63 ∧ (N < 2 ^ 64 → N ≤ B) ∧ (2 ^ 64 ≤ N → B < N) := by
  obtain ⟨positive, rfl⟩ := Allocator.body_eq_some given
  have arg : sizeArg (BitVec.ofNat 64 N) = (BitVec.ofNat 64 N).toInt := by
    rw [sizeArg, if_neg]
    rw [BitVec.toNat_ofNat]
    omega
  rw [arg, BitVec.toInt_ofNat'] at positive ⊢
  have size := le_bodySize (Int.bmod N (2 ^ 64)).toNat
  have word : Int.bmod N (2 ^ 64) % 8 = 0 := by
    simp only [Int.bmod]
    omega
  simp only [Int.bmod] at positive size word ⊢
  omega

theorem Allocator.body_tagged (given : a.body (tagWord (BitVec.ofNat 64 N)) = some B) :
    B ≤ 2 ^ 62 ∧ (N < 2 ^ 62 → N ≤ B) ∧ (2 ^ 62 ≤ N → B + 1 < N) := by
  obtain ⟨positive, rfl⟩ := Allocator.body_eq_some given
  rw [sizeArg_tagWord, BitVec.toInt_ofNat'] at positive ⊢
  have size := le_bodySize (Int.bmod (Int.bmod N (2 ^ 64)) (2 ^ 63)).toNat
  simp only [Int.bmod] at positive size ⊢
  omega

end Requests

section Meaning

/-- The list or tuple has these items, and its block has room for so many. -/
structure IsSeq (s : Seq) (cap : Nat) (xs : List (BitVec 64)) : Prop where
  lenWord : s.block.cells 0 = tagWord (BitVec.ofNat 64 xs.length)
  capWord : s.block.cells 1 = tagWord (BitVec.ofNat 64 cap)
  fits : xs.length ≤ cap
  room : 16 + 8 * cap ≤ 8 * s.block.size
  half : 8 * s.block.size ≤ 2 ^ 63
  items : ∀ i x, xs[i]? = some x → s.items i = x

/-- The string has these bytes, and its block has room for them and one more. -/
structure IsStr (s : Str) (bytes : List (BitVec 8)) : Prop where
  length : s.length = tagWord (BitVec.ofNat 64 bytes.length)
  small : bytes.length < 2 ^ 62
  room : bytes.length + 1 ≤ s.block.size
  bytes : ∀ i x, bytes[i]? = some x → s.block.cells i = x

/-- An operation ends with nil, or with an object that is as expected. -/
def Made.Right {α : Type} (expected : α → Prop) : Made α → Prop
  | .fault => False
  | .nil => True
  | .object made => expected made

variable {s : Seq} {cap : Nat} {xs : List (BitVec 64)}

theorem IsSeq.cap_lt (held : IsSeq s cap xs) : cap ≤ 2 ^ 60 - 2 := by
  have room := held.room
  have half := held.half
  omega

theorem IsSeq.len_eq (held : IsSeq s cap xs) :
    rawBits (s.block.cells 0) = BitVec.ofNat 64 xs.length := by
  have small := held.cap_lt
  have fits := held.fits
  rw [held.lenWord, rawBits_tagWord_ofNat (by omega)]

theorem IsSeq.cap_eq (held : IsSeq s cap xs) :
    rawBits (s.block.cells 1) = BitVec.ofNat 64 cap := by
  have small := held.cap_lt
  rw [held.capWord, rawBits_tagWord_ofNat (by omega)]

end Meaning

section NewLists

theorem exists_header {b : Block (BitVec 64)} (large : 2 ≤ b.size) (len cap : BitVec 64) :
    ∃ c d, b.store 0 len = some c ∧ c.store 1 cap = some d ∧ d.size = b.size ∧
      d.cells 0 = len ∧ d.cells 1 = cap := by
  obtain ⟨c, first, filled⟩ := Block.exists_store (show 0 < b.size by omega) len
  obtain ⟨d, second, again⟩ :=
    Block.exists_store (show 1 < c.size by rw [filled.size]; omega) cap
  refine ⟨c, d, first, second, again.size.trans filled.size, ?_, again.inside 0 Nat.zero_lt_one⟩
  rw [again.outside 0 (.inl Nat.zero_lt_one)]
  exact filled.inside 0 Nat.zero_lt_one

/-- The number of items that a new list is asked to have room for. -/
def asked (nV : BitVec 64) : Nat := (max 0 (rawBits nV).toInt).toNat

theorem asked_eq (nV : BitVec 64) :
    (if (rawBits nV).slt 0 then 0 else rawBits nV) = BitVec.ofNat 64 (asked nV) := by
  have low := BitVec.le_toInt (rawBits nV)
  have high := (rawBits nV).toInt_lt
  apply BitVec.eq_of_toInt_eq
  rw [asked, BitVec.toInt_ofNat', Int.bmod_eq_of_le (by omega) (by omega)]
  have zero : (0 : BitVec 64).toInt = 0 := rfl
  by_cases negative : (rawBits nV).slt 0 = true
  · have below := BitVec.slt_iff_toInt_lt.mp negative
    rw [if_pos negative, zero]
    omega
  · have below := mt BitVec.slt_iff_toInt_lt.mpr negative
    rw [if_neg negative]
    omega

theorem bytes_eq (n : Nat) :
    16 + BitVec.ofNat 64 n * 8 = BitVec.ofNat 64 (16 + 8 * n) := by
  have sixteen : (16 : BitVec 64).toNat = 16 := rfl
  have eight : (8 : BitVec 64).toNat = 8 := rfl
  apply BitVec.eq_of_toNat_eq
  rw [BitVec.toNat_add, BitVec.toNat_mul, sixteen, eight, BitVec.toNat_ofNat, BitVec.toNat_ofNat]
  omega

theorem rtListNew_eq (a : Allocator) (nV : BitVec 64) :
    rtListNew a nV =
      match a.mallocUninit (BitVec.ofNat 64 (16 + 8 * asked nV)) with
      | none => .nil
      | some block => .ofWrites do
        let block ← block.store 0 1
        let block ← block.store 1 (tagWord (BitVec.ofNat 64 (asked nV)))
        return ⟨false, block⟩ := by
  unfold rtListNew
  dsimp only
  rw [asked_eq, bytes_eq]
  all_goals rfl

theorem Allocator.mallocUninit_eq_some {a : Allocator} {N : Nat} {block : Block (BitVec 64)}
    (even : N % 8 = 0) (given : a.mallocUninit (BitVec.ofNat 64 N) = some block) :
    8 * block.size ≤ 2 ^ 63 ∧ (N < 2 ^ 64 → N ≤ 8 * block.size) ∧
      (2 ^ 64 ≤ N → 8 * block.size < N) := by
  obtain ⟨bytes, met, rfl⟩ := Option.map_eq_some_iff.mp given
  have known := Allocator.body_words even met
  dsimp only
  omega

theorem Allocator.mallocUninit_eq_none {a : Allocator} {size : BitVec 64} :
    a.mallocUninit size = none ↔ a.body size = none := by
  rw [mallocUninit, Option.map_eq_none_iff]

theorem rtListNew_object {a : Allocator} {nV : BitVec 64} {block : Block (BitVec 64)}
    (given : a.mallocUninit (BitVec.ofNat 64 (16 + 8 * asked nV)) = some block)
    (large : 2 ≤ block.size) :
    ∃ out, rtListNew a nV = .object ⟨false, out⟩ ∧ out.size = block.size ∧
      out.cells 0 = 1 ∧ out.cells 1 = tagWord (BitVec.ofNat 64 (asked nV)) := by
  obtain ⟨c, d, first, second, size, len, cap⟩ :=
    exists_header large 1 (tagWord (BitVec.ofNat 64 (asked nV)))
  refine ⟨d, ?_, size, len, cap⟩
  rw [rtListNew_eq, given]
  dsimp only
  rw [first, Option.bind_eq_bind, Option.bind_some, second]
  rfl

theorem rtListNew_fault {a : Allocator} {nV : BitVec 64} {block : Block (BitVec 64)}
    (given : a.mallocUninit (BitVec.ofNat 64 (16 + 8 * asked nV)) = some block)
    (tiny : block.size < 2) : rtListNew a nV = .fault := by
  rw [rtListNew_eq, given]
  dsimp only
  cases first : block.store 0 1 with
  | none => rfl
  | some c =>
    rw [Option.bind_eq_bind, Option.bind_some, Block.store, Block.copy_eq_none]
    · rfl
    · rw [Block.size_copy first]
      omega

theorem rtListNew_right_iff (a : Allocator) (nV : BitVec 64) :
    (rtListNew a nV).Right (fun s => s.tuple = false ∧ IsSeq s (asked nV) []) ↔
      16 + 8 * asked nV < 2 ^ 64 ∨ a.body (BitVec.ofNat 64 (16 + 8 * asked nV)) = none := by
  cases given : a.mallocUninit (BitVec.ofNat 64 (16 + 8 * asked nV)) with
  | none =>
    rw [rtListNew_eq, given]
    exact iff_of_true trivial (.inr (Allocator.mallocUninit_eq_none.mp given))
  | some block =>
    obtain ⟨half, whole, cut⟩ := Allocator.mallocUninit_eq_some (by omega) given
    have met : a.body (BitVec.ofNat 64 (16 + 8 * asked nV)) ≠ none := by
      rw [Ne, ← Allocator.mallocUninit_eq_none, given]
      nofun
    by_cases large : 2 ≤ block.size
    · obtain ⟨out, made, size, len, cap⟩ := rtListNew_object given large
      rw [made]
      constructor
      · rintro ⟨-, held⟩
        have room := held.room
        dsimp only at room
        rw [size] at room
        exact .inl (by omega)
      · rintro (fits | refused)
        · refine ⟨rfl, len, cap, Nat.zero_le _, ?_, ?_, nofun⟩
          · rw [size]
            exact whole fits
          · rw [size]
            exact half
        · exact absurd refused met
    · rw [rtListNew_fault given (by omega)]
      refine iff_of_false id ?_
      rintro (fits | refused)
      · have := whole fits
        omega
      · exact met refused

end NewLists

section Filling

/-- A block in the making: it has the capacity and these items, whatever its length says. -/
structure HasItems (b : Block (BitVec 64)) (cap : Nat) (xs : List (BitVec 64)) : Prop where
  capWord : b.cells 1 = tagWord (BitVec.ofNat 64 cap)
  fits : xs.length ≤ cap
  room : 16 + 8 * cap ≤ 8 * b.size
  half : 8 * b.size ≤ 2 ^ 63
  items : ∀ i x, xs[i]? = some x → b.cells (2 + i) = x

variable {b c : Block (BitVec 64)} {s : Seq} {cap : Nat} {xs ys : List (BitVec 64)}
  {src : Nat → BitVec 64}

theorem IsSeq.hasItems (held : IsSeq s cap xs) : HasItems s.block cap xs :=
  ⟨held.capWord, held.fits, held.room, held.half, held.items⟩

theorem HasItems.extend (held : HasItems b cap xs) (fits : xs.length + ys.length ≤ cap)
    (filled : Block.Filled b c (2 + xs.length) ys.length src)
    (same : ∀ i y, ys[i]? = some y → src i = y) : HasItems c cap (xs ++ ys) := by
  refine ⟨?_, ?_, ?_, ?_, ?_⟩
  · rw [filled.outside 1 (by omega), held.capWord]
  · rw [List.length_append]
    exact fits
  · rw [filled.size]
    exact held.room
  · rw [filled.size]
    exact held.half
  · intro i x found
    by_cases early : i < xs.length
    · rw [List.getElem?_append_left early] at found
      rw [filled.outside _ (by omega), held.items i x found]
    · rw [List.getElem?_append_right (by omega)] at found
      obtain ⟨low, -⟩ := List.getElem?_eq_some_iff.mp found
      have place : 2 + i = 2 + xs.length + (i - xs.length) := by omega
      rw [place, filled.inside _ low, same _ _ found]

theorem HasItems.finish (held : HasItems b cap xs) :
    ∃ c, b.store 0 (tagWord (BitVec.ofNat 64 xs.length)) = some c ∧
      ∀ tuple, IsSeq ⟨tuple, c⟩ cap xs := by
  have room := held.room
  obtain ⟨c, done, filled⟩ := Block.exists_store (show 0 < b.size by omega)
    (tagWord (BitVec.ofNat 64 xs.length))
  refine ⟨c, done, fun tuple => ⟨filled.inside 0 Nat.zero_lt_one, ?_, held.fits, ?_, ?_, ?_⟩⟩
  · rw [← held.capWord]
    exact filled.outside 1 (.inr (Nat.le_refl 1))
  · rw [filled.size]
    exact held.room
  · rw [filled.size]
    exact held.half
  · intro i x found
    rw [← held.items i x found]
    exact filled.outside (2 + i) (.inr (by omega))

theorem HasItems.ofHeader (capWord : b.cells 1 = tagWord (BitVec.ofNat 64 cap))
    (room : 16 + 8 * cap ≤ 8 * b.size) (half : 8 * b.size ≤ 2 ^ 63) : HasItems b cap [] :=
  ⟨capWord, Nat.zero_le _, room, half, nofun⟩

theorem wordAt_ofNat {k : Nat} (small : k < 2 ^ 61) : wordAt (BitVec.ofNat 64 (8 * k)) = k := by
  rw [wordAt, BitVec.toNat_ofNat]
  omega

theorem wordAt_sixteen : wordAt 16 = 2 := rfl

theorem wordAt_item {n : Nat} (small : n < 2 ^ 60) :
    wordAt (16 + BitVec.ofNat 64 n * 8) = 2 + n := by
  rw [bytes_eq, show 16 + 8 * n = 8 * (2 + n) by omega]
  exact wordAt_ofNat (by omega)

theorem wordAt_length {n : Nat} (small : n < 2 ^ 61) : wordAt (BitVec.ofNat 64 n * 8) = n := by
  have eight : (8 : BitVec 64).toNat = 8 := rfl
  rw [wordAt, BitVec.toNat_mul, eight, BitVec.toNat_ofNat]
  omega

theorem HasItems.exists_fresh (len : BitVec 64) (room : 16 + 8 * cap ≤ 8 * b.size)
    (half : 8 * b.size ≤ 2 ^ 63) :
    ∃ c d, b.store 0 len = some c ∧ c.store 1 (tagWord (BitVec.ofNat 64 cap)) = some d ∧
      d.cells 0 = len ∧ HasItems d cap [] := by
  obtain ⟨c, d, first, second, size, held, capWord⟩ :=
    exists_header (show 2 ≤ b.size by omega) len (tagWord (BitVec.ofNat 64 cap))
  exact ⟨c, d, first, second, held, .ofHeader capWord (size ▸ room) (size ▸ half)⟩

theorem HasItems.exists_copy (held : HasItems b cap xs) (fits : xs.length + ys.length ≤ cap)
    (same : ∀ i y, ys[i]? = some y → src i = y) :
    ∃ c, b.copy (2 + xs.length) ys.length src = some c ∧ c.cells 0 = b.cells 0 ∧
      HasItems c cap (xs ++ ys) := by
  have room := held.room
  obtain ⟨c, done, filled⟩ :=
    Block.exists_copy (show 2 + xs.length + ys.length ≤ b.size by omega) src
  exact ⟨c, done, filled.outside 0 (by omega), held.extend fits filled same⟩

theorem zero_slt_ofNat {n : Nat} (small : n < 2 ^ 63) :
    (0 : BitVec 64).slt (BitVec.ofNat 64 n) = true ↔ 0 < n := by
  have zero : (0 : BitVec 64).toInt = 0 := rfl
  rw [BitVec.slt_iff_toInt_lt, BitVec.toInt_ofNat', Int.bmod_eq_of_le (by omega) (by omega), zero]
  omega

theorem HasItems.copyAny (held : HasItems b cap xs) (fits : xs.length + ys.length ≤ cap)
    (same : ∀ i y, ys[i]? = some y → src i = y) :
    ∃ c, copyItems b (2 + xs.length) (BitVec.ofNat 64 ys.length) src = some c ∧
      c.cells 0 = b.cells 0 ∧ HasItems c cap (xs ++ ys) := by
  have room := held.room
  have half := held.half
  rw [copyItems, wordAt_length (by omega)]
  by_cases any : 0 < ys.length
  · rw [if_pos ((zero_slt_ofNat (by omega)).mpr any)]
    exact held.exists_copy fits same
  · rw [if_neg (mt (zero_slt_ofNat (by omega)).mp any)]
    obtain rfl := List.eq_nil_of_length_eq_zero (Nat.eq_zero_of_not_pos any)
    exact ⟨b, rfl, rfl, by rw [List.append_nil]; exact held⟩

theorem HasItems.isSeq (held : HasItems b cap xs)
    (lenWord : b.cells 0 = tagWord (BitVec.ofNat 64 xs.length)) (tuple : Bool) :
    IsSeq ⟨tuple, b⟩ cap xs :=
  ⟨lenWord, held.capWord, held.fits, held.room, held.half, held.items⟩

end Filling

section Growing

variable {a : Allocator} {lst : Seq} {cap : Nat} {xs : List (BitVec 64)}

theorem HasItems.push {b : Block (BitVec 64)} (held : HasItems b cap xs) (less : xs.length < cap)
    (val : BitVec 64) :
    ∃ c d, b.store (2 + xs.length) val = some c ∧
      c.store 0 (tagWord (BitVec.ofNat 64 (xs.length + 1))) = some d ∧
      ∀ tuple, IsSeq ⟨tuple, d⟩ cap (xs ++ [val]) := by
  have room := held.room
  obtain ⟨c, stored, filled⟩ := Block.exists_store (show 2 + xs.length < b.size by omega) val
  have more : HasItems c cap (xs ++ [val]) := by
    refine held.extend less filled fun i y found => ?_
    obtain ⟨low, rfl⟩ := List.getElem?_eq_some_iff.mp found
    exact (List.getElem_singleton low).symm
  obtain ⟨d, done, list⟩ := more.finish
  rw [List.length_append] at done
  exact ⟨c, d, stored, done, list⟩

theorem sle_ofNat {m n : Nat} (left : m < 2 ^ 63) (right : n < 2 ^ 63) :
    (BitVec.ofNat 64 m).sle (BitVec.ofNat 64 n) = true ↔ m ≤ n := by
  rw [BitVec.sle_iff_toInt_le, BitVec.toInt_ofNat', BitVec.toInt_ofNat',
    Int.bmod_eq_of_le (by omega) (by omega), Int.bmod_eq_of_le (by omega) (by omega)]
  omega

theorem slt_ofNat {m n : Nat} (left : m < 2 ^ 63) (right : n < 2 ^ 63) :
    (BitVec.ofNat 64 m).slt (BitVec.ofNat 64 n) = true ↔ m < n := by
  rw [BitVec.slt_iff_toInt_lt, BitVec.toInt_ofNat', BitVec.toInt_ofNat',
    Int.bmod_eq_of_le (by omega) (by omega), Int.bmod_eq_of_le (by omega) (by omega)]
  omega

theorem rtAppend_right (held : IsSeq lst cap xs) (val : BitVec 64) :
    (rtAppend a lst val).Right fun s =>
      s = lst ∨ (s.tuple = false ∧ ∃ cap', IsSeq s cap' (xs ++ [val])) := by
  have small := held.cap_lt
  have fits := held.fits
  unfold rtAppend
  split
  · exact .inl rfl
  · have next : BitVec.ofNat 64 xs.length + 1 = BitVec.ofNat 64 (xs.length + 1) :=
      (BitVec.ofNat_add ..).symm
    have place : wordAt (16 + BitVec.ofNat 64 xs.length * 8) = 2 + xs.length :=
      wordAt_item (by omega)
    have width : wordAt (BitVec.ofNat 64 xs.length * 8) = xs.length := wordAt_length (by omega)
    simp only [held.len_eq, held.cap_eq, place, next, width]
    by_cases full : (BitVec.ofNat 64 cap).sle (BitVec.ofNat 64 xs.length) = true
    · rw [if_pos full]
      have filled := (sle_ofNat (by omega) (by omega)).mp full
      -- The new capacity is so small that the request is not cut.
      obtain ⟨more, wide, same, large⟩ : ∃ more, more ≤ max 8 (cap * 2) ∧
          (if BitVec.ofNat 64 cap = 0 then 8 else BitVec.ofNat 64 cap * 2) = BitVec.ofNat 64 more ∧
          cap < more := by
        by_cases empty : cap = 0
        · exact ⟨8, by omega, by rw [empty]; rfl, by omega⟩
        · refine ⟨cap * 2, by omega, ?_, by omega⟩
          rw [if_neg, BitVec.ofNat_mul]
          · rfl
          · intro zero
            have := congrArg BitVec.toNat zero
            rw [BitVec.toNat_ofNat] at this
            have : cap % 2 ^ 64 = 0 := this
            omega
      rw [same, bytes_eq]
      cases given : a.mallocUninit (BitVec.ofNat 64 (16 + 8 * more)) with
      | none => exact .inl rfl
      | some block =>
        obtain ⟨half, whole, -⟩ := Allocator.mallocUninit_eq_some (by omega) given
        obtain ⟨c, d, first, second, -, fresh⟩ :=
          HasItems.exists_fresh (lst.block.cells 0) (whole (by omega)) half
        obtain ⟨e, third, -, copied⟩ :=
          fresh.exists_copy (by rw [List.length_nil]; omega) held.items
        rw [List.nil_append] at copied
        obtain ⟨f, g, fourth, fifth, list⟩ := copied.push (by omega) val
        rw [List.length_nil] at third
        dsimp only
        simp only [wordAt_sixteen, first, second, third, fourth, fifth, Option.bind_eq_bind,
          Option.bind_some, Option.pure_def, Made.ofWrites]
        exact .inr ⟨rfl, more, list false⟩
    · rw [if_neg full]
      have free := mt (sle_ofNat (by omega) (by omega)).mpr full
      obtain ⟨c, d, first, second, list⟩ := held.hasItems.push (by omega) val
      rw [first, Option.bind_eq_bind, Option.bind_some, second]
      exact .inr ⟨rfl, cap, list false⟩

theorem asked_le_iff {capV : BitVec 64} {cap : Nat} (small : cap < 2 ^ 63) :
    asked capV ≤ cap ↔
      ((rawBits capV).sle 0 || (rawBits capV).sle (BitVec.ofNat 64 cap)) = true := by
  have zero : (0 : BitVec 64).toInt = 0 := rfl
  rw [Bool.or_eq_true, BitVec.sle_iff_toInt_le, BitVec.sle_iff_toInt_le, zero, BitVec.toInt_ofNat',
    Int.bmod_eq_of_le (by omega) (by omega), asked]
  omega

theorem rawBits_of_asked {capV : BitVec 64} (positive : 0 < asked capV) :
    rawBits capV = BitVec.ofNat 64 (asked capV) := by
  rw [← asked_eq, if_neg]
  intro negative
  have below := BitVec.slt_iff_toInt_lt.mp negative
  have zero : (0 : BitVec 64).toInt = 0 := rfl
  rw [asked] at positive
  omega

theorem cap_of_word {b : Block (BitVec 64)} {n : Nat} (small : n < 2 ^ 63)
    (word : b.cells 1 = tagWord (BitVec.ofNat 64 n)) (held : HasItems b cap xs) : cap = n := by
  have room := held.room
  have half := held.half
  have same := congrArg (fun w => (rawBits w).toInt) (held.capWord.symm.trans word)
  simp only [rawBits_tagWord_toInt, BitVec.toInt_ofNat', Int.bmod] at same
  omega

theorem size_copyItems {b c : Block (BitVec 64)} {place : Nat} {n : BitVec 64}
    {src : Nat → BitVec 64} (behind : 2 ≤ place) (done : copyItems b place n src = some c) :
    c.size = b.size ∧ c.cells 1 = b.cells 1 := by
  unfold copyItems at done
  split at done
  · by_cases fits : place + wordAt (n * 8) ≤ b.size
    · obtain ⟨d, made, filled⟩ := Block.exists_copy fits src
      obtain rfl := Option.some.inj (done.symm.trans made)
      exact ⟨filled.size, filled.outside 1 (by omega)⟩
    · rw [Block.copy_eq_none (by omega)] at done
      cases done
  · cases done
    exact ⟨rfl, rfl⟩

theorem store_eq_some {b c : Block (BitVec 64)} {place : Nat} {value : BitVec 64}
    (done : b.store place value = some c) : c.size = b.size ∧ c.cells place = value := by
  by_cases fits : place < b.size
  · obtain ⟨d, made, filled⟩ := Block.exists_store fits value
    obtain rfl := Option.some.inj (done.symm.trans made)
    exact ⟨filled.size, filled.inside 0 Nat.zero_lt_one⟩
  · rw [Block.store, Block.copy_eq_none (by omega)] at done
    cases done

theorem not_right_ofWrites {α : Type} {expected : α → Prop} {writes : Option α}
    (wrong : ∀ made, writes = some made → ¬expected made) :
    ¬(Made.ofWrites writes).Right expected := by
  cases writes with
  | none => exact id
  | some made => exact wrong made rfl

theorem rtListReserve_right_iff (held : IsSeq lst cap xs) (capV : BitVec 64) :
    (rtListReserve a lst capV).Right (fun s => s.tuple = lst.tuple ∧ ∃ cap', IsSeq s cap' xs) ↔
      lst.tuple = true ∨ asked capV ≤ cap ∨ 16 + 8 * asked capV < 2 ^ 64 ∨
        a.body (BitVec.ofNat 64 (16 + 8 * asked capV)) = none := by
  have small := held.cap_lt
  have fits := held.fits
  have low : asked capV < 2 ^ 63 := by
    have high := (rawBits capV).toInt_lt
    rw [asked]
    omega
  unfold rtListReserve
  simp only [held.len_eq, held.cap_eq, Bool.or_assoc]
  by_cases same : lst.tuple = true ∨ asked capV ≤ cap
  · rw [asked_le_iff (by omega), ← Bool.or_eq_true] at same
    rw [if_pos same]
    rw [Bool.or_eq_true, ← asked_le_iff (by omega)] at same
    exact iff_of_true ⟨rfl, cap, held⟩ (same.imp_right .inl)
  · have larger := not_or.mp same
    rw [asked_le_iff (by omega), ← Bool.or_eq_true] at same
    rw [if_neg same, rawBits_of_asked (by omega), bytes_eq, wordAt_sixteen]
    have list : lst.tuple = false := Bool.eq_false_iff.mpr larger.1
    cases given : a.mallocUninit (BitVec.ofNat 64 (16 + 8 * asked capV)) with
    | none =>
      exact iff_of_true ⟨rfl, cap, held⟩
        (.inr (.inr (.inr (Allocator.mallocUninit_eq_none.mp given))))
    | some block =>
      obtain ⟨half, whole, cut⟩ := Allocator.mallocUninit_eq_some (by omega) given
      have met : a.body (BitVec.ofNat 64 (16 + 8 * asked capV)) ≠ none := by
        rw [Ne, ← Allocator.mallocUninit_eq_none, given]
        nofun
      by_cases wide : 16 + 8 * asked capV < 2 ^ 64
      · refine iff_of_true ?_ (.inr (.inr (.inl wide)))
        obtain ⟨c, d, first, second, len, fresh⟩ :=
          HasItems.exists_fresh (lst.block.cells 0) (whole wide) half
        obtain ⟨e, third, kept, copied⟩ :=
          fresh.copyAny (by rw [List.length_nil]; omega) held.items
        rw [List.nil_append] at copied
        rw [List.length_nil] at third
        dsimp only
        rw [first, Option.bind_eq_bind, Option.bind_some, second, Option.bind_some, third]
        exact ⟨list.symm, _, copied.isSeq (kept.trans (len.trans held.lenWord)) false⟩
      · refine iff_of_false (not_right_ofWrites fun s made => ?_) ?_
        · -- The capacity that is written is larger than the block.
          obtain ⟨c, first, made⟩ := Option.bind_eq_some_iff.mp made
          obtain ⟨d, second, made⟩ := Option.bind_eq_some_iff.mp made
          obtain ⟨e, third, made⟩ := Option.bind_eq_some_iff.mp made
          cases made
          rintro ⟨-, cap', list⟩
          have sizes := (size_copyItems (Nat.le_refl 2) third).1.trans
            ((store_eq_some second).1.trans (store_eq_some first).1)
          have word := (size_copyItems (Nat.le_refl 2) third).2.trans (store_eq_some second).2
          have same := cap_of_word low word list.hasItems
          have room := list.room
          dsimp only at room
          omega
        · rintro (tuple | less | fits | refused)
          · exact larger.1 tuple
          · exact larger.2 less
          · exact wide fits
          · exact met refused

theorem asked_tagWord {n : Nat} (small : n < 2 ^ 62) : asked (tagWord (BitVec.ofNat 64 n)) = n := by
  rw [asked, rawBits_tagWord_ofNat small, BitVec.toInt_ofNat',
    Int.bmod_eq_of_le (by omega) (by omega)]
  omega

theorem rtListNew_cases (a : Allocator) (nV : BitVec 64) (whole : 16 + 8 * asked nV < 2 ^ 64) :
    (rtListNew a nV = .nil ∧ a.body (BitVec.ofNat 64 (16 + 8 * asked nV)) = none) ∨
      (a.body (BitVec.ofNat 64 (16 + 8 * asked nV)) ≠ none ∧
        ∃ out, rtListNew a nV = .object ⟨false, out⟩ ∧ HasItems out (asked nV) []) := by
  cases given : a.mallocUninit (BitVec.ofNat 64 (16 + 8 * asked nV)) with
  | none =>
    refine .inl ⟨?_, Allocator.mallocUninit_eq_none.mp given⟩
    rw [rtListNew_eq, given]
  | some block =>
    obtain ⟨half, full, -⟩ := Allocator.mallocUninit_eq_some (by omega) given
    have room := full whole
    obtain ⟨out, made, size, -, capWord⟩ := rtListNew_object given (by omega)
    rw [← size] at room half
    refine .inr ⟨?_, out, made, .ofHeader capWord room half⟩
    rw [Ne, ← Allocator.mallocUninit_eq_none, given]
    nofun

theorem rtSeqConcat_right {x y : Seq} {capX capY : Nat} {xs ys : List (BitVec 64)}
    (heldX : IsSeq x capX xs) (heldY : IsSeq y capY ys) :
    (rtSeqConcat a x y).Right fun s =>
      s.tuple = (x.tuple && y.tuple) ∧ ∃ cap, IsSeq s cap (xs ++ ys) := by
  have smallX := heldX.cap_lt
  have smallY := heldY.cap_lt
  have fitsX := heldX.fits
  have fitsY := heldY.fits
  unfold rtSeqConcat
  rw [seqLenRaw, seqLenRaw, heldX.len_eq, heldY.len_eq]
  dsimp only
  split
  · trivial
  · rw [← BitVec.ofNat_add]
    have total := asked_tagWord (show xs.length + ys.length < 2 ^ 62 by omega)
    rcases rtListNew_cases a (tagWord (BitVec.ofNat 64 (xs.length + ys.length)))
      (by rw [total]; omega) with ⟨made, -⟩ | ⟨-, out, made, fresh⟩
    · rw [made]
      trivial
    · rw [total] at fresh
      obtain ⟨b, first, -, one⟩ := fresh.copyAny (by rw [List.length_nil]; omega) heldX.items
      rw [List.nil_append] at one
      obtain ⟨c, second, -, both⟩ := one.copyAny (Nat.le_refl _) heldY.items
      obtain ⟨d, done, list⟩ := both.finish
      rw [List.length_append] at done
      rw [List.length_nil] at first
      rw [made, wordAt_item (show xs.length < 2 ^ 60 by omega), wordAt_sixteen]
      dsimp only
      rw [first, Option.bind_eq_bind, Option.bind_some, second, Option.bind_some, done]
      exact ⟨rfl, _, list _⟩

end Growing

section Repeating

variable {a : Allocator} {lst : Seq} {cap : Nat} {xs : List (BitVec 64)}

theorem rtListNew_size {nV : BitVec 64} {s : Seq} (made : rtListNew a nV = .object s) :
    2 ≤ s.block.size ∧ 8 * s.block.size ≤ 2 ^ 63 := by
  cases given : a.mallocUninit (BitVec.ofNat 64 (16 + 8 * asked nV)) with
  | none =>
    rw [rtListNew_eq, given] at made
    cases made
  | some block =>
    by_cases large : 2 ≤ block.size
    · obtain ⟨out, same, size, -, -⟩ := rtListNew_object given large
      rw [same] at made
      cases made
      dsimp only
      rw [size]
      exact ⟨large, (Allocator.mallocUninit_eq_some (by omega) given).1⟩
    · rw [rtListNew_fault given (by omega)] at made
      cases made

theorem untagWord_of_pos {b : BitVec 64} (positive : 0 < (untagWord b).toInt) :
    untagWord b = BitVec.ofNat 64 (untagWord b).toInt.toNat ∧
      (untagWord b).toNat = (untagWord b).toInt.toNat := by
  have high := (untagWord b).toInt_lt
  have same : (untagWord b).toNat = (untagWord b).toInt.toNat := by
    have cond := BitVec.toInt_eq_toNat_cond (untagWord b)
    split at cond <;> omega
  refine ⟨?_, same⟩
  rw [← same, BitVec.ofNat_toNat, BitVec.setWidth_eq]

theorem sle_zero_iff {w : BitVec 64} : w.sle 0 = true ↔ w.toInt ≤ 0 := by
  rw [BitVec.sle_iff_toInt_le]
  rfl

/-- Repeating a list is as expected exactly when nothing is repeated, or there is memory for it. -/
theorem repeatList_right_iff (held : IsSeq lst cap xs) (b : BitVec 64) :
    (repeatList a lst b).Right (fun s => s.tuple = false ∧ ∃ cap,
        IsSeq s cap (List.replicate (untagWord b).toInt.toNat xs).flatten) ↔
      xs.length * (untagWord b).toInt.toNat = 0 ∨
        (16 + 8 * (xs.length * (untagWord b).toInt.toNat) < 2 ^ 64 ∧
          a.body (BitVec.ofNat 64 (16 + 8 * (xs.length * (untagWord b).toInt.toNat))) ≠ none) := by
  have small := held.cap_lt
  have fits := held.fits
  unfold repeatList
  rw [seqLenRaw, held.len_eq]
  dsimp only
  have lenInt : (BitVec.ofNat 64 xs.length).toInt = xs.length := by
    rw [BitVec.toInt_ofNat', Int.bmod_eq_of_le (by omega) (by omega)]
  generalize known : (untagWord b).toInt.toNat = n
  by_cases empty : ((untagWord b).sle 0 || (BitVec.ofNat 64 xs.length).sle 0) = true
  · rw [if_pos empty]
    rw [Bool.or_eq_true, sle_zero_iff, sle_zero_iff, lenInt] at empty
    have zero : xs.length * n = 0 := by
      rcases empty with none | none
      · rw [show n = 0 by omega, Nat.mul_zero]
      · rw [show xs.length = 0 by omega, Nat.zero_mul]
    have nothing : (List.replicate n xs).flatten = [] := by
      apply List.eq_nil_of_length_eq_zero
      rw [length_repeated, Nat.mul_comm]
      exact zero
    have made := (rtListNew_right_iff a 1).mpr (.inl (by decide))
    rw [nothing]
    refine iff_of_true ?_ (.inl zero)
    cases result : rtListNew a 1 with
    | fault => rw [result] at made; exact made
    | nil => trivial
    | object s =>
      rw [result] at made
      exact ⟨made.1, _, made.2⟩
  · rw [if_neg empty]
    rw [Bool.or_eq_true, sle_zero_iff, sle_zero_iff, lenInt, not_or] at empty
    obtain ⟨word, count⟩ := untagWord_of_pos (Int.not_le.mp empty.1)
    rw [known] at word count
    rw [word, ← BitVec.ofNat_mul, wordAt_length (by omega)]
    have positive : xs.length * n ≠ 0 := by
      rw [Nat.mul_ne_zero_iff]
      omega
    have place (i : Nat) (room : 2 + i * xs.length < 2 ^ 61) :
        wordAt (16 + BitVec.ofNat 64 i * BitVec.ofNat 64 xs.length * 8) = 2 + i * xs.length := by
      rw [← BitVec.ofNat_mul, bytes_eq,
        show 16 + 8 * (i * xs.length) = 8 * (2 + i * xs.length) by omega]
      exact wordAt_ofNat room
    have total : (BitVec.ofNat 64 n).toNat = n := by
      rw [BitVec.toNat_ofNat, ← count]
      exact Nat.mod_eq_of_lt (untagWord b).isLt
    rw [total]
    by_cases whole : 16 + 8 * (xs.length * n) < 2 ^ 64
    · have request : asked (tagWord (BitVec.ofNat 64 (xs.length * n))) = xs.length * n :=
        asked_tagWord (by omega)
      rcases rtListNew_cases a (tagWord (BitVec.ofNat 64 (xs.length * n)))
        (by rw [request]; exact whole) with ⟨made, refused⟩ | ⟨met, out, made, fresh⟩
      · rw [made]
        rw [request] at refused
        refine iff_of_false id ?_
        rintro (zero | ⟨-, met⟩)
        · exact positive zero
        · exact met refused
      · rw [made]
        rw [request] at met fresh
        refine iff_of_true ?_ (.inr ⟨whole, met⟩)
        have room := fresh.room
        have length := length_repeated xs n
        obtain ⟨c, first, header⟩ := Block.exists_store (show 0 < out.size by omega)
          (tagWord (BitVec.ofNat 64 (xs.length * n)))
        obtain ⟨d, second, filled⟩ := Block.exists_copies
          (fun i low => place i (by
            have below := Nat.mul_le_mul_right xs.length (Nat.le_of_lt low)
            rw [Nat.mul_comm n] at below
            omega))
          (show 2 + n * xs.length ≤ c.size by rw [header.size, Nat.mul_comm n]; omega) lst.items
        have headed : HasItems c (xs.length * n) [] := by
          refine .ofHeader ?_ (header.size ▸ room) (header.size ▸ fresh.half)
          rw [header.outside 1 (.inr (Nat.le_refl 1))]
          exact fresh.capWord
        rw [← length] at filled
        have copied := headed.extend (by rw [length, List.length_nil, Nat.mul_comm n]; omega) filled
          fun i y found => held.items _ y (getElem?_repeated found)
        rw [List.nil_append] at copied
        dsimp only
        rw [first, Option.bind_eq_bind, Option.bind_some, second]
        refine ⟨rfl, _, copied.isSeq ?_ false⟩
        rw [filled.outside 0 (.inl (by omega)), length, Nat.mul_comm n]
        exact header.inside 0 Nat.zero_lt_one
    · -- Wherever the cut size leads, the copies run out of the block.
      refine iff_of_false ?_ ?_
      · cases made : rtListNew a (tagWord (BitVec.ofNat 64 (xs.length * n))) with
        | fault => exact id
        | nil => exact id
        | object out =>
          obtain ⟨two, half⟩ := rtListNew_size made
          refine not_right_ofWrites fun s written => ?_
          obtain ⟨c, first, written⟩ := Option.bind_eq_some_iff.mp written
          obtain ⟨d, second, -⟩ := Option.bind_eq_some_iff.mp written
          have size := (store_eq_some first).1
          have outside := Block.copies_eq_none_of_large
            (fun i (room : 2 + i * xs.length ≤ c.size) => place i (by omega))
            (by omega) (show c.size < 2 + n * xs.length by rw [Nat.mul_comm n]; omega)
            lst.items
          rw [outside] at second
          cases second
      · rintro (zero | ⟨fits, -⟩)
        · exact positive zero
        · exact whole fits

end Repeating

section Strings

variable {a : Allocator} {s : Str} {bytes : List (BitVec 8)} {src : Nat → BitVec 8}

theorem isStr_of_filled {b c d : Block (BitVec 8)} {value : BitVec 8}
    (small : bytes.length < 2 ^ 62) (room : bytes.length + 1 ≤ b.size)
    (filled : Block.Filled b c 0 bytes.length src) (same : ∀ i x, bytes[i]? = some x → src i = x)
    (last : Block.Filled c d bytes.length 1 fun _ => value) :
    IsStr ⟨tagWord (BitVec.ofNat 64 bytes.length), d⟩ bytes := by
  refine ⟨rfl, small, ?_, ?_⟩
  · rw [last.size, filled.size]
    exact room
  · intro i x found
    obtain ⟨low, -⟩ := List.getElem?_eq_some_iff.mp found
    have held := filled.inside i low
    rw [Nat.zero_add] at held
    rw [last.outside i (.inl low), held]
    exact same i x found

theorem Allocator.malloc_eq_some {size : BitVec 64} {block : Block (BitVec 8)}
    (given : a.malloc size = some block) : a.body size = some block.size := by
  obtain ⟨n, met, rfl⟩ := Option.map_eq_some_iff.mp given
  exact met

theorem Allocator.malloc_eq_none {size : BitVec 64} :
    a.malloc size = none ↔ a.body size = none := by
  rw [malloc, Option.map_eq_none_iff]

theorem exists_str {b : Block (BitVec 8)} (small : bytes.length < 2 ^ 62)
    (room : bytes.length + 1 ≤ b.size) (same : ∀ i x, bytes[i]? = some x → src i = x)
    (value : BitVec 8) :
    ∃ c d, b.copy 0 bytes.length src = some c ∧ c.store bytes.length value = some d ∧
      IsStr ⟨tagWord (BitVec.ofNat 64 bytes.length), d⟩ bytes := by
  obtain ⟨c, first, filled⟩ :=
    Block.exists_copy (show 0 + bytes.length ≤ b.size by omega) src
  obtain ⟨d, second, last⟩ :=
    Block.exists_store (show bytes.length < c.size by rw [filled.size]; omega) value
  exact ⟨c, d, first, second, isStr_of_filled small room filled same last⟩

theorem rtAllocStringLen_right (small : bytes.length < 2 ^ 61)
    (same : ∀ i x, bytes[i]? = some x → src i = x) :
    (rtAllocStringLen a src (BitVec.ofNat 64 bytes.length)).Right fun r => IsStr r bytes := by
  have length : (BitVec.ofNat 64 bytes.length).toNat = bytes.length := by
    rw [BitVec.toNat_ofNat]
    omega
  unfold rtAllocStringLen
  split
  · next slot =>
    rw [Bool.and_eq_true, decide_eq_true_eq, BitVec.le_def, length] at slot
    have few : bytes.length ≤ 23 := slot.1
    obtain ⟨c, d, first, second, held⟩ := exists_str (b := ⟨24, fun _ => 0⟩) (by omega)
      (show bytes.length + 1 ≤ 24 by omega) same 0
    rw [rtAllocSmallStringLen, length, first, Option.bind_eq_bind, Option.bind_some, second]
    exact held
  · cases given : a.malloc (tagWord (BitVec.ofNat 64 bytes.length + 1)) with
    | none => trivial
    | some block =>
      have met := Allocator.malloc_eq_some given
      rw [show BitVec.ofNat 64 bytes.length + 1 = BitVec.ofNat 64 (bytes.length + 1) from
        (BitVec.ofNat_add ..).symm] at met
      obtain ⟨-, whole, -⟩ := Allocator.body_tagged met
      obtain ⟨c, d, first, second, held⟩ := exists_str (by omega) (whole (by omega)) same 0
      dsimp only
      rw [length, first, Option.bind_eq_bind, Option.bind_some, second]
      exact held

/-- Repeating a string is as expected exactly when its size is not cut, or refused. -/
theorem repeatStr_right_iff (held : IsStr s bytes) (b : BitVec 64) :
    (repeatStr a s b).Right
        (fun r => IsStr r (List.replicate (untagWord b).toInt.toNat bytes).flatten) ↔
      bytes.length * (untagWord b).toInt.toNat + 1 < 2 ^ 62 ∨
        a.body (tagWord (BitVec.ofNat 64 (bytes.length * (untagWord b).toInt.toNat + 1))) =
          none := by
  have small := held.small
  unfold repeatStr
  rw [held.length, untagWord_tagWord_ofNat small]
  dsimp only
  have lenInt : (BitVec.ofNat 64 bytes.length).toInt = bytes.length := by
    rw [BitVec.toInt_ofNat', Int.bmod_eq_of_le (by omega) (by omega)]
  generalize known : (untagWord b).toInt.toNat = n
  by_cases none : (untagWord b).sle 0 = true
  · rw [if_pos none]
    rw [sle_zero_iff] at none
    obtain rfl : n = 0 := by omega
    have nothing : (List.replicate 0 bytes).flatten = [] := rfl
    rw [nothing]
    exact iff_of_true (rtAllocStringLen_right (by decide) nofun) (.inl (by omega))
  · rw [if_neg none]
    rw [sle_zero_iff] at none
    by_cases empty : (BitVec.ofNat 64 bytes.length).sle 0 = true
    · rw [if_pos empty]
      rw [sle_zero_iff, lenInt] at empty
      obtain rfl := List.eq_nil_of_length_eq_zero (show bytes.length = 0 by omega)
      have nothing : (List.replicate n ([] : List (BitVec 8))).flatten = [] :=
        List.eq_nil_of_length_eq_zero (by rw [length_repeated]; rfl)
      rw [nothing]
      exact iff_of_true held (.inl (by rw [List.length_nil]; omega))
    · rw [if_neg empty]
      rw [sle_zero_iff, lenInt] at empty
      obtain ⟨word, count⟩ := untagWord_of_pos (Int.not_le.mp none)
      rw [known] at word count
      have total : (BitVec.ofNat 64 n).toNat = n := by
        rw [BitVec.toNat_ofNat, ← count]
        exact Nat.mod_eq_of_lt (untagWord b).isLt
      have width : (BitVec.ofNat 64 bytes.length).toNat = bytes.length := by
        rw [BitVec.toNat_ofNat]
        omega
      have place (i : Nat) (room : 0 + i * bytes.length ≤ 2 ^ 62) :
          (BitVec.ofNat 64 i * BitVec.ofNat 64 bytes.length).toNat = 0 + i * bytes.length := by
        rw [← BitVec.ofNat_mul, BitVec.toNat_ofNat]
        omega
      rw [word, ← BitVec.ofNat_mul, total, width,
        show BitVec.ofNat 64 (bytes.length * n) + 1 = BitVec.ofNat 64 (bytes.length * n + 1) from
          (BitVec.ofNat_add ..).symm]
      cases given : a.malloc (tagWord (BitVec.ofNat 64 (bytes.length * n + 1))) with
      | none => exact iff_of_true trivial (.inr (Allocator.malloc_eq_none.mp given))
      | some block =>
        have met := Allocator.malloc_eq_some given
        obtain ⟨bound, whole, cut⟩ := Allocator.body_tagged met
        by_cases fits : bytes.length * n + 1 < 2 ^ 62
        · refine iff_of_true ?_ (.inl fits)
          have room := whole fits
          have length := length_repeated bytes n
          rw [Nat.mul_comm n] at length
          obtain ⟨c, first, filled⟩ := Block.exists_copies
            (fun i low => place i (by
              have below := Nat.mul_le_mul_right bytes.length (Nat.le_of_lt low)
              rw [Nat.mul_comm n] at below
              omega))
            (show 0 + n * bytes.length ≤ block.size by rw [Nat.mul_comm n]; omega) s.block.cells
          obtain ⟨d, second, last⟩ := Block.exists_store
            (show bytes.length * n < c.size by rw [filled.size]; omega) 0
          have behind : (BitVec.ofNat 64 (bytes.length * n)).toNat = bytes.length * n := by
            rw [BitVec.toNat_ofNat]
            omega
          dsimp only
          rw [first, Option.bind_eq_bind, Option.bind_some, behind, second, ← length]
          rw [Nat.mul_comm n, ← length] at filled
          rw [← length] at last
          exact isStr_of_filled (by omega) (by omega) filled
            (fun i x found => held.bytes _ x (getElem?_repeated found)) last
        · refine iff_of_false (not_right_ofWrites fun r written => ?_) ?_
          · obtain ⟨c, first, -⟩ := Option.bind_eq_some_iff.mp written
            have large := cut (by omega)
            rw [Block.copies_eq_none_of_large
              (fun i (room : 0 + i * bytes.length ≤ block.size) => place i (by omega))
              (by omega) (show block.size < 0 + n * bytes.length by rw [Nat.mul_comm n]; omega)]
              at first
            cases first
          · rintro (less | refused)
            · exact fits less
            · rw [met] at refused
              cases refused

theorem toInt_taggedInt (N : Nat) :
    ((((BitVec.ofNat 32 N) <<< 1) ||| 1).signExtend 64).toInt =
      2 * Int.bmod N (2 ^ 31) + 1 := by
  have apart : BitVec.ofNat 32 N <<< 1 &&& 1#32 = 0#32 := by
    ext i
    rcases i with _ | i <;> simp
  have sum : (BitVec.ofNat 32 N <<< 1) ||| 1#32 = BitVec.ofNat 32 (2 * N + 1) := by
    rw [← BitVec.add_eq_or_of_and_eq_zero _ _ apart]
    apply BitVec.eq_of_toNat_eq
    rw [BitVec.toNat_add, BitVec.toNat_shiftLeft, BitVec.toNat_ofNat, BitVec.toNat_ofNat,
      BitVec.toNat_ofNat, Nat.shiftLeft_eq]
    omega
  rw [BitVec.toInt_signExtend_of_le (by decide)]
  show (BitVec.ofNat 32 N <<< 1 ||| 1#32).toInt = _
  rw [sum, BitVec.toInt_ofNat']
  simp only [Int.bmod]
  omega

theorem taggedInt_small {N : Nat} (small : N < 2 ^ 30) :
    (((BitVec.ofNat 32 N) <<< 1) ||| 1).signExtend 64 = tagWord (BitVec.ofNat 64 N) := by
  apply BitVec.eq_of_toInt_eq
  rw [toInt_taggedInt, tagWord_eq, BitVec.toInt_add, BitVec.toInt_add, BitVec.toInt_ofNat',
    show (1#64).toInt = 1 from rfl]
  simp only [Int.bmod]
  omega

theorem Allocator.body_int {N B : Nat}
    (given : a.body ((((BitVec.ofNat 32 N) <<< 1) ||| 1).signExtend 64) = some B) :
    B ≤ 2 ^ 30 ∧ (N < 2 ^ 31 → N ≤ B ∧ N < 2 ^ 30) := by
  obtain ⟨positive, rfl⟩ := Allocator.body_eq_some given
  have whole := toInt_taggedInt N
  generalize (((BitVec.ofNat 32 N) <<< 1) ||| 1).signExtend 64 = w at *
  have odd : w.toNat % 2 = 1 := by
    have cond := BitVec.toInt_eq_toNat_cond w
    split at cond <;> omega
  rw [sizeArg, if_pos odd, whole] at positive ⊢
  have size := le_bodySize ((2 * Int.bmod N (2 ^ 31) + 1) / 2).toNat
  simp only [Int.bmod] at positive size ⊢
  omega

theorem IsStr.intLen (held : IsStr s bytes) : s.intLen = BitVec.ofNat 32 bytes.length := by
  rw [Str.intLen, held.length, untagWord_tagWord_ofNat held.small]
  apply BitVec.eq_of_toNat_eq
  rw [BitVec.toNat_setWidth, BitVec.toNat_ofNat, BitVec.toNat_ofNat]
  omega

theorem sizeOfInt_ofNat (n : Nat) :
    (n % 2 ^ 32 < 2 ^ 31 → sizeOfInt (BitVec.ofNat 32 n) = n % 2 ^ 32) ∧
      (2 ^ 31 ≤ n % 2 ^ 32 → 2 ^ 63 ≤ sizeOfInt (BitVec.ofNat 32 n)) := by
  have wide : ((BitVec.ofNat 32 n).signExtend 64).toInt = Int.bmod n (2 ^ 32) := by
    rw [BitVec.toInt_signExtend_of_le (by decide), BitVec.toInt_ofNat']
  rw [sizeOfInt]
  have cond := BitVec.toInt_eq_toNat_cond ((BitVec.ofNat 32 n).signExtend 64)
  rw [wide] at cond
  simp only [Int.bmod] at cond
  constructor
  · intro low
    split at cond <;> omega
  · intro high
    split at cond <;> omega

theorem exists_writeBoth {b : Block (BitVec 8)} {x y : Str} {xs ys : List (BitVec 8)}
    (heldX : IsStr x xs) (heldY : IsStr y ys)
    (room : xs.length % 2 ^ 32 + ys.length % 2 ^ 32 + 1 ≤ b.size)
    (few : xs.length % 2 ^ 32 + ys.length % 2 ^ 32 < 2 ^ 31) :
    ∃ d, writeBoth b x y = some d ∧ ∀ i z,
      (xs.take (xs.length % 2 ^ 32) ++ ys.take (ys.length % 2 ^ 32))[i]? = some z →
        d.cells i = z := by
  have p := (sizeOfInt_ofNat xs.length).1 (by omega)
  have q := (sizeOfInt_ofNat ys.length).1 (by omega)
  have sum := (sizeOfInt_ofNat (xs.length + ys.length)).1 (by omega)
  have whole : (xs.length + ys.length) % 2 ^ 32 = xs.length % 2 ^ 32 + ys.length % 2 ^ 32 := by
    omega
  rw [whole] at sum
  have takeX : (xs.take (xs.length % 2 ^ 32)).length = xs.length % 2 ^ 32 :=
    List.length_take_of_le (Nat.mod_le _ _)
  generalize xs.length % 2 ^ 32 = m at *
  generalize ys.length % 2 ^ 32 = n at *
  obtain ⟨c, first, left⟩ := Block.exists_copy (show 0 + m ≤ b.size by omega) x.block.cells
  obtain ⟨d, second, right⟩ :=
    Block.exists_copy (show m + n ≤ c.size by rw [left.size]; omega) y.block.cells
  obtain ⟨e, third, last⟩ :=
    Block.exists_store (show m + n < d.size by rw [right.size, left.size]; omega) 0
  refine ⟨e, ?_, ?_⟩
  · rw [writeBoth, heldX.intLen, heldY.intLen, ← BitVec.ofNat_add, p, q, sum, first,
      Option.bind_eq_bind, Option.bind_some, second, Option.bind_some, third]
  · intro i z found
    obtain ⟨low, -⟩ := List.getElem?_eq_some_iff.mp found
    rw [List.length_append, takeX, List.length_take] at low
    rw [last.outside i (.inl (by omega))]
    by_cases early : i < m
    · rw [List.getElem?_append_left (by rw [takeX]; exact early), List.getElem?_take_of_lt early]
        at found
      have held := left.inside i early
      rw [Nat.zero_add] at held
      rw [right.outside i (.inl early), held]
      exact heldX.bytes i z found
    · rw [List.getElem?_append_right (by rw [takeX]; omega), takeX,
        List.getElem?_take_of_lt (by omega)] at found
      have held := right.inside (i - m) (by omega)
      rw [show m + (i - m) = i by omega] at held
      rw [held]
      exact heldY.bytes _ z found

theorem writeBoth_eq_some {b d : Block (BitVec 8)} {x y : Str} {xs ys : List (BitVec 8)}
    (heldX : IsStr x xs) (heldY : IsStr y ys) (done : writeBoth b x y = some d)
    (bound : b.size ≤ 2 ^ 30) :
    d.size = b.size ∧ xs.length % 2 ^ 32 + ys.length % 2 ^ 32 < b.size := by
  rw [writeBoth, heldX.intLen, heldY.intLen, ← BitVec.ofNat_add] at done
  obtain ⟨c, first, done⟩ := Option.bind_eq_some_iff.mp done
  obtain ⟨e, second, third⟩ := Option.bind_eq_some_iff.mp done
  have sizeC := Block.size_copy first
  have sizeE := Block.size_copy second
  have sizeD := Block.size_copy third
  have fits {f g : Block (BitVec 8)} {start n : Nat} {src : Nat → BitVec 8}
      (made : f.copy start n src = some g) : start + n ≤ f.size := by
    by_contra large
    rw [Block.copy_eq_none (by omega)] at made
    cases made
  have one := fits first
  have two := fits second
  have three := fits third
  have p := sizeOfInt_ofNat xs.length
  have q := sizeOfInt_ofNat ys.length
  have sum := sizeOfInt_ofNat (xs.length + ys.length)
  refine ⟨sizeD.trans (sizeE.trans sizeC), ?_⟩
  omega

theorem rtAllocStringLen_few {k : Nat} (few : k ≤ 23) (src : Nat → BitVec 8) :
    (rtAllocStringLen a src (BitVec.ofNat 64 k) = .nil ↔
        a.slots = false ∧ a.body (tagWord (BitVec.ofNat 64 k + 1)) = none) ∧
      ∀ r, rtAllocStringLen a src (BitVec.ofNat 64 k) = .object r → r.block.size ≤ 2 ^ 30 := by
  have small : BitVec.ofNat 64 k ≤ 23 := by
    rw [BitVec.le_def, BitVec.toNat_ofNat]
    show k % 2 ^ 64 ≤ 23
    omega
  have written {b : Block (BitVec 8)} {len : Nat} {r : Str} {word : BitVec 64}
      (made : (do
        let block ← b.copy 0 len src
        let block ← block.store len 0
        return ⟨word, block⟩ : Option Str) = some r) : r.block.size = b.size := by
    obtain ⟨c, first, made⟩ := Option.bind_eq_some_iff.mp made
    obtain ⟨d, second, made⟩ := Option.bind_eq_some_iff.mp made
    cases made
    exact (Block.size_copy second).trans (Block.size_copy first)
  have object {writes : Option Str} {r : Str} (made : Made.ofWrites writes = .object r) :
      writes = some r := by
    cases writes with
    | none => cases made
    | some s => cases made; rfl
  have never {writes : Option Str} : Made.ofWrites writes ≠ .nil := by
    cases writes <;> nofun
  unfold rtAllocStringLen
  rw [decide_eq_true small, Bool.true_and]
  by_cases slots : a.slots = true
  · rw [if_pos slots]
    refine ⟨iff_of_false never fun refused => ?_, fun r made => ?_⟩
    · rw [slots] at refused
      cases refused.1
    · rw [written (object made)]
      decide
  · rw [if_neg slots]
    rw [Bool.not_eq_true] at slots
    cases given : a.malloc (tagWord (BitVec.ofNat 64 k + 1)) with
    | none => exact ⟨iff_of_true rfl ⟨slots, Allocator.malloc_eq_none.mp given⟩, nofun⟩
    | some block =>
      have met := Allocator.malloc_eq_some given
      refine ⟨iff_of_false never fun refused => ?_, fun r made => ?_⟩
      · rw [met] at refused
        cases refused.2
      · rw [written (object made)]
        rw [show BitVec.ofNat 64 k + 1 = BitVec.ofNat 64 (k + 1) from (BitVec.ofNat_add ..).symm]
          at met
        obtain ⟨positive, same⟩ := Allocator.body_eq_some met
        rw [sizeArg_tagWord, BitVec.toInt_ofNat'] at same
        have size := le_bodySize (Int.bmod (Int.bmod (k + 1 : Nat) (2 ^ 64)) (2 ^ 63)).toNat
        simp only [Int.bmod] at same size
        omega

/-- Memory is refused to strings of these lengths, as the code computes with them. -/
def Refused (a : Allocator) (m n : Nat) : Prop :=
  if (BitVec.ofNat 32 (m + n)).sle 23 then
    m % 2 ^ 32 + n % 2 ^ 32 ≤ 23 ∧ a.slots = false ∧
      a.body (tagWord (BitVec.ofNat 64 (m % 2 ^ 32 + n % 2 ^ 32) + 1)) = none
  else a.body ((((BitVec.ofNat 32 (m + n) + 1) <<< 1) ||| 1).signExtend 64) = none

theorem sle_ofNat_int {n : Nat} :
    (BitVec.ofNat 32 n).sle 23 = true ↔ Int.bmod n (2 ^ 32) ≤ 23 := by
  rw [BitVec.sle_iff_toInt_le, BitVec.toInt_ofNat']
  rfl

/-- Two strings behind each other are as expected unless their length is no `int`, or nil. -/
theorem rtStrConcat_right_iff {x y : Str} {xs ys : List (BitVec 8)} (heldX : IsStr x xs)
    (heldY : IsStr y ys) :
    (rtStrConcat a x y).Right (fun r => IsStr r (xs ++ ys)) ↔
      xs.length + ys.length + 1 < 2 ^ 31 ∨ Refused a xs.length ys.length := by
  have smallX := heldX.small
  have smallY := heldY.small
  have unable {r : Str} (size : r.block.size ≤ 2 ^ 30)
      (long : ¬xs.length + ys.length + 1 < 2 ^ 31) : ¬IsStr r (xs ++ ys) := by
    intro held
    have room := held.room
    rw [List.length_append] at room
    omega
  have takes (whole : xs.length + ys.length + 1 < 2 ^ 31) :
      xs.take (xs.length % 2 ^ 32) ++ ys.take (ys.length % 2 ^ 32) = xs ++ ys := by
    rw [List.take_of_length_le (by omega), List.take_of_length_le (by omega)]
  unfold rtStrConcat Refused
  rw [heldX.intLen, heldY.intLen, ← BitVec.ofNat_add]
  dsimp only
  by_cases small : (BitVec.ofNat 32 (xs.length + ys.length)).sle 23 = true
  · rw [if_pos small, if_pos small]
    rw [sle_ofNat_int] at small
    cases done : writeBoth ⟨24, fun _ => 0⟩ x y with
    | none =>
      refine iff_of_false id ?_
      have outside : ¬xs.length % 2 ^ 32 + ys.length % 2 ^ 32 ≤ 23 := by
        intro fits
        obtain ⟨d, made, -⟩ := exists_writeBoth (b := ⟨24, fun _ => 0⟩) heldX heldY
          (Nat.succ_le_succ fits) (by omega)
        rw [made] at done
        cases done
      rintro (whole | ⟨fits, -⟩)
      · simp only [Int.bmod] at small
        omega
      · exact outside fits
    | some buffer =>
      have few := (writeBoth_eq_some heldX heldY done (show 24 ≤ 2 ^ 30 by decide)).2
      have few : xs.length % 2 ^ 32 + ys.length % 2 ^ 32 < 24 := few
      have wide : (BitVec.ofNat 32 (xs.length + ys.length)).signExtend 64 =
          BitVec.ofNat 64 (xs.length % 2 ^ 32 + ys.length % 2 ^ 32) := by
        apply BitVec.eq_of_toInt_eq
        rw [BitVec.toInt_signExtend_of_le (by decide), BitVec.toInt_ofNat', BitVec.toInt_ofNat']
        simp only [Int.bmod]
        omega
      have whole := rtAllocStringLen_few (a := a) (Nat.le_of_lt_succ few) buffer.cells
      dsimp only
      rw [wide]
      by_cases short : xs.length + ys.length + 1 < 2 ^ 31
      · refine iff_of_true ?_ (.inl short)
        obtain ⟨d, made, cells⟩ :=
          exists_writeBoth (b := ⟨24, fun _ => 0⟩) heldX heldY few (by omega)
        obtain rfl := Option.some.inj (done.symm.trans made)
        rw [takes short] at cells
        have right := rtAllocStringLen_right (a := a) (by rw [List.length_append]; omega) cells
        rw [List.length_append] at right
        rw [Nat.mod_eq_of_lt (by omega), Nat.mod_eq_of_lt (by omega)]
        exact right
      · rw [or_iff_right short, and_iff_right (Nat.le_of_lt_succ few), ← whole.1]
        cases made : rtAllocStringLen a buffer.cells
            (BitVec.ofNat 64 (xs.length % 2 ^ 32 + ys.length % 2 ^ 32)) with
        | fault => exact iff_of_false id nofun
        | nil => exact iff_of_true trivial rfl
        | object r => exact iff_of_false (unable (whole.2 r made) short) nofun
  · rw [if_neg small, if_neg small]
    rw [sle_ofNat_int] at small
    rw [show BitVec.ofNat 32 (xs.length + ys.length) + 1 =
      BitVec.ofNat 32 (xs.length + ys.length + 1) from (BitVec.ofNat_add ..).symm]
    cases given : a.malloc
        ((((BitVec.ofNat 32 (xs.length + ys.length + 1)) <<< 1) ||| 1).signExtend 64) with
    | none => exact iff_of_true trivial (.inr (Allocator.malloc_eq_none.mp given))
    | some block =>
      have met := Allocator.malloc_eq_some given
      obtain ⟨bound, whole⟩ := Allocator.body_int met
      rw [met, or_iff_left nofun]
      by_cases short : xs.length + ys.length + 1 < 2 ^ 31
      · refine iff_of_true ?_ short
        have room := whole short
        obtain ⟨d, made, cells⟩ := exists_writeBoth (b := block) heldX heldY (by omega) (by omega)
        have header := taggedInt_small (show (xs ++ ys).length < 2 ^ 30 by
          rw [List.length_append]
          omega)
        rw [List.length_append] at header
        have size := (writeBoth_eq_some heldX heldY made bound).1
        dsimp only
        rw [made, header]
        rw [takes short] at cells
        have length : (xs ++ ys).length = xs.length + ys.length := List.length_append
        refine ⟨by rw [length], by omega, ?_, cells⟩
        dsimp only
        rw [size, length]
        exact room.1
      · refine iff_of_false (not_right_ofWrites fun r written => ?_) short
        obtain ⟨d, made, written⟩ := Option.bind_eq_some_iff.mp written
        cases written
        exact unable (by
          dsimp only
          rw [(writeBoth_eq_some heldX heldY made bound).1]
          exact bound) short

end Strings

section Operators

variable {a : Allocator}

/-- The operand is a list or a tuple with these items, in a block that is as large as it says. -/
def Operand.IsSeq (o : Operand) (tuple : Bool) (xs : List (BitVec 64)) : Prop :=
  ∃ s cap, o = .seq s ∧ s.tuple = tuple ∧ Sequences.IsSeq s cap xs

/-- The operand is a string with these bytes, in a block with room for them. -/
def Operand.IsStr (o : Operand) (bytes : List (BitVec 8)) : Prop :=
  ∃ s, o = .str s ∧ Sequences.IsStr s bytes

theorem Made.right_map {α β : Type} {expected : β → Prop} {f : α → β} {m : Made α} :
    (m.map f).Right expected ↔ m.Right fun made => expected (f made) := by
  cases m <;> exact Iff.rfl

theorem Made.right_congr {α : Type} {p q : α → Prop} (same : ∀ made, p made ↔ q made)
    (m : Made α) : m.Right p ↔ m.Right q := by
  cases m with
  | fault => exact Iff.rfl
  | nil => exact Iff.rfl
  | object made => exact same made

theorem right_seq {m : Made Seq} {tuple : Bool} {xs : List (BitVec 64)} :
    (m.map Operand.seq).Right (fun o => o.IsSeq tuple xs) ↔
      m.Right fun s => s.tuple = tuple ∧ ∃ cap, IsSeq s cap xs := by
  rw [Made.right_map]
  refine Made.right_congr (fun s => ⟨?_, ?_⟩) m
  · rintro ⟨t, cap, same, held, list⟩
    cases same
    exact ⟨held, cap, list⟩
  · rintro ⟨held, cap, list⟩
    exact ⟨s, cap, rfl, held, list⟩

theorem right_str {m : Made Str} {bytes : List (BitVec 8)} :
    (m.map Operand.str).Right (fun o => o.IsStr bytes) ↔ m.Right fun s => IsStr s bytes := by
  rw [Made.right_map]
  refine Made.right_congr (fun s => ⟨?_, ?_⟩) m
  · rintro ⟨t, same, held⟩
    cases same
    exact held
  · intro held
    exact ⟨s, rfl, held⟩

/--
Which operations on sequences give nil, their operand unchanged, or the expected elements in a block
that is as large as it says: appending and concatenation of lists and tuples always, the others
unless a size is cut and the request for it met, and repeated lists only where there is memory.
-/
theorem sequences_sized_iff (a : Allocator) :
    (∀ nV, (rtListNew a nV).Right (fun s => s.tuple = false ∧ IsSeq s (asked nV) []) ↔
      16 + 8 * asked nV < 2 ^ 64 ∨ a.body (BitVec.ofNat 64 (16 + 8 * asked nV)) = none) ∧
    (∀ lst cap xs val, IsSeq lst cap xs → (rtAppend a lst val).Right fun s =>
      s = lst ∨ (s.tuple = false ∧ ∃ cap', IsSeq s cap' (xs ++ [val]))) ∧
    (∀ lst cap xs capV, IsSeq lst cap xs →
      ((rtListReserve a lst capV).Right (fun s => s.tuple = lst.tuple ∧ ∃ cap', IsSeq s cap' xs) ↔
        lst.tuple = true ∨ asked capV ≤ cap ∨ 16 + 8 * asked capV < 2 ^ 64 ∨
          a.body (BitVec.ofNat 64 (16 + 8 * asked capV)) = none)) ∧
    (∀ x y capX capY xs ys r, IsSeq x capX xs → IsSeq y capY ys →
      rtAdd a (.seq x) (.seq y) = some r →
        r.Right fun o => o.IsSeq (x.tuple && y.tuple) (xs ++ ys)) ∧
    (∀ lst cap xs b r, IsSeq lst cap xs →
      rtMul a (.seq lst) (.int b) = some r ∨ rtMul a (.int b) (.seq lst) = some r →
      let total := xs.length * (untagWord b).toInt.toNat
      (r.Right (fun o => o.IsSeq false (List.replicate (untagWord b).toInt.toNat xs).flatten) ↔
        total = 0 ∨ (16 + 8 * total < 2 ^ 64 ∧ a.body (BitVec.ofNat 64 (16 + 8 * total)) ≠ none))) ∧
    (∀ s bytes b r, IsStr s bytes →
      rtMul a (.str s) (.int b) = some r ∨ rtMul a (.int b) (.str s) = some r →
      let total := bytes.length * (untagWord b).toInt.toNat
      (r.Right (fun o => o.IsStr (List.replicate (untagWord b).toInt.toNat bytes).flatten) ↔
        total + 1 < 2 ^ 62 ∨ a.body (tagWord (BitVec.ofNat 64 (total + 1))) = none)) ∧
    ∀ x y xs ys r, IsStr x xs → IsStr y ys → rtAdd a (.str x) (.str y) = some r →
      (r.Right (fun o => o.IsStr (xs ++ ys)) ↔
        xs.length + ys.length + 1 < 2 ^ 31 ∨ Refused a xs.length ys.length) := by
  refine ⟨rtListNew_right_iff a, ?_, ?_, ?_, ?_, ?_, ?_⟩
  · intro lst cap xs val held
    exact rtAppend_right held val
  · intro lst cap xs capV held
    exact rtListReserve_right_iff held capV
  · rintro x y capX capY xs ys _ heldX heldY ⟨⟩
    exact right_seq.mpr (rtSeqConcat_right heldX heldY)
  · intro lst cap xs b r held made
    -- Both orders of the operands come to the same, and tuples are not repeated.
    have same : r = (repeatList a lst b).map Operand.seq := by
      simp only [rtMul, or_self] at made
      split at made
      · cases made
      · exact (Option.some.inj made).symm
    rw [same, right_seq]
    exact repeatList_right_iff held b
  · intro s bytes b r held made
    have same : r = (repeatStr a s b).map Operand.str := by
      simp only [rtMul, or_self] at made
      exact (Option.some.inj made).symm
    rw [same, right_str]
    exact repeatStr_right_iff held b
  · rintro x y xs ys _ heldX heldY ⟨⟩
    rw [right_str]
    exact rtStrConcat_right_iff heldX heldY

/-- Memory that meets every request. -/
def plenty : Allocator := ⟨fun _ => true, true, fun _ => 0⟩

/-- A list with the one item 7. -/
def sevenList : Seq := ⟨false, ⟨4, fun i => if i = 0 then 3 else if i = 1 then 3 else 7⟩⟩

/-- The string of one byte 97. -/
def letterA : Str := ⟨3, ⟨16, fun i => if i = 0 then 97 else 0⟩⟩

/-- A list and a string, appended to, put together and repeated. -/
theorem sequences_sized_iff_short :
    (rtAppend plenty sevenList 5).Right (fun s =>
      s = sevenList ∨ (s.tuple = false ∧ ∃ cap', IsSeq s cap' [7, 5])) ∧
    (rtListReserve plenty sevenList 9).Right (fun s =>
      s.tuple = false ∧ ∃ cap', IsSeq s cap' [7]) ∧
    ((rtSeqConcat plenty sevenList sevenList).map Operand.seq).Right
      (fun o => o.IsSeq false [7, 7]) ∧
    ((repeatList plenty sevenList 5).map Operand.seq).Right (fun o => o.IsSeq false [7, 7]) ∧
    ((repeatStr plenty letterA 5).map Operand.str).Right (fun o => o.IsStr [97, 97]) ∧
    ((rtStrConcat plenty letterA letterA).map Operand.str).Right (fun o => o.IsStr [97, 97]) := by
  have one {α : Type} {x y : α} {i : Nat} (found : [x][i]? = some y) : i = 0 ∧ y = x := by
    obtain ⟨low, rfl⟩ := List.getElem?_eq_some_iff.mp found
    exact ⟨Nat.lt_one_iff.mp low, List.getElem_singleton low⟩
  have list : IsSeq sevenList 1 [7] := by
    refine ⟨by decide, by decide, by decide, by decide, by decide, ?_⟩
    intro i x found
    obtain ⟨rfl, rfl⟩ := one found
    rfl
  have string : IsStr letterA [97] := by
    refine ⟨by decide, by decide, by decide, ?_⟩
    intro i x found
    obtain ⟨rfl, rfl⟩ := one found
    rfl
  have all := sequences_sized_iff plenty
  refine ⟨all.2.1 _ _ _ 5 list, (all.2.2.1 _ _ _ 9 list).mpr ?_, ?_, ?_, ?_, ?_⟩
  · exact .inr (.inr (.inl (by decide)))
  · exact all.2.2.2.1 _ _ _ _ _ _ _ list list rfl
  · exact (all.2.2.2.2.1 _ _ _ 5 _ list (.inl rfl)).mpr (.inr ⟨by decide, by decide⟩)
  · exact (all.2.2.2.2.2.1 _ _ 5 _ string (.inl rfl)).mpr (.inl (by decide))
  · exact (all.2.2.2.2.2.2 _ _ _ _ _ string string rfl).mpr (.inl (by decide))

/-- A list for 2^61 items gets a body of 16 bytes. -/
theorem rtListNew_fails :
    ¬∀ a nV, (rtListNew a nV).Right fun s => s.tuple = false ∧ IsSeq s (asked nV) [] := by
  intro sized
  have held := (rtListNew_right_iff plenty (tagWord (BitVec.ofNat 64 (2 ^ 61)))).mp (sized _ _)
  rw [asked_tagWord (by decide)] at held
  rcases held with fits | refused
  · exact absurd fits (by decide)
  · exact absurd refused (by decide)

end Operators

end Nytrix.Rt.Sequences
