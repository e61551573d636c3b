import Mathlib.Data.List.Basic

/-! Byte strings, and the text of a code point. -/

namespace Nytrix.Codec

/-- A byte string. -/
abbrev Text := List UInt8

/-- The bytes of a C string, up to the first zero byte. -/
def cstrToStr (bytes : Text) : Text := bytes.takeWhile (· ≠ 0)

/-- The text of one code point, in UTF-8. -/
def chr (code : Int) : Text :=
  let n := code.toNat
  if code < 0 ∨ 1114111 < code then []
  else if code ≤ 127 then cstrToStr [.ofNat n]
  else if code ≤ 2047 then cstrToStr [.ofNat (192 ||| n >>> 6), .ofNat (128 ||| n &&& 63)]
  else if code ≤ 65535 then
    cstrToStr [.ofNat (224 ||| n >>> 12), .ofNat (128 ||| n >>> 6 &&& 63),
      .ofNat (128 ||| n &&& 63)]
  else
    cstrToStr [.ofNat (240 ||| n >>> 18), .ofNat (128 ||| n >>> 12 &&& 63),
      .ofNat (128 ||| n >>> 6 &&& 63), .ofNat (128 ||| n &&& 63)]

/-- Whether a text stands at a position of another. -/
def matchAt (s sub : Text) (position : Nat) : Bool := sub.isPrefixOf (s.drop position)

/-- The position of the first occurrence. -/
def find (s sub : Text) : Option Nat :=
  if sub.length = 0 then some 0
  else if s.length < sub.length then none
  else (List.range (s.length - sub.length + 1)).find? (matchAt s sub)

/-- Whether a text occurs in another. -/
def strContains (s sub : Text) : Bool := (find s sub).isSome

/-- A byte that is not read as itself: zero, which ends a C string, or one beyond ASCII. -/
def Lossy (c : UInt8) : Prop := c = 0 ∨ 128 ≤ c

instance (c : UInt8) : Decidable (Lossy c) := inferInstanceAs (Decidable (_ ∨ _))

theorem high_byte {mark payload : Nat} (high : 128 ≤ mark) (low : mark < 256)
    (small : payload < 64) : (128 : UInt8) ≤ .ofNat (mark ||| payload) := by
  have under : mark ||| payload < 2 ^ 8 := Nat.or_lt_two_pow low (by omega)
  rw [UInt8.le_iff_toNat_le, UInt8.toNat_ofNat', Nat.mod_eq_of_lt under]
  exact Nat.le_trans high Nat.left_le_or

theorem chr_byte (c : UInt8) :
    (c = 0 ∧ chr c.toNat = []) ∨ (¬Lossy c ∧ chr c.toNat = [c]) ∨
      128 ≤ c ∧ ∃ a b : UInt8, chr c.toNat = [a, b] ∧ 128 ≤ a ∧ 128 ≤ b := by
  have below : c.toNat < 256 := c.toNat_lt
  have range : ¬((c.toNat : Int) < 0 ∨ 1114111 < (c.toNat : Int)) := by omega
  have same : UInt8.ofNat c.toNat = c := UInt8.ofNat_toNat
  rw [chr, if_neg range]
  simp only [Int.toNat_natCast]
  by_cases ascii : (c.toNat : Int) ≤ 127
  · have small : c < 128 := UInt8.lt_iff_toNat_lt.mpr (show c.toNat < 128 by omega)
    rw [if_pos ascii, same]
    by_cases zero : c = 0
    · exact .inl ⟨zero, by simp [cstrToStr, zero]⟩
    · refine .inr (.inl ⟨?_, by simp [cstrToStr, zero]⟩)
      rintro (eq | high)
      · exact zero eq
      · exact absurd small (UInt8.not_lt.mpr high)
  · -- A byte beyond ASCII is written as two bytes, both beyond ASCII.
    have large : (128 : UInt8) ≤ c := UInt8.le_iff_toNat_le.mpr (show 128 ≤ c.toNat by omega)
    have first : (128 : UInt8) ≤ .ofNat (192 ||| c.toNat >>> 6) :=
      high_byte (by decide) (by decide) (by rw [Nat.shiftRight_eq_div_pow]; omega)
    have second : (128 : UInt8) ≤ .ofNat (128 ||| c.toNat &&& 63) :=
      high_byte (by decide) (by decide) (Nat.lt_of_le_of_lt Nat.and_le_right (by decide))
    have nonzero {b : UInt8} (high : 128 ≤ b) : b ≠ 0 := by
      rintro rfl
      exact absurd high (by decide)
    rw [if_neg ascii, if_pos (show (c.toNat : Int) ≤ 2047 by omega)]
    refine .inr (.inr ⟨large, _, _, ?_, first, second⟩)
    simp [cstrToStr, nonzero first, nonzero second]

/-- Reading one more byte of text gives the text of its code point. -/
def spread (text : Text) : Text := text.flatMap fun c => chr c.toNat

theorem spread_clean {text : Text} (clean : ∀ c ∈ text, ¬Lossy c) : spread text = text := by
  induction text with
  | nil => rfl
  | cons c rest ih =>
    rw [List.forall_mem_cons] at clean
    have here : chr c.toNat = [c] := by
      rcases chr_byte c with ⟨zero, -⟩ | ⟨-, same⟩ | ⟨high, -⟩
      · exact absurd (.inl zero) clean.1
      · exact same
      · exact absurd (.inr high) clean.1
    rw [spread, List.flatMap_cons, here]
    exact congrArg (c :: ·) (ih clean.2)

theorem zero_not_mem_spread (text : Text) : 0 ∉ spread text := by
  intro member
  obtain ⟨c, -, inside⟩ := List.mem_flatMap.mp member
  rcases chr_byte c with ⟨-, empty⟩ | ⟨clean, same⟩ | ⟨-, a, b, two, high, high'⟩
  · rw [empty] at inside
    cases inside
  · rw [same, List.mem_singleton] at inside
    exact clean (.inl inside.symm)
  · rw [two, List.mem_pair] at inside
    rcases inside with rfl | rfl
    · exact absurd high (by decide)
    · exact absurd high' (by decide)

theorem length_spread {text : Text} (nonzero : 0 ∉ text) :
    (spread text).length = text.length + text.countP fun c => 128 ≤ c := by
  induction text with
  | nil => rfl
  | cons c rest ih =>
    rw [List.mem_cons, not_or] at nonzero
    have later := ih nonzero.2
    rw [spread, List.flatMap_cons, List.length_append, List.length_cons, List.countP_cons]
    rw [spread] at later
    rw [later]
    rcases chr_byte c with ⟨zero, -⟩ | ⟨clean, same⟩ | ⟨high, a, b, two, -⟩
    · exact absurd zero.symm nonzero.1
    · have low : ¬128 ≤ c := fun high => clean (.inr high)
      simp only [same, low, decide_false, Bool.false_eq_true, if_false, List.length_singleton]
      omega
    · simp only [two, high, decide_true, if_true, List.length_cons, List.length_nil]
      omega

theorem clean_of_spread {text : Text} (zero : 0 ∉ text)
    (same : (spread text).length = text.length) : ∀ c ∈ text, ¬Lossy c := by
  rw [length_spread zero, Nat.add_eq_left, List.countP_eq_zero] at same
  rintro c member (rfl | high)
  · exact zero member
  · exact same c member (decide_eq_true high)

theorem spread_eq_iff (text : Text) : spread text = text ↔ ∀ c ∈ text, ¬Lossy c := by
  refine ⟨fun same => clean_of_spread ?_ (congrArg List.length same), spread_clean⟩
  exact same ▸ zero_not_mem_spread text

theorem spread_spread_eq_iff (text : Text) :
    spread (spread text) = text ↔ ∀ c ∈ text, ¬Lossy c := by
  constructor
  · intro same
    have zero : 0 ∉ text := same ▸ zero_not_mem_spread (spread text)
    have once := length_spread zero
    have twice := length_spread (zero_not_mem_spread text)
    rw [same] at twice
    exact clean_of_spread zero (by omega)
  · intro clean
    rw [spread_clean clean, spread_clean clean]

theorem ascii_not_mem_chr {b c : UInt8} (ascii : b < 128) (other : c ≠ b) : b ∉ chr c.toNat := by
  intro member
  rcases chr_byte c with ⟨-, empty⟩ | ⟨-, same⟩ | ⟨-, x, y, two, high, high'⟩
  · rw [empty] at member
    cases member
  · rw [same, List.mem_singleton] at member
    exact other member.symm
  · rw [two, List.mem_pair] at member
    rcases member with rfl | rfl
    · exact absurd ascii (UInt8.not_lt.mpr high)
    · exact absurd ascii (UInt8.not_lt.mpr high')

theorem strContains_byte (s : Text) (c : UInt8) : strContains s [c] = true ↔ c ∈ s := by
  have at_iff (i : Nat) : matchAt s [c] i = true ↔ s[i]? = some c := by
    unfold matchAt
    rw [← List.head?_drop]
    cases s.drop i with
    | nil => simp
    | cons b rest =>
      rw [List.isPrefixOf_cons₂, List.isPrefixOf_nil_left, Bool.and_true, beq_iff_eq,
        List.head?_cons, Option.some.injEq]
      exact eq_comm
  unfold strContains find
  rw [if_neg (by simp)]
  split
  · next short =>
    have empty : s = [] := List.eq_nil_of_length_eq_zero (by simpa using short)
    simp [empty]
  · rw [List.find?_isSome, List.mem_iff_getElem?]
    constructor
    · rintro ⟨i, -, here⟩
      exact ⟨i, (at_iff i).mp here⟩
    · rintro ⟨i, here⟩
      have inside := (List.getElem?_eq_some_iff.mp here).1
      refine ⟨i, List.mem_range.mpr ?_, (at_iff i).mpr here⟩
      rw [List.length_singleton]
      omega

end Nytrix.Codec
