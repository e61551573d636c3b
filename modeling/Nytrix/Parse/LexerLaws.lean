import Nytrix.Parse.Lexer
import Mathlib.Data.List.GetD
import Mathlib.Tactic.Common

/-! Every step of the lexer goes onward in the text and stays inside it. -/

namespace Nytrix.Parse

open Nytrix.Lib
open Nytrix.Types (nm ch)

namespace Source

variable {src : Source} {i pos r s : Nat} {c : UInt8}

theorem byte_eq_zero_iff : src.byte i = 0 ↔ src.len ≤ i := by
  constructor
  · intro zero
    by_contra inside
    have bound : i < src.bytes.length := Nat.lt_of_not_le inside
    -- A byte of the text is not zero.
    refine src.nonzero (src.byte i) ?_ zero
    rw [Source.byte, List.getD_eq_getElem _ _ bound]
    exact List.getElem_mem bound
  · intro outside
    rw [Source.byte, List.getD_eq_default]
    exact outside

theorem lt_len (some : src.byte i ≠ 0) : i < src.len := by
  by_contra outside
  exact some (byte_eq_zero_iff.mpr (Nat.le_of_not_lt outside))

theorem lt_len_of_eq (same : src.byte i = c) (nonzero : c ≠ 0) : i < src.len :=
  lt_len (same ▸ nonzero)

/-- A place that is reached from another: not before it, and inside the text if that one is. -/
structure Onward (src : Source) (pos r : Nat) : Prop where
  le : pos ≤ r
  inside : pos ≤ src.len → r ≤ src.len

theorem Onward.refl : src.Onward pos pos := ⟨Nat.le_refl _, id⟩

theorem Onward.trans (first : src.Onward pos r) (second : src.Onward r s) : src.Onward pos s :=
  ⟨Nat.le_trans first.le second.le, fun inside => second.inside (first.inside inside)⟩

theorem Onward.next (here : src.byte pos ≠ 0) : src.Onward pos (pos + 1) :=
  ⟨Nat.le_succ _, fun _ => lt_len here⟩

theorem Onward.over (same : src.byte pos = c) (nonzero : c ≠ 0) : src.Onward pos (pos + 1) :=
  Onward.next (same ▸ nonzero)

theorem find_onward (stop : Nat → Bool) : src.Onward pos (src.find stop pos) := by
  constructor
  · exact le_scanTo
  · intro inside
    have bound : scanTo stop (src.len - pos) pos ≤ pos + (src.len - pos) := scanTo_le
    rw [Source.find]
    omega

theorem find_first (stop : Nat → Bool) (inside : pos ≤ src.len) :
    First (fun i => i = src.len ∨ stop i = true) pos (src.find stop pos) := by
  have onward : src.Onward pos (src.find stop pos) := find_onward stop
  refine ⟨onward.le, ?_, ?_⟩
  · by_cases ended : src.find stop pos = src.len
    · exact Or.inl ended
    · -- It ended before the end of the text, so the test holds there.
      have early : scanTo stop (src.len - pos) pos < pos + (src.len - pos) := by
        have bound := onward.inside inside
        rw [Source.find] at bound ended
        omega
      exact Or.inr (first_scanTo early).here
  · rintro i after before (ended | holds)
    · have bound := onward.inside inside
      omega
    · rw [scanTo_passes after before] at holds
      cases holds

theorem find_holds {stop : Nat → Bool} (early : src.find stop pos < src.len) :
    stop (src.find stop pos) = true := by
  have onward : src.Onward pos (src.find stop pos) := find_onward stop
  have inside : pos ≤ src.len := Nat.le_trans onward.le (Nat.le_of_lt early)
  rcases (find_first stop inside).here with ended | holds
  · omega
  · exact holds

theorem skipWhile_onward (p : UInt8 → Bool) : src.Onward pos (src.skipWhile p pos) := find_onward _

theorem lineEnd_onward : src.Onward pos (src.lineEnd pos) := skipWhile_onward _

theorem startsWith_onward {text : String} (found : src.startsWith pos text = true) :
    src.Onward pos (pos + (nm text).length) := by
  refine ⟨Nat.le_add_right _ _, fun inside => ?_⟩
  have short := (List.isPrefixOf_iff_prefix.mp found).length_le
  rw [List.length_drop] at short
  rw [Source.len] at inside ⊢
  omega

theorem startsWith_byte {text : String} (found : src.startsWith pos text = true) {k : Nat}
    (inside : k < (nm text).length) : src.byte (pos + k) = (nm text).getD k 0 := by
  have start := List.isPrefixOf_iff_prefix.mp found
  have same := start.getElem inside
  have bound : pos + k < src.bytes.length := by
    have short := start.length_le
    rw [List.length_drop] at short
    omega
  rw [Source.byte, List.getD_eq_getElem _ _ bound, List.getD_eq_getElem _ _ inside, same,
    List.getElem_drop]

end Source

open Source

section Scanning

variable {src : Source} {start pos : Nat}

theorem scanEight_onward (p : UInt8 → Bool) (n : Nat) :
    src.Onward pos (scanEight src p n pos) := by
  induction n generalizing pos with
  | zero => exact Onward.refl
  | succ n ih =>
    rw [scanEight]
    split
    · rename_i eight
      simp only [Bool.and_eq_true, decide_eq_true_eq] at eight
      exact Onward.trans ⟨by omega, fun _ => eight.1⟩ ih
    · exact Onward.refl

theorem scanTemplateIdentTail_onward (n : Nat) :
    src.Onward pos (scanTemplateIdentTail src n pos) := by
  induction n generalizing pos with
  | zero => exact Onward.refl
  | succ n ih =>
    rw [scanTemplateIdentTail]
    split
    · rename_i opens
      simp only [Bool.and_eq_true, decide_eq_true_eq] at opens
      simp only
      split
      · rename_i closes
        -- Over the opening bytes, the name, the closing byte, and what follows.
        refine (Onward.over opens.1.1 (by decide)).trans ?_
        refine (Onward.over opens.1.2 (by decide)).trans ?_
        refine (skipWhile_onward isAlnum).trans ?_
        refine (Onward.over closes (by decide)).trans ?_
        exact (skipWhile_onward isAlnum).trans ih
      · exact Onward.refl
    · exact Onward.refl

theorem digitsEnd_onward (digit : UInt8 → Bool) : src.Onward pos (digitsEnd src digit pos) :=
  find_onward _

theorem lexDecimalDigits_onward : src.Onward pos (lexDecimalDigits src pos) :=
  (scanEight_onward isDigit _).trans (digitsEnd_onward isDigit)

theorem suffixLetter_ne_zero {c : UInt8} {float : Bool} (letter : nyNumberSuffixLetter c float = true) :
    c ≠ 0 := by
  rintro rfl
  cases float <;> exact absurd letter (by decide)

theorem lexNumberSuffixDigits_onward (float : Bool) :
    src.Onward pos (lexNumberSuffixDigits src float pos) := by
  have suffix : ∀ pos, src.Onward pos
      (if nyNumberSuffixLetter (src.byte pos) true && isDigit (src.byte (pos + 1)) then
        lexDecimalDigits src (pos + 1) else pos) := by
    intro pos
    split
    · rename_i letter
      rw [Bool.and_eq_true] at letter
      exact (Onward.next (suffixLetter_ne_zero letter.1)).trans lexDecimalDigits_onward
    · exact Onward.refl
  rw [lexNumberSuffixDigits]
  split
  · rename_i underscore
    simp only [Bool.and_eq_true, decide_eq_true_eq] at underscore
    exact (Onward.over underscore.1 (by decide)).trans (suffix _)
  · exact suffix _

theorem tripleEnd_onward {quote : UInt8} (nonzero : quote ≠ 0) :
    src.Onward pos (tripleEnd src quote pos).1 := by
  rw [tripleEnd]
  split
  · rename_i early
    have closed := find_holds early
    simp only [Bool.and_eq_true, decide_eq_true_eq] at closed
    -- Over the three quotes that were found.
    have two := (Onward.over closed.1.1 nonzero).trans (Onward.over closed.1.2 nonzero)
    exact (find_onward _).trans (two.trans (Onward.over closed.2 nonzero))
  · exact find_onward _

theorem closingQuote_onward (quote : UInt8) (n : Nat) :
    src.Onward pos (closingQuote src quote n pos) := by
  induction n generalizing pos with
  | zero => exact Onward.refl
  | succ n ih =>
    rw [closingQuote]
    split
    · exact Onward.refl
    · rename_i inside
      simp only [Bool.or_eq_true, decide_eq_true_eq, not_or] at inside
      split
      · rename_i escape
        simp only [Bool.and_eq_true, decide_eq_true_eq] at escape
        exact ((Onward.next inside.2).trans (Onward.next escape.2)).trans ih
      · exact (Onward.next inside.2).trans ih

theorem stringEnd_onward {quote : UInt8} (nonzero : quote ≠ 0) :
    src.Onward pos (stringEnd src quote pos).1 := by
  rw [stringEnd]
  split
  · rename_i quotes
    simp only [Bool.and_eq_true, decide_eq_true_eq] at quotes
    refine (Onward.over quotes.1 nonzero).trans ?_
    exact (Onward.over quotes.2 nonzero).trans (tripleEnd_onward nonzero)
  · simp only
    split
    · rename_i closed
      exact (closingQuote_onward quote _).trans (Onward.over closed nonzero)
    · exact closingQuote_onward quote _

theorem isAlpha_ne_zero {c : UInt8} (alpha : isAlpha c = true) : c ≠ 0 := by
  rintro rfl
  exact absurd alpha (by decide)

theorem isDigit_ne_zero {c : UInt8} (digit : isDigit c = true) : c ≠ 0 := by
  rintro rfl
  exact absurd digit (by decide)

theorem templateEnd_onward {stop : Nat} (ended : templateEnd src start = some stop) :
    src.Onward (start + 1) stop := by
  rw [templateEnd] at ended
  split at ended
  · rename_i opens
    simp only [Bool.and_eq_true, decide_eq_true_eq] at opens
    simp only at ended
    split at ended
    · rename_i closes
      cases ended
      refine (Onward.over opens.1 (by decide)).trans ?_
      refine (skipWhile_onward isAlnum).trans ?_
      refine (Onward.over closes (by decide)).trans ?_
      exact (skipWhile_onward isAlnum).trans (scanTemplateIdentTail_onward _)
    · cases ended
  · cases ended

theorem scanIdent_onward : src.Onward (start + 1) (scanIdent src start).stop :=
  ((scanEight_onward isAlnum _).trans (skipWhile_onward isAlnum)).trans
    (scanTemplateIdentTail_onward _)

theorem fractionEnd_onward : src.Onward (start + 1) (fractionEnd src start) := by
  rw [fractionEnd]
  split
  · rename_i point
    simp only [Bool.and_eq_true, decide_eq_true_eq] at point
    refine lexDecimalDigits_onward.trans ?_
    exact (Onward.over point.1 (by decide)).trans lexDecimalDigits_onward
  · exact lexDecimalDigits_onward

theorem exponentDigits_onward (here : src.byte pos ≠ 0) :
    src.Onward pos (exponentDigits src pos) := by
  rw [exponentDigits]
  split
  · rename_i sign
    simp only [Bool.or_eq_true, decide_eq_true_eq] at sign
    refine (Onward.next here).trans ?_
    rcases sign with plus | minus
    · exact Onward.over plus (by decide)
    · exact Onward.over minus (by decide)
  · exact Onward.next here

theorem scanDecimal_onward : src.Onward (start + 1) (scanDecimal src start).stop := by
  rw [scanDecimal]
  simp only
  split
  · rename_i exponent
    simp only [Bool.or_eq_true, decide_eq_true_eq] at exponent
    have here : src.byte (fractionEnd src start) ≠ 0 := by
      rcases exponent with lower | upper
      · rw [lower]; decide
      · rw [upper]; decide
    have digits := fractionEnd_onward.trans (exponentDigits_onward here)
    split
    · exact (digits.trans lexDecimalDigits_onward).trans (lexNumberSuffixDigits_onward true)
    · exact digits
  · exact fractionEnd_onward.trans (lexNumberSuffixDigits_onward true)

theorem lexRadixNumber_onward (digit : UInt8 → Bool) (required : Option (String × String)) :
    src.Onward (start + 2) (lexRadixNumber src start digit required).stop := by
  have digits : src.Onward (start + 2) (digitsEnd src digit (start + 2)) := digitsEnd_onward digit
  have number := digits.trans (lexNumberSuffixDigits_onward false)
  cases required with
  | none => exact number
  | some report =>
    unfold lexRadixNumber
    simp only
    split
    · exact number
    · exact Onward.refl

theorem scanNumber_onward : src.Onward (start + 1) (scanNumber src start).stop := by
  have radix : ∀ lower upper : UInt8, lower ≠ 0 → upper ≠ 0 →
      (src.byte (start + 1) = lower ∨ src.byte (start + 1) = upper) →
      src.Onward (start + 1) (start + 2) := by
    rintro lower upper nonzero nonzero' (same | same)
    · exact Onward.over same nonzero
    · exact Onward.over same nonzero'
  rw [scanNumber]
  -- The three radices one after the other, then decimal numbers.
  split
  · rename_i second
    simp only [Bool.and_eq_true, Bool.or_eq_true, decide_eq_true_eq] at second
    exact (radix _ _ (by decide) (by decide) second.2).trans (lexRadixNumber_onward _ _)
  split
  · rename_i second
    simp only [Bool.and_eq_true, Bool.or_eq_true, decide_eq_true_eq] at second
    exact (radix _ _ (by decide) (by decide) second.2).trans (lexRadixNumber_onward _ _)
  split
  · rename_i second
    simp only [Bool.and_eq_true, Bool.or_eq_true, decide_eq_true_eq] at second
    exact (radix _ _ (by decide) (by decide) second.2).trans (lexRadixNumber_onward _ _)
  · exact scanDecimal_onward

theorem operators_spelled : ∀ entry ∈ operators, 0 < (nm entry.1).length := by decide

theorem blockCommentEnd_onward : src.Onward pos (blockCommentEnd src pos) := by
  rw [blockCommentEnd]
  split
  · rename_i star
    have closed := find_holds (lt_len_of_eq star (by decide))
    simp only [Bool.and_eq_true, decide_eq_true_eq] at closed
    have two := (Onward.over closed.1 (by decide)).trans (Onward.over closed.2 (by decide))
    exact (find_onward _).trans two
  · exact find_onward _

theorem scanOperator_onward (_here : src.byte start ≠ 0) :
    src.Onward (start + 1) (scanOperator src start).stop := by
  rw [scanOperator]
  split
  · exact Onward.refl
  · rename_i spelling operator found
    have spelled := operators_spelled _ (List.mem_of_find?_eq_some found)
    have there : src.startsWith start spelling = true := by
      simpa using List.find?_some found
    have onward := startsWith_onward there
    have behind : src.Onward (start + 1) (start + (nm spelling).length) := by
      refine ⟨?_, fun inside => onward.inside (by omega)⟩
      simp only at spelled
      omega
    cases operator with
    | token kind => exact behind
    | refuse msg hint => exact behind
    | lineComment msg hint => exact behind.trans lineEnd_onward
    | blockComment msg hint => exact behind.trans blockCommentEnd_onward

theorem scanString_onward {quote : UInt8} (nonzero : quote ≠ 0) (kind : TokenKind) (msg : String) :
    src.Onward pos (scanString src start quote pos kind msg).stop := by
  have onward : src.Onward pos (stringEnd src quote pos).1 := stringEnd_onward nonzero
  rw [scanString]
  split
  · rename_i stop ended
    rwa [ended] at onward
  · rename_i stop ended
    rwa [ended] at onward

theorem scanToken_onward (here : src.byte start ≠ 0) :
    src.Onward (start + 1) (scanToken src start).stop := by
  rw [scanToken]
  split
  · rename_i quoted
    simp only [Bool.and_eq_true, Bool.or_eq_true, decide_eq_true_eq] at quoted
    have nonzero : src.byte (start + 1) ≠ 0 := by
      rcases quoted.2 with same | same
      · rw [same]; decide
      · rw [same]; decide
    exact (Onward.next nonzero).trans (scanString_onward nonzero _ _)
  split
  · exact scanIdent_onward
  split
  · rename_i stop ended
    split at ended
    · exact templateEnd_onward ended
    · cases ended
  split
  · exact scanNumber_onward
  split
  · exact scanString_onward here _ _
  · exact scanOperator_onward here

theorem scanToken_advances (here : src.byte start ≠ 0) :
    start < (scanToken src start).stop ∧ (scanToken src start).stop ≤ src.len :=
  ⟨(scanToken_onward here).le, (scanToken_onward here).inside (lt_len here)⟩

end Scanning

end Nytrix.Parse
