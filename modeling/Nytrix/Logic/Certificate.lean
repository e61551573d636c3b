import Mathlib.Data.Nat.Digits.Defs
import Mathlib.Data.Nat.Digits.Lemmas
import Nytrix.Logic.Proposition

/-! The encoding of propositions as strings, and what the checker of certificates reads. -/

namespace Nytrix.Logic

section Encoding

/-- A number in decimal digits. -/
def toStr (number : Nat) : Str :=
  if number = 0 then [48]
  else (Nat.digits 10 number).reverse.map fun digit => UInt8.ofNat (digit + 48)

/-- The letter of a connective. -/
def Connective.tag : Connective → UInt8
  | .and => 38
  | .or => 124
  | .implies => 62
  | .iff => 61

/-- A string with its length before it. -/
def counted (text : Str) : Str := toStr text.length ++ 58 :: text

/-- The canonical encoding of a proposition. -/
def propCanonical : Proposition Str → Str
  | .truth => [84]
  | .falsity => [70]
  | .atom name => 65 :: counted name
  | .neg value => 78 :: counted (propCanonical value)
  | .bin connective left right =>
    connective.tag :: (counted (propCanonical left) ++ counted (propCanonical right))

end Encoding

section Digest

/-- Hashes bytes. -/
def rtProofHashBytes (hash : UInt64) (text : Str) : UInt64 :=
  text.foldl (fun hash byte => (hash ^^^ byte.toUInt64) * 1099511628211) hash

/-- The digest of an encoding with versions. -/
def rtProofDigestValue (canonical moduleVersion dependencyDigest checkerVersion : Str) : Int :=
  let parts := [canonical, moduleVersion, dependencyDigest, checkerVersion]
  let hash := parts.foldl (fun hash part => rtProofHashBytes (rtProofHashBytes hash part) [0])
    (1469598103934665603 : UInt64)
  ((hash &&& 0x1fffffffffffffff).toNat : Int)

end Digest

/-- An atom as the checker stores it: its length, and its bytes as far as the text has them. -/
abbrev Atom := Nat × Str

/-- A node of a proposition that has been read. -/
structure Node where
  kind : UInt8
  left : Option Nat
  right : Option Nat
  atom : Option Nat
  deriving DecidableEq

/-- What has been read so far. -/
structure Reader where
  pos : Nat
  nodes : List Node
  atoms : List Atom
  deriving DecidableEq

/-- Whether a byte is a decimal digit. -/
def isDigit (byte : UInt8) : Bool := 48 ≤ byte && byte ≤ 57

/-- Reads further digits of a number of 64 bits, up to a colon. -/
def decimalFrom : Str → Nat → Nat → Option (Nat × Nat)
  | [], _, _ => none
  | byte :: rest, pos, out =>
    if isDigit byte then
      let digit := byte.toNat - 48
      if (2 ^ 64 - 1 - digit) / 10 < out then none
      else decimalFrom rest (pos + 1) (out * 10 + digit)
    else if byte = 58 then some (out, pos + 1)
    else none

section Reading

variable (text : Str)

/-- Reads a number and the colon behind it; the place is that behind the colon. -/
def rtProofParseDecimal (pos : Nat) : Option (Nat × Nat) :=
  match text.drop pos with
  | [] => none
  | byte :: rest => if isDigit byte then decimalFrom (byte :: rest) pos 0 else none

/-- The index of an atom, which is new or not. -/
def rtProofAtomIndex (maxVariables : Nat) (atoms : List Atom) (atom : Atom) :
    Option (Nat × List Atom) :=
  match atoms.findIdx? (· == atom) with
  | some index => some (index, atoms)
  | none => if maxVariables ≤ atoms.length then none else some (atoms.length, atoms ++ [atom])

/--
The place where something of a length ends, if it seems to end in time.

Places and lengths have 64 bits: behind the end, what is left wraps around.
-/
def childEnd (stop pos length : Nat) : Option Nat :=
  if (stop + 2 ^ 64 - pos) % 2 ^ 64 < length then none else some ((pos + length) % 2 ^ 64)

/-- Whether a byte is the letter of a connective. -/
def isTag (byte : UInt8) : Bool := byte == 38 || byte == 124 || byte == 62 || byte == 61

/-- Reads a node that ends at a place, with so many levels left; the result is its index. -/
def rtProofParseNode (maxNodes maxVariables : Nat) : Nat → Nat → Reader → Option (Nat × Reader)
  | 0, _, _ => none
  | levels + 1, stop, reader =>
    if stop ≤ reader.pos ∨ maxNodes ≤ reader.nodes.length then none
    else
      match text.drop reader.pos with
      -- Here the text is followed by a zero byte, which is no kind.
      | [] => none
      | kind :: _ =>
        let index := reader.nodes.length
        let node : Node := ⟨kind, none, none, none⟩
        let pos := reader.pos + 1
        if kind = 84 ∨ kind = 70 then
          if pos = stop then some (index, { reader with pos, nodes := reader.nodes ++ [node] })
          else none
        else
          (rtProofParseDecimal text pos).bind fun (length, pos) =>
          (childEnd stop pos length).bind fun ends =>
          if kind = 65 then
            (rtProofAtomIndex maxVariables reader.atoms (length, (text.drop pos).take length)).bind
              fun (atom, atoms) =>
                if ends = stop then
                  some (index, ⟨ends, reader.nodes ++ [{ node with atom := some atom }], atoms⟩)
                else none
          else if kind = 78 then
            (rtProofParseNode maxNodes maxVariables levels ends
              { reader with pos, nodes := reader.nodes ++ [node] }).bind fun (left, reader) =>
                if reader.pos = stop then
                  some (index, { reader with
                    nodes := reader.nodes.set index { node with left := some left } })
                else none
          else if isTag kind then
            (rtProofParseNode maxNodes maxVariables levels ends
              { reader with pos, nodes := reader.nodes ++ [node] }).bind fun (left, reader) =>
                if reader.pos = ends then
                  (rtProofParseDecimal text reader.pos).bind fun (length, pos) =>
                  (childEnd stop pos length).bind fun ends =>
                  (rtProofParseNode maxNodes maxVariables levels ends { reader with pos }).bind
                    fun (right, reader) =>
                      if reader.pos = stop then
                        some (index, { reader with
                          nodes := reader.nodes.set index
                            { node with left := some left, right := some right } })
                      else none
                else none
          else none

end Reading

section Checking

/-- What two values give under a kind of node. -/
def kindValue (kind : UInt8) (left right : Bool) : Bool :=
  if kind = 38 then left && right
  else if kind = 124 then left || right
  else if kind = 62 then !left || right
  else left == right

/--
Evaluates a node under the bits of an assignment, with the steps so far.

The last result says whether the steps were enough. The levels bound the recursion: a node is above
its operands.
-/
def rtProofEval (nodes : List Node) (assignment : Nat) (maxSteps : Int) :
    Nat → Option Nat → Nat → Bool × Nat × Bool
  | 0, _, steps => (false, steps, false)
  | levels + 1, index, steps =>
    match index.bind fun index => nodes[index]? with
    | none => (false, steps, false)
    | some node =>
      if maxSteps ≤ steps then (false, steps, false)
      else
        let steps := steps + 1
        if node.kind = 84 then (true, steps, true)
        else if node.kind = 70 then (false, steps, true)
        else if node.kind = 65 then
          ((node.atom.map fun atom => assignment.testBit atom).getD false, steps, true)
        else
          let (left, steps, ok) := rtProofEval nodes assignment maxSteps levels node.left steps
          if !ok then (false, steps, false)
          else if node.kind = 78 then (!left, steps, true)
          else
            let (right, steps, ok) := rtProofEval nodes assignment maxSteps levels node.right steps
            if !ok then (false, steps, false)
            else (kindValue node.kind left right, steps, true)

/-- Evaluates the root under so many assignments from one on, while all come out true. -/
def checkMasks (nodes : List Node) (root : Nat) (maxSteps : Int) : Nat → Nat → Nat → Bool
  | 0, _, _ => true
  | left + 1, mask, steps =>
    match rtProofEval nodes mask maxSteps (nodes.length + 1) (some root) steps with
    | (value, steps, ok) =>
      value && ok && checkMasks nodes root maxSteps left (mask + 1) steps

/-- What a check may use. -/
structure CheckBudget where
  maxVariables : Int
  maxNodes : Int
  maxDepth : Int
  maxSteps : Int
  maxMemory : Int
  deriving DecidableEq

/-- Whether the checker refuses a budget. -/
def CheckBudget.isRefused (budget : CheckBudget) : Bool :=
  budget.maxVariables < 0 || 20 < budget.maxVariables || budget.maxNodes ≤ 0 ||
    1000000 < budget.maxNodes || budget.maxDepth ≤ 0 || 4096 < budget.maxDepth ||
    budget.maxSteps ≤ 0 || budget.maxMemory ≤ 0 || budget.maxMemory < budget.maxNodes

/-- Checks the certificate of a proposition. -/
def rtProofCertCheck (canonical : Str) (digest : Int)
    (moduleVersion dependencyDigest checkerVersion : Str) (budget : CheckBudget) : Bool :=
  if digest ≠ rtProofDigestValue canonical moduleVersion dependencyDigest checkerVersion then false
  else if budget.isRefused then false
  else
    match rtProofParseNode canonical budget.maxNodes.toNat budget.maxVariables.toNat
      (budget.maxDepth.toNat + 1) canonical.length ⟨0, [], []⟩ with
    | none => false
    | some (root, reader) =>
      reader.pos == canonical.length &&
        checkMasks reader.nodes root budget.maxSteps (1 <<< reader.atoms.length) 0 0

end Checking

section Numbers

/-- Appends digits to a number. -/
def appendDigits (number : Nat) (digits : Str) : Nat :=
  digits.foldl (fun number digit => number * 10 + (digit.toNat - 48)) number

/-- A decimal number, leading zeros included. -/
structure IsNumeral (digits : Str) (value : Nat) : Prop where
  some : digits ≠ []
  decimal : ∀ digit ∈ digits, isDigit digit = true
  value : appendDigits 0 digits = value

theorem le_appendDigits (number : Nat) (digits : Str) : number ≤ appendDigits number digits := by
  induction digits generalizing number with
  | nil => exact Nat.le_refl number
  | cons digit digits ih =>
    have later : number * 10 + (digit.toNat - 48) ≤
        appendDigits (number * 10 + (digit.toNat - 48)) digits := ih _
    have step : appendDigits number (digit :: digits) =
        appendDigits (number * 10 + (digit.toNat - 48)) digits := rfl
    omega

theorem isDigit_colon : isDigit 58 = false := rfl

/-- Further digits are read up to a colon, if the number has 64 bits. -/
theorem decimalFrom_eq_some {rest : Str} {pos out value next : Nat} (small : out < 2 ^ 64) :
    decimalFrom rest pos out = some (value, next) ↔
      ∃ digits tail, (∀ digit ∈ digits, isDigit digit = true) ∧ rest = digits ++ 58 :: tail ∧
        appendDigits out digits = value ∧ value < 2 ^ 64 ∧ next = pos + digits.length + 1 := by
  induction rest generalizing pos out with
  | nil => simp [decimalFrom]
  | cons byte rest ih =>
    rw [decimalFrom]
    cases digit : isDigit byte with
    | true =>
      simp only [if_true]
      -- The test before the multiplication says whether the next number has 64 bits.
      have fits : (2 ^ 64 - 1 - (byte.toNat - 48)) / 10 < out ↔
          ¬ out * 10 + (byte.toNat - 48) < 2 ^ 64 := by
        have bound : byte.toNat - 48 < 10 := by
          simp only [isDigit, Bool.and_eq_true, decide_eq_true_eq, UInt8.le_iff_toNat_le] at digit
          have last : (57 : UInt8).toNat = 57 := rfl
          omega
        omega
      by_cases room : out * 10 + (byte.toNat - 48) < 2 ^ 64
      · rw [if_neg (by rw [fits]; exact fun absent => absent room), ih room]
        constructor
        · rintro ⟨digits, tail, all, rfl, value, bound, rfl⟩
          exact ⟨byte :: digits, tail, List.forall_mem_cons.2 ⟨digit, all⟩, rfl, value, bound,
            by simp only [List.length_cons]; omega⟩
        · rintro ⟨digits, tail, all, eq, value, bound, next⟩
          cases digits with
          | nil =>
            -- The colon would be a digit.
            rw [List.nil_append, List.cons.injEq] at eq
            rw [eq.1, isDigit_colon] at digit
            cases digit
          | cons head digits =>
            rw [List.cons_append, List.cons.injEq] at eq
            obtain ⟨rfl, rfl⟩ := eq
            exact ⟨digits, tail, (List.forall_mem_cons.1 all).2, rfl, value, bound,
              by simp only [List.length_cons] at next; omega⟩
      · rw [if_pos (fits.2 room)]
        constructor
        · nofun
        · rintro ⟨digits, tail, all, eq, value, bound, -⟩
          cases digits with
          | nil =>
            rw [List.nil_append, List.cons.injEq] at eq
            rw [eq.1, isDigit_colon] at digit
            cases digit
          | cons head digits =>
            rw [List.cons_append, List.cons.injEq] at eq
            obtain ⟨rfl, -⟩ := eq
            -- The number would only grow.
            have grows := le_appendDigits (out * 10 + (byte.toNat - 48)) digits
            have step : appendDigits out (byte :: digits) =
                appendDigits (out * 10 + (byte.toNat - 48)) digits := rfl
            omega
    | false =>
      simp only [Bool.false_eq_true, if_false]
      constructor
      · intro eq
        split at eq
        case isTrue colon =>
          obtain ⟨rfl, rfl⟩ := Prod.mk.inj (Option.some.inj eq)
          exact ⟨[], rest, nofun, by rw [colon]; rfl, rfl, small, rfl⟩
        case isFalse => cases eq
      · rintro ⟨digits, tail, all, eq, rfl, -, rfl⟩
        cases digits with
        | nil =>
          rw [List.nil_append, List.cons.injEq] at eq
          rw [if_pos eq.1]
          rfl
        | cons head digits =>
          rw [List.cons_append, List.cons.injEq] at eq
          rw [eq.1, all head List.mem_cons_self] at digit
          cases digit

/-- A number with a colon stands at a place; the next place is that behind the colon. -/
def NumeralAt (text : Str) (pos value next : Nat) : Prop :=
  ∃ digits tail, IsNumeral digits value ∧ value < 2 ^ 64 ∧
    text.drop pos = digits ++ 58 :: tail ∧ next = pos + digits.length + 1

theorem rtProofParseDecimal_eq_some {text : Str} {pos value next : Nat} :
    rtProofParseDecimal text pos = some (value, next) ↔ NumeralAt text pos value next := by
  rw [rtProofParseDecimal]
  cases rest : text.drop pos with
  | nil => simp [NumeralAt, rest]
  | cons byte tail =>
    simp only
    cases digit : isDigit byte with
    | true =>
      rw [if_pos rfl, decimalFrom_eq_some (by decide)]
      constructor
      · rintro ⟨digits, behind, all, eq, value, bound, next⟩
        refine ⟨digits, behind, ⟨?_, all, value⟩, bound, by rw [rest, eq], next⟩
        -- The first byte is a digit and no colon.
        rintro rfl
        rw [List.nil_append, List.cons.injEq] at eq
        rw [eq.1, isDigit_colon] at digit
        cases digit
      · rintro ⟨digits, behind, ⟨-, all, value⟩, bound, eq, next⟩
        exact ⟨digits, behind, all, by rw [← rest, eq], value, bound, next⟩
    | false =>
      simp only [Bool.false_eq_true, if_false]
      constructor
      · nofun
      · rintro ⟨digits, behind, ⟨some, all, -⟩, -, eq, -⟩
        cases digits with
        | nil => exact absurd rfl some
        | cons head digits =>
          rw [rest, List.cons_append, List.cons.injEq] at eq
          rw [eq.1, all head List.mem_cons_self] at digit
          cases digit

theorem NumeralAt.bounds {text : Str} {pos value next : Nat}
    (numeral : NumeralAt text pos value next) :
    pos < next ∧ next ≤ text.length := by
  obtain ⟨digits, tail, -, -, eq, rfl⟩ := numeral
  have length := congrArg List.length eq
  simp only [List.length_drop, List.length_append, List.length_cons] at length
  omega

theorem digit_toNat {digit : Nat} (small : digit < 10) :
    (UInt8.ofNat (digit + 48)).toNat = digit + 48 := by
  rw [UInt8.toNat_ofNat']
  exact Nat.mod_eq_of_lt (by omega)

theorem appendDigits_digits (digits : List Nat) (small : ∀ digit ∈ digits, digit < 10) :
    appendDigits 0 (digits.reverse.map fun digit => UInt8.ofNat (digit + 48)) =
      Nat.ofDigits 10 digits := by
  -- The last digit written is the least one.
  induction digits with
  | nil => rfl
  | cons digit digits ih =>
    obtain ⟨here, later⟩ := List.forall_mem_cons.1 small
    have before := ih later
    simp only [appendDigits, List.reverse_cons, List.map_append, List.map_cons, List.map_nil,
      List.foldl_append, List.foldl_cons, List.foldl_nil, digit_toNat here] at before ⊢
    rw [before, Nat.ofDigits_cons]
    omega

theorem isNumeral_toStr (number : Nat) : IsNumeral (toStr number) number := by
  by_cases zero : number = 0
  · -- Zero is written as one digit.
    subst zero
    have written : toStr 0 = [48] := rfl
    rw [written]
    refine ⟨List.cons_ne_nil _ _, ?_, rfl⟩
    intro digit mem
    obtain rfl := List.mem_singleton.mp mem
    rfl
  · have small : ∀ digit ∈ Nat.digits 10 number, digit < 10 :=
      fun digit mem => Nat.digits_lt_base (by decide) mem
    rw [toStr, if_neg zero]
    refine ⟨?_, ?_, ?_⟩
    · simpa [Nat.digits_eq_nil_iff_eq_zero] using zero
    · intro byte mem
      obtain ⟨digit, digitMem, rfl⟩ := List.mem_map.1 mem
      have bound := small digit (List.mem_reverse.1 digitMem)
      simp only [isDigit, Bool.and_eq_true, decide_eq_true_eq, UInt8.le_iff_toNat_le,
        digit_toNat bound]
      have first : (48 : UInt8).toNat = 48 := rfl
      have last : (57 : UInt8).toNat = 57 := rfl
      omega
    · rw [appendDigits_digits _ small, Nat.ofDigits_digits]

end Numbers

section Letters

theorem Connective.tag_injective : Function.Injective Connective.tag := by
  intro connective other same
  cases connective <;> cases other <;> first | rfl | cases same

theorem isTag_iff (letter : UInt8) :
    isTag letter = true ↔ ∃ connective, letter = Connective.tag connective := by
  constructor
  · intro tag
    simp only [isTag, Bool.or_eq_true, beq_iff_eq] at tag
    rcases tag with ((same | same) | same) | same
    · exact ⟨.and, same⟩
    · exact ⟨.or, same⟩
    · exact ⟨.implies, same⟩
    · exact ⟨.iff, same⟩
  · rintro ⟨connective, rfl⟩
    cases connective <;> rfl

theorem Connective.tag_ne (connective : Connective) :
    connective.tag ≠ 84 ∧ connective.tag ≠ 70 ∧ connective.tag ≠ 65 ∧ connective.tag ≠ 78 := by
  cases connective <;> decide

end Letters

end Nytrix.Logic
