import Nytrix.Logic.CertificateReads

/-! Which certificates the checker accepts, and when an accepted string encodes a tautology. -/

namespace Nytrix.Logic

section Evaluation

variable {nodes : List Node} {atoms : List Atom} {maxSteps : Int} {mask : Nat}

theorem kindValue_tag (connective : Connective) (left right : Bool) :
    kindValue connective.tag left right = connective.apply left right := by
  cases connective <;> rfl

/-- The value of a proposition in an assignment of its atoms. -/
def valueUnder (atoms : List Atom) (mask : Nat) (tree : Proposition Atom) : Bool :=
  propEval tree (environmentOf atoms mask)

/-- A proposition in the nodes is evaluated if there are steps for it. -/
theorem rtProofEval_of_enough {index : Nat} {tree : Proposition Atom}
    (stands : Represents nodes atoms index tree) (nodup : atoms.Nodup) {levels steps : Nat}
    (deep : tree.height < levels) (enough : (steps + tree.size : Nat) ≤ maxSteps) :
    rtProofEval nodes mask maxSteps levels (some index) steps =
      (valueUnder atoms mask tree, steps + tree.size, true) := by
  obtain ⟨below, rfl⟩ : ∃ below, levels = below + 1 := Nat.exists_eq_succ_of_ne_zero (by omega)
  induction stands generalizing below steps with
  | truth node kind =>
    simp only [Proposition.size] at enough
    rw [rtProofEval, Option.bind_some, node]
    dsimp only
    rw [if_neg (by omega), if_pos kind]
    rfl
  | falsity node kind =>
    simp only [Proposition.size] at enough
    rw [rtProofEval, Option.bind_some, node]
    dsimp only
    rw [if_neg (by omega), if_neg (by rw [kind]; decide), if_pos kind]
    rfl
  | @atom index number node name here kind place known =>
    simp only [Proposition.size] at enough
    rw [rtProofEval, Option.bind_some, here]
    dsimp only
    rw [if_neg (by omega), if_neg (by rw [kind]; decide), if_neg (by rw [kind]; decide),
      if_pos kind, place]
    -- The bit of the number is the value of the atom with this number.
    obtain ⟨inside, rfl⟩ := List.getElem?_eq_some_iff.1 known
    have bit : (environmentOf atoms mask).get atoms[number] = mask.testBit number := by
      rw [environmentOf, get_environmentFrom nodup inside, Nat.zero_add]
    have value : valueUnder atoms mask (.atom atoms[number]) =
        (environmentOf atoms mask).get atoms[number] := rfl
    rw [value, bit]
    rfl
  | @neg index left node value here kind place later inner ih =>
    simp only [Proposition.size, Proposition.height] at enough deep
    obtain ⟨levels, rfl⟩ : ∃ levels, below = levels + 1 := Nat.exists_eq_succ_of_ne_zero (by omega)
    rw [rtProofEval, Option.bind_some, here]
    dsimp only
    rw [if_neg (by omega), if_neg (by rw [kind]; decide), if_neg (by rw [kind]; decide),
      if_neg (by rw [kind]; decide), place, ih (by omega) levels (by omega)]
    dsimp only
    rw [if_neg (by decide), if_pos kind, Nat.add_right_comm]
    rfl
  | @bin index left right node connective leftValue rightValue here kind place place' later later'
      inner inner' ihLeft ihRight =>
    simp only [Proposition.size, Proposition.height] at enough deep
    obtain ⟨levels, rfl⟩ : ∃ levels, below = levels + 1 := Nat.exists_eq_succ_of_ne_zero (by omega)
    obtain ⟨noTruth, noFalsity, noAtom, noNeg⟩ := connective.tag_ne
    rw [← kind] at noTruth noFalsity noAtom noNeg
    rw [rtProofEval, Option.bind_some, here]
    dsimp only
    rw [if_neg (by omega), if_neg noTruth, if_neg noFalsity, if_neg noAtom, place, place',
      ihLeft (by omega) levels (by omega)]
    dsimp only
    rw [if_neg (by decide), if_neg noNeg, ihRight (by omega) levels (by omega)]
    dsimp only
    rw [if_neg (by decide), kind, kindValue_tag]
    have steps : steps + 1 + leftValue.size + rightValue.size =
        steps + (Proposition.bin connective leftValue rightValue).size := by
      simp only [Proposition.size]
      omega
    rw [steps]
    rfl

theorem rtProofEval_of_short {index : Nat} {tree : Proposition Atom}
    (stands : Represents nodes atoms index tree) (nodup : atoms.Nodup) {levels steps : Nat}
    (deep : tree.height < levels) (short : maxSteps < (steps + tree.size : Nat)) :
    ∃ used, rtProofEval nodes mask maxSteps levels (some index) steps = (false, used, false) := by
  obtain ⟨below, rfl⟩ : ∃ below, levels = below + 1 := Nat.exists_eq_succ_of_ne_zero (by omega)
  induction stands generalizing below steps with
  | truth node kind | falsity node kind | atom node kind place known =>
    simp only [Proposition.size] at short
    rw [rtProofEval, Option.bind_some, node]
    dsimp only
    exact ⟨steps, by rw [if_pos (by omega)]⟩
  | @neg index left node value here kind place later inner ih =>
    simp only [Proposition.size, Proposition.height] at short deep
    obtain ⟨levels, rfl⟩ : ∃ levels, below = levels + 1 := Nat.exists_eq_succ_of_ne_zero (by omega)
    rw [rtProofEval, Option.bind_some, here]
    dsimp only
    by_cases none : maxSteps ≤ steps
    · exact ⟨steps, by rw [if_pos none]⟩
    · obtain ⟨used, cut⟩ := ih (show maxSteps < (steps + 1 + value.size : Nat) by omega)
        levels (by omega)
      rw [if_neg none, if_neg (by rw [kind]; decide), if_neg (by rw [kind]; decide),
        if_neg (by rw [kind]; decide), place, cut]
      exact ⟨used, rfl⟩
  | @bin index left right node connective leftValue rightValue here kind place place' later later'
      inner inner' ihLeft ihRight =>
    simp only [Proposition.size, Proposition.height] at short deep
    obtain ⟨levels, rfl⟩ : ∃ levels, below = levels + 1 := Nat.exists_eq_succ_of_ne_zero (by omega)
    obtain ⟨noTruth, noFalsity, noAtom, noNeg⟩ := connective.tag_ne
    rw [← kind] at noTruth noFalsity noAtom noNeg
    rw [rtProofEval, Option.bind_some, here]
    dsimp only
    by_cases none : maxSteps ≤ steps
    · exact ⟨steps, by rw [if_pos none]⟩
    · rw [if_neg none, if_neg noTruth, if_neg noFalsity, if_neg noAtom, place, place']
      by_cases first : maxSteps < (steps + 1 + leftValue.size : Nat)
      · obtain ⟨used, cut⟩ := ihLeft first levels (by omega)
        rw [cut]
        exact ⟨used, rfl⟩
      · -- The steps run out in the right operand.
        rw [rtProofEval_of_enough inner nodup (by omega) (by omega)]
        dsimp only
        rw [if_neg (by decide), if_neg noNeg]
        obtain ⟨used, cut⟩ := ihRight
          (show maxSteps < (steps + 1 + leftValue.size + rightValue.size : Nat) by omega) levels
          (by omega)
        rw [cut]
        exact ⟨used, rfl⟩

theorem checkMasks_iff {root : Nat} {tree : Proposition Atom}
    (stands : Represents nodes atoms root tree) (nodup : atoms.Nodup)
    (deep : tree.height < nodes.length + 1) {left mask steps : Nat} (some : steps ≤ maxSteps) :
    checkMasks nodes root maxSteps left mask steps = true ↔
      (∀ other, mask ≤ other → other < mask + left → valueUnder atoms other tree = true) ∧
        (steps + tree.size * left : Nat) ≤ maxSteps := by
  induction left generalizing mask steps with
  | zero =>
    simp only [checkMasks, Nat.add_zero, Nat.mul_zero, true_iff]
    exact ⟨fun other above below => absurd above (by omega), some⟩
  | succ left ih =>
    rw [checkMasks]
    have work : steps + tree.size * (left + 1) = steps + tree.size + tree.size * left := by
      rw [Nat.mul_succ]
      omega
    by_cases enough : (steps + tree.size : Nat) ≤ maxSteps
    · rw [rtProofEval_of_enough stands nodup deep enough]
      dsimp only
      rw [Bool.and_true, Bool.and_eq_true, ih enough, work]
      constructor
      · rintro ⟨here, later, total⟩
        refine ⟨?_, total⟩
        intro other above below
        rcases Nat.eq_or_lt_of_le above with rfl | beyond
        · exact here
        · exact later other beyond (by omega)
      · rintro ⟨all, total⟩
        exact ⟨all mask (Nat.le_refl _) (by omega), fun other above below =>
          all other (by omega) (by omega), total⟩
    · -- The first evaluation is cut off.
      obtain ⟨used, cut⟩ := rtProofEval_of_short stands nodup deep (Int.lt_of_not_ge enough)
      rw [cut]
      simp only [Bool.false_and, Bool.false_eq_true, false_iff, not_and]
      intro _
      rw [work]
      omega

end Evaluation

section Measured

/-- The atom of a name. -/
def atomOf (name : Str) : Atom := (name.length, name)

theorem value_measured (values : Atom → Bool) (proposition : Proposition Str) :
    proposition.measured.value values = proposition.value fun name => values (atomOf name) := by
  induction proposition with
  | truth | falsity | atom => rfl
  | neg value ih => simp only [Proposition.measured, Proposition.value, ih]
  | bin connective left right ihLeft ihRight =>
    simp only [Proposition.measured, Proposition.value, ihLeft, ihRight]

theorem isTautology_measured (proposition : Proposition Str) :
    proposition.measured.IsTautology ↔ proposition.IsTautology := by
  constructor
  · intro tautology values
    have value := tautology fun atom => values atom.2
    rwa [value_measured] at value
  · intro tautology values
    rw [value_measured]
    exact tautology _

theorem size_measured (proposition : Proposition Str) :
    proposition.measured.size = proposition.size ∧
      proposition.measured.height = proposition.height := by
  induction proposition with
  | truth | falsity | atom => exact ⟨rfl, rfl⟩
  | neg value ih =>
    simp only [Proposition.measured, Proposition.size, Proposition.height, ih, and_self]
  | bin connective left right ihLeft ihRight =>
    simp only [Proposition.measured, Proposition.size, Proposition.height, ihLeft, ihRight,
      and_self]

theorem propVariablesInto_measured (proposition : Proposition Str) (names : List Str) :
    propVariablesInto proposition.measured (names.map atomOf) =
      (propVariablesInto proposition names).map atomOf := by
  induction proposition generalizing names with
  | truth | falsity => rfl
  | atom name =>
    simp only [Proposition.measured, propVariablesInto]
    -- A name is known exactly if its atom is.
    have injective : Function.Injective atomOf := fun name other same => (Prod.mk.inj same).2
    have same : (name.length, name) = atomOf name := rfl
    by_cases known : name ∈ names
    · rw [propNamesAdd_of_mem known, same, propNamesAdd_of_mem (List.mem_map_of_mem known)]
    · rw [propNamesAdd_of_not_mem known, same,
        propNamesAdd_of_not_mem (by rwa [List.mem_map_of_injective injective])]
      simp
  | neg value ih => exact ih names
  | bin connective left right ihLeft ihRight =>
    simp only [Proposition.measured, propVariablesInto, ihLeft, ihRight]

theorem length_propVariables_measured (proposition : Proposition Str) :
    (propVariables proposition.measured).length = (propVariables proposition).length := by
  have same := propVariablesInto_measured proposition []
  rw [List.map_nil] at same
  rw [propVariables, same, List.length_map, propVariables]

end Measured

section Certificates

/-- A string of the runtime: its length is a tagged integer. -/
structure Text where
  bytes : Str
  small : bytes.length < 2 ^ 62

/-- A proposition for which a budget suffices. -/
structure CheckBudget.Suffices (budget : CheckBudget) (tree : Proposition Atom) : Prop where
  accepted : budget.isRefused = false
  atoms : (propVariables tree).length ≤ budget.maxVariables
  nodes : tree.size ≤ budget.maxNodes
  deep : tree.height ≤ budget.maxDepth
  steps : (tree.size * 2 ^ (propVariables tree).length : Nat) ≤ budget.maxSteps

theorem checkMasks_of_read {budget : CheckBudget} {levels root : Nat} {reader : Reader}
    {tree : Proposition Atom} (steps : 0 ≤ budget.maxSteps)
    (read : Read budget.maxNodes.toNat budget.maxVariables.toNat levels ⟨0, [], []⟩ root reader
      tree) :
    checkMasks reader.nodes root budget.maxSteps (1 <<< reader.atoms.length) 0 0 = true ↔
      tree.IsTautology ∧
        (tree.size * 2 ^ (propVariables tree).length : Nat) ≤ budget.maxSteps := by
  have same : reader.atoms = propVariables tree := read.names
  have nodes : reader.nodes.length = tree.size := by simpa using read.size
  have nodup : reader.atoms.Nodup := by
    rw [same]
    exact nodup_propVariablesInto tree List.nodup_nil
  have height := tree.height_lt_size
  have deep : tree.height < reader.nodes.length + 1 := by omega
  have zero : ((0 : Nat) : Int) ≤ budget.maxSteps := by omega
  rw [checkMasks_iff read.stands nodup deep zero, Nat.one_shiftLeft, Nat.zero_add, Nat.zero_add,
    same, isTautology_iff]
  -- The values in the assignments are those of the truth table.
  exact and_congr_left fun _ => ⟨fun all mask below => all mask (Nat.zero_le _) below,
    fun all mask _ below => all mask below⟩

theorem rtProofCertCheck_iff (text : Text) (digest : Int)
    (moduleVersion dependencyDigest checkerVersion : Str) (budget : CheckBudget) :
    rtProofCertCheck text.bytes digest moduleVersion dependencyDigest checkerVersion budget = true ↔
      digest = rtProofDigestValue text.bytes moduleVersion dependencyDigest checkerVersion ∧
        ∃ tree, Encoded text.bytes 0 text.bytes.length tree ∧ tree.IsTautology ∧
          budget.Suffices tree := by
  rw [rtProofCertCheck]
  by_cases right : digest =
      rtProofDigestValue text.bytes moduleVersion dependencyDigest checkerVersion
  · rw [if_neg (by simpa using right)]
    cases refused : budget.isRefused with
    | true =>
      simp only [if_true, Bool.false_eq_true, false_iff, not_and, not_exists]
      intro _ tree _ _ enough
      rw [enough.accepted] at refused
      cases refused
    | false =>
      have bounds := refused
      simp only [CheckBudget.isRefused, Bool.or_eq_false_iff, decide_eq_false_iff_not] at bounds
      rw [if_neg (by simp)]
      constructor
      · intro accepted
        split at accepted
        case h_1 => cases accepted
        case h_2 root reader parsed =>
          rw [Bool.and_eq_true] at accepted
          obtain ⟨tree, encoded, read⟩ := encoded_of_parsed text.small (Nat.le_refl _) parsed
          obtain ⟨tautology, steps⟩ := (checkMasks_of_read (by omega) read).1 accepted.2
          have atoms := read.few (Nat.zero_le _)
          have names : reader.atoms = propVariables tree := read.names
          have size : reader.nodes.length = tree.size := by simpa using read.size
          have room := read.room
          have deep := read.deep
          rw [names] at atoms
          exact ⟨right, tree, encoded, tautology, refused, by omega, by omega, by omega, steps⟩
      · rintro ⟨-, tree, encoded, tautology, enough⟩
        obtain ⟨-, atoms, nodes, deep, steps⟩ := enough
        obtain ⟨root, reader, parsed, read⟩ : ∃ root reader,
            rtProofParseNode text.bytes budget.maxNodes.toNat budget.maxVariables.toNat
              (budget.maxDepth.toNat + 1) text.bytes.length ⟨0, [], []⟩ = some (root, reader) ∧
            Read budget.maxNodes.toNat budget.maxVariables.toNat (budget.maxDepth.toNat + 1)
              ⟨0, [], []⟩ root reader tree :=
          parsed_of_encoded text.small encoded rfl (by omega)
            (by simp only [List.length_nil]; omega)
            (by have same : propVariablesInto tree [] = propVariables tree := rfl
                rw [same]
                omega)
        rw [parsed]
        dsimp only
        rw [Bool.and_eq_true, checkMasks_of_read (by omega) read]
        exact ⟨by rw [pos_of_parsed parsed]; exact beq_self_eq_true _, tautology, steps⟩
  · rw [if_pos right]
    simp [right]

/--
The checker is right about a string.

If it accepts, the string decodes to a tautology; and the canonical encoding of a proposition is
accepted within a budget that suffices if it is one, and only then.
-/
def ChecksRight (text : Text) : Prop :=
  (∀ digest moduleVersion dependencyDigest checkerVersion budget,
    rtProofCertCheck text.bytes digest moduleVersion dependencyDigest checkerVersion budget = true →
      ∃ proposition, Decodes text.bytes proposition ∧ proposition.IsTautology) ∧
  (∀ proposition, text.bytes = propCanonical proposition →
    ∀ digest moduleVersion dependencyDigest checkerVersion (budget : CheckBudget),
      digest = rtProofDigestValue text.bytes moduleVersion dependencyDigest checkerVersion →
      budget.isRefused = false →
      (propVariables proposition).length ≤ budget.maxVariables →
      proposition.size ≤ budget.maxNodes → proposition.height ≤ budget.maxDepth →
      (proposition.size * 2 ^ (propVariables proposition).length : Nat) ≤ budget.maxSteps →
      (rtProofCertCheck text.bytes digest moduleVersion dependencyDigest checkerVersion budget =
        true ↔ proposition.IsTautology))

/--
A string that passes for a tautology though it encodes none.

The length of one of its atoms runs beyond the end of the atom and back to it around the 64 bits;
otherwise it has the form of an encoding, within the limits of the checker.
-/
def Overlaps (text : Text) : Prop :=
  ∃ tree, Encoded text.bytes 0 text.bytes.length tree ∧ ¬ tree.IsProper ∧ tree.IsTautology ∧
    (propVariables tree).length ≤ 20 ∧ tree.size ≤ 1000000 ∧ tree.height ≤ 4096

/-- The checker is right about the strings in which no atom overlaps what follows it. -/
theorem checksRight_iff (text : Text) :
    (ChecksRight text ↔ ¬ Overlaps text) ∧ Function.Injective propCanonical := by
  refine ⟨?_, propCanonical_injective⟩
  have small := text.small
  constructor
  · rintro ⟨sound, -⟩ ⟨tree, encoded, improper, tautology, atoms, nodes, deep⟩
    -- The largest budget lets the string pass.
    let budget : CheckBudget :=
      ⟨20, 1000000, 4096, (tree.size * 2 ^ (propVariables tree).length : Nat), 1000000⟩
    have work : 0 < tree.size * 2 ^ (propVariables tree).length :=
      Nat.mul_pos tree.size_pos (Nat.two_pow_pos _)
    have accepted : budget.isRefused = false := by
      simp only [CheckBudget.isRefused, budget, Bool.or_eq_false_iff, decide_eq_false_iff_not]
      omega
    obtain ⟨proposition, decodes, -⟩ := sound _ [] [] [] budget
      ((rtProofCertCheck_iff text _ [] [] [] budget).2
        ⟨rfl, tree, encoded, tautology, accepted, by simp only [budget]; omega,
          by simp only [budget]; omega, by simp only [budget]; omega, Int.le_refl _⟩)
    -- What it decodes to would have proper atoms.
    have same := (decodes.encoded_whole (by omega)).unique small encoded
    rw [← same] at improper
    exact improper (isProper_measured proposition)
  · intro careful
    constructor
    · intro digest moduleVersion dependencyDigest checkerVersion budget accepted
      obtain ⟨-, tree, encoded, tautology, enough⟩ :=
        (rtProofCertCheck_iff text _ _ _ _ _).1 accepted
      have bounds := enough.accepted
      simp only [CheckBudget.isRefused, Bool.or_eq_false_iff, decide_eq_false_iff_not] at bounds
      obtain ⟨-, atoms, nodes, deep, -⟩ := enough
      have proper : tree.IsProper := by
        by_contra improper
        exact careful ⟨tree, encoded, improper, tautology, by omega, by omega, by omega⟩
      obtain ⟨proposition, part, rfl, decodes, whole, length⟩ := encoded.decodes (by omega) proper
      -- The part from the start to the end is the string itself.
      have all : text.bytes = part := by simpa using whole
      rw [← all] at decodes
      exact ⟨proposition, decodes, (isTautology_measured proposition).1 tautology⟩
    · intro proposition canonical digest moduleVersion dependencyDigest checkerVersion budget right
        accepted atoms nodes deep steps
      have decodes := decodes_propCanonical proposition
      rw [← canonical] at decodes
      have encoded := decodes.encoded_whole (by omega)
      obtain ⟨size, height⟩ := size_measured proposition
      have count := length_propVariables_measured proposition
      rw [rtProofCertCheck_iff]
      constructor
      · rintro ⟨-, tree, encoded', tautology, -⟩
        obtain rfl := encoded.unique small encoded'
        exact (isTautology_measured proposition).1 tautology
      · intro tautology
        exact ⟨right, _, encoded, (isTautology_measured proposition).2 tautology, accepted,
          by rw [count]; exact atoms, by rw [size]; exact nodes, by rw [height]; exact deep,
          by rw [size, count]; exact steps⟩

/-- The string "|19:A18446744073709551613:|1:T7:A4:abcd". -/
def overlapping : Text :=
  ⟨[124, 49, 57, 58, 65, 49, 56, 52, 52, 54, 55, 52, 52, 48, 55, 51, 55, 48, 57, 53, 53, 49, 54,
    49, 51, 58, 124, 49, 58, 84, 55, 58, 65, 52, 58, 97, 98, 99, 100], by decide⟩

/-- The left operand of this string is no encoding, and yet the string is accepted. -/
theorem not_checksRight_overlapping : ¬ ChecksRight overlapping := by
  rintro ⟨sound, -⟩
  obtain ⟨proposition, decodes, -⟩ := sound
    (rtProofDigestValue overlapping.bytes [] [] []) [] [] [] ⟨16, 100, 100, 100, 100⟩
    (by decide +kernel)
  -- What is read of the string has an atom that is longer than its bytes.
  have parsed : rtProofParseNode overlapping.bytes 100 16 101 overlapping.bytes.length ⟨0, [], []⟩ =
      some (0, ⟨39, [⟨124, some 1, some 2, none⟩, ⟨65, none, none, some 0⟩,
        ⟨124, some 3, some 4, none⟩, ⟨84, none, none, none⟩, ⟨65, none, none, some 1⟩],
        [(18446744073709551613, [124, 49, 58, 84, 55, 58, 65, 52, 58, 97, 98, 99, 100]),
          (4, [97, 98, 99, 100])]⟩) := by
    decide +kernel
  obtain ⟨tree, encoded, read⟩ := encoded_of_parsed overlapping.small (Nat.le_refl _) parsed
  have short : overlapping.bytes.length < 2 ^ 64 := by decide
  obtain rfl := (decodes.encoded_whole short).unique overlapping.small encoded
  have names := read.names
  have measured := propVariablesInto_measured proposition []
  rw [List.map_nil] at measured
  simp only [measured] at names
  have proper : ∀ atom ∈ (propVariablesInto proposition []).map atomOf,
      atom.1 = atom.2.length := by
    intro atom mem
    obtain ⟨name, -, rfl⟩ := List.mem_map.1 mem
    rfl
  rw [← names] at proper
  have wrong := proper _ List.mem_cons_self
  revert wrong
  decide

end Certificates

end Nytrix.Logic
