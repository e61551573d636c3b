import Nytrix.Logic.CertificateSpec

/-! The checker reads what it takes for an encoding, and nothing else. -/

namespace Nytrix.Logic

section Places

theorem childEnd_of_le {stop pos length ends : Nat} (before : pos ≤ stop) (small : stop < 2 ^ 64) :
    childEnd stop pos length = some ends ↔ pos + length = ends ∧ ends ≤ stop := by
  have left : (stop + 2 ^ 64 - pos) % 2 ^ 64 = stop - pos := by
    have split : stop + 2 ^ 64 - pos = stop - pos + 2 ^ 64 := by omega
    rw [split, Nat.add_mod_right, Nat.mod_eq_of_lt (by omega)]
  rw [childEnd, left]
  split
  case isTrue large =>
    simp only [reduceCtorEq, false_iff, not_and]
    omega
  case isFalse fits =>
    rw [Nat.mod_eq_of_lt (by omega), Option.some.injEq]
    omega

theorem childEnd_of_lt {stop pos length ends : Nat} (behind : stop < pos) (posSmall : pos < 2 ^ 64)
    (small : length < 2 ^ 64) (eq : childEnd stop pos length = some ends) :
    stop < ends ∨ (pos + length = ends + 2 ^ 64 ∧ ends ≤ stop) := by
  have left : (stop + 2 ^ 64 - pos) % 2 ^ 64 = stop + 2 ^ 64 - pos := Nat.mod_eq_of_lt (by omega)
  rw [childEnd, left] at eq
  split at eq
  case isTrue => cases eq
  case isFalse fits =>
    obtain rfl := Option.some.inj eq
    by_cases around : pos + length < 2 ^ 64
    · rw [Nat.mod_eq_of_lt around]
      omega
    · -- The sum wraps around once.
      have wrapped : (pos + length) % 2 ^ 64 = pos + length - 2 ^ 64 := by
        rw [Nat.mod_eq_sub_mod (by omega), Nat.mod_eq_of_lt (by omega)]
      rw [wrapped]
      omega

theorem childEnd_of_around {stop pos length : Nat} (behind : stop < pos) (posSmall : pos < 2 ^ 64)
    (around : pos + length = stop + 2 ^ 64) : childEnd stop pos length = some stop := by
  have left : (stop + 2 ^ 64 - pos) % 2 ^ 64 = stop + 2 ^ 64 - pos := Nat.mod_eq_of_lt (by omega)
  have back : (pos + length) % 2 ^ 64 = stop := by
    rw [around, Nat.add_mod_right, Nat.mod_eq_of_lt (by omega)]
  rw [childEnd, left, back, if_neg (by omega)]

end Places

section Atoms

variable {maxVariables : Nat} {atoms : List Atom} {atom : Atom}

theorem getElem_of_found {found : Nat} (known : atoms.findIdx? (· == atom) = some found) :
    atoms[found]? = some atom := by
  obtain ⟨inside, same, -⟩ := List.findIdx?_eq_some_iff_getElem.1 known
  rw [List.getElem?_eq_getElem inside]
  exact congrArg some (by simpa using same)

theorem not_mem_of_not_found (unknown : atoms.findIdx? (· == atom) = none) : atom ∉ atoms := by
  rw [List.findIdx?_eq_none_iff] at unknown
  intro mem
  simpa using unknown atom mem

theorem rtProofAtomIndex_eq_some {index : Nat} {atoms' : List Atom}
    (eq : rtProofAtomIndex maxVariables atoms atom = some (index, atoms')) :
    atoms' = propNamesAdd atoms atom ∧ atoms'[index]? = some atom ∧
      (atoms.length ≤ maxVariables → atoms'.length ≤ maxVariables) := by
  rw [rtProofAtomIndex] at eq
  split at eq
  case h_1 found known =>
    obtain ⟨rfl, rfl⟩ := Prod.mk.inj (Option.some.inj eq)
    have here := getElem_of_found known
    exact ⟨(propNamesAdd_of_mem (List.mem_of_getElem? here)).symm, here, id⟩
  case h_2 unknown =>
    split at eq
    case isTrue => cases eq
    case isFalse room =>
      obtain ⟨rfl, rfl⟩ := Prod.mk.inj (Option.some.inj eq)
      refine ⟨(propNamesAdd_of_not_mem (not_mem_of_not_found unknown)).symm, by simp, ?_⟩
      intro _
      simp only [List.length_append, List.length_singleton]
      omega

theorem rtProofAtomIndex_of_room (room : (propNamesAdd atoms atom).length ≤ maxVariables) :
    ∃ index, rtProofAtomIndex maxVariables atoms atom = some (index, propNamesAdd atoms atom) := by
  rw [rtProofAtomIndex]
  split
  case h_1 found known =>
    exact ⟨found, by rw [propNamesAdd_of_mem (List.mem_of_getElem? (getElem_of_found known))]⟩
  case h_2 unknown =>
    rw [propNamesAdd_of_not_mem (not_mem_of_not_found unknown)] at room ⊢
    simp only [List.length_append, List.length_singleton] at room
    exact ⟨atoms.length, by rw [if_neg (by omega)]⟩

end Atoms

section Nodes

/-- A proposition stands in the nodes, with its operands behind it. -/
inductive Represents (nodes : List Node) (atoms : List Atom) : Nat → Proposition Atom → Prop
  | truth {index : Nat} {node : Node} : nodes[index]? = some node → node.kind = 84 →
    Represents nodes atoms index .truth
  | falsity {index : Nat} {node : Node} : nodes[index]? = some node → node.kind = 70 →
    Represents nodes atoms index .falsity
  | atom {index number : Nat} {node : Node} {name : Atom} : nodes[index]? = some node →
    node.kind = 65 → node.atom = some number → atoms[number]? = some name →
    Represents nodes atoms index (.atom name)
  | neg {index left : Nat} {node : Node} {value : Proposition Atom} :
    nodes[index]? = some node → node.kind = 78 → node.left = some left → index < left →
    Represents nodes atoms left value → Represents nodes atoms index (.neg value)
  | bin {index left right : Nat} {node : Node} {connective : Connective}
    {leftValue rightValue : Proposition Atom} :
    nodes[index]? = some node → node.kind = connective.tag → node.left = some left →
    node.right = some right → index < left → index < right →
    Represents nodes atoms left leftValue → Represents nodes atoms right rightValue →
    Represents nodes atoms index (.bin connective leftValue rightValue)

variable {nodes nodes' : List Node} {atoms atoms' : List Atom}

theorem Represents.mono {index : Nat} {tree : Proposition Atom}
    (represents : Represents nodes atoms index tree)
    (kept : ∀ place ≥ index, ∀ node, nodes[place]? = some node → nodes'[place]? = some node)
    (more : atoms <+: atoms') : Represents nodes' atoms' index tree := by
  induction represents with
  | truth node kind => exact .truth (kept _ (Nat.le_refl _) _ node) kind
  | falsity node kind => exact .falsity (kept _ (Nat.le_refl _) _ node) kind
  | atom node kind number name =>
    refine .atom (kept _ (Nat.le_refl _) _ node) kind number ?_
    -- The atoms so far keep their places.
    obtain ⟨extra, rfl⟩ := more
    rw [List.getElem?_append_left (List.getElem?_eq_some_iff.1 name).1]
    exact name
  | neg node kind left below _ ih =>
    exact .neg (kept _ (Nat.le_refl _) _ node) kind left below
      (ih fun place later => kept place (by omega))
  | bin node kind left right belowLeft belowRight _ _ ihLeft ihRight =>
    exact .bin (kept _ (Nat.le_refl _) _ node) kind left right belowLeft belowRight
      (ihLeft fun place later => kept place (by omega))
      (ihRight fun place later => kept place (by omega))

end Nodes

section Reading

variable {text : Str} {maxNodes maxVariables : Nat}

/-- How a node is read that has so many levels below it. -/
inductive Step (text : Str) (maxNodes maxVariables levels stop : Nat) (reader : Reader) :
    Nat → Reader → Prop
  | leaf {kind : UInt8} : text[reader.pos]? = some kind → kind = 84 ∨ kind = 70 →
    reader.pos + 1 = stop →
    Step text maxNodes maxVariables levels stop reader reader.nodes.length
      { reader with
        pos := reader.pos + 1
        nodes := reader.nodes ++ [⟨kind, none, none, none⟩] }
  | atom {length next number : Nat} {atoms : List Atom} : text[reader.pos]? = some 65 →
    rtProofParseDecimal text (reader.pos + 1) = some (length, next) →
    childEnd stop next length = some stop →
    rtProofAtomIndex maxVariables reader.atoms (length, (text.drop next).take length) =
      some (number, atoms) →
    Step text maxNodes maxVariables levels stop reader reader.nodes.length
      ⟨stop, reader.nodes ++ [⟨65, none, none, some number⟩], atoms⟩
  | neg {length next ends left : Nat} {reader₁ : Reader} : text[reader.pos]? = some 78 →
    rtProofParseDecimal text (reader.pos + 1) = some (length, next) →
    childEnd stop next length = some ends →
    rtProofParseNode text maxNodes maxVariables levels ends
      { reader with pos := next, nodes := reader.nodes ++ [⟨78, none, none, none⟩] } =
        some (left, reader₁) →
    reader₁.pos = stop →
    Step text maxNodes maxVariables levels stop reader reader.nodes.length
      { reader₁ with nodes := reader₁.nodes.set reader.nodes.length ⟨78, some left, none, none⟩ }
  | bin {connective : Connective} {length next ends left length' next' ends' right : Nat}
    {reader₁ reader₂ : Reader} : text[reader.pos]? = some connective.tag →
    rtProofParseDecimal text (reader.pos + 1) = some (length, next) →
    childEnd stop next length = some ends →
    rtProofParseNode text maxNodes maxVariables levels ends
      { reader with pos := next, nodes := reader.nodes ++ [⟨connective.tag, none, none, none⟩] } =
        some (left, reader₁) →
    reader₁.pos = ends →
    rtProofParseDecimal text reader₁.pos = some (length', next') →
    childEnd stop next' length' = some ends' →
    rtProofParseNode text maxNodes maxVariables levels ends' { reader₁ with pos := next' } =
      some (right, reader₂) →
    reader₂.pos = stop →
    Step text maxNodes maxVariables levels stop reader reader.nodes.length
      { reader₂ with
        nodes := reader₂.nodes.set reader.nodes.length
          ⟨connective.tag, some left, some right, none⟩ }

/-- A node is read in one of these ways. -/
theorem step_of_parsed {levels stop index : Nat} {reader reader' : Reader}
    (parsed : rtProofParseNode text maxNodes maxVariables (levels + 1) stop reader =
      some (index, reader')) :
    reader.pos < stop ∧ reader.nodes.length < maxNodes ∧
      Step text maxNodes maxVariables levels stop reader index reader' := by
  rw [rtProofParseNode] at parsed
  by_cases full : stop ≤ reader.pos ∨ maxNodes ≤ reader.nodes.length
  · rw [if_pos full] at parsed
    cases parsed
  rw [if_neg full] at parsed
  refine ⟨by omega, by omega, ?_⟩
  cases eq : text.drop reader.pos with
  | nil =>
    rw [eq] at parsed
    cases parsed
  | cons kind rest =>
    rw [eq] at parsed
    dsimp only at parsed
    have letter := (letter_at eq).1
    by_cases isLeaf : kind = 84 ∨ kind = 70
    · rw [if_pos isLeaf] at parsed
      by_cases here : reader.pos + 1 = stop
      · rw [if_pos here] at parsed
        obtain ⟨rfl, rfl⟩ := Prod.mk.inj (Option.some.inj parsed)
        exact .leaf letter isLeaf here
      · rw [if_neg here] at parsed
        cases parsed
    · rw [if_neg isLeaf] at parsed
      obtain ⟨⟨length, next⟩, numeral, parsed⟩ := Option.bind_eq_some_iff.1 parsed
      obtain ⟨ends, fits, parsed⟩ := Option.bind_eq_some_iff.1 parsed
      by_cases isAtom : kind = 65
      · rw [if_pos isAtom] at parsed
        obtain ⟨⟨number, atoms⟩, known, parsed⟩ := Option.bind_eq_some_iff.1 parsed
        by_cases here : ends = stop
        · rw [if_pos here] at parsed
          obtain ⟨rfl, rfl⟩ := Prod.mk.inj (Option.some.inj parsed)
          subst here isAtom
          exact .atom letter numeral fits known
        · rw [if_neg here] at parsed
          cases parsed
      · rw [if_neg isAtom] at parsed
        by_cases isNeg : kind = 78
        · rw [if_pos isNeg] at parsed
          obtain ⟨⟨left, reader₁⟩, inner, parsed⟩ := Option.bind_eq_some_iff.1 parsed
          by_cases here : reader₁.pos = stop
          · rw [if_pos here] at parsed
            obtain ⟨rfl, rfl⟩ := Prod.mk.inj (Option.some.inj parsed)
            subst isNeg
            exact .neg letter numeral fits inner here
          · rw [if_neg here] at parsed
            cases parsed
        · rw [if_neg isNeg] at parsed
          by_cases isBin : isTag kind = true
          · rw [if_pos isBin] at parsed
            obtain ⟨connective, rfl⟩ := (isTag_iff kind).1 isBin
            obtain ⟨⟨left, reader₁⟩, inner, parsed⟩ := Option.bind_eq_some_iff.1 parsed
            by_cases here : reader₁.pos = ends
            · rw [if_pos here] at parsed
              obtain ⟨⟨length', next'⟩, numeral', parsed⟩ := Option.bind_eq_some_iff.1 parsed
              obtain ⟨ends', fits', parsed⟩ := Option.bind_eq_some_iff.1 parsed
              obtain ⟨⟨right, reader₂⟩, inner', parsed⟩ := Option.bind_eq_some_iff.1 parsed
              by_cases here' : reader₂.pos = stop
              · rw [if_pos here'] at parsed
                obtain ⟨rfl, rfl⟩ := Prod.mk.inj (Option.some.inj parsed)
                exact .bin letter numeral fits inner here numeral' fits' inner' here'
              · rw [if_neg here'] at parsed
                cases parsed
            · rw [if_neg here] at parsed
              cases parsed
          · rw [if_neg isBin] at parsed
            cases parsed

theorem parsed_of_step {levels stop index : Nat} {reader reader' : Reader}
    (before : reader.pos < stop) (room : reader.nodes.length < maxNodes)
    (step : Step text maxNodes maxVariables levels stop reader index reader') :
    rtProofParseNode text maxNodes maxVariables (levels + 1) stop reader =
      some (index, reader') := by
  rw [rtProofParseNode, if_neg (by omega)]
  cases step with
  | @leaf kind letter isLeaf here =>
    rw [drop_of_letter letter]
    dsimp only
    rw [if_pos isLeaf, if_pos here]
  | atom letter numeral fits known =>
    rw [drop_of_letter letter]
    dsimp only
    rw [if_neg (by decide), numeral, Option.bind_some]
    dsimp only
    rw [fits, Option.bind_some, if_pos rfl, known, Option.bind_some]
    dsimp only
    rw [if_pos rfl]
  | neg letter numeral fits inner here =>
    rw [drop_of_letter letter]
    dsimp only
    rw [if_neg (by decide), numeral, Option.bind_some]
    dsimp only
    rw [fits, Option.bind_some, if_neg (by decide), if_pos rfl, inner, Option.bind_some]
    dsimp only
    rw [if_pos here]
  | @bin connective _ _ _ _ _ _ _ _ _ _ letter numeral fits inner here numeral' fits' inner'
      here' =>
    have tag : isTag connective.tag = true := (isTag_iff _).2 ⟨connective, rfl⟩
    obtain ⟨noTruth, noFalsity, noAtom, noNeg⟩ := connective.tag_ne
    have noLeaf : ¬ (connective.tag = 84 ∨ connective.tag = 70) := not_or.2 ⟨noTruth, noFalsity⟩
    rw [drop_of_letter letter]
    dsimp only
    rw [if_neg noLeaf, numeral, Option.bind_some]
    dsimp only
    rw [fits, Option.bind_some, if_neg noAtom, if_neg noNeg, if_pos tag, inner, Option.bind_some]
    dsimp only
    rw [if_pos here, numeral', Option.bind_some]
    dsimp only
    rw [fits', Option.bind_some, inner', Option.bind_some]
    dsimp only
    rw [if_pos here']

theorem before_of_parsed {levels stop index : Nat} {reader reader' : Reader}
    (parsed : rtProofParseNode text maxNodes maxVariables levels stop reader =
      some (index, reader')) : reader.pos < stop := by
  cases levels with
  | zero => simp [rtProofParseNode] at parsed
  | succ levels => exact (step_of_parsed parsed).1

theorem pos_of_parsed {levels stop index : Nat} {reader reader' : Reader}
    (parsed : rtProofParseNode text maxNodes maxVariables levels stop reader =
      some (index, reader')) : reader'.pos = stop := by
  cases levels with
  | zero => simp [rtProofParseNode] at parsed
  | succ levels =>
    -- Each way to read a node ends with a test of the place.
    obtain ⟨-, -, step⟩ := step_of_parsed parsed
    cases step with
    | leaf _ _ here => exact here
    | atom => rfl
    | neg _ _ _ _ here => exact here
    | bin _ _ _ _ _ _ _ _ here => exact here

/-- What reading a proposition leaves behind. -/
structure Read (maxNodes maxVariables levels : Nat) (reader : Reader) (index : Nat)
    (reader' : Reader) (tree : Proposition Atom) : Prop where
  root : index = reader.nodes.length
  size : reader'.nodes.length = reader.nodes.length + tree.size
  kept : ∀ place < reader.nodes.length, reader'.nodes[place]? = reader.nodes[place]?
  names : reader'.atoms = propVariablesInto tree reader.atoms
  stands : Represents reader'.nodes reader'.atoms index tree
  deep : tree.height < levels
  room : reader'.nodes.length ≤ maxNodes
  few : reader.atoms.length ≤ maxVariables → reader'.atoms.length ≤ maxVariables

theorem Read.single {levels pos : Nat} {reader : Reader} {node : Node} {atoms : List Atom}
    {tree : Proposition Atom} (one : tree.size = 1) (flat : tree.height = 0)
    (names : atoms = propVariablesInto tree reader.atoms)
    (stands : Represents (reader.nodes ++ [node]) atoms reader.nodes.length tree)
    (free : reader.nodes.length < maxNodes)
    (few : reader.atoms.length ≤ maxVariables → atoms.length ≤ maxVariables) :
    Read maxNodes maxVariables (levels + 1) reader reader.nodes.length
      ⟨pos, reader.nodes ++ [node], atoms⟩ tree := by
  refine ⟨rfl, ?_, fun place before => List.getElem?_append_left before, names, stands, by omega,
    ?_, few⟩
  · simp only [List.length_append, List.length_singleton, one]
  · simp only [List.length_append, List.length_singleton]
    omega

theorem Read.neg {levels left next : Nat} {reader reader₁ : Reader} {value : Proposition Atom}
    (inner : Read maxNodes maxVariables levels
      { reader with pos := next, nodes := reader.nodes ++ [⟨78, none, none, none⟩] } left reader₁
      value) :
    Read maxNodes maxVariables (levels + 1) reader reader.nodes.length
      { reader₁ with nodes := reader₁.nodes.set reader.nodes.length ⟨78, some left, none, none⟩ }
      (.neg value) := by
  obtain ⟨root, size, kept, names, stands, deep, room, few⟩ := inner
  simp only [List.length_append, List.length_singleton] at root size kept
  refine ⟨rfl, ?_, ?_, names, ?_, ?_, ?_, few⟩
  · simp only [List.length_set, Proposition.size, size]
    omega
  · intro place before
    -- Only the node of the negation is written to.
    have same := kept place (by omega)
    rw [List.getElem?_append_left before] at same
    rw [List.getElem?_set_ne (by omega), same]
  · have inside : reader.nodes.length < reader₁.nodes.length := by omega
    refine .neg (List.getElem?_set_self inside) rfl rfl (by omega) ?_
    apply stands.mono _ (List.prefix_refl _)
    intro place later node here
    rw [List.getElem?_set_ne (by omega), here]
  · simp only [Proposition.height]
    omega
  · simp only [List.length_set]
    exact room

theorem Read.bin {levels left right next next' : Nat} {reader reader₁ reader₂ : Reader}
    {leftValue rightValue : Proposition Atom} {connective : Connective}
    (inner : Read maxNodes maxVariables levels
      { reader with pos := next, nodes := reader.nodes ++ [⟨connective.tag, none, none, none⟩] }
      left reader₁ leftValue)
    (inner' : Read maxNodes maxVariables levels { reader₁ with pos := next' } right reader₂
      rightValue) :
    Read maxNodes maxVariables (levels + 1) reader reader.nodes.length
      { reader₂ with
        nodes := reader₂.nodes.set reader.nodes.length
          ⟨connective.tag, some left, some right, none⟩ }
      (.bin connective leftValue rightValue) := by
  obtain ⟨root, size, kept, names, stands, deep, room, few⟩ := inner
  obtain ⟨root', size', kept', names', stands', deep', room', few'⟩ := inner'
  simp only [List.length_append, List.length_singleton] at root size kept
  simp only at root' size' kept' names' few'
  refine ⟨rfl, ?_, ?_, ?_, ?_, ?_, ?_, fun before => few' (few before)⟩
  · simp only [List.length_set, Proposition.size, size', size]
    omega
  · intro place before
    have same := kept place (by omega)
    rw [List.getElem?_append_left before] at same
    rw [List.getElem?_set_ne (by omega), kept' place (by omega), same]
  · rw [propVariablesInto, names', names]
  · have inside : reader.nodes.length < reader₂.nodes.length := by omega
    refine .bin (List.getElem?_set_self inside) rfl rfl rfl (by omega) (by omega) ?_ ?_
    · -- The nodes of the left operand are still there behind the right one.
      apply stands.mono
      · intro place later node here
        have before := (List.getElem?_eq_some_iff.1 here).1
        rw [List.getElem?_set_ne (by omega), kept' place before, here]
      · rw [names']
        exact prefix_propVariablesInto rightValue _
    · apply stands'.mono _ (List.prefix_refl _)
      intro place later node here
      rw [List.getElem?_set_ne (by omega), here]
  · simp only [Proposition.height]
    omega
  · simp only [List.length_set]
    exact room'

/-- What is read is taken for a proposition. -/
theorem encoded_of_parsed (small : text.length < 2 ^ 62) {levels stop index : Nat}
    {reader reader' : Reader} (inside : stop ≤ text.length)
    (parsed : rtProofParseNode text maxNodes maxVariables levels stop reader =
      some (index, reader')) :
    ∃ tree, Encoded text reader.pos stop tree ∧
      Read maxNodes maxVariables levels reader index reader' tree := by
  induction levels generalizing stop index reader reader' with
  | zero => simp [rtProofParseNode] at parsed
  | succ levels ih =>
    obtain ⟨before, free, step⟩ := step_of_parsed parsed
    have last : ∀ node, (reader.nodes ++ [node])[reader.nodes.length]? = some node := by simp
    cases step with
    | @leaf kind letter isLeaf here =>
      subst here
      rcases isLeaf with rfl | rfl
      · exact ⟨.truth, .truth letter, .single rfl rfl rfl (.truth (last _) rfl) free id⟩
      · exact ⟨.falsity, .falsity letter, .single rfl rfl rfl (.falsity (last _) rfl) free id⟩
    | @atom length next number atoms letter numeral fits known =>
      obtain ⟨names, name, few⟩ := rtProofAtomIndex_eq_some known
      rw [rtProofParseDecimal_eq_some] at numeral
      have bounds := numeral.bounds
      refine ⟨.atom (length, (text.drop next).take length), ?_,
        .single rfl rfl names (.atom (last _) rfl rfl name) free few⟩
      by_cases late : next ≤ stop
      · obtain ⟨rfl, -⟩ := (childEnd_of_le late (by omega)).1 fits
        exact .atom letter numeral inside
      · -- The length has been read beyond the end, and leads back to it.
        have lengthSmall : length < 2 ^ 64 := by
          obtain ⟨_, _, _, bound, _, _⟩ := numeral
          exact bound
        obtain impossible | ⟨around, -⟩ := childEnd_of_lt (by omega) (by omega) lengthSmall fits
        · omega
        · rw [List.take_of_length_le (by rw [List.length_drop]; omega)]
          exact .overlap letter numeral before (by omega) around
    | @neg length next ends left reader₁ letter numeral fits inner here =>
      rw [rtProofParseDecimal_eq_some] at numeral
      have ended := pos_of_parsed inner
      have begun := before_of_parsed inner
      have bounds := numeral.bounds
      simp only at begun
      -- What ends where the whole ends does not end beyond it.
      obtain rfl : ends = stop := by omega
      obtain ⟨rfl, -⟩ := (childEnd_of_le (by omega) (by omega)).1 fits
      obtain ⟨value, encoded, read⟩ := ih inside inner
      exact ⟨.neg value, .neg letter numeral encoded, read.neg⟩
    | @bin connective length next ends left length' next' ends' right reader₁ reader₂ letter numeral
        fits inner here numeral' fits' inner' here' =>
      rw [rtProofParseDecimal_eq_some] at numeral numeral'
      have begun := before_of_parsed inner
      have begun' := before_of_parsed inner'
      have ended' := pos_of_parsed inner'
      have bounds := numeral.bounds
      have bounds' := numeral'.bounds
      simp only at begun begun'
      obtain rfl : ends' = stop := by omega
      obtain ⟨rfl, -⟩ := (childEnd_of_le (by omega) (by omega)).1 fits'
      obtain ⟨rfl, -⟩ := (childEnd_of_le (by omega) (by omega)).1 fits
      obtain ⟨leftValue, encoded, read⟩ := ih (by omega) inner
      obtain ⟨rightValue, encoded', read'⟩ := ih inside inner'
      rw [here] at numeral'
      exact ⟨.bin connective leftValue rightValue,
        .bin letter numeral encoded numeral' encoded', read.bin read'⟩

/-- What is taken for a proposition is read, if the budget allows for it. -/
theorem parsed_of_encoded (small : text.length < 2 ^ 62) {pos stop : Nat}
    {tree : Proposition Atom} (encoded : Encoded text pos stop tree) {levels : Nat}
    {reader : Reader} (here : reader.pos = pos) (deep : tree.height < levels)
    (room : reader.nodes.length + tree.size ≤ maxNodes)
    (few : (propVariablesInto tree reader.atoms).length ≤ maxVariables) :
    ∃ index reader', rtProofParseNode text maxNodes maxVariables levels stop reader =
        some (index, reader') ∧ Read maxNodes maxVariables levels reader index reader' tree := by
  -- Every node takes one of the levels.
  obtain ⟨levels, rfl⟩ : ∃ below, levels = below + 1 := Nat.exists_eq_succ_of_ne_zero (by omega)
  have last : ∀ (reader : Reader) node,
      (reader.nodes ++ [node])[reader.nodes.length]? = some node := by simp
  induction encoded generalizing levels reader with
  | truth letter =>
    subst here
    simp only [Proposition.size] at room
    exact ⟨_, _, parsed_of_step (by omega) (by omega) (.leaf letter (.inl rfl) rfl),
      .single rfl rfl rfl (.truth (last reader _) rfl) (by omega) id⟩
  | falsity letter =>
    subst here
    simp only [Proposition.size] at room
    exact ⟨_, _, parsed_of_step (by omega) (by omega) (.leaf letter (.inr rfl) rfl),
      .single rfl rfl rfl (.falsity (last reader _) rfl) (by omega) id⟩
  | @atom pos next length letter numeral inside =>
    subst here
    simp only [Proposition.size] at room
    have bounds := numeral.bounds
    obtain ⟨number, known⟩ := rtProofAtomIndex_of_room few
    obtain ⟨-, name, _⟩ := rtProofAtomIndex_eq_some known
    exact ⟨_, _, parsed_of_step (by omega) (by omega)
      (.atom letter (rtProofParseDecimal_eq_some.2 numeral)
        ((childEnd_of_le (by omega) (by omega)).2 ⟨rfl, Nat.le_refl _⟩) known),
      .single rfl rfl rfl (.atom (last reader _) rfl rfl name) (by omega) fun _ => few⟩
  | @overlap pos next length stop letter numeral before behind around =>
    subst here
    simp only [Proposition.size] at room
    have bounds := numeral.bounds
    -- There are no more bytes than the length says.
    have all : (text.drop next).take length = text.drop next :=
      List.take_of_length_le (by rw [List.length_drop]; omega)
    obtain ⟨number, known⟩ := rtProofAtomIndex_of_room few
    obtain ⟨-, name, _⟩ := rtProofAtomIndex_eq_some known
    rw [← all] at known
    exact ⟨_, _, parsed_of_step (by omega) (by omega)
      (.atom letter (rtProofParseDecimal_eq_some.2 numeral)
        (childEnd_of_around behind (by omega) around) known),
      .single rfl rfl (by rw [all]; rfl) (.atom (last reader _) rfl rfl (by rw [all]; exact name))
        (by omega) fun _ => by rw [all]; exact few⟩
  | @neg pos next length value letter numeral encoded ih =>
    subst here
    simp only [Proposition.size, Proposition.height] at room deep
    have bounds := numeral.bounds
    have ends := encoded.bounds
    obtain ⟨below, rfl⟩ : ∃ below, levels = below + 1 := Nat.exists_eq_succ_of_ne_zero (by omega)
    -- The operand is read behind the colon.
    let behind : Reader :=
      { reader with pos := next, nodes := reader.nodes ++ [⟨78, none, none, none⟩] }
    have more : behind.nodes.length = reader.nodes.length + 1 := by simp [behind]
    obtain ⟨left, reader₁, inner, read⟩ := ih (show behind.pos = next from rfl) (by omega) few
      below (by omega)
    exact ⟨_, _, parsed_of_step (by omega) (by omega)
      (.neg letter (rtProofParseDecimal_eq_some.2 numeral)
        ((childEnd_of_le (by omega) (by omega)).2 ⟨rfl, Nat.le_refl _⟩) inner
        (pos_of_parsed inner)), read.neg⟩
  | @bin pos next length next' length' connective leftValue rightValue letter numeral encoded
      numeral' encoded' ihLeft ihRight =>
    subst here
    simp only [Proposition.size, Proposition.height] at room deep
    have bounds := numeral.bounds
    have bounds' := numeral'.bounds
    have ends := encoded.bounds
    have ends' := encoded'.bounds
    obtain ⟨below, rfl⟩ : ∃ below, levels = below + 1 := Nat.exists_eq_succ_of_ne_zero (by omega)
    simp only [propVariablesInto] at few
    have fewLeft :=
      (prefix_propVariablesInto rightValue (propVariablesInto leftValue reader.atoms)).length_le
    let behind : Reader :=
      { reader with pos := next, nodes := reader.nodes ++ [⟨connective.tag, none, none, none⟩] }
    have more : behind.nodes.length = reader.nodes.length + 1 := by simp [behind]
    obtain ⟨left, reader₁, inner, read⟩ := ihLeft (show behind.pos = next from rfl) (by omega)
      (by exact Nat.le_trans fewLeft few) below (by omega)
    have size := read.size
    have names : reader₁.atoms = propVariablesInto leftValue reader.atoms := read.names
    -- The right operand is read with what the left one leaves.
    let between : Reader := { reader₁ with pos := next' }
    have same : between.nodes.length = reader₁.nodes.length := rfl
    obtain ⟨right, reader₂, inner', read'⟩ := ihRight (show between.pos = next' from rfl) (by omega)
      (by rw [← names] at few; exact few) below (by omega)
    have here := pos_of_parsed inner
    exact ⟨_, _, parsed_of_step (by omega) (by omega)
      (.bin letter (rtProofParseDecimal_eq_some.2 numeral)
        ((childEnd_of_le (by omega) (by omega)).2 ⟨rfl, by omega⟩) inner here
        (by rw [here]; exact rtProofParseDecimal_eq_some.2 numeral')
        ((childEnd_of_le (by omega) (by omega)).2 ⟨rfl, Nat.le_refl _⟩) inner'
        (pos_of_parsed inner')), read.bin read'⟩

theorem Represents.unique {nodes : List Node} {atoms : List Atom} {index : Nat}
    {tree tree' : Proposition Atom} (stands : Represents nodes atoms index tree)
    (stands' : Represents nodes atoms index tree') : tree = tree' := by
  have letters := Connective.tag_ne
  induction stands generalizing tree' with
  | truth node kind =>
    cases stands' with
    | truth => rfl
    | _ => grind
  | falsity node kind =>
    cases stands' with
    | falsity => rfl
    | _ => grind
  | atom node kind number name =>
    cases stands' with
    | atom => grind
    | _ => grind
  | neg node kind left _ _ ih =>
    cases stands' with
    | neg node' kind' left' _ inner => grind
    | _ => grind
  | bin node kind left right _ _ _ _ ihLeft ihRight =>
    cases stands' with
    | bin node' kind' left' right' _ _ inner inner' =>
      obtain rfl := Option.some.inj (node.symm.trans node')
      obtain rfl := Connective.tag_injective (kind.symm.trans kind')
      obtain rfl := Option.some.inj (left.symm.trans left')
      obtain rfl := Option.some.inj (right.symm.trans right')
      rw [ihLeft inner, ihRight inner']
    | _ => grind

theorem Encoded.unique (small : text.length < 2 ^ 62) {pos stop : Nat}
    {tree tree' : Proposition Atom}
    (encoded : Encoded text pos stop tree) (encoded' : Encoded text pos stop tree') :
    tree = tree' := by
  -- A large budget lets both be read, and reading has one result.
  have reads : ∀ {tree : Proposition Atom} (nodes names levels : Nat), Encoded text pos stop tree →
      tree.size ≤ nodes → (propVariables tree).length ≤ names → tree.height < levels →
      ∃ index reader', rtProofParseNode text nodes names levels stop ⟨pos, [], []⟩ =
        some (index, reader') ∧ Read nodes names levels ⟨pos, [], []⟩ index reader' tree := by
    intro tree nodes names levels encoded room few deep
    exact parsed_of_encoded small encoded rfl deep (by simpa using room) few
  obtain ⟨index, reader₁, parsed, read⟩ := reads (tree.size + tree'.size)
    ((propVariables tree).length + (propVariables tree').length) (tree.height + tree'.height + 1)
    encoded (by omega) (by omega) (by omega)
  obtain ⟨index', reader₂, parsed', read'⟩ := reads (tree.size + tree'.size)
    ((propVariables tree).length + (propVariables tree').length) (tree.height + tree'.height + 1)
    encoded' (by omega) (by omega) (by omega)
  rw [parsed] at parsed'
  obtain ⟨rfl, rfl⟩ := Prod.mk.inj (Option.some.inj parsed')
  exact read.stands.unique read'.stands

end Reading

end Nytrix.Logic
