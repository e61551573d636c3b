import Nytrix.Logic.Certificate

/-! Which strings encode propositions, and what the checker takes for an encoding. -/

namespace Nytrix.Logic

/-- A string decodes to a proposition; the lengths in it may have leading zeros. -/
inductive Decodes : Str → Proposition Str → Prop
  | truth : Decodes [84] .truth
  | falsity : Decodes [70] .falsity
  | atom {digits name : Str} : IsNumeral digits name.length →
    Decodes (65 :: (digits ++ 58 :: name)) (.atom name)
  | neg {digits text : Str} {value : Proposition Str} : IsNumeral digits text.length →
    Decodes text value → Decodes (78 :: (digits ++ 58 :: text)) (.neg value)
  | bin {connective : Connective} {digits digits' text text' : Str} {left right : Proposition Str} :
    IsNumeral digits text.length → Decodes text left →
    IsNumeral digits' text'.length → Decodes text' right →
    Decodes (connective.tag :: (digits ++ 58 :: (text ++ (digits' ++ 58 :: text'))))
      (.bin connective left right)

/--
What the checker takes for a proposition between two places of a text.

It is an encoding, but for atoms whose length is read beyond their end and leads back to it around
the 64 bits.
-/
inductive Encoded (text : Str) : Nat → Nat → Proposition Atom → Prop
  | truth {pos : Nat} : text[pos]? = some 84 → Encoded text pos (pos + 1) .truth
  | falsity {pos : Nat} : text[pos]? = some 70 → Encoded text pos (pos + 1) .falsity
  | atom {pos next length : Nat} : text[pos]? = some 65 → NumeralAt text (pos + 1) length next →
    next + length ≤ text.length →
    Encoded text pos (next + length) (.atom (length, (text.drop next).take length))
  | overlap {pos next length stop : Nat} : text[pos]? = some 65 →
    NumeralAt text (pos + 1) length next → pos < stop → stop < next →
    next + length = stop + 2 ^ 64 → Encoded text pos stop (.atom (length, text.drop next))
  | neg {pos next length : Nat} {value : Proposition Atom} : text[pos]? = some 78 →
    NumeralAt text (pos + 1) length next → Encoded text next (next + length) value →
    Encoded text pos (next + length) (.neg value)
  | bin {pos next length next' length' : Nat} {connective : Connective}
    {left right : Proposition Atom} : text[pos]? = some connective.tag →
    NumeralAt text (pos + 1) length next → Encoded text next (next + length) left →
    NumeralAt text (next + length) length' next' → Encoded text next' (next' + length') right →
    Encoded text pos (next' + length') (.bin connective left right)

/-- Whether all atoms have the length of their bytes. -/
def Proposition.IsProper : Proposition Atom → Prop
  | .truth | .falsity => True
  | .atom name => name.1 = name.2.length
  | .neg value => value.IsProper
  | .bin _ left right => left.IsProper ∧ right.IsProper

/-- A proposition with the lengths of its atoms. -/
def Proposition.measured : Proposition Str → Proposition Atom
  | .truth => .truth
  | .falsity => .falsity
  | .atom name => .atom (name.length, name)
  | .neg value => .neg value.measured
  | .bin connective left right => .bin connective left.measured right.measured

section Encodings

variable {text : Str}

theorem Encoded.bounds {pos stop : Nat} {tree : Proposition Atom}
    (encoded : Encoded text pos stop tree) :
    pos < stop ∧ stop ≤ text.length := by
  induction encoded with
  | truth byte | falsity byte =>
    have inside := (List.getElem?_eq_some_iff.1 byte).1
    omega
  | atom byte numeral inside =>
    have bounds := numeral.bounds
    omega
  | overlap byte numeral here before =>
    have bounds := numeral.bounds
    omega
  | neg byte numeral value ih =>
    have bounds := numeral.bounds
    omega
  | bin byte numeral left numeral' right ihLeft ihRight =>
    have bounds := numeral.bounds
    have bounds' := numeral'.bounds
    omega

theorem letter_at {pos : Nat} {letter : UInt8} {rest : Str} (eq : text.drop pos = letter :: rest) :
    text[pos]? = some letter ∧ text.drop (pos + 1) = rest := by
  constructor
  · rw [← List.head?_drop, eq]
    rfl
  · rw [← List.drop_drop, eq]
    rfl

theorem counted_at {pos : Nat} {digits body behind : Str}
    (eq : text.drop pos = digits ++ 58 :: (body ++ behind)) (numeral : IsNumeral digits body.length)
    (small : text.length < 2 ^ 64) :
    NumeralAt text pos body.length (pos + digits.length + 1) ∧
      text.drop (pos + digits.length + 1) = body ++ behind := by
  have length := congrArg List.length eq
  simp only [List.length_drop, List.length_append, List.length_cons] at length
  constructor
  · exact ⟨digits, body ++ behind, numeral, by omega, eq, rfl⟩
  · -- The digits and the colon are dropped.
    have split : digits ++ 58 :: (body ++ behind) = (digits ++ [58]) ++ (body ++ behind) := by simp
    have dropped : (digits ++ [58]).length = digits.length + 1 := by simp
    rw [Nat.add_assoc, ← List.drop_drop, eq, split, ← dropped, List.drop_left]

theorem Decodes.encoded {part : Str} {proposition : Proposition Str}
    (decodes : Decodes part proposition) (small : text.length < 2 ^ 64) {pos : Nat} {behind : Str}
    (eq : text.drop pos = part ++ behind) :
    Encoded text pos (pos + part.length) proposition.measured := by
  induction decodes generalizing pos behind with
  | truth => exact .truth (letter_at eq).1
  | falsity => exact .falsity (letter_at eq).1
  | @atom digits name numeral =>
    rw [List.cons_append, List.append_assoc, List.cons_append] at eq
    obtain ⟨letter, rest⟩ := letter_at eq
    obtain ⟨place, body⟩ := counted_at rest numeral small
    have stop : pos + (65 :: (digits ++ 58 :: name)).length =
        pos + 1 + digits.length + 1 + name.length := by
      simp only [List.length_cons, List.length_append]
      omega
    -- The name is what stands behind the colon.
    have taken : (text.drop (pos + 1 + digits.length + 1)).take name.length = name := by
      rw [body, List.take_left]
    have inside := congrArg List.length body
    simp only [List.length_drop, List.length_append] at inside
    have bounds := place.bounds
    have atom := Encoded.atom letter place (by omega)
    rw [taken] at atom
    rw [stop]
    exact atom
  | @neg digits part value numeral decodes ih =>
    rw [List.cons_append, List.append_assoc, List.cons_append] at eq
    obtain ⟨letter, rest⟩ := letter_at eq
    obtain ⟨place, body⟩ := counted_at rest numeral small
    have stop : pos + (78 :: (digits ++ 58 :: part)).length =
        pos + 1 + digits.length + 1 + part.length := by
      simp only [List.length_cons, List.length_append]
      omega
    rw [stop]
    exact .neg letter place (ih body)
  | @bin connective digits digits' part part' left right numeral _ numeral' _ ihLeft ihRight =>
    have eq : text.drop pos =
        connective.tag :: (digits ++ 58 :: (part ++ (digits' ++ 58 :: (part' ++ behind)))) := by
      rw [eq]
      simp
    obtain ⟨letter, rest⟩ := letter_at eq
    obtain ⟨place, body⟩ := counted_at rest numeral small
    -- The second length stands where the left operand ends.
    have between : text.drop (pos + 1 + digits.length + 1 + part.length) =
        digits' ++ 58 :: (part' ++ behind) := by
      rw [← List.drop_drop, body, List.drop_left]
    obtain ⟨place', body'⟩ := counted_at between numeral' small
    have stop : pos +
        (connective.tag :: (digits ++ 58 :: (part ++ (digits' ++ 58 :: part')))).length =
        pos + 1 + digits.length + 1 + part.length + digits'.length + 1 + part'.length := by
      simp only [List.length_cons, List.length_append]
      omega
    rw [stop]
    exact .bin letter place (ihLeft body) place' (ihRight body')

theorem drop_of_letter {pos : Nat} {letter : UInt8} (byte : text[pos]? = some letter) :
    text.drop pos = letter :: text.drop (pos + 1) := by
  obtain ⟨inside, eq⟩ := List.getElem?_eq_some_iff.1 byte
  rw [List.drop_eq_getElem_cons inside, eq]

theorem NumeralAt.drop {pos value next : Nat} (numeral : NumeralAt text pos value next) :
    ∃ digits, IsNumeral digits value ∧ text.drop pos = digits ++ 58 :: text.drop next ∧
      next = pos + digits.length + 1 := by
  obtain ⟨digits, tail, isNumeral, -, eq, rfl⟩ := numeral
  refine ⟨digits, isNumeral, ?_, rfl⟩
  have split : digits ++ 58 :: tail = (digits ++ [58]) ++ tail := by simp
  have dropped : (digits ++ [58]).length = digits.length + 1 := by simp
  have behind : text.drop (pos + digits.length + 1) = tail := by
    rw [Nat.add_assoc, ← List.drop_drop, eq, split, ← dropped, List.drop_left]
  rw [behind]
  exact eq

theorem Encoded.decodes {pos stop : Nat} {tree : Proposition Atom}
    (encoded : Encoded text pos stop tree) (small : text.length < 2 ^ 64)
    (proper : tree.IsProper) :
    ∃ proposition part, tree = proposition.measured ∧ Decodes part proposition ∧
      text.drop pos = part ++ text.drop stop ∧ pos + part.length = stop := by
  induction encoded with
  | truth byte => exact ⟨.truth, [84], rfl, .truth, drop_of_letter byte, rfl⟩
  | falsity byte => exact ⟨.falsity, [70], rfl, .falsity, drop_of_letter byte, rfl⟩
  | @atom pos next length byte numeral inside =>
    obtain ⟨digits, isNumeral, eq, rfl⟩ := numeral.drop
    -- The name has the length that is written before it.
    have whole : ((text.drop (pos + 1 + digits.length + 1)).take length).length = length := by
      rw [List.length_take, List.length_drop]
      omega
    have split := List.take_append_drop length (text.drop (pos + 1 + digits.length + 1))
    rw [List.drop_drop] at split
    have named : IsNumeral digits
        ((text.drop (pos + 1 + digits.length + 1)).take length).length := by
      rw [whole]
      exact isNumeral
    refine ⟨.atom ((text.drop (pos + 1 + digits.length + 1)).take length), _, ?_, .atom named, ?_,
      ?_⟩
    · rw [Proposition.measured, whole]
    · rw [drop_of_letter byte, eq, List.cons_append, List.append_assoc, List.cons_append, split]
    · simp only [List.length_cons, List.length_append, whole]
      omega
  | @overlap pos next length stop byte numeral here before around =>
    have bounds := numeral.bounds
    -- The text is not as long as the length says.
    simp only [Proposition.IsProper, List.length_drop] at proper
    omega
  | @neg pos next length value byte numeral _ ih =>
    obtain ⟨proposition, part, rfl, decodes, body, stop⟩ := ih proper
    obtain ⟨digits, isNumeral, eq, rfl⟩ := numeral.drop
    obtain rfl : part.length = length := by omega
    refine ⟨.neg proposition, _, rfl, .neg isNumeral decodes, ?_, ?_⟩
    · rw [drop_of_letter byte, eq, body]
      simp
    · simp only [List.length_cons, List.length_append]
      omega
  | @bin pos next length next' length' connective left right byte numeral _ numeral' _ ihLeft
      ihRight =>
    obtain ⟨proposition, part, rfl, decodes, body, stop⟩ := ihLeft proper.1
    obtain ⟨proposition', part', rfl, decodes', body', stop'⟩ := ihRight proper.2
    obtain ⟨digits, isNumeral, eq, rfl⟩ := numeral.drop
    obtain rfl : part.length = length := by omega
    obtain ⟨digits', isNumeral', eq', rfl⟩ := numeral'.drop
    obtain rfl : part'.length = length' := by omega
    refine ⟨.bin connective proposition proposition', _, rfl,
      .bin isNumeral decodes isNumeral' decodes', ?_, ?_⟩
    · rw [drop_of_letter byte, eq, body, eq', body']
      simp
    · simp only [List.length_cons, List.length_append]
      omega

theorem Decodes.encoded_whole {proposition : Proposition Str} (decodes : Decodes text proposition)
    (small : text.length < 2 ^ 64) : Encoded text 0 text.length proposition.measured := by
  have eq : text.drop 0 = text ++ [] := by simp
  have encoded := decodes.encoded small eq
  rwa [Nat.zero_add] at encoded

theorem decodes_propCanonical (proposition : Proposition Str) :
    Decodes (propCanonical proposition) proposition := by
  induction proposition with
  | truth => exact .truth
  | falsity => exact .falsity
  | atom name => exact .atom (isNumeral_toStr name.length)
  | neg value ih => exact .neg (isNumeral_toStr _) ih
  | bin connective left right ihLeft ihRight =>
    -- The brackets of the two counted parts stand the other way.
    have same : propCanonical (.bin connective left right) = connective.tag ::
        (toStr (propCanonical left).length ++ 58 :: (propCanonical left ++
          (toStr (propCanonical right).length ++ 58 :: propCanonical right))) := by
      simp [propCanonical, counted]
    rw [same]
    exact .bin (isNumeral_toStr _) ihLeft (isNumeral_toStr _) ihRight

theorem isProper_measured (proposition : Proposition Str) : proposition.measured.IsProper := by
  induction proposition with
  | truth | falsity => trivial
  | atom name => rfl
  | neg value ih => exact ih
  | bin connective left right ihLeft ihRight => exact ⟨ihLeft, ihRight⟩

end Encodings

section Distinct

theorem IsNumeral.split {digits digits' rest rest' : Str} {value value' : Nat}
    (numeral : IsNumeral digits value) (numeral' : IsNumeral digits' value')
    (same : digits ++ 58 :: rest = digits' ++ 58 :: rest') : value = value' ∧ rest = rest' := by
  -- The first byte that is no digit is the colon of both.
  have prefixes : ∀ (digits digits' : Str), (∀ digit ∈ digits, isDigit digit = true) →
      (∀ digit ∈ digits', isDigit digit = true) → digits ++ 58 :: rest = digits' ++ 58 :: rest' →
      digits = digits' ∧ rest = rest' := by
    intro digits
    induction digits with
    | nil =>
      intro digits' _ decimal' same
      cases digits' with
      | nil => exact ⟨rfl, (List.cons.inj same).2⟩
      | cons head tail =>
        have colon := decimal' head List.mem_cons_self
        rw [← (List.cons.inj same).1, isDigit_colon] at colon
        cases colon
    | cons head tail ih =>
      intro digits' decimal decimal' same
      cases digits' with
      | nil =>
        have colon := decimal head List.mem_cons_self
        rw [(List.cons.inj same).1, isDigit_colon] at colon
        cases colon
      | cons head' tail' =>
        obtain ⟨rfl, later⟩ := List.cons.inj same
        obtain ⟨rfl, rest⟩ := ih tail' (List.forall_mem_cons.1 decimal).2
          (List.forall_mem_cons.1 decimal').2 later
        exact ⟨rfl, rest⟩
  obtain ⟨rfl, rest⟩ := prefixes digits digits' numeral.decimal numeral'.decimal same
  exact ⟨numeral.value.symm.trans numeral'.value, rest⟩

theorem Decodes.unique {text text' : Str} {proposition proposition' : Proposition Str}
    (decodes : Decodes text proposition) (decodes' : Decodes text' proposition')
    (same : text = text') : proposition = proposition' := by
  induction decodes generalizing text' proposition' with
  | truth =>
    cases decodes' with
    | truth => rfl
    | @bin connective => cases connective <;> cases same
    | _ => cases same
  | falsity =>
    cases decodes' with
    | falsity => rfl
    | @bin connective => cases connective <;> cases same
    | _ => cases same
  | atom numeral =>
    cases decodes' with
    | atom numeral' =>
      obtain ⟨-, rfl⟩ := numeral.split numeral' (List.cons.inj same).2
      rfl
    | @bin connective => cases connective <;> exact absurd (List.cons.inj same).1 (by decide)
    | _ => exact absurd (List.cons.inj same).1 (by decide)
  | neg numeral _ ih =>
    cases decodes' with
    | neg numeral' inner =>
      obtain ⟨-, rest⟩ := numeral.split numeral' (List.cons.inj same).2
      rw [ih inner rest]
    | @bin connective => cases connective <;> exact absurd (List.cons.inj same).1 (by decide)
    | _ => exact absurd (List.cons.inj same).1 (by decide)
  | @bin connective _ _ _ _ _ _ numeral _ numeral' _ ihLeft ihRight =>
    cases decodes' with
    | bin numeral₁ inner numeral₁' inner' =>
      obtain rfl := Connective.tag_injective (List.cons.inj same).1
      obtain ⟨lengths, rest⟩ := numeral.split numeral₁ (List.cons.inj same).2
      -- Both left operands have the length that stands before them.
      obtain ⟨left, rest⟩ := List.append_inj rest lengths
      obtain ⟨-, right⟩ := numeral'.split numeral₁' rest
      rw [ihLeft inner left, ihRight inner' right]
    | _ => cases connective <;> exact absurd (List.cons.inj same).1 (by decide)

theorem propCanonical_injective : Function.Injective propCanonical :=
  fun proposition proposition' same =>
    (decodes_propCanonical proposition).unique (decodes_propCanonical proposition') same

end Distinct

end Nytrix.Logic
