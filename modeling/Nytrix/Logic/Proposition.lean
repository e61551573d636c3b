import Mathlib.Data.Nat.Bitwise
import Mathlib.Data.List.Basic
import Mathlib.Tactic.Common

/-! Propositions of the logic library, their values, and the assignments that decide them. -/

namespace Nytrix.Logic

/-- Strings are sequences of bytes. -/
abbrev Str := List UInt8

/-- The connectives of two propositions. -/
inductive Connective where
  | and | or | implies | iff
  deriving DecidableEq

/-- What a connective makes of two values. -/
def Connective.apply : Connective → Bool → Bool → Bool
  | .and, left, right => left && right
  | .or, left, right => left || right
  | .implies, left, right => !left || right
  | .iff, left, right => left == right

/-- Propositions over atoms that have names of some kind. -/
inductive Proposition (α : Type) where
  | truth
  | falsity
  | atom (name : α)
  | neg (value : Proposition α)
  | bin (connective : Connective) (left right : Proposition α)
  deriving DecidableEq

variable {α : Type} [DecidableEq α]

/-- An environment: the newest entry of a name counts. -/
abbrev Env (α : Type) := List (α × Bool)

/-- The value that an environment gives a name, which is false where it has none. -/
def Env.get (environment : Env α) (name : α) : Bool := (environment.lookup name).getD false

/-- Sets the value of a name. -/
def Env.set (environment : Env α) (name : α) (value : Bool) : Env α := (name, value) :: environment

/-- The value of a proposition, by the values of its atoms. -/
def Proposition.value (values : α → Bool) : Proposition α → Bool
  | .truth => true
  | .falsity => false
  | .atom name => values name
  | .neg value => !value.value values
  | .bin connective left right => connective.apply (left.value values) (right.value values)

/-- Evaluates a proposition in an environment. -/
def propEval (proposition : Proposition α) (environment : Env α) : Bool :=
  proposition.value environment.get

/-- A proposition that is true whatever its atoms are. -/
def Proposition.IsTautology (proposition : Proposition α) : Prop :=
  ∀ values : α → Bool, proposition.value values = true

/-- How many nodes a proposition has. -/
def Proposition.size : Proposition α → Nat
  | .truth | .falsity | .atom _ => 1
  | .neg value => value.size + 1
  | .bin _ left right => left.size + right.size + 1

/-- How deep the nodes of a proposition are below its root. -/
def Proposition.height : Proposition α → Nat
  | .truth | .falsity | .atom _ => 0
  | .neg value => value.height + 1
  | .bin _ left right => max left.height right.height + 1

/-- Adds a name to those so far, if it is new. -/
def propNamesAdd (names : List α) (name : α) : List α :=
  if names.contains name then names else names ++ [name]

/-- Adds the names of atoms to those so far, in the order in which they occur. -/
def propVariablesInto : Proposition α → List α → List α
  | .truth, names | .falsity, names => names
  | .atom name, names => propNamesAdd names name
  | .neg value, names => propVariablesInto value names
  | .bin _ left right, names => propVariablesInto right (propVariablesInto left names)

/-- The names of the atoms of a proposition. -/
def propVariables (proposition : Proposition α) : List α := propVariablesInto proposition []

/-- Sets names from some position on to the bits of a mask. -/
def environmentFrom (mask : Nat) : Nat → List α → Env α → Env α
  | _, [], environment => environment
  | position, name :: names, environment =>
    environmentFrom mask (position + 1) names (environment.set name (mask.testBit position))

/-- The environment of an assignment: each name has the bit of its position. -/
def environmentOf (names : List α) (mask : Nat) : Env α := environmentFrom mask 0 names []

section Sizes

theorem Proposition.size_pos (proposition : Proposition α) : 0 < proposition.size := by
  cases proposition <;> simp [Proposition.size]

theorem Proposition.height_lt_size (proposition : Proposition α) :
    proposition.height < proposition.size := by
  -- The deeper operand has more nodes than it is deep, and the root adds one to both.
  induction proposition with
  | truth | falsity | atom => exact Nat.one_pos
  | neg value ih =>
    simp only [height, size]
    omega
  | bin connective left right ihLeft ihRight =>
    simp only [height, size]
    omega

end Sizes

section Names

variable {names : List α}

theorem propNamesAdd_of_mem {name : α} (known : name ∈ names) :
    propNamesAdd names name = names := by
  rw [propNamesAdd, if_pos (by simpa using known)]

theorem propNamesAdd_of_not_mem {name : α} (new : name ∉ names) :
    propNamesAdd names name = names ++ [name] := by
  rw [propNamesAdd, if_neg (by simpa using new)]

theorem mem_propNamesAdd {name other : α} :
    name ∈ propNamesAdd names other ↔ name ∈ names ∨ name = other := by
  simp only [propNamesAdd]
  split
  case isTrue present =>
    -- The name that is added was among them before.
    have known : other ∈ names := by simpa using present
    constructor
    · exact Or.inl
    · rintro (old | rfl)
      · exact old
      · exact known
  case isFalse => simp

theorem nodup_propNamesAdd (nodup : names.Nodup) (name : α) : (propNamesAdd names name).Nodup := by
  simp only [propNamesAdd]
  split
  case isTrue => exact nodup
  case isFalse absent =>
    have new : name ∉ names := by simpa using absent
    refine List.nodup_append.2 ⟨nodup, by simp, ?_⟩
    intro old mem other otherMem same
    rw [List.mem_singleton.1 otherMem] at same
    exact new (same ▸ mem)

theorem prefix_propVariablesInto (proposition : Proposition α) (names : List α) :
    names <+: propVariablesInto proposition names := by
  -- Each atom adds its name behind the others or not at all.
  induction proposition generalizing names with
  | truth | falsity => exact List.prefix_refl names
  | atom name =>
    simp only [propVariablesInto, propNamesAdd]
    split
    · exact List.prefix_refl names
    · exact List.prefix_append names [name]
  | neg value ih => exact ih names
  | bin connective left right ihLeft ihRight => exact (ihLeft names).trans (ihRight _)

theorem nodup_propVariablesInto (proposition : Proposition α) (nodup : names.Nodup) :
    (propVariablesInto proposition names).Nodup := by
  induction proposition generalizing names with
  | truth | falsity => exact nodup
  | atom name => exact nodup_propNamesAdd nodup name
  | neg value ih => exact ih nodup
  | bin connective left right ihLeft ihRight => exact ihRight (ihLeft nodup)

theorem value_congr {values others : α → Bool} (proposition : Proposition α) (names : List α)
    (same : ∀ name ∈ propVariablesInto proposition names, values name = others name) :
    proposition.value values = proposition.value others := by
  induction proposition generalizing names with
  | truth | falsity => rfl
  | atom name => exact same name (mem_propNamesAdd.2 (.inr rfl))
  | neg value ih => simp only [Proposition.value, ih names same]
  | bin connective left right ihLeft ihRight =>
    -- The names of the left operand are among those of the whole.
    have leftSame := ihLeft names fun name mem =>
      same name ((prefix_propVariablesInto right _).subset mem)
    simp only [Proposition.value, leftSame, ihRight _ same]

end Names

section Assignments

theorem get_environmentFrom_of_not_mem {mask position : Nat} {names : List α} {environment : Env α}
    {name : α} (absent : name ∉ names) :
    (environmentFrom mask position names environment).get name = environment.get name := by
  induction names generalizing position environment with
  | nil => rfl
  | cons other names ih =>
    obtain ⟨different, elsewhere⟩ : name ≠ other ∧ name ∉ names := by simpa using absent
    rw [environmentFrom, ih elsewhere]
    -- The entry that has just been set belongs to another name.
    simp [Env.get, Env.set, List.lookup_cons, beq_eq_false_iff_ne.2 different]

theorem get_environmentFrom {mask position : Nat} {names : List α} {environment : Env α}
    (nodup : names.Nodup) {index : Nat} (inside : index < names.length) :
    (environmentFrom mask position names environment).get names[index] =
      mask.testBit (position + index) := by
  induction names generalizing position environment index with
  | nil => exact absurd inside (Nat.not_lt_zero index)
  | cons other names ih =>
    obtain ⟨new, nodup⟩ := List.nodup_cons.1 nodup
    cases index with
    | zero =>
      -- Later names are different, so the entry stays the newest of its name.
      rw [environmentFrom, List.getElem_cons_zero, get_environmentFrom_of_not_mem new]
      simp [Env.get, Env.set]
    | succ index =>
      rw [environmentFrom, List.getElem_cons_succ, ih nodup (by simpa using inside)]
      congr 1
      omega

theorem exists_mask (names : List α) (values : α → Bool) :
    ∃ mask < 2 ^ names.length, ∀ index (inside : index < names.length),
      mask.testBit index = values names[index] := by
  -- The bits of the later names are shifted up to make room for the first.
  induction names with
  | nil => exact ⟨0, Nat.one_pos, fun index inside => absurd inside (Nat.not_lt_zero index)⟩
  | cons name names ih =>
    obtain ⟨mask, small, bits⟩ := ih
    refine ⟨Nat.bit (values name) mask, ?_, ?_⟩
    · rw [Nat.bit_val, List.length_cons, Nat.pow_succ]
      cases values name <;> simp only [Bool.toNat_true, Bool.toNat_false] <;> omega
    · intro index inside
      cases index with
      | zero => simp
      | succ index =>
        rw [Nat.testBit_bit_succ, List.getElem_cons_succ]
        exact bits index (by simpa using inside)

theorem isTautology_iff (proposition : Proposition α) :
    proposition.IsTautology ↔ ∀ mask < 2 ^ (propVariables proposition).length,
      propEval proposition (environmentOf (propVariables proposition) mask) = true := by
  constructor
  · exact fun tautology mask _ => tautology _
  · intro all values
    obtain ⟨mask, small, bits⟩ := exists_mask (propVariables proposition) values
    rw [← all mask small]
    -- The environment of the mask agrees with the values on all names that occur.
    apply value_congr proposition []
    intro name mem
    obtain ⟨index, inside, rfl⟩ : ∃ index, ∃ inside : index < (propVariables proposition).length,
      (propVariables proposition)[index] = name := List.getElem_of_mem mem
    have nodup : (propVariables proposition).Nodup :=
      nodup_propVariablesInto proposition List.nodup_nil
    rw [environmentOf, get_environmentFrom nodup inside, Nat.zero_add]
    exact (bits index inside).symm

end Assignments

end Nytrix.Logic
