import Nytrix.Types.Narrow
import Mathlib.Tactic.Common

/-! What tests tell of variables holds where the functions that test for types can be trusted. -/

namespace Nytrix.Types

/-- A value of the runtime. -/
abbrev RtWord := BitVec 64

/-- The value that `nil` is. -/
def nilWord : RtWord := 0

/--
What evaluation depends on besides the values of the variables.

Comparison and tags are given for what their first lines leave open. A call may have more than one
outcome, since what a function does need not depend on its argument alone.
-/
structure Host where
  eqOther : RtWord → RtWord → Bool
  tagOther : RtWord → Int
  calls : Name → RtWord → Bool → Prop

/-- Equality of values: a value equals itself. -/
def coreEq (host : Host) (a b : RtWord) : Bool := a == b || host.eqOther a b

/-- The tag of a value: that of `nil` is zero. -/
def rtTagof (host : Host) (v : RtWord) : Int := if v = nilWord then 0 else host.tagOther v

/-- The tags of the values of a type that is tested for. -/
def kindTags (type : Name) : List Int :=
  if type = nm "list" then [100]
  else if type = nm "dict" then [101]
  else if type = nm "str" then [120, 121]
  else []

/-- A value has the kind that a type name stands for. -/
def HasKind (host : Host) (type : Name) (v : RtWord) : Prop := rtTagof host v ∈ kindTags type

/-- The value of an operand that is a variable or `nil`. -/
def operandValue (env : Name → RtWord) : TestExpr → Option RtWord
  | .ident name => some (env name)
  | .nilLiteral => some nilWord
  | _ => none

/-- The operators whose meaning is fixed for some operands. -/
def comparesWords (op : Name) : Bool := op = nm "==" || op = nm "!="

/-- A condition whose outcome is determined by its parts, its variables and its call. -/
def isDetermined : TestExpr → Bool
  | .binary op left right =>
    comparesWords op && (operandValue (fun _ => nilWord) left).isSome &&
      (operandValue (fun _ => nilWord) right).isSome
  | .unary op _ => op = nm "!"
  | .logical op _ _ => op = nm "&&" || op = nm "||"
  | .call (.ident _) [.ident _] => true
  | _ => false

/-- A condition evaluates, without side effects, to an outcome. Other conditions have any. -/
inductive Evaluates (host : Host) (env : Name → RtWord) : TestExpr → Bool → Prop
  | equal {left right v w} (isLeft : operandValue env left = some v)
      (isRight : operandValue env right = some w) :
      Evaluates host env (.binary (nm "==") left right) (coreEq host v w)
  | unequal {left right v w} (isLeft : operandValue env left = some v)
      (isRight : operandValue env right = some w) :
      Evaluates host env (.binary (nm "!=") left right) (!coreEq host v w)
  | negation {right outcome} (inner : Evaluates host env right outcome) :
      Evaluates host env (.unary (nm "!") right) (!outcome)
  | andStops {left right} (first : Evaluates host env left false) :
      Evaluates host env (.logical (nm "&&") left right) false
  | andGoesOn {left right outcome} (first : Evaluates host env left true)
      (second : Evaluates host env right outcome) :
      Evaluates host env (.logical (nm "&&") left right) outcome
  | orStops {left right} (first : Evaluates host env left true) :
      Evaluates host env (.logical (nm "||") left right) true
  | orGoesOn {left right outcome} (first : Evaluates host env left false)
      (second : Evaluates host env right outcome) :
      Evaluates host env (.logical (nm "||") left right) outcome
  | call {callee arg outcome} (returns : host.calls callee (env arg) outcome) :
      Evaluates host env (.call (.ident callee) [.ident arg]) outcome
  | other {test} (outcome : Bool) (undetermined : isDetermined test = false) :
      Evaluates host env test outcome

/-- Whether a variable is told not to be nil where a test has an outcome. -/
def NarrowInfo.nonnullOn (it : NarrowInfo) (outcome : Bool) : Bool :=
  if outcome then it.trueNonnull else it.falseNonnull

/-- The type that is told of a variable where a test has an outcome. -/
def NarrowInfo.typeOn (it : NarrowInfo) (outcome : Bool) : Option Name :=
  if outcome then it.trueType else it.falseType

section Facts

variable (host : Host) (env : Name → RtWord)

/-- A variable is not nil, and it has the type that is told where a test has an outcome. -/
def FactHolds (outcome : Bool) (it : NarrowInfo) : Prop :=
  env it.name ≠ nilWord ∧ ∀ type, it.typeOn outcome = some type → HasKind host type (env it.name)

end Facts

/--
Narrowing tells the truth, whatever the condition, the values of its variables and its outcome.

The right operand of a logical operator is evaluated where the left one is true for `&&`, and where
it is false for `||`.
-/
structure NarrowSound (host : Host) : Prop where
  branches : ∀ env test outcome, Evaluates host env test outcome →
    ∀ it ∈ nullNarrowCollect test, it.nonnullOn outcome = true → FactHolds host env outcome it
  rightOperand : ∀ env left andOp, Evaluates host env left andOp →
    ∀ it ∈ nullNarrowCollectLogicalRhs left andOp, it.nonnullOn true = true →
      FactHolds host env true it

/--
The functions whose names end in one of the tests for types.

They return true for nothing but values of that type, as those of the standard library do.
-/
def GuardsTestTypes (host : Host) : Prop :=
  ∀ callee type v, nullNarrowGuardType callee = some type → host.calls callee v true →
    HasKind host type v

theorem HasKind.ne_nil {host : Host} {type : Name} {v : RtWord} (kind : HasKind host type v) :
    v ≠ nilWord := by
  rintro rfl
  -- The tag of nil is that of no kind.
  rw [HasKind, rtTagof, if_pos rfl, kindTags] at kind
  split at kind
  · exact absurd kind (by decide)
  split at kind
  · exact absurd kind (by decide)
  split at kind
  · exact absurd kind (by decide)
  · exact absurd kind (List.not_mem_nil)

section Lists

variable {host : Host} {env : Name → RtWord}

/--
What is told for one outcome only, and holds where that is supposed.

All facts of one list are for the same outcome: negation exchanges the outcomes of all of them, and
the logical operators keep those for one.
-/
structure Good (host : Host) (env : Name → RtWord) (side : Bool) (supposed : Prop)
    (it : NarrowInfo) : Prop where
  here : it.nonnullOn side = true
  notThere : it.nonnullOn (!side) = false
  noType : it.typeOn (!side) = none
  holds : supposed → FactHolds host env side it

/-- A list of such facts. -/
def AllGood (host : Host) (env : Name → RtWord) (side : Bool) (supposed : Prop)
    (list : List NarrowInfo) : Prop :=
  ∀ it ∈ list, Good host env side supposed it

theorem AllGood.mono {side : Bool} {supposed more : Prop} {list : List NarrowInfo}
    (good : AllGood host env side supposed list) (implies : more → supposed) :
    AllGood host env side more list := fun it inList =>
  { good it inList with holds := fun given => (good it inList).holds (implies given) }

theorem AllGood.merge {side : Bool} {supposed : Prop} {list : List NarrowInfo} {info : NarrowInfo}
    (good : AllGood host env side supposed list) (added : Good host env side supposed info) :
    AllGood host env side supposed (nullNarrowInfoMerge info list) := by
  induction list with
  | nil =>
    intro it inList
    rw [nullNarrowInfoMerge, List.mem_singleton] at inList
    exact inList ▸ added
  | cons head rest rest_good =>
    have first := good head List.mem_cons_self
    have others : AllGood host env side supposed rest := fun it inList =>
      good it (List.mem_cons_of_mem _ inList)
    rw [nullNarrowInfoMerge]
    split
    case isFalse =>
      intro it inList
      rcases List.mem_cons.1 inList with rfl | behind
      · exact first
      · exact rest_good others it behind
    case isTrue same =>
      intro it inList
      rcases List.mem_cons.1 inList with rfl | behind
      · -- The type that was told first stays, and it holds like the other.
        cases side
        · refine ⟨?_, ?_, ?_, fun given => ⟨(first.holds given).1, fun type told => ?_⟩⟩
          · simpa [NarrowInfo.nonnullOn] using .inl first.here
          · simpa [NarrowInfo.nonnullOn] using ⟨first.notThere, added.notThere⟩
          · simpa [NarrowInfo.typeOn] using ⟨first.noType, added.noType⟩
          · simp only [NarrowInfo.typeOn, Bool.false_eq_true, if_false, Option.orElse_eq_orElse,
              Option.orElse_eq_or, Option.or_eq_some_iff] at told
            rcases told with told | ⟨-, told⟩
            · exact (first.holds given).2 type told
            · rw [same]
              exact (added.holds given).2 type told
        · refine ⟨?_, ?_, ?_, fun given => ⟨(first.holds given).1, fun type told => ?_⟩⟩
          · simpa [NarrowInfo.nonnullOn] using .inl first.here
          · simpa [NarrowInfo.nonnullOn] using ⟨first.notThere, added.notThere⟩
          · simpa [NarrowInfo.typeOn] using ⟨first.noType, added.noType⟩
          · simp only [NarrowInfo.typeOn, if_true, Option.orElse_eq_orElse,
              Option.orElse_eq_or, Option.or_eq_some_iff] at told
            rcases told with told | ⟨-, told⟩
            · exact (first.holds given).2 type told
            · rw [same]
              exact (added.holds given).2 type told
      · exact others it behind

theorem AllGood.add {side : Bool} {supposed : Prop} {list : List NarrowInfo} {info : NarrowInfo}
    (good : AllGood host env side supposed list) (added : Good host env side supposed info) :
    AllGood host env side supposed (nullNarrowInfoAddType list info) := by
  rw [nullNarrowInfoAddType]
  split
  · exact good
  · exact good.merge added

theorem AllGood.swapped {side : Bool} {supposed : Prop} {src dst : List NarrowInfo}
    (given : AllGood host env side supposed src) (good : AllGood host env (!side) supposed dst) :
    AllGood host env (!side) supposed (nullNarrowMergeSwapped dst src) := by
  refine List.foldlRecOn src _ good fun dst good it inList => ?_
  have fact := given it inList
  split
  · exact good
  · -- The two outcomes of the fact are exchanged, and nothing else.
    apply good.add
    cases side
    · exact ⟨fact.here, fact.notThere, fact.noType, fact.holds⟩
    · exact ⟨fact.here, fact.notThere, fact.noType, fact.holds⟩

/-- The fact that is told for what is selected of one. -/
def selectedFact (it : NarrowInfo) (selectTrue outTrue outFalse : Bool) : NarrowInfo :=
  ⟨it.name, outTrue, outFalse,
    if outTrue then if selectTrue then it.trueType else it.falseType else none,
    if outFalse then if selectTrue then it.falseType else it.trueType else none⟩

theorem AllGood.selected {out : Bool} {told : Prop} {src dst : List NarrowInfo}
    {selectTrue selectFalse outTrue outFalse : Bool}
    (made : ∀ it ∈ src, (selectTrue && it.trueNonnull || selectFalse && it.falseNonnull) = true →
      Good host env out told (selectedFact it selectTrue outTrue outFalse))
    (good : AllGood host env out told dst) :
    AllGood host env out told
      (nullNarrowMergeSelected dst src selectTrue selectFalse outTrue outFalse) := by
  refine List.foldlRecOn src _ good fun dst good it inList => ?_
  dsimp only
  split
  · exact good
  split
  case isFalse => exact good
  case isTrue kept => exact good.add (made it inList kept)

theorem Good.selected {side select out : Bool} {supposed told : Prop} {it : NarrowInfo}
    (fact : Good host env side supposed it) (implies : side = select → told → supposed)
    (same : select = true → out = true)
    (kept : (select && it.trueNonnull || !select && it.falseNonnull) = true) :
    Good host env out told (selectedFact it select out (!out)) := by
  -- A fact that is kept is for the selected outcome.
  have chosen : it.nonnullOn select = true := by
    cases select
    · simpa [NarrowInfo.nonnullOn] using kept
    · simpa [NarrowInfo.nonnullOn] using kept
  have sides : side = select := by
    by_contra differ
    have other : (!side) = select := by
      cases side <;> cases select <;> simp_all
    have untold := fact.notThere
    rw [other, chosen] at untold
    cases untold
  subst sides
  have noType := fact.noType
  have holds := fun given => fact.holds (implies rfl given)
  cases side
  case true =>
    obtain rfl : out = true := same rfl
    exact ⟨rfl, rfl, rfl, fun given => ⟨(holds given).1, (holds given).2⟩⟩
  case false =>
    cases out
    case true => exact ⟨rfl, rfl, rfl, fun given => ⟨(holds given).1, (holds given).2⟩⟩
    case false =>
      refine ⟨rfl, rfl, rfl, fun given => ⟨(holds given).1, fun type told => ?_⟩⟩
      -- The type that is taken is that for the other outcome.
      have none : it.trueType = none := noType
      simp [selectedFact, NarrowInfo.typeOn, none] at told

end Lists

section Inversion

variable {host : Host} {env : Name → RtWord} {left right : TestExpr} {outcome : Bool}

theorem comparedWithNil_values (env : Name → RtWord) {name : Name} (compared : comparedWithNil left right = some name) :
    ∃ v w, operandValue env left = some v ∧ operandValue env right = some w ∧
      (env name = nilWord → v = w) := by
  unfold comparedWithNil at compared
  split at compared
  · obtain rfl := Option.some.inj compared
    exact ⟨_, _, rfl, rfl, fun isNil => isNil⟩
  · obtain rfl := Option.some.inj compared
    exact ⟨_, _, rfl, rfl, fun isNil => isNil.symm⟩
  · cases compared

theorem isDetermined_compared {op name : Name} (compared : comparedWithNil left right = some name) :
    isDetermined (.binary op left right) = comparesWords op := by
  obtain ⟨v, w, isLeft, isRight, -⟩ := comparedWithNil_values (fun _ => nilWord) compared
  simp [isDetermined, isLeft, isRight]

theorem coreEq_self (v : RtWord) : coreEq host v v = true := by
  simp [coreEq]

theorem Evaluates.of_equal {name : Name} (compared : comparedWithNil left right = some name)
    (evaluates : Evaluates host env (.binary (nm "==") left right) outcome)
    (final : outcome = false) : env name ≠ nilWord := by
  obtain ⟨v, w, isLeft, isRight, same⟩ := comparedWithNil_values env compared
  generalize whole : TestExpr.binary (nm "==") left right = test at evaluates
  intro isNil
  cases evaluates with
  | equal isLeft' isRight' =>
    cases whole
    -- Both operands would be nil, and the first comparison of the runtime finds them equal.
    rw [isLeft] at isLeft'
    rw [isRight] at isRight'
    obtain rfl := Option.some.inj isLeft'
    obtain rfl := Option.some.inj isRight'
    rw [same isNil, coreEq_self] at final
    cases final
  | unequal => exact absurd (TestExpr.binary.inj whole).1 (by decide)
  | other _ undetermined =>
    subst whole
    exact absurd undetermined (by simp [isDetermined_compared compared, comparesWords])
  | _ => cases whole

theorem Evaluates.of_unequal {name : Name} (compared : comparedWithNil left right = some name)
    (evaluates : Evaluates host env (.binary (nm "!=") left right) outcome)
    (final : outcome = true) : env name ≠ nilWord := by
  obtain ⟨v, w, isLeft, isRight, same⟩ := comparedWithNil_values env compared
  generalize whole : TestExpr.binary (nm "!=") left right = test at evaluates
  intro isNil
  cases evaluates with
  | unequal isLeft' isRight' =>
    cases whole
    rw [isLeft] at isLeft'
    rw [isRight] at isRight'
    obtain rfl := Option.some.inj isLeft'
    obtain rfl := Option.some.inj isRight'
    rw [same isNil, coreEq_self] at final
    cases final
  | equal => exact absurd (TestExpr.binary.inj whole).1 (by decide)
  | other _ undetermined =>
    subst whole
    exact absurd undetermined (by simp [isDetermined_compared compared, comparesWords])
  | _ => cases whole

theorem Evaluates.of_and (evaluates : Evaluates host env (.logical (nm "&&") left right) outcome)
    (final : outcome = true) : Evaluates host env left true ∧ Evaluates host env right true := by
  generalize whole : TestExpr.logical (nm "&&") left right = test at evaluates
  cases evaluates with
  | andStops => cases final
  | andGoesOn first second =>
    cases whole
    subst final
    exact ⟨first, second⟩
  | orStops => exact absurd (TestExpr.logical.inj whole).1 (by decide)
  | orGoesOn => exact absurd (TestExpr.logical.inj whole).1 (by decide)
  | other _ undetermined =>
    subst whole
    exact absurd undetermined (by simp [isDetermined])
  | _ => cases whole

theorem Evaluates.of_or (evaluates : Evaluates host env (.logical (nm "||") left right) outcome)
    (final : outcome = false) : Evaluates host env left false ∧ Evaluates host env right false := by
  generalize whole : TestExpr.logical (nm "||") left right = test at evaluates
  cases evaluates with
  | orStops => cases final
  | orGoesOn first second =>
    cases whole
    subst final
    exact ⟨first, second⟩
  | andStops => exact absurd (TestExpr.logical.inj whole).1 (by decide)
  | andGoesOn => exact absurd (TestExpr.logical.inj whole).1 (by decide)
  | other _ undetermined =>
    subst whole
    exact absurd undetermined (by simp [isDetermined])
  | _ => cases whole

theorem Evaluates.of_negation (evaluates : Evaluates host env (.unary (nm "!") right) outcome) :
    Evaluates host env right (!outcome) := by
  generalize whole : TestExpr.unary (nm "!") right = test at evaluates
  cases evaluates with
  | negation inner =>
    cases whole
    rwa [Bool.not_not]
  | other _ undetermined =>
    subst whole
    exact absurd undetermined (by simp [isDetermined])
  | _ => cases whole

theorem Evaluates.of_call {callee arg : Name}
    (evaluates : Evaluates host env (.call (.ident callee) [.ident arg]) outcome) :
    host.calls callee (env arg) outcome := by
  generalize whole : TestExpr.call (.ident callee) [.ident arg] = test at evaluates
  cases evaluates with
  | call returns =>
    cases whole
    exact returns
  | other _ undetermined =>
    subst whole
    exact absurd undetermined (by simp [isDetermined])
  | _ => cases whole

end Inversion

section Collect

variable {host : Host}

theorem AllGood.nil {env : Name → RtWord} {side : Bool} {supposed : Prop} :
    AllGood host env side supposed [] := fun _ inList => absurd inList List.not_mem_nil

theorem AllGood.single {env : Name → RtWord} {side : Bool} {supposed : Prop} {info : NarrowInfo}
    (good : Good host env side supposed info) :
    AllGood host env side supposed (nullNarrowInfoAddType [] info) := AllGood.nil.add good

theorem AllGood.logical {env : Name → RtWord} {side side' select : Bool}
    {left right : Bool × List NarrowInfo} {isLeft isRight told : Prop}
    (leftGood : AllGood host env side isLeft left.2)
    (rightGood : AllGood host env side' isRight right.2)
    (leftHolds : side = select → told → isLeft) (rightHolds : side' = select → told → isRight) :
    AllGood host env select told
      (nullNarrowCollectLogical left right [] select select (!select)).2 := by
  rw [nullNarrowCollectLogical]
  dsimp only
  split
  · exact AllGood.nil
  -- First the facts of the left side are selected, then those of the right side.
  have selected : ∀ (src dst : List NarrowInfo) (side has : Bool) (supposed : Prop),
      AllGood host env side supposed src → (side = select → told → supposed) →
      AllGood host env select told dst →
      AllGood host env select told
        (nullNarrowMergeSelected dst src (select && has) (!select && has) select (!select)) := by
    intro src dst side has supposed given holds good
    apply good.selected
    intro it inList kept
    cases has with
    | false => simp at kept
    | true =>
      simp only [Bool.and_true] at kept ⊢
      exact (given it inList).selected holds (fun same => same) kept
  exact selected _ _ side' _ isRight rightGood rightHolds
    (selected _ _ side _ isLeft leftGood leftHolds AllGood.nil)

/-- What is collected from a test holds where the test has the outcome that it is for. -/
theorem collectInto_good (guards : GuardsTestTypes host) : ∀ test : TestExpr, ∃ side,
    ∀ env, AllGood host env side (Evaluates host env test side) (nullNarrowCollectInto test []).2
  | .binary op left right => by
    rw [nullNarrowCollectInto]
    split
    case isFalse => exact ⟨true, fun env => AllGood.nil⟩
    case isTrue compares =>
      split
      case h_2 => exact ⟨true, fun env => AllGood.nil⟩
      case h_1 name compared =>
        split
        case isTrue => exact ⟨true, fun env => AllGood.nil⟩
        case isFalse =>
          rcases compares with rfl | rfl
          · refine ⟨false, fun env => AllGood.single ⟨rfl, rfl, rfl, fun evaluates => ?_⟩⟩
            exact ⟨evaluates.of_equal compared rfl, fun type told => by cases told⟩
          · refine ⟨true, fun env => AllGood.single ⟨rfl, rfl, rfl, fun evaluates => ?_⟩⟩
            exact ⟨evaluates.of_unequal compared rfl, fun type told => by cases told⟩
  | .unary op right => by
    obtain ⟨side, good⟩ := collectInto_good guards right
    rw [nullNarrowCollectInto]
    split
    case isFalse => exact ⟨true, fun env => AllGood.nil⟩
    case isTrue negation =>
      subst negation
      dsimp only
      split
      · exact ⟨true, fun env => AllGood.nil⟩
      -- The facts are for the other outcome of what is negated.
      refine ⟨!side, fun env => ((good env).mono fun evaluates => ?_).swapped AllGood.nil⟩
      simpa using Evaluates.of_negation evaluates
  | .logical op left right => by
    obtain ⟨side, good⟩ := collectInto_good guards left
    obtain ⟨side', good'⟩ := collectInto_good guards right
    rw [nullNarrowCollectInto]
    split
    case isTrue isAnd =>
      subst isAnd
      refine ⟨true, fun env => AllGood.logical (good env) (good' env) ?_ ?_⟩
      · rintro rfl evaluates
        exact (Evaluates.of_and evaluates rfl).1
      · rintro rfl evaluates
        exact (Evaluates.of_and evaluates rfl).2
    case isFalse =>
      split
      case isTrue isOr =>
        subst isOr
        refine ⟨false, fun env => AllGood.logical (good env) (good' env) ?_ ?_⟩
        · rintro rfl evaluates
          exact (Evaluates.of_or evaluates rfl).1
        · rintro rfl evaluates
          exact (Evaluates.of_or evaluates rfl).2
      case isFalse => exact ⟨true, fun env => AllGood.nil⟩
  | .call callee args => by
    unfold nullNarrowCollectInto
    split
    case h_4 callee arg whole =>
      obtain ⟨rfl, rfl⟩ := TestExpr.call.inj whole
      split
      case h_2 => exact ⟨true, fun env => AllGood.nil⟩
      case h_1 type guard =>
        refine ⟨true, fun env => AllGood.single ⟨rfl, rfl, rfl, fun evaluates => ?_⟩⟩
        -- The function returned true for the value, which therefore has the type.
        have kind := guards callee type (env arg) guard evaluates.of_call
        refine ⟨kind.ne_nil, fun type' told => ?_⟩
        obtain rfl := Option.some.inj told
        exact kind
    all_goals first | exact ⟨true, fun env => AllGood.nil⟩ | rename_i whole; cases whole
  | .ident _ => ⟨true, fun _ => AllGood.nil⟩
  | .nilLiteral => ⟨true, fun _ => AllGood.nil⟩
  | .other => ⟨true, fun _ => AllGood.nil⟩

theorem AllGood.branch {env : Name → RtWord} {test : TestExpr} {side outcome : Bool}
    {list : List NarrowInfo}
    (good : AllGood host env side (Evaluates host env test side) list)
    (evaluates : Evaluates host env test outcome) :
    ∀ it ∈ list, it.nonnullOn outcome = true → FactHolds host env outcome it := by
  intro it inList told
  have fact := good it inList
  by_cases same : outcome = side
  · subst same
    exact fact.holds evaluates
  · -- Nothing is told for the other outcome.
    have other : outcome = !side := by
      cases outcome <;> cases side <;> simp_all
    rw [other, fact.notThere] at told
    cases told

theorem narrowSound_of_guards (guards : GuardsTestTypes host) : NarrowSound host := by
  constructor
  case branches =>
    intro env test outcome evaluates
    obtain ⟨side, good⟩ := collectInto_good guards test
    exact (good env).branch evaluates
  case rightOperand =>
    intro env left andOp evaluates
    obtain ⟨side, good⟩ := collectInto_good guards left
    rw [nullNarrowCollectLogicalRhs]
    split
    · exact fun it inList => absurd inList List.not_mem_nil
    -- What is selected is for the outcome that lets the right operand be evaluated.
    have chosen : AllGood host env true True
        (nullNarrowMergeSelected [] (nullNarrowCollectInto left []).2 andOp (!andOp) true
          false) := by
      apply AllGood.nil.selected
      intro it inList kept
      exact (good env it inList).selected (fun same _ => same ▸ evaluates) (fun _ => rfl) kept
    exact fun it inList _ => (chosen it inList).holds trivial

theorem guards_of_narrowSound (sound : NarrowSound host) : GuardsTestTypes host := by
  intro callee type v guard returns
  -- The call alone is a condition.
  have evaluates : Evaluates host (fun _ => v) (.call (.ident callee) [.ident (nm "x")]) true :=
    .call returns
  have told : (⟨nm "x", true, false, some type, none⟩ : NarrowInfo) ∈
      nullNarrowCollect (.call (.ident callee) [.ident (nm "x")]) := by
    simp [nullNarrowCollect, nullNarrowCollectInto, guard, nullNarrowInfoAddType,
      NarrowInfo.tellsNothing, nullNarrowInfoMerge]
    decide
  exact (sound.branches _ _ _ evaluates _ told rfl).2 type rfl

end Collect

/-- A program whose function `is_list` of a module of its own is true for everything. -/
def ownIsList : Host where
  eqOther _ _ := false
  tagOther _ := 0
  calls callee _ outcome := callee = nm "shapes.is_list" ∧ outcome = true

end Nytrix.Types
