import Nytrix.Logic.Proposition

/-! The bounded decision of propositions, and when its report says what is true. -/

namespace Nytrix.Logic

/-- Why a decision ended. -/
inductive Reason where
  | complete | depthLimit | nodeLimit | memoryLimit | stepLimit | variableLimit | invalidBudget
  | counterexample | exhaustive
  deriving DecidableEq

/-- What a decision may use. -/
structure Budget where
  maxVariables : Int
  maxSteps : Int
  maxDepth : Int
  maxNodes : Int
  maxMemory : Int
  deriving DecidableEq

/-- What a decision has used so far. -/
structure State where
  decided : Bool
  reason : Reason
  steps : Nat
  nodes : Nat
  memory : Nat
  deriving DecidableEq

/-- Notes that a limit has been reached. -/
def State.stop (state : State) (reason : Reason) : State := { state with decided := false, reason }

section Functions

variable (budget : Budget)

/-- Counts the nodes of a proposition, if the budget allows for them. -/
def propMeasure : Proposition Str → Nat → State → Bool × State
  | proposition, depth, state =>
    if budget.maxDepth < depth then (false, state.stop .depthLimit)
    else if budget.maxNodes ≤ state.nodes then (false, state.stop .nodeLimit)
    else if budget.maxMemory ≤ state.memory then (false, state.stop .memoryLimit)
    else
      let state := { state with nodes := state.nodes + 1, memory := state.memory + 1 }
      match proposition with
      | .neg value => propMeasure value (depth + 1) state
      | .bin _ left right =>
        -- The right operand is not measured behind a left one that is too large.
        match propMeasure left (depth + 1) state with
        | (true, state) => propMeasure right (depth + 1) state
        | (false, state) => (false, state)
      | _ => (true, state)

/-- Evaluates a proposition, as far as the budget allows. -/
def propEvalBounded (environment : Env Str) : Proposition Str → Nat → State → Bool × State
  | proposition, depth, state =>
    if budget.maxDepth < depth then (false, state.stop .depthLimit)
    else if budget.maxSteps ≤ state.steps then (false, state.stop .stepLimit)
    else
      let state := { state with steps := state.steps + 1 }
      match proposition with
      | .truth => (true, state)
      | .falsity => (false, state)
      | .atom name => (environment.get name, state)
      -- A negation takes the value of what has been cut off for its own.
      | .neg value =>
        let (value, state) := propEvalBounded environment value (depth + 1) state
        (!value, state)
      | .bin connective left right =>
        let (left, state) := propEvalBounded environment left (depth + 1) state
        if !state.decided then (false, state)
        else
          let (right, state) := propEvalBounded environment right (depth + 1) state
          (connective.apply left right, state)

/-- The report on a proposition. -/
structure Report where
  decided : Bool
  valid : Bool
  atoms : List Str
  reason : Reason
  counterexample : Env Str
  assignmentsChecked : Nat
  assignmentsRequired : Int
  steps : Nat
  nodes : Nat
  memory : Nat
  deriving DecidableEq

/-- A report with what has been used. -/
def State.report (state : State) (decided valid : Bool) (atoms : List Str) (reason : Reason)
    (counterexample : Env Str) (checked : Nat) (required : Int) : Report :=
  { decided, valid, atoms, reason, counterexample
    assignmentsChecked := checked, assignmentsRequired := required
    steps := state.steps, nodes := state.nodes, memory := state.memory }

/-- Checks so many assignments from a mask on. -/
def checkAssignments (proposition : Proposition Str) (names : List Str) (assignments : Nat) :
    Nat → Nat → State → Report
  | 0, _, state =>
    -- Whether the last evaluation was cut off is not looked at here.
    state.report true true names .exhaustive [] assignments assignments
  | left + 1, mask, state =>
    let environment := environmentOf names mask
    let (value, state) := propEvalBounded budget environment proposition 0 state
    if value then checkAssignments proposition names assignments left (mask + 1) state
    else if !state.decided then
      state.report false false names state.reason [] mask assignments
    else state.report true false names .counterexample environment (mask + 1) assignments

/-- Whether a budget is refused at once. -/
def Budget.isInvalid : Bool :=
  budget.maxVariables < 0 || 20 < budget.maxVariables || budget.maxSteps ≤ 0 ||
    budget.maxDepth ≤ 0 || budget.maxNodes ≤ 0 || budget.maxMemory ≤ 0

/-- The state in which a decision begins. -/
def State.start : State := ⟨true, .complete, 0, 0, 0⟩

/-- Decides a proposition within a budget and reports on it. -/
def propTautologyReport (proposition : Proposition Str) : Report :=
  if budget.isInvalid then State.start.report false false [] .invalidBudget [] 0 (-1)
  else
    let (_, state) := propMeasure budget proposition 0 State.start
    if !state.decided then state.report false false [] state.reason [] 0 (-1)
    else
      let names := propVariables proposition
      if budget.maxVariables < names.length then
        state.report false false names .variableLimit [] 0
          (if names.length ≤ 20 then 1 <<< names.length else -1)
      else if budget.maxMemory < state.memory + names.length * 2 then
        state.report false false names .memoryLimit [] 0 (1 <<< names.length)
      else
        checkAssignments budget proposition names (1 <<< names.length) (1 <<< names.length) 0 state

end Functions

section Measure

variable {budget : Budget} {state : State}

/-- A proposition that the depth, the nodes and the memory of a budget allow for from a state on. -/
def Fits (budget : Budget) (proposition : Proposition Str) (depth : Nat) (state : State) : Prop :=
  depth + proposition.height ≤ budget.maxDepth ∧ state.nodes + proposition.size ≤ budget.maxNodes ∧
    state.memory + proposition.size ≤ budget.maxMemory

/-- The state behind a proposition that has been counted. -/
def State.count (state : State) (proposition : Proposition Str) : State :=
  { state with
    nodes := state.nodes + proposition.size
    memory := state.memory + proposition.size }

theorem propMeasure_of_fits {proposition : Proposition Str} {depth : Nat}
    (fits : Fits budget proposition depth state) :
    propMeasure budget proposition depth state = (true, state.count proposition) := by
  induction proposition generalizing depth state with
  | truth | falsity | atom =>
    obtain ⟨deep, nodes, memory⟩ := fits
    simp only [Proposition.height, Proposition.size] at deep nodes memory
    -- No limit is reached at the only node.
    rw [propMeasure, if_neg (by omega), if_neg (by omega), if_neg (by omega)]
    rfl
  | neg value ih =>
    obtain ⟨deep, nodes, memory⟩ := fits
    simp only [Proposition.height, Proposition.size] at deep nodes memory
    rw [propMeasure, if_neg (by omega), if_neg (by omega), if_neg (by omega)]
    simp only
    rw [ih ⟨by omega, by simp only; omega, by simp only; omega⟩]
    -- The root has been counted before its operand.
    simp only [State.count, Proposition.size, Prod.mk.injEq, State.mk.injEq, true_and]
    omega
  | bin connective left right ihLeft ihRight =>
    obtain ⟨deep, nodes, memory⟩ := fits
    simp only [Proposition.height, Proposition.size] at deep nodes memory
    rw [propMeasure, if_neg (by omega), if_neg (by omega), if_neg (by omega)]
    simp only
    rw [ihLeft ⟨by omega, by simp only; omega, by simp only; omega⟩]
    simp only
    rw [ihRight ⟨by omega, by simp only [State.count]; omega, by simp only [State.count]; omega⟩]
    simp only [State.count, Proposition.size, Prod.mk.injEq, State.mk.injEq, true_and]
    omega

theorem propMeasure_of_not_fits {proposition : Proposition Str} {depth : Nat}
    (unfit : ¬ Fits budget proposition depth state) :
    (propMeasure budget proposition depth state).1 = false ∧
      (propMeasure budget proposition depth state).2.decided = false := by
  induction proposition generalizing depth state with
  | truth | falsity | atom =>
    simp only [Fits, Proposition.height, Proposition.size] at unfit
    rw [propMeasure]
    -- One of the three limits has been reached.
    split
    · exact ⟨rfl, rfl⟩
    · split
      · exact ⟨rfl, rfl⟩
      · split
        · exact ⟨rfl, rfl⟩
        · omega
  | neg value ih =>
    rw [propMeasure]
    split
    · exact ⟨rfl, rfl⟩
    · split
      · exact ⟨rfl, rfl⟩
      · split
        · exact ⟨rfl, rfl⟩
        · apply ih
          -- What the operand lacks is what the whole lacks.
          simp only [Fits, Proposition.height, Proposition.size] at unfit ⊢
          omega
  | bin connective left right ihLeft ihRight =>
    rw [propMeasure]
    split
    · exact ⟨rfl, rfl⟩
    · split
      · exact ⟨rfl, rfl⟩
      · split
        · exact ⟨rfl, rfl⟩
        · simp only
          by_cases fits : Fits budget left (depth + 1)
              { state with nodes := state.nodes + 1, memory := state.memory + 1 }
          · rw [propMeasure_of_fits fits]
            apply ihRight
            simp only [Fits, Proposition.height, Proposition.size, State.count] at unfit fits ⊢
            omega
          · -- The right operand is not looked at.
            obtain ⟨failed, undecided⟩ := ihLeft fits
            split
            case h_1 state' eq =>
              rw [eq] at failed
              exact absurd failed (by simp)
            case h_2 state' eq =>
              rw [eq] at undecided
              exact ⟨rfl, undecided⟩

end Measure

section Evaluation

variable {budget : Budget} {state : State} {environment : Env Str}

/--
The value of an evaluation that is cut off after so many steps.

What is cut off counts as false, and so does what has a left operand that is cut off; the nodes
above combine this with what has been evaluated.
-/
def cutValue (environment : Env Str) : Proposition Str → Nat → Bool
  | _, 0 => false
  | .neg value, steps + 1 => !cutValue environment value steps
  | .bin connective left right, steps + 1 =>
    if steps < left.size then false
    else connective.apply (propEval left environment)
      (cutValue environment right (steps - left.size))
  | _, _ + 1 => false

@[simp] theorem cutValue_zero (environment : Env Str) (proposition : Proposition Str) :
    cutValue environment proposition 0 = false := by
  cases proposition <;> rfl

theorem propEvalBounded_of_enough {proposition : Proposition Str} {depth : Nat}
    (deep : depth + proposition.height ≤ budget.maxDepth) (decided : state.decided = true)
    (enough : state.steps + proposition.size ≤ budget.maxSteps) :
    propEvalBounded budget environment proposition depth state =
      (propEval proposition environment,
        { state with steps := state.steps + proposition.size }) := by
  induction proposition generalizing depth state with
  | truth | falsity | atom =>
    simp only [Proposition.height, Proposition.size] at deep enough
    rw [propEvalBounded, if_neg (by omega), if_neg (by omega)]
    rfl
  | neg value ih =>
    simp only [Proposition.height, Proposition.size] at deep enough
    rw [propEvalBounded, if_neg (by omega), if_neg (by omega)]
    simp only
    rw [ih (by omega) (by exact decided) (by simp only; omega)]
    -- The step of the root comes first.
    simp only [propEval, Proposition.value, Proposition.size, Prod.mk.injEq, State.mk.injEq,
      true_and, and_true]
    omega
  | bin connective left right ihLeft ihRight =>
    simp only [Proposition.height, Proposition.size] at deep enough
    rw [propEvalBounded, if_neg (by omega), if_neg (by omega)]
    simp only
    rw [ihLeft (by omega) (by exact decided) (by simp only; omega)]
    simp only [decided, Bool.not_true, Bool.false_eq_true, if_false]
    rw [ihRight (by omega) (by rfl) (by simp only; omega)]
    simp only [propEval, Proposition.value, Proposition.size, Prod.mk.injEq, State.mk.injEq,
      decided, true_and, and_true]
    omega

theorem propEvalBounded_of_none (proposition : Proposition Str) {depth : Nat}
    (deep : depth ≤ budget.maxDepth) (none : budget.maxSteps ≤ state.steps) :
    propEvalBounded budget environment proposition depth state =
      (false, state.stop .stepLimit) := by
  rw [propEvalBounded, if_neg (by omega), if_pos none]

theorem propEvalBounded_of_cut {proposition : Proposition Str} {depth limit : Nat}
    (deep : depth + proposition.height ≤ budget.maxDepth) (decided : state.decided = true)
    (steps : budget.maxSteps = limit) (some : state.steps ≤ limit)
    (short : limit < state.steps + proposition.size) :
    propEvalBounded budget environment proposition depth state =
      (cutValue environment proposition (limit - state.steps),
        { state with steps := limit, decided := false, reason := .stepLimit }) := by
  induction proposition generalizing depth state with
  | truth | falsity | atom =>
    simp only [Proposition.height, Proposition.size] at deep short
    -- A single node is cut off only where no step is left.
    have none : state.steps = limit := by omega
    rw [propEvalBounded_of_none _ (by omega) (by omega), ← none, Nat.sub_self, cutValue]
    rfl
  | neg value ih =>
    simp only [Proposition.height, Proposition.size] at deep short
    by_cases none : state.steps = limit
    · rw [propEvalBounded_of_none _ (by omega) (by omega), ← none, Nat.sub_self, cutValue]
      rfl
    · obtain ⟨left, remaining⟩ : ∃ left, limit - state.steps = left + 1 :=
        Nat.exists_eq_succ_of_ne_zero (by omega)
      rw [propEvalBounded, if_neg (by omega), if_neg (by omega)]
      simp only
      rw [ih (by omega) (by exact decided) (by simp only; omega) (by simp only; omega)]
      have same : limit - (state.steps + 1) = left := by omega
      simp only [remaining, cutValue, same]
  | bin connective left right ihLeft ihRight =>
    simp only [Proposition.height, Proposition.size] at deep short
    by_cases none : state.steps = limit
    · rw [propEvalBounded_of_none _ (by omega) (by omega), ← none, Nat.sub_self, cutValue]
      rfl
    · obtain ⟨rest, remaining⟩ : ∃ rest, limit - state.steps = rest + 1 :=
        Nat.exists_eq_succ_of_ne_zero (by omega)
      rw [propEvalBounded, if_neg (by omega), if_neg (by omega)]
      simp only
      by_cases leftShort : rest < left.size
      · -- The left operand is cut off, and the right one is not looked at.
        rw [ihLeft (by omega) (by exact decided) (by simp only; omega) (by simp only; omega)]
        simp [remaining, cutValue, leftShort]
      · rw [propEvalBounded_of_enough (by omega) (by exact decided) (by simp only; omega)]
        simp only [decided, Bool.not_true, Bool.false_eq_true, if_false]
        rw [ihRight (by omega) (by rfl) (by simp only; omega) (by simp only; omega)]
        have same : limit - (state.steps + 1 + left.size) = rest - left.size := by omega
        simp only [remaining, cutValue, if_neg leftShort, same]

end Evaluation

section Assignments

variable {budget : Budget} {proposition : Proposition Str}

/-- The value of a proposition in the environment of a mask. -/
def valueAt (proposition : Proposition Str) (mask : Nat) : Bool :=
  propEval proposition (environmentOf (propVariables proposition) mask)

/--
The last evaluation is cut off, and what has been evaluated of it makes the whole true.

All assignments before the last one are evaluated, and they come out true.
-/
def CutTrue (proposition : Proposition Str) (limit : Nat) : Prop :=
  let last := 2 ^ (propVariables proposition).length - 1
  limit < proposition.size * (last + 1) ∧ (∀ mask < last, valueAt proposition mask = true) ∧
    cutValue (environmentOf (propVariables proposition) last) proposition
      (limit - proposition.size * last) = true

/-- What checking assignments may report, and whether the last evaluation has slipped through. -/
inductive Outcome (proposition : Proposition Str) (limit : Nat) (report : Report) : Prop
  | cut : report.decided = false → ¬ CutTrue proposition limit → Outcome proposition limit report
  | refuted : report.decided = true → report.valid = false →
    propEval proposition report.counterexample = false → ¬ CutTrue proposition limit →
    Outcome proposition limit report
  | checked : report.decided = true → report.valid = true →
    (∀ mask < 2 ^ (propVariables proposition).length, valueAt proposition mask = true) →
    proposition.size * 2 ^ (propVariables proposition).length ≤ limit →
    Outcome proposition limit report
  | slipped : report.decided = true → report.valid = true → CutTrue proposition limit →
    Outcome proposition limit report

theorem not_cutTrue_of_early {limit mask : Nat}
    (early : mask + 1 < 2 ^ (propVariables proposition).length)
    (short : limit < proposition.size * (mask + 1)) : ¬ CutTrue proposition limit := by
  rintro ⟨-, -, value⟩
  -- No steps are left for the last assignment, and nothing counts as false.
  have below : proposition.size * (mask + 1) ≤
      proposition.size * (2 ^ (propVariables proposition).length - 1) :=
    Nat.mul_le_mul_left _ (by omega)
  have none : limit - proposition.size * (2 ^ (propVariables proposition).length - 1) = 0 := by
    omega
  rw [none, cutValue_zero] at value
  cases value

/-- Checking assignments has one of these outcomes. -/
theorem checkAssignments_outcome {limit : Nat} (deep : proposition.height ≤ budget.maxDepth)
    (steps : budget.maxSteps = limit) {state : State} (decided : state.decided = true)
    {left mask : Nat} (counted : mask + left = 2 ^ (propVariables proposition).length)
    (used : state.steps = proposition.size * mask) (some : state.steps ≤ limit)
    (before : ∀ other < mask, valueAt proposition other = true) :
    Outcome proposition limit
      (checkAssignments budget proposition (propVariables proposition)
        (1 <<< (propVariables proposition).length) left mask state) := by
  induction left generalizing mask state with
  | zero =>
    -- Every assignment has been evaluated, and all came out true.
    obtain rfl : mask = 2 ^ (propVariables proposition).length := by omega
    exact .checked rfl rfl before (by omega)
  | succ left ih =>
    rw [checkAssignments]
    by_cases enough : state.steps + proposition.size ≤ limit
    · rw [propEvalBounded_of_enough (by simpa using deep) decided (by omega)]
      simp only [decided]
      have value : propEval proposition (environmentOf (propVariables proposition) mask) =
          valueAt proposition mask := rfl
      cases here : valueAt proposition mask with
      | true =>
        rw [value, here, if_pos rfl]
        -- The next assignment begins where this one has been evaluated.
        refine ih (by exact rfl) (by omega) ?_ enough ?_
        · rw [Nat.mul_succ, used]
        · intro other below
          rcases Nat.lt_succ_iff_lt_or_eq.1 below with earlier | rfl
          · exact before other earlier
          · exact here
      | false =>
        rw [value, here, if_neg (by simp), if_neg (by simp)]
        refine .refuted rfl rfl here ?_
        rintro ⟨short, all, -⟩
        -- This assignment has been evaluated, so it is not the one that is cut off.
        by_cases last : mask = 2 ^ (propVariables proposition).length - 1
        · rw [← last, Nat.mul_succ] at short
          omega
        · rw [all mask (by omega)] at here
          cases here
    · rw [propEvalBounded_of_cut (by simpa using deep) decided steps some (by omega)]
      simp only
      have short : limit < proposition.size * (mask + 1) := by
        rw [Nat.mul_succ]
        omega
      cases value : cutValue (environmentOf (propVariables proposition) mask) proposition
          (limit - state.steps) with
      | false =>
        rw [if_neg (by simp), if_pos (by simp)]
        refine .cut rfl ?_
        by_cases last : mask + 1 = 2 ^ (propVariables proposition).length
        · rintro ⟨-, -, true⟩
          rw [← last, Nat.add_sub_cancel, ← used, value] at true
          cases true
        · exact not_cutTrue_of_early (by omega) short
      | true =>
        rw [if_pos rfl]
        cases left with
        | zero =>
          -- It was the last assignment, and nobody asks whether it was decided.
          have last : 2 ^ (propVariables proposition).length - 1 = mask := by omega
          refine .slipped rfl rfl ⟨?_, ?_, ?_⟩
          · rw [last]
            exact short
          · rw [last]
            exact before
          · rw [last, ← used]
            exact value
        | succ left =>
          rw [checkAssignments, propEvalBounded_of_none _ (by omega) (by simp only; omega)]
          exact .cut rfl (not_cutTrue_of_early (by omega) short)

end Assignments

section Reports

variable {budget : Budget} {proposition : Proposition Str}

/-- A budget that allows for the size of a proposition and for the number of its atoms. -/
structure Budget.Admits (budget : Budget) (proposition : Proposition Str) : Prop where
  valid : budget.isInvalid = false
  fits : Fits budget proposition 0 State.start
  atoms : (propVariables proposition).length ≤ budget.maxVariables
  memory : proposition.size + (propVariables proposition).length * 2 ≤ budget.maxMemory

/-- A budget that allows for the evaluation of all assignments. -/
def Budget.Suffices (budget : Budget) (proposition : Proposition Str) : Prop :=
  budget.Admits proposition ∧
    (proposition.size * 2 ^ (propVariables proposition).length : Nat) ≤ budget.maxSteps

/--
The report on a proposition is right.

What is reported as valid is true everywhere, a counterexample makes the proposition false, and
nothing is reported as valid if a budget does not suffice.
-/
def ReportsRight (budget : Budget) (proposition : Proposition Str) : Prop :=
  ((propTautologyReport budget proposition).decided = true →
    (propTautologyReport budget proposition).valid = true →
      ∀ environment, propEval proposition environment = true) ∧
  ((propTautologyReport budget proposition).decided = true →
    (propTautologyReport budget proposition).valid = false →
      propEval proposition (propTautologyReport budget proposition).counterexample = false) ∧
  (¬ budget.Suffices proposition →
    (propTautologyReport budget proposition).decided = false ∨
      (propTautologyReport budget proposition).valid = false ∧
        propEval proposition (propTautologyReport budget proposition).counterexample = false)

theorem decided_of_not_admits (refused : ¬ budget.Admits proposition) :
    (propTautologyReport budget proposition).decided = false := by
  rw [propTautologyReport]
  split
  case isTrue => rfl
  case isFalse valid =>
    by_cases fits : Fits budget proposition 0 State.start
    · rw [propMeasure_of_fits fits]
      simp only [State.start, State.count, Bool.not_true, Bool.false_eq_true, if_false,
        Nat.zero_add]
      split
      case isTrue => rfl
      case isFalse atoms =>
        split
        case isTrue => rfl
        case isFalse memory =>
          exact absurd ⟨by simpa using valid, fits, by omega, by omega⟩ refused
    · -- The proposition is too large to be measured.
      obtain ⟨-, undecided⟩ := propMeasure_of_not_fits fits
      simp only [undecided, Bool.not_false, if_true]
      rfl

theorem outcome_of_admits (admits : budget.Admits proposition) :
    Outcome proposition budget.maxSteps.toNat (propTautologyReport budget proposition) := by
  obtain ⟨valid, fits, atoms, memory⟩ := admits
  have positive : 0 < budget.maxSteps := by
    simp only [Budget.isInvalid, Bool.or_eq_false_iff, decide_eq_false_iff_not] at valid
    omega
  rw [propTautologyReport, if_neg (by simp [valid]), propMeasure_of_fits fits]
  simp only [State.start, State.count, Bool.not_true, Bool.false_eq_true, if_false, Nat.zero_add]
  rw [if_neg (by omega), if_neg (by omega)]
  -- No assignment has been checked, and no step has been used.
  apply checkAssignments_outcome (by simpa using fits.1) (by omega) (by rfl)
  · rw [Nat.zero_add, Nat.one_shiftLeft]
  · rfl
  · exact Nat.zero_le _
  · exact fun mask none => absurd none (Nat.not_lt_zero mask)

/-- The report is right unless the last evaluation is cut off and comes out true. -/
theorem reportsRight_iff (budget : Budget) (proposition : Proposition Str) :
    ReportsRight budget proposition ↔
      ¬ (budget.Admits proposition ∧ CutTrue proposition budget.maxSteps.toNat) := by
  constructor
  · rintro ⟨-, -, exceeded⟩ ⟨admits, slips⟩
    have insufficient : ¬ budget.Suffices proposition := by
      rintro ⟨-, enough⟩
      have short := slips.1
      have last : 2 ^ (propVariables proposition).length - 1 + 1 =
          2 ^ (propVariables proposition).length := Nat.sub_add_cancel Nat.one_le_two_pow
      rw [last] at short
      omega
    -- Yet the report calls the proposition valid.
    have wrong := exceeded insufficient
    cases outcome_of_admits admits with
    | cut _ none => exact none slips
    | refuted _ _ _ none => exact none slips
    | checked decided valid => simp [decided, valid] at wrong
    | slipped decided valid => simp [decided, valid] at wrong
  · intro careful
    by_cases admits : budget.Admits proposition
    · have none := fun slips => careful ⟨admits, slips⟩
      cases outcome_of_admits admits with
      | cut undecided =>
        refine ⟨?_, ?_, fun _ => .inl undecided⟩
        all_goals
          intro decided
          rw [undecided] at decided
          cases decided
      | refuted decided invalid counterexample =>
        refine ⟨?_, fun _ _ => counterexample, fun _ => .inr ⟨invalid, counterexample⟩⟩
        intro _ valid
        rw [invalid] at valid
        cases valid
      | checked decided valid all enough =>
        refine ⟨?_, ?_, ?_⟩
        · intro _ _ environment
          exact (isTautology_iff proposition).2 all environment.get
        · intro _ invalid
          rw [valid] at invalid
          cases invalid
        · intro insufficient
          have work : 0 < proposition.size * 2 ^ (propVariables proposition).length :=
            Nat.mul_pos proposition.size_pos (Nat.two_pow_pos _)
          exact absurd ⟨admits, by omega⟩ insufficient
      | slipped _ _ slips => exact absurd slips none
    · have undecided := decided_of_not_admits admits
      refine ⟨?_, ?_, fun _ => .inl undecided⟩
      all_goals
        intro decided
        rw [undecided] at decided
        cases decided

/-- With three steps the negation of an atom is called valid, and in one environment it is false. -/
theorem not_reportsRight_negation :
    ¬ ReportsRight ⟨16, 3, 128, 100000, 100000⟩ (.neg (.atom [112])) := by
  rintro ⟨right, -, -⟩
  have true := right (by decide +kernel) (by decide +kernel) [([112], true)]
  revert true
  decide

end Reports

end Nytrix.Logic
