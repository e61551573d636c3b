import Mathlib.Data.Nat.Basic
import Mathlib.Logic.Relation

/-! Deterministic machines, their runs and simulations, and computations with enough fuel. -/

namespace Nytrix.Lib

section Fuel

variable {α β : Type}

/-- From some fuel on, a computation has a result. -/
def Settles (run : Nat → Option α) (result : α) : Prop :=
  ∃ least, ∀ fuel ≥ least, run fuel = some result

namespace Settles

variable {run : Nat → Option α} {result : α}

theorem of_eq (same : ∀ fuel, run fuel = some result) : Settles run result :=
  ⟨0, fun fuel _ => same fuel⟩

theorem succ (rest : Settles (fun fuel => run (fuel + 1)) result) : Settles run result := by
  obtain ⟨least, settled⟩ := rest
  refine ⟨least + 1, fun fuel enough => ?_⟩
  obtain ⟨fuel, rfl⟩ : ∃ less, fuel = less + 1 := ⟨fuel - 1, by omega⟩
  exact settled fuel (by omega)

theorem bind {next : Nat → α → Option β} {last : β} (first : Settles run result)
    (second : Settles (fun fuel => next fuel result) last) :
    Settles (fun fuel => (run fuel).bind (next fuel)) last := by
  obtain ⟨least, settled⟩ := first
  obtain ⟨least', settled'⟩ := second
  refine ⟨max least least', fun fuel enough => ?_⟩
  have first := settled fuel (by omega)
  have second := settled' fuel (by omega)
  simp only [first, Option.bind_some, second]

theorem map (f : α → β) (first : Settles run result) :
    Settles (fun fuel => (run fuel).map f) (f result) := by
  obtain ⟨least, settled⟩ := first
  exact ⟨least, fun fuel enough => by simp only [settled fuel enough, Option.map_some]⟩

theorem unique {result' : α} (first : Settles run result) (second : Settles run result') :
    result = result' := by
  obtain ⟨least, settled⟩ := first
  obtain ⟨least', settled'⟩ := second
  have same := settled (max least least') (by omega)
  rw [settled' _ (by omega)] at same
  exact (Option.some.inj same).symm

end Settles

end Fuel

section Machines

universe u v w

/-- A machine that either moves to its next state or stops with an outcome. -/
structure Machine (S : Type u) (O : Type v) where
  step : S → S ⊕ O

namespace Machine

variable {S : Type u} {T : Type w} {O : Type v}

/-- Zero or more moves. -/
def Steps (m : Machine S O) : S → S → Prop :=
  Relation.ReflTransGen fun s t => m.step s = .inl t

/-- The run from a state stops with an outcome. -/
def Ends (m : Machine S O) (s : S) (o : O) : Prop :=
  ∃ t, m.Steps s t ∧ m.step t = .inr o

theorem Steps.refl {m : Machine S O} (s : S) : m.Steps s s :=
  Relation.ReflTransGen.refl

theorem Steps.single {m : Machine S O} {s t : S} (moved : m.step s = .inl t) : m.Steps s t :=
  Relation.ReflTransGen.single moved

theorem Steps.trans {m : Machine S O} {s t u : S} (first : m.Steps s t) (second : m.Steps t u) :
    m.Steps s u :=
  Relation.ReflTransGen.trans first second

theorem Steps.head {m : Machine S O} {s t u : S} (moved : m.step s = .inl t)
    (rest : m.Steps t u) : m.Steps s u :=
  Relation.ReflTransGen.head moved rest

theorem Steps.tail {m : Machine S O} {s t u : S} (start : m.Steps s t)
    (moved : m.step t = .inl u) : m.Steps s u :=
  Relation.ReflTransGen.tail start moved

/-- The state after a number of moves, absent when the machine stops earlier. -/
def run (m : Machine S O) : Nat → S → Option S
  | 0, s => some s
  | n + 1, s => match m.step s with
    | .inl t => m.run n t
    | .inr _ => none

/-- The outcome of a run of fewer moves than the fuel, absent when it takes more. -/
def outcome (m : Machine S O) : Nat → S → Option O
  | 0, _ => none
  | n + 1, s => match m.step s with
    | .inl t => m.outcome n t
    | .inr o => some o

theorem settles_stop {O : Type} {m : Machine S O} {s : S} {o : O} (stopped : m.step s = .inr o) :
    Settles (m.outcome · s) o :=
  .succ (.of_eq fun fuel => by rw [outcome, stopped])

theorem settles_move {O : Type} {m : Machine S O} {s t : S} {o : O} (moved : m.step s = .inl t)
    (rest : Settles (m.outcome · t) o) : Settles (m.outcome · s) o := by
  refine .succ ?_
  simp only [outcome, moved]
  exact rest

theorem Steps.of_run {m : Machine S O} {n : Nat} {s t : S} (ran : m.run n s = some t) :
    m.Steps s t := by
  induction n generalizing s with
  | zero =>
    obtain rfl : s = t := by simpa [run] using ran
    exact Steps.refl s
  | succ n ih =>
    rw [run] at ran
    split at ran
    · rename_i next moved
      exact Steps.head moved (ih ran)
    · cases ran

theorem Steps.exists_run {m : Machine S O} {s t : S} (steps : m.Steps s t) :
    ∃ n, m.run n s = some t := by
  induction steps using Relation.ReflTransGen.head_induction_on with
  | refl => exact ⟨0, rfl⟩
  | head moved _ ih =>
    obtain ⟨n, ran⟩ := ih
    refine ⟨n + 1, ?_⟩
    rw [run, moved]
    exact ran

theorem Steps.invariant {m : Machine S O} {I : S → Prop}
    (preserved : ∀ s t, I s → m.step s = .inl t → I t) {s t : S} (run : m.Steps s t)
    (start : I s) : I t := by
  -- The induction extends the run at its end, where the last move preserves the invariant.
  induction run with
  | refl => exact start
  | tail _ moved ih => exact preserved _ _ ih moved

theorem Ends.of_steps {m : Machine S O} {s t : S} {o : O} (run : m.Steps s t)
    (ended : m.Ends t o) : m.Ends s o := by
  obtain ⟨u, rest, stopped⟩ := ended
  exact ⟨u, run.trans rest, stopped⟩

theorem Ends.of_stop {m : Machine S O} {s : S} {o : O} (stopped : m.step s = .inr o) :
    m.Ends s o :=
  ⟨s, Steps.refl s, stopped⟩

theorem Ends.simulate {m : Machine S O} {n : Machine T O} {R : S → T → Prop} {G : O → Prop}
    (next : ∀ s s' t, R s t → m.step s = .inl s' → ∃ t', n.Steps t t' ∧ R s' t')
    (stop : ∀ s t o, R s t → m.step s = .inr o → G o → n.Ends t o)
    {s : S} {t : T} {o : O} (ended : m.Ends s o) (wanted : G o) (related : R s t) :
    n.Ends t o := by
  -- The induction consumes the first machine's run from its front.
  obtain ⟨u, run, stopped⟩ := ended
  induction run using Relation.ReflTransGen.head_induction_on generalizing t with
  | refl => exact stop _ _ _ related stopped wanted
  | head moved _ ih =>
    obtain ⟨t', answered, related'⟩ := next _ _ _ related moved
    exact Ends.of_steps answered (ih related')

end Machine

end Machines

end Nytrix.Lib
