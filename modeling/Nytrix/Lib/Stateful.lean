import Mathlib.Order.Defs.Unbundled
import Mathlib.Tactic.Common

/-! Computations that carry a state: those that may fail, and those that write a log. -/

namespace Nytrix.Lib

variable {σ ε α β : Type}

theorem bind_ok_iff {x : StateT σ (Except ε) α} {f : α → StateT σ (Except ε) β} {s : σ}
    {r : β × σ} : (x >>= f) s = .ok r ↔ ∃ a t, x s = .ok (a, t) ∧ f a t = .ok r := by
  -- The sequence looks only at the outcome of its first part.
  cases outcome : x s with
  | error err => simp [bind, StateT.bind, Except.bind, outcome]
  | ok result =>
    obtain ⟨a, t⟩ := result
    simp only [bind, StateT.bind, Except.bind, outcome, Except.ok.injEq, Prod.mk.injEq]
    constructor
    · intro rest
      exact ⟨a, t, ⟨rfl, rfl⟩, rest⟩
    · intro ⟨_, _, ⟨rfl, rfl⟩, rest⟩
      exact rest

theorem bind_eq_ok_iff {x : Except ε α} {f : α → Except ε β} {r : β} :
    x >>= f = .ok r ↔ ∃ a, x = .ok a ∧ f a = .ok r := by
  constructor
  · intro done
    match x, done with
    | .ok a, done => exact ⟨a, rfl, done⟩
  · rintro ⟨a, rfl, done⟩
    exact done

theorem pure_eq_ok_iff {a r : α} : (pure a : Except ε α) = .ok r ↔ a = r :=
  ⟨Except.ok.inj, congrArg _⟩

theorem pure_ok_iff {a : α} {s : σ} {r : α × σ} :
    (pure a : StateT σ (Except ε) α) s = .ok r ↔ (a, s) = r :=
  ⟨Except.ok.inj, congrArg _⟩

theorem get_ok_iff {s : σ} {r : σ × σ} :
    (get : StateT σ (Except ε) σ) s = .ok r ↔ (s, s) = r := by
  simp [get, getThe, MonadStateOf.get, StateT.get, pure, Except.pure]

theorem modify_ok_iff {f : σ → σ} {s : σ} {r : Unit × σ} :
    (modify f : StateT σ (Except ε) Unit) s = .ok r ↔ ((), f s) = r := by
  simp [modify, modifyGet, MonadStateOf.modifyGet, StateT.modifyGet, pure, Except.pure]

/-- Every success of a computation relates the states before and after it. -/
def Keeps (R : σ → σ → Prop) (x : StateT σ (Except ε) α) : Prop :=
  ∀ s a t, x s = .ok (a, t) → R s t

section Rules

variable {R : σ → σ → Prop}

theorem Keeps.pure [Std.Refl R] (a : α) : Keeps R (pure a : StateT σ (Except ε) α) := by
  intro s b t done
  obtain ⟨-, rfl⟩ := Prod.mk.inj (pure_ok_iff.mp done)
  exact Std.Refl.refl s

theorem Keeps.bind [IsTrans σ R] {x : StateT σ (Except ε) α} {f : α → StateT σ (Except ε) β}
    (first : Keeps R x) (rest : ∀ a, Keeps R (f a)) : Keeps R (x >>= f) := by
  intro s b u done
  obtain ⟨a, t, started, finished⟩ := bind_ok_iff.mp done
  exact IsTrans.trans _ _ _ (first s a t started) (rest a t b u finished)

theorem Keeps.get [Std.Refl R] : Keeps R (get : StateT σ (Except ε) σ) := by
  intro s a t done
  obtain ⟨-, rfl⟩ := Prod.mk.inj (get_ok_iff.mp done)
  exact Std.Refl.refl s

theorem Keeps.error (err : ε) :
    Keeps R (fun _ => .error err : StateT σ (Except ε) α) := by
  intro s a t done
  cases done

theorem Keeps.ite {c : Prop} [Decidable c] {x y : StateT σ (Except ε) α} (yes : Keeps R x)
    (no : Keeps R y) : Keeps R (if c then x else y) := by
  split
  · exact yes
  · exact no

end Rules

section Logs

variable {ε' : Type}

/-- A computation on a state that also writes entries of a log. -/
def Logged (σ ε α : Type) : Type := σ → α × σ × List ε

namespace Logged

/-- The log of a sequence is that of its parts, one behind the other. -/
instance : Monad (Logged σ ε) where
  pure value := fun s => (value, s, [])
  bind first next := fun s =>
    let (value, t, early) := first s
    let (result, u, late) := next value t
    (result, u, early ++ late)

/-- Reads something off the state. -/
def reads (view : σ → α) : Logged σ ε α := fun s => (view s, s, [])

/-- Changes the state and returns something. -/
def acts (change : σ → α × σ) : Logged σ ε α := fun s => ((change s).1, (change s).2, [])

/-- Writes an entry. -/
def notes (entry : ε) : Logged σ ε Unit := fun s => ((), s, [entry])

/-- The same computation with other entries in place of each entry. -/
def relabelled (label : ε → List ε') (run : Logged σ ε α) : Logged σ ε' α := fun s =>
  ((run s).1, (run s).2.1, (run s).2.2.flatMap label)

/-- Whether every entry has a property, from whatever state the computation starts. -/
structure Always (holds : ε → Prop) (run : Logged σ ε α) : Prop where
  each : ∀ s, ∀ entry ∈ (run s).2.2, holds entry

/-- Whether what is returned has a property, from whatever state the computation starts. -/
structure Returns (right : α → Prop) (run : Logged σ ε α) : Prop where
  each : ∀ s, right (run s).1

variable {holds holds' : ε → Prop}

theorem always_pure (value : α) : Always holds (pure value : Logged σ ε α) :=
  ⟨fun _ _ member => absurd member List.not_mem_nil⟩

theorem always_reads (view : σ → α) : Always holds (reads view : Logged σ ε α) :=
  ⟨fun _ _ member => absurd member List.not_mem_nil⟩

theorem always_acts (change : σ → α × σ) : Always holds (acts change : Logged σ ε α) :=
  ⟨fun _ _ member => absurd member List.not_mem_nil⟩

theorem always_notes {entry : ε} (right : holds entry) :
    Always holds (notes entry : Logged σ ε Unit) :=
  ⟨fun _ _ member => List.mem_singleton.mp member ▸ right⟩

theorem Always.bind {first : Logged σ ε α} {next : α → Logged σ ε β}
    (early : Always holds first) (late : ∀ value, Always holds (next value)) :
    Always holds (first >>= next) := by
  constructor
  intro s entry member
  -- The entry is one of the first part or one of the second.
  rcases List.mem_append.mp member with before | after
  · exact early.each s entry before
  · exact (late _).each _ entry after

theorem Always.bind_returns {first : Logged σ ε α} {next : α → Logged σ ε β} {right : α → Prop}
    (early : Always holds first) (given : Returns right first)
    (late : ∀ value, right value → Always holds (next value)) :
    Always holds (first >>= next) := by
  constructor
  intro s entry member
  rcases List.mem_append.mp member with before | after
  · exact early.each s entry before
  · exact (late _ (given.each s)).each _ entry after

theorem Always.map {run : Logged σ ε α} (right : Always holds run) (f : α → β) :
    Always holds (f <$> run) :=
  right.bind fun value => always_pure (f value)

theorem Always.ite {condition : Prop} [Decidable condition] {yes no : Logged σ ε α}
    (then_ : condition → Always holds yes) (else_ : ¬condition → Always holds no) :
    Always holds (if condition then yes else no) := by
  split
  · next taken => exact then_ taken
  · next missed => exact else_ missed

theorem Always.relabelled {run : Logged σ ε α} {label : ε → List ε'} {holds : ε → Prop}
    {holds' : ε' → Prop} (right : Always holds run)
    (labels : ∀ entry, holds entry → ∀ other ∈ label entry, holds' other) :
    Always holds' (run.relabelled label) := by
  constructor
  intro s other member
  obtain ⟨entry, written, among⟩ := List.mem_flatMap.mp member
  exact labels entry (right.each s entry written) other among

theorem always_foldlM {round : β → α → Logged σ ε β} {items : List α}
    (each : ∀ value, ∀ item ∈ items, Always holds (round value item)) (value : β) :
    Always holds (items.foldlM round value) := by
  -- Induction on the items, one round for each.
  induction items generalizing value with
  | nil => exact always_pure value
  | cons item items ih =>
    rw [List.foldlM_cons]
    apply Always.bind (each value item List.mem_cons_self)
    intro next
    exact ih (fun value other among => each value other (List.mem_cons_of_mem item among)) next

theorem always_firstM {trial : α → Logged σ ε (Option β)} {items : List α}
    (each : ∀ item ∈ items, Always holds (trial item)) :
    Always holds (items.findSomeM? trial) := by
  induction items with
  | nil => exact always_pure none
  | cons item items ih =>
    rw [List.findSomeM?]
    apply Always.bind (each item List.mem_cons_self)
    intro found
    cases found with
    | some result => exact always_pure (some result)
    | none => exact ih fun other among => each other (List.mem_cons_of_mem item among)

theorem returns_pure {right : α → Prop} {value : α} (proper : right value) :
    Returns right (pure value : Logged σ ε α) :=
  ⟨fun _ => proper⟩

theorem returns_bind {right : β → Prop} {first : Logged σ ε α} {next : α → Logged σ ε β}
    (late : ∀ value, Returns right (next value)) : Returns right (first >>= next) :=
  ⟨fun s => (late (first s).1).each (first s).2.1⟩

theorem returns_firstM {right : Option β → Prop} {trial : α → Logged σ ε (Option β)}
    (nothing : right none) (each : ∀ item, Returns right (trial item)) (items : List α) :
    Returns right (items.findSomeM? trial) := by
  induction items with
  | nil => exact returns_pure nothing
  | cons item items ih =>
    constructor
    intro s
    rw [List.findSomeM?]
    have tried := (each item).each s
    cases found : (trial item s).1 with
    | some result =>
      -- The first trial is the last one.
      rw [found] at tried
      simpa only [bind, found, pure] using tried
    | none => simpa only [bind, found] using ih.each (trial item s).2.1

end Logged

end Logs

end Nytrix.Lib
