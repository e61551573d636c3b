import Mathlib.Data.List.Infix
import Mathlib.Logic.Function.Basic

/-! Deferred calls and panic environments: their stacks, and the order in which calls are run. -/

namespace Nytrix.Rt.Defers

section Machine

/-- A deferred call; one without a function is taken off and does nothing. -/
structure Entry where
  id : Nat
  callable : Bool
  deriving DecidableEq

/-- A panic environment: its jump buffer, and the number of entries when it was installed. -/
structure Env where
  id : Nat
  base : Nat
  deriving DecidableEq

/-- What waits for a deferred function to return. -/
inductive Frame where
  | popping
  | draining (target : Nat)
  | unwinding (env : Env)
  deriving DecidableEq

/-- What happens in a run. -/
inductive Event where
  | pushed (e : Entry)
  | ran (e : Entry)
  | installed (env : Nat)
  | handled (env : Nat)
  deriving DecidableEq

/--
The stacks of entries and of environments, with the last ones first.

With them go the calls that wait for the code which is running, those that each jump buffer leads
back to, the numbers of entries and buffers so far, and what has happened, the latest first.
-/
structure State where
  defers : List Entry
  envs : List Env
  frames : List Frame
  buffers : Nat → List Frame
  pushes : Nat
  installs : Nat
  trace : List Event

/-- The state before the first call. -/
def State.start : State := ⟨[], [], [], fun _ => [], 0, 0, []⟩

/-- What the running code may do. -/
inductive Action where
  | push (callable : Bool)
  | popRun
  | runTo (target : BitVec 64)
  | install
  | clear
  | panic
  | finish
  deriving DecidableEq

/-- Takes the last entry off the stack to run it. -/
def State.take (s : State) (e : Entry) (rest : List Entry) : State :=
  { s with defers := rest, trace := .ran e :: s.trace }

/-- Calls a function, for which a call waits. -/
def State.enter (s : State) (frame : Frame) : State := { s with frames := frame :: s.frames }

/-- Puts a deferred call on the stack. -/
def rtPushDefer (s : State) (callable : Bool) : State :=
  let e : Entry := ⟨s.pushes, callable⟩
  { s with defers := e :: s.defers, pushes := s.pushes + 1, trace := .pushed e :: s.trace }

/-- Runs the last deferred call. -/
def rtPopRunDefer (s : State) : State :=
  match s.defers with
  | [] => s
  | e :: rest => if e.callable then (s.take e rest).enter .popping else s.take e rest

/-- Takes entries until so many are left, or until one has a function to run. -/
def drain (target : Nat) : List Entry → State → State × Bool
  | [], s => (s, false)
  | e :: rest, s =>
    if rest.length < target then (s, false)
    else if e.callable then (s.take e rest, true)
    else drain target rest (s.take e rest)

/-- Runs deferred calls until so many are left. -/
def runDefersTo (s : State) (target : Nat) : State :=
  match drain target s.defers s with
  | (s, true) => s.enter (.draining target)
  | (s, false) => s

/-- The number of entries that a word asks to leave. -/
def targetLen (target : BitVec 64) : Nat :=
  (if target &&& 1 ≠ 0 then target.sshiftRight 1 else target).toNat

/-- Installs a panic environment in the running code. -/
def rtSetPanicEnv (s : State) : State :=
  { s with
    envs := ⟨s.installs, s.defers.length⟩ :: s.envs
    buffers := Function.update s.buffers s.installs s.frames
    installs := s.installs + 1
    trace := .installed s.installs :: s.trace }

/-- Takes the last panic environment off the stack. -/
def rtClearPanicEnv (s : State) : State := { s with envs := s.envs.tail }

/-- Jumps to a handler, which is only defined while the code that installed it is waiting. -/
def jump (s : State) (env : Env) : Option State :=
  if s.buffers env.id <:+ s.frames then
    some { s with frames := s.buffers env.id, trace := .handled env.id :: s.trace }
  else none

/-- Runs the deferred calls above an environment, and jumps to its handler. -/
def unwind (s : State) (env : Env) : Option State :=
  match drain env.base s.defers s with
  | (s, true) => some (s.enter (.unwinding env))
  | (s, false) => jump s env

/-- Panics; without an environment the process ends. -/
def rtPanic (s : State) : Option State :=
  match s.envs with
  | [] => none
  | env :: _ => unwind s env

/-- Returns from the running code to the call that waits for it; there is none for the program. -/
def finishCall (s : State) : Option State :=
  match s.frames with
  | [] => none
  | .popping :: below => some { s with frames := below }
  | .draining target :: below => some (runDefersTo { s with frames := below } target)
  | .unwinding env :: below => unwind { s with frames := below } env

/-- What the running code does next. -/
def step (s : State) : Action → Option State
  | .push callable => some (rtPushDefer s callable)
  | .popRun => some (rtPopRunDefer s)
  | .runTo target => some (runDefersTo s (targetLen target))
  | .install => some (rtSetPanicEnv s)
  | .clear => some (rtClearPanicEnv s)
  | .panic => rtPanic s
  | .finish => finishCall s

/-- The states that are reached by actions which are allowed. -/
inductive Reached (allowed : State → Action → Prop) : State → Prop where
  | start : Reached allowed .start
  | step {s s' : State} {a : Action} (reached : Reached allowed s) (may : allowed s a)
    (done : step s a = some s') : Reached allowed s'

end Machine

section Orders

/--
Every entry is run at most once, and after all that are pushed behind it.

Those are the entries that are pushed after it and before it is run.
-/
def InOrder (trace : List Event) : Prop :=
  ∀ after e before, trace = after ++ .ran e :: before →
    .ran e ∉ before ∧ ∃ mid earlier, before = mid ++ .pushed e :: earlier ∧
      ∀ e', .pushed e' ∈ mid → .ran e' ∈ mid

/--
A handler finds run what is pushed since its environment was installed.

No entry that is pushed before has been run since then.
-/
def Unwound (trace : List Event) : Prop :=
  ∀ after env before, trace = after ++ .handled env :: before →
    ∃ mid earlier, before = mid ++ .installed env :: earlier ∧
      (∀ e, .pushed e ∈ mid → .ran e ∈ mid) ∧ ∀ e, .pushed e ∈ earlier → .ran e ∉ mid

/--
The code clears and leaves behind only what it has installed, and pops nothing below it.

That is, an environment is cleared by the code that installed it, which does so before it returns,
and no entry is taken that was there when the last environment was installed.
-/
def Bracketed (s : State) : Action → Prop
  | .popRun => ∀ env ∈ s.envs.head?, s.defers = [] ∨ env.base < s.defers.length
  | .runTo target => ∀ env ∈ s.envs.head?, env.base ≤ targetLen target
  | .clear => ∀ env ∈ s.envs.head?, s.buffers env.id = s.frames
  | .finish => ∀ env ∈ s.envs.head?, s.buffers env.id ≠ s.frames
  | _ => True

end Orders

section Marks

variable {trace : List Event} {mark : Event} {upper : List Entry} {e : Entry}

/--
What is pushed since a mark is on the stack in these upper entries, or has been run since.

The upper entries are pushed after the mark, and so is everything that has been run since.
-/
def Above (trace : List Event) (mark : Event) (upper : List Entry) : Prop :=
  ∃ mid earlier, trace = mid ++ mark :: earlier ∧
    (∀ e, .pushed e ∈ mid → e ∈ upper ∨ .ran e ∈ mid) ∧
    (∀ e ∈ upper, .pushed e ∉ earlier) ∧ ∀ e, .pushed e ∈ earlier → .ran e ∉ mid

theorem Above.start (mark : Event) (trace : List Event) : Above (mark :: trace) mark [] :=
  ⟨[], trace, rfl, nofun, nofun, nofun⟩

theorem Above.push (above : Above trace mark upper) (fresh : .pushed e ∉ trace) :
    Above (.pushed e :: trace) mark (e :: upper) := by
  obtain ⟨mid, earlier, rfl, there, later, kept⟩ := above
  refine ⟨.pushed e :: mid, earlier, rfl, fun d among => ?_, fun d among => ?_, fun d pushed => ?_⟩
  · rcases List.mem_cons.mp among with same | among
    · cases same
      exact .inl List.mem_cons_self
    · exact (there d among).imp (List.mem_cons_of_mem e) (List.mem_cons_of_mem _)
  · rcases List.mem_cons.mp among with rfl | among
    · intro before
      exact fresh (List.mem_append_right _ (List.mem_cons_of_mem _ before))
    · exact later d among
  · intro ran
    rcases List.mem_cons.mp ran with same | ran
    · cases same
    · exact kept d pushed ran

theorem Above.take (above : Above trace mark (e :: upper)) :
    Above (.ran e :: trace) mark upper := by
  obtain ⟨mid, earlier, rfl, there, later, kept⟩ := above
  refine ⟨.ran e :: mid, earlier, rfl, fun d among => ?_,
    fun d among => later d (List.mem_cons_of_mem e among), fun d pushed ran => ?_⟩
  · rcases List.mem_cons.mp among with same | among
    · cases same
    · rcases there d among with upper | ran
      · rcases List.mem_cons.mp upper with rfl | upper
        · exact .inr List.mem_cons_self
        · exact .inl upper
      · exact .inr (List.mem_cons_of_mem _ ran)
  · rcases List.mem_cons.mp ran with same | ran
    · cases same
      exact later e List.mem_cons_self pushed
    · exact kept d pushed ran

theorem Above.other {event : Event} (above : Above trace mark upper)
    (no_push : ∀ e, event ≠ .pushed e) (no_run : ∀ e, event ≠ .ran e) :
    Above (event :: trace) mark upper := by
  obtain ⟨mid, earlier, rfl, there, later, kept⟩ := above
  refine ⟨event :: mid, earlier, rfl, fun d among => ?_, later, fun d pushed ran => ?_⟩
  · rcases List.mem_cons.mp among with same | among
    · exact absurd same.symm (no_push d)
    · exact (there d among).imp_right (List.mem_cons_of_mem _)
  · rcases List.mem_cons.mp ran with same | ran
    · exact absurd same.symm (no_run d)
    · exact kept d pushed ran

theorem Above.mem (above : Above trace mark upper) : mark ∈ trace := by
  obtain ⟨mid, earlier, rfl, -⟩ := above
  exact List.mem_append_right _ List.mem_cons_self

end Marks

section Books

variable {s s' : State} {e : Entry} {rest : List Entry} {a : Action}

/-- What holds of the stack of entries and the trace in every run. -/
structure Booked (s : State) : Prop where
  fresh : ∀ e, .pushed e ∈ s.trace → e.id < s.pushes
  nodup : s.defers.Nodup
  entries : ∀ above e below, s.defers = above ++ e :: below →
    Above s.trace (.pushed e) above ∧ .ran e ∉ s.trace
  order : InOrder s.trace

theorem InOrder.cons {trace : List Event} {event : Event} (order : InOrder trace)
    (no_run : ∀ e, event ≠ .ran e) : InOrder (event :: trace) := by
  intro after e before split
  cases after with
  | nil => exact absurd (List.cons.inj split).1 (no_run e)
  | cons x after => exact order after e before (List.cons.inj split).2

theorem Booked.pushed (booked : Booked s) (there : e ∈ s.defers) : .pushed e ∈ s.trace := by
  obtain ⟨above, below, whole⟩ := List.append_of_mem there
  exact (booked.entries above e below whole).1.mem

theorem Booked.push (booked : Booked s) (callable : Bool) : Booked (rtPushDefer s callable) := by
  have new : .pushed ⟨s.pushes, callable⟩ ∉ s.trace := fun old =>
    Nat.lt_irrefl _ (booked.fresh _ old)
  refine ⟨fun d among => ?_, ?_, fun above d below whole => ?_, booked.order.cons nofun⟩
  · rcases List.mem_cons.mp among with same | among
    · cases same
      exact Nat.lt_succ_self _
    · exact Nat.lt_succ_of_lt (booked.fresh d among)
  · exact List.nodup_cons.mpr ⟨fun there => new (booked.pushed there), booked.nodup⟩
  · cases above with
    | nil =>
      obtain ⟨rfl, rfl⟩ := List.cons.inj whole
      refine ⟨.start _ _, fun ran => ?_⟩
      -- An entry that has been run has been pushed before, and this one is new.
      rcases List.mem_cons.mp ran with same | ran
      · cases same
      · obtain ⟨after, before, split⟩ := List.append_of_mem ran
        obtain ⟨-, mid, earlier, rfl, -⟩ := booked.order after _ before split
        exact new (split ▸ by simp)
    | cons x above =>
      obtain ⟨rfl, behind⟩ := List.cons.inj whole
      obtain ⟨there, waiting⟩ := booked.entries above d below behind
      refine ⟨there.push new, fun ran => ?_⟩
      rcases List.mem_cons.mp ran with same | ran
      · cases same
      · exact waiting ran

theorem Booked.take (booked : Booked s) (top : s.defers = e :: rest) : Booked (s.take e rest) := by
  obtain ⟨first, waiting⟩ := booked.entries [] e rest top
  have distinct := booked.nodup
  rw [top, List.nodup_cons] at distinct
  refine ⟨fun d among => ?_, distinct.2, fun above d below whole => ?_,
    fun after d before split => ?_⟩
  · rcases List.mem_cons.mp among with same | among
    · cases same
    · exact booked.fresh d among
  · have whole : rest = above ++ d :: below := whole
    obtain ⟨there, other⟩ := booked.entries (e :: above) d below (by rw [top, whole]; rfl)
    refine ⟨there.take, fun ran => ?_⟩
    rcases List.mem_cons.mp ran with same | ran
    · cases same
      exact distinct.1 (by rw [whole]; simp)
    · exact other ran
  · cases after with
    | nil =>
      obtain ⟨same, rfl⟩ := List.cons.inj split
      cases same
      obtain ⟨mid, earlier, before, there, -, -⟩ := first
      exact ⟨waiting, mid, earlier, before, fun d pushed => (there d pushed).resolve_left nofun⟩
    | cons x after => exact booked.order after d before (List.cons.inj split).2

theorem Booked.other (booked : Booked s) (event : Event) (no_push : ∀ e, event ≠ .pushed e)
    (no_run : ∀ e, event ≠ .ran e) (same : s'.defers = s.defers) (count : s'.pushes = s.pushes)
    (more : s'.trace = event :: s.trace) : Booked s' := by
  refine ⟨fun d among => ?_, same ▸ booked.nodup, fun above d below whole => ?_, ?_⟩
  · rw [more] at among
    rcases List.mem_cons.mp among with event | among
    · exact absurd event.symm (no_push d)
    · rw [count]
      exact booked.fresh d among
  · rw [same] at whole
    obtain ⟨there, waiting⟩ := booked.entries above d below whole
    rw [more]
    refine ⟨there.other no_push no_run, fun ran => ?_⟩
    rcases List.mem_cons.mp ran with event | ran
    · exact absurd event.symm (no_run d)
    · exact waiting ran
  · rw [more]
    exact booked.order.cons no_run

theorem Booked.same (booked : Booked s) (defers : s'.defers = s.defers)
    (pushes : s'.pushes = s.pushes) (trace : s'.trace = s.trace) : Booked s' := by
  refine ⟨?_, ?_, ?_, ?_⟩
  · rw [trace, pushes]
    exact booked.fresh
  · rw [defers]
    exact booked.nodup
  · rw [defers, trace]
    exact booked.entries
  · rw [trace]
    exact booked.order

theorem drain_keeps {P : State → Prop} {target : Nat} (s : State)
    (takes : ∀ s e rest, P s → s.defers = e :: rest → target < s.defers.length → P (s.take e rest))
    (start : P s) :
    P (drain target s.defers s).1 ∧
      ((drain target s.defers s).2 = false →
        (drain target s.defers s).1.defers.length ≤ target) := by
  generalize entries : s.defers = l
  induction l generalizing s with
  | nil => exact ⟨start, fun _ => by rw [drain, entries]; exact Nat.zero_le _⟩
  | cons e rest ih =>
    rw [drain]
    split
    · next few =>
      refine ⟨start, fun _ => ?_⟩
      rw [entries]
      exact few
    · next more =>
      have next := takes s e rest start entries (by rw [entries, List.length_cons]; omega)
      split
      · exact ⟨next, nofun⟩
      · exact ih (s.take e rest) next rfl

theorem drain_frames (target : Nat) (s : State) (l : List Entry) :
    (drain target l s).1.frames = s.frames ∧ (drain target l s).1.envs = s.envs ∧
      (drain target l s).1.buffers = s.buffers ∧ (drain target l s).1.installs = s.installs := by
  induction l generalizing s with
  | nil => exact ⟨rfl, rfl, rfl, rfl⟩
  | cons e rest ih =>
    rw [drain]
    split
    · exact ⟨rfl, rfl, rfl, rfl⟩
    · split
      · exact ⟨rfl, rfl, rfl, rfl⟩
      · exact ih (s.take e rest)

theorem Booked.drain (booked : Booked s) (target : Nat) :
    Booked (Defers.drain target s.defers s).1 :=
  (drain_keeps s (fun _ _ _ booked top _ => booked.take top) booked).1

theorem Booked.runDefersTo (booked : Booked s) (target : Nat) :
    Booked (Defers.runDefersTo s target) := by
  have kept := booked.drain target
  unfold Defers.runDefersTo
  split
  · next after drained =>
    rw [drained] at kept
    exact kept.same rfl rfl rfl
  · next after drained =>
    rw [drained] at kept
    exact kept

theorem Booked.unwind {env : Env} (booked : Booked s) (done : Defers.unwind s env = some s') :
    Booked s' := by
  have kept := booked.drain env.base
  unfold Defers.unwind at done
  split at done
  · next after drained =>
    rw [drained] at kept
    cases done
    exact kept.same rfl rfl rfl
  · next after drained =>
    rw [drained] at kept
    unfold jump at done
    split at done
    · cases done
      exact kept.other (.handled env.id) nofun nofun rfl rfl rfl
    · cases done

theorem Booked.step (booked : Booked s) (done : Defers.step s a = some s') : Booked s' := by
  cases a with
  | push callable =>
    cases done
    exact booked.push callable
  | popRun =>
    cases done
    unfold rtPopRunDefer
    split
    · exact booked
    · next e rest top =>
      split
      · exact (booked.take top).same rfl rfl rfl
      · exact booked.take top
  | runTo target =>
    cases done
    exact booked.runDefersTo _
  | install =>
    cases done
    exact booked.other (.installed s.installs) nofun nofun rfl rfl rfl
  | clear =>
    cases done
    exact booked.same rfl rfl rfl
  | panic =>
    have done : rtPanic s = some s' := done
    unfold rtPanic at done
    split at done
    · cases done
    · exact booked.unwind done
  | finish =>
    have done : finishCall s = some s' := done
    unfold finishCall at done
    split at done
    · cases done
    · cases done
      exact booked.same rfl rfl rfl
    · next target below _ =>
      cases done
      have kept : Booked { s with frames := below } := booked.same rfl rfl rfl
      exact kept.runDefersTo target
    · next env below _ =>
      have kept : Booked { s with frames := below } := booked.same rfl rfl rfl
      exact kept.unwind done

theorem booked_of_reached {allowed : State → Action → Prop} (reached : Reached allowed s) :
    Booked s := by
  induction reached with
  | start =>
    refine ⟨nofun, List.nodup_nil, fun above e below whole => ?_, fun after e before whole => ?_⟩
    · cases above <;> cases whole
    · cases after <;> cases whole
  | step _ _ done ih => exact ih.step done

end Books

section Nesting

variable {s s' : State} {e : Entry} {rest : List Entry} {a : Action}

/-- What a waiting call asks of the environments that were there before it. -/
def Waits (s : State) (below : List Frame) : Frame → Prop
  | .popping => True
  | .draining target => ∀ env ∈ s.envs, s.buffers env.id <:+ below → env.base ≤ target
  | .unwinding env => env ∈ s.envs ∧ s.buffers env.id <:+ below ∧
      ∀ other ∈ s.envs, s.buffers other.id <:+ below →
        other.base ≤ env.base ∧ s.buffers other.id <:+ s.buffers env.id

/-- What holds in a run whose steps are bracketed. -/
structure Nested (s : State) : Prop where
  booked : Booked s
  numbered : ∀ env ∈ s.envs, env.id < s.installs
  since : ∀ env ∈ s.envs, env.base ≤ s.defers.length ∧
    Above s.trace (.installed env.id) (s.defers.take (s.defers.length - env.base))
  sorted : s.envs.Pairwise fun upper lower =>
    lower.base ≤ upper.base ∧ s.buffers lower.id <:+ s.buffers upper.id
  inside : ∀ env ∈ s.envs, s.buffers env.id <:+ s.frames
  waiting : ∀ above f below, s.frames = above ++ f :: below → Waits s below f
  unwound : Unwound s.trace

theorem Unwound.cons {trace : List Event} {event : Event} (unwound : Unwound trace)
    (no_jump : ∀ env, event ≠ .handled env) : Unwound (event :: trace) := by
  intro after env before split
  cases after with
  | nil => exact absurd (List.cons.inj split).1 (no_jump env)
  | cons x after => exact unwound after env before (List.cons.inj split).2

theorem Nested.top (nested : Nested s) {top : Env} (last : s.envs.head? = some top) :
    ∀ env ∈ s.envs, env.base ≤ top.base ∧ s.buffers env.id <:+ s.buffers top.id := by
  intro env there
  obtain ⟨others, whole⟩ := List.head?_eq_some_iff.mp last
  have sorted := nested.sorted
  rw [whole, List.pairwise_cons] at sorted
  rw [whole, List.mem_cons] at there
  rcases there with rfl | there
  · exact ⟨Nat.le_refl _, List.suffix_rfl⟩
  · exact sorted.1 env there

theorem Nested.push (nested : Nested s) (callable : Bool) : Nested (rtPushDefer s callable) := by
  have new : .pushed ⟨s.pushes, callable⟩ ∉ s.trace := fun old =>
    Nat.lt_irrefl _ (nested.booked.fresh _ old)
  refine ⟨nested.booked.push callable, nested.numbered, fun env there => ?_, nested.sorted,
    nested.inside, nested.waiting, nested.unwound.cons nofun⟩
  obtain ⟨low, above⟩ := nested.since env there
  have more : s.defers.length + 1 - env.base = s.defers.length - env.base + 1 := by omega
  refine ⟨Nat.le_succ_of_le low, ?_⟩
  rw [show (rtPushDefer s callable).defers = ⟨s.pushes, callable⟩ :: s.defers from rfl,
    List.length_cons, more, List.take_succ_cons]
  exact above.push new

theorem Nested.take (nested : Nested s) (top : s.defers = e :: rest)
    (high : ∀ env ∈ s.envs, env.base < s.defers.length) : Nested (s.take e rest) := by
  refine ⟨nested.booked.take top, nested.numbered, fun env there => ?_, nested.sorted,
    nested.inside, nested.waiting, nested.unwound.cons nofun⟩
  have low := high env there
  obtain ⟨-, above⟩ := nested.since env there
  rw [top, List.length_cons] at low
  have more : rest.length + 1 - env.base = rest.length - env.base + 1 := by omega
  rw [top, List.length_cons, more, List.take_succ_cons] at above
  exact ⟨Nat.le_of_lt_succ low, above.take⟩

theorem Nested.enter (nested : Nested s) {frame : Frame} (waits : Waits s s.frames frame) :
    Nested (s.enter frame) := by
  refine ⟨nested.booked.same rfl rfl rfl, nested.numbered, nested.since, nested.sorted,
    fun env there => (nested.inside env there).trans (List.suffix_cons ..),
    fun above f below whole => ?_, nested.unwound⟩
  cases above with
  | nil =>
    obtain ⟨rfl, rfl⟩ := List.cons.inj whole
    exact waits
  | cons x above => exact nested.waiting above f below (List.cons.inj whole).2

theorem Nested.drain (nested : Nested s) {target : Nat} (high : ∀ env ∈ s.envs, env.base ≤ target) :
    Nested (Defers.drain target s.defers s).1 ∧
      ((Defers.drain target s.defers s).2 = false →
        (Defers.drain target s.defers s).1.defers.length ≤ target) := by
  have kept := drain_keeps (P := fun t => Nested t ∧ ∀ env ∈ t.envs, env.base ≤ target) s
    (fun t d below holds top more =>
      ⟨holds.1.take top fun env there => Nat.lt_of_le_of_lt (holds.2 env there) more, holds.2⟩)
    ⟨nested, high⟩
  exact ⟨kept.1.1, kept.2⟩

theorem Waits.same {below : List Frame} {frame : Frame} (waits : Waits s below frame)
    (envs : s'.envs = s.envs) (buffers : s'.buffers = s.buffers) : Waits s' below frame := by
  cases frame with
  | popping => trivial
  | draining target =>
    unfold Waits
    rw [envs, buffers]
    exact waits
  | unwinding env =>
    unfold Waits
    rw [envs, buffers]
    exact waits

theorem Nested.runDefersTo (nested : Nested s) {target : Nat}
    (waits : Waits s s.frames (.draining target)) : Nested (Defers.runDefersTo s target) := by
  have kept := (nested.drain fun env there => waits env there (nested.inside env there)).1
  obtain ⟨frames, envs, buffers, -⟩ := drain_frames target s s.defers
  unfold Defers.runDefersTo
  split
  · next after drained =>
    rw [drained] at kept frames envs buffers
    exact kept.enter (frames ▸ waits.same envs buffers)
  · next after drained =>
    rw [drained] at kept
    exact kept

theorem Nested.jump (nested : Nested s) {env : Env} (waits : Waits s s.frames (.unwinding env))
    (few : s.defers.length ≤ env.base) (done : Defers.jump s env = some s') : Nested s' := by
  obtain ⟨there, -, others⟩ := waits
  unfold Defers.jump at done
  split at done
  · next suffix =>
    cases done
    refine ⟨nested.booked.other (.handled env.id) nofun nofun rfl rfl rfl, nested.numbered,
      fun other among => ?_, nested.sorted,
      fun other among => (others other among (nested.inside other among)).2,
      fun above f below whole => ?_, ?_⟩
    · obtain ⟨low, above⟩ := nested.since other among
      exact ⟨low, above.other nofun nofun⟩
    · obtain ⟨left, outer⟩ := suffix
      have whole : s.buffers env.id = above ++ f :: below := whole
      exact nested.waiting (left ++ above) f below (by rw [← outer, whole, List.append_assoc])
    · -- The entries above the environment are those that are left, and there are none.
      intro after other before split
      cases after with
      | nil =>
        obtain ⟨same, rfl⟩ := List.cons.inj split
        cases same
        obtain ⟨-, above⟩ := nested.since env there
        rw [Nat.sub_eq_zero_of_le few, List.take_zero] at above
        obtain ⟨mid, earlier, whole, run, -, kept⟩ := above
        exact ⟨mid, earlier, whole, fun d pushed => (run d pushed).resolve_left nofun, kept⟩
      | cons x after => exact nested.unwound after other before (List.cons.inj split).2
  · cases done

theorem Nested.unwind (nested : Nested s) {env : Env} (waits : Waits s s.frames (.unwinding env))
    (done : Defers.unwind s env = some s') : Nested s' := by
  obtain ⟨kept, few⟩ := nested.drain fun other among =>
    (waits.2.2 other among (nested.inside other among)).1
  obtain ⟨frames, envs, buffers, -⟩ := drain_frames env.base s s.defers
  have waits' := waits.same envs buffers
  rw [← frames] at waits'
  unfold Defers.unwind at done
  split at done
  · next after drained =>
    rw [drained] at kept waits'
    cases done
    exact kept.enter waits'
  · next after drained =>
    rw [drained] at kept waits' few
    exact kept.jump waits' (few rfl) done

theorem Nested.install (nested : Nested s) : Nested (rtSetPanicEnv s) := by
  have old {env : Env} (there : env ∈ s.envs) :
      (rtSetPanicEnv s).buffers env.id = s.buffers env.id :=
    Function.update_of_ne (Nat.ne_of_lt (nested.numbered env there)) ..
  have new : (rtSetPanicEnv s).buffers s.installs = s.frames := Function.update_self ..
  refine ⟨nested.booked.other (.installed s.installs) nofun nofun rfl rfl rfl,
    fun env there => ?_, fun env there => ?_, ?_, fun env there => ?_,
    fun above f below whole => ?_, nested.unwound.cons nofun⟩
  · rcases List.mem_cons.mp there with rfl | there
    · exact Nat.lt_succ_self _
    · exact Nat.lt_succ_of_lt (nested.numbered env there)
  · rcases List.mem_cons.mp there with rfl | there
    · refine ⟨Nat.le_refl _, ?_⟩
      rw [show (rtSetPanicEnv s).defers = s.defers from rfl, Nat.sub_self, List.take_zero]
      exact .start _ _
    · obtain ⟨low, above⟩ := nested.since env there
      exact ⟨low, above.other nofun nofun⟩
  · refine List.pairwise_cons.mpr ⟨fun env there => ?_, ?_⟩
    · rw [old there, new]
      exact ⟨(nested.since env there).1, nested.inside env there⟩
    · refine nested.sorted.imp_of_mem fun {upper lower} upperThere lowerThere ordered => ?_
      rw [old upperThere, old lowerThere]
      exact ordered
  · rcases List.mem_cons.mp there with rfl | there
    · rw [new]
      exact List.suffix_rfl
    · rw [old there]
      exact nested.inside env there
  · have waits := nested.waiting above f below whole
    have whole : s.frames = above ++ f :: below := whole
    have outside : ¬s.frames <:+ below := fun suffix => by
      have le := suffix.length_le
      rw [whole, List.length_append, List.length_cons] at le
      omega
    cases f with
    | popping => trivial
    | draining target =>
      intro env there suffix
      rcases List.mem_cons.mp there with rfl | there
      · exact absurd (new ▸ suffix) outside
      · exact waits env there (old there ▸ suffix)
    | unwinding env =>
      obtain ⟨there, suffix, others⟩ := waits
      refine ⟨List.mem_cons_of_mem _ there, (old there).symm ▸ suffix, fun other among inner => ?_⟩
      rcases List.mem_cons.mp among with rfl | among
      · exact absurd (new ▸ inner) outside
      · rw [old among, old there]
        exact others other among (old among ▸ inner)

theorem Nested.clear (nested : Nested s)
    (own : ∀ env ∈ s.envs.head?, s.buffers env.id = s.frames) : Nested (rtClearPanicEnv s) := by
  have among {env : Env} (there : env ∈ s.envs.tail) : env ∈ s.envs := List.mem_of_mem_tail there
  refine ⟨nested.booked.same rfl rfl rfl, fun env there => nested.numbered env (among there),
    fun env there => nested.since env (among there), nested.sorted.tail,
    fun env there => nested.inside env (among there), fun above f below whole => ?_,
    nested.unwound⟩
  have waits := nested.waiting above f below whole
  have whole : s.frames = above ++ f :: below := whole
  cases f with
  | popping => trivial
  | draining target => exact fun env there => waits env (among there)
  | unwinding env =>
    obtain ⟨there, suffix, others⟩ := waits
    refine ⟨?_, suffix, fun other inner => others other (among inner)⟩
    -- The environment that is cleared belongs to the running code, and this one to code that waits.
    cases envs : s.envs with
    | nil =>
      rw [envs] at there
      cases there
    | cons last rest =>
      rw [envs] at there own
      rcases List.mem_cons.mp there with rfl | there
      · have le := suffix.length_le
        rw [own env rfl, whole, List.length_append, List.length_cons] at le
        omega
      · rw [show (rtClearPanicEnv s).envs = s.envs.tail from rfl, envs]
        exact there

theorem Nested.leave (nested : Nested s) {f : Frame} {below : List Frame}
    (frames : s.frames = f :: below)
    (clean : ∀ env ∈ s.envs.head?, s.buffers env.id ≠ s.frames) :
    Nested { s with frames := below } ∧ Waits { s with frames := below } below f := by
  have inside : ∀ env ∈ s.envs, s.buffers env.id <:+ below := by
    intro env there
    cases last : s.envs.head? with
    | none =>
      rw [List.head?_eq_none_iff.mp last] at there
      cases there
    | some top =>
      have outer := nested.inside top (List.mem_of_head? last)
      rw [frames, List.suffix_cons_iff] at outer
      have strictly := outer.resolve_left (frames ▸ clean top last)
      exact ((nested.top last) env there).2.trans strictly
  refine ⟨⟨nested.booked.same rfl rfl rfl, nested.numbered, nested.since, nested.sorted, inside,
    fun above g lower whole => ?_, nested.unwound⟩, ?_⟩
  · have whole : below = above ++ g :: lower := whole
    exact (nested.waiting (f :: above) g lower (by rw [frames, whole]; rfl)).same rfl rfl
  · exact (nested.waiting [] f below frames).same rfl rfl

/-- A bracketed step keeps the nesting. -/
theorem Nested.step (nested : Nested s) (may : Bracketed s a) (done : Defers.step s a = some s') :
    Nested s' := by
  cases a with
  | push callable =>
    cases done
    exact nested.push callable
  | popRun =>
    cases done
    unfold rtPopRunDefer
    split
    · exact nested
    · next e rest top =>
      have high : ∀ env ∈ s.envs, env.base < s.defers.length := by
        intro env there
        cases last : s.envs.head? with
        | none =>
          rw [List.head?_eq_none_iff.mp last] at there
          cases there
        | some highest =>
          have more := (may highest last).resolve_left (by rw [top]; nofun)
          exact Nat.lt_of_le_of_lt ((nested.top last) env there).1 more
      split
      · exact (nested.take top high).enter trivial
      · exact nested.take top high
  | runTo target =>
    cases done
    refine nested.runDefersTo fun env there _ => ?_
    cases last : s.envs.head? with
    | none =>
      rw [List.head?_eq_none_iff.mp last] at there
      cases there
    | some highest => exact Nat.le_trans ((nested.top last) env there).1 (may highest last)
  | install =>
    cases done
    exact nested.install
  | clear =>
    cases done
    exact nested.clear may
  | panic =>
    have done : rtPanic s = some s' := done
    unfold rtPanic at done
    split at done
    · cases done
    · next env others envs =>
      have last : s.envs.head? = some env := by rw [envs]; rfl
      have there := List.mem_of_head? last
      exact nested.unwind ⟨there, nested.inside env there, fun other among _ =>
        (nested.top last) other among⟩ done
  | finish =>
    have done : finishCall s = some s' := done
    unfold finishCall at done
    split at done
    · cases done
    · next below frames =>
      cases done
      exact (nested.leave frames may).1
    · next target below frames =>
      cases done
      obtain ⟨kept, waits⟩ := nested.leave frames may
      exact kept.runDefersTo waits
    · next env below frames =>
      obtain ⟨kept, waits⟩ := nested.leave frames may
      exact kept.unwind waits done

theorem nested_of_reached (reached : Reached Bracketed s) : Nested s := by
  induction reached with
  | start =>
    refine ⟨booked_of_reached (.start : Reached Bracketed .start), nofun, nofun, .nil, nofun,
      fun above f below whole => ?_, fun after env before whole => ?_⟩
    · cases above <;> cases whole
    · cases after <;> cases whole
  | step _ may done ih => exact ih.step may done

end Nesting

section Runs

/--
Deferred calls are run at most once, and the last one pushed is run first, in every run.

In a run whose steps are bracketed, a handler gets control when everything pushed since its
environment was installed has been run, and nothing that was pushed before.
-/
theorem defers_inOrder (s : State) :
    (Reached (fun _ _ => True) s → InOrder s.trace) ∧
      (Reached Bracketed s → InOrder s.trace ∧ Unwound s.trace) :=
  ⟨fun reached => (booked_of_reached reached).order, fun reached =>
    ⟨(booked_of_reached reached).order, (nested_of_reached reached).unwound⟩⟩

/-- A panic in the body of an environment runs the one call that is pushed there. -/
theorem defers_inOrder_panic :
    ∃ s : State, s.trace = [.handled 0, .ran ⟨1, true⟩, .pushed ⟨1, true⟩, .installed 0,
      .pushed ⟨0, true⟩] ∧ InOrder s.trace ∧ Unwound s.trace := by
  have pushed : Reached Bracketed _ := .step .start (a := .push true) trivial rfl
  have installed : Reached Bracketed _ := pushed.step (a := .install) trivial rfl
  have again : Reached Bracketed _ := installed.step (a := .push true) trivial rfl
  have panicked : Reached Bracketed _ := again.step (a := .panic) trivial rfl
  have returned : Reached Bracketed _ := panicked.step (a := .finish) (by
    intro env last
    cases last
    exact nofun) rfl
  exact ⟨_, rfl, (defers_inOrder _).2 returned⟩

/--
A handler gets control after a call that was pushed before its environment was installed.

The call is run while the environment is still there, as it is on a return from within its body, and
panics.
-/
theorem not_unwound : ¬∀ s, Reached (fun _ _ => True) s → InOrder s.trace ∧ Unwound s.trace := by
  intro all
  have pushed : Reached (fun _ _ => True) _ := .step .start (a := .push true) trivial rfl
  have installed : Reached (fun _ _ => True) _ := pushed.step (a := .install) trivial rfl
  have popped : Reached (fun _ _ => True) _ := installed.step (a := .popRun) trivial rfl
  have panicked : Reached (fun _ _ => True) _ := popped.step (a := .panic) trivial rfl
  obtain ⟨mid, earlier, split, -, kept⟩ := (all _ panicked).2 [] 0 _ rfl
  match mid, split with
  | [.ran e], split =>
    obtain ⟨rfl, rfl⟩ : e = ⟨0, true⟩ ∧ earlier = [.pushed ⟨0, true⟩] := by
      injection split with first rest
      injection first with same
      injection rest with _ rest
      exact ⟨same.symm, rest.symm⟩
    exact kept ⟨0, true⟩ (by decide) (by decide)
  | [], split => cases split
  | _ :: _ :: more, split =>
    have last : [.pushed ⟨0, true⟩] = more ++ .installed 0 :: earlier := by
      injection split with _ rest
      injection rest
    have among : .installed 0 ∈ more ++ .installed 0 :: earlier := by simp
    exact absurd (last ▸ among) (by decide)

end Runs

end Nytrix.Rt.Defers
