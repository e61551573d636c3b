import Nytrix.Parse.Desugar

/-! When the rewritten operators evaluate their operands once and test for nil. -/

namespace Nytrix.Parse.Desugar

open Nytrix.Lib

mutual

/-- No evaluation in the expression is counted under the number. -/
def Expr.lacks (n : Nat) : Expr → Bool
  | .missing | .other _ | .ident _ | .int _ | .nil => true
  | .binary _ left right => left.lacks n && right.lacks n
  | .ternary cond trueExpr falseExpr => cond.lacks n && trueExpr.lacks n && falseExpr.lacks n
  | .call callee args => callee.lacks n && args.lacks n
  | .memcall target _ args => target.lacks n && args.lacks n
  | .index target start stop step =>
    target.lacks n && start.lacks n && stop.lacks n && step.lacks n
  | .member target _ => target.lacks n
  | .deref target => target.lacks n
  | .marked k expr => k != n && expr.lacks n

/-- No evaluation in the arguments is counted under the number. -/
def Args.lacks (n : Nat) : Args → Bool
  | .nil => true
  | .cons _ val rest => val.lacks n && rest.lacks n

end

variable {σ V : Type} (m : Machine σ V)

/-- Whether the event is an evaluation counted under the number. -/
def Event.isOperand (n : Nat) : Event V → Bool
  | .operand k => k == n
  | _ => false

/-- How often an operand was evaluated. -/
def evaluations (n : Nat) (log : List (Event V)) : Nat := log.countP (Event.isOperand n)

namespace Machine

/-- An operator with a fallback, as it should be: the left side once, and then a test for nil. -/
def onceCoalesce [DecidableEq V] (left right : Expr) : Logged σ (Event V) V := do
  let v ← m.eval left
  if v = m.nil then m.eval right else pure v

/-- An optional access, as it should be: the target once, and then a test for nil. -/
def onceMember [DecidableEq V] (target : Expr) (name : String) : Logged σ (Event V) V := do
  let v ← m.eval target
  if v = m.nil then pure m.nil
  else do
    .notes (.member v name)
    .acts (m.member v name)

/-- An optional call, as it should be: the target once, and then a test for nil. -/
def onceMemcall [DecidableEq V] (target : Expr) (name : String) (args : Args) :
    Logged σ (Event V) V := do
  let v ← m.eval target
  if v = m.nil then pure m.nil
  else do
    let vals ← m.evalArgs args
    .notes (.memcall v name vals)
    .acts (m.memcall v name vals)

end Machine

/-- Each of the operands is evaluated exactly once, and that before the last one is. -/
def OnceBefore (operands : List Nat) (last : Nat) (log : List (Event V)) : Prop :=
  ∀ n ∈ operands, evaluations n log = 1 ∧
    evaluations n (log.takeWhile fun event => !event.isOperand last) = 1

section Logs

variable {m} {n : Nat}

theorem bind_apply {ε α β : Type} (first : Logged σ ε α) (next : α → Logged σ ε β) (s : σ) :
    (first >>= next) s =
      ((next (first s).1 (first s).2.1).1, (next (first s).1 (first s).2.1).2.1,
        (first s).2.2 ++ (next (first s).1 (first s).2.1).2.2) := rfl

theorem eval_marked (expr : Expr) (s : σ) :
    m.eval (.marked n expr) s =
      ((m.eval expr s).1, (m.eval expr s).2.1, .operand n :: (m.eval expr s).2.2) := rfl

theorem eval_marked_fst (n : Nat) (expr : Expr) (s : σ) :
    (m.eval (.marked n expr) s).1 = (m.eval expr s).1 := rfl

theorem log_marked_pos (n : Nat) (expr : Expr) (s : σ) :
    0 < (m.eval (.marked n expr) s).2.2.length := Nat.succ_pos _

theorem evaluations_append (early late : List (Event V)) :
    evaluations n (early ++ late) = evaluations n early + evaluations n late :=
  List.countP_append

theorem evaluations_bind {α β : Type} (first : Logged σ (Event V) α)
    (next : α → Logged σ (Event V) β) (s : σ) :
    evaluations n ((first >>= next) s).2.2 =
      evaluations n (first s).2.2 + evaluations n (next (first s).1 (first s).2.1).2.2 :=
  evaluations_append _ _

theorem evaluations_marked (expr : Expr) (s : σ) :
    evaluations n (m.eval (.marked n expr) s).2.2 = evaluations n (m.eval expr s).2.2 + 1 := by
  rw [eval_marked]
  exact List.countP_cons_of_pos (by simp [Event.isOperand])

/-- An event that is counted under another number, or under none. -/
def Uncounted (n : Nat) (event : Event V) : Prop := event.isOperand n = false

theorem always_access {event : Event V} (access : event.isOperand n = false) :
    Logged.Always (Uncounted n) (Logged.notes event : Logged σ (Event V) Unit) :=
  Logged.always_notes access

mutual

theorem always_eval : ∀ expr : Expr, expr.lacks n = true →
    Logged.Always (Uncounted n) (m.eval expr)
  | .missing, _ => Logged.always_pure _
  | .other _, _ => Logged.always_acts _
  | .ident _, _ => Logged.always_acts _
  | .int _, _ => Logged.always_pure _
  | .nil, _ => Logged.always_pure _
  | .binary _ left right, lacks => by
    simp only [Expr.lacks, Bool.and_eq_true] at lacks
    exact (always_eval left lacks.1).bind fun _ =>
      (always_eval right lacks.2).bind fun _ => Logged.always_acts _
  | .ternary cond yes no, lacks => by
    simp only [Expr.lacks, Bool.and_eq_true] at lacks
    exact (always_eval cond lacks.1.1).bind fun _ =>
      Logged.Always.ite (fun _ => always_eval yes lacks.1.2) (fun _ => always_eval no lacks.2)
  | .call callee args, lacks => by
    simp only [Expr.lacks, Bool.and_eq_true] at lacks
    have called := (always_evalArgs args lacks.2)
    have computed : Logged.Always (Uncounted n)
        (do
          let f ← m.eval callee
          let vals ← m.evalArgs args
          .acts (m.apply f vals)) :=
      (always_eval callee lacks.1).bind fun _ => called.bind fun _ => Logged.always_acts _
    cases callee <;> first
      | exact called.bind fun _ => Logged.always_acts _
      | exact computed
  | .memcall target _ args, lacks => by
    simp only [Expr.lacks, Bool.and_eq_true] at lacks
    exact (always_eval target lacks.1).bind fun _ => (always_evalArgs args lacks.2).bind fun _ =>
      (always_access rfl).bind fun _ => Logged.always_acts _
  | .index target start stop step, lacks => by
    simp only [Expr.lacks, Bool.and_eq_true] at lacks
    obtain ⟨⟨⟨inTarget, inStart⟩, inStop⟩, inStep⟩ := lacks
    have target := always_eval target inTarget
    have start := always_eval start inStart
    have stop := always_eval stop inStop
    have step := always_eval step inStep
    -- A part that is not written is not evaluated.
    have part {expr : Expr} {value : V} (right : Logged.Always (Uncounted n) (m.eval expr)) :
        Logged.Always (Uncounted n)
          (if expr.isMissing then pure value else m.eval expr : Logged σ (Event V) V) :=
      Logged.Always.ite (fun _ => Logged.always_pure _) (fun _ => right)
    exact Logged.Always.ite
      (fun _ => (part start).bind fun _ => (part stop).bind fun _ => (part step).bind fun _ =>
        target.bind fun _ => Logged.always_acts _)
      (fun _ => target.bind fun _ => start.bind fun _ => Logged.always_acts _)
  | .member target _, lacks =>
    (always_eval target lacks).bind fun _ =>
      (always_access rfl).bind fun _ => Logged.always_acts _
  | .deref target, lacks => (always_eval target lacks).bind fun _ => Logged.always_acts _
  | .marked k expr, lacks => by
    simp only [Expr.lacks, Bool.and_eq_true, bne_iff_ne, ne_eq] at lacks
    exact (always_access (by simpa [Event.isOperand] using lacks.1)).bind fun _ =>
      always_eval expr lacks.2

theorem always_evalArgs : ∀ args : Args, args.lacks n = true →
    Logged.Always (Uncounted n) (m.evalArgs args)
  | .nil, _ => Logged.always_pure _
  | .cons _ val rest, lacks => by
    simp only [Args.lacks, Bool.and_eq_true] at lacks
    exact (always_eval val lacks.1).bind fun _ =>
      (always_evalArgs rest lacks.2).bind fun _ => Logged.always_pure _

end

theorem evaluations_evalArgs {args : Args} (lacks : args.lacks n = true) (s : σ) :
    evaluations n (m.evalArgs args s).2.2 = 0 := by
  refine List.countP_eq_zero.mpr fun event member => ?_
  have uncounted : event.isOperand n = false := (always_evalArgs args lacks).each s event member
  rw [uncounted]
  exact Bool.false_ne_true

end Logs

section Tests

variable {m} [DecidableEq V]

theorem eval_ternary_true {cond : Expr} (yes no : Expr) {s : σ}
    (taken : m.truthy (m.eval cond s).1 = true) :
    (m.eval (.ternary cond yes no) s).2.2 =
      (m.eval cond s).2.2 ++ (m.eval yes (m.eval cond s).2.1).2.2 := by
  rw [Machine.eval, bind_apply, taken]
  rfl

theorem eval_ternary_false {cond : Expr} (yes no : Expr) {s : σ}
    (missed : m.truthy (m.eval cond s).1 = false) :
    m.eval (.ternary cond yes no) s =
      ((m.eval no (m.eval cond s).2.1).1, (m.eval no (m.eval cond s).2.1).2.1,
        (m.eval cond s).2.2 ++ (m.eval no (m.eval cond s).2.1).2.2) := by
  rw [Machine.eval, bind_apply, missed]
  rfl

theorem onceCoalesce_nil {left : Expr} (right : Expr) {s : σ} (absent : (m.eval left s).1 = m.nil) :
    m.onceCoalesce left right s =
      ((m.eval right (m.eval left s).2.1).1, (m.eval right (m.eval left s).2.1).2.1,
        (m.eval left s).2.2 ++ (m.eval right (m.eval left s).2.1).2.2) := by
  rw [Machine.onceCoalesce, bind_apply, if_pos absent]

theorem onceCoalesce_some {left : Expr} (right : Expr) {s : σ}
    (present : ¬ (m.eval left s).1 = m.nil) :
    (m.onceCoalesce left right s).2.2 = (m.eval left s).2.2 := by
  rw [Machine.onceCoalesce, bind_apply, if_neg present]
  exact List.append_nil _

theorem onceMember_nil {target : Expr} (name : String) {s : σ}
    (absent : (m.eval target s).1 = m.nil) :
    m.onceMember target name s =
      (m.nil, (m.eval target s).2.1, (m.eval target s).2.2 ++ []) := by
  rw [Machine.onceMember, bind_apply, if_pos absent]
  rfl

theorem onceMember_some {target : Expr} (name : String) {s : σ}
    (present : ¬ (m.eval target s).1 = m.nil) :
    (m.onceMember target name s).2.2 =
      (m.eval target s).2.2 ++ [.member (m.eval target s).1 name] := by
  rw [Machine.onceMember, bind_apply, if_neg present]
  rfl

theorem onceMemcall_nil {target : Expr} (name : String) (args : Args) {s : σ}
    (absent : (m.eval target s).1 = m.nil) :
    m.onceMemcall target name args s =
      (m.nil, (m.eval target s).2.1, (m.eval target s).2.2 ++ []) := by
  rw [Machine.onceMemcall, bind_apply, if_pos absent]
  rfl

theorem onceMemcall_some {target : Expr} (name : String) (args : Args) {s : σ}
    (present : ¬ (m.eval target s).1 = m.nil) :
    (m.onceMemcall target name args s).2.2 =
      (m.eval target s).2.2 ++ ((m.evalArgs args (m.eval target s).2.1).2.2 ++
        [.memcall (m.eval target s).1 name (m.evalArgs args (m.eval target s).2.1).1]) := by
  rw [Machine.onceMemcall, bind_apply, if_neg present]
  rfl

theorem coalesce_once_iff (e d : Expr) (s : σ) :
    m.eval (coalesce (.marked 0 e) (.marked 1 d)) s =
        m.onceCoalesce (.marked 0 e) (.marked 1 d) s ↔ (m.eval e s).1 = m.nil := by
  rw [← eval_marked_fst 0 e s]
  constructor
  · intro same
    by_contra present
    have lengths := congrArg (fun result => result.2.2.length) same
    simp only [onceCoalesce_some _ present, coalesce] at lengths
    cases test : m.truthy (m.eval (.marked 0 e) s).1 with
    | true =>
      -- The left side is evaluated a second time.
      have again := @log_marked_pos σ V m 0 e (m.eval (.marked 0 e) s).2.1
      rw [eval_ternary_true _ _ test, List.length_append] at lengths
      omega
    | false =>
      -- The fallback is evaluated although the left side is not nil.
      have fallback := @log_marked_pos σ V m 1 d (m.eval (.marked 0 e) s).2.1
      rw [eval_ternary_false _ _ test, List.length_append] at lengths
      omega
  · intro absent
    have missed : m.truthy (m.eval (.marked 0 e) s).1 = false := by rw [absent, m.falsy_nil]
    rw [coalesce, eval_ternary_false _ _ missed, onceCoalesce_nil _ absent]

theorem optionalMember_once_iff (e : Expr) (name : String) (s : σ) :
    m.eval (optionalMember (.marked 0 e) name) s = m.onceMember (.marked 0 e) name s ↔
      (m.eval e s).1 = m.nil := by
  rw [← eval_marked_fst 0 e s]
  constructor
  · intro same
    by_contra present
    have lengths := congrArg (fun result => result.2.2.length) same
    simp only [onceMember_some _ present, optionalMember, List.length_append,
      List.length_singleton] at lengths
    cases test : m.truthy (m.eval (.marked 0 e) s).1 with
    | true =>
      -- The target is evaluated again for the access.
      have again := @log_marked_pos σ V m 0 e (m.eval (.marked 0 e) s).2.1
      have access : (m.eval (.member (.marked 0 e) name) (m.eval (.marked 0 e) s).2.1).2.2.length =
          (m.eval (.marked 0 e) (m.eval (.marked 0 e) s).2.1).2.2.length + 1 := List.length_append
      rw [eval_ternary_true _ _ test, List.length_append, access] at lengths
      omega
    | false =>
      -- There is no access although the target is not nil.
      rw [eval_ternary_false _ _ test, List.length_append] at lengths
      have nothing : (m.eval .nil (m.eval (.marked 0 e) s).2.1).2.2.length = 0 := rfl
      omega
  · intro absent
    have missed : m.truthy (m.eval (.marked 0 e) s).1 = false := by rw [absent, m.falsy_nil]
    rw [optionalMember, eval_ternary_false _ _ missed, onceMember_nil _ absent]
    rfl

theorem optionalMemcall_once_iff (e : Expr) (name : String) {args : Args}
    (lacks : args.lacks 0 = true) (s : σ) :
    m.eval (optionalMemcall (.marked 0 e) name args) s =
        m.onceMemcall (.marked 0 e) name args s ↔ (m.eval e s).1 = m.nil := by
  rw [← eval_marked_fst 0 e s]
  constructor
  · intro same
    by_contra present
    have logs := congrArg (fun result => result.2.2) same
    simp only [onceMemcall_some _ _ present, optionalMemcall] at logs
    cases test : m.truthy (m.eval (.marked 0 e) s).1 with
    | true =>
      -- The target is evaluated again for the call, and the arguments cannot stand for that.
      have call : (m.eval (.memcall (.marked 0 e) name args) (m.eval (.marked 0 e) s).2.1).2.2 =
          (m.eval (.marked 0 e) (m.eval (.marked 0 e) s).2.1).2.2 ++
            ((m.evalArgs args (m.eval (.marked 0 e) (m.eval (.marked 0 e) s).2.1).2.1).2.2 ++
              [.memcall (m.eval (.marked 0 e) (m.eval (.marked 0 e) s).2.1).1 name
                (m.evalArgs args (m.eval (.marked 0 e) (m.eval (.marked 0 e) s).2.1).2.1).1]) := rfl
      rw [eval_ternary_true _ _ test, call] at logs
      have counts := congrArg (evaluations 0) logs
      have single (event : Event V) (access : event.isOperand 0 = false) :
          evaluations 0 [event] = 0 := by
        simp [evaluations, access]
      rw [evaluations_append, evaluations_append, evaluations_append, evaluations_append,
        evaluations_append, evaluations_evalArgs lacks, evaluations_evalArgs lacks,
        single _ rfl, single _ rfl, evaluations_marked e (m.eval (.marked 0 e) s).2.1] at counts
      omega
    | false =>
      -- There is no call although the target is not nil.
      rw [eval_ternary_false _ _ test] at logs
      have lengths := congrArg List.length logs
      have nothing : (m.eval .nil (m.eval (.marked 0 e) s).2.1).2.2.length = 0 := rfl
      simp only [List.length_append, List.length_singleton] at lengths
      omega
  · intro absent
    have missed : m.truthy (m.eval (.marked 0 e) s).1 = false := by rw [absent, m.falsy_nil]
    rw [optionalMemcall, eval_ternary_false _ _ missed, onceMemcall_nil _ _ absent]
    rfl

end Tests

section Assignments

variable {m}

theorem not_onceBefore {n last : Nat} {operands : List Nat} {log : List (Event V)}
    (member : n ∈ operands) (twice : 2 ≤ evaluations n log) : ¬ OnceBefore operands last log := by
  intro once
  have single := (once n member).1
  omega

theorem index_assignment_twice (a i d : Expr) {op : AssignOp} (compound : op ≠ .assign) (s : σ) :
    ∃ stmt, assignment (.index (.marked 0 a) (.marked 1 i) .missing .missing) op (.marked 2 d) =
        some stmt ∧ ¬ OnceBefore [0, 1] 2 (m.run stmt s).2.2 := by
  refine ⟨_, rfl, not_onceBefore (show 0 ∈ [0, 1] by decide) ?_⟩
  -- The target is the first argument, and the index is read again for the third.
  obtain ⟨name, binary⟩ : ∃ name, op.binary = some name := by cases op <;> simp_all [AssignOp.binary]
  simp only [assigned, binary, Machine.run, Machine.eval, Machine.evalArgs, startOf,
    evaluations_bind, Expr.isMissing, Bool.not_true, Bool.or_false, Bool.false_eq_true, if_false]
  have shown (t : σ) : evaluations 0 ((Logged.notes (.operand 0) : Logged σ (Event V) Unit) t).2.2 =
      1 := rfl
  simp only [shown]
  omega

theorem deref_assignment_twice (p d : Expr) {op : AssignOp} (compound : op ≠ .assign) (s : σ) :
    ∃ stmt, assignment (.deref (.marked 0 p)) op (.marked 1 d) = some stmt ∧
      ¬ OnceBefore [0] 1 (m.run stmt s).2.2 := by
  refine ⟨_, rfl, not_onceBefore (show 0 ∈ [0] by decide) ?_⟩
  -- The pointer is the first argument, and its content is read again for the second.
  obtain ⟨name, binary⟩ : ∃ name, op.binary = some name := by cases op <;> simp_all [AssignOp.binary]
  simp only [assigned, binary, Machine.run, Machine.eval, Machine.evalArgs, evaluations_bind]
  have shown (t : σ) : evaluations 0 ((Logged.notes (.operand 0) : Logged σ (Event V) Unit) t).2.2 =
      1 := rfl
  simp only [shown]
  omega

end Assignments

section Tagged

/-- Tagged words, where nil is the literal zero, and a call that counts and returns true. -/
def taggedMachine : Machine Nat Int where
  truthy v := v != 0 && v != 1 && v != 2
  nil := 1
  falsy_nil := rfl
  int i := 2 * i + 1
  other n s := if n = 0 then (8, s + 1) else (2, s)
  ident _ s := (1, s)
  binary _ l _ s := (l, s)
  call _ _ s := (1, s)
  apply _ _ s := (1, s)
  memcall _ _ _ s := (1, s)
  index _ _ s := (1, s)
  slice _ _ _ _ s := (1, s)
  member _ _ s := (1, s)
  deref _ s := (1, s)
  assign _ _ s := (1, s)

end Tagged

end Nytrix.Parse.Desugar
