import Nytrix.Types.Flow
import Nytrix.Types.HmArena
import Mathlib.Tactic.Common

/-! When the types that inference records along the text are those of the values. -/

namespace Nytrix.Types

/-- A kind of values that is one of collections or of pointers. -/
def Box.kind : Box → RtKind
  | .list => .list
  | .set => .set
  | .tuple => .tuple
  | .ptr => .ptr

/-- A type accepts a kind of values: by the rule for names, or because it has the same constructor. -/
inductive Accepts (hm : Hm) : Nat → RtKind → Prop
  | name {r x : Nat} {n : Name} {k : RtKind} : hm.Prunes r x → hm.nodes[x]? = some (.name n) →
    hmNameCompatible n k.name = true → Accepts hm r k
  | box {r x : Nat} {b : Box} {a : Option Nat} : hm.Prunes r x →
    hm.nodes[x]? = some (.box b a) → Accepts hm r b.kind
  | dict {r x : Nat} {a b : Option Nat} : hm.Prunes r x → hm.nodes[x]? = some (.dict a b) →
    Accepts hm r .dict
  | fn {r x : Nat} {args : List Nat} {a : Option Nat} : hm.Prunes r x →
    hm.nodes[x]? = some (.fn args a) → Accepts hm r .fn
  | nil {r x : Nat} {a : Option Nat} : hm.Prunes r x → hm.nodes[x]? = some (.nullable a) →
    Accepts hm r .nil
  | nullable {r x a : Nat} {k : RtKind} : hm.Prunes r x → hm.nodes[x]? = some (.nullable (some a)) →
    Accepts hm a k → Accepts hm r k
  | left {r x a : Nat} {b : Option Nat} {k : RtKind} : hm.Prunes r x →
    hm.nodes[x]? = some (.union (some a) b) → Accepts hm a k → Accepts hm r k
  | right {r x b : Nat} {a : Option Nat} {k : RtKind} : hm.Prunes r x →
    hm.nodes[x]? = some (.union a (some b)) → Accepts hm b k → Accepts hm r k

/-- A type that says something: neither any type nor a variable without an instance. -/
def Definite (hm : Hm) (r : Nat) : Prop :=
  hm.isAny r = false ∧ hm.shape (hm.prune r) ≠ .var none

/-- A type does not speak against a kind of values. -/
def Suits (hm : Hm) (r : Nat) (k : RtKind) : Prop := Definite hm r → Accepts hm r k

/--
What is recorded where a running function is, is right.

A variable of which a definite type is recorded has a value of a kind that the type accepts.
-/
def Flow.Sound (f : Flow) : Prop :=
  ∀ (x : Name) (r : Nat) (k : RtKind), hmEnvGet f.recorded.env x = some r →
    f.scopes.get x = some k → Definite f.recorded.hm r → Accepts f.recorded.hm r k

section Grown

/-- An arena has the nodes of another, and maybe more. -/
def Grown (hm hm' : Hm) : Prop :=
  ∀ (r : Nat) (s : Shape), hm.nodes[r]? = some s → hm'.nodes[r]? = some s

variable {hm hm₁ hm₂ : Hm} {r x : Nat}

theorem Grown.refl : Grown hm hm := fun _ _ found => found

theorem Grown.trans (first : Grown hm hm₁) (second : Grown hm₁ hm₂) : Grown hm hm₂ :=
  fun r s found => second r s (first r s found)

theorem grown_alloc (hm : Hm) (s : Shape) : Grown hm (hm.alloc s) := by
  intro r s' found
  simp only [Hm.alloc]
  rw [List.getElem?_append_left (Hm.inside_of_get found)]
  exact found

theorem Grown.of_nodes (same : hm₁.nodes = hm.nodes) : Grown hm hm₁ := by
  intro r s found
  rw [same]
  exact found

theorem Grown.prunes (grown : Grown hm hm₁) (wf : hm.Wf) (prunes : hm.Prunes r x)
    (inside : r < hm.nodes.length) : hm₁.Prunes r x := by
  induction prunes with
  | stop ended =>
    refine Hm.Prunes.stop fun i found => ?_
    rw [grown _ _ (Hm.get_shape inside)] at found
    exact ended i ((Hm.get_shape inside).trans found)
  | step found _ ih =>
    exact Hm.Prunes.step (grown _ _ found) (ih (wf.inRange _ _ found _ (by simp [Shape.edges])))

theorem Grown.shape_prune (grown : Grown hm hm₁) (wf : hm.Wf) (wf₁ : hm₁.Wf)
    (inside : r < hm.nodes.length) : hm₁.shape (hm₁.prune r) = hm.shape (hm.prune r) := by
  have prunes := wf.prunes r
  rw [wf₁.prune_eq (grown.prunes wf prunes inside)]
  exact Hm.shape_eq (grown _ _ (Hm.get_shape (prunes.inside wf inside)))

theorem Grown.definite_iff (grown : Grown hm hm₁) (wf : hm.Wf) (wf₁ : hm₁.Wf)
    (inside : r < hm.nodes.length) : Definite hm₁ r ↔ Definite hm r := by
  unfold Definite Hm.isAny
  rw [grown.shape_prune wf wf₁ inside]

theorem Grown.accepts (grown : Grown hm hm₁) (wf : hm.Wf) {k : RtKind} (accepts : Accepts hm r k)
    (inside : r < hm.nodes.length) : Accepts hm₁ r k := by
  induction accepts with
  | name prunes found compatible =>
    exact .name (grown.prunes wf prunes inside) (grown _ _ found) compatible
  | box prunes found => exact .box (grown.prunes wf prunes inside) (grown _ _ found)
  | dict prunes found => exact .dict (grown.prunes wf prunes inside) (grown _ _ found)
  | fn prunes found => exact .fn (grown.prunes wf prunes inside) (grown _ _ found)
  | nil prunes found => exact .nil (grown.prunes wf prunes inside) (grown _ _ found)
  | nullable prunes found _ ih =>
    exact .nullable (grown.prunes wf prunes inside) (grown _ _ found)
      (ih (wf.inRange _ _ found _ (by simp [Shape.edges, Shape.parts])))
  | left prunes found _ ih =>
    exact .left (grown.prunes wf prunes inside) (grown _ _ found)
      (ih (wf.inRange _ _ found _ (by simp [Shape.edges, Shape.parts])))
  | right prunes found _ ih =>
    exact .right (grown.prunes wf prunes inside) (grown _ _ found)
      (ih (wf.inRange _ _ found _ (by simp [Shape.edges, Shape.parts])))

theorem Grown.suits (grown : Grown hm hm₁) (wf : hm.Wf) (wf₁ : hm₁.Wf) {k : RtKind}
    (suits : Suits hm r k) (inside : r < hm.nodes.length) : Suits hm₁ r k := by
  intro definite
  exact grown.accepts wf (suits ((grown.definite_iff wf wf₁ inside).1 definite)) inside

end Grown

section Telling

/--
What is told of a variable: it is not to be seen, no value has been stated, or it has a value of a
kind.
-/
inductive Tell where
  | unseen
  | free
  | kind (k : RtKind)
  deriving DecidableEq

/-- What is told of the variables. -/
abbrev Telling := Name → Tell

/-- What the variables of a running function tell. -/
def Scopes.told (scopes : Scopes) : Telling := fun x =>
  match scopes.get x with
  | some k => .kind k
  | none => .unseen

/-- What is told of the value of an expression, which may not be there. -/
def tellExpr (told : Telling) : Option FlowExpr → Tell
  | none => .free
  | some (.lit l) => .kind l.kind
  | some (.ident x) => told x

/-- What is told once a name has been set. -/
def tellBinding (told : Telling) (b : Binding) : Telling := fun x =>
  if x = b.name ∧ b.name ≠ [] then tellExpr told b.init else told x

/-- What is told once names have been set one after the other. -/
def tellBindings : List Binding → Telling → Telling
  | [], told => told
  | b :: bs, told => tellBindings bs (tellBinding told b)

/--
What is told once all that a statement sets has been set in the order of the text.

An arm of a match is apart from what is behind it.
-/
def tellStmt : FlowStmt → Telling → Telling
  | .null, told => told
  | .var v, told => tellBindings v.bindings told
  | .seq first rest, told => tellStmt rest (tellStmt first told)
  | .block _ body, told => tellStmt body told
  | .ifs init _ conseq alt, told => tellStmt alt (tellStmt conseq (tellStmt init told))
  | .whiles init _ body update, told => tellStmt update (tellStmt body (tellStmt init told))
  | .matching _ arms, told => tellStmt arms told
  | .arm _ _ rest, told => tellStmt rest told

/-- The variables have the values that are told, where something is told. -/
def Agrees (told : Telling) (scopes : Scopes) : Prop :=
  ∀ (x : Name) (k : RtKind), scopes.get x = some k → told x = .free ∨ told x = .kind k

/-- A type is what is told. -/
def Tell.Fits (hm : Hm) (r : Nat) : Tell → Prop
  | .unseen => True
  | .free => ¬ Definite hm r
  | .kind k => Suits hm r k

/-- What is recorded is what is told. -/
structure Fair (r : Recorded) (told : Telling) : Prop where
  wf : r.hm.Wf
  inside : ∀ (x : Name) (t : Nat), hmEnvGet r.env x = some t → t < r.hm.nodes.length
  tells : ∀ (x : Name) (t : Nat), hmEnvGet r.env x = some t → (told x).Fits r.hm t

end Telling

section Env

theorem find_setFirst {name x : Name} {t : Nat} {env env' : HmEnv}
    (set : setFirst name t env = some env') :
    (env'.find? fun entry => entry.1 = x).map Prod.snd =
      if x = name then some t else (env.find? fun entry => entry.1 = x).map Prod.snd := by
  induction env generalizing env' with
  | nil => cases set
  | cons entry env ih =>
    unfold setFirst at set
    by_cases here : entry.1 = name
    · rw [if_pos here] at set
      rw [← Option.some.inj set]
      by_cases same : x = name
      · simp [same]
      · have other : ¬ name = x := fun eq => same eq.symm
        simp [same, other, here]
    · rw [if_neg here] at set
      obtain ⟨rest, found, rfl⟩ := Option.map_eq_some_iff.1 set
      by_cases first : entry.1 = x
      · have other : ¬ x = name := fun eq => here (first.trans eq)
        simp [first, other]
      · simp [first, ih found]

theorem find_of_setFirst_none {name : Name} {t : Nat} {env : HmEnv}
    (missing : setFirst name t env = none) : (env.find? fun entry => entry.1 = name) = none := by
  induction env with
  | nil => rfl
  | cons entry env ih =>
    unfold setFirst at missing
    by_cases here : entry.1 = name
    · rw [if_pos here] at missing
      cases missing
    · rw [if_neg here, Option.map_eq_none_iff] at missing
      simp [here, ih missing]

theorem hmEnvGet_hmEnvSet (env : HmEnv) {name : Name} (x : Name) (t : Nat) (named : name ≠ []) :
    hmEnvGet (hmEnvSet env name t) x = if x = name then some t else hmEnvGet env x := by
  unfold hmEnvGet hmEnvSet
  rw [if_neg named]
  split
  · rename_i entries set
    rw [List.reverse_reverse]
    exact find_setFirst set
  · rename_i missing
    have none := find_of_setFirst_none missing
    by_cases same : x = name
    · simp [same]
    · have other : ¬ name = x := fun eq => same eq.symm
      simp [same, other]

end Env

section Names

variable {hm hm₁ : Hm} {r x w g : Nat}

theorem get_alloc (hm : Hm) (s : Shape) : (hm.alloc s).nodes[hm.nodes.length]? = some s := by
  simp [Hm.alloc]

theorem prunes_of_get {s : Shape} (found : hm.nodes[r]? = some s) (node : ∀ i, s ≠ .var i) :
    hm.Prunes r r := by
  refine Hm.Prunes.stop fun i again => ?_
  rw [found] at again
  exact node _ (Option.some.inj again)

theorem Accepts.compatible {n : Name} {k : RtKind} (accepts : Accepts hm r k)
    (found : hm.nodes[r]? = some (.name n)) : hmNameCompatible n k.name = true := by
  -- every rule is about the node of the name
  have here : ∀ x s, hm.Prunes r x → hm.nodes[x]? = some s → s = .name n := by
    intro x s prunes node
    rw [prunes.unique (prunes_of_get found (by simp)), found] at node
    exact (Option.some.inj node).symm
  cases accepts with
  | name prunes node compatible =>
    rw [← Shape.name.inj (here _ _ prunes node)]
    exact compatible
  | box prunes node => cases here _ _ prunes node
  | dict prunes node => cases here _ _ prunes node
  | fn prunes node => cases here _ _ prunes node
  | nil prunes node => cases here _ _ prunes node
  | nullable prunes node => cases here _ _ prunes node
  | left prunes node => cases here _ _ prunes node
  | right prunes node => cases here _ _ prunes node

/-- A type that goes with a name without anything being rewritten: any type, or a name. -/
def GoesWithName (hm : Hm) (n : Name) (g : Nat) : Prop :=
  hm.isAny g = true ∨ ∃ m, hm.shape (hm.prune g) = .name m ∧ hmGenericBaseSame n m = false

theorem namePlan_run_nodes {unify : Unifier} {context : Option Name} {n m : Name}
    {out : Bool × Hm} (apart : hmGenericBaseSame n m = false)
    (ran : (namePlan n m).run unify context hm w g = some out) : out.2.nodes = hm.nodes := by
  unfold namePlan at ran
  rw [apart] at ran
  simp only [Bool.false_eq_true, if_false] at ran
  split at ran
  · rw [← Option.some.inj ran]
  · rw [← Option.some.inj ran]
    rfl

theorem hmUnify_nodes {context : Option Name} {depth : Nat} {n : Name} {out : Bool × Hm}
    (wf : hm.Wf) (named : hm.shape (hm.prune w) = .name n) (goes : GoesWithName hm n g)
    (ran : hmUnify context depth hm (some w) (some g) = some out) : out.2.nodes = hm.nodes := by
  cases depth with
  | zero => cases ran
  | succ depth =>
    unfold hmUnify unifyStep at ran
    simp only at ran
    split at ran
    · rw [← Option.some.inj ran]
    · rename_i apart
      rcases goes with any | ⟨m, name, generic⟩
      · -- what is any type has been dealt with
        have again : hm.prune (hm.prune g) = hm.prune g := wf.prune_eq (wf.prunes g).self
        refine absurd (Or.inr (Or.inr ?_)) apart
        unfold Hm.isAny at any ⊢
        rw [again]
        exact any
      · rw [named, name] at ran
        simp only [unifyNodes, named, name] at ran
        split at ran
        · rw [← Option.some.inj ran]
        · exact namePlan_run_nodes generic ran

end Names

section Text

variable {depth : Nat} {selfName : Name} {r r' : Recorded} {told : Telling}

theorem Fair.grown (fair : Fair r told) {hm : Hm} (grown : Grown r.hm hm) (wf : hm.Wf) :
    Fair ⟨hm, r.env⟩ told := by
  have longer : r.hm.nodes.length ≤ hm.nodes.length := by
    by_contra shorter
    have inside : hm.nodes.length < r.hm.nodes.length := by omega
    exact absurd (Hm.inside_of_get (grown _ _ (Hm.get_shape inside))) (Nat.lt_irrefl _)
  refine ⟨wf, fun x t found => Nat.lt_of_lt_of_le (fair.inside x t found) longer, ?_⟩
  intro x t found
  have inside := fair.inside x t found
  have tells := fair.tells x t found
  cases seen : told x with
  | unseen => trivial
  | free =>
    rw [seen] at tells
    exact fun definite => tells ((grown.definite_iff fair.wf wf inside).1 definite)
  | kind k =>
    rw [seen] at tells
    exact grown.suits fair.wf wf tells inside

theorem wf_alloc_leaf {hm : Hm} (wf : hm.Wf) {s : Shape} (leaf : s.edges = []) :
    (hm.alloc s).Wf :=
  wf.alloc (by simp [leaf])

theorem Fair.set (fair : Fair r told) {b : Binding} {t : Nat} (inside : t < r.hm.nodes.length)
    (fits : (tellExpr told b.init).Fits r.hm t) :
    Fair { r with env := hmEnvSet r.env b.name t } (tellBinding told b) := by
  by_cases named : b.name = []
  · have same : hmEnvSet r.env b.name t = r.env := by simp [hmEnvSet, named]
    have told' : tellBinding told b = told := by
      funext x
      simp [tellBinding, named]
    rw [same, told']
    exact fair
  · refine ⟨fair.wf, fun x u found => ?_, fun x u found => ?_⟩
    · rw [hmEnvGet_hmEnvSet r.env x t named] at found
      split at found
      · rw [← Option.some.inj found]
        exact inside
      · exact fair.inside x u found
    · rw [hmEnvGet_hmEnvSet r.env x t named] at found
      split at found
      · rename_i same
        rw [← Option.some.inj found]
        simpa [tellBinding, same, named] using fits
      · rename_i other
        simpa [tellBinding, other] using fair.tells x u found

theorem literal_compatible (l : Literal) : hmNameCompatible (tpLiteralType l) l.kind.name = true := by
  cases l with
  | nil => rfl
  | bool => rfl
  | str => rfl
  | int hint => cases hint <;> rfl
  | float hint => cases hint <;> rfl

theorem suits_alloc_name (hm : Hm) {n : Name} {k : RtKind}
    (compatible : hmNameCompatible n k.name = true) :
    Suits (hm.alloc (.name n)) hm.nodes.length k := by
  intro _
  have found := get_alloc hm (.name n)
  exact .name (prunes_of_get found (by simp)) found compatible

theorem not_definite_alloc {hm : Hm} {s : Shape} (wf : (hm.alloc s).Wf)
    (silent : s = .any ∨ s = .var none) : ¬ Definite (hm.alloc s) hm.nodes.length := by
  have found := get_alloc hm s
  have prunes : (hm.alloc s).Prunes hm.nodes.length hm.nodes.length := by
    refine Hm.Prunes.stop fun i again => ?_
    rw [found] at again
    rcases silent with rfl | rfl <;> cases again
  rintro ⟨any, var⟩
  unfold Hm.isAny at any
  rw [wf.prune_eq prunes, Hm.shape_eq found] at any var
  rcases silent with rfl | rfl
  · cases any
  · exact var rfl

theorem Fair.of_initType (fair : Fair r told) (init : Option FlowExpr) :
    Grown r.hm (initType r init).2.hm ∧ (initType r init).2.env = r.env ∧
    Fair (initType r init).2 told ∧ (initType r init).1 < (initType r init).2.hm.nodes.length ∧
    (tellExpr told init).Fits (initType r init).2.hm (initType r init).1 := by
  -- a type of a leaf that is made for the expression
  have made : ∀ s : Shape, s.edges = [] → (tellExpr told init).Fits (r.hm.alloc s) r.hm.nodes.length →
      Grown r.hm (r.hm.alloc s) ∧ r.env = r.env ∧ Fair ⟨r.hm.alloc s, r.env⟩ told ∧
        r.hm.nodes.length < (r.hm.alloc s).nodes.length ∧
        (tellExpr told init).Fits (r.hm.alloc s) r.hm.nodes.length := by
    intro s leaf fits
    have grown := grown_alloc r.hm s
    exact ⟨grown, rfl, fair.grown grown (wf_alloc_leaf fair.wf leaf), by simp [Hm.alloc], fits⟩
  have silent : ∀ s : Shape, s.edges = [] → s = .any ∨ s = .var none →
      ∀ tell : Tell, tell.Fits (r.hm.alloc s) r.hm.nodes.length := by
    intro s leaf quiet tell
    have none := not_definite_alloc (wf_alloc_leaf fair.wf leaf) quiet
    cases tell with
    | unseen => trivial
    | free => exact none
    | kind k => exact fun definite => absurd definite none
  cases init with
  | none => exact made _ rfl (silent _ rfl (Or.inr rfl) _)
  | some e =>
    cases e with
    | lit l => exact made _ rfl (suits_alloc_name r.hm (literal_compatible l))
    | ident x =>
      cases found : hmEnvGet r.env x with
      | none =>
        have new : initType r (some (.ident x)) =
            (r.hm.nodes.length, ⟨r.hm.alloc .any, r.env⟩) := by
          simp only [initType, hmInferExpr, found]
        rw [new]
        exact made _ rfl (silent _ rfl (Or.inl rfl) _)
      | some t =>
        have known : initType r (some (.ident x)) = (t, r) := by
          simp only [initType, hmInferExpr, found]
        rw [known]
        exact ⟨Grown.refl, rfl, fair, fair.inside x t found, fair.tells x t found⟩

theorem Fair.of_afterExpr (fair : Fair r told) (e : Option FlowExpr) :
    Grown r.hm (afterExpr r e).hm ∧ (afterExpr r e).env = r.env ∧ Fair (afterExpr r e) told := by
  cases e with
  | none =>
    have grown := grown_alloc r.hm .any
    exact ⟨grown, rfl, fair.grown grown (wf_alloc_leaf fair.wf rfl)⟩
  | some e =>
    obtain ⟨grown, env, after, -⟩ := fair.of_initType (some e)
    exact ⟨grown, env, after⟩

variable (selfName) in
/--
A name is set without a stated type, or to one that is a plain name and goes with its value.

The name accepts the kind of the value, and the type of the expression is any type or a name that
is not rewritten.
-/
def FitsBinding (r : Recorded) (told : Telling) (b : Binding) : Prop :=
  ∀ decl, b.decl = some decl → decl ≠ [] → ∃ (n : Name) (k : RtKind),
    hmParseTypeName (initType r b.init).2.hm decl selfName =
      ((initType r b.init).2.hm.nodes.length, (initType r b.init).2.hm.alloc (.name n)) ∧
    tellExpr told b.init = .kind k ∧ hmNameCompatible n k.name = true ∧
    GoesWithName (initType r b.init).2.hm n (initType r b.init).1

theorem wf_of_nodes {hm hm₁ : Hm} (wf : hm.Wf) (same : hm₁.nodes = hm.nodes) : hm₁.Wf := by
  obtain ⟨rank, ranked⟩ := wf.acyclic
  refine ⟨by rw [same]; exact wf.inRange, rank, ?_⟩
  unfold Hm.Ranked
  rw [same]
  exact ranked

theorem Fair.of_inferBinding (fair : Fair r told) {b : Binding}
    (fits : FitsBinding selfName r told b) (ran : inferBinding depth selfName r b = some r') :
    Fair r' (tellBinding told b) ∧ Grown r.hm r'.hm := by
  obtain ⟨grown, env, fair₁, inside, tells⟩ := fair.of_initType b.init
  unfold FitsBinding at fits
  unfold inferBinding at ran
  simp only at ran
  generalize initType r b.init = first at fits ran grown env fair₁ inside tells
  obtain ⟨it, r₁⟩ := first
  -- without a stated type the type of the expression is recorded
  have plain : Fair { r₁ with env := hmEnvSet r₁.env b.name it } (tellBinding told b) :=
    fair₁.set inside tells
  split at ran
  · rw [← Option.some.inj ran]
    exact ⟨plain, grown⟩
  · rename_i decl stated
    split at ran
    · rw [← Option.some.inj ran]
      exact ⟨plain, grown⟩
    · rename_i nonempty
      obtain ⟨n, k, parsed, value, compatible, goes⟩ := fits decl stated nonempty
      simp only at parsed goes
      rw [parsed] at ran
      obtain ⟨out, unified, rfl⟩ := Option.map_eq_some_iff.1 ran
      -- the node of the name is made, and unification leaves the nodes
      have found := get_alloc r₁.hm (.name n)
      have grown₂ := grown_alloc r₁.hm (.name n)
      have wf₂ : (r₁.hm.alloc (.name n)).Wf := wf_alloc_leaf fair₁.wf rfl
      have named : (r₁.hm.alloc (.name n)).shape ((r₁.hm.alloc (.name n)).prune
          r₁.hm.nodes.length) = .name n := by
        rw [wf₂.prune_eq (prunes_of_get found (by simp))]
        exact Hm.shape_eq found
      have goes₂ : GoesWithName (r₁.hm.alloc (.name n)) n it := by
        unfold GoesWithName Hm.isAny at goes ⊢
        rw [grown₂.shape_prune fair₁.wf wf₂ inside]
        exact goes
      have same : out.2.nodes = (r₁.hm.alloc (.name n)).nodes :=
        hmUnify_nodes wf₂ named goes₂ unified
      have grown₃ : Grown r₁.hm out.2 := grown₂.trans (Grown.of_nodes same)
      have wf₃ : out.2.Wf := wf_of_nodes wf₂ same
      have fair₃ := fair₁.grown grown₃ wf₃
      have last : r₁.hm.nodes.length < out.2.nodes.length := by
        rw [same]
        simp [Hm.alloc]
      refine ⟨fair₃.set last ?_, grown.trans grown₃⟩
      rw [value]
      exact (Grown.of_nodes same).suits wf₂ wf₃ (suits_alloc_name _ compatible)
        (by simp [Hm.alloc])

variable (depth) (selfName) in
/-- Names are set one after the other, each as it should be. -/
def FitsBindings : List Binding → Recorded → Telling → Prop
  | [], _, _ => True
  | b :: bs, r, told =>
    FitsBinding selfName r told b ∧
      ∀ r', inferBinding depth selfName r b = some r' → FitsBindings bs r' (tellBinding told b)

theorem Fair.of_inferBindings {bs : List Binding} (fair : Fair r told)
    (fits : FitsBindings depth selfName bs r told)
    (ran : inferBindings depth selfName bs r = some r') :
    Fair r' (tellBindings bs told) ∧ Grown r.hm r'.hm := by
  induction bs generalizing r told with
  | nil =>
    rw [← Option.some.inj ran]
    exact ⟨fair, Grown.refl⟩
  | cons b bs ih =>
    obtain ⟨r₁, first, rest⟩ := Option.bind_eq_some_iff.1 ran
    obtain ⟨fair₁, grown₁⟩ := fair.of_inferBinding fits.1 first
    obtain ⟨fair₂, grown₂⟩ := ih fair₁ (fits.2 r₁ first) rest
    exact ⟨fair₂, grown₁.trans grown₂⟩

variable (depth) (selfName) in
/-- The stated types of a statement go with the values that are told, in the order of the text. -/
def FitsStmt : FlowStmt → Recorded → Telling → Prop
  | .null, _, _ => True
  | .var v, r, told => FitsBindings depth selfName v.bindings r told
  | .seq first rest, r, told =>
    FitsStmt first r told ∧
      ∀ r', hmInferStmt depth selfName first r = some r' → FitsStmt rest r' (tellStmt first told)
  | .block _ body, r, told => FitsStmt body r told
  | .ifs init test conseq alt, r, told =>
    FitsStmt init r told ∧ ∀ r₁, hmInferStmt depth selfName init r = some r₁ →
      FitsStmt conseq (afterExpr r₁ (some test)) (tellStmt init told) ∧
      ∀ r₂, hmInferStmt depth selfName conseq (afterExpr r₁ (some test)) = some r₂ →
        FitsStmt alt r₂ (tellStmt conseq (tellStmt init told))
  | .whiles init test body update, r, told =>
    FitsStmt init r told ∧ ∀ r₁, hmInferStmt depth selfName init r = some r₁ →
      FitsStmt body (afterExpr r₁ (some test)) (tellStmt init told) ∧
      ∀ r₂, hmInferStmt depth selfName body (afterExpr r₁ (some test)) = some r₂ →
        FitsStmt update r₂ (tellStmt body (tellStmt init told))
  | .matching test arms, r, told => FitsStmt arms (afterExpr r (some test)) told
  | .arm guard conseq rest, r, told =>
    FitsStmt conseq (afterExpr r guard) told ∧
      ∀ inner, hmInferStmt depth selfName conseq (afterExpr r guard) = some inner →
        FitsStmt rest ⟨inner.hm, r.env⟩ told

theorem Fair.of_inferTwo {first rest : FlowStmt} {test : FlowExpr} (fair : Fair r told)
    (ihFirst : ∀ {r r' : Recorded} {told : Telling}, Fair r told →
      FitsStmt depth selfName first r told → hmInferStmt depth selfName first r = some r' →
      Fair r' (tellStmt first told) ∧ Grown r.hm r'.hm)
    (ihRest : ∀ {r r' : Recorded} {told : Telling}, Fair r told →
      FitsStmt depth selfName rest r told → hmInferStmt depth selfName rest r = some r' →
      Fair r' (tellStmt rest told) ∧ Grown r.hm r'.hm)
    (fits : FitsStmt depth selfName first (afterExpr r (some test)) told ∧
      ∀ r₂, hmInferStmt depth selfName first (afterExpr r (some test)) = some r₂ →
        FitsStmt depth selfName rest r₂ (tellStmt first told))
    (ran : (hmInferStmt depth selfName first (afterExpr r (some test))).bind
      (hmInferStmt depth selfName rest) = some r') :
    Fair r' (tellStmt rest (tellStmt first told)) ∧ Grown r.hm r'.hm := by
  obtain ⟨grown₁, -, fair₁⟩ := fair.of_afterExpr (some test)
  obtain ⟨r₂, ranFirst, ranRest⟩ := Option.bind_eq_some_iff.1 ran
  obtain ⟨fair₂, grown₂⟩ := ihFirst fair₁ fits.1 ranFirst
  obtain ⟨fair₃, grown₃⟩ := ihRest fair₂ (fits.2 r₂ ranFirst) ranRest
  exact ⟨fair₃, (grown₁.trans grown₂).trans grown₃⟩

theorem Fair.of_hmInferStmt {s : FlowStmt} (fair : Fair r told)
    (fits : FitsStmt depth selfName s r told) (ran : hmInferStmt depth selfName s r = some r') :
    Fair r' (tellStmt s told) ∧ Grown r.hm r'.hm := by
  induction s generalizing r r' told with
  | null =>
    rw [← Option.some.inj ran]
    exact ⟨fair, Grown.refl⟩
  | var v => exact fair.of_inferBindings fits ran
  | seq first rest ihFirst ihRest =>
    obtain ⟨r₁, ranFirst, ranRest⟩ := Option.bind_eq_some_iff.1 ran
    obtain ⟨fair₁, grown₁⟩ := ihFirst fair fits.1 ranFirst
    obtain ⟨fair₂, grown₂⟩ := ihRest fair₁ (fits.2 r₁ ranFirst) ranRest
    exact ⟨fair₂, grown₁.trans grown₂⟩
  | block transparent body ih => exact ih fair fits ran
  | ifs init test conseq alt ihInit ihConseq ihAlt =>
    obtain ⟨r₁, ranInit, ranRest⟩ := Option.bind_eq_some_iff.1 ran
    obtain ⟨fair₁, grown₁⟩ := ihInit fair fits.1 ranInit
    obtain ⟨fair₂, grown₂⟩ := fair₁.of_inferTwo ihConseq ihAlt (fits.2 r₁ ranInit) ranRest
    exact ⟨fair₂, grown₁.trans grown₂⟩
  | whiles init test body update ihInit ihBody ihUpdate =>
    obtain ⟨r₁, ranInit, ranRest⟩ := Option.bind_eq_some_iff.1 ran
    obtain ⟨fair₁, grown₁⟩ := ihInit fair fits.1 ranInit
    obtain ⟨fair₂, grown₂⟩ := fair₁.of_inferTwo ihBody ihUpdate (fits.2 r₁ ranInit) ranRest
    exact ⟨fair₂, grown₁.trans grown₂⟩
  | matching test arms ih =>
    obtain ⟨grown₁, -, fair₁⟩ := fair.of_afterExpr (some test)
    obtain ⟨fair₂, grown₂⟩ := ih fair₁ fits ran
    exact ⟨fair₂, grown₁.trans grown₂⟩
  | arm guard conseq rest ihConseq ihRest =>
    obtain ⟨grown₁, -, fair₁⟩ := fair.of_afterExpr guard
    obtain ⟨inner, ranConseq, ranRest⟩ := Option.bind_eq_some_iff.1 ran
    obtain ⟨fair₂, grown₂⟩ := ihConseq fair₁ fits.1 ranConseq
    -- the environment of the arm is dropped, its nodes stay
    have outer := fair.grown (grown₁.trans grown₂) fair₂.wf
    obtain ⟨fair₃, grown₃⟩ := ihRest outer (fits.2 inner ranConseq) ranRest
    exact ⟨fair₃, (grown₁.trans grown₂).trans grown₃⟩

end Text

section Runs

variable {depth : Nat} {selfName : Name}

theorem Fair.agrees {r : Recorded} {told : Telling} {scopes : Scopes} (fair : Fair r told)
    (agrees : Agrees told scopes) : Fair r scopes.told := by
  refine ⟨fair.wf, fair.inside, fun x t found => ?_⟩
  unfold Scopes.told
  cases value : scopes.get x with
  | none => trivial
  | some k =>
    have tells := fair.tells x t found
    rcases agrees x k value with free | kind
    · rw [free] at tells
      exact fun definite => absurd definite tells
    · rw [kind] at tells
      exact tells

variable (depth) (selfName) in
/--
A step that keeps to the order of the text, as far as the kinds of values go.

Where control passes over text, goes back to a loop, comes from an arm of a match or leaves a block,
and where several variables are set at once, the variables have values of the kinds that they would
have if the text had been followed in its order; and the types that are stated go with the values.
-/
def Orderly (before after : Flow) : Prop :=
  match before.todo with
  | .stmt (.var v) :: _ =>
    FitsStmt depth selfName (.var v) before.recorded before.scopes.told ∧
      Agrees (tellStmt (.var v) before.scopes.told) after.scopes
  | .stmt (.arm guard conseq _) :: _ =>
    FitsStmt depth selfName conseq (afterExpr before.recorded guard) before.scopes.told
  | .pass s :: _ =>
    FitsStmt depth selfName s before.recorded before.scopes.told ∧
      Agrees (tellStmt s before.scopes.told) before.scopes
  | .leave :: _ => Agrees before.scopes.told after.scopes
  | .back _ scopes₀ _ :: _ => Agrees scopes₀.told before.scopes
  | .rejoin at₀ scopes₀ rest :: _ =>
    FitsStmt depth selfName rest at₀ scopes₀.told ∧
      Agrees (tellStmt rest scopes₀.told) before.scopes
  | _ => True

variable (depth) (selfName) in
/-- A run all of whose steps keep to the order of the text. -/
inductive OrderlyRun (start : Flow) : Flow → Prop
  | start : OrderlyRun start start
  | step {before after : Flow} : OrderlyRun start before → FlowStep depth selfName before after →
    Orderly depth selfName before after → OrderlyRun start after

/-- What control comes back to is recorded as the variables told then. -/
def Item.Fair : Item → Prop
  | .back at₀ scopes₀ _ => Types.Fair at₀ scopes₀.told
  | .rejoin at₀ scopes₀ _ => Types.Fair at₀ scopes₀.told
  | _ => True

/-- What is recorded where a function is, and where it comes back to, is what its variables tell. -/
structure Flow.Fair (f : Flow) : Prop where
  here : Types.Fair f.recorded f.scopes.told
  later : ∀ item ∈ f.todo, item.Fair

theorem Flow.Fair.replace {r : Recorded} {scopes : Scopes} {item : Item} {k : List Item}
    (fair : Flow.Fair ⟨r, item :: k, scopes⟩) {r' : Recorded} {scopes' : Scopes}
    (items : List Item) (here : Types.Fair r' scopes'.told) (new : ∀ item ∈ items, item.Fair) :
    Flow.Fair ⟨r', items ++ k, scopes'⟩ := by
  refine ⟨here, fun item among => ?_⟩
  rcases List.mem_append.1 among with first | rest
  · exact new item first
  · exact fair.later item (List.mem_cons_of_mem _ rest)

theorem Flow.Fair.step {before after : Flow} (fair : before.Fair)
    (step : FlowStep depth selfName before after) (orderly : Orderly depth selfName before after) :
    after.Fair := by
  cases step with
  | null => exact fair.replace [] fair.here (by simp)
  | var _ _ _ inferred =>
    obtain ⟨fits, agrees⟩ := orderly
    have told := (fair.here.of_hmInferStmt fits inferred).1
    exact fair.replace [] (told.agrees agrees) (by simp)
  | seq => exact fair.replace [.stmt _, .stmt _] fair.here (by simp [Item.Fair])
  | flat => exact fair.replace [.stmt _] fair.here (by simp [Item.Fair])
  | enter => exact fair.replace [.stmt _, .leave] fair.here (by simp [Item.Fair])
  | ifInit => exact fair.replace [.stmt _, .stmt _, .leave] fair.here (by simp [Item.Fair])
  | ifTrue =>
    exact fair.replace [.stmt _, .pass _] (fair.here.of_afterExpr _).2.2 (by simp [Item.Fair])
  | ifFalse =>
    exact fair.replace [.pass _, .stmt _] (fair.here.of_afterExpr _).2.2 (by simp [Item.Fair])
  | whileInit => exact fair.replace [.stmt _, .stmt _, .leave] fair.here (by simp [Item.Fair])
  | whileTrue =>
    have entered := fair.here
    exact fair.replace [.stmt _, .stmt _, .leave, .back _ _ _] (fair.here.of_afterExpr _).2.2
      (by simpa [Item.Fair] using entered)
  | whileFalse =>
    exact fair.replace [.pass _, .pass _] (fair.here.of_afterExpr _).2.2 (by simp [Item.Fair])
  | matching => exact fair.replace [.stmt _] (fair.here.of_afterExpr _).2.2 (by simp [Item.Fair])
  | armTaken inferred =>
    obtain ⟨grown₁, -, fair₁⟩ := fair.here.of_afterExpr _
    obtain ⟨fair₂, grown₂⟩ := fair₁.of_hmInferStmt orderly inferred
    have outer := fair.here.grown (grown₁.trans grown₂) fair₂.wf
    exact fair.replace [.stmt _, .leave, .rejoin _ _ _] fair₁ (by simpa [Item.Fair] using outer)
  | armPassed inferred =>
    obtain ⟨grown₁, -, fair₁⟩ := fair.here.of_afterExpr _
    obtain ⟨fair₂, grown₂⟩ := fair₁.of_hmInferStmt orderly inferred
    have outer := fair.here.grown (grown₁.trans grown₂) fair₂.wf
    exact fair.replace [.stmt _] outer (by simp [Item.Fair])
  | pass inferred =>
    obtain ⟨fits, agrees⟩ := orderly
    have told := (fair.here.of_hmInferStmt fits inferred).1
    exact fair.replace [] (told.agrees agrees) (by simp)
  | leave => exact fair.replace [] (fair.here.agrees orderly) (by simp)
  | back =>
    have entered := fair.later _ (List.mem_cons_self ..)
    exact fair.replace [.stmt _] (Types.Fair.agrees entered orderly) (by simp [Item.Fair])
  | rejoin inferred =>
    obtain ⟨fits, agrees⟩ := orderly
    have entered := fair.later _ (List.mem_cons_self ..)
    have told := (Types.Fair.of_hmInferStmt entered fits inferred).1
    exact fair.replace [] (told.agrees agrees) (by simp)

theorem Flow.Fair.sound {f : Flow} (fair : f.Fair) : f.Sound := by
  intro x r k found value definite
  have tells := fair.here.tells x r found
  have told : f.scopes.told x = .kind k := by simp [Scopes.told, value]
  rw [told] at tells
  exact tells definite

theorem OrderlyRun.fair {start finish : Flow} (run : OrderlyRun depth selfName start finish)
    (fair : start.Fair) : finish.Fair := by
  induction run with
  | start => exact fair
  | step _ step orderly ih => exact ih.step step orderly

/--
The types that are recorded along the text are right in every state of a run of a function that
keeps to the order of the text.
-/
theorem flow_sound_of_orderlyRun (depth : Nat) (selfName : Name) (recorded : Recorded)
    (scopes : Scopes) (body : FlowStmt) (finish : Flow) (args : Fair recorded scopes.told)
    (run : OrderlyRun depth selfName ⟨recorded, [.stmt body], scopes⟩ finish) : finish.Sound := by
  refine (run.fair ⟨args, ?_⟩).sound
  simp [Item.Fair]

/-- A statement that declares or sets one name, without a type. -/
def setOne (isDecl : Bool) (name : String) (l : Literal) : FlowStmt :=
  .var ⟨[nm name], [], [.lit l], isDecl, false⟩

/-- A branch that sets a variable to a literal. -/
def branchOn (l : Literal) : FlowStmt :=
  .ifs .null (.ident (nm "c")) (.block false (setOne false "x" l)) .null

/-- A function that sets a variable to 1, and in a branch to a literal. -/
def setInBranch (l : Literal) : FlowStmt := .seq (setOne true "x" (.int .none)) (branchOn l)

/-- What is recorded at the beginning of a function with the parameter `c`. -/
def parameterC : Recorded := ⟨⟨[.var none], []⟩, [(nm "c", 0)]⟩

/-- What is recorded behind the first statement. -/
def recordedFirst : Recorded :=
  ⟨⟨[.var none, .name (nm "int")], []⟩, [(nm "c", 0), (nm "x", 1)]⟩

/-- What is recorded behind the branch. -/
def recordedLast (l : Literal) : Recorded :=
  ⟨⟨[.var none, .name (nm "int"), .name (tpLiteralType l)], []⟩, [(nm "c", 0), (nm "x", 2)]⟩

/-- The variables of the function once the first statement has been run. -/
def variablesCX : Scopes := [[(nm "x", .int), (nm "c", .bool)]]

theorem fair_parameterC : Fair parameterC (Scopes.told [[(nm "c", .bool)]]) := by
  have wf : parameterC.hm.Wf := wf_alloc_leaf Reached.start.wf (s := .var none) rfl
  have silent : ¬ Definite parameterC.hm 0 := @not_definite_alloc ⟨[], []⟩ _ wf (Or.inr rfl)
  have only : ∀ x t, hmEnvGet parameterC.env x = some t → t = 0 := by
    intro x t found
    by_cases same : nm "c" = x
    · simp [parameterC, hmEnvGet, same] at found
      exact found.symm
    · simp [parameterC, hmEnvGet, same] at found
  refine ⟨wf, fun x t found => ?_, fun x t found => ?_⟩
  · rw [only x t found]
    decide
  · rw [only x t found]
    unfold Scopes.told
    split
    · exact fun definite => absurd definite silent
    · trivial

/-- The states of a run of the function with a parameter that is false. -/
def setInBranchState (l : Literal) : Nat → Flow
  | 0 => ⟨parameterC, [.stmt (setInBranch l)], [[(nm "c", .bool)]]⟩
  | 1 => ⟨parameterC, [.stmt (setOne true "x" (.int .none)), .stmt (branchOn l)],
      [[(nm "c", .bool)]]⟩
  | 2 => ⟨recordedFirst, [.stmt (branchOn l)], variablesCX⟩
  | 3 => ⟨recordedFirst, [.pass (.block false (setOne false "x" l)), .stmt .null], variablesCX⟩
  | _ => ⟨recordedLast l, [.stmt .null], variablesCX⟩

theorem infer_setOne_first :
    hmInferStmt 1 [] (setOne true "x" (.int .none)) parameterC = some recordedFirst := by
  rfl

theorem infer_setOne_branch (l : Literal) :
    hmInferStmt 1 [] (.block false (setOne false "x" l)) recordedFirst = some (recordedLast l) := by
  cases l with
  | nil => rfl
  | bool => rfl
  | str => rfl
  | int hint => cases hint <;> rfl
  | float hint => cases hint <;> rfl

theorem setInBranch_step (l : Literal) (i : Nat) (early : i < 4) :
    FlowStep 1 [] (setInBranchState l i) (setInBranchState l (i + 1)) := by
  match i, early with
  | 0, _ => exact .seq
  | 1, _ =>
    exact @FlowStep.var 1 [] _ _ _ _ _ _ [.nil] [] (by decide) (by decide) rfl
      infer_setOne_first
  | 2, _ => exact .ifFalse
  | 3, _ => exact .pass (infer_setOne_branch l)

theorem agrees_branch : Agrees (tellStmt (.block false (setOne false "x" (.int .none)))
    variablesCX.told) variablesCX := by
  intro y k found
  by_cases same : y = nm "x"
  · have value : variablesCX.get (nm "x") = some .int := rfl
    rw [same, value] at found
    rw [same, ← Option.some.inj found]
    decide
  · right
    simp [tellStmt, setOne, VarStmt.bindings, tellBindings, tellBinding, same, Scopes.told, found]

theorem agrees_first : Agrees (tellStmt (setOne true "x" (.int .none))
    (Scopes.told [[(nm "c", .bool)]])) variablesCX := by
  intro y k found
  by_cases same : y = nm "x"
  · have value : variablesCX.get (nm "x") = some .int := rfl
    rw [same, value] at found
    rw [same, ← Option.some.inj found]
    decide
  · right
    have other : ¬ nm "x" = y := fun eq => same eq.symm
    have before : Scopes.get [[(nm "c", .bool)]] y = some k := by
      simpa [variablesCX, Scopes.get, other] using found
    simp [tellStmt, setOne, VarStmt.bindings, tellBindings, tellBinding, same, Scopes.told, before]

/-- What is recorded behind a branch that sets another int is right. -/
theorem flow_sound_of_orderlyRun_int :
    OrderlyRun 1 [] (setInBranchState (.int .none) 0) (setInBranchState (.int .none) 4) ∧
      (setInBranchState (.int .none) 4).Sound := by
  have untyped : ∀ r told, FitsStmt 1 [] (setOne true "x" (.int .none)) r told := by
    intro r told
    refine ⟨fun decl stated => ?_, fun _ _ => trivial⟩
    cases stated
  have untyped' : ∀ r told,
      FitsStmt 1 [] (.block false (setOne false "x" (.int .none))) r told := by
    intro r told
    refine ⟨fun decl stated => ?_, fun _ _ => trivial⟩
    cases stated
  have step := setInBranch_step (.int .none)
  have run : OrderlyRun 1 [] (setInBranchState (.int .none) 0) (setInBranchState (.int .none) 4) := by
    refine .step (.step (.step (.step .start (step 0 (by decide)) trivial) (step 1 (by decide)) ?_)
      (step 2 (by decide)) trivial) (step 3 (by decide)) ?_
    · exact ⟨untyped _ _, agrees_first⟩
    · exact ⟨untyped' _ _, agrees_branch⟩
  exact ⟨run, flow_sound_of_orderlyRun 1 [] _ _ _ _ fair_parameterC run⟩

/-- Behind a branch that is not taken the type of a string is recorded for an int. -/
theorem not_sound_setInBranch : Fair parameterC (Scopes.told [[(nm "c", .bool)]]) ∧
    ∃ finish, Relation.ReflTransGen (FlowStep 1 []) (setInBranchState .str 0) finish ∧
      ¬ finish.Sound := by
  have step := setInBranch_step .str
  refine ⟨fair_parameterC, setInBranchState .str 4, ?_, fun sound => ?_⟩
  · exact (((Relation.ReflTransGen.single (step 0 (by decide))).tail (step 1 (by decide))).tail
      (step 2 (by decide))).tail (step 3 (by decide))
  · have definite : Definite (recordedLast .str).hm 2 := ⟨rfl, by decide⟩
    have accepts := sound (nm "x") 2 .int rfl rfl definite
    exact absurd (accepts.compatible rfl) (by decide)

end Runs

end Nytrix.Types
