import Nytrix.Effects.Performed

/-! Bodies of which the walks see all that they perform. -/

namespace Nytrix.Effects

open Nytrix.Types (Name nm)

section Visibility

variable (patternBinds : Expr → List Name) (program : Program) (caller : Nat)

/-- What is called is not a function with a text that is declared to be elsewhere. -/
def Home (sig : Option Nat) : Prop :=
  ∀ g, sig = some g → ∀ s, program.sigs[g]? = some s →
    match s with
    | .user fn => fn.isExtern = false
    | .std foreign => foreign = none
    | _ => True

/-- A call that a walk sees: a name that is local when it runs is not taken for a function. -/
def SeesCall (seen truth : Option Nat) : Prop := (truth = none → seen = none) ∧ Home program truth

mutual

/-- An expression of which a walk sees all, with the names that are local for it and in truth. -/
def SeesExpr (locals scope : List Name) : Expr → Prop
  | .ident _ => True
  | .node _ parts => SeesExprs locals scope parts
  | .call callee args =>
    SeesExpr locals scope callee ∧ SeesExprs locals scope args ∧
      SeesCall program (purityResolveCallSig program caller locals callee args.length)
        (purityResolveCallSig program caller scope callee args.length)
  | .memcall target name args =>
    SeesExpr locals scope target ∧ SeesExprs locals scope args ∧
      SeesCall program (purityResolveMemcallSig program caller locals target name)
        (purityResolveMemcallSig program caller scope target name)
  | .matchOn test arms => SeesExpr locals scope test ∧ SeesArms locals scope arms

/-- Expressions in a row of which a walk sees all. -/
def SeesExprs (locals scope : List Name) : Exprs → Prop
  | .nil => True
  | .cons first rest => SeesExpr locals scope first ∧ SeesExprs locals scope rest

/--
A statement of which a walk sees all.

What stands before the test of an `if` does nothing, since it is not visited; a name that is
assigned and taken for local is so in truth.
-/
def SeesStmt (locals scope : List Name) : Stmt → Prop
  | .block body => SeesStmts locals scope body
  | .var isDecl names exprs =>
    SeesExprs locals scope exprs ∧ (isDecl = false → ∀ name ∈ names,
      assignedNameContains locals name = true → assignedNameContains scope name = true)
  | .expr expr => SeesExpr locals scope expr
  | .ret value => SeesExprs locals scope value
  | .iff init test conseq alt =>
    let inner := (actsStmts patternBinds program caller scope init).2
    (actsStmts patternBinds program caller scope init).1 = [] ∧ SeesExpr locals inner test ∧
      SeesStmts locals inner conseq ∧ SeesStmts locals inner alt
  | .whl init test body update =>
    let inner := (actsStmts patternBinds program caller scope init).2
    SeesExpr locals inner test ∧ SeesStmts locals inner body ∧ SeesStmts locals inner update ∧
      SeesStmts (seenStmts program caller locals update).2 scope init
  | .fr init cond iterable vars body update =>
    let locals' := (seenStmts program caller locals init).2
    let outer := (actsStmts patternBinds program caller scope init).2
    SeesStmts locals scope init ∧ SeesExprs locals' outer cond ∧ SeesExprs locals' outer iterable ∧
      SeesStmts (addNames locals' vars) (addNames outer vars) body ∧
      SeesStmts (addNames locals' vars) outer update
  | .matchOn test arms => SeesExpr locals scope test ∧ SeesArms locals scope arms
  | .jump => True

/-- Statements in a row of which a walk sees all. -/
def SeesStmts (locals scope : List Name) : Stmts → Prop
  | .nil => True
  | .cons first rest =>
    SeesStmt locals scope first ∧
      SeesStmts (seenStmt program caller locals first).2
        (actsStmt patternBinds program caller scope first).2 rest

/-- The arms of a match of which a walk sees all. -/
def SeesArms (locals scope : List Name) : Arms → Prop
  | .default body => SeesStmts locals scope body
  | .cons patterns guard body rest =>
    let inner := addNames scope (bindsOf patternBinds patterns)
    SeesExprs locals scope patterns ∧ SeesExprs locals inner guard ∧ SeesStmts locals inner body ∧
      SeesArms locals scope rest

end

end Visibility

section Covering

variable {patternBinds : Expr → List Name} {program : Program} {caller : Nat}

variable (program) in
/-- What is performed is seen, or a call of what is not known is; and functions are performed. -/
structure Covers (items : List Item) (acts : List Act) : Prop where
  calls : ∀ sig, Act.call sig ∈ acts → Item.call sig ∈ items ∨ Item.call none ∈ items
  assigns : Act.assign ∈ acts → Item.part fxNone false ∈ items
  known : ∀ g, Item.call (some g) ∈ items → Act.call (some g) ∈ acts
  home : ∀ sig, Act.call sig ∈ acts → Home program sig

theorem Covers.parts {items : List Item} (parts : ∀ sig, Item.call sig ∉ items) :
    Covers program items [] where
  calls := fun _ none => absurd none List.not_mem_nil
  assigns := fun none => absurd none List.not_mem_nil
  known := fun g among => absurd among (parts _)
  home := fun _ none => absurd none List.not_mem_nil

theorem Covers.nil : Covers program [] [] := Covers.parts fun _ => List.not_mem_nil

theorem Covers.append {items items' : List Item} {acts acts' : List Act}
    (first : Covers program items acts) (second : Covers program items' acts') :
    Covers program (items ++ items') (acts ++ acts') where
  calls := by
    intro sig among
    simp only [List.mem_append] at among ⊢
    rcases among with here | there
    · rcases first.calls sig here with seen | unknown
      · exact Or.inl (Or.inl seen)
      · exact Or.inr (Or.inl unknown)
    · rcases second.calls sig there with seen | unknown
      · exact Or.inl (Or.inr seen)
      · exact Or.inr (Or.inr unknown)
  assigns := by
    intro among
    simp only [List.mem_append] at among ⊢
    exact among.imp first.assigns second.assigns
  known := by
    intro g among
    simp only [List.mem_append] at among ⊢
    exact among.imp (first.known g) (second.known g)
  home := by
    intro sig among
    rcases List.mem_append.1 among with here | there
    · exact first.home sig here
    · exact second.home sig there

theorem Covers.swap {items : List Item} {acts acts' : List Act}
    (covers : Covers program items (acts ++ acts')) : Covers program items (acts' ++ acts) where
  calls := fun sig among => covers.calls sig (List.mem_append.2 (List.mem_append.1 among).symm)
  assigns := fun among => covers.assigns (List.mem_append.2 (List.mem_append.1 among).symm)
  known := fun g among => List.mem_append.2 (List.mem_append.1 (covers.known g among)).symm
  home := fun sig among => covers.home sig (List.mem_append.2 (List.mem_append.1 among).symm)

theorem Covers.call {seen truth : Option Nat} (sees : SeesCall program seen truth)
    (same : seen = none ∨ truth = none ∨ seen = truth) :
    Covers program [.call seen] [.call truth] where
  calls := by
    intro sig among
    obtain rfl : sig = truth := by simpa using among
    rcases same with unknown | unknown | same
    · exact Or.inr (by simp [unknown])
    · exact Or.inr (by simp [sees.1 unknown])
    · exact Or.inl (by simp [same])
  assigns := fun among => absurd among (by simp)
  known := by
    intro g among
    obtain rfl : some g = seen := by simpa using among
    rcases same with unknown | unknown | same
    · cases unknown
    · cases sees.1 unknown
    · simp [same]
  home := by
    intro sig among
    obtain rfl : sig = truth := by simpa using among
    exact sees.2

theorem resolveCall_cases (locals scope : List Name) (callee : Expr) (args : Nat) :
    purityResolveCallSig program caller locals callee args = none ∨
    purityResolveCallSig program caller scope callee args = none ∨
    purityResolveCallSig program caller locals callee args =
      purityResolveCallSig program caller scope callee args := by
  cases callee with
  | ident name =>
    simp only [purityResolveCallSig]
    split
    · exact Or.inl rfl
    · split
      · exact Or.inl rfl
      · split
        · exact Or.inr (Or.inl rfl)
        · exact Or.inr (Or.inr rfl)
  | _ => exact Or.inl rfl

theorem resolveMemcall_cases (locals scope : List Name) (target : Expr) (name : Name) :
    purityResolveMemcallSig program caller locals target name = none ∨
    purityResolveMemcallSig program caller scope target name = none ∨
    purityResolveMemcallSig program caller locals target name =
      purityResolveMemcallSig program caller scope target name := by
  cases target with
  | ident targetName =>
    simp only [purityResolveMemcallSig]
    split
    · exact Or.inl rfl
    · split
      · exact Or.inl rfl
      · split
        · exact Or.inr (Or.inl rfl)
        · exact Or.inr (Or.inr rfl)
  | _ => exact Or.inl rfl

theorem Covers.callee {locals scope : List Name} {e : Expr}
    (covers : Covers program (seenExpr program caller locals e)
      (actsExpr patternBinds program caller scope e)) :
    Covers program (if e.isIdent then [] else seenExpr program caller locals e)
      (actsExpr patternBinds program caller scope e) := by
  cases e with
  | ident name =>
    simp only [Expr.isIdent, if_true, actsExpr]
    exact Covers.nil
  | _ => exact covers

mutual

theorem covers_expr {locals scope : List Name} : (e : Expr) →
    SeesExpr patternBinds program caller locals scope e →
    Covers program (seenExpr program caller locals e) (actsExpr patternBinds program caller scope e)
  | .ident name, _ => by
    simp only [seenExpr, actsExpr]
    exact Covers.parts (by simp)
  | .node kind parts, sees => by
    simp only [SeesExpr] at sees
    simp only [seenExpr, actsExpr]
    have self : Covers program [.part (nodeEffects kind) (nodeIsPure kind)] [] :=
      Covers.parts (by simp)
    exact self.append (covers_exprs parts sees)
  | .call callee args, sees => by
    simp only [SeesExpr] at sees
    simp only [seenExpr, actsExpr]
    exact ((covers_expr callee sees.1).callee.append (covers_exprs args sees.2.1)).append
      (Covers.call sees.2.2 (resolveCall_cases locals scope callee args.length))
  | .memcall target name args, sees => by
    simp only [SeesExpr] at sees
    simp only [seenExpr, actsExpr]
    exact ((covers_expr target sees.1).callee.append (covers_exprs args sees.2.1)).append
      (Covers.call sees.2.2 (resolveMemcall_cases locals scope target name))
  | .matchOn test arms, sees => by
    simp only [SeesExpr] at sees
    simp only [seenExpr, actsExpr]
    exact (covers_expr test sees.1).append (covers_arms arms sees.2)

theorem covers_exprs {locals scope : List Name} : (es : Exprs) →
    SeesExprs patternBinds program caller locals scope es →
    Covers program (seenExprs program caller locals es)
      (actsExprs patternBinds program caller scope es)
  | .nil, _ => by
    simp only [seenExprs, actsExprs]
    exact Covers.nil
  | .cons first rest, sees => by
    simp only [SeesExprs] at sees
    simp only [seenExprs, actsExprs]
    exact (covers_expr first sees.1).append (covers_exprs rest sees.2)

/-- What a statement performs is seen. -/
theorem covers_stmt {locals scope : List Name} : (s : Stmt) →
    SeesStmt patternBinds program caller locals scope s →
    Covers program (seenStmt program caller locals s).1
      (actsStmt patternBinds program caller scope s).1
  | .block body, sees => by
    simp only [SeesStmt] at sees
    simp only [seenStmt, actsStmt]
    exact covers_stmts body sees
  | .var isDecl names exprs, sees => by
    simp only [SeesStmt] at sees
    simp only [seenStmt, actsStmt]
    have parts := covers_exprs exprs sees.1
    refine Covers.swap (Covers.append ?_ parts)
    -- an assignment to what is not local in truth is seen as one
    by_cases own : (isDecl || names.all (assignedNameContains scope)) = true
    · rw [if_pos own]
      refine Covers.parts fun sig => ?_
      split <;> simp
    · rw [if_neg own]
      have foreign : ¬ (isDecl || names.all (assignedNameContains locals)) = true := by
        intro within
        apply own
        cases isDecl with
        | true => rfl
        | false =>
          simp only [Bool.false_or, List.all_eq_true] at within ⊢
          exact fun name among => sees.2 rfl name among (within name among)
      rw [if_neg foreign]
      exact ⟨by simp, by simp, by simp, by simp⟩
  | .expr expr, sees => by
    simp only [SeesStmt] at sees
    simp only [seenStmt, actsStmt]
    exact covers_expr expr sees
  | .ret value, sees => by
    simp only [SeesStmt] at sees
    simp only [seenStmt, actsStmt]
    exact covers_exprs value sees
  | .iff init test conseq alt, sees => by
    simp only [SeesStmt] at sees
    simp only [seenStmt, actsStmt]
    rw [sees.1, List.nil_append]
    exact ((covers_expr test sees.2.1).append (covers_stmts conseq sees.2.2.1)).append
      (covers_stmts alt sees.2.2.2)
  | .whl init test body update, sees => by
    simp only [SeesStmt] at sees
    simp only [seenStmt, actsStmt]
    -- what is seen last is performed first
    have inner := ((covers_expr test sees.1).append (covers_stmts body sees.2.1)).append
      (covers_stmts update sees.2.2.1)
    have all := (inner.append (covers_stmts init sees.2.2.2)).swap
    simpa only [List.append_assoc] using all
  | .fr init cond iterable vars body update, sees => by
    simp only [SeesStmt] at sees
    simp only [seenStmt, actsStmt]
    exact ((((covers_stmts init sees.1).append (covers_exprs cond sees.2.1)).append
      (covers_exprs iterable sees.2.2.1)).append (covers_stmts body sees.2.2.2.1)).append
      (covers_stmts update sees.2.2.2.2)
  | .matchOn test arms, sees => by
    simp only [SeesStmt] at sees
    simp only [seenStmt, actsStmt]
    exact (covers_expr test sees.1).append (covers_arms arms sees.2)
  | .jump, _ => by
    simp only [seenStmt, actsStmt]
    exact Covers.nil

theorem covers_stmts {locals scope : List Name} : (ss : Stmts) →
    SeesStmts patternBinds program caller locals scope ss →
    Covers program (seenStmts program caller locals ss).1
      (actsStmts patternBinds program caller scope ss).1
  | .nil, _ => by
    simp only [seenStmts, actsStmts]
    exact Covers.nil
  | .cons first rest, sees => by
    simp only [SeesStmts] at sees
    simp only [seenStmts, actsStmts]
    exact (covers_stmt first sees.1).append (covers_stmts rest sees.2)

theorem covers_arms {locals scope : List Name} : (arms : Arms) →
    SeesArms patternBinds program caller locals scope arms →
    Covers program (seenArms program caller locals arms)
      (actsArms patternBinds program caller scope arms)
  | .default body, sees => by
    simp only [SeesArms] at sees
    simp only [seenArms, actsArms]
    exact covers_stmts body sees
  | .cons patterns guard body rest, sees => by
    simp only [SeesArms] at sees
    simp only [seenArms, actsArms]
    exact (((covers_exprs patterns sees.1).append (covers_exprs guard sees.2.1)).append
      (covers_stmts body sees.2.2.1)).append (covers_arms rest sees.2.2.2)

end

end Covering

end Nytrix.Effects
