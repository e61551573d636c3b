import Nytrix.Effects.Purity

/-! What a body performs when it runs, and what the walks over it see of that. -/

namespace Nytrix.Effects

open Nytrix.Types (Name nm)

/-- What a body may do: call what is known or not, and assign to what is not its own. -/
inductive Act where
  | call (sig : Option Nat)
  | assign
  deriving DecidableEq

/-- What a walk sees: a call, or a part that has effects of its own and is pure or not. -/
inductive Item where
  | call (sig : Option Nat)
  | part (effects : Mask) (isPure : Bool)
  deriving DecidableEq

/-- Whether an expression is a name. -/
def Expr.isIdent : Expr → Bool
  | .ident _ => true
  | _ => false

section Walks

-- the names that a pattern binds when it is compiled
variable (patternBinds : Expr → List Name) (program : Program) (caller : Nat)

/-- The names that patterns bind. -/
def bindsOf : Exprs → List Name
  | .nil => []
  | .cons first rest => patternBinds first ++ bindsOf rest

mutual

/-- What an expression performs, with the names that are local when it runs. -/
def actsExpr (scope : List Name) : Expr → List Act
  | .ident _ => []
  | .node _ parts => actsExprs scope parts
  | .call callee args =>
    actsExpr scope callee ++ actsExprs scope args ++
      [.call (purityResolveCallSig program caller scope callee args.length)]
  | .memcall target name args =>
    actsExpr scope target ++ actsExprs scope args ++
      [.call (purityResolveMemcallSig program caller scope target name)]
  | .matchOn test arms => actsExpr scope test ++ actsArms scope arms

/-- What expressions in a row perform. -/
def actsExprs (scope : List Name) : Exprs → List Act
  | .nil => []
  | .cons first rest => actsExpr scope first ++ actsExprs scope rest

/-- What a statement performs, and the names that are local behind it. -/
def actsStmt (scope : List Name) : Stmt → List Act × List Name
  | .block body => ((actsStmts scope body).1, scope)
  | .var isDecl names exprs =>
    (actsExprs scope exprs ++
      (if isDecl || names.all (assignedNameContains scope) then [] else [.assign]),
      if isDecl then addNames scope names else scope)
  | .expr expr => (actsExpr scope expr, scope)
  | .ret value => (actsExprs scope value, scope)
  -- the names that are declared before the test are those of the whole statement
  | .iff init test conseq alt =>
    let (first, inner) := actsStmts scope init
    let (last, inner') := actsStmts inner alt
    (first ++ actsExpr inner test ++ (actsStmts inner conseq).1 ++ last,
      match init with
      | .nil => inner'
      | .cons _ _ => scope)
  | .whl init test body update =>
    let (first, inner) := actsStmts scope init
    (first ++ actsExpr inner test ++ (actsStmts inner body).1 ++ (actsStmts inner update).1, scope)
  -- the names that are declared before the loop stay behind it
  | .fr init cond iterable vars body update =>
    let (first, outer) := actsStmts scope init
    let (last, outer') := actsStmts outer update
    (first ++ actsExprs outer cond ++ actsExprs outer iterable ++
      (actsStmts (addNames outer vars) body).1 ++ last, outer')
  | .matchOn test arms => (actsExpr scope test ++ actsArms scope arms, scope)
  | .jump => ([], scope)

/-- What statements in a row perform, and the names that are local behind them. -/
def actsStmts (scope : List Name) : Stmts → List Act × List Name
  | .nil => ([], scope)
  | .cons first rest =>
    let (acts, scope') := actsStmt scope first
    let (acts', scope'') := actsStmts scope' rest
    (acts ++ acts', scope'')

/-- What the arms of a match perform, where patterns bind names. -/
def actsArms (scope : List Name) : Arms → List Act
  | .default body => (actsStmts scope body).1
  | .cons patterns guard body rest =>
    let inner := addNames scope (bindsOf patternBinds patterns)
    actsExprs scope patterns ++ actsExprs inner guard ++ (actsStmts inner body).1 ++
      actsArms scope rest

end

mutual

/-- What a walk sees of an expression. -/
def seenExpr (locals : List Name) : Expr → List Item
  | .ident name =>
    [.part fxNone
      (name ≠ [] && (assignedNameContains locals name || program.isGlobal caller name))]
  | .node kind parts => .part (nodeEffects kind) (nodeIsPure kind) :: seenExprs locals parts
  | .call callee args =>
    (if callee.isIdent then [] else seenExpr locals callee) ++ seenExprs locals args ++
      [.call (purityResolveCallSig program caller locals callee args.length)]
  | .memcall target name args =>
    (if target.isIdent then [] else seenExpr locals target) ++ seenExprs locals args ++
      [.call (purityResolveMemcallSig program caller locals target name)]
  | .matchOn test arms => seenExpr locals test ++ seenArms locals arms

/-- What a walk sees of expressions in a row. -/
def seenExprs (locals : List Name) : Exprs → List Item
  | .nil => []
  | .cons first rest => seenExpr locals first ++ seenExprs locals rest

/-- What a walk sees of a statement, and the names that it takes for local behind it. -/
def seenStmt (locals : List Name) : Stmt → List Item × List Name
  | .block body => ((seenStmts locals body).1, locals)
  | .var isDecl names exprs =>
    ((if isDecl || names.all (assignedNameContains locals) then [] else [.part fxNone false]) ++
      seenExprs locals exprs, if isDecl then addNames locals names else locals)
  | .expr expr => (seenExpr locals expr, locals)
  | .ret value => (seenExprs locals value, locals)
  | .iff _ test conseq alt =>
    let (last, locals') := seenStmts locals alt
    (seenExpr locals test ++ (seenStmts locals conseq).1 ++ last, locals')
  | .whl init test body update =>
    let (third, locals') := seenStmts locals update
    let (last, locals'') := seenStmts locals' init
    (seenExpr locals test ++ (seenStmts locals body).1 ++ third ++ last, locals'')
  | .fr init cond iterable vars body update =>
    let (first, locals') := seenStmts locals init
    let inner := addNames locals' vars
    (first ++ seenExprs locals' cond ++ seenExprs locals' iterable ++ (seenStmts inner body).1 ++
      (seenStmts inner update).1, locals')
  | .matchOn test arms => (seenExpr locals test ++ seenArms locals arms, locals)
  | .jump => ([], locals)

/-- What a walk sees of statements in a row, and the names that it takes for local behind them. -/
def seenStmts (locals : List Name) : Stmts → List Item × List Name
  | .nil => ([], locals)
  | .cons first rest =>
    let (items, locals') := seenStmt locals first
    let (items', locals'') := seenStmts locals' rest
    (items ++ items', locals'')

/-- What a walk sees of the arms of a match. -/
def seenArms (locals : List Name) : Arms → List Item
  | .default body => (seenStmts locals body).1
  | .cons patterns guard body rest =>
    seenExprs locals patterns ++ seenExprs locals guard ++ (seenStmts locals body).1 ++
      seenArms locals rest

end

end Walks

section Sums

variable (program : Program) (caller : Nat)

/-- Whether something that is seen has an effect, from the effects that are recorded. -/
def Item.has (effects : Nat → Mask) (bit : Nat) : Item → Bool
  | .call sig => (callEffects program effects sig).getLsbD bit
  | .part mask _ => mask.getLsbD bit

/-- Whether something that is seen is pure, from what is recorded. -/
def Item.isSafe (pure : Nat → Bool) : Item → Bool
  | .call sig => nySigIsPure program pure sig
  | .part _ isPure => isPure

theorem effectsExpr_ident (effects : Nat → Mask) (locals : List Name) {e : Expr}
    (name : e.isIdent = true) : effectsExpr program caller effects locals e = fxNone := by
  cases e with
  | ident name => rfl
  | _ => cases name

theorem getLsbD_fxNone (bit : Nat) : fxNone.getLsbD bit = false := BitVec.getLsbD_zero

theorem resolveCall_other (locals : List Name) {callee : Expr} (other : callee.isIdent = false)
    (args : Nat) : purityResolveCallSig program caller locals callee args = none := by
  cases callee with
  | ident name => cases other
  | _ => rfl

theorem resolveMemcall_other (locals : List Name) {target : Expr} (other : target.isIdent = false)
    (name : Name) : purityResolveMemcallSig program caller locals target name = none := by
  cases target with
  | ident name => cases other
  | _ => rfl

section Effects

variable (effects : Nat → Mask) (bit : Nat)

mutual

theorem effectsExpr_seen (locals : List Name) : (e : Expr) →
    (effectsExpr program caller effects locals e).getLsbD bit =
      (seenExpr program caller locals e).any (Item.has program effects bit)
  | .ident name => by
    simp [effectsExpr, seenExpr, Item.has, getLsbD_fxNone]
  | .node kind parts => by
    simp [effectsExpr, seenExpr, Item.has, effectsExprs_seen locals parts]
  | .call callee args => by
    have first := effectsExpr_seen locals callee
    have second := effectsExprs_seen locals args
    cases name : callee.isIdent with
    | true =>
      simp [effectsExpr, seenExpr, Item.has, name, second, effectsExpr_ident program caller effects
        locals name, getLsbD_fxNone]
    | false =>
      simp [effectsExpr, seenExpr, Item.has, name, first, second, Bool.or_assoc]
  | .memcall target name args => by
    have first := effectsExpr_seen locals target
    have second := effectsExprs_seen locals args
    cases ident : target.isIdent with
    | true =>
      simp [effectsExpr, seenExpr, Item.has, ident, second, effectsExpr_ident program caller effects
        locals ident, getLsbD_fxNone]
    | false =>
      simp [effectsExpr, seenExpr, Item.has, ident, first, second, Bool.or_assoc]
  | .matchOn test arms => by
    simp [effectsExpr, seenExpr, effectsExpr_seen locals test, effectsArms_seen locals arms]

theorem effectsExprs_seen (locals : List Name) : (es : Exprs) →
    (effectsExprs program caller effects locals es).getLsbD bit =
      (seenExprs program caller locals es).any (Item.has program effects bit)
  | .nil => by simp [effectsExprs, seenExprs, getLsbD_fxNone]
  | .cons first rest => by
    simp [effectsExprs, seenExprs, effectsExpr_seen locals first, effectsExprs_seen locals rest]

theorem effectsStmt_seen (locals : List Name) : (s : Stmt) →
    (effectsStmt program caller effects locals s).1.getLsbD bit =
      (seenStmt program caller locals s).1.any (Item.has program effects bit) ∧
    (effectsStmt program caller effects locals s).2 = (seenStmt program caller locals s).2
  | .block body => by
    simp [effectsStmt, seenStmt, (effectsStmts_seen locals body).1]
  | .var isDecl names exprs => by
    have parts := effectsExprs_seen locals exprs
    by_cases own : (isDecl || names.all (assignedNameContains locals)) = true
    · simp [effectsStmt, seenStmt, parts, own]
    · simp [effectsStmt, seenStmt, parts, own, Item.has, getLsbD_fxNone]
  | .expr expr => by
    simp [effectsStmt, seenStmt, effectsExpr_seen locals expr]
  | .ret value => by
    simp [effectsStmt, seenStmt, effectsExprs_seen locals value]
  | .iff init test conseq alt => by
    have last := effectsStmts_seen locals alt
    simp [effectsStmt, seenStmt, effectsExpr_seen locals test,
      (effectsStmts_seen locals conseq).1, last.1, last.2, Bool.or_assoc]
  | .whl init test body update => by
    have third := effectsStmts_seen locals update
    have last := effectsStmts_seen (seenStmts program caller locals update).2 init
    simp [effectsStmt, seenStmt, effectsExpr_seen locals test, (effectsStmts_seen locals body).1,
      third.1, third.2, last.1, last.2, Bool.or_assoc]
  | .fr init cond iterable vars body update => by
    have first := effectsStmts_seen locals init
    simp [effectsStmt, seenStmt, first.1, first.2, effectsExprs_seen _ cond,
      effectsExprs_seen _ iterable, (effectsStmts_seen _ body).1, (effectsStmts_seen _ update).1,
      Bool.or_assoc]
  | .matchOn test arms => by
    simp [effectsStmt, seenStmt, effectsExpr_seen locals test, effectsArms_seen locals arms]
  | .jump => by simp [effectsStmt, seenStmt, getLsbD_fxNone]

theorem effectsStmts_seen (locals : List Name) : (ss : Stmts) →
    (effectsStmts program caller effects locals ss).1.getLsbD bit =
      (seenStmts program caller locals ss).1.any (Item.has program effects bit) ∧
    (effectsStmts program caller effects locals ss).2 = (seenStmts program caller locals ss).2
  | .nil => by simp [effectsStmts, seenStmts, getLsbD_fxNone]
  | .cons first rest => by
    have one := effectsStmt_seen locals first
    have more := effectsStmts_seen (seenStmt program caller locals first).2 rest
    simp [effectsStmts, seenStmts, one.1, one.2, more.1, more.2]

theorem effectsArms_seen (locals : List Name) : (arms : Arms) →
    (effectsArms program caller effects locals arms).getLsbD bit =
      (seenArms program caller locals arms).any (Item.has program effects bit)
  | .default body => by simp [effectsArms, seenArms, (effectsStmts_seen locals body).1]
  | .cons patterns guard body rest => by
    simp [effectsArms, seenArms, effectsExprs_seen locals patterns, effectsExprs_seen locals guard,
      (effectsStmts_seen locals body).1, effectsArms_seen locals rest, Bool.or_assoc]

end

end Effects

section Purity

variable (pure : Nat → Bool)

/-- Whether all that is seen is pure. -/
def allSafe (items : List Item) : Bool := items.all (Item.isSafe program pure)

theorem allSafe_append (first second : List Item) :
    allSafe program pure (first ++ second) =
      (allSafe program pure first && allSafe program pure second) := List.all_append

/-- What a walk takes for pure, given what is seen of it. -/
def ifSafe (seen : List Item × List Name) : Option (List Name) :=
  if allSafe program pure seen.1 then some seen.2 else none

mutual

theorem exprCheckSafe_seen (locals : List Name) : (e : Expr) →
    exprCheckSafe program caller pure locals e =
      allSafe program pure (seenExpr program caller locals e)
  | .ident name => by simp [exprCheckSafe, seenExpr, allSafe, Item.isSafe]
  | .node kind parts => by
    have parts' := exprsCheckSafe_seen locals parts
    simp [exprCheckSafe, seenExpr, parts', allSafe, Item.isSafe]
  | .call callee args => by
    have second := exprsCheckSafe_seen locals args
    cases name : callee.isIdent with
    | true => simp [exprCheckSafe, seenExpr, second, allSafe, Item.isSafe, name]
    | false =>
      -- what is not called by a name is not pure
      simp [exprCheckSafe, seenExpr, allSafe, Item.isSafe,
        resolveCall_other program caller locals name, nySigIsPure]
  | .memcall target name args => by
    have second := exprsCheckSafe_seen locals args
    cases ident : target.isIdent with
    | true => simp [exprCheckSafe, seenExpr, second, allSafe, Item.isSafe, ident]
    | false =>
      simp [exprCheckSafe, seenExpr, allSafe, Item.isSafe,
        resolveMemcall_other program caller locals ident, nySigIsPure]
  | .matchOn test arms => by
    simp [exprCheckSafe, seenExpr, exprCheckSafe_seen locals test, armsCheckSafe_seen locals arms,
      allSafe_append]

theorem exprsCheckSafe_seen (locals : List Name) : (es : Exprs) →
    exprsCheckSafe program caller pure locals es =
      allSafe program pure (seenExprs program caller locals es)
  | .nil => by simp [exprsCheckSafe, seenExprs, allSafe]
  | .cons first rest => by
    simp [exprsCheckSafe, seenExprs, exprCheckSafe_seen locals first,
      exprsCheckSafe_seen locals rest, allSafe_append]

/-- A statement is taken for pure if all that is seen of it is pure. -/
theorem stmtCheckSafe_seen (locals : List Name) : (s : Stmt) →
    stmtCheckSafe program caller pure locals s =
      ifSafe program pure (seenStmt program caller locals s)
  | .block body => by
    have parts := stmtsCheckSafe_seen locals body
    unfold stmtCheckSafe ifSafe
    rw [parts, ifSafe]
    have same : (seenStmt program caller locals (.block body)).1 =
        (seenStmts program caller locals body).1 := by simp [seenStmt]
    rw [same]
    by_cases safe : allSafe program pure (seenStmts program caller locals body).1 = true
    · simp [safe, seenStmt]
    · simp [safe]
  | .var isDecl names exprs => by
    have parts := exprsCheckSafe_seen locals exprs
    by_cases own : (isDecl || names.all (assignedNameContains locals)) = true
    · have foreign : (!isDecl && !names.all (assignedNameContains locals)) = false := by
        rw [← Bool.not_or, own]
        rfl
      simp [stmtCheckSafe, seenStmt, parts, own, foreign, ifSafe]
    · have foreign : (!isDecl && !names.all (assignedNameContains locals)) = true := by
        rw [← Bool.not_or, Bool.eq_false_iff.2 own]
        rfl
      simp [stmtCheckSafe, seenStmt, own, foreign, ifSafe, allSafe, Item.isSafe]
  | .expr expr => by
    unfold stmtCheckSafe
    rw [exprCheckSafe_seen locals expr]
    rfl
  | .ret value => by
    unfold stmtCheckSafe
    rw [exprsCheckSafe_seen locals value]
    rfl
  | .iff init test conseq alt => by
    have first := exprCheckSafe_seen locals test
    have second := stmtsCheckSafe_seen locals conseq
    have last := stmtsCheckSafe_seen locals alt
    simp only [stmtCheckSafe, seenStmt, first, second, last, ifSafe, allSafe_append]
    cases allSafe program pure (seenExpr program caller locals test) <;>
      cases allSafe program pure (seenStmts program caller locals conseq).1 <;> simp
  | .whl init test body update => by
    have first := exprCheckSafe_seen locals test
    have second := stmtsCheckSafe_seen locals body
    have third := stmtsCheckSafe_seen locals update
    have last := stmtsCheckSafe_seen (seenStmts program caller locals update).2 init
    simp only [stmtCheckSafe, seenStmt, first, second, third, ifSafe, allSafe_append]
    cases allSafe program pure (seenExpr program caller locals test) <;>
      cases allSafe program pure (seenStmts program caller locals body).1 <;>
      cases allSafe program pure (seenStmts program caller locals update).1 <;>
      simp [last, ifSafe]
  | .fr init cond iterable vars body update => by
    have first := stmtsCheckSafe_seen locals init
    have second := exprsCheckSafe_seen (seenStmts program caller locals init).2 cond
    have third := exprsCheckSafe_seen (seenStmts program caller locals init).2 iterable
    have fourth := stmtsCheckSafe_seen (addNames (seenStmts program caller locals init).2 vars) body
    have last := stmtsCheckSafe_seen (addNames (seenStmts program caller locals init).2 vars) update
    simp only [stmtCheckSafe, seenStmt, first, ifSafe, allSafe_append]
    cases allSafe program pure (seenStmts program caller locals init).1 with
    | false => simp
    | true =>
      simp only [if_true, Option.bind_some, second, third, fourth, last, ifSafe, Bool.true_and]
      cases allSafe program pure
          (seenExprs program caller (seenStmts program caller locals init).2 cond) <;>
        cases allSafe program pure
          (seenExprs program caller (seenStmts program caller locals init).2 iterable) <;>
        cases allSafe program pure (seenStmts program caller
          (addNames (seenStmts program caller locals init).2 vars) body).1 <;>
        cases allSafe program pure (seenStmts program caller
          (addNames (seenStmts program caller locals init).2 vars) update).1 <;> simp
  | .matchOn test arms => by
    simp [stmtCheckSafe, seenStmt, exprCheckSafe_seen locals test, armsCheckSafe_seen locals arms,
      ifSafe, allSafe_append]
  | .jump => by simp [stmtCheckSafe, seenStmt, ifSafe, allSafe]

theorem stmtsCheckSafe_seen (locals : List Name) : (ss : Stmts) →
    stmtsCheckSafe program caller pure locals ss =
      ifSafe program pure (seenStmts program caller locals ss)
  | .nil => by simp [stmtsCheckSafe, seenStmts, ifSafe, allSafe]
  | .cons first rest => by
    have one := stmtCheckSafe_seen locals first
    have more := stmtsCheckSafe_seen (seenStmt program caller locals first).2 rest
    simp only [stmtsCheckSafe, seenStmts, one, ifSafe, allSafe_append]
    cases allSafe program pure (seenStmt program caller locals first).1 <;> simp [more, ifSafe]

theorem armsCheckSafe_seen (locals : List Name) : (arms : Arms) →
    armsCheckSafe program caller pure locals arms =
      allSafe program pure (seenArms program caller locals arms)
  | .default body => by
    have parts := stmtsCheckSafe_seen locals body
    simp only [armsCheckSafe, seenArms, parts, ifSafe]
    cases allSafe program pure (seenStmts program caller locals body).1 <;> rfl
  | .cons patterns guard body rest => by
    have third := stmtsCheckSafe_seen locals body
    simp only [armsCheckSafe, seenArms, exprsCheckSafe_seen locals patterns,
      exprsCheckSafe_seen locals guard, third, armsCheckSafe_seen locals rest, ifSafe,
      allSafe_append]
    cases allSafe program pure (seenStmts program caller locals body).1 <;> simp

end

end Purity

end Sums

end Nytrix.Effects
