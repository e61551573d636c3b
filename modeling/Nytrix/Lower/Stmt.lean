import Nytrix.Lower.Expr

/-! The lowering of statements. -/

namespace Nytrix.Lower

open Nytrix.Nir

/-- Sets the value a block would have if it ended here. -/
def setLastValue (value : Int) : LowerM Unit := modify fun b => { b with lastValue := value }

/-- Sets whether control has left the statement being lowered. -/
def setEmittedReturn (returned : Bool) : LowerM Unit :=
  modify fun b => { b with emittedReturn := returned }

/-- The float flags of a binding: its written type decides, or else its initialiser. -/
def bindingFlags (env : Env) (locals : List Local) (type : Option String) (init : Expr) :
    Bool × Bool :=
  let isF64 := typeNameIsF64 type || (!typeNameIsF32 type && exprIsF64 env locals init)
  (isF64, typeNameIsF32 type || (!isF64 && exprIsF32 env locals init))

/-- The value of an initialiser, a float literal being rounded for a single. -/
def lowerInitializer (env : Env) (isF32 : Bool) (init : Expr) : LowerM Int :=
  match isF32, init with
  | true, .literal (.float bits) => emitConstF32 bits
  | _, init => lowerExpr env init

/-- The slot a binding stores to: a new one for a declaration, else that of the name in scope. -/
def bindingSlot (isDecl : Bool) (name : String) (isF64 isF32 : Bool) : LowerM Nat :=
  if isDecl then bindLocalTyped name isF64 isF32 else addLocal name

/-- Widens a single that is bound to a double. -/
def widenSingle (isSingle : Bool) (value : Int) : LowerM Int :=
  if isSingle then emitConvert .f32ToF64 value else pure value

/-- One name of a binding or an assignment. -/
def lowerBinding (env : Env) (isDecl : Bool) (name : String) (init : Expr) (type : Option String) :
    LowerM Unit :=
  if name = "_" then pure ()
  else if init.isMissing then
    fail ("native NYIR lower: local '" ++ name ++ "' needs an initializer")
  else do
    let (isF64, isF32) := bindingFlags env (← get).locals type init
    -- The name comes into scope here, before its initialiser is lowered.
    let slot ← bindingSlot isDecl name isF64 isF32
    modify fun b => { b with locals := raiseFlags name isF64 isF32 b.locals }
    let value ← lowerInitializer env isF32 init
    let value ← widenSingle (isF64 && exprIsF32 env (← get).locals init) value
    emitEffect (storeInst slot value (some name))
    setLastValue value

/-- The names of a binding, each with the initialiser and the type at its position. -/
def lowerBindings (env : Env) (isDecl : Bool) :
    List String → List Expr → List (Option String) → LowerM Unit
  | [], _, _ => pure ()
  | name :: names, exprs, types => do
    lowerBinding env isDecl name (exprs.headD .missing) (types.headD none)
    lowerBindings env isDecl names exprs.tail types.tail

/-- A binding or an assignment. -/
def lowerVar (env : Env) (v : Var) : LowerM Unit :=
  if v.isDel || v.isDestructure then
    fail "native NYIR lower: only simple def/mut bindings are supported"
  else lowerBindings env v.isDecl v.names v.exprs v.types

/-- Ends a branch of a choice that control did not leave: its value goes to the result slot. -/
def endBranch (b : Builder) (resultSlot : Nat) (leave : LowerM Unit) : LowerM Bool :=
  if b.emittedReturn then pure true
  else do
    onlyIf (0 ≤ b.lastValue) (storeLocalValue resultSlot b.lastValue)
    leave
    return false

/-- One branch of a choice; it answers whether control left it. -/
def lowerBranch (lower : LowerM Unit) (resultSlot : Nat) (leave : LowerM Unit) : LowerM Bool := do
  setEmittedReturn false
  lower
  endBranch (← get) resultSlot leave

/-- A branch that may be absent, and then does not leave. -/
def lowerOptional (lower : Option (LowerM Unit)) (resultSlot : Nat) (leave : LowerM Unit) :
    LowerM Bool :=
  match lower with
  | some lower => lowerBranch lower resultSlot leave
  | none => pure false

/-- The point where the branches of a choice meet and its result is loaded. -/
def loadResult (mergeLabel resultSlot : Nat) : LowerM Unit := do
  emitLabel mergeLabel
  let loaded ← loadLocalValue resultSlot
  setLastValue loaded

/-- The end of a choice, whose branches meet unless control left all of them. -/
def lowerJoin (returned : Bool) (mergeLabel resultSlot : Nat) : LowerM Unit := do
  setEmittedReturn returned
  onlyIf (!returned) (loadResult mergeLabel resultSlot)

/-- A conditional statement, given how its parts are lowered. -/
def lowerIf (lowerInit : LowerM Unit) (lowerTest : LowerM Int) (lowerConseq : LowerM Unit)
    (lowerAlt : Option (LowerM Unit)) : LowerM Unit := do
  lowerInit
  let cond ← lowerTest
  let elseLabel ← freshLabel
  let mergeLabel ← freshLabel
  let endLabel ← freshLabel
  emitBrUnless cond elseLabel
  let resultSlot ← tempSlot
  let entry ← get
  -- Without an alternative the value so far is stored ahead, for when the test fails.
  onlyIf (lowerAlt.isNone && !entry.emittedReturn && decide (0 ≤ entry.lastValue))
    (storeLocalValue resultSlot entry.lastValue)
  let conseqReturns ← lowerBranch lowerConseq resultSlot (emitBr mergeLabel)
  emitLabel elseLabel
  setEmittedReturn false
  setLastValue entry.lastValue
  let altReturns ← lowerOptional lowerAlt resultSlot (pure ())
  lowerJoin (entry.emittedReturn || (conseqReturns && altReturns)) mergeLabel resultSlot
  emitLabel endLabel

/-- Enters a loop, unless it is nested too deep. -/
def enterLoop (labels : LoopLabels) : LowerM Unit := do
  if maxLoops ≤ (← get).loops.length then
    fail "native NYIR lower: loop nesting limit exceeded"
  else modify fun b => { b with loops := labels :: b.loops, emittedReturn := false }

/-- Leaves a loop, with the value there was before it. -/
def leaveLoop (entry : Builder) : LowerM Unit :=
  modify fun b => { b with
    loops := entry.loops, emittedReturn := entry.emittedReturn, lastValue := entry.lastValue }

/-- The label that `continue` goes to: the head, or the update clause when there is one. -/
def continueTarget (hasUpdate : Bool) (headLabel : Nat) : LowerM Nat :=
  if hasUpdate then freshLabel else pure headLabel

/-- The update clause of a loop. -/
def lowerUpdateClause (updateLabel : Nat) (lowerUpdate : Option (LowerM Unit)) : LowerM Unit :=
  match lowerUpdate with
  | none => pure ()
  | some lowerUpdate => do
    setEmittedReturn false
    emitLabel updateLabel
    lowerUpdate

/-- A loop under a condition, given how its parts are lowered. -/
def lowerWhile (lowerInit : LowerM Unit) (lowerTest : LowerM Int) (lowerBody : LowerM Unit)
    (lowerUpdate : Option (LowerM Unit)) : LowerM Unit := do
  lowerInit
  let headLabel ← freshLabel
  let updateLabel ← continueTarget lowerUpdate.isSome headLabel
  let endLabel ← freshLabel
  emitLabel headLabel
  let cond ← lowerTest
  emitBrUnless cond endLabel
  let entry ← get
  enterLoop ⟨updateLabel, endLabel⟩
  lowerBody
  lowerUpdateClause updateLabel lowerUpdate
  leaveLoop entry
  emitBr headLabel
  emitLabel endLabel

/-- The bounds of a range expression. -/
def iterableIsRange : Expr → Option (Expr × Expr)
  | .binary ".." lo hi => some (lo, hi)
  | _ => none

/-- Brings the index name of a loop into scope, when it has one. -/
def bindIndex : Option String → LowerM (Option Nat)
  | none => pure none
  | some name => do
    let slot ← bindLocal name
    return some slot

/-- Starts the index of a loop at zero. -/
def startIndex : Option Nat → LowerM Unit
  | none => pure ()
  | some slot => do
    let zero ← emitConst 0
    storeLocalValue slot zero

/-- Moves a loop's counter on by a value. -/
def stepSlot (slot : Nat) (one : Int) : LowerM Unit := do
  let cur ← loadLocalValue slot
  let next ← emitAddI64 cur one
  storeLocalValue slot next

/-- Moves the index of a loop on. -/
def stepIndex (one : Int) : Option Nat → LowerM Unit
  | none => pure ()
  | some slot => stepSlot slot one

/-- Stores the bounds of a range: the lower one in the loop variable, the upper one by itself. -/
def lowerRangeStart (env : Env) (loExpr hiExpr : Expr) (iter : Nat) (index : Option Nat) :
    LowerM Nat := do
  let (lo, hi) ← both (lowerExpr env loExpr) (lowerExpr env hiExpr)
  let hiSlot ← tempSlot
  storeLocalValue iter lo
  storeLocalValue hiSlot hi
  startIndex index
  return hiSlot

/-- Leaves a loop over a range when its variable is past the upper bound. -/
def lowerRangeTest (iter hiSlot endLabel : Nat) : LowerM Unit := do
  let cur ← loadLocalValue iter
  let stop ← loadLocalValue hiSlot
  let inRange ← emitCmp cur stop .le
  emitBrUnless inRange endLabel

/-- Moves a loop over a range on, after the label that `continue` goes to. -/
def lowerRangeUpdate (iter : Nat) (index : Option Nat) (updateLabel : Nat) : LowerM Unit := do
  setEmittedReturn false
  emitLabel updateLabel
  let one ← emitConst 1
  stepSlot iter one
  stepIndex one index

/-- A loop over a range, given how its body is lowered. -/
def lowerForRange (env : Env) (iterVar indexVar : Option String) (iterable : Expr)
    (lowerBody : LowerM Unit) : LowerM Unit :=
  match iterVar, iterableIsRange iterable with
  | some iterVar, some (loExpr, hiExpr) => do
    let mark := (← get).locals.length
    -- The loop's names come into scope here, before its bounds are lowered.
    let iter ← bindLocal iterVar
    let index ← bindIndex indexVar
    let hiSlot ← lowerRangeStart env loExpr hiExpr iter index
    let headLabel ← freshLabel
    let updateLabel ← freshLabel
    let endLabel ← freshLabel
    emitLabel headLabel
    lowerRangeTest iter hiSlot endLabel
    let entry ← get
    enterLoop ⟨updateLabel, endLabel⟩
    lowerBody
    lowerRangeUpdate iter index updateLabel
    leaveLoop entry
    emitBr headLabel
    emitLabel endLabel
    modify (scopeRestore mark)
  | _, _ =>
    fail "native NYIR lower: for loops currently support `for name in lo..hi` ranges"

/-- The test of a value against one pattern. -/
def lowerMatchPattern (env : Env) (testValue : Int) : Expr → LowerM Int
  | .ident "_" => emitConst 1
  | .binary ".." loExpr hiExpr => do
    let (lo, hi) ← both (lowerExpr env loExpr) (lowerExpr env hiExpr)
    let ge ← emitCmp testValue lo .ge
    let le ← emitCmp testValue hi .le
    emitValue (binaryInst .andI64 ge le .eq)
  | pat => do
    let rhs ← lowerExpr env pat
    emitCmp testValue rhs .eq

/-- The tests against the patterns after the first, joined to what came before. -/
def lowerMorePatterns (env : Env) (testValue combined : Int) : List Expr → LowerM Int
  | [] => pure combined
  | pat :: rest => do
    let cur ← lowerMatchPattern env testValue pat
    let combined ← emitValue (binaryInst .orI64 combined cur .eq)
    lowerMorePatterns env testValue combined rest

/-- The test of a value against the patterns of an arm. -/
def lowerMatchPatterns (env : Env) (testValue : Int) : List Expr → LowerM Int
  | [] => emitConst 0
  | pat :: rest => do
    let first ← lowerMatchPattern env testValue pat
    lowerMorePatterns env testValue first rest

/-- An arm of a case, with how its body is lowered. -/
structure Arm where
  patterns : List Expr
  guard : Expr
  lowerConseq : LowerM Unit

/-- The guard of an arm, which goes on to the next arm when it fails. -/
def lowerGuard (env : Env) (guard : Expr) (nextLabel : Nat) : LowerM Unit :=
  match guard with
  | .missing => pure ()
  | guard => do
    let value ← lowerExpr env guard
    emitBrUnless value nextLabel

/-- One arm of a case; it answers whether the arm left. -/
def lowerArm (env : Env) (testValue : Int) (resultSlot mergeLabel : Nat) (arm : Arm) :
    LowerM Bool := do
  let nextLabel ← freshLabel
  let pat ← lowerMatchPatterns env testValue arm.patterns
  emitBrUnless pat nextLabel
  lowerGuard env arm.guard nextLabel
  let returns ← lowerBranch arm.lowerConseq resultSlot (emitBr mergeLabel)
  emitLabel nextLabel
  return returns

/-- The arms of a case in order; it answers whether all of them left. -/
def lowerArms (env : Env) (testValue : Int) (resultSlot mergeLabel : Nat) :
    List Arm → LowerM Bool
  | [] => pure true
  | arm :: rest => do
    -- The next arm starts with the value this one ended with.
    let returns ← lowerArm env testValue resultSlot mergeLabel arm
    let restReturn ← lowerArms env testValue resultSlot mergeLabel rest
    return returns && restReturn

/-- The value a case has when no arm gives one. -/
def initialResult (entry : Builder) : LowerM Int :=
  if 0 ≤ entry.lastValue then pure entry.lastValue else emitConst 0

/-- A case, given how the bodies of its arms are lowered. -/
def lowerMatch (env : Env) (test : Expr) (arms : List Arm) (lowerDefault : Option (LowerM Unit)) :
    LowerM Unit :=
  if test.isMissing then fail "native NYIR lower: malformed case/match"
  else do
    let testValue ← lowerExpr env test
    let resultSlot ← tempSlot
    let mergeLabel ← freshLabel
    let entry ← get
    let initial ← initialResult entry
    storeLocalValue resultSlot initial
    let armsReturn ← lowerArms env testValue resultSlot mergeLabel arms
    let defaultReturns ← lowerOptional lowerDefault resultSlot (emitBr mergeLabel)
    lowerJoin (entry.emittedReturn || (armsReturn && defaultReturns)) mergeLabel resultSlot

/-- Leaves the innermost loop by one of its labels. -/
def lowerJump (name : String) (label : LoopLabels → Nat) : LowerM Unit := do
  match (← get).loops with
  | [] => fail ("native NYIR lower: " ++ name ++ " outside loop")
  | labels :: _ =>
    setEmittedReturn true
    emitBr (label labels)

/-- The value of a return statement. -/
def lowerReturned (env : Env) : Expr → LowerM Int
  | .missing => emitConst 0
  | value => lowerExpr env value

mutual

/-- The lowering of a statement. -/
def lowerStmt (env : Env) : Stmt → LowerM Unit
  | .missing | .ignored | .func _ _ _ _ => pure ()
  | .block isTransparent body => do
    let mark := (← get).locals.length
    lowerStmts env body
    onlyIf (!isTransparent) (modify (scopeRestore mark))
  | .var v => lowerVar env v
  | .expr e => do
    let value ← lowerExpr env e
    setLastValue value
  | .ifThen init test conseq alt =>
    lowerIf (lowerStmt env init) (lowerExpr env test) (lowerStmt env conseq)
      (if alt.isMissing then none else some (lowerStmt env alt))
  | .whileLoop init test body update =>
    lowerWhile (lowerStmt env init) (lowerExpr env test) (lowerStmt env body)
      (if update.isMissing then none else some (lowerStmt env update))
  | .forIn iterVar indexVar iterable body init cond update =>
    if !init.isMissing || !cond.isMissing || !update.isMissing then
      fail ("native NYIR lower: only Nytrix iterator loops are supported here; use " ++
        "`for name in lo..hi \x7b ... \x7d` because ';' starts a comment")
    else lowerForRange env iterVar indexVar iterable (lowerStmt env body)
  | .caseOf test arms defaultConseq =>
    lowerMatch env test (armList env arms)
      (if defaultConseq.isMissing then none else some (lowerStmt env defaultConseq))
  | .breakLoop => lowerJump "break" LoopLabels.endLabel
  | .continueLoop => lowerJump "continue" LoopLabels.continueLabel
  | .returnValue value => do
    let value ← lowerReturned env value
    emitRet value
  | .other kind => fail ("native NYIR lower: statement kind " ++ toString kind ++
      " is not in shared NYIR yet")

/-- The statements of a block, up to the first after which control has left. -/
def lowerStmts (env : Env) : Stmts → LowerM Unit
  | .nil => pure ()
  | .cons head rest => do
    lowerStmt env head
    if (← get).emittedReturn then pure () else lowerStmts env rest

/-- How the body of each arm is lowered. -/
def armList (env : Env) : Arms → List Arm
  | .nil => []
  | .cons patterns guard conseq rest =>
    { patterns := patterns, guard := guard, lowerConseq := lowerStmt env conseq } ::
      armList env rest

end

end Nytrix.Lower
