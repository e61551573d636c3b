import Nytrix.Types.Names
import Nytrix.Lib.Rounds

/-! Which functions are pure and which effects they have: walks over bodies, repeated in rounds. -/

namespace Nytrix.Effects

open Nytrix.Types (Name nm tpStrIn)

/-- A mask of effects. -/
abbrev Mask := BitVec 32

/-- The mask of no effect. -/
def fxNone : Mask := 0

/-- The mask of input and output. -/
def fxIo : Mask := 1

/-- The mask of allocation. -/
def fxAlloc : Mask := 2

/-- The mask of calls to what is not compiled here. -/
def fxFfi : Mask := 4

/-- The mask of threads. -/
def fxThread : Mask := 8

/-- The mask of all effects. -/
def fxAll : Mask := fxIo ||| fxAlloc ||| fxFfi ||| fxThread

/-- Whether the name of a builtin is that of a pure one. -/
def nyBuiltinNameIsPure (name : Name) : Bool :=
  tpStrIn name
    ["__tag", "__is_int", "__is_ptr", "__is_ny_obj", "__is_str_obj", "__is_float_obj",
      "__add", "__and", "__sub", "__shl", "__shr", "__mul", "__mod", "__div", "__or", "__xor",
      "__not", "__eq", "__lt", "__le", "__gt", "__ge", "__flt_lt", "__flt_gt", "__flt_eq",
      "__flt_to_int", "__flt_trunc", "__runtime_tag"]

/-- The effects of a builtin, from its name. -/
def nyBuiltinNameEffects (name : Name) : Mask :=
  if name = [] then fxAll
  else if nyBuiltinNameIsPure name then fxNone
  else if tpStrIn name
    ["__malloc", "__free", "__malloc_raw", "__free_raw", "__realloc", "__zalloc", "__set_args",
      "__cleanup_args", "__flt_box", "__init_str", "__bytes_new", "__kwarg_new", "__range_new",
      "__list_as_tuple"] then fxAlloc
  else if (nm "__thread_").isPrefixOf name then fxThread
  else if (nm "__async_").isPrefixOf name then fxIo ||| fxAlloc
  else if (nm "__sys").isPrefixOf name || tpStrIn name
    ["__open", "__close", "__ioctl", "__print", "__panic", "__trace_func", "__stats"] then fxIo
  else fxAll

/-- The kinds of expressions that are made of expressions, and those that are made of none. -/
inductive NodeKind where
  | literal | binary | logical | ternary | ptrType | sizeof
  | unary (isAsync : Bool)
  | index | member | deref | list | tuple | set | dict | fstring | tryExpr | asm
  | inferredMember | embed | lambda | fn
  deriving DecidableEq

/-- The effects that an expression adds to those of its parts. -/
def nodeEffects : NodeKind → Mask
  | .unary isAsync => if isAsync then fxThread else fxNone
  | .list | .tuple | .set | .dict | .fstring | .lambda | .fn => fxAlloc
  | .asm => fxFfi
  | _ => fxNone

/-- Whether an expression with pure parts is pure. -/
def nodeIsPure : NodeKind → Bool
  | .literal | .binary | .logical | .ternary | .ptrType | .sizeof => true
  | .unary isAsync => !isAsync
  | _ => false

mutual

/-- Expressions. -/
inductive Expr where
  | ident (name : Name)
  | node (kind : NodeKind) (parts : Exprs)
  | call (callee : Expr) (args : Exprs)
  | memcall (target : Expr) (name : Name) (args : Exprs)
  | matchOn (test : Expr) (arms : Arms)

/-- Expressions in a row; parts that may be missing are rows too. -/
inductive Exprs where
  | nil
  | cons (first : Expr) (rest : Exprs)

/-- Statements; a body is a row of them with names of its own. -/
inductive Stmt where
  | block (body : Stmts)
  | var (isDecl : Bool) (names : List Name) (exprs : Exprs)
  | expr (expr : Expr)
  | ret (value : Exprs)
  | iff (init : Stmts) (test : Expr) (conseq : Stmts) (alt : Stmts)
  | whl (init : Stmts) (test : Expr) (body : Stmts) (update : Stmts)
  | fr (init : Stmts) (cond : Exprs) (iterable : Exprs) (vars : List Name) (body : Stmts)
    (update : Stmts)
  | matchOn (test : Expr) (arms : Arms)
  | jump

/-- Statements in a row; those of a header that may be missing are rows too. -/
inductive Stmts where
  | nil
  | cons (first : Stmt) (rest : Stmts)

/-- The arms of a match: patterns, a guard that may be missing and a body, and the default. -/
inductive Arms where
  | default (body : Stmts)
  | cons (patterns : Exprs) (guard : Exprs) (body : Stmts) (rest : Arms)

end

/-- How many expressions there are in a row. -/
def Exprs.length : Exprs → Nat
  | .nil => 0
  | .cons _ rest => rest.length + 1

/-- A function: its parameters, its attributes and its body, which may be missing. -/
structure Fn where
  name : Name
  params : List Name
  attrThread : Bool
  attrNaked : Bool
  isExtern : Bool
  body : Option Stmts

/-- What a name may stand for, among the functions that are known. -/
inductive Sig where
  | builtin (name : Name)
  /-- one that is declared to be elsewhere, with its effects -/
  | foreign (effects : Mask)
  /-- one of the standard library, which may be declared to be elsewhere with some effects -/
  | std (foreign : Option Mask)
  | user (fn : Fn)

/-- The functions that are known, in order, and what names stand for in the body of a function. -/
structure Program where
  sigs : List Sig
  resolveCall : Nat → Name → Nat → Option Nat
  resolveMemcall : Nat → Name → Name → Option Nat
  /-- whether a name is one of a function or of a member of an enumeration -/
  isGlobal : Nat → Name → Bool

/-- Whether a name is among local ones. -/
def assignedNameContains (locals : List Name) (name : Name) : Bool :=
  name ≠ [] && locals.contains name

/-- Adds a name to local ones. -/
def assignedNameAdd (locals : List Name) (name : Name) : List Name :=
  if name = [] ∨ locals.contains name then locals else locals ++ [name]

/-- Adds names to local ones. -/
def addNames (locals names : List Name) : List Name := names.foldl assignedNameAdd locals

section Walks

variable (program : Program) (caller : Nat)

/-- The function that is called, if it is known. -/
def purityResolveCallSig (locals : List Name) (callee : Expr) (args : Nat) : Option Nat :=
  match callee with
  | .ident name =>
    if name = [] then none
    else if assignedNameContains locals name then none
    else program.resolveCall caller name args
  | _ => none

/-- The function of a module that is called, if it is known. -/
def purityResolveMemcallSig (locals : List Name) (target : Expr) (name : Name) : Option Nat :=
  match target with
  | .ident targetName =>
    if targetName = [] then none
    else if assignedNameContains locals targetName then none
    else program.resolveMemcall caller targetName name
  | _ => none

/-- The effects of what is called, from the effects that are recorded. -/
def nySigEffects (effects : Nat → Mask) (sig : Option Nat) : Mask :=
  match sig with
  | none => fxAll
  | some g =>
    match program.sigs[g]? with
    | none => fxAll
    | some (.builtin name) => nyBuiltinNameEffects name
    | some (.foreign mask) => mask
    | some (.std none) => fxAll
    | some (.std (some mask)) => mask
    -- the effects of one that is declared to be elsewhere have been set to none
    | some (.user fn) => if fn.isExtern then fxNone else effects g

/-- Whether what is called is pure, from what is recorded. -/
def nySigIsPure (pure : Nat → Bool) (sig : Option Nat) : Bool :=
  match sig with
  | none => false
  | some g =>
    match program.sigs[g]? with
    | some (.builtin name) => nyBuiltinNameIsPure name
    | some (.user fn) => !fn.isExtern && !fn.attrThread && !fn.attrNaked && pure g
    | _ => false

section Effects

variable (effects : Nat → Mask)

/-- The effects of a call, with the mask of what is not known. -/
def callEffects (sig : Option Nat) : Mask :=
  nySigEffects program effects sig ||| (if sig = none then fxFfi else fxNone)

mutual

/-- The effects of an expression. -/
def effectsExpr (locals : List Name) : Expr → Mask
  | .ident _ => fxNone
  | .node kind parts => nodeEffects kind ||| effectsExprs locals parts
  | .call callee args =>
    effectsExpr locals callee ||| effectsExprs locals args |||
      callEffects program effects (purityResolveCallSig program caller locals callee args.length)
  | .memcall target name args =>
    effectsExpr locals target ||| effectsExprs locals args |||
      callEffects program effects (purityResolveMemcallSig program caller locals target name)
  | .matchOn test arms => effectsExpr locals test ||| effectsArms locals arms

/-- The effects of expressions in a row. -/
def effectsExprs (locals : List Name) : Exprs → Mask
  | .nil => fxNone
  | .cons first rest => effectsExpr locals first ||| effectsExprs locals rest

/-- The effects of a statement, and the local names behind it. -/
def effectsStmt (locals : List Name) : Stmt → Mask × List Name
  | .block body => ((effectsStmts locals body).1, locals)
  | .var isDecl names exprs =>
    (effectsExprs locals exprs, if isDecl then addNames locals names else locals)
  | .expr expr => (effectsExpr locals expr, locals)
  | .ret value => (effectsExprs locals value, locals)
  -- what stands before the test is not visited
  | .iff _ test conseq alt =>
    let (fxAlt, locals') := effectsStmts locals alt
    (effectsExpr locals test ||| (effectsStmts locals conseq).1 ||| fxAlt, locals')
  -- what stands before the test is visited last
  | .whl init test body update =>
    let (fxUpdate, locals') := effectsStmts locals update
    let (fxInit, locals'') := effectsStmts locals' init
    (effectsExpr locals test ||| (effectsStmts locals body).1 ||| fxUpdate ||| fxInit, locals'')
  | .fr init cond iterable vars body update =>
    let (fxInit, locals') := effectsStmts locals init
    let inner := addNames locals' vars
    (fxInit ||| effectsExprs locals' cond ||| effectsExprs locals' iterable |||
      (effectsStmts inner body).1 ||| (effectsStmts inner update).1, locals')
  | .matchOn test arms => (effectsExpr locals test ||| effectsArms locals arms, locals)
  | .jump => (fxNone, locals)

/-- The effects of statements in a row, and the local names behind them. -/
def effectsStmts (locals : List Name) : Stmts → Mask × List Name
  | .nil => (fxNone, locals)
  | .cons first rest =>
    let (fxFirst, locals') := effectsStmt locals first
    let (fxRest, locals'') := effectsStmts locals' rest
    (fxFirst ||| fxRest, locals'')

/-- The effects of the arms of a match. -/
def effectsArms (locals : List Name) : Arms → Mask
  | .default body => (effectsStmts locals body).1
  | .cons patterns guard body rest =>
    effectsExprs locals patterns ||| effectsExprs locals guard ||| (effectsStmts locals body).1 |||
      effectsArms locals rest

end

/-- The effects of a function. -/
def nyFuncDeclEffects (fn : Fn) : Mask :=
  match fn.body with
  | none => fxAll
  | some body =>
    (if fn.attrThread then fxThread else fxNone) ||| (if fn.attrNaked then fxFfi else fxNone) |||
      (effectsStmts program caller effects (addNames [] fn.params) body).1

end Effects

section Purity

variable (pure : Nat → Bool)

mutual

/-- Whether an expression is pure. -/
def exprCheckSafe (locals : List Name) : Expr → Bool
  | .ident name =>
    name ≠ [] && (assignedNameContains locals name || program.isGlobal caller name)
  | .node kind parts => nodeIsPure kind && exprsCheckSafe locals parts
  | .call callee args =>
    exprsCheckSafe locals args &&
      nySigIsPure program pure (purityResolveCallSig program caller locals callee args.length)
  | .memcall target name args =>
    exprsCheckSafe locals args &&
      nySigIsPure program pure (purityResolveMemcallSig program caller locals target name)
  | .matchOn test arms => exprCheckSafe locals test && armsCheckSafe locals arms

/-- Whether expressions in a row are pure. -/
def exprsCheckSafe (locals : List Name) : Exprs → Bool
  | .nil => true
  | .cons first rest => exprCheckSafe locals first && exprsCheckSafe locals rest

/-- The local names behind a statement, if it is pure. -/
def stmtCheckSafe (locals : List Name) : Stmt → Option (List Name)
  | .block body => (stmtsCheckSafe locals body).map fun _ => locals
  | .var isDecl names exprs =>
    if !isDecl && !names.all (assignedNameContains locals) then none
    else if exprsCheckSafe locals exprs then
      some (if isDecl then addNames locals names else locals)
    else none
  | .expr expr => if exprCheckSafe locals expr then some locals else none
  | .ret value => if exprsCheckSafe locals value then some locals else none
  -- what stands before the test is not visited
  | .iff _ test conseq alt =>
    if exprCheckSafe locals test then
      (stmtsCheckSafe locals conseq).bind fun _ => stmtsCheckSafe locals alt
    else none
  -- what stands before the test is visited last
  | .whl init test body update =>
    if exprCheckSafe locals test then
      (stmtsCheckSafe locals body).bind fun _ =>
        (stmtsCheckSafe locals update).bind fun locals' => stmtsCheckSafe locals' init
    else none
  | .fr init cond iterable vars body update =>
    (stmtsCheckSafe locals init).bind fun locals' =>
      if exprsCheckSafe locals' cond && exprsCheckSafe locals' iterable then
        let inner := addNames locals' vars
        (stmtsCheckSafe inner body).bind fun _ =>
          (stmtsCheckSafe inner update).map fun _ => locals'
      else none
  | .matchOn test arms =>
    if exprCheckSafe locals test && armsCheckSafe locals arms then some locals else none
  | .jump => some locals

/-- The local names behind statements in a row, if they are pure. -/
def stmtsCheckSafe (locals : List Name) : Stmts → Option (List Name)
  | .nil => some locals
  | .cons first rest => (stmtCheckSafe locals first).bind fun locals' => stmtsCheckSafe locals' rest

/-- Whether the arms of a match are pure. -/
def armsCheckSafe (locals : List Name) : Arms → Bool
  | .default body => (stmtsCheckSafe locals body).isSome
  | .cons patterns guard body rest =>
    exprsCheckSafe locals patterns && exprsCheckSafe locals guard &&
      (stmtsCheckSafe locals body).isSome && armsCheckSafe locals rest

end

/-- Whether a function is pure. -/
def nyFuncDeclIsPure (fn : Fn) : Bool :=
  match fn.body with
  | none => false
  | some body =>
    if fn.name = [] ∨ fn.attrThread ∨ fn.attrNaked then false
    else (stmtsCheckSafe program caller pure (addNames [] fn.params) body).isSome

end Purity

end Walks

section Infer

/-- The functions that are visited, in order: those with a text, and not of the standard library. -/
def visited (program : Program) : List Nat :=
  (List.range program.sigs.length).filter fun i =>
    match program.sigs[i]? with
    | some (.user _) => true
    | _ => false

/-- Whether a function is pure, from what is recorded so far. -/
def purePass (program : Program) (pure : Nat → Bool) (i : Nat) : Bool :=
  match program.sigs[i]? with
  | some (.user fn) => nyFuncDeclIsPure program i pure fn
  | _ => pure i

/-- The effects of a function, from what is recorded so far. -/
def effectsPass (program : Program) (effects : Nat → Mask) (i : Nat) : Mask :=
  match program.sigs[i]? with
  | some (.user fn) => nyFuncDeclEffects program i effects fn
  | _ => effects i

/-- How many rounds there are at most. -/
def maxIters : Nat := 64

/-- Which functions are recorded as pure. -/
def inferPure (program : Program) : Nat → Bool :=
  Lib.Rounds.run (purePass program) (visited program) maxIters fun _ => true

/-- Which effects are recorded. -/
def inferEffects (program : Program) : Nat → Mask :=
  Lib.Rounds.run (effectsPass program) (visited program) maxIters fun _ => fxNone

end Infer

end Nytrix.Effects
