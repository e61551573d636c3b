import Nytrix.Types.Names

/-! Narrowing of the types of variables by tests: what a test tells, and how a branch uses it. -/

namespace Nytrix.Types

/-- The expressions that narrowing looks into; an absent expression is another one. -/
inductive TestExpr where
  | ident (name : Name)
  | nilLiteral
  | unary (op : Name) (right : TestExpr)
  | binary (op : Name) (left right : TestExpr)
  | logical (op : Name) (left right : TestExpr)
  | call (callee : TestExpr) (args : List TestExpr)
  | other

/--
What a test tells of a variable: in which branches it is not nil, and its type there.

A type that is not told is absent.
-/
structure NarrowInfo where
  name : Name
  trueNonnull : Bool
  falseNonnull : Bool
  trueType : Option Name
  falseType : Option Name
  deriving DecidableEq

/-- Whether nothing is told. -/
def NarrowInfo.tellsNothing (info : NarrowInfo) : Bool :=
  !info.trueNonnull && !info.falseNonnull && info.trueType.isNone && info.falseType.isNone

/-- Puts what is told of a variable together with what has been told of it, if anything. -/
def nullNarrowInfoMerge (info : NarrowInfo) : List NarrowInfo → List NarrowInfo
  | [] => [info]
  | it :: rest =>
    if it.name = info.name then
      { it with
        trueNonnull := it.trueNonnull || info.trueNonnull
        falseNonnull := it.falseNonnull || info.falseNonnull
        trueType := it.trueType <|> info.trueType
        falseType := it.falseType <|> info.falseType } :: rest
    else it :: nullNarrowInfoMerge info rest

/-- Adds what is told of a variable, if anything is told of it and it has a name. -/
def nullNarrowInfoAddType (list : List NarrowInfo) (info : NarrowInfo) : List NarrowInfo :=
  if info.name = [] || info.tellsNothing then list else nullNarrowInfoMerge info list

/-- Adds in which branches a variable is not nil. -/
def nullNarrowInfoAdd (list : List NarrowInfo) (name : Name) (trueNonnull falseNonnull : Bool) :
    List NarrowInfo :=
  nullNarrowInfoAddType list ⟨name, trueNonnull, falseNonnull, none, none⟩

/-- Adds what is told by the negation of a test. -/
def nullNarrowMergeSwapped (dst src : List NarrowInfo) : List NarrowInfo :=
  src.foldl (fun dst it =>
    if it.name = [] || it.tellsNothing then dst
    else nullNarrowInfoAddType dst
      ⟨it.name, it.falseNonnull, it.trueNonnull, it.falseType, it.trueType⟩) dst

/-- Adds what is told of variables that are not nil in the selected branches. -/
def nullNarrowMergeSelected (dst src : List NarrowInfo)
    (selectTrue selectFalse outTrue outFalse : Bool) : List NarrowInfo :=
  src.foldl (fun dst it =>
    if it.name = [] || it.tellsNothing then dst
    else if (selectTrue && it.trueNonnull) || (selectFalse && it.falseNonnull) then
      let trueType := if selectTrue then it.trueType else it.falseType
      let falseType := if selectTrue then it.falseType else it.trueType
      nullNarrowInfoAddType dst ⟨it.name, outTrue, outFalse, if outTrue then trueType else none,
        if outFalse then falseType else none⟩
    else dst) dst

/-- The type that a function of this name tests for. -/
def nullNarrowGuardType (name : Name) : Option Name :=
  if nyNameLeaf name = nm "is_list" then some (nm "list")
  else if nyNameLeaf name = nm "is_dict" then some (nm "dict")
  else if nyNameLeaf name = nm "is_str" then some (nm "str")
  else none

/-- The variable that is compared with nil. -/
def comparedWithNil : TestExpr → TestExpr → Option Name
  | .ident name, .nilLiteral => some name
  | .nilLiteral, .ident name => some name
  | _, _ => none

/-- What two tests tell that are put together by a logical operator. -/
def nullNarrowCollectLogical (left right : Bool × List NarrowInfo) (out : List NarrowInfo)
    (selectTrue outTrue outFalse : Bool) : Bool × List NarrowInfo :=
  let hasLeft := left.1 && !left.2.isEmpty
  let hasRight := right.1 && !right.2.isEmpty
  if !hasLeft && !hasRight then (false, out)
  else
    let out := nullNarrowMergeSelected out left.2 (selectTrue && hasLeft) (!selectTrue && hasLeft)
      outTrue outFalse
    let out := nullNarrowMergeSelected out right.2 (selectTrue && hasRight)
      (!selectTrue && hasRight) outTrue outFalse
    (!out.isEmpty, out)

/-- Adds what a test tells, and whether it tells anything. -/
def nullNarrowCollectInto : TestExpr → List NarrowInfo → Bool × List NarrowInfo
  | .binary op left right, out =>
    if op = nm "==" ∨ op = nm "!=" then
      match comparedWithNil left right with
      | some name =>
        if name = [] then (false, out)
        else (true, nullNarrowInfoAdd out name (op = nm "!=") (op = nm "=="))
      | none => (false, out)
    else (false, out)
  | .unary op right, out =>
    if op = nm "!" then
      let inner := nullNarrowCollectInto right []
      if !inner.1 || inner.2.isEmpty then (false, out)
      else
        let out := nullNarrowMergeSwapped out inner.2
        (!out.isEmpty, out)
    else (false, out)
  | .logical op left right, out =>
    if op = nm "&&" then
      nullNarrowCollectLogical (nullNarrowCollectInto left []) (nullNarrowCollectInto right [])
        out true true false
    else if op = nm "||" then
      nullNarrowCollectLogical (nullNarrowCollectInto left []) (nullNarrowCollectInto right [])
        out false false true
    else (false, out)
  | .call (.ident callee) [.ident arg], out =>
    match nullNarrowGuardType callee with
    | some type => (true, nullNarrowInfoAddType out ⟨arg, true, false, some type, none⟩)
    | none => (false, out)
  | _, out => (false, out)

/-- What a test tells. -/
def nullNarrowCollect (test : TestExpr) : List NarrowInfo := (nullNarrowCollectInto test []).2

/-- What the left side of a logical operator tells for its right side. -/
def nullNarrowCollectLogicalRhs (left : TestExpr) (andOp : Bool) : List NarrowInfo :=
  let info := nullNarrowCollectInto left []
  if !info.1 || info.2.isEmpty then []
  else nullNarrowMergeSelected [] info.2 andOp (!andOp) true false

/-- A pointer to a binding: a variable of a scope, by their places, or a global variable. -/
inductive BindingRef where
  | inScope (scope place : Nat)
  | global (place : Nat)
  deriving DecidableEq

/-- The type names of the bindings; absent where none is declared. -/
abbrev TypeNames := BindingRef → Option Name

/--
The names in scope: those of each scope, the outermost first, in the order of their declaration,
and the global variable that a name stands for, by itself or by an alias.
-/
structure NameScopes where
  scopes : List (List Name)
  globals : Name → Option Nat

/-- The last place of a name in a scope. -/
def lastPlace (name : Name) (names : List Name) : Option Nat :=
  (names.zipIdx.reverse.find? fun entry => entry.1 = name).map (·.2)

/-- The binding that a name stands for in the innermost scope that has it. -/
def scopeLookup (scopes : List (List Name)) (name : Name) : Option BindingRef :=
  scopes.zipIdx.reverse.findSome? fun entry =>
    (lastPlace name entry.1).map (BindingRef.inScope entry.2)

/-- The binding that a name stands for: that of a scope, or a global variable. -/
def lookupBinding (env : NameScopes) (name : Name) : Option BindingRef :=
  if name = [] then none
  else scopeLookup env.scopes name <|> (env.globals name).map BindingRef.global

/-- A type name without the marks of a type that may be nil, if it has one and more than that. -/
def stripNullable : Option Name → Option Name
  | none => none
  | some type =>
    if type.head? = some (ch '?') then
      let base := type.dropWhile (· = ch '?')
      if base = [] then none else some base
    else none

/-- The type name that a binding gets where another one is told or it is not nil, if it gets one. -/
def narrowedType (current override : Option Name) : Option Name :=
  match override with
  | some type => if type = [] then stripNullable current else some type
  | none => stripNullable current

/-- The type names with another one for a binding. -/
def setType (types : TypeNames) (r : BindingRef) (type : Option Name) : TypeNames :=
  fun r' => if r' = r then type else types r'

/-- The bindings that a branch narrows, with the type names they had, in order. -/
abbrev RestoreList := List (BindingRef × Option Name)

/-- The binding that a branch may narrow, by what is told of a variable, with the type told. -/
def narrowTarget (env : NameScopes) (trueBranch : Bool) (it : NarrowInfo) :
    Option (BindingRef × Option Name) :=
  if (if trueBranch then it.trueNonnull else it.falseNonnull) = true ∧ it.name ≠ [] then
    (lookupBinding env it.name).map fun r => (r, if trueBranch then it.trueType else it.falseType)
  else none

/-- Narrows one binding, and notes the type name it had. -/
def narrowBinding (state : TypeNames × RestoreList) (target : BindingRef × Option Name) :
    TypeNames × RestoreList :=
  match narrowedType (state.1 target.1) target.2 with
  | some type => (setType state.1 target.1 (some type), state.2 ++ [(target.1, state.1 target.1)])
  | none => state

/-- Narrows the bindings of a branch by what a test tells. -/
def nullNarrowApply (env : NameScopes) (narrow : List NarrowInfo) (trueBranch : Bool)
    (types : TypeNames) : TypeNames × RestoreList :=
  (narrow.filterMap (narrowTarget env trueBranch)).foldl narrowBinding (types, [])

/-- Gives the bindings that were narrowed their type names back, in the order they were noted. -/
def nullNarrowRestore (applied : RestoreList) (types : TypeNames) : TypeNames :=
  applied.foldl (fun types saved =>
    match saved.2 with
    | some type => setType types saved.1 (some type)
    | none => types) types

/-- What a branch is narrowed by: a test, or the left side of a logical operator. -/
inductive NarrowGuard where
  | test (e : TestExpr)
  | logicalRhs (left : TestExpr) (andOp : Bool)

/-- What a guard tells. -/
def NarrowGuard.narrow : NarrowGuard → List NarrowInfo
  | .test e => nullNarrowCollect e
  | .logicalRhs left andOp => nullNarrowCollectLogicalRhs left andOp

/--
Code as narrowing sees it: parts in turn, a branch that is narrowed, and a block with its own scope,
whose variables are declared with or without a type.
-/
inductive NarrowCode where
  | skip
  | seq (first second : NarrowCode)
  | guarded (guard : NarrowGuard) (trueBranch : Bool) (body : NarrowCode)
  | block (bindings : List (Name × Option Name)) (body : NarrowCode)

/-- The names with one more scope. -/
def NameScopes.enter (env : NameScopes) (bindings : List (Name × Option Name)) : NameScopes :=
  { env with scopes := env.scopes ++ [bindings.map (·.1)] }

/-- The type names with those of the bindings of a new scope. -/
def declareTypes (scope : Nat) (bindings : List (Name × Option Name)) (types : TypeNames) :
    TypeNames
  | .inScope s i => if s = scope then (bindings[i]?.map (·.2)).getD (types (.inScope s i))
    else types (.inScope s i)
  | r => types r

/-- Goes through code: the type names that it leaves. -/
def runNarrow (env : NameScopes) : NarrowCode → TypeNames → TypeNames
  | .skip, types => types
  | .seq first second, types => runNarrow env second (runNarrow env first types)
  | .guarded guard branch body, types =>
    let applied := nullNarrowApply env guard.narrow branch types
    nullNarrowRestore applied.2 (runNarrow env body applied.1)
  | .block bindings body, types =>
    runNarrow (env.enter bindings) body (declareTypes env.scopes.length bindings types)

end Nytrix.Types
