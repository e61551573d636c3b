import Nytrix.Nir.Ir

/-! The part of the syntax tree that the lowering reads. -/

namespace Nytrix.Lower

open Nytrix.Nir

/-- The literals the lowering tells apart, a float being given by the bits of its double. -/
inductive Literal where
  | int (value : I64)
  | float (bits : I64)
  | bool (value : Bool)
  | nil
  | str
  deriving DecidableEq

mutual

/--
Expressions.

A null pointer is `missing`, and the kinds the lowering refuses keep only their number.
-/
inductive Expr where
  | missing
  | literal (lit : Literal)
  | ident (name : String)
  | unary (op : String) (right : Expr)
  | binary (op : String) (left right : Expr)
  | logical (op : String) (left right : Expr)
  | ternary (cond trueExpr falseExpr : Expr)
  | call (callee : Expr) (args : Args)
  | memcall (target : Expr) (name : String) (args : Args)
  | deref (target : Expr)
  | other (kind : Nat)

/-- The arguments of a call, each with a name when it is a named argument. -/
inductive Args where
  | nil
  | cons (name : Option String) (val : Expr) (rest : Args)

end

/-- Whether the pointer to an expression is null. -/
def Expr.isMissing : Expr → Bool
  | .missing => true
  | _ => false

/-- The number of an expression's kind, in the order of the source's enumeration. -/
def Expr.kind : Expr → Nat
  | .missing | .ident _ => 0
  | .literal _ => 1
  | .unary _ _ => 2
  | .binary _ _ _ => 3
  | .logical _ _ _ => 4
  | .ternary _ _ _ => 5
  | .call _ _ => 6
  | .memcall _ _ _ => 7
  | .deref _ => 23
  | .other kind => kind

/-- A parameter: its name and the name of its type, if one is written. -/
structure Param where
  name : String
  type : Option String := none
  deriving DecidableEq

/-- A binding or an assignment of several names. -/
structure Var where
  names : List String
  exprs : List Expr
  types : List (Option String) := []
  isDecl : Bool := false
  isDel : Bool := false
  isDestructure : Bool := false

mutual

/--
Statements.

A null pointer is `missing`. The declarations the lowering passes over are `ignored`, and the kinds
it refuses keep only their number.
-/
inductive Stmt where
  | missing
  | ignored
  | func (name : String) (returnType : Option String) (params : List Param) (body : Stmt)
  | block (isTransparent : Bool) (body : Stmts)
  | var (v : Var)
  | expr (e : Expr)
  | ifThen (init : Stmt) (test : Expr) (conseq alt : Stmt)
  | whileLoop (init : Stmt) (test : Expr) (body update : Stmt)
  | forIn (iterVar indexVar : Option String) (iterable : Expr) (body : Stmt)
      (init : Stmt) (cond : Expr) (update : Stmt)
  | caseOf (test : Expr) (arms : Arms) (defaultConseq : Stmt)
  | breakLoop
  | continueLoop
  | returnValue (value : Expr)
  | other (kind : Nat)

/-- The statements of a block. -/
inductive Stmts where
  | nil
  | cons (head : Stmt) (rest : Stmts)

/-- The arms of a case, each with its patterns, its guard and its body. -/
inductive Arms where
  | nil
  | cons (patterns : List Expr) (guard : Expr) (conseq : Stmt) (rest : Arms)

end

/-- Whether the pointer to a statement is null. -/
def Stmt.isMissing : Stmt → Bool
  | .missing => true
  | _ => false

/-- The body of a block from a list of statements. -/
def Stmts.ofList : List Stmt → Stmts
  | [] => .nil
  | s :: rest => .cons s (ofList rest)

/-- Whether a type name is one of the two names of the double type. -/
def typeNameIsF64 (name : Option String) : Bool :=
  name = some "f64" || name = some "float"

/-- Whether a type name is one of the two names of the single type. -/
def typeNameIsF32 (name : Option String) : Bool :=
  name = some "f32" || name = some "float32"

/-- The part of a qualified name after its last dot. -/
def leafName (name : String) : String :=
  String.ofList (name.toList.reverse.takeWhile (· ≠ '.')).reverse

end Nytrix.Lower
