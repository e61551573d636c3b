import Nytrix.Lib.Stateful

/-! The operators that the parser rewrites into other nodes, and how the nodes are evaluated. -/

namespace Nytrix.Parse.Desugar

open Nytrix.Lib

mutual

/-- The nodes that the rewriting makes or looks at, with any other expression by its number. -/
inductive Expr where
  /-- No expression: a null pointer. -/
  | missing
  | other (n : Nat)
  | ident (name : String)
  | int (value : Int)
  /-- The literal zero under the token for nil. -/
  | nil
  | binary (op : String) (left right : Expr)
  | ternary (cond trueExpr falseExpr : Expr)
  | call (callee : Expr) (args : Args)
  | memcall (target : Expr) (name : String) (args : Args)
  | index (target start stop step : Expr)
  | member (target : Expr) (name : String)
  | deref (target : Expr)
  /-- An expression whose evaluations are counted under a number. -/
  | marked (n : Nat) (expr : Expr)

/-- The arguments of a call, each with a name when it is a named argument. -/
inductive Args where
  | nil
  | cons (name : Option String) (val : Expr) (rest : Args)

end

/-- What the parser makes of an optional member access. -/
def optionalMember (target : Expr) (name : String) : Expr :=
  .ternary target (.member target name) .nil

/-- What the parser makes of an optional call of a member. -/
def optionalMemcall (target : Expr) (name : String) (args : Args) : Expr :=
  .ternary target (.memcall target name args) .nil

/-- What the parser makes of a left side that may be absent and a fallback. -/
def coalesce (left right : Expr) : Expr := .ternary left left right

/-- The operators of an assignment. -/
inductive AssignOp where
  | assign
  | plusEq
  | minusEq
  | starEq
  | slashEq
  | percentEq
  deriving DecidableEq

/-- The operator that a compound assignment applies. -/
def AssignOp.binary : AssignOp → Option String
  | .assign => none
  | .plusEq => some "+"
  | .minusEq => some "-"
  | .starEq => some "*"
  | .slashEq => some "/"
  | .percentEq => some "%"

/-- The statements that an assignment becomes. -/
inductive Stmt where
  | var (name : String) (expr : Expr)
  | expr (expr : Expr)

/-- The start of an index, which is zero when it is not written. -/
def startOf : Expr → Expr
  | .missing => .int 0
  | start => start

/-- What is assigned: the right side, or the operator applied to the target and the right side. -/
def assigned (op : AssignOp) (lhs rhs : Expr) : Expr :=
  match op.binary with
  | none => rhs
  | some name => .binary name lhs rhs

/--
What the parser makes of an assignment.

There is no result for a target that is neither a name, an index nor a pointer's content.
-/
def assignment (lhs : Expr) (op : AssignOp) (rhs : Expr) : Option Stmt :=
  match lhs with
  | .ident name => some (.var name (assigned op lhs rhs))
  | .index target start _ _ =>
    some (.expr (.call (.ident "set_idx")
      (.cons none target (.cons none (startOf start) (.cons none (assigned op lhs rhs) .nil)))))
  | .deref target =>
    some (.expr (.call (.ident "store64_i")
      (.cons none target (.cons none (assigned op lhs rhs) .nil))))
  | _ => none

/-- What an evaluation shows: an operand that is counted, or an access to a member. -/
inductive Event (V : Type) where
  | operand (n : Nat)
  | member (target : V) (name : String)
  | memcall (target : V) (name : String) (args : List (Option String × V))
  deriving DecidableEq

/--
What the generated code rests on: values, and what the operations do to the state.

Nothing is assumed of an operation, except that nil does not count as true.
-/
structure Machine (σ V : Type) where
  truthy : V → Bool
  nil : V
  falsy_nil : truthy nil = false
  int : Int → V
  other : Nat → σ → V × σ
  ident : String → σ → V × σ
  binary : String → V → V → σ → V × σ
  call : String → List (Option String × V) → σ → V × σ
  apply : V → List (Option String × V) → σ → V × σ
  memcall : V → String → List (Option String × V) → σ → V × σ
  index : V → V → σ → V × σ
  slice : V → V → V → V → σ → V × σ
  member : V → String → σ → V × σ
  deref : V → σ → V × σ
  assign : String → V → σ → V × σ

/-- The position behind every element, where a slice ends that has no end. -/
def sliceEnd : Int := 0x3fffffff

/-- Whether there is no expression. -/
def Expr.isMissing : Expr → Bool
  | .missing => true
  | _ => false

namespace Machine

variable {σ V : Type} (m : Machine σ V)

mutual

/-- The evaluation of an expression, in the order in which the code generator emits its parts. -/
def eval : Expr → Logged σ (Event V) V
  | .missing => pure (m.int 0)
  | .other n => .acts (m.other n)
  | .ident name => .acts (m.ident name)
  | .int value => pure (m.int value)
  | .nil => pure m.nil
  | .binary op left right => do
    let l ← eval left
    let r ← eval right
    .acts (m.binary op l r)
  | .ternary cond trueExpr falseExpr => do
    let c ← eval cond
    if m.truthy c then eval trueExpr else eval falseExpr
  | .call (.ident name) args => do
    let vals ← evalArgs args
    .acts (m.call name vals)
  | .call callee args => do
    let f ← eval callee
    let vals ← evalArgs args
    .acts (m.apply f vals)
  | .memcall target name args => do
    let t ← eval target
    let vals ← evalArgs args
    .notes (.memcall t name vals)
    .acts (m.memcall t name vals)
  | .index target start stop step => do
    if start.isMissing || !stop.isMissing || !step.isMissing then
      -- A slice is a call whose target is evaluated last.
      let a ← (if start.isMissing then pure (m.int 0) else eval start)
      let b ← (if stop.isMissing then pure (m.int sliceEnd) else eval stop)
      let c ← (if step.isMissing then pure (m.int 1) else eval step)
      let t ← eval target
      .acts (m.slice t a b c)
    else
      let t ← eval target
      let i ← eval start
      .acts (m.index t i)
  | .member target name => do
    let t ← eval target
    .notes (.member t name)
    .acts (m.member t name)
  | .deref target => do
    let p ← eval target
    .acts (m.deref p)
  | .marked n expr => do
    .notes (.operand n)
    eval expr

/-- The evaluation of arguments, from left to right. -/
def evalArgs : Args → Logged σ (Event V) (List (Option String × V))
  | .nil => pure []
  | .cons name val rest => do
    let v ← eval val
    let vs ← evalArgs rest
    pure ((name, v) :: vs)

end

/-- The execution of a statement that an assignment becomes. -/
def run : Stmt → Logged σ (Event V) V
  | .var name expr => do
    let v ← m.eval expr
    .acts (m.assign name v)
  | .expr expr => m.eval expr

end Machine

end Nytrix.Parse.Desugar
