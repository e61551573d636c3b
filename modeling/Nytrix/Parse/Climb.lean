import Nytrix.Parse.Lexer

/-! The parser of operators: unary operators, binary operators by precedence, and operands. -/

namespace Nytrix.Parse.Climb

open Nytrix.Types (nm ch)

/-- A token as the parser sees it: its kind, its text, and whether a new line begins before it. -/
structure Tok where
  kind : TokenKind
  text : List UInt8
  newline : Bool
  deriving DecidableEq

/-- The precedence of a binary operator; zero for other tokens. -/
def precedence : TokenKind → Nat
  | .or => 1
  | .and => 2
  | .eq | .neq => 3
  | .lt | .gt | .le | .ge | .range => 4
  | .plus | .minus => 5
  | .star | .slash | .percent => 6
  | .pow => 8
  | .bitor | .bitand | .bitxor | .lshift | .rshift => 7
  | .pipe => 1
  | .questionQuestion => 2
  | _ => 0

/-- What the parser makes of an operand and of operators. -/
structure Nodes (N : Type) where
  ident : Tok → N
  literal : Tok → N
  expand : Tok → N → N
  unary : Tok → N → N
  grouped : Tok → N → Tok → N
  binary : Tok → N → N → N

/-- The parts of the parser for other expressions, from where they begin. -/
structure Others (N : Type) where
  primary : List Tok → Option (N × List Tok)
  behind : N → List Tok → Option (N × List Tok)
  unary : List Tok → Option (N × List Tok)
  piped : N → List Tok → Option (N × List Tok)
  ternary : N → List Tok → Option (N × List Tok)
  tuple : List Tok → Option (N × List Tok)

/-- The kind of the next token. -/
def curKind (ts : List Tok) : TokenKind := (ts.head?.map Tok.kind).getD .eof

/-- Whether a new line begins before the next token. -/
def skippedNewline (ts : List Tok) : Bool := (ts.head?.map Tok.newline).getD false

/-- The tokens that are literals of their own. -/
def isLiteral (kind : TokenKind) : Bool :=
  kind = .number || kind = .string || kind = .fstring || kind = .kwTrue || kind = .kwFalse ||
    kind = .kwNil

/-- Whether the next token goes on with a postfix expression. -/
def startsPostfix (ts : List Tok) : Bool :=
  let kind := curKind ts
  kind = .question || kind = .dot || kind = .questionDot ||
    ((kind = .lparen || kind = .lbrack || kind = .lbrace) && !skippedNewline ts)

/-- The tokens behind which the words of tasks are operators. -/
def startsOperand : List TokenKind :=
  [.ident, .number, .string, .fstring, .kwTrue, .kwFalse, .kwNil, .kwSizeof, .kwComptime, .kwMatch,
   .dot, .lbrack, .lbrace, .kwAsm, .kwEmbed, .kwLambda, .kwFn, .minus, .not, .bitand, .bitnot]

/-- The words of tasks. -/
def isTask (tok : Tok) : Bool :=
  tok.kind = .ident && (tok.text = nm "async" || tok.text = nm "await")

/-- Whether a word of tasks is an operator, by the token behind it. -/
def isTaskOperator (tok : Tok) (ts : List Tok) : Bool :=
  isTask tok && curKind ts ≠ .lparen && startsOperand.contains (curKind ts)

/-- The unary operators that bind as powers do. -/
def isPrefix (kind : TokenKind) : Bool := kind = .minus || kind = .not || kind = .bitnot

section Parser

variable {N : Type} (nodes : Nodes N) (others : Others N) (stopExprAtNewline : Bool)

mutual

/-- An operand: a name, a literal, or an expression in parentheses. -/
def parsePrimary : Nat → List Tok → Option (N × List Tok)
  | 0, _ => none
  | _ + 1, [] => none
  | n + 1, tok :: ts =>
    if tok.kind = .ident then
      if tok.text = nm "expand" then do
        let (arg, ts) ← parseExpr n 0 ts
        some (nodes.expand tok arg, ts)
      else some (nodes.ident tok, ts)
    else if isLiteral tok.kind then some (nodes.literal tok, ts)
    else if tok.kind = .lparen then
      if curKind ts = .rparen then others.tuple (tok :: ts)
      else do
        let (inner, ts) ← parseExpr n 0 ts
        match ts with
        | [] => none
        | next :: rest =>
          if next.kind = .comma then others.tuple (tok :: ts)
          else if next.kind = .rparen then some (nodes.grouped tok inner next, rest)
          else none
    else others.primary (tok :: ts)

/-- An operand with what stands behind it. -/
def parsePostfix : Nat → List Tok → Option (N × List Tok)
  | 0, _ => none
  | n + 1, ts => do
    let (expr, ts) ← parsePrimary n ts
    if startsPostfix ts then others.behind expr ts else some (expr, ts)

/-- An operand with the unary operators before it. -/
def parseUnary : Nat → List Tok → Option (N × List Tok)
  | 0, _ => none
  | _ + 1, [] => none
  | n + 1, tok :: ts =>
    if isTaskOperator tok ts then do
      let (right, ts) ← parseUnary n ts
      some (nodes.unary tok right, ts)
    else if isPrefix tok.kind then do
      let (right, ts) ← parseExpr n (precedence .pow) ts
      some (nodes.unary tok right, ts)
    else if tok.kind = .bitand || tok.kind = .star then others.unary (tok :: ts)
    else parsePostfix n (tok :: ts)

/-- An expression whose binary operators have a precedence, or a higher one. -/
def parseExpr : Nat → Nat → List Tok → Option (N × List Tok)
  | 0, _, _ => none
  | n + 1, prec, ts => do
    let (left, ts) ← parseUnary n ts
    climb n prec left ts

/-- Goes on with an expression behind its left operand. -/
def climb : Nat → Nat → N → List Tok → Option (N × List Tok)
  | 0, _, _, _ => none
  | n + 1, prec, left, ts =>
    let pcur := precedence (curKind ts)
    if (stopExprAtNewline && skippedNewline ts) || pcur < prec || pcur = 0 then
      if prec = 0 && curKind ts = .question then others.ternary left ts else some (left, ts)
    else
      match ts with
      | [] => none
      | op :: ts =>
        if op.kind = .pipe then
          if curKind ts = .lbrack || curKind ts = .dot then do
            let (left, ts) ← others.piped left ts
            climb n prec left ts
          else do
            let (rhs, ts) ← parseExpr n (pcur + 1) ts
            climb n prec (nodes.binary op left rhs) ts
        else do
          let (right, ts) ← parseExpr n (if op.kind = .pow then pcur else pcur + 1) ts
          climb n prec (nodes.binary op left right) ts

end

end Parser

/-- The nodes of the syntax tree. -/
inductive Expr where
  | ident (name : List UInt8)
  | literal (tok : Tok)
  | unary (op : List UInt8) (right : Expr)
  | binary (op : List UInt8) (left right : Expr)
  | logical (op : List UInt8) (left right : Expr)
  | ternary (cond trueExpr falseExpr : Expr)
  | call (callee : Expr) (args : List Expr)

/-- The node of a pipe: a call gets the left side as its first argument. -/
def pipeExpr (left rhs : Expr) : Expr :=
  match rhs with
  | .call callee args => .call callee (left :: args)
  | other => .call other [left]

/-- The node of a binary operator. -/
def binaryExpr (op : Tok) (left right : Expr) : Expr :=
  match op.kind with
  | .pipe => pipeExpr left right
  | .questionQuestion => .ternary left left right
  | .and => .logical (nm "&&") left right
  | .or => .logical (nm "||") left right
  | _ => .binary op.text left right

/-- The text of a unary operator. -/
def unaryText (tok : Tok) : List UInt8 :=
  match tok.kind with
  | .minus => nm "-"
  | .not => nm "!"
  | .bitnot => nm "~"
  | _ => tok.text

/-- The parser's own nodes: an expression in parentheses is the expression. -/
def exprNodes : Nodes Expr where
  ident tok := .ident tok.text
  literal tok := .literal tok
  expand tok arg := .call (.ident tok.text) [arg]
  unary tok right := .unary (unaryText tok) right
  grouped _ inner _ := inner
  binary := binaryExpr

end Nytrix.Parse.Climb
