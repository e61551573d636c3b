import Nytrix.Parse.Lexer

/-! The reports of the parser: the table that counts them, and code that makes them. -/

namespace Nytrix.Parse

open Nytrix.Types (Name nm ch)

/-- A token as the parser has it: what it is, its text, and where it stands. -/
structure ParseToken where
  kind : TokenKind
  lexeme : Option Name
  filename : Option Name
  line : Int
  col : Int
  deriving DecidableEq

/-- The last report of a parser. -/
structure LastError where
  line : Int
  col : Int
  endCol : Int
  msg : Name
  hint : Name
  deriving DecidableEq

/--
A parser: the token it looks at, the tokens that the lexer gives next with the errors that it finds
before each of them, and the account of errors.
-/
structure Parser where
  cur : ParseToken
  ahead : List (ParseToken × Nat)
  filename : Name
  hadError : Bool
  errorCount : Nat
  errorLimit : Nat
  exitOnLimit : Bool
  quiet : Bool
  lastError : LastError
  deriving DecidableEq

/-- How often a report has been made; reports are told apart by their texts. -/
abbrev DiagTable := Name → Nat

/-- What a kind of token is called. -/
def parserTokenName : TokenKind → String
  | .eof => "EOF"
  | .ident => "identifier"
  | .number => "number"
  | .string => "string"
  | .fstring => "f-string"
  | .kwFn => "fn"
  | .kwReturn => "return"
  | .kwIf => "if"
  | .kwElse => "else"
  | .kwWhile => "while"
  | .kwFor => "for"
  | .kwIn => "in"
  | .kwTrue => "true"
  | .kwFalse => "false"
  | .kwTry => "try"
  | .kwCatch => "catch"
  | .kwUse => "use"
  | .kwStruct => "struct"
  | .kwGoto => "goto"
  | .kwLambda => "lambda"
  | .kwDefer => "defer"
  | .kwDef => "def"
  | .kwMut => "mut"
  | .kwNil => "nil"
  | .kwDel => "del"
  | .kwBreak => "break"
  | .kwContinue => "continue"
  | .kwElif => "elif"
  | .kwAsm => "asm"
  | .kwAs => "as"
  | .kwMatch => "match"
  | .kwEmbed => "embed"
  | .kwSizeof => "sizeof"
  | .kwExtern => "extern"
  | .kwModule => "module"
  | .kwComptime => "comptime"
  | .kwEnum => "enum"
  | .plus => "+"
  | .minus => "-"
  | .star => "*"
  | .slash => "/"
  | .percent => "%"
  | .eq => "=="
  | .neq => "!="
  | .lt => "<"
  | .gt => ">"
  | .le => "<="
  | .ge => ">="
  | .and => "&&"
  | .or => "||"
  | .not => "!"
  | .assign => "="
  | .plusEq => "+="
  | .minusEq => "-="
  | .starEq => "*="
  | .slashEq => "/="
  | .percentEq => "%="
  | .powEq => "^="
  | .bitxorEq => "^^="
  | .lshiftEq => "<<="
  | .rshiftEq => ">>="
  | .arrow => "->"
  | .bitor => "|"
  | .bitand => "&"
  | .pow => "^"
  | .bitxor => "^^"
  | .lshift => "<<"
  | .rshift => ">>"
  | .bitnot => "~"
  | .lparen => "("
  | .rparen => ")"
  | .lbrace => "\x7b"
  | .rbrace => "\x7d"
  | .lbrack => "["
  | .rbrack => "]"
  | .comma => ","
  | .dot => "."
  | .range => ".."
  | .colon => ":"
  | .question => "?"
  | .at => "@"
  | .hash => "#"
  | .ellipsis => "..."
  | .plusPlus => "++"
  | .minusMinus => "--"
  | .pipe => "|>"
  | .questionQuestion => "??"
  | .questionDot => "?."
  | .error => "error"

/-- A token in the words of a report, in a buffer of 64 bytes where its text is among them. -/
def tokenDesc (tok : ParseToken) : Name :=
  let kind := nm (parserTokenName tok.kind)
  if tok.kind = .ident ∨ tok.kind = .number ∨ tok.kind = .string then
    match tok.lexeme with
    | none => (kind ++ nm " '<null>'").take 63
    | some text =>
      let cut := if 24 < text.length then nm "..." else []
      (kind ++ nm " '" ++ text.take 24 ++ nm "'" ++ cut).take 63
  else kind

/-- The text by which a report is told from others, in a buffer of 1024 bytes. -/
def diagKey (file : Name) (line col : Int) (msg got : Name) : Name :=
  (file ++ nm "|" ++ nm (toString line) ++ nm "|" ++ nm (toString col) ++ nm "|" ++ msg ++ nm "|" ++
    got).take 1023

/-- Counts a report, and whether it is made: the same one is made three times at most. -/
def parserDiagShouldEmit (table : DiagTable) (key : Name) : Bool × DiagTable :=
  (decide (table key + 1 ≤ 3), fun k => if k = key then table key + 1 else table k)

/-- The key of a report about a token. -/
def reportKey (p : Parser) (tok : ParseToken) (msg : Name) : Name :=
  diagKey (tok.filename.getD p.filename) tok.line tok.col msg (tokenDesc tok)

/-- The parser after a report that is made, before the limit of errors is looked at. -/
def noteError (p : Parser) (tok : ParseToken) (msg : Name) (hint : Option Name) : Parser :=
  let span : Int := match tok.lexeme with
    | some text => text.length
    | none => 0
  { p with
    hadError := true
    errorCount := p.errorCount + 1
    lastError := ⟨tok.line, tok.col, tok.col + (if 0 < span then span else 1), msg.take 255,
      (hint.getD []).take 255⟩ }

/-- Looks at the limit of errors after a report; nothing if the process ends there. -/
def checkLimit (p : Parser) : Option Parser :=
  if 0 < p.errorLimit ∧ p.errorLimit ≤ p.errorCount then
    if p.exitOnLimit then none
    else some { p with cur := { p.cur with kind := .eof }, errorLimit := 0 }
  else some p

/-- Makes a report about a token, unless it has been made three times. -/
def printErrorLine (p : Parser) (table : DiagTable) (tok : ParseToken) (msg : Name)
    (hint : Option Name) : Option (Parser × DiagTable) :=
  let (emit, table) := parserDiagShouldEmit table (reportKey p tok msg)
  if emit then (checkLimit (noteError p tok msg hint)).map fun p => (p, table)
  else some (p, table)

/-- Reports an error at a token. -/
def parserError (p : Parser) (table : DiagTable) (tok : ParseToken) (msg : Name)
    (hint : Option Name) : Option (Parser × DiagTable) :=
  let hint := if hint = none ∧ tok.kind = .eof then
    some (nm "check for missing ';' or unmatched brace") else hint
  printErrorLine p table tok msg hint

/-- Goes on to the next token, with the errors that the lexer has found on the way. -/
def parserAdvance (p : Parser) : Parser :=
  match p.ahead with
  | [] => { p with cur := { p.cur with kind := .eof } }
  | (tok, 0) :: rest => { p with cur := tok, ahead := rest }
  | (tok, found + 1) :: rest =>
    let count := p.errorCount + (found + 1)
    let tok := if 0 < p.errorLimit ∧ p.errorLimit ≤ count then { tok with kind := .eof } else tok
    { p with cur := tok, ahead := rest, hadError := true, errorCount := count }

/-- What is reported where a kind of token is expected. -/
def expectMsg (kind : TokenKind) (msg : Option Name) : Name :=
  msg.getD ((nm "expected " ++ nm (parserTokenName kind)).take 127)

/-- Reports that a kind of token is expected where another one is. -/
def expectReport (p : Parser) (table : DiagTable) (kind : TokenKind) (msg hint : Option Name) :
    Option (Parser × DiagTable) :=
  match msg with
  | none =>
    printErrorLine p table p.cur (expectMsg kind none) (some (hint.getD (nm "check syntax")))
  | some msg => parserError p table p.cur msg hint

/-- Goes on over a token that is not the end of the text. -/
def skipUnlessEof (p : Parser) : Parser :=
  if p.cur.kind ≠ .eof then parserAdvance p else p

/-- Goes on over a token of a kind, or reports that another one is there and goes on over that. -/
def parserExpect (p : Parser) (table : DiagTable) (kind : TokenKind) (msg hint : Option Name) :
    Option (Parser × DiagTable) :=
  if p.cur.kind = kind then some (parserAdvance p, table)
  else (expectReport p table kind msg hint).map fun out => (skipUnlessEof out.1, out.2)

/-- The parser at the beginning of a text, whose tokens the lexer gives. -/
def parserInit (tokens : List (ParseToken × Nat)) (filename : Name) (quiet : Bool) : Parser :=
  parserAdvance
    { cur := ⟨.eof, none, none, 0, 0⟩
      ahead := tokens
      filename := filename
      hadError := false
      errorCount := 0
      errorLimit := 10
      exitOnLimit := true
      quiet := quiet
      lastError := ⟨0, 0, 0, [], []⟩ }

/-- The parser without what only decides what is printed. -/
def Parser.loud (p : Parser) : Parser := { p with quiet := false }

/--
Code of the parser, as far as it works on the account of errors; it ends with a value.

It goes on over tokens, reports, and expects; it looks at the parser and chooses how to go on; it
tries code on a copy of the parser, told to be quiet or not, and keeps the copy or drops it; it
parses the interpolations of an f-string, each by a parser of its own; and it parses text that it
has made, by such a parser too.
-/
inductive ParseCode (α : Type) where
  | done (value : α)
  | advance (next : ParseCode α)
  | error (tok : ParseToken) (msg : Name) (hint : Option Name) (next : ParseCode α)
  | expect (kind : TokenKind) (msg hint : Option Name) (next : ParseCode α)
  | look (next : Parser → ParseCode α)
  | attempt (quietly : Bool) (inner : ParseCode α) (keep : Parser → α → Bool)
      (next : Parser → α → ParseCode α)
  | interpolation (tokens : List (ParseToken × Nat)) (inner : ParseCode α) (next : α → ParseCode α)
  | generated (tokens : List (ParseToken × Nat)) (inner : ParseCode α) (next : α → ParseCode α)

/--
How code ends: its value, the parser, the table, and whether an error was found.

The source keeps no record of the last: a report was asked for on the parser itself, made or not, or
an interpolation has an error or tokens behind its expression.
-/
structure ParseEnd (α : Type) where
  value : α
  parser : Parser
  table : DiagTable
  failed : Bool

/-- Hands the errors of the parser of made text to the parser that made it. -/
def takeErrors (p sub : Parser) : Parser :=
  if sub.hadError then { p with hadError := true, errorCount := p.errorCount + sub.errorCount }
  else p

/-- The same end, with the errors that were found before it. -/
def ParseEnd.after {α : Type} (failed : Bool) (result : ParseEnd α) : ParseEnd α :=
  { result with failed := failed || result.failed }

/-- An interpolation is faulty: an error was found in it, or tokens are left over. -/
def ParseEnd.faulty {α : Type} (sub : ParseEnd α) : Bool :=
  sub.failed || sub.parser.hadError || decide (sub.parser.cur.kind ≠ .eof)

namespace ParseCode

variable {α : Type}

/-- Goes through code; nothing if the process ends on the way. -/
def run : ParseCode α → Parser → DiagTable → Option (ParseEnd α)
  | .done value, p, table => some ⟨value, p, table, false⟩
  | .advance next, p, table => run next (parserAdvance p) table
  | .error tok msg hint next, p, table =>
    (parserError p table tok msg hint).bind fun out =>
      (run next out.1 out.2).map (ParseEnd.after true)
  | .expect kind msg hint next, p, table =>
    (parserExpect p table kind msg hint).bind fun out =>
      (run next out.1 out.2).map (ParseEnd.after (decide (p.cur.kind ≠ kind)))
  | .look next, p, table => run (next p.loud) p table
  | .attempt quietly inner keep next, p, table =>
    (run inner { p with quiet := quietly || p.quiet } table).bind fun tried =>
      let next := next tried.parser.loud tried.value
      if keep tried.parser.loud tried.value then
        (run next tried.parser tried.table).map (ParseEnd.after tried.failed)
      else run next p tried.table
  | .interpolation tokens inner next, p, table =>
    (run inner (parserInit tokens p.filename p.quiet) table).bind fun sub =>
      (run (next sub.value) p sub.table).map (ParseEnd.after sub.faulty)
  | .generated tokens inner next, p, table =>
    (run inner (parserInit tokens p.filename true) table).bind fun sub =>
      (run (next sub.value) (takeErrors p sub.parser) sub.table).map (ParseEnd.after sub.failed)

end ParseCode

/-- Parses texts one after the other in one process, each by its code from its parser. -/
def runParses {α : Type} : List (ParseCode α × Parser) → DiagTable → List (ParseEnd α)
  | [], _ => []
  | parse :: parses, table =>
    match parse.1.run parse.2 table with
    | some result => result :: runParses parses result.table
    | none => []

end Nytrix.Parse
