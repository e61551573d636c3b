import Nytrix.Lib.Positions
import Nytrix.Types.Names

/-! The lexer: what it passes over between tokens, and how it takes the next token off the text. -/

namespace Nytrix.Parse

open Nytrix.Lib
open Nytrix.Types (nm ch)

/-- A text in memory: its bytes before the zero byte that ends it. -/
structure Source where
  bytes : List UInt8
  nonzero : ∀ b ∈ bytes, b ≠ 0

/-- The kinds of tokens. -/
inductive TokenKind where
  | eof | ident | number | string | fstring
  | kwFn | kwReturn | kwIf | kwElse | kwWhile | kwFor | kwIn | kwTrue | kwFalse | kwTry | kwCatch
  | kwUse | kwGoto | kwLambda | kwDefer | kwBreak | kwContinue | kwElif | kwAsm | kwAs | kwComptime
  | kwStruct | kwMatch | kwEmbed | kwSizeof | kwExtern | kwDef | kwMut | kwNil | kwDel | kwModule
  | kwEnum
  | plus | minus | star | slash | percent | eq | neq | lt | gt | le | ge | and | or | not | assign
  | plusEq | minusEq | starEq | slashEq | percentEq | powEq | bitxorEq | lshiftEq | rshiftEq
  | arrow | bitor | bitand | pow | bitxor | lshift | rshift | bitnot
  | lparen | rparen | lbrace | rbrace | lbrack | rbrack | comma | colon | dot | range | ellipsis
  | question | at | hash | plusPlus | minusMinus | pipe | questionQuestion | questionDot | error
  deriving DecidableEq

/-- A token: its kind and the text that it takes up. -/
structure Token where
  kind : TokenKind
  start : Nat
  len : Nat
  deriving DecidableEq

/-- A report of the lexer: where the text at fault begins, where the lexer stands, and its words. -/
structure LexError where
  start : Nat
  pos : Nat
  msg : List UInt8
  hint : List UInt8
  deriving DecidableEq

/-- The state of the lexer: where it stands in the text, and what it has reported. -/
structure Lexer where
  pos : Nat
  errors : List LexError
  deriving DecidableEq

/-- Whether a byte is a space. -/
def isSpace (c : UInt8) : Bool := c = 9 || c = 10 || c = 13 || c = 32

/-- Whether a byte may begin a name. -/
def isAlpha (c : UInt8) : Bool :=
  (ch 'A' ≤ c && c ≤ ch 'Z') || c = ch '_' || (ch 'a' ≤ c && c ≤ ch 'z')

/-- Whether a byte is a digit. -/
def isDigit (c : UInt8) : Bool := ch '0' ≤ c && c ≤ ch '9'

/-- Whether a byte may be in a name. -/
def isAlnum (c : UInt8) : Bool := isAlpha c || isDigit c

/-- Whether a byte is a digit of a binary number. -/
def nyIsBindigit (c : UInt8) : Bool := c = ch '0' || c = ch '1'

/-- Whether a byte is a digit of an octal number. -/
def nyIsOctdigit (c : UInt8) : Bool := ch '0' ≤ c && c ≤ ch '7'

/-- Whether a byte is a digit of a hexadecimal number. -/
def nyIsXdigit (c : UInt8) : Bool :=
  isDigit c || (ch 'A' ≤ c && c ≤ ch 'F') || (ch 'a' ≤ c && c ≤ ch 'f')

namespace Source

/-- The length of a text. -/
def len (src : Source) : Nat := src.bytes.length

/-- The byte at a place; zero at the end. -/
def byte (src : Source) (i : Nat) : UInt8 := src.bytes.getD i 0

/-- The first place from a place on at which a test holds, or the end of the text. -/
def find (src : Source) (stop : Nat → Bool) (pos : Nat) : Nat := scanTo stop (src.len - pos) pos

/-- The first place from a place on at which the byte fails a test, or the end of the text. -/
def skipWhile (src : Source) (p : UInt8 → Bool) (pos : Nat) : Nat :=
  src.find (fun i => !p (src.byte i)) pos

/-- The end of the line that a place is on. -/
def lineEnd (src : Source) (pos : Nat) : Nat := src.skipWhile (· ≠ ch '\n') pos

/-- Whether the text goes on with some bytes at a place. -/
def startsWith (src : Source) (pos : Nat) (s : String) : Bool :=
  (nm s).isPrefixOf (src.bytes.drop pos)

/-- Whether the text has the same bytes at two places. -/
def sameAt (src : Source) (pos pos' len : Nat) : Bool :=
  decide (∀ k < len, src.byte (pos + k) = src.byte (pos' + k))

end Source

/-- What a look at the text between two tokens leads to: nothing to pass over, text that is passed
over up to a place with some reports, or a byte that is taken without more. -/
inductive Skip where
  | stays
  | goes (stop : Nat) (errors : List LexError)
  | drops (stop : Nat)
  deriving DecidableEq

/-- The byte that closes a comment that is opened by another byte. -/
def commentCloser (opener : UInt8) : Option UInt8 :=
  if opener = ch '{' then some (ch '}')
  else if opener = ch '<' then some (ch '>')
  else if opener = ch '[' then some (ch ']')
  else if opener = ch '(' then some (ch ')')
  else none

/-- Passes over a comment between a pair of symbols, which begins at a semicolon. -/
def skipSymbolComment (src : Source) (semi : Nat) (closer : UInt8) : Skip :=
  let close := src.find (fun i => src.byte i = closer && src.byte (i + 1) = ch ';') (semi + 2)
  if close < src.len then .goes (close + 2) []
  else .goes close [⟨semi, close, nm "unterminated symbol comment",
    nm "make sure the matching closing symbol followed by ';' is present"⟩]

/-- Whether a marker ends a comment at a place. -/
def markerCloses (src : Source) (marker len i : Nat) : Bool :=
  src.sameAt i marker len && src.byte (i + len) = ch ';' &&
    !isAlnum (if 0 < i then src.byte (i - 1) else 0)

/-- Passes over a comment between a marker and its repetition, which begins at a semicolon. -/
def skipMarkerComment (src : Source) (semi : Nat) : Skip :=
  let marker := semi + 1
  let rest := src.skipWhile isAlnum marker
  let close := src.find (markerCloses src marker (rest - marker)) rest
  if close < src.len then .goes (close + (rest - marker) + 1) []
  else .goes close [⟨semi, close, nm "unterminated marker comment",
    nm "use '; marker' for a line comment, or close this block with MARKER;"⟩]

/-- Passes over a comment, which begins at a semicolon. -/
def skipComment (src : Source) (semi : Nat) : Skip :=
  let opener := src.byte (semi + 1)
  match commentCloser opener with
  | some closer => skipSymbolComment src semi closer
  | none =>
    if isAlpha opener then skipMarkerComment src semi
    else .goes (src.lineEnd (semi + 1)) []

/-- Whether a place is at the beginning of a line. -/
def atLineStart (src : Source) (pos : Nat) : Bool := pos = 0 || src.byte (pos - 1) = ch '\n'

/-- Whether a byte is a blank. -/
def isBlank (c : UInt8) : Bool := c = ch ' ' || c = ch '\t'

/-- Whether a word that opens a line directive is at a place, with a blank or the end behind it. -/
def lineWordAt (src : Source) (p : Nat) : Bool :=
  src.startsWith p "line" && (isBlank (src.byte (p + 4)) || src.byte (p + 4) = 0)

/-- The place behind the word that opens a line directive and the blanks after it, if it is there. -/
def lineNumberAt (src : Source) (p : Nat) : Nat :=
  if src.startsWith p "line" && isBlank (src.byte (p + 4)) then src.skipWhile isBlank (p + 4) else p

/--
Passes over a line directive or the first line of a script, which begins at a number sign.

The number and the file that a directive names are for the positions in reports.
-/
def skipDirective (src : Source) (pos : Nat) : Skip :=
  let p := src.skipWhile isBlank (pos + 1)
  if lineWordAt src p || isDigit (src.byte p) then
    if isDigit (src.byte (lineNumberAt src p)) then
      let stop := src.lineEnd (lineNumberAt src p)
      .goes (if src.byte stop = ch '\n' then stop + 1 else stop) []
    else .drops (pos + 1)
  else if pos = 0 && src.byte p = ch '!' then .goes (src.lineEnd pos) []
  else .stays

/-- One look at the text between two tokens. -/
def skipStep (src : Source) (pos : Nat) : Skip :=
  let c := src.byte pos
  if isSpace c then
    .goes (if c = ch '\n' then pos + 1
      else src.skipWhile (fun c => isSpace c && c ≠ ch '\n') pos) []
  else if c = ch ';' then skipComment src pos
  else if c = ch '#' && atLineStart src pos then skipDirective src pos
  else .stays

/-- Passes over what stands between two tokens; nothing if the steps do not suffice. -/
def skipWhitespace (src : Source) : Nat → Lexer → Option Lexer
  | 0, _ => none
  | n + 1, lx =>
    match skipStep src lx.pos with
    | .stays => some lx
    | .goes stop errors => skipWhitespace src n ⟨stop, lx.errors ++ errors⟩
    | .drops stop => some { lx with pos := stop }

/-- A token that is taken off the text, or none if the lexer goes on after a report. -/
structure Scan where
  kind : Option TokenKind
  stop : Nat
  errors : List LexError
  deriving DecidableEq

/-- The place behind a string that three quotes close, with whether they are there. -/
def tripleEnd (src : Source) (quote : UInt8) (pos : Nat) : Nat × Bool :=
  let close := src.find (fun i => src.byte i = quote && src.byte (i + 1) = quote &&
    src.byte (i + 2) = quote) pos
  if close < src.len then (close + 3, true) else (close, false)

/-- The place of the quote that closes a string, a backslash with the byte behind it passed over. -/
def closingQuote (src : Source) (quote : UInt8) : Nat → Nat → Nat
  | 0, pos => pos
  | n + 1, pos =>
    if src.byte pos = quote || src.byte pos = 0 then pos
    else if src.byte pos = ch '\\' && src.byte (pos + 1) ≠ 0 then
      closingQuote src quote n (pos + 2)
    else closingQuote src quote n (pos + 1)

/-- The place behind a string whose first quote is before a place, with whether it is closed. -/
def stringEnd (src : Source) (quote : UInt8) (pos : Nat) : Nat × Bool :=
  if src.byte pos = quote && src.byte (pos + 1) = quote then tripleEnd src quote (pos + 2)
  else
    let close := closingQuote src quote (src.len - pos) pos
    if src.byte close = quote then (close + 1, true) else (close, false)

/-- Takes a string whose first quote is before a place. -/
def scanString (src : Source) (start : Nat) (quote : UInt8) (pos : Nat) (kind : TokenKind)
    (msg : String) : Scan :=
  match stringEnd src quote pos with
  | (stop, true) => ⟨some kind, stop, []⟩
  | (stop, false) => ⟨some .error, stop,
    [⟨start, stop, nm msg, nm "check for missing closing quote"⟩]⟩

/-- Goes on by eight bytes as long as all of them pass a test. -/
def scanEight (src : Source) (p : UInt8 → Bool) : Nat → Nat → Nat
  | 0, pos => pos
  | n + 1, pos =>
    if pos + 8 ≤ src.len && (List.range 8).all fun k => p (src.byte (pos + k)) then
      scanEight src p n (pos + 8)
    else pos

/-- The place behind parts of a name that stand for arguments of a template. -/
def scanTemplateIdentTail (src : Source) : Nat → Nat → Nat
  | 0, pos => pos
  | n + 1, pos =>
    if src.byte pos = ch '$' && src.byte (pos + 1) = ch '{' && isAlpha (src.byte (pos + 2)) then
      let q := src.skipWhile isAlnum (pos + 2)
      if src.byte q = ch '}' then
        scanTemplateIdentTail src n (src.skipWhile isAlnum (q + 1))
      else pos
    else pos

/-- The words that are tokens of their own. -/
def keywords : List (String × TokenKind) :=
  [("as", .kwAs), ("asm", .kwAsm), ("break", .kwBreak), ("case", .kwMatch), ("catch", .kwCatch),
    ("continue", .kwContinue), ("comptime", .kwComptime), ("defer", .kwDefer), ("def", .kwDef),
    ("del", .kwDel), ("else", .kwElse), ("elif", .kwElif), ("enum", .kwEnum), ("embed", .kwEmbed),
    ("extern", .kwExtern), ("false", .kwFalse), ("fn", .kwFn), ("for", .kwFor), ("goto", .kwGoto),
    ("if", .kwIf), ("in", .kwIn), ("nil", .kwNil), ("none", .kwNil), ("NULL", .kwNil),
    ("lambda", .kwLambda), ("layout", .kwStruct), ("sizeof", .kwSizeof), ("struct", .kwStruct),
    ("match", .kwMatch), ("mut", .kwMut), ("module", .kwModule), ("return", .kwReturn),
    ("true", .kwTrue), ("try", .kwTry), ("use", .kwUse), ("while", .kwWhile)]

/-- The words of other languages that are names here, with what is reported of them. -/
def foreignWords : List (String × String × String) :=
  [("const", "'const' is not a keyword in Nytrix", "use 'def' for constants"),
    ("import", "'import' is not used in Nytrix", "use 'use' instead"),
    ("var", "'var' is not a keyword in Nytrix", "use 'mut' or 'def' instead"),
    ("void", "'void' is not used in Nytrix", "simply omit it or use 'none'"),
    ("printf", "'printf' is not used in Nytrix", "use 'print' instead")]

/-- The kind of a name, with what is reported of it. -/
def identifierType (src : Source) (start stop : Nat) : TokenKind × List LexError :=
  let word := (src.bytes.drop start).take (stop - start)
  match keywords.find? fun entry => nm entry.1 = word with
  | some entry => (entry.2, [])
  | none =>
    match foreignWords.find? fun entry => nm entry.1 = word with
    | some entry => (.ident, [⟨start, stop, nm entry.2.1, nm entry.2.2⟩])
    | none => (.ident, [])

/-- The token of a name. -/
def scanName (src : Source) (start stop : Nat) : Scan :=
  let type := identifierType src start stop
  ⟨some type.1, stop, type.2⟩

/-- Takes a name, which begins with a letter. -/
def scanIdent (src : Source) (start : Nat) : Scan :=
  let p := src.skipWhile isAlnum (scanEight src isAlnum src.len (start + 1))
  scanName src start (scanTemplateIdentTail src src.len p)

/-- The place behind a name that begins with an argument of a template, if there is one. -/
def templateEnd (src : Source) (start : Nat) : Option Nat :=
  if src.byte (start + 1) = ch '{' && isAlpha (src.byte (start + 2)) then
    let p := src.skipWhile isAlnum (start + 2)
    if src.byte p = ch '}' then
      some (scanTemplateIdentTail src src.len (src.skipWhile isAlnum (p + 1)))
    else none
  else none

/-- The place behind digits, which may have a separator between two of them. -/
def digitsEnd (src : Source) (digit : UInt8 → Bool) (pos : Nat) : Nat :=
  src.find (fun i => !(digit (src.byte i) ||
    (src.byte i = ch '_' && digit (src.byte (i + 1))))) pos

/-- The place behind decimal digits. -/
def lexDecimalDigits (src : Source) (pos : Nat) : Nat :=
  digitsEnd src isDigit (scanEight src isDigit src.len pos)

/-- Whether a byte begins the suffix of a number. -/
def nyNumberSuffixLetter (c : UInt8) (allowFloat : Bool) : Bool :=
  c = ch 'i' || c = ch 'I' || c = ch 'u' || c = ch 'U' ||
    (allowFloat && (c = ch 'f' || c = ch 'F'))

/-- The place behind the suffix of a number. -/
def lexNumberSuffixDigits (src : Source) (underscoreAllowsFloat : Bool) (pos : Nat) : Nat :=
  let pos :=
    if src.byte pos = ch '_' && nyNumberSuffixLetter (src.byte (pos + 1)) underscoreAllowsFloat then
      pos + 1
    else pos
  if nyNumberSuffixLetter (src.byte pos) true && isDigit (src.byte (pos + 1)) then
    lexDecimalDigits src (pos + 1)
  else pos

/-- Takes a number whose radix is named by its second byte. -/
def lexRadixNumber (src : Source) (start : Nat) (digit : UInt8 → Bool)
    (required : Option (String × String)) : Scan :=
  let number : Scan := ⟨some .number,
    lexNumberSuffixDigits src false (digitsEnd src digit (start + 2)), []⟩
  match required with
  | none => number
  | some report =>
    if digit (src.byte (start + 2)) then number
    else ⟨some .error, start + 2, [⟨start, start + 2, nm report.1, nm report.2⟩]⟩

/-- The place behind the digits of a decimal number and those of its fraction. -/
def fractionEnd (src : Source) (start : Nat) : Nat :=
  let pos := lexDecimalDigits src (start + 1)
  if src.byte pos = ch '.' && isDigit (src.byte (pos + 1)) then lexDecimalDigits src (pos + 1)
  else pos

/-- The place of the digits of an exponent whose letter is at a place. -/
def exponentDigits (src : Source) (pos : Nat) : Nat :=
  if src.byte (pos + 1) = ch '+' || src.byte (pos + 1) = ch '-' then pos + 2 else pos + 1

/-- Takes a decimal number. -/
def scanDecimal (src : Source) (start : Nat) : Scan :=
  let pos := fractionEnd src start
  if src.byte pos = ch 'e' || src.byte pos = ch 'E' then
    let digits := exponentDigits src pos
    if isDigit (src.byte digits) then
      ⟨some .number, lexNumberSuffixDigits src true (lexDecimalDigits src digits), []⟩
    else ⟨some .error, digits, [⟨start, digits, nm "malformed numeric constant",
      nm "exponent must be followed by at least one digit (e.g. 1.0e10)"⟩]⟩
  else ⟨some .number, lexNumberSuffixDigits src true pos, []⟩

/-- Takes a number. -/
def scanNumber (src : Source) (start : Nat) : Scan :=
  let c := src.byte start
  let x := src.byte (start + 1)
  if c = ch '0' && (x = ch 'x' || x = ch 'X') then lexRadixNumber src start nyIsXdigit none
  else if c = ch '0' && (x = ch 'b' || x = ch 'B') then
    lexRadixNumber src start nyIsBindigit (some ("malformed binary numeric constant",
      "binary literals need at least one 0 or 1 digit after 0b"))
  else if c = ch '0' && (x = ch 'o' || x = ch 'O') then
    lexRadixNumber src start nyIsOctdigit (some ("malformed octal numeric constant",
      "octal literals need at least one 0..7 digit after 0o"))
  else scanDecimal src start

/-- What the lexer does at an operator: a token, a report, or a report of a comment of C. -/
inductive Operator where
  | token (kind : TokenKind)
  | refuse (msg hint : String)
  | lineComment (msg hint : String)
  | blockComment (msg hint : String)
  deriving DecidableEq

/-- The operators; of those with the same first byte, the ones that are tried first come first. -/
def operators : List (String × Operator) :=
  [("(", .token .lparen), (")", .token .rparen), ("\x7b", .token .lbrace), ("\x7d", .token .rbrace),
    ("[", .token .lbrack), ("]", .token .rbrack), (",", .token .comma),
    ("...", .token .ellipsis), ("..", .token .range), (".", .token .dot),
    ("->", .token .arrow), ("-=", .token .minusEq), ("--", .token .minusMinus), ("-", .token .minus),
    ("+%", .refuse "wrapping operator '+%' is not supported"
      "standard operators wrap on overflow for unsigned types"),
    ("+=", .token .plusEq), ("++", .token .plusPlus), ("+", .token .plus),
    ("*%", .refuse "wrapping operator '*%' is not supported"
      "standard operators wrap on overflow for unsigned types"),
    ("*=", .token .starEq), ("*", .token .star),
    ("/=", .token .slashEq),
    ("//", .lineComment "C-style line comments '//' are not supported" "use ';' instead"),
    ("/*", .blockComment "C-style block comments '/* */' are not supported"
      "use ';' for line comments or spaces for inlining"),
    ("/", .token .slash), ("%=", .token .percentEq), ("%", .token .percent),
    ("!==", .refuse "strict inequality operator '!==' is not supported" "use '!=' instead"),
    ("!=", .token .neq), ("!", .token .not),
    ("===", .refuse "strict equality operator '===' is not supported" "use '==' instead"),
    ("==", .token .eq),
    ("=>", .refuse "fat arrow operator '=>' is not supported" "use '->' for case and match arms"),
    ("=", .token .assign),
    ("<=", .token .le), ("<<=", .token .lshiftEq), ("<<", .token .lshift), ("<", .token .lt),
    (">=", .token .ge), (">>=", .token .rshiftEq), (">>", .token .rshift), (">", .token .gt),
    ("&&", .token .and), ("&", .token .bitand),
    ("||", .token .or), ("|>", .token .pipe), ("|", .token .bitor),
    ("^^=", .token .bitxorEq), ("^^", .token .bitxor), ("^=", .token .powEq), ("^", .token .pow),
    ("~", .token .bitnot), (":", .token .colon), ("#", .token .hash),
    ("??", .token .questionQuestion), ("?.", .token .questionDot), ("?", .token .question),
    ("@", .token .at)]

/-- The place behind a block comment of C whose opening is before a place. -/
def blockCommentEnd (src : Source) (pos : Nat) : Nat :=
  let close := src.find (fun i => src.byte i = ch '*' && src.byte (i + 1) = ch '/') pos
  if src.byte close = ch '*' then close + 2 else close

/-- The report of a byte that begins no token; the number is that of a signed byte. -/
def unrecognised (c : UInt8) : List UInt8 :=
  nm "unrecognised character '" ++ [c] ++ nm "' (ascii " ++ nm (toString c.toInt8.toInt) ++ nm ")"

/-- Takes an operator, or reports a byte that begins none. -/
def scanOperator (src : Source) (start : Nat) : Scan :=
  match operators.find? fun entry => src.startsWith start entry.1 with
  | none => ⟨none, start + 1, [⟨start, start + 1, unrecognised (src.byte start),
    nm "check for accidental non-ascii characters or typos"⟩]⟩
  | some (spelling, operator) =>
    let pos := start + (nm spelling).length
    match operator with
    | .token kind => ⟨some kind, pos, []⟩
    | .refuse msg hint => ⟨none, pos, [⟨start, pos, nm msg, nm hint⟩]⟩
    | .lineComment msg hint => ⟨none, src.lineEnd pos, [⟨start, pos, nm msg, nm hint⟩]⟩
    | .blockComment msg hint => ⟨none, blockCommentEnd src pos, [⟨start, pos, nm msg, nm hint⟩]⟩

/-- Takes what begins at a place: a string, a name, a number or an operator. -/
def scanToken (src : Source) (start : Nat) : Scan :=
  let c := src.byte start
  let next := src.byte (start + 1)
  if c = ch 'f' && (next = ch '"' || next = ch '\'') then
    scanString src start next (start + 2) .fstring "unterminated f-string"
  else if isAlpha c then scanIdent src start
  else
    match if c = ch '$' then templateEnd src start else none with
    | some stop => scanName src start stop
    | none =>
      if isDigit c then scanNumber src start
      else if c = ch '"' || c = ch '\'' then
        scanString src start c (start + 1) .string "unterminated string literal"
      else scanOperator src start

/-- The next token, after reports of what is none; nothing if the steps do not suffice. -/
def lexerNext (src : Source) : Nat → Lexer → Option (Token × Lexer)
  | 0, _ => none
  | n + 1, lx => do
    let lx ← skipWhitespace src (src.len + 1) lx
    if src.byte lx.pos = 0 then some (⟨.eof, lx.pos, 0⟩, lx)
    else
      let scan := scanToken src lx.pos
      let lx' : Lexer := ⟨scan.stop, lx.errors ++ scan.errors⟩
      match scan.kind with
      | some kind => some (⟨kind, lx.pos, scan.stop - lx.pos⟩, lx')
      | none => lexerNext src n lx'

/-- The tokens up to the end of the text; nothing if the steps do not suffice. -/
def lexAll (src : Source) : Nat → Lexer → Option (List Token × Lexer)
  | 0, _ => none
  | n + 1, lx => do
    let (token, lx) ← lexerNext src (src.len + 1) lx
    if token.kind = .eof then some ([], lx)
    else
      let (tokens, lx) ← lexAll src n lx
      some (token :: tokens, lx)

/-- The lexer at the beginning of a text. -/
def lexerInit : Lexer := ⟨0, []⟩

end Nytrix.Parse
