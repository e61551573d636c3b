import Nytrix.Parse.Lexer

/-! The decoder of string literals: their escapes, and what stands between the quotes. -/

namespace Nytrix.Parse

open Nytrix.Types (nm ch)

/-- The escapes of one letter, with the bytes that they stand for. -/
def namedEscapes : List (UInt8 × UInt8) :=
  [(ch 'n', 10), (ch 't', 9), (ch 'r', 13), (ch 'v', 11), (ch 'f', 12), (ch 'a', 7), (ch 'b', 8),
   (ch 'e', 27), (ch '"', ch '"'), (ch '\'', ch '\''), (ch '\\', ch '\\')]

/-- The value of a digit of a number of a radix up to sixteen, if it is one. -/
def digitValue (radix : Nat) (c : UInt8) : Option Nat :=
  let value :=
    if isDigit c then c.toNat - 48
    else if ch 'A' ≤ c && c ≤ ch 'F' then c.toNat - 55
    else if ch 'a' ≤ c && c ≤ ch 'f' then c.toNat - 87
    else 16
  if value < radix then some value else none

/-- The value of the digits that come first. -/
def digitsValue (radix : Nat) : Nat → List UInt8 → Nat
  | value, [] => value
  | value, c :: rest =>
    match digitValue radix c with
    | some digit => digitsValue radix (value * radix + digit) rest
    | none => value

/-- Whether a byte is a space for the conversion of numbers. -/
def isSpaceC (c : UInt8) : Bool := c = 32 || (9 ≤ c && c ≤ 13)

/-- The digits behind a prefix of a hexadecimal number, where a digit follows it. -/
def dropHexPrefix : List UInt8 → List UInt8
  | zero :: x :: digit :: rest =>
    if zero = ch '0' && (x = ch 'x' || x = ch 'X') && (digitValue 16 digit).isSome then digit :: rest
    else zero :: x :: digit :: rest
  | text => text

/-- The conversion of a text to a number: spaces, a sign, a prefix, and then digits. -/
def strtol (text : List UInt8) (radix : Nat) : Int :=
  let text := text.dropWhile isSpaceC
  let unsigned (text : List UInt8) : Int :=
    digitsValue radix 0 (if radix = 16 then dropHexPrefix text else text)
  match text with
  | [] => 0
  | c :: rest =>
    if c = ch '-' then -unsigned rest else if c = ch '+' then unsigned rest else unsigned text

/-- A number as a byte. -/
def toByte (value : Int) : UInt8 := UInt8.ofNat (value % 256).toNat

/-- What is written for a backslash with a byte behind it, and how many bytes that takes. -/
def unescapeEscape (e : UInt8) (rest : List UInt8) : List UInt8 × Nat :=
  match namedEscapes.lookup e with
  | some byte => ([byte], 2)
  | none =>
    if e = ch 'x' then
      if 2 ≤ rest.length then ([toByte (strtol (rest.take 2) 16)], 4) else ([], 2)
    else if nyIsOctdigit e then
      let digits := ((e :: rest).take 3).takeWhile nyIsOctdigit
      ([toByte (strtol digits 8)], digits.length + 1)
    else ([e], 2)

/-- What the decoder writes for what comes next, and how many bytes it goes on. -/
def unescapeStep : List UInt8 → List UInt8 × Nat
  | [] => ([], 0)
  | [c] => ([c], 1)
  | c :: e :: rest => if c = ch '\\' then unescapeEscape e rest else ([c], 1)

/-- What the decoder writes in at most so many steps. -/
def unescapeLoop : Nat → List UInt8 → List UInt8
  | 0, _ => []
  | n + 1, body =>
    if body.isEmpty then []
    else (unescapeStep body).1 ++ unescapeLoop n (body.drop (unescapeStep body).2)

/-- The bytes that a text with escapes stands for. -/
def parserUnescapeString (body : List UInt8) : List UInt8 := unescapeLoop body.length body

/-- Whether a text of a literal begins with three quotes and has room for three more. -/
def isTriple (lexeme : List UInt8) : Bool :=
  6 ≤ lexeme.length && lexeme.getD 0 0 = lexeme.getD 1 0 && lexeme.getD 1 0 = lexeme.getD 2 0

/-- The bytes of a string literal. -/
def parserDecodeString (lexeme : List UInt8) : List UInt8 :=
  let head := if isTriple lexeme then 3 else 1
  if lexeme.length < head + head then []
  else parserUnescapeString ((lexeme.drop head).take (lexeme.length - head - head))

/-- The text that a token takes up. -/
def Source.lexeme (src : Source) (token : Token) : List UInt8 :=
  (src.bytes.drop token.start).take token.len

end Nytrix.Parse
