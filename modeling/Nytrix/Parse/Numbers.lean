import Mathlib.Algebra.Order.Ring.Int
import Mathlib.Data.List.DropRight
import Nytrix.Parse.Strings

/-! The parser of number tokens: their suffix, their value and what is reported of them. -/

namespace Nytrix.Parse

open Nytrix.Types (nm ch)

/-- The types that a literal may name. -/
inductive LitTypeHint where
  | none | i8 | i16 | i32 | i64 | i128 | u8 | u16 | u32 | u64 | u128 | f32 | f64 | f128
  deriving DecidableEq

/-- Whether a literal names a type of floating point numbers. -/
def hintIsFloat (hint : LitTypeHint) : Bool := hint = .f32 || hint = .f64 || hint = .f128

/-- Whether a number of more than 64 bits is kept as its text. -/
def hintAllowsIntegerOverflowBigint (hint : LitTypeHint) (explicit : Bool) : Bool :=
  if !explicit then true else hint = .i128 || hint = .u128

/-- The range check of an integer with a suffix, with what it reports. -/
def checkIntRange (val : Nat) (hint : LitTypeHint) : Bool × List String :=
  match hint with
  | .i8 => (val ≤ 2 ^ 7 - 1, [])
  | .i16 => (val ≤ 2 ^ 15 - 1, [])
  | .i32 => (val ≤ 2 ^ 31 - 1, [])
  | .i64 => (val ≤ 2 ^ 63 - 1, [])
  | .i128 => (true, [])
  | .u8 => (val ≤ 2 ^ 8 - 1, [])
  | .u16 => (val ≤ 2 ^ 16 - 1, [])
  | .u32 => (val ≤ 2 ^ 32 - 1, [])
  | .u64 | .u128 => (true, [])
  | _ => (false, ["integer literal out of range for suffix"])

/-- A letter in lower case. -/
def toLower (c : UInt8) : UInt8 := if ch 'A' ≤ c && c ≤ ch 'Z' then c + 32 else c

/-- Whether a text is a suffix, in letters of either case. -/
def suffixEq (s : List UInt8) (lit : String) : Bool := s.map toLower = nm lit

/-- The suffixes, with the types that they name. -/
def numericSuffixes : List (String × LitTypeHint) :=
  [("i8", .i8), ("i16", .i16), ("i32", .i32), ("i64", .i64), ("i128", .i128), ("u8", .u8),
   ("u16", .u16), ("u32", .u32), ("u64", .u64), ("u128", .u128), ("f32", .f32), ("f64", .f64),
   ("f128", .f128)]

/-- The type that a suffix names. -/
def suffixHint (suffix : List UInt8) : Option LitTypeHint :=
  (numericSuffixes.find? fun entry => suffixEq suffix entry.1).map Prod.snd

/-- Whether a number begins as a hexadecimal one. -/
def isHex (s : List UInt8) : Bool :=
  2 ≤ s.length && s.getD 0 0 = ch '0' && (s.getD 1 0 = ch 'x' || s.getD 1 0 = ch 'X')

/-- Where the value of a number ends and where its suffix begins, looking from its end. -/
def numericSuffixStart (s : List UInt8) : Option (Nat × Nat) :=
  let i := (s.rdropWhile isDigit).length
  let c := s.getD (i - 1) 0
  if s.length < 2 || i = s.length || i = 0 then none
  else if !nyNumberSuffixLetter c true then none
  else if isHex s && (c = ch 'f' || c = ch 'F') then none
  else
    let suffixStart := i - 1
    some (if 0 < suffixStart && s.getD (suffixStart - 1) 0 = ch '_' then suffixStart - 1
      else suffixStart, suffixStart)

/-- What the parser makes of the suffix of a number. -/
structure NumericSuffix where
  ok : Bool
  numLen : Nat
  hint : LitTypeHint
  explicit : Bool
  deriving DecidableEq

/-- The suffix of a number. -/
def parseNumericSuffix (s : List UInt8) : NumericSuffix :=
  match numericSuffixStart s with
  | none => ⟨true, s.length, .none, false⟩
  | some (valueEnd, suffixStart) =>
    match suffixHint (s.drop suffixStart) with
    | some hint => ⟨true, valueEnd, hint, true⟩
    | none => ⟨false, s.length, .none, false⟩

/-- The first bytes of a number without its separators. -/
def numericLiteralValueBuf (s : List UInt8) (len : Nat) : List UInt8 :=
  (s.take len).filter (· ≠ ch '_')

/-- The value of a digit. -/
def numericDigitValue (c : UInt8) : Option Nat := digitValue 16 c

/-- What the parser makes of the digits of an integer. -/
inductive IntegerParse where
  | done (value : Nat)
  | malformed
  | outOfRange
  deriving DecidableEq

/-- Reads digits behind those that make up a value so far. -/
def parseDigits (base : Nat) : Nat → List UInt8 → IntegerParse
  | acc, [] => .done acc
  | acc, c :: rest =>
    match numericDigitValue c with
    | none => .malformed
    | some digit =>
      if base ≤ digit then .malformed
      else if (2 ^ 64 - 1 - digit) / base < acc then .outOfRange
      else parseDigits base (acc * base + digit) rest

/-- The base of an integer, and where its digits begin. -/
def integerBase (s : List UInt8) : Nat × Nat :=
  let x := s.getD 1 0
  if 2 < s.length && s.getD 0 0 = ch '0' then
    if x = ch 'x' || x = ch 'X' then (16, 2)
    else if x = ch 'b' || x = ch 'B' then (2, 2)
    else if x = ch 'o' || x = ch 'O' then (8, 2)
    else (10, 0)
  else (10, 0)

/-- Reads an integer of 64 bits without a sign. -/
def parseIntegerLiteralU64 (s : List UInt8) : IntegerParse :=
  if s.length ≤ (integerBase s).2 then .malformed
  else parseDigits (integerBase s).1 0 (s.drop (integerBase s).2)

/-- The values of literals. -/
inductive LiteralValue (F : Type) where
  | int (value : Int)
  | float (value : F)
  deriving DecidableEq

/-- A number in the syntax tree. -/
structure NumberLiteral (F : Type) where
  value : LiteralValue F
  hint : LitTypeHint
  explicit : Bool
  deriving DecidableEq

/-- The floating point numbers: zero, and the conversion of a text with whether it is in range. -/
structure Floats (F : Type) where
  zero : F
  strtod : List UInt8 → F × Bool

/-- Whether a number has a prefix that names its base. -/
def isPrefixedInt (buf : List UInt8) : Bool :=
  let x := buf.getD 1 0
  2 < buf.length && buf.getD 0 0 = ch '0' &&
    (x = ch 'x' || x = ch 'X' || x = ch 'b' || x = ch 'B' || x = ch 'o' || x = ch 'O')

/-- Whether a number is written as a floating point number. -/
def isFloat (buf : List UInt8) : Bool :=
  !isPrefixedInt buf && (buf.contains (ch '.') || buf.contains (ch 'e') || buf.contains (ch 'E'))

variable {F : Type}

/-- The literal of a floating point number, with what is reported. -/
def parseFloatNumber (floats : Floats F) (buf : List UInt8) (suffix : NumericSuffix) :
    NumberLiteral F × List String :=
  let hint := if suffix.explicit then suffix.hint else .f64
  if isPrefixedInt buf then
    (⟨.float floats.zero, hint, suffix.explicit⟩,
      ["prefixed float literals are not supported yet"])
  else
    (⟨.float (floats.strtod buf).1, hint, suffix.explicit⟩,
      if (floats.strtod buf).2 then [] else ["float literal out of range"])

/-- The literal of an integer, with what is reported. -/
def parseIntNumber (buf : List UInt8) (suffix : NumericSuffix) : NumberLiteral F × List String :=
  let parsed := parseIntegerLiteralU64 buf
  let allows := hintAllowsIntegerOverflowBigint suffix.hint suffix.explicit
  let overflowBigint := parsed = .outOfRange && allows
  let uval : Nat := match parsed with
    | .done value => value
    | _ => 0
  let reports := match parsed with
    | .done _ => []
    | .malformed => ["malformed integer literal"]
    | .outOfRange => if allows then [] else ["integer literal out of range for suffix"]
  let forcedU64 := !suffix.explicit && !overflowBigint && 2 ^ 63 - 1 < uval
  let hint := if forcedU64 then .u64 else if suffix.explicit then suffix.hint else .none
  let value : Int := if overflowBigint || 2 ^ 63 - 1 < uval then 2 ^ 63 - 1 else uval
  let range := if suffix.explicit && !overflowBigint then (checkIntRange uval hint).2 else []
  (⟨.int value, hint, suffix.explicit⟩, reports ++ range)

/-- The literal of a number token, with what is reported. -/
def parseNumber (floats : Floats F) (s : List UInt8) : NumberLiteral F × List String :=
  let suffix := parseNumericSuffix s
  let buf := numericLiteralValueBuf s suffix.numLen
  let unknown := if suffix.ok then [] else ["unknown numeric literal suffix"]
  if hintIsFloat suffix.hint || (!suffix.explicit && isFloat buf) then
    let (literal, reports) := parseFloatNumber floats buf suffix
    (literal, unknown ++ reports)
  else
    let misused := if isFloat buf then ["integer suffix used on float literal"] else []
    let (literal, reports) := parseIntNumber buf suffix
    (literal, unknown ++ (misused ++ reports))

end Nytrix.Parse
