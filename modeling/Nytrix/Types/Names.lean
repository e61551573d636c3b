import Mathlib.Data.List.Basic

/-! The names of types: groups, generic names with their arguments, and which names go together. -/

namespace Nytrix.Types

/-- The name of a type, as its bytes. -/
abbrev Name := List UInt8

/-- The name that is written so. -/
def nm (s : String) : Name := s.toUTF8.data.toList

/-- A byte of a name. -/
def ch (c : Char) : UInt8 := UInt8.ofNat c.toNat

/-- A name without the mark of a type that may be nil. -/
def tpSkipNullable : Name → Name
  | [] => []
  | c :: rest => if c = ch '?' then rest else c :: rest

/-- Whether a name is one of some others. -/
def tpStrIn (t : Name) (names : List String) : Bool := (names.map nm).contains t

/-- Whether a name is that of an integer type. -/
def tpIsIntType (t : Name) : Bool :=
  tpStrIn (tpSkipNullable t)
    ["int", "i8", "i16", "i32", "i64", "i128", "u8", "u16", "u32", "u64", "u128"]

/-- Whether a name is that of a float type. -/
def tpIsFloatType (t : Name) : Bool := tpStrIn (tpSkipNullable t) ["f32", "f64", "f128"]

/-- The part of a name before its arguments, at most 127 bytes of it; nothing for no such part. -/
def tpTypeBaseName (type : Name) : Option Name :=
  let base := ((tpSkipNullable type).takeWhile fun c =>
    c ≠ ch '<' && c ≠ ch '|' && c ≠ ch ' ').take 127
  if base = [] then none else some base

/-- The name of a group without its other spellings. -/
def tpGroupCanon (name : Name) : Name :=
  let n := tpSkipNullable name
  if n = nm "num" then nm "number"
  else if n = nm "numeric" then nm "number"
  else if n = nm "intlike" then nm "integer"
  else if n = nm "floatlike" then nm "float"
  else if n = nm "sequence" then nm "seq"
  else n

/-- Whether a name is that of a group of types. -/
def tpTypeIsGroup (name : Name) : Bool :=
  tpStrIn (tpGroupCanon name)
    ["number", "integer", "float", "scalar", "seq", "collection", "container", "iterable",
      "indexable", "allocator"]

/-- Whether the part of a name before its arguments is another name. -/
def tpTypeIsCollectionBase (type : Name) (base : String) : Bool :=
  tpTypeBaseName type = some (nm base)

/-- Whether a group takes in a type; a group that stands for another one asks that one. -/
def tpTypeGroupAcceptsAt : Nat → Name → Name → Bool
  | 0, _, _ => false
  | depth + 1, group, type =>
    let g := tpGroupCanon group
    let t := tpGroupCanon type
    if g = [] ∨ t = [] then true
    else if g = t ∨ g = nm "any" ∨ t = nm "any" then true
    else if g = nm "number" then tpIsIntType t || tpIsFloatType t || t = nm "bigint"
    else if g = nm "integer" then tpIsIntType t || t = nm "bigint"
    else if g = nm "float" then tpIsFloatType t
    else if g = nm "scalar" then
      tpTypeGroupAcceptsAt depth (nm "number") t || tpStrIn t ["bool", "str", "char"]
    else if g = nm "seq" then
      tpStrIn t ["str", "bytes", "range"] || tpTypeIsCollectionBase t "list" ||
        tpTypeIsCollectionBase t "tuple"
    else if g = nm "collection" then
      tpTypeIsCollectionBase t "list" || tpTypeIsCollectionBase t "tuple" ||
        tpTypeIsCollectionBase t "dict" || tpTypeIsCollectionBase t "set"
    else if g = nm "container" then
      tpTypeGroupAcceptsAt depth (nm "collection") t || tpStrIn t ["bytes", "range"]
    else if g = nm "iterable" then
      tpTypeGroupAcceptsAt depth (nm "seq") t || tpTypeIsCollectionBase t "dict" ||
        tpTypeIsCollectionBase t "set" || t = nm "bytes"
    else if g = nm "indexable" then
      tpTypeGroupAcceptsAt depth (nm "seq") t || tpTypeIsCollectionBase t "dict" ||
        t = nm "bytes"
    else if g = nm "allocator" then tpStrIn t ["ptr", "handle"]
    else false

/-- Whether a group takes in a type; no group stands for one that stands for another. -/
def tpTypeGroupAccepts (group type : Name) : Bool := tpTypeGroupAcceptsAt 2 group type

/-- Whether a name is that of some numeric type. -/
def hmNumericName (name : Name) : Bool :=
  tpIsIntType name || tpIsFloatType name || tpStrIn name ["number", "float", "integer"]

/-- Whether a name is that of an integer type or of all. -/
def hmIntegerName (name : Name) : Bool := tpIsIntType name || name = nm "integer"

/-- Whether a name is that of a float type or of all. -/
def hmFloatName (name : Name) : Bool := tpIsFloatType name || name = nm "float"

/-- Whether a name is that of whatever can be called. -/
def hmIsCallableName (name : Name) : Bool := tpStrIn name ["fnptr", "function", "callable"]

/-- The part of a name behind its last dot. -/
def nyNameLeaf (name : Name) : Name := (name.reverse.takeWhile (· ≠ ch '.')).reverse

/-- The part of a name behind its marks and its last dot. -/
def nyGenericTypeLeaf (name : Name) : Name :=
  nyNameLeaf (name.dropWhile fun c => c = ch '?' || c = ch '*')

/-- Whether two names are the same up to their arguments. -/
def nyGenericTypeBaseIs (name base : Name) : Bool :=
  (nyGenericTypeLeaf name).takeWhile (· ≠ ch '<') = (nyGenericTypeLeaf base).takeWhile (· ≠ ch '<')

/-- A text without blanks around it. -/
def trimBlanks (t : Name) : Name :=
  let blank : UInt8 → Bool := fun c => c = ch ' ' || c = ch '\t'
  (((t.dropWhile blank).reverse).dropWhile blank).reverse

/--
The argument at an index, from what is left of the text between the outer brackets.

Every bracket ends an argument, as a comma at depth zero does.
-/
def argLoop (index : Nat) : Name → Nat → Int → Name → Option Name
  | [], current, _, seg => if current = index then some (trimBlanks seg.reverse) else none
  | c :: rest, current, depth, seg =>
    if c ≠ ch '<' ∧ c ≠ ch '>' ∧ (c ≠ ch ',' ∨ depth ≠ 0) then
      argLoop index rest current depth (c :: seg)
    else if current = index then some (trimBlanks seg.reverse)
    else
      argLoop index rest (current + 1)
        (if c = ch '<' then depth + 1 else if c = ch '>' then depth - 1 else depth) []

/-- The text between the first bracket of a name and the last. -/
def argText (leaf : Name) : Option Name :=
  let tail := leaf.dropWhile (· ≠ ch '<')
  let inner := (tail.drop 1).reverse.dropWhile (· ≠ ch '>')
  if inner = [] then none else some (inner.drop 1).reverse

/-- An argument of a generic name. -/
def nyGenericTypeArg (name : Name) (index : Nat) : Option Name :=
  (argText (nyGenericTypeLeaf name)).bind fun inner => argLoop index inner 0 0 []

/-- Whether two names both have arguments and are the same up to them. -/
def hmGenericBaseSame (want got : Name) : Bool :=
  want.contains (ch '<') && got.contains (ch '<') && nyGenericTypeBaseIs want got

/-- Whether the arguments of two names go together, the first so many from an index on. -/
def argsCompatible (compatible : Name → Name → Bool) (want got : Name) : Nat → Nat → Bool
  | 0, _ => true
  | count + 1, i =>
    match nyGenericTypeArg want i, nyGenericTypeArg got i with
    | none, none => true
    | some wa, some ga => compatible wa ga && argsCompatible compatible want got count (i + 1)
    | _, _ => false

/-- Whether two generic names go together, given when their arguments do. -/
def genericCompatibleWith (compatible : Name → Name → Bool) (want got : Name) : Bool :=
  hmGenericBaseSame want got && argsCompatible compatible want got 16 0

/-- Whether two names go together; arguments are shorter than names, so that the depth suffices. -/
def nameCompatibleAt : Nat → Name → Name → Bool
  | 0, _, _ => false
  | depth + 1, want, got =>
    want = got || want = nm "any" || got = nm "any" ||
    genericCompatibleWith (nameCompatibleAt depth) want got ||
    (hmIsCallableName want && hmIsCallableName got) ||
    (tpTypeIsGroup want && tpTypeGroupAccepts want got) ||
    (tpTypeIsGroup got && tpTypeGroupAccepts got want) ||
    (want = nm "number" && hmNumericName got) || (got = nm "number" && hmNumericName want) ||
    (want = nm "integer" && hmIntegerName got) || (got = nm "integer" && hmIntegerName want) ||
    (want = nm "float" && hmFloatName got) || (got = nm "float" && hmFloatName want) ||
    (hmNumericName want && hmNumericName got) || (tpIsIntType want && tpIsIntType got) ||
    (tpIsFloatType want && tpIsFloatType got) ||
    (want = nm "char" && got = nm "str") || (want = nm "str" && got = nm "char") ||
    (want = nm "handle" && tpIsIntType got) || (got = nm "handle" && tpIsIntType want)

/-- Whether two names go together. -/
def hmNameCompatible (want got : Name) : Bool := nameCompatibleAt (want.length + 1) want got

/-- Whether two generic names go together. -/
def hmGenericNameCompatible (want got : Name) : Bool :=
  genericCompatibleWith hmNameCompatible want got

/-- Whether an argument says nothing. -/
def hmGenericArgIsDynamic (name : Name) : Bool :=
  let leaf := nyGenericTypeLeaf name
  leaf = [] || leaf = nm "any" || leaf = nm "empty"

/-- The base of a generic name, if it has one. -/
def hmGenericBase (name : Name) : Option Name :=
  let leaf := nyGenericTypeLeaf name
  let base := leaf.takeWhile (· ≠ ch '<')
  if base = leaf ∨ base = [] then none else some base

/-- The arguments of two names put together, the first so many from an index on. -/
def mergeArgs (merge : Name → Name → Name) (want got : Name) : Nat → Nat → Option (List Name)
  | 0, _ => some []
  | count + 1, i =>
    match nyGenericTypeArg want i, nyGenericTypeArg got i with
    | none, none => some []
    | some wa, some ga => (mergeArgs merge want got count (i + 1)).map (merge wa ga :: ·)
    | _, _ => none

/-- The name that says what two generic names say, given how arguments are put together. -/
def mergeNameWith (merge : Name → Name → Name) (want got : Name) : Option Name :=
  if !hmGenericBaseSame want got || !hmGenericNameCompatible want got then none
  else do
    let base ← hmGenericBase want
    let args ← mergeArgs merge want got 32 0
    return base ++ nm "<" ++ (args.intersperse (nm ", ")).flatten ++ nm ">"

/-- The argument that says what two say. -/
def mergeArgAt : Nat → Name → Name → Name
  | 0, want, _ => want
  | depth + 1, want, got =>
    if hmGenericArgIsDynamic want then got
    else if hmGenericArgIsDynamic got then want
    else if hmGenericBaseSame want got then
      (mergeNameWith (mergeArgAt depth) want got).getD want
    else want

/-- The name that says what two generic names say. -/
def hmMergeGenericName (want got : Name) : Option Name :=
  mergeNameWith (mergeArgAt (want.length + 1)) want got

end Nytrix.Types
