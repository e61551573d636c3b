import Mathlib.Tactic.Common
import Nytrix.Lower.Builder
import Nytrix.Types.Names

/-! The classes that eightbytes of a C aggregate are passed in, and those of its scalar leaves. -/

namespace Nytrix.Header

/-- The kinds of C types. -/
inductive CKind where
  | void | bool | char | short | int | long | float | double | longDouble | struct | union | enum
  | named
  deriving DecidableEq

end Nytrix.Header

namespace Nytrix.Lower

open Nytrix.Header (CKind)
open Nytrix.Types (Name)

/--
A field of a structure or a union, as it is recorded.

The name of its type is absent if that has none. The extent of an array is recorded in the size
only; it is kept here to say where the elements are.
-/
structure CField where
  kind : CKind
  ptrDepth : Nat := 0
  typeName : Option Name := none
  offset : Nat
  size : Nat
  align : Nat
  elements : Nat := 1
  deriving DecidableEq

/-- A scalar of an aggregate: the bytes that it has there, and whether it is a float or a double. -/
structure Leaf where
  offset : Nat
  size : Nat
  isFloat : Bool
  deriving DecidableEq

/--
A type as it is recorded: whether its layout was computed, its size and its fields.

Bits, and members behind the 32nd field, have a place in the layout but are not recorded. They are
kept here to say what leaves there are.
-/
structure CRecord where
  kind : CKind
  hasLayout : Bool := true
  size : Nat
  fields : List CField
  unrecorded : List Leaf := []
  deriving DecidableEq

/-- The types that a header defines by a typedef or a tag, in their order. -/
structure Parser where
  typedefs : List (Name × CRecord) := []
  tags : List (Name × CRecord) := []
  deriving DecidableEq

/-- Whether the type of a field is looked up. -/
def CField.isNested (field : CField) : Bool :=
  field.ptrDepth = 0 && (field.kind = .struct || field.kind = .union || field.kind = .named)

/-- Whether a field is a float or a double. -/
def CField.isFloat (field : CField) : Bool :=
  field.ptrDepth = 0 && (field.kind = .float || field.kind = .double)

/-- The type of a field that is a structure or a union: the last one with its name. -/
def nyNativeCNestedType (parser : Parser) (field : CField) : Option CRecord :=
  field.typeName.bind fun name =>
    if field.kind = .named then
      (parser.typedefs.reverse.find? fun entry => entry.1 = name).map (·.2)
    else if field.kind = .struct || field.kind = .union then
      (parser.tags.reverse.find? fun entry => entry.2.kind = field.kind && entry.1 = name).map (·.2)
    else none

/-- The classes of the two eightbytes of an aggregate. -/
structure Classes where
  first : AggClass
  second : AggClass
  deriving DecidableEq

/-- The class of an eightbyte. -/
def Classes.at (classes : Classes) : Nat → AggClass
  | 0 => classes.first
  | 1 => classes.second
  | _ => .none

/-- The class of an eightbyte together with that of something else in it. -/
def nyNativeSysvMergeClass (dst src : AggClass) : AggClass :=
  if dst = .none then src else if dst ≠ src then .integer else dst

/-- Merges a class into that of one eightbyte. -/
def Classes.merge (classes : Classes) (cls : AggClass) : Nat → Classes
  | 0 => { classes with first := nyNativeSysvMergeClass classes.first cls }
  | 1 => { classes with second := nyNativeSysvMergeClass classes.second cls }
  | _ => classes

/-- Merges a class into those of the eightbytes from one to another. -/
def Classes.spread (classes : Classes) (cls : AggClass) (start stop : Nat) : Classes :=
  (List.range' start (stop + 1 - start)).foldl (fun classes chunk => classes.merge cls chunk)
    classes

/-- Merges the classes of a field, eight bytes after the other, into those of the aggregate. -/
def mergePieces (field : CField) (fieldClasses : Classes) :
    List Nat → Nat → Classes → Option Classes
  | [], _, classes => some classes
  | piece :: pieces, remaining, classes =>
    if remaining = 0 then some classes
    else
      let bytes := if 8 < remaining then 8 else remaining
      let start := field.offset + piece * 8
      let stop := start + bytes - 1
      if fieldClasses.at piece = .none ∨ 1 < stop / 8 then none
      else
        mergePieces field fieldClasses pieces (remaining - bytes)
          (classes.spread (fieldClasses.at piece) (start / 8) (stop / 8))

section Classify

variable (parser : Parser) (nested : CRecord → Option Classes)

/-- The classes of a field, relative to where it is. -/
def fieldClassesOf (field : CField) : Option Classes :=
  if field.isFloat then some ⟨.sse, if 8 < field.size then .sse else .none⟩
  else if field.ptrDepth = 0 && field.kind = .longDouble then none
  else if field.isNested then
    ((nyNativeCNestedType parser field).bind nested).filter fun classes => classes.first ≠ .memory
  else some ⟨.integer, .none⟩

/-- The classes of an aggregate whose eightbytes without a class become integers. -/
def CRecord.fill (ty : CRecord) (classes : Classes) : Classes :=
  { first := if classes.first = .none then .integer else classes.first
    second := if 8 < ty.size ∧ classes.second = .none then .integer else classes.second }

/-- Whether a field is not where its alignment or the size of the aggregate needs it. -/
def CRecord.misplaces (ty : CRecord) (field : CField) : Bool :=
  (decide (1 < field.align) && decide (field.offset % field.align ≠ 0)) ||
    decide (ty.size < field.offset + field.size)

/-- Goes through the fields of an aggregate; one in the wrong place puts all of it in memory. -/
def classifyFields (ty : CRecord) : List CField → Classes → Option Classes
  | [], classes => some (ty.fill classes)
  | field :: rest, classes =>
    if ty.misplaces field then some ⟨.memory, .none⟩
    else
      (fieldClassesOf parser nested field).bind fun fieldClasses =>
        (mergePieces field fieldClasses [0, 1] field.size classes).bind fun classes =>
          classifyFields ty rest classes

end Classify

/-- The classes of an aggregate, as many levels deep as there may be. -/
def nyNativeSysvClassifyAggregateDepth (parser : Parser) : Nat → CRecord → Option Classes
  | 0, _ => none
  | levels + 1, ty =>
    if ty.hasLayout = false ∨ ty.size = 0 then none
    else if 16 < ty.size then some ⟨.memory, .none⟩
    else
      classifyFields parser (nyNativeSysvClassifyAggregateDepth parser levels) ty ty.fields
        ⟨.none, .none⟩

/-- The classes of an aggregate, in which at most eight others may be nested in each other. -/
def nyNativeSysvClassifyAggregate (parser : Parser) (ty : CRecord) : Option Classes :=
  nyNativeSysvClassifyAggregateDepth parser 9 ty

section Leaves

variable (parser : Parser)

/--
A scalar leaf of an aggregate, wherever it is nested.

An array of scalars is taken for one leaf, since its elements leave nothing out.
-/
inductive IsLeaf : CRecord → Leaf → Prop
  | scalar {ty field} (recorded : field ∈ ty.fields) (plain : field.isNested = false) :
      IsLeaf ty ⟨field.offset, field.size, field.isFloat⟩
  | nested {ty field inner leaf index} (recorded : field ∈ ty.fields)
      (looked : field.isNested = true) (found : nyNativeCNestedType parser field = some inner)
      (element : index < field.elements) (leafOf : IsLeaf inner leaf) :
      IsLeaf ty { leaf with
        offset := field.offset + index * (field.size / field.elements) + leaf.offset }
  | unrecorded {ty leaf} (present : leaf ∈ ty.unrecorded) : IsLeaf ty leaf

/-- A leaf has a byte in an eightbyte. -/
def Leaf.Overlaps (leaf : Leaf) (chunk : Nat) : Prop :=
  ∃ byte, leaf.offset ≤ byte ∧ byte < leaf.offset + leaf.size ∧ byte / 8 = chunk

/--
The class of an eightbyte by the leaves in it.

It is that of integers if one that is not a float has a byte there, and that of vectors if only
floats have. Nothing is said of an eightbyte that is all padding.
-/
def SysvClass (ty : CRecord) (chunk : Nat) (cls : AggClass) : Prop :=
  (∃ leaf, IsLeaf parser ty leaf ∧ leaf.Overlaps chunk) →
    (cls = .integer ∧ ∃ leaf, IsLeaf parser ty leaf ∧ leaf.Overlaps chunk ∧ leaf.isFloat = false) ∨
      (cls = .sse ∧ ∀ leaf, IsLeaf parser ty leaf → leaf.Overlaps chunk → leaf.isFloat = true)

/-- A field has a byte in an eightbyte. -/
def CField.Covers (field : CField) (chunk : Nat) : Prop :=
  ∃ byte < field.size, (field.offset + byte) / 8 = chunk

/--
Floats, or something else, are spread over an eightbyte.

A field that is a scalar is spread over those that it has bytes in. What is in an eightbyte of a
nested aggregate is spread over all those that this eightbyte has bytes in, wherever in it it is.
An eightbyte that no field has a byte in counts as something else.
-/
inductive Spreads : CRecord → Bool → Nat → Prop
  | scalar {ty field chunk} (recorded : field ∈ ty.fields) (plain : field.isNested = false)
      (covers : field.Covers chunk) : Spreads ty field.isFloat chunk
  | nested {ty field inner isFloat byte} (recorded : field ∈ ty.fields)
      (looked : field.isNested = true) (found : nyNativeCNestedType parser field = some inner)
      (inside : byte < field.size) (spreads : Spreads inner isFloat (byte / 8)) :
      Spreads ty isFloat ((field.offset + byte) / 8)
  | padding {ty chunk} (reached : 8 * chunk < ty.size)
      (empty : ∀ field ∈ ty.fields, ¬ field.Covers chunk) : Spreads ty false chunk

/--
An aggregate whose nesting spreads nothing to where it is not.

In each eightbyte that a leaf has a byte in, something that is no float is spread over it if and
only if such a leaf has a byte there; else floats are.
-/
def SpreadsAsLeaves (ty : CRecord) : Prop :=
  ∀ chunk < 2, (∃ leaf, IsLeaf parser ty leaf ∧ leaf.Overlaps chunk) →
    ((∃ leaf, IsLeaf parser ty leaf ∧ leaf.Overlaps chunk ∧ leaf.isFloat = false) ∧
        Spreads parser ty false chunk) ∨
      ((∀ leaf, IsLeaf parser ty leaf → leaf.Overlaps chunk → leaf.isFloat = true) ∧
        ¬ Spreads parser ty false chunk ∧ Spreads parser ty true chunk)

end Leaves

end Nytrix.Lower
