import Nytrix.Loader.Bundle

/-! What a bundle has to hold: the files that the seeds lead to by uses and export lists. -/

namespace Nytrix.Loader

open Nytrix.Types (nm ch)

section Items

/-- What tokens ask for, with every export list read; so many brackets are open. -/
def itemsFrom : Nat → Nat → List Tok → List Item
  | 0, _, _ => []
  | _ + 1, _, [] => []
  | fuel + 1, depth, t :: rest =>
    let (item, depth, rest) := tokenStep true depth t rest
    item.toList ++ itemsFrom fuel depth rest

/-- What a module asks for. -/
def moduleItems (tokens : List Tok) : List Item := itemsFrom tokens.length 0 tokens

/--
Whether an export list closes what it opens, and only that.

So many parentheses are open, and so many brackets altogether.
-/
def plainList : Nat → Nat → List Tok → Bool
  | _, _, [] => true
  | parens, brackets, t :: rest =>
    if t.kind = .lparen then plainList (parens + 1) (brackets + 1) rest
    else if t.kind = .rparen then
      if parens = 1 then brackets = 1
      else 1 < brackets && plainList (parens - 1) (brackets - 1) rest
    else if opens t then plainList parens (brackets + 1) rest
    else if closes t then 1 < brackets && plainList parens (brackets - 1) rest
    else plainList parens brackets rest

/-- Whether the export list of a header, if it has one, is plain. -/
def plainHeader : List Tok → Bool
  | [] => true
  | entry :: behind =>
    if isNamePart entry then
      match parseUseName entry behind with
      | (some _, t :: after) => if t.kind = .lparen then plainList 1 1 after else true
      | _ => true
    else true

/-- Whether all export lists of tokens are plain. -/
def plainFrom : Nat → Nat → List Tok → Bool
  | 0, _, _ => true
  | _ + 1, _, [] => true
  | fuel + 1, depth, t :: rest =>
    (if depth = 0 ∧ t.kind = .kwModule then plainHeader rest else true) &&
      (let (_, depth, rest) := tokenStep true depth t rest
      plainFrom fuel depth rest)

/-- Whether all export lists of a module are plain. -/
def plainModule (tokens : List Tok) : Bool := plainFrom tokens.length 0 tokens

end Items

section Closure

variable (w : World) (mode : StdMode) (modules : List Str) (entryPath : Option Str)

/-- How deep the exports of a child count if those of its parent count so deep. -/
def childDepth (depth : Int) (name : Str) : Int :=
  if 0 < depth then depth - 1 else moduleExportChildDepth w name

/--
The files that are met, each with whether it is of the standard library and how deep it counts.

A file that is met several times leads to what it leads to at each of its depths.
-/
inductive Met : Str → Bool → Int → Prop where
  | seed {path : Str} {isStd : Bool} (among : (path, isStd) ∈ seeds w mode modules entryPath) :
    Met path isStd (-1)
  | use {path text raw target : Str} {isStd targetStd : Bool} {depth : Int}
    (met : Met path isStd depth) (read : w.file path = some text)
    (item : .use raw ∈ moduleItems (w.tokens text))
    (found : w.resolve raw (dirFromPath path) (!isStd) = some (target, targetStd))
    (wanted : ¬(skipsStd mode = true ∧ targetStd = true)) :
    Met target targetStd (-1)
  | leaf {path text name leaf target : Str} {leaves : List Str} {isStd targetStd : Bool}
    {depth : Int} (met : Met path isStd depth) (counts : depth ≠ 0)
    (read : w.file path = some text)
    (item : .header name leaves ∈ moduleItems (w.tokens text)) (among : leaf ∈ leaves)
    (found : w.resolve (name ++ ch '.' :: leaf) (dirFromPath path) (!isStd) =
      some (target, targetStd))
    (wanted : ¬(skipsStd mode = true ∧ targetStd = true)) :
    Met target targetStd (childDepth w depth name)

/-- Whether a path belongs into the bundle: it is met, readable, and neither left out nor the entry. -/
def Belongs (path : Str) : Prop :=
  (∃ isStd depth, Met w mode modules entryPath path isStd depth ∧
    (mode = .none → isStd = false)) ∧
    (w.file path).isSome ∧ ∀ entry, entryPath = some entry → w.canonical path ≠ w.canonical entry

/-- Whether a bundle holds exactly the files that belong into it, each of them once. -/
def IsClosure (bundled : List Str) : Prop :=
  (bundled.map w.canonical).Nodup ∧
    ∀ file, file ∈ bundled.map w.canonical ↔
      ∃ path, Belongs w mode modules entryPath path ∧ w.canonical path = file

/-- The files that a module asks for if its exports count so deep. -/
def asked (path : Str) (isStd : Bool) (depth : Int) (text : Str) : List Request :=
  (moduleItems (w.tokens text)).flatMap fun item =>
    match item with
    | .use _ => itemRequests w (skipsStd mode) (dirFromPath path) (!isStd) depth item
    | .header _ _ =>
      if depth = 0 then []
      else itemRequests w (skipsStd mode) (dirFromPath path) (!isStd) depth item

/--
Whether the scan of a place would open an entry again that the sweep has passed.

This is seen before the scan: the place asks for a file that is there, up to itself, at less depth.
-/
def Reopens (mods : List Entry) (i : Nat) : Prop :=
  ∃ e text, mods[i]? = some e ∧ e.processed = false ∧ w.file e.path = some text ∧
    ∃ r ∈ asked w mode e.path e.isStd e.exportDepth text,
      ∃ j ≤ i, ∃ passed, mods[j]? = some passed ∧ passed.path = r.path ∧
        nyExportDepthMorePermissive r.depth passed.exportDepth = true

/-- The conditions under which bundling finds the closure. -/
structure Coherent : Prop where
  /-- A file that belongs into the bundle is spelled in one way. -/
  spelling : ∀ path path', Belongs w mode modules entryPath path →
    Belongs w mode modules entryPath path' → w.canonical path = w.canonical path' → path = path'
  /-- A file is of the standard library each time it is met, or never. -/
  locality : ∀ path isStd isStd' depth depth', Met w mode modules entryPath path isStd depth →
    Met w mode modules entryPath path isStd' depth' → isStd = isStd'
  /-- Without the standard library no seed is of it. -/
  seeded : mode = .none → ∀ seed ∈ seeds w mode modules entryPath, seed.2 = false
  /-- The export lists of files that are met at depth zero are plain. -/
  plain : ∀ path isStd text, Met w mode modules entryPath path isStd 0 →
    w.file path = some text → plainModule (w.tokens text) = true
  /-- The last sweep opens nothing again that it has passed. -/
  sweep : ∀ fuel mods, discovered w mode modules entryPath fuel = some mods →
    ∀ i, let swept := Lib.Worklist.pass (scanDependencies w (skipsStd mode)) i mods
      i < swept.length → ¬Reopens w mode swept i

end Closure

end Nytrix.Loader
