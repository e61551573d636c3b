import Nytrix.Lib.Worklist
import Nytrix.Parse.Lexer

/-! Bundling modules: what a module asks for, the files found so far, and the scans that add to them. -/

namespace Nytrix.Loader

open Nytrix.Parse (TokenKind)
open Nytrix.Types (nm ch)

/-- A text in memory. -/
abbrev Str := List UInt8

/-- A token with its text and the place where it stands. -/
structure Tok where
  kind : TokenKind
  lexeme : Str
  line : Nat
  col : Nat
  deriving DecidableEq

section Names

/-- The text between the quotes of a string, unless it is empty. -/
def dupStringToken (lexeme : Str) : Option Str :=
  let head :=
    match lexeme with
    | a :: b :: c :: _ => if 6 ≤ lexeme.length ∧ a = b ∧ b = c then 3 else 1
    | _ => 1
  if lexeme.length ≤ head + head then none
  else some ((lexeme.drop head).take (lexeme.length - (head + head)))

/-- Whether a token may stand between the dots of a name. -/
def isNamePart (t : Tok) : Bool := t.kind = .ident || t.kind = .number

/--
The rest of a name behind one of its tokens, and the tokens from the first one that is not of it.

A name that ends with a dot is none.
-/
def useTail (name : Str) (t : Tok) : List Tok → Option Str × List Tok
  | [] => (some name, [])
  | next :: rest =>
    if next.kind = .ident ∧ next.col = t.col + t.lexeme.length then
      useTail (name ++ next.lexeme) next rest
    else if next.kind = .dot then
      match rest with
      | [] => (none, [])
      | id :: rest =>
        if isNamePart id then useTail (name ++ ch '.' :: id.lexeme) id rest else (none, id :: rest)
    else (some name, next :: rest)

/-- The name that begins with a token, and the tokens from the first one that is not of it. -/
def parseUseName (entry : Tok) (rest : List Tok) : Option Str × List Tok :=
  if entry.kind = .string then (dupStringToken entry.lexeme, rest)
  else if isNamePart entry then useTail entry.lexeme entry rest
  else (none, entry :: rest)

/-- The name of a use, of which the standard library may be the first word of two. -/
def useName (entry : Tok) (rest : List Tok) : Option Str × List Tok :=
  match parseUseName entry rest with
  | (some raw, next :: behind) =>
    if raw = nm "std" ∧ next.kind = .ident ∧ next.line = entry.line then
      match parseUseName next behind with
      | (some tail, after) => (some (raw ++ ch '.' :: tail), after)
      -- The token behind a broken name is lost.
      | (none, after) => (some raw, after.drop 1)
    else (some raw, next :: behind)
  | other => other

/-- The names in an export list, and the tokens behind it; so many parentheses are open. -/
def exportLeaves : Nat → List Tok → List Str × List Tok
  | _, [] => ([], [])
  | depth, t :: rest =>
    if t.kind = .lparen then exportLeaves (depth + 1) rest
    else if t.kind = .rparen then
      if depth = 1 then ([], rest) else exportLeaves (depth - 1) rest
    else
      let (leaves, behind) := exportLeaves depth rest
      if depth = 1 ∧ t.kind = .ident ∧ t.lexeme ≠ [] then (t.lexeme :: leaves, behind)
      else (leaves, behind)

end Names

section Items

/-- What a module asks for at one place. -/
inductive Item where
  | use (raw : Str)
  | header (name : Str) (leaves : List Str)
  deriving DecidableEq

/-- Whether a token opens a bracket. -/
def opens (t : Tok) : Bool := t.kind = .lbrace || t.kind = .lparen || t.kind = .lbrack

/-- Whether a token closes a bracket. -/
def closes (t : Tok) : Bool := t.kind = .rbrace || t.kind = .rparen || t.kind = .rbrack

/-- Reads what stands behind the word for modules; the export list is read on demand. -/
def headerStep (exporting : Bool) (rest : List Tok) : Option Item × List Tok :=
  match rest with
  | [] => (none, [])
  | entry :: behind =>
    if isNamePart entry then
      match parseUseName entry behind with
      | (some name, t :: after) =>
        if exporting ∧ t.kind = .lparen then
          let (leaves, after) := exportLeaves 1 after
          (some (.header name leaves), after)
        else (none, t :: after)
      | (_, after) => (none, after)
    else (none, rest)

/-- Reads what stands behind the word for uses. -/
def useStep (rest : List Tok) : Option Item × List Tok :=
  match rest with
  | [] => (none, [])
  | entry :: behind =>
    if entry.kind = .ident ∨ entry.kind = .string then
      let (raw, after) := useName entry behind
      (raw.map .use, after)
    else (none, behind)

/-- Reads one token, inside so many brackets, and what belongs to it. -/
def tokenStep (exporting : Bool) (depth : Nat) (t : Tok) (rest : List Tok) :
    Option Item × Nat × List Tok :=
  if opens t then (none, depth + 1, rest)
  else if closes t then (none, depth - 1, rest)
  else if depth = 0 ∧ t.kind = .kwModule then
    let (item, rest) := headerStep exporting rest
    (item, 0, rest)
  else if depth = 0 ∧ t.kind = .kwUse then
    let (item, rest) := useStep rest
    (item, 0, rest)
  else (none, depth, rest)

end Items

section World

/-- A module of the standard library. -/
structure StdMod where
  name : Str
  path : Str
  package : Str
  deriving DecidableEq

/-- How much of the standard library is asked for. -/
inductive StdMode where
  | default
  | none
  | full
  | minimal
  | bc
  deriving DecidableEq

/--
The files and how names are resolved.

The lexer, the resolution of names and the canonical spelling of a path are given functions.
-/
structure World where
  file : Str → Option Str
  lex : Str → List Tok
  canonical : Str → Str
  resolve : Str → Str → Bool → Option (Str × Bool)
  stdMods : List StdMod
  findStd : Str → Option StdMod
  isPackage : Str → Bool
  paths : List Str
  finite : ∀ path text, file path = some text → path ∈ paths

variable (w : World)

/-- The tokens of a text up to its end. -/
def World.tokens (text : Str) : List Tok := (w.lex text).takeWhile fun t => t.kind ≠ .eof

/-- The directory of a path. -/
def dirFromPath (path : Str) : Str :=
  let upToSep := (path.reverse.dropWhile fun c => c ≠ ch '/' ∧ c ≠ ch '\\').reverse
  if upToSep = [] then nm "."
  else if upToSep.length = 1 then nm "/"
  else upToSep.dropLast

/-- Whether a module of the standard library has modules below it. -/
def nyStdModuleHasDescendant (moduleName : Str) : Bool :=
  moduleName ≠ [] && w.stdMods.any fun m => (moduleName ++ nm ".").isPrefixOf m.name

/-- How deep the exports of a child of a header count that itself counts without limit. -/
def moduleExportChildDepth (moduleName : Str) : Int :=
  if (nm "std.").isPrefixOf moduleName ∧ nyStdModuleHasDescendant w moduleName then 1 else -1

end World

section Entries

/-- A file that has been found. -/
structure Entry where
  path : Str
  processed : Bool
  isStd : Bool
  exportDepth : Int
  deriving DecidableEq

/-- A file that is asked for: how deep its exports count, without limit if negative. -/
structure Request where
  path : Str
  isStd : Bool
  depth : Int
  deriving DecidableEq

/-- Whether one depth lets more through than another. -/
def nyExportDepthMorePermissive (next cur : Int) : Bool :=
  if next < 0 then 0 ≤ cur else if cur < 0 then false else cur < next

/-- An entry that a request may open again. -/
def Entry.raised (r : Request) (e : Entry) : Entry :=
  if e.path = r.path ∧ nyExportDepthMorePermissive r.depth e.exportDepth then
    { e with exportDepth := r.depth, processed := false }
  else e

/-- Adds a file, or opens it again. -/
def modListAddEx (mods : List Entry) (r : Request) : List Entry :=
  if mods.any fun e => e.path = r.path then mods.map (Entry.raised r)
  else mods ++ [⟨r.path, false, r.isStd, r.depth⟩]

/-- The depth that counts for an entry by now. -/
def depthAt (mods : List Entry) (idx : Nat) : Int := (mods[idx]?.map Entry.exportDepth).getD 0

end Entries

section Scanning

variable (w : World) (skipStd : Bool)

/-- The file that a name stands for in a directory, unless it is left out. -/
def requestOf (baseDir : Str) (preferLocal : Bool) (depth : Int) (raw : Str) : Option Request :=
  (w.resolve raw baseDir preferLocal).bind fun (path, isStd) =>
    if skipStd && isStd then none else some ⟨path, isStd, depth⟩

/-- The files that an item asks for, in a module whose exports count so deep. -/
def itemRequests (baseDir : Str) (preferLocal : Bool) (depth : Int) : Item → List Request
  | .use raw => (requestOf w skipStd baseDir preferLocal (-1) raw).toList
  | .header name leaves =>
    let childDepth := if 0 < depth then depth - 1 else moduleExportChildDepth w name
    leaves.filterMap fun leaf =>
      requestOf w skipStd baseDir preferLocal childDepth (name ++ ch '.' :: leaf)

/-- Scans tokens for what the entry at an index asks for; its depth may change on the way. -/
def scanTokens (idx : Nat) (baseDir : Str) (preferLocal : Bool) :
    Nat → Nat → List Tok → List Entry → List Entry
  | 0, _, _, mods => mods
  | _ + 1, _, [], mods => mods
  | fuel + 1, depth, t :: rest, mods =>
    let (item, depth, rest) := tokenStep (depthAt mods idx ≠ 0) depth t rest
    let requests := (item.map (itemRequests w skipStd baseDir preferLocal (depthAt mods idx))).getD []
    scanTokens idx baseDir preferLocal fuel depth rest (requests.foldl modListAddEx mods)

/-- Scans the entry at an index, unless that has been done. -/
def scanDependencies (idx : Nat) (mods : List Entry) : List Entry :=
  match mods[idx]? with
  | none => mods
  | some e =>
    if e.processed then mods
    else
      let mods := mods.set idx { e with processed := true }
      match w.file e.path with
      | none => mods
      | some text =>
        let tokens := w.tokens text
        scanTokens w skipStd idx (dirFromPath e.path) (!e.isStd) tokens.length 0 tokens mods

end Scanning

section Building

variable (w : World) (mode : StdMode) (modules : List Str) (entryPath : Option Str)

/-- The modules that stand for the whole standard library. -/
def bareStdModules : List StdMod :=
  ["std.core", "std.os.prim", "std.math", "std.math.nt", "std.math.bin", "std.os",
    "std.core.str"].filterMap fun name => w.findStd (nm name)

/-- The files that are there before anything is asked for. -/
def modeSeeds : List StdMod :=
  if mode = .full then w.stdMods
  else if modules = [] ∧ mode ≠ .none then
    match w.findStd (nm "std.core") with
    | some core => [core]
    | none => w.stdMods
  else []

/-- The files that a name on the list of modules stands for. -/
def seedsOf (raw : Str) : List (Str × Bool) :=
  let name := if (nm "std.").isPrefixOf raw then raw.drop 4 else raw
  let entryDir := (entryPath.map dirFromPath).getD (nm ".")
  if name = nm "std" then (bareStdModules w).map fun m => (m.path, true)
  else
    match w.resolve raw entryDir true with
    | some found => [found]
    | none =>
      if w.isPackage name then
        (w.stdMods.filter fun m => m.package = name).map fun m => (m.path, true)
      else []

/-- The files that bundling starts from, each with whether it is of the standard library. -/
def seeds : List (Str × Bool) :=
  (modeSeeds w mode modules).map (fun m => (m.path, true)) ++
    modules.flatMap (seedsOf w entryPath)

/-- The list of files with the seeds alone. -/
def seeded : List Entry :=
  ((seeds w mode modules entryPath).map fun seed => ⟨seed.1, seed.2, -1⟩).foldl modListAddEx []

/-- Whether the bundle leaves the standard library out. -/
def skipsStd : Bool := mode = .none

/-- Whether an entry is the entry file. -/
def skipEntry (e : Entry) : Bool :=
  entryPath.any fun entry => w.canonical e.path = w.canonical entry

/-- The list of files when no scan has found a new one for a whole round. -/
def discovered (fuel : Nat) : Option (List Entry) :=
  Lib.Worklist.rounds List.length (scanDependencies w (skipsStd mode)) fuel
    (seeded w mode modules entryPath)

/-- The paths of the modules of the bundle; nothing if the steps do not suffice. -/
def nyBuildStdSourceEx (fuel : Nat) : Option (List Str) :=
  if mode = .none ∧ modules = [] then some []
  else
    (discovered w mode modules entryPath fuel).bind fun mods =>
      (Lib.Worklist.sweep List.length (scanDependencies w (skipsStd mode)) fuel 0 mods).map fun mods =>
        (mods.filter fun e => !skipEntry w entryPath e && (w.file e.path).isSome).map Entry.path

end Building

end Nytrix.Loader
