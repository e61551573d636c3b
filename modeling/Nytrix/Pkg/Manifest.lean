import Nytrix.Pkg.Names

/-! Manifests and lock files of packages: reading them from a text and writing them again. -/

namespace Nytrix.Pkg

open Lib.Paths (Text)

/-- A dependency. -/
structure Dep where
  name : Text
  source : Text
  ref : Option Text
  deriving DecidableEq

/-- A manifest; a field that is not given is empty. -/
structure Manifest where
  items : List Dep
  name : Text
  version : Text
  description : Text
  author : Text
  license : Text
  repository : Text
  path : Text
  root : Text
  deriving DecidableEq

/-- What a lock file says of a package. -/
structure LockEntry where
  dep : Dep
  path : Text
  commit : Option Text
  deriving DecidableEq

/-- The packages of a lock file. -/
abbrev Lock := List LockEntry

section Updating

/-- A field with a new value, unless the new value is empty. -/
def given (old new : Text) : Text := if new = [] then old else new

/-- Sets the source of a dependency, which is new or not. -/
def nyPkgManifestPush (items : List Dep) (name source : Text) (ref : Option Text) : List Dep :=
  let ref := ref.filter fun ref => ref ≠ []
  if items.any fun dep => dep.name = name then
    items.map fun dep => if dep.name = name then { dep with source, ref } else dep
  else items ++ [⟨name, source, ref⟩]

/-- The dependencies without the first one of a name, and whether there was one. -/
def nyPkgManifestRemove (items : List Dep) (name : Text) : List Dep × Bool :=
  (items.eraseP fun dep => dep.name = name, items.any fun dep => dep.name = name)

/-- Notes where a package was installed. -/
def nyPkgLockPush (lock : Lock) (dep : Dep) (path : Text) (commit : Option Text) : Lock :=
  if lock.any fun entry => entry.dep.name = dep.name then
    lock.map fun entry => if entry.dep.name = dep.name then { entry with path, commit } else entry
  else lock ++ [⟨dep, path, commit⟩]

end Updating

section Json

/-- The text from the place where another text occurs first. -/
def findText (wanted : Text) : Text → Option Text
  | [] => if wanted = [] then some [] else none
  | c :: rest => if wanted.isPrefixOf (c :: rest) then some (c :: rest) else findText wanted rest

/-- The characters up to a closing quote, and what follows it. -/
def quoted : Text → Text × Text
  | [] => ([], [])
  | '"' :: rest => ([], rest)
  | '\\' :: c :: rest => let (text, behind) := quoted rest; (c :: text, behind)
  | c :: rest => let (text, behind) := quoted rest; (c :: text, behind)

/-- The string that a text opens with, and what follows it. -/
def nyPkgParseJsonString (text : Text) : Option (Text × Text) :=
  match text.dropWhile isSpace with
  | '"' :: rest => some (quoted rest)
  | _ => none

/-- What the search for a brace has seen: how deep it is, and whether it is inside a string. -/
structure Bracing where
  depth : Int
  quote : Bool
  esc : Bool
  deriving DecidableEq

/-- The text before the brace that closes the first one, and what follows that brace. -/
def matchingBrace : Bracing → Text → Option (Text × Text)
  | _, [] => none
  | ⟨depth, quote, esc⟩, c :: rest =>
    let onward (state : Bracing) : Option (Text × Text) :=
      (matchingBrace state rest).map fun (inner, behind) => (c :: inner, behind)
    if quote then
      if esc then onward ⟨depth, quote, false⟩
      else if c = '\\' then onward ⟨depth, quote, true⟩
      else if c = '"' then onward ⟨depth, false, esc⟩
      else onward ⟨depth, quote, esc⟩
    else if c = '"' then onward ⟨depth, true, esc⟩
    else if c = '{' then onward ⟨depth + 1, quote, esc⟩
    else if c = '}' then
      if depth - 1 = 0 then some ([], rest) else onward ⟨depth - 1, quote, esc⟩
    else onward ⟨depth, quote, esc⟩

/-- The text from a brace to the one that closes it, and what follows. -/
def nyPkgFindMatchingBrace (text : Text) : Option (Text × Text) :=
  matchingBrace ⟨0, false, false⟩ text

/-- Searches for a key with a colon behind it, so many places at most. -/
def keyedValue (pat : Text) : ℕ → Text → Option Text
  | 0, _ => none
  | fuel + 1, text =>
    (findText pat text).bind fun found =>
      let behind := found.drop pat.length
      match behind.dropWhile isSpace with
      | ':' :: value => some value
      | _ => keyedValue pat fuel behind

/-- The string that stands behind a key in a text. -/
def nyPkgJsonObjectString (text key : Text) : Option Text :=
  if key = [] ∨ 240 < key.length then none
  else
    let value := keyedValue ('"' :: key ++ ['"']) (text.length + 1) text
    (value.bind nyPkgParseJsonString).map Prod.fst

/-- The source and the reference that an object gives. -/
def sourceOfObject (object : Text) : Option Text × Option Text :=
  let field (key : String) := nyPkgJsonObjectString object key.toList
  ((field "source").or ((field "git").or (field "path")), (field "ref").or (field "version"))

/-- Reads dependencies from the inside of their object, so many at most. -/
def jsonDeps : ℕ → List Dep → Text → List Dep
  | 0, items, _ => items
  | fuel + 1, items, text =>
    match text.dropWhile isSpace with
    | [] => items
    | ',' :: rest => jsonDeps fuel items rest
    | p =>
      match nyPkgParseJsonString p with
      | none => items
      | some (name, behind) =>
        let pushed (source ref : Option Text) : List Dep :=
          match source with
          | some source =>
            if source ≠ [] ∧ nyPkgNameOk name then
              let (source, ref) := nyPkgSplitSourceRef source ref
              nyPkgManifestPush items name source ref
            else items
          | none => items
        match behind.dropWhile isSpace with
        | ':' :: value =>
          match value.dropWhile isSpace with
          | '"' :: text =>
            let (source, rest) := quoted text
            jsonDeps fuel (pushed (some source) none) rest
          | '{' :: inner =>
            match nyPkgFindMatchingBrace ('{' :: inner) with
            | none => items
            | some (object, rest) =>
              let (source, ref) := sourceOfObject object
              jsonDeps fuel (pushed source ref) rest
          -- Any other value is left where it stands.
          | rest => jsonDeps fuel items rest
        | _ => items

/-- Reads a manifest as an object. -/
def nyPkgParseJsonManifest (m : Manifest) (txt : Text) : Manifest :=
  let field (old : Text) (key : String) : Text :=
    given old ((nyPkgJsonObjectString txt key.toList).getD [])
  let m := { m with
    name := field m.name "name"
    version := field m.version "version"
    description := field m.description "description"
    author := field m.author "author"
    license := field m.license "license"
    repository := field m.repository "repository" }
  match (findText "\"dependencies\"".toList txt).map (List.dropWhile fun c => c ≠ '{') with
  | some ('{' :: inner) =>
    match nyPkgFindMatchingBrace ('{' :: inner) with
    | some (object, _) => { m with items := jsonDeps (object.length + 1) m.items (object.drop 1) }
    | none => m
  | _ => m

end Json

section Lines

/-- The value of a field, if a line gives that field. -/
def nyPkgLineField (line : Text) (key : String) : Option Text :=
  if startsWith line key.toList then
    match line.drop key.length with
    | [] => none
    | c :: rest =>
      if c = '=' then some (nyPkgTrimDup rest)
      else if isSpace c then some (nyPkgTrimDup (rest.dropWhile isSpace))
      else none
  else none

/-- The manifest with what a line says of the package itself, if it says such a thing. -/
def nyPkgParseLineMeta (m : Manifest) (line : Text) : Option Manifest :=
  let field := nyPkgLineField line
  (((field "package").or (field "name")).map fun v => { m with name := given m.name v }).or <|
  ((field "version").map fun v => { m with version := given m.version v }).or <|
  ((field "description").map fun v => { m with description := given m.description v }).or <|
  ((field "author").map fun v => { m with author := given m.author v }).or <|
  ((field "license").map fun v => { m with license := given m.license v }).or <|
  ((field "repository").map fun v => { m with repository := given m.repository v })

/-- The name and the source that a line gives. -/
def lineDep (line : Text) : Option (Text × Text) :=
  let s := if startsWith line "dep ".toList then line.drop 4 else line
  if '=' ∈ s then
    some (nyPkgTrimDup (s.takeWhile fun c => c ≠ '='),
      nyPkgTrimDup ((s.dropWhile fun c => c ≠ '=').drop 1))
  else if s.any isSpace then
    some (nyPkgTrimDup (s.takeWhile fun c => !isSpace c),
      nyPkgTrimDup ((s.dropWhile fun c => !isSpace c).drop 1))
  else none

/-- Reads one line of a manifest. -/
def parseLine (m : Manifest) (line : Text) : Manifest :=
  let s := nyPkgTrimDup line
  if s = [] ∨ s.head? = some '#' then m
  else
    match nyPkgParseLineMeta m s with
    | some m => m
    | none =>
      match lineDep s with
      | none => m
      | some (name, source) =>
        if source ≠ [] ∧ nyPkgNameOk name then
          let (source, ref) := nyPkgSplitSourceRef source none
          { m with items := nyPkgManifestPush m.items name source ref }
        else m

/-- Reads a manifest line by line. -/
def nyPkgParseLineManifest (m : Manifest) (txt : Text) : Manifest :=
  (linesOf txt).foldl parseLine m

end Lines

section Writing

/-- A manifest without anything in it, at a place. -/
def emptyManifest (path root : Text) : Manifest := ⟨[], [], [], [], [], [], [], path, root⟩

/-- The manifest that a text at a path gives. -/
def manifestOf (path txt : Text) : Manifest :=
  let path := cut (if path = [] then "ny.pkg.json".toList else path)
  nyPkgParseLineManifest (nyPkgParseJsonManifest (emptyManifest path (nyDirName path)) txt) txt

/-- A string of JSON. -/
def nyPkgJsonStr (s : Text) : Text :=
  '"' :: s.flatMap (fun c =>
    if c = '"' ∨ c = '\\' then ['\\', c] else if c = '\n' then ['\\', 'n'] else [c]) ++ ['"']

/-- A field of an object of JSON, unless it is empty. -/
def nyPkgWriteJsonField (key : String) (value : Text) : Text :=
  if value = [] then []
  else "  \"".toList ++ key.toList ++ "\": ".toList ++ nyPkgJsonStr value ++ ",\n".toList

/-- A field of an object, with what stands before it, unless it is missing. -/
def jsonTail (opening : String) (value : Option Text) : Text :=
  match value with
  | some value => if value = [] then [] else opening.toList ++ nyPkgJsonStr value
  | none => []

/-- Texts with a line break behind each, and a comma before the break except at the last one. -/
def commaLines : List Text → Text
  | [] => []
  | [last] => last ++ "\n".toList
  | line :: others => line ++ ",\n".toList ++ commaLines others

/-- The text of a manifest. -/
def manifestText (m : Manifest) : Text :=
  "\x7b\n  \"schema\": \"ny.pkg.v1\",\n  \"name\": ".toList ++
    nyPkgJsonStr (if m.name = [] then "app".toList else m.name) ++ ",\n".toList ++
    nyPkgWriteJsonField "version" m.version ++
    nyPkgWriteJsonField "description" m.description ++
    nyPkgWriteJsonField "author" m.author ++
    nyPkgWriteJsonField "license" m.license ++
    nyPkgWriteJsonField "repository" m.repository ++
    "  \"dependencies\": \x7b\n".toList ++
    commaLines (m.items.map fun d =>
      "    ".toList ++ nyPkgJsonStr d.name ++
        ": \x7b\"source\": ".toList ++ nyPkgJsonStr d.source ++
        jsonTail ", \"ref\": " d.ref ++ "\x7d".toList) ++
    "  \x7d\n\x7d\n".toList

/-- The text of a lock file. -/
def lockText (lock : Lock) : Text :=
  "\x7b\n  \"schema\": \"ny.pkg.lock.v1\",\n  \"packages\": [\n".toList ++
    commaLines (lock.map fun e =>
      "    \x7b\"name\": ".toList ++ nyPkgJsonStr e.dep.name ++
        ", \"source\": ".toList ++ nyPkgJsonStr e.dep.source ++
        jsonTail ", \"ref\": " e.dep.ref ++
        ", \"path\": ".toList ++ nyPkgJsonStr e.path ++
        jsonTail ", \"commit\": " e.commit ++ "\x7d".toList) ++
    "  ]\n\x7d\n".toList

/-- The path of the lock file of a manifest. -/
def lockPath (manifestPath : Text) : Text :=
  cut ((if manifestPath = [] then "ny.pkg.json".toList else manifestPath) ++ ".lock".toList)

end Writing

end Nytrix.Pkg
