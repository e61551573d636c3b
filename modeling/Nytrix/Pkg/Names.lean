import Nytrix.Lib.Paths

/-! Texts of the package tool: names, paths in buffers, and the pairs of a registry. -/

namespace Nytrix.Pkg

open Lib.Paths (Text)

section Characters

/-- The blanks that C knows. -/
def isSpace (c : Char) : Bool := c = ' ' || (9 ≤ c.toNat && c.toNat ≤ 13)

/-- The letter in lower case. -/
def lower (c : Char) : Char := c.toLower

/-- Whether a text opens with another one. -/
def startsWith (text opening : Text) : Bool := opening.isPrefixOf text

/-- Whether a text ends with another one, in upper or lower case. -/
def endsWithCi (text ending : Text) : Bool := (ending.map lower).isSuffixOf (text.map lower)

/-- A text without the blanks at its two ends. -/
def withoutSpace (text : Text) : Text :=
  ((text.dropWhile isSpace).reverse.dropWhile isSpace).reverse

/-- A copy without blanks at its ends, and without one pair of quotes. -/
def nyPkgTrimDup (text : Text) : Text :=
  let s := withoutSpace text
  if 2 ≤ s.length ∧ (s.head? = some '"' ∧ s.getLast? = some '"' ∨
      s.head? = some '\'' ∧ s.getLast? = some '\'') then (s.drop 1).dropLast
  else s

/-- The lines of a text; nothing follows the last line break. -/
def linesOf : Text → List Text
  | [] => []
  | c :: rest =>
    if c = '\n' then [] :: linesOf rest
    else
      match linesOf rest with
      | [] => [[c]]
      | line :: others => (c :: line) :: others

end Characters

section Names

/-- Whether a character may stand in the name of a package. -/
def isNameChar (c : Char) : Bool := c.isAlphanum || c = '_' || c = '-' || c = '.'

/-- Whether a text may be the name of a package. -/
def nyPkgNameOk (name : Text) : Bool := name ≠ [] && name.all isNameChar

/--
The name and the source that a line of a registry gives, behind a keyword or not.

Without a keyword the lines of repositories are left out.
-/
def nyPkgParseRegistryPair (line : Text) (keyword : Option Text) : Option (Text × Text) :=
  let tmp := nyPkgTrimDup line
  if tmp = [] ∨ tmp.head? = some '#' then none
  else
    let body : Option Text :=
      match keyword with
      | some word =>
        let behind := tmp.drop word.length
        if startsWith tmp word ∧ behind.head?.any isSpace then some (behind.dropWhile isSpace)
        else none
      | none => if startsWith tmp "repo ".toList then none else some tmp
    body.bind fun s =>
      let named := fun c => !isSpace c && c ≠ '='
      if s.takeWhile named = [] then none
      else
        let name := nyPkgTrimDup (s.takeWhile named)
        let behind := (s.dropWhile named).dropWhile isSpace
        let behind := if behind.head? = some '=' then behind.drop 1 else behind
        let source := nyPkgTrimDup (behind.dropWhile isSpace)
        if name = [] ∨ source = [] then none else some (name, source)

end Names

section Buffers

/-- What a buffer of 4096 bytes keeps of a text. -/
def cut (text : Text) : Text := text.take 4095

/-- Whether a directory ends with something that counts as a separator here. -/
def endsWithSeparator (dir : Text) : Bool :=
  dir.getLast? = some '/' || dir.getLast? = some '\\'

/-- A directory and a name in one path. -/
def nyJoinPath (dir name : Text) : Text :=
  if dir = [] then cut name
  else if endsWithSeparator dir then cut (dir ++ name)
  else cut (dir ++ '/' :: name)

/-- A directory, which may be the current one, and a name in one path. -/
def nyPkgJoin (a b : Text) : Text := nyJoinPath (if a = [] then ".".toList else a) b

/-- The directory part of a path. -/
def nyDirName (path : Text) : Text :=
  let upToSlash := ((cut path).reverse.dropWhile fun c => c ≠ '/').reverse
  if upToSlash = [] then ".".toList
  else if upToSlash.length = 1 then "/".toList
  else upToSlash.dropLast

/-- The last part of a path. -/
def baseName (path : Text) : Text := (path.reverse.takeWhile fun c => c ≠ '/').reverse

end Buffers

section Sources

/-- Whether a source is fetched by its address. -/
def nyPkgSourceIsUrl (source : Text) : Bool :=
  startsWith source "http://".toList || startsWith source "https://".toList

/-- The source behind the word for archives. -/
def nyPkgArchiveSource (source : Text) : Text :=
  if startsWith source "archive+".toList then source.drop 8 else source

/-- Whether a source is an archive. -/
def nyPkgSourceIsArchive (source : Text) : Bool :=
  source ≠ [] &&
    [".tar", ".tar.gz", ".tgz", ".tar.xz", ".txz", ".tar.bz2", ".tbz", ".zip"].any fun ending =>
      endsWithCi (nyPkgArchiveSource source) ending.toList

/-- Whether a source is a git repository. -/
def nyPkgSourceIsGit (source : Text) : Bool :=
  source ≠ [] &&
    (startsWith source "git+".toList || startsWith source "git@".toList ||
      startsWith source "ssh://".toList ||
      (4 < source.length && ".git".toList.isSuffixOf source))

/-- The address of a git repository. -/
def nyPkgGitUrl (source : Text) : Text :=
  if startsWith source "git+".toList then source.drop 4 else source

/-- Whether a source names a package of a repository. -/
def nyPkgSourceIsRepo (source : Text) : Bool :=
  startsWith source "repo+".toList || startsWith source "repo:".toList

/-- The source before a hash and the reference behind it. -/
def nyPkgSplitSourceRef (source : Text) (fallback : Option Text) : Text × Option Text :=
  let behind := (source.dropWhile fun c => c ≠ '#').drop 1
  if behind ≠ [] then (source.takeWhile fun c => c ≠ '#', some behind)
  else (source, fallback.filter fun ref => ref ≠ [])

end Sources

end Nytrix.Pkg
