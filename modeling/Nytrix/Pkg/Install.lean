import Nytrix.Lib.Stateful
import Nytrix.Pkg.Manifest

/-! Installing and removing packages, with a log of the paths that this touches. -/

namespace Nytrix.Pkg

open Lib Lib.Logged
open Lib.Paths (Text)

section Host

/--
What the tool needs of the machine it runs on.

Nothing is assumed of it: programs may do anything to the disk, and files may hold any text.
-/
structure Host (σ : Type) where
  present : Text → σ → Bool
  isDir : Text → σ → Bool
  file : Text → σ → Option Text
  write : Text → Text → σ → Bool × σ
  makeDir : Text → σ → σ
  remove : Text → σ → σ
  spawn : List Text → σ → Int × σ
  capture : List Text → σ → Option Text × σ
  entries : Text → σ → List Text
  getenv : String → Option Text
  tempDir : Text
  pid : Text

/-- What a step does to a path; a scratch path is one of the directory for such files. -/
inductive Effect where
  | removes (path : Text)
  | installs (path : Text)
  | scratch (path : Text)
  deriving DecidableEq

variable {σ ε : Type} (host : Host σ)

/-- Whether there is something at a path. -/
def nyPkgPathExists (path : Text) : Logged σ ε Bool :=
  reads fun s => path ≠ [] && host.present path s

/-- Whether there is a directory at a path. -/
def nyPkgIsDir (path : Text) : Logged σ ε Bool := reads fun s => path ≠ [] && host.isDir path s

/-- A text without a first line that names an interpreter. -/
def withoutShebang (content : Text) : Text :=
  if startsWith content "#!".toList then
    match content.dropWhile fun c => c ≠ '\n' with
    | [] => content
    | _ :: rest => rest
  else content

/-- The text of a file. -/
def nyReadFile (path : Text) : Logged σ ε (Option Text) :=
  reads fun s => (host.file path s).map withoutShebang

/-- Makes a directory and those it is in. -/
def nyEnsureDir (path : Text) : Logged σ ε Unit := acts fun s => ((), host.makeDir path s)

/-- Writes a file; the result is zero unless it cannot be opened. -/
def writeFile (path content : Text) : Logged σ ε Int :=
  acts fun s => let (opened, t) := host.write path content s; (if opened then 0 else 1, t)

/-- Runs a program; the result is zero if it succeeds. -/
def nyPkgRunArgv (argv : List Text) : Logged σ ε Int :=
  acts fun s => let (rc, t) := host.spawn argv s; (if rc = 0 then 0 else 1, t)

/-- What a program prints, unless it fails or prints nothing. -/
def nyPkgCaptureArgv (argv : List Text) : Logged σ ε (Option Text) :=
  acts fun s =>
    let (out, t) := host.capture argv s
    let kept := out.map fun out => (out.reverse.dropWhile fun c => c ∈ ['\n', '\r', ' ']).reverse
    (kept.filter fun text => text ≠ [], t)

/-- Goes on if nothing has failed so far. -/
def andThen (rc : Int) (next : Logged σ ε Int) : Logged σ ε Int :=
  if rc = 0 then next else pure rc

/-- Does something on a condition, and nothing, which succeeds, without it. -/
def onlyIf (condition : Bool) (run : Logged σ ε Int) : Logged σ ε Int :=
  if condition then run else pure 0

end Host

section Fetching

variable {σ : Type} (host : Host σ)

/-- Removes what is at a path, if there is something. -/
def nyPkgRemovePath (entry : Text → Effect) (path : Text) : Logged σ Effect Int := do
  if ← nyPkgPathExists host path then
    notes (entry path)
    nyPkgRunArgv host ["rm".toList, "-rf".toList, path]
  else pure 0

/-- Copies a local package. -/
def nyPkgCopyLocal (source dest : Text) (force : Bool) : Logged σ Effect Int := do
  nyEnsureDir host (nyDirName dest)
  let there ← nyPkgPathExists host dest
  if there && !force then pure 0
  else
    let rc ← onlyIf force (nyPkgRemovePath host .removes dest)
    andThen rc do
      nyEnsureDir host dest
      notes (.installs dest)
      if ← nyPkgIsDir host source then
        nyPkgRunArgv host ["cp".toList, "-R".toList, cut (source ++ "/.".toList), dest]
      else nyPkgRunArgv host ["cp".toList, source, nyPkgJoin dest "mod.ny".toList]

/-- The directory whose content is the package: the only one of an archive, if that is asked for. -/
def unpackedRoot (tmpDir : Text) (stripSingleRoot : Bool) : Logged σ Effect Text := do
  let names ← reads (host.entries tmpDir)
  match stripSingleRoot, names with
  | true, [name] =>
    let firstEntry := cut (tmpDir ++ '/' :: name)
    if ← nyPkgIsDir host firstEntry then pure (cut (firstEntry ++ "/.".toList))
    else pure (cut (tmpDir ++ "/.".toList))
  | _, _ => pure (cut (tmpDir ++ "/.".toList))

/-- Fetches an archive from an address. -/
def fetchArchive (source archivePath : Text) : Logged σ Effect Int := do
  let rc ← nyPkgRunArgv host ["curl".toList, "-fsSL".toList, "-o".toList, archivePath, source]
  if rc = 0 then pure rc
  else nyPkgRunArgv host ["wget".toList, "-q".toList, "-O".toList, archivePath, source]

/-- Unpacks an archive into a directory. -/
def unpack (source archivePath tmpDir : Text) : Logged σ Effect Int :=
  if endsWithCi source ".zip".toList then
    nyPkgRunArgv host ["unzip".toList, "-q".toList, archivePath, "-d".toList, tmpDir]
  else nyPkgRunArgv host ["tar".toList, "-xf".toList, archivePath, "-C".toList, tmpDir]

/-- Installs a package from an archive. -/
def nyPkgInstallArchive (source dest : Text) (force stripSingleRoot : Bool) :
    Logged σ Effect Int := do
  let source := nyPkgArchiveSource source
  nyEnsureDir host (nyDirName dest)
  let there ← nyPkgPathExists host dest
  if there && !force then pure 0
  else
    let base := if '/' ∈ dest then baseName dest else "archive".toList
    let tmpDir := cut (host.tempDir ++ "/ny-pkg-".toList ++ host.pid ++ '-' :: base)
    let downloaded := nyPkgSourceIsUrl source
    let archivePath := cut (if downloaded then tmpDir ++ ".pkg".toList else source)
    let rc ← nyPkgRemovePath host .scratch tmpDir
    let rc ← andThen rc (nyPkgRemovePath host .removes dest)
    let rc ← andThen rc do
      notes (.installs dest)
      nyEnsureDir host dest
      nyPkgRunArgv host ["mkdir".toList, "-p".toList, tmpDir]
    let rc ← andThen rc (onlyIf downloaded (fetchArchive host source archivePath))
    let rc ← andThen rc (unpack host source archivePath tmpDir)
    let rc ← andThen rc do
      notes (.installs dest)
      let content ← unpackedRoot host tmpDir stripSingleRoot
      nyPkgRunArgv host ["cp".toList, "-R".toList, content, dest]
    let _ ← onlyIf downloaded (nyPkgRemovePath host .scratch archivePath)
    let _ ← nyPkgRemovePath host .scratch tmpDir
    pure rc

/-- Runs git in a directory. -/
def gitIn (dest : Text) (args : List String) : Logged σ Effect Int := do
  notes (.installs dest)
  nyPkgRunArgv host ("git".toList :: "-C".toList :: dest :: args.map String.toList)

/-- Installs a package from a git repository. -/
def nyPkgInstallGit (source : Text) (ref : Option Text) (dest : Text) (force : Bool) :
    Logged σ Effect Int := do
  nyEnsureDir host (nyDirName dest)
  let gitDir := nyPkgJoin dest ".git".toList
  let rc ← onlyIf force (nyPkgRemovePath host .removes dest)
  let rc ← andThen rc do
    if ← nyPkgIsDir host gitDir then
      notes (.installs dest)
      let rc ← nyPkgRunArgv host ["git".toList, "-C".toList, dest, "remote".toList,
        "set-url".toList, "origin".toList, nyPkgGitUrl source]
      andThen rc (gitIn host dest ["fetch", "--all", "--tags", "--prune"])
    else
      if ← nyPkgPathExists host dest then pure 1
      else
        notes (.installs dest)
        nyPkgRunArgv host ["git".toList, "clone".toList, nyPkgGitUrl source, dest]
  match ref.filter fun ref => ref ≠ [] with
  | some ref =>
    andThen rc do
      notes (.installs dest)
      nyPkgRunArgv host ["git".toList, "-C".toList, dest, "-c".toList,
        "advice.detachedHead=false".toList, "checkout".toList, ref]
  | none =>
    andThen rc do
      if ← nyPkgIsDir host gitDir then
        let _ ← gitIn host dest ["pull", "--ff-only"]
        pure rc
      else pure rc

/-- The commit that is checked out in a directory. -/
def nyPkgGitCommit {ε : Type} (dest : Text) : Logged σ ε (Option Text) := do
  if ← nyPkgIsDir host (nyPkgJoin dest ".git".toList) then
    nyPkgCaptureArgv host
      ["git".toList, "-C".toList, dest, "rev-parse".toList, "HEAD".toList]
  else pure none

end Fetching

end Nytrix.Pkg
