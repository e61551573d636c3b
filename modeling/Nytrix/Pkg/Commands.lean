import Nytrix.Pkg.Install

/-! The commands of the package tool: roots, registries, dependencies and the command line. -/

namespace Nytrix.Pkg

open Lib Lib.Logged
open Lib.Paths (Text)

/-- What the options say. -/
structure Opts where
  global : Bool := false
  system : Bool := false
  venv : Bool := false
  vendor : Bool := false
  force : Bool := false
  manifest : Text := []
  installRoot : Text := []
  initVersion : Option Text := none
  initDescription : Option Text := none
  initAuthor : Option Text := none
  initLicense : Option Text := none
  initRepository : Option Text := none
  deriving DecidableEq

/-- Whether a path belongs to a package or to the cache of a repository. -/
inductive Kind where
  | package
  | repository
  deriving DecidableEq

/-- What happens to a path. -/
inductive Deed where
  | removes
  | installs
  deriving DecidableEq

/-- A path that is removed or installed into, with the root and the name it was computed from. -/
structure Touch where
  kind : Kind
  deed : Deed
  root : Text
  name : Text
  path : Text
  deriving DecidableEq

/-- An effect, as one on behalf of a name under a root; scratch paths belong to neither. -/
def touches (kind : Kind) (root name : Text) : Effect → List Touch
  | .removes path => [⟨kind, .removes, root, name, path⟩]
  | .installs path => [⟨kind, .installs, root, name, path⟩]
  | .scratch _ => []

section Roots

variable {σ : Type} (host : Host σ)

/-- A variable of the environment that is set and not empty. -/
def envText (name : String) : Option Text := (host.getenv name).filter fun value => value ≠ []

/-- The root for all projects of a user. -/
def nyPkgGlobalRoot : Text :=
  match envText host "NYTRIX_PKG_HOME" with
  | some home => cut home
  | none => cut ((envText host "HOME").getD host.tempDir ++ "/.nytrix/pkg".toList)

/-- The root for all users. -/
def nyPkgSystemRoot : Text :=
  cut ((envText host "NYTRIX_SYSTEM_PKG_HOME").getD "/usr/local/share/nytrix/pkg".toList)

/-- The root that the options choose, for the project of a manifest. -/
def nyPkgInstallRoot (opts : Opts) (project : Text) : Text :=
  let project := if project = [] then ".".toList else project
  if opts.installRoot ≠ [] then cut opts.installRoot
  else if opts.venv then nyPkgJoin (nyPkgJoin project ".nytrix/venv".toList) "lib".toList
  else if opts.vendor then nyPkgJoin (nyPkgJoin project "vendor".toList) "ny_modules".toList
  else if opts.system then nyPkgSystemRoot host
  else if opts.global then nyPkgGlobalRoot host
  else nyPkgJoin project "ny_modules".toList

/-- The directory of the user's settings. -/
def nyPkgConfigHome : Text :=
  match envText host "XDG_CONFIG_HOME" with
  | some xdg => cut xdg
  | none =>
    match envText host "HOME" with
    | some home => nyPkgJoin home ".config".toList
    | none => []

/-- The paths of the settings. -/
def nyPkgConfigPaths : List Text :=
  let base := nyPkgConfigHome host
  let under (name : String) : Text :=
    if base = [] then [] else nyPkgJoin (nyPkgJoin base name.toList) "config".toList
  [cut (((envText host "NYTRIX_CONFIG").or (host.getenv "NY_CONFIG")).getD []),
    cut (nyPkgJoin ".nytrix".toList "config".toList), "nytrix.config".toList,
    under "nytrix", under "ny"]

/-- The paths of the registries; one that is empty is left out. -/
def nyPkgRegistryPaths : List Text :=
  ([cut ((envText host "NYTRIX_PKG_REGISTRY").getD []), ".ny.registry".toList,
      "ny.registry".toList] ++ nyPkgConfigPaths host ++
    [nyPkgJoin (nyPkgGlobalRoot host) "registry".toList]).filter fun path => path ≠ []

/-- The registry that the options choose for writing. -/
def nyPkgRegistryWritePath (opts : Opts) : Text :=
  if opts.system then nyPkgJoin (nyPkgSystemRoot host) "registry".toList
  else if opts.global then nyPkgJoin (nyPkgGlobalRoot host) "registry".toList
  else
    let manifest := if opts.manifest = [] then "ny.pkg.json".toList else opts.manifest
    nyPkgJoin (nyDirName manifest) ".ny.registry".toList

/-- The root of the caches of repositories. -/
def nyPkgReposRoot : Text := nyPkgJoin (nyPkgGlobalRoot host) "repos".toList

/-- The cache of a repository. -/
def nyPkgRepoCachePath (repoName : Text) : Text := nyPkgJoin (nyPkgReposRoot host) repoName

end Roots

section Registry

variable {σ : Type} (host : Host σ)

/-- The lines of a registry; there are none without the file. -/
def registryLines {ε : Type} (path : Text) : Logged σ ε (List Text) := do
  let txt ← nyReadFile host path
  pure ((txt.map linesOf).getD [])

/-- The source of the first line with a name and a keyword, in all registries. -/
def registryLookup {ε : Type} (keyword : Option Text) (name : Text) :
    Logged σ ε (Option Text) :=
  if name = [] then pure none
  else
    (nyPkgRegistryPaths host).findSomeM? fun path => do
      let lines ← registryLines host path
      pure ((lines.filterMap fun line => nyPkgParseRegistryPair line keyword).findSome? fun pair =>
        if pair.1 = name then some pair.2 else none)

/-- The source of a package that a registry gives. -/
def nyPkgRegistryDirectLookup {ε : Type} (name : Text) : Logged σ ε (Option Text) :=
  registryLookup host none name

/-- The source of a repository that a registry gives. -/
def nyPkgRegistryRepoLookup {ε : Type} (repoName : Text) : Logged σ ε (Option Text) :=
  registryLookup host (some "repo".toList) repoName

/-- The directory of a repository, which is fetched into its cache if it is not a local one. -/
def nyPkgRepoMaterialize (opts : Opts) (repoName repoSource : Text) :
    Logged σ Touch (Option Text) :=
  if repoSource = [] then pure none
  else if !nyPkgSourceIsGit repoSource && !nyPkgSourceIsArchive repoSource then
    pure (some repoSource)
  else do
    let cache := nyPkgRepoCachePath host repoName
    let rc ← relabelled (touches .repository (nyPkgReposRoot host) repoName) <|
      if nyPkgSourceIsGit repoSource then nyPkgInstallGit host repoSource none cache opts.force
      else nyPkgInstallArchive host repoSource cache opts.force false
    pure (if rc = 0 then some cache else none)

/-- The path of a package of a repository, if it is there. -/
def nyPkgRepoPackageCandidate {ε : Type} (repoRoot pkgName : Text) : Logged σ ε (Option Text) := do
  let path := nyPkgJoin repoRoot pkgName
  if ← nyPkgPathExists host path then pure (some path)
  else
    let file := cut (path ++ ".ny".toList)
    if ← nyPkgPathExists host file then pure (some file) else pure none

/-- Searches the repositories of a registry for a package. -/
def repoPkgLookupLine (opts : Opts) (pkgName line : Text) : Logged σ Touch (Option Text) :=
  match nyPkgParseRegistryPair line (some "repo".toList) with
  | none => pure none
  | some (repoName, repoSource) => do
    match ← nyPkgRepoMaterialize host opts repoName repoSource with
    | none => pure none
    | some repoRoot => do
      let candidate ← nyPkgRepoPackageCandidate host repoRoot pkgName
      pure (candidate.map fun _ => "repo+".toList ++ repoName ++ '/' :: pkgName)

/-- Searches the repositories of all registries for a package. -/
def nyPkgRegistryRepoPkgLookup (opts : Opts) (pkgName : Text) : Logged σ Touch (Option Text) :=
  if pkgName = [] then pure none
  else
    (nyPkgRegistryPaths host).findSomeM? fun path => do
      let lines ← registryLines host path
      lines.findSomeM? (repoPkgLookupLine host opts pkgName)

/-- The source of a package, from the registries and then from the repositories. -/
def nyPkgRegistryLookup (opts : Opts) (name : Text) : Logged σ Touch (Option Text) := do
  match ← nyPkgRegistryDirectLookup host name with
  | some source => pure (some source)
  | none => nyPkgRegistryRepoPkgLookup host opts name

/-- The path that a source of the form for repositories stands for, if it is there. -/
def nyPkgResolveRepoSource (opts : Opts) (source : Text) : Logged σ Touch (Option Text) :=
  let spec := source.drop 5
  let repoName := spec.takeWhile fun c => c ≠ '/'
  let pkgName := (spec.dropWhile fun c => c ≠ '/').drop 1
  if !nyPkgSourceIsRepo source || repoName = [] || pkgName = [] then pure none
  else do
    match ← nyPkgRegistryRepoLookup host repoName with
    | none => pure none
    | some repoSource => do
      match ← nyPkgRepoMaterialize host opts repoName repoSource with
      | none => pure none
      | some repoRoot => nyPkgRepoPackageCandidate host repoRoot pkgName

end Registry

section Installing

variable {σ : Type} (host : Host σ)

/-- Reads a manifest. -/
def nyPkgReadManifest {ε : Type} (path : Text) : Logged σ ε (Option Manifest) := do
  let path := cut (if path = [] then "ny.pkg.json".toList else path)
  let txt ← nyReadFile host path
  pure (txt.map (manifestOf path))

/-- Writes a manifest. -/
def nyPkgWriteManifest {ε : Type} (m : Manifest) : Logged σ ε Int := do
  nyEnsureDir host (nyDirName m.path)
  writeFile host m.path (manifestText m)

/-- Writes a lock file. -/
def nyPkgWriteLock {ε : Type} (manifestPath : Text) (lock : Lock) : Logged σ ε Int :=
  writeFile host (lockPath manifestPath) (lockText lock)

/-- Installs what the manifest of an installed package asks for; its first manifest counts. -/
def nyPkgInstallNested (install : Dep → Lock → Logged σ Touch (Int × Lock)) (dest : Text)
    (lock : Lock) : Logged σ Touch Lock := do
  let child ← ["ny.pkg.json", "nytrix.pkg.json", "ny.pkg"].findSomeM? fun name =>
    nyPkgReadManifest host (nyPkgJoin dest name.toList)
  match child with
  | none => pure lock
  | some child =>
    child.items.foldlM (fun lock dep => do let out ← install dep lock; pure out.2) lock

/-- Installs a dependency under the root of a project, and then what it asks for itself. -/
def installOne (opts : Opts) (project : Text) (nested : Text → Lock → Logged σ Touch Lock)
    (dep : Dep) (lock : Lock) : Logged σ Touch (Int × Lock) :=
  if !nyPkgNameOk dep.name || dep.source = [] then pure (1, lock)
  else do
    let root := nyPkgInstallRoot host opts project
    nyEnsureDir host root
    let dest := nyPkgJoin root dep.name
    let resolved ← nyPkgResolveRepoSource host opts dep.source
    let source := resolved.getD dep.source
    let rc ← relabelled (touches .package root dep.name) <|
      if nyPkgSourceIsArchive source then nyPkgInstallArchive host source dest opts.force true
      else if nyPkgSourceIsGit source then nyPkgInstallGit host source dep.ref dest opts.force
      else nyPkgCopyLocal host source dest opts.force
    if rc ≠ 0 then pure (rc, lock)
    else
      let commit ← nyPkgGitCommit host dest
      let lock ← nested dest (nyPkgLockPush lock dep dest commit)
      pure (0, lock)

/-- Installs a dependency; manifests of installed packages are read so many levels deep. -/
def nyPkgInstallDep (opts : Opts) (project : Text) :
    ℕ → Dep → Lock → Logged σ Touch (Int × Lock)
  | 0 => installOne host opts project fun _ lock => pure lock
  | levels + 1 =>
    installOne host opts project (nyPkgInstallNested host (nyPkgInstallDep opts project levels))

/-- Installs the dependencies of a manifest, or the one of a name. -/
def nyPkgInstallManifest (opts : Opts) (m : Manifest) (onlyName : Option Text) :
    Logged σ Touch Int := do
  let chosen := m.items.filter fun dep =>
    match onlyName with
    | some name => name = [] || dep.name = name
    | none => true
  let (rc, lock) ← chosen.foldlM (fun (so : Int × Lock) dep => do
    let (rc, lock) ← nyPkgInstallDep host opts m.root 16 dep so.2
    pure (if rc = 0 then so.1 else 1, lock)) (0, [])
  andThen rc (nyPkgWriteLock host m.path lock)

end Installing

section Commands

variable {σ : Type} (host : Host σ)

/-- The name and the source of a package that the command line gives or a registry knows. -/
def addedPackage (opts : Opts) (first : Text) (others : List Text) :
    Logged σ Touch (Text × Option Text) :=
  if '=' ∈ first then
    pure (nyPkgTrimDup (first.takeWhile fun c => c ≠ '='),
      some (nyPkgTrimDup ((first.dropWhile fun c => c ≠ '=').drop 1)))
  else
    match others with
    | source :: _ => pure (first, some source)
    | [] => do
      let source ← nyPkgRegistryLookup host opts first
      pure (first, source)

/-- The manifest of a project that has none yet. -/
def freshManifest (opts : Opts) : Manifest :=
  { emptyManifest (cut opts.manifest) (nyDirName (cut opts.manifest)) with
    name := "app".toList
    version := opts.initVersion.getD "0.1.0".toList
    description := opts.initDescription.getD []
    author := opts.initAuthor.getD []
    license := opts.initLicense.getD []
    repository := opts.initRepository.getD [] }

/-- Adds a dependency to the manifest and installs it. -/
def nyPkgCmdAdd (args : List Text) (opts : Opts) (defaultRef : Option Text) :
    Logged σ Touch Int :=
  match args with
  | [] => pure 2
  | first :: others => do
    let (name, source) ← addedPackage host opts first others
    if !nyPkgNameOk name || source.getD [] = [] then pure 2
    else
      let (source, ref) := nyPkgSplitSourceRef (source.getD []) defaultRef
      let m := (← nyPkgReadManifest host opts.manifest).getD (freshManifest opts)
      let m := { m with items := nyPkgManifestPush m.items name source ref }
      let rc ← nyPkgWriteManifest host m
      andThen rc (nyPkgInstallManifest host opts m (some name))

/-- Installs the dependencies of the manifest, or one that is added to it. -/
def nyPkgCmdInstall (args : List Text) (opts : Opts) (ref : Option Text) : Logged σ Touch Int :=
  if args ≠ [] then nyPkgCmdAdd host args opts ref
  else do
    match ← nyPkgReadManifest host opts.manifest with
    | none => pure 1
    | some m => nyPkgInstallManifest host opts m none

/-- Installs the dependencies of the manifest again, without replacing local copies. -/
def nyPkgCmdUpdate (args : List Text) (opts : Opts) (ref : Option Text) : Logged σ Touch Int :=
  let opts := { opts with force := false }
  match args with
  | [] => nyPkgCmdInstall host [] opts ref
  | only :: _ => do
    match ← nyPkgReadManifest host opts.manifest with
    | none => pure 1
    | some m => nyPkgInstallManifest host opts m (some only)

/-- Removes an installed package, and the dependency from the manifest. -/
def nyPkgCmdUninstall (args : List Text) (opts : Opts) : Logged σ Touch Int :=
  match args with
  | [] => pure 2
  | name :: _ =>
    if !nyPkgNameOk name then pure 2
    else do
      let found ← nyPkgReadManifest host opts.manifest
      let m := found.getD (emptyManifest (cut opts.manifest) ".".toList)
      let root := nyPkgInstallRoot host opts m.root
      let dest := nyPkgJoin root name
      let rc ← relabelled (touches .package root name) (nyPkgRemovePath host .removes dest)
      let (items, changed) := nyPkgManifestRemove m.items name
      let rc ← andThen rc <|
        if found.isSome && changed then nyPkgWriteManifest host { m with items := items }
        else pure 0
      andThen rc do
        acts fun s => ((), host.remove (lockPath m.path) s)
        pure 0

/-- The lines of a registry without those of a repository. -/
def linesWithoutRepo (txt name : Text) : Text :=
  ((linesOf txt).filter fun line =>
    match nyPkgParseRegistryPair line (some "repo".toList) with
    | some (repoName, _) => repoName ≠ name
    | none => true).flatMap fun line => line ++ ['\n']

/-- Adds a repository to a registry, and removes its cache. -/
def nyPkgRegistryUpsertRepo (opts : Opts) (name source : Text) : Logged σ Touch Int :=
  if !nyPkgNameOk name || source = [] then pure 2
  else do
    let path := nyPkgRegistryWritePath host opts
    nyEnsureDir host (nyDirName path)
    let txt ← nyReadFile host path
    let rc ← writeFile host path (((txt.map fun txt => linesWithoutRepo txt name).getD []) ++
      "repo ".toList ++ name ++ " = ".toList ++ source ++ ['\n'])
    andThen rc do
      let _ ← relabelled (touches .repository (nyPkgReposRoot host) name)
        (nyPkgRemovePath host .removes (nyPkgRepoCachePath host name))
      pure 0

/-- Removes a repository from a registry. -/
def nyPkgRegistryRemoveRepo (opts : Opts) (name : Text) : Logged σ Touch Int :=
  if !nyPkgNameOk name then pure 2
  else do
    let path := nyPkgRegistryWritePath host opts
    match ← nyReadFile host path with
    | none => pure 0
    | some txt => writeFile host path (linesWithoutRepo txt name)

/-- Fetches the repository of a line, if it is one that is asked for. -/
def syncLine (opts : Opts) (only : Option Text) (rc : Int) (line : Text) : Logged σ Touch Int :=
  match nyPkgParseRegistryPair line (some "repo".toList) with
  | none => pure rc
  | some (repoName, repoSource) =>
    if only.all fun wanted => wanted = repoName then do
      let root ← nyPkgRepoMaterialize host opts repoName repoSource
      pure (if root.isSome then rc else 1)
    else pure rc

/-- Fetches the repositories of all registries, or the one of a name. -/
def repoSync (opts : Opts) (only : Option Text) : Logged σ Touch Int :=
  (nyPkgRegistryPaths host).foldlM (fun rc path => do
    let lines ← registryLines host path
    lines.foldlM (syncLine host opts only) rc) 0

/-- The commands about repositories; there is no result for one that only prints. -/
def nyPkgCmdRepo (args : List Text) (opts : Opts) : Logged σ Touch (Option Int) :=
  match args with
  | cmd :: others =>
    if cmd = "add".toList then
      match others with
      | name :: source :: _ => some <$> nyPkgRegistryUpsertRepo host opts name source
      | _ => some <$> nyPkgRegistryUpsertRepo host opts [] []
    else if cmd = "remove".toList ∨ cmd = "rm".toList then
      some <$> nyPkgRegistryRemoveRepo host opts (others.headD [])
    else if cmd = "sync".toList then some <$> repoSync host opts others.head?
    else pure none
  | [] => pure none

end Commands

section CommandLine

/-- What the options leave of a command line, and what they say. -/
structure Parsed where
  opts : Opts
  ref : Option Text
  args : List Text
  deriving DecidableEq

/-- Whether a text is a mode of colors. -/
def nyArgParseColorMode (raw : Text) : Bool :=
  raw ∈ ["always", "on", "1", "never", "off", "0", "auto"].map String.toList ||
    raw.map lower ∈ ["true", "yes", "false", "no", "tty", "default"].map String.toList

/-- What an option with a value sets. -/
def setting (key : Text) : Option (Text → Parsed → Parsed) :=
  let sets (change : Text → Opts → Opts) : Option (Text → Parsed → Parsed) :=
    some fun value parsed => { parsed with opts := change value parsed.opts }
  if key = "--limit".toList then sets fun _ opts => opts
  else if key = "--manifest".toList then sets fun value opts => { opts with manifest := cut value }
  else if key = "--root".toList then sets fun value opts => { opts with installRoot := cut value }
  else if key = "--ref".toList then some fun value parsed => { parsed with ref := some value }
  else if key = "--name".toList then sets fun _ opts => opts
  else if key = "--version".toList then
    sets fun value opts => { opts with initVersion := some value }
  else if key = "--description".toList then
    sets fun value opts => { opts with initDescription := some value }
  else if key = "--author".toList then sets fun value opts => { opts with initAuthor := some value }
  else if key = "--license".toList then
    sets fun value opts => { opts with initLicense := some value }
  else if key = "--repository".toList ∨ key = "--repo".toList then
    sets fun value opts => { opts with initRepository := some value }
  else none

/-- What an option without a value sets. -/
def flag (arg : Text) : Option (Opts → Opts) :=
  let is (words : List String) : Bool := arg ∈ words.map String.toList
  let placed (global system venv vendor : Bool) : Option (Opts → Opts) :=
    some fun opts => { opts with global, system, venv, vendor }
  if is ["--global", "--user", "-g"] then placed true false false false
  else if is ["--system", "--syswide"] then placed false true false false
  else if is ["--venv"] then placed false false true false
  else if is ["--vendor", "--vendored", "--repo-local"] then placed false false false true
  else if is ["--inplace", "--local"] then placed false false false false
  else if is ["--force"] then some fun opts => { opts with force := true }
  else if is ["--verbose", "-v", "--interactive", "-i"] then some id
  else none

/-- Whether a word of the command line takes the one behind it, and what it sets. -/
def option (a : Text) (next : Option Text) : Bool × (Parsed → Parsed) :=
  let key := a.takeWhile fun c => c ≠ '='
  let behind := (a.dropWhile fun c => c ≠ '=').drop 1
  let kept (parsed : Parsed) : Parsed := { parsed with args := parsed.args ++ [a] }
  if a = "--no-color".toList then (false, id)
  -- An invalid mode is left where it stands, and only the option goes.
  else if key = "--color".toList then (behind = [] && next.any nyArgParseColorMode, id)
  else
    match flag a, setting key with
    | some change, _ => (false, fun parsed => { parsed with opts := change parsed.opts })
    | none, some set =>
      if '=' ∈ a then (false, set behind)
      else
        match next with
        | some value => (true, set value)
        | none => (false, kept)
    | none, none => (false, kept)

/-- Takes the options out of a command line, of which the first word may have been taken. -/
def nyPkgParseOpts (taken : Bool) (parsed : Parsed) : List Text → Parsed
  | [] => parsed
  | a :: rest =>
    if taken then nyPkgParseOpts false parsed rest
    else
      let (takes, change) := option a rest.head?
      nyPkgParseOpts takes (change parsed) rest

variable {σ : Type} (host : Host σ)

/-- The first of the usual names of manifests that is there. -/
def nyPkgManifestDefault {ε : Type} : Logged σ ε Text := do
  let found ← ["ny.pkg.json", "nytrix.pkg.json", "ny.pkg"].findSomeM? fun name => do
    let there ← nyPkgPathExists host name.toList
    pure (if there then some name.toList else none)
  pure (found.getD "ny.pkg.json".toList)

/-- Runs a command; there is no result for one that neither installs nor removes. -/
def command (cmd : Text) (args : List Text) (opts : Opts) (ref : Option Text) :
    Logged σ Touch (Option Int) :=
  let is (words : List String) : Bool := cmd ∈ words.map String.toList
  if is ["add", "get"] then some <$> nyPkgCmdAdd host args opts ref
  else if is ["install", "sync"] then some <$> nyPkgCmdInstall host args opts ref
  else if is ["uninstall", "remove", "rm"] then some <$> nyPkgCmdUninstall host args opts
  else if is ["update"] then some <$> nyPkgCmdUpdate host args opts ref
  else if is ["repo", "repos"] then nyPkgCmdRepo host args opts
  else pure none

/-- Runs the tool on a command line, of which the first word is the tool itself. -/
def nyPkgMain (argv : List Text) : Logged σ Touch (Option Int) := do
  let manifest ← nyPkgManifestDefault host
  let parsed := nyPkgParseOpts false ⟨{ manifest := manifest }, none, []⟩ (argv.drop 1)
  match parsed.args with
  | [] => pure none
  | [cmd] => command host cmd [] parsed.opts parsed.ref
  | cmd :: first :: others =>
    if cmd = "pkg".toList then command host first others parsed.opts parsed.ref
    else command host cmd (first :: others) parsed.opts parsed.ref

end CommandLine

end Nytrix.Pkg
