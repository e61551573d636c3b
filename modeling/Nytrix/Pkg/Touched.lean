import Nytrix.Pkg.Commands

/-! Every path that a run of the package tool touches is a root joined with an accepted name. -/

namespace Nytrix.Pkg

open Lib Lib.Logged
open Lib.Paths (Text)

variable {σ : Type} (host : Host σ)

section Effects

/-- Whether an effect is on one path, apart from scratch paths. -/
def At (dest : Text) : Effect → Prop
  | .removes path => path = dest
  | .installs path => path = dest
  | .scratch _ => True

theorem at_removes (dest : Text) : At dest (.removes dest) := rfl

theorem at_installs (dest : Text) : At dest (.installs dest) := rfl

theorem at_scratch (dest path : Text) : At dest (.scratch path) := trivial

theorem always_andThen {ε : Type} {holds : ε → Prop} {rc : Int} {next : Logged σ ε Int}
    (right : Always holds next) : Always holds (andThen rc next) :=
  Always.ite (fun _ => right) fun _ => always_pure rc

theorem always_onlyIf {ε : Type} {holds : ε → Prop} {condition : Bool} {run : Logged σ ε Int}
    (right : Always holds run) : Always holds (onlyIf condition run) :=
  Always.ite (fun _ => right) fun _ => always_pure 0

theorem always_runArgv {ε : Type} {holds : ε → Prop} (argv : List Text) :
    Always holds (nyPkgRunArgv host argv : Logged σ ε Int) :=
  always_acts _

theorem always_removePath {holds : Effect → Prop} {entry : Text → Effect} {path : Text}
    (right : holds (entry path)) : Always holds (nyPkgRemovePath host entry path) := by
  unfold nyPkgRemovePath
  apply Always.bind (always_reads _)
  intro there
  apply Always.ite
  · intro _
    exact (always_notes right).bind fun _ => always_runArgv host _
  · intro _
    exact always_pure 0

theorem always_copyLocal (source dest : Text) (force : Bool) :
    Always (At dest) (nyPkgCopyLocal host source dest force) := by
  unfold nyPkgCopyLocal
  apply Always.bind (always_acts _)
  intro _
  apply Always.bind (always_reads _)
  intro there
  apply Always.ite
  · intro _
    exact always_pure 0
  · intro _
    apply Always.bind (always_onlyIf (always_removePath host (at_removes dest)))
    intro rc
    apply always_andThen
    -- The directory is made, and then filled from a directory or with one file.
    apply Always.bind (always_acts _)
    intro _
    apply Always.bind (always_notes (at_installs dest))
    intro _
    apply Always.bind (always_reads _)
    intro directory
    exact Always.ite (fun _ => always_runArgv host _) fun _ => always_runArgv host _

theorem always_unpackedRoot {holds : Effect → Prop} (tmpDir : Text) (strip : Bool) :
    Always holds (unpackedRoot host tmpDir strip) := by
  unfold unpackedRoot
  apply Always.bind (always_reads _)
  intro names
  split
  · apply Always.bind (always_reads _)
    intro directory
    exact Always.ite (fun _ => always_pure _) fun _ => always_pure _
  · exact always_pure _

theorem always_fetchArchive {holds : Effect → Prop} (source archivePath : Text) :
    Always holds (fetchArchive host source archivePath) := by
  unfold fetchArchive
  apply Always.bind (always_runArgv host _)
  intro rc
  exact Always.ite (fun _ => always_pure rc) fun _ => always_runArgv host _

theorem always_unpack {holds : Effect → Prop} (source archivePath tmpDir : Text) :
    Always holds (unpack host source archivePath tmpDir) :=
  Always.ite (fun _ => always_runArgv host _) fun _ => always_runArgv host _

theorem always_installArchive (source dest : Text) (force strip : Bool) :
    Always (At dest) (nyPkgInstallArchive host source dest force strip) := by
  unfold nyPkgInstallArchive
  apply Always.bind (always_acts _)
  intro _
  apply Always.bind (always_reads _)
  intro there
  apply Always.ite
  · intro _
    exact always_pure 0
  · intro _
    -- First the way is cleared.
    apply Always.bind (always_removePath host (at_scratch dest _))
    intro rc
    apply Always.bind (always_andThen (always_removePath host (at_removes dest)))
    intro rc
    -- Then the directories are made.
    apply Always.bind
    · apply always_andThen
      apply Always.bind (always_notes (at_installs dest))
      intro _
      exact (always_acts _).bind fun _ => always_runArgv host _
    intro rc
    -- Then the archive is fetched and unpacked.
    apply Always.bind (always_andThen (always_onlyIf (always_fetchArchive host _ _)))
    intro rc
    apply Always.bind (always_andThen (always_unpack host _ _ _))
    intro rc
    -- Then its content is copied, and scratch is removed.
    apply Always.bind
    · apply always_andThen
      apply Always.bind (always_notes (at_installs dest))
      intro _
      exact (always_unpackedRoot host _ _).bind fun _ => always_runArgv host _
    intro rc
    apply Always.bind (always_onlyIf (always_removePath host (at_scratch dest _)))
    intro _
    exact (always_removePath host (at_scratch dest _)).bind fun _ => always_pure rc

theorem always_gitIn (dest : Text) (args : List String) :
    Always (At dest) (gitIn host dest args) :=
  (always_notes (at_installs dest)).bind fun _ => always_runArgv host _

theorem always_installGit (source : Text) (ref : Option Text) (dest : Text) (force : Bool) :
    Always (At dest) (nyPkgInstallGit host source ref dest force) := by
  unfold nyPkgInstallGit
  apply Always.bind (always_acts _)
  intro _
  apply Always.bind (always_onlyIf (always_removePath host (at_removes dest)))
  intro rc
  apply Always.bind
  · -- A checkout is brought up to date, and otherwise there is a new one.
    apply always_andThen
    apply Always.bind (always_reads _)
    intro checkout
    apply Always.ite
    · intro _
      apply Always.bind (always_notes (at_installs dest))
      intro _
      apply Always.bind (always_runArgv host _)
      intro rc
      exact always_andThen (always_gitIn host dest _)
    · intro _
      apply Always.bind (always_reads _)
      intro there
      apply Always.ite
      · intro _
        exact always_pure 1
      · intro _
        exact (always_notes (at_installs dest)).bind fun _ => always_runArgv host _
  intro rc
  -- Then the reference is checked out, or the newest state is pulled.
  split
  · apply always_andThen
    exact (always_notes (at_installs dest)).bind fun _ => always_runArgv host _
  · apply always_andThen
    apply Always.bind (always_reads _)
    intro checkout
    apply Always.ite
    · intro _
      exact (always_gitIn host dest _).bind fun _ => always_pure rc
    · intro _
      exact always_pure rc

end Effects

section Touches

/-- What a touch says of where its path comes from. -/
structure Accurate (touch : Touch) : Prop where
  path : touch.path = nyPkgJoin touch.root touch.name
  package : touch.kind = .package →
    nyPkgNameOk touch.name ∧ ∃ opts project, touch.root = nyPkgInstallRoot host opts project
  repository : touch.kind = .repository → touch.root = nyPkgReposRoot host ∧
    (nyPkgNameOk touch.name ∨
      ∃ line source, nyPkgParseRegistryPair line (some "repo".toList) = some (touch.name, source))

theorem touches_package {opts : Opts} {project name : Text} (named : nyPkgNameOk name)
    (effect : Effect)
    (placed : At (nyPkgJoin (nyPkgInstallRoot host opts project) name) effect) :
    ∀ touch ∈ touches .package (nyPkgInstallRoot host opts project) name effect,
      Accurate host touch := by
  intro touch member
  cases effect with
  | removes path =>
    obtain rfl := List.mem_singleton.mp member
    exact ⟨placed, fun _ => ⟨named, opts, project, rfl⟩, nofun⟩
  | installs path =>
    obtain rfl := List.mem_singleton.mp member
    exact ⟨placed, fun _ => ⟨named, opts, project, rfl⟩, nofun⟩
  | scratch path => exact absurd member List.not_mem_nil

theorem touches_repository {name : Text}
    (named : nyPkgNameOk name ∨
      ∃ line source, nyPkgParseRegistryPair line (some "repo".toList) = some (name, source))
    (effect : Effect) (placed : At (nyPkgRepoCachePath host name) effect) :
    ∀ touch ∈ touches .repository (nyPkgReposRoot host) name effect, Accurate host touch := by
  intro touch member
  cases effect with
  | removes path =>
    obtain rfl := List.mem_singleton.mp member
    exact ⟨placed, nofun, fun _ => ⟨rfl, named⟩⟩
  | installs path =>
    obtain rfl := List.mem_singleton.mp member
    exact ⟨placed, nofun, fun _ => ⟨rfl, named⟩⟩
  | scratch path => exact absurd member List.not_mem_nil

variable {ε : Type} {holds : ε → Prop}

theorem always_registryLines (path : Text) :
    Always holds (registryLines host path : Logged σ ε (List Text)) :=
  (always_reads _).bind fun _ => always_pure _

theorem always_registryLookup (keyword : Option Text) (name : Text) :
    Always holds (registryLookup host keyword name : Logged σ ε (Option Text)) := by
  unfold registryLookup
  apply Always.ite
  · intro _
    exact always_pure none
  · intro _
    apply always_firstM
    intro path _
    exact (always_registryLines host path).bind fun _ => always_pure _

theorem always_packageCandidate (repoRoot pkgName : Text) :
    Always holds (nyPkgRepoPackageCandidate host repoRoot pkgName : Logged σ ε (Option Text)) := by
  unfold nyPkgRepoPackageCandidate
  apply Always.bind (always_reads _)
  intro directory
  apply Always.ite
  · intro _
    exact always_pure _
  · intro _
    apply Always.bind (always_reads _)
    intro file
    exact Always.ite (fun _ => always_pure _) fun _ => always_pure _

theorem always_materialize (opts : Opts) {repoName repoSource line : Text}
    (paired : nyPkgParseRegistryPair line (some "repo".toList) = some (repoName, repoSource)) :
    Always (Accurate host) (nyPkgRepoMaterialize host opts repoName repoSource) := by
  unfold nyPkgRepoMaterialize
  apply Always.ite
  · intro _
    exact always_pure none
  intro _
  apply Always.ite
  · intro _
    exact always_pure _
  intro _
  apply Always.bind
  · apply Always.relabelled
    · exact Always.ite (fun _ => always_installGit host _ _ _ _)
        fun _ => always_installArchive host _ _ _ _
    · exact touches_repository host (.inr ⟨line, repoSource, paired⟩)
  · intro rc
    exact always_pure _

theorem returns_registryLookup (keyword : Option Text) (name : Text) :
    Returns (fun found => ∀ source, found = some source →
        ∃ line, nyPkgParseRegistryPair line keyword = some (name, source))
      (registryLookup host keyword name : Logged σ ε (Option Text)) := by
  unfold registryLookup
  split
  · exact returns_pure nofun
  apply returns_firstM nofun
  intro path
  apply returns_bind
  intro lines
  apply returns_pure
  intro source found
  -- The pair that is found has been read from one of the lines.
  obtain ⟨⟨entry, given⟩, among, chosen⟩ := List.exists_of_findSome?_eq_some found
  obtain ⟨line, _, paired⟩ := List.mem_filterMap.mp among
  by_cases same : entry = name
  · rw [if_pos same] at chosen
    obtain rfl : given = source := Option.some.inj chosen
    obtain rfl : entry = name := same
    exact ⟨line, paired⟩
  · rw [if_neg same] at chosen
    exact absurd chosen nofun

theorem always_repoPkgLookupLine (opts : Opts) (pkgName line : Text) :
    Always (Accurate host) (repoPkgLookupLine host opts pkgName line) := by
  unfold repoPkgLookupLine
  split
  · exact always_pure none
  · next repoName repoSource paired =>
    apply Always.bind (always_materialize host opts paired)
    intro repoRoot
    split
    · exact always_pure none
    · exact (always_packageCandidate host _ _).bind fun _ => always_pure _

theorem always_nyPkgRegistryLookup (opts : Opts) (name : Text) :
    Always (Accurate host) (nyPkgRegistryLookup host opts name) := by
  unfold nyPkgRegistryLookup
  apply Always.bind (always_registryLookup host none name)
  intro direct
  split
  · exact always_pure _
  · unfold nyPkgRegistryRepoPkgLookup
    apply Always.ite
    · intro _
      exact always_pure none
    · intro _
      apply always_firstM
      intro path _
      apply Always.bind (always_registryLines host path)
      intro lines
      exact always_firstM fun line _ => always_repoPkgLookupLine host opts name line

theorem always_resolveRepoSource (opts : Opts) (source : Text) :
    Always (Accurate host) (nyPkgResolveRepoSource host opts source) := by
  unfold nyPkgResolveRepoSource
  apply Always.ite
  · intro _
    exact always_pure none
  · intro _
    apply Always.bind_returns (always_registryLookup host _ _) (returns_registryLookup host _ _)
    intro found paired
    split
    · exact always_pure none
    · next repoSource =>
      obtain ⟨line, paired⟩ := paired repoSource rfl
      apply Always.bind (always_materialize host opts paired)
      intro repoRoot
      split
      · exact always_pure none
      · exact always_packageCandidate host _ _

end Touches

section Commands

theorem always_installOne (opts : Opts) (project : Text)
    {nested : Text → Lock → Logged σ Touch Lock}
    (inner : ∀ dest lock, Always (Accurate host) (nested dest lock)) (dep : Dep) (lock : Lock) :
    Always (Accurate host) (installOne host opts project nested dep lock) := by
  unfold installOne
  apply Always.ite
  · intro _
    exact always_pure _
  intro asked
  have named : nyPkgNameOk dep.name = true := by
    by_contra improper
    exact asked (by simp [improper])
  apply Always.bind (always_acts _)
  intro _
  apply Always.bind (always_resolveRepoSource host opts dep.source)
  intro resolved
  apply Always.bind
  · -- The package itself, from wherever it comes.
    apply Always.relabelled _ (touches_package host named)
    apply Always.ite
    · intro _
      exact always_installArchive host _ _ _ _
    · intro _
      exact Always.ite (fun _ => always_installGit host _ _ _ _)
        fun _ => always_copyLocal host _ _ _
  intro rc
  apply Always.ite
  · intro _
    exact always_pure _
  · intro _
    apply Always.bind
    · unfold nyPkgGitCommit
      apply Always.bind (always_reads _)
      intro checkout
      exact Always.ite (fun _ => always_acts _) fun _ => always_pure _
    · intro commit
      exact (inner _ _).bind fun _ => always_pure _

theorem always_readManifest {ε : Type} {holds : ε → Prop} (path : Text) :
    Always holds (nyPkgReadManifest host path : Logged σ ε (Option Manifest)) :=
  (always_reads _).bind fun _ => always_pure _

theorem always_writeManifest {ε : Type} {holds : ε → Prop} (m : Manifest) :
    Always holds (nyPkgWriteManifest host m : Logged σ ε Int) :=
  (always_acts _).bind fun _ => always_acts _

theorem always_installDep (opts : Opts) (project : Text) (levels : ℕ) (dep : Dep) (lock : Lock) :
    Always (Accurate host) (nyPkgInstallDep host opts project levels dep lock) := by
  -- Induction on the levels that are left.
  induction levels generalizing dep lock with
  | zero => exact always_installOne host opts project (fun _ lock => always_pure lock) dep lock
  | succ levels ih =>
    apply always_installOne host opts project
    intro dest lock
    unfold nyPkgInstallNested
    apply Always.bind (always_firstM fun name _ => always_readManifest host _)
    intro child
    split
    · exact always_pure lock
    · apply always_foldlM
      intro lock dep _
      exact (ih dep lock).bind fun out => always_pure out.2

theorem always_installManifest (opts : Opts) (m : Manifest) (onlyName : Option Text) :
    Always (Accurate host) (nyPkgInstallManifest host opts m onlyName) := by
  unfold nyPkgInstallManifest
  apply Always.bind
  · apply always_foldlM
    intro so dep _
    exact (always_installDep host opts m.root 16 dep so.2).bind fun out => always_pure _
  · intro out
    exact always_andThen (always_acts _)

theorem always_cmdAdd (args : List Text) (opts : Opts) (ref : Option Text) :
    Always (Accurate host) (nyPkgCmdAdd host args opts ref) := by
  unfold nyPkgCmdAdd
  split
  · exact always_pure 2
  · next first others =>
    apply Always.bind
    · unfold addedPackage
      apply Always.ite
      · intro _
        exact always_pure _
      · intro _
        split
        · exact always_pure _
        · exact (always_nyPkgRegistryLookup host opts first).bind fun _ => always_pure _
    intro added
    apply Always.ite
    · intro _
      exact always_pure 2
    · intro _
      apply Always.bind (always_readManifest host _)
      intro found
      apply Always.bind (always_writeManifest host _)
      intro rc
      exact always_andThen (always_installManifest host opts _ _)

theorem always_cmdInstall (args : List Text) (opts : Opts) (ref : Option Text) :
    Always (Accurate host) (nyPkgCmdInstall host args opts ref) := by
  unfold nyPkgCmdInstall
  apply Always.ite
  · intro _
    exact always_cmdAdd host args opts ref
  · intro _
    apply Always.bind (always_readManifest host _)
    intro found
    split
    · exact always_pure 1
    · exact always_installManifest host opts _ none

theorem always_cmdUpdate (args : List Text) (opts : Opts) (ref : Option Text) :
    Always (Accurate host) (nyPkgCmdUpdate host args opts ref) := by
  unfold nyPkgCmdUpdate
  split
  · exact always_cmdInstall host [] _ ref
  · next only others =>
    apply Always.bind (always_readManifest host _)
    intro found
    split
    · exact always_pure 1
    · exact always_installManifest host _ _ (some only)

theorem always_cmdUninstall (args : List Text) (opts : Opts) :
    Always (Accurate host) (nyPkgCmdUninstall host args opts) := by
  unfold nyPkgCmdUninstall
  split
  · exact always_pure 2
  · next name others =>
    apply Always.ite
    · intro _
      exact always_pure 2
    intro asked
    have named : nyPkgNameOk name = true := by simpa using asked
    apply Always.bind (always_readManifest host _)
    intro found
    apply Always.bind
    · exact Always.relabelled (always_removePath host (at_removes _)) (touches_package host named)
    intro rc
    -- The manifest and the lock file are written without touching packages.
    apply Always.bind
    · exact always_andThen (Always.ite (fun _ => always_writeManifest host _)
        fun _ => always_pure 0)
    · intro rc
      exact always_andThen ((always_acts _).bind fun _ => always_pure 0)

theorem always_upsertRepo (opts : Opts) (name source : Text) :
    Always (Accurate host) (nyPkgRegistryUpsertRepo host opts name source) := by
  unfold nyPkgRegistryUpsertRepo
  apply Always.ite
  · intro _
    exact always_pure 2
  intro asked
  have named : nyPkgNameOk name = true := by
    by_contra improper
    exact asked (by simp [improper])
  apply Always.bind (always_acts _)
  intro _
  apply Always.bind (always_reads _)
  intro txt
  apply Always.bind (always_acts _)
  intro rc
  apply always_andThen
  apply Always.bind
  · exact Always.relabelled (always_removePath host (at_removes _))
      (touches_repository host (.inl named))
  · intro _
    exact always_pure 0

theorem always_removeRepo {holds : Touch → Prop} (opts : Opts) (name : Text) :
    Always holds (nyPkgRegistryRemoveRepo host opts name) := by
  unfold nyPkgRegistryRemoveRepo
  apply Always.ite
  · intro _
    exact always_pure 2
  · intro _
    apply Always.bind (always_reads _)
    intro txt
    split
    · exact always_pure 0
    · exact always_acts _

theorem always_repoSync (opts : Opts) (only : Option Text) :
    Always (Accurate host) (repoSync host opts only) := by
  unfold repoSync
  apply always_foldlM
  intro rc path _
  apply Always.bind (always_registryLines host path)
  intro lines
  apply always_foldlM
  intro rc line _
  unfold syncLine
  split
  · exact always_pure rc
  · next repoName repoSource paired =>
    apply Always.ite
    · intro _
      exact (always_materialize host opts paired).bind fun _ => always_pure _
    · intro _
      exact always_pure rc

theorem always_cmdRepo (args : List Text) (opts : Opts) :
    Always (Accurate host) (nyPkgCmdRepo host args opts) := by
  unfold nyPkgCmdRepo
  split
  · next cmd others =>
    apply Always.ite
    · intro _
      split
      · exact (always_upsertRepo host opts _ _).map some
      · exact (always_upsertRepo host opts [] []).map some
    intro _
    apply Always.ite
    · intro _
      exact (always_removeRepo host opts _).map some
    intro _
    apply Always.ite
    · intro _
      exact (always_repoSync host opts _).map some
    · intro _
      exact always_pure none
  · exact always_pure none

theorem always_command (cmd : Text) (args : List Text) (opts : Opts) (ref : Option Text) :
    Always (Accurate host) (command host cmd args opts ref) := by
  unfold command
  apply Always.ite
  · intro _
    exact (always_cmdAdd host args opts ref).map some
  intro _
  apply Always.ite
  · intro _
    exact (always_cmdInstall host args opts ref).map some
  intro _
  apply Always.ite
  · intro _
    exact (always_cmdUninstall host args opts).map some
  intro _
  apply Always.ite
  · intro _
    exact (always_cmdUpdate host args opts ref).map some
  intro _
  apply Always.ite
  · intro _
    exact always_cmdRepo host args opts
  · intro _
    exact always_pure none

theorem always_main (argv : List Text) : Always (Accurate host) (nyPkgMain host argv) := by
  unfold nyPkgMain
  apply Always.bind
  · unfold nyPkgManifestDefault
    apply Always.bind
    · apply always_firstM
      intro name _
      exact (always_reads _).bind fun _ => always_pure _
    · intro found
      exact always_pure _
  intro manifest
  dsimp only
  split
  · exact always_pure none
  · exact always_command host _ _ _ _
  · exact Always.ite (fun _ => always_command host _ _ _ _) fun _ => always_command host _ _ _ _

end Commands

end Nytrix.Pkg
