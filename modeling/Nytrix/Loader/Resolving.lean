import Mathlib.Data.List.DropRight
import Mathlib.Data.List.Infix
import Nytrix.Lib.Machine
import Nytrix.Loader.Bundle

/-! Where the file of a module is looked for, and when the search ends. -/

namespace Nytrix.Loader

open Nytrix.Lib
open Nytrix.Types (nm ch)

section Names

/-- The size of the buffers for paths. -/
def pathBuffer : Nat := 4096

/-- Whether a byte is a letter. -/
def isAlpha (c : UInt8) : Bool := (ch 'a' ≤ c && c ≤ ch 'z') || (ch 'A' ≤ c && c ≤ ch 'Z')

/-- Whether a text begins with a letter and a colon. -/
def hasDrive : Str → Bool
  | a :: b :: _ => isAlpha a && b = ch ':'
  | _ => false

/-- The text before the last place of a byte. -/
def beforeLast (c : UInt8) (s : Str) : Option Str :=
  if c ∈ s then some (s.rdropWhile (· ≠ c)).dropLast else none

/-- The text behind the last place of a byte. -/
def behindLast (c : UInt8) (s : Str) : Option Str :=
  if c ∈ s then some (s.rtakeWhile (· ≠ c)) else none

/-- Whether a path ends like a file of the language. -/
def isNyFile (path : Str) : Bool := 3 < path.length && (nm ".ny").isSuffixOf path

/-- Whether the name of a module is rather a path. -/
def nyModuleNameIsPathLike (raw : Str) : Bool :=
  ch '/' ∈ raw || ch '\\' ∈ raw || (nm ".ny").isSuffixOf raw || hasDrive raw

/-- The last word of a dotted name, if there is one. -/
def lastWord (name : Str) : Option Str :=
  match behindLast (ch '.') name with
  | some (c :: leaf) => some (c :: leaf)
  | _ => none

/-- Slashes in place of the dots. -/
def slashed (name : Str) : Str := name.map fun c => if c = ch '.' then ch '/' else c

/-- The name of a file in a directory. -/
def joined (base name : Str) : Str := base ++ ch '/' :: name

/-- Whether a string is the address of a remote module. -/
def isRemote (raw : Str) : Bool := (nm "http://").isPrefixOf raw || (nm "https://").isPrefixOf raw

end Names

section Candidates

/-- The paths of a module in a base directory, in the order in which they are tried. -/
def localCandidates (name base : Str) : List Str :=
  let base := if base = [] then nm "." else base
  if name = [] ∨ pathBuffer ≤ base.length + 1 + name.length + 8 then []
  else
    let isAbs := (nm "./").isPrefixOf name || (nm "/").isPrefixOf name ||
      (nm "\\\\").isPrefixOf name || hasDrive name
    let plain := isAbs || ch '\\' ∈ name
    let path := joined base (if plain || nm ".ny" <:+: name then name else slashed name)
    let path := if isNyFile path then path.take (path.length - 3) else path
    let pathMod := joined base (if plain then name else slashed name)
    let siblings :=
      match lastWord name with
      | some leaf =>
        if nyModuleNameIsPathLike name then []
        else [joined base (leaf ++ nm ".ny"), joined base (joined leaf (nm "mod.ny"))].filter
          fun path => path.length < pathBuffer
      | none => []
    (path ++ nm ".ny") :: (pathMod ++ nm "/mod.ny") :: siblings

/-- The directories of a project in which its packages may be. -/
def packageRoots (cur : Str) : List Str :=
  [nm "ny_modules", nm "vendor/ny_modules", nm ".nytrix/venv/lib"].filterMap fun root =>
    let base := joined (if cur = [] then nm "." else cur) root
    if base.length < pathBuffer then some base else none

/-- The paths of a module in the packages of a project. -/
def packageCandidates (name cur : Str) : List Str :=
  (packageRoots cur).flatMap (localCandidates name)

/-- The name of the file of a demo module. -/
def demoLeaf (name : Str) : Str := (lastWord name).getD name

/-- The paths of a demo module in a project. -/
def demoCandidates (name cur : Str) : List Str :=
  let lib := joined cur (nm "lib")
  [joined lib (demoLeaf name ++ nm ".ny"), joined lib (joined (demoLeaf name) (nm "mod.ny"))].filter
    fun path => path.length < pathBuffer

end Candidates

/--
What a search depends on.

Which files are readable, the values of the environment, where the modules of the standard library
are, and what is fetched from remote addresses.
-/
structure Places where
  readable : Str → Bool
  pkgPath : Option Str
  pkgHome : Option Str
  home : Option Str
  systemPkgHome : Option Str
  stdPath : Str → Option Str
  remote : Str → Option Str

section Search

variable (w : Places)

/-- The first path that is readable. -/
def Places.firstReadable (paths : List Str) : Option Str := paths.find? w.readable

/-- A module in a base directory. -/
def findLocalModuleInBase (name base : Str) : Option Str :=
  w.firstReadable (localCandidates name base)

/-- A module in the packages of a project. -/
def findModuleInProjectPackageRoots (name cur : Str) : Option Str :=
  w.firstReadable (packageCandidates name cur)

/-- A module in a list of directories. -/
def findModuleInPackagePathList (name paths : Str) : Option Str :=
  ((paths.splitOnP fun c => c = ch ':' || c = ch ';').filter fun root =>
    0 < root.length ∧ root.length < pathBuffer).findSome? (findLocalModuleInBase w name)

/-- The roots of packages that are outside of all projects, behind those of the path list. -/
def globalRoots : List Str :=
  let some? (dir : Option Str) := dir.toList.filter fun dir => dir ≠ []
  some? w.pkgHome ++
    (some? w.home).map (fun home => (home ++ nm "/.nytrix/pkg").take (pathBuffer - 1)) ++
    some? w.systemPkgHome ++
    [nm "/usr/local/share/nytrix/pkg", nm "/usr/share/nytrix/pkg",
      nm "/opt/homebrew/share/nytrix/pkg", nm "/opt/nytrix/share/pkg"]

/-- A module in the packages outside of all projects. -/
def findModuleInGlobalPackageRoots (name : Str) : Option Str :=
  match w.pkgPath.bind (findModuleInPackagePathList w name) with
  | some path => some path
  | none => (globalRoots w).findSome? (findLocalModuleInBase w name)

end Search

section Upward

/-- Whether a byte separates directories. -/
def isSep (c : UInt8) : Bool := c = ch '/' || c = ch '\\'

/-- A directory without the separators at its end, of which the first byte stays. -/
def dropSeps : Str → Str
  | [] => []
  | c :: rest => c :: rest.rdropWhile isSep

/-- Where a walk goes on from a directory. -/
inductive Up where
  | stop
  | dot
  | root
  | parent (dir : Str)
  deriving DecidableEq

/-- Cuts a directory before its last slash. -/
def up (cur : Str) : Up :=
  match beforeLast (ch '/') (dropSeps cur) with
  | none => if dropSeps cur = nm "." then .stop else .dot
  | some [] => .root
  | some (c :: rest) => .parent (c :: rest)

/-- The directory in which a walk begins. -/
def startDir (base : Str) : Str := (if base = [] then nm "." else base).take (pathBuffer - 1)

/-- A walk upward from a directory that looks for a path; it goes on at the root as it is told. -/
def walk (look : Str → Option Str) (atRoot : Str ⊕ Option Str) : Machine Str (Option Str) where
  step cur :=
    if cur = [] then .inr none
    else
      match look cur with
      | some path => .inr (some path)
      | none =>
        match up cur with
        | .stop => .inr none
        | .dot => .inl (nm ".")
        | .root => atRoot
        | .parent dir => .inl dir

variable (w : Places) (name : Str)

/-- The walk for a module in the packages of projects; it looks at the root again and stops. -/
def localWalk : Machine Str (Option Str) :=
  walk (findModuleInProjectPackageRoots w name)
    (.inr (findModuleInProjectPackageRoots w name (nm "/")))

/-- A demo module in a project. -/
def findDemoIn (cur : Str) : Option Str := w.firstReadable (demoCandidates name cur)

/-- The walk for a demo module; it goes on at the root. -/
def demoWalk : Machine Str (Option Str) := walk (findDemoIn w name) (.inl (nm "/"))

/-- A module in a directory, or in the packages of projects around it; no result without fuel. -/
def findLocalUpward (fuel : Nat) (base : Str) : Option (Option Str) :=
  match findLocalModuleInBase w name base with
  | some path => some (some path)
  | none =>
    if nyModuleNameIsPathLike name then some none
    else (localWalk w name).outcome fuel (startDir base)

/-- A module in or around a directory, or in the packages outside of all projects. -/
def findLocalModule (fuel : Nat) (base : Str) : Option (Option Str) :=
  (findLocalUpward w name fuel base).map fun found =>
    match found with
    | some path => some path
    | none =>
      if nyModuleNameIsPathLike name then none else findModuleInGlobalPackageRoots w name

/-- A demo module in the projects around a directory. -/
def findProjectDemoModule (fuel : Nat) (base : Str) : Option (Option Str) :=
  if name = [] then some none else (demoWalk w name).outcome fuel (startDir base)

end Upward

section Resolving

variable (w : Places)

/-- A local module, or what comes next when there is none. -/
def localOr (next : Option (Option (Str × Bool))) : Option Str → Option (Option (Str × Bool))
  | some path => some (some (path, false))
  | none => next

/-- The local module that a search finds, or what comes next when it finds none. -/
def foundOr (found : Option (Option Str)) (next : Option (Option (Str × Bool))) :
    Option (Option (Str × Bool)) :=
  found.bind (localOr next)

/-- Whether a name is that of a demo module. -/
def isDemo (raw : Str) : Bool := raw = nm "std.demo" || (nm "std.demo.").isPrefixOf raw

/-- The file of a module, and whether it is of the standard library; no result without fuel. -/
def resolveModulePath (fuel : Nat) (raw base : Str) (preferLocal : Bool) :
    Option (Option (Str × Bool)) :=
  if isRemote raw then some ((w.remote raw).map fun path => (path, false))
  else
    let explicitLib := (nm "lib.").isPrefixOf raw
    let explicitPkg := (nm "std.").isPrefixOf raw || explicitLib
    let found := findLocalModule w raw fuel base
    foundOr (if preferLocal && isDemo raw then findProjectDemoModule w raw fuel base
      else some none) <|
    foundOr (if preferLocal && explicitLib then found else some none) <|
    foundOr (if preferLocal && !explicitPkg then found else some none) <|
      match w.stdPath raw with
      | some path => some (some (path, true))
      | none => if !preferLocal || explicitPkg then some none else foundOr found (some none)

end Resolving

section Parents

variable {c : UInt8} {s t cur dir : Str}

theorem beforeLast_eq_some (found : beforeLast c s = some t) : ∃ u, s = t ++ c :: u := by
  unfold beforeLast at found
  split at found
  · next member =>
    cases found
    have some : s.rdropWhile (· ≠ c) ≠ [] := fun none =>
      absurd (List.rdropWhile_eq_nil_iff.mp none c member) (by simp)
    have last : (s.rdropWhile (· ≠ c)).getLast some = c := by
      have stays := List.rdropWhile_last_not (· ≠ c) s some
      simpa using stays
    obtain ⟨u, whole⟩ := List.rdropWhile_prefix (· ≠ c) s
    refine ⟨u, ?_⟩
    conv_lhs => rw [← whole, ← List.dropLast_append_getLast some, last]
    rw [List.append_assoc]
    rfl
  · cases found

theorem beforeLast_eq_none (missed : beforeLast c s = none) : c ∉ s := by
  unfold beforeLast at missed
  split at missed
  · cases missed
  · assumption

theorem dropSeps_isPrefix (cur : Str) : dropSeps cur <+: cur := by
  cases cur with
  | nil => exact List.prefix_rfl
  | cons c rest => exact (List.prefix_cons_inj c).mpr (List.rdropWhile_prefix isSep rest)

theorem head?_dropSeps (cur : Str) : (dropSeps cur).head? = cur.head? := by
  cases cur <;> rfl

theorem up_parent (next : up cur = .parent dir) :
    dir ≠ [] ∧ dir.length < cur.length ∧ dir.head? = cur.head? ∧ dir <+: cur := by
  unfold up at next
  split at next
  · split at next <;> cases next
  · cases next
  · next c rest found =>
    cases next
    obtain ⟨u, whole⟩ := beforeLast_eq_some found
    have begins := dropSeps_isPrefix cur
    have le := begins.length_le
    rw [whole, List.length_append, List.length_cons] at le
    rw [whole] at begins
    rw [← head?_dropSeps cur, whole]
    refine ⟨nofun, ?_, rfl, (List.prefix_append ..).trans begins⟩
    rw [List.length_cons] at le ⊢
    omega

theorem up_root (next : up cur = .root) : cur.head? = some (ch '/') := by
  unfold up at next
  split at next
  · split at next <;> cases next
  · next found =>
    obtain ⟨u, whole⟩ := beforeLast_eq_some found
    rw [← head?_dropSeps cur, whole]
    rfl
  · cases next

theorem up_relative (next : up cur = .stop ∨ up cur = .dot) : cur.head? ≠ some (ch '/') := by
  intro absolute
  have missed : beforeLast (ch '/') (dropSeps cur) = none := by
    unfold up at next
    split at next
    · assumption
    · rcases next with next | next <;> cases next
    · rcases next with next | next <;> cases next
  rw [← head?_dropSeps cur] at absolute
  exact beforeLast_eq_none missed (List.mem_of_head? absolute)

end Parents

section Directories

/--
The directories in the order in which they are wanted.

These are a directory and its parents, and behind them the current directory if it is relative and
the root if it is absolute.
-/
def directories (cur : Str) : List Str :=
  cur ::
    match _next : up cur with
    | .stop => []
    | .dot => [nm "."]
    | .root => [nm "/"]
    | .parent dir => directories dir
termination_by cur.length
decreasing_by exact (up_parent _next).2.1

/-- A path lies in the first of several directories that has a candidate which is readable. -/
def Nearest (w : Places) (candidates : Str → List Str) (dirs : List Str) (path : Str) : Prop :=
  ∃ earlier dir later, dirs = earlier ++ dir :: later ∧
    (∀ e ∈ earlier, ∀ c ∈ candidates e, w.readable c = false) ∧
    path ∈ candidates dir ∧ w.readable path = true ∧ dir ++ nm "/" <+: path

variable {w : Places} {name cur : Str} {look : Str → Option Str} {atRoot : Str ⊕ Option Str}

theorem directories_stop (next : up cur = .stop) : directories cur = [cur] := by
  rw [directories]
  split <;> simp_all

theorem directories_dot (next : up cur = .dot) : directories cur = [cur, nm "."] := by
  rw [directories]
  split <;> simp_all

theorem directories_root (next : up cur = .root) : directories cur = [cur, nm "/"] := by
  rw [directories]
  split <;> simp_all

theorem directories_parent {dir : Str} (next : up cur = .parent dir) :
    directories cur = cur :: directories dir := by
  rw [directories]
  split <;> simp_all

theorem walk_found {path : Str} (some : cur ≠ []) (here : look cur = .some path) :
    (walk look atRoot).step cur = .inr (.some path) := by
  simp only [walk, if_neg some, here]

theorem walk_missed (some : cur ≠ []) (here : look cur = none) :
    (walk look atRoot).step cur =
      match up cur with
      | .stop => .inr none
      | .dot => .inl (nm ".")
      | .root => atRoot
      | .parent dir => .inl dir := by
  simp only [walk, if_neg some, here]

theorem walk_dot : Settles ((walk look atRoot).outcome · (nm ".")) (look (nm ".")) := by
  apply Machine.settles_stop
  cases here : look (nm ".") with
  | some path => exact walk_found (by decide) here
  | none => rw [walk_missed (by decide) here, show up (nm ".") = .stop by decide]

theorem walk_settles (some : cur ≠ [])
    (root : cur.head? = .some (ch '/') → (directories cur).findSome? look = look (nm "/") →
      atRoot = .inr (look (nm "/")) ∨ (atRoot = .inl (nm "/") ∧ look (nm "/") ≠ none)) :
    Settles ((walk look atRoot).outcome · cur) ((directories cur).findSome? look) := by
  induction size : cur.length using Nat.strong_induction_on generalizing cur with
  | _ _ ih =>
    cases here : look cur with
    | some path =>
      rw [directories, List.findSome?_cons, here]
      exact Machine.settles_stop (walk_found some here)
    | none =>
      have step : (walk look atRoot).step cur = _ := walk_missed some here
      cases next : up cur with
      | stop =>
        rw [next] at step
        rw [directories_stop next, List.findSome?_singleton, here]
        exact Machine.settles_stop step
      | dot =>
        rw [next] at step
        rw [directories_dot next, List.findSome?_cons, here, List.findSome?_singleton]
        exact Machine.settles_move step walk_dot
      | root =>
        rw [next] at step
        rw [directories_root next, List.findSome?_cons, here, List.findSome?_singleton] at root ⊢
        rcases root (up_root next) rfl with stops | ⟨goes, found⟩
        · exact Machine.settles_stop (step.trans stops)
        · obtain ⟨path, there⟩ := Option.ne_none_iff_exists'.mp found
          rw [there]
          exact Machine.settles_move (step.trans goes)
            (Machine.settles_stop (walk_found (by decide) there))
      | parent dir =>
        rw [next] at step
        obtain ⟨someDir, shorter, head, -⟩ := up_parent next
        rw [directories_parent next, List.findSome?_cons, here] at root ⊢
        rw [← head] at root
        exact Machine.settles_move step (ih dir.length (size ▸ shorter) someDir root rfl)

theorem walk_endless (absolute : cur.head? = some (ch '/'))
    (nothing : (directories cur).findSome? look = none) (fuel : Nat) :
    (walk look (.inl (nm "/"))).outcome fuel cur = none := by
  induction fuel generalizing cur with
  | zero => rfl
  | succ fuel ih =>
    have some : cur ≠ [] := by
      rintro rfl
      cases absolute
    have here : look cur = none := by
      rw [directories, List.findSome?_cons] at nothing
      cases here : look cur with
      | some path =>
        rw [here] at nothing
        cases nothing
      | none => rfl
    have step : (walk look (.inl (nm "/"))).step cur = _ := walk_missed some here
    cases next : up cur with
    | stop => exact absurd absolute (up_relative (.inl next))
    | dot => exact absurd absolute (up_relative (.inr next))
    | root =>
      rw [next] at step
      rw [directories_root next, List.findSome?_cons, here, List.findSome?_singleton] at nothing
      rw [Machine.outcome, step]
      have again : look (nm "/") = none := nothing
      refine ih rfl ?_
      rw [directories_root (show up (nm "/") = .root by decide)]
      simp [again]
    | parent dir =>
      rw [next] at step
      rw [directories_parent next, List.findSome?_cons, here] at nothing
      rw [Machine.outcome, step]
      exact ih ((up_parent next).2.2.1.trans absolute) nothing

theorem nearest_of_findSome {candidates : Str → List Str} {dirs : List Str} {path : Str}
    (below : ∀ dir ∈ dirs, ∀ c ∈ candidates dir, dir ++ nm "/" <+: c)
    (found : dirs.findSome? (fun dir => w.firstReadable (candidates dir)) = some path) :
    Nearest w candidates dirs path := by
  obtain ⟨earlier, dir, later, rfl, here, missed⟩ := List.findSome?_eq_some_iff.mp found
  have among := List.mem_of_find?_eq_some here
  refine ⟨earlier, dir, later, rfl, fun e member c listed => ?_, among,
    List.find?_some here, below dir (by simp) path among⟩
  have none := List.find?_eq_none.mp (missed e member) c listed
  simpa using none

theorem findSome_eq_none {candidates : Str → List Str} {dirs : List Str} :
    dirs.findSome? (fun dir => w.firstReadable (candidates dir)) = none ↔
      ∀ dir ∈ dirs, ∀ c ∈ candidates dir, w.readable c = false := by
  simp [List.findSome?_eq_none_iff, Places.firstReadable]

theorem mem_directories (some : cur ≠ []) {dir : Str} (wanted : dir ∈ directories cur) :
    dir ≠ [] ∧ (dir <+: cur ∨ dir = nm "." ∨ dir = nm "/") := by
  induction size : cur.length using Nat.strong_induction_on generalizing cur with
  | _ _ ih =>
    have here : cur ≠ [] ∧ (cur <+: cur ∨ cur = nm "." ∨ cur = nm "/") :=
      ⟨some, .inl List.prefix_rfl⟩
    cases next : up cur with
    | stop =>
      rw [directories_stop next, List.mem_singleton] at wanted
      exact wanted ▸ here
    | dot =>
      rw [directories_dot next, List.mem_pair] at wanted
      rcases wanted with rfl | rfl
      · exact here
      · exact ⟨by decide, .inr (.inl rfl)⟩
    | root =>
      rw [directories_root next, List.mem_pair] at wanted
      rcases wanted with rfl | rfl
      · exact here
      · exact ⟨by decide, .inr (.inr rfl)⟩
    | parent above =>
      obtain ⟨someAbove, shorter, -, begins⟩ := up_parent next
      rw [directories_parent next, List.mem_cons] at wanted
      rcases wanted with rfl | wanted
      · exact here
      · obtain ⟨named, place⟩ := ih above.length (size ▸ shorter) someAbove wanted rfl
        exact ⟨named, place.imp_left fun lower => lower.trans begins⟩

end Directories

section Places

variable {base name cur dir : Str}

theorem isPrefix_joined (base name : Str) : base ++ nm "/" <+: joined base name :=
  ⟨name, by rw [joined, List.append_assoc]; rfl⟩

theorem isPrefix_stem (base rest : Str) :
    base ++ nm "/" <+:
      if isNyFile (joined base rest) then
        (joined base rest).take ((joined base rest).length - 3)
      else joined base rest := by
  split
  · next isFile =>
    rw [isNyFile, Bool.and_eq_true, List.isSuffixOf_iff_suffix] at isFile
    have behind : 3 ≤ rest.length := by
      by_contra short
      -- Otherwise the ending would begin before the name, and so have the slash in it.
      have whole : ch '/' :: rest <:+ nm ".ny" :=
        List.suffix_of_suffix_length_le ⟨base, rfl⟩ isFile.2 (by
          rw [List.length_cons, show (nm ".ny").length = 3 by decide]
          omega)
      exact absurd (whole.subset List.mem_cons_self) (by decide)
    rw [List.prefix_take_iff]
    refine ⟨isPrefix_joined base rest, ?_⟩
    rw [joined, List.length_append, List.length_append, List.length_cons,
      show (nm "/").length = 1 by decide]
    omega
  · exact isPrefix_joined base rest

theorem isPrefix_localCandidates (some : base ≠ []) {c : Str}
    (listed : c ∈ localCandidates name base) : base ++ nm "/" <+: c := by
  unfold localCandidates at listed
  simp only [if_neg some] at listed
  split at listed
  · cases listed
  · simp only [List.mem_cons] at listed
    rcases listed with rfl | rfl | sibling
    · exact (isPrefix_stem ..).trans (List.prefix_append ..)
    · exact (isPrefix_joined ..).trans (List.prefix_append ..)
    · split at sibling
      · split at sibling
        · cases sibling
        · have among := (List.mem_filter.mp sibling).1
          rw [List.mem_pair] at among
          rcases among with rfl | rfl <;> exact isPrefix_joined ..
      · cases sibling

theorem isPrefix_packageCandidates (some : cur ≠ []) {c : Str}
    (listed : c ∈ packageCandidates name cur) : cur ++ nm "/" <+: c := by
  obtain ⟨root, among, inside⟩ := List.mem_flatMap.mp listed
  obtain ⟨folder, -, joins⟩ := List.mem_filterMap.mp among
  simp only [if_neg some] at joins
  split at joins
  · cases joins
    have below := isPrefix_localCandidates (by simp [joined]) inside
    exact (isPrefix_joined cur folder).trans ((List.prefix_append ..).trans below)
  · cases joins

theorem isPrefix_demoCandidates {c : Str} (listed : c ∈ demoCandidates name cur) :
    cur ++ nm "/" <+: c := by
  have among := (List.mem_filter.mp listed).1
  rw [List.mem_pair] at among
  have lib := (isPrefix_joined cur (nm "lib")).trans (List.prefix_append _ (nm "/"))
  rcases among with rfl | rfl <;> exact lib.trans (isPrefix_joined ..)

end Places

section Resolved

variable {w : Places} {raw base : Str}

/-- The paths that the search for a local module tries in a directory. -/
def upwardCandidates (raw base dir : Str) : List Str :=
  (if dir = startDir base then localCandidates raw dir else []) ++ packageCandidates raw dir

/-- A search ends, and its walks find the nearest candidate. -/
structure Resolves (w : Places) (raw base : Str) : Prop where
  ends : ∀ preferLocal, ∃ result, Settles (resolveModulePath w · raw base preferLocal) result
  nearestLocal : ∀ path, Settles (findLocalUpward w raw · base) (some path) →
    Nearest w (upwardCandidates raw base) (directories (startDir base)) path
  nearestDemo : ∀ path, Settles (findProjectDemoModule w raw · base) (some path) →
    Nearest w (demoCandidates raw) (directories (startDir base)) path

/-- A demo module is looked for from an absolute directory, and there is no candidate of it. -/
structure Endless (w : Places) (raw base : Str) : Prop where
  demo : isDemo raw = true
  absolute : base.head? = some (ch '/')
  missing : ∀ dir ∈ directories base, ∀ c ∈ demoCandidates raw dir, w.readable c = false

theorem startDir_ne_nil (base : Str) : startDir base ≠ [] := by
  cases base with
  | nil => decide
  | cons c rest => simp [startDir, pathBuffer]

theorem startDir_eq (some : base ≠ []) (short : base.length < pathBuffer) :
    startDir base = base := by
  rw [startDir, if_neg some, List.take_of_length_le (by omega)]

theorem foundOr_settles {found : Nat → Option (Option Str)}
    {next : Nat → Option (Option (Str × Bool))} (first : ∃ path, Settles found path)
    (second : ∃ result, Settles next result) :
    ∃ result, Settles (fun fuel => foundOr (found fuel) (next fuel)) result := by
  obtain ⟨path, first⟩ := first
  obtain ⟨result, second⟩ := second
  unfold foundOr
  cases path with
  | none => exact ⟨result, first.bind second⟩
  | some path => exact ⟨some (path, false), first.bind (.of_eq fun _ => rfl)⟩

theorem localWalk_settles (w : Places) (raw : Str) {cur : Str} (some : cur ≠ []) :
    Settles ((localWalk w raw).outcome · cur)
      ((directories cur).findSome? (findModuleInProjectPackageRoots w raw)) :=
  walk_settles some fun _ _ => .inl rfl

theorem findLocalUpward_settles (w : Places) (raw base : Str) :
    Settles (findLocalUpward w raw · base)
      (match findLocalModuleInBase w raw base with
      | some path => some path
      | none => if nyModuleNameIsPathLike raw then none else
        (directories (startDir base)).findSome? (findModuleInProjectPackageRoots w raw)) := by
  unfold findLocalUpward
  cases findLocalModuleInBase w raw base with
  | some path => exact .of_eq fun _ => rfl
  | none =>
    by_cases pathLike : nyModuleNameIsPathLike raw = true
    · simp only [if_pos pathLike]
      exact .of_eq fun _ => rfl
    · simp only [if_neg pathLike]
      exact localWalk_settles w raw (startDir_ne_nil base)

theorem localCandidates_startDir (short : base.length < pathBuffer) :
    localCandidates raw (startDir base) = localCandidates raw base := by
  by_cases some : base = []
  · subst some
    rfl
  · rw [startDir_eq some short]

theorem firstReadable_upwardCandidates (short : base.length < pathBuffer)
    (missed : findLocalModuleInBase w raw base = none) (dir : Str) :
    w.firstReadable (upwardCandidates raw base dir) =
      findModuleInProjectPackageRoots w raw dir := by
  unfold upwardCandidates Places.firstReadable
  rw [List.find?_append]
  split
  · next same =>
    subst same
    have none : (localCandidates raw (startDir base)).find? w.readable = none := by
      rw [localCandidates_startDir short]
      exact missed
    rw [none, Option.none_or]
    rfl
  · rfl

theorem nearest_findLocalUpward {path : Str} (short : base.length < pathBuffer)
    (found : Settles (findLocalUpward w raw · base) (some path)) :
    Nearest w (upwardCandidates raw base) (directories (startDir base)) path := by
  have below : ∀ dir ∈ directories (startDir base), ∀ c ∈ upwardCandidates raw base dir,
      dir ++ nm "/" <+: c := by
    intro dir wanted c listed
    have some := (mem_directories (startDir_ne_nil base) wanted).1
    rcases List.mem_append.mp listed with direct | package
    · split at direct
      · exact isPrefix_localCandidates some direct
      · cases direct
    · exact isPrefix_packageCandidates some package
  apply nearest_of_findSome below
  have result := found.unique (findLocalUpward_settles w raw base)
  cases direct : findLocalModuleInBase w raw base with
  | some other =>
    rw [direct] at result
    have first : w.firstReadable (upwardCandidates raw base (startDir base)) = some other := by
      unfold upwardCandidates Places.firstReadable
      rw [if_pos rfl, List.find?_append, localCandidates_startDir short]
      exact congrArg (Option.or · _) direct
    rw [directories, List.findSome?_cons, first, result]
  | none =>
    rw [direct] at result
    split at result
    · next impossible => cases impossible
    · split at result
      · cases result
      · rw [result]
        exact congrArg (List.findSome? · _)
          (funext fun dir => firstReadable_upwardCandidates short direct dir)

theorem findProjectDemoModule_settles (some : raw ≠ [])
    (ends : (startDir base).head? = .some (ch '/') →
      (directories (startDir base)).findSome? (findDemoIn w raw) ≠ none) :
    Settles (findProjectDemoModule w raw · base)
      ((directories (startDir base)).findSome? (findDemoIn w raw)) := by
  unfold findProjectDemoModule
  simp only [if_neg some]
  exact walk_settles (startDir_ne_nil base) fun absolute same => .inr ⟨rfl, same ▸ ends absolute⟩

theorem findProjectDemoModule_endless (endless : Endless w raw base)
    (short : base.length < pathBuffer) (fuel : Nat) :
    findProjectDemoModule w raw fuel base = none := by
  have someRaw : raw ≠ [] := by
    rintro rfl
    exact absurd endless.demo (by decide)
  have some : base ≠ [] := by
    rintro rfl
    cases endless.absolute
  rw [findProjectDemoModule, if_neg someRaw, startDir_eq some short]
  exact walk_endless endless.absolute (findSome_eq_none.mpr endless.missing) fuel

theorem not_resolves (endless : Endless w raw base) (short : base.length < pathBuffer)
    (here : isRemote raw = false) : ¬Resolves w raw base := by
  intro right
  obtain ⟨result, least, settled⟩ := right.ends true
  have none := settled least (Nat.le_refl least)
  unfold resolveModulePath at none
  simp only [here, Bool.false_eq_true, if_false, endless.demo, Bool.and_self, if_true,
    findProjectDemoModule_endless endless short least, foundOr, Option.bind_none] at none
  cases none

theorem endless_of_missing (demo : isDemo raw = true) (short : base.length < pathBuffer)
    (absolute : (startDir base).head? = some (ch '/'))
    (missing : (directories (startDir base)).findSome? (findDemoIn w raw) = none) :
    Endless w raw base := by
  have some : base ≠ [] := by
    rintro rfl
    exact absurd absolute (by decide)
  rw [startDir_eq some short] at absolute missing
  exact ⟨demo, absolute, findSome_eq_none.mp missing⟩

theorem nearest_findProjectDemoModule {path : Str}
    (found : Settles (findProjectDemoModule w raw · base) (some path)) :
    Nearest w (demoCandidates raw) (directories (startDir base)) path := by
  have someRaw : raw ≠ [] := by
    rintro rfl
    obtain ⟨least, settled⟩ := found
    cases settled least (Nat.le_refl least)
  apply nearest_of_findSome fun _ _ _ listed => isPrefix_demoCandidates listed
  by_cases ends : (startDir base).head? = some (ch '/') →
      (directories (startDir base)).findSome? (findDemoIn w raw) ≠ none
  · exact (findProjectDemoModule_settles someRaw ends).unique found
  · -- A walk that goes on at the root has no result.
    obtain ⟨absolute, missing⟩ := not_forall.mp ends
    obtain ⟨least, settled⟩ := found
    have none : findProjectDemoModule w raw least base = _ := settled least (Nat.le_refl least)
    rw [findProjectDemoModule, if_neg someRaw] at none
    rw [demoWalk, walk_endless absolute (not_not.mp missing)] at none
    cases none

theorem resolveModulePath_settles (short : base.length < pathBuffer)
    (here : isRemote raw = false) (ends : ¬Endless w raw base) (preferLocal : Bool) :
    ∃ result, Settles (resolveModulePath w · raw base preferLocal) result := by
  have nothing : ∃ path, Settles (fun _ => some (none : Option Str)) path :=
    ⟨none, .of_eq fun _ => rfl⟩
  have found : ∃ path, Settles (findLocalModule w raw · base) path :=
    ⟨_, (findLocalUpward_settles w raw base).map _⟩
  unfold resolveModulePath
  simp only [here, Bool.false_eq_true, if_false]
  refine foundOr_settles ?_ (foundOr_settles ?_ (foundOr_settles ?_ ?_))
  · by_cases demo : (preferLocal && isDemo raw) = true
    · simp only [if_pos demo]
      have isDemoRaw := (Bool.and_eq_true_iff.mp demo).2
      have someRaw : raw ≠ [] := by
        rintro rfl
        exact absurd isDemoRaw (by decide)
      exact ⟨_, findProjectDemoModule_settles someRaw fun absolute missing =>
        ends (endless_of_missing isDemoRaw short absolute missing)⟩
    · simp only [if_neg demo]
      exact nothing
  · split
    · exact found
    · exact nothing
  · split
    · exact found
    · exact nothing
  · cases w.stdPath raw with
    | some path => exact ⟨some (path, true), .of_eq fun _ => rfl⟩
    | none =>
      dsimp only
      split
      · exact ⟨none, .of_eq fun _ => rfl⟩
      · exact foundOr_settles found ⟨none, .of_eq fun _ => rfl⟩

/-- A search ends at the nearest candidate unless it goes on at the root without end. -/
theorem resolves_iff (w : Places) (raw base : Str) (short : base.length < pathBuffer)
    (here : isRemote raw = false) : Resolves w raw base ↔ ¬Endless w raw base :=
  ⟨fun right endless => not_resolves endless short here right, fun ends =>
    ⟨resolveModulePath_settles short here ends, fun _ => nearest_findLocalUpward short,
      fun _ => nearest_findProjectDemoModule⟩⟩

/-- A project with one file. -/
def onePlace (file : Str) : Places :=
  ⟨fun path => path = file, none, none, none, none, fun _ => none, fun _ => none⟩

/-- A demo module is found in the directory above. -/
theorem resolves_above :
    Resolves (onePlace (nm "/p/lib/x.ny")) (nm "std.demo.x") (nm "/p/q") := by
  refine (resolves_iff _ _ _ (by decide) (by decide)).mpr fun endless => ?_
  have wanted : nm "/p" ∈ directories (nm "/p/q") := by
    rw [directories_parent (show up (nm "/p/q") = .parent (nm "/p") by decide), directories]
    simp
  exact absurd (endless.missing _ wanted (nm "/p/lib/x.ny") (by decide)) (by decide)

/-- A demo module that no file has is looked for in the root without end. -/
theorem resolves_fails :
    ¬∀ w raw base, base.length < pathBuffer → isRemote raw = false → Resolves w raw base := by
  intro all
  let bare : Places := { onePlace [] with readable := fun _ => false }
  exact not_resolves ⟨by decide, by decide, fun _ _ _ _ => rfl⟩ (by decide) (by decide)
    (all bare (nm "std.demo") (nm "/") (by decide) (by decide))

end Resolved

end Nytrix.Loader
