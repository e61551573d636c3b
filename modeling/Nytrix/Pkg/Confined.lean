import Nytrix.Pkg.Touched

/-! When the paths that the package tool touches stay inside their roots. -/

namespace Nytrix.Pkg

open Lib
open Lib.Paths

section Confinement

/-- Whether the path that is touched is strictly inside its root. -/
def Inside (touch : Touch) : Prop := Below (normal touch.root) (normal touch.path)

/-- Being inside can be evaluated. -/
instance (touch : Touch) : Decidable (Inside touch) := inferInstanceAs (Decidable (Below _ _))

variable {σ : Type} (host : Host σ)

/-- Whether a run of the tool removes and installs strictly inside its roots alone. -/
def StaysInside (argv : List Text) (s : σ) : Prop :=
  ∀ touch ∈ (nyPkgMain host argv s).2.2, Inside touch

/-- The directory that a root stands for. -/
def rootDir (root : Text) : Text := if root = [] then here else root

/-- What a buffer keeps of a name behind a root. -/
def keptName (root name : Text) : Text :=
  let separator := if endsWithSeparator (rootDir root) then 0 else 1
  name.take (4095 - ((rootDir root).length + separator))

/--
Whether the name of a touch leads strictly inside its root.

The name of a package has to stay a component, and one of those that go down.
That of a repository may also be a way that returns.
-/
def Fits (touch : Touch) : Prop :=
  let kept := keptName touch.root touch.name
  match touch.kind with
  | .package => touch.root.getLast? ≠ some '\\' ∧ kept ≠ [] ∧ kept ≠ here ∧ kept ≠ parent
  | .repository => Paths.Returns (normal touch.root) (origin.walk (components kept))

end Confinement

section Joining

theorem cut_length (text : Text) : (cut text).length ≤ 4095 := List.length_take_le _ _

theorem nyPkgJoin_length (a b : Text) : (nyPkgJoin a b).length ≤ 4095 := by
  unfold nyPkgJoin nyJoinPath
  repeat' split
  all_goals exact cut_length _

theorem rootDir_ne_nil (root : Text) : rootDir root ≠ [] := by
  unfold rootDir
  split
  · decide
  · assumption

theorem normal_rootDir (root : Text) : normal (rootDir root) = normal root := by
  unfold rootDir
  split
  · next empty =>
    subst empty
    rfl
  · rfl

theorem rootDir_length {root : Text} (fits : root.length ≤ 4095) :
    (rootDir root).length ≤ 4095 := by
  unfold rootDir
  split
  · decide
  · exact fits

theorem nyPkgJoin_eq (root name : Text) :
    nyPkgJoin root name =
      if endsWithSeparator (rootDir root) then cut (rootDir root ++ name)
      else cut (rootDir root ++ '/' :: name) := by
  have same : nyPkgJoin root name = nyJoinPath (rootDir root) name := rfl
  rw [same, nyJoinPath, if_neg (rootDir_ne_nil root)]

theorem cut_append {front back : Text} (fits : front.length ≤ 4095) :
    cut (front ++ back) = front ++ back.take (4095 - front.length) := by
  rw [cut, List.take_append, List.take_of_length_le fits]

theorem normal_join {root : Text} (fits : root.length ≤ 4095)
    (plain : root.getLast? ≠ some '\\') (name : Text) :
    normal (nyPkgJoin root name) = (normal root).walk (components (keptName root name)) := by
  have within := rootDir_length fits
  rw [nyPkgJoin_eq, keptName, ← normal_rootDir root]
  by_cases ends : endsWithSeparator (rootDir root) = true
  · -- The separator is there already.
    rw [if_pos ends, if_pos ends, cut_append within, Nat.add_zero]
    have last : (rootDir root).getLast? = some '/' := by
      have other : (rootDir root).getLast? ≠ some '\\' := by
        unfold rootDir
        split
        · decide
        · exact plain
      simpa [endsWithSeparator, other] using ends
    obtain ⟨front, whole⟩ := List.getLast?_eq_some_iff.mp last
    rw [whole, List.append_assoc]
    exact normal_behind front _
  · rw [if_neg ends, if_neg ends]
    by_cases full : (rootDir root).length = 4095
    · -- Nothing fits behind the root.
      rw [cut_append within, full]
      simp [components, Place.walk, Place.step]
    · have room : 4095 - (rootDir root).length = 4095 - ((rootDir root).length + 1) + 1 := by omega
      rw [cut_append within, room, List.take_succ_cons]
      exact normal_separated (rootDir_ne_nil root) _

end Joining

section Exactness

theorem single_of_nameOk {name : Text} (named : nyPkgNameOk name = true) : '/' ∉ name := by
  intro member
  simp only [nyPkgNameOk, Bool.and_eq_true, List.all_eq_true] at named
  exact absurd (named.2 '/' member) (by decide)

theorem single_kept {root name : Text} (named : nyPkgNameOk name = true) :
    '/' ∉ keptName root name :=
  fun member => single_of_nameOk named (List.mem_of_mem_take member)

theorem installRoot_length {σ : Type} (host : Host σ) (opts : Opts) (project : Text) :
    (nyPkgInstallRoot host opts project).length ≤ 4095 := by
  unfold nyPkgInstallRoot nyPkgSystemRoot nyPkgGlobalRoot
  dsimp only
  repeat' split
  all_goals first | exact cut_length _ | exact nyPkgJoin_length _ _

theorem not_below_backslash {root name : Text} (fits : root.length ≤ 4095)
    (ends : root.getLast? = some '\\') (single : '/' ∉ keptName root name) :
    ¬Below (normal root) (normal (nyPkgJoin root name)) := by
  obtain ⟨front, rfl⟩ := List.getLast?_eq_some_iff.mp ends
  have whole : rootDir (front ++ ['\\']) = front ++ ['\\'] := if_neg (by simp)
  have joined : endsWithSeparator (front ++ ['\\']) = true := by simp [endsWithSeparator]
  rw [nyPkgJoin_eq, whole, if_pos joined, cut_append fits, List.append_assoc,
    List.singleton_append]
  refine not_below_lengthened front (by decide) ?_
  simpa only [keptName, whole, if_pos joined, Nat.add_zero] using single

theorem inside_package_iff {touch : Touch} (kind : touch.kind = .package)
    (path : touch.path = nyPkgJoin touch.root touch.name) (fits : touch.root.length ≤ 4095)
    (named : nyPkgNameOk touch.name = true) : Inside touch ↔ Fits touch := by
  have single : '/' ∉ keptName touch.root touch.name := single_kept named
  simp only [Inside, Fits, kind, path]
  by_cases ends : touch.root.getLast? = some '\\'
  · -- Behind a backslash there is no way down.
    simp only [ends, ne_eq, not_true_eq_false, false_and, iff_false]
    exact not_below_backslash fits ends single
  · rw [normal_join fits ends, components_of_single single, Place.walk_eq_followed,
      below_followed_iff]
    simp only [ne_eq, ends, not_false_eq_true, true_and]
    exact returns_single_iff _ _

theorem take_nil_of_backslash {front back : Text} {n : ℕ} (plain : '\\' ∉ back)
    (ends : (front ++ back.take n).getLast? = some '\\') : back.take n = [] := by
  by_contra more
  have whole := List.getLast?_eq_some_getLast more
  rw [List.getLast?_append, whole, Option.some_or, Option.some.injEq] at ends
  exact plain (List.mem_of_mem_take (ends ▸ List.getLast_mem more))

theorem reposRoot_full {σ : Type} (host : Host σ)
    (ends : (nyPkgReposRoot host).getLast? = some '\\') : (nyPkgReposRoot host).length = 4095 := by
  have within : (rootDir (nyPkgGlobalRoot host)).length ≤ 4095 := by
    apply rootDir_length
    unfold nyPkgGlobalRoot
    split <;> exact cut_length _
  -- What is appended has no backslash, so that nothing of it has found room.
  have full (back : Text) (plain : '\\' ∉ back) (some_ : back ≠ [])
      (whole : nyPkgReposRoot host = cut (rootDir (nyPkgGlobalRoot host) ++ back)) :
      (nyPkgReposRoot host).length = 4095 := by
    rw [whole, cut_append within] at ends ⊢
    have none_ := take_nil_of_backslash plain ends
    rw [none_, List.append_nil]
    rcases List.take_eq_nil_iff.mp none_ with room | empty
    · omega
    · exact absurd empty some_
  have joined := nyPkgJoin_eq (nyPkgGlobalRoot host) "repos".toList
  split at joined
  · exact full "repos".toList (by decide) (by decide) joined
  · exact full "/repos".toList (by decide) (by decide) joined

theorem join_full {root : Text} (full : root.length = 4095) (name : Text) :
    keptName root name = [] ∧ nyPkgJoin root name = root := by
  have whole : rootDir root = root := if_neg (by rintro rfl; exact absurd full (by decide))
  constructor
  · simp [keptName, whole, full]
  · rw [nyPkgJoin_eq, whole]
    split <;> rw [cut_append full.le, full] <;> simp

theorem inside_repository_iff {σ : Type} (host : Host σ) {touch : Touch}
    (kind : touch.kind = .repository) (path : touch.path = nyPkgJoin touch.root touch.name)
    (root : touch.root = nyPkgReposRoot host) : Inside touch ↔ Fits touch := by
  have fits : touch.root.length ≤ 4095 := root ▸ nyPkgJoin_length _ _
  simp only [Inside, Fits, kind, path]
  by_cases ends : touch.root.getLast? = some '\\'
  · -- The buffer is full, so that nothing is kept of the name.
    have full : touch.root.length = 4095 := by
      rw [root] at ends ⊢
      exact reposRoot_full host ends
    obtain ⟨kept, same⟩ := join_full full touch.name
    have nowhere : origin.walk (components []) = origin := rfl
    rw [same, kept, nowhere]
    simp [Below, Paths.Returns, origin]
  · rw [normal_join fits ends, Place.walk_eq_followed, below_followed_iff]

end Exactness

section Runs

variable {σ : Type} (host : Host σ)

/--
A run stays inside its roots exactly when every name it touches a path for fits.

This holds whatever the machine is like: for every manifest, registry and command line.
-/
theorem staysInside_iff (argv : List Text) (s : σ) :
    StaysInside host argv s ↔ ∀ touch ∈ (nyPkgMain host argv s).2.2, Fits touch := by
  have exactly : ∀ touch ∈ (nyPkgMain host argv s).2.2, (Inside touch ↔ Fits touch) := by
    intro touch member
    have accurate := (always_main host argv).each s touch member
    cases kind : touch.kind with
    | package =>
      obtain ⟨named, opts, project, root⟩ := accurate.package kind
      exact inside_package_iff kind accurate.path
        (root ▸ installRoot_length host opts project) named
    | repository =>
      exact inside_repository_iff host kind accurate.path (accurate.repository kind).1
  exact forall₂_congr exactly

/-- A machine where every path is there, no file can be read, and every program succeeds. -/
def bareHost : Host Unit where
  present _ _ := true
  isDir _ _ := true
  file _ _ := none
  write _ _ s := (true, s)
  makeDir _ s := s
  remove _ s := s
  spawn _ s := (0, s)
  capture _ s := (none, s)
  entries _ _ := []
  getenv _ := none
  tempDir := "/tmp".toList
  pid := "1".toList

/-- Uninstalling the parent component removes the directory of the project. -/
theorem not_staysInside_parent :
    ¬StaysInside bareHost ["ny".toList, "uninstall".toList, "..".toList] () := by
  let touch : Touch :=
    ⟨.package, .removes, "./ny_modules".toList, "..".toList, "./ny_modules/..".toList⟩
  have removed : touch ∈
      (nyPkgMain bareHost ["ny".toList, "uninstall".toList, "..".toList] ()).2.2 := by decide
  have outside : ¬Inside touch := by decide
  intro inside
  exact outside (inside touch removed)

end Runs

end Nytrix.Pkg
