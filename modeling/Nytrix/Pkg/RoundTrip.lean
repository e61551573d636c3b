import Nytrix.Pkg.Lines
import Nytrix.Pkg.Commands

/-! When a manifest comes back as it was written, also after edits of its dependencies. -/

-- What holds of all members of a list is decided member by member.
attribute [local instance (2000)] List.decidableBAll

namespace Nytrix.Pkg

open Lib.Paths (Text)

section Contents

/-- A manifest that may be written: a name, and dependencies as splitting gives them. -/
structure Manifest.WellFormed (m : Manifest) : Prop where
  named : m.name ≠ []
  names : ∀ d ∈ m.items, nyPkgNameOk d.name = true
  distinct : (m.items.map Dep.name).Nodup
  split : ∀ d ∈ m.items, ∃ raw fallback, raw ≠ [] ∧
    nyPkgSplitSourceRef raw fallback = (d.source, d.ref)

/-- Whether two manifests agree in all but the place where they are. -/
def Manifest.Agrees (m m' : Manifest) : Prop := { m' with path := m.path, root := m.root } = m

/-- The texts that are written as values. -/
def Manifest.texts (m : Manifest) : List Text :=
  [m.name, m.version, m.description, m.author, m.license, m.repository] ++
    m.items.flatMap fun d => d.source :: d.ref.toList

/-- Whether the fields lead a reader astray: one looks like a key, and a later one has a brace. -/
def Manifest.Astray (m : Manifest) : Prop :=
  ∃ v w, [v, w].Sublist ((headerPairs m).map Prod.snd) ∧
    looksLike "dependencies".toList v = true ∧ '\x7b' ∈ w

/-- Whether a manifest comes back as it is written. -/
structure Manifest.Kept (m : Manifest) : Prop where
  lines : ∀ v ∈ m.texts, '\n' ∉ v
  sources : ∀ d ∈ m.items, d.source ≠ []
  found : m.items = [] ∨ ¬m.Astray

theorem isSplit_of_split {raw : Text} {fallback : Option Text} {d : Dep}
    (split : nyPkgSplitSourceRef raw fallback = (d.source, d.ref)) : d.IsSplit := by
  unfold nyPkgSplitSourceRef at split
  dsimp only at split
  split at split
  · next behind =>
    obtain ⟨source, ref⟩ := Prod.mk.inj split
    refine ⟨?_, ?_⟩
    · -- Nothing before the first hash is a hash.
      have none_ : d.source.dropWhile (fun c => c ≠ '#') = [] := by
        rw [List.dropWhile_eq_nil_iff, ← source]
        exact fun c among => List.mem_takeWhile_imp (p := fun c => decide (c ≠ '#')) among
      rw [none_]
      rfl
    · rw [← ref]
      exact fun same => behind (Option.some.inj same)
  · next behind =>
    obtain ⟨source, ref⟩ := Prod.mk.inj split
    refine ⟨source ▸ not_not.mp behind, ?_⟩
    rw [← ref]
    intro same
    have full := Option.mem_filter_iff.mp same
    simp at full

theorem Manifest.WellFormed.each {m : Manifest} (wf : m.WellFormed) :
    ∀ d ∈ m.items, nyPkgNameOk d.name = true ∧ d.IsSplit := fun d among => by
  obtain ⟨raw, fallback, _, split⟩ := wf.split d among
  exact ⟨wf.names d among, isSplit_of_split split⟩

theorem manifestOf_manifestText {m : Manifest} (wf : m.WellFormed) (path : Text) :
    ∃ path' root, manifestOf path (manifestText m) =
      { items := returnedItems m, name := m.name.map flat, version := m.version.map flat,
        description := m.description.map flat, author := m.author.map flat,
        license := m.license.map flat, repository := m.repository.map flat, path := path',
        root } := by
  have place : ∃ place, manifestOf path (manifestText m) =
      nyPkgParseLineManifest (nyPkgParseJsonManifest (emptyManifest place (nyDirName place))
        (manifestText m)) (manifestText m) := ⟨_, rfl⟩
  obtain ⟨place, same⟩ := place
  refine ⟨place, nyDirName place, ?_⟩
  rw [same, nyPkgParseJsonManifest_manifestText wf.named wf.each wf.distinct,
    (silent_manifestText wf.each).parse]

theorem misled_iff (values : List Text) :
    misled values = true ↔ ∃ v w, [v, w].Sublist values ∧
      looksLike "dependencies".toList v = true ∧ '\x7b' ∈ w := by
  induction values with
  | nil => simp [misled]
  | cons first values ih =>
    rw [misled]
    split
    · next like =>
      rw [List.any_eq_true]
      constructor
      · rintro ⟨w, among, brace⟩
        exact ⟨first, w, (List.singleton_sublist.mpr among).cons_cons first, like,
          of_decide_eq_true brace⟩
      · rintro ⟨v, w, part, -, brace⟩
        refine ⟨w, ?_, decide_eq_true brace⟩
        cases part with
        | cons _ part => exact part.subset (by simp)
        | cons_cons _ part => exact part.subset (by simp)
    · next other =>
      rw [ih]
      constructor
      · rintro ⟨v, w, part, like, brace⟩
        exact ⟨v, w, part.cons first, like, brace⟩
      · rintro ⟨v, w, part, like, brace⟩
        cases part with
        | cons _ part => exact ⟨v, w, part, like, brace⟩
        | cons_cons _ part => exact absurd like other

theorem flat_dep_eq_iff (d : Dep) : d.flat = d ↔ ∀ v ∈ d.source :: d.ref.toList, '\n' ∉ v := by
  obtain ⟨name, source, ref⟩ := d
  have parts : Dep.flat ⟨name, source, ref⟩ = ⟨name, source, ref⟩ ↔
      source.map flat = source ∧ ref.map (List.map flat) = ref := by
    simp [Dep.flat]
  rw [parts, flat_eq_iff]
  cases ref with
  | none => simp
  | some r => simp [flat_eq_iff]

theorem returnedItems_eq_iff (m : Manifest) :
    returnedItems m = m.items ↔
      (∀ d ∈ m.items, d.source ≠ [] ∧ ∀ v ∈ d.source :: d.ref.toList, '\n' ∉ v) ∧
        (m.items = [] ∨ ¬m.Astray) := by
  have astray : m.Astray ↔ misled ((headerPairs m).map Prod.snd) = true := (misled_iff _).symm
  rw [returnedItems, astray]
  split
  · next led =>
    constructor
    · intro none_
      rw [← none_]
      exact ⟨fun _ among => absurd among List.not_mem_nil, .inl rfl⟩
    · rintro ⟨-, none_ | straight⟩
      · exact none_.symm
      · exact absurd led straight
  · next straight =>
    constructor
    · intro same
      have all : m.items.filter (fun d => d.source ≠ []) = m.items := by
        refine List.filter_sublist.eq_of_length ?_
        rw [← List.length_map (f := Dep.flat), same]
      rw [all] at same
      refine ⟨fun d among => ⟨?_, ?_⟩, .inr straight⟩
      · exact of_decide_eq_true (List.filter_eq_self.mp all d among)
      · rw [← flat_dep_eq_iff]
        have each : m.items.map Dep.flat = m.items.map id := by rw [same, List.map_id]
        exact List.map_inj_left.mp each d among
    · rintro ⟨each, -⟩
      have all : m.items.filter (fun d => d.source ≠ []) = m.items :=
        List.filter_eq_self.mpr fun d among => decide_eq_true (each d among).1
      rw [all]
      refine (List.map_congr_left fun d among => ?_).trans (List.map_id m.items)
      exact (flat_dep_eq_iff d).mpr (each d among).2

theorem agrees_manifestOf_iff {m : Manifest} (wf : m.WellFormed) (path : Text) :
    m.Agrees (manifestOf path (manifestText m)) ↔ m.Kept := by
  obtain ⟨path', root, read⟩ := manifestOf_manifestText wf path
  rw [read]
  have fields : m.Agrees
      { items := returnedItems m, name := m.name.map flat, version := m.version.map flat,
        description := m.description.map flat, author := m.author.map flat,
        license := m.license.map flat, repository := m.repository.map flat, path := path',
        root } ↔
      returnedItems m = m.items ∧ '\n' ∉ m.name ∧ '\n' ∉ m.version ∧ '\n' ∉ m.description ∧
        '\n' ∉ m.author ∧ '\n' ∉ m.license ∧ '\n' ∉ m.repository := by
    rw [← flat_eq_iff, ← flat_eq_iff, ← flat_eq_iff, ← flat_eq_iff, ← flat_eq_iff, ← flat_eq_iff]
    obtain ⟨_, _, _, _, _, _, _, _, _⟩ := m
    simp [Manifest.Agrees]
  rw [fields, returnedItems_eq_iff]
  constructor
  · rintro ⟨⟨each, found⟩, clean⟩
    refine ⟨fun v among => ?_, fun d among => (each d among).1, found⟩
    rcases List.mem_append.mp among with field | dep
    · simp only [List.mem_cons, List.not_mem_nil, or_false] at field
      rcases field with rfl | rfl | rfl | rfl | rfl | rfl
      · exact clean.1
      · exact clean.2.1
      · exact clean.2.2.1
      · exact clean.2.2.2.1
      · exact clean.2.2.2.2.1
      · exact clean.2.2.2.2.2
    · obtain ⟨d, member, value⟩ := List.mem_flatMap.mp dep
      exact (each d member).2 v value
  · intro kept
    have field {v : Text} (among : v ∈ [m.name, m.version, m.description, m.author, m.license,
        m.repository]) : '\n' ∉ v := kept.lines v (List.mem_append_left _ among)
    refine ⟨⟨fun d among => ⟨kept.sources d among, fun v value => ?_⟩, kept.found⟩,
      field (by simp), field (by simp), field (by simp), field (by simp), field (by simp),
      field (by simp)⟩
    exact kept.lines v (List.mem_append_right _ (List.mem_flatMap.mpr ⟨d, among, value⟩))

end Contents

section Edits

/-- What a command does to a manifest. -/
inductive Edit where
  | add (name source : Text) (defaultRef : Option Text)
  | uninstall (name : Text)

/-- The dependency that an edit is about. -/
def Edit.name : Edit → Text
  | .add name _ _ => name
  | .uninstall name => name

/-- Whether the command accepts its arguments. -/
def Edit.Valid : Edit → Prop
  | .add name source _ => nyPkgNameOk name = true ∧ source ≠ []
  | .uninstall _ => True

/-- The manifest that a command makes of one. -/
def Edit.apply (m : Manifest) : Edit → Manifest
  | .add name source defaultRef =>
    let (source, ref) := nyPkgSplitSourceRef source defaultRef
    { m with items := nyPkgManifestPush m.items name source ref }
  | .uninstall name => { m with items := (nyPkgManifestRemove m.items name).1 }

/-- The text that a command leaves behind: it reads the file, and writes it if there is a change. -/
def Edit.rewrite (path txt : Text) (edit : Edit) : Text :=
  match edit with
  | .add _ _ _ => manifestText (edit.apply (manifestOf path txt))
  | .uninstall name =>
    if (nyPkgManifestRemove (manifestOf path txt).items name).2 then
      manifestText (edit.apply (manifestOf path txt))
    else txt

/-- What remains of the dependency that an edit is about. -/
def Edit.left : Edit → List Dep
  | .add name source defaultRef =>
    let (source, ref) := nyPkgSplitSourceRef source defaultRef
    [⟨name, source, ref⟩]
  | .uninstall _ => []

/-- Whether a manifest differs from another one in the dependency of an edit alone. -/
structure Edit.Changes (edit : Edit) (m m' : Manifest) : Prop where
  fields : { m' with items := m.items } = m
  others : m'.items.filter (fun d => d.name ≠ edit.name) =
    m.items.filter fun d => d.name ≠ edit.name
  own : m'.items.filter (fun d => d.name = edit.name) = edit.left

/-- A manifest behind edits. -/
def after (m : Manifest) (edits : List Edit) : Manifest := edits.foldl Edit.apply m

/-- The file of a manifest behind edits. -/
def fileAfter (path : Text) (m : Manifest) (edits : List Edit) : Text :=
  edits.foldl (Edit.rewrite path) (manifestText m)

/-- Whether the file always gives back the manifest, at the start and behind each edit. -/
def Preserved (path : Text) (m : Manifest) (edits : List Edit) : Prop :=
  ∀ done rest, edits = done ++ rest →
    (after m done).Agrees (manifestOf path (fileAfter path m done))

theorem split_ref_filter (source : Text) (fallback : Option Text) :
    (nyPkgSplitSourceRef source fallback).2.filter (fun ref => ref ≠ []) =
      (nyPkgSplitSourceRef source fallback).2 := by
  have split : Dep.IsSplit ⟨[], (nyPkgSplitSourceRef source fallback).1,
      (nyPkgSplitSourceRef source fallback).2⟩ := isSplit_of_split rfl
  have full : (nyPkgSplitSourceRef source fallback).2 ≠ some [] := split.ref
  cases ref : (nyPkgSplitSourceRef source fallback).2 with
  | none => rfl
  | some r =>
    have some_ : r ≠ [] := fun none_ => full (ref.trans (congrArg some none_))
    simp [some_]

theorem push_known {items : List Dep} {name source : Text} {ref : Option Text}
    (known : (items.any fun d => d.name = name) = true)
    (same : ref.filter (fun ref => ref ≠ []) = ref) :
    nyPkgManifestPush items name source ref =
      items.map fun d => if d.name = name then { d with source, ref } else d := by
  rw [nyPkgManifestPush, same, if_pos known]

theorem push_new {items : List Dep} {name source : Text} {ref : Option Text}
    (unknown : (items.any fun d => d.name = name) = false)
    (same : ref.filter (fun ref => ref ≠ []) = ref) :
    nyPkgManifestPush items name source ref = items ++ [⟨name, source, ref⟩] := by
  rw [nyPkgManifestPush, same, if_neg (by rw [unknown]; exact Bool.false_ne_true)]

theorem names_update (items : List Dep) (name source : Text) (ref : Option Text) :
    (items.map fun d => if d.name = name then { d with source, ref } else d).map Dep.name =
      items.map Dep.name := by
  rw [List.map_map]
  refine List.map_congr_left fun d _ => ?_
  rw [Function.comp_apply]
  split <;> rfl

theorem Edit.apply_wellFormed {m : Manifest} (wf : m.WellFormed) {edit : Edit}
    (valid : edit.Valid) : (edit.apply m).WellFormed := by
  cases edit with
  | uninstall name =>
    have part : (m.items.eraseP fun d => d.name = name).Sublist m.items := List.eraseP_sublist
    exact ⟨wf.named, fun d among => wf.names d (part.subset among),
      wf.distinct.sublist (part.map Dep.name), fun d among => wf.split d (part.subset among)⟩
  | add name source defaultRef =>
    obtain ⟨ok, some_⟩ := valid
    have same := split_ref_filter source defaultRef
    cases known : m.items.any fun d => d.name = name with
    | true =>
      have pushed : (Edit.apply m (.add name source defaultRef)).items =
          m.items.map fun d => if d.name = name then
            { d with source := (nyPkgSplitSourceRef source defaultRef).1,
                     ref := (nyPkgSplitSourceRef source defaultRef).2 } else d :=
        push_known known same
      refine ⟨wf.named, ?_, ?_, ?_⟩
      · intro d among
        have named : d.name ∈ m.items.map Dep.name := by
          rw [← names_update m.items name (nyPkgSplitSourceRef source defaultRef).1
            (nyPkgSplitSourceRef source defaultRef).2, ← pushed]
          exact List.mem_map_of_mem among
        obtain ⟨old, before, equal⟩ := List.mem_map.mp named
        exact equal ▸ wf.names old before
      · rw [pushed, names_update]
        exact wf.distinct
      · intro d among
        rw [pushed] at among
        obtain ⟨old, before, rfl⟩ := List.mem_map.mp among
        split
        · exact ⟨source, defaultRef, some_, rfl⟩
        · exact wf.split old before
    | false =>
      have pushed : (Edit.apply m (.add name source defaultRef)).items =
          m.items ++ [⟨name, (nyPkgSplitSourceRef source defaultRef).1,
            (nyPkgSplitSourceRef source defaultRef).2⟩] := push_new known same
      have either {d : Dep} (among : d ∈ (Edit.apply m (.add name source defaultRef)).items) :
          d ∈ m.items ∨ d = ⟨name, (nyPkgSplitSourceRef source defaultRef).1,
            (nyPkgSplitSourceRef source defaultRef).2⟩ := by
        rw [pushed] at among
        exact (List.mem_append.mp among).imp_right List.mem_singleton.mp
      refine ⟨wf.named, ?_, ?_, ?_⟩
      · intro d among
        rcases either among with before | rfl
        · exact wf.names d before
        · exact ok
      · rw [pushed, List.map_append, List.nodup_append]
        refine ⟨wf.distinct, by simp, ?_⟩
        rintro a before _ new rfl
        obtain rfl := List.mem_singleton.mp new
        obtain ⟨d, among, equal⟩ := List.mem_map.mp before
        exact absurd (List.any_eq_true.mpr ⟨d, among, decide_eq_true equal⟩)
          (by rw [known]; exact Bool.false_ne_true)
      · intro d among
        rcases either among with before | rfl
        · exact wf.split d before
        · exact ⟨source, defaultRef, some_, rfl⟩

theorem filter_name {items : List Dep} (distinct : (items.map Dep.name).Nodup) {name : Text}
    (known : (items.any fun d => d.name = name) = true) :
    ∃ d, items.filter (fun d => d.name = name) = [d] ∧ d.name = name := by
  induction items with
  | nil => exact absurd known nofun
  | cons d items ih =>
    rw [List.map_cons, List.nodup_cons] at distinct
    by_cases here : d.name = name
    · refine ⟨d, ?_, here⟩
      rw [List.filter_cons_of_pos (by simp [here])]
      congr 1
      rw [List.filter_eq_nil_iff]
      intro d' among same
      exact distinct.1 (here.trans (of_decide_eq_true same).symm ▸ List.mem_map_of_mem among)
    · rw [List.filter_cons_of_neg (by simp [here])]
      refine ih distinct.2 ?_
      simpa [here] using known

theorem eraseP_others (items : List Dep) (name : Text) :
    (items.eraseP fun d => d.name = name).filter (fun d => d.name ≠ name) =
      items.filter fun d => d.name ≠ name := by
  induction items with
  | nil => rfl
  | cons d items ih =>
    by_cases here : d.name = name
    · rw [List.eraseP_cons_of_pos (by simp [here]), List.filter_cons_of_neg (by simp [here])]
    · rw [List.eraseP_cons_of_neg (by simp [here]), List.filter_cons_of_pos (by simp [here]),
        List.filter_cons_of_pos (by simp [here]), ih]

theorem eraseP_own {items : List Dep} (distinct : (items.map Dep.name).Nodup) (name : Text) :
    (items.eraseP fun d => d.name = name).filter (fun d => d.name = name) = [] := by
  induction items with
  | nil => rfl
  | cons d items ih =>
    rw [List.map_cons, List.nodup_cons] at distinct
    by_cases here : d.name = name
    · rw [List.eraseP_cons_of_pos (by simp [here]), List.filter_eq_nil_iff]
      intro d' among same
      exact distinct.1 (here.trans (of_decide_eq_true same).symm ▸ List.mem_map_of_mem among)
    · rw [List.eraseP_cons_of_neg (by simp [here]), List.filter_cons_of_neg (by simp [here])]
      exact ih distinct.2

theorem Edit.apply_changes {m : Manifest} (wf : m.WellFormed) (edit : Edit) :
    edit.Changes m (edit.apply m) := by
  cases edit with
  | uninstall name =>
    exact ⟨rfl, eraseP_others m.items name, eraseP_own wf.distinct name⟩
  | add name source defaultRef =>
    have same := split_ref_filter source defaultRef
    cases known : m.items.any fun d => d.name = name with
    | true =>
      have pushed : (Edit.apply m (.add name source defaultRef)).items =
          m.items.map fun d => if d.name = name then
            { d with source := (nyPkgSplitSourceRef source defaultRef).1,
                     ref := (nyPkgSplitSourceRef source defaultRef).2 } else d :=
        push_known known same
      obtain ⟨d, only, named⟩ := filter_name wf.distinct known
      refine ⟨rfl, ?_, ?_⟩
      · rw [pushed, List.filter_map]
        have unchanged : ((fun d : Dep => decide (d.name ≠ Edit.name (.add name source defaultRef))) ∘
            fun d : Dep => if d.name = name then
              { d with source := (nyPkgSplitSourceRef source defaultRef).1,
                       ref := (nyPkgSplitSourceRef source defaultRef).2 }
              else d) = fun d => decide (d.name ≠ name) := by
          funext d
          rw [Function.comp_apply]
          split <;> rfl
        rw [unchanged]
        refine (List.map_congr_left fun d among => ?_).trans (List.map_id _)
        exact if_neg (of_decide_eq_true (List.mem_filter.mp among).2)
      · rw [pushed, List.filter_map]
        have unchanged : ((fun d : Dep => decide (d.name = Edit.name (.add name source defaultRef))) ∘
            fun d : Dep => if d.name = name then
              { d with source := (nyPkgSplitSourceRef source defaultRef).1,
                       ref := (nyPkgSplitSourceRef source defaultRef).2 }
              else d) = fun d => decide (d.name = name) := by
          funext d
          rw [Function.comp_apply]
          split <;> rfl
        rw [unchanged, only, List.map_singleton, if_pos named, named]
        rfl
    | false =>
      have pushed : (Edit.apply m (.add name source defaultRef)).items =
          m.items ++ [⟨name, (nyPkgSplitSourceRef source defaultRef).1,
            (nyPkgSplitSourceRef source defaultRef).2⟩] := push_new known same
      have fresh : m.items.filter (fun d => d.name = name) = [] := by
        rw [List.filter_eq_nil_iff]
        intro d among named
        exact absurd (List.any_eq_true.mpr ⟨d, among, named⟩)
          (by rw [known]; exact Bool.false_ne_true)
      refine ⟨rfl, ?_, ?_⟩
      · rw [pushed, List.filter_append]
        simp [Edit.name]
      · rw [pushed, List.filter_append, show Edit.name (.add name source defaultRef) = name from rfl,
          fresh]
        simp [Edit.left]

theorem manifestText_moved (m : Manifest) (path root : Text) :
    manifestText { m with path, root } = manifestText m := by
  rw [manifestText_eq, manifestText_eq]
  rfl

theorem Manifest.Agrees.items {m m' : Manifest} (agrees : m.Agrees m') : m'.items = m.items := by
  have same : { m' with path := m.path, root := m.root } = m := agrees
  rw [← same]

theorem Edit.rewrite_manifestText {m : Manifest} (path : Text) (edit : Edit)
    (agrees : m.Agrees (manifestOf path (manifestText m))) :
    edit.rewrite path (manifestText m) = manifestText (edit.apply m) := by
  have text (m m' : Manifest) (agrees : m.Agrees m') (edit : Edit) :
      manifestText (edit.apply m') = manifestText (edit.apply m) := by
    have moved : edit.apply { m' with path := m.path, root := m.root } =
        { edit.apply m' with path := m.path, root := m.root } := by
      cases edit <;> rfl
    have same : { m' with path := m.path, root := m.root } = m := agrees
    rw [← manifestText_moved (edit.apply m') m.path m.root, ← moved, same]
  cases edit with
  | add name source defaultRef => exact text m _ agrees _
  | uninstall name =>
    rw [Edit.rewrite, agrees.items]
    split
    · exact text m _ agrees _
    · next unknown =>
      -- There is nothing to remove.
      have all : (Edit.apply m (.uninstall name)).items = m.items := by
        refine List.eraseP_of_forall_not fun d among same => unknown ?_
        exact List.any_eq_true.mpr ⟨d, among, same⟩
      have whole : Edit.apply m (.uninstall name) = m := by
        show { m with items := (Edit.apply m (.uninstall name)).items } = m
        rw [all]
      rw [whole]

theorem after_wellFormed {m : Manifest} (wf : m.WellFormed) {edits : List Edit}
    (valid : ∀ edit ∈ edits, edit.Valid) : (after m edits).WellFormed := by
  induction edits generalizing m with
  | nil => exact wf
  | cons edit edits ih =>
    exact ih (Edit.apply_wellFormed wf (valid edit List.mem_cons_self)) fun edit among =>
      valid edit (List.mem_cons_of_mem _ among)

theorem fileAfter_eq {m : Manifest} {path : Text} {edits : List Edit}
    (agrees : ∀ before edit rest, edits = before ++ edit :: rest →
      fileAfter path m before = manifestText (after m before) →
        (after m before).Agrees (manifestOf path (manifestText (after m before)))) :
    fileAfter path m edits = manifestText (after m edits) := by
  induction edits using List.reverseRecOn with
  | nil => rfl
  | append_singleton edits edit ih =>
    have before := ih fun first edit' rest same => agrees first edit' (rest ++ [edit]) (by
      rw [same, List.append_assoc, List.cons_append])
    have one := agrees edits edit [] rfl before
    have file : fileAfter path m (edits ++ [edit]) =
        edit.rewrite path (fileAfter path m edits) := by
      rw [fileAfter, List.foldl_append]
      rfl
    have manifest : after m (edits ++ [edit]) = edit.apply (after m edits) := by
      rw [after, List.foldl_append]
      rfl
    rw [file, manifest, before]
    exact Edit.rewrite_manifestText path edit one

/--
The file gives back the manifest behind all edits exactly if every manifest on the way is kept.

An edit changes the dependency that it is about, and nothing else.
-/
theorem manifest_preserved_iff (path : Text) (m : Manifest) (wf : m.WellFormed)
    (edits : List Edit) (valid : ∀ edit ∈ edits, edit.Valid) :
    (Preserved path m edits ↔ ∀ done rest, edits = done ++ rest → (after m done).Kept) ∧
      ∀ done edit rest, edits = done ++ edit :: rest →
        edit.Changes (after m done) (after m (done ++ [edit])) := by
  have well {done rest : List Edit} (same : edits = done ++ rest) : (after m done).WellFormed :=
    after_wellFormed wf fun edit among => valid edit (same ▸ List.mem_append_left rest among)
  refine ⟨⟨fun preserved done rest same => ?_, fun kept done rest same => ?_⟩, ?_⟩
  · have file : fileAfter path m done = manifestText (after m done) := by
      refine fileAfter_eq fun before edit tail split text => ?_
      have agrees := preserved before (edit :: tail ++ rest) (by rw [same, split, List.append_assoc])
      rwa [text] at agrees
    have agrees := preserved done rest same
    rw [file] at agrees
    exact (agrees_manifestOf_iff (well same) path).mp agrees
  · have file : fileAfter path m done = manifestText (after m done) := by
      refine fileAfter_eq fun before edit tail split _ => ?_
      have part : edits = before ++ (edit :: tail ++ rest) := by
        rw [same, split, List.append_assoc]
      exact (agrees_manifestOf_iff (well part) path).mpr (kept before _ part)
    rw [file]
    exact (agrees_manifestOf_iff (well same) path).mpr (kept done rest same)
  · intro done edit rest same
    have next : after m (done ++ [edit]) = edit.apply (after m done) := by
      rw [after, List.foldl_append]
      rfl
    rw [next]
    exact Edit.apply_changes (well same) edit

end Edits

section Examples

/-- A manifest with one dependency. -/
def oneDependency (description : Text) : Manifest :=
  { emptyManifest "ny.pkg.json".toList ".".toList with
    name := "app".toList
    description := description
    items := [⟨"json".toList, "git+https://host/json.git".toList, some "v1".toList⟩] }

theorem oneDependency_wellFormed (description : Text) : (oneDependency description).WellFormed where
  named := List.cons_ne_nil _ _
  names d among := by
    obtain rfl := List.mem_singleton.mp among
    decide
  distinct := by simp [oneDependency]
  split d among := by
    obtain rfl := List.mem_singleton.mp among
    exact ⟨"git+https://host/json.git#v1".toList, none, by decide, by decide⟩

/-- A manifest and its dependency come back, and the manifest without it. -/
theorem manifest_preserved_uninstall :
    Preserved "ny.pkg.json".toList (oneDependency "a tool".toList) [.uninstall "json".toList] := by
  have straight (m : Manifest) (found : misled ((headerPairs m).map Prod.snd) = false) :
      ¬m.Astray := fun astray => by
    rw [Manifest.Astray, ← misled_iff, found] at astray
    exact absurd astray nofun
  refine (manifest_preserved_iff _ _ (oneDependency_wellFormed _) _ ?_).1.mpr ?_
  · intro edit among
    obtain rfl := List.mem_singleton.mp among
    trivial
  · intro done rest same
    match done, same with
    | [], _ => exact ⟨by decide, by decide, .inr (straight _ (by decide))⟩
    | [_], same =>
      obtain ⟨rfl, -⟩ := List.cons.inj same
      exact ⟨by decide, by decide, .inl (by decide)⟩

/-- A description with a line break comes back with a letter in its place. -/
theorem not_preserved_lineBreak :
    (oneDependency "two\nlines".toList).WellFormed ∧
      ¬Preserved "ny.pkg.json".toList (oneDependency "two\nlines".toList) [] := by
  have wf := oneDependency_wellFormed "two\nlines".toList
  refine ⟨wf, fun preserved => ?_⟩
  have kept := (agrees_manifestOf_iff wf _).mp (preserved [] [] rfl)
  exact kept.lines "two\nlines".toList (by decide) (by decide)

end Examples

end Nytrix.Pkg
