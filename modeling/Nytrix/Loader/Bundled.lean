import Nytrix.Loader.BundleRuns
import Mathlib.Data.List.Infix

/-! Bundling ends, and what it bundles is what the seeds lead to. -/

namespace Nytrix.Loader

open Nytrix.Parse (TokenKind)
open Nytrix.Types (nm ch)

section Ending

variable (w : World) (mode : StdMode) (modules : List Str) (entryPath : Option Str)

/-- The items that may be read at any place of tokens, with export lists and without. -/
def itemsAnywhere (tokens : List Tok) : List Item :=
  tokens.tails.flatMap fun
    | [] => []
    | t :: rest => (tokenStep true 0 t rest).1.toList ++ (tokenStep false 0 t rest).1.toList

/-- The paths that a file may ask for, in one way or the other. -/
def pathsFrom (path : Str) (preferLocal : Bool) : List Str :=
  (itemsAnywhere (w.tokens ((w.file path).getD []))).flatMap fun item =>
    (itemRequests w (skipsStd mode) (dirFromPath path) preferLocal 0 item).map Request.path

/-- All paths that may come onto the list. -/
def reachable : List Str :=
  (seeds w mode modules entryPath).map Prod.fst ++
    w.paths.flatMap fun path => pathsFrom w mode path true ++ pathsFrom w mode path false

/-- A list of files that may come onto it, each of them once. -/
structure Listed (mods : List Entry) : Prop where
  nodup : (mods.map Entry.path).Nodup
  inside : ∀ e ∈ mods, e.path ∈ reachable w mode modules entryPath

variable {w mode modules entryPath}

theorem Listed.length_le {mods : List Entry} (listed : Listed w mode modules entryPath mods) :
    mods.length ≤ (reachable w mode modules entryPath).length := by
  rw [← List.length_map (f := Entry.path)]
  refine (listed.nodup.subperm fun path among => ?_).length_le
  obtain ⟨e, member, rfl⟩ := List.mem_map.mp among
  exact listed.inside e member

theorem Listed.add {mods : List Entry} (listed : Listed w mode modules entryPath mods)
    {r : Request} (may : r.path ∈ reachable w mode modules entryPath) :
    Listed w mode modules entryPath (modListAddEx mods r) := by
  refine ⟨modListAddEx_nodup listed.nodup r, fun e among => ?_⟩
  rcases mem_modListAddEx among with before | ⟨old, before, rfl, same⟩ | rfl
  · exact listed.inside e before
  · exact may
  · exact may

theorem tokenStep_item {exporting : Bool} {depth : Nat} {t : Tok} {rest : List Tok} {item : Item}
    (read : (tokenStep exporting depth t rest).1 = some item) :
    (tokenStep exporting 0 t rest).1 = some item := by
  rcases Nat.eq_zero_or_pos depth with rfl | inside
  · exact read
  · have positive : depth ≠ 0 := by omega
    simp only [tokenStep, positive, false_and, if_false] at read
    split at read
    · cases read
    · split at read
      · cases read
      · cases read

theorem mem_itemsAnywhere {tokens rest : List Tok} {t : Tok} (place : t :: rest <:+ tokens)
    {exporting : Bool} {depth : Nat} {item : Item}
    (read : (tokenStep exporting depth t rest).1 = some item) : item ∈ itemsAnywhere tokens := by
  refine List.mem_flatMap.mpr ⟨t :: rest, (List.mem_tails _ _).mpr place, ?_⟩
  have atZero := tokenStep_item read
  cases exporting with
  | true => exact List.mem_append_left _ (Option.mem_toList.mpr atZero)
  | false => exact List.mem_append_right _ (Option.mem_toList.mpr atZero)

theorem itemRequests_paths {skipStd preferLocal : Bool} {baseDir : Str} {depth : Int} {item : Item}
    {r : Request} (wanted : r ∈ itemRequests w skipStd baseDir preferLocal depth item) :
    r.path ∈ (itemRequests w skipStd baseDir preferLocal 0 item).map Request.path := by
  have anyDepth {raw : Str} {depth depth' : Int} {r : Request}
      (request : requestOf w skipStd baseDir preferLocal depth raw = some r) :
      requestOf w skipStd baseDir preferLocal depth' raw = some { r with depth := depth' } := by
    obtain ⟨⟨target, targetStd⟩, resolved, kept⟩ := Option.bind_eq_some_iff.mp request
    rw [requestOf, resolved]
    dsimp only [Option.bind_some] at kept ⊢
    split at kept
    · exact absurd kept nofun
    · next inside =>
      obtain rfl := Option.some.inj kept
      exact if_neg inside
  cases item with
  | use raw =>
    have request : requestOf w skipStd baseDir preferLocal (-1) raw =
        some { r with depth := -1 } := anyDepth (Option.mem_toList.mp wanted)
    exact List.mem_map.mpr ⟨_, Option.mem_toList.mpr request, rfl⟩
  | header name leaves =>
    obtain ⟨leaf, exported, request⟩ := List.mem_filterMap.mp wanted
    exact List.mem_map.mpr ⟨_, List.mem_filterMap.mpr ⟨leaf, exported, anyDepth request⟩, rfl⟩

theorem scanTokens_listed {path text : Str} (read : w.file path = some text) {idx : Nat}
    {preferLocal : Bool} {n depth : Nat} {tokens : List Tok} {mods : List Entry}
    (place : tokens <:+ w.tokens text) (listed : Listed w mode modules entryPath mods) :
    Listed w mode modules entryPath
      (scanTokens w (skipsStd mode) idx (dirFromPath path) preferLocal n depth tokens mods) := by
  induction n generalizing depth tokens mods with
  | zero =>
    rw [scanTokens]
    exact listed
  | succ n ih =>
    cases tokens with
    | nil =>
      rw [scanTokens]
      exact listed
    | cons t rest =>
      rw [scanTokens]
      dsimp only
      have onward := tokenStep_suffix (decide (depthAt mods idx ≠ 0)) depth t rest
      refine ih (onward.trans ((List.suffix_cons t rest).trans place)) ?_
      cases item : (tokenStep (decide (depthAt mods idx ≠ 0)) depth t rest).1 with
      | none => exact listed
      | some item_ =>
        refine List.foldlRecOn _ _ listed fun mods' listed' r wanted => listed'.add ?_
        -- What the item asks for is among the paths of its file.
        have among : r.path ∈ pathsFrom w mode path preferLocal := by
          rw [pathsFrom, read]
          exact List.mem_flatMap.mpr ⟨item_, mem_itemsAnywhere place item, itemRequests_paths wanted⟩
        refine List.mem_append_right _
          (List.mem_flatMap.mpr ⟨path, w.finite path text read, List.mem_append.mpr ?_⟩)
        cases preferLocal with
        | true => exact .inl among
        | false => exact .inr among

theorem scanDependencies_listed (idx : Nat) {mods : List Entry}
    (listed : Listed w mode modules entryPath mods) :
    Listed w mode modules entryPath (scanDependencies w (skipsStd mode) idx mods) := by
  unfold scanDependencies
  split
  · exact listed
  · next e here =>
    split
    · exact listed
    · have marked : Listed w mode modules entryPath (mods.set idx e.marked) := by
        refine ⟨marked_paths here ▸ listed.nodup, fun e' among => ?_⟩
        rcases mem_marked among with before | rfl
        · exact listed.inside e' before
        · exact listed.inside e (List.mem_of_getElem? here)
      dsimp only
      split
      · exact marked
      · next text read => exact scanTokens_listed read (List.suffix_refl _) marked

theorem seeded_listed : Listed w mode modules entryPath (seeded w mode modules entryPath) := by
  refine List.foldlRecOn _ _ ⟨List.nodup_nil, fun _ among => absurd among List.not_mem_nil⟩
    fun mods listed r wanted => listed.add ?_
  obtain ⟨seed, among, rfl⟩ := List.mem_map.mp wanted
  exact List.mem_append_left _ (List.mem_map_of_mem among)

theorem nyBuildStdSourceEx_ends {fuel : Nat}
    (enough : (reachable w mode modules entryPath).length < fuel) :
    ∃ bundled, nyBuildStdSourceEx w mode modules entryPath fuel = some bundled := by
  unfold nyBuildStdSourceEx
  split
  · exact ⟨_, rfl⟩
  · have bounded (mods : List Entry) (listed : Listed w mode modules entryPath mods) :
        mods.length ≤ (reachable w mode modules entryPath).length := listed.length_le
    have steps (idx : Nat) (mods : List Entry) (listed : Listed w mode modules entryPath mods) :=
      scanDependencies_listed idx listed
    obtain ⟨mods, found⟩ : ∃ mods, Lib.Worklist.rounds List.length
        (scanDependencies w (skipsStd mode)) fuel (seeded w mode modules entryPath) = some mods :=
      Lib.Worklist.rounds_end steps bounded seeded_listed (by omega)
    have listed := Lib.Worklist.rounds_keeps steps seeded_listed found
    obtain ⟨swept, ended⟩ : ∃ swept, Lib.Worklist.sweep List.length
        (scanDependencies w (skipsStd mode)) fuel 0 mods = some swept :=
      Lib.Worklist.sweep_end steps bounded listed (by omega) (by omega)
    rw [discovered, found, Option.bind_some, ended]
    exact ⟨_, rfl⟩

end Ending

section Completeness

variable {w : World} {mode : StdMode} {modules : List Str} {entryPath : Option Str}

/-- Whether the entry at a place, if there is one, has been processed. -/
def DoneAt (j : Nat) (mods : List Entry) : Prop :=
  ∀ e, mods[j]? = some e → e.processed = true

theorem scanDependencies_done {i : Nat} {mods : List Entry}
    (plain : ∀ e text, mods[i]? = some e → e.exportDepth = 0 → w.file e.path = some text →
      plainModule (w.tokens text) = true)
    (settled : ¬Reopens w mode mods i) (before : ∀ j < i, DoneAt j mods) :
    ∀ j ≤ i, DoneAt j (scanDependencies w (skipsStd mode) i mods) := by
  rcases scanDependencies_cases plain with ⟨same, own⟩ | ⟨e, here, fresh, result⟩
  · rw [same]
    intro j upto
    rcases Nat.lt_or_eq_of_le upto with earlier | rfl
    · exact before j earlier
    · exact own
  · have inside : i < mods.length := (List.getElem?_eq_some_iff.mp here).1
    have own : (mods.set i e.marked)[i]? = some e.marked := List.getElem?_set_self inside
    have kept : ∀ item ∈ itemsOf w e.path,
        ∀ r ∈ demanded w (skipsStd mode) (dirFromPath e.path) (!e.isStd) e.marked.exportDepth item,
        ∀ j ≤ i, ∀ passed, (mods.set i e.marked)[j]? = some passed → passed.path = r.path →
          nyExportDepthMorePermissive r.depth passed.exportDepth = false := by
      intro item among r wanted j upto passed there path
      refine Bool.eq_false_iff.mpr fun more => settled ?_
      unfold itemsOf at among
      split at among
      · exact absurd among List.not_mem_nil
      · next text read =>
        refine ⟨e, text, here, fresh, read, r, ?_, j, upto, ?_⟩
        · rw [asked_eq_demanded]
          exact List.mem_flatMap.mpr ⟨item, among, wanted⟩
        · by_cases place : j = i
          · subst place
            obtain rfl := Option.some.inj (own.symm.trans there)
            exact ⟨e, here, path, more⟩
          · rw [List.getElem?_set_ne (Ne.symm place)] at there
            exact ⟨passed, there, path, more⟩
    have same := performs_getElem? own kept
    rw [result]
    intro j upto e' there
    rw [same j upto] at there
    rcases Nat.lt_or_eq_of_le upto with earlier | rfl
    · rw [List.getElem?_set_ne (by omega)] at there
      exact before j earlier e' there
    · obtain rfl := Option.some.inj (own.symm.trans there)
      rfl

theorem Met.depth_cases {path : Str} {isStd : Bool} {depth : Int}
    (met : Met w mode modules entryPath path isStd depth) :
    depth = -1 ∨ depth = 0 ∨ depth = 1 := by
  induction met with
  | seed among => exact .inl rfl
  | use met read item found wanted ih => exact .inl rfl
  | leaf met counts read item among found wanted ih =>
    unfold childDepth moduleExportChildDepth
    repeat' split
    all_goals omega

theorem childDepth_atLeast {depth other : Int} (deeper : AtLeast depth other) (counts : other ≠ 0)
    (small : other = -1 ∨ other = 0 ∨ other = 1) (name : Str) :
    AtLeast (childDepth w depth name) (childDepth w other name) := by
  rw [atLeast_iff] at deeper ⊢
  unfold childDepth moduleExportChildDepth
  repeat' split
  all_goals omega

theorem Met.not_std (seeded : ∀ seed ∈ seeds w mode modules entryPath, seed.2 = false)
    (without : mode = .none) {path : Str} {isStd : Bool} {depth : Int}
    (met : Met w mode modules entryPath path isStd depth) : isStd = false := by
  have skips : skipsStd mode = true := decide_eq_true without
  induction met with
  | seed among => exact seeded _ among
  | use met read item found wanted ih =>
    exact Bool.eq_false_iff.mpr fun std => wanted ⟨skips, std⟩
  | leaf met counts read item among found wanted ih =>
    exact Bool.eq_false_iff.mpr fun std => wanted ⟨skips, std⟩

theorem Sound.complete {mods : List Entry} (sound : Sound w mode modules entryPath mods)
    (locality : ∀ path isStd isStd' depth depth', Met w mode modules entryPath path isStd depth →
      Met w mode modules entryPath path isStd' depth' → isStd = isStd')
    (done : ∀ e ∈ mods, e.processed = true) {path : Str} {isStd : Bool} {depth : Int}
    (met : Met w mode modules entryPath path isStd depth) : Holds mods path depth := by
  -- A file that is held is of the standard library as it is met, and what it asks for is held.
  have served {path text : Str} {isStd : Bool} {depth : Int}
      (met : Met w mode modules entryPath path isStd depth) (read : w.file path = some text)
      (held : Holds mods path depth) : ∃ deeper, AtLeast deeper depth ∧
        ∀ r ∈ asked w mode path isStd deeper text, Holds mods r.path r.depth := by
    obtain ⟨e, among, rfl, deep⟩ := held
    have std := locality _ _ _ _ _ (sound.met e among) met
    exact ⟨e.exportDepth, deep, std ▸ sound.served e among (done e among) text read⟩
  have requested {raw baseDir target : Str} {preferLocal targetStd : Bool} (depth : Int)
      (found : w.resolve raw baseDir preferLocal = some (target, targetStd))
      (wanted : ¬(skipsStd mode = true ∧ targetStd = true)) :
      requestOf w (skipsStd mode) baseDir preferLocal depth raw =
        some ⟨target, targetStd, depth⟩ := by
    rw [requestOf, found, Option.bind_some]
    exact if_neg (by simpa using wanted)
  induction met with
  | seed among => exact sound.seeded _ among
  | @use path text raw target isStd targetStd depth met read item found wanted ih =>
    obtain ⟨deeper, -, all⟩ := served met read ih
    refine all ⟨target, targetStd, -1⟩ ?_
    rw [asked_eq_demanded]
    exact List.mem_flatMap.mpr ⟨_, item, Option.mem_toList.mpr (requested (-1) found wanted)⟩
  | @leaf path text name leaf target leaves isStd targetStd depth met counts read item among found
      wanted ih =>
    obtain ⟨deeper, deep, all⟩ := served met read ih
    have small := met.depth_cases
    have deeperCounts : deeper ≠ 0 := by
      rw [atLeast_iff] at deep
      omega
    have held := all ⟨target, targetStd, childDepth w deeper name⟩ (by
      rw [asked_eq_demanded]
      refine List.mem_flatMap.mpr ⟨_, item, ?_⟩
      rw [demanded, if_neg deeperCounts]
      exact List.mem_filterMap.mpr ⟨leaf, among, requested _ found wanted⟩)
    obtain ⟨e, member, same, above⟩ := held
    exact ⟨e, member, same, above.trans (childDepth_atLeast deep counts small name)⟩

theorem seeded_sound
    (locality : ∀ path isStd isStd' depth depth', Met w mode modules entryPath path isStd depth →
      Met w mode modules entryPath path isStd' depth' → isStd = isStd') :
    Sound w mode modules entryPath (seeded w mode modules entryPath) := by
  have request {r : Request} (among : r ∈ (seeds w mode modules entryPath).map fun seed =>
      (⟨seed.1, seed.2, -1⟩ : Request)) : Met w mode modules entryPath r.path r.isStd r.depth := by
    obtain ⟨seed, member, rfl⟩ := List.mem_map.mp among
    exact .seed member
  refine ⟨seeded_listed.nodup, ?_, ?_, fun seed among => ?_⟩
  · refine List.foldlRecOn (motive := fun mods : List Entry =>
      ∀ e ∈ mods, Met w mode modules entryPath e.path e.isStd e.exportDepth) _ _
      (fun _ among => absurd among List.not_mem_nil) fun mods met r among =>
        modListAddEx_met locality met (request among)
  · intro e among processed
    exact absurd (processed_of_adds among processed) List.not_mem_nil
  · exact adds_hold (r := ⟨seed.1, seed.2, -1⟩) (List.mem_map.mpr ⟨seed, among, rfl⟩) []

end Completeness

section Bundle

variable {w : World} {mode : StdMode} {modules : List Str} {entryPath : Option Str}

theorem swept_sound (coherent : Coherent w mode modules entryPath) {fuel : Nat}
    {mods swept : List Entry} (found : discovered w mode modules entryPath fuel = some mods)
    (ended : Lib.Worklist.sweep List.length (scanDependencies w (skipsStd mode)) fuel 0 mods =
      some swept) :
    Sound w mode modules entryPath swept ∧ ∀ e ∈ swept, e.processed = true := by
  have steps (idx : Nat) (mods : List Entry) (sound : Sound w mode modules entryPath mods) :=
    scanDependencies_sound coherent.locality coherent.plain idx sound
  have sound := Lib.Worklist.rounds_keeps steps (seeded_sound coherent.locality) found
  obtain ⟨n, rfl, complete, inside⟩ := Lib.Worklist.sweep_eq_pass ended
  refine ⟨Lib.Worklist.pass_keeps steps n sound, fun e among => ?_⟩
  have done : ∀ j < n, DoneAt j
      (Lib.Worklist.pass (scanDependencies w (skipsStd mode)) n mods) :=
    Lib.Worklist.pass_done fun i upto before => by
      have soundNow := Lib.Worklist.pass_keeps steps i sound
      exact scanDependencies_done
        (fun e text here zero read => coherent.plain e.path e.isStd text
          (zero ▸ soundNow.met e (List.mem_of_getElem? here)) read)
        (coherent.sweep fuel mods found i (inside i (Nat.zero_le i) upto)) before
  obtain ⟨j, here⟩ := List.mem_iff_getElem?.mp among
  exact done j (Nat.lt_of_lt_of_le (List.getElem?_eq_some_iff.mp here).1 complete) e here

theorem Sound.isClosure {mods : List Entry} (sound : Sound w mode modules entryPath mods)
    (coherent : Coherent w mode modules entryPath) (done : ∀ e ∈ mods, e.processed = true) :
    IsClosure w mode modules entryPath
      ((mods.filter fun e => !skipEntry w entryPath e && (w.file e.path).isSome).map Entry.path) := by
  have belongs (path : Str) : path ∈ (mods.filter fun e =>
      !skipEntry w entryPath e && (w.file e.path).isSome).map Entry.path ↔
        Belongs w mode modules entryPath path := by
    constructor
    · intro among
      obtain ⟨e, member, rfl⟩ := List.mem_map.mp among
      obtain ⟨listed, kept⟩ := List.mem_filter.mp member
      rw [Bool.and_eq_true, Bool.not_eq_true'] at kept
      have met := sound.met e listed
      refine ⟨⟨e.isStd, e.exportDepth, met, fun without =>
        met.not_std (coherent.seeded without) without⟩, kept.2, fun entry given same => ?_⟩
      have skipped : skipEntry w entryPath e = true := by
        rw [skipEntry, given]
        exact decide_eq_true same
      exact absurd (kept.1.symm.trans skipped) nofun
    · rintro ⟨⟨isStd, depth, met, -⟩, readable, other⟩
      obtain ⟨e, listed, rfl, -⟩ := sound.complete coherent.locality done met
      refine List.mem_map_of_mem (List.mem_filter.mpr ⟨listed, ?_⟩)
      rw [Bool.and_eq_true, Bool.not_eq_true']
      refine ⟨Bool.eq_false_iff.mpr fun skipped => ?_, readable⟩
      unfold skipEntry at skipped
      cases given : entryPath with
      | none => simp [given] at skipped
      | some entry => exact other entry given (of_decide_eq_true (by simpa [given] using skipped))
  constructor
  · -- Paths are listed once, and each file has one path.
    refine List.Nodup.map_on (fun path among path' among' same => ?_)
      (sound.nodup.sublist (List.filter_sublist.map Entry.path))
    exact coherent.spelling path path' ((belongs path).mp among) ((belongs path').mp among') same
  · intro file
    rw [List.mem_map]
    exact exists_congr fun path => and_congr_left' (belongs path)

theorem isClosure_nil : IsClosure w .none [] entryPath [] := by
  refine ⟨List.nodup_nil, fun file => ⟨fun among => absurd among List.not_mem_nil, ?_⟩⟩
  rintro ⟨path, ⟨⟨isStd, depth, met, -⟩, -⟩, -⟩
  -- There is nothing to start from.
  exfalso
  induction met with
  | seed among => exact absurd among List.not_mem_nil
  | use _ _ _ _ _ ih => exact ih
  | leaf _ _ _ _ _ _ _ ih => exact ih

/-- Bundling ends, and under the conditions for it the bundle is the closure of the seeds. -/
theorem bundle_isClosure (w : World) (mode : StdMode) (modules : List Str)
    (entryPath : Option Str) :
    ∃ bound, ∀ fuel, bound ≤ fuel → ∃ bundled,
      nyBuildStdSourceEx w mode modules entryPath fuel = some bundled ∧
        (Coherent w mode modules entryPath → IsClosure w mode modules entryPath bundled) := by
  refine ⟨(reachable w mode modules entryPath).length + 1, fun fuel enough => ?_⟩
  obtain ⟨bundled, ends⟩ : ∃ bundled, nyBuildStdSourceEx w mode modules entryPath fuel =
      some bundled := nyBuildStdSourceEx_ends (by omega)
  refine ⟨bundled, ends, fun coherent => ?_⟩
  unfold nyBuildStdSourceEx at ends
  split at ends
  · next nothing =>
    obtain ⟨rfl, rfl⟩ := nothing
    obtain rfl := Option.some.inj ends
    exact isClosure_nil
  · obtain ⟨mods, found, built⟩ := Option.bind_eq_some_iff.mp ends
    obtain ⟨swept, ended, rfl⟩ := Option.map_eq_some_iff.mp built
    obtain ⟨sound, done⟩ := swept_sound coherent found ended
    exact sound.isClosure coherent done

end Bundle

section Examples

/-- A token of a use line. -/
def useTok (kind : TokenKind) (lexeme : String) : Tok := ⟨kind, nm lexeme, 1, 1⟩

/-- A directory with a file that uses another one, which may be spelled in two ways. -/
def directory : World where
  file path :=
    if path = nm "./a.ny" then some (nm "use b")
    else if path = nm "./b.ny" ∨ path = nm "././b.ny" then some []
    else none
  lex text := if text = nm "use b" then [useTok .kwUse "use", useTok .ident "b"] else []
  canonical path := if path = nm "././b.ny" then nm "./b.ny" else path
  resolve raw _ _ :=
    if raw = nm "a" then some (nm "./a.ny", false)
    else if raw = nm "b" then some (nm "./b.ny", false)
    else if raw = nm "./b.ny" then some (nm "././b.ny", false)
    else none
  stdMods := []
  findStd _ := none
  isPackage _ := false
  paths := [nm "./a.ny", nm "./b.ny", nm "././b.ny"]
  finite path text read := by
    split at read
    · next same => simp [same]
    · split at read
      · next same => rcases same with same | same <;> simp [same]
      · exact absurd read nofun

theorem directory_met {path : Str} {isStd : Bool} {depth : Int}
    (met : Met directory .none [nm "a"] none path isStd depth) :
    (path = nm "./a.ny" ∨ path = nm "./b.ny") ∧ isStd = false ∧ depth = -1 := by
  have items (path text : Str) (read : directory.file path = some text) :
      moduleItems (directory.tokens text) = [] ∨
        moduleItems (directory.tokens text) = [.use (nm "b")] := by
    simp only [directory] at read
    split at read
    · obtain rfl := Option.some.inj read
      exact .inr (by decide)
    · split at read
      · obtain rfl := Option.some.inj read
        exact .inl (by decide)
      · exact absurd read nofun
  induction met with
  | seed among =>
    have only : seeds directory .none [nm "a"] none = [(nm "./a.ny", false)] := by decide
    rw [only, List.mem_singleton, Prod.mk.injEq] at among
    exact ⟨.inl among.1, among.2, rfl⟩
  | @use path text raw target isStd targetStd depth met read item found wanted ih =>
    rcases items path text read with nothing | one
    · rw [nothing] at item
      exact absurd item List.not_mem_nil
    · rw [one, List.mem_singleton, Item.use.injEq] at item
      subst item
      have known : some (nm "./b.ny", false) = some (target, targetStd) := found
      obtain ⟨rfl, rfl⟩ := Prod.mk.inj (Option.some.inj known)
      exact ⟨.inr rfl, rfl, rfl⟩
  | @leaf path text name leaf target leaves isStd targetStd depth met counts read item =>
    rcases items path text read with nothing | one
    · rw [nothing] at item
      exact absurd item List.not_mem_nil
    · rw [one, List.mem_singleton] at item
      exact absurd item nofun

theorem directory_coherent : Coherent directory .none [nm "a"] none where
  spelling path path' := by
    rintro ⟨⟨_, _, met, -⟩, -⟩ ⟨⟨_, _, met', -⟩, -⟩ same
    rcases (directory_met met).1 with rfl | rfl <;> rcases (directory_met met').1 with rfl | rfl
    · rfl
    · exact absurd same (by decide)
    · exact absurd same (by decide)
    · rfl
  locality path isStd isStd' depth depth' met met' := by
    rw [(directory_met met).2.1, (directory_met met').2.1]
  seeded _ := by decide
  plain path isStd text met _ := absurd (directory_met met).2.2 (by decide)
  sweep fuel mods found i := by
    -- Two rounds find both files and process them.
    have all : mods = [⟨nm "./a.ny", true, false, -1⟩, ⟨nm "./b.ny", true, false, -1⟩] := by
      match fuel, found with
      | fuel + 2, found => exact (Option.some.inj found).symm
    have still : Lib.Worklist.pass (scanDependencies directory (skipsStd .none)) i mods = mods := by
      refine @Lib.Worklist.pass_keeps _ _ (fun mods' => mods' = mods) (fun i mods' same => ?_) i _
        rfl
      subst same all
      match i with
      | 0 => rfl
      | 1 => rfl
      | i + 2 => rfl
    dsimp only
    rw [still]
    rintro - ⟨e, text, here, fresh, -⟩
    subst all
    have among := List.mem_of_getElem? here
    rcases List.mem_pair.mp among with rfl | rfl
    · exact absurd fresh nofun
    · exact absurd fresh nofun

/-- The bundle of the file that uses the other one is the closure. -/
theorem bundle_isClosure_directory :
    ∃ fuel bundled, nyBuildStdSourceEx directory .none [nm "a"] none fuel = some bundled ∧
      IsClosure directory .none [nm "a"] none bundled := by
  obtain ⟨bound, bundles⟩ := bundle_isClosure directory .none [nm "a"] none
  obtain ⟨bundled, built, closure⟩ := bundles bound (Nat.le_refl bound)
  exact ⟨bound, bundled, built, closure directory_coherent⟩

/-- A file that is asked for in two spellings is bundled twice. -/
theorem not_isClosure_twoSpellings :
    nyBuildStdSourceEx directory .none [nm "b", nm "./b.ny"] none 3 =
        some [nm "./b.ny", nm "././b.ny"] ∧
      ¬IsClosure directory .none [nm "b", nm "./b.ny"] none [nm "./b.ny", nm "././b.ny"] := by
  refine ⟨by decide, fun closure => ?_⟩
  exact absurd closure.1 (by decide)

end Examples

end Nytrix.Loader
