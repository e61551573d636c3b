import Nytrix.Loader.BundleLaws

/-! What whole scans keep: every entry is met, and what processed entries ask for is there. -/

namespace Nytrix.Loader

open Nytrix.Types (nm ch)

section Asking

variable {w : World} {mode : StdMode} {idx : Nat} {baseDir : Str} {preferLocal : Bool}

/-- The requests of an item at a depth, none for an export list that does not count. -/
def demanded (w : World) (skipStd : Bool) (baseDir : Str) (preferLocal : Bool) (depth : Int)
    (item : Item) : List Request :=
  match item with
  | .use _ => itemRequests w skipStd baseDir preferLocal depth item
  | .header _ _ =>
    if depth = 0 then [] else itemRequests w skipStd baseDir preferLocal depth item

theorem asked_eq_demanded (path : Str) (isStd : Bool) (depth : Int) (text : Str) :
    asked w mode path isStd depth text =
      (moduleItems (w.tokens text)).flatMap
        (demanded w (skipsStd mode) (dirFromPath path) (!isStd) depth) := by
  unfold asked demanded
  congr

theorem perform_eq_adds {skipStd : Bool} (mods : List Entry) (item : Item) :
    perform w skipStd idx baseDir preferLocal mods item =
      (demanded w skipStd baseDir preferLocal (depthAt mods idx) item).foldl modListAddEx mods := by
  unfold perform demanded
  cases item with
  | use raw => rfl
  | header name leaves =>
    dsimp only
    split <;> rfl

theorem performs_extend {skipStd : Bool} (items : List Item) (mods : List Entry) :
    Extends mods (items.foldl (perform w skipStd idx baseDir preferLocal) mods) := by
  induction items generalizing mods with
  | nil => exact Extends.refl mods
  | cons item items ih =>
    rw [List.foldl_cons, perform_eq_adds]
    exact (adds_extends _ _).trans (ih _)

theorem processed_of_performs {skipStd : Bool} {items : List Item} {mods : List Entry} {e : Entry}
    (among : e ∈ items.foldl (perform w skipStd idx baseDir preferLocal) mods)
    (processed : e.processed = true) : e ∈ mods := by
  induction items generalizing mods with
  | nil => exact among
  | cons item items ih =>
    rw [List.foldl_cons, perform_eq_adds] at among
    exact processed_of_adds (ih among) processed

theorem depthAt_of_getElem? {mods : List Entry} {e : Entry} (here : mods[idx]? = some e) :
    depthAt mods idx = e.exportDepth := by
  rw [depthAt, here]
  rfl

theorem performs_hold {skipStd : Bool} {items : List Item} {mods : List Entry} {e : Entry}
    (here : mods[idx]? = some e)
    (kept : (items.foldl (perform w skipStd idx baseDir preferLocal) mods)[idx]? = some e)
    (processed : e.processed = true) {item : Item} (among : item ∈ items) {r : Request}
    (wanted : r ∈ demanded w skipStd baseDir preferLocal e.exportDepth item) :
    Holds (items.foldl (perform w skipStd idx baseDir preferLocal) mods) r.path r.depth := by
  induction items generalizing mods with
  | nil => exact absurd among List.not_mem_nil
  | cons first items ih =>
    rw [List.foldl_cons] at kept ⊢
    have grown : Extends mods (perform w skipStd idx baseDir preferLocal mods first) :=
      performs_extend [first] mods
    rcases List.mem_cons.mp among with rfl | later
    · rw [perform_eq_adds, depthAt_of_getElem? here]
      exact (performs_extend items _).holds (adds_hold wanted mods)
    · -- The entry does not change between the start and the end.
      obtain ⟨e', there, -, -, -, -⟩ := grown idx e here
      have onward : Extends (perform w skipStd idx baseDir preferLocal mods first)
          (items.foldl (perform w skipStd idx baseDir preferLocal)
            (perform w skipStd idx baseDir preferLocal mods first)) := performs_extend items _
      obtain ⟨e'', last, -, -, -, same⟩ := onward idx e' there
      obtain rfl := Option.some.inj (kept.symm.trans last)
      obtain rfl := same processed
      exact ih there kept later

theorem performs_getElem? {skipStd : Bool} {items : List Item} {mods : List Entry} {e : Entry}
    (here : mods[idx]? = some e)
    (kept : ∀ item ∈ items, ∀ r ∈ demanded w skipStd baseDir preferLocal e.exportDepth item,
      ∀ j ≤ idx, ∀ passed, mods[j]? = some passed → passed.path = r.path →
        nyExportDepthMorePermissive r.depth passed.exportDepth = false) :
    ∀ j ≤ idx,
      (items.foldl (perform w skipStd idx baseDir preferLocal) mods)[j]? = mods[j]? := by
  induction items generalizing mods with
  | nil => exact fun _ _ => rfl
  | cons first items ih =>
    have inside : idx < mods.length := (List.getElem?_eq_some_iff.mp here).1
    have same := (adds_getElem? inside (kept first List.mem_cons_self)).2
    rw [List.foldl_cons, perform_eq_adds, depthAt_of_getElem? here]
    intro j upto
    rw [ih (same idx (Nat.le_refl idx) ▸ here) (fun item among r wanted j upto passed there =>
      kept item (List.mem_cons_of_mem first among) r wanted j upto passed (same j upto ▸ there)) j
        upto]
    exact same j upto

theorem performs_nodup {skipStd : Bool} (items : List Item) {mods : List Entry}
    (nodup : (mods.map Entry.path).Nodup) :
    ((items.foldl (perform w skipStd idx baseDir preferLocal) mods).map Entry.path).Nodup := by
  induction items generalizing mods with
  | nil => exact nodup
  | cons item items ih =>
    rw [List.foldl_cons, perform_eq_adds]
    exact ih (List.foldlRecOn (motive := fun mods : List Entry => (mods.map Entry.path).Nodup)
      _ _ nodup fun _ nodup r _ => modListAddEx_nodup nodup r)

end Asking

section Scans

variable {w : World} {mode : StdMode} {modules : List Str} {entryPath : Option Str}

/-- What the file at a path asks for, nothing if it cannot be read. -/
def itemsOf (w : World) (path : Str) : List Item :=
  match w.file path with
  | none => []
  | some text => moduleItems (w.tokens text)

/-- An entry that has been scanned. -/
def Entry.marked (e : Entry) : Entry := { e with processed := true }

theorem scanDependencies_cases {idx : Nat} {mods : List Entry}
    (plain : ∀ e text, mods[idx]? = some e → e.exportDepth = 0 → w.file e.path = some text →
      plainModule (w.tokens text) = true) :
    (scanDependencies w (skipsStd mode) idx mods = mods ∧
        ∀ e, mods[idx]? = some e → e.processed = true) ∨
      ∃ e, mods[idx]? = some e ∧ e.processed = false ∧
        scanDependencies w (skipsStd mode) idx mods =
          (itemsOf w e.path).foldl
            (perform w (skipsStd mode) idx (dirFromPath e.path) (!e.isStd))
            (mods.set idx e.marked) := by
  cases here : mods[idx]? with
  | none => exact .inl ⟨by rw [scanDependencies, here], nofun⟩
  | some e =>
    cases processed : e.processed with
    | true =>
      refine .inl ⟨by rw [scanDependencies, here]; exact if_pos processed, ?_⟩
      rintro _ ⟨⟩
      exact processed
    | false =>
      refine .inr ⟨e, rfl, processed, ?_⟩
      cases read : w.file e.path with
      | none => simp only [scanDependencies, here, processed, read, itemsOf]; rfl
      | some text =>
        simp only [scanDependencies, here, processed, read, itemsOf]
        refine scanTokens_eq_items (Nat.le_refl _) (Nat.le_refl _) (Nat.le_refl _) fun zero => ?_
        -- An export list is passed over only at depth zero.
        have inside : idx < mods.length := (List.getElem?_eq_some_iff.mp here).1
        have own : (mods.set idx e.marked)[idx]? = some e.marked := List.getElem?_set_self inside
        exact plain e text here ((depthAt_of_getElem? own).symm.trans zero) read

theorem marked_paths {mods : List Entry} {idx : Nat} {e : Entry} (here : mods[idx]? = some e) :
    (mods.set idx e.marked).map Entry.path = mods.map Entry.path := by
  obtain ⟨inside, same⟩ := List.getElem?_eq_some_iff.mp here
  rw [List.map_set]
  refine List.ext_getElem (by rw [List.length_set]) fun i bound bound' => ?_
  rw [List.getElem_set]
  split
  · next own =>
    subst own
    rw [List.getElem_map, same]
    rfl
  · rfl

theorem mem_marked {mods : List Entry} {idx : Nat} {e e' : Entry}
    (among : e' ∈ mods.set idx e.marked) : e' ∈ mods ∨ e' = e.marked :=
  List.mem_or_eq_of_mem_set among

theorem holds_of_marked {mods : List Entry} {idx : Nat} {e : Entry} (here : mods[idx]? = some e)
    {path : Str} {depth : Int} (held : Holds mods path depth) :
    Holds (mods.set idx e.marked) path depth := by
  obtain ⟨e', among, same, deep⟩ := held
  obtain ⟨i, there⟩ := List.mem_iff_getElem?.mp among
  have inside : idx < mods.length := (List.getElem?_eq_some_iff.mp here).1
  by_cases own : i = idx
  · subst own
    obtain rfl := Option.some.inj (here.symm.trans there)
    exact ⟨_, List.mem_of_getElem? (List.getElem?_set_self inside), same, deep⟩
  · exact ⟨e', List.mem_of_getElem? ((List.getElem?_set_ne (Ne.symm own)).trans there), same, deep⟩

variable (w mode modules entryPath)

/-- What always holds of the list of files. -/
structure Sound (mods : List Entry) : Prop where
  /-- Each path stands at one place. -/
  nodup : (mods.map Entry.path).Nodup
  /-- Every file is met at the depth that counts for it. -/
  met : ∀ e ∈ mods, Met w mode modules entryPath e.path e.isStd e.exportDepth
  /-- What a processed file asks for is there. -/
  served : ∀ e ∈ mods, e.processed = true → ∀ text, w.file e.path = some text →
    ∀ r ∈ asked w mode e.path e.isStd e.exportDepth text, Holds mods r.path r.depth
  /-- The seeds are there. -/
  seeded : ∀ seed ∈ seeds w mode modules entryPath, Holds mods seed.1 (-1)

variable {w mode modules entryPath}

theorem demanded_met {path text : Str} {isStd : Bool} {depth : Int}
    (met : Met w mode modules entryPath path isStd depth) (read : w.file path = some text)
    {item : Item} (among : item ∈ moduleItems (w.tokens text)) {r : Request}
    (wanted : r ∈ demanded w (skipsStd mode) (dirFromPath path) (!isStd) depth item) :
    Met w mode modules entryPath r.path r.isStd r.depth := by
  have found {raw : Str} {depth' : Int}
      (request : requestOf w (skipsStd mode) (dirFromPath path) (!isStd) depth' raw = some r) :
      w.resolve raw (dirFromPath path) (!isStd) = some (r.path, r.isStd) ∧
        ¬(skipsStd mode = true ∧ r.isStd = true) ∧ r.depth = depth' := by
    obtain ⟨⟨target, targetStd⟩, resolved, kept⟩ := Option.bind_eq_some_iff.mp request
    dsimp only at kept
    split at kept
    · exact absurd kept nofun
    · next inside =>
      obtain rfl := Option.some.inj kept
      exact ⟨resolved, fun both => inside (by simpa using both), rfl⟩
  cases item with
  | use raw =>
    obtain ⟨resolved, kept, deep⟩ := found (Option.mem_toList.mp wanted)
    rw [deep]
    exact .use met read among resolved kept
  | header name leaves =>
    rw [demanded] at wanted
    split at wanted
    · exact absurd wanted List.not_mem_nil
    · next counts =>
      obtain ⟨leaf, exported, request⟩ := List.mem_filterMap.mp wanted
      obtain ⟨resolved, kept, deep⟩ := found request
      rw [deep]
      exact .leaf met counts read among exported resolved kept

section Preserving

variable (locality : ∀ path isStd isStd' depth depth', Met w mode modules entryPath path isStd depth →
  Met w mode modules entryPath path isStd' depth' → isStd = isStd')
include locality

theorem modListAddEx_met {mods : List Entry} {r : Request}
    (met : ∀ e ∈ mods, Met w mode modules entryPath e.path e.isStd e.exportDepth)
    (new : Met w mode modules entryPath r.path r.isStd r.depth) :
    ∀ e ∈ modListAddEx mods r, Met w mode modules entryPath e.path e.isStd e.exportDepth := by
  intro e among
  rcases mem_modListAddEx among with before | ⟨old, before, rfl, same⟩ | rfl
  · exact met e before
  · -- The file stays of the standard library, or not of it.
    have std := locality _ _ _ _ _ (met old before) (same ▸ new)
    exact std ▸ new
  · exact new

theorem performs_met {mods : List Entry} {idx : Nat} {e : Entry} (here : mods[idx]? = some e)
    (met : ∀ e ∈ mods, Met w mode modules entryPath e.path e.isStd e.exportDepth) :
    ∀ e' ∈ (itemsOf w e.path).foldl
        (perform w (skipsStd mode) idx (dirFromPath e.path) (!e.isStd)) mods,
      Met w mode modules entryPath e'.path e'.isStd e'.exportDepth := by
  have start : Extends mods mods := Extends.refl mods
  refine (List.foldlRecOn (motive := fun mods' : List Entry => Extends mods mods' ∧
    ∀ e ∈ mods', Met w mode modules entryPath e.path e.isStd e.exportDepth) _ _ ⟨start, met⟩
    fun mods' kept item among => ?_).2
  obtain ⟨grown, met'⟩ := kept
  rw [perform_eq_adds]
  refine ⟨grown.trans (adds_extends _ _), ?_⟩
  -- The entry is still about the same file, and met at its present depth.
  obtain ⟨e', there, path, std, -, -⟩ := grown idx e here
  have own := met' e' (List.mem_of_getElem? there)
  rw [path, std] at own
  rw [depthAt_of_getElem? there]
  refine List.foldlRecOn (motive := fun mods'' : List Entry =>
    ∀ e ∈ mods'', Met w mode modules entryPath e.path e.isStd e.exportDepth) _ _ met'
    fun mods'' met'' r wanted => modListAddEx_met locality met'' ?_
  unfold itemsOf at among
  split at among
  · exact absurd among List.not_mem_nil
  · next text read => exact demanded_met own read among wanted

theorem scanDependencies_sound
    (plain : ∀ path isStd text, Met w mode modules entryPath path isStd 0 →
      w.file path = some text → plainModule (w.tokens text) = true)
    (idx : Nat) {mods : List Entry} (sound : Sound w mode modules entryPath mods) :
    Sound w mode modules entryPath (scanDependencies w (skipsStd mode) idx mods) := by
  have plainHere : ∀ e text, mods[idx]? = some e → e.exportDepth = 0 → w.file e.path = some text →
      plainModule (w.tokens text) = true := fun e text here zero read =>
    plain e.path e.isStd text (zero ▸ sound.met e (List.mem_of_getElem? here)) read
  rcases scanDependencies_cases plainHere with
    ⟨same, -⟩ | ⟨e, here, fresh, result⟩
  · rw [same]
    exact sound
  · have inside : idx < mods.length := (List.getElem?_eq_some_iff.mp here).1
    have own : (mods.set idx e.marked)[idx]? = some e.marked := List.getElem?_set_self inside
    have nodup : ((mods.set idx e.marked).map Entry.path).Nodup := by
      rw [marked_paths here]
      exact sound.nodup
    have metAll : ∀ e' ∈ mods.set idx e.marked,
        Met w mode modules entryPath e'.path e'.isStd e'.exportDepth := by
      intro e' among
      rcases mem_marked among with before | rfl
      · exact sound.met e' before
      · exact sound.met e (List.mem_of_getElem? here)
    have grown : Extends (mods.set idx e.marked) ((itemsOf w e.path).foldl
        (perform w (skipsStd mode) idx (dirFromPath e.path) (!e.isStd)) (mods.set idx e.marked)) :=
      performs_extend (itemsOf w e.path) (mods.set idx e.marked)
    rw [result]
    have nodupEnd : (((itemsOf w e.path).foldl
        (perform w (skipsStd mode) idx (dirFromPath e.path) (!e.isStd))
        (mods.set idx e.marked)).map Entry.path).Nodup := performs_nodup (itemsOf w e.path) nodup
    refine ⟨nodupEnd, performs_met locality (e := e.marked) own metAll, ?_, fun seed among =>
      grown.holds (holds_of_marked here (sound.seeded seed among))⟩
    intro e' among processed text read r wanted
    rcases mem_marked (processed_of_performs among processed) with before | rfl
    · -- What another entry asked for has stayed.
      exact grown.holds (holds_of_marked here (sound.served e' before processed text read r wanted))
    · -- The entry has not been opened again, so it has asked for everything at its depth.
      obtain ⟨e'', there, path, -, -, -⟩ := grown idx e.marked own
      obtain ⟨i, place⟩ := List.mem_iff_getElem?.mp among
      have kept : ((itemsOf w e.path).foldl
          (perform w (skipsStd mode) idx (dirFromPath e.path) (!e.isStd))
          (mods.set idx e.marked))[idx]? = some e.marked := by
        obtain ⟨bound, atPlace⟩ := List.getElem?_eq_some_iff.mp place
        obtain ⟨bound', atOwn⟩ := List.getElem?_eq_some_iff.mp there
        have samePlace : i = idx := by
          refine (@List.Nodup.getElem_inj_iff _ _ nodupEnd _ (by rwa [List.length_map]) _
            (by rwa [List.length_map])).mp ?_
          rw [List.getElem_map, List.getElem_map, atPlace, atOwn, path]
        exact samePlace ▸ place
      rw [asked_eq_demanded] at wanted
      obtain ⟨item, listed, demand⟩ := List.mem_flatMap.mp wanted
      have items : itemsOf w e.path = moduleItems (w.tokens text) := by
        rw [itemsOf, show w.file e.path = some text from read]
      exact performs_hold own kept rfl (items ▸ listed) demand

end Preserving

end Scans

end Nytrix.Loader
