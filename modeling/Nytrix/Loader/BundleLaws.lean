import Nytrix.Loader.ScanLaws
import Mathlib.Data.List.Perm.Subperm
import Mathlib.Data.List.Nodup

/-! What a scan keeps of the list of files: every file is met, and processed ones are satisfied. -/

namespace Nytrix.Loader

open Nytrix.Types (nm ch)

section Depths

/-- Whether a depth lets through whatever another one does. -/
def AtLeast (depth other : Int) : Prop := nyExportDepthMorePermissive other depth = false

theorem atLeast_iff {depth other : Int} :
    AtLeast depth other ↔ depth < 0 ∨ 0 ≤ other ∧ other ≤ depth := by
  unfold AtLeast nyExportDepthMorePermissive
  split
  · simp
    omega
  · split
    · simp
      omega
    · simp
      omega

theorem AtLeast.refl (depth : Int) : AtLeast depth depth := by
  rw [atLeast_iff]
  omega

theorem AtLeast.trans {first second third : Int} (above : AtLeast first second)
    (below : AtLeast second third) : AtLeast first third := by
  rw [atLeast_iff] at *
  omega

theorem AtLeast.of_more {next cur : Int} (more : nyExportDepthMorePermissive next cur = true) :
    AtLeast next cur := by
  unfold nyExportDepthMorePermissive at more
  rw [atLeast_iff]
  split at more
  · omega
  · split at more
    · exact absurd more nofun
    · have := of_decide_eq_true more
      omega

end Depths

section Growth

/--
A list with more files, and with entries that may have been opened again.

An entry that is processed in the end has not changed on the way.
-/
def Extends (mods mods' : List Entry) : Prop :=
  ∀ (i : Nat) (e : Entry), mods[i]? = some e → ∃ e' : Entry, mods'[i]? = some e' ∧
    e'.path = e.path ∧ e'.isStd = e.isStd ∧ AtLeast e'.exportDepth e.exportDepth ∧
      (e'.processed = true → e' = e)

theorem Extends.refl (mods : List Entry) : Extends mods mods :=
  fun _ e here => ⟨e, here, rfl, rfl, AtLeast.refl _, fun _ => rfl⟩

theorem Extends.trans {first second third : List Entry} (early : Extends first second)
    (late : Extends second third) : Extends first third := by
  intro i e here
  obtain ⟨e', there, path, std, depth, same⟩ := early i e here
  obtain ⟨e'', end_, path', std', depth', same'⟩ := late i e' there
  refine ⟨e'', end_, path'.trans path, std'.trans std, depth'.trans depth, fun processed => ?_⟩
  obtain rfl := same' processed
  exact same processed

theorem raised_keeps (r : Request) (e : Entry) :
    (e.raised r).path = e.path ∧ (e.raised r).isStd = e.isStd ∧
      AtLeast (e.raised r).exportDepth e.exportDepth ∧
      ((e.raised r).processed = true → e.raised r = e) := by
  unfold Entry.raised
  split
  · next more => exact ⟨rfl, rfl, AtLeast.of_more more.2, nofun⟩
  · exact ⟨rfl, rfl, AtLeast.refl _, fun _ => rfl⟩

theorem modListAddEx_extends (mods : List Entry) (r : Request) :
    Extends mods (modListAddEx mods r) := by
  intro i e here
  unfold modListAddEx
  split
  · have kept := raised_keeps r e
    exact ⟨e.raised r, by rw [List.getElem?_map, here]; rfl, kept⟩
  · have inside := (List.getElem?_eq_some_iff.mp here).1
    exact ⟨e, by rw [List.getElem?_append_left inside, here], rfl, rfl, AtLeast.refl _, fun _ => rfl⟩

theorem adds_extends (requests : List Request) (mods : List Entry) :
    Extends mods (requests.foldl modListAddEx mods) := by
  induction requests generalizing mods with
  | nil => exact Extends.refl mods
  | cons r requests ih => exact (modListAddEx_extends mods r).trans (ih _)

/-- Whether a list holds a file at such a depth. -/
def Holds (mods : List Entry) (path : Str) (depth : Int) : Prop :=
  ∃ e ∈ mods, e.path = path ∧ AtLeast e.exportDepth depth

theorem Extends.holds {mods mods' : List Entry} (extends_ : Extends mods mods') {path : Str}
    {depth : Int} (held : Holds mods path depth) : Holds mods' path depth := by
  obtain ⟨e, among, same, deep⟩ := held
  obtain ⟨i, here⟩ := List.mem_iff_getElem?.mp among
  obtain ⟨e', there, path', -, deep', -⟩ := extends_ i e here
  exact ⟨e', List.mem_of_getElem? there, path'.trans same, deep'.trans deep⟩

theorem modListAddEx_holds (mods : List Entry) (r : Request) :
    Holds (modListAddEx mods r) r.path r.depth := by
  unfold modListAddEx
  split
  · next known =>
    obtain ⟨e, among, same⟩ := List.any_eq_true.mp known
    have same := of_decide_eq_true same
    refine ⟨e.raised r, List.mem_map_of_mem among, (raised_keeps r e).1.trans same, ?_⟩
    unfold Entry.raised
    split
    · exact AtLeast.refl _
    · next kept => exact Bool.eq_false_iff.mpr fun more => kept ⟨same, more⟩
  · exact ⟨_, List.mem_append_right _ (List.mem_singleton_self _), rfl, AtLeast.refl _⟩

theorem adds_hold {requests : List Request} {r : Request} (among : r ∈ requests)
    (mods : List Entry) : Holds (requests.foldl modListAddEx mods) r.path r.depth := by
  induction requests generalizing mods with
  | nil => exact absurd among List.not_mem_nil
  | cons first requests ih =>
    rcases List.mem_cons.mp among with rfl | later
    · exact (adds_extends requests _).holds (modListAddEx_holds mods r)
    · exact ih later _

theorem mem_modListAddEx {mods : List Entry} {r : Request} {e : Entry}
    (among : e ∈ modListAddEx mods r) :
    e ∈ mods ∨ (∃ old ∈ mods, e = ⟨r.path, false, old.isStd, r.depth⟩ ∧ old.path = r.path) ∨
      e = ⟨r.path, false, r.isStd, r.depth⟩ := by
  unfold modListAddEx at among
  split at among
  · obtain ⟨old, before, rfl⟩ := List.mem_map.mp among
    unfold Entry.raised
    split
    · next more => exact .inr (.inl ⟨old, before, by rw [more.1], more.1⟩)
    · exact .inl before
  · rcases List.mem_append.mp among with before | new
    · exact .inl before
    · exact .inr (.inr (List.mem_singleton.mp new))

theorem processed_of_adds {requests : List Request} {mods : List Entry} {e : Entry}
    (among : e ∈ requests.foldl modListAddEx mods) (processed : e.processed = true) : e ∈ mods := by
  induction requests generalizing mods with
  | nil => exact among
  | cons r requests ih =>
    rcases mem_modListAddEx (ih among) with old | ⟨_, _, rfl, _⟩ | rfl
    · exact old
    · exact absurd processed nofun
    · exact absurd processed nofun

theorem modListAddEx_nodup {mods : List Entry} (nodup : (mods.map Entry.path).Nodup) (r : Request) :
    ((modListAddEx mods r).map Entry.path).Nodup := by
  unfold modListAddEx
  split
  · have same : (mods.map (Entry.raised r)).map Entry.path = mods.map Entry.path := by
      rw [List.map_map]
      exact List.map_congr_left fun e _ => (raised_keeps r e).1
    rw [same]
    exact nodup
  · next fresh =>
    rw [List.map_append, List.nodup_append]
    refine ⟨nodup, by simp, ?_⟩
    rintro path before _ new rfl
    obtain ⟨e, among, rfl⟩ := List.mem_map.mp before
    obtain ⟨_, single, same⟩ := List.mem_map.mp new
    obtain rfl := List.mem_singleton.mp single
    exact fresh (List.any_eq_true.mpr ⟨e, among, decide_eq_true same.symm⟩)

theorem adds_getElem? {requests : List Request} {mods : List Entry} {i : Nat}
    (inside : i < mods.length)
    (kept : ∀ r ∈ requests, ∀ j ≤ i, ∀ e, mods[j]? = some e → e.path = r.path →
      nyExportDepthMorePermissive r.depth e.exportDepth = false) :
    i < (requests.foldl modListAddEx mods).length ∧
      ∀ j ≤ i, (requests.foldl modListAddEx mods)[j]? = mods[j]? := by
  induction requests generalizing mods with
  | nil => exact ⟨inside, fun _ _ => rfl⟩
  | cons r requests ih =>
    have first : ∀ j ≤ i, (modListAddEx mods r)[j]? = mods[j]? := by
      intro j upto
      unfold modListAddEx
      split
      · rw [List.getElem?_map]
        cases here : mods[j]? with
        | none => rfl
        | some e =>
          have same : e.raised r = e := by
            unfold Entry.raised
            refine if_neg fun more => ?_
            rw [kept r List.mem_cons_self j upto e here more.1] at more
            exact absurd more.2 nofun
          rw [Option.map_some, same]
      · exact List.getElem?_append_left (by omega)
    have longer : i < (modListAddEx mods r).length := by
      have there := first i (Nat.le_refl i)
      rw [List.getElem?_eq_getElem inside] at there
      exact (List.getElem?_eq_some_iff.mp there).1
    have later := ih longer fun r' among j upto e here =>
      kept r' (List.mem_cons_of_mem r among) j upto e (first j upto ▸ here)
    exact ⟨later.1, fun j upto => (later.2 j upto).trans (first j upto)⟩

end Growth

end Nytrix.Loader
