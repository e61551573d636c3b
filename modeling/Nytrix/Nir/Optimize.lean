import Nytrix.Nir.BranchLaws
import Nytrix.Nir.CompactLaws
import Nytrix.Nir.ConstFold
import Nytrix.Nir.CopyProp
import Nytrix.Nir.DeadCodeLaws
import Nytrix.Nir.Peephole

/-! The clean-up passes together and the optimizer: when they preserve what a function computes. -/

namespace Nytrix.Nir

open Nytrix.Lib

/--
The clean-up passes preserve what a function computes.

Where the VM succeeds on an accepted function, it succeeds with the same result and memory on the
simplified and refreshed function exactly when the pass leaves the definitions of what is still
read, on the function without dead code exactly when nothing needed is discarded, and on the
compacted function always. Every reachable instruction that stores, calls or transfers control
survives dead code elimination.
-/
theorem cleanup_preserves {f : Func} (accepted : verify f = .ok ()) :
    (∀ {σ : Type} {cfg : EvalConfig σ} {w : World σ} {r : EvalResult σ}, Succeeds f cfg w r →
      (Succeeds (refreshMetadata (cfgSimplify f)) cfg w r ↔ SimplifySafe f) ∧
      (Succeeds (dce f) cfg w r ↔ DceSafe f) ∧
      ∀ f', compact f = some f' → Succeeds f' cfg w r) ∧
    ∀ {i : Nat} {W : Set Int} {inst : Inst}, Reach f i W → f.data[i]? = some inst →
      inst.mustStay = true → (dce f).data[i]? = some inst := by
  refine ⟨fun succeeds => ⟨⟨fun after => ?_, fun safe => ?_⟩, ⟨fun after => ?_, fun safe => ?_⟩,
    fun f' compacted => ?_⟩, fun path found stays => ?_⟩
  · exact simplifySafe_of_verify accepted (succeeds_iff.mp after).1
  · exact succeeds_cfgSimplify safe succeeds
  · exact dceSafe_of_verify accepted (succeeds_iff.mp after).1
  · exact succeeds_dce safe succeeds
  · exact succeeds_compact compacted succeeds
  · exact dce_present accepted path found stays

/-- A constant branch over a dead store, an unused sum, and a store that stays. -/
def cleanedStore : Func := refreshMetadata {
  data := [{ op := .constI64, dst := 0, imm := 1 }, { op := .brIf, dst := -1, a := 0, imm := 0 },
    { op := .storeLocal, dst := -1, a := 0, imm := 1 }, { op := .label, dst := -1, imm := 0 },
    { op := .addI64, dst := 1, a := 0, b := 0 }, { op := .storeLocal, dst := -1, a := 0, imm := 2 },
    { op := .ret, dst := -1, a := 0 }]
  nextValue := 2 }

/-- Each clean-up pass leaves the run of the function as it was. -/
theorem cleanedStore_preserved : ∃ r, Succeeds cleanedStore fourSlotsConfig zeroWorld r ∧
    Succeeds (refreshMetadata (cfgSimplify cleanedStore)) fourSlotsConfig zeroWorld r ∧
    Succeeds (dce cleanedStore) fourSlotsConfig zeroWorld r ∧
    (∃ f', compact cleanedStore = some f' ∧ Succeeds f' fourSlotsConfig zeroWorld r) ∧
    (dce cleanedStore).data[0]? = cleanedStore.data[0]? := by
  have accepted : verify cleanedStore = .ok () := rfl
  have succeeds : Succeeds cleanedStore fourSlotsConfig zeroWorld _ := ⟨20, rfl⟩
  obtain ⟨simplified, eliminated, compacted⟩ := (cleanup_preserves accepted).1 succeeds
  refine ⟨_, succeeds, simplified.mpr (simplifySafe_of_verify accepted rfl),
    eliminated.mpr (dceSafe_of_verify accepted rfl), ⟨_, rfl, compacted _ rfl⟩, by decide⟩

/-- A branch on a constant to a label that does not come next. -/
def constantBranch : Func := refreshMetadata {
  data := [{ op := .constI64, dst := 0, imm := 1 }, { op := .brIf, dst := -1, a := 0, imm := 0 },
    { op := .ret, dst := -1, a := -1 }, { op := .label, dst := -1, imm := 0 },
    { op := .ret, dst := -1, a := 0 }]
  nextValue := 1 }

/-- A loop no path reaches, which stores a constant defined before its label. -/
def unreachedLoop : Func := refreshMetadata {
  data := [{ op := .br, dst := -1, imm := 1 }, { op := .constI64, dst := 0, imm := 5 },
    { op := .label, dst := -1, imm := 2 }, { op := .storeLocal, dst := -1, a := 0, imm := 0 },
    { op := .br, dst := -1, imm := 2 }, { op := .label, dst := -1, imm := 1 },
    { op := .ret, dst := -1, a := -1 }]
  nextValue := 1 }

/-- A structure copy between two local slots. -/
def copiedStruct : Func := refreshMetadata {
  data := [{ op := .addrLocal, dst := 0, imm := 0 }, { op := .addrLocal, dst := 1, imm := 1 },
    { op := .copyStruct, dst := -1, a := 0, b := 1, imm := 8 }, { op := .ret, dst := -1, a := 0 }]
  nextValue := 2 }

theorem not_succeeds_of_rejected {σ : Type} {f : Func} {text : String}
    (rejected : verify f = .error text) (cfg : EvalConfig σ) (w : World σ) (r : EvalResult σ) :
    ¬ Succeeds f cfg w r := by
  intro succeeds
  rw [(succeeds_iff.mp succeeds).1] at rejected
  cases rejected

theorem reach_copyStruct : ∃ W, Reach copiedStruct 2 W :=
  ⟨_, .edge (.edge .entry rfl rfl) rfl rfl⟩

/--
The passes as they stand break three functions.

Without a refresh the simplified branch carries no effects, the unreached loop loses the constant it
reads, and the structure copy is gone.
-/
theorem cleanup_breaks :
    (∃ r, Succeeds constantBranch fourSlotsConfig zeroWorld r ∧
      ¬ Succeeds (cfgSimplify constantBranch) fourSlotsConfig zeroWorld r) ∧
    (∃ r, Succeeds unreachedLoop fourSlotsConfig zeroWorld r ∧
      ¬ Succeeds (dce unreachedLoop) fourSlotsConfig zeroWorld r) ∧
    (verify copiedStruct = .ok () ∧ (∃ W, Reach copiedStruct 2 W) ∧
      ((copiedStruct.data[2]?).map Inst.op = some .copyStruct) ∧
      ((dce copiedStruct).data[2]?).map Inst.op = some .nop) := by
  refine ⟨⟨_, ⟨20, rfl⟩, not_succeeds_of_rejected rfl _ _ _⟩,
    ⟨_, ⟨20, rfl⟩, not_succeeds_of_rejected rfl _ _ _⟩, rfl, reach_copyStruct, rfl, rfl⟩

/-- The optimiser's passes. -/
inductive Pass where
  | constFold | peephole | copyProp | cfgSimplify | dce | compact
  deriving DecidableEq

/-- What a pass does to a function, absent when it reports failure. -/
def Pass.rewrite : Pass → Func → Option Func
  | .constFold, f => some (Nir.constFold f)
  | .peephole, f => Nir.peephole f
  | .copyProp, f => some (Nir.copyProp f)
  | .cfgSimplify, f => some (Nir.cfgSimplify f)
  | .dce, f => some (Nir.dce f)
  | .compact, f => Nir.compact f

/-- The passes in the order the optimiser runs them. -/
def optPasses : List Pass :=
  [.constFold, .peephole, .copyProp, .constFold, .cfgSimplify, .dce, .cfgSimplify, .compact]

/-- A pass followed by a refresh. -/
def timedPass (f : Func) (p : Pass) : Option Func := (p.rewrite f).map refreshMetadata

/-- The optimiser. -/
def optimize (f : Func) : Option Func := (optPasses.foldlM timedPass f).map refreshMetadata

/-- A pass followed by a refresh and a verification. -/
def timedPassVerified (f : Func) (p : Pass) : Option Func := do
  let f ← timedPass f p
  match verify f with
  | .ok () => some f
  | .error _ => none

/-- The optimiser as its debugging entry runs it, verifying after every pass. -/
def optimizeDebug (f : Func) : Option Func :=
  (optPasses.foldlM timedPassVerified f).map refreshMetadata

/-- The condition on a function under which a pass leaves it acceptable. -/
def Pass.Safe : Pass → Func → Prop
  | .constFold, f => FoldSafe f
  | .peephole, f => PeepholeSafe f
  | .copyProp, _ => True
  | .cfgSimplify, f => SimplifySafe f
  | .dce, f => DceSafe f
  | .compact, f => CompactSafe f

/-- Every pass of the list is safe on the function it is given. -/
def SafeAlong : List Pass → Func → Prop
  | [], _ => True
  | p :: rest, f => p.Safe f ∧ ∀ g, timedPass f p = some g → SafeAlong rest g

/-- A function the optimiser may be given: accepted, and with refreshed metadata. -/
structure Ready (f : Func) : Prop where
  accepted : verify f = .ok ()
  refreshed : refreshMetadata f = f

/-- No store of the function names a destination, so a refresh erases none. -/
def StoresBare (f : Func) : Prop :=
  ∀ inst ∈ f.data, inst.op.shape.dropsDst = true → inst.dst < 0

theorem StoresBare.keptReads {f : Func} (bare : StoresBare f) (accepted : verify f = .ok ()) :
    KeptReads f := by
  intro i inst found v read
  obtain ⟨given, -, known⟩ := read_defined accepted found read
  obtain ⟨-, j, p, before, there, dst⟩ := definedBefore_iff.mp known
  refine keptBefore_iff.mpr ⟨given, j, p, before, there, ?_, dst⟩
  by_contra drops
  have := bare p (List.mem_of_getElem? there) (by simpa using drops)
  omega

theorem Ready.storesBare {f : Func} (ready : Ready f) : StoresBare f := by
  intro inst member drops
  rw [← ready.refreshed] at member
  simp only [refreshMetadata, List.mem_map] at member
  obtain ⟨p, -, rfl⟩ := member
  rw [refreshInst_op] at drops
  rw [refreshInst_dst, if_pos drops]
  decide

theorem Ready.inst_refreshed {f : Func} (ready : Ready f) {inst : Inst} (member : inst ∈ f.data) :
    refreshInst inst = inst := by
  rw [← ready.refreshed] at member
  simp only [refreshMetadata, List.mem_map] at member
  obtain ⟨p, -, rfl⟩ := member
  exact refreshInst_idem p

theorem verify_timed_copyProp {f : Func} (ready : Ready f) :
    verify (refreshMetadata (copyProp f)) = .ok () := by
  have after := verify_copyProp ready.accepted
  refine verify_refresh_of_kept after (StoresBare.keptReads (fun inst member drops => ?_) after)
  have same := copyProp_map (f := f) (fun inst => (inst.op, inst.dst)) fun _ _ => rfl
  have image : (inst.op, inst.dst) ∈ (copyProp f).data.map fun inst => (inst.op, inst.dst) :=
    List.mem_map.mpr ⟨inst, member, rfl⟩
  rw [same, List.mem_map] at image
  obtain ⟨p, there, pair⟩ := image
  simp only [Prod.mk.injEq] at pair
  rw [← pair.2]
  exact ready.storesBare p there (by rw [pair.1]; exact drops)

theorem refreshMetadata_dce {f : Func} (ready : Ready f) : refreshMetadata (dce f) = dce f := by
  rw [dce_eq]
  split
  · exact ready.refreshed
  · simp only [refreshMetadata]
    congr 1
    refine (List.map_congr_left fun inst' member => ?_).trans (List.map_id _)
    obtain ⟨i, at_⟩ := List.mem_iff_getElem?.mp member
    obtain ⟨inst, found, ⟨rfl, -⟩ | rfl⟩ := dceData_cases at_
    · exact ready.inst_refreshed (List.mem_of_getElem? found)
    · rfl

theorem verify_timed_compact {f f' : Func} (ready : Ready f) (compacted : compact f = some f') :
    verify (refreshMetadata f') = .ok () := by
  obtain ⟨map, compacts⟩ := compacts_of_compact ready.accepted compacted
  have after := compacts.verify ready.accepted
  refine verify_refresh_of_kept after (StoresBare.keptReads (fun inst' member drops => ?_) after)
  obtain ⟨k, at_⟩ := List.mem_iff_getElem?.mp member
  obtain ⟨i, inst, found, stays, -, rfl⟩ := compacts.from_place at_
  have bare := ready.storesBare inst (List.mem_of_getElem? found) drops
  rw [← Int.not_le] at bare ⊢
  exact fun given => bare ((compacts.sign found stays (by simp)).mp given)

theorem timedPass_accepted_iff {f : Func} (ready : Ready f) (p : Pass) :
    (∃ g, timedPass f p = some g ∧ verify g = .ok ()) ↔ p.Safe f := by
  have kept := ready.storesBare.keptReads ready.accepted
  have total {g : Func} : (∃ h, some g = some h ∧ verify h = .ok ()) ↔ verify g = .ok () := by simp
  cases p <;> simp only [timedPass, Pass.rewrite, Pass.Safe, Option.map_some, total]
  case constFold =>
    refine ⟨foldSafe_of_verify ready.accepted, fun safe => ?_⟩
    by_cases positive : 0 < f.nextValue
    · exact verify_constFold ready.accepted kept positive safe
    · rw [constFold, if_pos (by omega), ready.refreshed]
      exact ready.accepted
  case peephole =>
    obtain ⟨f', rewritten⟩ := peephole_isSome f
    rw [rewritten, Option.map_some, total]
    exact ⟨peepholeSafe_of_verify ready.accepted rewritten,
      verify_peephole ready.accepted rewritten kept⟩
  case copyProp => exact iff_of_true (verify_timed_copyProp ready) trivial
  case cfgSimplify =>
    exact ⟨simplifySafe_of_verify ready.accepted, verify_cfgSimplify ready.accepted⟩
  case dce => rw [refreshMetadata_dce ready, verify_dce_iff ready.accepted]
  case compact =>
    rw [← compact_isSome_iff ready.accepted]
    constructor
    · rintro ⟨g, mapped, -⟩
      obtain ⟨f', compacted, -⟩ := Option.map_eq_some_iff.mp mapped
      exact ⟨f', compacted⟩
    · rintro ⟨f', compacted⟩
      exact ⟨_, by rw [compacted]; rfl, verify_timed_compact ready compacted⟩

theorem Ready.of_timedPass {f g : Func} {p : Pass} (passed : timedPass f p = some g)
    (accepted : verify g = .ok ()) : Ready g := by
  obtain ⟨h, -, rfl⟩ := Option.map_eq_some_iff.mp passed
  exact ⟨accepted, refreshMetadata_idem h⟩

theorem timedPassVerified_eq_some {f g : Func} {p : Pass} :
    timedPassVerified f p = some g ↔ timedPass f p = some g ∧ verify g = .ok () := by
  simp only [timedPassVerified, Option.bind_eq_bind, Option.bind_eq_some_iff]
  constructor
  · rintro ⟨h, passed, checked⟩
    split at checked
    · rename_i accepted
      obtain rfl := Option.some.inj checked
      exact ⟨passed, accepted⟩
    · cases checked
  · rintro ⟨passed, accepted⟩
    exact ⟨g, passed, by rw [accepted]⟩

theorem foldlM_timedPassVerified {passes : List Pass} {f g : Func} (ready : Ready f)
    (ran : passes.foldlM timedPassVerified f = some g) :
    passes.foldlM timedPass f = some g ∧ Ready g := by
  induction passes generalizing f with
  | nil =>
    obtain rfl : f = g := by simpa using ran
    exact ⟨rfl, ready⟩
  | cons p rest ih =>
    rw [List.foldlM_cons, Option.bind_eq_bind, Option.bind_eq_some_iff] at ran
    obtain ⟨h, passed, later⟩ := ran
    obtain ⟨plain, accepted⟩ := timedPassVerified_eq_some.mp passed
    rw [List.foldlM_cons, plain]
    exact ih (.of_timedPass plain accepted) later

theorem foldlM_verified_iff (passes : List Pass) {f : Func} (ready : Ready f) :
    (∃ g, passes.foldlM timedPassVerified f = some g) ↔ SafeAlong passes f := by
  induction passes generalizing f with
  | nil => simp [SafeAlong]
  | cons p rest ih =>
    simp only [List.foldlM_cons, Option.bind_eq_bind, Option.bind_eq_some_iff, SafeAlong]
    rw [← timedPass_accepted_iff ready p]
    constructor
    · rintro ⟨g, h, passed, later⟩
      obtain ⟨plain, accepted⟩ := timedPassVerified_eq_some.mp passed
      refine ⟨⟨h, plain, accepted⟩, fun k again => ?_⟩
      obtain rfl := Option.some.inj (plain.symm.trans again)
      exact (ih (.of_timedPass plain accepted)).mp ⟨g, later⟩
    · rintro ⟨⟨h, plain, accepted⟩, safe⟩
      obtain ⟨g, later⟩ := (ih (.of_timedPass plain accepted)).mpr (safe h plain)
      exact ⟨g, h, timedPassVerified_eq_some.mpr ⟨plain, accepted⟩, later⟩

/--
When the optimiser is total and closed.

On an accepted function with refreshed metadata the optimiser succeeds with an accepted result, and
its verifying form with the same one, exactly when each pass is safe on the function it is given.
-/
theorem optimize_closed_iff {f : Func} (accepted : verify f = .ok ())
    (refreshed : refreshMetadata f = f) :
    (∃ g, optimize f = some g ∧ verify g = .ok () ∧ optimizeDebug f = some g) ↔
      SafeAlong optPasses f := by
  have ready : Ready f := ⟨accepted, refreshed⟩
  rw [← foldlM_verified_iff optPasses ready]
  constructor
  · rintro ⟨g, -, -, debugged⟩
    obtain ⟨h, ran, -⟩ := Option.map_eq_some_iff.mp debugged
    exact ⟨h, ran⟩
  · rintro ⟨g, ran⟩
    obtain ⟨plain, after⟩ := foldlM_timedPassVerified ready ran
    refine ⟨g, ?_, after.accepted, ?_⟩
    · rw [optimize, plain, Option.map_some, after.refreshed]
    · rw [optimizeDebug, ran, Option.map_some, after.refreshed]

/-- The clean-up example runs through all passes, each of them safe on what it is given. -/
theorem cleanedStore_optimized : SafeAlong optPasses cleanedStore ∧
    ∃ g, optimize cleanedStore = some g ∧ verify g = .ok () ∧ optimizeDebug cleanedStore = some g := by
  have ready : Ready cleanedStore := ⟨rfl, refreshMetadata_idem _⟩
  have ran : (optPasses.foldlM timedPassVerified cleanedStore).isSome = true := by decide +kernel
  have safe := (foldlM_verified_iff optPasses ready).mp (Option.isSome_iff_exists.mp ran)
  exact ⟨safe, (optimize_closed_iff rfl (refreshMetadata_idem _)).mpr safe⟩

/-- The optimiser fails on the accepted function with an unreached loop. -/
theorem unreachedLoop_not_optimized : verify unreachedLoop = .ok () ∧
    refreshMetadata unreachedLoop = unreachedLoop ∧ optimize unreachedLoop = none ∧
    optimizeDebug unreachedLoop = none :=
  ⟨rfl, refreshMetadata_idem _, by decide +kernel, by decide +kernel⟩

end Nytrix.Nir
