import Mathlib.Data.Nat.Find
import Nytrix.Nir.Optimize

/-! The optimiser never empties a function that returns somewhere. -/

namespace Nytrix.Nir

/-- Whether an instruction is a return. -/
def Inst.isRet (inst : Inst) : Bool := inst.op = .ret

theorem hasRet_iff {data : List Inst} : HasRet data ↔ true ∈ data.map Inst.isRet := by
  simp [HasRet, Inst.isRet]

theorem HasRet.constFold {f : Func} (has : HasRet f.data) : HasRet (constFold f).data := by
  -- Only copies, loads, arithmetic and conditional branches are folded.
  rw [hasRet_iff] at has ⊢
  rw [constFold_map Inst.isRet]
  · exact has
  · intro st inst inst' folded
    cases folded with
    | same => rfl
    | copy value isCopy => simp [Inst.isRet, toConst, isCopy]
    | load value isLoad => simp [Inst.isRet, toConst, isLoad]
    | arith value given known =>
      have binary := (foldArith_binary known).1
      have noRet : inst.op ≠ .ret := fun op => by simp [op, Op.shape] at binary
      simp [Inst.isRet, toConst, noRet]
    | taken value isBranch => simp [Inst.isRet, isBranch]
    | skipped isBranch => simp [Inst.isRet, isBranch]

theorem HasRet.peephole {f f' : Func} (rewritten : peephole f = some f') (has : HasRet f.data) :
    HasRet f'.data := by
  rw [hasRet_iff] at has ⊢
  rw [(peephole_map rewritten Inst.isRet ?_).2]
  · exact has
  · intro inst inst' peep
    have noRet (binary : inst.op.shape = .binary) : inst.op ≠ .ret := fun op => by
      simp [op, Op.shape] at binary
    cases peep with
    | same => rfl
    | copy src binary => simp [Inst.isRet, makeCopy, noRet binary]
    | const value binary => simp [Inst.isRet, makeConst, noRet binary]

theorem HasRet.copyProp {f : Func} (has : HasRet f.data) : HasRet (copyProp f).data := by
  rw [hasRet_iff] at has ⊢
  rw [copyProp_map Inst.isRet fun _ _ => rfl]
  exact has

theorem HasRet.cfgSimplify {f : Func} (has : HasRet f.data) : HasRet (cfgSimplify f).data := by
  rw [hasRet_iff] at has ⊢
  rw [cfgSimplify_map Inst.isRet]
  · exact has
  · intro inst op imm isBranch written
    rcases isBranch with old | old <;> rcases written with rfl | rfl <;> simp [Inst.isRet, old]

theorem HasRet.refreshMetadata {f : Func} (has : HasRet f.data) :
    HasRet (refreshMetadata f).data := by
  rw [hasRet_iff] at has ⊢
  simpa [Nir.refreshMetadata, Function.comp_def, Inst.isRet] using has

theorem exists_refreshed {f : Func} {inst : Inst} (member : inst ∈ f.data) :
    ∃ inst' ∈ (refreshMetadata f).data, inst'.op = inst.op :=
  ⟨refreshInst inst, List.mem_map_of_mem member, refreshInst_op inst⟩

/-- Control never falls through the instruction. -/
def Inst.ends (inst : Inst) : Bool := inst.op = .ret || inst.op = .br

theorem reachable_before_end {f : Func} {i : Nat} (inside : i ≤ f.data.length)
    (falls : ∀ (j : Nat) (inst : Inst), j < i → f.data[j]? = some inst → inst.ends = false) :
    (forwardBefore f i).2.reachable = true := by
  induction i with
  | zero => rfl
  | succ i ih =>
    have found := List.getElem?_eq_getElem (l := f.data) (i := i) inside
    have reached := ih (by omega) fun j inst before => falls j inst (by omega)
    have falls' := falls i _ (by omega) found
    simp only [Inst.ends, Bool.or_eq_false_iff, decide_eq_false_iff_not] at falls'
    exact reachable_succ found (entered_of_reachable _ reached) falls'.1 falls'.2

theorem HasRet.dce {f : Func} (has : HasRet f.data) :
    ∃ inst ∈ (dce f).data, inst.ends = true := by
  -- The first instruction that control does not fall through is reachable, and it has an effect.
  obtain ⟨ret, member, op⟩ := has
  obtain ⟨k, at_⟩ := List.mem_iff_getElem?.mp member
  have some_ : ∃ (i : Nat) (inst : Inst), f.data[i]? = some inst ∧ inst.ends = true :=
    ⟨k, ret, at_, by simp [Inst.ends, op]⟩
  classical
  obtain ⟨inst, found, ends⟩ := Nat.find_spec some_
  have reached : (forwardBefore f (Nat.find some_)).2.reachable = true := by
    refine reachable_before_end ?_ fun j other before there => ?_
    · exact Nat.le_of_lt (List.getElem?_eq_some_iff.mp found).1
    · by_contra stops
      exact Nat.find_min some_ before ⟨other, there, by simpa using stops⟩
  refine ⟨inst, ?_, ends⟩
  rw [dce_eq]
  split
  · exact List.mem_of_getElem? found
  · refine List.mem_of_getElem? ((dceData_getElem? found).trans ?_)
    rw [if_pos]
    simp only [dceKeeps, forwardKeeps, entered_of_reachable inst reached, backwardKeeps,
      sideEffect, Bool.and_eq_true, Bool.or_eq_true]
    simp only [Inst.ends, Bool.or_eq_true, decide_eq_true_eq] at ends
    rcases ends with op | op <;> simp [op, Op.isBranch]

theorem cfgSimplify_stays {f : Func} (has : ∃ inst ∈ f.data, inst.ends = true) :
    ∃ inst ∈ (cfgSimplify f).data, inst.stays = true := by
  -- A jump is only removed in front of its label, and labels stay.
  obtain ⟨inst, member, ends⟩ := has
  obtain ⟨i, found⟩ := List.mem_iff_getElem?.mp member
  have kept (j : Nat) (other : Inst) (there : f.data[j]? = some other) :
      simplified f j other ∈ (cfgSimplify f).data := by
    refine List.mem_of_getElem? (i := j) ?_
    rw [cfgSimplify_getElem?, there, Option.map_some]
  simp only [Inst.ends, Bool.or_eq_true, decide_eq_true_eq] at ends
  have here := kept i inst found
  have cases := simplified_cases f i inst
  generalize simplified f i inst = inst' at here cases
  cases cases with
  | same => exact ⟨inst, here, by rcases ends with op | op <;> simp [Inst.stays, op]⟩
  | taken c isBranch => exact ⟨_, here, rfl⟩
  | skipped isBranch => rcases ends with op | op <;> simp [op] at isBranch
  | removed isBranch next =>
    unfold labelComesNext at next
    split at next
    · rename_i label first
      simp only [Bool.and_eq_true, decide_eq_true_eq] at next
      obtain ⟨j, there⟩ := List.mem_iff_getElem?.mp (List.mem_of_find?_eq_some first)
      rw [List.getElem?_drop] at there
      refine ⟨_, kept _ label there, ?_⟩
      have stays := simplified_cases f (i + 1 + j) label
      generalize simplified f (i + 1 + j) label = label' at stays
      cases stays with
      | same => simp [Inst.stays, next.1]
      | taken c isBranch => rfl
      | skipped isBranch => simp [next.1] at isBranch
      | removed isBranch => rcases isBranch with op | ⟨op, -⟩ <;> simp [next.1] at op
    · cases next

theorem compact_nonempty {f f' : Func} (compacted : compact f = some f')
    (has : ∃ inst ∈ f.data, inst.stays = true) : f'.data ≠ [] := by
  obtain ⟨inst, member, stays⟩ := has
  have left : f.data.filter (fun inst => inst.op ≠ .nop) ≠ [] :=
    List.ne_nil_of_mem (List.mem_filter.mpr ⟨member, stays⟩)
  unfold compact at compacted
  split at compacted
  · rename_i empty
    simp [empty] at member
  · split at compacted
    · obtain rfl := Option.some.inj compacted
      exact left
    · simp only [Option.bind_eq_bind, Option.bind_eq_some_iff] at compacted
      obtain ⟨numbering, -, data, mapped, rest⟩ := compacted
      obtain rfl := Option.some.inj rest
      rw [(mapM_remapInst.mp mapped).1]
      simpa using left

theorem HasRet.timedPass {f f' : Func} (has : HasRet f.data) {p : Pass} (noDce : p ≠ .dce)
    (noCompact : p ≠ .compact) (passed : timedPass f p = some f') : HasRet f'.data := by
  obtain ⟨g, rewritten, rfl⟩ := Option.map_eq_some_iff.mp passed
  refine HasRet.refreshMetadata ?_
  cases p with
  | constFold =>
    obtain rfl := Option.some.inj rewritten
    exact has.constFold
  | peephole => exact has.peephole rewritten
  | copyProp =>
    obtain rfl := Option.some.inj rewritten
    exact has.copyProp
  | cfgSimplify =>
    obtain rfl := Option.some.inj rewritten
    exact has.cfgSimplify
  | dce => exact absurd rfl noDce
  | compact => exact absurd rfl noCompact

theorem optimize_nonempty {f f' : Func} (has : HasRet f.data) (optimized : optimize f = some f') :
    f'.data ≠ [] := by
  -- The returns stay up to dead code elimination, which leaves one of them or a jump.
  simp only [optimize, optPasses, List.foldlM_cons, List.foldlM_nil, Option.bind_eq_bind,
    Option.map_eq_some_iff, Option.bind_eq_some_iff, Option.pure_def, Option.some.injEq] at optimized
  obtain ⟨g, ⟨f₁, p₁, f₂, p₂, f₃, p₃, f₄, p₄, f₅, p₅, f₆, p₆, f₇, p₇, f₈, p₈, rfl⟩, rfl⟩ := optimized
  have before := ((((has.timedPass (by decide) (by decide) p₁).timedPass (by decide) (by decide)
    p₂).timedPass (by decide) (by decide) p₃).timedPass (by decide) (by decide) p₄).timedPass
    (by decide) (by decide) p₅
  obtain ⟨h₆, eliminated, rfl⟩ := Option.map_eq_some_iff.mp p₆
  obtain rfl := Option.some.inj eliminated
  obtain ⟨h₇, simplified, rfl⟩ := Option.map_eq_some_iff.mp p₇
  obtain rfl := Option.some.inj simplified
  obtain ⟨h₈, compacted, rfl⟩ := Option.map_eq_some_iff.mp p₈
  obtain ⟨last, inDce, ends⟩ := before.dce
  obtain ⟨last', inRefreshed, op⟩ := exists_refreshed inDce
  obtain ⟨left, inSimplified, stays⟩ := cfgSimplify_stays
    ⟨last', inRefreshed, by rw [Inst.ends, op]; exact ends⟩
  obtain ⟨left', inRefreshed', op'⟩ := exists_refreshed inSimplified
  have some_ := compact_nonempty compacted
    ⟨left', inRefreshed', by rw [Inst.stays, op']; exact stays⟩
  simpa [Nir.refreshMetadata] using some_

end Nytrix.Nir
