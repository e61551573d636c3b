import Nytrix.Lib.Positions
import Nytrix.Nir.Cleanup

/-! Compaction: what it renumbers, and that this preserves the computation. -/

namespace Nytrix.Nir

open Nytrix.Lib

variable {σ : Type}

/-- Whether compaction leaves the instruction in place. -/
def Inst.stays (inst : Inst) : Bool := inst.op ≠ .nop

/-- Where an instruction of a function stands after compaction. -/
def place (f : Func) (i : Nat) : Nat := rank Inst.stays f.data i

/-- What a numbering made from some instructions says: their destinations, and only they, have
distinct numbers below the next one. -/
structure Numbers (insts : List Inst) (given : Numbering) : Prop where
  next : 0 ≤ given.next
  numbered : ∀ v, 0 ≤ given.map v ↔ 0 ≤ v ∧ ∃ inst ∈ insts, inst.dst = v
  below : ∀ v, given.map v < given.next
  injective : ∀ u v, 0 ≤ given.map u → given.map u = given.map v → u = v

theorem Numbers.step {insts : List Inst} {given given' : Numbering} {nextValue : Int} {inst : Inst}
    (numbers : Numbers insts given) (stepped : numberDst nextValue given inst = some given') :
    Numbers (insts ++ [inst]) given' := by
  have ⟨next, numbered, below, injective⟩ := numbers
  unfold numberDst at stepped
  split at stepped
  · rename_i has
    split at stepped
    · cases stepped
    · obtain rfl := by simpa using stepped
      refine ⟨by simp only; omega, fun v => ?_, fun v => ?_, fun u v => ?_⟩
      · by_cases same : v = inst.dst
        · subst same
          simp only [Function.update_self, next, List.mem_append, List.mem_singleton, true_iff]
          exact ⟨has, inst, .inr rfl, rfl⟩
        · simp only [Function.update_of_ne same, numbered v, List.mem_append, List.mem_singleton]
          refine and_congr_right fun _ => ⟨?_, ?_⟩
          · rintro ⟨p, member, dst⟩
            exact ⟨p, .inl member, dst⟩
          · rintro ⟨p, member | rfl, dst⟩
            · exact ⟨p, member, dst⟩
            · exact absurd dst.symm same
      · by_cases same : v = inst.dst
        · simp only [same, Function.update_self]
          omega
        · have := below v
          simp only [Function.update_of_ne same]
          omega
      · -- The new number is larger than all the old ones.
        simp only [Function.update_apply]
        have bu := below u
        have bv := below v
        split <;> split <;> intro nonneg equal
        · simp_all
        · omega
        · omega
        · exact injective u v nonneg equal
  · rename_i has
    obtain rfl := by simpa using stepped
    refine ⟨next, fun v => ?_, below, injective⟩
    rw [numbered v]
    refine and_congr_right fun nonneg => ⟨?_, ?_⟩
    · rintro ⟨p, member, dst⟩
      exact ⟨p, by simp [member], dst⟩
    · rintro ⟨p, member, dst⟩
      rcases List.mem_append.mp member with old | new
      · exact ⟨p, old, dst⟩
      · obtain rfl := List.mem_singleton.mp new
        omega

theorem Numbers.of_foldlM {insts : List Inst} {nextValue : Int} {given : Numbering}
    (made : insts.foldlM (numberDst nextValue) {} = some given) : Numbers insts given := by
  induction insts using List.reverseRecOn generalizing given with
  | nil =>
    obtain rfl : ({} : Numbering) = given := by simpa using made
    exact ⟨Int.le_refl 0, by simp, by simp, by simp⟩
  | append_singleton insts inst ih =>
    rw [List.foldlM_append] at made
    simp only [Option.bind_eq_bind, Option.bind_eq_some_iff, List.foldlM_cons, List.foldlM_nil,
      Option.pure_def] at made
    obtain ⟨earlier, before, now, stepped, same⟩ := made
    obtain rfl : now = given := by simpa using same
    exact (ih before).step stepped

theorem foldlM_numberDst_isSome {insts : List Inst} {nextValue : Int}
    (below : ∀ inst ∈ insts, inst.dst < nextValue) (given : Numbering) :
    ∃ given', insts.foldlM (numberDst nextValue) given = some given' := by
  induction insts generalizing given with
  | nil => exact ⟨given, rfl⟩
  | cons inst rest ih =>
    have small := below inst (by simp)
    obtain ⟨given', stepped⟩ : ∃ given', numberDst nextValue given inst = some given' := by
      unfold numberDst
      split
      · rw [if_neg (by omega)]
        exact ⟨_, rfl⟩
      · exact ⟨_, rfl⟩
    rw [List.foldlM_cons, stepped]
    exact ih (fun p member => below p (by simp [member])) given'

theorem remapValue_eq_some {map : Int → Int} {nextValue v u : Int} :
    remapValue map nextValue v = some u ↔
      u = renameOperand map v ∧ (0 ≤ v → v < nextValue ∧ 0 ≤ map v) := by
  unfold remapValue renameOperand
  by_cases absent : v < 0
  · rw [if_pos absent, if_neg (by omega), Option.some.injEq]
    exact ⟨fun same => ⟨same.symm, by omega⟩, fun both => both.1.symm⟩
  · have given : 0 ≤ v := by omega
    rw [if_neg absent]
    simp only [given, forall_true_left]
    by_cases bad : nextValue ≤ v ∨ map v < 0
    · rw [if_pos (by simpa using bad)]
      simp only [reduceCtorEq, false_iff, not_and]
      omega
    · rw [if_neg (by simpa using bad), Option.some.injEq]
      exact ⟨fun same => ⟨same.symm, by omega⟩, fun both => both.1.symm⟩

/-- The instruction with its destination and its operands renumbered. -/
def Inst.renumbered (map : Int → Int) (inst : Inst) : Inst :=
  { inst.mapOperands map with dst := renameOperand map inst.dst }

theorem mapM_remapValue {map : Int → Int} {nextValue : Int} {vs us : List Int} :
    vs.mapM (remapValue map nextValue) = some us ↔
      us = vs.map (renameOperand map) ∧ ∀ v ∈ vs, 0 ≤ v → v < nextValue ∧ 0 ≤ map v := by
  induction vs generalizing us with
  | nil => simp [eq_comm]
  | cons v vs ih =>
    simp only [List.mapM_cons, Option.bind_eq_bind, Option.bind_eq_some_iff, Option.pure_def,
      Option.some.injEq, remapValue_eq_some, ih, List.map_cons, List.mem_cons, forall_eq_or_imp]
    constructor
    · rintro ⟨u, ⟨rfl, first⟩, rest, ⟨rfl, later⟩, rfl⟩
      exact ⟨rfl, first, later⟩
    · rintro ⟨rfl, first, later⟩
      exact ⟨_, ⟨rfl, first⟩, _, ⟨rfl, later⟩, rfl⟩

theorem remapInst_eq_some {map : Int → Int} {nextValue : Int} {inst inst' : Inst} :
    remapInst map nextValue inst = some inst' ↔ inst' = inst.renumbered map ∧
      ∀ v ∈ inst.dst :: inst.operands, 0 ≤ v → v < nextValue ∧ 0 ≤ map v := by
  simp only [remapInst, Option.bind_eq_bind, Option.bind_eq_some_iff, remapValue_eq_some,
    mapM_remapValue, Option.pure_def, Option.some.injEq, Inst.operands, List.mem_cons,
    forall_eq_or_imp]
  constructor
  · rintro ⟨_, ⟨rfl, hd⟩, _, ⟨rfl, ha⟩, _, ⟨rfl, hb⟩, _, ⟨rfl, hc⟩, _, ⟨rfl, hd'⟩, _, ⟨rfl, he⟩,
      _, ⟨rfl, hf⟩, _, ⟨rfl, rest⟩, rfl⟩
    exact ⟨rfl, hd, ha, hb, hc, hd', he, hf, rest⟩
  · rintro ⟨rfl, hd, ha, hb, hc, hd', he, hf, rest⟩
    exact ⟨_, ⟨rfl, hd⟩, _, ⟨rfl, ha⟩, _, ⟨rfl, hb⟩, _, ⟨rfl, hc⟩, _, ⟨rfl, hd'⟩, _, ⟨rfl, he⟩,
      _, ⟨rfl, hf⟩, _, ⟨rfl, rest⟩, rfl⟩

/-- What compaction with a numbering makes of a function. -/
structure Compacts (f f' : Func) (map : Int → Int) : Prop where
  counted : 0 ≤ f'.nextValue
  data : f'.data = (f.data.filter Inst.stays).map (Inst.renumbered map)
  signs : ∀ inst ∈ f.data, inst.stays = true → ∀ v ∈ inst.dst :: inst.operands, 0 ≤ v → 0 ≤ map v
  below : ∀ inst ∈ f.data, inst.stays = true → 0 ≤ inst.dst → map inst.dst < f'.nextValue
  injective : ∀ u v, 0 ≤ map u → map u = map v → u = v
  defined : ∀ inst ∈ f.data, inst.stays = true → ∀ v ∈ inst.reads,
    ∃ p ∈ f.data, p.stays = true ∧ p.dst = v

theorem Inst.renumbered_self (inst : Inst) : inst.renumbered (fun v => v) = inst := by
  have same : ∀ v, renameOperand (fun v => v) v = v := by
    intro v
    simp [renameOperand]
  have list : inst.extraArgs.map (renameOperand fun v => v) = inst.extraArgs := by
    rw [List.map_congr_left fun v _ => same v, List.map_id']
  simp only [renumbered, mapOperands, same, list]

theorem mapM_remapInst {map : Int → Int} {nextValue : Int} {insts out : List Inst} :
    insts.mapM (remapInst map nextValue) = some out ↔ out = insts.map (Inst.renumbered map) ∧
      ∀ inst ∈ insts, ∀ v ∈ inst.dst :: inst.operands, 0 ≤ v → v < nextValue ∧ 0 ≤ map v := by
  induction insts generalizing out with
  | nil => simp [eq_comm]
  | cons inst insts ih =>
    simp only [List.mapM_cons, Option.bind_eq_bind, Option.bind_eq_some_iff, Option.pure_def,
      Option.some.injEq, remapInst_eq_some, ih, List.map_cons, List.forall_mem_cons]
    constructor
    · rintro ⟨_, ⟨rfl, first⟩, _, ⟨rfl, later⟩, rfl⟩
      exact ⟨rfl, first, later⟩
    · rintro ⟨rfl, first, later⟩
      exact ⟨_, ⟨rfl, first⟩, _, ⟨rfl, later⟩, rfl⟩

/-- Compaction fails only when something it leaves names a value it drops the definition of. -/
def CompactSafe (f : Func) : Prop :=
  0 < f.nextValue → ∀ inst ∈ f.data, inst.stays = true → ∀ v ∈ inst.operands, 0 ≤ v →
    ∃ p ∈ f.data, p.stays = true ∧ p.dst = v

section Accepted

variable {f : Func} (accepted : verify f = .ok ())

include accepted

theorem dstBelow_of_mem {inst : Inst} (member : inst ∈ f.data) : inst.dst < f.nextValue := by
  obtain ⟨i, found⟩ := List.mem_iff_getElem?.mp member
  exact (CommonOk.of_verify accepted found).dstBelow

theorem compacts_of_no_values {f' : Func} (data : f'.data = f.data.filter Inst.stays)
    (count : f'.nextValue = f.nextValue) (none : f.data = [] ∨ f.nextValue ≤ 0) :
    Compacts f f' fun v => v := by
  have empty {inst : Inst} (member : inst ∈ f.data) : inst.dst < 0 ∧ ∀ v ∈ inst.reads, v < 0 := by
    have few : f.nextValue ≤ 0 := none.resolve_left (List.ne_nil_of_mem member)
    have small := dstBelow_of_mem accepted member
    refine ⟨by omega, fun v read => ?_⟩
    obtain ⟨i, found⟩ := List.mem_iff_getElem?.mp member
    have := (read_defined accepted found read).2.1
    omega
  refine ⟨by rw [count]; exact (verify_ok_iff.mp accepted).1, ?_, fun _ _ _ _ _ given => given, ?_,
    fun u v _ same => same, ?_⟩
  · rw [data, List.map_congr_left fun inst _ => inst.renumbered_self, List.map_id']
  · intro inst member _ has
    have := (empty member).1
    omega
  · intro inst member _ v read
    have := (empty member).2 v read
    obtain ⟨i, found⟩ := List.mem_iff_getElem?.mp member
    have := (read_defined accepted found read).1
    omega

theorem compacts_of_compact {f' : Func} (compacted : compact f = some f') :
    ∃ map, Compacts f f' map := by
  simp only [compact] at compacted
  split at compacted
  · rename_i nil
    obtain rfl := Option.some.inj compacted
    exact ⟨_, compacts_of_no_values accepted (by simp [nil]) rfl (.inl nil)⟩
  split at compacted
  · rename_i few
    obtain rfl := Option.some.inj compacted
    exact ⟨_, compacts_of_no_values accepted rfl rfl (.inr few)⟩
  simp only [Option.bind_eq_bind, Option.bind_eq_some_iff, Option.pure_def,
    Option.some.injEq] at compacted
  obtain ⟨given, made, out, mapped, rfl⟩ := compacted
  obtain ⟨rfl, named⟩ := mapM_remapInst.mp mapped
  have numbers := Numbers.of_foldlM made
  have among {inst : Inst} (member : inst ∈ f.data) (stays : inst.stays = true) :
      inst ∈ f.data.filter fun inst => decide (inst.op ≠ .nop) :=
    List.mem_filter.mpr ⟨member, stays⟩
  refine ⟨given.map, numbers.next, rfl, fun inst member stays v named' given => ?_,
    fun inst _ _ _ => numbers.below inst.dst, numbers.injective, fun inst member stays v read => ?_⟩
  · exact (named inst (among member stays) v named' given).2
  · obtain ⟨i, found⟩ := List.mem_iff_getElem?.mp member
    have given := (read_defined accepted found read).1
    have numbered := (named inst (among member stays) v
      (List.mem_cons_of_mem _ (mem_operands_of_reads given read)) given).2
    obtain ⟨-, p, there, dst⟩ := (numbers.numbered v).mp numbered
    obtain ⟨inside, stays'⟩ := List.mem_filter.mp there
    exact ⟨p, inside, stays', dst⟩

theorem compact_isSome_iff : (∃ f', compact f = some f') ↔ CompactSafe f := by
  simp only [compact]
  split
  · rename_i nil
    simp [CompactSafe, nil]
  split
  · rename_i few
    exact ⟨fun _ positive => absurd positive (by omega), fun _ => ⟨_, rfl⟩⟩
  simp only [Option.bind_eq_bind, Option.bind_eq_some_iff, Option.pure_def, Option.some.injEq,
    mapM_remapInst]
  constructor
  · rintro ⟨f', given, made, out, ⟨-, named⟩, -⟩ - inst member stays v operand present
    have numbered := (named inst (List.mem_filter.mpr ⟨member, stays⟩) v
      (List.mem_cons_of_mem _ operand) present).2
    obtain ⟨-, p, there, dst⟩ := ((Numbers.of_foldlM made).numbered v).mp numbered
    obtain ⟨inside, stays'⟩ := List.mem_filter.mp there
    exact ⟨p, inside, stays', dst⟩
  · intro safe
    have small : ∀ inst ∈ f.data.filter fun inst => decide (inst.op ≠ .nop),
        inst.dst < f.nextValue := fun inst member =>
      dstBelow_of_mem accepted (List.mem_filter.mp member).1
    obtain ⟨given, made⟩ := foldlM_numberDst_isSome small {}
    have numbers := Numbers.of_foldlM made
    refine ⟨_, given, made, _, ⟨rfl, fun inst member v named present => ?_⟩, rfl⟩
    obtain ⟨inside, stays⟩ := List.mem_filter.mp member
    obtain ⟨p, there, stays', dst⟩ : ∃ p ∈ f.data, p.stays = true ∧ p.dst = v := by
      rcases List.mem_cons.mp named with rfl | operand
      · exact ⟨inst, inside, stays, rfl⟩
      · exact safe (by omega) inst inside stays v operand present
    refine ⟨dst ▸ dstBelow_of_mem accepted there, (numbers.numbered v).mpr ⟨present, p, ?_, dst⟩⟩
    exact List.mem_filter.mpr ⟨there, stays'⟩

end Accepted

namespace Compacts

variable {f f' : Func} {map : Int → Int} (compacts : Compacts f f' map)

include compacts

theorem at_place {i : Nat} {inst : Inst} (found : f.data[i]? = some inst)
    (stays : inst.stays = true) : f'.data[place f i]? = some (inst.renumbered map) := by
  rw [compacts.data, List.getElem?_map, place, filter_getElem?_rank found stays]
  rfl

theorem from_place {k : Nat} {inst' : Inst} (found' : f'.data[k]? = some inst') :
    ∃ i inst, f.data[i]? = some inst ∧ inst.stays = true ∧ place f i = k ∧
      inst' = inst.renumbered map := by
  rw [compacts.data, List.getElem?_map, Option.map_eq_some_iff] at found'
  obtain ⟨inst, kept, rfl⟩ := found'
  obtain ⟨i, found, same⟩ := exists_rank_of_filter kept
  exact ⟨i, inst, found, (List.mem_filter.mp (List.mem_of_getElem? kept)).2, same, rfl⟩

theorem sign {i : Nat} {inst : Inst} (found : f.data[i]? = some inst) (stays : inst.stays = true)
    {v : Int} (named : v ∈ inst.dst :: inst.operands) : 0 ≤ renameOperand map v ↔ 0 ≤ v := by
  unfold renameOperand
  split
  · rename_i given
    exact ⟨fun _ => given, fun _ =>
      compacts.signs inst (List.mem_of_getElem? found) stays v named given⟩
  · rfl

theorem renamed {i : Nat} {inst : Inst} (found : f.data[i]? = some inst)
    (stays : inst.stays = true) : Renamed map inst (inst.renumbered map) :=
  .of_mapOperands map inst (compacts.sign found stays (by simp))

theorem dst_eq {i j : Nat} {inst p : Inst} (found : f.data[i]? = some inst)
    (stays : inst.stays = true) (has : 0 ≤ inst.dst) (there : f.data[j]? = some p)
    (stays' : p.stays = true) (same : (p.renumbered map).dst = (inst.renumbered map).dst) :
    p.dst = inst.dst := by
  have given := compacts.signs inst (List.mem_of_getElem? found) stays inst.dst (by simp) has
  have has' : 0 ≤ p.dst := by
    rw [← compacts.sign there stays' (v := p.dst) (by simp)]
    refine (le_of_eq ?_).trans' ((compacts.sign found stays (v := inst.dst) (by simp)).mpr has)
    exact same.symm
  simp only [Inst.renumbered, renameOperand, if_pos has, if_pos has'] at same
  exact (compacts.injective _ _ given same.symm).symm

variable (accepted : verify f = .ok ())

include accepted

theorem read_place {i : Nat} {inst : Inst} (found : f.data[i]? = some inst)
    (stays : inst.stays = true) {v : Int} (read : v ∈ inst.reads) :
    0 ≤ v ∧ 0 ≤ map v ∧ map v < f'.nextValue ∧ definedBefore f' (place f i) (map v) = true := by
  obtain ⟨given, -, known⟩ := read_defined accepted found read
  obtain ⟨-, j, p, before, there, dst⟩ := definedBefore_iff.mp known
  obtain ⟨q, member, stays', dst'⟩ := compacts.defined inst (List.mem_of_getElem? found) stays v read
  obtain ⟨k, at_⟩ := List.mem_iff_getElem?.mp member
  obtain rfl : j = k := dst_unique accepted there at_ (by omega) (by omega)
  obtain rfl : p = q := by simpa [there] using at_
  have numbered := compacts.signs p member stays' p.dst (by simp) (by omega)
  have small := compacts.below p member stays' (by omega)
  rw [dst] at numbered small
  refine ⟨given, numbered, small, definedBefore_iff.mpr ⟨numbered, place f j, _,
    rank_lt there stays' before, compacts.at_place there stays', ?_⟩⟩
  rw [Inst.renumbered, dst, renameOperand, if_pos given]

theorem consts {i : Nat} (inside : i ≤ f.data.length) {v : Int} (given : 0 ≤ v)
    (numbered : 0 ≤ map v) : constsBefore f' (place f i) (map v) = constsBefore f i v := by
  induction i generalizing v with
  | zero =>
    rw [place, rank_zero]
    rfl
  | succ i ih =>
    obtain ⟨inst, found⟩ : ∃ inst, f.data[i]? = some inst :=
      ⟨_, List.getElem?_eq_getElem (by omega)⟩
    have fresh := (CommonOk.of_verify accepted found).dstFresh
    have unseen (has : 0 ≤ inst.dst) : constsBefore f i inst.dst = none :=
      constsBefore_undefined (by omega) (fresh has)
    rw [constsBefore_succ found]
    cases stays : inst.stays
    · -- A dropped no-op defines no constant.
      have isNop : inst.op = .nop := by simpa [Inst.stays] using stays
      rw [place, rank_succ_of_neg found stays, ← place, ih (by omega) given numbered, noteConst]
      split
      · rename_i has
        by_cases same : v = inst.dst
        · rw [same, Function.update_self, unseen has]
          simp [isNop]
        · rw [Function.update_of_ne same]
      · rfl
    · rw [place, rank_succ_of_pos found stays, ← place,
        constsBefore_succ (compacts.at_place found stays), noteConst, noteConst]
      have sign := compacts.sign found stays (v := inst.dst) (by simp)
      by_cases has : 0 ≤ inst.dst
      · have dst : (inst.renumbered map).dst = map inst.dst := by
          simp [Inst.renumbered, renameOperand, has]
        have number := compacts.signs inst (List.mem_of_getElem? found) stays inst.dst (by simp) has
        rw [dst, if_pos number, if_pos has]
        by_cases same : v = inst.dst
        · subst same
          rw [Function.update_self, Function.update_self]
          by_cases source : 0 ≤ inst.a
          · have number := compacts.signs inst (List.mem_of_getElem? found) stays inst.a
              (by simp [Inst.operands]) source
            simp [Inst.renumbered, Inst.mapOperands, renameOperand, source, number,
              ih (by omega) source number]
          · simp [Inst.renumbered, Inst.mapOperands, renameOperand, source]
        · rw [Function.update_of_ne same, Function.update_of_ne fun clash =>
            same (compacts.injective _ _ numbered clash)]
          exact ih (by omega) given numbered
      · have dst : ¬ 0 ≤ (inst.renumbered map).dst := fun bad => has (sign.mp bad)
        rw [if_neg dst, if_neg has]
        exact ih (by omega) given numbered

/-- The verifier accepts the compacted function. -/
theorem verify : verify f' = .ok () := by
  obtain ⟨-, -, constraints⟩ := verify_ok_iff.mp accepted
  refine verify_ok_iff.mpr ⟨compacts.counted, fun k inst' found' => ?_,
    validateConstraints_ok_iff.mpr fun k inst' found' => ?_⟩ <;>
    obtain ⟨i, inst, found, stays, rfl, rfl⟩ := compacts.from_place found'
  · have common := CommonOk.of_verify accepted found
    have own := OpOk.of_verify accepted found
    have sign := compacts.sign found stays (v := inst.dst) (by simp)
    refine instOk_iff.mpr ⟨⟨common.argSizes, common.effects, common.rangePaired, common.rangeOrdered,
      common.debug, ?_, fun has => ?_⟩, ?_⟩
    · simp only [Inst.renumbered, renameOperand]
      split
      · rename_i has
        exact compacts.below inst (List.mem_of_getElem? found) stays has
      · have := compacts.counted
        omega
    · by_contra known
      obtain ⟨-, l, q, before, at_, same⟩ := definedBefore_iff.mp (by simpa using known)
      obtain ⟨j, p, there, stays', rfl, rfl⟩ := compacts.from_place at_
      have dst := compacts.dst_eq found stays (sign.mp has) there stays' same
      obtain rfl := dst_unique accepted found there (sign.mp has) dst.symm
      omega
    · refine OpOk.rename (compacts.renamed found stays)
        (fun v operand => compacts.sign found stays (List.mem_cons_of_mem _ operand)) own
        (fun v read => ?_) (fun exists_ => ?_) (fun isLabel => ?_) (fun capture => ?_)
      · obtain ⟨given, numbered, small, known⟩ := compacts.read_place accepted found stays read
        simp [renameOperand, given, valueDefined, numbered, small, known]
      · obtain ⟨j, label, there, isLabel, same⟩ := labelExists_iff.mp exists_
        exact labelExists_iff.mpr ⟨place f j, _,
          compacts.at_place there (by simp [Inst.stays, isLabel]), isLabel, same⟩
      · rw [List.any_eq_false]
        intro q member clash
        simp only [Bool.and_eq_true, decide_eq_true_eq] at clash
        obtain ⟨l, at_⟩ := List.mem_iff_getElem?.mp member
        have before : l < place f i := by
          have := (List.getElem?_eq_some_iff.mp at_).1
          rw [List.length_take] at this
          omega
        rw [List.getElem?_take_of_lt before] at at_
        obtain ⟨j, p, there, -, rfl, rfl⟩ := compacts.from_place at_
        obtain rfl := label_unique accepted there found clash.1 isLabel clash.2
        omega
      · have follows := own.follows capture
        rcases i with _ | i
        · simp [followsCall] at follows
        · simp only [followsCall] at follows
          cases there : f.data[i]? with
          | none => simp [there] at follows
          | some p =>
            simp only [there, Bool.or_eq_true, decide_eq_true_eq] at follows
            have stays' : p.stays = true := by
              rcases follows with op | op <;> simp [Inst.stays, op]
            rw [place, rank_succ_of_pos there stays', ← place, followsCall,
              compacts.at_place there stays']
            simp only [Bool.or_eq_true, decide_eq_true_eq]
            exact follows
  · have passed := constraintChecks_none_iff.mp
      (validateConstraints_ok_iff.mp constraints i inst found)
    have inside := (List.getElem?_eq_some_iff.mp found).1
    refine constraintChecks_none_iff.mpr ⟨passed.1, Eq.trans ?_ passed.2⟩
    -- Operands that are read keep their constants under their new numbers.
    have kept {v : Int} (read : v ∈ inst.reads) : constOf (constsBefore f' (place f i))
        (renameOperand map v) = constOf (constsBefore f i) v := by
      obtain ⟨given, numbered, -⟩ := compacts.read_place accepted found stays read
      simp [renameOperand, constOf, given, numbered,
        compacts.consts accepted (Nat.le_of_lt inside) given numbered]
    exact constTrap_congr rfl (fun binary => kept (by simp [Inst.reads, binary]))
      fun binary => kept (by simp [Inst.reads, binary])

end Compacts

/-- The second run is at the new place, and has every value under its new number. -/
structure CompactRelated (f : Func) (map : Int → Int) (s t : State σ) : Prop where
  pc : t.pc = place f s.pc
  world : t.world = s.world
  values : ∀ v, 0 ≤ v → 0 ≤ map v → t.values (map v) = s.values v

section Runs

variable {f f' : Func} {map : Int → Int} (compacts : Compacts f f' map)
  (accepted : verify f = .ok ()) {cfg : EvalConfig σ} {s t : State σ}
  (related : CompactRelated f map s t)

include compacts accepted

omit σ in
/-- A label is found at its new place. -/
theorem labelTable_compact {l : I64} {k : Nat} (entry : labelTable f l = some k) :
    labelTable f' l = some (place f k) := by
  obtain ⟨j, label, rfl, there, isLabel, rfl, nonneg⟩ := labelTable_some entry
  have stays : label.stays = true := by simp [Inst.stays, isLabel]
  have found := labelTable_of_verify (compacts.verify accepted) (compacts.at_place there stays)
    isLabel nonneg
  rw [place, rank_succ_of_pos there stays]
  exact found

include related

theorem compact_reads {inst : Inst} (found : f.data[s.pc]? = some inst)
    (stays : inst.stays = true) (xs : List I64)
    (read : inst.reads.mapM (readValue s.values) = some xs) :
    (inst.renumbered map).reads.mapM (readValue t.values) = some xs := by
  rw [(compacts.renamed found stays).reads fun v operand =>
    compacts.sign found stays (List.mem_cons_of_mem _ operand), List.mapM_map, ← read]
  refine mapM_reads_congr fun v member => ?_
  obtain ⟨given, numbered, -⟩ := compacts.read_place accepted found stays member
  simp [readValue, renameOperand, given, related.values v given numbered,
    Int.not_lt.mpr given, Int.not_lt.mpr numbered]

theorem compact_next {s' : State σ} (moved : (vm f cfg).step s = .inl s') :
    ∃ t', (vm f' cfg).Steps t t' ∧ CompactRelated f map s' t' := by
  obtain ⟨inst, found, stepped⟩ := vm_next moved
  cases stays : inst.stays
  · have isNop : inst.op = .nop := by simpa [Inst.stays] using stays
    obtain rfl : { s with pc := s.pc + 1 } = s' := by
      simpa [stepInst, precheck, Inst.reads, execute, isNop, Op.shape] using stepped
    refine ⟨t, .refl t, ?_, related.world, related.values⟩
    rw [place, rank_succ_of_neg found stays]
    exact related.pc
  · have here := compacts.at_place found stays
    obtain ⟨t', moved', follows⟩ : ∃ t', stepInst f' cfg (inst.renumbered map) t = .inl t' ∧
        Follows (place f) inst (inst.renumbered map) s s' t t' :=
      stepInst_follows rfl rfl rfl rfl
        (fun _ => compacts.sign found stays (v := inst.dst) (by simp)) related.world
        (by rw [related.pc, place, place, rank_succ_of_pos found stays])
        (fun _ k => labelTable_compact compacts accepted)
        (compact_reads compacts accepted related found stays) stepped
    refine ⟨t', .single ?_, follows.pc, follows.world, fun v given numbered => ?_⟩
    · rw [vm_step_of_found (by rw [related.pc]; exact here)]
      exact moved'
    · rcases follows.values with ⟨-, same, same'⟩ | ⟨x, writes, same, same'⟩
      · rw [same, same']
        exact related.values v given numbered
      · have has := (Inst.writes_eq_some.mp writes).2.1
        have dst : (inst.renumbered map).dst = map inst.dst := by
          simp [Inst.renumbered, renameOperand, has]
        rw [same, same', dst, Function.update_apply, Function.update_apply]
        by_cases written : v = inst.dst
        · rw [if_pos (by rw [written]), if_pos written]
        · rw [if_neg fun clash => written (compacts.injective _ _ numbered clash), if_neg written]
          exact related.values v given numbered

theorem compact_stop {r : EvalResult σ} (stopped : (vm f cfg).step s = .inr (.ok r)) :
    (vm f' cfg).step t = .inr (.ok r) := by
  cases found : f.data[s.pc]? with
  | none =>
    have none' : f'.data[t.pc]? = none := by
      rw [List.getElem?_eq_none_iff] at found ⊢
      rw [related.pc, place, rank_of_length_le found, compacts.data, List.length_map]
    simpa only [vm, found, none', related.world] using stopped
  | some inst =>
    rw [vm_step_of_found found] at stopped
    have stays : inst.stays = true := by simp [Inst.stays, ret_of_stop stopped]
    have here := compacts.at_place found stays
    rw [vm_step_of_found (by rw [related.pc]; exact here)]
    have op : (inst.renumbered map).op = inst.op := rfl
    exact stepInst_returns op rfl related.world
      (compact_reads compacts accepted related found stays) stopped

end Runs

theorem succeeds_compact {f f' : Func} (compacted : compact f = some f') {cfg : EvalConfig σ}
    {w : World σ} {r : EvalResult σ} (succeeds : Succeeds f cfg w r) : Succeeds f' cfg w r := by
  obtain ⟨accepted, ended⟩ := succeeds_iff.mp succeeds
  obtain ⟨map, compacts⟩ := compacts_of_compact accepted compacted
  refine succeeds_iff.mpr ⟨compacts.verify accepted, ?_⟩
  refine Machine.Ends.simulate (R := CompactRelated f map) (G := fun out => ∃ r, out = .ok r)
    ?_ ?_ ended ⟨r, rfl⟩ ⟨?_, rfl, fun _ _ _ => rfl⟩
  · intro s s' t related moved
    exact compact_next compacts accepted related moved
  · rintro s t out related stopped ⟨r, rfl⟩
    exact .of_stop (compact_stop compacts accepted related stopped)
  · exact (rank_zero _ _).symm

end Nytrix.Nir
