import Nytrix.Nir.Cleanup

/-! Branch simplification: what it rewrites, and that it preserves what a function computes. -/

namespace Nytrix.Nir

open Nytrix.Lib

variable {σ : Type}

/-- What branch simplification makes of the instruction at position `i`. -/
def simplified (f : Func) (i : Nat) (inst : Inst) : Inst :=
  simplifyInst (collectConsts f) inst (f.data.drop (i + 1))

theorem simplifyLoop_getElem? (known : ConstTable) (insts : List Inst) (i : Nat) :
    (simplifyLoop known insts)[i]? =
      insts[i]?.map fun inst => simplifyInst known inst (insts.drop (i + 1)) := by
  induction insts generalizing i with
  | nil => simp [simplifyLoop]
  | cons head rest ih =>
    cases i with
    | zero => simp [simplifyLoop]
    | succ i => simp [simplifyLoop, ih]

theorem cfgSimplify_getElem? (f : Func) (i : Nat) :
    (cfgSimplify f).data[i]? = f.data[i]?.map (simplified f i) :=
  simplifyLoop_getElem? (collectConsts f) f.data i

@[simp] theorem bareInst_dst (op : Op) (imm : I64) : (bareInst op imm).dst = -1 := rfl

@[simp] theorem bareInst_op (op : Op) (imm : I64) : (bareInst op imm).op = op := rfl

/-- Everything branch simplification may make of an instruction. -/
inductive Simplified (f : Func) (i : Nat) (inst : Inst) : Inst → Prop
  | same : Simplified f i inst inst
  | taken (c : I64) (isBranch : inst.op = .brIf)
      (known : constOf (collectConsts f) inst.a = some c) (nonzero : c ≠ 0) :
      Simplified f i inst (bareInst .br inst.imm)
  | skipped (isBranch : inst.op = .brIf) (known : constOf (collectConsts f) inst.a = some 0) :
      Simplified f i inst (bareInst .nop 0)
  | removed (isBranch : inst.op = .br ∨ inst.op = .brIf ∧
        ∃ c, constOf (collectConsts f) inst.a = some c ∧ c ≠ 0)
      (next : labelComesNext (f.data.drop (i + 1)) inst.imm = true) :
      Simplified f i inst (bareInst .nop 0)

theorem simplified_cases (f : Func) (i : Nat) (inst : Inst) :
    Simplified f i inst (simplified f i inst) := by
  unfold simplified simplifyInst resolveBranch
  split
  · rename_i value known
    split at known
    · rename_i isBranch
      by_cases nonzero : value ≠ 0
      · simp only [if_pos nonzero]
        split
        · rename_i next
          simp only [bareInst, Bool.and_eq_true] at next
          exact .removed (.inr ⟨isBranch, value, known, nonzero⟩) next.2
        · exact .taken value isBranch known nonzero
      · obtain rfl : value = 0 := by simpa using nonzero
        simp only [ne_eq, not_true_eq_false, if_false]
        exact .skipped isBranch known
    · cases known
  · simp only
    split
    · rename_i next
      simp only [Bool.and_eq_true, decide_eq_true_eq] at next
      exact .removed (.inl next.1) next.2
    · exact .same

theorem Simplified.bare {f : Func} {i : Nat} {inst inst' : Inst}
    (step : Simplified f i inst inst') :
    inst' = inst ∨ (inst.op = .br ∨ inst.op = .brIf) ∧
      (inst' = bareInst .br inst.imm ∨ inst' = bareInst .nop 0) := by
  cases step with
  | same => exact .inl rfl
  | taken c isBranch => exact .inr ⟨.inr isBranch, .inl rfl⟩
  | skipped isBranch => exact .inr ⟨.inr isBranch, .inr rfl⟩
  | removed isBranch => exact .inr ⟨isBranch.imp_right And.left, .inr rfl⟩

theorem cfgSimplify_map {α : Type} {f : Func} (field : Inst → α)
    (kept : ∀ inst op imm, inst.op = .br ∨ inst.op = .brIf → op = .br ∨ op = .nop →
      field (bareInst op imm) = field inst) :
    (cfgSimplify f).data.map field = f.data.map field := by
  refine List.ext_getElem? fun i => ?_
  rw [List.getElem?_map, List.getElem?_map, cfgSimplify_getElem?, Option.map_map]
  congr 1
  funext inst
  rcases (simplified_cases f i inst).bare with same | ⟨isBranch, same | same⟩
  · rw [Function.comp, same]
  · rw [Function.comp, same]
    exact kept _ _ _ isBranch (.inl rfl)
  · rw [Function.comp, same]
    exact kept _ _ _ isBranch (.inr rfl)

theorem cfgSimplify_labelMark (f : Func) :
    (cfgSimplify f).data.map Inst.labelMark = f.data.map Inst.labelMark := by
  refine cfgSimplify_map _ fun inst op imm isBranch bare => ?_
  rcases isBranch with old | old <;> rcases bare with rfl | rfl <;>
    simp [Inst.labelMark, bareInst, old]

theorem thins_cfgSimplify (f : Func) : Thins f (cfgSimplify f) := by
  refine ⟨by simpa using congrArg List.length (cfgSimplify_labelMark f), ?_⟩
  intro i inst inst' found found'
  rw [cfgSimplify_getElem?, found, Option.map_some, Option.some.injEq] at found'
  subst found'
  rcases (simplified_cases f i inst).bare with same | ⟨-, same | same⟩
  · exact .inl same
  · exact .inr (by simp [same])
  · exact .inr (by simp [same])

/-- What is left alone reads only values whose definitions are left alone. -/
def SimplifySafe (f : Func) : Prop :=
  ∀ (i : Nat) (inst : Inst), f.data[i]? = some inst → simplified f i inst = inst →
    ∀ v ∈ inst.reads, ∃ j p, j < i ∧ f.data[j]? = some p ∧ p.op.shape.dropsDst = false ∧
      p.dst = v ∧ simplified f j p = p

theorem keptBefore_cfgSimplify {f : Func} {i : Nat} {v : Int} :
    keptBefore (cfgSimplify f) i v = true ↔ 0 ≤ v ∧ ∃ j p, j < i ∧ f.data[j]? = some p ∧
      p.op.shape.dropsDst = false ∧ p.dst = v ∧ simplified f j p = p := by
  rw [keptBefore_iff]
  refine and_congr_right fun nonneg => ?_
  constructor
  · rintro ⟨j, inst', before, found', drops, same⟩
    rw [cfgSimplify_getElem?, Option.map_eq_some_iff] at found'
    obtain ⟨p, found, rfl⟩ := found'
    rcases (simplified_cases f j p).bare with left | ⟨-, bare | bare⟩
    · exact ⟨j, p, before, found, left ▸ drops, left ▸ same, left⟩
    · simp [← same, bare] at nonneg
    · simp [← same, bare] at nonneg
  · rintro ⟨j, p, before, found, drops, same, left⟩
    exact ⟨j, p, before, by rw [cfgSimplify_getElem?, found, Option.map_some, left], drops, same⟩

theorem RawOk.bare {f : Func} {i : Nat} {op : Op} {imm : I64} (counted : 0 ≤ f.nextValue)
    (target : op = .nop ∨ op = .br ∧ labelExists f imm = true) : RawOk f i (bareInst op imm) := by
  have plain : op ≠ .label ∧ op ≠ .captureRet ∧ op ≠ .brIf := by
    rcases target with rfl | ⟨rfl, -⟩ <;> decide
  refine ⟨fun _ => rfl, rfl, nofun, fun _ => ⟨rfl, rfl⟩, Int.lt_of_lt_of_le (by simp) counted,
    by simp, ?_, ?_, ?_, ?_, ?_⟩
  · rcases target with rfl | ⟨rfl, -⟩ <;> simp [Inst.reads, bareInst, Op.shape]
  · rcases target with rfl | ⟨rfl, -⟩ <;> simp [Inst.wellFormed, bareInst, Op.shape]
  · exact fun same => absurd same plain.1
  · intro isBranch
    rcases target with rfl | ⟨rfl, found⟩
    · simp [bareInst] at isBranch
    · exact found
  · exact fun same => absurd same plain.2.1

section Accepted

variable {f : Func} (accepted : verify f = .ok ())

include accepted

theorem verify_cfgSimplify (safe : SimplifySafe f) :
    verify (refreshMetadata (cfgSimplify f)) = .ok () := by
  obtain ⟨counted, -, constraints⟩ := verify_ok_iff.mp accepted
  have marks := cfgSimplify_labelMark f
  have fresh := DstsFresh.of_verify accepted
  refine verify_refresh counted ((thins_cfgSimplify f).dstsFresh fresh)
    (fun i inst' found' => ?_) fun i inst' found' => ?_ <;>
    rw [cfgSimplify_getElem?, Option.map_eq_some_iff] at found' <;>
    obtain ⟨inst, found, rfl⟩ := found'
  · have common := CommonOk.of_verify accepted found
    have own := OpOk.of_verify accepted found
    rcases (simplified_cases f i inst).bare with left | ⟨isBranch, bare | bare⟩
    · rw [left]
      refine ⟨common.argSizes, common.rangePaired, common.rangeOrdered, common.debug,
        common.dstBelow, fun has => ?_, ⟨fun v read => ?_, own.wellFormed, ?_, ?_, ?_⟩⟩
      · by_contra known
        have kept := definedBefore_of_keptBefore (by simpa using known)
        have old := (thins_cfgSimplify f).definedBefore kept
        rw [common.dstFresh has] at old
        cases old
      · have defined := read_defined accepted found read
        have kept := keptBefore_cfgSimplify.mpr ⟨defined.1, safe i inst found left v read⟩
        have count : (cfgSimplify f).nextValue = f.nextValue := rfl
        simp [valueDefined, kept, count, defined.1, defined.2.1]
      · rw [any_label_eq, List.map_take, marks, ← List.map_take, ← any_label_eq]
        exact own.fresh
      · rw [labelExists, any_label_eq, marks, ← any_label_eq]
        exact own.target
      · rw [followsCall_congr (cfgSimplify_map _ fun inst op imm isBranch bare => ?_)]
        · exact own.follows
        · rcases isBranch with old | old <;> rcases bare with rfl | rfl <;>
            simp [Inst.startsCapture, bareInst, old]
    · rw [bare]
      refine .bare counted (.inr ⟨rfl, ?_⟩)
      rw [labelExists, any_label_eq, marks, ← any_label_eq]
      exact own.target isBranch
    · rw [bare]
      exact .bare counted (.inl rfl)
  · have inside := (List.getElem?_eq_some_iff.mp found).1
    rcases (simplified_cases f i inst).bare with left | ⟨-, bare | bare⟩
    · rw [left]
      refine constTrap_mono (fun v c => (thins_cfgSimplify f).constsBefore fresh (by omega)) ?_
      exact (constraintChecks_none_iff.mp
        (validateConstraints_ok_iff.mp constraints i inst found)).2
    · exact constTrap_of_not_binary (by simp [bare, Op.shape])
    · exact constTrap_of_not_binary (by simp [bare, Op.shape])

theorem simplifySafe_of_verify (after : verify (refreshMetadata (cfgSimplify f)) = .ok ()) :
    SimplifySafe f := by
  intro i inst found left v read
  have found' : (refreshMetadata (cfgSimplify f)).data[i]? = some (refreshInst inst) := by
    rw [refreshMetadata_getElem?, cfgSimplify_getElem?, found, Option.map_some, left]
    rfl
  have formed := (OpOk.of_verify accepted found).wellFormed
  have known := (read_defined after found' (by rw [refreshInst_reads formed]; exact read)).2.2
  rw [definedBefore_refresh] at known
  exact (keptBefore_cfgSimplify.mp known).2

end Accepted

/-- Every available value the pass knows to be a constant is that constant. -/
def ConstsHold (f : Func) (s : State σ) : Prop :=
  ∀ v x c, s.values v = some x → constsBefore f f.data.length v = some c → x = c

theorem ConstsHold.next {f : Func} {cfg : EvalConfig σ} (accepted : verify f = .ok ())
    {s s' : State σ} (holds : ConstsHold f s) (moved : (vm f cfg).step s = .inl s') :
    ConstsHold f s' := by
  obtain ⟨inst, found, stepped⟩ := vm_next moved
  obtain ⟨-, xs, read, executed⟩ := stepInst_next stepped
  obtain ⟨-, values⟩ := execute_next executed
  have inside := (List.getElem?_eq_some_iff.mp found).1
  intro v x c value known
  cases values with
  | same silent kept =>
    rw [kept] at value
    exact holds v x c value known
  | written u y produced updated =>
    rw [updated, Function.update_apply] at value
    split at value
    · -- The written value is the instruction's own, which the scan has seen only once.
      rename_i same
      obtain ⟨-, nonneg, rfl⟩ := Inst.writes_eq_some.mp produced
      subst same
      obtain rfl : y = x := by simpa using value
      have stable {k : Nat} {u : Int} (here : definedBefore f k u = true) (early : k ≤ s.pc + 1) :=
        constsBefore_stable (.of_verify accepted) here (k := f.data.length) (by omega) (by omega)
      have defined : definedBefore f (s.pc + 1) inst.dst = true :=
        definedBefore_iff.mpr ⟨nonneg, s.pc, inst, by omega, found, rfl⟩
      rw [stable defined (by omega), constsBefore_dst found nonneg] at known
      split at known
      · rename_i isConst
        have := congrFun (updated.symm.trans
          (congrArg State.values (Sum.inl.inj (stepped.symm.trans (stepInst_const isConst nonneg)))))
          inst.dst
        simp only [Function.update_self, Option.some.injEq] at this known
        rw [this, known]
      · split at known
        · rename_i isCopy
          simp only [Bool.and_eq_true, decide_eq_true_eq] at isCopy
          have copied : some y = s.values inst.a := by
            have := congrFun (updated.symm.trans (copy_next isCopy.1 stepped)) inst.dst
            simpa using this
          have source := (read_defined accepted found (v := inst.a)
            (by simp [Inst.reads, isCopy.1, Op.shape])).2.2
          refine holds inst.a y c copied.symm ?_
          rw [stable source (by omega)]
          exact known
        · cases known
    · exact holds v x c value known

theorem constsBefore_of_collectConsts {f : Func} {v : Int} {c : I64}
    (known : constOf (collectConsts f) v = some c) : constsBefore f f.data.length v = some c := by
  unfold constOf collectConsts at known
  split at known
  · split at known
    · cases known
    · rw [constsBefore, List.take_length]
      exact known
  · cases known

theorem stepInst_skip {f : Func} {cfg : EvalConfig σ} {inst : Inst} {s : State σ}
    (skips : inst.op = .nop ∨ inst.op = .label) :
    stepInst f cfg inst s = .inl { s with pc := s.pc + 1 } := by
  rcases skips with op | op <;> simp [stepInst, precheck, Inst.reads, execute, op, Op.shape]

theorem steps_skip {f : Func} {cfg : EvalConfig σ} {s : State σ} (k : Nat)
    (skips : ∀ j < k, ∃ inst, f.data[s.pc + j]? = some inst ∧ (inst.op = .nop ∨ inst.op = .label)) :
    (vm f cfg).Steps s { s with pc := s.pc + k } := by
  induction k with
  | zero => exact .refl s
  | succ k ih =>
    obtain ⟨inst, found, skip⟩ := skips k (by omega)
    refine (ih fun j below => skips j (by omega)).tail ?_
    have here : f.data[({ s with pc := s.pc + k } : State σ).pc]? = some inst := found
    rw [vm_step_of_found here, stepInst_skip skip]
    rfl

theorem labelComesNext_spec {rest : List Inst} {label : I64}
    (next : labelComesNext rest label = true) :
    ∃ (k : Nat) (inst : Inst), rest[k]? = some inst ∧ inst.op = .label ∧ inst.imm = label ∧
      ∀ j < k, ∃ p : Inst, rest[j]? = some p ∧ p.op = .nop := by
  induction rest with
  | nil => simp [labelComesNext] at next
  | cons head rest ih =>
    by_cases isNop : head.op = .nop
    · have later : labelComesNext rest label = true := by
        simpa [labelComesNext, List.find?_cons, isNop] using next
      obtain ⟨k, inst, found, isLabel, same, nops⟩ := ih later
      refine ⟨k + 1, inst, found, isLabel, same, fun j below => ?_⟩
      rcases j with _ | j
      · exact ⟨head, rfl, isNop⟩
      · exact nops j (by omega)
    · simp only [labelComesNext, List.find?_cons, isNop, ne_eq, not_false_eq_true, decide_true,
        Bool.and_eq_true, decide_eq_true_eq] at next
      exact ⟨0, head, rfl, next.1, next.2, fun j below => absurd below (by omega)⟩

section Runs

variable {f : Func} (accepted : verify f = .ok ()) {cfg : EvalConfig σ} {s : State σ}

include accepted

theorem steps_to_next_label {inst : Inst} (next : labelComesNext (f.data.drop (s.pc + 1)) inst.imm = true)
    (found : f.data[s.pc]? = some inst) (left : simplified f s.pc inst = bareInst .nop 0)
    {s' : State σ} (jumped : jump f inst s = .inl s') :
    (vm (refreshMetadata (cfgSimplify f)) cfg).Steps s s' := by
  obtain ⟨k, label, there, isLabel, same, nops⟩ := labelComesNext_spec next
  rw [List.getElem?_drop] at there
  obtain ⟨entry, moved⟩ := jump_next jumped
  have nonneg : 0 ≤ label.imm.toInt := by
    obtain ⟨-, -, -, -, -, -, nonneg⟩ := labelTable_some entry
    rw [same]
    exact nonneg
  have target := labelTable_of_verify accepted there isLabel nonneg
  rw [same, entry, Option.some.injEq] at target
  rw [moved, target]
  have skipped : (vm (refreshMetadata (cfgSimplify f)) cfg).Steps s { s with pc := s.pc + (k + 2) } :=
    steps_skip (k + 2) fun j below => ?_
  · exact (by omega : s.pc + (k + 2) = s.pc + 1 + k + 1) ▸ skipped
  · -- The branch itself, the no-ops behind it, and the label.
    have kept {p : Inst} {i : Nat} (at_ : f.data[i]? = some p) (op : p.op = .nop ∨ p.op = .label) :
        (refreshMetadata (cfgSimplify f)).data[i]? = some (refreshInst p) := by
      rw [refreshMetadata_getElem?, cfgSimplify_getElem?, at_, Option.map_some, Option.map_some]
      rcases (simplified_cases f i p).bare with left | ⟨isBranch, -⟩
      · rw [left]
      · rcases op with op | op <;> simp [op] at isBranch
    rcases j with _ | j
    · refine ⟨refreshInst (bareInst .nop 0), ?_, .inl (by simp)⟩
      rw [Nat.add_zero, refreshMetadata_getElem?, cfgSimplify_getElem?, found, Option.map_some, left]
      rfl
    · by_cases last : j = k
      · subst last
        rw [Nat.add_right_comm] at there
        exact ⟨_, kept there (.inr isLabel), .inr (by simp [isLabel])⟩
      · obtain ⟨p, at_, isNop⟩ := nops j (by omega)
        rw [List.getElem?_drop, Nat.add_right_comm] at at_
        exact ⟨_, kept at_ (.inl isNop), .inl (by simp [isNop])⟩

theorem cfgSimplify_next {s' : State σ} (holds : ConstsHold f s)
    (moved : (vm f cfg).step s = .inl s') :
    (vm (refreshMetadata (cfgSimplify f)) cfg).Steps s s' := by
  obtain ⟨inst, found, stepped⟩ := vm_next moved
  have labels : labelTable (refreshMetadata (cfgSimplify f)) = labelTable f := by
    rw [labelTable_congr (refreshMetadata_map _ refreshInst_labelMark),
      labelTable_congr (cfgSimplify_labelMark f)]
  have here (inst' : Inst) (same : simplified f s.pc inst = inst') :
      (vm (refreshMetadata (cfgSimplify f)) cfg).step s =
        stepInst (refreshMetadata (cfgSimplify f)) cfg (refreshInst inst') s := by
    refine vm_step_of_found ?_
    rw [refreshMetadata_getElem?, cfgSimplify_getElem?, found, Option.map_some, same]
    rfl
  -- On a known constant the conditional branch goes the way the constant says.
  have decided {c : I64} (isBranch : inst.op = .brIf)
      (known : constOf (collectConsts f) inst.a = some c) :
      (if c = 0 then .inl { s with pc := s.pc + 1 } else jump f inst s) =
        (.inl s' : State σ ⊕ Outcome σ) := by
    obtain ⟨-, xs, read, executed⟩ := stepInst_next stepped
    simp only [Inst.reads, isBranch, Op.shape] at read
    obtain ⟨x, rfl, value⟩ := mapM_readValue_one read
    obtain rfl := holds inst.a x c value (constsBefore_of_collectConsts known)
    simpa [execute, isBranch, Op.shape] using executed
  have cases := simplified_cases f s.pc inst
  generalize rewritten : simplified f s.pc inst = inst' at cases
  cases cases with
  | same =>
    refine .single ((here inst rewritten).trans ?_)
    rw [stepInst_refresh (OpOk.of_verify accepted found).wellFormed labels (stepped ▸ fine_next s')]
    exact stepped
  | taken c isBranch known nonzero =>
    have jumped := decided isBranch known
    rw [if_neg nonzero] at jumped
    have again : stepInst f cfg (bareInst .br inst.imm) s = .inl s' := by
      rw [← jumped]
      have same : (bareInst .br inst.imm).imm = inst.imm := rfl
      exact jump_congr same rfl (jumped ▸ fine_next s')
    refine .single ((here _ rewritten).trans ?_)
    rw [stepInst_refresh (f := f) (by simp [Inst.wellFormed, Op.shape]) labels
      (again ▸ fine_next s'), again]
  | skipped isBranch known =>
    have fell := decided isBranch known
    simp only [if_true, Sum.inl.injEq] at fell
    refine .single ((here _ rewritten).trans ?_)
    rw [stepInst_skip (.inl (by simp)), fell]
  | removed isBranch next =>
    refine steps_to_next_label accepted next found rewritten ?_
    rcases isBranch with isBr | ⟨isBrIf, c, known, nonzero⟩
    · obtain ⟨-, xs, -, executed⟩ := stepInst_next stepped
      simpa [execute, isBr, Op.shape] using executed
    · exact (if_neg nonzero).symm.trans (decided isBrIf known)

theorem cfgSimplify_stop {r : EvalResult σ} (stopped : (vm f cfg).step s = .inr (.ok r)) :
    (vm (refreshMetadata (cfgSimplify f)) cfg).step s = .inr (.ok r) := by
  cases found : f.data[s.pc]? with
  | none =>
    have none' : (refreshMetadata (cfgSimplify f)).data[s.pc]? = none := by
      rw [refreshMetadata_getElem?, cfgSimplify_getElem?, found]
      rfl
    simpa only [vm, found, none'] using stopped
  | some inst =>
    rw [vm_step_of_found found] at stopped
    have labels : labelTable (refreshMetadata (cfgSimplify f)) = labelTable f := by
      rw [labelTable_congr (refreshMetadata_map _ refreshInst_labelMark),
        labelTable_congr (cfgSimplify_labelMark f)]
    -- Only a return stops well, and the pass leaves returns alone.
    have isRet := ret_of_stop stopped
    rcases (simplified_cases f s.pc inst).bare with left | ⟨isBranch, -⟩
    · have here : (refreshMetadata (cfgSimplify f)).data[s.pc]? = some (refreshInst inst) := by
        rw [refreshMetadata_getElem?, cfgSimplify_getElem?, found, Option.map_some, left]
        rfl
      rw [vm_step_of_found here, stepInst_refresh (OpOk.of_verify accepted found).wellFormed labels
        (stopped ▸ fine_ok r)]
      exact stopped
    · simp [isRet] at isBranch

end Runs

theorem succeeds_cfgSimplify {f : Func} (safe : SimplifySafe f) {cfg : EvalConfig σ}
    {w : World σ} {r : EvalResult σ} (succeeds : Succeeds f cfg w r) :
    Succeeds (refreshMetadata (cfgSimplify f)) cfg w r := by
  obtain ⟨accepted, ended⟩ := succeeds_iff.mp succeeds
  refine succeeds_iff.mpr ⟨verify_cfgSimplify accepted safe, ?_⟩
  refine Machine.Ends.simulate (R := fun s t => t = s ∧ ConstsHold f s)
    (G := fun out => ∃ r, out = .ok r) ?_ ?_ ended ⟨r, rfl⟩
    ⟨rfl, fun v x c value => by cases value⟩
  · rintro s s' t ⟨rfl, holds⟩ moved
    exact ⟨s', cfgSimplify_next accepted holds moved, rfl, holds.next accepted moved⟩
  · rintro s t out ⟨rfl, -⟩ stopped ⟨r, rfl⟩
    exact .of_stop (cfgSimplify_stop accepted stopped)

end Nytrix.Nir
