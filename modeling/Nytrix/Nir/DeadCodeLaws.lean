import Nytrix.Nir.Cleanup

/-! Dead code elimination: what its two scans keep, and that this preserves the computation. -/

namespace Nytrix.Nir

open Nytrix.Lib

variable {σ : Type}

/-- The forward scan before position `i`: the instructions rewritten so far and the flags. -/
def forwardBefore (f : Func) : Nat → List Inst × ReachFlags
  | 0 => ([], {})
  | i + 1 =>
    let (done, fl) := forwardBefore f i
    match f.data[i]? with
    | none => (done, fl)
    | some inst =>
      let fl := enterFlags f (done ++ f.data.drop i) fl inst
      if !fl.reachable && inst.op ≠ .label then
        (done ++ [instDiscard inst], { fl with firstInst := false })
      else (done ++ [inst], leaveFlags fl inst)

/-- The flags at position `i` once its instruction has been looked at. -/
def entered (f : Func) (i : Nat) (inst : Inst) : ReachFlags :=
  enterFlags f ((forwardBefore f i).1 ++ f.data.drop i) (forwardBefore f i).2 inst

/-- Whether the forward scan keeps the instruction at position `i`. -/
def forwardKeeps (f : Func) (i : Nat) (inst : Inst) : Bool :=
  (entered f i inst).reachable || decide (inst.op = .label)

theorem forwardBefore_succ {f : Func} {i : Nat} {inst : Inst} (found : f.data[i]? = some inst) :
    forwardBefore f (i + 1) = if forwardKeeps f i inst then
        ((forwardBefore f i).1 ++ [inst], leaveFlags (entered f i inst) inst)
      else ((forwardBefore f i).1 ++ [instDiscard inst],
        { entered f i inst with firstInst := false }) := by
  simp only [forwardBefore, found, forwardKeeps, entered]
  by_cases isLabel : inst.op = .label
  · simp [isLabel]
  · by_cases reached :
        (enterFlags f ((forwardBefore f i).1 ++ f.data.drop i) (forwardBefore f i).2 inst).reachable
    · simp [isLabel, reached]
    · simp [isLabel, reached]

theorem forwardBefore_length {f : Func} {i : Nat} (inside : i ≤ f.data.length) :
    (forwardBefore f i).1.length = i := by
  induction i with
  | zero => rfl
  | succ i ih =>
    rw [forwardBefore_succ (List.getElem?_eq_getElem (by omega))]
    split <;> simp [ih (by omega)]

theorem dceForward_eq {f : Func} {i : Nat} (inside : i ≤ f.data.length) :
    dceForward f (forwardBefore f i).1 (f.data.drop i) (forwardBefore f i).2 =
      dceForward f [] f.data {} := by
  induction i with
  | zero => rfl
  | succ i ih =>
    obtain ⟨inst, found⟩ : ∃ inst, f.data[i]? = some inst :=
      ⟨_, List.getElem?_eq_getElem (by omega)⟩
    obtain ⟨bound, same⟩ := List.getElem?_eq_some_iff.mp found
    rw [← ih (by omega), forwardBefore_succ found, List.drop_eq_getElem_cons bound, same, dceForward]
    simp only [forwardKeeps, entered, List.drop_eq_getElem_cons bound, same]
    generalize enterFlags f ((forwardBefore f i).1 ++ inst :: f.data.drop (i + 1))
      (forwardBefore f i).2 inst = fl
    by_cases isLabel : inst.op = .label
    · simp [isLabel]
    · cases fl.reachable <;> simp [isLabel]

/-- The forward scan's result. -/
def forwardData (f : Func) : List Inst := dceForward f [] f.data {}

theorem forwardData_eq (f : Func) : forwardData f = (forwardBefore f f.data.length).1 := by
  rw [forwardData, ← dceForward_eq (Nat.le_refl _), List.drop_length, dceForward]

theorem forwardBefore_getElem? {f : Func} {i k : Nat} {inst : Inst}
    (found : f.data[i]? = some inst) (before : i < k) (inside : k ≤ f.data.length) :
    (forwardBefore f k).1[i]? =
      some (if forwardKeeps f i inst then inst else instDiscard inst) := by
  induction k with
  | zero => omega
  | succ k ih =>
    obtain ⟨last, at_⟩ : ∃ last, f.data[k]? = some last :=
      ⟨_, List.getElem?_eq_getElem (by omega)⟩
    have length := forwardBefore_length (f := f) (i := k) (by omega)
    have shape : (forwardBefore f (k + 1)).1 = (forwardBefore f k).1 ++
        [if forwardKeeps f k last then last else instDiscard last] := by
      rw [forwardBefore_succ at_]
      split <;> rfl
    rw [shape]
    rcases Nat.lt_succ_iff_lt_or_eq.mp before with earlier | rfl
    · rw [List.getElem?_append_left (by omega)]
      exact ih earlier (by omega)
    · obtain rfl : inst = last := by simpa [found] using at_
      rw [List.getElem?_append_right (by omega), length]
      simp

theorem forwardData_getElem? {f : Func} {i : Nat} {inst : Inst} (found : f.data[i]? = some inst) :
    (forwardData f)[i]? = some (if forwardKeeps f i inst then inst else instDiscard inst) := by
  rw [forwardData_eq]
  exact forwardBefore_getElem? found (List.getElem?_eq_some_iff.mp found).1 (Nat.le_refl _)

/-- Whether an instruction of a list gives this value as an operand. -/
def usedIn (insts : List Inst) (v : Int) : Bool :=
  decide (0 ≤ v) && insts.any fun inst => inst.operands.contains v

/-- The backward scan's result. -/
def dceData (f : Func) : List Inst :=
  dceBackward f (forwardData f).reverse (fun _ => false) []

/-- Whether the backward scan keeps an instruction, given the rewritten ones behind it. -/
def backwardKeeps (f : Func) (before after : List Inst) (inst : Inst) : Bool :=
  sideEffect f (before ++ inst :: after) inst || (decide (0 ≤ inst.dst) && usedIn after inst.dst)

theorem usedIn_discard (inst : Inst) (rest : List Inst) :
    usedIn (instDiscard inst :: rest) = usedIn rest := by
  funext v
  by_cases given : 0 ≤ v
  · have apart : v ≠ -1 := by omega
    simp [usedIn, instDiscard, Inst.operands, apart]
  · simp [usedIn, given]

theorem usedIn_cons (inst : Inst) (rest : List Inst) :
    usedIn (inst :: rest) = markUsed (usedIn rest) inst := by
  funext v
  simp only [usedIn, markUsed, List.any_cons]
  cases decide (0 ≤ v) <;> simp [Bool.or_comm]

theorem dceBackward_spec (f : Func) (before done : List Inst) :
    let fin := dceBackward f before (usedIn done) done
    fin.length = before.length + done.length ∧ fin.drop before.length = done ∧
      ∀ (i : Nat) (inst : Inst), before.reverse[i]? = some inst → fin[i]? = some
        (if backwardKeeps f (before.reverse.take i) (fin.drop (i + 1)) inst then inst
        else instDiscard inst) := by
  induction before generalizing done with
  | nil => simp [dceBackward]
  | cons inst before ih =>
    -- One turn of the scan puts either the instruction or a no-op in front of what is done.
    obtain ⟨inst', shape, chosen⟩ : ∃ inst', dceBackward f (inst :: before) (usedIn done) done =
        dceBackward f before (usedIn (inst' :: done)) (inst' :: done) ∧
        inst' = if backwardKeeps f before.reverse done inst then inst else instDiscard inst := by
      refine ⟨_, ?_, rfl⟩
      rw [dceBackward]
      unfold backwardKeeps
      split
      · rw [usedIn_cons]
      · rw [usedIn_discard]
    obtain ⟨length, drop, rest⟩ := ih (inst' :: done)
    simp only [shape]
    refine ⟨by simp [length]; omega, ?_, fun i p found => ?_⟩
    · rw [List.length_cons, ← List.drop_drop, drop]
      rfl
    · rw [List.reverse_cons] at found ⊢
      rcases Nat.lt_or_ge i before.reverse.length with inside | outside
      · rw [List.getElem?_append_left inside] at found
        rw [rest i p found, List.take_append_of_le_length (by omega)]
      · rw [List.getElem?_append_right outside] at found
        have last : i = before.length := by
          have := (List.getElem?_eq_some_iff.mp found).1
          simp only [List.length_cons, List.length_nil, List.length_reverse] at this outside
          omega
        subst last
        obtain rfl : inst = p := by simpa using found
        have here : (dceBackward f before (usedIn (inst' :: done)) (inst' :: done)).drop
            (before.length + 1) = done := by
          rw [← List.drop_drop, drop]
          rfl
        rw [here, List.take_append_of_le_length (by simp), List.take_of_length_le (by simp),
          ← chosen, ← List.head?_drop, drop]
        rfl

theorem dceData_spec (f : Func) :
    (dceData f).length = (forwardData f).length ∧
      ∀ (i : Nat) (inst : Inst), (forwardData f)[i]? = some inst → (dceData f)[i]? = some
        (if backwardKeeps f ((forwardData f).take i) ((dceData f).drop (i + 1)) inst then inst
        else instDiscard inst) := by
  have none : usedIn [] = fun _ => false := by
    funext v
    simp [usedIn]
  have spec := dceBackward_spec f (forwardData f).reverse []
  rw [none, List.reverse_reverse] at spec
  refine ⟨?_, spec.2.2⟩
  rw [List.length_reverse] at spec
  exact spec.1

/-- Whether both scans keep the instruction at position `i`. -/
def dceKeeps (f : Func) (i : Nat) (inst : Inst) : Bool :=
  forwardKeeps f i inst &&
    backwardKeeps f ((forwardData f).take i) ((dceData f).drop (i + 1)) inst

theorem dceData_getElem? {f : Func} {i : Nat} {inst : Inst} (found : f.data[i]? = some inst) :
    (dceData f)[i]? = some (if dceKeeps f i inst then inst else instDiscard inst) := by
  have at_ := (dceData_spec f).2 i _ (forwardData_getElem? found)
  rw [at_, dceKeeps]
  cases forwardKeeps f i inst
  · simp only [Bool.false_eq_true, if_false, Bool.false_and]
    split <;> rfl
  · simp

theorem dceData_length (f : Func) : (dceData f).length = f.data.length := by
  rw [(dceData_spec f).1, forwardData_eq, forwardBefore_length (Nat.le_refl _)]

theorem dce_eq (f : Func) :
    dce f = if f.nextValue ≤ 0 then f else { f with data := dceData f } := rfl

theorem referenced_of_branch {f : Func} {current : List Inst} {inst : Inst}
    (isBranch : inst.op.isBranch = true) (old : inst ∈ f.data) (now : inst ∈ current) :
    referenced f current inst.imm = true := by
  have found {insts : List Inst} (member : inst ∈ insts) : branchesTo insts inst.imm = true :=
    List.any_eq_true.mpr ⟨inst, member, by simp [isBranch]⟩
  unfold referenced
  split
  · exact found old
  · exact found now

theorem forwardBefore_fallthrough (f : Func) (i : Nat) :
    (forwardBefore f i).2.fallthrough = (forwardBefore f i).2.reachable := by
  induction i with
  | zero => rfl
  | succ i ih =>
    cases found : f.data[i]? with
    | none => simpa [forwardBefore, found] using ih
    | some inst =>
      have entry : (entered f i inst).fallthrough = (entered f i inst).reachable := by
        unfold entered enterFlags
        split
        · rfl
        · exact ih
      rw [forwardBefore_succ found]
      split
      · unfold leaveFlags
        split
        · rfl
        · split
          · rfl
          · exact entry
      · exact entry

theorem entered_of_reachable {f : Func} {i : Nat} (inst : Inst)
    (reached : (forwardBefore f i).2.reachable = true) : (entered f i inst).reachable = true := by
  unfold entered enterFlags
  split
  · simp [forwardBefore_fallthrough, reached]
  · exact reached

theorem reachable_succ {f : Func} {i : Nat} {inst : Inst} (found : f.data[i]? = some inst)
    (reached : (entered f i inst).reachable = true) (noRet : inst.op ≠ .ret) (noBr : inst.op ≠ .br) :
    (forwardBefore f (i + 1)).2.reachable = true := by
  rw [forwardBefore_succ found, if_pos (by simp [forwardKeeps, reached])]
  unfold leaveFlags
  split
  · rename_i ends
    simp [noRet, noBr] at ends
  · split <;> exact reached

theorem forwardBefore_reach {f : Func} {i : Nat} {W : Set Int} (path : Reach f i W) :
    (forwardBefore f i).2.reachable = true := by
  induction path with
  | entry => rfl
  | @edge i j W inst before found passes ih =>
    have inside := (List.getElem?_eq_some_iff.mp found).1
    have here := entered_of_reachable inst ih
    have kept : forwardKeeps f i inst = true := by simp [forwardKeeps, here]
    have fell (noRet : inst.op ≠ .ret) (noBr : inst.op ≠ .br) (next : j = i + 1) :
        (forwardBefore f j).2.reachable = true := next ▸ reachable_succ found here noRet noBr
    have jumped (isBranch : inst.op.isBranch = true) (entry : labelTable f inst.imm = some j) :
        (forwardBefore f j).2.reachable = true := by
      obtain ⟨k, label, rfl, there, isLabel, same, -⟩ := labelTable_some entry
      have bound := (List.getElem?_eq_some_iff.mp there).1
      refine reachable_succ there ?_ (by simp [isLabel]) (by simp [isLabel])
      -- The branch is behind the label and untouched, or before it and kept.
      have now : inst ∈ (forwardBefore f k).1 ++ f.data.drop k := by
        rw [List.mem_append]
        rcases Nat.lt_or_ge i k with earlier | later
        · have at_ := forwardBefore_getElem? found earlier (by omega)
          rw [kept] at at_
          exact .inl (List.mem_of_getElem? at_)
        · refine .inr (List.mem_of_getElem? (i := i - k) ?_)
          rw [List.getElem?_drop, Nat.add_sub_cancel' later]
          exact found
      simp only [entered, enterFlags, isLabel, if_true, same,
        referenced_of_branch isBranch (List.mem_of_getElem? found) now, Bool.or_true]
    unfold Edge at passes
    split at passes
    · exact passes.elim
    · rename_i shape
      have op : inst.op = .br := Op.of_shape shape rfl
      exact jumped (by simp [Op.isBranch, op]) passes
    · rename_i shape
      have op : inst.op = .brIf := Op.of_shape shape rfl
      rcases passes with next | entry
      · exact fell (by simp [op]) (by simp [op]) next
      · exact jumped (by simp [Op.isBranch, op]) entry
    · rename_i noRet noBr _
      exact fell (fun same => noRet (by rw [same]; rfl)) (fun same => noBr (by rw [same]; rfl)) passes

theorem forwardKeeps_of_reach {f : Func} {i : Nat} {W : Set Int} (path : Reach f i W)
    (inst : Inst) : forwardKeeps f i inst = true := by
  simp [forwardKeeps, entered_of_reachable inst (forwardBefore_reach path)]

/-- The instructions the scans may never discard: those that write memory or transfer control. -/
def Inst.mustStay (inst : Inst) : Bool :=
  inst.op = .storeLocal || inst.op = .storeI64 || inst.op = .call || inst.op = .ret ||
    inst.op.isBranch

theorem sideEffect_of_mustStay {f : Func} {current : List Inst} {inst : Inst}
    (effects : inst.effects = instEffects inst) (stays : inst.mustStay = true) :
    sideEffect f current inst = true := by
  simp only [Inst.mustStay, Op.isBranch, Bool.or_eq_true, decide_eq_true_eq] at stays
  rcases stays with (((op | op) | op) | op) | (op | op) <;>
    simp [sideEffect, op, effects, instEffects, Op.shape, Op.isBranch, effectWriteLocal,
      effectCall, effectNone]

section Accepted

variable {f : Func} (accepted : verify f = .ok ())

include accepted

theorem dce_present {i : Nat} {W : Set Int} {inst : Inst} (path : Reach f i W)
    (found : f.data[i]? = some inst) (stays : inst.mustStay = true) :
    (dce f).data[i]? = some inst := by
  rw [dce_eq]
  split
  · exact found
  · have effects := (CommonOk.of_verify accepted found).effects
    rw [dceData_getElem? found, if_pos]
    simp [dceKeeps, forwardKeeps_of_reach path, backwardKeeps, sideEffect_of_mustStay effects stays]

omit accepted in
/-- A branch that is kept keeps its label. -/
theorem dceKeeps_label {i k : Nat} {inst label : Inst} (found : f.data[i]? = some inst)
    (kept : dceKeeps f i inst = true) (isBranch : inst.op.isBranch = true)
    (there : f.data[k]? = some label) (isLabel : label.op = .label) (same : label.imm = inst.imm) :
    dceKeeps f k label = true := by
  have bounds := (List.getElem?_eq_some_iff.mp found).1
  have forward : forwardKeeps f i inst = true := (Bool.and_eq_true_iff.mp kept).1
  -- The scan of the label sees the branch before it as kept, or behind it as left.
  have now : inst ∈ (forwardData f).take k ++ label :: (dceData f).drop (k + 1) := by
    rw [List.mem_append, List.mem_cons]
    rcases Nat.lt_trichotomy i k with earlier | rfl | later
    · refine .inl (List.mem_of_getElem? (i := i) ?_)
      rw [List.getElem?_take_of_lt earlier, forwardData_getElem? found, if_pos forward]
    · obtain rfl : inst = label := by simpa [found] using there
      simp [isLabel, Op.isBranch] at isBranch
    · refine .inr (.inr (List.mem_of_getElem? (i := i - (k + 1)) ?_))
      rw [List.getElem?_drop, Nat.add_sub_cancel' later, dceData_getElem? found, if_pos kept]
  simp [dceKeeps, forwardKeeps, isLabel, backwardKeeps, sideEffect, same,
    referenced_of_branch isBranch (List.mem_of_getElem? found) now]

end Accepted

/--
The two ways dead code elimination can break a function are absent.

No instruction it keeps reads a value whose definition the forward scan discarded, and no capture
it keeps follows a capture it discards.
-/
def DceSafe (f : Func) : Prop :=
  ∀ (i : Nat) (inst : Inst), f.data[i]? = some inst → dceKeeps f i inst = true →
    (∀ v ∈ inst.reads, ∃ j p, j < i ∧ f.data[j]? = some p ∧ p.dst = v ∧
      forwardKeeps f j p = true) ∧
    (inst.op = .captureRet → ∀ p, f.data[i - 1]? = some p → dceKeeps f (i - 1) p = true)

theorem thins_dceData (f : Func) : Thins f { f with data := dceData f } := by
  refine ⟨dceData_length f, fun i inst inst' found found' => ?_⟩
  rw [dceData_getElem? found, Option.some.injEq] at found'
  subst found'
  split
  · exact .inl rfl
  · exact .inr (by simp [instDiscard])

theorem dceData_cases {f : Func} {i : Nat} {inst' : Inst} (found' : (dceData f)[i]? = some inst') :
    ∃ inst, f.data[i]? = some inst ∧
      (inst' = inst ∧ dceKeeps f i inst = true ∨ inst' = instDiscard inst) := by
  obtain ⟨inst, found⟩ := (thins_dceData f).found found'
  refine ⟨inst, found, ?_⟩
  rw [dceData_getElem? found, Option.some.injEq] at found'
  subst found'
  split
  · rename_i kept
    exact .inl ⟨rfl, kept⟩
  · exact .inr rfl

theorem instOk_discard {f : Func} {i : Nat} (counted : 0 ≤ f.nextValue) (inst : Inst) :
    InstOk f i (instDiscard inst) := by
  refine instOk_iff.mpr ⟨⟨fun _ => rfl, rfl, rfl, nofun, fun _ => ⟨rfl, rfl⟩, ?_, ?_⟩, ?_⟩
  · exact Int.lt_of_lt_of_le (by simp [instDiscard]) counted
  · simp [instDiscard]
  · refine ⟨?_, ?_, ?_, ?_, ?_⟩ <;> simp [instDiscard, Inst.reads, Inst.wellFormed, Op.shape]

section Accepted

variable {f : Func} (accepted : verify f = .ok ())

include accepted

omit accepted in
/-- A definition the forward scan keeps is kept when an instruction that is kept reads it. -/
theorem dceKeeps_of_read {i j : Nat} {inst p : Inst} (found : f.data[i]? = some inst)
    (kept : dceKeeps f i inst = true) {v : Int} (given : 0 ≤ v) (read : v ∈ inst.reads)
    (before : j < i) (dst : p.dst = v)
    (forward : forwardKeeps f j p = true) : dceKeeps f j p = true := by
  have used : usedIn ((dceData f).drop (j + 1)) v = true := by
    simp only [usedIn, given, decide_true, Bool.true_and, List.any_eq_true]
    refine ⟨inst, List.mem_of_getElem? (i := i - (j + 1)) ?_, ?_⟩
    · rw [List.getElem?_drop, Nat.add_sub_cancel' before, dceData_getElem? found, if_pos kept]
    · simpa using mem_operands_of_reads given read
  simp [dceKeeps, forward, backwardKeeps, dst, given, used]

theorem verify_dce (safe : DceSafe f) : verify (dce f) = .ok () := by
  rw [dce_eq]
  split
  · exact accepted
  obtain ⟨counted, -, constraints⟩ := verify_ok_iff.mp accepted
  have thins := thins_dceData f
  have fresh := DstsFresh.of_verify accepted
  refine verify_ok_iff.mpr ⟨counted, fun i inst' found' => ?_,
    validateConstraints_ok_iff.mpr fun i inst' found' => ?_⟩ <;>
    obtain ⟨inst, found, ⟨rfl, kept⟩ | rfl⟩ := dceData_cases found'
  · obtain ⟨sizes, effects, paired, ordered, debug, below, dst⟩ := CommonOk.of_verify accepted found
    have own := OpOk.of_verify accepted found
    obtain ⟨reads, chain⟩ := safe i inst' found kept
    refine instOk_iff.mpr ⟨⟨sizes, effects, paired, ordered, debug, below, ?_⟩, ?_⟩
    · exact fun has => thins.dstsFresh fresh i inst' found' has
    · refine ⟨fun v read => ?_, own.wellFormed, fun isLabel => ?_, fun isBranch => ?_,
        fun capture => ?_⟩
      · obtain ⟨given, small, -⟩ := read_defined accepted found read
        obtain ⟨j, p, before, there, dst, forward⟩ := reads v read
        have left := dceKeeps_of_read found kept given read before dst forward
        have known : definedBefore { f with data := dceData f } i v = true :=
          definedBefore_iff.mpr ⟨given, j, p, before,
            by simp only [dceData_getElem? there, if_pos left], dst⟩
        simp [valueDefined, given, small, known]
      · rw [List.any_eq_false]
        intro q member clash
        simp only [Bool.and_eq_true, decide_eq_true_eq] at clash
        obtain ⟨j, at_⟩ := List.mem_iff_getElem?.mp member
        have before : j < i := by
          have := (List.getElem?_eq_some_iff.mp at_).1
          rw [List.length_take] at this
          omega
        rw [List.getElem?_take_of_lt before] at at_
        obtain ⟨p, there, ⟨rfl, -⟩ | rfl⟩ := dceData_cases at_
        · have := label_unique accepted there found clash.1 isLabel clash.2
          omega
        · simp [instDiscard] at clash
      · obtain ⟨k, label, there, isLabel, same⟩ := labelExists_iff.mp (own.target isBranch)
        refine labelExists_iff.mpr ⟨k, label, ?_, isLabel, same⟩
        have branch : inst'.op.isBranch = true := by
          rcases isBranch with op | op <;> simp [Op.isBranch, op]
        simp only [dceData_getElem? there, if_pos (dceKeeps_label found kept branch there isLabel same)]
      · have follows := own.follows capture
        rcases i with _ | i
        · exact follows
        · simp only [followsCall] at follows ⊢
          cases there : f.data[i]? with
          | none => simp [there] at follows
          | some p =>
            simp only [there] at follows
            have left : dceKeeps f i p = true := chain capture p there
            simp only [dceData_getElem? there, if_pos left]
            exact follows
  · exact instOk_discard (f := { f with data := dceData f }) (i := i) counted inst
  · have passed := constraintChecks_none_iff.mp (validateConstraints_ok_iff.mp constraints i inst' found)
    have inside := (List.getElem?_eq_some_iff.mp found).1
    exact constraintChecks_none_iff.mpr
      ⟨passed.1, constTrap_mono (fun v c => thins.constsBefore fresh (by omega)) passed.2⟩
  · exact constraintChecks_none_iff.mpr
      ⟨by rintro ⟨⟩, constTrap_of_not_binary (by simp [instDiscard, Op.shape])⟩

theorem dceSafe_of_verify (after : verify (dce f) = .ok ()) : DceSafe f := by
  rw [dce_eq] at after
  intro i inst found kept
  split at after
  · rename_i none
    -- Without values nothing is read and nothing is captured.
    refine ⟨fun v read => ?_, fun capture => ?_⟩
    · have := read_defined accepted found read
      omega
    · have formed := (OpOk.of_verify accepted found).wellFormed
      simp only [Inst.wellFormed, capture, Op.shape, Bool.and_eq_true, decide_eq_true_eq] at formed
      have := (CommonOk.of_verify accepted found).dstBelow
      omega
  · have found' : ({ f with data := dceData f } : Func).data[i]? = some inst := by
      simp only [dceData_getElem? found, if_pos kept]
    refine ⟨fun v read => ?_, fun capture p there => ?_⟩
    · obtain ⟨given, -, known⟩ := read_defined after found' read
      obtain ⟨-, j, q, before, at_, dst⟩ := definedBefore_iff.mp known
      obtain ⟨p, there, ⟨rfl, left⟩ | rfl⟩ := dceData_cases at_
      · exact ⟨j, q, before, there, dst, (Bool.and_eq_true_iff.mp left).1⟩
      · simp only [instDiscard] at dst
        omega
    · have follows := (OpOk.of_verify after found').follows capture
      rcases i with _ | i
      · simp [followsCall] at follows
      · simp only [Nat.add_sub_cancel] at there ⊢
        by_contra gone
        simp [followsCall, dceData_getElem? there, gone, instDiscard] at follows

theorem verify_dce_iff : verify (dce f) = .ok () ↔ DceSafe f :=
  ⟨dceSafe_of_verify accepted, verify_dce accepted⟩

end Accepted

/-- Whether an instruction both scans leave reads this value. -/
def Needed (f : Func) (v : Int) : Prop := ∃ p ∈ dceData f, v ∈ p.reads

/-- The two runs are at the same place of the same path and agree on the values still needed. -/
structure DceRelated (f : Func) (s t : State σ) : Prop where
  pc : t.pc = s.pc
  world : t.world = s.world
  values : ∀ v, Needed f v → t.values v = s.values v
  path : ∃ W, Reach f s.pc W

theorem DceRelated.reads {f : Func} {s t : State σ} (related : DceRelated f s t) {i : Nat}
    {inst : Inst} (left : (dceData f)[i]? = some inst) (xs : List I64)
    (read : inst.reads.mapM (readValue s.values) = some xs) :
    inst.reads.mapM (readValue t.values) = some xs := by
  rw [← read]
  refine mapM_reads_congr fun v member => ?_
  rw [readValue, readValue, related.values v ⟨inst, List.mem_of_getElem? left, member⟩]

section Runs

variable {f : Func} (accepted : verify f = .ok ()) (safe : DceSafe f) (positive : 0 < f.nextValue)
  {cfg : EvalConfig σ} {s t : State σ} (related : DceRelated f s t)

include accepted

theorem discarded_next {inst : Inst} (found : f.data[s.pc]? = some inst)
    (forward : forwardKeeps f s.pc inst = true) (gone : ¬ dceKeeps f s.pc inst = true)
    {s' : State σ} (stepped : stepInst f cfg inst s = .inl s') :
    s'.pc = s.pc + 1 ∧ s'.world = s.world ∧ ∀ v, Needed f v → s'.values v = s.values v := by
  simp only [dceKeeps, forward, Bool.true_and, backwardKeeps, Bool.or_eq_true, not_or,
    Bool.and_eq_true, decide_eq_true_eq, not_and] at gone
  obtain ⟨quiet, unused⟩ := gone
  have effects := (CommonOk.of_verify accepted found).effects
  have apart {sh : Shape} (single : sh.isPure = false)
      (stays : ({ inst with op := sh.op } : Inst).mustStay = true) : inst.op.shape ≠ sh := by
    intro same
    rw [← Op.of_shape same single] at stays
    exact quiet (sideEffect_of_mustStay effects stays)
  obtain ⟨-, xs, -, executed⟩ := stepInst_next stepped
  obtain ⟨passes, values⟩ := execute_next executed
  refine ⟨?_, execute_world (apart rfl rfl) (apart rfl rfl) (apart rfl rfl) executed, ?_⟩
  · unfold Edge at passes
    split at passes
    · exact passes.elim
    · rename_i shape
      exact absurd shape (apart rfl rfl)
    · rename_i shape
      exact absurd shape (apart rfl rfl)
    · exact passes
  · rintro v ⟨p, member, read⟩
    cases values with
    | same _ kept => rw [kept]
    | written u x produced updated =>
      rw [updated, Function.update_of_ne]
      -- A kept reader of the value would have marked it, since it stands behind the definition.
      rintro rfl
      obtain ⟨-, nonneg, dst⟩ := Inst.writes_eq_some.mp produced
      obtain ⟨j, at_⟩ := List.mem_iff_getElem?.mp member
      obtain ⟨q, there, ⟨rfl, kept⟩ | rfl⟩ := dceData_cases at_
      · obtain ⟨-, k, d, before, defines, same⟩ :=
          definedBefore_iff.mp (read_defined accepted there read).2.2
        have here : s.pc = k := dst_unique accepted found defines (by omega) (by omega)
        have behind : s.pc + 1 ≤ j := by omega
        refine unused (by omega) ?_
        simp only [usedIn, dst, nonneg, decide_true, Bool.true_and, List.any_eq_true]
        refine ⟨p, List.mem_of_getElem? (i := j - (s.pc + 1)) ?_, ?_⟩
        · rw [List.getElem?_drop, Nat.add_sub_cancel' behind]
          exact at_
        · simpa using mem_operands_of_reads nonneg read
      · simp [instDiscard, Inst.reads, Op.shape] at read

include safe positive

omit σ in
/-- A label a kept branch goes to is where it was. -/
theorem labelTable_dce {i : Nat} {inst : Inst} (found : f.data[i]? = some inst)
    (kept : dceKeeps f i inst = true) (isBranch : inst.op.isBranch = true) (k : Nat)
    (entry : labelTable f inst.imm = some k) :
    labelTable (dce f) inst.imm = some k := by
  obtain ⟨j, label, rfl, there, isLabel, same, nonneg⟩ := labelTable_some entry
  have left := dceKeeps_label found kept isBranch there isLabel same
  have there' : (dce f).data[j]? = some label := by
    rw [dce_eq, if_neg (by omega)]
    simp only [dceData_getElem? there, if_pos left]
  rw [← same]
  exact labelTable_of_verify (verify_dce accepted safe) there' isLabel (by rw [same]; exact nonneg)

include related

theorem dce_next {s' : State σ} (moved : (vm f cfg).step s = .inl s') :
    ∃ t', (vm (dce f) cfg).Steps t t' ∧ DceRelated f s' t' := by
  obtain ⟨inst, found, stepped⟩ := vm_next moved
  obtain ⟨W, path⟩ := related.path
  have path' : ∃ W', Reach f s'.pc W' := by
    obtain ⟨-, xs, -, executed⟩ := stepInst_next stepped
    exact ⟨_, .edge path found (execute_next executed).1⟩
  have forward := forwardKeeps_of_reach path inst
  have here (inst' : Inst) (left : (dceData f)[s.pc]? = some inst') :
      (vm (dce f) cfg).step t = stepInst (dce f) cfg inst' t := by
    refine vm_step_of_found ?_
    rw [related.pc, dce_eq, if_neg (by omega)]
    exact left
  by_cases kept : dceKeeps f s.pc inst = true
  · have left : (dceData f)[s.pc]? = some inst := by rw [dceData_getElem? found, if_pos kept]
    obtain ⟨t', moved', follows⟩ : ∃ t', stepInst (dce f) cfg inst t = .inl t' ∧
        Follows id inst inst s s' t t' :=
      stepInst_follows rfl rfl rfl rfl (fun _ => Iff.rfl) related.world (by rw [related.pc]; rfl)
        (fun isBranch k => labelTable_dce accepted safe positive found kept
          (by rcases isBranch with op | op <;> simp [Op.isBranch, op]) k)
        (related.reads left) stepped
    refine ⟨t', .single ((here inst left).trans moved'), follows.pc, follows.world, ?_, path'⟩
    intro v needed
    rcases follows.values with ⟨-, same, same'⟩ | ⟨x, -, same, same'⟩
    · rw [same, same']
      exact related.values v needed
    · rw [same, same', Function.update_apply, Function.update_apply, related.values v needed]
  · have left : (dceData f)[s.pc]? = some (instDiscard inst) := by
      rw [dceData_getElem? found, if_neg kept]
    obtain ⟨pc, world, values⟩ := discarded_next accepted found forward kept stepped
    have skip : (vm (dce f) cfg).step t = .inl { t with pc := t.pc + 1 } := by
      rw [here _ left]
      simp [stepInst, precheck, Inst.reads, execute, instDiscard, Op.shape]
    refine ⟨_, .single skip, ?_, ?_, ?_, path'⟩
    · simp [pc, related.pc]
    · simp [world, related.world]
    · intro v needed
      rw [values v needed]
      exact related.values v needed

omit safe in
/-- Where the function stops well, so does what the scans leave. -/
theorem dce_stop {r : EvalResult σ} (stopped : (vm f cfg).step s = .inr (.ok r)) :
    (vm (dce f) cfg).step t = .inr (.ok r) := by
  obtain ⟨W, path⟩ := related.path
  have data : (dce f).data = dceData f := by rw [dce_eq, if_neg (by omega)]
  cases found : f.data[s.pc]? with
  | none =>
    have none' : (dce f).data[t.pc]? = none := by
      rw [List.getElem?_eq_none_iff] at found ⊢
      rw [data, related.pc, dceData_length]
      exact found
    simpa only [vm, found, none', related.world] using stopped
  | some inst =>
    rw [vm_step_of_found found] at stopped
    have isRet := ret_of_stop stopped
    have present := dce_present accepted path found (by simp [Inst.mustStay, isRet])
    have left := present
    rw [data] at left
    rw [vm_step_of_found (by rw [related.pc]; exact present)]
    exact stepInst_returns rfl rfl related.world (related.reads left) stopped

end Runs

theorem succeeds_dce {f : Func} (safe : DceSafe f) {cfg : EvalConfig σ} {w : World σ}
    {r : EvalResult σ} (succeeds : Succeeds f cfg w r) : Succeeds (dce f) cfg w r := by
  obtain ⟨accepted, ended⟩ := succeeds_iff.mp succeeds
  refine succeeds_iff.mpr ⟨verify_dce accepted safe, ?_⟩
  by_cases positive : 0 < f.nextValue
  · refine Machine.Ends.simulate (R := DceRelated f) (G := fun out => ∃ r, out = .ok r) ?_ ?_
      ended ⟨r, rfl⟩ ⟨rfl, rfl, fun _ _ => rfl, ∅, .entry⟩
    · intro s s' t related moved
      exact dce_next accepted safe positive related moved
    · rintro s t out related stopped ⟨r, rfl⟩
      exact .of_stop (dce_stop accepted positive related stopped)
  · rw [dce_eq, if_pos (by omega)]
    exact ended

end Nytrix.Nir
