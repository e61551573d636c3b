import Nytrix.Nir.RefreshLaws

/-! Constant folding: one scan over constants, and when it preserves what a function computes. -/

namespace Nytrix.Nir

open Nytrix.Lib

section Scan

variable {σ : Type}

/-- What the scan holds: constant values, constant slots, and slots whose address was taken. -/
structure FoldState where
  known : ConstTable := fun _ => none
  localKnown : I64 → Option I64 := fun _ => none
  localAddrTaken : I64 → Bool := fun _ => false

/-- Whether the instruction names a local slot. -/
def Op.isLocal (op : Op) : Bool :=
  op = .loadLocal || op = .storeLocal || op = .addrLocal

/-- Raises a running maximum to one instruction's slot. -/
def raiseMaxLocal (maxLocal : Int) (inst : Inst) : Int :=
  if inst.op.isLocal && decide (maxLocal < inst.imm.toInt) then inst.imm.toInt else maxLocal

/-- The largest local slot a function names, or minus one. -/
def maxLocal (f : Func) : Int := f.data.foldl raiseMaxLocal (-1)

/-- Whether a slot is inside the scan's tables. -/
def slotInTable (top : Int) (slot : I64) : Bool :=
  decide (0 ≤ slot.toInt) && decide (slot.toInt ≤ top)

/-- Turns an instruction into a constant, keeping its destination and its other fields. -/
def toConst (inst : Inst) (value : I64) : Inst :=
  { inst with op := .constI64, imm := value, a := -1, b := -1, symbol := none }

/-- Resolves a conditional branch on a constant. -/
def foldBranch (known : ConstTable) (inst : Inst) : Inst :=
  match if inst.op = .brIf then constOf known inst.a else none with
  | some value =>
    if value ≠ 0 then { inst with op := .br, a := -1, b := -1 }
    else { inst with op := .nop, a := -1, b := -1, imm := 0 }
  | none => inst

/-- The constant an arithmetic instruction or a comparison computes from constant operands. -/
def foldArith (known : ConstTable) (inst : Inst) : Option I64 := do
  let x ← constOf known inst.a
  let y ← constOf known inst.b
  if inst.op = .cmpI64 then some (analyzeCmpFold inst.cmp x y) else analyzeBinaryFold inst.op x y

/-- Records what is known of a destination. -/
def noteKnown (known : ConstTable) (dst : Int) (value : Option I64) : ConstTable :=
  if 0 ≤ dst then Function.update known dst value else known

/-- The slots still held after a store through a pointer or a transfer of control. -/
def restLocals (st : FoldState) (inst folded : Inst) : I64 → Option I64 := fun slot =>
  if folded.op = .label || folded.op = .br || folded.op = .brIf || folded.op = .call then none
  else if inst.op = .storeI64 && st.localAddrTaken slot then none
  else st.localKnown slot

/-- The scan's last part: stores through pointers, control flow, and arithmetic. -/
def foldRest (st : FoldState) (inst : Inst) : Inst × FoldState :=
  let folded := foldBranch st.known inst
  let localKnown := restLocals st inst folded
  match if 0 ≤ folded.dst then foldArith st.known folded else none with
  | some value =>
    (toConst folded value,
      { st with known := noteKnown st.known folded.dst (some value), localKnown := localKnown })
  | none =>
    (folded, { st with known := noteKnown st.known folded.dst none, localKnown := localKnown })

/-- What the scan does at one instruction. -/
def foldInst (top : Int) (st : FoldState) (inst : Inst) : Inst × FoldState :=
  if inst.op = .constI64 && decide (0 ≤ inst.dst) then
    (inst, { st with known := noteKnown st.known inst.dst (some inst.imm) })
  else if inst.op = .copy && decide (0 ≤ inst.dst) then
    match constOf st.known inst.a with
    | some value =>
      (toConst inst value, { st with known := noteKnown st.known inst.dst (some value) })
    | none => (inst, { st with known := noteKnown st.known inst.dst none })
  else if inst.op = .storeLocal && slotInTable top inst.imm then
    (inst, { st with
      localKnown := Function.update st.localKnown inst.imm (constOf st.known inst.a) })
  else
    match if inst.op = .loadLocal && decide (0 ≤ inst.dst) && slotInTable top inst.imm
      then st.localKnown inst.imm else none with
    | some value =>
      (toConst inst value, { st with known := noteKnown st.known inst.dst (some value) })
    | none =>
      if inst.op = .addrLocal && slotInTable top inst.imm then
        (inst, {
          known := noteKnown st.known inst.dst none
          localKnown := Function.update st.localKnown inst.imm none
          localAddrTaken := Function.update st.localAddrTaken inst.imm true })
      else foldRest st inst

/-- The scan over the rest of a function. -/
def constFoldLoop (top : Int) : List Inst → FoldState → List Inst
  | [], _ => []
  | inst :: rest, st => (foldInst top st inst).1 :: constFoldLoop top rest (foldInst top st inst).2

/-- Constant folding over a whole function. -/
def constFold (f : Func) : Func :=
  if f.nextValue ≤ 0 then f else { f with data := constFoldLoop (maxLocal f) f.data {} }

end Scan

section Laws

variable {σ : Type}

/-- The scan's state before position `i`. -/
def foldBefore (f : Func) (i : Nat) : FoldState :=
  (f.data.take i).foldl (fun st inst => (foldInst (maxLocal f) st inst).2) {}

theorem foldBefore_succ {f : Func} {i : Nat} {inst : Inst} (found : f.data[i]? = some inst) :
    foldBefore f (i + 1) = (foldInst (maxLocal f) (foldBefore f i) inst).2 := by
  simp only [foldBefore, List.take_add_one, found, Option.toList_some, List.foldl_append,
    List.foldl_cons, List.foldl_nil]

theorem constFoldLoop_getElem? (top : Int) (insts : List Inst) (st : FoldState) (i : Nat) :
    (constFoldLoop top insts st)[i]? = insts[i]?.map fun inst =>
      (foldInst top ((insts.take i).foldl (fun st inst => (foldInst top st inst).2) st) inst).1 := by
  induction insts generalizing st i with
  | nil => simp [constFoldLoop]
  | cons head rest ih =>
    cases i with
    | zero => simp [constFoldLoop]
    | succ i => simp [constFoldLoop, ih]

theorem constFold_getElem? {f : Func} (values : 0 < f.nextValue) (i : Nat) :
    (constFold f).data[i]? =
      f.data[i]?.map fun inst => (foldInst (maxLocal f) (foldBefore f i) inst).1 := by
  rw [constFold, if_neg (by omega)]
  exact constFoldLoop_getElem? (maxLocal f) f.data {} i

/-- Everything the scan may make of an instruction. -/
inductive Folded (st : FoldState) (inst : Inst) : Inst → Prop
  | same : Folded st inst inst
  | copy (value : I64) (isCopy : inst.op = .copy) (has : 0 ≤ inst.dst)
      (known : constOf st.known inst.a = some value) : Folded st inst (toConst inst value)
  | load (value : I64) (isLoad : inst.op = .loadLocal) (has : 0 ≤ inst.dst)
      (known : st.localKnown inst.imm = some value) : Folded st inst (toConst inst value)
  | arith (value : I64) (has : 0 ≤ inst.dst) (known : foldArith st.known inst = some value) :
      Folded st inst (toConst inst value)
  | taken (value : I64) (isBranch : inst.op = .brIf) (known : constOf st.known inst.a = some value)
      (nonzero : value ≠ 0) : Folded st inst { inst with op := .br, a := -1, b := -1 }
  | skipped (isBranch : inst.op = .brIf) (known : constOf st.known inst.a = some 0) :
      Folded st inst { inst with op := .nop, a := -1, b := -1, imm := 0 }

theorem foldArith_foldBranch (known : ConstTable) (inst : Inst) :
    foldBranch known inst = inst ∨ foldArith known (foldBranch known inst) = none := by
  unfold foldBranch
  split
  · refine .inr ?_
    split <;> simp [foldArith, constOf]
  · exact .inl rfl

theorem foldBranch_folded (st : FoldState) (inst : Inst) :
    Folded st inst (foldBranch st.known inst) := by
  unfold foldBranch
  split
  · rename_i value known
    split at known
    · rename_i isBranch
      split
      · rename_i nonzero
        exact .taken value isBranch known nonzero
      · rename_i zero
        obtain rfl : value = 0 := by simpa using zero
        exact .skipped isBranch known
    · cases known
  · exact .same

theorem foldInst_folded (top : Int) (st : FoldState) (inst : Inst) :
    Folded st inst (foldInst top st inst).1 := by
  unfold foldInst
  split
  · exact .same
  · split
    · rename_i isCopy
      simp only [Bool.and_eq_true, decide_eq_true_eq] at isCopy
      split
      · rename_i value known
        exact .copy value isCopy.1 isCopy.2 known
      · exact .same
    · split
      · exact .same
      · split
        · rename_i value known
          split at known
          · rename_i isLoad
            simp only [Bool.and_eq_true, decide_eq_true_eq] at isLoad
            exact .load value isLoad.1.1 isLoad.1.2 known
          · cases known
        · split
          · exact .same
          · unfold foldRest
            simp only
            split
            · rename_i value known
              split at known
              · rename_i has
                rcases foldArith_foldBranch st.known inst with same | none
                · rw [same] at known has ⊢
                  exact .arith value has known
                · rw [none] at known
                  cases known
              · cases known
            · exact foldBranch_folded st inst

theorem foldBranch_dst (known : ConstTable) (inst : Inst) :
    (foldBranch known inst).dst = inst.dst := by
  unfold foldBranch
  split
  · split <;> rfl
  · rfl

theorem foldBranch_op {known : ConstTable} {inst : Inst} {op : Op} (other : op ≠ .br ∧ op ≠ .nop) :
    (foldBranch known inst).op = op → inst.op = op := by
  unfold foldBranch
  split
  · split
    · exact fun same => absurd same.symm other.1
    · exact fun same => absurd same.symm other.2
  · exact id

theorem foldInst_known {top : Int} {st : FoldState} {inst : Inst}
    (fresh : 0 ≤ inst.dst → st.known inst.dst = none) :
    (foldInst top st inst).2.known = noteConst st.known (foldInst top st inst).1 := by
  have silent (quiet : inst.op ≠ .constI64 ∧ inst.op ≠ .copy) :
      noteConst st.known inst = noteKnown st.known inst.dst none := by
    simp [noteConst, noteKnown, quiet.1, quiet.2]
  unfold foldInst
  split
  · rename_i isConst
    simp only [Bool.and_eq_true, decide_eq_true_eq] at isConst
    simp [noteConst, noteKnown, isConst.1, isConst.2]
  · rename_i noConst
    split
    · rename_i isCopy
      simp only [Bool.and_eq_true, decide_eq_true_eq] at isCopy
      split
      · simp [noteConst, noteKnown, toConst, isCopy.2]
      · rename_i unknown
        by_cases given : 0 ≤ inst.a
        · have unknown : st.known inst.a = none := by simpa [constOf, given] using unknown
          simp [noteKnown, noteConst, isCopy.1, isCopy.2, given, unknown]
        · simp [noteKnown, noteConst, isCopy.1, isCopy.2, given]
    · rename_i noCopy
      -- With a destination, the instruction is neither a constant nor a copy from here on.
      have quiet (has : 0 ≤ inst.dst) : inst.op ≠ .constI64 ∧ inst.op ≠ .copy := by
        simp only [Bool.and_eq_true, decide_eq_true_eq, not_and] at noConst noCopy
        exact ⟨fun same => noConst same has, fun same => noCopy same has⟩
      have note : noteKnown st.known inst.dst none = noteConst st.known inst := by
        by_cases has : 0 ≤ inst.dst
        · exact (silent (quiet has)).symm
        · simp [noteKnown, noteConst, has]
      split
      · by_cases has : 0 ≤ inst.dst
        · rw [← note, noteKnown, if_pos has, ← fresh has, Function.update_eq_self]
        · simp [noteConst, has]
      · split
        · rename_i value known
          split at known
          · rename_i isLoad
            simp only [Bool.and_eq_true, decide_eq_true_eq] at isLoad
            simp [noteConst, noteKnown, toConst, isLoad.1.2]
          · cases known
        · split
          · exact note
          · unfold foldRest
            simp only [foldBranch_dst]
            split
            · rename_i value known
              split at known
              · rename_i has
                simp [noteConst, noteKnown, toConst, foldBranch_dst, has]
              · cases known
            · by_cases has : 0 ≤ inst.dst
              · simp only [noteKnown, noteConst, foldBranch_dst, if_pos has]
                have noConst' : (foldBranch st.known inst).op ≠ .constI64 := fun same =>
                  (quiet has).1 (foldBranch_op (by decide) same)
                have noCopy' : (foldBranch st.known inst).op ≠ .copy := fun same =>
                  (quiet has).2 (foldBranch_op (by decide) same)
                simp [noConst', noCopy']
              · simp [noteKnown, noteConst, foldBranch_dst, has]

theorem foldRest_localKnown (st : FoldState) (inst : Inst) :
    (foldRest st inst).2.localKnown = restLocals st inst (foldBranch st.known inst) := by
  unfold foldRest
  simp only
  split <;> rfl

theorem foldInst_localKnown {top : Int} {st : FoldState} {inst : Inst}
    (noStore : inst.op ≠ .storeLocal) {slot c : I64}
    (known : (foldInst top st inst).2.localKnown slot = some c) : st.localKnown slot = some c := by
  unfold foldInst at known
  split at known
  · exact known
  · split at known
    · split at known <;> exact known
    · split at known
      · rename_i isStore
        simp [noStore] at isStore
      · split at known
        · exact known
        · split at known
          · simp only [Function.update_apply] at known
            split at known
            · cases known
            · exact known
          · rw [foldRest_localKnown, restLocals] at known
            split at known
            · cases known
            · split at known
              · cases known
              · exact known

theorem foldInst_cleared {top : Int} {st : FoldState} {inst : Inst}
    (clears : inst.op = .label ∨ inst.op = .call) (slot : I64) :
    (foldInst top st inst).2.localKnown slot = none := by
  have unfolded : foldInst top st inst = foldRest st inst := by
    rcases clears with op | op <;> simp [foldInst, op]
  have branch : foldBranch st.known inst = inst := by
    rcases clears with op | op <;> simp [foldBranch, op]
  rw [unfolded, foldRest_localKnown, branch, restLocals]
  rcases clears with op | op <;> simp [op]

theorem foldInst_storeLocal {top : Int} {st : FoldState} {inst : Inst}
    (isStore : inst.op = .storeLocal) (inTable : slotInTable top inst.imm = true) :
    (foldInst top st inst).2.localKnown =
      Function.update st.localKnown inst.imm (constOf st.known inst.a) := by
  simp [foldInst, isStore, inTable]

theorem le_maxLocal {f : Func} {i : Nat} {inst : Inst} (found : f.data[i]? = some inst)
    (access : inst.op.isLocal = true) : inst.imm.toInt ≤ maxLocal f := by
  -- The running maximum never drops, and it reaches this slot when it meets the access.
  have general : ∀ (insts : List Inst) (top : Int), top ≤ insts.foldl raiseMaxLocal top ∧
      (inst ∈ insts → inst.imm.toInt ≤ insts.foldl raiseMaxLocal top) := by
    intro insts
    induction insts with
    | nil => intro top; simp
    | cons head rest ih =>
      intro top
      simp only [List.foldl_cons, List.mem_cons]
      have tail := ih (raiseMaxLocal top head)
      have grows : top ≤ raiseMaxLocal top head := by
        unfold raiseMaxLocal
        split
        · rename_i bigger
          simp only [Bool.and_eq_true, decide_eq_true_eq] at bigger
          omega
        · exact Int.le_refl _
      refine ⟨Int.le_trans grows tail.1, ?_⟩
      rintro (rfl | later)
      · refine Int.le_trans ?_ tail.1
        unfold raiseMaxLocal
        split
        · exact Int.le_refl _
        · rename_i smaller
          simpa [access] using smaller
      · exact tail.2 later
  exact (general f.data (-1)).2 (List.mem_of_getElem? found)

theorem Folded.dst {st : FoldState} {inst inst' : Inst} (folded : Folded st inst inst') :
    inst'.dst = inst.dst := by
  cases folded <;> rfl

theorem foldArith_binary {known : ConstTable} {inst : Inst} {value : I64}
    (folds : foldArith known inst = some value) :
    inst.op.shape = .binary ∧ ∃ x y, constOf known inst.a = some x ∧ constOf known inst.b = some y ∧
      binaryResult inst.op inst.cmp x y = some value := by
  simp only [foldArith, Option.bind_eq_bind, Option.bind_eq_some_iff] at folds
  obtain ⟨x, first, y, second, result⟩ := folds
  split at result
  · rename_i isCmp
    refine ⟨by rw [isCmp]; rfl, x, y, first, second, ?_⟩
    rw [isCmp]
    exact result
  · refine ⟨?_, x, y, first, second, ?_⟩
    · revert result
      cases inst.op <;> simp [analyzeBinaryFold, Op.shape]
    · revert result
      cases inst.op <;> simp [analyzeBinaryFold, binaryResult]

theorem Folded.labelMark {st : FoldState} {inst inst' : Inst} (folded : Folded st inst inst') :
    inst'.labelMark = inst.labelMark := by
  cases folded with
  | same => rfl
  | copy value isCopy => simp [Inst.labelMark, toConst, isCopy]
  | load value isLoad => simp [Inst.labelMark, toConst, isLoad]
  | arith value has known =>
    have binary := (foldArith_binary known).1
    have noLabel : inst.op ≠ .label := fun same => by simp [same, Op.shape] at binary
    simp [Inst.labelMark, toConst, noLabel]
  | taken value isBranch => simp [Inst.labelMark, isBranch]
  | skipped isBranch => simp [Inst.labelMark, isBranch]

theorem constFold_map {α : Type} {f : Func} (field : Inst → α)
    (kept : ∀ st inst inst', Folded st inst inst' → field inst' = field inst) :
    (constFold f).data.map field = f.data.map field := by
  by_cases values : 0 < f.nextValue
  · refine List.ext_getElem? fun i => ?_
    rw [List.getElem?_map, List.getElem?_map, constFold_getElem? values, Option.map_map]
    cases f.data[i]? with
    | none => rfl
    | some inst => exact congrArg some (kept _ _ _ (foldInst_folded _ _ inst))
  · rw [constFold, if_pos (by omega)]

/--
A store through a pointer leaves the slots the scan still holds alone.

The scan drops a slot at such a store only if it has already passed an instruction that takes the
slot's address.
-/
def StoreApart (f : Func) (cfg : EvalConfig σ) (s : State σ) : Prop :=
  ∀ inst p slot, f.data[s.pc]? = some inst → inst.op = .storeI64 → s.values inst.a = some p →
    slot.toNat < cfg.locals.count → (foldBefore f (s.pc + 1)).localKnown slot ≠ none →
    ¬ Mem.Overlaps p (cfg.locals.addr slot.toNat)

/-- What the scan holds is true of a state: constants of values, and of slots at its position. -/
structure FoldHolds (f : Func) (cfg : EvalConfig σ) (s : State σ) : Prop where
  values : ∀ v x c, s.values v = some x →
    constsBefore (constFold f) f.data.length v = some c → x = c
  locals : ∀ slot c, (foldBefore f s.pc).localKnown slot = some c →
    slot.toNat < cfg.locals.count ∧ s.world.mem.load64 (cfg.locals.addr slot.toNat) = c

section Runs

variable {f : Func} (accepted : verify f = .ok ()) (positive : 0 < f.nextValue)

theorem constFold_length (f : Func) : (constFold f).data.length = f.data.length := by
  have := congrArg List.length (constFold_map (f := f) Inst.dst fun _ _ _ => Folded.dst)
  simpa using this

theorem definedBefore_constFold (f : Func) (i : Nat) :
    definedBefore (constFold f) i = definedBefore f i :=
  definedBefore_congr (constFold_map _ fun _ _ _ => Folded.dst) i

include accepted positive

theorem dstsFresh_constFold : DstsFresh (constFold f) := by
  intro i inst' found' has
  rw [constFold_getElem? positive, Option.map_eq_some_iff] at found'
  obtain ⟨inst, found, rfl⟩ := found'
  rw [definedBefore_constFold]
  have dst := (foldInst_folded (maxLocal f) (foldBefore f i) inst).dst
  rw [dst] at has ⊢
  exact DstsFresh.of_verify accepted i inst found has

theorem foldBefore_known {i : Nat} (inside : i ≤ f.data.length) :
    (foldBefore f i).known = constsBefore (constFold f) i := by
  induction i with
  | zero => rfl
  | succ i ih =>
    obtain ⟨inst, found⟩ : ∃ inst, f.data[i]? = some inst :=
      ⟨_, List.getElem?_eq_getElem (by omega)⟩
    have found' : (constFold f).data[i]? =
        some (foldInst (maxLocal f) (foldBefore f i) inst).1 := by
      rw [constFold_getElem? positive, found]
      rfl
    have known := ih (by omega)
    rw [foldBefore_succ found, constsBefore_succ found', ← known]
    refine foldInst_known fun has => ?_
    rw [known]
    refine constsBefore_undefined (by rw [constFold_length]; omega) ?_
    rw [definedBefore_constFold]
    exact DstsFresh.of_verify accepted i inst found has

theorem FoldHolds.operand {cfg : EvalConfig σ} {s : State σ} (holds : FoldHolds f cfg s)
    {inst : Inst} (found : f.data[s.pc]? = some inst) {v : Int} (read : v ∈ inst.reads) {x c : I64}
    (value : s.values v = some x) (known : constOf (foldBefore f s.pc).known v = some c) : x = c := by
  have inside := (List.getElem?_eq_some_iff.mp found).1
  obtain ⟨given, -, defined⟩ := read_defined accepted found read
  rw [constOf, if_pos given, foldBefore_known accepted positive (by omega)] at known
  refine holds.values v x c value ?_
  rw [constsBefore_stable (dstsFresh_constFold accepted positive) (i := s.pc)
    (by rw [definedBefore_constFold]; exact defined) (by omega) (by rw [constFold_length])]
  exact known

/-- Where the scan is right, the folded and refreshed instruction steps as the old one did. -/
theorem foldInst_agrees {f' : Func} {cfg : EvalConfig σ} {s : State σ} {inst inst' : Inst}
    (holds : FoldHolds f cfg s) (found : f.data[s.pc]? = some inst)
    (labels : labelTable f' = labelTable f) (folded : Folded (foldBefore f s.pc) inst inst')
    (fine : Fine (stepInst f cfg inst s)) :
    stepInst f' cfg (refreshInst inst') s = stepInst f cfg inst s := by
  have formed := (OpOk.of_verify accepted found).wellFormed
  have const {value : I64} (has : 0 ≤ inst.dst)
      (stepped : stepInst f cfg inst s = .inl { s with
        pc := s.pc + 1, values := Function.update s.values inst.dst (some value) }) :
      stepInst f' cfg (refreshInst (toConst inst value)) s = stepInst f cfg inst s := by
    have dst : (refreshInst (toConst inst value)).dst = inst.dst := by
      rw [refreshInst_dst]
      rfl
    rw [stepInst_const (by simp [toConst]) (by rw [dst]; exact has), stepped, dst]
    simp [toConst]
  cases folded with
  | same => exact stepInst_refresh formed labels fine
  | copy value isCopy has known =>
    obtain ⟨xs, x, read, result, stepped⟩ := stepInst_pure (by simp [isCopy, Op.shape, Shape.isPure])
      has fine
    have member : inst.a ∈ inst.reads := by simp [Inst.reads, isCopy, Op.shape]
    simp only [Inst.reads, isCopy, Op.shape] at read
    obtain ⟨y, rfl, valueA⟩ := mapM_readValue_one read
    obtain rfl : y = x := by simpa [Inst.pureResult, isCopy, Op.shape, unaryResult] using result
    obtain rfl := holds.operand accepted positive found member valueA known
    exact const has stepped
  | load value isLoad has known =>
    obtain ⟨-, xs, -, stepped⟩ := stepInst_fine fine
    obtain ⟨-, memory⟩ := holds.locals _ _ known
    refine const has ?_
    rw [stepped]
    simp [execute, isLoad, Op.shape, writeDst, has, memory]
  | arith value has known =>
    obtain ⟨binary, c, d, first, second, result⟩ := foldArith_binary known
    obtain ⟨xs, x, read, computed, stepped⟩ := stepInst_pure (by simp [binary, Shape.isPure]) has fine
    have memberA : inst.a ∈ inst.reads := by simp [Inst.reads, binary]
    have memberB : inst.b ∈ inst.reads := by simp [Inst.reads, binary]
    simp only [Inst.reads, binary] at read
    obtain ⟨y, z, rfl, valueA, valueB⟩ := mapM_readValue_two read
    obtain rfl := holds.operand accepted positive found memberA valueA first
    obtain rfl := holds.operand accepted positive found memberB valueB second
    obtain rfl : x = value := by
      simp only [Inst.pureResult, binary, List.getD_cons_zero, List.getD_cons_succ, result,
        Option.some.injEq] at computed
      exact computed.symm
    exact const has stepped
  | taken value isBranch known nonzero =>
    obtain ⟨-, xs, read, stepped⟩ := stepInst_fine fine
    have member : inst.a ∈ inst.reads := by simp [Inst.reads, isBranch, Op.shape]
    simp only [Inst.reads, isBranch, Op.shape] at read
    obtain ⟨y, rfl, valueA⟩ := mapM_readValue_one read
    obtain rfl := holds.operand accepted positive found member valueA known
    have jumps : execute f cfg inst [y] s = jump f inst s := by
      simp only [execute, isBranch, Op.shape]
      exact if_neg nonzero
    rw [stepped, jumps] at fine ⊢
    have jumps' : stepInst f' cfg (refreshInst { inst with op := .br, a := -1, b := -1 }) s =
        jump f' (refreshInst { inst with op := .br, a := -1, b := -1 }) s := by
      simp [stepInst, precheck, Inst.reads, Op.shape, execute]
    rw [jumps']
    exact jump_congr (by simp) (by rw [labels]) fine
  | skipped isBranch known =>
    obtain ⟨-, xs, read, stepped⟩ := stepInst_fine fine
    have member : inst.a ∈ inst.reads := by simp [Inst.reads, isBranch, Op.shape]
    simp only [Inst.reads, isBranch, Op.shape] at read
    obtain ⟨y, rfl, valueA⟩ := mapM_readValue_one read
    obtain rfl := holds.operand accepted positive found member valueA known
    rw [stepped]
    simp [stepInst, precheck, Inst.reads, Op.shape, execute, isBranch]

/-- A move keeps the constants of values true. -/
theorem FoldHolds.values_next {cfg : EvalConfig σ} {s s' : State σ} (holds : FoldHolds f cfg s)
    (moved : (vm f cfg).step s = .inl s') {v : Int} {x c : I64} (value : s'.values v = some x)
    (known : constsBefore (constFold f) f.data.length v = some c) : x = c := by
  obtain ⟨inst, found, stepped⟩ := vm_next moved
  have inside := (List.getElem?_eq_some_iff.mp found).1
  obtain ⟨-, xs, -, executed⟩ := stepInst_next stepped
  obtain ⟨-, values⟩ := execute_next executed
  cases values with
  | same silent kept => exact holds.values v x c (by rw [← kept]; exact value) known
  | written u z produced updated =>
    rw [updated, Function.update_apply] at value
    split at value
    swap
    · exact holds.values v x c value known
    rename_i same
    subst same
    obtain rfl : z = x := by simpa using value
    obtain ⟨-, has, rfl⟩ := Inst.writes_eq_some.mp produced
    -- The value's constant was settled by the folded instruction that defines it.
    have folded := foldInst_folded (maxLocal f) (foldBefore f s.pc) inst
    have found' : (constFold f).data[s.pc]? =
        some (foldInst (maxLocal f) (foldBefore f s.pc) inst).1 := by
      rw [constFold_getElem? positive, found]
      rfl
    generalize (foldInst (maxLocal f) (foldBefore f s.pc) inst).1 = inst' at folded found'
    have defined : definedBefore (constFold f) (s.pc + 1) inst.dst = true := by
      rw [definedBefore_constFold, definedBefore_succ found]
      exact .inr ⟨has, rfl⟩
    rw [constsBefore_stable (dstsFresh_constFold accepted positive) defined (by omega)
      (by rw [constFold_length]), ← folded.dst, constsBefore_dst found' (by rw [folded.dst]; exact has)]
      at known
    split at known
    · rename_i isConst
      obtain rfl : inst'.imm = c := by simpa using known
      have agrees : stepInst f cfg (refreshInst inst') s = stepInst f cfg inst s :=
        foldInst_agrees accepted positive holds found rfl folded (stepped ▸ fine_next s')
      have dst : (refreshInst inst').dst = inst.dst := by
        rw [refreshInst_dst, isConst, folded.dst]
        rfl
      rw [stepInst_const (by simp [isConst]) (by rw [dst]; exact has), stepped, dst] at agrees
      have states : s'.values = Function.update s.values inst.dst (some inst'.imm) := by
        have := Sum.inl.inj agrees
        rw [← this]
        simp
      have := congrFun (updated.symm.trans states) inst.dst
      simpa using this
    · split at known
      · rename_i isCopy
        simp only [Bool.and_eq_true, decide_eq_true_eq] at isCopy
        have unchanged : inst' = inst := by
          cases folded with
          | same => rfl
          | copy | load | arith | taken | skipped => simp [toConst] at isCopy
        subst unchanged
        have read : inst'.a ∈ inst'.reads := by simp [Inst.reads, isCopy.1, Op.shape]
        have copied := congrFun (updated.symm.trans (copy_next isCopy.1 stepped)) inst'.dst
        simp only [Function.update_self] at copied
        refine holds.operand accepted positive found read copied.symm ?_
        rw [constOf, if_pos isCopy.2, foldBefore_known accepted positive (by omega)]
        exact known
      · cases known

/-- A move that leaves the held slots alone keeps them true. -/
theorem FoldHolds.locals_next {cfg : EvalConfig σ} {s s' : State σ} (holds : FoldHolds f cfg s)
    (apart : StoreApart f cfg s) (moved : (vm f cfg).step s = .inl s') {slot c : I64}
    (known : (foldBefore f s'.pc).localKnown slot = some c) :
    slot.toNat < cfg.locals.count ∧ s'.world.mem.load64 (cfg.locals.addr slot.toNat) = c := by
  obtain ⟨inst, found, stepped⟩ := vm_next moved
  obtain ⟨checked, xs, read, executed⟩ := stepInst_next stepped
  obtain ⟨passes, -⟩ := execute_next executed
  have formed := (OpOk.of_verify accepted found).wellFormed
  -- Behind a label the scan holds nothing, so only the next position matters.
  have next : s'.pc = s.pc + 1 := by
    by_contra other
    have jumped : labelTable f inst.imm = some s'.pc := by
      unfold Edge at passes
      split at passes
      · exact passes.elim
      · exact passes
      · exact passes.resolve_left other
      · exact absurd passes other
    obtain ⟨j, label, at_, there, isLabel, -⟩ := labelTable_some jumped
    rw [at_, foldBefore_succ there, foldInst_cleared (.inl isLabel)] at known
    cases known
  rw [next] at known
  by_cases isStore : inst.op.shape = .storeLocal
  · have op : inst.op = .storeLocal := Op.of_shape isStore rfl
    simp only [Inst.wellFormed, isStore, decide_eq_true_eq] at formed
    have inTable : slotInTable (maxLocal f) inst.imm = true := by
      have := le_maxLocal found (by simp [Op.isLocal, op])
      simp [slotInTable, formed, this]
    have inside : inst.imm.toNat < cfg.locals.count := by
      simp only [precheck, isStore] at checked
      split at checked
      · cases checked
      · rename_i bounds
        simp only [Bool.or_eq_true, decide_eq_true_eq, not_or, Nat.not_le] at bounds
        exact bounds.2
    have member : inst.a ∈ inst.reads := by simp [Inst.reads, isStore]
    simp only [Inst.reads, isStore] at read
    obtain ⟨x, rfl, valueA⟩ := mapM_readValue_one read
    simp only [execute, isStore, Sum.inl.injEq] at executed
    subst executed
    rw [foldBefore_succ found, foldInst_storeLocal op inTable, Function.update_apply] at known
    split at known
    · rename_i same
      subst same
      obtain rfl := holds.operand accepted positive found member valueA known
      exact ⟨inside, by simp⟩
    · rename_i other
      obtain ⟨bound, memory⟩ := holds.locals _ _ known
      refine ⟨bound, ?_⟩
      rw [← memory]
      refine Mem.load64_store64_of_not_overlaps _ _ ?_
      refine Mem.not_overlaps_slots (fun same => other (BitVec.eq_of_toNat_eq same.symm)) inside bound
        cfg.locals.fits
  · by_cases isCall : inst.op.shape = .call
    · rw [foldBefore_succ found, foldInst_cleared (.inr (Op.of_shape isCall rfl))] at known
      cases known
    · have kept := known
      rw [foldBefore_succ found] at known
      have old := foldInst_localKnown (fun same => isStore (by rw [same]; rfl)) known
      obtain ⟨bound, memory⟩ := holds.locals _ _ old
      refine ⟨bound, ?_⟩
      by_cases isPointer : inst.op.shape = .storeI64
      · simp only [Inst.reads, isPointer] at read
        obtain ⟨p, x, rfl, valueA, -⟩ := mapM_readValue_two read
        simp only [execute, isPointer] at executed
        split at executed
        · cases executed
        · obtain rfl := by simpa using executed
          rw [← memory]
          exact Mem.load64_store64_of_not_overlaps _ _ (apart inst p slot found
            (Op.of_shape isPointer rfl) valueA bound (by rw [kept]; simp))
      · rw [execute_world isStore isPointer isCall executed]
        exact memory

end Runs

theorem Folded.keeps {st : FoldState} {inst inst' : Inst} (folded : Folded st inst inst') :
    inst'.startsCapture = inst.startsCapture ∧
      inst'.op.shape.dropsDst = inst.op.shape.dropsDst ∧ (inst' = inst ∨ inst.op ≠ .call) := by
  cases folded with
  | same => exact ⟨rfl, rfl, .inl rfl⟩
  | copy value isCopy => simp [Inst.startsCapture, toConst, isCopy, Op.shape, Shape.dropsDst]
  | load value isLoad => simp [Inst.startsCapture, toConst, isLoad, Op.shape, Shape.dropsDst]
  | arith value has known =>
    have binary := (foldArith_binary known).1
    have noCall : inst.op ≠ .call := fun same => by simp [same, Op.shape] at binary
    have noCapture : inst.op ≠ .captureRet := fun same => by simp [same, Op.shape] at binary
    refine ⟨by simp [Inst.startsCapture, toConst, noCall, noCapture], ?_, .inr noCall⟩
    rw [binary]
    rfl
  | taken value isBranch => simp [Inst.startsCapture, isBranch, Op.shape, Shape.dropsDst]
  | skipped isBranch => simp [Inst.startsCapture, isBranch, Op.shape, Shape.dropsDst]

theorem Folded.reads {st : FoldState} {inst inst' : Inst} (folded : Folded st inst inst') :
    inst' = inst ∨ (inst'.reads = [] ∧ inst'.op.shape ≠ .binary ∧ inst'.op ≠ .label ∧
      inst'.op ≠ .captureRet ∧ inst'.wellFormed = true) := by
  cases folded with
  | same => exact .inl rfl
  | copy value _ has => simp [Inst.reads, toConst, Op.shape, Inst.wellFormed, has]
  | load value _ has => simp [Inst.reads, toConst, Op.shape, Inst.wellFormed, has]
  | arith value has => simp [Inst.reads, toConst, Op.shape, Inst.wellFormed, has]
  | taken => simp [Inst.reads, Op.shape, Inst.wellFormed]
  | skipped => simp [Inst.reads, Op.shape, Inst.wellFormed]

theorem Folded.target {st : FoldState} {inst inst' : Inst} (folded : Folded st inst inst')
    (isBranch : inst'.op = .br ∨ inst'.op = .brIf) :
    inst'.imm = inst.imm ∧ (inst.op = .br ∨ inst.op = .brIf) := by
  cases folded with
  | same => exact ⟨rfl, isBranch⟩
  | taken value old => exact ⟨rfl, .inr old⟩
  | copy | load | arith | skipped => simp [toConst] at isBranch

/-- The constants the scan finds never make a shift or a division one that can only fail. -/
def FoldSafe (f : Func) : Prop :=
  ∀ (i : Nat) (inst : Inst), f.data[i]? = some inst →
    constTrap (foldBefore f i).known inst = false

theorem constTrap_of_foldArith {known : ConstTable} {inst : Inst} {value : I64}
    (folds : foldArith known inst = some value) : constTrap known inst = false := by
  obtain ⟨-, x, y, first, second, result⟩ := foldArith_binary folds
  simp only [constTrap, first, second, Option.any_some]
  have shiftFree (shift : inst.op = .shlI64 ∨ inst.op = .sarI64) : shiftTraps y = false := by
    by_contra traps
    rcases shift with op | op <;> simp [binaryResult, analyzeBinaryFold, op, traps] at result
  have divFree (divide : inst.op = .divI64 ∨ inst.op = .modI64) : divTraps x y = false := by
    by_contra traps
    rcases divide with op | op <;> simp [binaryResult, analyzeBinaryFold, op, traps] at result
  by_cases shift : inst.op = .shlI64 ∨ inst.op = .sarI64
  · have free := shiftFree shift
    simp only [shiftTraps] at free
    rcases shift with op | op <;> simp [op, free]
  · by_cases divide : inst.op = .divI64 ∨ inst.op = .modI64
    · have free := divFree divide
      simp only [divTraps, Bool.or_eq_false_iff] at free
      rcases divide with op | op <;> simp_all
    · simp_all

theorem foldSafe_of_verify {f : Func} (accepted : verify f = .ok ())
    (after : verify (refreshMetadata (constFold f)) = .ok ()) : FoldSafe f := by
  intro i inst found
  by_cases positive : 0 < f.nextValue
  · have inside := (List.getElem?_eq_some_iff.mp found).1
    have found' : (constFold f).data[i]? = some (foldInst (maxLocal f) (foldBefore f i) inst).1 := by
      rw [constFold_getElem? positive, found]
      rfl
    have passed := constTrap_of_refresh (dstsFresh_constFold accepted positive) after found'
    rw [← foldBefore_known accepted positive (by omega)] at passed
    have folded := foldInst_folded (maxLocal f) (foldBefore f i) inst
    generalize (foldInst (maxLocal f) (foldBefore f i) inst).1 = inst' at folded passed
    cases folded with
    | same => exact passed
    | copy value isCopy => exact constTrap_of_not_binary (by simp [isCopy, Op.shape])
    | load value isLoad => exact constTrap_of_not_binary (by simp [isLoad, Op.shape])
    | arith value has known => exact constTrap_of_foldArith known
    | taken value isBranch => exact constTrap_of_not_binary (by simp [isBranch, Op.shape])
    | skipped isBranch => exact constTrap_of_not_binary (by simp [isBranch, Op.shape])
  · -- Without values there is no two-operand instruction.
    refine constTrap_of_not_binary fun binary => ?_
    have := read_defined accepted found (v := inst.a) (by simp [Inst.reads, binary])
    omega

section Preservation

variable {f : Func} (accepted : verify f = .ok ()) (kept : KeptReads f)

include accepted kept

theorem verify_refresh_of_kept : verify (refreshMetadata f) = .ok () := by
  obtain ⟨counted, -, constraints⟩ := verify_ok_iff.mp accepted
  refine verify_refresh counted (.of_verify accepted) (fun i inst found => ?_) fun i inst found => ?_
  · have common := CommonOk.of_verify accepted found
    have own := OpOk.of_verify accepted found
    refine ⟨common.argSizes, common.rangePaired, common.rangeOrdered, common.debug, common.dstBelow,
      fun has => ?_, ⟨fun v read => ?_, own.wellFormed, own.fresh, own.target, own.follows⟩⟩
    · by_contra known
      have := definedBefore_of_keptBefore (by simpa using known)
      rw [common.dstFresh has] at this
      cases this
    · have := read_defined accepted found read
      simp [valueDefined, this, kept i inst found v read]
  · exact (constraintChecks_none_iff.mp
      (validateConstraints_ok_iff.mp constraints i inst found)).2

/-- The verifier accepts the folded and refreshed function. -/
theorem verify_constFold (positive : 0 < f.nextValue) (safe : FoldSafe f) :
    verify (refreshMetadata (constFold f)) = .ok () := by
  have next : (constFold f).nextValue = f.nextValue := by
    rw [constFold]
    split <;> rfl
  have marks : (constFold f).data.map Inst.labelMark = f.data.map Inst.labelMark :=
    constFold_map _ fun _ _ _ => Folded.labelMark
  have keeps : ∀ i, keptBefore (constFold f) i = keptBefore f i := keptBefore_congr
    (constFold_map _ fun _ _ _ folded => by rw [folded.keeps.2.1, folded.dst])
  refine verify_refresh (by omega) (dstsFresh_constFold accepted positive)
    (fun i inst' found' => ?_) fun i inst' found' => ?_ <;>
    have was := found' <;>
    rw [constFold_getElem? positive, Option.map_eq_some_iff] at was <;>
    obtain ⟨inst, found, same⟩ := was <;>
    have folded := foldInst_folded (maxLocal f) (foldBefore f i) inst <;>
    rw [same] at folded
  · have common := CommonOk.of_verify accepted found
    have own := OpOk.of_verify accepted found
    have fields : inst'.argSizes = inst.argSizes ∧ inst'.range = inst.range ∧
        inst'.debug = inst.debug := by
      cases folded <;> exact ⟨rfl, rfl, rfl⟩
    obtain ⟨sizes, range, debug⟩ := fields
    refine ⟨?_, by rw [range]; exact common.rangePaired, by rw [range]; exact common.rangeOrdered,
      by rw [debug]; exact common.debug, by rw [folded.dst, next]; exact common.dstBelow, ?_, ?_⟩
    · rw [sizes]
      intro other
      rcases folded.keeps.2.2 with rfl | noCall
      · exact common.argSizes other
      · exact common.argSizes noCall
    · rw [folded.dst, keeps]
      intro has
      by_contra known
      have := definedBefore_of_keptBefore (by simpa using known)
      rw [common.dstFresh has] at this
      cases this
    · rw [keeps]
      refine ⟨?_, ?_, ?_, ?_, ?_⟩
      · intro v read
        rcases folded.reads with rfl | ⟨none, -⟩
        · have := read_defined accepted found read
          simp [valueDefined, next, this, kept i _ found v read]
        · simp [none] at read
      · rcases folded.reads with rfl | ⟨-, -, -, -, formed⟩
        · exact own.wellFormed
        · exact formed
      · intro isLabel
        rcases folded.reads with rfl | ⟨-, -, noLabel, -⟩
        · rw [any_label_eq, List.map_take, marks, ← List.map_take, ← any_label_eq]
          exact own.fresh isLabel
        · exact absurd isLabel noLabel
      · intro isBranch
        obtain ⟨imm, was⟩ := folded.target isBranch
        rw [labelExists, any_label_eq, marks, ← any_label_eq, imm]
        exact own.target was
      · intro capture
        rcases folded.reads with rfl | ⟨-, -, -, noCapture, -⟩
        · rw [followsCall_congr (constFold_map _ fun _ _ _ folded => folded.keeps.1)]
          exact own.follows capture
        · exact absurd capture noCapture
  · have inside := (List.getElem?_eq_some_iff.mp found).1
    rw [← foldBefore_known accepted positive (by omega)]
    rcases folded.reads with rfl | ⟨-, other, -⟩
    · exact safe i _ found
    · exact constTrap_of_not_binary other

end Preservation

/--
Constant folding preserves what a function computes.

A run that succeeds within a budget succeeds within the same budget after folding and refreshing,
with the same result and the same memory, provided no store through a pointer it executes hits a
slot the scan still holds, and the scan's constants and the refresh leave the verifier content.
-/
theorem constFold_preserves {f : Func} (kept : KeptReads f) (safe : FoldSafe f)
    {cfg : EvalConfig σ} {w : World σ}
    (apart : ∀ s s', (vm f cfg).Steps (initialState w) s → (vm f cfg).step s = .inl s' →
      StoreApart f cfg s)
    {maxSteps : Nat} {r : EvalResult σ} (evaluated : evalWithCalls f cfg maxSteps w = .ok r) :
    evalWithCalls (refreshMetadata (constFold f)) cfg maxSteps w = .ok r := by
  unfold evalWithCalls at evaluated ⊢
  cases accepted : verify f with
  | error text => simp [accepted] at evaluated
  | ok done =>
    simp only [accepted] at evaluated
    by_cases positive : 0 < f.nextValue
    · simp only [verify_constFold accepted kept positive safe]
      have labels : labelTable (refreshMetadata (constFold f)) = labelTable f := by
        rw [labelTable_congr (refreshMetadata_map _ refreshInst_labelMark),
          labelTable_congr (constFold_map _ fun _ _ _ => Folded.labelMark)]
      -- The invariant also remembers that the state is one the run visits.
      refine evalLoop_agree (I := fun s => (vm f cfg).Steps (initialState w) s ∧ FoldHolds f cfg s)
        (fun s s' holds moved => ?_) (fun s inst holds found fine => ?_) (fun i none => ?_) ?_
        evaluated
      · exact ⟨holds.1.tail moved, fun _ _ _ => holds.2.values_next accepted positive moved,
          fun _ _ => holds.2.locals_next accepted positive (apart s s' holds.1 moved) moved⟩
      · refine ⟨_, by rw [refreshMetadata_getElem?, constFold_getElem? positive, found]; rfl, ?_⟩
        exact foldInst_agrees accepted positive holds.2 found labels (foldInst_folded _ _ inst) fine
      · rw [refreshMetadata_getElem?, constFold_getElem? positive, none]
        rfl
      · refine ⟨Machine.Steps.refl _, ?_, ?_⟩
        · intro v x c value
          cases value
        · intro slot c known
          cases known
    · rw [constFold, if_pos (by omega)]
      simp only [verify_refresh_of_kept accepted kept]
      have labels : labelTable (refreshMetadata f) = labelTable f :=
        labelTable_congr (refreshMetadata_map _ refreshInst_labelMark)
      refine evalLoop_agree (I := fun _ => True) (fun _ _ _ _ => trivial)
        (fun s inst _ found fine => ?_) (fun i none => ?_) trivial evaluated
      · refine ⟨_, by rw [refreshMetadata_getElem?, found]; rfl, ?_⟩
        exact stepInst_refresh (OpOk.of_verify accepted found).wellFormed labels fine
      · rw [refreshMetadata_getElem?, none]
        rfl

/-- A slot whose address is stored first, and then a constant sum kept in it. -/
def foldedSum : Func := refreshMetadata {
  data := [{ op := .constI64, dst := 0, imm := 5 }, { op := .storeLocal, dst := -1, a := 0, imm := 0 },
    { op := .addrLocal, dst := 1, imm := 1 }, { op := .storeI64, dst := -1, a := 1, c := 0 },
    { op := .loadLocal, dst := 2, imm := 0 }, { op := .addI64, dst := 3, a := 2, b := 0 },
    { op := .ret, dst := -1, a := 3 }]
  nextValue := 4 }

/-- The stored slot is not the one the scan holds, so the folded sum is returned as before. -/
theorem foldedSum_preserved :
    evalWithCalls (refreshMetadata (constFold foldedSum)) fourSlotsConfig 20 zeroWorld =
      evalWithCalls foldedSum fourSlotsConfig 20 zeroWorld := by
  refine constFold_preserves ?_ ?_ ?_ rfl
  · intro i inst found
    rcases i with _ | _ | _ | _ | _ | _ | _ | i <;> cases found <;> decide
  · intro i inst found
    rcases i with _ | _ | _ | _ | _ | _ | _ | i <;> cases found <;> decide
  · -- The store is the run's fourth step, and its address is that of slot one.
    intro s s' steps _ inst p slot found isStore value inside held
    obtain ⟨n, ran⟩ := steps.exists_run
    rcases n with _ | _ | _ | _ | _ | _ | _ | n <;> cases ran <;> cases found <;> cases isStore
    have address : some (fourSlots.addr 1) = some p := value
    obtain rfl : fourSlots.addr 1 = p := by simpa using address
    have named : slot = BitVec.ofNat 64 slot.toNat := by simp
    have inside : slot.toNat < 4 := inside
    refine Mem.not_overlaps_slots (fun same => ?_) (by decide) inside fourSlots.fits
    rw [named, ← same] at held
    exact held rfl

/--
A store through an address that is taken further down in the text than the store stands.

The entry jumps down, takes the address of slot zero and jumps back up to the store.
-/
def aliasedStore : Func := refreshMetadata {
  data := [{ op := .br, dst := -1, imm := 1 }, { op := .label, dst := -1, imm := 0 },
    { op := .constI64, dst := 0, imm := 5 }, { op := .storeLocal, dst := -1, a := 0, imm := 0 },
    { op := .loadLocal, dst := 1, imm := 1 }, { op := .constI64, dst := 2, imm := 7 },
    { op := .storeI64, dst := -1, a := 1, c := 2 }, { op := .loadLocal, dst := 3, imm := 0 },
    { op := .ret, dst := -1, a := 3 }, { op := .label, dst := -1, imm := 1 },
    { op := .addrLocal, dst := 4, imm := 0 }, { op := .storeLocal, dst := -1, a := 4, imm := 1 },
    { op := .br, dst := -1, imm := 0 }]
  nextValue := 5 }

/-- The function returns what the pointer stored, and after folding the overwritten constant. -/
theorem aliasedStore_differs :
    verify aliasedStore = .ok () ∧
      (∃ r, evalWithCalls aliasedStore fourSlotsConfig 100 zeroWorld = .ok r ∧ r.result = 7) ∧
      ∃ r, evalWithCalls (refreshMetadata (constFold aliasedStore)) fourSlotsConfig 100 zeroWorld =
        .ok r ∧ r.result = 5 :=
  ⟨rfl, ⟨_, rfl, by decide⟩, ⟨_, rfl, by decide⟩⟩

end Laws

end Nytrix.Nir
