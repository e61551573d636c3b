import Nytrix.Nir.Eval

/-! What acceptance by the verifier says of each instruction. -/

namespace Nytrix.Nir

/-- Whether opcodes of this shape compute their value from their operands alone. -/
def Shape.isPure : Shape → Bool
  | .const | .unary | .binary => true
  | _ => false

/-- The opcode of a shape that has only one, and one of its opcodes otherwise. -/
def Shape.op : Shape → Op
  | .nop => .nop | .label => .label | .const => .constI64 | .unary => .copy
  | .loadI64 => .loadI64 | .loadLocal => .loadLocal | .addrLocal => .addrLocal
  | .addrSymbol => .addrSymbol | .alloca => .alloca | .copyStruct => .copyStruct
  | .captureRet => .captureRet | .storeLocal => .storeLocal | .storeI64 => .storeI64
  | .ret => .ret | .br => .br | .brIf => .brIf | .call => .call | .binary => .addI64

theorem Op.of_shape {o : Op} {t : Shape} (shape : o.shape = t) (single : t.isPure = false) :
    o = t.op := by
  subst shape
  cases o <;> first | rfl | cases single

@[simp] theorem firstFailure_nil : firstFailure [] = none := rfl

@[simp] theorem firstFailure_cons_eq_none {bad : Bool} {reason : String}
    {rest : List (Bool × String)} :
    firstFailure ((bad, reason) :: rest) = none ↔ bad = false ∧ firstFailure rest = none := by
  cases bad <;> simp [firstFailure]

@[simp] theorem firstFailure_append_eq_none {first second : List (Bool × String)} :
    firstFailure (first ++ second) = none ↔
      firstFailure first = none ∧ firstFailure second = none := by
  induction first with
  | nil => simp
  | cons check rest ih =>
    rcases check with ⟨bad, reason⟩
    simp only [List.cons_append, firstFailure_cons_eq_none, ih, and_assoc]

/-- Whether an instruction before position `i` has this value as its destination. -/
def definedBefore (f : Func) (i : Nat) (v : Int) : Bool :=
  decide (0 ≤ v) && (f.data.take i).any fun inst => inst.dst = v

theorem definedBefore_iff {f : Func} {i : Nat} {v : Int} :
    definedBefore f i v = true ↔ 0 ≤ v ∧ ∃ j inst, j < i ∧ f.data[j]? = some inst ∧ inst.dst = v := by
  simp only [definedBefore, Bool.and_eq_true, decide_eq_true_eq, List.any_eq_true]
  refine and_congr_right fun _ => ?_
  constructor
  · rintro ⟨inst, member, named⟩
    obtain ⟨j, inside, found⟩ := List.mem_iff_getElem.mp member
    have bound : j < i := by
      simp only [List.length_take] at inside
      omega
    refine ⟨j, inst, bound, ?_, named⟩
    rw [← found, List.getElem_take]
    simp
  · rintro ⟨j, inst, bound, found, named⟩
    refine ⟨inst, List.mem_of_getElem? (i := j) ?_, named⟩
    rw [List.getElem?_take_of_lt bound]
    exact found

theorem definedBefore_mono {f : Func} {i k : Nat} {v : Int} (later : i ≤ k)
    (known : definedBefore f i v = true) : definedBefore f k v = true := by
  rw [definedBefore_iff] at known ⊢
  obtain ⟨nonneg, j, inst, bound, found, named⟩ := known
  exact ⟨nonneg, j, inst, by omega, found, named⟩

theorem markDefined_apply (defined : Int → Bool) (inst : Inst) (v : Int) :
    markDefined defined inst v = (defined v || (decide (0 ≤ v) && decide (inst.dst = v))) := by
  unfold markDefined
  by_cases has : 0 ≤ inst.dst
  · rw [if_pos has, Function.update_apply]
    by_cases same : v = inst.dst
    · subst same
      simp [has]
    · simp [same, Ne.symm same]
  · rw [if_neg has]
    by_cases same : inst.dst = v
    · subst same
      simp [has]
    · simp [same]

theorem foldl_markDefined (f : Func) (i : Nat) :
    (f.data.take i).foldl markDefined (fun _ => false) = definedBefore f i := by
  -- Each further instruction adds its own destination to both sides.
  have general : ∀ (insts : List Inst) (defined : Int → Bool),
      insts.foldl markDefined defined =
        fun v => defined v || (decide (0 ≤ v) && insts.any fun inst => inst.dst = v) := by
    intro insts
    induction insts with
    | nil => intro defined; simp
    | cons inst rest ih =>
      intro defined
      rw [List.foldl_cons, ih]
      funext v
      rw [markDefined_apply, List.any_cons]
      cases defined v <;> cases decide (0 ≤ v) <;> simp
  rw [general]
  funext v
  simp [definedBefore]

/-- An instruction passes all checks of the verifier's loop. -/
def InstOk (f : Func) (i : Nat) (inst : Inst) : Prop :=
  firstFailure (commonChecks f (definedBefore f i) inst) = none ∧
    firstFailure (opChecks f (definedBefore f i) i inst) = none

theorem verifyLoop_ok_iff (f : Func) (insts : List Inst) (i : Nat) (defined : Int → Bool) :
    verifyLoop f insts i defined = .ok () ↔ ∀ j inst, insts[j]? = some inst →
      firstFailure (commonChecks f ((insts.take j).foldl markDefined defined) inst ++
        opChecks f ((insts.take j).foldl markDefined defined) (i + j) inst) = none := by
  induction insts generalizing i defined with
  | nil => simp [verifyLoop]
  | cons head rest ih =>
    rw [verifyLoop]
    constructor
    · intro accepted j inst found
      split at accepted
      · exact absurd accepted (by simp)
      · rename_i passed
        cases j with
        | zero =>
          simp only [List.getElem?_cons_zero, Option.some.injEq] at found
          subst found
          simpa using passed
        | succ j =>
          have rest := (ih _ _).mp accepted j inst (by simpa using found)
          simpa [Nat.add_comm, Nat.add_left_comm] using rest
    · intro all
      have first := all 0 head (by simp)
      simp only [List.take_zero, List.foldl_nil, Nat.add_zero] at first
      rw [first]
      refine (ih _ _).mpr fun j inst found => ?_
      have later := all (j + 1) inst (by simpa using found)
      simpa [Nat.add_comm, Nat.add_left_comm] using later

theorem verify_ok_iff {f : Func} :
    verify f = .ok () ↔ 0 ≤ f.nextValue ∧ (∀ i inst, f.data[i]? = some inst → InstOk f i inst) ∧
      validateConstraints f = .ok () := by
  unfold verify
  by_cases negative : f.nextValue < 0
  · simp only [negative, if_true]
    constructor
    · intro bad; cases bad
    · intro good; omega
  · rw [if_neg negative]
    have loop := verifyLoop_ok_iff f f.data 0 fun _ => false
    simp only [Nat.zero_add, foldl_markDefined, firstFailure_append_eq_none] at loop
    cases ran : verifyLoop f f.data 0 fun _ => false with
    | error text =>
      have failed : ¬ verifyLoop f f.data 0 (fun _ => false) = .ok () := by
        rw [ran]; intro bad; cases bad
      simp only [bind, Except.bind]
      constructor
      · intro bad; cases bad
      · intro good
        exact absurd (loop.mpr good.2.1) failed
    | ok done =>
      have passed := loop.mp ran
      simp only [bind, Except.bind]
      exact ⟨fun constraints => ⟨by omega, passed, constraints⟩, fun good => good.2.2⟩

theorem InstOk.of_verify {f : Func} (accepted : verify f = .ok ()) {i : Nat} {inst : Inst}
    (found : f.data[i]? = some inst) : InstOk f i inst :=
  (verify_ok_iff.mp accepted).2.1 i inst found

/-- What the checks common to all opcodes establish. -/
structure CommonOk (f : Func) (i : Nat) (inst : Inst) : Prop where
  argSizes : inst.op ≠ .call → inst.argSizes = none
  effects : inst.effects = instEffects inst
  rangePaired : inst.range.hasMin = inst.range.hasMax
  rangeOrdered : inst.range.hasMin = true → inst.range.min.toInt ≤ inst.range.max.toInt
  debug : inst.debug.line = 0 → inst.debug.column = 0 ∧ inst.debug.file.getD "" = ""
  dstBelow : inst.dst < f.nextValue
  dstFresh : 0 ≤ inst.dst → definedBefore f i inst.dst = false

theorem instEffects_known (inst : Inst) : instEffects inst &&& ~~~knownEffectMask = 0 := by
  unfold instEffects
  split <;> decide

theorem commonChecks_none_iff {f : Func} {i : Nat} {inst : Inst} :
    firstFailure (commonChecks f (definedBefore f i) inst) = none ↔ CommonOk f i inst := by
  constructor
  · intro passed
    simp only [commonChecks, firstFailure_cons_eq_none, firstFailure_nil] at passed
    obtain ⟨sizes, -, effects, paired, ordered, debug, below, fresh, -⟩ := passed
    refine ⟨?_, by simpa using effects, by simpa using paired, ?_, ?_, by simpa using below, ?_⟩
    · intro other
      simpa [other] using sizes
    · intro has
      have both : inst.range.hasMax = true := by
        rw [← (by simpa using paired : inst.range.hasMin = inst.range.hasMax)]
        exact has
      simpa [has, both] using ordered
    · intro line
      simpa [line] using debug
    · intro has
      simpa [has] using fresh
  · rintro ⟨sizes, effects, paired, ordered, debug, below, fresh⟩
    simp only [commonChecks, firstFailure_cons_eq_none, firstFailure_nil, and_true]
    refine ⟨?_, ?_, by simp [effects], by simp [paired], ?_, ?_, by simpa using below, ?_⟩
    · by_cases other : inst.op = .call
      · simp [other]
      · simp [sizes other]
    · rw [effects, instEffects_known]
      rfl
    · by_cases has : inst.range.hasMin = true
      · simp [ordered has]
      · simp [has]
    · by_cases line : inst.debug.line = 0
      · simp [debug line]
      · have line : ¬ inst.debug.line = 0#32 := line
        simp [line]
    · by_cases has : 0 ≤ inst.dst
      · simp [fresh has]
      · simp [has]

theorem CommonOk.of_verify {f : Func} (accepted : verify f = .ok ()) {i : Nat} {inst : Inst}
    (found : f.data[i]? = some inst) : CommonOk f i inst :=
  commonChecks_none_iff.mp (InstOk.of_verify accepted found).1

theorem dst_unique {f : Func} (accepted : verify f = .ok ()) {i j : Nat} {p q : Inst}
    (first : f.data[i]? = some p) (second : f.data[j]? = some q) (nonneg : 0 ≤ p.dst)
    (same : p.dst = q.dst) : i = j := by
  -- Whichever comes later finds its destination already defined.
  rcases Nat.lt_trichotomy i j with before | equal | after
  · have fresh := (CommonOk.of_verify accepted second).dstFresh (by omega)
    have taken : definedBefore f j q.dst = true :=
      definedBefore_iff.mpr ⟨by omega, i, p, before, first, same⟩
    simp [taken] at fresh
  · exact equal
  · have fresh := (CommonOk.of_verify accepted first).dstFresh nonneg
    have taken : definedBefore f i p.dst = true :=
      definedBefore_iff.mpr ⟨nonneg, j, q, after, second, same.symm⟩
    simp [taken] at fresh

/-- What the verifier asks of a call apart from its operands being defined. -/
def callWellFormed (inst : Inst) : Bool :=
  let n := inst.imm.toInt
  let absent := fun v : Int => decide (v < 0)
  (inst.symbol.getD "") ≠ "" && decide (0 ≤ n) && decide (n ≤ (callMaxArgs : Int)) &&
    (decide (1 ≤ n) || absent inst.a) && (decide (2 ≤ n) || absent inst.b) &&
    (decide (3 ≤ n) || absent inst.c) && (decide (4 ≤ n) || absent inst.d) &&
    (decide (5 ≤ n) || absent inst.e) && (decide (6 ≤ n) || absent inst.f) &&
    (!inst.argSizes.isSome || decide (0 < n)) &&
    !((inst.argSizes.getD []).take n.toNat).any argSizeBad &&
    decide (inst.extraArgs.length = n.toNat - 6)

/-- What the verifier asks of an instruction alone, whatever stands around it. -/
def Inst.wellFormed (inst : Inst) : Bool :=
  let hasDst := decide (0 ≤ inst.dst)
  let nonneg := decide (0 ≤ inst.imm.toInt)
  match inst.op.shape with
  | .const | .unary | .loadI64 => hasDst
  | .loadLocal | .addrLocal | .alloca => hasDst && nonneg
  | .addrSymbol => hasDst && (inst.symbol.getD "") ≠ ""
  | .copyStruct => decide (0 ≤ inst.a) && decide (0 ≤ inst.b) && nonneg
  | .captureRet => hasDst && nonneg && decide (inst.imm.toInt ≤ 3)
  | .storeLocal => nonneg
  | .call => callWellFormed inst
  | .nop | .label | .storeI64 | .ret | .br | .brIf | .binary => true

/-- What the checks of an instruction's own opcode establish. -/
structure OpOk (f : Func) (defined : Int → Bool) (i : Nat) (inst : Inst) : Prop where
  reads : ∀ v ∈ inst.reads, valueDefined f defined v = true
  wellFormed : inst.wellFormed = true
  fresh : inst.op = .label →
    ((f.data.take i).any fun prev => prev.op = .label && prev.imm = inst.imm) = false
  target : inst.op = .br ∨ inst.op = .brIf → labelExists f inst.imm = true
  follows : inst.op = .captureRet → followsCall f i = true

theorem forall_callOperands {p : Int → Prop} {inst : Inst} (nonneg : 0 ≤ inst.imm.toInt)
    (lengths : inst.extraArgs.length = inst.imm.toInt.toNat - 6) :
    (∀ v ∈ callOperands inst, p v) ↔
      (0 < inst.imm.toInt → p inst.a) ∧ (1 < inst.imm.toInt → p inst.b) ∧
      (2 < inst.imm.toInt → p inst.c) ∧ (3 < inst.imm.toInt → p inst.d) ∧
      (4 < inst.imm.toInt → p inst.e) ∧ (5 < inst.imm.toInt → p inst.f) ∧
      (∀ v ∈ inst.extraArgs, p v) := by
  have arity := toNat_of_nonneg nonneg
  simp only [callOperands, List.mem_map, List.mem_range, forall_exists_index, and_imp,
    forall_apply_eq_imp_iff₂]
  constructor
  · intro all
    refine ⟨fun h => all 0 (by omega), fun h => all 1 (by omega), fun h => all 2 (by omega),
      fun h => all 3 (by omega), fun h => all 4 (by omega), fun h => all 5 (by omega), ?_⟩
    intro v member
    obtain ⟨k, inside, rfl⟩ := List.mem_iff_getElem.mp member
    have := all (k + 6) (by omega)
    simpa [List.getD_eq_getElem?_getD, List.getElem?_eq_getElem inside] using this
  · rintro ⟨h0, h1, h2, h3, h4, h5, rest⟩ k inside
    -- Argument `k` sits in one of the six fields or in the out-of-line list.
    rcases k with _ | _ | _ | _ | _ | _ | k
    · exact h0 (by omega)
    · exact h1 (by omega)
    · exact h2 (by omega)
    · exact h3 (by omega)
    · exact h4 (by omega)
    · exact h5 (by omega)
    · have within : k < inst.extraArgs.length := by omega
      refine rest _ ?_
      simp [List.getD_eq_getElem?_getD, List.getElem?_eq_getElem within]

theorem arity_signs {n a b c d e f : Int} (nonneg : 0 ≤ n) :
    ((¬ n = 0 ∨ ((((a < 0 ∧ b < 0) ∧ c < 0) ∧ d < 0) ∧ e < 0) ∧ f < 0) ∧
      (¬ n = 1 ∨ (((b < 0 ∧ c < 0) ∧ d < 0) ∧ e < 0) ∧ f < 0) ∧
      (¬ n = 2 ∨ ((c < 0 ∧ d < 0) ∧ e < 0) ∧ f < 0) ∧
      (¬ n = 3 ∨ (d < 0 ∧ e < 0) ∧ f < 0) ∧ (¬ n = 4 ∨ e < 0 ∧ f < 0) ∧ (¬ n = 5 ∨ f < 0)) ↔
    (1 ≤ n ∨ a < 0) ∧ (2 ≤ n ∨ b < 0) ∧ (3 ≤ n ∨ c < 0) ∧ (4 ≤ n ∨ d < 0) ∧ (5 ≤ n ∨ e < 0) ∧
      (6 ≤ n ∨ f < 0) := by
  have arity : n = 0 ∨ n = 1 ∨ n = 2 ∨ n = 3 ∨ n = 4 ∨ n = 5 ∨ 6 ≤ n := by omega
  rcases arity with rfl | rfl | rfl | rfl | rfl | rfl | many
  · simp [and_assoc]
  · simp [and_assoc]
  · simp [and_assoc]
  · simp [and_assoc]
  · simp [and_assoc]
  · simp
  · have others (k : Int) (less : k < 6) : ¬ n = k ∧ (k ≤ n) := ⟨by omega, by omega⟩
    simp [others, many]

theorem callChecks_none_iff {f : Func} {defined : Int → Bool} {inst : Inst} :
    firstFailure (callChecks f defined inst) = none ↔
      (∀ v ∈ callOperands inst, valueDefined f defined v = true) ∧ callWellFormed inst = true := by
  simp only [callChecks, firstFailure_cons_eq_none, firstFailure_nil, and_true, callWellFormed,
    Bool.and_eq_false_iff, Bool.or_eq_false_iff, decide_eq_false_iff_not, Bool.not_eq_false',
    Bool.and_eq_true, Bool.or_eq_true, decide_eq_true_eq, Bool.not_eq_true', Int.not_lt, Int.not_le,
    ne_eq, Decidable.not_not, List.any_eq_false, Bool.not_eq_true, Bool.not_eq_false, and_assoc]
  constructor
  · rintro ⟨symbol, nonneg, n0, n1, n2, n3, n4, n5, c0, c1, c2, c3, c4, c5, many, sizes, bad, stray,
      count, rest⟩
    obtain ⟨s0, s1, s2, s3, s4, s5⟩ := (arity_signs nonneg).mp
      (by simpa only [and_assoc] using ⟨n0, n1, n2, n3, n4, n5⟩)
    have lengths : inst.extraArgs.length = inst.imm.toInt.toNat - 6 := by
      rcases stray with long | none
      · exact count.resolve_left (Int.not_le.mpr long)
      · rcases count with short | same
        · rw [none, List.length_nil]
          clear n0 n1 n2 n3 n4 n5 c0 c1 c2 c3 c4 c5 s0 s1 s2 s3 s4 s5
          omega
        · exact same
    have given {k : Int} {p : Prop} (known : inst.imm.toInt ≤ k ∨ p) (more : k < inst.imm.toInt) :
        p := known.resolve_left (Int.not_le.mpr more)
    refine ⟨(forall_callOperands nonneg lengths).mpr ⟨given c0, given c1, given c2, given c3,
      given c4, given c5, fun v member => ?_⟩, symbol, nonneg, many, s0, s1, s2, s3, s4, s5, sizes,
      bad, lengths⟩
    have := List.length_pos_of_mem member
    exact given rest (by clear n0 n1 n2 n3 n4 n5 c0 c1 c2 c3 c4 c5 s0 s1 s2 s3 s4 s5; omega) v member
  · rintro ⟨operands, symbol, nonneg, many, s0, s1, s2, s3, s4, s5, sizes, bad, lengths⟩
    obtain ⟨n0, n1, n2, n3, n4, n5⟩ := (arity_signs nonneg).mpr ⟨s0, s1, s2, s3, s4, s5⟩
    obtain ⟨h0, h1, h2, h3, h4, h5, rest⟩ := (forall_callOperands nonneg lengths).mp operands
    have given {k : Int} {p : Prop} (known : k < inst.imm.toInt → p) : inst.imm.toInt ≤ k ∨ p :=
      (Decidable.em (inst.imm.toInt ≤ k)).imp_right fun more => known (Int.not_le.mp more)
    refine ⟨symbol, nonneg, by simpa only [and_assoc] using n0, by simpa only [and_assoc] using n1,
      by simpa only [and_assoc] using n2, by simpa only [and_assoc] using n3, n4, n5,
      given h0, given h1, given h2, given h3, given h4, given h5, many, sizes, bad, ?_,
      .inr lengths, .inr rest⟩
    by_cases long : 6 < inst.imm.toInt
    · exact .inl long
    · refine .inr (List.length_eq_zero_iff.mp ?_)
      clear n0 n1 n2 n3 n4 n5 s0 s1 s2 s3 s4 s5
      omega

theorem opOk_iff_of_plain {f : Func} {defined : Int → Bool} {i : Nat} {inst : Inst}
    (noLabel : inst.op.shape ≠ .label) (noBr : inst.op.shape ≠ .br) (noBrIf : inst.op.shape ≠ .brIf)
    (noCapture : inst.op.shape ≠ .captureRet) :
    OpOk f defined i inst ↔
      (∀ v ∈ inst.reads, valueDefined f defined v = true) ∧ inst.wellFormed = true := by
  have other {o : Op} (apart : inst.op.shape ≠ o.shape) : inst.op ≠ o := fun same =>
    apart (by rw [same])
  refine ⟨fun ok => ⟨ok.reads, ok.wellFormed⟩, fun both => ⟨both.1, both.2, ?_, ?_, ?_⟩⟩
  · exact fun same => absurd same (other noLabel)
  · exact fun same => same.elim (fun same => absurd same (other noBr))
      fun same => absurd same (other noBrIf)
  · exact fun same => absurd same (other noCapture)

theorem opChecks_none_iff {f : Func} {defined : Int → Bool} {i : Nat} {inst : Inst} :
    firstFailure (opChecks f defined i inst) = none ↔ OpOk f defined i inst := by
  cases shape : inst.op.shape
  case call =>
    rw [opOk_iff_of_plain (by simp [shape]) (by simp [shape]) (by simp [shape]) (by simp [shape])]
    simp only [opChecks, shape, callChecks_none_iff, Inst.reads, Inst.wellFormed]
  case label =>
    have op : inst.op = .label := Op.of_shape shape rfl
    simp only [opChecks, shape, firstFailure_cons_eq_none, firstFailure_nil, and_true]
    exact ⟨fun fresh => ⟨by simp [Inst.reads, shape], by simp [Inst.wellFormed, shape],
      fun _ => fresh, by simp [op], by simp [op]⟩, fun ok => ok.fresh op⟩
  case br =>
    have op : inst.op = .br := Op.of_shape shape rfl
    simp only [opChecks, shape, firstFailure_cons_eq_none, firstFailure_nil, and_true,
      Bool.not_eq_false']
    exact ⟨fun target => ⟨by simp [Inst.reads, shape], by simp [Inst.wellFormed, shape],
      by simp [op], fun _ => target, by simp [op]⟩, fun ok => ok.target (.inl op)⟩
  case brIf =>
    have op : inst.op = .brIf := Op.of_shape shape rfl
    simp only [opChecks, shape, firstFailure_cons_eq_none, firstFailure_nil, and_true,
      Bool.or_eq_false_iff, Bool.not_eq_false']
    exact ⟨fun both => ⟨by simpa [Inst.reads, shape] using both.1, by simp [Inst.wellFormed, shape],
      by simp [op], fun _ => both.2, by simp [op]⟩,
      fun ok => ⟨ok.reads inst.a (by simp [Inst.reads, shape]), ok.target (.inr op)⟩⟩
  case captureRet =>
    have op : inst.op = .captureRet := Op.of_shape shape rfl
    simp only [opChecks, shape, firstFailure_cons_eq_none, firstFailure_nil, and_true,
      Bool.or_eq_false_iff, decide_eq_false_iff_not, Bool.not_eq_false', Int.not_lt]
    constructor
    · rintro ⟨⟨⟨has, low⟩, high⟩, follows⟩
      exact ⟨by simp [Inst.reads, shape], by simp [Inst.wellFormed, shape, has, low, high],
        by simp [op], by simp [op], fun _ => follows⟩
    · intro ok
      have formed := ok.wellFormed
      simp only [Inst.wellFormed, shape, Bool.and_eq_true, decide_eq_true_eq] at formed
      exact ⟨formed, ok.follows op⟩
  case ret =>
    rw [opOk_iff_of_plain (by simp [shape]) (by simp [shape]) (by simp [shape]) (by simp [shape])]
    simp only [opChecks, shape, firstFailure_cons_eq_none, firstFailure_nil, and_true, Inst.reads,
      Inst.wellFormed]
    by_cases given : 0 ≤ inst.a <;> simp [given]
  all_goals
    rw [opOk_iff_of_plain (by simp [shape]) (by simp [shape]) (by simp [shape]) (by simp [shape])]
    simp [opChecks, shape, Inst.reads, Inst.wellFormed]
  all_goals exact and_comm

theorem OpOk.of_verify {f : Func} (accepted : verify f = .ok ()) {i : Nat} {inst : Inst}
    (found : f.data[i]? = some inst) : OpOk f (definedBefore f i) i inst :=
  opChecks_none_iff.mp (InstOk.of_verify accepted found).2

theorem instOk_iff {f : Func} {i : Nat} {inst : Inst} :
    InstOk f i inst ↔ CommonOk f i inst ∧ OpOk f (definedBefore f i) i inst := by
  rw [InstOk, commonChecks_none_iff, opChecks_none_iff]

theorem read_defined {f : Func} (accepted : verify f = .ok ()) {i : Nat} {inst : Inst}
    (found : f.data[i]? = some inst) {v : Int} (read : v ∈ inst.reads) :
    0 ≤ v ∧ v < f.nextValue ∧ definedBefore f i v = true := by
  have known := (OpOk.of_verify accepted found).reads v read
  simp only [valueDefined, Bool.and_eq_true, decide_eq_true_eq] at known
  exact ⟨known.1.1, known.1.2, known.2⟩

end Nytrix.Nir
