import Nytrix.Lib.LinearScan
import Nytrix.Native.FloatMaps
import Nytrix.Nir.Ir
import Nytrix.Nir.Rewriting

/-! Register allocation by a linear scan, and when values that share a register are apart. -/

namespace Nytrix.Native

open Nytrix.Nir Nytrix.Lib

/-- The number of values the object writer has room for. -/
def valueSlots (f : Func) : Int := if 0 < f.nextValue then f.nextValue else 0

/-- Raises the number of locals to cover an instruction. -/
def coverObjLocal (slots : Int) (inst : Inst) : Int :=
  if (inst.op = .loadLocal || inst.op = .storeLocal) && decide (slots ≤ inst.imm.toInt)
  then (inst.imm.setWidth 32).toInt + 1 else slots

/-- The number of locals the object writer has room for. -/
def localSlots (f : Func) : Int := f.data.foldl coverObjLocal 0

/-- The rules of the object writer's classification, whose tables fit the function. -/
def objRules (f : Func) : ClassRules :=
  { inValues := fun v => decide (0 ≤ v) && decide (v < valueSlots f)
    inLocals := fun v => decide (0 ≤ v) && decide (v < localSlots f)
    takesF64 := fun op => arithF64 op || op = .cmpF64
    takesF32 := fun op => arithF32 op || op = .cmpF32
    flags := 2 * (valueSlots f).toNat + 2 * (localSlots f).toNat }

/-- The classification of the object writer. -/
def objClassifyValues (f : Func) : Classes := classifyWith (objRules f) f

/-- The operand fields of an instruction, whether its opcode reads them or not. -/
def operandFields (inst : Inst) : List Int :=
  [inst.a, inst.b, inst.c, inst.d, inst.e, inst.f] ++
    if inst.op = .call then inst.extraArgs else []

/-- The position of the last instruction that has a value in its fields. -/
def lastUse (f : Func) (v : Int) : Int :=
  f.data.zipIdx.foldl (fun last entry =>
    if v ∈ operandFields entry.1 then (entry.2 : Int) else last) (-1)

/-- Whether a call has a value in its fields. -/
def callUse (f : Func) (v : Int) : Bool :=
  f.data.any fun inst => inst.op = .call && decide (v ∈ operandFields inst)

/-- The first call at or behind a position. -/
def nextCall (f : Func) (n : Nat) : Option Nat :=
  (List.range f.data.length).find? fun k =>
    decide (n ≤ k) && (f.data[k]?.any fun inst => inst.op = .call)

/-- Whether a call comes between the definition at a position and the last use. -/
def crossesCall (f : Func) (i : Nat) (v : Int) : Bool :=
  (nextCall f (i + 1)).any fun k => decide ((k : Int) < lastUse f v)

/-- The caller-saved registers in the order they are tried. -/
def callerRegs : List Nat := [11, 9, 8]

/-- The callee-saved registers in the order they are tried. -/
def calleeRegs : List Nat := [12, 13, 14, 15, 3]

/-- The vector registers in the order they are tried. -/
def xmmRegs : List Nat := [4, 5, 6, 7]

/-- Whether a value is one that the writer has room for and that is used behind its definition. -/
def hasInterval (f : Func) (i : Nat) (inst : Inst) : Bool :=
  decide (0 ≤ inst.dst) && decide (inst.dst < valueSlots f) &&
    decide ((i : Int) ≤ lastUse f inst.dst)

/-- Whether the writer takes a value for a float. -/
def isFloat (classes : Classes) (v : Int) : Bool := classes.value64 v || classes.value32 v

/-- The general registers that the value of an instruction may get. -/
def gpPool (f : Func) (classes : Classes) (i : Nat) (inst : Inst) : List Nat :=
  if !hasInterval f i inst || isFloat classes inst.dst then []
  else if inst.op = .constI64 && !crossesCall f i inst.dst then []
  else if !crossesCall f i inst.dst && !callUse f inst.dst then callerRegs
  else if crossesCall f i inst.dst then calleeRegs
  else []

/-- The vector registers that the value of an instruction may get. -/
def xmmPool (f : Func) (classes : Classes) (i : Nat) (inst : Inst) : List Nat :=
  if !hasInterval f i inst || callUse f inst.dst || !isFloat classes inst.dst then []
  else if crossesCall f i inst.dst then []
  else xmmRegs

/-- The general register of a value. -/
def valueReg (f : Func) : Int → Option Nat :=
  (scan Inst.dst (lastUse f) (gpPool f (objClassifyValues f)) f.data).reg

/-- The vector register of a value. -/
def valueXmm (f : Func) : Int → Option Nat :=
  (scan Inst.dst (lastUse f) (xmmPool f (objClassifyValues f)) f.data).reg

/-- Control passes from one position to another. -/
def flows (f : Func) (m n : Nat) : Prop :=
  ∃ inst, f.data[m]? = some inst ∧
    ((inst.op ≠ .br ∧ inst.op ≠ .ret ∧ n = m + 1) ∨
      ((inst.op = .br ∨ inst.op = .brIf) ∧
        ∃ label, f.data[n]? = some label ∧ label.op = .label ∧ label.imm = inst.imm))

/-- The values that the code of an instruction reads. -/
def uses (inst : Inst) : List Int :=
  inst.reads ++ if inst.op = .copyStruct then [inst.a, inst.b] else []

/-- The instruction at a position reads a value. -/
def usesAt (f : Func) (v : Int) (n : Nat) : Prop :=
  ∃ inst, f.data[n]? = some inst ∧ v ∈ uses inst

/-- The instruction at a position defines a value. -/
def definesAt (f : Func) (v : Int) (n : Nat) : Prop :=
  ∃ inst, f.data[n]? = some inst ∧ inst.dst = v

/-- Some path from a position reads a value before it is defined. -/
def LiveAt (f : Func) (v : Int) (n : Nat) : Prop := Live (flows f) (usesAt f v) (definesAt f v) n

/-- A value is live behind a call that does not define it. -/
def LiveAcrossCall (f : Func) (v : Int) (n : Nat) : Prop :=
  ∃ inst, f.data[n]? = some inst ∧ inst.op = .call ∧ inst.dst ≠ v ∧ LiveAt f v (n + 1)

/-- No two values of one register are live at one point, and none that a call may overwrite. -/
structure RespectsLiveness (f : Func) : Prop where
  general : ∀ v w r, v ≠ w → valueReg f v = some r → valueReg f w = some r →
    ∀ n, ¬ (LiveAt f v n ∧ LiveAt f w n)
  vector : ∀ v w r, v ≠ w → valueXmm f v = some r → valueXmm f w = some r →
    ∀ n, ¬ (LiveAt f v n ∧ LiveAt f w n)
  calls : ∀ v, (valueXmm f v ≠ none ∨ ∃ r ∈ [8, 9, 11], valueReg f v = some r) →
    ∀ n, ¬ LiveAcrossCall f v n

/-- The value of an instruction is one that may get a register. -/
def Candidate (f : Func) (i : Nat) (inst : Inst) : Prop :=
  gpPool f (objClassifyValues f) i inst ≠ [] ∨ xmmPool f (objClassifyValues f) i inst ≠ []

/--
The text from the definition of each candidate to its last use is entered at the definition only.

No edge from outside goes to a point where the value is live, and no struct is copied from or to it
before.
-/
def EnteredAtDefinition (f : Func) : Prop :=
  ∀ (i : Nat) (inst : Inst), f.data[i]? = some inst → Candidate f i inst →
    (∀ n, usesAt f inst.dst n → i < n) ∧
    ∀ m n, flows f m n → LiveAt f inst.dst n → i ≤ m ∧ (m : Int) ≤ lastUse f inst.dst

theorem foldl_last_ge (p : Inst → Prop) [DecidablePred p] (l : List Inst) (k : Nat) (last : Int) :
    (last < k → last ≤ (l.zipIdx k).foldl (fun last entry =>
      if p entry.1 then (entry.2 : Int) else last) last) ∧
    ∀ (n : Nat) (inst : Inst), l[n]? = some inst → p inst → ((k + n : Nat) : Int) ≤
      (l.zipIdx k).foldl (fun last entry => if p entry.1 then (entry.2 : Int) else last) last := by
  induction l generalizing k last with
  | nil => exact ⟨fun _ => Int.le_refl _, by simp⟩
  | cons a rest ih =>
    rw [List.zipIdx_cons, List.foldl_cons]
    dsimp only
    constructor
    · intro less
      split
      · have := (ih (k + 1) k).1 (by omega)
        omega
      · exact (ih (k + 1) last).1 (by omega)
    · intro n inst found holds
      cases n with
      | zero =>
        cases found
        rw [if_pos holds]
        exact (ih (k + 1) k).1 (by omega)
      | succ n =>
        have later := (ih (k + 1) (if p a then (k : Int) else last)).2 n inst found holds
        omega

theorem le_lastUse {f : Func} {v : Int} {n : Nat} {inst : Inst} (found : f.data[n]? = some inst)
    (field : v ∈ operandFields inst) : (n : Int) ≤ lastUse f v := by
  have bound := (foldl_last_ge (fun inst => v ∈ operandFields inst) f.data 0 (-1)).2
    n inst found field
  rwa [Nat.zero_add] at bound

theorem crossesCall_of_call {f : Func} {i n : Nat} {v : Int} {inst : Inst} (behind : i < n)
    (found : f.data[n]? = some inst) (isCall : inst.op = .call) (before : (n : Int) < lastUse f v) :
    crossesCall f i v = true := by
  have inside := (List.getElem?_eq_some_iff.mp found).1
  have fits : (decide (i + 1 ≤ n) && (f.data[n]?.any fun inst => inst.op = .call)) = true := by
    rw [found, Option.any_some, isCall, decide_eq_true (show i + 1 ≤ n from behind)]
    rfl
  unfold crossesCall nextCall
  cases first : (List.range f.data.length).find? fun k =>
      decide (i + 1 ≤ k) && (f.data[k]?.any fun inst => inst.op = .call) with
  | none => exact absurd fits (List.find?_eq_none.mp first n (List.mem_range.mpr inside))
  | some k =>
    obtain ⟨holds, -, least⟩ := List.find?_range_eq_some.mp first
    have early : k ≤ n := by
      by_contra late
      have passed := least n (by omega)
      rw [fits] at passed
      cases passed
    exact decide_eq_true (by omega)

theorem mem_operandFields {inst : Inst} {v : Int} (given : 0 ≤ v) (used : v ∈ uses inst) :
    v ∈ operandFields inst := by
  rcases List.mem_append.mp used with read | copied
  · by_cases call : inst.op = .call
    · have operand := mem_operands_of_reads given read
      simpa [operandFields, call, Inst.operands] using operand
    · -- Only a call reads further arguments, so the others read the same without them.
      have same : v ∈ ({ inst with extraArgs := [] } : Inst).reads := by
        unfold Inst.reads at read ⊢
        cases shape : inst.op.shape with
        | call => exact absurd (Op.of_shape shape rfl) call
        | _ => rwa [shape] at read
      have operand := mem_operands_of_reads given same
      exact List.mem_append_left _ operand
  · split at copied
    · simp only [List.mem_cons, List.not_mem_nil, or_false] at copied
      refine List.mem_append_left _ ?_
      rcases copied with rfl | rfl <;> simp
    · cases copied

theorem definesAt_iff {f : Func} (accepted : verify f = .ok ()) {i : Nat} {inst : Inst}
    (found : f.data[i]? = some inst) (given : 0 ≤ inst.dst) (n : Nat) :
    definesAt f inst.dst n ↔ (n : Int) = i := by
  constructor
  · rintro ⟨other, there, same⟩
    have := dst_unique accepted found there given same.symm
    omega
  · intro same
    have same : n = i := by omega
    exact ⟨inst, same ▸ found, rfl⟩

theorem Candidate.hasInterval {f : Func} {i : Nat} {inst : Inst} (candidate : Candidate f i inst) :
    0 ≤ inst.dst ∧ (i : Int) ≤ lastUse f inst.dst := by
  have interval : Native.hasInterval f i inst = true := by
    rcases candidate with general | vector
    · by_contra none
      simp [gpPool, none] at general
    · by_contra none
      simp [xmmPool, none] at vector
  simp only [Native.hasInterval, Bool.and_eq_true, decide_eq_true_eq] at interval
  exact ⟨interval.1.1, interval.2⟩

theorem enteredAtDefinition_iff {f : Func} (accepted : verify f = .ok ()) :
    EnteredAtDefinition f ↔ ∀ (i : Nat) (inst : Inst), f.data[i]? = some inst →
      Candidate f i inst → ∀ n, LiveAt f inst.dst n → i < n ∧ (n : Int) ≤ lastUse f inst.dst := by
  refine forall_congr' fun i => forall_congr' fun inst => forall_congr' fun found =>
    forall_congr' fun candidate => ?_
  obtain ⟨given, ordered⟩ := candidate.hasInterval
  have within := live_within_iff (flows f) (usesAt f inst.dst)
    (definesAt_iff accepted found given) ordered
  simp only [Int.ofNat_lt, Int.ofNat_le] at within
  refine Iff.trans (and_congr_left fun _ => forall_congr' fun n => forall_congr' ?_) within.symm
  -- A use is never behind the last one.
  rintro ⟨user, there, used⟩
  exact ⟨fun behind => ⟨behind, le_lastUse there (mem_operandFields given used)⟩, And.left⟩

theorem candidates_unique {f : Func} (accepted : verify f = .ok ()) {i j : Nat} {p q : Inst}
    (first : f.data[i]? = some p) (second : f.data[j]? = some q) (candidate : Candidate f i p)
    (same : p.dst = q.dst) : i = j :=
  dst_unique accepted first second candidate.hasInterval.1 same

theorem gp_scanOk {f : Func} (accepted : verify f = .ok ()) :
    ScanOk Inst.dst (lastUse f) (gpPool f (objClassifyValues f)) f.data f.data.length
      (scan Inst.dst (lastUse f) (gpPool f (objClassifyValues f)) f.data) :=
  scan_ok (fun first second some_ same => candidates_unique accepted first second (.inl some_) same)
    fun _ some_ => (Candidate.hasInterval (.inl some_)).2

theorem xmm_scanOk {f : Func} (accepted : verify f = .ok ()) :
    ScanOk Inst.dst (lastUse f) (xmmPool f (objClassifyValues f)) f.data f.data.length
      (scan Inst.dst (lastUse f) (xmmPool f (objClassifyValues f)) f.data) :=
  scan_ok (fun first second some_ same => candidates_unique accepted first second (.inr some_) same)
    fun _ some_ => (Candidate.hasInterval (.inr some_)).2

theorem not_both_live {f : Func} {pool : Nat → Inst → List Nat}
    (ok : ScanOk Inst.dst (lastUse f) pool f.data f.data.length
      (scan Inst.dst (lastUse f) pool f.data))
    (within : ∀ (i : Nat) (inst : Inst), f.data[i]? = some inst → pool i inst ≠ [] →
      ∀ n, LiveAt f inst.dst n → i < n ∧ (n : Int) ≤ lastUse f inst.dst)
    {v w : Int} {r : Nat} (differ : v ≠ w)
    (left : (scan Inst.dst (lastUse f) pool f.data).reg v = some r)
    (right : (scan Inst.dst (lastUse f) pool f.data).reg w = some r) (n : Nat) :
    ¬ (LiveAt f v n ∧ LiveAt f w n) := by
  rintro ⟨liveV, liveW⟩
  obtain ⟨i, insideI, p, first, rfl, inI, -⟩ := ok.given left
  obtain ⟨j, insideJ, q, second, rfl, inJ, -⟩ := ok.given right
  have textI := within i p first (List.ne_nil_of_mem inI) n liveV
  have textJ := within j q second (List.ne_nil_of_mem inJ) n liveW
  -- Whichever is defined later is defined at or behind the last use of the other.
  rcases Nat.lt_trichotomy i j with before | rfl | after
  · have apart := ok.apart first second before insideJ left right
    omega
  · exact differ (congrArg Inst.dst (Option.some.inj (first.symm.trans second)))
  · have apart := ok.apart second first after insideI right left
    omega

theorem not_across {f : Func} {i : Nat} {inst : Inst} {n : Nat}
    (within : ∀ n, LiveAt f inst.dst n → i < n ∧ (n : Int) ≤ lastUse f inst.dst)
    (none : crossesCall f i inst.dst = false) : ¬ LiveAcrossCall f inst.dst n := by
  rintro ⟨call, there, isCall, other, behind⟩
  have edge : flows f n (n + 1) := ⟨call, there, .inl ⟨by simp [isCall], by simp [isCall], rfl⟩⟩
  have passes : ¬ definesAt f inst.dst n := by
    rintro ⟨same, there', defined⟩
    rw [Option.some.inj (there.symm.trans there')] at other
    exact other defined
  have before := within n (.step edge passes behind)
  have after := within (n + 1) behind
  rw [crossesCall_of_call before.1 there isCall (by omega)] at none
  cases none

theorem not_crosses_of_caller {f : Func} {classes : Classes} {i : Nat} {inst : Inst} {r : Nat}
    (member : r ∈ gpPool f classes i inst) (caller : r ∈ [8, 9, 11]) :
    crossesCall f i inst.dst = false := by
  unfold gpPool at member
  split at member
  · cases member
  · split at member
    · cases member
    · split at member
      · next free =>
        simp only [Bool.and_eq_true, Bool.not_eq_true'] at free
        exact free.1
      · split at member
        · -- The callee-saved registers are others.
          simp only [calleeRegs, List.mem_cons, List.not_mem_nil, or_false] at member caller
          omega
        · cases member

theorem not_crosses_of_xmm {f : Func} {classes : Classes} {i : Nat} {inst : Inst} {r : Nat}
    (member : r ∈ xmmPool f classes i inst) : crossesCall f i inst.dst = false := by
  unfold xmmPool at member
  split at member
  · cases member
  · split at member
    · cases member
    · next free => simpa using free

/--
Register allocation respects liveness when the text of every candidate is entered at its
definition only.
-/
theorem allocateRegisters_respects {f : Func} (accepted : verify f = .ok ())
    (entered : EnteredAtDefinition f) : RespectsLiveness f := by
  have within := (enteredAtDefinition_iff accepted).mp entered
  refine ⟨?_, ?_, ?_⟩
  · intro v w r differ left right n
    exact not_both_live (gp_scanOk accepted)
      (fun i inst found some_ => within i inst found (.inl some_)) differ left right n
  · intro v w r differ left right n
    exact not_both_live (xmm_scanOk accepted)
      (fun i inst found some_ => within i inst found (.inr some_)) differ left right n
  · rintro v (vector | ⟨r, caller, general⟩) n
    · obtain ⟨r, assigned⟩ := Option.ne_none_iff_exists'.mp vector
      obtain ⟨i, -, inst, found, rfl, member, -⟩ := (xmm_scanOk accepted).given assigned
      have candidate : Candidate f i inst := .inr (List.ne_nil_of_mem member)
      exact not_across (within i inst found candidate)
        (not_crosses_of_xmm member)
    · obtain ⟨i, -, inst, found, rfl, member, -⟩ := (gp_scanOk accepted).given general
      have candidate : Candidate f i inst := .inl (List.ne_nil_of_mem member)
      exact not_across (within i inst found candidate)
        (not_crosses_of_caller member caller)

theorem enteredAtDefinition_of_straight {f : Func} (accepted : verify f = .ok ())
    (straight : ∀ inst ∈ f.data, inst.op ≠ .br ∧ inst.op ≠ .brIf ∧ inst.op ≠ .copyStruct) :
    EnteredAtDefinition f := by
  refine (enteredAtDefinition_iff accepted).mpr fun i inst found candidate n live => ?_
  obtain ⟨given, -⟩ := candidate.hasInterval
  induction live with
  | use here =>
    obtain ⟨user, there, used⟩ := here
    refine ⟨?_, le_lastUse there (mem_operandFields given used)⟩
    -- The verifier asks for a definition before, and there is only one.
    have plain := (straight user (List.mem_of_getElem? there)).2.2
    rw [uses, if_neg plain, List.append_nil] at used
    obtain ⟨-, -, known⟩ := read_defined accepted there used
    obtain ⟨-, j, other, before, first, same⟩ := definedBefore_iff.mp known
    rwa [dst_unique accepted found first given same.symm]
  | step edge passes later ih =>
    obtain ⟨m, there, falls | ⟨jumps, -⟩⟩ := edge
    · have apart := mt (definesAt_iff accepted found given _).mpr passes
      obtain ⟨-, -, rfl⟩ := falls
      omega
    · have plain := straight m (List.mem_of_getElem? there)
      rcases jumps with br | brIf
      · exact absurd br plain.1
      · exact absurd brIf plain.2.1

/-- The sum of two locals. -/
def sumOfLocals : Func :=
  refreshMetadata
    { data := [{ op := .loadLocal, dst := 0, imm := 0 }, { op := .loadLocal, dst := 1, imm := 1 },
        { op := .addI64, dst := 2, a := 0, b := 1 }, { op := .ret, dst := -1, a := 2 }]
      nextValue := 3 }

/-- There the sum takes the register of its left operand, which is not live with it. -/
theorem respectsLiveness_sumOfLocals :
    valueReg sumOfLocals 0 = some 11 ∧ valueReg sumOfLocals 2 = some 11 ∧
      RespectsLiveness sumOfLocals :=
  ⟨by decide +kernel, by decide +kernel,
    allocateRegisters_respects rfl (enteredAtDefinition_of_straight rfl (by decide))⟩

/-- A loop that adds a value from before it to a local. -/
def addingLoop : Func :=
  refreshMetadata
    { data := [{ op := .loadLocal, dst := 0, imm := 0 }, { op := .label, dst := -1, imm := 0 },
        { op := .loadLocal, dst := 1, imm := 1 }, { op := .addI64, dst := 2, a := 0, b := 1 },
        { op := .storeLocal, dst := -1, a := 2, imm := 1 },
        { op := .loadLocal, dst := 3, imm := 2 }, { op := .brIf, dst := -1, a := 3, imm := 0 },
        { op := .ret, dst := -1, a := 3 }]
      nextValue := 4 }

theorem addingLoop_next {m : Nat} {inst : Inst} (found : addingLoop.data[m]? = some inst)
    (plain : inst.op ≠ .br ∧ inst.op ≠ .ret) : flows addingLoop m (m + 1) :=
  ⟨inst, found, .inl ⟨plain.1, plain.2, rfl⟩⟩

theorem addingLoop_back : flows addingLoop 6 1 :=
  ⟨_, rfl, .inr ⟨.inr rfl, _, rfl, rfl, rfl⟩⟩

theorem addingLoop_passes {v : Int} {m : Nat}
    (other : (addingLoop.data[m]?.any fun inst => inst.dst = v) = false) :
    ¬ definesAt addingLoop v m := by
  rintro ⟨inst, found, same⟩
  rw [found] at other
  simp [same] at other

theorem addingLoop_live : LiveAt addingLoop 0 4 :=
  .step (addingLoop_next rfl (by decide)) (addingLoop_passes (by decide)) <|
  .step (addingLoop_next rfl (by decide)) (addingLoop_passes (by decide)) <|
  .step addingLoop_back (addingLoop_passes (by decide)) <|
  .step (addingLoop_next rfl (by decide)) (addingLoop_passes (by decide)) <|
  .step (addingLoop_next rfl (by decide)) (addingLoop_passes (by decide)) <|
  .use ⟨_, rfl, by decide⟩

/-- The sum takes the register of the value from before the loop, which is live with it. -/
theorem not_respectsLiveness_addingLoop :
    verify addingLoop = .ok () ∧ ¬ RespectsLiveness addingLoop := by
  refine ⟨rfl, ?_⟩
  intro respects
  have left : valueReg addingLoop 0 = some 11 := by decide +kernel
  have right : valueReg addingLoop 2 = some 11 := by decide +kernel
  exact respects.general 0 2 11 (by decide) left right 4
    ⟨addingLoop_live, .use ⟨_, rfl, by decide⟩⟩

end Nytrix.Native
