import Mathlib
import Nytrix.Nir.VerifyLaws
import Nytrix.Native.X64

/-! Where the x86-64 backend keeps locals and values, and what else is in a frame. -/

namespace Nytrix.Native

open Nytrix.Nir

/-- What has a slot of its own: a local, by the number that instructions give it, or a value. -/
inductive Home where
  | ofLocal (number : Int)
  | ofValue (v : Int)
  deriving DecidableEq

/-- The opcodes that name a local. -/
def Op.namesLocal (op : Op) : Bool := op = .loadLocal || op = .storeLocal || op = .addrLocal

/--
What is given a slot in a function.

That is each local that an instruction names, unless the emitter rejects its number, and each value.
-/
inductive HasSlot (f : Func) : Home → Prop
  | ofLocal {inst : Inst} (found : inst ∈ f.data) (names : Op.namesLocal inst.op = true)
      (nonneg : 0 ≤ inst.imm.toInt) (taken : toCInt inst.imm < maxLocalSlot f) :
      HasSlot f (.ofLocal inst.imm.toInt)
  | ofValue {v : Int} (nonneg : 0 ≤ v) (bound : v < f.nextValue) : HasSlot f (.ofValue v)

/-- The index of a slot in the table of the emitter. -/
def NirCtx.slotOf (c : NirCtx) : Home → Int
  | .ofLocal number => number
  | .ofValue v => c.slot v

/-- The bytes of a slot, by their distance from the frame pointer. -/
def slotBytes (slot : Int) : Set Int := Set.Ico (-((slot + 1) * 8)) (-((slot + 1) * 8) + 8)

/-- The bytes where the prologue saves the frame pointer of the caller. -/
def savedRbp : Set Int := Set.Ico 0 8

/-- The bytes that the prologue pushes `rbx` to and the epilogue restores it from. -/
def savedRbx : Set Int := Set.Ico (-8) 0

/-- The bytes that the prologue reserves below the frame pointer, those of `rbx` among them. -/
def NirCtx.reserved (c : NirCtx) : Set Int :=
  Set.Ico (-8 - frameBytes (c.maxLocalSlot + c.nir.nextValue)) 0

/-- A layout in which nothing that has a slot shares a byte with anything else. -/
structure FrameSafe (c : NirCtx) : Prop where
  apart : ∀ home other, HasSlot c.nir home → HasSlot c.nir other → home ≠ other →
    Disjoint (slotBytes (c.slotOf home)) (slotBytes (c.slotOf other))
  reserved : ∀ home, HasSlot c.nir home → slotBytes (c.slotOf home) ⊆ c.reserved
  rbp : ∀ home, HasSlot c.nir home → Disjoint (slotBytes (c.slotOf home)) savedRbp
  rbx : ∀ home, HasSlot c.nir home → Disjoint (slotBytes (c.slotOf home)) savedRbx
  indexed : ∀ home, HasSlot c.nir home → c.slotOf home < nirMaxSlots

/--
A function whose layout works out.

It has no values at all, or the first slot is that of a local which no instruction names, the
numbers of its locals are positive as an `int`, and its locals and values fit in the table.
-/
def LeavesFirstSlot (f : Func) : Prop :=
  f.nextValue = 0 ∨
    (0 < maxLocalSlot f ∧ maxLocalSlot f + f.nextValue ≤ nirMaxSlots ∧
      ∀ inst ∈ f.data, Op.namesLocal inst.op = true → toCInt inst.imm < maxLocalSlot f →
        0 < inst.imm.toInt ∧ inst.imm.toInt < 2 ^ 31)

section Locals

theorem toCInt_of_small {imm : I64} (nonneg : 0 ≤ imm.toInt) (small : imm.toInt < 2 ^ 31) :
    toCInt imm = imm.toInt := by
  -- A number that is not negative is the same with and without a sign.
  have unsigned : imm.toInt = imm.toNat := by
    rw [BitVec.toInt_eq_toNat_cond] at nonneg ⊢
    split at nonneg <;> rename_i low
    · rw [if_pos low]
    · have := imm.isLt
      omega
  rw [unsigned] at small ⊢
  rw [toCInt, BitVec.toInt_setWidth, Int.bmod_eq_of_le (by omega) (by omega)]

theorem le_coverLocal (largest : Int) (inst : Inst) : largest ≤ coverLocal largest inst := by
  unfold coverLocal
  split
  case isTrue raised =>
    simp only [Bool.and_eq_true, decide_eq_true_eq] at raised
    exact raised.2.le
  case isFalse => exact le_refl _

theorem maxLocalSlot_nonneg (f : Func) : 0 ≤ maxLocalSlot f := by
  -- The largest local starts at -1 and is only raised.
  have raised : ∀ (insts : List Inst) (largest : Int),
      largest ≤ insts.foldl coverLocal largest := by
    intro insts
    induction insts with
    | nil => exact fun largest => le_refl _
    | cons inst rest rest_raised =>
      exact fun largest => (le_coverLocal largest inst).trans (rest_raised _)
  have start := raised f.data (-1)
  unfold maxLocalSlot
  omega

end Locals

section Verified

variable {f : Func}

theorem nextValue_pos_of_local (accepted : verify f = .ok ()) {inst : Inst}
    (found : inst ∈ f.data) (names : Op.namesLocal inst.op = true) : 0 < f.nextValue := by
  obtain ⟨i, bound, rfl⟩ := List.getElem_of_mem found
  have common := CommonOk.of_verify accepted (List.getElem?_eq_getElem bound)
  have own := OpOk.of_verify accepted (List.getElem?_eq_getElem bound)
  generalize f.data[i] = inst at *
  have well := own.wellFormed
  simp only [Op.namesLocal, Bool.or_eq_true, decide_eq_true_eq] at names
  rcases names with (load | store) | addr
  · -- A load defines a value.
    have dst := common.dstBelow
    simp only [Inst.wellFormed, load, Op.shape, Bool.and_eq_true, decide_eq_true_eq] at well
    omega
  · -- A store reads a value.
    have read := own.reads inst.a (by simp [Inst.reads, store, Op.shape])
    simp only [valueDefined, Bool.and_eq_true, decide_eq_true_eq] at read
    omega
  · -- An address is a value.
    have dst := common.dstBelow
    simp only [Inst.wellFormed, addr, Op.shape, Bool.and_eq_true, decide_eq_true_eq] at well
    omega

theorem not_hasSlot_of_noValues (accepted : verify f = .ok ()) (none : f.nextValue = 0)
    (home : Home) : ¬ HasSlot f home := by
  intro slot
  cases slot with
  | ofLocal found names => exact absurd (nextValue_pos_of_local accepted found names) (by omega)
  | ofValue nonneg bound => omega

theorem HasSlot.named {number : Int} (slot : HasSlot f (.ofLocal number)) :
    ∃ inst ∈ f.data, Op.namesLocal inst.op = true ∧ toCInt inst.imm < maxLocalSlot f ∧
      0 ≤ number ∧ inst.imm.toInt = number := by
  cases slot with
  | ofLocal found names nonneg taken => exact ⟨_, found, names, taken, nonneg, rfl⟩

end Verified

section Slots

variable {c : NirCtx}

theorem slotOf_value {v : Int} (nonneg : 0 ≤ v) (bound : v < c.nir.nextValue) :
    c.slotOf (.ofValue v) = c.maxLocalSlot + v := by
  have inside : (decide (v < 0) || decide (c.nir.nextValue ≤ v)) = false := by
    simp only [Bool.or_eq_false_iff, decide_eq_false_iff_not]
    omega
  simp only [NirCtx.slotOf, NirCtx.slot, inside, Bool.false_eq_true, if_false]

theorem slotBytes_disjoint {slot other : Int} (differ : slot ≠ other) :
    Disjoint (slotBytes slot) (slotBytes other) := by
  rw [slotBytes, slotBytes, Set.Ico_disjoint_Ico]
  omega

theorem slotBytes_disjoint_rbp {slot : Int} (nonneg : 0 ≤ slot) :
    Disjoint (slotBytes slot) savedRbp := by
  rw [slotBytes, savedRbp, Set.Ico_disjoint_Ico]
  omega

theorem slotBytes_disjoint_rbx {slot : Int} (nonneg : 0 ≤ slot) :
    Disjoint (slotBytes slot) savedRbx ↔ slot ≠ 0 := by
  rw [slotBytes, savedRbx, Set.Ico_disjoint_Ico]
  omega

theorem slotBytes_reserved {slot : Int} (nonneg : 0 ≤ slot)
    (bound : slot < c.maxLocalSlot + c.nir.nextValue) : slotBytes slot ⊆ c.reserved := by
  apply Set.Ico_subset_Ico
  · unfold frameBytes
    omega
  · omega

end Slots

section Layout

variable (target : Target) {f : Func} (name : Text)

@[simp] theorem nirCtx_maxLocalSlot : (nirCtx target f name).maxLocalSlot = maxLocalSlot f := rfl

@[simp] theorem nirCtx_nir : (nirCtx target f name).nir = f := rfl

/-- Where the first slot is left and the rest fits, nothing shares a byte with anything else. -/
theorem frameSafe_of_leaves (accepted : verify f = .ok ()) (leaves : LeavesFirstSlot f) :
    FrameSafe (nirCtx target f name) := by
  set c := nirCtx target f name with emitter
  have kept : c.nir = f := rfl
  have locals : c.maxLocalSlot = maxLocalSlot f := rfl
  rcases leaves with none | ⟨some, fits, numbers⟩
  · -- Nothing has a slot.
    have nothing := fun home => not_hasSlot_of_noValues accepted none home
    constructor <;> intro home
    case apart => exact fun _ slot => absurd slot (nothing home)
    all_goals exact fun slot => absurd slot (nothing home)
  -- A local is behind the first slot and before those of the values.
  have ofLocal : ∀ number, HasSlot f (.ofLocal number) → 0 < number ∧ number < maxLocalSlot f := by
    intro number slot
    obtain ⟨inst, found, names, taken, nonneg, rfl⟩ := slot.named
    obtain ⟨positive, small⟩ := numbers inst found names taken
    rw [toCInt_of_small nonneg small] at taken
    exact ⟨positive, taken⟩
  -- A value is behind the locals.
  have ofValue : ∀ v, HasSlot f (.ofValue v) →
      c.slotOf (.ofValue v) = maxLocalSlot f + v ∧ 0 ≤ v ∧ v < f.nextValue := by
    intro v slot
    cases slot with
    | ofValue nonneg bound => exact ⟨slotOf_value nonneg bound, nonneg, bound⟩
  have range : ∀ home, HasSlot f home →
      0 < c.slotOf home ∧ c.slotOf home < maxLocalSlot f + f.nextValue := by
    intro home slot
    cases home with
    | ofLocal number =>
      have bounds := ofLocal number slot
      have values := (verify_ok_iff.mp accepted).1
      simp only [NirCtx.slotOf]
      omega
    | ofValue v =>
      obtain ⟨place, nonneg, bound⟩ := ofValue v slot
      omega
  have differ : ∀ home other, HasSlot f home → HasSlot f other → home ≠ other →
      c.slotOf home ≠ c.slotOf other := by
    intro home other slot slot' distinct same
    cases home with
    | ofLocal number =>
      have bounds := ofLocal number slot
      cases other with
      | ofLocal number' => exact distinct (congrArg Home.ofLocal same)
      | ofValue v =>
        obtain ⟨place, nonneg, bound⟩ := ofValue v slot'
        simp only [NirCtx.slotOf] at same place
        omega
    | ofValue v =>
      obtain ⟨place, nonneg, bound⟩ := ofValue v slot
      cases other with
      | ofLocal number =>
        have bounds := ofLocal number slot'
        simp only [NirCtx.slotOf] at same place
        omega
      | ofValue v' =>
        obtain ⟨place', nonneg', bound'⟩ := ofValue v' slot'
        exact distinct (congrArg Home.ofValue (by omega))
  constructor
  case apart =>
    exact fun home other slot slot' distinct =>
      slotBytes_disjoint (differ home other slot slot' distinct)
  case reserved =>
    exact fun home slot => slotBytes_reserved (range home slot).1.le (range home slot).2
  case rbp => exact fun home slot => slotBytes_disjoint_rbp (range home slot).1.le
  case rbx =>
    exact fun home slot =>
      (slotBytes_disjoint_rbx (range home slot).1.le).2 (range home slot).1.ne'
  case indexed => exact fun home slot => (range home slot).2.trans_le fits

theorem leaves_of_frameSafe (accepted : verify f = .ok ())
    (safe : FrameSafe (nirCtx target f name)) : LeavesFirstSlot f := by
  have values := (verify_ok_iff.mp accepted).1
  have locals := maxLocalSlot_nonneg f
  by_cases none : f.nextValue = 0
  · exact .inl none
  have slotOf : ∀ v, 0 ≤ v → v < f.nextValue →
      (nirCtx target f name).slotOf (.ofValue v) = maxLocalSlot f + v :=
    fun v nonneg bound => slotOf_value (c := nirCtx target f name) nonneg bound
  refine .inr ⟨?_, ?_, ?_⟩
  · -- The first value would have the first slot if there were no locals.
    have first := safe.rbx (.ofValue 0) (.ofValue le_rfl (by simpa using by omega))
    rw [slotOf 0 le_rfl (by omega), slotBytes_disjoint_rbx (by omega)] at first
    omega
  · -- The last value has the last slot.
    have last := safe.indexed (.ofValue (f.nextValue - 1))
      (.ofValue (by omega) (by simpa using by omega))
    rw [slotOf _ (by omega) (by omega)] at last
    omega
  · intro inst found names taken
    have nonneg : 0 ≤ inst.imm.toInt := by
      obtain ⟨i, bound, rfl⟩ := List.getElem_of_mem found
      have well := (OpOk.of_verify accepted (List.getElem?_eq_getElem bound)).wellFormed
      generalize f.data[i] = inst at *
      simp only [Op.namesLocal, Bool.or_eq_true, decide_eq_true_eq] at names
      rcases names with (load | store) | addr
      · simp only [Inst.wellFormed, load, Op.shape, Bool.and_eq_true, decide_eq_true_eq] at well
        exact well.2
      · simpa only [Inst.wellFormed, store, Op.shape, decide_eq_true_eq] using well
      · simp only [Inst.wellFormed, addr, Op.shape, Bool.and_eq_true, decide_eq_true_eq] at well
        exact well.2
    have slot : HasSlot f (.ofLocal inst.imm.toInt) := .ofLocal found names nonneg taken
    have apart := safe.rbx _ slot
    rw [NirCtx.slotOf, slotBytes_disjoint_rbx nonneg] at apart
    have small := safe.indexed _ slot
    simp only [NirCtx.slotOf, nirMaxSlots] at small
    omega

/-- The layout of a verified function works out exactly if the first slot is left to `rbx`. -/
theorem frameSafe_iff (accepted : verify f = .ok ()) :
    FrameSafe (nirCtx target f name) ↔ LeavesFirstSlot f :=
  ⟨leaves_of_frameSafe target name accepted, frameSafe_of_leaves target name accepted⟩

end Layout

/-- A function that returns its second local. -/
def returnsSecond : Func where
  data := [initInstMetadata { op := .loadLocal, dst := 0, imm := 1 },
    initInstMetadata { op := .ret, dst := -1, a := 0 }]
  nextValue := 1

/-- The function that returns its second local leaves the first slot. -/
theorem frameSafe_returnsSecond :
    verify returnsSecond = .ok () ∧
      FrameSafe (nirCtx (targetInfo .elf false) returnsSecond (text "second")) := by
  refine ⟨by rfl, (frameSafe_iff _ _ (by rfl)).2 (.inr ⟨by decide, by decide, ?_⟩)⟩
  intro inst found names taken
  simp only [returnsSecond, List.mem_cons, List.not_mem_nil, or_false] at found
  rcases found with rfl | rfl
  · exact ⟨by decide, by decide⟩
  · exact absurd names (by decide)

/-- A function that returns a constant. -/
def returnsFive : Func where
  data := [initInstMetadata { op := .constI64, dst := 0, imm := 5 },
    initInstMetadata { op := .ret, dst := -1, a := 0 }]
  nextValue := 1

/--
The constant is stored where `rbx` is saved.

The text of the function stores to that place, and what the caller has in `rbx` is lost.
-/
theorem not_frameSafe_returnsFive :
    verify returnsFive = .ok () ∧
      ¬ FrameSafe (nirCtx (targetInfo .elf false) returnsFive (text "five")) ∧
      ∃ lines, emitNir (targetInfo .elf false) returnsFive (text "five") false = .ok lines ∧
        Line.inst .movq [Reg.rax.op, .mem (-8) .rbp] ∈ lines ∧
        Line.inst .movq [.mem (-8) .rbp, Reg.rbx.op] ∈ lines := by
  refine ⟨by rfl, ?_, _, rfl, by decide, by decide⟩
  intro safe
  have overlap := safe.rbx (.ofValue 0) (.ofValue (by decide) (by decide))
  rw [show (nirCtx (targetInfo .elf false) returnsFive (text "five")).slotOf (.ofValue 0) = 0 by
    decide, slotBytes_disjoint_rbx le_rfl] at overlap
  exact overlap rfl

end Nytrix.Native
