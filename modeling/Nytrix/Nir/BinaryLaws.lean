import Nytrix.Nir.Binary

/-! The loader takes back what the writer wrote, and what it may yield at all. -/

namespace Nytrix.Nir

open Nytrix.Lib

theorem allOps_code (op : Op) : allOps[op.code]? = some op := by
  cases op <;> rfl

theorem allCmps_code (cmp : Cmp) : allCmps[cmp.code]? = some cmp := by
  cases cmp <;> rfl

theorem Op.code_lt (op : Op) : op.code < 256 ^ 2 := by
  cases op <;> decide

theorem Cmp.code_lt (cmp : Cmp) : cmp.code < 256 ^ 2 := by
  cases cmp <;> decide

/-- The value is one that the source's `int` holds. -/
def IsInt32 (v : Int) : Prop := -2 ^ 31 ≤ v ∧ v < 2 ^ 31

instance (v : Int) : Decidable (IsInt32 v) :=
  inferInstanceAs (Decidable (-2 ^ 31 ≤ v ∧ v < 2 ^ 31))

theorem reads_i32 {v : Int} (held : IsInt32 v) : Reads readI32 (writeI32 v) v := by
  obtain ⟨low, high⟩ := held
  refine .map (.le malformed (BitVec.isLt _)) ?_
  rw [BitVec.ofNat_toNat, BitVec.setWidth_eq, BitVec.toInt_ofInt]
  exact Int.bmod_eq_of_le (by omega) (by omega)

theorem reads_u32 (v : BitVec 32) : Reads readU32 (writeU32 v) v := by
  refine .map (.le malformed (BitVec.isLt _)) ?_
  rw [BitVec.ofNat_toNat, BitVec.setWidth_eq]

theorem reads_i64 (v : I64) : Reads readI64 (writeI64 v) v := by
  refine .map (.le malformed (BitVec.isLt _)) ?_
  rw [BitVec.ofNat_toNat, BitVec.setWidth_eq]

theorem reads_flag (flag : Bool) : Reads readFlag (writeFlag flag) flag := by
  cases flag
  · exact .map (.le malformed (by decide)) rfl
  · exact .map (.le malformed (by decide)) rfl

/-- A string of the source that a field of this length can hold. -/
def Fits (maxLen : Nat) (text : Option String) : Prop :=
  IsCString (text.getD "") ∧ (text.getD "").length ≤ maxLen

instance (maxLen : Nat) (text : Option String) : Decidable (Fits maxLen text) :=
  inferInstanceAs (Decidable (IsCString (text.getD "") ∧ (text.getD "").length ≤ maxLen))

theorem reads_str {maxLen : Nat} {text : Option String} (small : maxLen < 2 ^ 32)
    (fits : Fits maxLen text) : Reads (readStr maxLen) (writeStr text) (text.getD "") := by
  obtain ⟨proper, short⟩ := fits
  have exact' : (text.getD "").length % 2 ^ 32 = (text.getD "").length :=
    Nat.mod_eq_of_lt (by omega)
  rw [writeStr]
  simp only [exact']
  refine .bind (.le malformed (by omega)) (.unless (by omega) ?_)
  refine .map (.bytes malformed ?_) ?_
  · simp
  · rw [List.take_of_length_le (by simp)]
    exact cString_stringBytes proper

/-- The metadata that is written. -/
def Inst.details (inst : Inst) : Meta :=
  ⟨inst.effects, { inst.debug with file := ownText (inst.debug.file.getD "") }, inst.range⟩

theorem reads_meta {inst : Inst} (fits : Fits 4096 inst.debug.file) :
    Reads readMeta (writeMeta inst) inst.details :=
  .bind (reads_u32 _) <| .bind (reads_u32 _) <| .bind (reads_u32 _) <| .bind (reads_flag _) <|
    .bind (reads_flag _) <| .bind (reads_i64 _) <| .bind (reads_i64 _) <|
    .map (reads_str (by decide) fits) rfl

theorem reads_extra {args : List Int} (held : ∀ v ∈ args, IsInt32 v)
    (few : args.length ≤ callMaxArgs) : Reads readExtra (writeExtra args) args := by
  rw [callMaxArgs] at few
  refine .bind (.le malformed (by omega)) (.unless (by rw [callMaxArgs]; omega) ?_)
  exact .many fun v member => reads_i32 (held v member)

theorem reads_argSize (packed : BitVec 32) : Reads (readArgSize 7) (writeU32 packed) packed :=
  .map (reads_u32 packed) rfl

theorem reads_argSizes {inst : Inst} (placed : argSizesMisplaced inst = false)
    (whole : ∀ sizes ∈ inst.argSizes, sizes.length = inst.imm.toNat) :
    Reads (readArgSizes 7 inst.op.code inst.imm) (writeArgSizes inst.imm inst.argSizes)
      inst.argSizes := by
  cases given : inst.argSizes with
  | none => exact fun rest => rfl
  | some sizes =>
    have length := whole sizes given
    simp only [argSizesMisplaced, given, Option.isSome_some, Bool.true_and, Bool.or_eq_false_iff,
      decide_eq_false_iff_not, not_not, Int.not_le, Int.not_lt] at placed
    obtain ⟨⟨isCall, positive⟩, few⟩ := placed
    rw [callMaxArgs] at few
    have arity := toNat_of_nonneg (Int.le_of_lt positive)
    have cut : inst.imm.toNat % 2 ^ 32 = inst.imm.toNat := Nat.mod_eq_of_lt (by omega)
    rw [writeArgSizes, cut, List.take_of_length_le (by omega), ← length]
    refine .bind (.le malformed (by omega)) (.unless ?_ (.unless (by omega) ?_))
    · simp [isCall, length, callMaxArgs]
      omega
    · exact .map (.many fun packed _ => reads_argSize packed) rfl

/-- What the source's structure for an instruction can hold, its strings fitting their fields. -/
structure Inst.Holdable (inst : Inst) : Prop where
  dst : IsInt32 inst.dst
  operands : ∀ v ∈ inst.operands, IsInt32 v
  symbol : Fits 4096 inst.symbol
  file : Fits 4096 inst.debug.file
  argSizes : ∀ sizes ∈ inst.argSizes, sizes.length = inst.imm.toNat

instance (inst : Inst) : Decidable inst.Holdable :=
  decidable_of_iff
    (IsInt32 inst.dst ∧ (∀ v ∈ inst.operands, IsInt32 v) ∧ Fits 4096 inst.symbol ∧
      Fits 4096 inst.debug.file ∧ ∀ sizes ∈ inst.argSizes, sizes.length = inst.imm.toNat)
    ⟨fun ⟨dst, operands, symbol, file, sizes⟩ => ⟨dst, operands, symbol, file, sizes⟩,
      fun held => ⟨held.dst, held.operands, held.symbol, held.file, held.argSizes⟩⟩

/-- The instruction with its empty strings absent. -/
def Inst.dropEmpty (inst : Inst) : Inst :=
  { inst with
    symbol := ownText (inst.symbol.getD "")
    debug := { inst.debug with file := ownText (inst.debug.file.getD "") } }

/-- The function with its empty strings absent. -/
def Func.dropEmpty (f : Func) : Func := { f with data := f.data.map Inst.dropEmpty }

theorem reads_inst {inst : Inst} (held : inst.Holdable) (placed : argSizesMisplaced inst = false)
    (few : inst.extraArgs.length ≤ callMaxArgs) :
    Reads (readInst 7) (writeInst inst) inst.dropEmpty := by
  obtain ⟨dst, operands, symbol, file, sizes⟩ := held
  simp only [Inst.operands, List.forall_mem_cons] at operands
  obtain ⟨a, b, c, d, e, f, extra⟩ := operands
  refine .bind (.le malformed inst.op.code_lt) <| .bind (.le malformed inst.cmp.code_lt) <|
    .bind (reads_i32 dst) <| .bind (reads_i32 a) <| .bind (reads_i32 b) <|
    .bind (.when rfl (reads_i32 c)) <| .bind (.when rfl (reads_i32 d)) <|
    .bind (.when rfl (reads_i32 e)) <| .bind (.when rfl (reads_i32 f)) <| .bind (reads_i64 _) <|
    .bind (reads_u32 _) <| .bind (.when rfl (reads_meta file)) <|
    .bind (reads_str (by decide) symbol) <| .bind (.when rfl (reads_extra extra few)) ?_
  have last : Reads (readIf true (readArgSizes 7 inst.op.code inst.imm) none) _ _ :=
    .when rfl (reads_argSizes placed sizes)
  intro rest
  refine bind_ok_iff.mpr ⟨_, _, last rest, ?_⟩
  rw [allOps_code, allCmps_code]
  rfl

/-- The name that is written. -/
def writtenName (name : String) : String := if name = "" then "<anon>" else name

theorem writtenName_fits {name : String} (fits : Fits 1024 (some name)) :
    Fits 1024 (some (writtenName name)) := by
  unfold writtenName
  split
  · exact ⟨by decide, by decide⟩
  · exact fits

theorem reads_header {f : Func} {name : String} (fits : Fits 1024 (some name))
    (held : IsInt32 f.nextValue) (counted : 0 ≤ f.nextValue) (count : f.data.length < 2 ^ 32) :
    Reads readHeader (writeHeader f name)
      (7, writtenName name, f.nextValue, f.data.length) := by
  have limit : ((2 ^ 64 - 1) / instSize) % 2 ^ 32 = 2 ^ 32 - 1 := by decide
  refine .bind (.bytes malformed rfl) <| .unless (by simp) <| .bind (.le malformed (by decide)) <|
    .bind (.le malformed (by decide)) <| .unless (by decide) <| .unless (by decide) <|
    .bind (reads_str (by decide) (writtenName_fits fits)) <| .bind (reads_i32 held) ?_
  have last : Reads (readLe malformed 4) (leBytes 4 f.data.length) f.data.length :=
    .le malformed (by omega)
  intro rest
  refine bind_ok_iff.mpr ⟨_, _, last rest, ?_⟩
  rw [if_neg (by omega), if_neg (by rw [limit]; omega)]
  rfl

theorem argSizesMisplaced_of_verify {f : Func} (accepted : verify f = .ok ()) {inst : Inst}
    (member : inst ∈ f.data) : argSizesMisplaced inst = false := by
  obtain ⟨i, found⟩ := List.getElem?_of_mem member
  cases given : inst.argSizes with
  | none => simp [argSizesMisplaced, given]
  | some sizes =>
    have isCall : inst.op = .call := by
      by_contra other
      rw [(CommonOk.of_verify accepted found).argSizes other] at given
      cases given
    have formed := (OpOk.of_verify accepted found).wellFormed
    simp only [Inst.wellFormed, isCall, Op.shape, callWellFormed, given, Option.isSome_some,
      Bool.not_true, Bool.false_or, Bool.and_eq_true, decide_eq_true_eq] at formed
    simp only [argSizesMisplaced, given, isCall, Option.isSome_some, Bool.true_and]
    simp
    omega

theorem reads_func {f : Func} {name : String} (accepted : verify f = .ok ())
    (fits : Fits 1024 (some name)) (held : IsInt32 f.nextValue)
    (each : ∀ inst ∈ f.data, inst.Holdable) (count : f.data.length < 2 ^ 32)
    (few : ∀ inst ∈ f.data, inst.extraArgs.length ≤ callMaxArgs) :
    Reads readFunc (writeHeader f name ++ f.data.flatMap writeInst)
      (writtenName name, f.dropEmpty) := by
  have counted := (verify_ok_iff.mp accepted).1
  refine .bind (reads_header fits held counted count) (.map ?_ rfl)
  exact .manyMap fun inst member => reads_inst (each inst member)
    (argSizesMisplaced_of_verify accepted member) (few inst member)

@[simp] theorem ownText_getD (text : String) : (ownText text).getD "" = text := by
  unfold ownText
  split
  · next empty => rw [empty]; rfl
  · rfl

theorem dropEmpty_any (data : List Inst) (l : I64) :
    ((data.map Inst.dropEmpty).any fun inst => inst.op = .label && inst.imm = l) =
      data.any fun inst => inst.op = .label && inst.imm = l := by
  rw [List.any_map]
  rfl

theorem dropEmpty_followsCall (f : Func) (i : Nat) :
    followsCall f.dropEmpty i = followsCall f i := by
  cases i with
  | zero => rfl
  | succ j =>
    simp only [followsCall, Func.dropEmpty, List.getElem?_map]
    cases f.data[j]? <;> rfl

theorem dropEmpty_checks (f : Func) (defined : Int → Bool) (i : Nat) (inst : Inst) :
    commonChecks f.dropEmpty defined inst.dropEmpty ++ opChecks f.dropEmpty defined i inst.dropEmpty
      = commonChecks f defined inst ++ opChecks f defined i inst := by
  congr 1
  · simp only [commonChecks, Inst.dropEmpty, ownText_getD]
    rfl
  · simp only [opChecks, callChecks, dropEmpty_followsCall, labelExists]
    simp only [Func.dropEmpty, ← List.map_take, dropEmpty_any]
    simp only [Inst.dropEmpty, ownText_getD]
    rfl

theorem dropEmpty_verifyLoop (f : Func) (insts : List Inst) (i : Nat) (defined : Int → Bool) :
    verifyLoop f.dropEmpty (insts.map Inst.dropEmpty) i defined = verifyLoop f insts i defined := by
  induction insts generalizing i defined with
  | nil => rfl
  | cons inst rest ih =>
    simp only [List.map_cons, verifyLoop, dropEmpty_checks]
    split
    · rfl
    · exact ih _ _

theorem dropEmpty_constraintLoop (insts : List Inst) (i : Nat) (known : ConstTable) :
    constraintLoop (insts.map Inst.dropEmpty) i known = constraintLoop insts i known := by
  induction insts generalizing i known with
  | nil => rfl
  | cons inst rest ih =>
    simp only [List.map_cons, constraintLoop]
    have checks : constraintChecks known inst.dropEmpty = constraintChecks known inst := rfl
    rw [checks]
    split
    · rfl
    · exact ih _ _

theorem verify_dropEmpty (f : Func) : verify f.dropEmpty = verify f := by
  have loop := dropEmpty_verifyLoop f f.data 0 fun _ => false
  have scan := dropEmpty_constraintLoop f.data 0 fun _ => none
  unfold verify validateConstraints
  rw [show f.dropEmpty.data = f.data.map Inst.dropEmpty from rfl, loop, scan]
  rfl

theorem refreshInst_dropEmpty (inst : Inst) :
    refreshInst inst.dropEmpty = (refreshInst inst).dropEmpty := by
  have operands : normalizeOperands inst.dropEmpty = (normalizeOperands inst).dropEmpty := by
    unfold normalizeOperands
    cases shape : inst.op.shape
    all_goals simp only [Inst.dropEmpty, shape]
    rfl
  simp only [refreshInst, operands, apply_ite Inst.dropEmpty]
  rfl

theorem refreshMetadata_dropEmpty {f : Func} (refreshed : refreshMetadata f = f) :
    refreshMetadata f.dropEmpty = f.dropEmpty := by
  have data : f.data.map refreshInst = f.data := congrArg Func.data refreshed
  simp only [refreshMetadata, Func.dropEmpty, List.map_map, Func.mk.injEq, and_true]
  calc f.data.map (refreshInst ∘ Inst.dropEmpty)
      = (f.data.map refreshInst).map Inst.dropEmpty := by
        rw [List.map_map]
        exact List.map_congr_left fun inst _ => refreshInst_dropEmpty inst
    _ = f.data.map Inst.dropEmpty := by rw [data]

theorem readInst_few {version : Nat} {bytes rest : List UInt8} {inst : Inst}
    (done : readInst version bytes = .ok (inst, rest)) : inst.extraArgs.length ≤ callMaxArgs := by
  simp only [readInst, bind_ok_iff] at done
  obtain ⟨op, _, -, cmp, _, -, _, _, -, _, _, -, _, _, -, _, _, -, _, _, -, _, _, -, _, _, -, _, _,
    -, _, _, -, _, _, -, _, _, -, extra, _, read, _, _, -, built⟩ := done
  have few : extra.length ≤ callMaxArgs := by
    unfold readIf at read
    split at read
    · simp only [readExtra, bind_ok_iff] at read
      obtain ⟨n, _, -, read⟩ := read
      split at read
      · cases read
      · rw [readMany_length read]
        omega
    · obtain ⟨rfl, -⟩ := Prod.mk.inj (pure_ok_iff.mp read)
      exact Nat.zero_le _
  cases opFound : allOps[op]? with
  | none =>
    rw [opFound] at built
    cases built
  | some op =>
    cases cmpFound : allCmps[cmp]? with
    | none =>
      rw [opFound, cmpFound] at built
      cases built
    | some cmp =>
      rw [opFound, cmpFound] at built
      obtain ⟨rfl, -⟩ := Prod.mk.inj (pure_ok_iff.mp built)
      exact few

theorem readFunc_few {bytes rest : List UInt8} {name : String} {f : Func}
    (done : readFunc bytes = .ok ((name, f), rest)) :
    ∀ inst ∈ f.data, inst.extraArgs.length ≤ callMaxArgs := by
  simp only [readFunc, bind_ok_iff] at done
  obtain ⟨⟨version, _, _, count⟩, _, -, data, _, read, built⟩ := done
  obtain ⟨same, -⟩ := Prod.mk.inj (pure_ok_iff.mp built)
  obtain ⟨-, rfl⟩ := Prod.mk.inj same
  exact readMany_forall (fun _ _ _ done => readInst_few done) read

theorem loadBinary_ok_iff {nameLen : Nat} {bytes : List UInt8} {slots : LoadSlots} :
    (loadBinary nameLen bytes slots).1 = true ↔
      ∃ name f rest, readFunc bytes = .ok ((name, f), rest) ∧ verify f = .ok () := by
  unfold loadBinary
  split
  · next failed => simp [failed]
  · next read =>
    split
    · next rejected => simp [read, rejected]
    · next accepted => simp [read, accepted]

theorem loadBinary_func {nameLen : Nat} {bytes rest : List UInt8} {slots : LoadSlots}
    {name : String} {f : Func} (read : readFunc bytes = .ok ((name, f), rest))
    (accepted : verify f = .ok ()) :
    (loadBinary nameLen bytes slots).2.func = refreshMetadata f := by
  simp only [loadBinary, read, accepted]

theorem refreshInst_extraArgs (inst : Inst) :
    (refreshInst inst).extraArgs.length ≤ inst.extraArgs.length := by
  obtain ⟨r, eq, -⟩ := refreshInst_eq inst
  rw [eq]
  show (normalizeOperands inst).extraArgs.length ≤ _
  unfold normalizeOperands
  split
  all_goals first | exact Nat.le_refl _ | skip
  -- A call keeps a part of them.
  show (if _ then _ else _ : List Int).length ≤ _
  split
  · exact Nat.zero_le _
  · exact List.length_take_le' _ _

/-- Loading what was written succeeds and yields the same function, empty strings being absent. -/
def RoundTrips (f : Func) (name : String) (nameLen : Nat) (slots : LoadSlots) : Prop :=
  ∃ bytes, dumpBinary f name = some bytes ∧ (loadBinary nameLen bytes slots).1 = true ∧
    (loadBinary nameLen bytes slots).2.func.dropEmpty = f.dropEmpty

theorem RoundTrips.few {f : Func} {name : String} {nameLen : Nat} {slots : LoadSlots}
    (trip : RoundTrips f name nameLen slots) :
    ∀ inst ∈ f.data, inst.extraArgs.length ≤ callMaxArgs := by
  -- Whatever is loaded is within the limit, and what is loaded is the function.
  obtain ⟨bytes, -, done, same⟩ := trip
  obtain ⟨_, g, _, read, accepted⟩ := loadBinary_ok_iff.mp done
  rw [loadBinary_func read accepted] at same
  have data : (g.data.map refreshInst).map Inst.dropEmpty = f.data.map Inst.dropEmpty :=
    congrArg Func.data same
  intro inst member
  have image : inst.dropEmpty ∈ (g.data.map refreshInst).map Inst.dropEmpty := by
    rw [data]
    exact List.mem_map_of_mem member
  simp only [List.map_map, List.mem_map, Function.comp] at image
  obtain ⟨loaded, inside, eq⟩ := image
  calc inst.extraArgs.length
      = (refreshInst loaded).extraArgs.length := congrArg (fun i => i.extraArgs.length) eq.symm
    _ ≤ loaded.extraArgs.length := refreshInst_extraArgs loaded
    _ ≤ callMaxArgs := readFunc_few read loaded inside

theorem dropEmpty_idem (f : Func) : f.dropEmpty.dropEmpty = f.dropEmpty := by
  simp only [Func.dropEmpty, List.map_map, Func.mk.injEq, and_true]
  refine List.map_congr_left fun inst _ => ?_
  simp only [Function.comp, Inst.dropEmpty, ownText_getD]

/--
A function comes back from its binary form exactly when none of its instructions has more extra
arguments than a call may have.

The verifier asks this of calls only.
-/
theorem roundTrips_iff {f : Func} {name : String} {nameLen : Nat} {slots : LoadSlots}
    (accepted : verify f = .ok ()) (refreshed : refreshMetadata f = f)
    (fits : Fits 1024 (some name)) (held : IsInt32 f.nextValue)
    (each : ∀ inst ∈ f.data, inst.Holdable) (count : f.data.length < 2 ^ 32) :
    RoundTrips f name nameLen slots ↔ ∀ inst ∈ f.data, inst.extraArgs.length ≤ callMaxArgs := by
  constructor
  · exact RoundTrips.few
  · intro few
    have written : dumpBinary f name = some (writeHeader f name ++ f.data.flatMap writeInst) := by
      refine if_neg ?_
      rw [Bool.not_eq_true, List.any_eq_false]
      intro inst member
      rw [argSizesMisplaced_of_verify accepted member]
      decide
    have taken := reads_func accepted fits held each count few []
    rw [List.append_nil] at taken
    have passes : verify f.dropEmpty = .ok () := (verify_dropEmpty f).trans accepted
    refine ⟨_, written, loadBinary_ok_iff.mpr ⟨_, _, _, taken, passes⟩, ?_⟩
    rw [loadBinary_func taken passes, refreshMetadata_dropEmpty refreshed, dropEmpty_idem]

/-- A function that calls another with an aggregate. -/
def calledBinary : Func := refreshMetadata {
  data := [
    { op := .constI64, dst := 0, imm := 5, debug := { file := some "a.ny", line := 3 } },
    { op := .call, dst := 1, a := 0, imm := 1, symbol := some "sink",
      argSizes := some [0x03000018] },
    { op := .ret, dst := -1, a := 1 }]
  nextValue := 2 }

/-- It comes back. -/
theorem calledBinary_roundTrips : verify calledBinary = .ok () ∧
    RoundTrips calledBinary "main" 16 {} := by
  have accepted : verify calledBinary = .ok () := by decide +kernel
  refine ⟨accepted, (roundTrips_iff accepted (refreshMetadata_idem _) (by decide) (by decide)
    (by decide +kernel) (by decide)).mpr (by decide +kernel)⟩

/-- A function with extra arguments on an instruction that is no call. -/
def strayArgs : Func := refreshMetadata {
  data := [{ op := .nop, dst := -1, extraArgs := List.replicate 65 0 }] }

/-- It is accepted and does not come back. -/
theorem strayArgs_lost : verify strayArgs = .ok () ∧ refreshMetadata strayArgs = strayArgs ∧
    (∀ inst ∈ strayArgs.data, inst.Holdable) ∧ ¬ RoundTrips strayArgs "main" 16 {} := by
  refine ⟨by decide +kernel, refreshMetadata_idem _, by decide +kernel, ?_⟩
  intro trip
  exact absurd (trip.few _ (List.mem_singleton.mpr rfl)) (by decide)

end Nytrix.Nir
