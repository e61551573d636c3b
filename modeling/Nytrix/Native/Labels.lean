import Mathlib
import Nytrix.Lower.Build
import Nytrix.Native.X64
import Nytrix.Nir.EvalLaws

/-! Assembly files: what is printed of a program, the labels in it, and when two of them collide. -/

namespace Nytrix.Native

open Nytrix.Nir Nytrix.Lower Nytrix.Lib

/-- The name that a statement declares as a function. -/
def funcName : Stmt → String
  | .func name _ _ _ => name
  | _ => "unknown_fn"

/-- The label of the function at a position, by the name of the declaration at that position. -/
def funcLabel (prog : List Stmt) (i : Nat) : Text :=
  snprintf 256 (text "ny_fn_" ++ text (((functions prog)[i]?.map funcName).getD "unknown_fn"))

/-- The name of the entry, unless none is given. -/
def entryLabel (entryName : String) : Text :=
  if entryName = "" then rtMain else text entryName

/-- A function that is to be printed under a name, and whether it tags what it returns. -/
structure Part where
  name : Text
  nir : Func
  tagReturn : Bool := false
  deriving DecidableEq

/-- What is printed of a program that is lowered: its functions, and then its entry. -/
def parts (prog : List Stmt) (built : Built) (entryName : String) (tagReturn : Bool) :
    List Part :=
  (built.funcs.zipIdx.map fun entry => { name := funcLabel prog entry.2, nir := entry.1 }) ++
    [{ name := entryLabel entryName, nir := built.rtMain, tagReturn := tagReturn }]

/-- The texts of the parts, each on its own. -/
def emitParts (target : Target) : List Part → Except EmitError (List (List Line))
  | [] => .ok []
  | part :: rest => do
    let lines ← emitNir target part.nir part.name part.tagReturn
    return lines :: (← emitParts target rest)

/-- Why a lowering prints nothing. -/
def ofLowerError : LowerError → EmitError
  | .overflow => .undefined
  | .fail text => .fail text

/--
The assembly text of a program on the path through NYIR, function by function.

Where it fails the source prints from the syntax tree instead.
-/
def emitAsmEntry (buildExternTable : List Stmt → Except String (List ExternEntry))
    (target : Target) (prog : List Stmt) (entryName : String) (tagReturn : Bool) :
    Except EmitError (List (List Line)) :=
  match buildNir buildExternTable prog 64 "" with
  | .error err => .error (ofLowerError err)
  | .ok built =>
    if built.rtMain.data = [] then .error (.fail "")
    else emitParts target (parts prog built entryName tagReturn)

/-- Whether an opcode compares floats. -/
def isFloatCmp (op : Op) : Bool := op = .cmpF64 || op = .cmpF32

/-- The labels that the text of an instruction defines. -/
def instDefines (inst : Inst) : List Text :=
  if inst.op = .label then [nirLabel inst.imm]
  else if isFloatCmp inst.op then [unorderedLabel inst.dst, doneLabel inst.dst]
  else []

/-- The labels that the text of an instruction jumps to. -/
def instRefers (epilogue : Text) (inst : Inst) : List Text :=
  if inst.op = .br || inst.op = .brIf then [nirLabel inst.imm]
  else if isFloatCmp inst.op then [unorderedLabel inst.dst, doneLabel inst.dst]
  else if inst.op = .ret then [epilogue]
  else []

/-- A text with neither labels nor jumps. -/
def Quiet (lines : List Line) : Prop := defines lines = [] ∧ refers lines = []

/-- An emitter whose text has neither labels nor jumps. -/
def EmitsQuiet (e : Emitted) : Prop := ∀ lines, e = .ok lines → Quiet lines

theorem quiet_nil : Quiet [] := ⟨rfl, rfl⟩

theorem quiet_ins (mnemonic : Mnemonic) (operands : List Operand) : Quiet (ins mnemonic operands) :=
  ⟨rfl, rfl⟩

theorem Quiet.append {left right : List Line} (first : Quiet left) (second : Quiet right) :
    Quiet (left ++ right) := by
  constructor
  · rw [defines_append, first.1, second.1, List.nil_append]
  · rw [refers_append, first.2, second.2, List.nil_append]

theorem EmitsQuiet.ok {lines : List Line} (quiet : Quiet lines) : EmitsQuiet (.ok lines) := by
  intro other same
  exact Except.ok.inj same ▸ quiet

theorem EmitsQuiet.pure {lines : List Line} (quiet : Quiet lines) :
    EmitsQuiet (Pure.pure lines) := .ok quiet

theorem EmitsQuiet.error (err : EmitError) : EmitsQuiet (.error err) := by
  intro lines same
  cases same

theorem EmitsQuiet.bind {x : Emitted} {f : List Line → Emitted} (first : EmitsQuiet x)
    (rest : ∀ lines, Quiet lines → EmitsQuiet (f lines)) : EmitsQuiet (x >>= f) := by
  intro lines done
  obtain ⟨before, began, ended⟩ := bind_eq_ok_iff.mp done
  exact rest before (first before began) lines ended

theorem EmitsQuiet.ite {p : Prop} [Decidable p] {x y : Emitted} (yes : EmitsQuiet x)
    (no : EmitsQuiet y) : EmitsQuiet (if p then x else y) := by
  split
  · exact yes
  · exact no

theorem emitAll_quiet {α : Type} {emit : α → Emitted} (each : ∀ x, EmitsQuiet (emit x))
    (xs : List α) : EmitsQuiet (emitAll emit xs) := by
  induction xs with
  | nil => exact .ok quiet_nil
  | cons x rest ih =>
    exact .bind (each x) fun _ head => .bind ih fun _ tail => .pure (head.append tail)

theorem withSlot_quiet {slot : Int} {lines : Operand → List Line} (quiet : ∀ m, Quiet (lines m)) :
    EmitsQuiet (withSlot slot lines) := .ite (.error _) (.ok (quiet _))

section Quiet

variable (c : NirCtx) (inst : Inst)

theorem load_quiet (v : Int) : EmitsQuiet (c.load v) := withSlot_quiet fun _ => quiet_ins _ _

theorem store_quiet (v : Int) : EmitsQuiet (c.store v) := withSlot_quiet fun _ => quiet_ins _ _

theorem loadXmm_quiet (v : Int) (xmm : Nat) : EmitsQuiet (c.loadXmm v xmm) :=
  withSlot_quiet fun _ => quiet_ins _ _

theorem storeXmm_quiet (v : Int) : EmitsQuiet (c.storeXmm v) :=
  withSlot_quiet fun _ => quiet_ins _ _

theorem loadXmmF32_quiet (v : Int) (xmm : Nat) : EmitsQuiet (c.loadXmmF32 v xmm) :=
  withSlot_quiet fun _ => quiet_ins _ _

theorem storeXmmF32_quiet (v : Int) : EmitsQuiet (c.storeXmmF32 v) :=
  withSlot_quiet fun _ => quiet_ins _ _

theorem unop_quiet (v : Int) {lines : List Line} (quiet : Quiet lines) :
    EmitsQuiet (c.unop inst v lines) :=
  .bind (load_quiet c v) fun _ head => .bind (store_quiet c _) fun _ tail =>
    .pure ((head.append quiet).append tail)

theorem loadPair_quiet : EmitsQuiet (c.loadPair inst) :=
  .bind (load_quiet c _) fun _ left => .bind (load_quiet c _) fun _ right =>
    .pure ((((left.append (quiet_ins _ _)).append right).append (quiet_ins _ _)).append
      (quiet_ins _ _))

theorem binop_quiet {lines : List Line} (quiet : Quiet lines) : EmitsQuiet (c.binop inst lines) :=
  .bind (loadPair_quiet c inst) fun _ head => .bind (store_quiet c _) fun _ tail =>
    .pure ((head.append quiet).append tail)

theorem commutative_quiet (mnemonic : Mnemonic) : EmitsQuiet (c.commutative inst mnemonic) := by
  unfold NirCtx.commutative
  split
  · exact unop_quiet c inst _ (quiet_ins _ _)
  · split
    · exact unop_quiet c inst _ (quiet_ins _ _)
    · exact binop_quiet c inst (quiet_ins _ _)

theorem shift_quiet (mnemonic : Mnemonic) : EmitsQuiet (c.shift inst mnemonic) := by
  unfold NirCtx.shift
  split
  · exact unop_quiet c inst _ (quiet_ins _ _)
  · exact binop_quiet c inst ((quiet_ins _ _).append (quiet_ins _ _))

theorem emitSub_quiet : EmitsQuiet (c.emitSub inst) := by
  unfold NirCtx.emitSub
  split
  · exact unop_quiet c inst _ (quiet_ins _ _)
  · exact binop_quiet c inst (quiet_ins _ _)

theorem cmpText_quiet (right : Operand) : Quiet (cmpText inst right) :=
  ((quiet_ins _ _).append (quiet_ins _ _)).append (quiet_ins _ _)

theorem emitCmp_quiet : EmitsQuiet (c.emitCmp inst) := by
  unfold NirCtx.emitCmp
  split
  · exact unop_quiet c inst _ (cmpText_quiet inst _)
  · exact binop_quiet c inst (cmpText_quiet inst _)

theorem arithF64_quiet (mnemonic : Mnemonic) : EmitsQuiet (c.arithF64 inst mnemonic) :=
  .bind (loadXmm_quiet c _ _) fun _ left => .ite (.error _)
    (.bind (storeXmm_quiet c _) fun _ tail => .pure ((left.append (quiet_ins _ _)).append tail))

theorem arithF32_quiet (mnemonic : Mnemonic) : EmitsQuiet (c.arithF32 inst mnemonic) :=
  .bind (loadXmmF32_quiet c _ _) fun _ left => .ite (.error _)
    (.bind (storeXmmF32_quiet c _) fun _ tail => .pure ((left.append (quiet_ins _ _)).append tail))

theorem withLocal_quiet (what : String) {lines : Int → Emitted}
    (each : ∀ slot, EmitsQuiet (lines slot)) : EmitsQuiet (c.withLocal inst what lines) :=
  .ite (.error _) (.ite (.error _) (each _))

theorem onlyDst_quiet {lines : Emitted} (quiet : EmitsQuiet lines) :
    EmitsQuiet (onlyDst inst lines) := .ite (.ok quiet_nil) quiet

theorem adjustStack_quiet (mnemonic : Mnemonic) (bytes : Nat) :
    Quiet (adjustStack mnemonic bytes) := by
  unfold adjustStack
  split
  · exact quiet_nil
  · exact quiet_ins _ _

theorem pushArg_quiet (arg : ArgPlace × Int) : EmitsQuiet (c.pushArg arg) := by
  unfold NirCtx.pushArg
  split
  · exact .ok quiet_nil
  · exact .ok quiet_nil
  · exact .ok quiet_nil
  · -- An aggregate is copied to the words that were made for it.
    exact .bind (load_quiet c _) fun _ loaded => .pure
      ((((((quiet_ins _ _).append loaded).append (quiet_ins _ _)).append
        (quiet_ins _ _)).append (quiet_ins _ _)).append (quiet_ins _ _))
  · exact .bind (loadXmm_quiet c _ _) fun _ loaded => .pure
      ((loaded.append (quiet_ins _ _)).append (quiet_ins _ _))
  · exact .bind (loadXmmF32_quiet c _ _) fun _ loaded => .pure
      ((loaded.append (quiet_ins _ _)).append (quiet_ins _ _))
  · exact .bind (load_quiet c _) fun _ loaded => .pure (loaded.append (quiet_ins _ _))

theorem loadChunk_quiet (offset : Int) (chunk : Chunk) : Quiet (c.loadChunk offset chunk) := by
  cases chunk with
  | none => exact quiet_nil
  | gp index => exact quiet_ins _ _
  | sse index => exact quiet_ins _ _

theorem loadArg_quiet (arg : ArgPlace × Int) : EmitsQuiet (c.loadArg arg) := by
  unfold NirCtx.loadArg
  split
  · exact .ok quiet_nil
  · exact .ok quiet_nil
  · exact .bind (load_quiet c _) fun _ loaded => .pure
      ((loaded.append (loadChunk_quiet c _ _)).append (loadChunk_quiet c _ _))
  · exact loadXmmF32_quiet c _ _
  · exact loadXmm_quiet c _ _
  · exact .bind (load_quiet c _) fun _ loaded => .pure (loaded.append (quiet_ins _ _))

theorem passArgs_quiet {lines : List Line} {words : Nat}
    (done : c.passArgs inst = .ok (lines, words)) : Quiet lines := by
  simp only [NirCtx.passArgs, bind_eq_ok_iff, pure_eq_ok_iff] at done
  obtain ⟨pushed, pushes, loaded, loads, same⟩ := done
  obtain ⟨rfl, -⟩ := Prod.mk.inj same
  exact ((adjustStack_quiet _ _).append (emitAll_quiet (pushArg_quiet c) _ _ pushes)).append
    (emitAll_quiet (loadArg_quiet c) _ _ loads)

theorem storeResult_quiet : EmitsQuiet (c.storeResult inst) :=
  .ite (.ok quiet_nil) (.ite (storeXmm_quiet c _) (.ite (storeXmmF32_quiet c _) (store_quiet c _)))

theorem emitCall_quiet : EmitsQuiet (c.emitCall inst) := by
  refine .ite (.error _) (.ite (.error _) ?_)
  intro lines done
  obtain ⟨⟨passed, words⟩, passes, done⟩ := bind_eq_ok_iff.mp done
  obtain ⟨stored, stores, done⟩ := bind_eq_ok_iff.mp done
  rw [← pure_eq_ok_iff.mp done]
  have called : Quiet [.call (c.callLabel inst)] := ⟨rfl, rfl⟩
  have front := ((passArgs_quiet c inst passes).append
    (adjustStack_quiet .subq c.target.shadowSpaceBytes)).append called
  exact ((front.append (adjustStack_quiet _ _)).append (adjustStack_quiet _ _)).append
    (storeResult_quiet c inst _ stores)

theorem loadReturn_quiet (v : Int) : EmitsQuiet (c.loadReturn v) :=
  .ite (.ok (quiet_ins _ _))
    (.ite (loadXmm_quiet c _ _) (.ite (loadXmmF32_quiet c _ _) (load_quiet c _)))

theorem captureRet_quiet (selector : Int) : EmitsQuiet (captureRet selector) :=
  .ite (.ok (quiet_ins _ _)) (.ite (.ok quiet_nil)
    (.ite (.ok (quiet_ins _ _)) (.ite (.ok (quiet_ins _ _)) (.error _))))

end Quiet

/-- Whether the text of an opcode has a label or a jump. -/
def Op.isLoud (op : Op) : Bool :=
  op = .label || op = .br || op = .brIf || op = .ret || isFloatCmp op

/-- The other opcodes print neither labels nor jumps. -/
theorem emitInst_quiet {c : NirCtx} {inst : Inst} (plain : Op.isLoud inst.op = false) :
    EmitsQuiet (c.emitInst inst) := by
  have i := quiet_ins
  have l := load_quiet c
  have s := store_quiet c
  unfold NirCtx.emitInst
  cases kind : inst.op with
  | label => simp [Op.isLoud, kind] at plain
  | br => simp [Op.isLoud, kind] at plain
  | brIf => simp [Op.isLoud, kind] at plain
  | ret => simp [Op.isLoud, kind] at plain
  | cmpF64 => simp [Op.isLoud, isFloatCmp, kind] at plain
  | cmpF32 => simp [Op.isLoud, isFloatCmp, kind] at plain
  | nop => exact .ok quiet_nil
  | constI64 | constF64 | constF32 =>
    exact onlyDst_quiet inst
      (.ite (.error _) (.bind (s _) fun _ tail => .pure ((i _ _).append tail)))
  | copy =>
    exact onlyDst_quiet inst
      (.bind (l _) fun _ head => .bind (s _) fun _ tail => .pure (head.append tail))
  | loadLocal =>
    refine onlyDst_quiet inst (withLocal_quiet c inst _ fun slot => ?_)
    exact .bind (withSlot_quiet fun _ => i _ _) fun _ head => .bind (s _) fun _ tail =>
      .pure (head.append tail)
  | addrLocal =>
    exact onlyDst_quiet inst (withLocal_quiet c inst _ fun slot =>
      .bind (s _) fun _ tail => .pure ((i _ _).append tail))
  | addrSymbol =>
    exact onlyDst_quiet inst
      (.ite (.error _) (.bind (s _) fun _ tail => .pure ((i _ _).append tail)))
  | alloca =>
    exact onlyDst_quiet inst (.bind (s _) fun _ tail =>
      .pure ((((i _ _).append (i _ _)).append (i _ _)).append tail))
  | copyStruct =>
    refine .ite (.ok quiet_nil) (.bind (l _) fun _ source => .bind (l _) fun _ target => .pure ?_)
    exact ((((source.append (i _ _)).append target).append (i _ _)).append (i _ _)).append (i _ _)
  | captureRet =>
    exact onlyDst_quiet inst (.bind (captureRet_quiet _) fun _ head =>
      .bind (s _) fun _ tail => .pure (head.append tail))
  | storeLocal =>
    refine withLocal_quiet c inst _ fun slot => .bind (l _) fun _ head => ?_
    exact .bind (withSlot_quiet fun _ => i _ _) fun _ tail => .pure (head.append tail)
  | loadI64 => exact unop_quiet c inst _ (i _ _)
  | storeI64 =>
    refine .bind (l _) fun _ value => .bind (l _) fun _ pointer => .pure ?_
    exact (((value.append (i _ _)).append pointer).append (i _ _)).append (i _ _)
  | addI64 | mulI64 | andI64 | orI64 | xorI64 => exact commutative_quiet c inst _
  | subI64 => exact emitSub_quiet c inst
  | divI64 => exact binop_quiet c inst ((i _ _).append (i _ _))
  | modI64 => exact binop_quiet c inst (((i _ _).append (i _ _)).append (i _ _))
  | shlI64 | sarI64 => exact shift_quiet c inst _
  | cmpI64 => exact emitCmp_quiet c inst
  | addF64 | subF64 | mulF64 | divF64 => exact arithF64_quiet c inst _
  | addF32 | subF32 | mulF32 | divF32 => exact arithF32_quiet c inst _
  | i64ToF64 =>
    exact .bind (l _) fun _ head => .bind (storeXmm_quiet c _) fun _ tail =>
      .pure ((head.append (i _ _)).append tail)
  | i64ToF32 =>
    exact .bind (l _) fun _ head => .bind (storeXmmF32_quiet c _) fun _ tail =>
      .pure ((head.append (i _ _)).append tail)
  | f32ToF64 =>
    exact .bind (loadXmmF32_quiet c _ _) fun _ head => .bind (storeXmm_quiet c _) fun _ tail =>
      .pure ((head.append (i _ _)).append tail)
  | f64ToF32 =>
    exact .bind (loadXmm_quiet c _ _) fun _ head => .bind (storeXmmF32_quiet c _) fun _ tail =>
      .pure ((head.append (i _ _)).append tail)
  | call => exact emitCall_quiet c inst

theorem fcmp_labels {c : NirCtx} {inst : Inst} {operands : List Line} {mnemonic : Mnemonic}
    {lines : List Line} (quiet : Quiet operands)
    (done : c.fcmp inst operands mnemonic = .ok lines) :
    defines lines = [unorderedLabel inst.dst, doneLabel inst.dst] ∧
      refers lines = [unorderedLabel inst.dst, doneLabel inst.dst] ∧ 0 ≤ inst.dst := by
  obtain ⟨stored, stores, done⟩ := bind_eq_ok_iff.mp done
  have there : 0 ≤ inst.dst := by
    -- A negative destination has no slot, so that nothing could be stored there.
    by_contra negative
    have none : c.slot inst.dst = -1 := by simp [NirCtx.slot, show inst.dst < 0 by omega]
    simp [NirCtx.store, storeSlot, withSlot, none] at stores
  have last := store_quiet c _ _ stores
  rw [← pure_eq_ok_iff.mp done]
  refine ⟨?_, ?_, there⟩
  · simp only [defines_append, quiet.1, last.1]
    rfl
  · simp only [refers_append, quiet.2, last.2]
    rfl

theorem emitInst_labels {c : NirCtx} {inst : Inst} {lines : List Line}
    (done : c.emitInst inst = .ok lines) :
    defines lines = instDefines inst ∧ refers lines = instRefers c.epilogueLabel inst ∧
      (isFloatCmp inst.op = true → 0 ≤ inst.dst) := by
  cases loud : Op.isLoud inst.op with
  | false =>
    obtain ⟨noLabels, noJumps⟩ := emitInst_quiet loud lines done
    simp only [Op.isLoud, Bool.or_eq_false_iff, decide_eq_false_iff_not] at loud
    obtain ⟨⟨⟨⟨label, br⟩, brIf⟩, ret⟩, cmp⟩ := loud
    simp [instDefines, instRefers, noLabels, noJumps, label, br, brIf, ret, cmp]
  | true =>
    simp only [Op.isLoud, isFloatCmp, Bool.or_eq_true, decide_eq_true_eq] at loud
    rcases loud with (((kind | kind) | kind) | kind) | (kind | kind)
    · simp only [NirCtx.emitInst, kind] at done
      cases done
      simp [instDefines, instRefers, kind, isFloatCmp, defines, refers, Line.defines, Line.refers]
    · simp only [NirCtx.emitInst, kind] at done
      cases done
      simp [instDefines, instRefers, kind, isFloatCmp, defines, refers, Line.defines, Line.refers]
    · simp only [NirCtx.emitInst, kind, bind_eq_ok_iff, pure_eq_ok_iff] at done
      obtain ⟨loaded, loads, rfl⟩ := done
      have quiet := (load_quiet c _ _ loads).append (quiet_ins .testq [Reg.rax.op, Reg.rax.op])
      rw [defines_append, refers_append, quiet.1, quiet.2]
      simp [instDefines, instRefers, kind, isFloatCmp, defines, refers, Line.defines, Line.refers]
    · simp only [NirCtx.emitInst, kind, bind_eq_ok_iff, pure_eq_ok_iff] at done
      obtain ⟨loaded, loads, rfl⟩ := done
      have quiet := loadReturn_quiet c _ _ loads
      rw [defines_append, refers_append, quiet.1, quiet.2]
      simp [instDefines, instRefers, kind, isFloatCmp, defines, refers, Line.defines, Line.refers]
    · simp only [NirCtx.emitInst, kind, bind_eq_ok_iff] at done
      obtain ⟨left, lefts, right, rights, done⟩ := done
      have quiet := (loadXmm_quiet c _ _ _ lefts).append (loadXmm_quiet c _ _ _ rights)
      obtain ⟨labels, jumps, there⟩ := fcmp_labels quiet done
      simp [instDefines, instRefers, kind, isFloatCmp, labels, jumps, there]
    · simp only [NirCtx.emitInst, kind, bind_eq_ok_iff] at done
      obtain ⟨left, lefts, right, rights, done⟩ := done
      have quiet := (loadXmmF32_quiet c _ _ _ lefts).append (loadXmmF32_quiet c _ _ _ rights)
      obtain ⟨labels, jumps, there⟩ := fcmp_labels quiet done
      simp [instDefines, instRefers, kind, isFloatCmp, labels, jumps, there]

theorem homeParam_quiet (c : NirCtx) (i : Int) (s : ArgState) : Quiet (c.homeParam i s).1 := by
  simp only [NirCtx.homeParam]
  split
  · exact quiet_ins _ _
  · split
    · exact quiet_ins _ _
    · exact (quiet_ins _ _).append (quiet_ins _ _)

theorem homeParams_quiet (c : NirCtx) (param : Int → Bool) (locals : List Nat) (s : ArgState) :
    Quiet (c.homeParams param locals s) := by
  induction locals generalizing s with
  | nil => exact quiet_nil
  | cons i rest ih =>
    rw [NirCtx.homeParams]
    split
    · exact (homeParam_quiet c i s).append (ih _)
    · exact ih s

theorem prologue_quiet (c : NirCtx) (name : Text) : Quiet (c.prologue name) := by
  unfold NirCtx.prologue
  refine Quiet.append ⟨rfl, rfl⟩ ?_
  split
  · exact quiet_nil
  · exact homeParams_quiet c _ _ _

theorem emitAll_labels {c : NirCtx} {data : List Inst} {lines : List Line}
    (done : emitAll c.emitInst data = .ok lines) :
    defines lines = data.flatMap instDefines ∧
      refers lines = data.flatMap (instRefers c.epilogueLabel) ∧
      ∀ inst ∈ data, isFloatCmp inst.op = true → 0 ≤ inst.dst := by
  induction data generalizing lines with
  | nil =>
    cases done
    exact ⟨rfl, rfl, by simp⟩
  | cons inst rest ih =>
    simp only [emitAll, bind_eq_ok_iff, pure_eq_ok_iff] at done
    obtain ⟨head, first, tail, others, rfl⟩ := done
    obtain ⟨labels, jumps, there⟩ := emitInst_labels first
    obtain ⟨moreLabels, moreJumps, allThere⟩ := ih others
    refine ⟨by simp [labels, moreLabels], by simp [jumps, moreJumps], ?_⟩
    intro other member
    rcases List.mem_cons.mp member with rfl | member
    · exact there
    · exact allThere other member

/-- The name a part is printed under. -/
def Part.printedName (p : Part) : Text := if p.name = [] then rtMain else p.name

/-- The symbol of a part. -/
def Part.symbol (target : Target) (p : Part) : Text :=
  text target.symbolPrefix ++ p.printedName

/-- The label of a part's epilogue, with what fits of the name. -/
def Part.epilogueLabel (p : Part) : Text :=
  text ".Lny_nir_epilogue_" ++ p.printedName.take 109

/-- The labels inside a part. -/
def Part.localLabels (p : Part) : List Text := p.nir.data.flatMap instDefines ++ [p.epilogueLabel]

/-- The labels of a part, its symbol first. -/
def Part.labels (target : Target) (p : Part) : List Text := p.symbol target :: p.localLabels

theorem header_defines (target : Target) (symbol : Text) :
    defines (header target symbol) = [symbol] := by
  unfold header
  split <;> rfl

theorem header_refers (target : Target) (symbol : Text) : refers (header target symbol) = [] := by
  unfold header
  split <;> rfl

theorem epilogue_defines (target : Target) (symbol label : Text) (tagReturn : Bool) :
    defines (epilogue target symbol label tagReturn) = [label] := by
  unfold epilogue
  cases tagReturn <;> cases target.isMacho <;> rfl

theorem epilogue_refers (target : Target) (symbol label : Text) (tagReturn : Bool) :
    refers (epilogue target symbol label tagReturn) = [] := by
  unfold epilogue
  cases tagReturn <;> cases target.isMacho <;> rfl

theorem epilogueLabel_eq (target : Target) (p : Part) :
    (nirCtx target p.nir p.printedName).epilogueLabel = p.epilogueLabel := rfl

theorem emitNir_ok {target : Target} {p : Part} {lines : List Line}
    (done : emitNir target p.nir p.name p.tagReturn = .ok lines) :
    ∃ body, emitAll (nirCtx target p.nir p.printedName).emitInst p.nir.data = .ok body ∧
      header target (p.symbol target) ++
        (nirCtx target p.nir p.printedName).prologue p.printedName ++ body ++
        epilogue target (p.symbol target) (nirCtx target p.nir p.printedName).epilogueLabel
          p.tagReturn = lines := by
  have same : emitNir target p.nir p.name p.tagReturn =
      if nirMaxSlots < (nirCtx target p.nir p.printedName).maxLocalSlot + p.nir.nextValue then
        .error .undefined
      else do
        return header target (p.symbol target) ++
          (nirCtx target p.nir p.printedName).prologue p.printedName ++
          (← emitAll (nirCtx target p.nir p.printedName).emitInst p.nir.data) ++
          epilogue target (p.symbol target) (nirCtx target p.nir p.printedName).epilogueLabel
            p.tagReturn := rfl
  rw [same] at done
  by_cases full : nirMaxSlots <
    (nirCtx target p.nir p.printedName).maxLocalSlot + p.nir.nextValue
  · rw [if_pos full] at done
    cases done
  · rw [if_neg full] at done
    simpa only [bind_eq_ok_iff, pure_eq_ok_iff] using done

theorem emitNir_labels {target : Target} {p : Part} {lines : List Line}
    (done : emitNir target p.nir p.name p.tagReturn = .ok lines) :
    defines lines = p.labels target ∧
      refers lines = p.nir.data.flatMap (instRefers p.epilogueLabel) ∧
      ∀ inst ∈ p.nir.data, isFloatCmp inst.op = true → 0 ≤ inst.dst := by
  have start := prologue_quiet (nirCtx target p.nir p.printedName) p.printedName
  obtain ⟨body, emitted, rfl⟩ := emitNir_ok done
  obtain ⟨labels, jumps, there⟩ := emitAll_labels emitted
  refine ⟨?_, ?_, there⟩
  · rw [defines_append, defines_append, defines_append, labels, start.1, header_defines,
      epilogue_defines]
    simp [Part.labels, Part.localLabels, epilogueLabel_eq]
  · rw [refers_append, refers_append, refers_append, jumps, start.2, header_refers,
      epilogue_refers]
    simp [epilogueLabel_eq]

end Nytrix.Native
