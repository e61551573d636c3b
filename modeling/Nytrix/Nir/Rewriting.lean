import Nytrix.Nir.Progress

/-! Facts every in-place rewriting pass uses: what a step depends on, and what the scans compute. -/

namespace Nytrix.Nir

open Nytrix.Lib

variable {σ : Type}

/-- An outcome that is not a failure: a move, or a successful end. -/
def Fine (out : State σ ⊕ Outcome σ) : Prop := ∀ err, out ≠ .inr (.error err)

theorem fine_next (s : State σ) : Fine (.inl s : State σ ⊕ Outcome σ) := by
  intro err bad
  cases bad

theorem fine_ok (r : EvalResult σ) : Fine (.inr (.ok r) : State σ ⊕ Outcome σ) := by
  intro err bad
  cases bad

/-- Two instructions that act alike once their operands are read. -/
structure SameAction (inst inst' : Inst) : Prop where
  op : inst'.op = inst.op
  dst : inst'.op.shape.writes = true → inst'.dst = inst.dst
  imm : inst'.imm = inst.imm
  cmp : inst'.cmp = inst.cmp
  symbol : inst'.symbol = inst.symbol

theorem writeDst_congr {inst inst' : Inst} (dst : inst'.dst = inst.dst) {s : State σ} {x : I64}
    (fine : Fine (writeDst inst s x)) : writeDst inst' s x = writeDst inst s x := by
  unfold writeDst at fine ⊢
  rw [dst]
  split
  · rfl
  · rename_i none
    rw [if_neg none] at fine
    exact absurd rfl (fine _)

theorem jump_congr {f f' : Func} {inst inst' : Inst} (imm : inst'.imm = inst.imm)
    (labels : labelTable f' inst.imm = labelTable f inst.imm) {s : State σ}
    (fine : Fine (jump f inst s)) : jump f' inst' s = jump f inst s := by
  unfold jump at fine ⊢
  rw [imm, labels]
  split
  · rfl
  · rename_i none
    rw [none] at fine
    exact absurd rfl (fine _)

/-- Execution without failure depends only on the action and on where labels lead. -/
theorem execute_congr {f f' : Func} {inst inst' : Inst} (same : SameAction inst inst')
    (labels : labelTable f' inst.imm = labelTable f inst.imm) {cfg : EvalConfig σ}
    {xs : List I64} {s : State σ} (fine : Fine (execute f cfg inst xs s)) :
    execute f' cfg inst' xs s = execute f cfg inst xs s := by
  obtain ⟨op, dst, imm, cmp, symbol⟩ := same
  cases shape : inst.op.shape <;> simp only [execute, op, shape] at fine ⊢ <;>
    simp only [op, shape, Shape.writes, forall_true_left] at dst
  case const =>
    rw [dst, imm]
    split
    · rename_i has
      rw [if_pos has] at fine
      exact writeDst_congr dst fine
    · rfl
  case unary => exact writeDst_congr dst fine
  case loadLocal | addrLocal => rw [imm]; exact writeDst_congr dst fine
  case loadI64 =>
    split
    · rename_i null
      rw [if_pos null] at fine
      exact absurd rfl (fine _)
    · rename_i valid
      rw [if_neg valid] at fine
      exact writeDst_congr dst fine
  case addrSymbol | alloca | copyStruct | captureRet => exact absurd rfl (fine _)
  case storeLocal => rw [imm]
  case storeI64 =>
    split
    · rename_i null
      rw [if_pos null] at fine
      exact absurd rfl (fine _)
    · rfl
  case br => exact jump_congr imm labels fine
  case brIf =>
    split
    · rfl
    · rename_i taken
      rw [if_neg taken] at fine
      exact jump_congr imm labels fine
  case binary =>
    rw [cmp]
    cases result : binaryResult inst.op inst.cmp (xs.getD 0 0) (xs.getD 1 0) with
    | none =>
      simp only [result] at fine
      exact absurd rfl (fine _)
    | some x =>
      simp only [result] at fine ⊢
      exact writeDst_congr dst fine
  case call =>
    rw [symbol]
    cases given : cfg.resolver with
    | none =>
      simp only [given] at fine
      exact absurd rfl (fine _)
    | some resolve =>
      simp only [given] at fine ⊢
      cases answered : resolve s.world (inst.symbol.getD "") xs with
      | error text =>
        simp only [answered] at fine
        exact absurd rfl (fine _)
      | ok reply =>
        simp only [answered] at fine ⊢
        rw [dst]
        split
        · rename_i has
          rw [if_pos has] at fine
          exact writeDst_congr dst fine
        · rfl

theorem precheck_congr {cfg : EvalConfig σ} {inst inst' : Inst} {i i' : Nat}
    (op : inst'.op = inst.op) (imm : inst'.imm = inst.imm)
    (passed : precheck cfg inst i = none) : precheck cfg inst' i' = none := by
  unfold precheck at passed ⊢
  rw [op]
  cases shape : inst.op.shape <;> simp only [shape, imm] at passed ⊢
  case loadLocal | storeLocal | addrLocal =>
    split at passed
    · cases passed
    · rename_i inside
      rw [if_neg inside]
  case call =>
    split at passed
    · cases passed
    · split at passed
      · cases passed
      · rename_i given bounded
        rw [if_neg given, if_neg bounded]

theorem stepInst_fine {f : Func} {cfg : EvalConfig σ} {inst : Inst} {s : State σ}
    (fine : Fine (stepInst f cfg inst s)) :
    precheck cfg inst s.pc = none ∧ ∃ xs, inst.reads.mapM (readValue s.values) = some xs ∧
      stepInst f cfg inst s = execute f cfg inst xs s := by
  unfold stepInst at fine ⊢
  cases checked : precheck cfg inst s.pc with
  | some err =>
    simp only [checked] at fine
    exact absurd rfl (fine _)
  | none =>
    simp only [checked] at fine
    cases read : inst.reads.mapM (readValue s.values) with
    | none =>
      simp only [read] at fine
      exact absurd rfl (fine _)
    | some xs => exact ⟨rfl, xs, rfl, rfl⟩

theorem stepInst_congr {f f' : Func} {inst inst' : Inst} (same : SameAction inst inst')
    (labels : labelTable f' inst.imm = labelTable f inst.imm) {cfg : EvalConfig σ} {s : State σ}
    (reads : inst'.reads.mapM (readValue s.values) = inst.reads.mapM (readValue s.values))
    (fine : Fine (stepInst f cfg inst s)) :
    stepInst f' cfg inst' s = stepInst f cfg inst s := by
  obtain ⟨checked, xs, read, steps⟩ := stepInst_fine fine
  rw [steps] at fine ⊢
  unfold stepInst
  rw [precheck_congr same.op same.imm checked, reads, read]
  exact execute_congr same labels fine

theorem stepInst_pure {f : Func} {cfg : EvalConfig σ} {inst : Inst} {s : State σ}
    (pure : inst.op.shape.isPure = true) (has : 0 ≤ inst.dst)
    (fine : Fine (stepInst f cfg inst s)) :
    ∃ xs x, inst.reads.mapM (readValue s.values) = some xs ∧ inst.pureResult xs = some x ∧
      stepInst f cfg inst s = .inl { s with
        pc := s.pc + 1, values := Function.update s.values inst.dst (some x) } := by
  obtain ⟨-, xs, read, stepped⟩ := stepInst_fine fine
  rw [stepped, execute_pure pure has] at fine ⊢
  cases computed : inst.pureResult xs with
  | none =>
    simp only [computed] at fine
    exact absurd rfl (fine _)
  | some x => exact ⟨xs, x, read, computed, rfl⟩

theorem stepInst_const {f : Func} {cfg : EvalConfig σ} {inst : Inst} {s : State σ}
    (isConst : inst.op = .constI64) (has : 0 ≤ inst.dst) :
    stepInst f cfg inst s = .inl { s with
      pc := s.pc + 1, values := Function.update s.values inst.dst (some inst.imm) } := by
  simp [stepInst, precheck, Inst.reads, execute, writeDst, isConst, Op.shape, has]

/--
The second machine's move follows the first one's.

Positions are related by a map, the worlds are equal, and both write one value or none.
-/
structure Follows (place : Nat → Nat) (inst inst' : Inst) (s s' t t' : State σ) : Prop where
  pc : t'.pc = place s'.pc
  world : t'.world = s'.world
  values : (inst.writes = none ∧ s'.values = s.values ∧ t'.values = t.values) ∨
    ∃ x, inst.writes = some inst.dst ∧ s'.values = Function.update s.values inst.dst (some x) ∧
      t'.values = Function.update t.values inst'.dst (some x)

section Following

variable {f f' : Func} {cfg : EvalConfig σ} {inst inst' : Inst} {place : Nat → Nat}
  {s s' t : State σ} (op : inst'.op = inst.op) (imm : inst'.imm = inst.imm)
  (cmp : inst'.cmp = inst.cmp) (symbol : inst'.symbol = inst.symbol)
  (dst : inst.op.shape.writes = true → (0 ≤ inst'.dst ↔ 0 ≤ inst.dst))
  (world : t.world = s.world) (next : t.pc + 1 = place (s.pc + 1))
  (labels : inst.op = .br ∨ inst.op = .brIf →
    ∀ k, labelTable f inst.imm = some k → labelTable f' inst.imm = some (place k))

include dst next in
/-- Writing the destination is followed by writing the other destination. -/
theorem writeDst_follows (s₁ t₁ : State σ) {x : I64} (producing : inst.op.shape.writes = true)
    (pcs : s₁.pc = s.pc ∧ t₁.pc = t.pc) (olds : s₁.values = s.values ∧ t₁.values = t.values)
    (worlds : t₁.world = s₁.world) (moved : writeDst inst s₁ x = .inl s') :
    ∃ t', writeDst inst' t₁ x = .inl t' ∧ Follows place inst inst' s s' t t' := by
  obtain ⟨has, rfl⟩ := writeDst_next moved
  rw [writeDst, if_pos ((dst producing).mpr has)]
  refine ⟨_, rfl, ?_, worlds, .inr ⟨x, Inst.writes_eq_some.mpr ⟨producing, has, rfl⟩, ?_, ?_⟩⟩
  · simp only [pcs.1, pcs.2]
    exact next
  · simp only [olds.1]
  · simp only [olds.2]

include imm world labels in
/-- A jump is followed by the jump to the other label's place. -/
theorem jump_follows (isBranch : inst.op = .br ∨ inst.op = .brIf)
    (moved : jump f inst s = .inl s') :
    ∃ t', jump f' inst' t = .inl t' ∧ Follows place inst inst' s s' t t' := by
  have silent : inst.writes = none := by
    rcases isBranch with op | op <;> simp [Inst.writes, op, Op.shape, Shape.writes]
  obtain ⟨entry, same⟩ := jump_next moved
  rw [jump, imm, labels isBranch _ entry]
  refine ⟨_, rfl, rfl, ?_, .inl ⟨silent, ?_, rfl⟩⟩
  · rw [same]
    exact world
  · rw [same]

include op imm cmp symbol dst world next labels

/-- A move is followed by the move of an instruction that acts alike on the same operands. -/
theorem execute_follows {xs : List I64} (moved : execute f cfg inst xs s = .inl s') :
    ∃ t', execute f' cfg inst' xs t = .inl t' ∧ Follows place inst inst' s s' t t' := by
  have silent (quiet : inst.op.shape.writes = false) : inst.writes = none := by
    simp [Inst.writes, quiet]
  have wrote {x : I64} (producing : inst.op.shape.writes = true)
      (wrote : writeDst inst s x = .inl s') :=
    writeDst_follows dst next s t producing ⟨rfl, rfl⟩ ⟨rfl, rfl⟩ world wrote
  have fell {w : World σ} (quiet : inst.writes = none)
      (same : { s with pc := s.pc + 1, world := w } = s') :
      ∃ t', (.inl { t with pc := t.pc + 1, world := w } : State σ ⊕ Outcome σ) = .inl t' ∧
        Follows place inst inst' s s' t t' := by
    subst same
    exact ⟨_, rfl, next, rfl, .inl ⟨quiet, rfl, rfl⟩⟩
  cases shape : inst.op.shape <;> simp only [execute, op, shape] at moved ⊢
  case nop | label =>
    exact fell (silent (by simp [shape, Shape.writes])) (by simpa [world] using moved)
  case const =>
    rw [imm]
    by_cases has : 0 ≤ inst.dst
    · rw [if_pos has] at moved
      rw [if_pos ((dst (by simp [shape, Shape.writes])).mpr has)]
      exact wrote (by simp [shape, Shape.writes]) moved
    · rw [if_neg has] at moved
      rw [if_neg fun other => has ((dst (by simp [shape, Shape.writes])).mp other)]
      exact fell (by simp [Inst.writes, has]) (by simpa [world] using moved)
  case unary => exact wrote (by simp [shape, Shape.writes]) moved
  case loadI64 =>
    split at moved
    · cases moved
    · rename_i valid
      rw [if_neg valid, world]
      exact wrote (by simp [shape, Shape.writes]) moved
  case addrLocal =>
    rw [imm]
    exact wrote (by simp [shape, Shape.writes]) moved
  case loadLocal =>
    rw [imm, world]
    exact wrote (by simp [shape, Shape.writes]) moved
  case addrSymbol | alloca | copyStruct | captureRet | ret => cases moved
  case storeI64 =>
    split at moved
    · cases moved
    · rename_i valid
      rw [if_neg valid, world]
      exact fell (silent (by simp [shape, Shape.writes])) (by simpa using moved)
  case storeLocal =>
    rw [imm, world]
    exact fell (silent (by simp [shape, Shape.writes])) (by simpa using moved)
  case binary =>
    rw [cmp]
    split at moved
    · exact wrote (by simp [shape, Shape.writes]) moved
    · cases moved
  case br => exact jump_follows imm world labels (.inl (Op.of_shape shape rfl)) moved
  case brIf =>
    split at moved
    · rename_i zero
      rw [if_pos zero]
      exact fell (silent (by simp [shape, Shape.writes])) (by simpa [world] using moved)
    · rename_i taken
      rw [if_neg taken]
      exact jump_follows imm world labels (.inr (Op.of_shape shape rfl)) moved
  case call =>
    rw [symbol, world]
    split at moved
    · cases moved
    · split at moved
      · cases moved
      · rename_i after answered
        by_cases has : 0 ≤ inst.dst
        · rw [if_pos has] at moved
          simp only [if_pos ((dst (by simp [shape, Shape.writes])).mpr has)]
          exact writeDst_follows dst next { s with world := after } { t with world := after }
            (by simp [shape, Shape.writes]) ⟨rfl, rfl⟩ ⟨rfl, rfl⟩ rfl moved
        · rw [if_neg has] at moved
          simp only [if_neg fun other => has ((dst (by simp [shape, Shape.writes])).mp other)]
          exact fell (by simp [Inst.writes, has]) (by simpa using moved)

variable (reads : ∀ xs, inst.reads.mapM (readValue s.values) = some xs →
  inst'.reads.mapM (readValue t.values) = some xs)

include reads

theorem stepInst_follows (moved : stepInst f cfg inst s = .inl s') :
    ∃ t', stepInst f' cfg inst' t = .inl t' ∧ Follows place inst inst' s s' t t' := by
  obtain ⟨checked, xs, read, executed⟩ := stepInst_next moved
  rw [stepInst, precheck_congr op imm checked, reads xs read]
  exact execute_follows op imm cmp symbol dst world next labels executed

omit symbol cmp dst next labels in
/-- A return is followed by the same return. -/
theorem stepInst_returns {r : EvalResult σ} (stopped : stepInst f cfg inst s = .inr (.ok r)) :
    stepInst f' cfg inst' t = .inr (.ok r) := by
  have isRet := ret_of_stop stopped
  obtain ⟨checked, xs, read, executed⟩ := stepInst_fine (stopped ▸ fine_ok r)
  rw [stopped] at executed
  rw [stepInst, precheck_congr op imm checked, reads xs read]
  simpa [execute, op, isRet, Op.shape, world] using executed.symm

end Following

theorem execute_world {f : Func} {cfg : EvalConfig σ} {inst : Inst} {xs : List I64}
    {s s' : State σ} (noStore : inst.op.shape ≠ .storeLocal) (noStoreI64 : inst.op.shape ≠ .storeI64)
    (noCall : inst.op.shape ≠ .call) (moved : execute f cfg inst xs s = .inl s') :
    s'.world = s.world := by
  have wrote {x : I64} (wrote : writeDst inst s x = .inl s') : s'.world = s.world := by
    obtain ⟨-, rfl⟩ := writeDst_next wrote
    rfl
  have jumped (jumped : jump f inst s = .inl s') : s'.world = s.world := by
    rw [(jump_next jumped).2]
  cases shape : inst.op.shape <;> simp only [execute, shape] at moved
  case nop | label =>
    obtain rfl := by simpa using moved
    rfl
  case const =>
    split at moved
    · exact wrote moved
    · obtain rfl := by simpa using moved
      rfl
  case unary | addrLocal | loadLocal => exact wrote moved
  case loadI64 =>
    split at moved
    · cases moved
    · exact wrote moved
  case addrSymbol | alloca | copyStruct | captureRet | ret => cases moved
  case storeLocal => exact absurd shape noStore
  case storeI64 => exact absurd shape noStoreI64
  case call => exact absurd shape noCall
  case binary =>
    split at moved
    · exact wrote moved
    · cases moved
  case br => exact jumped moved
  case brIf =>
    split at moved
    · obtain rfl := by simpa using moved
      rfl
    · exact jumped moved

theorem evalLoop_agree {f f' : Func} {cfg : EvalConfig σ} {I : State σ → Prop}
    (preserved : ∀ s s', I s → (vm f cfg).step s = .inl s' → I s')
    (agrees : ∀ s inst, I s → f.data[s.pc]? = some inst → Fine (stepInst f cfg inst s) →
      ∃ inst', f'.data[s.pc]? = some inst' ∧ stepInst f' cfg inst' s = stepInst f cfg inst s)
    (ends : ∀ i : Nat, f.data[i]? = none → f'.data[i]? = none) {n : Nat} {s : State σ}
    {r : EvalResult σ} (start : I s) (evaluated : evalLoop f cfg n s = .ok r) :
    evalLoop f' cfg n s = .ok r := by
  induction n generalizing s with
  | zero =>
    rw [evalLoop] at evaluated ⊢
    cases found : f.data[s.pc]? with
    | none =>
      simp only [found] at evaluated
      simp only [ends _ found, evaluated]
    | some inst => simp [found] at evaluated
  | succ n ih =>
    rw [evalLoop] at evaluated ⊢
    cases found : f.data[s.pc]? with
    | none =>
      simp only [found] at evaluated
      simp only [ends _ found, evaluated]
    | some inst =>
      simp only [found] at evaluated
      cases stepped : stepInst f cfg inst s with
      | inl next =>
        simp only [stepped] at evaluated
        obtain ⟨inst', found', same⟩ := agrees s inst start found (stepped ▸ fine_next next)
        simp only [found', same, stepped]
        have moved : (vm f cfg).step s = .inl next := by rw [vm_step_of_found found, stepped]
        exact ih (preserved s next start moved) evaluated
      | inr out =>
        simp only [stepped] at evaluated
        subst evaluated
        obtain ⟨inst', found', same⟩ := agrees s inst start found (stepped ▸ fine_ok r)
        simp only [found', same, stepped]

theorem mapM_reads_congr {g h : Int → Option I64} {reads : List Int}
    (same : ∀ v ∈ reads, g v = h v) : reads.mapM g = reads.mapM h := by
  induction reads with
  | nil => rfl
  | cons v rest ih =>
    rw [List.mapM_cons, List.mapM_cons, same v (by simp), ih fun u member => same u (by simp [member])]

/-- What a renaming does to one operand, leaving an absent one absent. -/
def renameOperand (g : Int → Int) (v : Int) : Int := if 0 ≤ v then g v else v

/-- Renames all the operands an instruction gives. -/
def Inst.mapOperands (g : Int → Int) (inst : Inst) : Inst :=
  { inst with
    a := renameOperand g inst.a, b := renameOperand g inst.b, c := renameOperand g inst.c
    d := renameOperand g inst.d, e := renameOperand g inst.e, f := renameOperand g inst.f
    extraArgs := inst.extraArgs.map (renameOperand g) }

theorem renameOperand_nonneg {g : Int → Int} (keeps : ∀ v, 0 ≤ v → 0 ≤ g v) (v : Int) :
    0 ≤ renameOperand g v ↔ 0 ≤ v := by
  unfold renameOperand
  split
  · rename_i given
    exact ⟨fun _ => given, fun _ => keeps v given⟩
  · rfl

/-- All the operand fields of an instruction, used by its opcode or not. -/
def Inst.operands (inst : Inst) : List Int :=
  inst.a :: inst.b :: inst.c :: inst.d :: inst.e :: inst.f :: inst.extraArgs

theorem mem_operands_of_reads {inst : Inst} {v : Int} (given : 0 ≤ v) (read : v ∈ inst.reads) :
    v ∈ inst.operands := by
  cases shape : inst.op.shape <;> simp only [Inst.reads, shape] at read
  case unary | loadI64 | storeLocal | brIf | storeI64 | binary =>
    simp only [Inst.operands, List.mem_cons, List.not_mem_nil, or_false] at read ⊢
    tauto
  case ret =>
    split at read
    · simp only [Inst.operands, List.mem_cons, List.not_mem_nil, or_false] at read ⊢
      exact .inl read
    · simp at read
  case call =>
    simp only [callOperands, List.mem_map, List.mem_range] at read
    obtain ⟨k, -, rfl⟩ := read
    rcases k with _ | _ | _ | _ | _ | _ | k
    iterate 6 simp [Inst.operands]
    simp only [Inst.operands, List.mem_cons]
    -- An out-of-line argument that is given is in the list.
    have index : k + 1 + 1 + 1 + 1 + 1 + 1 - 6 = k := by omega
    simp only [List.getD_eq_getElem?_getD, index] at given ⊢
    cases extra : inst.extraArgs[k]? with
    | none => simp [extra] at given
    | some u => simp [List.mem_of_getElem? extra]
  all_goals simp at read

/-- The second instruction is the first one with its operands and its destination renamed. -/
structure Renamed (g : Int → Int) (inst inst' : Inst) : Prop where
  op : inst'.op = inst.op
  imm : inst'.imm = inst.imm
  symbol : inst'.symbol = inst.symbol
  argSizes : inst'.argSizes = inst.argSizes
  a : inst'.a = renameOperand g inst.a
  b : inst'.b = renameOperand g inst.b
  c : inst'.c = renameOperand g inst.c
  d : inst'.d = renameOperand g inst.d
  e : inst'.e = renameOperand g inst.e
  f : inst'.f = renameOperand g inst.f
  extraArgs : inst'.extraArgs = inst.extraArgs.map (renameOperand g)
  dst : 0 ≤ inst'.dst ↔ 0 ≤ inst.dst

theorem Renamed.of_mapOperands (g : Int → Int) (inst : Inst) {dst : Int}
    (sign : 0 ≤ dst ↔ 0 ≤ inst.dst) : Renamed g inst { inst.mapOperands g with dst := dst } :=
  ⟨rfl, rfl, rfl, rfl, rfl, rfl, rfl, rfl, rfl, rfl, rfl, sign⟩

section Renaming

variable {g : Int → Int} {inst inst' : Inst} (renamed : Renamed g inst inst')
  (signs : ∀ v ∈ inst.operands, 0 ≤ renameOperand g v ↔ 0 ≤ v)

include renamed signs

theorem Renamed.reads : inst'.reads = inst.reads.map (renameOperand g) := by
  have sign := signs inst.a (by simp [Inst.operands])
  cases shape : inst.op.shape <;>
    simp only [Inst.reads, renamed.op, shape, renamed.a, renamed.b, renamed.c, List.map_cons,
      List.map_nil]
  case ret =>
    by_cases given : 0 ≤ inst.a
    · rw [if_pos (sign.mpr given), if_pos given, List.map_cons, List.map_nil]
    · rw [if_neg fun kept => given (sign.mp kept), if_neg given, List.map_nil]
  case call =>
    simp only [callOperands, List.map_map, renamed.imm]
    refine List.map_congr_left fun k _ => ?_
    rcases k with _ | _ | _ | _ | _ | _ | k <;>
      simp only [Function.comp, renamed.a, renamed.b, renamed.c, renamed.d, renamed.e, renamed.f,
        renamed.extraArgs]
    rw [List.getD_eq_getElem?_getD, List.getElem?_map, List.getD_eq_getElem?_getD]
    cases inst.extraArgs[k + 6 - 6]? <;> simp [renameOperand]

theorem Renamed.wellFormed : inst'.wellFormed = inst.wellFormed := by
  simp only [Inst.operands, List.mem_cons, forall_eq_or_imp] at signs
  obtain ⟨sa, sb, sc, sd, se, sf, -⟩ := signs
  simp only [Inst.wellFormed, callWellFormed, renamed.op, renamed.imm, renamed.symbol,
    renamed.argSizes, renamed.a, renamed.b, renamed.c, renamed.d, renamed.e, renamed.f,
    renamed.extraArgs, renamed.dst, List.length_map, ← Int.not_le, sa, sb, sc, sd, se, sf]

theorem OpOk.rename {f f' : Func} {defined defined' : Int → Bool} {i i' : Nat}
    (ok : OpOk f defined i inst)
    (values : ∀ v ∈ inst.reads, valueDefined f' defined' (renameOperand g v) = true)
    (labels : labelExists f inst.imm = true → labelExists f' inst.imm = true)
    (fresh : inst.op = .label →
      ((f'.data.take i').any fun prev => prev.op = .label && prev.imm = inst.imm) = false)
    (chain : inst.op = .captureRet → followsCall f' i' = true) : OpOk f' defined' i' inst' := by
  refine ⟨?_, by rw [renamed.wellFormed signs]; exact ok.wellFormed, ?_, ?_, ?_⟩
  · intro v member
    rw [renamed.reads signs, List.mem_map] at member
    obtain ⟨u, read, rfl⟩ := member
    exact values u read
  · rw [renamed.op, renamed.imm]
    exact fresh
  · rw [renamed.op, renamed.imm]
    exact fun branch => labels (ok.target branch)
  · rw [renamed.op]
    exact chain

end Renaming

theorem sameAction_mapOperands (g : Int → Int) (inst : Inst) :
    SameAction inst (inst.mapOperands g) :=
  ⟨rfl, fun _ => rfl, rfl, rfl, rfl⟩

theorem definedBefore_congr {f f' : Func}
    (same : f'.data.map Inst.dst = f.data.map Inst.dst) (i : Nat) :
    definedBefore f' i = definedBefore f i := by
  have general : ∀ (g : Func) (v : Int), definedBefore g i v =
      (decide (0 ≤ v) && ((g.data.map Inst.dst).take i).any fun d => d = v) := by
    intro g v
    simp only [definedBefore, ← List.map_take, List.any_map]
    rfl
  funext v
  rw [general, general, same]

theorem any_label_eq (insts : List Inst) (l : I64) :
    (insts.any fun inst => inst.op = .label && inst.imm = l) =
      (insts.map Inst.labelMark).any fun mark => mark = some l := by
  rw [List.any_map]
  congr 1
  funext inst
  by_cases marked : inst.labelMark = some l
  · have both := Inst.labelMark_eq_some.mp marked
    simp [both.1, both.2, Inst.labelMark]
  · have neither : ¬ (inst.op = .label ∧ inst.imm = l) := fun both =>
      marked (Inst.labelMark_eq_some.mpr both)
    simp only [Function.comp, marked, decide_false, Bool.and_eq_false_iff,
      decide_eq_false_iff_not]
    exact not_and_or.mp neither

/-- Whether a capture may follow the instruction. -/
def Inst.startsCapture (inst : Inst) : Bool := inst.op = .call || inst.op = .captureRet

theorem followsCall_congr {f f' : Func}
    (same : f'.data.map Inst.startsCapture = f.data.map Inst.startsCapture) (i : Nat) :
    followsCall f' i = followsCall f i := by
  have general : ∀ (g : Func) (j : Nat),
      followsCall g (j + 1) = (g.data.map Inst.startsCapture)[j]?.getD false := by
    intro g j
    rw [List.getElem?_map, followsCall]
    cases g.data[j]? <;> rfl
  cases i with
  | zero => rfl
  | succ j => rw [general, general, same]

/-- The constants known before position `i`. -/
def constsBefore (f : Func) (i : Nat) : ConstTable :=
  (f.data.take i).foldl noteConst fun _ => none

theorem constsBefore_succ {f : Func} {i : Nat} {inst : Inst} (found : f.data[i]? = some inst) :
    constsBefore f (i + 1) = noteConst (constsBefore f i) inst := by
  obtain ⟨inside, rfl⟩ := List.getElem?_eq_some_iff.mp found
  simp only [constsBefore, List.take_add_one, found, Option.toList_some, List.foldl_append,
    List.foldl_cons, List.foldl_nil]

theorem constraintLoop_ok_iff (insts : List Inst) (i : Nat) (known : ConstTable) :
    constraintLoop insts i known = .ok () ↔ ∀ (j : Nat) (inst : Inst), insts[j]? = some inst →
      firstFailure (constraintChecks ((insts.take j).foldl noteConst known) inst) = none := by
  induction insts generalizing i known with
  | nil => simp [constraintLoop]
  | cons head rest ih =>
    rw [constraintLoop]
    constructor
    · intro accepted j inst found
      split at accepted
      · cases accepted
      · rename_i passed
        cases j with
        | zero =>
          simp only [List.getElem?_cons_zero, Option.some.injEq] at found
          subst found
          simpa using passed
        | succ j =>
          have later := (ih _ _).mp accepted j inst (by simpa using found)
          simpa using later
    · intro all
      have first := all 0 head (by simp)
      simp only [List.take_zero, List.foldl_nil] at first
      rw [first]
      refine (ih _ _).mpr fun j inst found => ?_
      have later := all (j + 1) inst (by simpa using found)
      simpa using later

theorem validateConstraints_ok_iff {f : Func} :
    validateConstraints f = .ok () ↔ ∀ (i : Nat) (inst : Inst), f.data[i]? = some inst →
      firstFailure (constraintChecks (constsBefore f i) inst) = none :=
  constraintLoop_ok_iff f.data 0 fun _ => none

/-- Whether the constants of its operands make a shift or a division one that can only fail. -/
def constTrap (known : ConstTable) (inst : Inst) : Bool :=
  let shift := inst.op = .shlI64 || inst.op = .sarI64
  let divide := inst.op = .divI64 || inst.op = .modI64
  let lhs := constOf known inst.a
  let rhs := constOf known inst.b
  (shift && rhs.any fun n => decide (n.toInt < 0) || decide (64 ≤ n.toInt)) ||
    (divide && rhs.any fun n => n = 0) ||
    (divide && (lhs.any fun n => n = int64Min) && rhs.any fun n => n = -1)

theorem constraintChecks_none_iff {known : ConstTable} {inst : Inst} :
    firstFailure (constraintChecks known inst) = none ↔
      (inst.range.hasMin = true → inst.range.hasMax = true →
        inst.range.min.toInt ≤ inst.range.max.toInt) ∧ constTrap known inst = false := by
  simp only [constraintChecks, firstFailure_cons_eq_none, firstFailure_nil, and_true, constTrap,
    Bool.or_eq_false_iff, and_assoc]
  refine and_congr_left fun _ => ?_
  simp

theorem constTrap_of_not_binary {known : ConstTable} {inst : Inst}
    (other : inst.op.shape ≠ .binary) : constTrap known inst = false := by
  have apart (op : Op) (binary : op.shape = .binary) : inst.op ≠ op := fun same =>
    other (by rw [same]; exact binary)
  simp [constTrap, apart .shlI64 rfl, apart .sarI64 rfl, apart .divI64 rfl, apart .modI64 rfl]

theorem constTrap_congr {known known' : ConstTable} {inst inst' : Inst}
    (op : inst'.op = inst.op)
    (lhs : inst.op.shape = .binary → constOf known' inst'.a = constOf known inst.a)
    (rhs : inst.op.shape = .binary → constOf known' inst'.b = constOf known inst.b) :
    constTrap known' inst' = constTrap known inst := by
  by_cases binary : inst.op.shape = .binary
  · simp only [constTrap, op, lhs binary, rhs binary]
  · rw [constTrap_of_not_binary binary, constTrap_of_not_binary (by rw [op]; exact binary)]

/-- No destination is defined by an earlier instruction. -/
def DstsFresh (f : Func) : Prop :=
  ∀ (i : Nat) (inst : Inst), f.data[i]? = some inst → 0 ≤ inst.dst →
    definedBefore f i inst.dst = false

theorem DstsFresh.of_verify {f : Func} (accepted : verify f = .ok ()) : DstsFresh f :=
  fun _ _ found has => (CommonOk.of_verify accepted found).dstFresh has

theorem constsBefore_stable {f : Func} (unique : DstsFresh f) {i k : Nat} {v : Int}
    (known : definedBefore f i v = true) (later : i ≤ k) (inside : k ≤ f.data.length) :
    constsBefore f k v = constsBefore f i v := by
  induction k with
  | zero => rw [Nat.le_zero.mp later]
  | succ k ih =>
    rcases Nat.lt_or_ge k i with before | after
    · rw [Nat.le_antisymm later before]
    · obtain ⟨inst, found⟩ : ∃ inst, f.data[k]? = some inst :=
        ⟨_, List.getElem?_eq_getElem (by omega)⟩
      rw [constsBefore_succ found, noteConst]
      split
      · rename_i has
        have other : v ≠ inst.dst := by
          rintro rfl
          have fresh := unique k inst found has
          rw [definedBefore_mono after known] at fresh
          cases fresh
        rw [Function.update_of_ne other]
        exact ih after (by omega)
      · exact ih after (by omega)

theorem constsBefore_dst {f : Func} {i : Nat} {inst : Inst} (found : f.data[i]? = some inst)
    (has : 0 ≤ inst.dst) : constsBefore f (i + 1) inst.dst =
      if inst.op = .constI64 then some inst.imm
      else if inst.op = .copy && decide (0 ≤ inst.a) then constsBefore f i inst.a
      else none := by
  rw [constsBefore_succ found, noteConst, if_pos has, Function.update_self]

theorem definedBefore_succ {f : Func} {i : Nat} {inst : Inst} {v : Int}
    (found : f.data[i]? = some inst) :
    definedBefore f (i + 1) v = true ↔
      definedBefore f i v = true ∨ (0 ≤ v ∧ inst.dst = v) := by
  simp only [definedBefore_iff]
  constructor
  · rintro ⟨nonneg, j, inst', bound, at_, same⟩
    rcases Nat.lt_succ_iff_lt_or_eq.mp bound with before | rfl
    · exact .inl ⟨nonneg, j, inst', before, at_, same⟩
    · obtain rfl : inst = inst' := by simpa [found] using at_
      exact .inr ⟨nonneg, same⟩
  · rintro (⟨nonneg, j, inst', bound, at_, same⟩ | ⟨nonneg, same⟩)
    · exact ⟨nonneg, j, inst', by omega, at_, same⟩
    · exact ⟨nonneg, i, inst, by omega, found, same⟩

theorem constsBefore_undefined {f : Func} {i : Nat} (inside : i ≤ f.data.length) {v : Int}
    (undefined : definedBefore f i v = false) : constsBefore f i v = none := by
  induction i with
  | zero => rfl
  | succ i ih =>
    obtain ⟨inst, found⟩ : ∃ inst, f.data[i]? = some inst :=
      ⟨_, List.getElem?_eq_getElem (by omega)⟩
    have split := definedBefore_succ (v := v) found
    rw [undefined] at split
    simp only [Bool.false_eq_true, false_iff, not_or, Bool.not_eq_true, not_and] at split
    rw [constsBefore_succ found, noteConst]
    split
    · rename_i has
      by_cases same : v = inst.dst
      · exact absurd same.symm (split.2 (same ▸ has))
      · rw [Function.update_of_ne same]
        exact ih (by omega) split.1
    · exact ih (by omega) split.1

theorem constOf_mono {known known' : ConstTable}
    (more : ∀ v c, known' v = some c → known v = some c) {v : Int} {c : I64}
    (old : constOf known' v = some c) : constOf known v = some c := by
  unfold constOf at old ⊢
  split at old
  · rename_i given
    rw [if_pos given]
    exact more v c old
  · cases old

theorem constTrap_mono {known known' : ConstTable} {inst : Inst}
    (more : ∀ v c, known' v = some c → known v = some c) (safe : constTrap known inst = false) :
    constTrap known' inst = false := by
  have carries (v : Int) (p : I64 → Bool) (fires : (constOf known' v).any p = true) :
      (constOf known v).any p = true := by
    cases old : constOf known' v with
    | none => simp [old] at fires
    | some c => simpa [constOf_mono more old, old] using fires
  by_contra trapped
  simp only [Bool.not_eq_false, constTrap, Bool.or_eq_true, Bool.and_eq_true] at trapped
  have again : constTrap known inst = true := by
    simp only [constTrap, Bool.or_eq_true, Bool.and_eq_true]
    rcases trapped with (⟨shift, out⟩ | ⟨divide, zero⟩) | ⟨⟨divide, least⟩, minus⟩
    · exact .inl (.inl ⟨shift, carries _ _ out⟩)
    · exact .inl (.inr ⟨divide, carries _ _ zero⟩)
    · exact .inr ⟨⟨divide, carries _ _ least⟩, carries _ _ minus⟩
  rw [safe] at again
  cases again

/-- The second function is the first with some instructions replaced by ones that define nothing. -/
structure Thins (f f' : Func) : Prop where
  length : f'.data.length = f.data.length
  at_ : ∀ (i : Nat) (inst inst' : Inst), f.data[i]? = some inst → f'.data[i]? = some inst' →
    inst' = inst ∨ inst'.dst < 0

namespace Thins

variable {f f' : Func} (thins : Thins f f')

include thins

theorem found {i : Nat} {inst' : Inst} (found' : f'.data[i]? = some inst') :
    ∃ inst, f.data[i]? = some inst := by
  have inside := (List.getElem?_eq_some_iff.mp found').1
  rw [thins.length] at inside
  exact ⟨_, List.getElem?_eq_getElem inside⟩

theorem definedBefore {i : Nat} {v : Int} (known : definedBefore f' i v = true) :
    Nir.definedBefore f i v = true := by
  obtain ⟨nonneg, j, inst', before, found', same⟩ := definedBefore_iff.mp known
  obtain ⟨inst, found⟩ := thins.found found'
  rcases thins.at_ j inst inst' found found' with rfl | none
  · exact definedBefore_iff.mpr ⟨nonneg, j, inst', before, found, same⟩
  · omega

theorem dstsFresh (fresh : DstsFresh f) : DstsFresh f' := by
  intro i inst' found' has
  obtain ⟨inst, found⟩ := thins.found found'
  rcases thins.at_ i inst inst' found found' with rfl | none
  · by_contra known
    have := thins.definedBefore (by simpa using known)
    rw [fresh i inst' found has] at this
    cases this
  · omega

theorem constsBefore (fresh : DstsFresh f) {i : Nat} (inside : i ≤ f.data.length) {v : Int}
    {c : I64} (known : constsBefore f' i v = some c) : Nir.constsBefore f i v = some c := by
  induction i generalizing v c with
  | zero => cases known
  | succ i ih =>
    have earlier {v : Int} {c : I64} := ih (v := v) (c := c) (by omega)
    obtain ⟨inst, found⟩ : ∃ inst, f.data[i]? = some inst :=
      ⟨_, List.getElem?_eq_getElem (by omega)⟩
    obtain ⟨inst', found'⟩ : ∃ inst, f'.data[i]? = some inst :=
      ⟨_, List.getElem?_eq_getElem (by have := thins.length; omega)⟩
    rw [constsBefore_succ found'] at known
    rw [constsBefore_succ found]
    rcases thins.at_ i inst inst' found found' with rfl | none
    · unfold noteConst at known ⊢
      split at known
      · rename_i has
        rw [if_pos has]
        by_cases same : v = inst'.dst
        · subst same
          rw [Function.update_self] at known ⊢
          split at known
          · rename_i isConst
            rw [if_pos isConst]
            exact known
          · rename_i noConst
            rw [if_neg noConst]
            split at known
            · rename_i isCopy
              rw [if_pos isCopy]
              exact earlier known
            · cases known
        · rw [Function.update_of_ne same] at known ⊢
          exact earlier known
      · rename_i has
        rw [if_neg has]
        exact earlier known
    · -- The erased destination was fresh, so it is not the value that is known.
      rw [noteConst, if_neg (by omega)] at known
      have old := earlier known
      unfold noteConst
      split
      · rename_i has
        rw [Function.update_of_ne]
        · exact old
        · rintro rfl
          rw [constsBefore_undefined (by omega) (fresh i inst found has)] at old
          cases old
      · exact old

end Thins

end Nytrix.Nir
