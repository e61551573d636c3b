import Nytrix.Lib.Stateful
import Nytrix.Lower.Stmt

/-! What a lowering leaves of the builder: the code grows and the counters never go back. -/

namespace Nytrix.Lower

open Nytrix.Nir Nytrix.Lib

/-- The instruction the builder appends for one it is given. -/
def Builder.emitted (b : Builder) (inst : Inst) : Inst :=
  let inst := normalizeOperands inst
  initInstMetadata (if decide (inst.dst < 0) && !inst.op.emitsNoValue then
    { inst with dst := b.nir.nextValue } else inst)

theorem push_data (b : Builder) (inst : Inst) :
    (b.push inst).nir.data = b.nir.data ++ [b.emitted inst] := rfl

theorem push_nextValue (b : Builder) (inst : Inst) :
    b.nir.nextValue ≤ (b.push inst).nir.nextValue := by
  simp only [Builder.push, emit]
  split <;> omega

/-- The code grows and the counters never go back. -/
structure Grows (b b' : Builder) : Prop where
  data : b.nir.data <+: b'.nir.data
  values : b.nir.nextValue ≤ b'.nir.nextValue
  slots : b.nextLocalSlot ≤ b'.nextLocalSlot
  labels : b.nextLabel ≤ b'.nextLabel

instance : Std.Refl Grows where
  refl _ := ⟨List.prefix_refl _, Int.le_refl _, Nat.le_refl _, Nat.le_refl _⟩

instance : IsTrans Builder Grows where
  trans _ _ _ first second := ⟨first.data.trans second.data,
    Int.le_trans first.values second.values, Nat.le_trans first.slots second.slots,
    Nat.le_trans first.labels second.labels⟩

/-- The code grows, and everything but the code and the counters stays. -/
structure Framed (b b' : Builder) : Prop extends Grows b b' where
  locals : b'.locals = b.locals
  loops : b'.loops = b.loops
  lastValue : b'.lastValue = b.lastValue
  emittedReturn : b'.emittedReturn = b.emittedReturn

instance : Std.Refl Framed where
  refl b := ⟨Std.Refl.refl b, rfl, rfl, rfl, rfl⟩

instance : IsTrans Builder Framed where
  trans _ _ _ first second := ⟨IsTrans.trans _ _ _ first.toGrows second.toGrows,
    second.locals.trans first.locals, second.loops.trans first.loops,
    second.lastValue.trans first.lastValue, second.emittedReturn.trans first.emittedReturn⟩

theorem framed_push (b : Builder) (inst : Inst) : Framed b (b.push inst) where
  data := by rw [push_data]; exact List.prefix_append _ _
  values := push_nextValue b inst
  slots := Nat.le_refl _
  labels := Nat.le_refl _
  locals := rfl
  loops := rfl
  lastValue := rfl
  emittedReturn := rfl

section Framed

theorem keeps_emitValue (inst : Inst) : Keeps Framed (emitValue inst) := by
  intro b v b' done
  obtain ⟨-, rfl⟩ := Prod.mk.inj (Except.ok.inj done)
  exact framed_push b inst

theorem keeps_emitEffect (inst : Inst) : Keeps Framed (emitEffect inst) := by
  intro b v b' done
  obtain ⟨-, rfl⟩ := Prod.mk.inj (Except.ok.inj done)
  exact framed_push b inst

theorem keeps_tempSlot : Keeps Framed tempSlot := by
  intro b slot b' done
  unfold tempSlot at done
  split at done
  · obtain ⟨-, rfl⟩ := Prod.mk.inj (Except.ok.inj done)
    exact ⟨⟨List.prefix_refl _, Int.le_refl _, Nat.le_succ _, Nat.le_refl _⟩, rfl, rfl, rfl, rfl⟩
  · cases done

theorem keeps_freshLabel : Keeps Framed freshLabel := by
  intro b label b' done
  unfold freshLabel at done
  split at done
  · obtain ⟨-, rfl⟩ := Prod.mk.inj (Except.ok.inj done)
    exact ⟨⟨List.prefix_refl _, Int.le_refl _, Nat.le_refl _, Nat.le_succ _⟩, rfl, rfl, rfl, rfl⟩
  · cases done

theorem keeps_emitIsZero (value : Int) : Keeps Framed (emitIsZero value) :=
  .bind (keeps_emitValue _) fun _ => keeps_emitValue _

theorem keeps_emitBrUnless (value : Int) (label : Nat) : Keeps Framed (emitBrUnless value label) :=
  .bind (keeps_emitIsZero _) fun _ => keeps_emitEffect _

theorem keeps_both {first second : LowerM Int} (one : Keeps Framed first)
    (two : Keeps Framed second) : Keeps Framed (both first second) := by
  intro b pair b' done
  unfold both at done
  split at done
  · rename_i v b₁ ran
    split at done
    · rename_i w b₂ ran'
      obtain ⟨-, rfl⟩ := Prod.mk.inj (Except.ok.inj done)
      exact IsTrans.trans _ _ _ (one _ _ _ ran) (two _ _ _ ran')
    · cases done
  · split at done <;> cases done

theorem keeps_onlyIf {R : Builder → Builder → Prop} [Std.Refl R] (cond : Bool)
    {lower : LowerM Unit} (framed : Keeps R lower) : Keeps R (onlyIf cond lower) :=
  .ite framed (.pure ())

theorem keeps_convertOperand (width : Width) (isF64 isF32 : Bool) (value : Int) :
    Keeps Framed (convertOperand width isF64 isF32 value) := by
  cases width with
  | i64 => exact .pure value
  | f64 => exact .ite (.pure value) (keeps_emitValue _)
  | f32 => exact .ite (.pure value) (keeps_emitValue _)

theorem keeps_lowerLiteral (lit : Literal) : Keeps Framed (lowerLiteral lit) := by
  cases lit with
  | str => exact .error _
  | _ => exact keeps_emitValue _

theorem keeps_lowerIdent (name : String) : Keeps Framed (lowerIdent name) := by
  refine .bind .get fun b => ?_
  cases findLocal b.locals name with
  | none => exact keeps_emitValue _
  | some l => exact keeps_emitValue _

theorem keeps_lowerUnary (op : String) (value : Int) : Keeps Framed (lowerUnary op value) := by
  unfold lowerUnary
  split
  · exact .pure value
  · exact .bind (keeps_emitValue _) fun _ => keeps_emitValue _
  · exact .bind (keeps_emitValue _) fun _ => keeps_emitValue _
  · exact .bind (keeps_emitValue _) fun _ => keeps_emitValue _
  · exact .error _

theorem keeps_lowerBinary (env : Env) (op : String) (left right : Expr)
    {lowerLeft lowerRight : LowerM Int} (one : Keeps Framed lowerLeft)
    (two : Keeps Framed lowerRight) :
    Keeps Framed (lowerBinary env op left right lowerLeft lowerRight) := by
  unfold lowerBinary
  split
  · exact .error _
  · exact .bind .get fun _ => .bind (keeps_both one two) fun _ =>
      .bind (keeps_convertOperand _ _ _ _) fun _ => .bind (keeps_convertOperand _ _ _ _) fun _ =>
        keeps_emitValue _

theorem keeps_emitShortcut (isOr : Bool) (value : Int) (trueLabel endLabel : Nat) :
    Keeps Framed (emitShortcut isOr value trueLabel endLabel) :=
  .ite (keeps_emitEffect _) (keeps_emitBrUnless _ _)

theorem keeps_lowerLogical {lowerLeft lowerRight : LowerM Int} (one : Keeps Framed lowerLeft)
    (two : Keeps Framed lowerRight) (isOr : Bool) :
    Keeps Framed (lowerLogical lowerLeft lowerRight isOr) :=
  .bind keeps_tempSlot fun _ => .bind (keeps_emitValue _) fun _ =>
    .bind (keeps_emitValue _) fun _ => .bind keeps_freshLabel fun _ =>
    .bind keeps_freshLabel fun _ =>
    .bind (keeps_emitEffect _) fun _ => .bind one fun _ =>
    .bind (keeps_emitShortcut _ _ _ _) fun _ => .bind two fun _ =>
    .bind (keeps_emitShortcut _ _ _ _) fun _ => .bind (keeps_onlyIf _ (keeps_emitEffect _)) fun _ =>
    .bind (keeps_emitEffect _) fun _ => .bind (keeps_emitEffect _) fun _ =>
    .bind (keeps_emitEffect _) fun _ => keeps_emitValue _

theorem keeps_lowerTernary {lowerCond lowerTrue lowerFalse : LowerM Int}
    (cond : Keeps Framed lowerCond) (yes : Keeps Framed lowerTrue) (no : Keeps Framed lowerFalse) :
    Keeps Framed (lowerTernary lowerCond lowerTrue lowerFalse) :=
  .bind keeps_tempSlot fun _ => .bind keeps_freshLabel fun _ => .bind keeps_freshLabel fun _ =>
    .bind cond fun _ => .bind (keeps_emitBrUnless _ _) fun _ =>
    .bind yes fun _ => .bind (keeps_emitEffect _) fun _ => .bind (keeps_emitEffect _) fun _ =>
    .bind (keeps_emitEffect _) fun _ => .bind no fun _ => .bind (keeps_emitEffect _) fun _ =>
    .bind (keeps_emitEffect _) fun _ => keeps_emitValue _

/-- The lowerings an argument carries satisfy a predicate. -/
def Arg.All (P : LowerM Int → Prop) (arg : Arg) : Prop := P arg.lower ∧ P arg.lowerTarget

section Calls

variable (env : Env)

theorem keeps_lowerPrint {args : List Arg} (each : ∀ arg ∈ args, arg.All (Keeps Framed)) :
    Keeps Framed (lowerPrint env args) := by
  unfold lowerPrint
  split
  · refine .bind .get fun _ => .ite (.error _) ?_
    exact .bind (each _ (List.mem_singleton_self _)).1 fun _ => .bind (keeps_emitValue _) fun _ =>
      .bind (keeps_emitValue _) fun _ => .bind (keeps_emitValue _) fun _ => keeps_emitValue _
  · exact .error _

theorem keeps_lowerAddrOf (leaf : String) {args : List Arg}
    (each : ∀ arg ∈ args, arg.All (Keeps Framed)) : Keeps Framed (lowerAddrOf leaf args) := by
  unfold lowerAddrOf
  split
  · split
    · exact .error _
    · exact (each _ (List.mem_singleton_self _)).2
    · refine .bind .get fun b => ?_
      split
      · exact keeps_emitValue _
      · exact keeps_emitValue _
    · exact .error _
  · exact .error _

theorem keeps_addOffset (addr : Int) {offset : Option Arg}
    (each : ∀ arg ∈ offset, arg.All (Keeps Framed)) : Keeps Framed (addOffset addr offset) := by
  cases offset with
  | none => exact .pure addr
  | some arg => exact .bind (each arg rfl).1 fun _ => keeps_emitValue _

theorem keeps_lowerLoad64 {args : List Arg} (each : ∀ arg ∈ args, arg.All (Keeps Framed)) :
    Keeps Framed (lowerLoad64 args) := by
  unfold lowerLoad64
  split
  · rename_i ptr rest
    refine .ite (.error _) ?_
    refine .bind (each ptr (by simp)).1 fun _ => .bind (keeps_addOffset _ fun arg head => ?_)
      fun _ => keeps_emitValue _
    exact each arg (List.mem_cons_of_mem _ (List.mem_of_mem_head? head))
  · exact .error _

theorem keeps_lowerStoreAt {ptr value : Arg} {offset : Option Arg}
    (first : ptr.All (Keeps Framed)) (second : value.All (Keeps Framed))
    (third : ∀ arg ∈ offset, arg.All (Keeps Framed)) :
    Keeps Framed (lowerStore64.lowerStoreAt ptr value offset) :=
  .bind (keeps_both first.1 second.1) fun _ => .bind (keeps_addOffset _ third) fun _ =>
    .bind (keeps_emitEffect _) fun _ => keeps_emitValue _

theorem keeps_lowerStore64 (intrinsicOrder : Bool) {args : List Arg}
    (each : ∀ arg ∈ args, arg.All (Keeps Framed)) :
    Keeps Framed (lowerStore64 intrinsicOrder args) := by
  unfold lowerStore64
  refine .ite (.error _) ?_
  split
  · exact keeps_lowerStoreAt (each _ (by simp)) (each _ (by simp)) (by simpa using each _ (by simp))
  · exact keeps_lowerStoreAt (each _ (by simp)) (each _ (by simp)) (by simp)
  · exact keeps_lowerStoreAt (each _ (by simp)) (each _ (by simp)) (by simpa using each _ (by simp))
  · exact .error _

theorem keeps_convertArg (param : Option Param) (isF64 isF32 : Bool) (value : Int) :
    Keeps Framed (convertArg param isF64 isF32 value) := by
  cases param with
  | none => exact .pure value
  | some param => exact .ite (keeps_emitValue _) (.ite (keeps_emitValue _) (.pure value))

theorem keeps_lowerCallArgs (params : List Param) {args : List Arg}
    (each : ∀ arg ∈ args, arg.All (Keeps Framed)) :
    Keeps Framed (lowerCallArgs env params args) := by
  induction args generalizing params with
  | nil => exact .pure []
  | cons arg rest ih =>
    refine .ite (.error _) ?_
    exact .bind .get fun _ => .bind (each arg (by simp)).1 fun _ =>
      .bind (keeps_convertArg _ _ _ _) fun _ =>
      .bind (ih _ fun other member => each other (by simp [member])) fun _ => .pure _

theorem keeps_captureSecond (ext : ExternEntry) : Keeps Framed (captureSecond ext) := by
  unfold captureSecond
  split
  · exact .pure none
  · split
    · exact .error _
    · exact .bind (keeps_emitValue _) fun _ => .pure _

theorem keeps_storeSecond (ptr : Int) (second : Option Int) :
    Keeps Framed (storeSecond ptr second) := by
  cases second with
  | none => exact .pure ()
  | some second =>
    exact .bind (keeps_emitValue _) fun _ => .bind (keeps_emitValue _) fun _ => keeps_emitEffect _

theorem keeps_storeAggregate (ext : ExternEntry) (ptr call : Int) :
    Keeps Framed (storeAggregate ext ptr call) := by
  refine .ite (.ite ?_ ?_) ?_
  · exact .bind (keeps_emitValue _) fun _ => .bind (keeps_emitValue _) fun _ =>
      .bind (keeps_emitEffect _) fun _ => keeps_storeSecond _ _
  · exact .bind (keeps_emitValue _) fun _ => .bind (keeps_captureSecond _) fun _ =>
      .bind (keeps_emitEffect _) fun _ => keeps_storeSecond _ _
  · exact .bind (keeps_captureSecond _) fun _ => .bind (keeps_emitEffect _) fun _ =>
      keeps_storeSecond _ _

theorem keeps_lowerExternCall (name : String) (ext : ExternEntry) (values : List Int) :
    Keeps Framed (lowerExternCall env name ext values) := by
  refine .ite (.error _) (.ite (.error _) (.ite (keeps_emitValue _) ?_))
  refine .bind (keeps_emitValue _) fun _ => .ite (.ite (.error _) ?_) ?_
  · exact .bind (keeps_emitValue _) fun _ => .pure _
  · exact .bind (keeps_emitValue _) fun _ => .bind (keeps_storeAggregate _ _ _) fun _ => .pure _

theorem keeps_lowerDirectCall (name : String) {args : List Arg}
    (each : ∀ arg ∈ args, arg.All (Keeps Framed)) :
    Keeps Framed (lowerDirectCall env name args) := by
  refine .ite (.error _) (.bind (keeps_lowerCallArgs env _ each) fun values => ?_)
  cases externTableLookup env name with
  | some ext => exact keeps_lowerExternCall env name ext values
  | none =>
    cases builtinCCall (leafName name) with
    | some symbol => exact keeps_emitValue _
    | none => exact keeps_emitValue _

theorem keeps_lowerCall (name : String) {args : List Arg}
    (each : ∀ arg ∈ args, arg.All (Keeps Framed)) : Keeps Framed (lowerCall env name args) :=
  .ite (keeps_lowerPrint env each) (.ite (keeps_lowerAddrOf _ each) (.ite (keeps_lowerLoad64 each)
    (.ite (keeps_lowerStore64 _ each) (.ite (keeps_lowerStore64 _ each)
      (keeps_lowerDirectCall env name each)))))

end Calls

/-- What the combinators for expressions preserve holds of the lowering of every expression. -/
structure ExprClosed (env : Env) (P : LowerM Int → Prop) : Prop where
  error : ∀ err, P fun _ => .error err
  literal : ∀ lit, P (lowerLiteral lit)
  ident : ∀ name, P (lowerIdent name)
  unary : ∀ op x, P x → P (x >>= lowerUnary op)
  binary : ∀ op left right x y, P x → P y → P (lowerBinary env op left right x y)
  logical : ∀ x y isOr, P x → P y → P (lowerLogical x y isOr)
  ternary : ∀ x y z, P x → P y → P z → P (lowerTernary x y z)
  call : ∀ name args, (∀ arg ∈ args, arg.All P) → P (lowerCall env name args)
  deref : ∀ x, P x → P (x >>= emitLoadI64)

mutual

theorem ExprClosed.lowerExpr {env : Env} {P : LowerM Int → Prop} (closed : ExprClosed env P) :
    ∀ e, P (lowerExpr env e)
  | .missing => by rw [Lower.lowerExpr]; exact closed.error _
  | .literal lit => by rw [Lower.lowerExpr]; exact closed.literal lit
  | .ident name => by rw [Lower.lowerExpr]; exact closed.ident name
  | .unary op right => by
    rw [Lower.lowerExpr]
    split
    · exact closed.error _
    · exact closed.unary op _ (closed.lowerExpr right)
  | .binary op left right => by
    rw [Lower.lowerExpr]
    exact closed.binary op left right _ _ (closed.lowerExpr left) (closed.lowerExpr right)
  | .logical op left right => by
    rw [Lower.lowerExpr]
    split
    · exact closed.error _
    · exact closed.logical _ _ _ (closed.lowerExpr left) (closed.lowerExpr right)
  | .ternary cond trueExpr falseExpr => by
    rw [Lower.lowerExpr]
    split
    · exact closed.error _
    · exact closed.ternary _ _ _ (closed.lowerExpr cond) (closed.lowerExpr trueExpr)
        (closed.lowerExpr falseExpr)
  | .call callee args => by
    rw [Lower.lowerExpr]
    unfold lowerCallee
    split
    · exact closed.call _ _ (closed.lowerArgs args)
    · exact closed.error _
  | .memcall target name args => by
    rw [Lower.lowerExpr]
    unfold lowerMember
    split
    · dsimp only
      split
      · exact closed.error _
      · exact closed.call _ _ (closed.lowerArgs args)
    · exact closed.error _
  | .deref target => by
    rw [Lower.lowerExpr]
    exact closed.deref _ (closed.lowerExpr target)
  | .other kind => by rw [Lower.lowerExpr]; exact closed.error _

theorem ExprClosed.lowerArgs {env : Env} {P : LowerM Int → Prop} (closed : ExprClosed env P) :
    ∀ args, ∀ arg ∈ lowerArgs env args, arg.All P
  | .nil => by
    intro arg member
    rw [Lower.lowerArgs] at member
    cases member
  | .cons name val rest => by
    intro arg member
    rw [Lower.lowerArgs, List.mem_cons] at member
    rcases member with rfl | later
    · exact ⟨closed.lowerExpr val, closed.lowerPointer val⟩
    · exact closed.lowerArgs rest arg later

theorem ExprClosed.lowerPointer {env : Env} {P : LowerM Int → Prop} (closed : ExprClosed env P) :
    ∀ e, P (lowerPointer env e)
  | .deref target => by rw [Lower.lowerPointer]; exact closed.lowerExpr target
  | .missing | .literal _ | .ident _ | .unary _ _ | .binary _ _ _ | .logical _ _ _
  | .ternary _ _ _ | .call _ _ | .memcall _ _ _ | .other _ => by
    unfold Lower.lowerPointer
    exact closed.error _

end

theorem keeps_lowerExpr (env : Env) (e : Expr) : Keeps Framed (lowerExpr env e) := by
  refine ExprClosed.lowerExpr (P := Keeps Framed) ?_ e
  constructor
  · exact fun err => .error err
  · exact keeps_lowerLiteral
  · exact keeps_lowerIdent
  · exact fun op x framed => .bind framed fun value => keeps_lowerUnary op value
  · exact fun op left right x y => keeps_lowerBinary env op left right
  · exact fun x y isOr one two => keeps_lowerLogical one two isOr
  · exact fun x y z => keeps_lowerTernary
  · exact fun name args => keeps_lowerCall env name
  · exact fun x framed => .bind framed fun addr => keeps_emitValue _

end Framed

end Nytrix.Lower
