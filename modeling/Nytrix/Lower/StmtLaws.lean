import Nytrix.Lower.BuilderLaws

/-! What the lowering of a statement leaves: its loops are closed and control leaves by a return. -/

namespace Nytrix.Lower
open Nytrix.Nir Nytrix.Lib

theorem hasRet_mono {data data' : List Inst} (longer : data <+: data') (has : HasRet data) :
    HasRet data' := by
  obtain ⟨inst, member, op⟩ := has
  exact ⟨inst, longer.subset member, op⟩

/--
What the lowering of a statement leaves.

It is back in the loops it began in, and control has left it only by a return, unless it stands in
a loop.
-/
structure Enclosed (b b' : Builder) : Prop extends Grows b b' where
  loops : b'.loops = b.loops
  leaves : b'.emittedReturn = true → b.emittedReturn = true ∨ b.loops ≠ [] ∨ HasRet b'.nir.data

theorem Enclosed.trans {b c d : Builder} (first : Enclosed b c) (second : Enclosed c d) :
    Enclosed b d := by
  refine ⟨IsTrans.trans _ _ _ first.toGrows second.toGrows, second.loops.trans first.loops, ?_⟩
  intro left
  rcases second.leaves left with before | inLoop | returns
  · rcases first.leaves before with before | inLoop | returns
    · exact .inl before
    · exact .inr (.inl inLoop)
    · exact .inr (.inr (hasRet_mono second.data returns))
  · rw [first.loops] at inLoop
    exact .inr (.inl inLoop)
  · exact .inr (.inr returns)

theorem Framed.enclosed {b b' : Builder} (framed : Framed b b') : Enclosed b b' :=
  ⟨framed.toGrows, framed.loops, fun left => .inl (framed.emittedReturn ▸ left)⟩

instance : Std.Refl Enclosed where
  refl b := Framed.enclosed (Std.Refl.refl b)

instance : IsTrans Builder Enclosed where
  trans _ _ _ := Enclosed.trans

theorem keeps_enclosed {α : Type} {x : LowerM α} (framed : Keeps Framed x) : Keeps Enclosed x :=
  fun b a b' done => (framed b a b' done).enclosed

theorem keeps_modify {f : Builder → Builder} (same : ∀ b, Enclosed b (f b)) :
    Keeps Enclosed (modify f : LowerM Unit) := by
  intro b _ b' done
  obtain ⟨-, rfl⟩ := Prod.mk.inj (modify_ok_iff.mp done)
  exact same b

theorem keeps_setLastValue (value : Int) : Keeps Enclosed (setLastValue value) :=
  keeps_modify fun _ => ⟨⟨List.prefix_refl _, Int.le_refl _, Nat.le_refl _, Nat.le_refl _⟩, rfl,
    fun left => .inl left⟩

theorem keeps_setEmittedReturn : Keeps Enclosed (setEmittedReturn false) :=
  keeps_modify fun _ => ⟨⟨List.prefix_refl _, Int.le_refl _, Nat.le_refl _, Nat.le_refl _⟩, rfl,
    fun left => by cases left⟩

theorem keeps_bindLocalTyped (name : String) (isF64 isF32 : Bool) :
    Keeps Enclosed (bindLocalTyped name isF64 isF32) := by
  intro b slot b' done
  unfold bindLocalTyped at done
  split at done
  · cases done
  · split at done
    · cases done
    · split at done
      · cases done
      · rename_i slot' b₁ ran
        obtain ⟨-, rfl⟩ := Prod.mk.inj (Except.ok.inj done)
        have framed := keeps_tempSlot b slot' b₁ ran
        exact ⟨⟨framed.data, framed.values, framed.slots, framed.labels⟩, framed.loops,
          framed.enclosed.leaves⟩

theorem keeps_addLocal (name : String) : Keeps Enclosed (addLocal name) := by
  intro b slot b' done
  unfold addLocal at done
  split at done
  · cases done
  · split at done
    · obtain ⟨-, rfl⟩ := Prod.mk.inj (Except.ok.inj done)
      exact Std.Refl.refl b
    · exact keeps_bindLocalTyped name false false b slot b' done

theorem keeps_lowerInitializer (env : Env) (isF32 : Bool) (init : Expr) :
    Keeps Framed (lowerInitializer env isF32 init) := by
  unfold lowerInitializer
  split
  · exact keeps_emitValue _
  · exact keeps_lowerExpr env init

theorem keeps_lowerBinding (env : Env) (isDecl : Bool) (name : String) (init : Expr)
    (type : Option String) : Keeps Enclosed (lowerBinding env isDecl name init type) := by
  refine .ite (.pure ()) (.ite (.error _) (.bind .get fun b => ?_))
  refine .bind (.ite (keeps_bindLocalTyped _ _ _) (keeps_addLocal _)) fun slot => ?_
  refine .bind (keeps_modify fun _ => ⟨⟨List.prefix_refl _, Int.le_refl _, Nat.le_refl _,
    Nat.le_refl _⟩, rfl, fun left => .inl left⟩) fun _ => ?_
  exact .bind (keeps_enclosed (keeps_lowerInitializer _ _ _)) fun _ => .bind .get fun _ =>
    .bind (.ite (keeps_enclosed (keeps_emitValue _)) (.pure _)) fun _ =>
    .bind (keeps_enclosed (keeps_emitEffect _)) fun _ => keeps_setLastValue _

theorem keeps_lowerBindings (env : Env) (isDecl : Bool) (names : List String) (exprs : List Expr)
    (types : List (Option String)) :
    Keeps Enclosed (lowerBindings env isDecl names exprs types) := by
  induction names generalizing exprs types with
  | nil => exact .pure ()
  | cons name names ih => exact .bind (keeps_lowerBinding _ _ _ _ _) fun _ => ih _ _

theorem keeps_endBranch (b₀ : Builder) (slot : Nat) {leave : LowerM Unit}
    (leaving : Keeps Framed leave) : Keeps Framed (endBranch b₀ slot leave) :=
  .ite (.pure true) (.bind (keeps_onlyIf _ (keeps_emitEffect _)) fun _ => .bind leaving fun _ =>
    .pure false)

theorem lowerBranch_enclosed {lower leave : LowerM Unit} (enclosed : Keeps Enclosed lower)
    (leaving : Keeps Framed leave) {slot : Nat} {b b' : Builder} {left : Bool}
    (done : lowerBranch lower slot leave b = .ok (left, b')) :
    Enclosed b b' ∧ (left = true → b.loops ≠ [] ∨ HasRet b'.nir.data) := by
  simp only [lowerBranch, bind_ok_iff] at done
  obtain ⟨_, b₁, cleared, _, b₂, ran, seen, b₃, got, ended⟩ := done
  obtain ⟨rfl, rfl⟩ := Prod.mk.inj (get_ok_iff.mp got)
  have start := keeps_setEmittedReturn b _ b₁ cleared
  have body := enclosed b₁ _ b₂ ran
  have finish := keeps_endBranch b₂ slot leaving b₂ left b' ended
  refine ⟨(start.trans body).trans finish.enclosed, ?_⟩
  intro answered
  -- Only a body after which control has left answers so, and it began with control not left.
  have gone : b₂.emittedReturn = true := by
    unfold endBranch at ended
    split at ended
    · assumption
    · simp only [bind_ok_iff] at ended
      obtain ⟨_, _, _, _, _, _, last⟩ := ended
      obtain ⟨rfl, -⟩ := Prod.mk.inj (pure_ok_iff.mp last)
      cases answered
  have cleared' : b₁.emittedReturn = false := by
    obtain ⟨-, rfl⟩ := Prod.mk.inj (modify_ok_iff.mp cleared)
    rfl
  rcases body.leaves gone with before | inLoop | returns
  · simp [cleared'] at before
  · exact .inl (start.loops ▸ inLoop)
  · exact .inr (hasRet_mono finish.data returns)

theorem lowerOptional_enclosed {lower : Option (LowerM Unit)} {leave : LowerM Unit}
    (enclosed : ∀ x ∈ lower, Keeps Enclosed x) (leaving : Keeps Framed leave) {slot : Nat}
    {b b' : Builder} {left : Bool} (done : lowerOptional lower slot leave b = .ok (left, b')) :
    Enclosed b b' ∧ (left = true → b.loops ≠ [] ∨ HasRet b'.nir.data) := by
  cases lower with
  | some lower => exact lowerBranch_enclosed (enclosed lower rfl) leaving done
  | none =>
    obtain ⟨rfl, rfl⟩ := Prod.mk.inj (pure_ok_iff.mp done)
    exact ⟨Std.Refl.refl _, nofun⟩

theorem lowerJoin_done {returned : Bool} {mergeLabel slot : Nat} {b b' : Builder}
    (done : lowerJoin returned mergeLabel slot b = .ok ((), b')) :
    Grows b b' ∧ b'.loops = b.loops ∧ b'.emittedReturn = returned := by
  simp only [lowerJoin, bind_ok_iff] at done
  obtain ⟨_, b₁, settled, rest⟩ := done
  obtain ⟨-, rfl⟩ := Prod.mk.inj (modify_ok_iff.mp settled)
  unfold onlyIf at rest
  split at rest
  · simp only [loadResult, bind_ok_iff] at rest
    obtain ⟨_, b₂, placed, loaded, b₃, load, last⟩ := rest
    obtain ⟨-, rfl⟩ := Prod.mk.inj (modify_ok_iff.mp last)
    have framed := IsTrans.trans _ _ _ (keeps_emitEffect _ _ _ _ placed)
      (keeps_emitValue _ _ _ _ load)
    exact ⟨⟨framed.data, framed.values, framed.slots, framed.labels⟩, framed.loops,
      framed.emittedReturn⟩
  · obtain ⟨-, rfl⟩ := Prod.mk.inj (pure_ok_iff.mp rest)
    exact ⟨⟨List.prefix_refl _, Int.le_refl _, Nat.le_refl _, Nat.le_refl _⟩, rfl, rfl⟩

theorem Enclosed.join {b entry b₁ b' : Builder} {returned left : Bool} {mergeLabel slot : Nat}
    (head : Enclosed b entry) (branches : Enclosed entry b₁)
    (gone : left = true → entry.loops ≠ [] ∨ HasRet b₁.nir.data)
    (answer : returned = true → entry.emittedReturn = true ∨ left = true)
    (done : lowerJoin returned mergeLabel slot b₁ = .ok ((), b')) : Enclosed b b' := by
  obtain ⟨grows, loops, same⟩ := lowerJoin_done done
  have start := head.trans branches
  refine ⟨IsTrans.trans _ _ _ start.toGrows grows, loops.trans start.loops, fun finished => ?_⟩
  rcases answer (same ▸ finished) with before | last
  · rcases head.leaves before with earlier | inLoop | returns
    · exact .inl earlier
    · exact .inr (.inl inLoop)
    · exact .inr (.inr (hasRet_mono (branches.data.trans grows.data) returns))
  · rcases gone last with inLoop | returns
    · exact .inr (.inl (head.loops ▸ inLoop))
    · exact .inr (.inr (hasRet_mono grows.data returns))

theorem keeps_lowerIf {lowerInit lowerConseq : LowerM Unit} {lowerTest : LowerM Int}
    {lowerAlt : Option (LowerM Unit)} (init : Keeps Enclosed lowerInit)
    (test : Keeps Framed lowerTest) (conseq : Keeps Enclosed lowerConseq)
    (alt : ∀ x ∈ lowerAlt, Keeps Enclosed x) :
    Keeps Enclosed (lowerIf lowerInit lowerTest lowerConseq lowerAlt) := by
  -- Everything up to the entry of the branches is enclosed, part by part.
  intro b _ b' done
  simp only [lowerIf, bind_ok_iff] at done
  obtain ⟨_, b₁, ran₁, _, b₂, ran₂, _, b₄, ran₄, _, b₅, ran₅, _, b₆, ran₆, _, b₇, ran₇, _, b₈,
    ran₈, entry, b₉, ran₉, _, b₁₀, ran₁₀, left₁, b₁₁, ran₁₁, _, b₁₂, ran₁₂, _, b₁₃, ran₁₃, _, b₁₄,
    ran₁₄, left₂, b₁₅, ran₁₅, _, b₁₆, ran₁₆, ran₁₇⟩ := done
  obtain ⟨rfl, rfl⟩ := Prod.mk.inj (get_ok_iff.mp ran₉)
  have head : Enclosed b b₈ := (init _ _ _ ran₁).trans <| (test _ _ _ ran₂).enclosed.trans <|
    (keeps_freshLabel _ _ _ ran₄).enclosed.trans <|
    (keeps_freshLabel _ _ _ ran₅).enclosed.trans <|
    (keeps_freshLabel _ _ _ ran₆).enclosed.trans <|
    (keeps_emitBrUnless _ _ _ _ _ ran₇).enclosed.trans (keeps_tempSlot _ _ _ ran₈).enclosed
  obtain ⟨first, -⟩ := lowerBranch_enclosed conseq (keeps_emitEffect _) ran₁₁
  have middle : Enclosed b₈ b₁₄ :=
    (keeps_onlyIf _ (keeps_emitEffect _) _ _ _ ran₁₀).enclosed.trans <| first.trans <|
    (keeps_emitEffect _ _ _ _ ran₁₂).enclosed.trans <| (keeps_setEmittedReturn _ _ _ ran₁₃).trans
    (keeps_setLastValue _ _ _ _ ran₁₄)
  obtain ⟨second, gone⟩ := lowerOptional_enclosed alt (.pure ()) ran₁₅
  refine (head.join (middle.trans second) (middle.loops ▸ gone) ?_ ran₁₆).trans
    (keeps_emitEffect _ _ _ _ ran₁₇).enclosed
  simp only [Bool.or_eq_true, Bool.and_eq_true]
  rintro (before | ⟨-, last⟩)
  · exact .inl before
  · exact .inr last

theorem loop_enclosed {labels : LoopLabels} {entry b₁ b₂ b' : Builder}
    (entered : enterLoop labels entry = .ok ((), b₁)) (inside : Grows b₁ b₂)
    (left : leaveLoop entry b₂ = .ok ((), b')) : Enclosed entry b' := by
  simp only [enterLoop, bind_ok_iff] at entered
  obtain ⟨seen, b₀, got, entered⟩ := entered
  obtain ⟨rfl, rfl⟩ := Prod.mk.inj (get_ok_iff.mp got)
  split at entered
  · cases entered
  · obtain ⟨-, rfl⟩ := Prod.mk.inj (modify_ok_iff.mp entered)
    obtain ⟨-, rfl⟩ := Prod.mk.inj (modify_ok_iff.mp left)
    exact ⟨⟨inside.data, inside.values, inside.slots, inside.labels⟩, rfl, .inl⟩

theorem keeps_lowerUpdateClause (label : Nat) {lowerUpdate : Option (LowerM Unit)}
    (update : ∀ x ∈ lowerUpdate, Keeps Enclosed x) :
    Keeps Enclosed (lowerUpdateClause label lowerUpdate) := by
  cases lowerUpdate with
  | none => exact .pure ()
  | some lowerUpdate =>
    exact .bind keeps_setEmittedReturn fun _ =>
      .bind (keeps_enclosed (keeps_emitEffect _)) fun _ => update _ rfl

theorem keeps_lowerWhile {lowerInit lowerBody : LowerM Unit} {lowerTest : LowerM Int}
    {lowerUpdate : Option (LowerM Unit)} (init : Keeps Enclosed lowerInit)
    (test : Keeps Framed lowerTest) (body : Keeps Enclosed lowerBody)
    (update : ∀ x ∈ lowerUpdate, Keeps Enclosed x) :
    Keeps Enclosed (lowerWhile lowerInit lowerTest lowerBody lowerUpdate) := by
  intro b _ b' done
  simp only [lowerWhile, bind_ok_iff] at done
  obtain ⟨_, b₁, ran₁, _, b₂, ran₂, _, b₃, ran₃, _, b₄, ran₄, _, b₅, ran₅, _, b₆, ran₆, _, b₈,
    ran₈, entry, b₉, ran₉, _, b₁₀, ran₁₀, _, b₁₁, ran₁₁, _, b₁₂, ran₁₂, _, b₁₃, ran₁₃, _, b₁₄,
    ran₁₄, ran₁₅⟩ := done
  obtain ⟨rfl, rfl⟩ := Prod.mk.inj (get_ok_iff.mp ran₉)
  have head : Enclosed b b₈ := (init _ _ _ ran₁).trans <|
    (keeps_freshLabel _ _ _ ran₂).enclosed.trans <|
    ((Keeps.ite keeps_freshLabel (.pure _) : Keeps Framed _) _ _ _ ran₃).enclosed.trans <|
    (keeps_freshLabel _ _ _ ran₄).enclosed.trans <|
    (keeps_emitEffect _ _ _ _ ran₅).enclosed.trans <|
    (test _ _ _ ran₆).enclosed.trans (keeps_emitBrUnless _ _ _ _ _ ran₈).enclosed
  have inside := (body _ _ _ ran₁₁).trans (keeps_lowerUpdateClause _ update _ _ _ ran₁₂)
  have loop := loop_enclosed ran₁₀ inside.toGrows ran₁₃
  exact head.trans <| loop.trans <| (keeps_emitEffect _ _ _ _ ran₁₄).enclosed.trans
    (keeps_emitEffect _ _ _ _ ran₁₅).enclosed

theorem keeps_bindIndex (name : Option String) : Keeps Enclosed (bindIndex name) := by
  cases name with
  | none => exact .pure none
  | some name => exact .bind (keeps_bindLocalTyped _ _ _) fun _ => .pure _

theorem keeps_startIndex (index : Option Nat) : Keeps Framed (startIndex index) := by
  cases index with
  | none => exact .pure ()
  | some slot => exact .bind (keeps_emitValue _) fun _ => keeps_emitEffect _

theorem keeps_stepSlot (slot : Nat) (one : Int) : Keeps Framed (stepSlot slot one) :=
  .bind (keeps_emitValue _) fun _ => .bind (keeps_emitValue _) fun _ => keeps_emitEffect _

theorem keeps_stepIndex (one : Int) (index : Option Nat) : Keeps Framed (stepIndex one index) := by
  cases index with
  | none => exact .pure ()
  | some slot => exact keeps_stepSlot slot one

theorem keeps_lowerRangeStart (env : Env) (lo hi : Expr) (iter : Nat) (index : Option Nat) :
    Keeps Framed (lowerRangeStart env lo hi iter index) :=
  .bind (keeps_both (keeps_lowerExpr _ _) (keeps_lowerExpr _ _)) fun _ =>
    .bind keeps_tempSlot fun _ => .bind (keeps_emitEffect _) fun _ =>
    .bind (keeps_emitEffect _) fun _ => .bind (keeps_startIndex _) fun _ => .pure _

theorem keeps_lowerRangeTest (iter hiSlot endLabel : Nat) :
    Keeps Framed (lowerRangeTest iter hiSlot endLabel) :=
  .bind (keeps_emitValue _) fun _ => .bind (keeps_emitValue _) fun _ =>
    .bind (keeps_emitValue _) fun _ => keeps_emitBrUnless _ _

theorem keeps_lowerRangeUpdate (iter : Nat) (index : Option Nat) (updateLabel : Nat) :
    Keeps Enclosed (lowerRangeUpdate iter index updateLabel) :=
  .bind keeps_setEmittedReturn fun _ => keeps_enclosed <| .bind (keeps_emitEffect _) fun _ =>
    .bind (keeps_emitValue _) fun _ => .bind (keeps_stepSlot _ _) fun _ => keeps_stepIndex _ _

theorem keeps_lowerForRange (env : Env) (iterVar indexVar : Option String) (iterable : Expr)
    {lowerBody : LowerM Unit} (body : Keeps Enclosed lowerBody) :
    Keeps Enclosed (lowerForRange env iterVar indexVar iterable lowerBody) := by
  unfold lowerForRange
  split
  · intro b _ b' done
    simp only [bind_ok_iff] at done
    obtain ⟨start, b₀, ran₀, _, b₁, ran₁, _, b₂, ran₂, _, b₃, ran₃, _, b₄, ran₄, _, b₅, ran₅, _,
      b₆, ran₆, _, b₇, ran₇, _, b₈, ran₈, entry, b₉, ran₉, _, b₁₀, ran₁₀, _, b₁₁, ran₁₁, _, b₁₂,
      ran₁₂, _, b₁₃, ran₁₃, _, b₁₄, ran₁₄, _, b₁₅, ran₁₅, ran₁₆⟩ := done
    obtain ⟨rfl, rfl⟩ := Prod.mk.inj (get_ok_iff.mp ran₀)
    obtain ⟨rfl, rfl⟩ := Prod.mk.inj (get_ok_iff.mp ran₉)
    have names : Enclosed b b₂ :=
      (keeps_bindLocalTyped _ _ _ _ _ _ ran₁).trans (keeps_bindIndex _ _ _ _ ran₂)
    have head : Enclosed b₂ b₈ := (keeps_lowerRangeStart _ _ _ _ _ _ _ _ ran₃).enclosed.trans <|
      (keeps_freshLabel _ _ _ ran₄).enclosed.trans <|
      (keeps_freshLabel _ _ _ ran₅).enclosed.trans <|
      (keeps_freshLabel _ _ _ ran₆).enclosed.trans <|
      (keeps_emitEffect _ _ _ _ ran₇).enclosed.trans
      (keeps_lowerRangeTest _ _ _ _ _ _ ran₈).enclosed
    have inside := (body _ _ _ ran₁₁).trans (keeps_lowerRangeUpdate _ _ _ _ _ _ ran₁₂)
    have loop := loop_enclosed ran₁₀ inside.toGrows ran₁₃
    have restored := keeps_modify (f := scopeRestore b.locals.length) (fun _ =>
      ⟨⟨List.prefix_refl _, Int.le_refl _, Nat.le_refl _, Nat.le_refl _⟩, rfl, .inl⟩) _ _ _ ran₁₆
    exact names.trans <| head.trans <| loop.trans <|
      (keeps_emitEffect _ _ _ _ ran₁₄).enclosed.trans <|
      (keeps_emitEffect _ _ _ _ ran₁₅).enclosed.trans restored
  · exact .error _

theorem keeps_lowerMatchPattern (env : Env) (testValue : Int) (pat : Expr) :
    Keeps Framed (lowerMatchPattern env testValue pat) := by
  unfold lowerMatchPattern
  split
  · exact keeps_emitValue _
  · exact .bind (keeps_both (keeps_lowerExpr _ _) (keeps_lowerExpr _ _)) fun _ =>
      .bind (keeps_emitValue _) fun _ => .bind (keeps_emitValue _) fun _ => keeps_emitValue _
  · exact .bind (keeps_lowerExpr _ _) fun _ => keeps_emitValue _

theorem keeps_lowerMorePatterns (env : Env) (testValue combined : Int) (pats : List Expr) :
    Keeps Framed (lowerMorePatterns env testValue combined pats) := by
  induction pats generalizing combined with
  | nil => exact .pure combined
  | cons pat rest ih =>
    exact .bind (keeps_lowerMatchPattern _ _ _) fun _ => .bind (keeps_emitValue _) fun _ => ih _

theorem keeps_lowerMatchPatterns (env : Env) (testValue : Int) (pats : List Expr) :
    Keeps Framed (lowerMatchPatterns env testValue pats) := by
  cases pats with
  | nil => exact keeps_emitValue _
  | cons pat rest =>
    exact .bind (keeps_lowerMatchPattern _ _ _) fun _ => keeps_lowerMorePatterns _ _ _ _

theorem keeps_lowerGuard (env : Env) (guard : Expr) (nextLabel : Nat) :
    Keeps Framed (lowerGuard env guard nextLabel) := by
  unfold lowerGuard
  split
  · exact .pure ()
  · exact .bind (keeps_lowerExpr _ _) fun _ => keeps_emitBrUnless _ _

theorem keeps_lowerArm (env : Env) (testValue : Int) (slot mergeLabel : Nat) {arm : Arm}
    (conseq : Keeps Enclosed arm.lowerConseq) :
    Keeps Enclosed (lowerArm env testValue slot mergeLabel arm) := by
  have branch : Keeps Enclosed (lowerBranch arm.lowerConseq slot (emitBr mergeLabel)) :=
    fun _ _ _ done => (lowerBranch_enclosed conseq (keeps_emitEffect _) done).1
  exact .bind (keeps_enclosed keeps_freshLabel) fun _ =>
    .bind (keeps_enclosed (keeps_lowerMatchPatterns _ _ _)) fun _ =>
    .bind (keeps_enclosed (keeps_emitBrUnless _ _)) fun _ =>
    .bind (keeps_enclosed (keeps_lowerGuard _ _ _)) fun _ => .bind branch fun _ =>
    .bind (keeps_enclosed (keeps_emitEffect _)) fun _ => .pure _

theorem keeps_lowerArms (env : Env) (testValue : Int) (slot mergeLabel : Nat) {arms : List Arm}
    (each : ∀ arm ∈ arms, Keeps Enclosed arm.lowerConseq) :
    Keeps Enclosed (lowerArms env testValue slot mergeLabel arms) := by
  induction arms with
  | nil => exact .pure true
  | cons arm rest ih =>
    exact .bind (keeps_lowerArm _ _ _ _ (each arm (by simp))) fun _ =>
      .bind (ih fun other member => each other (by simp [member])) fun _ => .pure _

theorem keeps_initialResult (entry : Builder) : Keeps Framed (initialResult entry) :=
  .ite (.pure _) (keeps_emitValue _)

theorem keeps_lowerMatch (env : Env) (test : Expr) {arms : List Arm}
    {lowerDefault : Option (LowerM Unit)} (each : ∀ arm ∈ arms, Keeps Enclosed arm.lowerConseq)
    (otherwise : ∀ x ∈ lowerDefault, Keeps Enclosed x) :
    Keeps Enclosed (lowerMatch env test arms lowerDefault) := by
  refine .ite (.error _) ?_
  intro b _ b' done
  simp only [bind_ok_iff] at done
  obtain ⟨_, b₁, ran₁, _, b₂, ran₂, _, b₃, ran₃, entry, b₄, ran₄, _, b₅, ran₅, _, b₆, ran₆, left₁,
    b₇, ran₇, left₂, b₈, ran₈, ran₉⟩ := done
  obtain ⟨rfl, rfl⟩ := Prod.mk.inj (get_ok_iff.mp ran₄)
  have head : Enclosed b b₃ := (keeps_lowerExpr _ _ _ _ _ ran₁).enclosed.trans <|
    (keeps_tempSlot _ _ _ ran₂).enclosed.trans (keeps_freshLabel _ _ _ ran₃).enclosed
  have middle : Enclosed b₃ b₇ := (keeps_initialResult _ _ _ _ ran₅).enclosed.trans <|
    (keeps_emitEffect _ _ _ _ ran₆).enclosed.trans (keeps_lowerArms _ _ _ _ each _ _ _ ran₇)
  obtain ⟨last, gone⟩ := lowerOptional_enclosed otherwise (keeps_emitEffect _) ran₈
  refine head.join (middle.trans last) (middle.loops ▸ gone) ?_ ran₉
  simp only [Bool.or_eq_true, Bool.and_eq_true]
  rintro (before | ⟨-, last⟩)
  · exact .inl before
  · exact .inr last

theorem keeps_lowerJump (name : String) (label : LoopLabels → Nat) :
    Keeps Enclosed (lowerJump name label) := by
  intro b _ b' done
  simp only [lowerJump, bind_ok_iff] at done
  obtain ⟨seen, b₀, got, done⟩ := done
  obtain ⟨rfl, rfl⟩ := Prod.mk.inj (get_ok_iff.mp got)
  cases inLoop : b.loops with
  | nil =>
    rw [inLoop] at done
    cases done
  | cons labels outer =>
    simp only [inLoop, bind_ok_iff] at done
    obtain ⟨_, b₁, set, jumped⟩ := done
    obtain ⟨-, rfl⟩ := Prod.mk.inj (modify_ok_iff.mp set)
    have framed := keeps_emitEffect _ _ _ _ jumped
    exact ⟨⟨framed.data, framed.values, framed.slots, framed.labels⟩, framed.loops,
      fun _ => .inr (.inl (by simp [inLoop]))⟩

theorem keeps_emitRet (value : Int) : Keeps Enclosed (emitRet value) := by
  intro b _ b' done
  obtain ⟨-, rfl⟩ := Prod.mk.inj (Except.ok.inj done)
  have framed := framed_push b (retInst value)
  refine ⟨⟨framed.data, framed.values, framed.slots, framed.labels⟩, rfl, fun _ => .inr (.inr ?_)⟩
  exact ⟨b.emitted (retInst value), by simp [push_data], rfl⟩

mutual

theorem keeps_lowerStmt (env : Env) : ∀ s, Keeps Enclosed (lowerStmt env s)
  | .missing | .ignored | .func _ _ _ _ => by rw [lowerStmt]; exact .pure ()
  | .block isTransparent body => by
    rw [lowerStmt]
    refine .bind .get fun b => .bind (keeps_lowerStmts env body) fun _ => keeps_onlyIf _ ?_
    exact keeps_modify fun _ =>
      ⟨⟨List.prefix_refl _, Int.le_refl _, Nat.le_refl _, Nat.le_refl _⟩, rfl, .inl⟩
  | .var v => by
    rw [lowerStmt]
    exact .ite (.error _) (keeps_lowerBindings _ _ _ _ _)
  | .expr e => by
    rw [lowerStmt]
    exact .bind (keeps_enclosed (keeps_lowerExpr env e)) fun _ => keeps_setLastValue _
  | .ifThen init test conseq alt => by
    rw [lowerStmt]
    refine keeps_lowerIf (keeps_lowerStmt env init) (keeps_lowerExpr env test)
      (keeps_lowerStmt env conseq) ?_
    have := keeps_lowerStmt env alt
    split <;> simp [this]
  | .whileLoop init test body update => by
    rw [lowerStmt]
    refine keeps_lowerWhile (keeps_lowerStmt env init) (keeps_lowerExpr env test)
      (keeps_lowerStmt env body) ?_
    have := keeps_lowerStmt env update
    split <;> simp [this]
  | .forIn iterVar indexVar iterable body init cond update => by
    rw [lowerStmt]
    exact .ite (.error _) (keeps_lowerForRange env iterVar indexVar iterable
      (keeps_lowerStmt env body))
  | .caseOf test arms defaultConseq => by
    rw [lowerStmt]
    refine keeps_lowerMatch env test (keeps_armList env arms) ?_
    have := keeps_lowerStmt env defaultConseq
    split <;> simp [this]
  | .breakLoop => by rw [lowerStmt]; exact keeps_lowerJump _ _
  | .continueLoop => by rw [lowerStmt]; exact keeps_lowerJump _ _
  | .returnValue value => by
    rw [lowerStmt]
    refine .bind (keeps_enclosed ?_) fun _ => keeps_emitRet _
    unfold lowerReturned
    split
    · exact keeps_emitValue _
    · exact keeps_lowerExpr env _
  | .other kind => by rw [lowerStmt]; exact .error _

theorem keeps_lowerStmts (env : Env) : ∀ body, Keeps Enclosed (lowerStmts env body)
  | .nil => by rw [lowerStmts]; exact .pure ()
  | .cons head rest => by
    rw [lowerStmts]
    exact .bind (keeps_lowerStmt env head) fun _ => .bind .get fun _ =>
      .ite (.pure ()) (keeps_lowerStmts env rest)

theorem keeps_armList (env : Env) :
    ∀ arms, ∀ arm ∈ armList env arms, Keeps Enclosed arm.lowerConseq
  | .nil => by
    intro arm member
    rw [armList] at member
    cases member
  | .cons patterns guard conseq rest => by
    intro arm member
    rw [armList, List.mem_cons] at member
    rcases member with rfl | later
    · exact keeps_lowerStmt env conseq
    · exact keeps_armList env rest arm later

end

end Nytrix.Lower
