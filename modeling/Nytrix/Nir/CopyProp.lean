import Nytrix.Nir.Rewriting

/-! Copy propagation, and when it preserves what a function computes. -/

namespace Nytrix.Nir

open Nytrix.Lib

variable {σ : Type}

/-- The walk along aliases, at most as many links as the given depth. -/
def aliasWalk (aliases : Int → Int) : Nat → Int → Int
  | 0, cur => cur
  | depth + 1, cur =>
    if 0 ≤ aliases cur ∧ aliases cur ≠ cur then aliasWalk aliases depth (aliases cur) else cur

/-- The representative of a value, found through at most 64 aliases. -/
def aliasFind (aliases : Int → Int) (v : Int) : Int :=
  if v < 0 then v else aliasWalk aliases 64 v

/-- Records a copy's destination as an alias of its source, and any other one as itself. -/
def noteAlias (aliases : Int → Int) (inst : Inst) : Int → Int :=
  if 0 ≤ inst.dst then
    Function.update aliases inst.dst
      (if inst.op = .copy && decide (0 ≤ inst.a) then aliasFind aliases inst.a else inst.dst)
  else aliases

/-- The pass's loop: rewrite the operands, then note the destination. -/
def copyPropLoop : List Inst → (Int → Int) → List Inst
  | [], _ => []
  | inst :: rest, aliases =>
    let inst := inst.mapOperands (aliasFind aliases)
    inst :: copyPropLoop rest (noteAlias aliases inst)

/-- Copy propagation over a whole function, every value starting as its own alias. -/
def copyProp (f : Func) : Func :=
  if f.nextValue ≤ 0 then f else { f with data := copyPropLoop f.data fun v => v }

/-- The alias table before position `i`. -/
def aliasBefore (f : Func) (i : Nat) : Int → Int :=
  (f.data.take i).foldl
    (fun aliases inst => noteAlias aliases (inst.mapOperands (aliasFind aliases))) fun v => v

/-- The alias table after the whole function. -/
def aliasRoot (f : Func) : Int → Int := aliasBefore f f.data.length

theorem aliasBefore_succ {f : Func} {i : Nat} {inst : Inst} (found : f.data[i]? = some inst) :
    aliasBefore f (i + 1) =
      noteAlias (aliasBefore f i) (inst.mapOperands (aliasFind (aliasBefore f i))) := by
  simp only [aliasBefore, List.take_add_one, found, Option.toList_some, List.foldl_append,
    List.foldl_cons, List.foldl_nil]

theorem copyPropLoop_getElem? (insts : List Inst) (aliases : Int → Int) (i : Nat) :
    (copyPropLoop insts aliases)[i]? = insts[i]?.map fun inst =>
      inst.mapOperands (aliasFind ((insts.take i).foldl
        (fun aliases inst => noteAlias aliases (inst.mapOperands (aliasFind aliases))) aliases)) := by
  induction insts generalizing aliases i with
  | nil => simp [copyPropLoop]
  | cons head rest ih =>
    cases i with
    | zero => simp [copyPropLoop]
    | succ i => simp [copyPropLoop, ih]

theorem copyProp_getElem? {f : Func} (values : 0 < f.nextValue) (i : Nat) :
    (copyProp f).data[i]? =
      f.data[i]?.map fun inst => inst.mapOperands (aliasFind (aliasBefore f i)) := by
  rw [copyProp, if_neg (by omega)]
  exact copyPropLoop_getElem? f.data (fun v => v) i

/-- An alias table sends values to representatives, and both are already defined. -/
def AliasesResolved (f : Func) (i : Nat) (aliases : Int → Int) : Prop :=
  ∀ v, aliases v = v ∨
    (definedBefore f i v = true ∧ definedBefore f i (aliases v) = true ∧ aliases (aliases v) = aliases v)

theorem aliasFind_eq {f : Func} {i : Nat} {aliases : Int → Int} (resolved : AliasesResolved f i aliases)
    {v : Int} (given : 0 ≤ v) : aliasFind aliases v = aliases v := by
  -- The walk takes at most one link, so the depth limit is never reached.
  rw [aliasFind, if_neg (by omega), aliasWalk]
  rcases resolved v with self | ⟨-, target, settled⟩
  · rw [if_neg (by simp [self]), self]
  · have nonneg : 0 ≤ aliases v := (definedBefore_iff.mp target).1
    by_cases self : aliases v = v
    · rw [if_neg (by simp [self]), self]
    · rw [if_pos ⟨nonneg, self⟩, aliasWalk, if_neg (by simp [settled])]

section Accepted

variable {f : Func} (accepted : verify f = .ok ())

include accepted

theorem copy_source_defined {i : Nat} {inst : Inst} (found : f.data[i]? = some inst)
    (isCopy : inst.op = .copy) : 0 ≤ inst.dst ∧ definedBefore f i inst.a = true := by
  have formed := (OpOk.of_verify accepted found).wellFormed
  simp only [Inst.wellFormed, isCopy, Op.shape, decide_eq_true_eq] at formed
  exact ⟨formed, (read_defined accepted found (by simp [Inst.reads, isCopy, Op.shape])).2.2⟩

theorem noteAlias_eq {i : Nat} {inst : Inst} {aliases : Int → Int}
    (resolved : AliasesResolved f i aliases) (found : f.data[i]? = some inst) :
    noteAlias aliases (inst.mapOperands (aliasFind aliases)) =
      if 0 ≤ inst.dst then
        Function.update aliases inst.dst (if inst.op = .copy then aliases inst.a else inst.dst)
      else aliases := by
  by_cases has : 0 ≤ inst.dst
  · by_cases isCopy : inst.op = .copy
    · obtain ⟨-, source⟩ := copy_source_defined accepted found isCopy
      have given : 0 ≤ inst.a := (definedBefore_iff.mp source).1
      have settled : aliases (aliases inst.a) = aliases inst.a ∧ 0 ≤ aliases inst.a := by
        rcases resolved inst.a with self | ⟨-, target, settled⟩
        · rw [self, self]
          exact ⟨rfl, given⟩
        · exact ⟨settled, (definedBefore_iff.mp target).1⟩
      simp [noteAlias, Inst.mapOperands, has, isCopy, renameOperand, given,
        aliasFind_eq resolved given, settled.2, aliasFind_eq resolved settled.2, settled.1]
    · simp [noteAlias, Inst.mapOperands, has, isCopy]
  · simp [noteAlias, Inst.mapOperands, has]

theorem aliasesResolved {i : Nat} (inside : i ≤ f.data.length) :
    AliasesResolved f i (aliasBefore f i) := by
  induction i with
  | zero =>
    intro v
    exact .inl rfl
  | succ i ih =>
    have resolved := ih (by omega)
    obtain ⟨inst, found⟩ : ∃ inst, f.data[i]? = some inst :=
      ⟨_, List.getElem?_eq_getElem (by omega)⟩
    rw [aliasBefore_succ found, noteAlias_eq accepted resolved found]
    -- The new destination is fresh, so it is neither an alias nor a representative yet.
    have older : ∀ u, definedBefore f i u = true → definedBefore f (i + 1) u = true :=
      fun u => definedBefore_mono (by omega)
    intro v
    split
    · rename_i has
      have fresh := (CommonOk.of_verify accepted found).dstFresh has
      have distinct : ∀ u, definedBefore f i u = true → u ≠ inst.dst := by
        rintro u known rfl
        rw [fresh] at known
        cases known
      by_cases same : v = inst.dst
      · subst same
        rw [Function.update_self]
        split
        · rename_i isCopy
          obtain ⟨-, source⟩ := copy_source_defined accepted found isCopy
          have target : definedBefore f i (aliasBefore f i inst.a) = true := by
            rcases resolved inst.a with self | ⟨-, target, -⟩
            · rw [self]; exact source
            · exact target
          have settled : aliasBefore f i (aliasBefore f i inst.a) = aliasBefore f i inst.a := by
            rcases resolved inst.a with self | ⟨-, -, settled⟩
            · rw [self, self]
            · exact settled
          refine .inr ⟨definedBefore_iff.mpr ⟨has, i, inst, by omega, found, rfl⟩,
            older _ target, ?_⟩
          rw [Function.update_of_ne (distinct _ target)]
          exact settled
        · exact .inl rfl
      · rw [Function.update_of_ne same]
        rcases resolved v with self | ⟨known, target, settled⟩
        · exact .inl self
        · refine .inr ⟨older _ known, older _ target, ?_⟩
          rw [Function.update_of_ne (distinct _ target)]
          exact settled
    · rcases resolved v with self | ⟨known, target, settled⟩
      · exact .inl self
      · exact .inr ⟨older _ known, older _ target, settled⟩

theorem aliasBefore_stable {i k : Nat} {v : Int} (known : definedBefore f i v = true)
    (later : i ≤ k) (inside : k ≤ f.data.length) : aliasBefore f k v = aliasBefore f i v := by
  induction k with
  | zero =>
    have : i = 0 := by omega
    rw [this]
  | succ k ih =>
    rcases Nat.lt_or_ge k i with before | after
    · have : i = k + 1 := by omega
      rw [this]
    · obtain ⟨inst, found⟩ : ∃ inst, f.data[k]? = some inst :=
        ⟨_, List.getElem?_eq_getElem (by omega)⟩
      rw [aliasBefore_succ found, noteAlias_eq accepted (aliasesResolved accepted (by omega)) found]
      split
      · rename_i has
        have fresh := (CommonOk.of_verify accepted found).dstFresh has
        have other : v ≠ inst.dst := by
          rintro rfl
          rw [definedBefore_mono after known] at fresh
          cases fresh
        rw [Function.update_of_ne other]
        exact ih after (by omega)
      · exact ih after (by omega)

theorem aliasBefore_eq_root {i : Nat} {v : Int} (inside : i ≤ f.data.length)
    (known : definedBefore f i v = true) : aliasBefore f i v = aliasRoot f v :=
  (aliasBefore_stable accepted known inside (Nat.le_refl _)).symm

theorem aliasRoot_copy {i : Nat} {inst : Inst} (found : f.data[i]? = some inst)
    (isCopy : inst.op = .copy) : aliasRoot f inst.dst = aliasRoot f inst.a := by
  have inside := (List.getElem?_eq_some_iff.mp found).1
  obtain ⟨has, source⟩ := copy_source_defined accepted found isCopy
  rw [← aliasBefore_eq_root accepted (i := i + 1) (by omega)
      (definedBefore_iff.mpr ⟨has, i, inst, by omega, found, rfl⟩),
    aliasBefore_succ found, noteAlias_eq accepted (aliasesResolved accepted (by omega)) found,
    if_pos has, Function.update_self, if_pos isCopy]
  exact aliasBefore_eq_root accepted (by omega) source

theorem aliasRoot_other {i : Nat} {inst : Inst} (found : f.data[i]? = some inst)
    (has : 0 ≤ inst.dst) (other : inst.op ≠ .copy) : aliasRoot f inst.dst = inst.dst := by
  have inside := (List.getElem?_eq_some_iff.mp found).1
  rw [← aliasBefore_eq_root accepted (i := i + 1) (by omega)
      (definedBefore_iff.mpr ⟨has, i, inst, by omega, found, rfl⟩),
    aliasBefore_succ found, noteAlias_eq accepted (aliasesResolved accepted (by omega)) found,
    if_pos has, Function.update_self, if_neg other]

theorem aliasRoot_defined {i : Nat} {v : Int} (inside : i ≤ f.data.length)
    (known : definedBefore f i v = true) : definedBefore f i (aliasRoot f v) = true := by
  rw [← aliasBefore_eq_root accepted inside known]
  rcases aliasesResolved accepted inside v with self | ⟨-, target, -⟩
  · rw [self]; exact known
  · exact target

theorem renameOperand_aliasFind {i : Nat} {v : Int} (inside : i ≤ f.data.length)
    (known : definedBefore f i v = true) :
    renameOperand (aliasFind (aliasBefore f i)) v = aliasRoot f v := by
  have given : 0 ≤ v := (definedBefore_iff.mp known).1
  rw [renameOperand, if_pos given, aliasFind_eq (aliasesResolved accepted inside) given,
    aliasBefore_eq_root accepted inside known]

theorem aliasFind_nonneg {i : Nat} (inside : i ≤ f.data.length) {v : Int} (given : 0 ≤ v) :
    0 ≤ aliasFind (aliasBefore f i) v := by
  have resolved := aliasesResolved accepted inside
  rw [aliasFind_eq resolved given]
  rcases resolved v with self | ⟨-, target, -⟩
  · rw [self]; exact given
  · exact (definedBefore_iff.mp target).1

theorem first_of_class (paths : DefinedOnAllPaths f) (r : Int) {i : Nat} {W : Set Int}
    (path : Reach f i W) :
    (∀ v ∈ W, aliasRoot f v ≠ r) ∨ ∃ p inst W₀, f.data[p]? = some inst ∧ inst.writes = some r ∧
      Reach f p W₀ ∧ ∀ v ∈ W₀, aliasRoot f v ≠ r := by
  -- The induction is on the path, and only the last instruction can be the first of the class.
  induction path with
  | entry => exact .inl (by simp)
  | @edge i j W inst before found passes ih =>
    rcases ih with none | known
    · by_cases joins : ∃ v, inst.writes = some v ∧ aliasRoot f v = r
      · obtain ⟨v, produced, root⟩ := joins
        obtain ⟨-, nonneg, rfl⟩ := Inst.writes_eq_some.mp produced
        by_cases isCopy : inst.op = .copy
        · -- The source of a copy is in the same class and was produced on the path.
          have source : inst.a ∈ W := paths i W inst before found inst.a (by
            simp [Inst.reads, isCopy, Op.shape])
          exact absurd (aliasRoot_copy accepted found isCopy ▸ root) (none _ source)
        · have self := aliasRoot_other accepted found nonneg isCopy
          refine .inr ⟨i, inst, W, found, ?_, before, none⟩
          rw [produced, ← root, self]
      · refine .inl fun v member root => ?_
        rcases member with old | new
        · exact none v old root
        · exact joins ⟨v, new, root⟩
    · exact .inr known

end Accepted

/-- For every class, some path explains the state and its values of the class are all equal. -/
def ClassesAgree (f : Func) (s : State σ) : Prop :=
  ∀ r, ∃ W, Reach f s.pc W ∧ ∀ v ∈ W, aliasRoot f v = r → s.values v = s.values r

theorem ClassesAgree.next {f : Func} {cfg : EvalConfig σ} (accepted : verify f = .ok ())
    (paths : DefinedOnAllPaths f) {s s' : State σ} (holds : ClassesAgree f s)
    (moved : (vm f cfg).step s = .inl s') : ClassesAgree f s' := by
  intro r
  obtain ⟨W, path, agree⟩ := holds r
  obtain ⟨inst, found, stepped⟩ := vm_next moved
  obtain ⟨-, xs, -, executed⟩ := stepInst_next stepped
  obtain ⟨passes, values⟩ := execute_next executed
  cases values with
  | same silent kept =>
    refine ⟨_, .edge path found passes, fun v member root => ?_⟩
    rw [kept]
    rcases member with old | new
    · exact agree v old root
    · simp [silent] at new
  | written u x produced updated =>
    obtain ⟨-, nonneg, rfl⟩ := Inst.writes_eq_some.mp produced
    by_cases isRoot : inst.dst = r
    · -- The representative is written anew: restart from a path that has nothing of its class.
      obtain ⟨W₀, fresh, none⟩ : ∃ W₀, Reach f s.pc W₀ ∧ ∀ v ∈ W₀, aliasRoot f v ≠ r := by
        rcases first_of_class accepted paths r path with none | ⟨p, inst', W₀, at_, writes, before, none⟩
        · exact ⟨W, path, none⟩
        · obtain ⟨-, -, same⟩ := Inst.writes_eq_some.mp writes
          have : s.pc = p := dst_unique accepted found at_ nonneg (by rw [same, isRoot])
          exact ⟨W₀, this ▸ before, none⟩
      refine ⟨_, .edge fresh found passes, fun v member root => ?_⟩
      rcases member with old | new
      · exact absurd root (none v old)
      · rw [Set.mem_ofPred_eq, produced, Option.some.injEq, isRoot] at new
        rw [← new]
    · refine ⟨_, .edge path found passes, fun v member root => ?_⟩
      rw [updated, Function.update_of_ne (Ne.symm isRoot), Function.update_apply]
      split
      · -- Another value of the class can only be written by a copy of one of its values.
        rename_i same
        subst same
        have isCopy : inst.op = .copy := by
          by_contra other
          exact isRoot ((aliasRoot_other accepted found nonneg other).symm.trans root)
        have source : inst.a ∈ W := paths s.pc W inst path found inst.a (by
          simp [Inst.reads, isCopy, Op.shape])
        have copied : some x = s.values inst.a := by
          have := congrFun (updated.symm.trans (copy_next isCopy stepped)) inst.dst
          simpa using this
        rw [copied]
        exact agree _ source (aliasRoot_copy accepted found isCopy ▸ root)
      · rename_i other
        rcases member with old | new
        · exact agree v old root
        · rw [Set.mem_ofPred_eq, produced, Option.some.injEq] at new
          exact absurd new.symm other

theorem copyProp_map {α : Type} {f : Func} (field : Inst → α)
    (kept : ∀ g inst, field (Inst.mapOperands g inst) = field inst) :
    (copyProp f).data.map field = f.data.map field := by
  by_cases values : 0 < f.nextValue
  · refine List.ext_getElem? fun i => ?_
    rw [List.getElem?_map, List.getElem?_map, copyProp_getElem? values, Option.map_map]
    simp only [Function.comp_def, kept]
  · rw [copyProp, if_pos (by omega)]

section Preservation

variable {f : Func} (accepted : verify f = .ok ())

include accepted

theorem constsBefore_root {i : Nat} (inside : i ≤ f.data.length) {v : Int}
    (known : definedBefore f i v = true) :
    constsBefore f i (aliasRoot f v) = constsBefore f i v := by
  induction i generalizing v with
  | zero => simp [definedBefore] at known
  | succ i ih =>
    obtain ⟨inst, found⟩ : ∃ inst, f.data[i]? = some inst :=
      ⟨_, List.getElem?_eq_getElem (by omega)⟩
    have stable {u : Int} (old : definedBefore f i u = true) :=
      constsBefore_stable (.of_verify accepted) old (Nat.le_succ i) inside
    rcases (definedBefore_succ found).mp known with old | ⟨nonneg, rfl⟩
    · rw [stable old, stable (aliasRoot_defined accepted (by omega) old)]
      exact ih (by omega) old
    · by_cases isCopy : inst.op = .copy
      · obtain ⟨has, source⟩ := copy_source_defined accepted found isCopy
        have given : 0 ≤ inst.a := (definedBefore_iff.mp source).1
        rw [constsBefore_dst found has, aliasRoot_copy accepted found isCopy,
          stable (aliasRoot_defined accepted (by omega) source), ih (by omega) source]
        simp [isCopy, given]
      · rw [aliasRoot_other accepted found nonneg isCopy]

theorem constsBefore_copyProp (values : 0 < f.nextValue) {i : Nat}
    (inside : i ≤ f.data.length) : constsBefore (copyProp f) i = constsBefore f i := by
  induction i with
  | zero => rfl
  | succ i ih =>
    obtain ⟨inst, found⟩ : ∃ inst, f.data[i]? = some inst :=
      ⟨_, List.getElem?_eq_getElem (by omega)⟩
    have found' : (copyProp f).data[i]? = some (inst.mapOperands (aliasFind (aliasBefore f i))) := by
      rw [copyProp_getElem? values, found]
      rfl
    rw [constsBefore_succ found, constsBefore_succ found', ih (by omega)]
    by_cases isCopy : inst.op = .copy
    · obtain ⟨has, source⟩ := copy_source_defined accepted found isCopy
      have given : 0 ≤ inst.a := (definedBefore_iff.mp source).1
      have renamed := renameOperand_aliasFind accepted (by omega) source
      have target := (definedBefore_iff.mp (aliasRoot_defined accepted (by omega) source)).1
      simp [noteConst, Inst.mapOperands, has, isCopy, renamed, given, target,
        constsBefore_root accepted (by omega) source]
    · simp [noteConst, Inst.mapOperands, isCopy]

/-- The verifier accepts the result of the pass. -/
theorem verify_copyProp : verify (copyProp f) = .ok () := by
  by_cases values : 0 < f.nextValue
  swap
  · rw [copyProp, if_pos (by omega)]
    exact accepted
  have next : (copyProp f).nextValue = f.nextValue := by
    rw [copyProp]
    split <;> rfl
  obtain ⟨count, insts, constraints⟩ := verify_ok_iff.mp accepted
  have marks : (copyProp f).data.map Inst.labelMark = f.data.map Inst.labelMark :=
    copyProp_map _ fun _ _ => rfl
  refine verify_ok_iff.mpr ⟨by rw [next]; exact count, fun i inst' found' => ?_,
    validateConstraints_ok_iff.mpr fun i inst' found' => ?_⟩
  · rw [copyProp_getElem? values, Option.map_eq_some_iff] at found'
    obtain ⟨inst, found, rfl⟩ := found'
    have inside : i ≤ f.data.length := Nat.le_of_lt (List.getElem?_eq_some_iff.mp found).1
    obtain ⟨common, own⟩ := instOk_iff.mp (insts i inst found)
    have defs : definedBefore (copyProp f) i = definedBefore f i :=
      definedBefore_congr (copyProp_map _ fun _ _ => rfl) i
    refine instOk_iff.mpr ⟨?_, ?_⟩
    · obtain ⟨sizes, effects, paired, ordered, debug, below, fresh⟩ := common
      refine ⟨sizes, effects, paired, ordered, debug, ?_, ?_⟩
      · rw [next]; exact below
      · rw [defs]; exact fresh
    · rw [defs]
      refine OpOk.rename (Renamed.of_mapOperands _ inst Iff.rfl)
        (fun v _ => renameOperand_nonneg (fun u => aliasFind_nonneg accepted inside) v) own
        (fun v read => ?_) (fun there => ?_) (fun isLabel => ?_) (fun capture => ?_)
      · obtain ⟨-, -, known⟩ := read_defined accepted found read
        have target := aliasRoot_defined accepted inside known
        rw [renameOperand_aliasFind accepted inside known]
        obtain ⟨nonneg, j, inst', -, at_, same⟩ := definedBefore_iff.mp target
        have below := (CommonOk.of_verify accepted at_).dstBelow
        simp only [valueDefined, next, target, Bool.and_true, Bool.and_eq_true, decide_eq_true_eq]
        omega
      · rw [labelExists, any_label_eq] at there ⊢
        rw [marks]
        exact there
      · have none := own.fresh isLabel
        rw [any_label_eq, List.map_take] at none ⊢
        rw [marks]
        exact none
      · rw [followsCall_congr (copyProp_map _ fun _ _ => rfl)]
        exact own.follows capture
  · rw [copyProp_getElem? values, Option.map_eq_some_iff] at found'
    obtain ⟨inst, found, rfl⟩ := found'
    have inside : i ≤ f.data.length := Nat.le_of_lt (List.getElem?_eq_some_iff.mp found).1
    rw [constsBefore_copyProp accepted values inside]
    have passed := validateConstraints_ok_iff.mp constraints i inst found
    -- Operands that are read are defined, so the scan knows of them what it knew before.
    have kept : ∀ v ∈ inst.reads,
        constOf (constsBefore f i) (renameOperand (aliasFind (aliasBefore f i)) v) =
          constOf (constsBefore f i) v := by
      intro v member
      obtain ⟨given, -, known⟩ := read_defined accepted found member
      rw [renameOperand_aliasFind accepted inside known, constOf, constOf, if_pos given,
        if_pos (definedBefore_iff.mp (aliasRoot_defined accepted inside known)).1,
        constsBefore_root accepted inside known]
    rw [constraintChecks_none_iff] at passed ⊢
    refine ⟨passed.1, Eq.trans ?_ passed.2⟩
    exact constTrap_congr rfl (fun binary => kept inst.a (by simp [Inst.reads, binary]))
      (fun binary => kept inst.b (by simp [Inst.reads, binary]))

theorem copyProp_agrees (values : 0 < f.nextValue) (paths : DefinedOnAllPaths f)
    {cfg : EvalConfig σ} {s : State σ} {inst : Inst} (holds : ClassesAgree f s)
    (found : f.data[s.pc]? = some inst) (fine : Fine (stepInst f cfg inst s)) :
    ∃ inst', (copyProp f).data[s.pc]? = some inst' ∧
      stepInst (copyProp f) cfg inst' s = stepInst f cfg inst s := by
  have inside : s.pc ≤ f.data.length := Nat.le_of_lt (List.getElem?_eq_some_iff.mp found).1
  have labels : labelTable (copyProp f) = labelTable f :=
    labelTable_congr (copyProp_map _ fun _ _ => rfl)
  refine ⟨_, by rw [copyProp_getElem? values, found]; rfl, ?_⟩
  refine stepInst_congr (sameAction_mapOperands _ inst) (by rw [labels]) ?_ fine
  have renamed : Renamed (aliasFind (aliasBefore f s.pc)) inst
      (inst.mapOperands (aliasFind (aliasBefore f s.pc))) := .of_mapOperands _ inst Iff.rfl
  rw [renamed.reads fun v _ =>
    renameOperand_nonneg (fun u => aliasFind_nonneg accepted inside) v, List.mapM_map]
  refine mapM_reads_congr fun v member => ?_
  -- The operand was produced on the path that explains its own class.
  obtain ⟨given, -, known⟩ := read_defined accepted found member
  obtain ⟨W, path, agree⟩ := holds (aliasRoot f v)
  have equal := agree v (paths s.pc W inst path found v member) rfl
  have target := (definedBefore_iff.mp (aliasRoot_defined accepted inside known)).1
  simp only [Function.comp, renameOperand_aliasFind accepted inside known, readValue,
    Int.not_lt.mpr target, Int.not_lt.mpr given, if_false, equal]

end Preservation

/--
Copy propagation preserves what a function computes.

A run that succeeds within a budget succeeds within the same budget after the pass, with the same
result and the same memory, provided a value is produced before it is read on every path.
-/
theorem copyProp_preserves {f : Func} (paths : DefinedOnAllPaths f) {cfg : EvalConfig σ}
    {maxSteps : Nat} {w : World σ} {r : EvalResult σ}
    (evaluated : evalWithCalls f cfg maxSteps w = .ok r) :
    evalWithCalls (copyProp f) cfg maxSteps w = .ok r := by
  by_cases values : 0 < f.nextValue
  swap
  · rw [copyProp, if_pos (by omega)]
    exact evaluated
  unfold evalWithCalls at evaluated ⊢
  cases accepted : verify f with
  | error text => simp [accepted] at evaluated
  | ok done =>
    simp only [accepted] at evaluated
    simp only [verify_copyProp accepted]
    refine evalLoop_agree (I := ClassesAgree f) (fun _ _ => ClassesAgree.next accepted paths)
      (fun _ _ => copyProp_agrees accepted values paths) (fun i none => ?_) ?_ evaluated
    · rw [copyProp_getElem? values, none]
      rfl
    · exact fun r => ⟨∅, .entry, by simp⟩

/-- A copy that is branched on and returned. -/
def copiedReturn : Func := refreshMetadata {
  data := [{ op := .loadLocal, dst := 0, imm := 1 }, { op := .copy, dst := 1, a := 0 },
    { op := .brIf, dst := -1, a := 1, imm := 0 },
    { op := .storeLocal, dst := -1, a := 1, imm := 2 }, { op := .label, dst := -1, imm := 0 },
    { op := .ret, dst := -1, a := 1 }]
  nextValue := 2 }

/-- After the pass the copied value is returned from its source. -/
theorem copiedReturn_preserved :
    evalWithCalls (copyProp copiedReturn) fourSlotsConfig 10 zeroWorld =
      evalWithCalls copiedReturn fourSlotsConfig 10 zeroWorld :=
  (copyProp_preserves (.of_certifies [[], [0], [0, 1], [0, 1], [0, 1], [0, 1]] (by decide)) rfl)

/--
A loop whose exit skips a copy that an earlier turn has made.

On the second turn the source of the copy is loaded anew, and the returned copy is not.
-/
def staleCopy : Func := refreshMetadata {
  data := [{ op := .label, dst := -1, imm := 0 },
    { op := .loadLocal, dst := 0, imm := 0 }, { op := .loadLocal, dst := 1, imm := 1 },
    { op := .brIf, dst := -1, a := 1, imm := 1 },
    { op := .copy, dst := 2, a := 0 },
    { op := .constI64, dst := 3, imm := 1 }, { op := .storeLocal, dst := -1, a := 3, imm := 1 },
    { op := .constI64, dst := 4, imm := 42 }, { op := .storeLocal, dst := -1, a := 4, imm := 0 },
    { op := .br, dst := -1, imm := 0 },
    { op := .label, dst := -1, imm := 1 }, { op := .ret, dst := -1, a := 2 }]
  nextValue := 5 }

/-- The accepted loop returns the first value it loaded, and after the pass the second one. -/
theorem staleCopy_differs :
    verify staleCopy = .ok () ∧
      (∃ r, evalWithCalls staleCopy fourSlotsConfig 100 zeroWorld = .ok r ∧ r.result = 0) ∧
      ∃ r, evalWithCalls (copyProp staleCopy) fourSlotsConfig 100 zeroWorld = .ok r ∧
        r.result = 42 :=
  ⟨rfl, ⟨_, rfl, by decide⟩, ⟨_, rfl, by decide⟩⟩

end Nytrix.Nir
