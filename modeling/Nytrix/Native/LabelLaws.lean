import Nytrix.Native.Labels

/-! When the labels of an assembly file are all different, and every jump stays in its function. -/

namespace Nytrix.Native

open Nytrix.Nir Nytrix.Lower Nytrix.Lib

theorem text_injective : Function.Injective text := by
  intro s t same
  have data : s.toUTF8.data = t.toUTF8.data := Array.toList_inj.mp same
  exact String.toByteArray_inj.mp (ByteArray.ext data)

theorem decimal_injective : Function.Injective decimal := by
  intro m n same
  exact Int.repr_injective (text_injective same)

theorem nirLabel_inj {m n : I64} : nirLabel m = nirLabel n ↔ m = n := by
  constructor
  · intro same
    exact BitVec.eq_of_toInt_eq (decimal_injective (List.append_cancel_left same))
  · rintro rfl
    rfl

theorem unorderedLabel_inj {m n : Int} : unorderedLabel m = unorderedLabel n ↔ m = n := by
  constructor
  · intro same
    exact decimal_injective (List.append_cancel_left same)
  · rintro rfl
    rfl

theorem doneLabel_inj {m n : Int} : doneLabel m = doneLabel n ↔ m = n := by
  constructor
  · intro same
    exact decimal_injective (List.append_cancel_left same)
  · rintro rfl
    rfl

theorem epilogueLabel_inj {p q : Part} :
    p.epilogueLabel = q.epilogueLabel ↔ p.printedName.take 109 = q.printedName.take 109 := by
  constructor
  · exact List.append_cancel_left
  · intro same
    rw [Part.epilogueLabel, same, Part.epilogueLabel]

section Kinds

variable (l : I64) (v w : Int) (p : Part)

theorem nirLabel_ne_unordered : nirLabel l ≠ unorderedLabel v := by
  intro same
  have ninth : some (76 : UInt8) = some 102 := congrArg (fun t => t[9]?) same
  cases ninth

theorem nirLabel_ne_done : nirLabel l ≠ doneLabel v := by
  intro same
  have ninth : some (76 : UInt8) = some 102 := congrArg (fun t => t[9]?) same
  cases ninth

theorem nirLabel_ne_epilogue : nirLabel l ≠ p.epilogueLabel := by
  intro same
  have ninth : some (76 : UInt8) = some 101 := congrArg (fun t => t[9]?) same
  cases ninth

theorem unordered_ne_done : unorderedLabel v ≠ doneLabel w := by
  intro same
  have later : some (117 : UInt8) = some 100 := congrArg (fun t => t[14]?) same
  cases later

theorem unordered_ne_epilogue : unorderedLabel v ≠ p.epilogueLabel := by
  intro same
  have ninth : some (102 : UInt8) = some 101 := congrArg (fun t => t[9]?) same
  cases ninth

theorem done_ne_epilogue : doneLabel v ≠ p.epilogueLabel := by
  intro same
  have ninth : some (102 : UInt8) = some 101 := congrArg (fun t => t[9]?) same
  cases ninth

end Kinds

theorem mem_instDefines {inst : Inst} {name : Text} : name ∈ instDefines inst ↔
    (inst.op = .label ∧ name = nirLabel inst.imm) ∨
    (isFloatCmp inst.op = true ∧ (name = unorderedLabel inst.dst ∨ name = doneLabel inst.dst)) := by
  by_cases label : inst.op = .label
  · simp [instDefines, label, isFloatCmp]
  · by_cases float : isFloatCmp inst.op = true
    · simp [instDefines, label, float]
    · simp [instDefines, label, float]

theorem instDefines_disjoint {a b : Inst} : (instDefines a).Disjoint (instDefines b) ↔
    (a.op = .label → b.op = .label → a.imm ≠ b.imm) ∧
    (isFloatCmp a.op = true → isFloatCmp b.op = true → a.dst ≠ b.dst) := by
  constructor
  · intro apart
    constructor
    · intro left right same
      exact apart (mem_instDefines.mpr (.inl ⟨left, rfl⟩))
        (mem_instDefines.mpr (.inl ⟨right, congrArg nirLabel same⟩))
    · intro left right same
      exact apart (mem_instDefines.mpr (.inr ⟨left, .inl rfl⟩))
        (mem_instDefines.mpr (.inr ⟨right, .inl (congrArg unorderedLabel same)⟩))
  · rintro ⟨labels, floats⟩ name left right
    -- Only names of one kind can agree, and then the numbers in them do.
    rcases mem_instDefines.mp left with ⟨isLabel, rfl⟩ | ⟨isFloat, rfl | rfl⟩
    · rcases mem_instDefines.mp right with ⟨other, same⟩ | ⟨-, same | same⟩
      · exact labels isLabel other (nirLabel_inj.mp same)
      · exact nirLabel_ne_unordered _ _ same
      · exact nirLabel_ne_done _ _ same
    · rcases mem_instDefines.mp right with ⟨-, same⟩ | ⟨other, same | same⟩
      · exact nirLabel_ne_unordered _ _ same.symm
      · exact floats isFloat other (unorderedLabel_inj.mp same)
      · exact unordered_ne_done _ _ same
    · rcases mem_instDefines.mp right with ⟨-, same⟩ | ⟨other, same | same⟩
      · exact nirLabel_ne_done _ _ same.symm
      · exact unordered_ne_done _ _ same.symm
      · exact floats isFloat other (doneLabel_inj.mp same)

theorem instDefines_nodup (inst : Inst) : (instDefines inst).Nodup := by
  unfold instDefines
  split
  · simp
  · split
    · simp [unordered_ne_done]
    · simp

theorem epilogue_not_mem (p : Part) (inst : Inst) : p.epilogueLabel ∉ instDefines inst := by
  intro member
  rcases mem_instDefines.mp member with ⟨-, same⟩ | ⟨-, same | same⟩
  · exact nirLabel_ne_epilogue _ _ same.symm
  · exact unordered_ne_epilogue _ _ same.symm
  · exact done_ne_epilogue _ _ same.symm

/-- What one part must have for its labels to be its own. -/
structure Part.Sound (p : Part) : Prop where
  verified : verify p.nir = .ok ()
  stored : ∀ inst ∈ p.nir.data, isFloatCmp inst.op = true → 0 ≤ inst.dst

theorem Part.Sound.instLabels_nodup {p : Part} (sound : p.Sound) :
    (p.nir.data.flatMap instDefines).Nodup := by
  refine List.nodup_flatMap.mpr ⟨fun inst _ => instDefines_nodup inst, ?_⟩
  refine List.pairwise_iff_getElem.mpr fun i j low high before => ?_
  have left := List.getElem?_eq_getElem low
  have right := List.getElem?_eq_getElem high
  refine instDefines_disjoint.mpr ⟨?_, ?_⟩
  · -- The verifier refuses a label that an earlier instruction has.
    intro first second same
    have fresh := (OpOk.of_verify sound.verified right).fresh second
    rw [List.any_eq_false] at fresh
    refine fresh p.nir.data[i] ?_ (by simp [first, same])
    exact List.mem_take_iff_getElem.mpr ⟨i, by omega, rfl⟩
  · intro first _ same
    have there := sound.stored _ (List.getElem_mem low) first
    have := dst_unique sound.verified left right there same
    omega

theorem Part.Sound.localLabels_nodup {p : Part} (sound : p.Sound) : p.localLabels.Nodup := by
  refine List.nodup_append.mpr ⟨sound.instLabels_nodup, List.nodup_singleton _, ?_⟩
  intro name inside other isLast same
  obtain ⟨inst, -, member⟩ := List.mem_flatMap.mp inside
  rw [same, List.mem_singleton.mp isLast] at member
  exact epilogue_not_mem p inst member

theorem localLabels_disjoint {p q : Part} : p.localLabels.Disjoint q.localLabels ↔
    p.printedName.take 109 ≠ q.printedName.take 109 ∧
    (∀ a ∈ p.nir.data, ∀ b ∈ q.nir.data, a.op = .label → b.op = .label → a.imm ≠ b.imm) ∧
    (∀ a ∈ p.nir.data, ∀ b ∈ q.nir.data,
      isFloatCmp a.op = true → isFloatCmp b.op = true → a.dst ≠ b.dst) := by
  have whole : p.localLabels.Disjoint q.localLabels ↔ p.epilogueLabel ≠ q.epilogueLabel ∧
      ∀ a ∈ p.nir.data, ∀ b ∈ q.nir.data, (instDefines a).Disjoint (instDefines b) := by
    constructor
    · intro apart
      refine ⟨?_, ?_⟩
      · intro same
        refine apart (a := p.epilogueLabel) (by simp [Part.localLabels]) ?_
        rw [same]
        simp [Part.localLabels]
      · intro a left b right name inLeft inRight
        refine apart (a := name) ?_ ?_
        · exact List.mem_append_left _ (List.mem_flatMap.mpr ⟨a, left, inLeft⟩)
        · exact List.mem_append_left _ (List.mem_flatMap.mpr ⟨b, right, inRight⟩)
    · rintro ⟨names, insts⟩ name left right
      simp only [Part.localLabels, List.mem_append, List.mem_flatMap, List.mem_singleton]
        at left right
      rcases left with ⟨a, inLeft, left⟩ | rfl
      · rcases right with ⟨b, inRight, right⟩ | rfl
        · exact insts a inLeft b inRight left right
        · exact epilogue_not_mem q a left
      · rcases right with ⟨b, inRight, right⟩ | same
        · exact epilogue_not_mem p b right
        · exact names same
  rw [whole, Ne, epilogueLabel_inj]
  simp only [instDefines_disjoint]
  refine and_congr_right fun _ => ⟨fun both => ⟨?_, ?_⟩, ?_⟩
  · intro a left b right
    exact (both a left b right).1
  · intro a left b right
    exact (both a left b right).2
  · rintro ⟨labels, floats⟩ a left b right
    exact ⟨labels a left b right, floats a left b right⟩

/--
The functions of a file have nothing to collide in.

No two have a label of one number or compare floats into one value, their names differ in what an
epilogue keeps of them, and none is named like a label inside one of them.
-/
structure LabelsApart (target : Target) (ps : List Part) : Prop where
  names : ps.Pairwise fun p q => p.printedName.take 109 ≠ q.printedName.take 109
  labels : ps.Pairwise fun p q => ∀ a ∈ p.nir.data, ∀ b ∈ q.nir.data,
    a.op = .label → b.op = .label → a.imm ≠ b.imm
  floats : ps.Pairwise fun p q => ∀ a ∈ p.nir.data, ∀ b ∈ q.nir.data,
    isFloatCmp a.op = true → isFloatCmp b.op = true → a.dst ≠ b.dst
  symbols : ∀ p ∈ ps, ∀ q ∈ ps, p.symbol target ∉ q.localLabels

theorem labels_disjoint {target : Target} {p q : Part} :
    (p.labels target).Disjoint (q.labels target) ↔
      p.localLabels.Disjoint q.localLabels ∧ p.symbol target ∉ q.localLabels ∧
        q.symbol target ∉ p.localLabels := by
  constructor
  · intro apart
    refine ⟨?_, ?_, ?_⟩
    · intro name left right
      exact apart (List.mem_cons_of_mem _ left) (List.mem_cons_of_mem _ right)
    · intro inside
      exact apart List.mem_cons_self (List.mem_cons_of_mem _ inside)
    · intro inside
      exact apart (List.mem_cons_of_mem _ inside) List.mem_cons_self
  · rintro ⟨inside, left, right⟩ name first second
    rcases List.mem_cons.mp first with rfl | first
    · rcases List.mem_cons.mp second with same | second
      · -- Functions of one symbol have one name, and so one epilogue.
        have named : p.printedName = q.printedName := List.append_cancel_left same
        exact (localLabels_disjoint.mp inside).1 (congrArg _ named)
      · exact left second
    · rcases List.mem_cons.mp second with rfl | second
      · exact right first
      · exact inside first second

theorem labels_nodup_iff {target : Target} {ps : List Part} (sound : ∀ p ∈ ps, p.Sound) :
    (ps.map (Part.labels target)).flatten.Nodup ↔ LabelsApart target ps := by
  rw [List.nodup_flatten, List.pairwise_map]
  constructor
  · rintro ⟨each, pairs⟩
    have inside := pairs.imp fun {p q} apart => localLabels_disjoint.mp (labels_disjoint.mp apart).1
    refine ⟨inside.imp fun three => three.1, inside.imp fun three => three.2.1,
      inside.imp fun three => three.2.2, ?_⟩
    -- A pair is met in one order only, but neither is named like a label of the other.
    have two := pairs.imp fun {p q} apart => (labels_disjoint.mp apart).2
    intro p left q right
    refine List.Pairwise.forall_of_forall_of_flip (R := fun p q => p.symbol target ∉ q.localLabels)
      ?_ (two.imp fun pair => pair.1) (two.imp fun pair => pair.2) left right
    intro p member
    exact (List.nodup_cons.mp (each _ (List.mem_map.mpr ⟨p, member, rfl⟩))).1
  · intro apart
    constructor
    · intro names listed
      obtain ⟨p, member, rfl⟩ := List.mem_map.mp listed
      exact List.nodup_cons.mpr ⟨apart.symbols p member p member,
        (sound p member).localLabels_nodup⟩
    · have three := (apart.names.and apart.labels).and apart.floats
      refine three.imp_of_mem ?_
      rintro p q left right ⟨⟨names, labels⟩, floats⟩
      exact labels_disjoint.mpr ⟨localLabels_disjoint.mpr ⟨names, labels, floats⟩,
        apart.symbols p left q right, apart.symbols q right p left⟩

theorem Part.Sound.jumps {p : Part} (sound : p.Sound) (target : Target) :
    ∀ name ∈ p.nir.data.flatMap (instRefers p.epilogueLabel), name ∈ p.labels target := by
  intro name jumped
  obtain ⟨inst, member, refers⟩ := List.mem_flatMap.mp jumped
  refine List.mem_cons_of_mem _ ?_
  have inside : ∀ other ∈ p.nir.data, name ∈ instDefines other → name ∈ p.localLabels := by
    intro other there defined
    exact List.mem_append_left _ (List.mem_flatMap.mpr ⟨other, there, defined⟩)
  obtain ⟨i, found⟩ := List.mem_iff_getElem?.mp member
  unfold instRefers at refers
  split at refers
  · next branch =>
    -- The verifier asks for the label of a branch.
    have exists_ := (OpOk.of_verify sound.verified found).target (by simpa using branch)
    obtain ⟨j, other, there, isLabel, same⟩ := labelExists_iff.mp exists_
    refine inside other (List.mem_of_getElem? there) (mem_instDefines.mpr (.inl ⟨isLabel, ?_⟩))
    rw [List.mem_singleton.mp refers, same]
  · split at refers
    · next float =>
      exact inside inst member (mem_instDefines.mpr (.inr ⟨float, by simpa using refers⟩))
    · split at refers
      · rw [List.mem_singleton.mp refers]
        simp [Part.localLabels]
      · cases refers

/-- Every label of a file is defined once. -/
def LabelsUnique (texts : List (List Line)) : Prop := (defines texts.flatten).Nodup

/-- Every jump of a file goes to a label of its own function. -/
def JumpsLocal (texts : List (List Line)) : Prop :=
  ∀ lines ∈ texts, ∀ name ∈ refers lines, name ∈ defines lines

theorem emitParts_labels {target : Target} {ps : List Part} {texts : List (List Line)}
    (verified : ∀ p ∈ ps, verify p.nir = .ok ()) (done : emitParts target ps = .ok texts) :
    defines texts.flatten = (ps.map (Part.labels target)).flatten ∧ (∀ p ∈ ps, p.Sound) ∧
      JumpsLocal texts := by
  induction ps generalizing texts with
  | nil =>
    cases done
    exact ⟨rfl, by simp, by simp [JumpsLocal]⟩
  | cons p rest ih =>
    simp only [emitParts, bind_eq_ok_iff, pure_eq_ok_iff] at done
    obtain ⟨lines, emitted, others, more, rfl⟩ := done
    obtain ⟨labels, jumps, stored⟩ := emitNir_labels emitted
    obtain ⟨allLabels, allSound, allJumps⟩ :=
      ih (fun q member => verified q (List.mem_cons_of_mem _ member)) more
    have sound : p.Sound := ⟨verified p List.mem_cons_self, stored⟩
    refine ⟨by simp [labels, allLabels], ?_, ?_⟩
    · intro q member
      rcases List.mem_cons.mp member with rfl | member
      · exact sound
      · exact allSound q member
    · intro text member
      rcases List.mem_cons.mp member with rfl | member
      · rw [jumps, labels]
        exact sound.jumps target
      · exact allJumps text member

theorem parts_verified {buildExternTable : List Stmt → Except String (List ExternEntry)}
    {prog : List Stmt} {maxFuncs : Nat} {err : String} {built : Built} {entryName : String}
    {tagReturn : Bool} (done : buildNir buildExternTable prog maxFuncs err = .ok built) :
    ∀ p ∈ parts prog built entryName tagReturn, verify p.nir = .ok () := by
  obtain ⟨funcs, main⟩ := buildNir_verified done
  intro p member
  rcases List.mem_append.mp member with member | member
  · obtain ⟨⟨f, i⟩, listed, rfl⟩ := List.mem_map.mp member
    exact funcs f (List.fst_mem_of_mem_zipIdx listed)
  · rw [List.mem_singleton.mp member]
    exact main

/--
The labels of an assembly file are defined once each and every jump stays in its function exactly
when the functions of the program are apart.
-/
theorem emitAsmEntry_labels_iff
    {buildExternTable : List Stmt → Except String (List ExternEntry)} {target : Target}
    {prog : List Stmt} {entryName : String} {tagReturn : Bool} {built : Built}
    {texts : List (List Line)} (lowered : buildNir buildExternTable prog 64 "" = .ok built)
    (emitted : emitAsmEntry buildExternTable target prog entryName tagReturn = .ok texts) :
    (LabelsUnique texts ∧ JumpsLocal texts) ↔
      LabelsApart target (parts prog built entryName tagReturn) := by
  rw [emitAsmEntry, lowered] at emitted
  dsimp only at emitted
  split at emitted
  · cases emitted
  · obtain ⟨labels, sound, jumps⟩ := emitParts_labels (parts_verified lowered) emitted
    rw [LabelsUnique, labels, labels_nodup_iff sound]
    exact and_iff_left jumps

/-- Whether functions are apart can be computed. -/
instance (target : Target) (ps : List Part) : Decidable (LabelsApart target ps) :=
  decidable_of_iff
    ((ps.Pairwise fun p q => p.printedName.take 109 ≠ q.printedName.take 109) ∧
      (ps.Pairwise fun p q => ∀ a ∈ p.nir.data, ∀ b ∈ q.nir.data,
        a.op = .label → b.op = .label → a.imm ≠ b.imm) ∧
      (ps.Pairwise fun p q => ∀ a ∈ p.nir.data, ∀ b ∈ q.nir.data,
        isFloatCmp a.op = true → isFloatCmp b.op = true → a.dst ≠ b.dst) ∧
      ∀ p ∈ ps, ∀ q ∈ ps, p.symbol target ∉ q.localLabels)
    ⟨fun ⟨names, labels, floats, symbols⟩ => ⟨names, labels, floats, symbols⟩,
      fun ⟨names, labels, floats, symbols⟩ => ⟨names, labels, floats, symbols⟩⟩

/-- A function that counts its argument down in a loop. -/
def countdown (name : String) : Stmt :=
  .func name none [{ name := "n" }] (.block false (.cons
    (.whileLoop .missing (.ident "n") (.block false (.cons
      (.var { names := ["n"], exprs := [.binary "-" (.ident "n") (.literal (.int 1))] }) .nil))
      .missing)
    (.cons (.returnValue (.ident "n")) .nil)))

/-- A call of such a function. -/
def countFrom (name : String) (n : I64) : Expr :=
  .call (.ident name) (.cons none (.literal (.int n)) .nil)

/-- A program with one loop. -/
def oneLoop : List Stmt := [countdown "f", .expr (countFrom "f" 3)]

/-- A program with a loop in each of two functions. -/
def twoLoops : List Stmt :=
  [countdown "f", countdown "g", .expr (.binary "+" (countFrom "f" 3) (countFrom "g" 4))]

set_option maxRecDepth 100000 in
/-- One loop alone has its labels for itself. -/
theorem emitAsmEntry_oneLoop : ∃ texts,
    emitAsmEntry (fun _ => .ok []) (targetInfo .elf false) oneLoop "rt_main" true = .ok texts ∧
      LabelsUnique texts ∧ JumpsLocal texts := by
  have apart : (match buildNir (fun _ => .ok []) oneLoop 64 "" with
      | .ok built => decide (LabelsApart (targetInfo .elf false) (parts oneLoop built "rt_main" true))
      | .error _ => false) = true := by decide +kernel
  have printed : (match emitAsmEntry (fun _ => .ok []) (targetInfo .elf false) oneLoop "rt_main"
      true with | .ok _ => true | .error _ => false) = true := by decide +kernel
  split at apart
  · next lowered =>
    split at printed
    · next texts emitted =>
      exact ⟨texts, emitted,
        (emitAsmEntry_labels_iff lowered emitted).mpr (of_decide_eq_true apart)⟩
    · cases printed
  · cases apart

set_option maxRecDepth 100000 in
/-- Both loops begin at a label of number zero, which the file then defines twice. -/
theorem emitAsmEntry_twoLoops : ∃ texts,
    emitAsmEntry (fun _ => .ok []) (targetInfo .elf false) twoLoops "rt_main" true = .ok texts ∧
      ¬ (LabelsUnique texts ∧ JumpsLocal texts) := by
  have clash : (match emitAsmEntry (fun _ => .ok []) (targetInfo .elf false) twoLoops "rt_main"
      true with
      | .ok texts => decide ((defines texts.flatten).Nodup)
      | .error _ => true) = false := by decide +kernel
  split at clash
  · next texts emitted =>
    refine ⟨texts, emitted, ?_⟩
    intro ⟨unique, _⟩
    exact of_decide_eq_false clash unique
  · cases clash

end Nytrix.Native
