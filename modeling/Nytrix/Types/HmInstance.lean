import Nytrix.Lib.BoundedTable
import Nytrix.Types.HmTame

/-! Instances of type schemes, and when they are consistent renamings. -/

namespace Nytrix.Types

open Nytrix.Lib.BoundedTable Hm

/-- The first part of a node. -/
def Shape.partA : Shape → Option Nat
  | .any | .var _ | .name _ => none
  | .box _ a | .dict a _ | .nullable a | .fn _ a | .union a _ | .indexable a => a

/-- The second part of a node. -/
def Shape.partB : Shape → Option Nat
  | .dict _ b | .union _ b => b
  | _ => none

/-- The arguments of a node. -/
def Shape.arguments : Shape → List Nat
  | .fn args _ => args
  | _ => []

/-- A node of the same kind, and with the same name, that has other parts. -/
def Shape.withParts (a b : Option Nat) (args : List Nat) : Shape → Shape
  | .any => .any
  | .var instance? => .var instance?
  | .name n => .name n
  | .box kind _ => .box kind a
  | .dict _ _ => .dict a b
  | .nullable _ => .nullable a
  | .fn _ _ => .fn args a
  | .union _ _ => .union a b
  | .indexable _ => .indexable a

/-- The variables that have been renamed, by the nodes they are, with their new variables. -/
abbrev Renaming := List (Nat × Nat)

/-- What copying a type leaves: the copy, the state, and the variables renamed so far. -/
abbrev Cloned := Nat × Hm × Renaming

/-- Copies types one after the other. -/
def cloneAll (clone : Hm → Renaming → Nat → Option Cloned) (hm : Hm) (renamed : Renaming) :
    List Nat → Option (List Nat × Hm × Renaming)
  | [] => some ([], hm, renamed)
  | arg :: args =>
    (clone hm renamed arg).bind fun first =>
      (cloneAll clone first.2.1 first.2.2 args).map fun rest => (first.1 :: rest.1, rest.2)

/-- A copy of a part; that of one that is missing is any type. -/
def clonePart (clone : Hm → Renaming → Nat → Option Cloned) (hm : Hm) (renamed : Renaming) :
    Option Nat → Option Cloned
  | none => some (hm.nodes.length, hm.alloc .any, renamed)
  | some r => clone hm renamed r

/-- The new variable of a variable: the one that is kept for it, or another one. -/
def cloneVar (hm : Hm) (renamed : Renaming) (x : Nat) : Cloned :=
  match renamed.lookup x with
  | some v => (v, hm, renamed)
  | none => (hm.nodes.length, hm.alloc (.var none), note 128 renamed x hm.nodes.length)

/--
A copy of a type, to a depth; `none` when the depth does not suffice.

A variable is known by its number in the source, and by its node here. Copies of parts that the
kind does not use are made and dropped.
-/
def hmTypeCloneInst : Nat → Hm → Renaming → Nat → Option Cloned
  | 0, _, _, _ => none
  | depth + 1, hm, renamed, r =>
    let t := hm.prune r
    match hm.shape t with
    | .var _ => some (cloneVar hm renamed t)
    | s =>
      let out := hm.nodes.length
      (clonePart (hmTypeCloneInst depth) (hm.alloc (s.withParts none none [])) renamed s.partA).bind
        fun a =>
          (clonePart (hmTypeCloneInst depth) a.2.1 a.2.2 s.partB).bind fun b =>
            (cloneAll (hmTypeCloneInst depth) b.2.1 b.2.2 s.arguments).map fun args =>
              (out, args.2.1.setNode out (s.withParts (some a.1) (some b.1) args.1), args.2.2)

/-- An instance of a type scheme, with the state that it leaves. -/
def hmInstantiate (depth : Nat) (hm : Hm) (scheme : Nat) : Option (Nat × Hm) :=
  (hmTypeCloneInst depth hm [] scheme).map fun cloned => (cloned.1, cloned.2.1)

/-- The variables of a type without an instance, in order and as often as they come, to a depth. -/
def variablesFrom : Nat → Hm → Nat → List Nat
  | 0, _, _ => []
  | depth + 1, hm, r =>
    match hm.shape (hm.prune r) with
    | .var _ => [hm.prune r]
    | s => s.parts.flatMap fun part => variablesFrom depth hm part

/-- The variables of a type without an instance, in order and as often as they come. -/
def Hm.variables (hm : Hm) (r : Nat) : List Nat := variablesFrom hm.nodes.length hm r

/-- The pairs of parts of two nodes that are of one kind, with one name or as many parameters. -/
def Shape.pairs : Shape → Shape → Option (List (Option Nat × Option Nat))
  | .any, .any => some []
  | .name n, .name m => if n = m then some [] else none
  | .box k a, .box l b => if k = l then some [(a, b)] else none
  | .dict a b, .dict c d => some [(a, c), (b, d)]
  | .nullable a, .nullable b => some [(a, b)]
  | .fn args a, .fn args' a' =>
    if args.length = args'.length then some ((args.map some).zip (args'.map some) ++ [(a, a')])
    else none
  | .union a b, .union c d => some [(a, c), (b, d)]
  | .indexable a, .indexable b => some [(a, b)]
  | _, _ => none

/--
A type is that of a part with its variables renamed.

What stands for a part that is missing is any type.
-/
inductive Renamed (hm : Hm) (rename : Nat → Nat) : Option Nat → Option Nat → Prop
  | null {r' : Nat} (isAny : hm.nodes[r']? = some .any) : Renamed hm rename none (some r')
  | var {r x : Nat} (prunes : hm.Prunes r x) (free : hm.nodes[x]? = some (.var none)) :
    Renamed hm rename (some r) (some (rename x))
  | node {r x r' : Nat} {s s' : Shape} {pairs : List (Option Nat × Option Nat)}
    (prunes : hm.Prunes r x) (found : hm.nodes[x]? = some s) (copied : hm.nodes[r']? = some s')
    (alike : s.pairs s' = some pairs) (parts : ∀ pair ∈ pairs, Renamed hm rename pair.1 pair.2) :
    Renamed hm rename (some r) (some r')

/-- A type is a consistent renaming of a scheme with new variables. -/
def IsInstance (hm hm' : Hm) (scheme r' : Nat) : Prop :=
  ∃ rename : Nat → Nat, Set.InjOn rename {x | x ∈ hm.variables scheme} ∧
    (∀ x ∈ hm.variables scheme,
      hm.nodes.length ≤ rename x ∧ hm'.nodes[rename x]? = some (.var none)) ∧
    Renamed hm' rename (some scheme) (some r')

/-- A state that has the nodes of another one, and maybe more. -/
def GrowsTo (hm hm' : Hm) : Prop := hm.nodes <+: hm'.nodes ∧ hm'.diags = hm.diags

/--
A scheme whose variables are few enough, or come once.

A variable comes only once if 128 others come before it.
-/
def FewVariables (hm : Hm) (scheme : Nat) : Prop := OnceBeyond 128 ∅ (hm.variables scheme)

section Growth

variable {hm hm' hm'' : Hm}

theorem GrowsTo.refl (hm : Hm) : GrowsTo hm hm := ⟨List.prefix_rfl, rfl⟩

theorem GrowsTo.trans (first : GrowsTo hm hm') (second : GrowsTo hm' hm'') : GrowsTo hm hm'' :=
  ⟨first.1.trans second.1, second.2.trans first.2⟩

theorem GrowsTo.alloc (hm : Hm) (s : Shape) : GrowsTo hm (hm.alloc s) :=
  ⟨List.prefix_append _ _, rfl⟩

theorem GrowsTo.length_le (grows : GrowsTo hm hm') : hm.nodes.length ≤ hm'.nodes.length :=
  grows.1.length_le

theorem GrowsTo.get (grows : GrowsTo hm hm') {i : Nat} {s : Shape} (found : hm.nodes[i]? = some s) :
    hm'.nodes[i]? = some s := by
  obtain ⟨added, eq⟩ := grows.1
  rw [← eq, List.getElem?_append_left (inside_of_get found), found]

theorem GrowsTo.setNode {s s' : Shape} (grows : GrowsTo (hm.alloc s) hm') :
    GrowsTo hm (hm'.setNode hm.nodes.length s') := by
  obtain ⟨⟨added, eq⟩, diags⟩ := grows
  refine ⟨?_, diags⟩
  rw [Hm.setNode, ← eq, Hm.alloc, List.append_assoc, List.set_append_right _ _ le_rfl]
  exact List.prefix_append _ _

theorem setNode_other {i r : Nat} {s t : Shape} (found : hm.nodes[i]? = some s) (differ : r ≠ i) :
    (hm.setNode r t).nodes[i]? = some s := by
  rw [Hm.setNode, List.getElem?_set_ne differ, found]

end Growth

section Pruning

variable {hm hm' : Hm}

theorem Hm.Prunes.grown (grows : GrowsTo hm hm') (wf : hm.Wf) {r x : Nat}
    (prunes : hm.Prunes r x) (inside : r < hm.nodes.length) : hm'.Prunes r x := by
  induction prunes with
  | @stop r ended =>
    refine Prunes.stop fun i found => ?_
    have here := grows.get (get_shape inside)
    rw [here, Option.some.injEq] at found
    exact ended i (found ▸ get_shape inside)
  | @step r i x found rest rest_grown =>
    exact Prunes.step (grows.get found) (rest_grown (wf.inRange _ _ found _ (by simp [Shape.edges])))

theorem pruneFrom_grown (grows : GrowsTo hm hm') (wf : hm.Wf) {rank : Nat → Nat}
    (ranked : hm.Ranked rank) {depth r x : Nat} (enough : rank r < depth)
    (prunes : hm.Prunes r x) (inside : r < hm.nodes.length) :
    pruneFrom depth hm'.nodes r = x := by
  induction depth generalizing r with
  | zero => omega
  | succ depth depth_grown =>
    have here := grows.get (get_shape inside)
    rw [pruneFrom, here]
    cases prunes with
    | stop ended =>
      split
      · rename_i i isVar
        rw [Option.some.injEq] at isVar
        exact absurd (isVar ▸ get_shape inside) (ended i)
      · rfl
    | @step _ i _ found rest =>
      have shape := shape_eq found
      rw [shape]
      have edge : i ∈ (Shape.var (some i)).edges := by simp [Shape.edges]
      have lower := ranked _ _ found i edge
      exact depth_grown (by omega) rest (wf.inRange _ _ found i edge)

theorem prune_grown (grows : GrowsTo hm hm') (wf : hm.Wf) {r : Nat}
    (inside : r < hm.nodes.length) : hm'.prune r = hm.prune r := by
  obtain ⟨rank, ranked, small⟩ := wf.rank
  have bound := small r inside
  exact pruneFrom_grown grows wf ranked (bound.trans_le grows.length_le) (wf.prunes r) inside

theorem shape_grown (grows : GrowsTo hm hm') {r : Nat} (inside : r < hm.nodes.length) :
    hm'.shape r = hm.shape r := shape_eq (grows.get (get_shape inside))

end Pruning

section Spelling

/-- A copy spells a type: it has the same nodes, and at each variable the one listed. -/
inductive Spells (hm hm' : Hm) : Nat → Option Nat → Option Nat → List (Nat × Nat) → Prop
  | null {low r' : Nat} (above : low ≤ r') (isAny : hm'.nodes[r']? = some .any) :
    Spells hm hm' low none (some r') []
  | var {low r x v : Nat} (prunes : hm.Prunes r x) (free : hm.nodes[x]? = some (.var none)) :
    Spells hm hm' low (some r) (some v) [(x, v)]
  | node {low r x r' a b : Nat} {s : Shape} {pairsA pairsB : List (Nat × Nat)}
    {items : List ((Nat × Nat) × List (Nat × Nat))} (prunes : hm.Prunes r x)
    (found : hm.nodes[x]? = some s) (noVar : ∀ i, s ≠ .var i) (above : low ≤ r')
    (same : items.map (·.1.1) = s.arguments)
    (copied : hm'.nodes[r']? = some (s.withParts (some a) (some b) (items.map (·.1.2))))
    (partA : Spells hm hm' low s.partA (some a) pairsA)
    (partB : Spells hm hm' low s.partB (some b) pairsB)
    (arguments : ∀ item ∈ items, Spells hm hm' low (some item.1.1) (some item.1.2) item.2) :
    Spells hm hm' low (some r) (some r') (pairsA ++ pairsB ++ items.flatMap (·.2))

variable {hm hm' hm'' : Hm} {low low' : Nat} {part part' : Option Nat} {pairs : List (Nat × Nat)}

theorem Spells.mono (spells : Spells hm hm' low part part' pairs) (lower : low' ≤ low)
    (kept : ∀ i s, low ≤ i → hm'.nodes[i]? = some s → hm''.nodes[i]? = some s) :
    Spells hm hm'' low' part part' pairs := by
  induction spells with
  | null above isAny => exact .null (lower.trans above) (kept _ _ above isAny)
  | var prunes free => exact .var prunes free
  | node prunes found noVar above same copied partA partB arguments partA_mono partB_mono
      arguments_mono =>
    exact .node prunes found noVar (lower.trans above) same (kept _ _ above copied)
      partA_mono partB_mono arguments_mono

end Spelling

section Cloning

/-- The new variables of some pairs have no instance. -/
def Free (hm : Hm) (pairs : List (Nat × Nat)) : Prop :=
  ∀ pair ∈ pairs, hm.nodes[pair.2]? = some (.var none)

/-- What copying a part of an old state leaves, where other nodes may have been made since. -/
structure Clones (base hm : Hm) (renamed : Renaming) (part : Option Nat) (cloned : Cloned)
    (pairs : List (Nat × Nat)) : Prop where
  grows : GrowsTo hm cloned.2.1
  spells : Spells base cloned.2.1 hm.nodes.length part (some cloned.1) pairs
  assigns : Assigns 128 renamed hm.nodes.length pairs cloned.2.2 cloned.2.1.nodes.length
  free : Free hm renamed → Free cloned.2.1 cloned.2.2 ∧ Free cloned.2.1 pairs

/-- What copying several types leaves. -/
structure ClonesAll (base hm : Hm) (renamed : Renaming) (args copies : List Nat) (hm' : Hm)
    (renamed' : Renaming) (items : List ((Nat × Nat) × List (Nat × Nat))) : Prop where
  grows : GrowsTo hm hm'
  sources : items.map (·.1.1) = args
  copies : items.map (·.1.2) = copies
  spells : ∀ item ∈ items,
    Spells base hm' hm.nodes.length (some item.1.1) (some item.1.2) item.2
  assigns : Assigns 128 renamed hm.nodes.length (items.flatMap (·.2)) renamed' hm'.nodes.length
  free : Free hm renamed → Free hm' renamed' ∧ Free hm' (items.flatMap (·.2))

variable {base hm hm' : Hm} {renamed : Renaming} {clone : Hm → Renaming → Nat → Option Cloned}

theorem Free.grown {pairs : List (Nat × Nat)} (free : Free hm pairs) (grows : GrowsTo hm hm') :
    Free hm' pairs := fun pair inList => grows.get (free pair inList)

theorem Spells.grown {hm'' : Hm} {low low' : Nat} {part part' : Option Nat}
    {pairs : List (Nat × Nat)} (spells : Spells hm hm' low part part' pairs) (lower : low' ≤ low)
    (grows : GrowsTo hm' hm'') : Spells hm hm'' low' part part' pairs :=
  spells.mono lower fun _ _ _ found => grows.get found

/-- What makes a copy of every type that may be asked for. -/
def CanClone (base : Hm) (may : Nat → Prop) (clone : Hm → Renaming → Nat → Option Cloned) : Prop :=
  ∀ hm renamed r, GrowsTo base hm → may r →
    ∃ cloned pairs, clone hm renamed r = some cloned ∧ Clones base hm renamed (some r) cloned pairs

theorem clonePart_clones {may : Nat → Prop} (can : CanClone base may clone) (here : GrowsTo base hm)
    (renamed : Renaming) (part : Option Nat) (parts : ∀ r, part = some r → may r) :
    ∃ cloned pairs, clonePart clone hm renamed part = some cloned ∧
      Clones base hm renamed part cloned pairs := by
  cases part with
  | some r => exact can hm renamed r here (parts r rfl)
  | none =>
    refine ⟨_, [], rfl, GrowsTo.alloc hm .any, .null le_rfl ?_, .nil ?_, fun free => ⟨?_, ?_⟩⟩
    · simp [Hm.alloc]
    · simp [Hm.alloc]
    · exact free.grown (GrowsTo.alloc hm .any)
    · exact fun pair inList => absurd inList List.not_mem_nil

theorem cloneAll_clones {may : Nat → Prop} (can : CanClone base may clone) (args : List Nat)
    (parts : ∀ r ∈ args, may r) : ∀ hm renamed, GrowsTo base hm →
      ∃ copies hm' renamed' items, cloneAll clone hm renamed args = some (copies, hm', renamed') ∧
        ClonesAll base hm renamed args copies hm' renamed' items := by
  induction args with
  | nil =>
    intro hm renamed here
    refine ⟨[], hm, renamed, [], rfl, GrowsTo.refl hm, rfl, rfl, ?_, .nil le_rfl, fun free => ?_⟩
    · exact fun item inList => absurd inList List.not_mem_nil
    · exact ⟨free, fun pair inList => absurd inList List.not_mem_nil⟩
  | cons arg args args_clone =>
    intro hm renamed here
    obtain ⟨⟨copy, hm₁, renamed₁⟩, pairs, first, clones⟩ :=
      can hm renamed arg here (parts arg List.mem_cons_self)
    obtain ⟨copies, hm', renamed', items, rest, behind⟩ :=
      args_clone (fun r inList => parts r (List.mem_cons_of_mem _ inList))
        hm₁ renamed₁ (here.trans clones.grows)
    refine ⟨copy :: copies, hm', renamed', ((arg, copy), pairs) :: items, ?_, ?_⟩
    · rw [cloneAll, first, Option.bind_some]
      dsimp only
      rw [rest, Option.map_some]
    · constructor
      case grows => exact clones.grows.trans behind.grows
      case sources => rw [List.map_cons, behind.sources]
      case copies => rw [List.map_cons, behind.copies]
      case spells =>
        intro item inList
        rcases List.mem_cons.1 inList with rfl | later
        · exact clones.spells.grown le_rfl behind.grows
        · exact (behind.spells item later).mono clones.grows.length_le fun _ _ _ found => found
      case assigns =>
        rw [List.flatMap_cons]
        exact clones.assigns.append behind.assigns
      case free =>
        intro free
        obtain ⟨kept, made⟩ := clones.free free
        obtain ⟨kept', made'⟩ := behind.free kept
        refine ⟨kept', fun pair inList => ?_⟩
        rw [List.flatMap_cons] at inList
        rcases List.mem_append.1 inList with first | later
        · exact behind.grows.get (made pair first)
        · exact made' pair later

theorem cloneVar_clones (hm : Hm) (renamed : Renaming) {r x : Nat} (prunes : base.Prunes r x)
    (free : base.nodes[x]? = some (.var none)) :
    ∃ pairs, Clones base hm renamed (some r) (cloneVar hm renamed x) pairs := by
  unfold cloneVar
  split
  case h_1 v found =>
    refine ⟨[(x, v)], GrowsTo.refl hm, .var prunes free, .known found (.nil le_rfl), ?_⟩
    intro others
    refine ⟨others, fun pair inList => ?_⟩
    rw [List.mem_singleton] at inList
    exact inList ▸ others _ (mem_of_lookup found)
  case h_2 new =>
    have made : (hm.alloc (.var none)).nodes[hm.nodes.length]? = some (.var none) := by
      simp [Hm.alloc]
    refine ⟨[(x, hm.nodes.length)], GrowsTo.alloc hm _, .var prunes free,
      .fresh new le_rfl (.nil ?_), fun others => ⟨fun pair inList => ?_, fun pair inList => ?_⟩⟩
    · simp [Hm.alloc]
    · unfold note at inList
      split at inList
      · rcases List.mem_append.1 inList with before | last
        · exact (GrowsTo.alloc hm _).get (others pair before)
        · rw [List.mem_singleton] at last
          exact last ▸ made
      · exact (GrowsTo.alloc hm _).get (others pair inList)
    · rw [List.mem_singleton] at inList
      exact inList ▸ made

theorem hmTypeCloneInst_node {depth r : Nat} {s : Shape} (shape : hm.shape (hm.prune r) = s)
    (noVar : ∀ i, s ≠ .var i) :
    hmTypeCloneInst (depth + 1) hm renamed r =
      (clonePart (hmTypeCloneInst depth) (hm.alloc (s.withParts none none [])) renamed s.partA).bind
        fun a =>
          (clonePart (hmTypeCloneInst depth) a.2.1 a.2.2 s.partB).bind fun b =>
            (cloneAll (hmTypeCloneInst depth) b.2.1 b.2.2 s.arguments).map fun args =>
              (hm.nodes.length,
                args.2.1.setNode hm.nodes.length (s.withParts (some a.1) (some b.1) args.1),
                args.2.2) := by
  rw [hmTypeCloneInst]
  simp only [shape]

theorem Shape.parts_eq {s : Shape} (noVar : ∀ i, s ≠ .var i) :
    s.parts = s.partA.toList ++ s.partB.toList ++ s.arguments := by
  cases s with
  | var i => exact absurd rfl (noVar i)
  | _ => simp [Shape.parts, Shape.partA, Shape.partB, Shape.arguments]

theorem Shape.withParts_noVar {s : Shape} (noVar : ∀ i, s ≠ .var i) (a b : Option Nat)
    (args : List Nat) : ∀ i, s.withParts a b args ≠ .var i := by
  cases s with
  | var i => exact absurd rfl (noVar i)
  | _ => exact fun i same => nomatch same

/-- A type of an old state is copied to a depth above its rank. -/
theorem hmTypeCloneInst_clones (wf : base.Wf) {rank : Nat → Nat} (ranked : base.Ranked rank)
    (depth : Nat) :
    CanClone base (fun r => r < base.nodes.length ∧ rank r < depth) (hmTypeCloneInst depth) := by
  induction depth with
  | zero => exact fun _ _ _ _ may => absurd may.2 (Nat.not_lt_zero _)
  | succ depth depth_clones =>
    intro hm renamed r here may
    obtain ⟨inside, enough⟩ := may
    have prunes := wf.prunes r
    have target := prunes.inside wf inside
    have found := get_shape target
    have shape : hm.shape (hm.prune r) = base.shape (base.prune r) := by
      rw [prune_grown here wf inside, shape_grown here target]
    by_cases isVar : ∃ i, base.shape (base.prune r) = .var i
    · -- A variable without an instance is renamed.
      obtain ⟨i, eq⟩ := isVar
      obtain rfl : i = none := by
        cases i with
        | none => rfl
        | some i => exact absurd (eq ▸ found) (prunes.ended i)
      obtain ⟨pairs, clones⟩ := cloneVar_clones hm renamed prunes (eq ▸ found)
      refine ⟨_, pairs, ?_, clones⟩
      rw [hmTypeCloneInst]
      simp only [prune_grown here wf inside, shape_grown here target, eq]
    · -- Another node is made, its parts are copied, and it is filled in.
      have noVar : ∀ i, base.shape (base.prune r) ≠ .var i := fun i eq => isVar ⟨i, eq⟩
      generalize base.shape (base.prune r) = s at *
      have lower := prunes.rank_le ranked
      have parts : ∀ c ∈ s.parts, c < base.nodes.length ∧ rank c < depth := by
        intro c part
        have edge := Shape.edges_of_parts part
        have below := ranked _ s found c edge
        exact ⟨wf.inRange _ s found c edge, by omega⟩
      rw [Shape.parts_eq noVar] at parts
      have made := GrowsTo.alloc hm (s.withParts none none [])
      obtain ⟨⟨a, hmA, renamedA⟩, pairsA, runA, clonesA⟩ :=
        clonePart_clones depth_clones (here.trans made) renamed s.partA
          fun c part => parts c (by simp [part])
      have hereA := (here.trans made).trans clonesA.grows
      obtain ⟨⟨b, hmB, renamedB⟩, pairsB, runB, clonesB⟩ :=
        clonePart_clones depth_clones hereA renamedA s.partB
          fun c part => parts c (by simp [part])
      obtain ⟨copies, hmC, renamedC, items, runC, clonesC⟩ :=
        cloneAll_clones depth_clones s.arguments (fun c part => parts c (by simp [part])) hmB
          renamedB (hereA.trans clonesB.grows)
      dsimp only at clonesA clonesB
      have behindA := clonesA.grows.trans (clonesB.grows.trans clonesC.grows)
      have length : (hm.alloc (s.withParts none none [])).nodes.length = hm.nodes.length + 1 := by
        simp [Hm.alloc]
      -- What was made for the parts is above the node that is filled in.
      have stays : ∀ {hm' : Hm}, GrowsTo hm' hmC → ∀ i t, hm.nodes.length + 1 ≤ i →
          hm'.nodes[i]? = some t →
            (hmC.setNode hm.nodes.length
              (s.withParts (some a) (some b) copies)).nodes[i]? = some t :=
        fun later i t above inside => setNode_other (later.get inside) (by omega)
      have lengths := behindA.length_le
      rw [length] at lengths
      refine ⟨_, pairsA ++ pairsB ++ items.flatMap (·.2), by
        rw [hmTypeCloneInst_node shape noVar, runA, Option.bind_some, runB, Option.bind_some, runC,
          Option.map_some], ?_⟩
      have lengthA := clonesA.grows.length_le
      have lengthB := clonesB.grows.length_le
      rw [length] at lengthA
      dsimp only at lengthA lengthB
      constructor
      case grows => exact behindA.setNode
      case spells =>
        refine .node (a := a) (b := b) prunes found noVar le_rfl clonesC.sources ?_ ?_ ?_ ?_
        · rw [clonesC.copies]
          exact List.getElem?_set_self (show hm.nodes.length < hmC.nodes.length by omega)
        · exact clonesA.spells.mono (by rw [length]; omega) fun i t above =>
            stays (clonesB.grows.trans clonesC.grows) i t (by rwa [length] at above)
        · exact clonesB.spells.mono (by omega) fun i t above =>
            stays clonesC.grows i t (by omega)
        · exact fun item inList => (clonesC.spells item inList).mono (by omega) fun i t above =>
            stays (GrowsTo.refl hmC) i t (by omega)
      case assigns =>
        have all := (clonesA.assigns.append clonesB.assigns).append clonesC.assigns
        simpa only [Hm.setNode, List.length_set] using all.earlier (by omega)
      case free =>
        intro free
        obtain ⟨keptA, freeA⟩ := clonesA.free (free.grown made)
        obtain ⟨keptB, freeB⟩ := clonesB.free keptA
        obtain ⟨keptC, freeC⟩ := clonesC.free keptB
        -- The node that is filled in is no variable.
        have notFilled : ∀ {pairs}, Free hmC pairs → Free (hmC.setNode hm.nodes.length
            (s.withParts (some a) (some b) copies)) pairs := by
          intro pairs freePairs pair inList
          refine setNode_other (freePairs pair inList) fun same => ?_
          have there := freePairs pair inList
          rw [← same, behindA.get (s := s.withParts none none []) (by simp [Hm.alloc]),
            Option.some.injEq] at there
          exact Shape.withParts_noVar noVar _ _ _ _ there
        refine ⟨notFilled keptC, notFilled fun pair inList => ?_⟩
        rcases List.mem_append.1 inList with front | last
        · rcases List.mem_append.1 front with first | second
          · exact (clonesB.grows.trans clonesC.grows).get (freeA pair first)
          · exact clonesC.grows.get (freeB pair second)
        · exact freeC pair last

end Cloning

section Reading

variable {base hm : Hm} {low : Nat} {part part' : Option Nat} {pairs : List (Nat × Nat)}

theorem Spells.variables (wf : base.Wf) {rank : Nat → Nat} (ranked : base.Ranked rank)
    (spells : Spells base hm low part part' pairs) : ∀ depth,
      (∀ r, part = some r → rank r < depth) →
        pairs.map (·.1) = part.toList.flatMap (variablesFrom depth base) := by
  induction spells with
  | null => exact fun _ _ => rfl
  | @var r x v prunes free =>
    intro depth enough
    have bound := enough r rfl
    obtain ⟨depth, rfl⟩ : ∃ d, depth = d + 1 := ⟨depth - 1, by omega⟩
    simp [variablesFrom, wf.prune_eq prunes, shape_eq free]
  | @node r x r' a b s pairsA pairsB items prunes found noVar above same copied partA partB
      arguments partA_variables partB_variables arguments_variables =>
    intro depth enough
    have bound := enough r rfl
    obtain ⟨depth, rfl⟩ : ∃ d, depth = d + 1 := ⟨depth - 1, by omega⟩
    have lower := prunes.rank_le ranked
    have below : ∀ c ∈ s.parts, rank c < depth := by
      intro c isPart
      have less := ranked _ s found c (Shape.edges_of_parts isPart)
      omega
    have whole := Shape.parts_eq noVar
    rw [whole] at below
    have here : variablesFrom (depth + 1) base r = s.parts.flatMap (variablesFrom depth base) := by
      rw [variablesFrom, wf.prune_eq prunes, shape_eq found]
      cases s with
      | var i => exact absurd rfl (noVar i)
      | _ => rfl
    have first := partA_variables depth fun c is => below c (by simp [is])
    have second := partB_variables depth fun c is => below c (by simp [is])
    have third : (items.flatMap (·.2)).map (·.1) =
        s.arguments.flatMap (variablesFrom depth base) := by
      rw [← same, List.map_flatMap, List.flatMap_map]
      refine List.flatMap_congr fun item inList => ?_
      have one := arguments_variables item inList depth fun c is => below c (by
        rw [Option.some.injEq] at is
        rw [← is, ← same]
        simp only [List.mem_append, List.mem_map]
        exact .inr ⟨item, inList, rfl⟩)
      simpa using one
    simp only [Option.toList_some, List.flatMap_singleton, here, whole, List.flatMap_append,
      List.map_append, first, second, third]

theorem Shape.pairs_withParts {s : Shape} (noVar : ∀ i, s ≠ .var i) {a b : Nat} {args : List Nat}
    (same : s.arguments.length = args.length) :
    ∃ pairs, s.pairs (s.withParts (some a) (some b) args) = some pairs ∧
      (∀ pair ∈ pairs, pair = (s.partA, some a) ∨ pair = (s.partB, some b) ∨
        ∃ item ∈ s.arguments.zip args, pair = (some item.1, some item.2)) ∧
      (s.partA ≠ none → (s.partA, some a) ∈ pairs) ∧ (s.partB ≠ none → (s.partB, some b) ∈ pairs) ∧
      ∀ item ∈ s.arguments.zip args, (some item.1, some item.2) ∈ pairs := by
  cases s with
  | var i => exact absurd rfl (noVar i)
  | fn parameters result =>
    refine ⟨_, if_pos same, ?_, ?_, ?_, ?_⟩
    · intro pair inList
      rcases List.mem_append.1 inList with argument | last
      · rw [List.zip_map, List.mem_map] at argument
        obtain ⟨item, inZip, rfl⟩ := argument
        exact .inr (.inr ⟨item, inZip, rfl⟩)
      · exact .inl (List.mem_singleton.1 last)
    · exact fun _ => List.mem_append_right _ (List.mem_singleton.2 rfl)
    · exact fun some => absurd rfl some
    · intro item inZip
      refine List.mem_append_left _ ?_
      rw [List.zip_map, List.mem_map]
      exact ⟨item, inZip, rfl⟩
  | name n =>
    refine ⟨_, if_pos rfl, ?_, ?_, ?_, ?_⟩ <;> simp [Shape.partA, Shape.partB, Shape.arguments]
  | box k inner =>
    refine ⟨_, if_pos rfl, ?_, ?_, ?_, ?_⟩ <;> simp [Shape.partA, Shape.partB, Shape.arguments]
  | _ => refine ⟨_, rfl, ?_, ?_, ?_, ?_⟩ <;> simp [Shape.partA, Shape.partB, Shape.arguments]

theorem Spells.none_pairs (spells : Spells base hm low none part' pairs) : pairs = [] := by
  cases spells
  rfl

/-- A copy is a renaming exactly if the variables listed for it are renamed as listed. -/
theorem Spells.renamed_iff (wf : base.Wf) (grows : GrowsTo base hm) (rename : Nat → Nat)
    (spells : Spells base hm low part part' pairs) : (∀ r, part = some r → r < base.nodes.length) →
      (Renamed hm rename part part' ↔ ∀ pair ∈ pairs, pair.2 = rename pair.1) := by
  induction spells with
  | null above isAny =>
    exact fun _ => ⟨fun _ pair inList => absurd inList List.not_mem_nil, fun _ => .null isAny⟩
  | @var r x v prunes free =>
    intro inside
    have here := prunes.grown grows wf (inside r rfl)
    have free' := grows.get free
    rw [List.forall_mem_singleton]
    constructor
    · intro renamed
      cases renamed with
      | var prunes' => rw [prunes'.unique here]
      | node prunes' found _ alike =>
        -- A variable is paired with nothing.
        rw [prunes'.unique here, free', Option.some.injEq] at found
        subst found
        cases alike
    · intro same
      rw [show v = rename x from same]
      exact .var here free'
  | @node r x r' a b s pairsA pairsB items prunes found noVar above same copied partA partB
      arguments partA_iff partB_iff arguments_iff =>
    intro inside
    have here := prunes.grown grows wf (inside r rfl)
    have found' := grows.get found
    have parts : ∀ c ∈ s.parts, c < base.nodes.length := fun c isPart =>
      wf.inRange _ s found c (Shape.edges_of_parts isPart)
    rw [Shape.parts_eq noVar] at parts
    have argument : ∀ item ∈ items, item.1.1 ∈ s.arguments :=
      fun item inList => same ▸ List.mem_map_of_mem inList
    -- The parts of the node and of its copy, in pairs.
    have iffA := partA_iff fun c is => parts c (by simp [is])
    have iffB := partB_iff fun c is => parts c (by simp [is])
    have iffs := fun item inList => arguments_iff item inList fun c is => parts c (by
      rw [Option.some.injEq] at is
      simpa using .inr (.inr (is ▸ argument item inList)))
    have zipped : s.arguments.zip (items.map (·.1.2)) = items.map (·.1) := by
      rw [← same, List.zip_map']
    obtain ⟨paired, alike, only, hasA, hasB, hasItems⟩ :=
      @Shape.pairs_withParts s noVar a b (items.map (·.1.2))
        (by rw [← same, List.length_map, List.length_map])
    rw [zipped] at only hasItems
    constructor
    · intro renamed
      cases renamed with
      | var prunes' free =>
        rw [prunes'.unique here, found', Option.some.injEq] at free
        exact absurd free (noVar none)
      | node prunes' foundS foundT alike' parts' =>
        rw [prunes'.unique here, found', Option.some.injEq] at foundS
        rw [copied, Option.some.injEq] at foundT
        subst foundS foundT
        obtain rfl := Option.some.inj (alike.symm.trans alike')
        intro pair inList
        rcases List.mem_append.1 inList with front | last
        · rcases List.mem_append.1 front with first | second
          · by_cases none : s.partA = none
            · rw [none] at partA
              exact absurd (partA.none_pairs ▸ first) List.not_mem_nil
            · exact iffA.1 (parts' _ (hasA none)) pair first
          · by_cases none : s.partB = none
            · rw [none] at partB
              exact absurd (partB.none_pairs ▸ second) List.not_mem_nil
            · exact iffB.1 (parts' _ (hasB none)) pair second
        · obtain ⟨item, inItems, inPairs⟩ := List.mem_flatMap.1 last
          have there := parts' _ (hasItems item.1 (List.mem_map_of_mem inItems))
          exact (iffs item inItems).1 there pair inPairs
    · intro listed
      refine .node here found' copied alike fun pair inList => ?_
      rcases only pair inList with rfl | rfl | ⟨item, inZip, rfl⟩
      · exact iffA.2 fun q inPairs => listed q (by simp [inPairs])
      · exact iffB.2 fun q inPairs => listed q (by simp [inPairs])
      · obtain ⟨item, inItems, rfl⟩ := List.mem_map.1 inZip
        exact (iffs item inItems).2 fun q inPairs =>
          listed q (List.mem_append_right _ (List.mem_flatMap.2 ⟨item, inItems, inPairs⟩))

end Reading

section Depths

variable {clone clone' : Hm → Renaming → Nat → Option Cloned}

/-- What finds the copies that another finds. -/
def Deeper (clone clone' : Hm → Renaming → Nat → Option Cloned) : Prop :=
  ∀ hm renamed r cloned, clone hm renamed r = some cloned → clone' hm renamed r = some cloned

theorem Deeper.part (deeper : Deeper clone clone') {hm : Hm} {renamed : Renaming}
    {part : Option Nat} {cloned : Cloned} (run : clonePart clone hm renamed part = some cloned) :
    clonePart clone' hm renamed part = some cloned := by
  cases part with
  | none => exact run
  | some r => exact deeper hm renamed r cloned run

theorem Deeper.all (deeper : Deeper clone clone') (args : List Nat) :
    ∀ hm renamed copies, cloneAll clone hm renamed args = some copies →
      cloneAll clone' hm renamed args = some copies := by
  induction args with
  | nil => exact fun _ _ _ run => run
  | cons arg args args_all =>
    intro hm renamed copies run
    rw [cloneAll, Option.bind_eq_some_iff] at run
    obtain ⟨first, runFirst, behind⟩ := run
    rw [Option.map_eq_some_iff] at behind
    obtain ⟨rest, runRest, rfl⟩ := behind
    rw [cloneAll, deeper hm renamed arg first runFirst, Option.bind_some,
      args_all _ _ rest runRest, Option.map_some]

theorem hmTypeCloneInst_deeper {depth depth' : Nat} (more : depth ≤ depth') :
    Deeper (hmTypeCloneInst depth) (hmTypeCloneInst depth') := by
  induction depth generalizing depth' with
  | zero => exact fun _ _ _ _ run => nomatch run
  | succ depth depth_deeper =>
    intro hm renamed r cloned run
    obtain ⟨depth', rfl⟩ : ∃ d, depth' = d + 1 := ⟨depth' - 1, by omega⟩
    have deeper := depth_deeper (Nat.le_of_succ_le_succ more)
    by_cases isVar : ∃ i, hm.shape (hm.prune r) = .var i
    · -- A variable needs no more depth.
      obtain ⟨i, eq⟩ := isVar
      rw [hmTypeCloneInst] at run ⊢
      simp only [eq] at run ⊢
      exact run
    · have noVar : ∀ i, hm.shape (hm.prune r) ≠ .var i := fun i eq => isVar ⟨i, eq⟩
      rw [hmTypeCloneInst_node rfl noVar, Option.bind_eq_some_iff] at run
      obtain ⟨a, runA, run⟩ := run
      rw [Option.bind_eq_some_iff] at run
      obtain ⟨b, runB, run⟩ := run
      rw [Option.map_eq_some_iff] at run
      obtain ⟨args, runArgs, rfl⟩ := run
      rw [hmTypeCloneInst_node rfl noVar, deeper.part runA, Option.bind_some, deeper.part runB,
        Option.bind_some, deeper.all _ _ _ _ runArgs, Option.map_some]

end Depths

section Instances

variable {hm : Hm} {scheme : Nat}

theorem Clones.isInstance_iff (wf : hm.Wf) (inside : scheme < hm.nodes.length) {cloned : Cloned}
    {pairs : List (Nat × Nat)} (clones : Clones hm hm [] (some scheme) cloned pairs) :
    IsInstance hm cloned.2.1 scheme cloned.1 ↔ FewVariables hm scheme := by
  obtain ⟨rank, ranked, small⟩ := wf.rank
  have keys : pairs.map (·.1) = hm.variables scheme := by
    rw [clones.spells.variables wf ranked hm.nodes.length fun r is =>
      Option.some.inj is ▸ small scheme inside, Option.toList_some, List.flatMap_singleton]
    rfl
  have renamed := fun rename => clones.spells.renamed_iff wf clones.grows rename
    fun r is => Option.some.inj is ▸ inside
  have consistent := clones.assigns.consistent_iff Kept.start
  rw [List.nil_append, keys, List.map_nil, List.toFinset_nil, consistent_iff, keys] at consistent
  have free := (clones.free fun pair inList => absurd inList List.not_mem_nil).2
  refine Iff.trans ⟨?_, ?_⟩ consistent
  · rintro ⟨rename, injective, -, isRenamed⟩
    exact ⟨rename, injective, (renamed rename).1 isRenamed⟩
  · rintro ⟨rename, injective, listed⟩
    refine ⟨rename, injective, fun x isVariable => ?_, (renamed rename).2 listed⟩
    -- Each name that was given is that of a node made for the copy.
    rw [← keys] at isVariable
    obtain ⟨pair, inPairs, rfl⟩ := List.mem_map.1 isVariable
    rw [← listed pair inPairs]
    exact ⟨(clones.assigns.name_new inPairs).resolve_left List.not_mem_nil, free pair inPairs⟩

theorem hmInstantiate_clones (wf : hm.Wf) (inside : scheme < hm.nodes.length) :
    ∃ cloned pairs, Clones hm hm [] (some scheme) cloned pairs ∧
      ∀ depth ≥ hm.nodes.length, hmInstantiate depth hm scheme = some (cloned.1, cloned.2.1) := by
  obtain ⟨rank, ranked, small⟩ := wf.rank
  obtain ⟨cloned, pairs, run, clones⟩ :=
    hmTypeCloneInst_clones wf ranked hm.nodes.length hm [] scheme (GrowsTo.refl hm)
      ⟨inside, small scheme inside⟩
  refine ⟨cloned, pairs, clones, fun depth enough => ?_⟩
  rw [hmInstantiate, hmTypeCloneInst_deeper enough hm [] scheme cloned run, Option.map_some]

/--
Instantiating a type scheme ends, and leaves all types that there are as they are.

What it returns is the scheme with its variables consistently renamed to new ones exactly if every
variable comes only once where 128 others come before it.
-/
theorem hmInstantiate_isInstance_iff (wf : hm.Wf) (inside : scheme < hm.nodes.length) :
    ∃ r' hm', (∀ depth ≥ hm.nodes.length, hmInstantiate depth hm scheme = some (r', hm')) ∧
      GrowsTo hm hm' ∧ (IsInstance hm hm' scheme r' ↔ FewVariables hm scheme) := by
  obtain ⟨cloned, pairs, clones, runs⟩ := hmInstantiate_clones wf inside
  exact ⟨cloned.1, cloned.2.1, runs, clones.grows, clones.isInstance_iff wf inside⟩

/-- One argument of a function twice, without a result. -/
def twice : Hm := ⟨[.var none, .fn [0, 0] none], []⟩

theorem twice_wf : twice.Wf := by
  refine ⟨?_, id, ?_⟩
  all_goals
    intro r s found c edge
    rcases r with _ | _ | r
    · obtain rfl : Shape.var none = s := Option.some.inj found
      exact absurd edge List.not_mem_nil
    · obtain rfl : Shape.fn [0, 0] none = s := Option.some.inj found
      obtain rfl : c = 0 := by simpa [Shape.edges, Shape.parts] using edge
      decide
    · cases found

/-- A function with one variable twice is instantiated. -/
theorem hmInstantiate_isInstance_twice :
    twice.Wf ∧ 1 < twice.nodes.length ∧
      ∃ r' hm', (∀ depth ≥ 2, hmInstantiate depth twice 1 = some (r', hm')) ∧ GrowsTo twice hm' ∧
        (IsInstance twice hm' 1 r' ↔ FewVariables twice 1) :=
  ⟨twice_wf, by decide, hmInstantiate_isInstance_iff twice_wf (by decide)⟩

/-- A function of 129 variables, the last of them twice. -/
def manyVariables : Hm :=
  ⟨List.replicate 129 (.var none) ++ [.fn (List.range 129 ++ [128]) none], []⟩

theorem manyVariables_wf : manyVariables.Wf := by
  have only : ∀ (r : Nat) (s : Shape), manyVariables.nodes[r]? = some s → ∀ c ∈ s.edges,
      r = 129 ∧ c < 129 := by
    intro r s found c edge
    by_cases early : r < 129
    · -- A variable without an instance has no pointer.
      have here : manyVariables.nodes[r]? = some (.var none) := by
        rw [manyVariables, List.getElem?_append_left (by simpa using early),
          List.getElem?_replicate, if_pos early]
      obtain rfl : Shape.var none = s := Option.some.inj (here.symm.trans found)
      exact absurd edge List.not_mem_nil
    · obtain rfl : r = 129 := by
        have inside : r < manyVariables.nodes.length := inside_of_get found
        simp only [manyVariables, List.length_append, List.length_replicate,
          List.length_singleton] at inside
        omega
      obtain rfl : Shape.fn (List.range 129 ++ [128]) none = s := Option.some.inj found
      have argument : c < 129 ∨ c = 128 := by simpa [Shape.edges, Shape.parts] using edge
      omega
  refine ⟨fun r s found c edge => ?_, id, fun r s found c edge => ?_⟩
  · obtain ⟨-, below⟩ := only r s found c edge
    exact below.trans (by decide +kernel)
  · obtain ⟨rfl, below⟩ := only r s found c edge
    exact below

theorem manyVariables_variables : manyVariables.variables 129 = List.range 129 ++ [128] := by
  decide +kernel

/-- A function of 129 variables, the last of them twice, gets a new one for it each time. -/
theorem not_isInstance_manyVariables :
    manyVariables.Wf ∧ manyVariables.shape 129 = .fn (List.range 129 ++ [128]) none ∧
      ¬ ∃ r' hm', (∀ depth ≥ manyVariables.nodes.length,
        hmInstantiate depth manyVariables 129 = some (r', hm')) ∧ GrowsTo manyVariables hm' ∧
          IsInstance manyVariables hm' 129 r' := by
  refine ⟨manyVariables_wf, rfl, ?_⟩
  rintro ⟨r', hm', runs, -, isInstance⟩
  obtain ⟨cloned, pairs, clones, runs'⟩ :=
    hmInstantiate_clones manyVariables_wf (show 129 < manyVariables.nodes.length by decide +kernel)
  have same := (runs _ le_rfl).symm.trans (runs' _ le_rfl)
  rw [Option.some.injEq, Prod.mk.injEq] at same
  rw [same.1, same.2] at isInstance
  -- The last variable comes twice, after 128 others.
  have few := (clones.isInstance_iff manyVariables_wf (by decide +kernel)).1 isInstance
  rw [FewVariables, manyVariables_variables] at few
  have once := few 128 (by simp) (Finset.notMem_empty _) (by decide +kernel)
  exact absurd once (by decide +kernel)

end Instances

end Nytrix.Types
