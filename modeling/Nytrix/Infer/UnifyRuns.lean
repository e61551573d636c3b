import Nytrix.Infer.UnifyArena

/-! Unification binds what every unifier makes equal; every call of it ends. -/

namespace Nytrix.Infer

open Nytrix.Lib Nytrix.Lib.UnionFind Arena

/-- A type written out, with its free variables. -/
inductive Ty where
  | missing
  | concrete (name : String)
  | var (x : Nat)
  | arrow (param ret : Ty)
  | apply (name : String) (arg0 arg1 : Ty) (arity : Int)

/-- A type with types in place of its variables. -/
def Ty.subst (θ : Nat → Ty) : Ty → Ty
  | .missing => .missing
  | .concrete name => .concrete name
  | .var x => θ x
  | .arrow param ret => .arrow (param.subst θ) (ret.subst θ)
  | .apply name arg0 arg1 arity => .apply name (arg0.subst θ) (arg1.subst θ) arity

/-- The number of nodes of a type. -/
def Ty.size : Ty → Nat
  | .missing | .concrete _ | .var _ => 1
  | .arrow param ret => param.size + ret.size + 1
  | .apply _ arg0 arg1 _ => arg0.size + arg1.size + 1

/-- Types that are equal but where one of them is missing or any type. -/
inductive Agree : Ty → Ty → Prop
  | missingLeft (t : Ty) : Agree .missing t
  | missingRight (t : Ty) : Agree t .missing
  | anyLeft (t : Ty) : Agree (.concrete "any") t
  | anyRight (t : Ty) : Agree t (.concrete "any")
  | concrete (name : String) : Agree (.concrete name) (.concrete name)
  | var (x : Nat) : Agree (.var x) (.var x)
  | arrow {p r p' r' : Ty} (param : Agree p p') (ret : Agree r r') :
    Agree (.arrow p r) (.arrow p' r')
  | apply {name : String} {arity : Int} {a b a' b' : Ty} (arg0 : Agree a a') (arg1 : Agree b b') :
    Agree (.apply name a b arity) (.apply name a' b' arity)

/-- A pointer to a node resolves to a type: that of the node that it stands for. -/
inductive Resolves (s : Arena) : Option Nat → Ty → Prop
  | missing : Resolves s none .missing
  | var {t x : Nat} (root : s.Root t x) (free : s.Free x) : Resolves s (some t) (.var x)
  | concrete {t x : Nat} {name : String} (root : s.Root t x)
    (found : s.nodes[x]? = some (.concrete name)) : Resolves s (some t) (.concrete name)
  | arrow {t x : Nat} {param ret : Option Nat} {p r : Ty} (root : s.Root t x)
    (found : s.nodes[x]? = some (.arrow param ret)) (first : Resolves s param p)
    (second : Resolves s ret r) : Resolves s (some t) (.arrow p r)
  | apply {t x : Nat} {name : String} {arg0 arg1 : Option Nat} {arity : Int} {a b : Ty}
    (root : s.Root t x) (found : s.nodes[x]? = some (.apply name arg0 arg1 arity))
    (first : Resolves s arg0 a) (second : Resolves s arg1 b) :
    Resolves s (some t) (.apply name a b arity)

section Types

theorem Agree.refl (t : Ty) : Agree t t := by
  induction t with
  | missing => exact .missingLeft _
  | concrete name => exact .concrete name
  | var x => exact .var x
  | arrow param ret param_refl ret_refl => exact .arrow param_refl ret_refl
  | apply name arg0 arg1 arity arg0_refl arg1_refl => exact .apply arg0_refl arg1_refl

theorem Agree.symm {t t' : Ty} (agree : Agree t t') : Agree t' t := by
  induction agree with
  | missingLeft t => exact .missingRight t
  | missingRight t => exact .missingLeft t
  | anyLeft t => exact .anyRight t
  | anyRight t => exact .anyLeft t
  | concrete name => exact .concrete name
  | var x => exact .var x
  | arrow _ _ param_symm ret_symm => exact .arrow param_symm ret_symm
  | apply _ _ arg0_symm arg1_symm => exact .apply arg0_symm arg1_symm

theorem Ty.subst_var (t : Ty) : t.subst .var = t := by
  induction t with
  | missing | concrete | var => rfl
  | arrow param ret param_same ret_same => rw [Ty.subst, param_same, ret_same]
  | apply name arg0 arg1 arity arg0_same arg1_same => rw [Ty.subst, arg0_same, arg1_same]

end Types

section Interpretations

/-- The type of a pointer, if every node has one. -/
def read (I : Nat → Ty) : Option Nat → Ty
  | none => .missing
  | some t => I t

/-- The type of a node that is no variable. -/
def Node.meaning (I : Nat → Ty) : Node → Option Ty
  | .concrete name => some (.concrete name)
  | .var _ _ _ => none
  | .arrow param ret => some (.arrow (read I param) (read I ret))
  | .apply name arg0 arg1 arity => some (.apply name (read I arg0) (read I arg1) arity)

/-- A type for every node, as the links and the nodes ask. -/
structure Interprets (s : Arena) (I : Nat → Ty) : Prop where
  root : ∀ t r, s.Root t r → I t = I r
  node : ∀ (t : Nat) (n : Node) (ty : Ty), s.nodes[t]? = some n → n.meaning I = some ty → I t = ty

variable {s s' s'' : Arena} {I : Nat → Ty} {t r x y : Nat}

theorem Node.solid_of_meaning {n : Node} {ty : Ty} (means : n.meaning I = some ty) : n.Solid := by
  rintro id parent bound rfl
  cases means

theorem Compressed.interprets_iff (compressed : Compressed s s') (wf : s.Wf) :
    Interprets s' I ↔ Interprets s I := by
  constructor
  · rintro ⟨root, node⟩
    refine ⟨fun t r leads => root t r (compressed.roots t r leads), fun t n ty found means => ?_⟩
    exact node t n ty ((compressed.solid t n (Node.solid_of_meaning means)).2 found) means
  · rintro ⟨root, node⟩
    refine ⟨fun t r leads => root t r ((compressed.root_iff wf).1 leads),
      fun t n ty found means => ?_⟩
    exact node t n ty ((compressed.solid t n (Node.solid_of_meaning means)).1 found) means

theorem Arena.Wf.interprets_bind (wf : s.Wf) (free : s.Free x) (root : s.parents y = y)
    (within : y < s.nodes.length) (apart : ¬ s.Reaches y x) :
    Interprets (s.bind x y) I ↔ Interprets s I ∧ I x = I y := by
  obtain ⟨wf', roots⟩ := wf.bind free root within apart
  have differ : y ≠ x := by
    rintro rfl
    exact apart .refl
  obtain ⟨id, found⟩ := free
  have same : ∀ (t : Nat) (n : Node), n.Solid →
      ((s.bind x y).nodes[t]? = some n ↔ s.nodes[t]? = some n) := by
    intro t n solid
    rw [bind_get found]
    by_cases here : t = x
    · subst here
      rw [if_pos rfl, found]
      exact ⟨fun get => absurd (Option.some.inj get).symm (solid _ _ _),
        fun get => absurd (Option.some.inj get).symm (solid _ _ _)⟩
    · rw [if_neg here]
  constructor
  · rintro ⟨root', node⟩
    have bound : I x = I y := by
      have leads := roots x x (.stop (Free.parents ⟨id, found⟩))
      rw [if_pos rfl] at leads
      exact root' x y leads
    refine ⟨⟨fun t r leads => ?_, fun t n ty get means => ?_⟩, bound⟩
    · have leads' := roots t r leads
      split at leads'
      · rename_i isBound
        rw [isBound, bound]
        exact root' t y leads'
      · exact root' t r leads'
    · exact node t n ty ((same t n (Node.solid_of_meaning means)).2 get) means
  · rintro ⟨⟨root', node⟩, bound⟩
    refine ⟨fun t r leads => ?_, fun t n ty get means => ?_⟩
    · obtain ⟨r', leads'⟩ := wf.rooted t
      rw [leads.unique (roots t r' leads'), root' t r' leads']
      split
      · rename_i isBound
        rw [isBound, bound]
      · rfl
    · exact node t n ty ((same t n (Node.solid_of_meaning means)).1 get) means

theorem Arena.Wf.resolves (wf : s.Wf) {t : Option Nat} (has : s.Has t) : ∃ ty, Resolves s t ty := by
  obtain ⟨rank, ranked⟩ := wf.acyclic
  cases t with
  | none => exact ⟨_, .missing⟩
  | some t =>
    have within := has t rfl
    clear has
    induction height : rank t using Nat.strong_induction_on generalizing t with
    | _ height shorter =>
      subst height
      obtain ⟨x, leads⟩ := wf.rooted t
      have falls : ∀ z, s.parents z ≠ z → rank (s.parents z) < rank z := by
        intro z moved
        obtain ⟨n, found, edge⟩ := wf.edge_of_parents moved
        exact ranked z n found _ edge
      have lower := leads.rank_le falls
      obtain ⟨n, found⟩ : ∃ n, s.nodes[x]? = some n :=
        ⟨_, List.getElem?_eq_getElem (leads.inside wf.forest within)⟩
      -- The parts have a lower rank.
      have parts : ∀ c : Option Nat, (∀ z, c = some z → z ∈ n.edges x) → ∃ ty, Resolves s c ty := by
        intro c isPart
        cases c with
        | none => exact ⟨_, .missing⟩
        | some z =>
          have edge := isPart z rfl
          have less := ranked x n found z edge
          exact shorter (rank z) (by omega) z (wf.inRange x n found z edge) rfl
      rcases wf.root_cases leads.root found with free | solid
      · exact ⟨_, .var leads free⟩
      · cases n with
        | var id parent bound => exact absurd rfl (solid id parent bound)
        | concrete name => exact ⟨_, .concrete leads found⟩
        | arrow param ret =>
          obtain ⟨p, first⟩ := parts param fun z is => by simp [Node.edges, is]
          obtain ⟨r, second⟩ := parts ret fun z is => by simp [Node.edges, is]
          exact ⟨_, .arrow leads found first second⟩
        | apply name arg0 arg1 arity =>
          obtain ⟨a, first⟩ := parts arg0 fun z is => by simp [Node.edges, is]
          obtain ⟨b, second⟩ := parts arg1 fun z is => by simp [Node.edges, is]
          exact ⟨_, .apply leads found first second⟩

theorem Resolves.unique {p : Option Nat} {ty ty' : Ty} (first : Resolves s p ty)
    (second : Resolves s p ty') : ty = ty' := by
  induction first generalizing ty' with
  | missing =>
    cases second
    rfl
  | @var t x root free =>
    obtain ⟨id, free⟩ := free
    cases second with
    | var root' => rw [root.unique root']
    | concrete root' found | arrow root' found | apply root' found =>
      rw [← root.unique root', free] at found
      cases found
  | @concrete t x name root found =>
    cases second with
    | var root' free =>
      obtain ⟨id, free⟩ := free
      rw [← root.unique root', found] at free
      cases free
    | concrete root' found' | arrow root' found' | apply root' found' =>
      rw [← root.unique root', found] at found'
      cases found'
      try rfl
  | @arrow t x param ret p r root found _ _ first_unique second_unique =>
    cases second with
    | var root' free =>
      obtain ⟨id, free⟩ := free
      rw [← root.unique root', found] at free
      cases free
    | concrete root' found' | apply root' found' =>
      rw [← root.unique root', found] at found'
      cases found'
    | arrow root' found' first second =>
      rw [← root.unique root', found] at found'
      cases found'
      rw [first_unique first, second_unique second]
  | @apply t x name arg0 arg1 arity a b root found _ _ first_unique second_unique =>
    cases second with
    | var root' free =>
      obtain ⟨id, free⟩ := free
      rw [← root.unique root', found] at free
      cases free
    | concrete root' found' | arrow root' found' =>
      rw [← root.unique root', found] at found'
      cases found'
    | apply root' found' first second =>
      rw [← root.unique root', found] at found'
      cases found'
      rw [first_unique first, second_unique second]

theorem Resolves.root_iff {ty : Ty} (leads : s.Root t r) :
    Resolves s (some t) ty ↔ Resolves s (some r) ty := by
  have ends : s.Root r r := .stop leads.root
  constructor
  · intro resolves
    cases resolves with
    | var root free => exact .var (leads.unique root ▸ ends) free
    | concrete root found => exact .concrete (leads.unique root ▸ ends) found
    | arrow root found first second => exact .arrow (leads.unique root ▸ ends) found first second
    | apply root found first second => exact .apply (leads.unique root ▸ ends) found first second
  · intro resolves
    cases resolves with
    | var root free => exact .var (ends.unique root ▸ leads) free
    | concrete root found => exact .concrete (ends.unique root ▸ leads) found
    | arrow root found first second => exact .arrow (ends.unique root ▸ leads) found first second
    | apply root found first second => exact .apply (ends.unique root ▸ leads) found first second

theorem Arena.Wf.has_part (wf : s.Wf) {n : Node} (found : s.nodes[t]? = some n) (c : Option Nat)
    (isPart : ∀ z, c = some z → z ∈ n.edges t) : s.Has c :=
  fun z is => wf.inRange t n found z (isPart z is)

theorem Arena.Wf.interprets (wf : s.Wf) (θ : Nat → Ty) :
    ∃ I, Interprets s I ∧ ∀ p ty, Resolves s p ty → read I p = ty.subst θ := by
  classical
  obtain ⟨I, given, otherwise⟩ : ∃ I : Nat → Ty,
      (∀ t ty, Resolves s (some t) ty → I t = ty.subst θ) ∧
        ∀ t, (¬ ∃ ty, Resolves s (some t) ty) → I t = .missing := by
    refine ⟨fun t => if resolves : ∃ ty, Resolves s (some t) ty then
      (Classical.choose resolves).subst θ else .missing, fun t ty resolves => ?_,
      fun t never => dif_neg never⟩
    have some : ∃ ty, Resolves s (some t) ty := ⟨ty, resolves⟩
    simp only [dif_pos some]
    rw [(Classical.choose_spec some).unique resolves]
  have reads : ∀ p ty, Resolves s p ty → read I p = ty.subst θ := by
    intro p ty resolves
    cases p with
    | none =>
      cases resolves
      rfl
    | some t => exact given t ty resolves
  refine ⟨I, ⟨fun t r leads => ?_, fun t n ty found means => ?_⟩, reads⟩
  · by_cases resolved : ∃ ty, Resolves s (some t) ty
    · obtain ⟨ty, resolves⟩ := resolved
      rw [given t ty resolves, given r ty ((Resolves.root_iff leads).1 resolves)]
    · rw [otherwise t resolved, otherwise r fun ⟨ty, resolves⟩ =>
        resolved ⟨ty, (Resolves.root_iff leads).2 resolves⟩]
  · have root : s.Root t t := .stop (parents_solid found (Node.solid_of_meaning means))
    cases n with
    | var id parent bound => cases means
    | concrete name =>
      cases means
      exact given t _ (.concrete root found)
    | arrow param ret =>
      cases means
      obtain ⟨p, first⟩ := wf.resolves
        (wf.has_part found param fun z is => by simp [Node.edges, is])
      obtain ⟨r, second⟩ := wf.resolves
        (wf.has_part found ret fun z is => by simp [Node.edges, is])
      rw [given t _ (.arrow root found first second), reads _ _ first, reads _ _ second]
      rfl
    | apply name arg0 arg1 arity =>
      cases means
      obtain ⟨a, first⟩ := wf.resolves
        (wf.has_part found arg0 fun z is => by simp [Node.edges, is])
      obtain ⟨b, second⟩ := wf.resolves
        (wf.has_part found arg1 fun z is => by simp [Node.edges, is])
      rw [given t _ (.apply root found first second), reads _ _ first, reads _ _ second]
      rfl

end Interpretations

section Runs

variable {s s' s'' : Arena} {I : Nat → Ty} {t r x y : Nat} {rank : Nat → Nat}

section Containment

/-- A node is what a pointer stands for, or what a part of that stands for. -/
inductive Contains (s : Arena) (x : Nat) : Option Nat → Prop
  | root {t : Nat} (leads : s.Root t x) : Contains s x (some t)
  | part {t y c : Nat} {n : Node} (leads : s.Root t y) (found : s.nodes[y]? = some n)
    (solid : n.Solid) (edge : c ∈ n.edges y) (rest : Contains s x (some c)) : Contains s x (some t)

theorem Contains.of_root (leads : s.Root t r) (contains : Contains s x (some r)) :
    Contains s x (some t) := by
  have ends : s.Root r r := .stop leads.root
  cases contains with
  | root leads' =>
    rw [← ends.unique leads']
    exact .root leads
  | part leads' found solid edge rest =>
    rw [← ends.unique leads'] at found edge
    exact .part leads found solid edge rest

theorem Compressed.contains_iff (compressed : Compressed s s') (wf : s.Wf) {p : Option Nat} :
    Contains s' x p ↔ Contains s x p := by
  constructor
  · intro contains
    induction contains with
    | root leads => exact .root ((compressed.root_iff wf).1 leads)
    | part leads found solid edge _ rest =>
      exact .part ((compressed.root_iff wf).1 leads) ((compressed.solid _ _ solid).1 found) solid
        edge rest
  · intro contains
    induction contains with
    | root leads => exact .root (compressed.roots _ _ leads)
    | part leads found solid edge _ rest =>
      exact .part (compressed.roots _ _ leads) ((compressed.solid _ _ solid).2 found) solid edge
        rest

theorem Arena.Wf.contains (wf : s.Wf) (free : s.Free x) (reaches : s.Reaches t x) :
    Contains s x (some t) := by
  induction reaches using Relation.ReflTransGen.head_induction_on with
  | refl => exact .root (.stop free.parents)
  | @head t c edge _ contains =>
    obtain ⟨n, found, edge⟩ := edge
    cases n with
    | var id parent bound =>
      cases bound with
      | none =>
        -- A variable without links leads nowhere.
        obtain rfl := wf.unlinked t id parent found
        exact absurd edge (by simp [Node.edges])
      | some b =>
        obtain ⟨differ, r', leadsP, leadsB⟩ := wf.linked t id parent b found
        have leads : s.Root t r' := .step (by rwa [wf.parents_linked found])
          (by rwa [wf.parents_linked found])
        have ends : Contains s x (some r') → Contains s x (some t) := .of_root leads
        -- Both links lead to one node.
        have toRoot : ∀ c, s.Root c r' → Contains s x (some c) → Contains s x (some r') := by
          intro c leadsC inside
          cases inside with
          | root leads' =>
            rw [leadsC.unique leads']
            exact .root (.stop leads'.root)
          | part leads' foundY solid edgeY rest =>
            rw [← leadsC.unique leads'] at foundY edgeY
            exact .part (.stop leadsC.root) foundY solid edgeY rest
        simp only [Node.edges, if_neg differ, Option.toList_some, List.mem_append,
          List.mem_singleton] at edge
        rcases edge with rfl | rfl
        · exact ends (toRoot _ leadsP contains)
        · exact ends (toRoot _ leadsB contains)
    | _ =>
      exact .part (.stop (parents_solid found (by rintro _ _ _ ⟨⟩))) found (by rintro _ _ _ ⟨⟩) edge
        contains

theorem Node.Solid.meaning {n : Node} (solid : n.Solid) (I : Nat → Ty) :
    ∃ ty, n.meaning I = some ty := by
  cases n with
  | var id parent bound => exact absurd rfl (solid id parent bound)
  | _ => exact ⟨_, rfl⟩

theorem Node.size_part {n : Node} {ty : Ty} (means : n.meaning I = some ty) {c : Nat}
    (edge : c ∈ n.edges y) : (I c).size < ty.size := by
  -- A part is one of two pointers.
  have either : ∀ p q : Option Nat, c ∈ p.toList ++ q.toList →
      (I c).size < (read I p).size + (read I q).size + 1 := by
    intro p q inList
    simp only [List.mem_append, Option.mem_toList, Option.mem_def] at inList
    rcases inList with rfl | rfl
    · simp only [read]
      omega
    · simp only [read]
      omega
  cases n with
  | var id parent bound => cases means
  | concrete name => exact absurd edge List.not_mem_nil
  | arrow param ret =>
    cases means
    exact either param ret edge
  | apply name arg0 arg1 arity =>
    cases means
    exact either arg0 arg1 edge

theorem Contains.size_le {p : Option Nat} (interprets : Interprets s I)
    (contains : Contains s x p) : (I x).size ≤ (read I p).size := by
  induction contains with
  | root leads => rw [read, interprets.root _ _ leads]
  | part leads found solid edge _ rest =>
    obtain ⟨ty, means⟩ := solid.meaning I
    have smaller := Node.size_part means edge
    rw [read, interprets.root _ _ leads, interprets.node _ _ _ found means]
    exact rest.trans smaller.le

theorem Contains.apart (interprets : Interprets s I) (root : s.parents y = y) (differ : x ≠ y)
    (contains : Contains s x (some y)) : I x ≠ I y := by
  intro same
  have ends : s.Root y y := .stop root
  cases contains with
  | root leads => exact differ (leads.unique ends)
  | part leads found solid edge rest =>
    obtain ⟨ty, means⟩ := solid.meaning I
    have smaller := Node.size_part means edge
    have less := rest.size_le interprets
    rw [same, ends.unique leads, interprets.node _ _ _ found means] at less
    simp only [read] at less
    omega

end Containment

section Occurring

/-- What asking whether a type occurs in another one leaves. -/
structure Occurred (s : Arena) (needle haystack : Option Nat) (occurs : Bool) (s' : Arena) :
    Prop where
  wf : s'.Wf
  compressed : Compressed s s'
  decides : ∀ t x, needle = some t → s.Root t x → (occurs = true ↔ Contains s x haystack)

theorem Compressed.has (compressed : Compressed s s') {p : Option Nat} (has : s.Has p) :
    s'.Has p := by
  intro z is
  rw [compressed.length]
  exact has z is

theorem either_settles {run : Nat → Arena → Option Nat → Option (Bool × Arena)} {p q : Option Nat}
    {o o' : Bool} (first : Settles (fun fuel => run fuel s p) (o, s'))
    (second : Settles (fun fuel => run fuel s' q) (o', s'')) :
    Settles (fun fuel => (run fuel s p).bind fun first =>
      if first.1 then some (true, first.2) else run fuel first.2 q)
      (if o then (true, s') else (o', s'')) := by
  refine first.bind ?_
  cases o with
  | true => exact .of_eq fun _ => rfl
  | false => simpa using second

theorem Arena.Wf.rank_root (wf : s.Wf) (ranked : s.Ranked rank) (leads : s.Root t r) :
    rank r ≤ rank t := by
  refine leads.rank_le fun z moved => ?_
  obtain ⟨n, found, edge⟩ := wf.edge_of_parents moved
  exact ranked z n found _ edge

/-- The height of a pointer. -/
def height (rank : Nat → Nat) : Option Nat → Nat
  | none => 0
  | some t => rank t + 1

/-- A call goes on with the ends of the chains of both types. -/
theorem nyTypeOccurs_bind {needle haystack foundN foundH : Option Nat} {o : Bool}
    {s₃ : Arena}
    (settledN : Settles (fun fuel => nyTypeFind fuel s needle) (foundN, s'))
    (settledH : Settles (fun fuel => nyTypeFind fuel s' haystack) (foundH, s''))
    (rest : Settles (fun fuel =>
      let eitherOf := fun (p q : Option Nat) =>
        (nyTypeOccurs fuel s'' foundN p).bind fun first =>
          if first.1 then some (true, first.2) else nyTypeOccurs fuel first.2 foundN q
      match foundN, foundH with
      | some x, some y =>
        if x = y then some (true, s'')
        else match s''.nodes[y]? with
          | some (.arrow param ret) => eitherOf param ret
          | some (.apply _ arg0 arg1 _) => eitherOf arg0 arg1
          | _ => some (false, s'')
      | _, _ => some (false, s'')) (o, s₃)) :
    Settles (fun fuel => nyTypeOccurs fuel s needle haystack) (o, s₃) := by
  refine .succ ?_
  simp only [nyTypeOccurs]
  exact settledN.bind (settledH.bind rest)

/-- Whether a type occurs in another one is found out. -/
theorem nyTypeOccurs_settles (wf : s.Wf) (ranked : s.Ranked rank) {needle haystack : Option Nat}
    (hasN : s.Has needle) (hasH : s.Has haystack) :
    ∃ o s', Settles (fun fuel => nyTypeOccurs fuel s needle haystack) (o, s') ∧
      Occurred s needle haystack o s' := by
  induction level : height rank haystack using Nat.strong_induction_on
    generalizing s needle haystack with
  | _ level lower =>
    subst level
    obtain ⟨foundN, s₁, settledN, relN, wf₁, compressed₁⟩ := nyTypeFind_settles wf hasN
    obtain ⟨foundH, s₂, settledH, relH, wf₂, compressed₂⟩ :=
      nyTypeFind_settles wf₁ (compressed₁.has hasH)
    have compressed := compressed₁.trans compressed₂
    have start {o : Bool} {s' : Arena} := @nyTypeOccurs_bind s s₁ s₂ needle haystack foundN foundH
      o s' settledN settledH
    cases relN with
    | none =>
      exact ⟨false, s₂, start (.of_eq fun _ => rfl), wf₂, compressed, fun t x is => by cases is⟩
    | @some nd x leadsN =>
    cases relH with
    | none =>
      refine ⟨false, s₂, start (.of_eq fun _ => rfl), wf₂, compressed, fun t x is leads => ?_⟩
      exact ⟨fun yes => (by cases yes), fun contains => by cases contains⟩
    | @some t y leadsH =>
    rw [compressed₁.root_iff wf] at leadsH
    have only : ∀ t' x', some nd = some t' → s.Root t' x' → x' = x := by
      rintro t' x' is leads
      obtain rfl := Option.some.inj is
      exact leads.unique leadsN
    by_cases same : x = y
    · subst same
      refine ⟨true, s₂, start (.of_eq fun _ => if_pos rfl), wf₂, compressed,
        fun t' x' is leads => ?_⟩
      rw [only t' x' is leads]
      exact ⟨fun _ => .root leadsH, fun _ => rfl⟩
    -- What is contained is contained in a part.
    have inPart : ∀ n, s₂.nodes[y]? = some n → (Contains s x (some t) ↔
        n.Solid ∧ ∃ c ∈ n.edges y, Contains s x (some c)) := by
      intro n found
      constructor
      · intro contains
        cases contains with
        | root leads => exact absurd (leads.unique leadsH) same
        | part leads foundY solid edge rest =>
          rw [leads.unique leadsH] at foundY edge
          have foundY' := (compressed.solid _ _ solid).2 foundY
          rw [found, Option.some.injEq] at foundY'
          subst foundY'
          exact ⟨solid, _, edge, rest⟩
      · rintro ⟨solid, c, edge, rest⟩
        exact .part leadsH ((compressed.solid _ _ solid).1 found) solid edge rest
    have rank_y := wf.rank_root ranked leadsH
    have ranked₂ := compressed.ranked rank ranked
    have within₂ : s₂.Has (some x) := by
      intro z is
      obtain rfl := Option.some.inj is
      rw [compressed.length]
      exact leadsN.inside wf.forest (hasN nd rfl)
    have rootX : s₂.Root x x := .stop (compressed.roots nd x leadsN).root
    -- A node without parts contains nothing else.
    have nothing : ∀ n, s₂.nodes[y]? = some n → (n.Solid → n.edges y = []) →
        Settles (fun fuel => nyTypeOccurs fuel s (some nd) (some t)) (false, s₂) →
        ∃ o s', Settles (fun fuel => nyTypeOccurs fuel s (some nd) (some t)) (o, s') ∧
          Occurred s (some nd) (some t) o s' := by
      intro n found empty settled
      refine ⟨false, s₂, settled, wf₂, compressed, fun t' x' is leads => ?_⟩
      rw [only t' x' is leads, inPart n found]
      refine ⟨fun yes => (by cases yes), ?_⟩
      rintro ⟨solid, c, edge, -⟩
      rw [empty solid] at edge
      exact absurd edge List.not_mem_nil
    -- A node with two parts contains what one of them contains.
    have parts : ∀ n p q, s₂.nodes[y]? = some n → n.Solid → n.edges y = p.toList ++ q.toList →
        (∀ o s', Settles (fun fuel => (nyTypeOccurs fuel s₂ (some x) p).bind fun first =>
          if first.1 then some (true, first.2) else nyTypeOccurs fuel first.2 (some x) q) (o, s') →
          Settles (fun fuel => nyTypeOccurs fuel s (some nd) (some t)) (o, s')) →
        ∃ o s', Settles (fun fuel => nyTypeOccurs fuel s (some nd) (some t)) (o, s') ∧
          Occurred s (some nd) (some t) o s' := by
      intro n p q found solid edges settled
      have below : ∀ c : Option Nat, (∀ z, c = some z → z ∈ n.edges y) →
          s₂.Has c ∧ height rank c < height rank (some t) := by
        intro c isPart
        refine ⟨wf₂.has_part found c isPart, ?_⟩
        cases c with
        | none => exact Nat.succ_pos _
        | some z =>
          have less := ranked₂ y n found z (isPart z rfl)
          simp only [height]
          omega
      obtain ⟨hasP, lowP⟩ := below p fun z is => by simp [edges, is]
      obtain ⟨hasQ, lowQ⟩ := below q fun z is => by simp [edges, is]
      obtain ⟨o₁, s₃, settled₁, wf₃, compressed₃, decides₁⟩ :=
        lower _ lowP wf₂ ranked₂ within₂ hasP rfl
      obtain ⟨o₂, s₄, settled₂, wf₄, compressed₄, decides₂⟩ :=
        lower _ lowQ wf₃ (compressed₃.ranked rank ranked₂) (compressed₃.has within₂)
          (compressed₃.has hasQ) rfl
      have first := decides₁ x x rfl rootX
      have second := decides₂ x x rfl (compressed₃.roots x x rootX)
      rw [compressed.contains_iff wf] at first
      rw [compressed₃.contains_iff wf₂, compressed.contains_iff wf] at second
      have either : Contains s x (some t) ↔ Contains s x p ∨ Contains s x q := by
        rw [inPart n found]
        constructor
        · rintro ⟨-, c, edge, rest⟩
          rw [edges, List.mem_append, Option.mem_toList, Option.mem_toList] at edge
          rcases edge with is | is
          · exact .inl (is ▸ rest)
          · exact .inr (is ▸ rest)
        · rintro (rest | rest)
          · cases p with
            | none => cases rest
            | some c => exact ⟨solid, c, by simp [edges], rest⟩
          · cases q with
            | none => cases rest
            | some c => exact ⟨solid, c, by simp [edges], rest⟩
      have run := @either_settles s₂ s₃ s₄ (fun fuel s c => nyTypeOccurs fuel s (some x) c) p q
        o₁ o₂ settled₁ settled₂
      cases o₁ with
      | true =>
        refine ⟨true, s₃, settled _ _ run, wf₃, compressed.trans compressed₃,
          fun t' x' is leads => ?_⟩
        rw [only t' x' is leads, either]
        exact ⟨fun _ => .inl (first.1 rfl), fun _ => rfl⟩
      | false =>
        refine ⟨o₂, s₄, settled _ _ run, wf₄, (compressed.trans compressed₃).trans compressed₄,
          fun t' x' is leads => ?_⟩
        rw [only t' x' is leads, either, second]
        exact ⟨.inr, fun some => some.resolve_left fun yes => by cases first.2 yes⟩
    cases found : s₂.nodes[y]? with
    | none =>
      have inside := leadsH.inside wf.forest (hasH t rfl)
      rw [← compressed.length] at inside
      rw [List.getElem?_eq_none_iff] at found
      omega
    | some n =>
      cases n with
      | var id parent bound =>
        exact nothing _ found (fun solid => absurd rfl (solid _ _ _))
          (start (.of_eq fun _ => by simp [same, found]))
      | concrete name => exact nothing _ found (fun _ => rfl) (start (.of_eq fun _ => by
          simp [same, found]))
      | arrow param ret =>
        refine parts _ param ret found (.arrow _ _) rfl fun o s' run => start ?_
        simpa [same, found] using run
      | apply name arg0 arg1 arity =>
        refine parts _ arg0 arg1 found (.apply _ _ _ _) rfl fun o s' run => start ?_
        simpa [same, found] using run

end Occurring

end Runs

end Nytrix.Infer
