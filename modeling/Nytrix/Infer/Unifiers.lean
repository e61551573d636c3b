import Mathlib.Data.Finset.Lattice.Fold
import Nytrix.Infer.UnifyRuns

/-! Unification computes most general unifiers. -/

namespace Nytrix.Infer

open Nytrix.Lib Nytrix.Lib.UnionFind Arena

variable {s s₁ s' s'' : Arena} {I : Nat → Ty} {t r x y : Nat} {rank : Nat → Nat}
  {a b : Option Nat} {ok : Bool}

section Progress

open Classical in
/-- How many variables are free. -/
noncomputable def freeCount (s : Arena) : Nat :=
  ((Finset.range s.nodes.length).filter s.Free).card

/-- Fewer variables are free, or as many are and no pointer goes up. -/
def Progress (s s' : Arena) : Prop :=
  freeCount s' < freeCount s ∨
    (freeCount s' = freeCount s ∧ ∀ rank, s.Ranked rank → s'.Ranked rank)

theorem Progress.trans (first : Progress s s') (second : Progress s' s'') : Progress s s'' := by
  rcases first with fewer | ⟨same, ranked⟩
  · rcases second with fewer' | ⟨same', -⟩
    · exact .inl (fewer'.trans fewer)
    · exact .inl (same' ▸ fewer)
  · rcases second with fewer' | ⟨same', ranked'⟩
    · exact .inl (same ▸ fewer')
    · exact .inr ⟨same'.trans same, fun rank old => ranked' rank (ranked rank old)⟩

theorem Compressed.progress (compressed : Compressed s s') : Progress s s' := by
  classical
  refine .inr ⟨?_, compressed.ranked⟩
  unfold freeCount
  rw [compressed.length]
  exact congrArg Finset.card (Finset.filter_congr fun t _ => compressed.free_iff)

theorem progress_bind (free : s.Free x) (differ : y ≠ x) : Progress s (s.bind x y) := by
  classical
  left
  obtain ⟨id, found⟩ := free
  have within := inside_of_get found
  refine Finset.card_lt_card ((Finset.ssubset_iff_of_subset ?_).2 ⟨x, ?_, ?_⟩)
  · intro t inside
    simp only [Finset.mem_filter, Finset.mem_range] at inside ⊢
    obtain ⟨within', id', found'⟩ := inside
    rw [bind_get found] at found'
    split at found'
    · rename_i same
      cases found'
    · exact ⟨inside_of_get found', id', found'⟩
  · simp only [Finset.mem_filter, Finset.mem_range]
    exact ⟨within, id, found⟩
  · simp only [Finset.mem_filter, not_and]
    rintro - ⟨id', found'⟩
    rw [bind_get found, if_pos rfl] at found'
    cases found'

end Progress

section Unified

/--
What unifying some pairs leaves.

Its types are types of the old arena, under which the pairs agree if it went well; and all types
of the old arena under which the pairs are equal are types of the new one.
-/
structure Unified (s : Arena) (pairs : List (Option Nat × Option Nat)) (ok : Bool) (s' : Arena) :
    Prop where
  wf : s'.Wf
  length : s'.nodes.length = s.nodes.length
  progress : Progress s s'
  weaker : ∀ I, Interprets s' I → Interprets s I
  sound : ok = true → ∀ I, Interprets s' I → ∀ pair ∈ pairs, Agree (read I pair.1) (read I pair.2)
  complete : ∀ I, Interprets s I → (∀ pair ∈ pairs, read I pair.1 = read I pair.2) →
    ok = true ∧ Interprets s' I

theorem Unified.of_parts {parts : List (Option Nat × Option Nat)} (wf : s.Wf)
    (compressed : Compressed s s₁) (unified : Unified s₁ parts ok s')
    (agree : ∀ I, Interprets s I →
      (∀ pair ∈ parts, Agree (read I pair.1) (read I pair.2)) → Agree (read I a) (read I b))
    (equal : ∀ I, Interprets s I → read I a = read I b →
      ∀ pair ∈ parts, read I pair.1 = read I pair.2) :
    Unified s [(a, b)] ok s' where
  wf := unified.wf
  length := unified.length.trans compressed.length
  progress := compressed.progress.trans unified.progress
  weaker I interprets := (compressed.interprets_iff wf).1 (unified.weaker I interprets)
  sound went I interprets := by
    rw [List.forall_mem_singleton]
    exact agree I ((compressed.interprets_iff wf).1 (unified.weaker I interprets))
      (unified.sound went I interprets)
  complete I interprets same := by
    rw [List.forall_mem_singleton] at same
    exact unified.complete I ((compressed.interprets_iff wf).2 interprets)
      (equal I interprets same)

theorem Unified.nothing (wf : s.Wf) : Unified s [] true s :=
  ⟨wf, rfl, (Compressed.refl s).progress, fun _ interprets => interprets,
    fun _ _ _ _ inList => absurd inList List.not_mem_nil, fun _ interprets _ => ⟨rfl, interprets⟩⟩

theorem Unified.failed (wf : s.Wf) (compressed : Compressed s s') (wf' : s'.Wf)
    (never : ∀ I, Interprets s I → read I a ≠ read I b) : Unified s [(a, b)] false s' where
  wf := wf'
  length := compressed.length
  progress := compressed.progress
  weaker I := (compressed.interprets_iff wf).1
  sound went := nomatch went
  complete I interprets same := by
    rw [List.forall_mem_singleton] at same
    exact absurd same (never I interprets)

theorem Unified.symm (unified : Unified s [(b, a)] ok s') : Unified s [(a, b)] ok s' where
  wf := unified.wf
  length := unified.length
  progress := unified.progress
  weaker := unified.weaker
  sound went I interprets := by
    have agree := unified.sound went I interprets
    rw [List.forall_mem_singleton] at agree ⊢
    exact agree.symm
  complete I interprets same := by
    rw [List.forall_mem_singleton] at same
    exact unified.complete I interprets (List.forall_mem_singleton.2 same.symm)

theorem Unified.append {p p' q q' : Option Nat} (first : Unified s [(p, p')] true s₁)
    (second : Unified s₁ [(q, q')] ok s') : Unified s [(p, p'), (q, q')] ok s' where
  wf := second.wf
  length := second.length.trans first.length
  progress := first.progress.trans second.progress
  weaker I interprets := first.weaker I (second.weaker I interprets)
  sound went I interprets := by
    have agree := first.sound rfl I (second.weaker I interprets)
    have agree' := second.sound went I interprets
    rw [List.forall_mem_singleton] at agree agree'
    rw [List.forall_mem_cons, List.forall_mem_singleton]
    exact ⟨agree, agree'⟩
  complete I interprets same := by
    rw [List.forall_mem_cons, List.forall_mem_singleton] at same
    obtain ⟨-, between⟩ := first.complete I interprets (List.forall_mem_singleton.2 same.1)
    exact second.complete I between (List.forall_mem_singleton.2 same.2)

theorem Unified.first_failed {p p' q q' : Option Nat} (first : Unified s [(p, p')] false s') :
    Unified s [(p, p'), (q, q')] false s' where
  wf := first.wf
  length := first.length
  progress := first.progress
  weaker := first.weaker
  sound went := nomatch went
  complete I interprets same := by
    rw [List.forall_mem_cons] at same
    exact first.complete I interprets (List.forall_mem_singleton.2 same.1)

theorem unifyBoth_settles {unify : Nat → Arena → Option Nat → Option Nat → Option (Bool × Arena)}
    {p p' q q' : Option Nat}
    (first : ∃ ok s₁, Settles (fun fuel => unify fuel s p p') (ok, s₁) ∧
      Unified s [(p, p')] ok s₁)
    (second : ∀ s₁, s₁.Wf → s₁.nodes.length = s.nodes.length → Progress s s₁ →
      ∃ ok s', Settles (fun fuel => unify fuel s₁ q q') (ok, s') ∧ Unified s₁ [(q, q')] ok s') :
    ∃ ok s', Settles (fun fuel => unifyBoth (unify fuel) s p p' q q') (ok, s') ∧
      Unified s [(p, p'), (q, q')] ok s' := by
  obtain ⟨ok, s₁, settled, unified⟩ := first
  cases ok with
  | false =>
    refine ⟨false, s₁, ?_, unified.first_failed⟩
    simp only [unifyBoth]
    exact settled.bind (.of_eq fun _ => rfl)
  | true =>
    obtain ⟨ok, s', settled', unified'⟩ := second s₁ unified.wf unified.length unified.progress
    refine ⟨ok, s', ?_, unified.append unified'⟩
    simp only [unifyBoth]
    exact settled.bind (by simpa using settled')

end Unified

section Calls

theorem nyTypeIsAny_settles (wf : s.Wf) (root : s.parents x = x) (within : x < s.nodes.length) :
    ∃ o s', Settles (fun fuel => nyTypeIsAny fuel s (some x)) (o, s') ∧ s'.Wf ∧ Compressed s s' ∧
      (o = true ↔ s.nodes[x]? = some (.concrete "any")) := by
  obtain ⟨r, s', settled, leads, wf', compressed⟩ := findNode_settles wf within
  obtain rfl := leads.unique (.stop root)
  refine ⟨decide (s'.nodes[r]? = some (.concrete "any")), s', ?_, wf', compressed, ?_⟩
  · simp only [nyTypeIsAny, nyTypeFind, Option.map_map]
    exact settled.map fun found : Nat × Arena =>
      (decide (found.2.nodes[found.1]? = some (.concrete "any")), found.2)
  · rw [decide_eq_true_eq]
    exact compressed.solid r _ nofun

/-- A call of unification is decided by the nodes that its types stand for. -/
theorem nyTypeUnify_of_nodes (wf : s.Wf) (hasA : s.Has a) (hasB : s.Has b)
    (nodes : ∀ s₁ x y, s₁.Wf → Compressed s s₁ → (∃ t, a = some t ∧ s.Root t x) →
      (∃ t, b = some t ∧ s.Root t y) → x ≠ y →
      ∃ ok s', Settles (fun fuel => unifyNodes fuel (nyTypeUnify fuel) s₁ x y) (ok, s') ∧
        Unified s₁ [(some x, some y)] ok s') :
    ∃ ok s', Settles (fun fuel => nyTypeUnify fuel s a b) (ok, s') ∧ Unified s [(a, b)] ok s' := by
  obtain ⟨foundA, s₁, settledA, relA, wf₁, compressed₁⟩ := nyTypeFind_settles wf hasA
  obtain ⟨foundB, s₂, settledB, relB, wf₂, compressed₂⟩ :=
    nyTypeFind_settles wf₁ (compressed₁.has hasB)
  have compressed := compressed₁.trans compressed₂
  have agrees (also : ∀ I, Interprets s I → Agree (read I a) (read I b)) {s'' : Arena}
      (compressed : Compressed s s'') (wf'' : s''.Wf) : Unified s [(a, b)] true s'' :=
    Unified.of_parts wf compressed (.nothing wf'') (fun I interprets _ => also I interprets)
      fun _ _ _ pair inList => absurd inList List.not_mem_nil
  cases relA with
  | none =>
    refine ⟨true, s₂, .succ ?_, agrees (fun I _ => .missingLeft _) compressed wf₂⟩
    simp only [nyTypeUnify]
    exact settledA.bind (settledB.bind (.of_eq fun _ => rfl))
  | @some ta x leadsA =>
  cases relB with
  | none =>
    refine ⟨true, s₂, .succ ?_, agrees (fun I _ => .missingRight _) compressed wf₂⟩
    simp only [nyTypeUnify]
    exact settledA.bind (settledB.bind (.of_eq fun _ => rfl))
  | @some tb y leadsB =>
  rw [compressed₁.root_iff wf] at leadsB
  by_cases same : x = y
  · -- Both types stand for one node.
    subst same
    refine ⟨true, s₂, .succ ?_, agrees (fun I interprets => ?_) compressed wf₂⟩
    · simp only [nyTypeUnify]
      exact settledA.bind (settledB.bind (.of_eq fun _ => if_pos rfl))
    · rw [read, read, interprets.root _ _ leadsA, interprets.root _ _ leadsB]
      exact .refl _
  have rootA := (compressed.roots _ _ leadsA).root
  have withinA := leadsA.inside wf.forest (hasA ta rfl)
  have withinB := leadsB.inside wf.forest (hasB tb rfl)
  rw [← compressed.length] at withinA
  obtain ⟨anyA, s₃, settledAnyA, wf₃, compressed₃, decidesA⟩ :=
    nyTypeIsAny_settles wf₂ rootA withinA
  have compressed' := compressed.trans compressed₃
  have rootB := (compressed'.roots _ _ leadsB).root
  rw [← compressed'.length] at withinB
  obtain ⟨anyB, s₄, settledAnyB, wf₄, compressed₄, decidesB⟩ :=
    nyTypeIsAny_settles wf₃ rootB withinB
  have compressed'' := compressed'.trans compressed₄
  -- The call goes on with both answers.
  have start {ok : Bool} {s' : Arena} (rest : Settles (fun fuel =>
      if anyA then some (true, s₃)
      else (nyTypeIsAny fuel s₃ (some y)).bind fun anyB =>
        if anyB.1 then some (true, anyB.2) else unifyNodes fuel (nyTypeUnify fuel) anyB.2 x y)
      (ok, s')) : Settles (fun fuel => nyTypeUnify fuel s (some ta) (some tb)) (ok, s') := by
    refine .succ ?_
    simp only [nyTypeUnify]
    refine settledA.bind (settledB.bind ?_)
    simp only [if_neg same]
    exact settledAnyA.bind rest
  cases anyA with
  | true =>
    refine ⟨true, s₃, start (.of_eq fun _ => rfl), agrees (fun I interprets => ?_) compressed' wf₃⟩
    have found := (compressed.solid x _ (.concrete "any")).1 (decidesA.1 rfl)
    rw [read, interprets.root _ _ leadsA, interprets.node _ _ _ found rfl]
    exact .anyLeft _
  | false =>
  cases anyB with
  | true =>
    refine ⟨true, s₄, start ?_, agrees (fun I interprets => ?_) compressed'' wf₄⟩
    · simp only [Bool.false_eq_true, if_false]
      exact settledAnyB.bind (.of_eq fun _ => rfl)
    · have found := (compressed'.solid y _ (.concrete "any")).1 (decidesB.1 rfl)
      have isAny : read I (some tb) = .concrete "any" := by
        rw [read, interprets.root _ _ leadsB, interprets.node _ _ _ found rfl]
      rw [isAny]
      exact .anyRight _
  | false =>
    obtain ⟨ok, s', settled, unified⟩ :=
      nodes s₄ x y wf₄ compressed'' ⟨ta, rfl, leadsA⟩ ⟨tb, rfl, leadsB⟩ same
    refine ⟨ok, s', start ?_, unified.of_parts wf compressed'' (fun I interprets agree => ?_)
      fun I interprets equal => ?_⟩
    · simp only [Bool.false_eq_true, if_false]
      exact settledAnyB.bind (by simpa using settled)
    · rw [List.forall_mem_singleton] at agree
      rw [read, read, interprets.root _ _ leadsA, interprets.root _ _ leadsB]
      exact agree
    · rw [List.forall_mem_singleton]
      rw [read, read, interprets.root _ _ leadsA, interprets.root _ _ leadsB] at equal
      exact equal

theorem unifyNodes_var (wf : s.Wf) (free : s.Free x) (root : s.parents y = y)
    (within : y < s.nodes.length) (differ : x ≠ y)
    (unify : Nat → Arena → Option Nat → Option Nat → Option (Bool × Arena)) :
    ∃ ok s', Settles (fun fuel => unifyNodes fuel (unify fuel) s x y) (ok, s') ∧
      Unified s [(some x, some y)] ok s' := by
  obtain ⟨rank, ranked⟩ := wf.acyclic
  obtain ⟨id, found⟩ := id free
  have hasX : s.Has (some x) := fun z is => Option.some.inj is ▸ inside_of_get found
  have hasY : s.Has (some y) := fun z is => Option.some.inj is ▸ within
  obtain ⟨o, s₁, settled, wf₁, compressed, decides⟩ := nyTypeOccurs_settles wf ranked hasX hasY
  have decides := decides x x rfl (.stop free.parents)
  have run : Settles (fun fuel => unifyNodes fuel (unify fuel) s x y)
      (if o then (false, s₁) else (true, s₁.bind x y)) := by
    simp only [unifyNodes, found]
    exact settled.map fun occurs : Bool × Arena =>
      if occurs.1 then (false, occurs.2) else (true, occurs.2.bind x y)
  cases o with
  | true =>
    refine ⟨false, s₁, run, .failed wf compressed wf₁ fun I interprets => ?_⟩
    exact (decides.1 rfl).apart interprets root differ
  | false =>
    have root₁ : s₁.parents y = y := (compressed.roots y y (.stop root)).root
    have free₁ : s₁.Free x := compressed.free_iff.2 free
    have apart : ¬ s₁.Reaches y x := by
      intro reaches
      have contains := wf₁.contains free₁ reaches
      rw [compressed.contains_iff wf, ← decides] at contains
      cases contains
    have within₁ : y < s₁.nodes.length := by rwa [compressed.length]
    obtain ⟨wf₂, -⟩ := wf₁.bind free₁ root₁ within₁ apart
    have iff := fun I => (wf₁.interprets_bind (I := I) free₁ root₁ within₁ apart).trans
      (and_congr_left fun _ => compressed.interprets_iff wf)
    refine ⟨true, s₁.bind x y, run, wf₂, ?_,
      compressed.progress.trans (progress_bind free₁ differ.symm),
      fun I interprets => ((iff I).1 interprets).1, fun _ I interprets => ?_,
      fun I interprets same => ?_⟩
    · rw [← compressed.length, Arena.bind, setBound, Arena.setParent, List.length_modify,
        List.length_modify]
    · rw [List.forall_mem_singleton, read, read, ((iff I).1 interprets).2]
      exact .refl _
    · rw [List.forall_mem_singleton] at same
      exact ⟨rfl, (iff I).2 ⟨interprets, same⟩⟩

end Calls

section Unification

theorem Interprets.meaning {n : Node} (interprets : Interprets s I) (found : s.nodes[t]? = some n)
    {ty : Ty} (means : n.meaning I = some ty) : read I (some t) = ty :=
  interprets.node t n ty found means

/-- Unification ends. -/
theorem nyTypeUnify_settles (wf : s.Wf) (hasA : s.Has a) (hasB : s.Has b) :
    ∃ ok s', Settles (fun fuel => nyTypeUnify fuel s a b) (ok, s') ∧ Unified s [(a, b)] ok s' := by
  -- By the number of free variables, and then by the rank of the first type.
  induction count : freeCount s using Nat.strong_induction_on generalizing s a b with
  | _ count fewer =>
  subst count
  obtain ⟨rank, ranked⟩ := wf.acyclic
  generalize count : freeCount s = total at fewer
  induction level : height rank a using Nat.strong_induction_on generalizing s a b with
  | _ level lower =>
  subst level
  refine nyTypeUnify_of_nodes wf hasA hasB fun s₁ x y wf₁ compressed leadsA leadsB differ => ?_
  obtain ⟨ta, rfl, leadsA⟩ := leadsA
  obtain ⟨tb, rfl, leadsB⟩ := leadsB
  have rootX := (compressed.roots _ _ leadsA).root
  have rootY := (compressed.roots _ _ leadsB).root
  have withinX := leadsA.inside wf.forest (hasA ta rfl)
  have withinY := leadsB.inside wf.forest (hasB tb rfl)
  rw [← compressed.length] at withinX withinY
  have ranked₁ := compressed.ranked rank ranked
  have rankX := wf.rank_root ranked leadsA
  obtain ⟨n, foundX⟩ : ∃ n, s₁.nodes[x]? = some n := ⟨_, List.getElem?_eq_getElem withinX⟩
  obtain ⟨m, foundY⟩ : ∃ m, s₁.nodes[y]? = some m := ⟨_, List.getElem?_eq_getElem withinY⟩
  rcases wf₁.root_cases rootX foundX with freeX | solidX
  · exact unifyNodes_var wf₁ freeX rootY withinY differ _
  rcases wf₁.root_cases rootY foundY with freeY | solidY
  · -- The types are given in the other order.
    obtain ⟨ok, s', settled, unified⟩ := nyTypeUnify_of_nodes wf₁
      (fun z is => Option.some.inj is ▸ withinY) (fun z is => Option.some.inj is ▸ withinX)
      fun s₂ y' x' wf₂ compressed₂ leadsY leadsX _ => by
        obtain ⟨_, is, leadsY⟩ := leadsY
        obtain ⟨_, is', leadsX⟩ := leadsX
        cases is
        cases is'
        obtain rfl := leadsY.unique (.stop rootY)
        obtain rfl := leadsX.unique (.stop rootX)
        refine unifyNodes_var wf₂ (compressed₂.free_iff.2 freeY)
          (compressed₂.roots _ _ leadsX).root ?_ differ.symm _
        rwa [compressed₂.length]
    refine ⟨ok, s', ?_, unified.symm⟩
    obtain ⟨id, freeY⟩ := freeY
    have step : ∀ fuel, unifyNodes fuel (nyTypeUnify fuel) s₁ x y =
        nyTypeUnify fuel s₁ (some y) (some x) := by
      intro fuel
      unfold unifyNodes
      rw [foundX, freeY]
      cases n with
      | var id parent bound => exact absurd rfl (solidX id parent bound)
      | _ => rfl
    simp only [step]
    exact settled
  -- Nodes of different kinds, or with different names, are never equal.
  have clash {ty ty' : (Nat → Ty) → Ty} (meansX : ∀ I, n.meaning I = some (ty I))
      (meansY : ∀ I, m.meaning I = some (ty' I)) (apart : ∀ I, ty I ≠ ty' I)
      (step : ∀ fuel, unifyNodes fuel (nyTypeUnify fuel) s₁ x y = some (false, s₁)) :
      ∃ ok s', Settles (fun fuel => unifyNodes fuel (nyTypeUnify fuel) s₁ x y) (ok, s') ∧
        Unified s₁ [(some x, some y)] ok s' := by
    refine ⟨false, s₁, .of_eq step, .failed wf₁ (.refl s₁) wf₁ fun I interprets => ?_⟩
    rw [interprets.meaning foundX (meansX I), interprets.meaning foundY (meansY I)]
    exact apart I
  -- The parts of two nodes of one kind are unified, with fewer variables or a lower rank.
  have parts {p q p' q' : Option Nat} (edgesX : n.edges x = p.toList ++ q.toList)
      (edgesY : m.edges y = p'.toList ++ q'.toList)
      (agree : ∀ I, Interprets s₁ I → Agree (read I p) (read I p') → Agree (read I q) (read I q') →
        Agree (read I (some x)) (read I (some y)))
      (equal : ∀ I, Interprets s₁ I → read I (some x) = read I (some y) →
        read I p = read I p' ∧ read I q = read I q')
      (step : ∀ fuel, unifyNodes fuel (nyTypeUnify fuel) s₁ x y =
        unifyBoth (nyTypeUnify fuel) s₁ p p' q q') :
      ∃ ok s', Settles (fun fuel => unifyNodes fuel (nyTypeUnify fuel) s₁ x y) (ok, s') ∧
        Unified s₁ [(some x, some y)] ok s' := by
    have low : ∀ c : Option Nat, (∀ z, c = some z → z ∈ n.edges x) →
        height rank c < height rank (some ta) := by
      intro c isPart
      cases c with
      | none => exact Nat.succ_pos _
      | some z =>
        have less := ranked₁ x n foundX z (isPart z rfl)
        simp only [height]
        omega
    have hasP := wf₁.has_part foundX p fun z is => by simp [edgesX, is]
    have hasQ := wf₁.has_part foundX q fun z is => by simp [edgesX, is]
    have hasP' := wf₁.has_part foundY p' fun z is => by simp [edgesY, is]
    have hasQ' := wf₁.has_part foundY q' fun z is => by simp [edgesY, is]
    have before : freeCount s₁ < total ∨ (freeCount s₁ = total ∧ s₁.Ranked rank) := by
      rcases compressed.progress with fewer' | ⟨same, keeps⟩
      · exact .inl (count ▸ fewer')
      · exact .inr ⟨same.trans count, ranked₁⟩
    -- A call on parts, in an arena with as many free variables or fewer.
    have onward {s₂ : Arena} {c c' : Option Nat} (wf₂ : s₂.Wf) (has : s₂.Has c) (has' : s₂.Has c')
        (state : freeCount s₂ < total ∨ (freeCount s₂ = total ∧ s₂.Ranked rank))
        (isLow : height rank c < height rank (some ta)) :
        ∃ ok s', Settles (fun fuel => nyTypeUnify fuel s₂ c c') (ok, s') ∧
          Unified s₂ [(c, c')] ok s' := by
      rcases state with fewer' | ⟨same, ranked₂⟩
      · exact fewer _ fewer' wf₂ has has' rfl
      · exact lower _ isLow wf₂ has has' ranked₂ same rfl
    obtain ⟨ok, s', settled, unified⟩ := unifyBoth_settles
      (onward wf₁ hasP hasP' before (low p fun z is => by simp [edgesX, is]))
      fun s₂ wf₂ length progress => by
        have has₂ : ∀ {c : Option Nat}, s₁.Has c → s₂.Has c := fun has z is =>
          length ▸ has z is
        refine onward wf₂ (has₂ hasQ) (has₂ hasQ') ?_ (low q fun z is => by simp [edgesX, is])
        rcases progress with fewer' | ⟨same, keeps⟩
        · rcases before with less | ⟨same, -⟩
          · exact .inl (fewer'.trans less)
          · exact .inl (same ▸ fewer')
        · rcases before with less | ⟨same', ranked₂⟩
          · exact .inl (same ▸ less)
          · exact .inr ⟨same.trans same', keeps rank ranked₂⟩
    refine ⟨ok, s', ?_, unified.of_parts wf₁ (.refl s₁) (fun I interprets both => ?_)
      fun I interprets same => ?_⟩
    · simp only [step]
      exact settled
    · rw [List.forall_mem_cons, List.forall_mem_singleton] at both
      exact agree I interprets both.1 both.2
    · rw [List.forall_mem_cons, List.forall_mem_singleton]
      exact equal I interprets same
  cases n with
  | var id parent bound => exact absurd rfl (solidX id parent bound)
  | concrete name =>
    cases m with
    | var id parent bound => exact absurd rfl (solidY id parent bound)
    | concrete name' =>
      by_cases same : name = name'
      · subst same
        refine ⟨true, s₁, .of_eq fun fuel => by simp [unifyNodes, foundX, foundY],
          Unified.of_parts wf₁ (.refl s₁) (.nothing wf₁) (fun I interprets _ => ?_)
          fun _ _ _ pair inList => absurd inList List.not_mem_nil⟩
        rw [interprets.meaning foundX rfl, interprets.meaning foundY rfl]
        exact .refl _
      · exact clash (fun _ => rfl) (fun _ => rfl) (fun I eq => same (Ty.concrete.inj eq))
          fun fuel => by simp [unifyNodes, foundX, foundY, same]
    | _ =>
      exact clash (fun _ => rfl) (fun _ => rfl) (by rintro _ ⟨⟩)
        fun fuel => by simp [unifyNodes, foundX, foundY]
  | arrow param ret =>
    cases m with
    | var id parent bound => exact absurd rfl (solidY id parent bound)
    | arrow param' ret' =>
      refine parts rfl rfl (fun I interprets first second => ?_) (fun I interprets same => ?_)
        fun fuel => by simp [unifyNodes, foundX, foundY]
      · rw [interprets.meaning foundX rfl, interprets.meaning foundY rfl]
        exact .arrow first second
      · rw [interprets.meaning foundX rfl, interprets.meaning foundY rfl] at same
        exact Ty.arrow.inj same
    | _ =>
      exact clash (fun _ => rfl) (fun _ => rfl) (by rintro _ ⟨⟩)
        fun fuel => by simp [unifyNodes, foundX, foundY]
  | apply name arg0 arg1 arity =>
    cases m with
    | var id parent bound => exact absurd rfl (solidY id parent bound)
    | apply name' arg0' arg1' arity' =>
      by_cases same : name = name' ∧ arity = arity'
      · obtain ⟨rfl, rfl⟩ := id same
        refine parts rfl rfl (fun I interprets first second => ?_) (fun I interprets same => ?_)
          fun fuel => by simp [unifyNodes, foundX, foundY]
        · rw [interprets.meaning foundX rfl, interprets.meaning foundY rfl]
          exact .apply first second
        · rw [interprets.meaning foundX rfl, interprets.meaning foundY rfl] at same
          obtain ⟨-, first, second, -⟩ := Ty.apply.inj same
          exact ⟨first, second⟩
      · refine clash (fun _ => rfl) (fun _ => rfl) (fun I eq => same ?_)
          fun fuel => by simp [unifyNodes, foundX, foundY, same]
        obtain ⟨names, -, -, arities⟩ := Ty.apply.inj eq
        exact ⟨names, arities⟩
    | _ =>
      exact clash (fun _ => rfl) (fun _ => rfl) (by rintro _ ⟨⟩)
        fun fuel => by simp [unifyNodes, foundX, foundY]

end Unification

section Writing

/-- Writing a type ends. -/
theorem nyTypeToString_settles (wf : s.Wf) (ranked : s.Ranked rank) (has : s.Has a) :
    ∃ text s', Settles (fun fuel => nyTypeToString fuel s a) (text, s') ∧ s'.Wf ∧
      Compressed s s' := by
  induction level : height rank a using Nat.strong_induction_on generalizing s a with
  | _ level lower =>
  subst level
  obtain ⟨found, s₁, settled, rel, wf₁, compressed⟩ := nyTypeFind_settles wf has
  cases rel with
  | none =>
    refine ⟨"any", s₁, .succ ?_, wf₁, compressed⟩
    simp only [nyTypeToString]
    exact settled.bind (.of_eq fun _ => rfl)
  | @some t x leads =>
  have within := leads.inside wf.forest (has t rfl)
  rw [← compressed.length] at within
  obtain ⟨n, foundX⟩ : ∃ n, s₁.nodes[x]? = some n := ⟨_, List.getElem?_eq_getElem within⟩
  have ranked₁ := compressed.ranked rank ranked
  have rankX := wf.rank_root ranked leads
  -- Both parts are written, the second one after the first.
  have both {p q : Option Nat} (edges : n.edges x = p.toList ++ q.toList)
      (join : String → String → String) : ∃ text s', Settles (fun fuel =>
        writeBoth (nyTypeToString fuel) s₁ p q join) (text, s') ∧ s'.Wf ∧ Compressed s s' := by
    have low : ∀ c : Option Nat, (∀ z, c = some z → z ∈ n.edges x) →
        height rank c < height rank (some t) := by
      intro c isPart
      cases c with
      | none => exact Nat.succ_pos _
      | some z =>
        have less := ranked₁ x n foundX z (isPart z rfl)
        simp only [height]
        omega
    have hasP := wf₁.has_part foundX p fun z is => by simp [edges, is]
    have hasQ := wf₁.has_part foundX q fun z is => by simp [edges, is]
    obtain ⟨first, s₂, settled₁, wf₂, compressed₂⟩ :=
      lower _ (low p fun z is => by simp [edges, is]) wf₁ ranked₁ hasP rfl
    obtain ⟨second, s₃, settled₂, wf₃, compressed₃⟩ :=
      lower _ (low q fun z is => by simp [edges, is]) wf₂ (compressed₂.ranked rank ranked₁)
        (compressed₂.has hasQ) rfl
    refine ⟨join first second, s₃, ?_, wf₃, (compressed.trans compressed₂).trans compressed₃⟩
    exact settled₁.bind
      (settled₂.map fun second : String × Arena => (join first second.1, second.2))
  cases n with
  | concrete name =>
    refine ⟨name, s₁, .succ ?_, wf₁, compressed⟩
    simp only [nyTypeToString]
    exact settled.bind (.of_eq fun _ => by simp only [Option.bind_some, foundX])
  | var id parent bound =>
    refine ⟨"'t" ++ toString id, s₁, .succ ?_, wf₁, compressed⟩
    simp only [nyTypeToString]
    exact settled.bind (.of_eq fun _ => by simp only [Option.bind_some, foundX])
  | arrow param ret =>
    obtain ⟨text, s', settled', wf', compressed'⟩ := both rfl fun p r => "fn(" ++ p ++ ")->" ++ r
    refine ⟨text, s', .succ ?_, wf', compressed'⟩
    simp only [nyTypeToString]
    exact settled.bind (by simpa [foundX] using settled')
  | apply name arg0 arg1 arity =>
    obtain ⟨text, s', settled', wf', compressed'⟩ := both rfl fun a b =>
      if arity ≤ 0 then name
      else if arity = 1 then name ++ "<" ++ a ++ ">"
      else name ++ "<" ++ a ++ ", " ++ b ++ ">"
    refine ⟨text, s', .succ ?_, wf', compressed'⟩
    simp only [nyTypeToString]
    exact settled.bind (by simpa [foundX] using settled')

end Writing

section Reaching

/-- An arena that starts empty and grows by new types and by calls. -/
inductive Reached : Arena → Prop
  | start : Reached ⟨[], 0⟩
  | concrete {s : Arena} (reached : Reached s) (name : String) : Reached (nyTypeConcrete s name).2
  | var {s : Arena} (reached : Reached s) : Reached (nyTypeVar s).2
  | arrow {s : Arena} {param ret : Option Nat} (reached : Reached s) (hasP : s.Has param)
    (hasR : s.Has ret) : Reached (nyTypeArrow s param ret).2
  | apply {s : Arena} {arg0 arg1 : Option Nat} (reached : Reached s) (name : String)
    (hasA : s.Has arg0) (hasB : s.Has arg1) (arity : Int) :
    Reached (nyTypeApply s name arg0 arg1 arity).2
  | find {s s' : Arena} {t found : Option Nat} (reached : Reached s) (has : s.Has t)
    (run : Settles (fun fuel => nyTypeFind fuel s t) (found, s')) : Reached s'
  | unify {s s' : Arena} {a b : Option Nat} {ok : Bool} (reached : Reached s) (hasA : s.Has a)
    (hasB : s.Has b) (run : Settles (fun fuel => nyTypeUnify fuel s a b) (ok, s')) : Reached s'

/-- A new node is one of an arena without a cycle, too. -/
theorem Arena.Wf.push (wf : s.Wf) {n : Node} {count : Nat}
    (inside : ∀ c ∈ n.edges s.nodes.length, c < s.nodes.length)
    (kind : n.Solid ∨ ∃ id, n = .var id s.nodes.length none) :
    Arena.Wf { nodes := s.nodes ++ [n], nextVarId := count } := by
  have nodes : ∀ i m, (s.nodes ++ [n])[i]? = some m →
      (i = s.nodes.length ∧ m = n) ∨ (i < s.nodes.length ∧ s.nodes[i]? = some m) := by
    intro i m found
    rcases Nat.lt_trichotomy i s.nodes.length with before | here | behind
    · rw [List.getElem?_append_left before] at found
      exact .inr ⟨before, found⟩
    · subst here
      simp only [List.getElem?_concat_length, Option.some.injEq] at found
      exact .inl ⟨rfl, found.symm⟩
    · rw [List.getElem?_eq_none (by simp; omega)] at found
      cases found
  -- The new node has no links.
  have parents : Arena.parents { nodes := s.nodes ++ [n], nextVarId := count } = s.parents := by
    funext i
    unfold Arena.parents
    rcases Nat.lt_trichotomy i s.nodes.length with before | here | behind
    · simp only [List.getElem?_append_left before]
    · subst here
      rw [List.getElem?_eq_none le_rfl]
      simp only [List.getElem?_concat_length]
      rcases kind with solid | ⟨id, rfl⟩
      · cases n with
        | var id parent bound => exact absurd rfl (solid id parent bound)
        | _ => rfl
      · simp
    · rw [List.getElem?_eq_none (by simp; omega), List.getElem?_eq_none (by omega)]
  refine ⟨?_, ?_, ?_, ?_⟩
  · intro i m found c edge
    simp only [List.length_append, List.length_singleton]
    rcases nodes i m found with ⟨rfl, rfl⟩ | ⟨-, found⟩
    · have := inside c edge
      omega
    · have := wf.inRange i m found c edge
      omega
  · -- The new node is above all others.
    obtain ⟨rank, ranked⟩ := wf.acyclic
    refine ⟨fun i => if i = s.nodes.length then (Finset.range s.nodes.length).sup rank + 1
      else rank i, ?_⟩
    intro i m found c edge
    rcases nodes i m found with ⟨rfl, rfl⟩ | ⟨before, found⟩
    · have below := inside c edge
      have le := Finset.le_sup (f := rank) (Finset.mem_range.2 below)
      simp only [if_true, if_neg below.ne]
      omega
    · have below := wf.inRange i m found c edge
      simp only [if_neg below.ne, if_neg before.ne]
      exact ranked i m found c edge
  · intro i id parent b found
    rw [parents]
    rcases nodes i _ found with ⟨rfl, is⟩ | ⟨-, found⟩
    · rcases kind with solid | ⟨id', is'⟩
      · exact absurd is.symm (solid _ _ _)
      · rw [is'] at is
        cases is
    · exact wf.linked i id parent b found
  · intro i id parent found
    rcases nodes i _ found with ⟨rfl, is⟩ | ⟨-, found⟩
    · rcases kind with solid | ⟨id', is'⟩
      · exact absurd is.symm (solid _ _ _)
      · rw [is'] at is
        cases is
        rfl
    · exact wf.unlinked i id parent found

theorem Reached.wf (reached : Reached s) : s.Wf := by
  induction reached with
  | start =>
    exact ⟨by rintro _ _ ⟨⟩, ⟨id, by rintro _ _ ⟨⟩⟩, by rintro _ _ _ _ ⟨⟩, by rintro _ _ _ ⟨⟩⟩
  | concrete _ name wf => exact wf.push (by rintro _ ⟨⟩) (.inl (.concrete _))
  | var _ wf => exact wf.push (by simp [Node.edges]) (.inr ⟨_, rfl⟩)
  | arrow _ hasP hasR wf =>
    refine wf.push (fun c edge => ?_) (.inl (.arrow _ _))
    simp only [Node.edges, List.mem_append, Option.mem_toList] at edge
    rcases edge with is | is
    · exact hasP c is
    · exact hasR c is
  | apply _ name hasA hasB arity wf =>
    refine wf.push (fun c edge => ?_) (.inl (.apply _ _ _ _))
    simp only [Node.edges, List.mem_append, Option.mem_toList] at edge
    rcases edge with is | is
    · exact hasA c is
    · exact hasB c is
  | find _ has run wf =>
    obtain ⟨found, s', settled, -, wf', -⟩ := nyTypeFind_settles wf has
    cases run.unique settled
    exact wf'
  | unify _ hasA hasB run wf =>
    obtain ⟨ok, s', settled, unified⟩ := nyTypeUnify_settles wf hasA hasB
    cases run.unique settled
    exact unified.wf

theorem Arena.Wf.no_cycle (wf : s.Wf) (t : Nat) : ¬ Relation.TransGen s.Edge t t := by
  obtain ⟨rank, ranked⟩ := wf.acyclic
  have falls : ∀ {i j}, Relation.TransGen s.Edge i j → rank j < rank i := by
    intro i j path
    induction path with
    | single edge =>
      obtain ⟨n, found, edge⟩ := edge
      exact ranked _ n found _ edge
    | tail _ edge lower =>
      obtain ⟨n, found, edge⟩ := edge
      exact (ranked _ n found _ edge).trans lower
  exact fun path => (falls path).false

/--
Unification computes unifiers, from every arena that is reached.

Pointers have no cycle, and all functions end. After a call that goes well both types resolve to
types that agree; before one that fails they resolve to types that no substitution makes equal.
-/
theorem nyTypeUnify_unifies (reached : Reached s) :
    (∀ t, ¬ Relation.TransGen s.Edge t t) ∧
      ∀ a b, s.Has a → s.Has b →
        (∃ found, Settles (fun fuel => nyTypeFind fuel s a) found) ∧
        (∃ occurs, Settles (fun fuel => nyTypeOccurs fuel s a b) occurs) ∧
        (∃ text, Settles (fun fuel => nyTypeToString fuel s a) text) ∧
        ∃ ok s', Settles (fun fuel => nyTypeUnify fuel s a b) (ok, s') ∧ Reached s' ∧
          (ok = true → ∃ ta tb, Resolves s' a ta ∧ Resolves s' b tb ∧ Agree ta tb) ∧
          (ok = false → ∃ ta tb, Resolves s a ta ∧ Resolves s b tb ∧
            ∀ θ, ta.subst θ ≠ tb.subst θ) := by
  have wf := reached.wf
  obtain ⟨rank, ranked⟩ := wf.acyclic
  refine ⟨wf.no_cycle, fun a b hasA hasB => ?_⟩
  obtain ⟨found, s₁, settledFind, -⟩ := nyTypeFind_settles wf hasA
  obtain ⟨occurs, s₂, settledOccurs, -⟩ := nyTypeOccurs_settles wf ranked hasA hasB
  obtain ⟨text, s₃, settledText, -⟩ := nyTypeToString_settles wf ranked hasA
  obtain ⟨ok, s', settled, unified⟩ := nyTypeUnify_settles wf hasA hasB
  refine ⟨⟨_, settledFind⟩, ⟨_, settledOccurs⟩, ⟨_, settledText⟩, ok, s', settled,
    .unify reached hasA hasB settled, fun went => ?_, fun failed => ?_⟩
  · -- The types that nodes resolve to are types of the new arena.
    have hasA' : s'.Has a := fun z is => unified.length ▸ hasA z is
    have hasB' : s'.Has b := fun z is => unified.length ▸ hasB z is
    obtain ⟨ta, resolvesA⟩ := unified.wf.resolves hasA'
    obtain ⟨tb, resolvesB⟩ := unified.wf.resolves hasB'
    obtain ⟨I, interprets, reads⟩ := unified.wf.interprets .var
    have agree := unified.sound went I interprets
    rw [List.forall_mem_singleton, reads a ta resolvesA, reads b tb resolvesB, Ty.subst_var,
      Ty.subst_var] at agree
    exact ⟨ta, tb, resolvesA, resolvesB, agree⟩
  · -- A substitution gives types of the old arena.
    obtain ⟨ta, resolvesA⟩ := wf.resolves hasA
    obtain ⟨tb, resolvesB⟩ := wf.resolves hasB
    refine ⟨ta, tb, resolvesA, resolvesB, fun θ same => ?_⟩
    obtain ⟨I, interprets, reads⟩ := wf.interprets θ
    have both := unified.complete I interprets (by
      rw [List.forall_mem_singleton, reads a ta resolvesA, reads b tb resolvesB]
      exact same)
    rw [failed] at both
    exact nomatch both.1

/-- A list of a variable, and the variable. -/
def listOfVar : Arena := (nyTypeApply (nyTypeVar ⟨[], 0⟩).2 "list" (some 0) none 1).2

theorem listOfVar_reached : Reached listOfVar := by
  have first : (nyTypeVar ⟨[], 0⟩).2.Has (some 0) := fun z is => by cases is; decide
  have second : (nyTypeVar ⟨[], 0⟩).2.Has none := fun z is => nomatch is
  exact .apply (.var .start) "list" first second 1

/-- A variable and the list of it do not unify. -/
theorem nyTypeUnify_unifies_listOfVar :
    ∃ ok s', Settles (fun fuel => nyTypeUnify fuel listOfVar (some 0) (some 1)) (ok, s') ∧
      (ok = true → ∃ ta tb, Resolves s' (some 0) ta ∧ Resolves s' (some 1) tb ∧ Agree ta tb) ∧
      (ok = false → ∃ ta tb, Resolves listOfVar (some 0) ta ∧ Resolves listOfVar (some 1) tb ∧
        ∀ θ, ta.subst θ ≠ tb.subst θ) := by
  obtain ⟨-, -, -, ok, s', settled, -, went, failed⟩ :=
    (nyTypeUnify_unifies listOfVar_reached).2 (some 0) (some 1)
      (fun z is => by cases is; decide) fun z is => by cases is; decide
  exact ⟨ok, s', settled, went, failed⟩

example : (nyTypeUnify 9 listOfVar (some 0) (some 1)).map (·.1) = some false := by decide

end Reaching

end Nytrix.Infer
