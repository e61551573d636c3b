import Mathlib.Data.Finset.Card
import Mathlib.Tactic.Common

/-! Names given to keys in turn, where a table with so many places keeps the names given so far. -/

namespace Nytrix.Lib.BoundedTable

variable {α : Type} [DecidableEq α]

/-- Keeps the name of a key, if there is a place left. -/
def note (places : Nat) (table : List (α × Nat)) (key : α) (name : Nat) : List (α × Nat) :=
  if table.length < places then table ++ [(key, name)] else table

/--
Names are given to keys in turn: that in the table if there is one, and else a new one.

New names are not below a number, which goes up.
-/
inductive Assigns (places : Nat) :
    List (α × Nat) → Nat → List (α × Nat) → List (α × Nat) → Nat → Prop
  | nil {table next next'} (grows : next ≤ next') : Assigns places table next [] table next'
  | known {table next key name pairs table' next'} (found : table.lookup key = some name)
      (rest : Assigns places table next pairs table' next') :
      Assigns places table next ((key, name) :: pairs) table' next'
  | fresh {table next key name pairs table' next'} (new : table.lookup key = none)
      (later : next ≤ name)
      (rest : Assigns places (note places table key name) (name + 1) pairs table' next') :
      Assigns places table next ((key, name) :: pairs) table' next'

theorem mem_of_lookup {table : List (α × Nat)} {key : α} {name : Nat}
    (found : table.lookup key = some name) : (key, name) ∈ table := by
  obtain ⟨before, behind, rfl, -⟩ := List.lookup_eq_some_iff.1 found
  exact List.mem_append_right _ List.mem_cons_self

theorem lookup_none_iff {table : List (α × Nat)} {key : α} :
    table.lookup key = none ↔ key ∉ table.map (·.1) := by
  rw [List.lookup_eq_none_iff, List.mem_map]
  constructor
  · rintro none ⟨entry, inTable, same⟩
    exact absurd same.symm (by simpa using none entry inTable)
  · intro absent entry inTable
    simpa using fun same => absent ⟨entry, inTable, same.symm⟩

section Runs

variable {places next next' next'' : Nat} {table table' table'' : List (α × Nat)}
  {pairs more : List (α × Nat)}

theorem Assigns.earlier {early : Nat} (assigns : Assigns places table next pairs table' next')
    (before : early ≤ next) : Assigns places table early pairs table' next' := by
  induction assigns generalizing early with
  | nil grows => exact .nil (before.trans grows)
  | known found rest rest_earlier => exact .known found (rest_earlier before)
  | fresh new later rest => exact .fresh new (before.trans later) rest

theorem Assigns.append (assigns : Assigns places table next pairs table' next')
    (behind : Assigns places table' next' more table'' next'') :
    Assigns places table next (pairs ++ more) table'' next'' := by
  induction assigns with
  | nil grows => exact behind.earlier grows
  | known found rest rest_append => exact .known found (rest_append behind)
  | fresh new later rest rest_append => exact .fresh new later (rest_append behind)

theorem Assigns.name_new (assigns : Assigns places table next pairs table' next') {key : α}
    {name : Nat} (given : (key, name) ∈ pairs) : (key, name) ∈ table ∨ next ≤ name := by
  induction assigns with
  | nil => cases given
  | @known table _ key' name' _ _ _ found rest rest_new =>
    rcases List.mem_cons.1 given with same | behind
    · cases same
      exact .inl (mem_of_lookup found)
    · exact rest_new behind
  | @fresh table _ key' name' _ _ _ new later rest rest_new =>
    rcases List.mem_cons.1 given with same | behind
    · cases same
      exact .inr later
    · rcases rest_new behind with kept | newer
      · -- What the table keeps now it kept before, or it is the new name.
        unfold note at kept
        split at kept
        · rcases List.mem_append.1 kept with before | last
          · exact .inl before
          · rw [List.mem_singleton] at last
            cases last
            exact .inr later
        · exact .inl kept
      · exact .inr (by omega)

end Runs

section Consistency

/-- The same keys have the same names, and different keys have different ones. -/
def Consistent (pairs : List (α × Nat)) : Prop :=
  ∀ p ∈ pairs, ∀ q ∈ pairs, p.1 = q.1 ↔ p.2 = q.2

theorem consistent_iff {pairs : List (α × Nat)} :
    Consistent pairs ↔
      ∃ f : α → Nat, Set.InjOn f {key | key ∈ pairs.map (·.1)} ∧ ∀ p ∈ pairs, p.2 = f p.1 := by
  constructor
  · intro consistent
    -- Any of the names that a key has is the one it has.
    have given : ∀ p ∈ pairs, p.2 = (pairs.lookup p.1).getD 0 := by
      intro p inPairs
      cases found : pairs.lookup p.1 with
      | none => exact absurd (List.mem_map_of_mem inPairs) (lookup_none_iff.1 found)
      | some name => exact (consistent p inPairs (p.1, name) (mem_of_lookup found)).1 rfl
    refine ⟨fun key => (pairs.lookup key).getD 0, ?_, given⟩
    intro key inKeys key' inKeys' same
    obtain ⟨p, inPairs, rfl⟩ := List.mem_map.1 inKeys
    obtain ⟨q, inPairs', rfl⟩ := List.mem_map.1 inKeys'
    dsimp only at same
    rw [← given p inPairs, ← given q inPairs'] at same
    exact (consistent p inPairs q inPairs').2 same
  · rintro ⟨f, injective, given⟩ p inPairs q inPairs'
    constructor
    · intro same
      rw [given p inPairs, given q inPairs', same]
    · intro same
      rw [given p inPairs, given q inPairs'] at same
      exact injective (List.mem_map_of_mem inPairs) (List.mem_map_of_mem inPairs') same

/--
Keys that come after the table is full and are not in it come only once.

Before the first of them so many different keys are in the table or come that all places are taken.
-/
def OnceBeyond (places : Nat) (seen : Finset α) (keys : List α) : Prop :=
  ∀ key ∈ keys, key ∉ seen → places ≤ (seen ∪ (keys.takeWhile (· ≠ key)).toFinset).card →
    keys.count key = 1

variable {places next next' : Nat} {table table' pairs : List (α × Nat)} {seen : Finset α}
  {key : α} {keys : List α}

theorem onceBeyond_cons_seen (known : key ∈ seen) :
    OnceBeyond places seen (key :: keys) ↔ OnceBeyond places seen keys := by
  have same : ∀ other ∉ seen, ((key :: keys).takeWhile (· ≠ other)).toFinset ∪ seen =
      (keys.takeWhile (· ≠ other)).toFinset ∪ seen ∧
        (key :: keys).count other = keys.count other := by
    intro other unseen
    have differ : key ≠ other := fun same => unseen (same ▸ known)
    constructor
    · rw [List.takeWhile_cons_of_pos (by simpa using differ), List.toFinset_cons,
        Finset.insert_union, Finset.insert_eq_of_mem (Finset.mem_union_right _ known)]
    · exact List.count_cons_of_ne differ
  constructor
  · intro once other inKeys unseen full
    obtain ⟨before, count⟩ := same other unseen
    rw [← count]
    apply once other (List.mem_cons_of_mem _ inKeys) unseen
    rwa [Finset.union_comm, before, Finset.union_comm]
  · intro once other inKeys unseen full
    obtain ⟨before, count⟩ := same other unseen
    rw [count]
    rcases List.mem_cons.1 inKeys with rfl | behind
    · exact absurd known unseen
    · apply once other behind unseen
      rwa [Finset.union_comm, ← before, Finset.union_comm]

theorem onceBeyond_cons_room (new : key ∉ seen) (room : seen.card < places) :
    OnceBeyond places seen (key :: keys) ↔ OnceBeyond places (insert key seen) keys := by
  have same : ∀ other, key ≠ other → seen ∪ ((key :: keys).takeWhile (· ≠ other)).toFinset =
      insert key seen ∪ (keys.takeWhile (· ≠ other)).toFinset ∧
        (key :: keys).count other = keys.count other := by
    intro other differ
    constructor
    · rw [List.takeWhile_cons_of_pos (by simpa using differ), List.toFinset_cons,
        Finset.union_insert, Finset.insert_union]
    · exact List.count_cons_of_ne differ
  constructor
  · intro once other inKeys unseen full
    rw [Finset.mem_insert, not_or] at unseen
    obtain ⟨before, count⟩ := same other (Ne.symm unseen.1)
    rw [← count]
    apply once other (List.mem_cons_of_mem _ inKeys) unseen.2
    rwa [before]
  · intro once other inKeys unseen full
    by_cases first : key = other
    · -- Nothing comes before the first key, and there is room.
      subst first
      simp at full
      omega
    · obtain ⟨before, count⟩ := same other first
      rw [count]
      have behind : other ∈ keys := (List.mem_cons.1 inKeys).resolve_left (Ne.symm first)
      apply once other behind
      · rw [Finset.mem_insert, not_or]
        exact ⟨Ne.symm first, unseen⟩
      · rwa [← before]

theorem onceBeyond_cons_full (new : key ∉ seen) (full : places ≤ seen.card) :
    OnceBeyond places seen (key :: keys) ↔ key ∉ keys ∧ OnceBeyond places seen keys := by
  have always : ∀ more : Finset α, places ≤ (seen ∪ more).card :=
    fun more => full.trans (Finset.card_le_card Finset.subset_union_left)
  constructor
  · intro once
    constructor
    · have count := once key List.mem_cons_self new (always _)
      rw [List.count_cons_self] at count
      exact List.count_eq_zero.1 (by omega)
    · intro other inKeys unseen _
      have count := once other (List.mem_cons_of_mem _ inKeys) unseen (always _)
      have some : 0 < keys.count other := List.count_pos_iff.2 inKeys
      rw [List.count_cons] at count
      omega
  · rintro ⟨absent, once⟩ other inKeys unseen _
    by_cases first : key = other
    · subst first
      rw [List.count_cons_self, List.count_eq_zero.2 absent]
    · rw [List.count_cons_of_ne first]
      exact once other ((List.mem_cons.1 inKeys).resolve_left (Ne.symm first)) unseen (always _)

/-- A table with one name for each key, and all names below a number. -/
structure Kept (table : List (α × Nat)) (next : Nat) : Prop where
  nodup : (table.map (·.1)).Nodup
  consistent : Consistent table
  below : ∀ entry ∈ table, entry.2 < next

theorem Kept.start : Kept ([] : List (α × Nat)) next :=
  ⟨List.nodup_nil, fun p inTable => absurd inTable List.not_mem_nil,
    fun p inTable => absurd inTable List.not_mem_nil⟩

theorem Kept.push {name : Nat} (kept : Kept table next) (new : key ∉ table.map (·.1))
    (later : next ≤ name) : Kept (table ++ [(key, name)]) (name + 1) := by
  have apart : ∀ entry ∈ table, entry.1 ≠ key ∧ entry.2 ≠ name := by
    intro entry inTable
    have below := kept.below entry inTable
    exact ⟨fun same => new (same ▸ List.mem_map_of_mem inTable), by omega⟩
  constructor
  case nodup =>
    rw [List.map_append, List.map_singleton]
    exact List.nodup_append.2 ⟨kept.nodup, List.nodup_singleton _, by
      rintro a inTable b inLast rfl
      rw [List.mem_singleton] at inLast
      rw [inLast] at inTable
      exact new inTable⟩
  case consistent =>
    intro p inTable q inTable'
    rcases List.mem_append.1 inTable with before | last
    · rcases List.mem_append.1 inTable' with before' | last'
      · exact kept.consistent p before q before'
      · rw [List.mem_singleton] at last'
        subst last'
        have differ := apart p before
        exact ⟨fun same => absurd same differ.1, fun same => absurd same differ.2⟩
    · rw [List.mem_singleton] at last
      subst last
      rcases List.mem_append.1 inTable' with before' | last'
      · have differ := apart q before'
        exact ⟨fun same => absurd same.symm differ.1, fun same => absurd same.symm differ.2⟩
      · rw [List.mem_singleton] at last'
        subst last'
        exact ⟨fun _ => rfl, fun _ => rfl⟩
  case below =>
    intro entry inTable
    rcases List.mem_append.1 inTable with before | last
    · have below := kept.below entry before
      omega
    · rw [List.mem_singleton] at last
      subst last
      exact Nat.lt_succ_self _

/-- Names are consistent exactly if keys that come after the table is full come only once. -/
theorem Assigns.consistent_iff (assigns : Assigns places table next pairs table' next')
    (kept : Kept table next) :
    Consistent (table ++ pairs) ↔
      OnceBeyond places (table.map (·.1)).toFinset (pairs.map (·.1)) := by
  induction assigns with
  | nil =>
    rw [List.append_nil, List.map_nil]
    exact ⟨fun _ key inKeys => absurd inKeys List.not_mem_nil, fun _ => kept.consistent⟩
  | @known table next key name pairs _ _ found rest rest_iff =>
    -- The name is in the table, and nothing changes.
    have inTable := mem_of_lookup found
    rw [List.map_cons, onceBeyond_cons_seen (List.mem_toFinset.2 (List.mem_map_of_mem inTable)),
      ← rest_iff kept]
    have same : ∀ p, p ∈ table ++ (key, name) :: pairs ↔ p ∈ table ++ pairs := by
      intro p
      simp only [List.mem_append, List.mem_cons]
      constructor
      · rintro (before | rfl | behind)
        · exact .inl before
        · exact .inl inTable
        · exact .inr behind
      · rintro (before | behind)
        · exact .inl before
        · exact .inr (.inr behind)
    simp only [Consistent, same]
  | @fresh table next key name pairs _ _ new later rest rest_iff =>
    have absent := lookup_none_iff.1 new
    have card : (table.map (·.1)).toFinset.card = table.length := by
      rw [List.toFinset_card_of_nodup kept.nodup, List.length_map]
    have unseen : key ∉ (table.map (·.1)).toFinset := by rwa [List.mem_toFinset]
    rw [List.map_cons]
    by_cases room : table.length < places
    · -- The key gets a place.
      rw [note, if_pos room] at rest rest_iff
      rw [onceBeyond_cons_room unseen (by omega)]
      have keys : ((table ++ [(key, name)]).map (·.1)).toFinset =
          insert key (table.map (·.1)).toFinset := by
        rw [List.map_append, List.map_singleton, List.toFinset_append, Finset.union_comm,
          List.toFinset_cons, List.toFinset_nil, Finset.insert_union, Finset.empty_union]
      rw [← keys, ← rest_iff (kept.push absent later), List.append_assoc, List.singleton_append]
    · -- The name is forgotten.
      rw [note, if_neg room] at rest rest_iff
      rw [onceBeyond_cons_full unseen (by omega),
        ← rest_iff ⟨kept.nodup, kept.consistent, fun entry inTable =>
          (kept.below entry inTable).trans (by omega)⟩]
      have newer : ∀ p ∈ table ++ pairs, p.2 ≠ name := by
        intro p inAll same
        have inTable : p ∈ table ∨ name + 1 ≤ p.2 :=
          (List.mem_append.1 inAll).elim .inl fun inPairs => rest.name_new inPairs
        rcases inTable with before | newer
        · have below := kept.below p before
          omega
        · omega
      constructor
      · intro consistent
        have part : Consistent (table ++ pairs) := by
          intro p inAll q inAll'
          apply consistent p _ q
          all_goals
            simp only [List.mem_append, List.mem_cons] at inAll inAll' ⊢
            tauto
        refine ⟨fun again => ?_, part⟩
        -- A later name of the same key would be a new one.
        obtain ⟨p, inPairs, same⟩ := List.mem_map.1 again
        have names := (consistent p (by simp [inPairs]) (key, name) (by simp)).1 same
        exact newer p (List.mem_append_right _ inPairs) names
      · rintro ⟨once, consistent⟩ p inAll q inAll'
        have keysApart : ∀ p ∈ table ++ pairs, p.1 ≠ key := by
          intro p inAll same
          rcases List.mem_append.1 inAll with before | behind
          · exact absent (same ▸ List.mem_map_of_mem before)
          · exact once (same ▸ List.mem_map_of_mem behind)
        have split : ∀ p ∈ table ++ (key, name) :: pairs, p = (key, name) ∨ p ∈ table ++ pairs := by
          intro p inAll
          simp only [List.mem_append, List.mem_cons] at inAll ⊢
          tauto
        rcases split p inAll with rfl | others
        · rcases split q inAll' with rfl | others'
          · exact ⟨fun _ => rfl, fun _ => rfl⟩
          · exact ⟨fun same => absurd same.symm (keysApart q others'),
              fun same => absurd same.symm (newer q others')⟩
        · rcases split q inAll' with rfl | others'
          · exact ⟨fun same => absurd same (keysApart p others),
              fun same => absurd same (newer p others)⟩
          · exact consistent p others q others'

end Consistency

end Nytrix.Lib.BoundedTable
