import Mathlib.Data.List.Basic

/-! Depth-first marking of a graph with bounded recursion, and what it marks. -/

namespace Nytrix.Lib

variable {α : Type} [DecidableEq α]

/-- Marks a node and then, one after the other, the nodes it leads to; a marked node is passed. -/
def visit (next : α → List α) : Nat → List α → α → List α
  | 0, marks, _ => marks
  | fuel + 1, marks, a =>
    if a ∈ marks then marks else (next a).foldl (visit next fuel) (a :: marks)

/-- A node is met: it is a start, or a met node that was not marked before leads to it. -/
inductive Met (next : α → List α) (marked start : α → Prop) : α → Prop
  | start {a : α} (first : start a) : Met next marked start a
  | next {a b : α} (met : Met next marked start a) (unmarked : ¬ marked a) (leads : b ∈ next a) :
      Met next marked start b

section Visit

variable {next : α → List α} {nodes marks starts : List α} {fuel : Nat} {a : α}

theorem visit_invariant {keeps : List α → Prop} (closed : ∀ a ∈ nodes, ∀ b ∈ next a, b ∈ nodes)
    (mark : ∀ marks a, a ∈ nodes → keeps marks → keeps (a :: marks)) (member : a ∈ nodes)
    (start : keeps marks) : keeps (visit next fuel marks a) := by
  induction fuel generalizing marks a with
  | zero => exact start
  | succ fuel ih =>
    rw [visit]
    split
    · exact start
    · -- The nodes it leads to are visited in turn, each with the marks of those before.
      have leads := closed a member
      generalize next a = rest at leads
      have begin := mark marks a member start
      generalize a :: marks = marks at begin
      induction rest generalizing marks with
      | nil => exact begin
      | cons b rest more =>
        exact more (fun d later => leads d (by simp [later])) _ (ih (leads b (by simp)) begin)

/-- The nodes that have no mark. -/
def unmarked (nodes marks : List α) : List α := nodes.filter fun a => a ∉ marks

theorem unmarked_cons_lt (member : a ∈ nodes) (fresh : a ∉ marks) :
    (unmarked nodes (a :: marks)).length < (unmarked nodes marks).length := by
  -- Marking the node filters the unmarked ones once more, and the node itself is lost.
  have filtered : unmarked nodes (a :: marks) = (unmarked nodes marks).filter fun b => b ≠ a := by
    simp only [unmarked, List.filter_filter, List.mem_cons, not_or]
    congr 1
    funext b
    simp [Bool.decide_and]
  rw [filtered, List.length_filter_lt_length_iff_exists]
  exact ⟨a, List.mem_filter.mpr ⟨member, by simpa using fresh⟩, by simp⟩

theorem unmarked_length_le {marks' : List α} (more : marks ⊆ marks') :
    (unmarked nodes marks').length ≤ (unmarked nodes marks).length := by
  refine List.Sublist.length_le (List.monotone_filter_right nodes fun b fresh => ?_)
  simp only [decide_eq_true_eq] at fresh ⊢
  exact fun marked => fresh (more marked)

/-- What marking from some nodes achieves. -/
structure Marks (next : α → List α) (marks starts result : List α) : Prop where
  kept : marks ⊆ result
  started : ∀ a ∈ starts, a ∈ result
  closed : ∀ a ∈ result, a ∉ marks → ∀ b ∈ next a, b ∈ result
  met : ∀ a ∈ result, a ∈ marks ∨ Met next (· ∈ marks) (· ∈ starts) a

omit [DecidableEq α] in
/-- What is met with more marks and fewer starts is met. -/
theorem Met.mono {marked marked' start start' : α → Prop} (marks : ∀ a, marked' a → marked a)
    (starts : ∀ a, start a → Met next marked' start' a) (met : Met next marked start a) :
    Met next marked' start' a := by
  induction met with
  | start first => exact starts _ first
  | next _ fresh leads ih => exact .next ih (fun seen => fresh (marks _ seen)) leads

omit [DecidableEq α] in
/-- Nodes that are marked already need nothing. -/
theorem Marks.done (seen : ∀ a ∈ starts, a ∈ marks) : Marks next marks starts marks :=
  ⟨fun _ => id, seen, fun _ marked fresh => absurd marked fresh, fun _ => .inl⟩

theorem Marks.cons {first final : List α} (head : Marks next marks [a] first)
    (tail : Marks next first starts final) : Marks next marks (a :: starts) final where
  kept := fun _ member => tail.kept (head.kept member)
  started := by
    intro b member
    rcases List.mem_cons.mp member with rfl | later
    · exact tail.kept (head.started b (by simp))
    · exact tail.started b later
  closed := by
    intro b member fresh c leads
    by_cases early : b ∈ first
    · exact tail.kept (head.closed b early fresh c leads)
    · exact tail.closed b member early c leads
  met := by
    intro b member
    have widen : ∀ c, Met next (· ∈ marks) (· ∈ [a]) c → Met next (· ∈ marks) (· ∈ a :: starts) c :=
      fun c => Met.mono (fun _ => id) fun d first => .start (by simp_all)
    rcases tail.met b member with early | later
    · exact (head.met b early).imp id (widen b)
    · exact .inr (later.mono (fun c marked => head.kept marked) fun c first => .start (by simp [first]))

theorem marks_foldl {nodes : List α} (step : ∀ marks a, a ∈ nodes →
      (unmarked nodes marks).length ≤ fuel → Marks next marks [a] (visit next fuel marks a))
    (inside : ∀ a ∈ starts, a ∈ nodes) (enough : (unmarked nodes marks).length ≤ fuel) :
    Marks next marks starts (starts.foldl (visit next fuel) marks) := by
  induction starts generalizing marks with
  | nil => exact .done (by simp)
  | cons a starts ih =>
    have head := step marks a (inside a (by simp)) enough
    refine head.cons (ih (fun b member => inside b (by simp [member])) ?_)
    exact Nat.le_trans (unmarked_length_le head.kept) enough

theorem marks_visit (closed : ∀ a ∈ nodes, ∀ b ∈ next a, b ∈ nodes) (fuel : Nat) (marks : List α)
    (a : α) (member : a ∈ nodes) (enough : (unmarked nodes marks).length ≤ fuel) :
    Marks next marks [a] (visit next fuel marks a) := by
  induction fuel generalizing marks a with
  | zero =>
    have none : unmarked nodes marks = [] := List.length_eq_zero_iff.mp (Nat.le_zero.mp enough)
    -- No node is left unmarked, so there is nothing to do.
    have seen : a ∈ marks := Classical.byContradiction fun fresh => by
      have listed : a ∈ unmarked nodes marks := List.mem_filter.mpr ⟨member, by simpa using fresh⟩
      simp [none] at listed
    exact .done (by simpa using seen)
  | succ fuel ih =>
    by_cases seen : a ∈ marks
    · rw [visit, if_pos seen]
      exact .done (by simpa using seen)
    · rw [visit, if_neg seen]
      have fewer := unmarked_cons_lt member seen
      -- The nodes it leads to are marked with the node itself already marked.
      have rest : Marks next (a :: marks) (next a)
          ((next a).foldl (visit next fuel) (a :: marks)) :=
        marks_foldl (fun marks b => ih marks b) (closed a member) (by omega)
      have self : Met next (· ∈ marks) (· ∈ [a]) a := .start (by simp)
      refine ⟨fun b marked => rest.kept (by simp [marked]), ?_, ?_, ?_⟩
      · simpa using rest.kept (by simp)
      · intro b marked fresh c leads
        by_cases same : b = a
        · subst same
          exact rest.started c leads
        · exact rest.closed b marked (by simp [same, fresh]) c leads
      · intro b marked
        rcases rest.met b marked with early | later
        · rcases List.mem_cons.mp early with rfl | early
          · exact .inr self
          · exact .inl early
        · refine .inr (later.mono (fun c early => List.mem_cons_of_mem _ early) fun c leads => ?_)
          exact .next self seen leads

theorem mem_foldl_visit (closed : ∀ a ∈ nodes, ∀ b ∈ next a, b ∈ nodes)
    (inside : ∀ a ∈ starts, a ∈ nodes) (enough : (unmarked nodes marks).length ≤ fuel) :
    a ∈ starts.foldl (visit next fuel) marks ↔
      a ∈ marks ∨ Met next (· ∈ marks) (· ∈ starts) a := by
  have result := marks_foldl (marks_visit closed fuel) inside enough
  refine ⟨result.met a, ?_⟩
  rintro (marked | met)
  · exact result.kept marked
  · induction met with
    | start first => exact result.started _ first
    | next _ fresh leads ih => exact result.closed _ ih fresh _ leads

end Visit

end Nytrix.Lib
