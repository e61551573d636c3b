import Mathlib.Data.List.Infix
import Mathlib.Tactic.Common

/-! Paths as texts, and the places they lead to when they are walked by their components alone. -/

namespace Nytrix.Lib.Paths

/-- A text, as the list of its characters. -/
abbrev Text := List Char

section Walking

/-- The component that stays where it is. -/
def here : Text := ['.']

/-- The component that goes one directory up. -/
def parent : Text := ['.', '.']

/-- The parts of a path between its separators. -/
def components : Text → List Text
  | [] => [[]]
  | c :: rest =>
    if c = '/' then [] :: components rest
    else
      match components rest with
      | [] => [[c]]
      | first :: others => (c :: first) :: others

/--
Where a path leads: from the top or not, so many directories up, and then down a trail.

The innermost directory stands first on the trail.
-/
structure Place where
  rooted : Bool
  up : Nat
  trail : List Text
  deriving DecidableEq

/-- The place where a relative path starts. -/
def origin : Place := ⟨false, 0, []⟩

/-- Follows one component. -/
def Place.step (place : Place) (component : Text) : Place :=
  if component = [] ∨ component = here then place
  else if component = parent then
    match place.trail with
    | [] => if place.rooted then place else { place with up := place.up + 1 }
    | _ :: outer => { place with trail := outer }
  else { place with trail := component :: place.trail }

/-- Follows components one after the other. -/
def Place.walk (place : Place) (parts : List Text) : Place := parts.foldl Place.step place

/-- The place a path leads to. -/
def normal (path : Text) : Place :=
  Place.walk ⟨path.head? == some '/', 0, []⟩ (components path)

/-- Whether a place is strictly inside another. -/
def Below (root place : Place) : Prop :=
  place.rooted = root.rooted ∧ place.up = root.up ∧
    root.trail <:+ place.trail ∧ root.trail ≠ place.trail

/-- Being strictly inside can be evaluated. -/
instance (root place : Place) : Decidable (Below root place) :=
  inferInstanceAs (Decidable (_ ∧ _ ∧ _ ∧ _))

end Walking

section Joining

attribute [local simp] components

theorem components_ne_nil (path : Text) : components path ≠ [] := by
  cases path with
  | nil => simp [components]
  | cons c rest =>
    rw [components]
    split
    · simp
    · split <;> simp

theorem components_separated (left right : Text) :
    components (left ++ '/' :: right) = components left ++ components right := by
  -- Induction on the left path, whose first character opens a part or lengthens one.
  induction left with
  | nil => simp [components]
  | cons c rest ih =>
    by_cases separates : c = '/'
    · simp only [List.cons_append, components, if_pos separates, ih]
    · simp only [List.cons_append, components, if_neg separates, ih]
      obtain ⟨first, others, parts⟩ := List.exists_cons_of_ne_nil (components_ne_nil rest)
      simp only [parts, List.cons_append]

theorem components_of_single {path : Text} (single : '/' ∉ path) : components path = [path] := by
  induction path with
  | nil => rfl
  | cons c rest ih =>
    have other : c ≠ '/' := fun same => single (same ▸ List.mem_cons_self)
    have inner : '/' ∉ rest := fun member => single (List.mem_cons_of_mem c member)
    simp only [components, if_neg other, ih inner]

theorem components_lengthened (path : Text) :
    ∃ outer last, components path = outer ++ [last] ∧
      ∀ text, '/' ∉ text → components (path ++ text) = outer ++ [last ++ text] := by
  -- Induction on the path: a character opens a part or lengthens the first one.
  induction path with
  | nil => exact ⟨[], [], rfl, fun text single => components_of_single single⟩
  | cons c rest ih =>
    obtain ⟨outer, last, parts, longer⟩ := ih
    by_cases separates : c = '/'
    · refine ⟨[] :: outer, last, ?_, fun text single => ?_⟩
      · simp only [components, if_pos separates, parts, List.cons_append]
      · simp only [List.cons_append, components, if_pos separates, longer text single]
    · cases outer with
      | nil =>
        -- The first part is also the last one.
        refine ⟨[], c :: last, ?_, fun text single => ?_⟩
        · simp only [components, if_neg separates, parts, List.nil_append]
        · simp only [List.cons_append, components, if_neg separates, longer text single,
            List.nil_append]
      | cons first outer =>
        refine ⟨(c :: first) :: outer, last, ?_, fun text single => ?_⟩
        · simp only [components, if_neg separates, parts, List.cons_append]
        · simp only [List.cons_append, components, if_neg separates, longer text single]

theorem normal_append {left right : Text} (opened : left ≠ []) (parts : List Text)
    (longer : components (left ++ right) = components left ++ parts) :
    normal (left ++ right) = (normal left).walk parts := by
  have same : (left ++ right).head? = left.head? := by
    cases left with
    | nil => exact absurd rfl opened
    | cons c rest => rfl
  simp only [normal, same, longer, Place.walk, List.foldl_append]

theorem normal_separated {left : Text} (opened : left ≠ []) (right : Text) :
    normal (left ++ '/' :: right) = (normal left).walk (components right) :=
  normal_append opened _ (components_separated left right)

theorem normal_trailing {left : Text} (opened : left ≠ []) :
    normal (left ++ ['/']) = normal left := by
  rw [normal_separated opened []]
  rfl

theorem normal_behind (left right : Text) :
    normal (left ++ '/' :: right) = (normal (left ++ ['/'])).walk (components right) := by
  by_cases opened : left = []
  · subst opened
    rfl
  · rw [normal_separated opened, normal_trailing opened]

end Joining

section Relative

/-- Follows from a place what leads to another one from the origin. -/
def Place.followed (place reach : Place) : Place :=
  if reach.up ≤ place.trail.length then
    { place with trail := reach.trail ++ place.trail.drop reach.up }
  else if place.rooted then { place with trail := reach.trail }
  else { place with up := place.up + (reach.up - place.trail.length), trail := reach.trail }

theorem Place.step_here {component : Text} (stays : component = [] ∨ component = here)
    (place : Place) : place.step component = place := if_pos stays

theorem Place.step_parent (place : Place) :
    place.step parent =
      match place.trail with
      | [] => if place.rooted then place else { place with up := place.up + 1 }
      | _ :: outer => { place with trail := outer } := by
  rw [Place.step, if_neg (by decide), if_pos rfl]

theorem Place.step_down {component : Text} (stays : ¬(component = [] ∨ component = here))
    (climbs : component ≠ parent) (place : Place) :
    place.step component = { place with trail := component :: place.trail } := by
  rw [Place.step, if_neg stays, if_neg climbs]

theorem Place.followed_parent (place : Place) (up : ℕ) :
    (place.followed ⟨false, up, []⟩).step parent = place.followed ⟨false, up + 1, []⟩ := by
  obtain ⟨rooted, out, trail⟩ := place
  rcases Nat.lt_trichotomy up trail.length with inside | last | outside
  · -- A directory of the first place is left.
    have split : trail.drop up = trail[up] :: trail.drop (up + 1) :=
      List.drop_eq_getElem_cons inside
    simp only [Place.followed, if_pos (Nat.le_of_lt inside), if_pos (Nat.succ_le_of_lt inside),
      List.nil_append, Place.step_parent, split]
  · -- All directories of the first place have just been left.
    subst last
    have beyond : ¬trail.length + 1 ≤ trail.length := by omega
    have left : trail.length + 1 - trail.length = 1 := by omega
    simp only [Place.followed, le_refl, if_true, if_neg beyond, List.nil_append, List.drop_length,
      Place.step_parent, left]
  · -- The way up has passed the first place before.
    have first : ¬up ≤ trail.length := by omega
    have second : ¬up + 1 ≤ trail.length := by omega
    have more : up + 1 - trail.length = up - trail.length + 1 := by omega
    cases rooted with
    | true => simp only [Place.followed, if_neg first, if_neg second, if_true, Place.step_parent]
    | false =>
      simp only [Place.followed, if_neg first, if_neg second, Bool.false_eq_true, if_false,
        Place.step_parent, more, Nat.add_assoc]

theorem Place.followed_step (place reach : Place) (relative : reach.rooted = false)
    (component : Text) :
    (place.followed reach).step component = place.followed (reach.step component) := by
  obtain ⟨rooted, up, trail⟩ := reach
  obtain rfl : rooted = false := relative
  by_cases stays : component = [] ∨ component = here
  · rw [Place.step_here stays, Place.step_here stays]
  by_cases climbs : component = parent
  · subst climbs
    cases trail with
    | nil => exact Place.followed_parent place up
    | cons inner outer =>
      -- The directory that is left belongs to the second way.
      by_cases inside : up ≤ place.trail.length
      · simp only [Place.followed, if_pos inside, Place.step_parent, List.cons_append]
      · cases rooted : place.rooted <;>
          simp only [Place.followed, if_neg inside, Place.step_parent, rooted, if_true,
            Bool.false_eq_true, if_false]
  · rw [Place.step_down stays climbs, Place.step_down stays climbs]
    simp only [Place.followed]
    split <;> [skip; split] <;> rfl

theorem Place.step_rooted (place : Place) (component : Text) :
    (place.step component).rooted = place.rooted := by
  rw [Place.step]
  repeat' split
  all_goals rfl

theorem Place.walk_rooted (place : Place) (parts : List Text) :
    (place.walk parts).rooted = place.rooted := by
  induction parts generalizing place with
  | nil => rfl
  | cons part parts ih => exact (ih _).trans (place.step_rooted part)

theorem Place.walk_eq_followed (place : Place) (parts : List Text) :
    place.walk parts = place.followed (origin.walk parts) := by
  -- Induction on the parts from the last one backwards.
  induction parts using List.reverseRecOn with
  | nil => simp [Place.walk, Place.followed, origin]
  | append_singleton parts part ih =>
    have ends (start : Place) : start.walk (parts ++ [part]) = (start.walk parts).step part := by
      simp only [Place.walk, List.foldl_append, List.foldl_cons, List.foldl_nil]
    rw [ends, ends, ih, Place.followed_step _ _ (Place.walk_rooted origin parts)]

/--
Whether a relative way returns from where it climbs and goes further.

It has to name the directories again that it has left, and at least one directory inside them.
-/
def Returns (place reach : Place) : Prop :=
  (place.rooted = true ∨ reach.up ≤ place.trail.length) ∧
    place.trail.take reach.up <:+ reach.trail ∧ place.trail.take reach.up ≠ reach.trail

/-- Being a way that returns can be evaluated. -/
instance (place reach : Place) : Decidable (Returns place reach) :=
  inferInstanceAs (Decidable (_ ∧ _ ∧ _))

theorem below_followed_iff (place reach : Place) :
    Below place (place.followed reach) ↔ Returns place reach := by
  by_cases inside : reach.up ≤ place.trail.length
  · -- The directories that were not left stand behind both trails.
    have whole := List.take_append_drop reach.up place.trail
    have suffix : place.trail <:+ reach.trail ++ place.trail.drop reach.up ↔
        place.trail.take reach.up <:+ reach.trail := by
      have both : place.trail.take reach.up ++ place.trail.drop reach.up <:+
          reach.trail ++ place.trail.drop reach.up ↔ place.trail.take reach.up <:+ reach.trail :=
        List.suffix_append_self_iff
      rwa [whole] at both
    have equal : place.trail = reach.trail ++ place.trail.drop reach.up ↔
        place.trail.take reach.up = reach.trail := by
      have both : place.trail.take reach.up ++ place.trail.drop reach.up =
          reach.trail ++ place.trail.drop reach.up ↔ place.trail.take reach.up = reach.trail :=
        List.append_left_inj _
      rwa [whole] at both
    have way : place.followed reach =
        { place with trail := reach.trail ++ place.trail.drop reach.up } := if_pos inside
    simp only [way, Below, Returns, inside, or_true, true_and, suffix, ne_eq, equal]
  · -- Every directory was left.
    have whole : place.trail.take reach.up = place.trail := List.take_of_length_le (by omega)
    cases rooted : place.rooted with
    | true =>
      simp only [Below, Place.followed, if_neg inside, rooted, if_true, Returns, whole, true_or,
        true_and]
    | false =>
      have higher : place.up + (reach.up - place.trail.length) ≠ place.up := by omega
      simp only [Below, Place.followed, rooted, Bool.false_eq_true, if_false, Returns, inside,
        or_self, false_and, higher, and_false]

theorem returns_single_iff (place : Place) (component : Text) :
    Returns place (origin.step component) ↔
      component ≠ [] ∧ component ≠ here ∧ component ≠ parent := by
  by_cases stays : component = [] ∨ component = here
  · rw [Place.step_here stays]
    rcases stays with rfl | rfl <;> simp [Returns, origin, here]
  by_cases climbs : component = parent
  · subst climbs
    -- The way up ends where it climbed to.
    have way : origin.step parent = ⟨false, 1, []⟩ := rfl
    simp [way, Returns]
  · rw [Place.step_down stays climbs]
    simp [Returns, origin, climbs, not_or.mp stays]

theorem not_below_lengthened (left : Text) {c : Char} {text : Text} (strange : c ≠ '/' ∧ c ≠ '.')
    (single : '/' ∉ text) : ¬Below (normal (left ++ [c])) (normal (left ++ c :: text)) := by
  obtain ⟨outer, last, _, longer⟩ := components_lengthened left
  have down (ending : Text) (start : Place) :
      start.step (last ++ c :: ending) =
        { start with trail := (last ++ c :: ending) :: start.trail } := by
    have other : ∀ dots : Text, (∀ d ∈ dots, d = '.') → last ++ c :: ending ≠ dots := by
      intro dots only same
      exact strange.2 (only c (same ▸ by simp))
    apply Place.step_down
    · rintro (empty | stays)
      · exact other [] (by simp) empty
      · exact other here (by simp [here]) stays
    · exact other parent (by simp [parent])
  have opens : (left ++ c :: text).head? = (left ++ [c]).head? := by cases left <;> rfl
  have short : components (left ++ [c]) = outer ++ [last ++ c :: []] :=
    longer [c] (by simpa using Ne.symm strange.1)
  have long : components (left ++ c :: text) = outer ++ [last ++ c :: text] :=
    longer (c :: text) (by simpa using ⟨Ne.symm strange.1, single⟩)
  -- Both trails have the same length, so that one is inside the other only if they are equal.
  simp only [Below, normal, opens, short, long, Place.walk, List.foldl_append, List.foldl_cons,
    List.foldl_nil, down, true_and]
  intro ⟨inside, different⟩
  exact different (inside.eq_of_length rfl)

end Relative

end Nytrix.Lib.Paths
