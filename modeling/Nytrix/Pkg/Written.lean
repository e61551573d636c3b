import Nytrix.Pkg.Quoted
import Mathlib.Data.List.TakeWhile

/-! Dependencies as they are written: their braces match, and they are read one after the other. -/

-- What holds of all members of a list is decided member by member.
attribute [local instance (2000)] List.decidableBAll

namespace Nytrix.Pkg

open Lib.Paths (Text)

section Braces

attribute [local simp] matchingBrace

/-- A character before what a search for a brace gives. -/
def onward (c : Char) (out : Option (Text × Text)) : Option (Text × Text) :=
  out.map fun out => (c :: out.1, out.2)

theorem matchingBrace_other {c : Char} (quote : c ≠ '"') (opening : c ≠ '\x7b')
    (closing : c ≠ '\x7d') (depth : Int) (t : Text) :
    matchingBrace ⟨depth, false, false⟩ (c :: t) =
      onward c (matchingBrace ⟨depth, false, false⟩ t) := by
  simp [matchingBrace, onward, quote, opening, closing]

theorem matchingBrace_quote (depth : Int) (t : Text) :
    matchingBrace ⟨depth, false, false⟩ ('"' :: t) =
      onward '"' (matchingBrace ⟨depth, true, false⟩ t) := by
  simp [matchingBrace, onward]

theorem matchingBrace_open (depth : Int) (t : Text) :
    matchingBrace ⟨depth, false, false⟩ ('\x7b' :: t) =
      onward '\x7b' (matchingBrace ⟨depth + 1, false, false⟩ t) := by
  simp [matchingBrace, onward]

theorem matchingBrace_close {depth : Int} (deep : 1 ≤ depth) (t : Text) :
    matchingBrace ⟨depth + 1, false, false⟩ ('\x7d' :: t) =
      onward '\x7d' (matchingBrace ⟨depth, false, false⟩ t) := by
  have inner : depth ≠ 0 := by omega
  simp [matchingBrace, onward, inner]

theorem matchingBrace_escaped (c : Char) (depth : Int) (t : Text) :
    matchingBrace ⟨depth, true, false⟩ ('\\' :: c :: t) =
      onward '\\' (onward c (matchingBrace ⟨depth, true, false⟩ t)) := by
  rw [matchingBrace.eq_def]
  simp only [onward, if_true, if_false, Bool.false_eq_true]
  rw [matchingBrace.eq_def]
  simp only [if_true]

theorem matchingBrace_in {c : Char} (quote : c ≠ '"') (slash : c ≠ '\\') (depth : Int) (t : Text) :
    matchingBrace ⟨depth, true, false⟩ (c :: t) =
      onward c (matchingBrace ⟨depth, true, false⟩ t) := by
  simp [matchingBrace, onward, quote, slash]

theorem matchingBrace_unquote (depth : Int) (t : Text) :
    matchingBrace ⟨depth, true, false⟩ ('"' :: t) =
      onward '"' (matchingBrace ⟨depth, false, false⟩ t) := by
  simp [matchingBrace, onward]

/-- Text before what a search for a brace gives. -/
def onwards (s : Text) (out : Option (Text × Text)) : Option (Text × Text) :=
  out.map fun out => (s ++ out.1, out.2)

@[simp] theorem onwards_nil (out : Option (Text × Text)) : onwards [] out = out := by
  cases out <;> rfl

@[simp] theorem onwards_cons (c : Char) (s : Text) (out : Option (Text × Text)) :
    onwards (c :: s) out = onward c (onwards s out) := by
  cases out <;> rfl

@[simp] theorem onwards_append (s s' : Text) (out : Option (Text × Text)) :
    onwards (s ++ s') out = onwards s (onwards s' out) := by
  cases out <;> simp [onwards]

/-- Whether a text between braces is passed over whole. -/
def Balanced (s : Text) : Prop :=
  ∀ depth : Int, 1 ≤ depth → ∀ t, matchingBrace ⟨depth, false, false⟩ (s ++ t) =
    onwards s (matchingBrace ⟨depth, false, false⟩ t)

theorem balanced_nil : Balanced [] := fun depth deep t => by
  rw [onwards_nil, List.nil_append]

theorem Balanced.append {s s' : Text} (first : Balanced s) (second : Balanced s') :
    Balanced (s ++ s') := fun depth deep t => by
  rw [List.append_assoc, first depth deep, second depth deep, onwards_append]

theorem balanced_gap {gap : Text} (clean : '"' ∉ gap ∧ '\x7b' ∉ gap ∧ '\x7d' ∉ gap) :
    Balanced gap := by
  induction gap with
  | nil => exact balanced_nil
  | cons c gap ih =>
    intro depth deep t
    simp only [List.mem_cons, not_or] at clean
    have rest := ih ⟨clean.1.2, clean.2.1.2, clean.2.2.2⟩ depth deep t
    rw [List.cons_append, matchingBrace_other (Ne.symm clean.1.1) (Ne.symm clean.2.1.1)
      (Ne.symm clean.2.2.1), rest, onwards_cons]

theorem matchingBrace_inside (v : Text) (depth : Int) (t : Text) :
    matchingBrace ⟨depth, true, false⟩ (inside v ++ t) =
      onwards (inside v) (matchingBrace ⟨depth, true, false⟩ t) := by
  induction v with
  | nil => rw [inside_nil, List.nil_append, onwards_nil]
  | cons c v ih =>
    rw [inside_cons, List.append_assoc, onwards_append, ← ih]
    rcases escaped_cases c with ⟨_, written⟩ | ⟨_, written⟩ | ⟨⟨quote, slash, _⟩, written⟩
    · rw [written, List.cons_append, List.cons_append, List.nil_append, matchingBrace_escaped]
      simp
    · rw [written, List.cons_append, List.cons_append, List.nil_append, matchingBrace_escaped]
      simp
    · rw [written, List.cons_append, List.nil_append, matchingBrace_in quote slash]
      simp

theorem balanced_str (v : Text) : Balanced (nyPkgJsonStr v) := fun depth deep t => by
  have whole : nyPkgJsonStr v = '"' :: (inside v ++ ['"']) := rfl
  rw [nyPkgJsonStr_append, matchingBrace_quote, matchingBrace_inside, matchingBrace_unquote, whole]
  simp

theorem Balanced.braces {s : Text} (balanced : Balanced s) :
    Balanced ('\x7b' :: (s ++ ['\x7d'])) := fun depth deep t => by
  rw [List.cons_append, List.append_assoc, matchingBrace_open, balanced (depth + 1) (by omega),
    List.cons_append, List.nil_append, matchingBrace_close deep]
  simp

theorem nyPkgFindMatchingBrace_balanced {s : Text} (balanced : Balanced s) (t : Text) :
    nyPkgFindMatchingBrace ('\x7b' :: (s ++ '\x7d' :: t)) = some ('\x7b' :: s, t) := by
  have closed : matchingBrace ⟨0 + 1, false, false⟩ ('\x7d' :: t) = some ([], t) := by
    simp [matchingBrace]
  rw [nyPkgFindMatchingBrace, matchingBrace_open, balanced (0 + 1) (by omega), closed]
  simp [onward, onwards]

end Braces

section Deps

/-- The inside of the object of a dependency. -/
def objectText (d : Dep) : Text :=
  nyPkgJsonStr "source".toList ++ (": ".toList ++ (nyPkgJsonStr d.source ++
    jsonTail ", \"ref\": " d.ref))

/-- A dependency as it is written, without the blanks before it. -/
def depCore (d : Dep) : Text :=
  nyPkgJsonStr d.name ++ (": ".toList ++ '\x7b' :: (objectText d ++ ['\x7d']))

/-- A dependency as it comes back. -/
def Dep.flat (d : Dep) : Dep := ⟨d.name, d.source.map Pkg.flat, d.ref.map (List.map Pkg.flat)⟩

/-- Whether a dependency has the form that splitting gives a source and a reference. -/
structure Dep.IsSplit (d : Dep) : Prop where
  /-- Nothing stands behind a hash of the source. -/
  source : (d.source.dropWhile fun c => c ≠ '#').drop 1 = []
  /-- A reference is not empty. -/
  ref : d.ref ≠ some []

theorem jsonTail_cases (d : Dep) (split : d.IsSplit) :
    d.ref = none ∧ jsonTail ", \"ref\": " d.ref = [] ∨
      ∃ r, d.ref = some r ∧ jsonTail ", \"ref\": " d.ref =
        ", ".toList ++ (nyPkgJsonStr "ref".toList ++ (": ".toList ++ (nyPkgJsonStr r ++ []))) := by
  cases ref : d.ref with
  | none => exact .inl ⟨rfl, rfl⟩
  | some r =>
    have some_ : r ≠ [] := fun none_ => split.ref (none_ ▸ ref)
    refine .inr ⟨r, rfl, ?_⟩
    rw [jsonTail, if_neg some_, List.append_nil]
    rfl

theorem balanced_object (d : Dep) (split : d.IsSplit) : Balanced (objectText d) := by
  have blank : Balanced ": ".toList := balanced_gap (by decide)
  refine (balanced_str _).append (blank.append ((balanced_str _).append ?_))
  rcases jsonTail_cases d split with ⟨_, tail⟩ | ⟨r, _, tail⟩
  · rw [tail]
    exact balanced_nil
  · rw [tail]
    have comma : Balanced ", ".toList := balanced_gap (by decide)
    exact comma.append ((balanced_str _).append (blank.append ((balanced_str r).append
      balanced_nil)))

theorem sourceOfObject_object (d : Dep) (split : d.IsSplit) :
    sourceOfObject ('\x7b' :: objectText d) =
      (some (d.source.map flat), d.ref.map (List.map flat)) := by
  have value (key : String) (isKey : IsKey key.toList) :
      nyPkgJsonObjectString ('\x7b' :: objectText d) key.toList =
        valueOf key.toList (objectText d) := by
    rw [nyPkgJsonObjectString_eq isKey]
    have brace : '"' ∉ ['\x7b'] := by decide
    exact valueOf_gap brace _
  have source : valueOf "source".toList (objectText d) = some (d.source.map flat) :=
    valueOf_here (by decide) _ _
  -- Any other key is searched for behind the source.
  have behind (key : String) (isKey : IsKey key.toList)
      (other : looksLike key.toList "source".toList = false) : valueOf key.toList (objectText d) =
        valueOf key.toList (jsonTail ", \"ref\": " d.ref) := by
    have colon : Stops (": ".toList ++ (nyPkgJsonStr d.source ++ jsonTail ", \"ref\": " d.ref)) :=
      stops_cons (c := ':') (by decide)
    rw [objectText, valueOf_other isKey colon other, valueOf_gap (by decide)]
    rcases jsonTail_cases d split with ⟨_, tail⟩ | ⟨r, _, tail⟩
    · rw [tail]
      exact valueOf_str isKey nofun nofun
    · rw [tail]
      exact valueOf_str isKey (stops_cons (c := ',') (by decide)) nofun
  unfold sourceOfObject
  dsimp only
  rw [value "source" (by decide), source, value "ref" (by decide), value "version" (by decide),
    behind "ref" (by decide) (by decide), behind "version" (by decide) (by decide)]
  rcases jsonTail_cases d split with ⟨none_, tail⟩ | ⟨r, some_, tail⟩
  · rw [tail, none_]
    rfl
  · have ref : valueOf "ref".toList (", ".toList ++ (nyPkgJsonStr "ref".toList ++
        (": ".toList ++ (nyPkgJsonStr r ++ [])))) = some (r.map flat) := by
      rw [valueOf_gap (by decide), valueOf_here (by decide)]
    rw [tail, some_, ref]
    rfl

theorem nyPkgSplitSourceRef_flat (d : Dep) (split : d.IsSplit) :
    nyPkgSplitSourceRef (d.source.map flat) (d.ref.map (List.map flat)) =
      (d.source.map flat, d.ref.map (List.map flat)) := by
  have hash (c : Char) : (flat c ≠ '#') = (c ≠ '#') := by
    unfold flat
    split
    · next break_ => simp [break_]
    · rfl
  have behind : ((d.source.map flat).dropWhile fun c => c ≠ '#').drop 1 = [] := by
    rw [List.dropWhile_map]
    have same : ((fun c => decide (c ≠ '#')) ∘ flat) = fun c => decide (c ≠ '#') := by
      funext c
      simp only [Function.comp_apply, hash]
    rw [same, ← List.map_drop, split.source]
    rfl
  unfold nyPkgSplitSourceRef
  rw [behind, if_neg (by simp)]
  cases ref : d.ref with
  | none => rfl
  | some r =>
    have some_ : r ≠ [] := fun none_ => split.ref (none_ ▸ ref)
    simp [some_]

end Deps

section Reading

theorem flat_name {name : Text} (ok : nyPkgNameOk name = true) : name.map flat = name := by
  rw [flat_eq_iff]
  intro break_
  rw [nyPkgNameOk, Bool.and_eq_true, List.all_eq_true] at ok
  exact absurd (ok.2 _ break_) (by decide)

/-- The dependencies with one that has come back, which is lost if it has no source. -/
def received (items : List Dep) (d : Dep) : List Dep :=
  if d.source = [] then items else nyPkgManifestPush items d.name d.flat.source d.flat.ref

theorem jsonDeps_dep {d : Dep} (ok : nyPkgNameOk d.name = true) (split : d.IsSplit) {ws : Text}
    (blank : ∀ c ∈ ws, isSpace c = true) (fuel : ℕ) (items : List Dep) (t : Text) :
    jsonDeps (fuel + 1) items (ws ++ (depCore d ++ t)) = jsonDeps fuel (received items d) t := by
  have core : depCore d ++ t =
      nyPkgJsonStr d.name ++ (':' :: ' ' :: '\x7b' :: (objectText d ++ '\x7d' :: t)) := by
    rw [depCore, List.append_assoc]
    congr 1
    show ':' :: ' ' :: '\x7b' :: ((objectText d ++ ['\x7d']) ++ t) = _
    rw [List.append_assoc]
    rfl
  have opening : (ws ++ (depCore d ++ t)).dropWhile isSpace = depCore d ++ t := by
    rw [List.dropWhile_append_of_pos blank, core, nyPkgJsonStr_append]
    rfl
  have braces := nyPkgFindMatchingBrace_balanced (balanced_object d split) t
  have source : d.source.map flat = [] ↔ d.source = [] := List.map_eq_nil_iff
  rw [jsonDeps, opening, core]
  split
  · next nothing =>
    rw [nyPkgJsonStr_append] at nothing
    cases nothing
  · next comma =>
    rw [nyPkgJsonStr_append] at comma
    exact absurd comma (by simp)
  · rw [nyPkgParseJsonString_str, flat_name ok]
    have colon (s : Text) : (':' :: s).dropWhile isSpace = ':' :: s := rfl
    have brace (s : Text) : (' ' :: '\x7b' :: s).dropWhile isSpace = '\x7b' :: s := rfl
    dsimp only
    rw [colon]
    -- The text goes on with a colon and an object.
    split
    · next value same =>
      obtain rfl := (List.cons.inj same).2
      rw [brace]
      split
      · next text other => exact absurd (List.cons.inj other).1 (by decide)
      · next inner same =>
        obtain rfl := (List.cons.inj same).2
        rw [braces]
        dsimp only
        rw [sourceOfObject_object d split]
        dsimp only
        unfold received
        by_cases none_ : d.source = []
        · simp [none_]
        · have some_ : d.source.map flat ≠ [] := fun h => none_ (source.mp h)
          rw [if_pos ⟨some_, ok⟩, if_neg none_, nyPkgSplitSourceRef_flat d split]
          rfl
      · next other => exact absurd rfl (other _)
    · next other => exact absurd rfl (other _)

theorem jsonDeps_comma (fuel : ℕ) (items : List Dep) (t : Text) :
    jsonDeps (fuel + 1) items (',' :: t) = jsonDeps fuel items t := rfl

theorem jsonDeps_blank {ws : Text} (blank : ∀ c ∈ ws, isSpace c = true) (fuel : ℕ)
    (items : List Dep) : jsonDeps fuel items ws = items := by
  cases fuel with
  | zero => rfl
  | succ fuel =>
    have nothing : ws.dropWhile isSpace = [] := by
      rw [List.dropWhile_eq_nil_iff]
      exact blank
    rw [jsonDeps, nothing]

/-- The lines of dependencies. -/
def itemsText (items : List Dep) : Text :=
  commaLines (items.map fun d => "    ".toList ++ depCore d)

theorem itemsText_one (d : Dep) :
    itemsText [d] = "    ".toList ++ (depCore d ++ "\n".toList) := by
  simp [itemsText, commaLines]

theorem itemsText_cons (d d' : Dep) (items : List Dep) :
    itemsText (d :: d' :: items) =
      "    ".toList ++ (depCore d ++ (",\n".toList ++ itemsText (d' :: items))) := by
  simp [itemsText, commaLines]

theorem balanced_items {items : List Dep} (split : ∀ d ∈ items, d.IsSplit) :
    Balanced (itemsText items) := by
  have blank : Balanced "    ".toList := balanced_gap (by decide)
  have core (d : Dep) (split : d.IsSplit) : Balanced (depCore d) := by
    have colon : Balanced ": ".toList := balanced_gap (by decide)
    exact (balanced_str d.name).append (colon.append (balanced_object d split).braces)
  induction items with
  | nil => exact balanced_nil
  | cons d items ih =>
    have first := core d (split d List.mem_cons_self)
    cases items with
    | nil =>
      rw [itemsText_one]
      exact blank.append (first.append (balanced_gap (by decide)))
    | cons d' items =>
      have comma : Balanced ",\n".toList := balanced_gap (by decide)
      rw [itemsText_cons]
      exact blank.append (first.append (comma.append
        (ih fun d among => split d (List.mem_cons_of_mem _ among))))

theorem length_items (items : List Dep) : 2 * items.length ≤ (itemsText items).length := by
  induction items with
  | nil => exact Nat.zero_le _
  | cons d items ih =>
    cases items with
    | nil =>
      rw [itemsText_one]
      simp
    | cons d' items =>
      rw [itemsText_cons]
      simp only [List.length_append, List.length_cons] at ih ⊢
      have blank : "    ".toList.length = 4 := rfl
      omega

theorem jsonDeps_items {items : List Dep}
    (each : ∀ d ∈ items, nyPkgNameOk d.name = true ∧ d.IsSplit) {fuel : ℕ}
    (enough : 2 * items.length ≤ fuel) {ws : Text} (blank : ∀ c ∈ ws, isSpace c = true)
    (acc : List Dep) :
    jsonDeps fuel acc (ws ++ (itemsText items ++ "  ".toList)) = items.foldl received acc := by
  induction items generalizing fuel ws acc with
  | nil => exact jsonDeps_blank (by simpa [itemsText, commaLines, or_imp, forall_and] using
      ⟨blank, by decide⟩) fuel acc
  | cons d items ih =>
    obtain ⟨ok, split⟩ := each d List.mem_cons_self
    simp only [List.length_cons] at enough
    obtain ⟨fuel, rfl⟩ : ∃ fuel', fuel = fuel' + 1 := ⟨fuel - 1, by omega⟩
    have indent : ∀ c ∈ ws ++ "    ".toList, isSpace c = true := by
      intro c among
      rcases List.mem_append.mp among with before | behind
      · exact blank c before
      · exact (by decide : ∀ c ∈ "    ".toList, isSpace c = true) c behind
    have rest : ∀ d ∈ items, nyPkgNameOk d.name = true ∧ d.IsSplit := fun d among =>
      each d (List.mem_cons_of_mem _ among)
    cases items with
    | nil =>
      have text : ws ++ (itemsText [d] ++ "  ".toList) =
          (ws ++ "    ".toList) ++ (depCore d ++ ("\n".toList ++ "  ".toList)) := by
        rw [itemsText_one]
        simp only [List.append_assoc]
      rw [text, jsonDeps_dep ok split indent, jsonDeps_blank (by decide)]
      rfl
    | cons d' items =>
      have text : ws ++ (itemsText (d :: d' :: items) ++ "  ".toList) =
          (ws ++ "    ".toList) ++ (depCore d ++ (',' ::
            ("\n".toList ++ (itemsText (d' :: items) ++ "  ".toList)))) := by
        rw [itemsText_cons]
        simp only [List.append_assoc]
        rfl
      simp only [List.length_cons] at enough
      obtain ⟨fuel, rfl⟩ : ∃ fuel', fuel = fuel' + 1 := ⟨fuel - 1, by omega⟩
      rw [text, jsonDeps_dep ok split indent, jsonDeps_comma, 
        ih rest (by rw [List.length_cons]; omega) (by decide)]
      rfl

theorem received_all {items : List Dep} (distinct : (items.map Dep.name).Nodup) (acc : List Dep)
    (split : ∀ d ∈ items, d.IsSplit) (apart : ∀ d ∈ items, ∀ d' ∈ acc, d'.name ≠ d.name) :
    items.foldl received acc =
      acc ++ (items.filter fun d => d.source ≠ []).map Dep.flat := by
  induction items generalizing acc with
  | nil => simp
  | cons d items ih =>
    rw [List.map_cons, List.nodup_cons] at distinct
    have fresh : ∀ d' ∈ items, d.name ≠ d'.name := fun d' among same =>
      distinct.1 (same ▸ List.mem_map_of_mem among)
    have unknown : ¬(acc.any fun d' => d'.name = d.name) = true := by
      rw [List.any_eq_true]
      rintro ⟨d', before, same⟩
      exact apart d List.mem_cons_self d' before (of_decide_eq_true same)
    have given_ : d.flat.ref.filter (fun ref => ref ≠ []) = d.flat.ref := by
      have some_ := (split d List.mem_cons_self).ref
      show (d.ref.map (List.map flat)).filter _ = d.ref.map (List.map flat)
      cases ref : d.ref with
      | none => rfl
      | some r =>
        have full : r ≠ [] := fun none_ => some_ (none_ ▸ ref)
        simp [full]
    have others : ∀ d' ∈ items, d'.IsSplit := fun d' among => split d' (List.mem_cons_of_mem d among)
    rw [List.foldl_cons, received]
    by_cases none_ : d.source = []
    · rw [if_pos none_, ih distinct.2 acc others fun d' among => apart d' (List.mem_cons_of_mem d among),
        List.filter_cons_of_neg (by simpa using none_)]
    · have new : nyPkgManifestPush acc d.name d.flat.source d.flat.ref = acc ++ [d.flat] := by
        rw [nyPkgManifestPush, given_, if_neg unknown]
        rfl
      rw [if_neg none_, new, ih distinct.2 _ others, List.filter_cons_of_pos (by simpa using none_)]
      · simp
      · intro d' among d'' member
        rcases List.mem_append.mp member with before | here
        · exact apart d' (List.mem_cons_of_mem d among) d'' before
        · obtain rfl := List.mem_singleton.mp here
          exact fresh d' among

end Reading

end Nytrix.Pkg
