import Nytrix.Pkg.Written

/-! The fields of a written manifest: how they are found, and what may hide the dependencies. -/

-- What holds of all members of a list is decided member by member.
attribute [local instance (2000)] List.decidableBAll

namespace Nytrix.Pkg

open Lib.Paths (Text)

section Fields

/-- The fields of a manifest that are written, in order. -/
def headerPairs (m : Manifest) : List (String × Text) :=
  [("schema", "ny.pkg.v1".toList), ("name", if m.name = [] then "app".toList else m.name)] ++
    [("version", m.version), ("description", m.description), ("author", m.author),
      ("license", m.license), ("repository", m.repository)].filter fun pair => pair.2 ≠ []

/-- A field as it is written. -/
def pairText (pair : String × Text) : Text :=
  "  ".toList ++ (nyPkgJsonStr pair.1.toList ++ (": ".toList ++ (nyPkgJsonStr pair.2 ++
    ",\n".toList)))

/-- The inside of the object of dependencies. -/
def depsInner (items : List Dep) : Text := "\n".toList ++ (itemsText items ++ "  ".toList)

/-- The object of dependencies as it is written. -/
def depsText (items : List Dep) : Text :=
  "  ".toList ++ (nyPkgJsonStr "dependencies".toList ++ (": ".toList ++
    '\x7b' :: (depsInner items ++ '\x7d' :: "\n\x7d\n".toList)))

theorem nyPkgJsonStr_key {key : Text} (isKey : IsKey key) : nyPkgJsonStr key = keyText key := by
  show '"' :: (inside key ++ ['"']) = _
  rw [inside_plain isKey.plain, keyText]

theorem nyPkgWriteJsonField_eq {key : String} (isKey : IsKey key.toList) (value : Text) :
    nyPkgWriteJsonField key value =
      ([(key, value)].filter fun pair => pair.2 ≠ []).flatMap pairText := by
  unfold nyPkgWriteJsonField
  by_cases none_ : value = []
  · simp [none_]
  · simp [none_, pairText, nyPkgJsonStr_key isKey, keyText]

theorem opening_eq :
    "\x7b\n  \"schema\": \"ny.pkg.v1\",\n  \"name\": ".toList =
      "\x7b\n".toList ++ (pairText ("schema", "ny.pkg.v1".toList) ++
        ("  ".toList ++ (nyPkgJsonStr "name".toList ++ ": ".toList))) := by
  decide

theorem depLine_eq (d : Dep) :
    "    ".toList ++ nyPkgJsonStr d.name ++ ": \x7b\"source\": ".toList ++
        nyPkgJsonStr d.source ++ jsonTail ", \"ref\": " d.ref ++ "\x7d".toList =
      "    ".toList ++ depCore d := by
  have source : ": \x7b\"source\": ".toList =
      ": ".toList ++ '\x7b' :: (nyPkgJsonStr "source".toList ++ ": ".toList) := by decide
  rw [source, depCore, objectText]
  simp only [List.append_assoc, List.cons_append]
  rfl

theorem dependencies_eq :
    "  \"dependencies\": \x7b\n".toList =
      "  ".toList ++ (nyPkgJsonStr "dependencies".toList ++ (": ".toList ++
        '\x7b' :: "\n".toList)) := by
  decide

theorem optional_eq (m : Manifest) :
    ([("version", m.version), ("description", m.description), ("author", m.author),
      ("license", m.license), ("repository", m.repository)].filter fun pair =>
        pair.2 ≠ []).flatMap pairText =
      nyPkgWriteJsonField "version" m.version ++
        (nyPkgWriteJsonField "description" m.description ++
          (nyPkgWriteJsonField "author" m.author ++
            (nyPkgWriteJsonField "license" m.license ++
              nyPkgWriteJsonField "repository" m.repository))) := by
  rw [nyPkgWriteJsonField_eq (by decide), nyPkgWriteJsonField_eq (by decide),
    nyPkgWriteJsonField_eq (by decide), nyPkgWriteJsonField_eq (by decide),
    nyPkgWriteJsonField_eq (by decide)]
  simp only [← List.flatMap_append, ← List.filter_append]
  rfl

theorem manifestText_eq (m : Manifest) :
    manifestText m =
      "\x7b\n".toList ++ ((headerPairs m).flatMap pairText ++ depsText m.items) := by
  have items : commaLines (m.items.map fun d =>
      "    ".toList ++ nyPkgJsonStr d.name ++ ": \x7b\"source\": ".toList ++
        nyPkgJsonStr d.source ++ jsonTail ", \"ref\": " d.ref ++ "\x7d".toList) =
      itemsText m.items := by
    rw [itemsText]
    congr 1
    exact List.map_congr_left fun d _ => depLine_eq d
  have last : "  \x7d\n\x7d\n".toList = "  ".toList ++ '\x7d' :: "\n\x7d\n".toList := by decide
  have named (name : Text) : pairText ("name", name) = "  ".toList ++
      (nyPkgJsonStr "name".toList ++ (": ".toList ++ (nyPkgJsonStr name ++ ",\n".toList))) := rfl
  unfold manifestText
  rw [items, opening_eq, dependencies_eq, last, headerPairs, List.flatMap_append, optional_eq,
    depsText, depsInner]
  simp only [List.flatMap_cons, List.flatMap_nil, List.append_assoc, List.append_nil,
    List.cons_append, named]

end Fields

section Values

theorem looksLike_unquoted {key v : Text} (free : '"' ∉ v) :
    looksLike key v = decide (v = key) := by
  have apart : ('"' :: key).isSuffixOf v = false := by
    rw [Bool.eq_false_iff, Ne, List.isSuffixOf_iff_suffix]
    exact fun ends => free (ends.subset List.mem_cons_self)
  rw [looksLike, apart, Bool.or_false]

theorem looksLike_key {key key' : Text} (isKey' : IsKey key') :
    looksLike key key' = decide (key' = key) :=
  looksLike_unquoted (isKey'.free (by decide))

theorem valueOf_pair {key : Text} (isKey : IsKey key) {pair : String × Text}
    (isKey' : IsKey pair.1.toList) (t : Text) :
    valueOf key (pairText pair ++ t) =
      if pair.1.toList = key then some (pair.2.map flat) else valueOf key t := by
  have text : pairText pair ++ t = "  ".toList ++ (nyPkgJsonStr pair.1.toList ++
      (": ".toList ++ (nyPkgJsonStr pair.2 ++ (",\n".toList ++ t)))) := by
    simp only [pairText, List.append_assoc]
  rw [text, valueOf_gap (by decide)]
  split
  · next same =>
    rw [same]
    exact valueOf_here isKey _ _
  · next other =>
    have colon : Stops (": ".toList ++ (nyPkgJsonStr pair.2 ++ (",\n".toList ++ t))) :=
      stops_cons (c := ':') (by decide)
    have comma : Stops (",\n".toList ++ t) := stops_cons (c := ',') (by decide)
    have apart : looksLike key pair.1.toList = false := by
      rw [looksLike_key isKey']
      exact decide_eq_false other
    rw [valueOf_other isKey colon apart, valueOf_gap (by decide),
      valueOf_str isKey comma (noColon_cons (c := ',') (by decide) (by decide)),
      valueOf_gap (by decide)]

theorem valueOf_pairs {key : String} (isKey : IsKey key.toList) {pairs : List (String × Text)}
    (keys : ∀ pair ∈ pairs, IsKey pair.1.toList) (t : Text) :
    valueOf key.toList (pairs.flatMap pairText ++ t) =
      ((pairs.find? fun pair => pair.1 = key).map fun pair => pair.2.map flat).or
        (valueOf key.toList t) := by
  induction pairs with
  | nil => rfl
  | cons pair pairs ih =>
    have rest := ih fun pair among => keys pair (List.mem_cons_of_mem _ among)
    rw [List.flatMap_cons, List.append_assoc, valueOf_pair isKey (keys pair List.mem_cons_self),
      rest, List.find?_cons]
    by_cases same : pair.1 = key
    · simp [same]
    · have other : pair.1.toList ≠ key.toList := fun equal => same (String.toList_inj.mp equal)
      rw [if_neg other, decide_eq_false same]

section Dependencies

variable {key : Text} (isKey : IsKey key) (other : key ≠ "source".toList ∧ key ≠ "ref".toList)
include isKey other

theorem valueOf_object_skip {d : Dep} (split : d.IsSplit) (t : Text) :
    valueOf key (objectText d ++ '\x7d' :: t) = valueOf key t := by
  have source : looksLike key "source".toList = false := by
    rw [looksLike_key (by decide)]
    exact decide_eq_false (Ne.symm other.1)
  have ref : looksLike key "ref".toList = false := by
    rw [looksLike_key (by decide)]
    exact decide_eq_false (Ne.symm other.2)
  have closing : valueOf key (['\x7d'] ++ t) = valueOf key t := valueOf_gap (by decide) t
  rw [List.cons_append, List.nil_append] at closing
  have colon (t : Text) : Stops (": ".toList ++ t) := stops_cons (c := ':') (by decide)
  have end_ : ∀ value, ('\x7d' :: t).dropWhile isSpace ≠ ':' :: value :=
    noColon_cons (by decide) (by decide)
  rw [objectText]
  simp only [List.append_assoc]
  rw [valueOf_other isKey (colon _) source, valueOf_gap (by decide)]
  rcases jsonTail_cases d split with ⟨_, tail⟩ | ⟨r, _, tail⟩
  · rw [tail, List.nil_append, valueOf_str isKey (stops_cons (by decide)) end_, closing]
  · have comma (t : Text) : Stops (", ".toList ++ t) := stops_cons (c := ',') (by decide)
    have behind (t : Text) : ∀ value, (", ".toList ++ t).dropWhile isSpace ≠ ':' :: value :=
      noColon_cons (c := ',') (by decide) (by decide)
    rw [tail]
    simp only [List.append_assoc, List.nil_append]
    rw [valueOf_str isKey (comma _) (behind _), valueOf_gap (by decide),
      valueOf_other isKey (colon _) ref, valueOf_gap (by decide),
      valueOf_str isKey (stops_cons (by decide)) end_, closing]

theorem valueOf_dep {d : Dep} (ok : nyPkgNameOk d.name = true) (split : d.IsSplit) {t : Text}
    (behind : valueOf key t = none) : valueOf key (depCore d ++ t) = none := by
  have text : depCore d ++ t =
      nyPkgJsonStr d.name ++ (": \x7b".toList ++ (objectText d ++ '\x7d' :: t)) := by
    rw [depCore]
    simp only [List.append_assoc, List.cons_append, List.nil_append]
    rfl
  have free : '"' ∉ d.name := fun quote => by
    rw [nyPkgNameOk, Bool.and_eq_true, List.all_eq_true] at ok
    exact absurd (ok.2 _ quote) (by decide)
  rw [text]
  by_cases same : d.name = key
  · rw [same]
    exact valueOf_object isKey _
  · have colon : Stops (": \x7b".toList ++ (objectText d ++ '\x7d' :: t)) :=
      stops_cons (c := ':') (by decide)
    have apart : looksLike key d.name = false := by
      rw [looksLike_unquoted free]
      exact decide_eq_false same
    rw [valueOf_other isKey colon apart, valueOf_gap (by decide),
      valueOf_object_skip isKey other split, behind]

theorem valueOf_items {items : List Dep}
    (each : ∀ d ∈ items, nyPkgNameOk d.name = true ∧ d.IsSplit) {t : Text}
    (behind : valueOf key t = none) : valueOf key (itemsText items ++ t) = none := by
  induction items with
  | nil => exact behind
  | cons d items ih =>
    obtain ⟨ok, split⟩ := each d List.mem_cons_self
    have rest := ih fun d among => each d (List.mem_cons_of_mem _ among)
    cases items with
    | nil =>
      have text : itemsText [d] ++ t = "    ".toList ++ (depCore d ++ ("\n".toList ++ t)) := by
        rw [itemsText_one]
        simp only [List.append_assoc]
      rw [text, valueOf_gap (by decide)]
      exact valueOf_dep isKey other ok split ((valueOf_gap (by decide) t).trans behind)
    | cons d' items =>
      have text : itemsText (d :: d' :: items) ++ t =
          "    ".toList ++ (depCore d ++ (",\n".toList ++ (itemsText (d' :: items) ++ t))) := by
        rw [itemsText_cons]
        simp only [List.append_assoc]
      rw [text, valueOf_gap (by decide)]
      exact valueOf_dep isKey other ok split ((valueOf_gap (by decide) _).trans rest)

theorem valueOf_deps (apart : key ≠ "dependencies".toList) {items : List Dep}
    (each : ∀ d ∈ items, nyPkgNameOk d.name = true ∧ d.IsSplit) :
    valueOf key (depsText items) = none := by
  have own : looksLike key "dependencies".toList = false := by
    rw [looksLike_key (by decide)]
    exact decide_eq_false (Ne.symm apart)
  have text : ": ".toList ++ '\x7b' :: (depsInner items ++ '\x7d' :: "\n\x7d\n".toList) =
      ": \x7b\n".toList ++ (itemsText items ++ "  \x7d\n\x7d\n".toList) := by
    rw [depsInner]
    simp only [List.append_assoc]
    rfl
  have colon : Stops (": \x7b\n".toList ++ (itemsText items ++ "  \x7d\n\x7d\n".toList)) :=
    stops_cons (c := ':') (by decide)
  have nothing : valueOf key "  \x7d\n\x7d\n".toList = none := by
    have gap : valueOf key ("  \x7d\n\x7d\n".toList ++ []) = valueOf key [] :=
      valueOf_gap (by decide) []
    rw [List.append_nil] at gap
    exact gap
  rw [depsText, text, valueOf_gap (by decide), valueOf_other isKey colon own,
    valueOf_gap (by decide)]
  exact valueOf_items isKey other each nothing

end Dependencies

end Values

end Nytrix.Pkg
