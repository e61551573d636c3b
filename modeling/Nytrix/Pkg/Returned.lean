import Nytrix.Pkg.Header

/-! What reading a written manifest gives back. -/

-- What holds of all members of a list is decided member by member.
attribute [local instance (2000)] List.decidableBAll

namespace Nytrix.Pkg

open Lib.Paths (Text)

section Region

/-- Whether a field looks like the key of the dependencies, and a later one has a brace. -/
def misled : List Text → Bool
  | [] => false
  | v :: rest =>
    if looksLike "dependencies".toList v then rest.any fun w => '\x7b' ∈ w else misled rest

/-- The text from the first brace on. -/
def fromBrace (text : Text) : Text := text.dropWhile fun c => c ≠ '\x7b'

theorem fromBrace_gap {gap : Text} (clean : '\x7b' ∉ gap) (t : Text) :
    fromBrace (gap ++ t) = fromBrace t :=
  List.dropWhile_append_of_pos fun c among =>
    decide_eq_true fun same : c = '\x7b' => clean (same ▸ among)

theorem brace_mem_inside {v : Text} : '\x7b' ∈ inside v ↔ '\x7b' ∈ v := by
  induction v with
  | nil => simp
  | cons c v ih =>
    rw [inside_cons, List.mem_append, List.mem_cons, ih]
    refine or_congr_left ?_
    rcases escaped_cases c with ⟨special, written⟩ | ⟨rfl, written⟩ | ⟨_, written⟩
    · have other : c ≠ '\x7b' := by rintro rfl; exact absurd special (by decide)
      simp [written, Ne.symm other]
    · rw [written]
      decide
    · simp [written]

theorem fromBrace_str {v : Text} (clean : '\x7b' ∉ v) (t : Text) :
    fromBrace (nyPkgJsonStr v ++ t) = fromBrace t := by
  refine fromBrace_gap ?_ t
  have whole : nyPkgJsonStr v = '"' :: (inside v ++ ['"']) := rfl
  rw [whole]
  simpa [brace_mem_inside] using clean

theorem fromBrace_inside {v : Text} (brace : '\x7b' ∈ v) (t : Text) :
    ∃ rest, fromBrace (inside v ++ t) = '\x7b' :: (inside rest ++ t) := by
  induction v with
  | nil => exact absurd brace List.not_mem_nil
  | cons c v ih =>
    rw [inside_cons, List.append_assoc]
    by_cases here : c = '\x7b'
    · subst here
      exact ⟨v, rfl⟩
    · have later : '\x7b' ∈ v := (List.mem_cons.mp brace).resolve_left (Ne.symm here)
      have clean : '\x7b' ∉ escaped c := by
        have one := brace_mem_inside (v := [c])
        rw [inside_cons, inside_nil, List.append_nil] at one
        exact fun among => here (List.mem_singleton.mp (one.mp among)).symm
      rw [fromBrace_gap clean]
      exact ih later

/-- A text that opens with the end of a field, and the start of the key of the next one. -/
def NextField (t : Text) : Prop :=
  ∃ c rest, c.isAlpha = true ∧ t = ',' :: '\n' :: ' ' :: ' ' :: '"' :: c :: rest

theorem findText_pair {pair : String × Text} (isKey : IsKey pair.1.toList)
    (other : pair.1 ≠ "dependencies") (t : Text) :
    findText (keyText "dependencies".toList) (pairText pair ++ t) =
      if looksLike "dependencies".toList pair.2 then
        some (keyText "dependencies".toList ++ (",\n".toList ++ t))
      else findText (keyText "dependencies".toList) t := by
  have key : IsKey "dependencies".toList := by decide
  have text : pairText pair ++ t = "  ".toList ++ (nyPkgJsonStr pair.1.toList ++
      (": ".toList ++ (nyPkgJsonStr pair.2 ++ (",\n".toList ++ t)))) := by
    simp only [pairText, List.append_assoc]
  have colon : Stops (": ".toList ++ (nyPkgJsonStr pair.2 ++ (",\n".toList ++ t))) :=
    stops_cons (c := ':') (by decide)
  have comma : Stops (",\n".toList ++ t) := stops_cons (c := ',') (by decide)
  have apart : looksLike "dependencies".toList pair.1.toList = false := by
    rw [looksLike_key isKey]
    exact decide_eq_false fun same => other (String.toList_inj.mp same)
  rw [text, findText_gap (by decide), findText_str key.plain key.1
    (fun c first => key.free (colon c first)), apart, if_neg Bool.false_ne_true,
    findText_gap (by decide), findText_str key.plain key.1
    (fun c first => key.free (comma c first)), findText_gap (by decide)]

theorem findText_deps (items : List Dep) :
    findText (keyText "dependencies".toList) (depsText items) =
      some (keyText "dependencies".toList ++ (": ".toList ++
        '\x7b' :: (depsInner items ++ '\x7d' :: "\n\x7d\n".toList))) := by
  have key : IsKey "dependencies".toList := by decide
  have colon : Stops (": ".toList ++ '\x7b' :: (depsInner items ++ '\x7d' :: "\n\x7d\n".toList)) :=
    stops_cons (c := ':') (by decide)
  have own : looksLike "dependencies".toList "dependencies".toList = true := by decide
  rw [depsText, findText_gap (by decide), findText_str key.plain key.1
    (fun c first => key.free (colon c first)), own, if_pos rfl]

theorem fromBrace_pairs {pairs : List (String × Text)}
    (each : ∀ pair ∈ pairs, IsKey pair.1.toList)
    (clean : ¬(pairs.map Prod.snd).any (fun w => '\x7b' ∈ w) = true) (items : List Dep) :
    fromBrace (pairs.flatMap pairText ++ depsText items) =
      '\x7b' :: (depsInner items ++ '\x7d' :: "\n\x7d\n".toList) := by
  induction pairs with
  | nil => rfl
  | cons pair pairs ih =>
    simp only [List.map_cons, List.any_cons, Bool.or_eq_true, not_or, decide_eq_true_eq] at clean
    have key := (each pair List.mem_cons_self).free (c := '\x7b') (by decide)
    rw [List.flatMap_cons, pairText]
    simp only [List.append_assoc]
    rw [fromBrace_gap (by decide), fromBrace_str key, fromBrace_gap (by decide),
      fromBrace_str clean.1, fromBrace_gap (by decide)]
    exact ih (fun pair among => each pair (List.mem_cons_of_mem _ among)) clean.2

theorem nextField_pairs {pairs : List (String × Text)}
    (each : ∀ pair ∈ pairs, IsKey pair.1.toList) (items : List Dep) :
    NextField (",\n".toList ++ (pairs.flatMap pairText ++ depsText items)) := by
  cases pairs with
  | nil => exact ⟨'d', _, by decide, rfl⟩
  | cons pair pairs =>
    have isKey := each pair List.mem_cons_self
    have text := nyPkgJsonStr_key isKey
    cases key : pair.1.toList with
    | nil => exact absurd key isKey.1
    | cons c rest =>
      refine ⟨c, rest ++ ['"'] ++ (": ".toList ++ (nyPkgJsonStr pair.2 ++ ",\n".toList)) ++
        (pairs.flatMap pairText ++ depsText items),
        isKey.2.2 c (key ▸ List.mem_cons_self), ?_⟩
      rw [List.flatMap_cons, pairText, text, key, keyText]
      simp

theorem fromBrace_misled {pairs : List (String × Text)}
    (each : ∀ pair ∈ pairs, IsKey pair.1.toList)
    (brace : (pairs.map Prod.snd).any (fun w => '\x7b' ∈ w) = true) (items : List Dep) :
    ∃ rest t, NextField t ∧ fromBrace (pairs.flatMap pairText ++ depsText items) =
      '\x7b' :: (inside rest ++ '"' :: t) := by
  induction pairs with
  | nil => exact absurd brace nofun
  | cons pair pairs ih =>
    have others : ∀ pair ∈ pairs, IsKey pair.1.toList := fun pair among =>
      each pair (List.mem_cons_of_mem _ among)
    have key := (each pair List.mem_cons_self).free (c := '\x7b') (by decide)
    rw [List.flatMap_cons, pairText]
    simp only [List.append_assoc]
    rw [fromBrace_gap (by decide), fromBrace_str key, fromBrace_gap (by decide)]
    by_cases here : '\x7b' ∈ pair.2
    · obtain ⟨rest, found⟩ := fromBrace_inside here
        ('"' :: (",\n".toList ++ (pairs.flatMap pairText ++ depsText items)))
      refine ⟨rest, _, nextField_pairs others items, ?_⟩
      rw [nyPkgJsonStr_append]
      have quote : '\x7b' ∉ ['"'] := by decide
      exact (fromBrace_gap quote _).trans found
    · rw [fromBrace_str here, fromBrace_gap (by decide)]
      refine ih others ?_
      simpa [here] using brace

end Region

section Losing

theorem matchingBrace_prefix {state : Bracing} {text object behind : Text}
    (seen : matchingBrace state text = some (object, behind)) : object <+: text := by
  induction text generalizing state object with
  | nil => exact absurd seen (by simp [matchingBrace])
  | cons c text ih =>
    have longer {next : Bracing} (seen : (matchingBrace next text).map
        (fun out => (c :: out.1, out.2)) = some (object, behind)) : object <+: c :: text := by
      obtain ⟨⟨inner, after⟩, found, same⟩ := Option.map_eq_some_iff.mp seen
      obtain ⟨rfl, rfl⟩ := Prod.mk.inj same
      exact List.cons_prefix_cons.mpr ⟨rfl, ih found⟩
    obtain ⟨depth, quote, esc⟩ := state
    rw [matchingBrace.eq_def] at seen
    dsimp only at seen
    split at seen
    · repeat' split at seen
      all_goals exact longer seen
    · repeat' split at seen
      all_goals first
        | exact longer seen
        | (obtain ⟨rfl, -⟩ := Prod.mk.inj (Option.some.inj seen)
           exact List.nil_prefix)

theorem jsonDeps_stuck {c : Char} (solid : isSpace c = false) (comma : c ≠ ',') (quote : c ≠ '"')
    (fuel : ℕ) (items : List Dep) (t : Text) : jsonDeps fuel items (c :: t) = items := by
  cases fuel with
  | zero => rfl
  | succ fuel =>
    have opening : (c :: t).dropWhile isSpace = c :: t :=
      List.dropWhile_cons_of_neg (by rw [solid]; exact Bool.false_ne_true)
    have nothing : nyPkgParseJsonString (c :: t) = none := by
      rw [nyPkgParseJsonString, opening]
      simp [quote]
    rw [jsonDeps, opening]
    split
    · rfl
    · next same => exact absurd (List.cons.inj same).1 comma
    · rw [nothing]

theorem jsonDeps_space {c : Char} (blank : isSpace c = true) (fuel : ℕ) (items : List Dep)
    (t : Text) : jsonDeps fuel items (c :: t) = jsonDeps fuel items t := by
  cases fuel with
  | zero => rfl
  | succ fuel =>
    have same : (c :: t).dropWhile isSpace = t.dropWhile isSpace :=
      List.dropWhile_cons_of_pos blank
    rw [jsonDeps, jsonDeps, same]

theorem isSpace_cases {c : Char} (blank : isSpace c = true) :
    c = ' ' ∨ ∃ n ∈ [9, 10, 11, 12, 13], c = Char.ofNat n := by
  rw [isSpace, Bool.or_eq_true, decide_eq_true_eq, Bool.and_eq_true, decide_eq_true_eq,
    decide_eq_true_eq] at blank
  rcases blank with rfl | ⟨low, high⟩
  · exact .inl rfl
  · have five : c.toNat = 9 ∨ c.toNat = 10 ∨ c.toNat = 11 ∨ c.toNat = 12 ∨ c.toNat = 13 := by
      omega
    exact .inr ⟨c.toNat, by simpa using five, (Char.ofNat_toNat c).symm⟩

theorem isSpace_of_isAlpha {c : Char} (letter : c.isAlpha = true) : isSpace c = false := by
  rw [Bool.eq_false_iff]
  intro blank
  rcases isSpace_cases blank with rfl | ⟨n, five, rfl⟩
  · exact absurd letter (by decide)
  · have control : ∀ n ∈ [9, 10, 11, 12, 13], (Char.ofNat n).isAlpha = false := by decide
    exact Bool.false_ne_true ((control n five).symm.trans letter)

theorem quoted_nextField {c : Char} {rest s : Text} (letter : c.isAlpha = true)
    (part : s <+: ',' :: '\n' :: ' ' :: ' ' :: '"' :: c :: rest) :
    ∀ value, (quoted s).2.dropWhile isSpace ≠ ':' :: value := by
  match s, part with
  | [], _ => exact nofun
  | [_], part =>
    simp only [List.cons_prefix_cons] at part
    obtain ⟨rfl, -⟩ := part
    exact nofun
  | [_, _], part =>
    simp only [List.cons_prefix_cons] at part
    obtain ⟨rfl, rfl, -⟩ := part
    exact nofun
  | [_, _, _], part =>
    simp only [List.cons_prefix_cons] at part
    obtain ⟨rfl, rfl, rfl, -⟩ := part
    exact nofun
  | [_, _, _, _], part =>
    simp only [List.cons_prefix_cons] at part
    obtain ⟨rfl, rfl, rfl, rfl, -⟩ := part
    exact nofun
  | _ :: _ :: _ :: _ :: _ :: s, part =>
    simp only [List.cons_prefix_cons] at part
    obtain ⟨rfl, rfl, rfl, rfl, rfl, part⟩ := part
    have behind : (quoted (',' :: '\n' :: ' ' :: ' ' :: '"' :: s)).2 = s := rfl
    rw [behind]
    cases s with
    | nil => exact nofun
    | cons d s =>
      obtain ⟨rfl, -⟩ := List.cons_prefix_cons.mp part
      refine noColon_cons (isSpace_of_isAlpha letter) ?_
      rintro rfl
      exact absurd letter (by decide)

theorem jsonDeps_nextField {t s : Text} (next : NextField t) (part : s <+: '"' :: t) (fuel : ℕ)
    (items : List Dep) : jsonDeps fuel items s = items := by
  cases fuel with
  | zero => rfl
  | succ fuel =>
    cases s with
    | nil => rfl
    | cons first s =>
      obtain ⟨rfl, within⟩ := List.cons_prefix_cons.mp part
      obtain ⟨c, rest, letter, rfl⟩ := next
      have noColon := quoted_nextField letter within
      have opening : ('"' :: s).dropWhile isSpace = '"' :: s := rfl
      have string : nyPkgParseJsonString ('"' :: s) = some (quoted s) := rfl
      rw [jsonDeps, opening]
      split
      · rfl
      · next same => exact absurd (List.cons.inj same).1 (by decide)
      · rw [string]
        dsimp only
        split
        · next value colon => exact absurd colon (noColon value)
        · rfl

theorem jsonDeps_field {rest t s : Text} (next : NextField t)
    (part : s <+: inside rest ++ '"' :: t) (fuel : ℕ) (items : List Dep) :
    jsonDeps fuel items s = items := by
  induction rest generalizing s fuel with
  | nil => exact jsonDeps_nextField next part fuel items
  | cons c rest ih =>
    rw [inside_cons, List.append_assoc] at part
    cases s with
    | nil => exact jsonDeps_blank (by simp) fuel items
    | cons first s =>
      rcases escaped_cases c with ⟨_, written⟩ | ⟨_, written⟩ | ⟨⟨quote, _, _⟩, written⟩
      · -- A backslash begins no string.
        rw [written] at part
        obtain ⟨rfl, -⟩ := List.cons_prefix_cons.mp part
        exact jsonDeps_stuck (by decide) (by decide) (by decide) fuel items s
      · rw [written] at part
        obtain ⟨rfl, -⟩ := List.cons_prefix_cons.mp part
        exact jsonDeps_stuck (by decide) (by decide) (by decide) fuel items s
      · rw [written] at part
        obtain ⟨rfl, within⟩ := List.cons_prefix_cons.mp part
        cases solid : isSpace first with
        | true =>
          rw [jsonDeps_space solid]
          exact ih within fuel
        | false =>
          by_cases comma : first = ','
          · subst comma
            cases fuel with
            | zero => rfl
            | succ fuel =>
              rw [jsonDeps_comma]
              exact ih within fuel
          · exact jsonDeps_stuck solid comma quote fuel items s

end Losing

section Object

theorem region_pairs {pairs : List (String × Text)} (each : ∀ pair ∈ pairs,
      IsKey pair.1.toList ∧ pair.1 ≠ "dependencies") (items : List Dep) :
    (misled (pairs.map Prod.snd) = false →
      (findText (keyText "dependencies".toList) (pairs.flatMap pairText ++ depsText items)).map
          fromBrace =
        some ('\x7b' :: (depsInner items ++ '\x7d' :: "\n\x7d\n".toList))) ∧
    (misled (pairs.map Prod.snd) = true → ∃ rest t, NextField t ∧
      (findText (keyText "dependencies".toList) (pairs.flatMap pairText ++ depsText items)).map
          fromBrace = some ('\x7b' :: (inside rest ++ '"' :: t))) := by
  have skipped (t : Text) : fromBrace (keyText "dependencies".toList ++ (",\n".toList ++ t)) =
      fromBrace t := by
    rw [fromBrace_gap (by decide), fromBrace_gap (by decide)]
  induction pairs with
  | nil =>
    refine ⟨fun _ => ?_, fun led => absurd led nofun⟩
    rw [List.flatMap_nil, List.nil_append, findText_deps]
    rfl
  | cons pair pairs ih =>
    obtain ⟨isKey, other⟩ := each pair List.mem_cons_self
    have others := fun pair among => each pair (List.mem_cons_of_mem _ among)
    have keys := fun pair among => (others pair among).1
    rw [List.flatMap_cons, List.append_assoc, findText_pair isKey other, List.map_cons, misled]
    split
    · -- The first brace behind the field counts.
      rw [Option.map_some, skipped]
      constructor
      · intro clean
        rw [fromBrace_pairs keys (by rw [clean]; exact Bool.false_ne_true)]
      · intro brace
        obtain ⟨rest, t, next, found⟩ := fromBrace_misled keys brace items
        exact ⟨rest, t, next, congrArg some found⟩
    · exact ih others

theorem headerPairs_keys (m : Manifest) :
    ∀ pair ∈ headerPairs m, IsKey pair.1.toList ∧ pair.1 ≠ "dependencies" := by
  intro pair among
  have listed : pair.1 ∈ ["schema", "name", "version", "description", "author", "license",
      "repository"] := by
    rcases List.mem_append.mp among with first | optional
    · simp only [List.mem_cons, List.not_mem_nil, or_false] at first
      rcases first with rfl | rfl <;> simp
    · have member := (List.mem_filter.mp optional).1
      simp only [List.mem_cons, List.not_mem_nil, or_false] at member
      rcases member with rfl | rfl | rfl | rfl | rfl <;> simp
  exact (by decide : ∀ key ∈ ["schema", "name", "version", "description", "author", "license",
    "repository"], IsKey key.toList ∧ key ≠ "dependencies") pair.1 listed

/-- The dependencies that reading a written manifest gives. -/
def returnedItems (m : Manifest) : List Dep :=
  if misled ((headerPairs m).map Prod.snd) then []
  else (m.items.filter fun d => d.source ≠ []).map Dep.flat

theorem nyPkgJsonObjectString_manifest {m : Manifest}
    (each : ∀ d ∈ m.items, nyPkgNameOk d.name = true ∧ d.IsSplit) {key : String}
    (isKey : IsKey key.toList)
    (other : (key.toList ≠ "source".toList ∧ key.toList ≠ "ref".toList) ∧
      key.toList ≠ "dependencies".toList) :
    nyPkgJsonObjectString (manifestText m) key.toList =
      ((headerPairs m).find? fun pair => pair.1 = key).map fun pair => pair.2.map flat := by
  rw [nyPkgJsonObjectString_eq isKey, manifestText_eq, valueOf_gap (by decide),
    valueOf_pairs isKey fun pair among => (headerPairs_keys m pair among).1,
    valueOf_deps isKey other.1 other.2 each, Option.or_none]

/-- The items that a search for the dependencies finds in a text. -/
def foundItems (txt : Text) : List Dep :=
  match (findText (keyText "dependencies".toList) txt).map fromBrace with
  | some ('\x7b' :: inner) =>
    match nyPkgFindMatchingBrace ('\x7b' :: inner) with
    | some (object, _) => jsonDeps (object.length + 1) [] (object.drop 1)
    | none => []
  | _ => []

theorem foundItems_manifestText {m : Manifest}
    (each : ∀ d ∈ m.items, nyPkgNameOk d.name = true ∧ d.IsSplit)
    (distinct : (m.items.map Dep.name).Nodup) :
    foundItems (manifestText m) = returnedItems m := by
  obtain ⟨straight, astray⟩ := region_pairs (headerPairs_keys m) m.items
  rw [foundItems, manifestText_eq, findText_gap (by decide), returnedItems]
  cases led : misled ((headerPairs m).map Prod.snd) with
  | false =>
    have split := fun d among => (each d among).2
    have newline : Balanced "\n".toList := balanced_gap (by decide)
    have balanced : Balanced (depsInner m.items) :=
      newline.append ((balanced_items split).append (balanced_gap (by decide)))
    rw [straight led]
    show (match nyPkgFindMatchingBrace ('\x7b' :: (depsInner m.items ++
        '\x7d' :: "\n\x7d\n".toList)) with
      | some (object, _) => jsonDeps (object.length + 1) [] (object.drop 1)
      | none => []) = _
    rw [nyPkgFindMatchingBrace_balanced balanced]
    have room := length_items m.items
    have long : (itemsText m.items).length ≤ (depsInner m.items).length := by
      rw [depsInner]
      simp only [List.length_append]
      omega
    have read : jsonDeps (('\x7b' :: depsInner m.items).length + 1) []
        ("\n".toList ++ (itemsText m.items ++ "  ".toList)) = m.items.foldl received [] :=
      jsonDeps_items each (by rw [List.length_cons]; omega) (by decide) []
    refine Eq.trans (b := m.items.foldl received []) read ?_
    rw [received_all distinct [] split fun _ _ _ member => absurd member List.not_mem_nil]
    rfl
  | true =>
    -- The object begins in a field, where nothing can be read.
    obtain ⟨rest, t, next, found⟩ := astray led
    rw [found]
    show (match nyPkgFindMatchingBrace ('\x7b' :: (inside rest ++ '"' :: t)) with
      | some (object, _) => jsonDeps (object.length + 1) [] (object.drop 1)
      | none => []) = _
    split
    · next object behind seen =>
      have part := matchingBrace_prefix (show matchingBrace _ _ = _ from seen)
      cases object with
      | nil => exact jsonDeps_blank (by simp) _ _
      | cons first object =>
        obtain ⟨-, within⟩ := List.cons_prefix_cons.mp part
        exact jsonDeps_field next within _ _
    · rfl

theorem given_field {pair : Option Text} {v : Text}
    (same : pair = if v = [] then none else some v) :
    given [] ((pair.map (List.map flat)).getD []) = v.map flat := by
  rw [same]
  by_cases none_ : v = []
  · simp [given, none_]
  · simp [given, none_]

theorem nyPkgParseJsonManifest_empty (path root txt : Text) :
    nyPkgParseJsonManifest (emptyManifest path root) txt =
      let field (key : String) : Text := given [] ((nyPkgJsonObjectString txt key.toList).getD [])
      { items := foundItems txt, name := field "name", version := field "version",
        description := field "description", author := field "author",
        license := field "license", repository := field "repository", path, root } := by
  have same : "\"dependencies\"".toList = keyText "dependencies".toList := by decide
  unfold nyPkgParseJsonManifest foundItems
  dsimp only [emptyManifest]
  rw [same]
  show (match (findText (keyText "dependencies".toList) txt).map fromBrace with
    | some ('\x7b' :: inner) => _
    | _ => _) = _
  split
  · next inner _ => cases nyPkgFindMatchingBrace ('\x7b' :: inner) <;> rfl
  · rfl

theorem find?_optional {key : String} {v : Text} {pairs : List (String × Text)}
    (distinct : (pairs.map Prod.fst).Nodup) (listed : (key, v) ∈ pairs) :
    ((pairs.filter fun pair => pair.2 ≠ []).find? fun pair => pair.1 = key).map Prod.snd =
      if v = [] then none else some v := by
  induction pairs with
  | nil => exact absurd listed List.not_mem_nil
  | cons pair pairs ih =>
    rw [List.map_cons, List.nodup_cons] at distinct
    rcases List.mem_cons.mp listed with rfl | later
    · by_cases none_ : v = []
      · -- No other field has the key.
        have nothing : (pairs.filter fun pair => pair.2 ≠ []).find? (fun pair => pair.1 = key) =
            none := by
          rw [List.find?_eq_none]
          intro pair among same
          have member := (List.mem_filter.mp among).1
          have key_ : pair.1 = key := of_decide_eq_true same
          exact distinct.1 (List.mem_map.mpr ⟨pair, member, key_⟩)
        rw [List.filter_cons_of_neg (by simp [none_]), nothing, if_pos none_]
        rfl
      · rw [List.filter_cons_of_pos (by simp [none_]), List.find?_cons_of_pos (by simp),
          if_neg none_]
        rfl
    · have other : pair.1 ≠ key := fun same => distinct.1 (same ▸ List.mem_map_of_mem later)
      have rest := ih distinct.2 later
      by_cases none_ : pair.2 = []
      · rw [List.filter_cons_of_neg (by simp [none_]), rest]
      · rw [List.filter_cons_of_pos (by simp [none_]), List.find?_cons_of_neg (by simp [other]),
          rest]

theorem nyPkgParseJsonManifest_manifestText {m : Manifest} (named : m.name ≠ [])
    (each : ∀ d ∈ m.items, nyPkgNameOk d.name = true ∧ d.IsSplit)
    (distinct : (m.items.map Dep.name).Nodup) (path root : Text) :
    nyPkgParseJsonManifest (emptyManifest path root) (manifestText m) =
      { items := returnedItems m, name := m.name.map flat, version := m.version.map flat,
        description := m.description.map flat, author := m.author.map flat,
        license := m.license.map flat, repository := m.repository.map flat, path, root } := by
  have field {key : String} {v : Text} (isKey : IsKey key.toList)
      (other : (key.toList ≠ "source".toList ∧ key.toList ≠ "ref".toList) ∧
        key.toList ≠ "dependencies".toList)
      (pair : ((headerPairs m).find? fun pair => pair.1 = key).map Prod.snd =
        if v = [] then none else some v) :
      given [] ((nyPkgJsonObjectString (manifestText m) key.toList).getD []) = v.map flat := by
    rw [nyPkgJsonObjectString_manifest each isKey other, ← given_field pair, Option.map_map]
    rfl
  have optional {key : String} {v : Text} (isKey : IsKey key.toList)
      (other : (key.toList ≠ "source".toList ∧ key.toList ≠ "ref".toList) ∧
        key.toList ≠ "dependencies".toList) (behind : "schema" ≠ key ∧ "name" ≠ key)
      (listed : (key, v) ∈ [("version", m.version), ("description", m.description),
        ("author", m.author), ("license", m.license), ("repository", m.repository)]) :
      given [] ((nyPkgJsonObjectString (manifestText m) key.toList).getD []) = v.map flat := by
    refine field isKey other ?_
    rw [headerPairs, List.cons_append, List.find?_cons_of_neg (by simpa using behind.1),
      List.cons_append, List.find?_cons_of_neg (by simpa using behind.2), List.nil_append]
    exact find?_optional (by simp) listed
  have name : given [] ((nyPkgJsonObjectString (manifestText m) "name".toList).getD []) =
      m.name.map flat := field (by decide) (by decide) (by simp [headerPairs, named])
  rw [nyPkgParseJsonManifest_empty, foundItems_manifestText each distinct]
  dsimp only
  rw [name, @optional "version" m.version (by decide) (by decide) (by decide) (by simp),
    @optional "description" m.description (by decide) (by decide) (by decide) (by simp),
    @optional "author" m.author (by decide) (by decide) (by decide) (by simp),
    @optional "license" m.license (by decide) (by decide) (by decide) (by simp),
    @optional "repository" m.repository (by decide) (by decide) (by decide) (by simp)]

end Object

end Nytrix.Pkg
