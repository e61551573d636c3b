import Nytrix.Pkg.Manifest

/-! Written strings among other text: reading them back, searching past them, and skipping them. -/

-- What holds of all members of a list is decided member by member.
attribute [local instance (2000)] List.decidableBAll

namespace Nytrix.Pkg

open Lib.Paths (Text)

section Strings

/-- How a character is written inside a string. -/
def escaped (c : Char) : Text :=
  if c = '"' ∨ c = '\\' then ['\\', c] else if c = '\n' then ['\\', 'n'] else [c]

/-- How a character comes back: a line break as a letter. -/
def flat (c : Char) : Char := if c = '\n' then 'n' else c

/-- The inside of a written string. -/
def inside (v : Text) : Text := v.flatMap escaped

@[simp] theorem inside_nil : inside [] = [] := rfl

@[simp] theorem inside_cons (c : Char) (v : Text) : inside (c :: v) = escaped c ++ inside v := rfl

theorem nyPkgJsonStr_append (v t : Text) : nyPkgJsonStr v ++ t = '"' :: (inside v ++ '"' :: t) := by
  show ('"' :: inside v ++ ['"']) ++ t = _
  simp

theorem escaped_cases (c : Char) :
    (c = '"' ∨ c = '\\') ∧ escaped c = ['\\', c] ∨ c = '\n' ∧ escaped c = ['\\', 'n'] ∨
      (c ≠ '"' ∧ c ≠ '\\' ∧ c ≠ '\n') ∧ escaped c = [c] := by
  unfold escaped
  split
  · next special => exact .inl ⟨special, rfl⟩
  · next plain =>
    split
    · next break_ => exact .inr (.inl ⟨break_, rfl⟩)
    · next other => exact .inr (.inr ⟨⟨fun h => plain (.inl h), fun h => plain (.inr h), other⟩, rfl⟩)

theorem flat_eq_iff {v : Text} : v.map flat = v ↔ '\n' ∉ v := by
  induction v with
  | nil => simp
  | cons c v ih =>
    have one : flat c = c ↔ '\n' ≠ c := by
      unfold flat
      split
      · next break_ => simp [break_]
      · next other => simp [Ne.symm other]
    rw [List.map_cons, List.cons.injEq, ih, one, List.mem_cons, not_or]

theorem quoted_inside (v t : Text) : quoted (inside v ++ '"' :: t) = (v.map flat, t) := by
  induction v with
  | nil => rfl
  | cons c v ih =>
    rw [inside_cons, List.append_assoc, List.map_cons]
    rcases escaped_cases c with ⟨special, written⟩ | ⟨rfl, written⟩ | ⟨⟨quote, slash, break_⟩, written⟩
    · have same : flat c = c := if_neg (by rcases special with rfl | rfl <;> decide)
      rw [written, List.cons_append, List.cons_append, List.nil_append, quoted, ih, same]
    · rw [written, List.cons_append, List.cons_append, List.nil_append, quoted, ih]
      rfl
    · have same : flat c = c := if_neg break_
      rw [written, List.cons_append, List.nil_append, quoted, ih, same]
      · exact quote
      · exact fun d rest back => absurd back slash

theorem nyPkgParseJsonString_str (v t : Text) :
    nyPkgParseJsonString (nyPkgJsonStr v ++ t) = some (v.map flat, t) := by
  rw [nyPkgJsonStr_append]
  show some (quoted (inside v ++ '"' :: t)) = _
  rw [quoted_inside]

theorem nyPkgParseJsonString_blank (v t : Text) :
    nyPkgParseJsonString (' ' :: (nyPkgJsonStr v ++ t)) = some (v.map flat, t) :=
  nyPkgParseJsonString_str v t

end Strings

section Searching

/-- A text that is written as it is, and does not hide anything. -/
def Plain (key : Text) : Prop := ∀ c ∈ key, c ≠ '"' ∧ c ≠ '\\' ∧ c ≠ '\n'

/-- A key as it stands in a file. -/
def keyText (key : Text) : Text := '"' :: (key ++ ['"'])

/-- Whether a string looks like a key in a file: it is the key, or ends with it behind a quote. -/
def looksLike (key v : Text) : Bool := v = key || ('"' :: key).isSuffixOf v

theorem inside_plain {key : Text} (plain : Plain key) : inside key = key := by
  induction key with
  | nil => rfl
  | cons c key ih =>
    obtain ⟨quote, slash, break_⟩ := plain c List.mem_cons_self
    have same : escaped c = [c] := by simp [escaped, quote, slash, break_]
    rw [inside_cons, same, ih fun d among => plain d (List.mem_cons_of_mem c among)]
    rfl

theorem findText_quote (key t : Text) :
    findText (keyText key) ('"' :: t) =
      if (key ++ ['"']).isPrefixOf t then some ('"' :: t) else findText (keyText key) t := by
  rw [findText, keyText, List.isPrefixOf, beq_self_eq_true, Bool.true_and]

theorem findText_gap {key gap : Text} (clean : '"' ∉ gap) (t : Text) :
    findText (keyText key) (gap ++ t) = findText (keyText key) t := by
  induction gap with
  | nil => rfl
  | cons c gap ih =>
    have quote : ('"' == c) = false :=
      beq_false_of_ne fun same => clean (same ▸ List.mem_cons_self)
    have apart : (keyText key).isPrefixOf (c :: (gap ++ t)) = false := by
      rw [keyText, List.isPrefixOf, quote, Bool.false_and]
    rw [List.cons_append, findText, apart]
    exact ih fun among => clean (List.mem_cons_of_mem c among)

theorem isPrefixOf_inside {key : Text} (plain : Plain key) (v t : Text) :
    (key ++ ['"']).isPrefixOf (inside v ++ '"' :: t) = decide (v = key) := by
  induction key generalizing v with
  | nil =>
    cases v with
    | nil => rfl
    | cons c v =>
      -- A quote in the string has a backslash before it.
      rcases escaped_cases c with ⟨_, written⟩ | ⟨_, written⟩ | ⟨⟨quote, _, _⟩, written⟩
      · rw [inside_cons, written]
        rfl
      · rw [inside_cons, written]
        rfl
      · rw [inside_cons, written]
        simp [List.isPrefixOf, Ne.symm quote]
  | cons k key ih =>
    obtain ⟨quote, slash, break_⟩ := plain k List.mem_cons_self
    cases v with
    | nil => simp [List.isPrefixOf, quote]
    | cons c v =>
      have rest := ih (fun d among => plain d (List.mem_cons_of_mem k among)) v
      rcases escaped_cases c with ⟨special, written⟩ | ⟨same, written⟩ | ⟨_, written⟩
      · have other : c ≠ k := by rintro rfl; exact special.elim quote slash
        rw [inside_cons, written]
        simp [List.isPrefixOf, slash, other]
      · have other : c ≠ k := fun same' => break_ (same' ▸ same)
        rw [inside_cons, written]
        simp [List.isPrefixOf, slash, other]
      · rw [inside_cons, written, List.cons_append, List.append_assoc, List.cons_append,
          List.nil_append, List.isPrefixOf, rest]
        by_cases same : c = k
        · simp [same]
        · simp [same, Ne.symm same]

theorem findText_closing {key t : Text} (stops : ∀ c ∈ t.head?, c ∉ key) (some_ : key ≠ []) :
    findText (keyText key) ('"' :: t) = findText (keyText key) t := by
  rw [findText_quote]
  refine if_neg fun opens => ?_
  cases key with
  | nil => exact some_ rfl
  | cons k key =>
    cases t with
    | nil => simp [List.isPrefixOf] at opens
    | cons c t =>
      simp only [List.cons_append, List.isPrefixOf, Bool.and_eq_true, beq_iff_eq] at opens
      exact stops c rfl (opens.1 ▸ List.mem_cons_self)

theorem findText_inside {key : Text} (plain : Plain key) (some_ : key ≠ []) {t : Text}
    (stops : ∀ c ∈ t.head?, c ∉ key) (v : Text) :
    findText (keyText key) (inside v ++ '"' :: t) =
      if ('"' :: key).isSuffixOf v then some (keyText key ++ t) else findText (keyText key) t := by
  have longer (c : Char) (v : Text) : ('"' :: key).isSuffixOf (c :: v) =
      (decide ('"' = c ∧ key = v) || ('"' :: key).isSuffixOf v) := by
    rw [Bool.eq_iff_iff, Bool.or_eq_true, List.isSuffixOf_iff_suffix, List.isSuffixOf_iff_suffix,
      List.suffix_cons_iff, List.cons.injEq, decide_eq_true_eq]
  induction v with
  | nil =>
    rw [if_neg (by simp)]
    exact findText_closing stops some_
  | cons c v ih =>
    rw [inside_cons, List.append_assoc, longer]
    by_cases quote : c = '"'
    · -- A quote in the string may be the one before the key.
      subst quote
      have start : escaped '"' ++ (inside v ++ '"' :: t) =
          ['\\'] ++ '"' :: (inside v ++ '"' :: t) := rfl
      rw [start, findText_gap (by decide), findText_quote, isPrefixOf_inside plain]
      by_cases same : v = key
      · subst same
        simp [inside_plain plain, keyText]
      · simp [same, Ne.symm same, ih]
    · have clean : '"' ∉ escaped c := by
        rcases escaped_cases c with ⟨special, written⟩ | ⟨same, written⟩ | ⟨_, written⟩
        · simp [written, Ne.symm quote]
        · simp [written]
        · simp [written, Ne.symm quote]
      rw [findText_gap clean, ih]
      simp [Ne.symm quote]

theorem findText_str {key : Text} (plain : Plain key) (some_ : key ≠ []) {t : Text}
    (stops : ∀ c ∈ t.head?, c ∉ key) (v : Text) :
    findText (keyText key) (nyPkgJsonStr v ++ t) =
      if looksLike key v then some (keyText key ++ t) else findText (keyText key) t := by
  rw [nyPkgJsonStr_append, findText_quote, isPrefixOf_inside plain, looksLike]
  by_cases same : v = key
  · subst same
    simp [inside_plain plain, keyText]
  · simp [same, findText_inside plain some_ stops]

end Searching

section Keys

theorem findText_sound {wanted text found : Text} (seen : findText wanted text = some found) :
    found <:+ text ∧ wanted <+: found := by
  induction text with
  | nil =>
    rw [findText] at seen
    split at seen
    · next none_ =>
      obtain rfl := Option.some.inj seen
      exact ⟨List.suffix_refl _, by rw [none_]⟩
    · exact absurd seen nofun
  | cons c rest ih =>
    rw [findText] at seen
    split at seen
    · next opens =>
      obtain rfl := Option.some.inj seen
      exact ⟨List.suffix_refl _, List.isPrefixOf_iff_prefix.mp opens⟩
    · exact ⟨(ih seen).1.trans (List.suffix_cons c rest), (ih seen).2⟩

theorem behind_shorter {key text found : Text} (seen : findText (keyText key) text = some found) :
    (found.drop (keyText key).length).length < text.length := by
  obtain ⟨later, opens⟩ := findText_sound seen
  have upper := later.length_le
  have lower_ := opens.length_le
  have some_ : 0 < (keyText key).length := Nat.succ_pos _
  rw [List.length_drop]
  omega

theorem keyedValue_fuel {key text : Text} {n m : ℕ} (enough : text.length < n)
    (enough' : text.length < m) :
    keyedValue (keyText key) n text = keyedValue (keyText key) m text := by
  induction n generalizing m text with
  | zero => omega
  | succ n ih =>
    obtain ⟨m, rfl⟩ : ∃ m', m = m' + 1 := ⟨m - 1, by omega⟩
    rw [keyedValue, keyedValue]
    cases seen : findText (keyText key) text with
    | none => rfl
    | some found =>
      have shorter := behind_shorter seen
      dsimp only [Option.bind_some]
      split
      · rfl
      · exact ih (by omega) (by omega)

/-- What stands behind a key and a colon. -/
def keyed (key text : Text) : Option Text := keyedValue (keyText key) (text.length + 1) text

theorem keyed_eq (key text : Text) :
    keyed key text = (findText (keyText key) text).bind fun found =>
      match (found.drop (keyText key).length).dropWhile isSpace with
      | ':' :: value => some value
      | _ => keyed key (found.drop (keyText key).length) := by
  rw [keyed, keyedValue]
  cases seen : findText (keyText key) text with
  | none => rfl
  | some found =>
    have shorter := behind_shorter seen
    simp only [Option.bind_some, keyed]
    rewrite [keyedValue_fuel shorter (Nat.lt_add_one _)]
    rfl

/-- The string that stands behind a key and a colon. -/
def valueOf (key text : Text) : Option Text :=
  ((keyed key text).bind nyPkgParseJsonString).map Prod.fst

/-- A word that keys of files consist of. -/
def IsKey (key : Text) : Prop := key ≠ [] ∧ key.length ≤ 240 ∧ ∀ c ∈ key, c.isAlpha = true

instance (key : Text) : Decidable (IsKey key) := by
  unfold IsKey
  infer_instance

theorem nyPkgJsonObjectString_eq {key : Text} (isKey : IsKey key) (text : Text) :
    nyPkgJsonObjectString text key = valueOf key text := by
  rw [nyPkgJsonObjectString, if_neg]
  · rfl
  · rintro (none_ | long)
    · exact isKey.1 none_
    · have := isKey.2.1
      omega

theorem IsKey.free {key : Text} (isKey : IsKey key) {c : Char} (other : c.isAlpha = false) :
    c ∉ key := fun among => by
  have letter := isKey.2.2 c among
  rw [other] at letter
  exact absurd letter nofun

theorem IsKey.plain {key : Text} (isKey : IsKey key) : Plain key := fun c among =>
  ⟨fun same => isKey.free (by decide) (same ▸ among), fun same => isKey.free (by decide) (same ▸ among),
    fun same => isKey.free (by decide) (same ▸ among)⟩

/-- A text whose first character cannot be one of a key. -/
def Stops (t : Text) : Prop := ∀ c ∈ t.head?, c.isAlpha = false

theorem stops_cons {c : Char} {t : Text} (other : c.isAlpha = false) : Stops (c :: t) := by
  intro first same
  obtain rfl := Option.some.inj same
  exact other

theorem noColon_cons {c : Char} {t : Text} (solid : isSpace c = false) (other : c ≠ ':') :
    ∀ value, (c :: t).dropWhile isSpace ≠ ':' :: value := by
  intro value colon
  rw [List.dropWhile_cons_of_neg (by rw [solid]; exact Bool.false_ne_true)] at colon
  exact other (List.cons.inj colon).1

theorem valueOf_gap {key gap : Text} (clean : '"' ∉ gap) (t : Text) :
    valueOf key (gap ++ t) = valueOf key t := by
  rw [valueOf, keyed_eq, findText_gap clean, ← keyed_eq, valueOf]

theorem valueOf_here {key : Text} (isKey : IsKey key) (v t : Text) :
    valueOf key (nyPkgJsonStr key ++ (": ".toList ++ (nyPkgJsonStr v ++ t))) =
      some (v.map flat) := by
  have found : looksLike key key = true := by simp [looksLike]
  have stops : Stops (": ".toList ++ (nyPkgJsonStr v ++ t)) := stops_cons (c := ':') (by decide)
  rw [valueOf, keyed_eq, findText_str isKey.plain isKey.1
    (fun c first => isKey.free (stops c first)), if_pos found, Option.bind_some, List.drop_left]
  show ((some (' ' :: (nyPkgJsonStr v ++ t))).bind nyPkgParseJsonString).map Prod.fst = _
  rw [Option.bind_some, nyPkgParseJsonString_blank]
  rfl

theorem valueOf_object {key : Text} (isKey : IsKey key) (t : Text) :
    valueOf key (nyPkgJsonStr key ++ (": \x7b".toList ++ t)) = none := by
  have found : looksLike key key = true := by simp [looksLike]
  have stops : Stops (": \x7b".toList ++ t) := stops_cons (c := ':') (by decide)
  rw [valueOf, keyed_eq, findText_str isKey.plain isKey.1
    (fun c first => isKey.free (stops c first)), if_pos found, Option.bind_some, List.drop_left]
  rfl

theorem valueOf_other {key v t : Text} (isKey : IsKey key) (stops : Stops t)
    (other : looksLike key v = false) : valueOf key (nyPkgJsonStr v ++ t) = valueOf key t := by
  rw [valueOf, keyed_eq, findText_str isKey.plain isKey.1
    (fun c first => isKey.free (stops c first)), other, if_neg Bool.false_ne_true, ← keyed_eq,
    valueOf]

theorem valueOf_str {key v t : Text} (isKey : IsKey key) (stops : Stops t)
    (noColon : ∀ value, t.dropWhile isSpace ≠ ':' :: value) :
    valueOf key (nyPkgJsonStr v ++ t) = valueOf key t := by
  cases like : looksLike key v with
  | false => exact valueOf_other isKey stops like
  | true =>
    rw [valueOf, keyed_eq, findText_str isKey.plain isKey.1
      (fun c first => isKey.free (stops c first)), like, if_pos rfl, Option.bind_some,
      List.drop_left]
    split
    · next value colon => exact absurd colon (noColon value)
    · rfl

end Keys

end Nytrix.Pkg
