import Nytrix.Pkg.Returned

/-! Reading a written manifest line by line: no line of it says anything. -/

-- What holds of all members of a list is decided member by member.
attribute [local instance (2000)] List.decidableBAll

namespace Nytrix.Pkg

open Lib.Paths (Text)

section Lines

/-- A line with the break behind it. -/
def broken (line : Text) : Text := line ++ ['\n']

theorem linesOf_broken {lines : List Text} (clean : ∀ line ∈ lines, '\n' ∉ line) :
    linesOf (lines.flatMap broken) = lines := by
  have one (line rest : Text) (clean : '\n' ∉ line) :
      linesOf (line ++ '\n' :: rest) = line :: linesOf rest := by
    induction line with
    | nil => rfl
    | cons c line ih =>
      rw [List.mem_cons, not_or] at clean
      rw [List.cons_append, linesOf, if_neg (Ne.symm clean.1), ih clean.2]
  induction lines with
  | nil => rfl
  | cons line lines ih =>
    rw [List.flatMap_cons, broken, List.append_assoc, List.cons_append, List.nil_append,
      one line _ (clean line List.mem_cons_self),
      ih fun line among => clean line (List.mem_cons_of_mem _ among)]

theorem mem_withoutSpace {c : Char} {text : Text} (solid : isSpace c = false) (among : c ∈ text) :
    c ∈ withoutSpace text := by
  have kept {text : Text} (among : c ∈ text) : c ∈ text.dropWhile isSpace := by
    induction text with
    | nil => exact absurd among List.not_mem_nil
    | cons d text ih =>
      cases blank : isSpace d with
      | true =>
        rw [List.dropWhile_cons_of_pos blank]
        rcases List.mem_cons.mp among with rfl | later
        · rw [solid] at blank
          exact absurd blank nofun
        · exact ih later
      | false =>
        rw [List.dropWhile_cons_of_neg (by rw [blank]; exact Bool.false_ne_true)]
        exact among
  rw [withoutSpace, List.mem_reverse]
  exact kept (List.mem_reverse.mpr (kept among))

theorem mem_nyPkgTrimDup {c : Char} {text : Text} (solid : isSpace c = false)
    (other : c ≠ '"' ∧ c ≠ '\'') (among : c ∈ text) : c ∈ nyPkgTrimDup text := by
  have inside_ := mem_withoutSpace solid among
  unfold nyPkgTrimDup
  dsimp only
  split
  · next quotes =>
    -- The characters that are dropped are quotes.
    generalize withoutSpace text = s at inside_ quotes
    obtain ⟨long, ends⟩ := quotes
    cases s with
    | nil => exact absurd inside_ List.not_mem_nil
    | cons first rest =>
      have some_ : rest ≠ [] := by
        rintro rfl
        simp at long
      have last : (first :: rest).getLast? = some (rest.getLast some_) := by
        rw [List.getLast?_eq_some_getLast (List.cons_ne_nil _ _), List.getLast_cons some_]
      have headNe : c ≠ first := by
        rintro rfl
        rcases ends with ⟨head, -⟩ | ⟨head, -⟩
        · exact other.1 (Option.some.inj head)
        · exact other.2 (Option.some.inj head)
      have lastNe : c ≠ rest.getLast some_ := by
        rintro rfl
        rcases ends with ⟨-, tail⟩ | ⟨-, tail⟩
        · exact other.1 (Option.some.inj (last.symm.trans tail))
        · exact other.2 (Option.some.inj (last.symm.trans tail))
      have behind : c ∈ rest := (List.mem_cons.mp inside_).resolve_left headNe
      rw [← List.dropLast_append_getLast some_] at behind
      rcases List.mem_append.mp behind with before | final
      · exact before
      · exact absurd (List.mem_singleton.mp final) lastNe
  · exact inside_

theorem nyPkgTrimDup_solid {first last : Char} {text ws : Text}
    (blank : ∀ c ∈ ws, isSpace c = true) (solid : isSpace first = false ∧ isSpace last = false)
    (other : last ≠ '"' ∧ last ≠ '\'') :
    nyPkgTrimDup (ws ++ first :: (text ++ [last])) = first :: (text ++ [last]) := by
  have trimmed : withoutSpace (ws ++ first :: (text ++ [last])) = first :: (text ++ [last]) := by
    rw [withoutSpace, List.dropWhile_append_of_pos blank,
      List.dropWhile_cons_of_neg (by rw [solid.1]; exact Bool.false_ne_true), ← List.cons_append,
      List.reverse_append, List.reverse_singleton, List.singleton_append,
      List.dropWhile_cons_of_neg (by rw [solid.2]; exact Bool.false_ne_true)]
    simp
  have final : (first :: (text ++ [last])).getLast? = some last := by
    rw [← List.cons_append, List.getLast?_append]
    rfl
  rw [nyPkgTrimDup, trimmed]
  refine if_neg ?_
  rintro ⟨-, ⟨-, tail⟩ | ⟨-, tail⟩⟩
  · exact other.1 (Option.some.inj (final.symm.trans tail))
  · exact other.2 (Option.some.inj (final.symm.trans tail))

theorem parseLine_quoted {word text ws : Text} {last : Char}
    (blank : ∀ c ∈ ws, isSpace c = true) (clean : ∀ c ∈ word, isSpace c = false ∧ c ≠ '=')
    (solid : isSpace last = false ∧ last ≠ '"' ∧ last ≠ '\'') (m : Manifest) :
    parseLine m (ws ++ '"' :: (word ++ '"' :: ':' :: ' ' :: (text ++ [last]))) = m := by
  have shape : '"' :: (word ++ '"' :: ':' :: ' ' :: (text ++ [last])) =
      '"' :: ((word ++ '"' :: ':' :: ' ' :: text) ++ [last]) := by simp
  have trimmed : nyPkgTrimDup (ws ++ '"' :: (word ++ '"' :: ':' :: ' ' :: (text ++ [last]))) =
      '"' :: (word ++ '"' :: ':' :: ' ' :: (text ++ [last])) := by
    rw [shape]
    exact nyPkgTrimDup_solid blank ⟨by decide, solid.1⟩ solid.2
  have colon {name : Text} (among : ':' ∈ name) : nyPkgNameOk (nyPkgTrimDup name) = false := by
    have kept := mem_nyPkgTrimDup (by decide) (by decide) among
    rw [nyPkgNameOk, Bool.and_eq_false_iff, List.all_eq_false]
    exact .inr ⟨':', kept, by decide⟩
  have here (stop : Char → Bool) (free : ∀ c ∈ word, stop c = true) (quote : stop '"' = true)
      (colon : stop ':' = true) :
      ':' ∈ ('"' :: (word ++ '"' :: ':' :: ' ' :: (text ++ [last]))).takeWhile stop := by
    rw [List.takeWhile_cons_of_pos quote, List.takeWhile_append_of_pos free,
      List.takeWhile_cons_of_pos quote, List.takeWhile_cons_of_pos colon]
    simp
  rw [parseLine, trimmed]
  dsimp only
  rw [if_neg (by simp)]
  have nothing : nyPkgParseLineMeta m ('"' :: (word ++ '"' :: ':' :: ' ' :: (text ++ [last]))) =
      none := rfl
  rw [nothing]
  -- The name of the dependency would have a colon.
  unfold lineDep
  have dep : startsWith ('"' :: (word ++ '"' :: ':' :: ' ' :: (text ++ [last]))) "dep ".toList =
      false := rfl
  simp only [dep, if_false, Bool.false_eq_true]
  split
  · rfl
  · next name source found =>
    have bad : nyPkgNameOk name = false := by
      split at found
      · obtain ⟨rfl, -⟩ := Prod.mk.inj (Option.some.inj found)
        exact colon (here (fun c => c ≠ '=') (fun c among => decide_eq_true (clean c among).2)
          (by decide) (by decide))
      · split at found
        · obtain ⟨rfl, -⟩ := Prod.mk.inj (Option.some.inj found)
          exact colon (here (fun c => !isSpace c)
            (fun c among => by rw [(clean c among).1]; rfl) (by decide) (by decide))
        · cases found
    rw [if_neg]
    rw [bad]
    simp

end Lines

section Silence

/-- A line that says nothing. -/
def Quiet (line : Text) : Prop := '\n' ∉ line ∧ ∀ m, parseLine m line = m

/-- A text whose lines say nothing. -/
def Silent (text : Text) : Prop :=
  ∃ lines : List Text, text = lines.flatMap broken ∧ ∀ line ∈ lines, Quiet line

theorem Silent.parse {text : Text} (silent : Silent text) (m : Manifest) :
    nyPkgParseLineManifest m text = m := by
  obtain ⟨lines, rfl, quiet⟩ := silent
  rw [nyPkgParseLineManifest, linesOf_broken fun line among => (quiet line among).1]
  induction lines with
  | nil => rfl
  | cons line lines ih =>
    rw [List.foldl_cons, (quiet line List.mem_cons_self).2 m]
    exact ih fun line among => quiet line (List.mem_cons_of_mem _ among)

theorem silent_nil : Silent [] := ⟨[], rfl, fun _ among => absurd among List.not_mem_nil⟩

theorem Quiet.silent {line : Text} (quiet : Quiet line) : Silent (line ++ "\n".toList) :=
  ⟨[line], by simp [broken], fun other among => List.mem_singleton.mp among ▸ quiet⟩

theorem Silent.append {text text' : Text} (first : Silent text) (second : Silent text') :
    Silent (text ++ text') := by
  obtain ⟨lines, rfl, quiet⟩ := first
  obtain ⟨lines', rfl, quiet'⟩ := second
  refine ⟨lines ++ lines', List.flatMap_append.symm, fun line among => ?_⟩
  exact (List.mem_append.mp among).elim (quiet line) (quiet' line)

theorem break_not_mem_str (v : Text) : '\n' ∉ nyPkgJsonStr v := by
  have clean : '\n' ∉ inside v := by
    induction v with
    | nil => exact List.not_mem_nil
    | cons c v ih =>
      rw [inside_cons, List.mem_append, not_or]
      refine ⟨?_, ih⟩
      rcases escaped_cases c with ⟨special, written⟩ | ⟨_, written⟩ | ⟨⟨_, _, other⟩, written⟩
      · rw [written]
        rcases special with rfl | rfl <;> decide
      · rw [written]
        decide
      · rw [written]
        simpa using Ne.symm other
  have whole : nyPkgJsonStr v = '"' :: (inside v ++ ['"']) := rfl
  rw [whole]
  simpa using clean

theorem break_not_mem_object {d : Dep} (split : d.IsSplit) : '\n' ∉ objectText d := by
  have str := break_not_mem_str
  rw [objectText]
  simp only [List.mem_append, not_or]
  refine ⟨str _, by decide, str _, ?_⟩
  rcases jsonTail_cases d split with ⟨_, tail⟩ | ⟨r, _, tail⟩
  · rw [tail]
    exact List.not_mem_nil
  · rw [tail]
    simp only [List.mem_append, not_or]
    exact ⟨by decide, str _, by decide, str _, List.not_mem_nil⟩

theorem quiet_quoted {word text ws : Text} {last : Char} (plain : Plain word)
    (blank : ∀ c ∈ ws, isSpace c = true ∧ c ≠ '\n') (clean : ∀ c ∈ word, isSpace c = false ∧ c ≠ '=')
    (solid : isSpace last = false ∧ last ≠ '"' ∧ last ≠ '\'') (short : '\n' ∉ text) :
    Quiet (ws ++ (nyPkgJsonStr word ++ (": ".toList ++ (text ++ [last])))) := by
  have shape : ws ++ (nyPkgJsonStr word ++ (": ".toList ++ (text ++ [last]))) =
      ws ++ '"' :: (word ++ '"' :: ':' :: ' ' :: (text ++ [last])) := by
    rw [nyPkgJsonStr_append, inside_plain plain]
    rfl
  constructor
  · have final : '\n' ≠ last := by
      rintro rfl
      exact absurd solid.1 (by decide)
    simp only [List.mem_append, not_or, List.mem_singleton]
    exact ⟨fun among => (blank _ among).2 rfl, break_not_mem_str word, by decide, short, final⟩
  · intro m
    rw [shape]
    exact parseLine_quoted (fun c among => (blank c among).1) clean solid m

theorem silent_pair {pair : String × Text} (isKey : IsKey pair.1.toList) :
    Silent (pairText pair) := by
  have shape : pairText pair = ("  ".toList ++ (nyPkgJsonStr pair.1.toList ++ (": ".toList ++
      (nyPkgJsonStr pair.2 ++ [','])))) ++ "\n".toList := by
    rw [pairText]
    simp only [List.append_assoc]
    rfl
  rw [shape]
  refine Quiet.silent (quiet_quoted isKey.plain (by decide) (fun c among => ?_) (by decide)
    (break_not_mem_str _))
  have letter := isKey.2.2 c among
  exact ⟨isSpace_of_isAlpha letter, fun same => isKey.free (by decide) (same ▸ among)⟩

theorem plain_name {name : Text} (ok : nyPkgNameOk name = true) :
    Plain name ∧ ∀ c ∈ name, isSpace c = false ∧ c ≠ '=' := by
  rw [nyPkgNameOk, Bool.and_eq_true, List.all_eq_true] at ok
  have other {c d : Char} (among : c ∈ name) (bad : isNameChar d = false) : c ≠ d := by
    rintro rfl
    exact absurd ((ok.2 c among).symm.trans bad) (by decide)
  refine ⟨fun c among => ⟨other among (by decide), other among (by decide),
    other among (by decide)⟩, fun c among => ⟨?_, other among (by decide)⟩⟩
  rw [Bool.eq_false_iff]
  intro blank
  rcases isSpace_cases blank with rfl | ⟨n, five, rfl⟩
  · exact other among (d := ' ') (by decide) rfl
  · have control : ∀ n ∈ [9, 10, 11, 12, 13], isNameChar (Char.ofNat n) = false := by decide
    exact other among (control n five) rfl

theorem silent_items {items : List Dep}
    (each : ∀ d ∈ items, nyPkgNameOk d.name = true ∧ d.IsSplit) : Silent (itemsText items) := by
  have quiet (d : Dep) (ok : nyPkgNameOk d.name = true) (split : d.IsSplit) (text : Text)
      (last : Char) (solid : isSpace last = false ∧ last ≠ '"' ∧ last ≠ '\'')
      (short : '\n' ∉ text) :
      Quiet ("    ".toList ++ (nyPkgJsonStr d.name ++ (": ".toList ++ (text ++ [last])))) :=
    quiet_quoted (plain_name ok).1 (by decide) (plain_name ok).2 solid short
  induction items with
  | nil => exact silent_nil
  | cons d items ih =>
    obtain ⟨ok, split⟩ := each d List.mem_cons_self
    have object := break_not_mem_object split
    cases items with
    | nil =>
      have shape : itemsText [d] = ("    ".toList ++ (nyPkgJsonStr d.name ++ (": ".toList ++
          ('\x7b' :: objectText d ++ ['\x7d'])))) ++ "\n".toList := by
        rw [itemsText_one, depCore]
        simp only [List.append_assoc, List.cons_append]
      rw [shape]
      exact (quiet d ok split _ _ (by decide) (by simpa using object)).silent
    | cons d' items =>
      have shape : itemsText (d :: d' :: items) =
          (("    ".toList ++ (nyPkgJsonStr d.name ++ (": ".toList ++
            (('\x7b' :: (objectText d ++ ['\x7d'])) ++ [','])))) ++ "\n".toList) ++
              itemsText (d' :: items) := by
        rw [itemsText_cons, depCore]
        simp only [List.append_assoc, List.cons_append]
        rfl
      rw [shape]
      exact (quiet d ok split _ _ (by decide) (by simpa using object)).silent.append
        (ih fun d among => each d (List.mem_cons_of_mem _ among))

theorem silent_manifestText {m : Manifest}
    (each : ∀ d ∈ m.items, nyPkgNameOk d.name = true ∧ d.IsSplit) : Silent (manifestText m) := by
  have opening : Silent "\x7b\n".toList := (show Quiet ['\x7b'] from ⟨by decide, fun _ => rfl⟩).silent
  have pairs : Silent ((headerPairs m).flatMap pairText) := by
    have keys := fun pair among => (headerPairs_keys m pair among).1
    generalize headerPairs m = pairs at keys
    induction pairs with
    | nil => exact silent_nil
    | cons pair pairs ih =>
      exact (silent_pair (keys pair List.mem_cons_self)).append
        (ih fun pair among => keys pair (List.mem_cons_of_mem _ among))
  have word : Plain "dependencies".toList := IsKey.plain (by decide)
  have key : Quiet ("  ".toList ++ (nyPkgJsonStr "dependencies".toList ++ (": ".toList ++
      ([] ++ ['\x7b'])))) :=
    quiet_quoted word (by decide) (by decide) (by decide) List.not_mem_nil
  have closing : Silent ("  \x7d\n\x7d\n".toList) :=
    (show Quiet [' ', ' ', '\x7d'] from ⟨by decide, fun _ => rfl⟩).silent.append
      (show Quiet ['\x7d'] from ⟨by decide, fun _ => rfl⟩).silent
  have shape : depsText m.items = (("  ".toList ++ (nyPkgJsonStr "dependencies".toList ++
      (": ".toList ++ ([] ++ ['\x7b'])))) ++ "\n".toList) ++
        (itemsText m.items ++ "  \x7d\n\x7d\n".toList) := by
    rw [depsText, depsInner]
    simp only [List.append_assoc, List.nil_append, List.cons_append]
    rfl
  rw [manifestText_eq, shape]
  exact opening.append (pairs.append (key.silent.append ((silent_items each).append closing)))

end Silence

end Nytrix.Pkg
