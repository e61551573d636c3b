import Nytrix.Loader.Closure

/-! A scan of tokens adds what the items of the module ask for, one item after the other. -/

namespace Nytrix.Loader

open Nytrix.Types (nm ch)

section Suffixes

theorem useTail_suffix (name : Str) (t : Tok) (tokens : List Tok) :
    (useTail name t tokens).2 <:+ tokens := by
  fun_induction useTail name t tokens with
  | case1 name t => exact List.suffix_refl _
  | case2 name t next rest glued ih => exact ih.trans (List.suffix_cons _ _)
  | case3 name t next apart dot => exact List.nil_suffix
  | case4 name t next apart dot id rest part ih =>
    exact ih.trans ((List.suffix_cons _ _).trans (List.suffix_cons _ _))
  | case5 name t next apart dot id rest other => exact List.suffix_cons _ _
  | case6 name t next rest apart other => exact List.suffix_refl _

theorem parseUseName_suffix {entry : Tok} (rest : List Tok)
    (part : isNamePart entry = true ∨ entry.kind = .string) :
    (parseUseName entry rest).2 <:+ rest := by
  unfold parseUseName
  split
  · exact List.suffix_refl _
  · next other =>
    rw [if_pos (part.resolve_right other)]
    exact useTail_suffix _ _ _

theorem useName_suffix {entry : Tok} (rest : List Tok)
    (part : isNamePart entry = true ∨ entry.kind = .string) : (useName entry rest).2 <:+ rest := by
  have first := parseUseName_suffix rest part
  unfold useName
  split
  · next raw next_ behind parsed =>
    rw [parsed] at first
    split
    · next second =>
      -- The name goes on with the next token.
      have part' : isNamePart next_ = true := by simp [isNamePart, second.2.1]
      have tail := parseUseName_suffix behind (.inl part')
      have whole := (tail.trans (List.suffix_cons next_ behind)).trans first
      split
      · next parsed' =>
        rw [parsed'] at whole
        exact whole
      · next parsed' =>
        rw [parsed'] at whole
        exact (List.drop_suffix _ _).trans whole
    · exact first
  · exact first

theorem exportLeaves_suffix (depth : Nat) (tokens : List Tok) :
    (exportLeaves depth tokens).2 <:+ tokens := by
  induction tokens generalizing depth with
  | nil => exact List.nil_suffix
  | cons t rest ih =>
    have longer (depth : Nat) : (exportLeaves depth rest).2 <:+ t :: rest :=
      (ih depth).trans (List.suffix_cons t rest)
    rw [exportLeaves]
    split
    · exact longer _
    split
    · split
      · exact List.suffix_cons t rest
      · exact longer _
    · dsimp only
      split <;> exact longer _

theorem headerStep_suffix (exporting : Bool) (rest : List Tok) :
    (headerStep exporting rest).2 <:+ rest := by
  unfold headerStep
  split
  · exact List.suffix_refl _
  · next entry behind =>
    split
    · next part =>
      have named := (parseUseName_suffix behind (.inl part)).trans (List.suffix_cons entry behind)
      split
      · next name t after parsed =>
        rw [parsed] at named
        split
        · exact ((exportLeaves_suffix 1 after).trans (List.suffix_cons t after)).trans named
        · exact named
      · next _ parsed =>
        rw [parsed] at named
        exact named
    · exact List.suffix_refl _

theorem useStep_suffix (rest : List Tok) : (useStep rest).2 <:+ rest := by
  unfold useStep
  split
  · exact List.suffix_refl _
  · next entry behind =>
    split
    · next part =>
      have named : (useName entry behind).2 <:+ behind := by
        apply useName_suffix
        rcases part with ident | string
        · exact .inl (by simp [isNamePart, ident])
        · exact .inr string
      exact named.trans (List.suffix_cons entry behind)
    · exact List.suffix_cons entry behind

theorem tokenStep_suffix (exporting : Bool) (depth : Nat) (t : Tok) (rest : List Tok) :
    (tokenStep exporting depth t rest).2.2 <:+ rest := by
  unfold tokenStep
  split
  · exact List.suffix_refl _
  split
  · exact List.suffix_refl _
  split
  · exact headerStep_suffix exporting rest
  split
  · exact useStep_suffix rest
  · exact List.suffix_refl _

end Suffixes

section Items

variable (w : World) (skipStd : Bool) (idx : Nat) (baseDir : Str) (preferLocal : Bool)

/-- Adds what an item asks for, on behalf of the entry at an index. -/
def perform (mods : List Entry) (item : Item) : List Entry :=
  match item with
  | .use _ =>
    (itemRequests w skipStd baseDir preferLocal (depthAt mods idx) item).foldl modListAddEx mods
  | .header _ _ =>
    if depthAt mods idx = 0 then mods
    else (itemRequests w skipStd baseDir preferLocal (depthAt mods idx) item).foldl modListAddEx mods

theorem depthAt_add_ne_zero {mods : List Entry} (counts : depthAt mods idx ≠ 0) (r : Request) :
    depthAt (modListAddEx mods r) idx ≠ 0 := by
  unfold depthAt at counts ⊢
  cases here : mods[idx]? with
  | none => simp [here] at counts
  | some e =>
    simp only [here, Option.map_some, Option.getD_some] at counts
    have inside : idx < mods.length := (List.getElem?_eq_some_iff.mp here).1
    unfold modListAddEx
    split
    · -- An entry that is opened again counts deeper than before.
      rw [List.getElem?_map, here, Option.map_some, Option.map_some, Option.getD_some, Entry.raised]
      split
      · next more =>
        have deeper := more.2
        unfold nyExportDepthMorePermissive at deeper
        dsimp only
        split at deeper
        · omega
        · split at deeper
          · exact absurd deeper nofun
          · have := of_decide_eq_true deeper
            omega
      · exact counts
    · rw [List.getElem?_append_left inside, here, Option.map_some, Option.getD_some]
      exact counts

theorem depthAt_adds_ne_zero {mods : List Entry} (counts : depthAt mods idx ≠ 0)
    (requests : List Request) : depthAt (requests.foldl modListAddEx mods) idx ≠ 0 := by
  induction requests generalizing mods with
  | nil => exact counts
  | cons r requests ih => exact ih (depthAt_add_ne_zero idx counts r)

variable {w skipStd idx baseDir preferLocal}

theorem scanTokens_inside {n depth : Nat} (inside : 0 < depth) (t : Tok) (rest : List Tok)
    (mods : List Entry) :
    scanTokens w skipStd idx baseDir preferLocal (n + 1) depth (t :: rest) mods =
      scanTokens w skipStd idx baseDir preferLocal n
        (if opens t then depth + 1 else if closes t then depth - 1 else depth) rest mods := by
  have positive : depth ≠ 0 := by omega
  rw [scanTokens]
  unfold tokenStep
  cases opening : opens t with
  | true => rfl
  | false =>
    cases closing : closes t with
    | true => rfl
    | false => simp [positive]

/-- Without an export list being read, a plain one is passed over. -/
theorem scanTokens_plain {parens brackets n : Nat} {tokens : List Tok} (mods : List Entry)
    (open_ : 0 < brackets) (plain : plainList parens brackets tokens = true)
    (enough : tokens.length ≤ n) :
    ∃ m ≤ n, (exportLeaves parens tokens).2.length ≤ m ∧
      scanTokens w skipStd idx baseDir preferLocal n brackets tokens mods =
        scanTokens w skipStd idx baseDir preferLocal m 0 (exportLeaves parens tokens).2 mods := by
  induction tokens generalizing parens brackets n with
  | nil =>
    refine ⟨n, Nat.le_refl n, Nat.zero_le n, ?_⟩
    cases n <;> rfl
  | cons t rest ih =>
    obtain ⟨n, rfl⟩ : ∃ n', n = n' + 1 := ⟨n - 1, by simp only [List.length_cons] at enough; omega⟩
    have less : rest.length ≤ n := Nat.le_of_succ_le_succ enough
    -- One more step of the scan, and the rest by induction.
    have onward {parens' brackets' : Nat}
        (next : scanTokens w skipStd idx baseDir preferLocal (n + 1) brackets (t :: rest) mods =
          scanTokens w skipStd idx baseDir preferLocal n brackets' rest mods)
        (positive : 0 < brackets') (plain' : plainList parens' brackets' rest = true)
        (same : (exportLeaves parens (t :: rest)).2 = (exportLeaves parens' rest).2) :
        ∃ m ≤ n + 1, (exportLeaves parens (t :: rest)).2.length ≤ m ∧
          scanTokens w skipStd idx baseDir preferLocal (n + 1) brackets (t :: rest) mods =
            scanTokens w skipStd idx baseDir preferLocal m 0 (exportLeaves parens (t :: rest)).2
              mods := by
      obtain ⟨m, bound, enough', result⟩ := ih positive plain' less
      exact ⟨m, Nat.le_succ_of_le bound, same ▸ enough', by rw [next, result, same]⟩
    have step : scanTokens w skipStd idx baseDir preferLocal (n + 1) brackets (t :: rest) mods =
        scanTokens w skipStd idx baseDir preferLocal n
          (if opens t then brackets + 1 else if closes t then brackets - 1 else brackets) rest mods :=
      scanTokens_inside open_ t rest mods
    rw [plainList] at plain
    by_cases left : t.kind = .lparen
    · have opening : opens t = true := by simp [opens, left]
      rw [if_pos left] at plain
      rw [if_pos opening] at step
      exact onward step (Nat.succ_pos _) plain (by rw [exportLeaves, if_pos left])
    · rw [if_neg left] at plain
      by_cases right : t.kind = .rparen
      · have opening : ¬opens t = true := by simp [opens, right]
        have closing : closes t = true := by simp [closes, right]
        rw [if_pos right] at plain
        rw [if_neg opening, if_pos closing] at step
        by_cases last : parens = 1
        · -- The list ends here, and so do the brackets.
          rw [if_pos last] at plain
          obtain rfl : brackets = 1 := of_decide_eq_true plain
          have ends : (exportLeaves parens (t :: rest)).2 = rest := by
            rw [exportLeaves, if_neg left, if_pos right, if_pos last]
          exact ⟨n, Nat.le_succ n, by rw [ends]; exact less, by rw [step, ends]⟩
        · rw [if_neg last, Bool.and_eq_true] at plain
          have more := of_decide_eq_true plain.1
          exact onward step (by omega) plain.2
            (by rw [exportLeaves, if_neg left, if_pos right, if_neg last])
      · rw [if_neg right] at plain
        have same : (exportLeaves parens (t :: rest)).2 = (exportLeaves parens rest).2 := by
          rw [exportLeaves, if_neg left, if_neg right]
          dsimp only
          split <;> rfl
        by_cases opening : opens t = true
        · rw [if_pos opening] at plain step
          exact onward step (Nat.succ_pos _) plain same
        · rw [if_neg opening] at plain step
          by_cases closing : closes t = true
          · rw [if_pos closing, Bool.and_eq_true] at plain
            rw [if_pos closing] at step
            have more := of_decide_eq_true plain.1
            exact onward step (by omega) plain.2 same
          · rw [if_neg closing] at plain step
            exact onward step open_ plain same

theorem headerStep_cases (rest : List Tok) :
    headerStep true rest = headerStep false rest ∧ (headerStep false rest).1 = none ∨
      ∃ name t after, t.kind = .lparen ∧ headerStep false rest = (none, t :: after) ∧
        headerStep true rest =
          (some (.header name (exportLeaves 1 after).1), (exportLeaves 1 after).2) ∧
        plainHeader rest = plainList 1 1 after := by
  unfold headerStep plainHeader
  cases rest with
  | nil => exact .inl ⟨rfl, rfl⟩
  | cons entry behind =>
    by_cases part : isNamePart entry = true
    · simp only [if_pos part]
      cases parsed : parseUseName entry behind with
      | mk name after =>
        cases name with
        | none => exact .inl ⟨rfl, rfl⟩
        | some name =>
          cases after with
          | nil => exact .inl ⟨rfl, rfl⟩
          | cons t after =>
            by_cases list : t.kind = .lparen
            · exact .inr ⟨name, t, after, list, by simp, by simp [list], by simp [list]⟩
            · exact .inl ⟨by simp [list], by simp⟩
    · simp only [if_neg part]
      exact .inl ⟨trivial, trivial⟩

theorem tokenStep_other {depth : Nat} {t : Tok} (other : ¬(depth = 0 ∧ t.kind = .kwModule))
    (rest : List Tok) : tokenStep true depth t rest = tokenStep false depth t rest := by
  unfold tokenStep
  simp only [if_neg other]

theorem tokenStep_header {t : Tok} (header : t.kind = .kwModule) (exporting : Bool)
    (rest : List Tok) :
    tokenStep exporting 0 t rest =
      ((headerStep exporting rest).1, 0, (headerStep exporting rest).2) := by
  have opening : ¬opens t = true := by simp [opens, header]
  have closing : ¬closes t = true := by simp [closes, header]
  rw [tokenStep, if_neg opening, if_neg closing, if_pos ⟨rfl, header⟩]

theorem tokenStep_no_header {depth : Nat} {t : Tok} (other : ¬(depth = 0 ∧ t.kind = .kwModule))
    (exporting : Bool) (rest : List Tok) (name : Str) (leaves : List Str) :
    (tokenStep exporting depth t rest).1 ≠ some (.header name leaves) := by
  unfold tokenStep useStep
  simp only [if_neg other]
  repeat' split
  all_goals simp

theorem adds_eq_perform {mods : List Entry} {item : Option Item}
    (read : depthAt mods idx = 0 → ∀ name leaves, item ≠ some (.header name leaves)) :
    ((item.map (itemRequests w skipStd baseDir preferLocal (depthAt mods idx))).getD []).foldl
        modListAddEx mods =
      item.toList.foldl (perform w skipStd idx baseDir preferLocal) mods := by
  cases item with
  | none => rfl
  | some item =>
    cases item with
    | use raw => rfl
    | header name leaves =>
      have counts : depthAt mods idx ≠ 0 := fun zero => read zero name leaves rfl
      simp [perform, counts]

theorem depthAt_perform_ne_zero {mods : List Entry} (counts : depthAt mods idx ≠ 0) (item : Item) :
    depthAt (perform w skipStd idx baseDir preferLocal mods item) idx ≠ 0 := by
  cases item with
  | use raw => exact depthAt_adds_ne_zero idx counts _
  | header name leaves =>
    rw [perform, if_neg counts]
    exact depthAt_adds_ne_zero idx counts _

theorem depthAt_performs_ne_zero {mods : List Entry} (counts : depthAt mods idx ≠ 0)
    (item : Option Item) :
    depthAt (item.toList.foldl (perform w skipStd idx baseDir preferLocal) mods) idx ≠ 0 := by
  cases item with
  | none => exact counts
  | some item => exact depthAt_perform_ne_zero counts item

/-- A scan performs the items of a module in order, if its lists are read or plain. -/
theorem scanTokens_eq_items {n m k depth : Nat} {tokens : List Tok} {mods : List Entry}
    (enough : tokens.length ≤ n) (enough' : tokens.length ≤ m) (enough'' : tokens.length ≤ k)
    (plain : depthAt mods idx = 0 → plainFrom k depth tokens = true) :
    scanTokens w skipStd idx baseDir preferLocal n depth tokens mods =
      (itemsFrom m depth tokens).foldl (perform w skipStd idx baseDir preferLocal) mods := by
  induction n using Nat.strongRecOn generalizing m k depth tokens mods with
  | ind n ih =>
    cases tokens with
    | nil => cases n <;> cases m <;> rfl
    | cons t rest =>
      simp only [List.length_cons] at enough enough' enough''
      obtain ⟨n, rfl⟩ : ∃ n', n = n' + 1 := ⟨n - 1, by omega⟩
      obtain ⟨m, rfl⟩ : ∃ m', m = m' + 1 := ⟨m - 1, by omega⟩
      obtain ⟨k, rfl⟩ : ∃ k', k = k' + 1 := ⟨k - 1, by omega⟩
      have less := (tokenStep_suffix true depth t rest).length_le
      rw [scanTokens, itemsFrom, List.foldl_append]
      dsimp only
      have plainRest (zero : depthAt mods idx = 0) : plainFrom k
          (tokenStep true depth t rest).2.1 (tokenStep true depth t rest).2.2 = true := by
        have whole := plain zero
        rw [plainFrom, Bool.and_eq_true] at whole
        exact whole.2
      -- A token that is read in one way is followed by the rest.
      have onward (same : tokenStep (decide (depthAt mods idx ≠ 0)) depth t rest =
            tokenStep true depth t rest)
          (read : depthAt mods idx = 0 → ∀ name leaves,
            (tokenStep true depth t rest).1 ≠ some (.header name leaves)) :
          scanTokens w skipStd idx baseDir preferLocal n
              (tokenStep (decide (depthAt mods idx ≠ 0)) depth t rest).2.1
              (tokenStep (decide (depthAt mods idx ≠ 0)) depth t rest).2.2
              ((((tokenStep (decide (depthAt mods idx ≠ 0)) depth t rest).1.map
                (itemRequests w skipStd baseDir preferLocal (depthAt mods idx))).getD []).foldl
                  modListAddEx mods) =
            (itemsFrom m (tokenStep true depth t rest).2.1
              (tokenStep true depth t rest).2.2).foldl
                (perform w skipStd idx baseDir preferLocal)
                ((tokenStep true depth t rest).1.toList.foldl
                  (perform w skipStd idx baseDir preferLocal) mods) := by
        rw [same, adds_eq_perform read]
        apply ih n (Nat.lt_succ_self n) (k := k) (by omega) (by omega) (by omega)
        intro zero
        by_cases before : depthAt mods idx = 0
        · exact plainRest before
        · exact absurd zero (depthAt_performs_ne_zero before _)
      by_cases zero : depthAt mods idx = 0
      · have silent : decide (depthAt mods idx ≠ 0) = false := by simp [zero]
        by_cases header : depth = 0 ∧ t.kind = .kwModule
        · obtain ⟨rfl, header⟩ := header
          rcases headerStep_cases rest with
            ⟨same, nothing⟩ | ⟨name, t', after, list, passed, listed, lists⟩
          · -- There is no list to be read.
            apply onward
            · rw [silent, tokenStep_header header, tokenStep_header header, same]
            · intro _ name leaves
              rw [tokenStep_header header, same, nothing]
              exact nofun
          · -- The list is passed over token by token, and read at once.
            have whole := plain zero
            rw [plainFrom, if_pos ⟨rfl, header⟩, lists, Bool.and_eq_true] at whole
            have plainAfter := plainRest zero
            have shorter := (headerStep_suffix false rest).length_le
            rw [passed, List.length_cons] at shorter
            have opening : opens t' = true := by simp [opens, list]
            rw [tokenStep_header header, listed] at plainAfter less
            rw [silent, tokenStep_header header, tokenStep_header header, passed, listed]
            obtain ⟨n, rfl⟩ : ∃ n', n = n' + 1 := ⟨n - 1, by omega⟩
            obtain ⟨n', bound, enoughList, walked⟩ :
                ∃ n' ≤ n, (exportLeaves 1 after).2.length ≤ n' ∧
                  scanTokens w skipStd idx baseDir preferLocal n 1 after mods =
                    scanTokens w skipStd idx baseDir preferLocal n' 0 (exportLeaves 1 after).2
                      mods :=
              scanTokens_plain mods Nat.one_pos whole.1 (by omega)
            have opened : tokenStep (decide (depthAt mods idx ≠ 0)) 0 t' after = (none, 1, after) := by
              rw [tokenStep, if_pos opening]
            have skipped : perform w skipStd idx baseDir preferLocal mods
                (.header name (exportLeaves 1 after).1) = mods := by
              rw [perform, if_pos zero]
            dsimp only [Option.map_none, Option.getD_none, Option.toList_some, List.foldl_cons,
              List.foldl_nil] at less ⊢
            rw [skipped, scanTokens, opened]
            dsimp only [Option.map_none, Option.getD_none, List.foldl_nil]
            rw [walked]
            exact ih n' (by omega) enoughList (by omega) (by omega) fun _ => plainAfter
        · apply onward
          · rw [silent, tokenStep_other header]
          · intro _
            exact tokenStep_no_header header true rest
      · apply onward
        · rw [decide_eq_true zero]
        · intro none_
          exact absurd none_ zero

end Items

end Nytrix.Loader
