import Mathlib.Tactic.Ring
import Nytrix.Lib.Blocks
import Nytrix.Lib.Occurrences
import Nytrix.Str.CodePoints

/-! Splitting, joining and replacing in strings, which agree on the leftmost occurrences. -/

namespace Nytrix.Str

open Nytrix.Codec Nytrix.Lib

/-- A list made with room for a number of items. -/
structure Reserved where
  cap : Nat
  items : List Text

/-- An item put behind the others, unless there is no room. -/
def listPushReserved (lst : Reserved) (v : Text) : Reserved :=
  if lst.cap ≤ lst.items.length then lst else { lst with items := lst.items ++ [v] }

/-- The bytes between two positions. -/
def substr (s : Text) (start stop : Nat) : Text :=
  let stop := min stop s.length
  if stop ≤ start then [] else (s.drop start).take (stop - start)

/-- A fresh block of bytes. -/
def malloc (n : Nat) : Block UInt8 := ⟨n, fun _ => 0⟩

/-- A text copied to a place in a block. -/
def memcpy (out : Block UInt8) (dst : Nat) (src : Text) : Option (Block UInt8) :=
  out.copy dst src.length fun i => src.getD i 0

/-- The string that a block holds. -/
def strOf (out : Block UInt8) (len : Nat) : Text := (List.range len).map out.cells

/-- The text of every code point, pushed one after another. -/
def splitPoints (s : Text) : List Text :=
  ((List.range (utf8Len s)).foldl (fun out (ci : Nat) => listPushReserved out (chr (ordAt s ci)))
    ⟨utf8Len s, []⟩).items

/-- The strings between the occurrences of a separator; the code points when it is empty. -/
def split (s sep : Text) : Option (List Text) :=
  if positive : 0 < sep.length then do
    let (_, parts) ← sweep (matchAt s sep) sep.length s.length positive
      (fun _ parts => some (parts + 1)) (fun _ parts => some parts) 0 1
    let (_, out, start) ← sweep (matchAt s sep) sep.length s.length positive
      (fun i (out, start) => some (listPushReserved out (substr s start i), i + sep.length))
      (fun _ st => some st) 0 ((⟨parts, []⟩ : Reserved), 0)
    some (listPushReserved out (substr s start s.length)).items
  else some (splitPoints s)

/-- A text copied to a place in a block, if there is something to copy. -/
def memcpySome (out : Block UInt8) (dst : Nat) (src : Text) : Option (Block UInt8) :=
  if 0 < src.length then memcpy out dst src else some out

/-- The strings written to a block, with the separator behind each but the last. -/
def joinParts (sep : Text) : List Text → Block UInt8 → Nat → Option (Block UInt8)
  | [], out, _ => some out
  | [part], out, pos => memcpySome out pos part
  | part :: next :: rest, out, pos =>
    (memcpySome out pos part).bind fun out =>
      (memcpySome out (pos + part.length) sep).bind fun out =>
        joinParts sep (next :: rest) out (pos + part.length + sep.length)

/-- The strings of a list, with a separator between them. -/
def join (items : List Text) (sep : Text) : Option Text :=
  match items with
  | [] => some []
  | [one] => some (substr one 0 one.length)
  | _ =>
    let total := sep.length * (items.length - 1) + (items.map List.length).sum
    (joinParts sep items (malloc (total + 1)) 0).bind fun out =>
      (out.store total 0).map (strOf · total)

/-- The rest of a string copied to a block, byte by byte. -/
def copyRest (s : Text) (src : Nat) (out : Block UInt8) (dst : Nat) : Option (Block UInt8) :=
  if src < s.length then
    (memcpy out dst [s.getD src 0]).bind fun out => copyRest s (src + 1) out (dst + 1)
  else some out
termination_by s.length - src

/-- The string with every occurrence of a text replaced. -/
def strReplace (s old new : Text) : Option Text :=
  if positive : 0 < old.length then do
    let n := s.length
    let (_, count) ← sweep (matchAt s old) old.length n positive
      (fun _ count => some (count + 1)) (fun _ count => some count) 0 (0 : Nat)
    if count = 0 then some (substr s 0 n)
    else
      let total : Int := n + (count : Int) * ((new.length : Int) - old.length)
      let (src, out, dst) ← sweep (matchAt s old) old.length n positive
        (fun _ (out, dst) => (memcpySome out dst new).map (·, dst + new.length))
        (fun src (out, dst) => (memcpy out dst [s.getD src 0]).map (·, dst + 1))
        0 (malloc (total + 1).toNat, 0)
      (copyRest s src out dst).bind fun out =>
        (out.store total.toNat 0).map (strOf · total.toNat)
  else some (substr s 0 s.length)

section Laws

variable {s sep : Text}

theorem matchAt_iff {i : Nat} : matchAt s sep i = true ↔ sep <+: s.drop i :=
  List.isPrefixOf_iff_prefix

theorem matchAt_eq : (fun i => matchAt s sep i = true) = fun i => sep <+: s.drop i :=
  funext fun _ => propext matchAt_iff

theorem matchAt_bounded (positive : 0 < sep.length) {i : Nat} (found : matchAt s sep i = true) :
    i + sep.length ≤ s.length := by
  have short := (matchAt_iff.mp found).length_le
  rw [List.length_drop] at short
  omega

theorem exists_places (s : Text) (positive : 0 < sep.length) :
    ∃ places, Leftmost (matchAt s sep · = true) sep.length 0 places :=
  exists_leftmost positive (fun i found => show i < s.length by
    have := matchAt_bounded positive found
    omega) 0

theorem substr_eq (s : Text) (start stop : Nat) :
    substr s start stop = (s.drop start).take (stop - start) := by
  unfold substr
  dsimp only
  split
  · next empty =>
    rcases Nat.le_total stop s.length with low | high
    · rw [Nat.min_eq_left low] at empty
      rw [Nat.sub_eq_zero_of_le empty, List.take_zero]
    · rw [Nat.min_eq_right high] at empty
      rw [List.drop_eq_nil_of_le empty, List.take_nil]
  · rcases Nat.le_total stop s.length with low | high
    · rw [Nat.min_eq_left low]
    · rw [Nat.min_eq_right high, List.take_of_length_le (Nat.le_of_eq List.length_drop),
        List.take_of_length_le (by rw [List.length_drop]; omega)]

theorem substr_length (s : Text) (start : Nat) : substr s start s.length = s.drop start := by
  rw [substr_eq, List.take_of_length_le (Nat.le_of_eq List.length_drop)]

theorem listPushReserved_eq {lst : Reserved} (room : lst.items.length < lst.cap) (v : Text) :
    listPushReserved lst v = ⟨lst.cap, lst.items ++ [v]⟩ :=
  if_neg (Nat.not_le.mpr room)

theorem sweep_count (positive : 0 < sep.length) {places : List Nat}
    (leftmost : Leftmost (matchAt s sep · = true) sep.length 0 places) (start : Nat) :
    ∃ j, sweep (matchAt s sep) sep.length s.length positive (fun _ count => some (count + 1))
      (fun _ count => some count) 0 start = some (j, start + places.length) := by
  obtain ⟨j, count, done, same, -⟩ := sweep_rule positive
    (fun _ count => some (count + 1)) (fun _ count => some count)
    (fun ps _ count => count + ps.length = start + places.length)
    (fun i => matchAt_bounded positive)
    (fun i later count _ _ total => ⟨count + 1, rfl, by rw [← total, List.length_cons]; omega⟩)
    (fun i ps count _ _ _ total => ⟨count, rfl, total⟩) leftmost start rfl
  refine ⟨j, ?_⟩
  rw [done, ← same, List.length_nil, Nat.add_zero]

theorem split_eq (positive : 0 < sep.length) {places : List Nat}
    (leftmost : Leftmost (matchAt s sep · = true) sep.length 0 places) :
    split s sep = some (pieces s sep.length 0 places) := by
  obtain ⟨_, counted⟩ := sweep_count positive leftmost 1
  -- What has been pushed and what is left are the pieces, and there is room for the latter.
  obtain ⟨_, ⟨out, start⟩, built, ⟨whole, room⟩, -⟩ := sweep_rule positive
    (fun i (out, start) => some (listPushReserved out (substr s start i), i + sep.length))
    (fun _ st => some st)
    (fun ps _ (st : Reserved × Nat) =>
      st.1.items ++ pieces s sep.length st.2 ps = pieces s sep.length 0 places ∧
        st.1.items.length + ps.length < st.1.cap)
    (fun i => matchAt_bounded positive)
    (fun i later st _ _ ⟨whole, room⟩ => by
      rw [List.length_cons] at room
      refine ⟨_, rfl, ?_, ?_⟩
      · rw [listPushReserved_eq (by omega), substr_eq, ← whole, pieces, List.append_assoc]
        rfl
      · rw [listPushReserved_eq (by omega), List.length_append, List.length_singleton]
        dsimp only
        omega)
    (fun i ps st _ _ _ holds => ⟨st, rfl, holds⟩)
    leftmost (⟨1 + places.length, []⟩, 0)
    ⟨List.nil_append _, by simp only [List.length_nil]; omega⟩
  simp only [pieces] at whole
  have room : out.items.length < out.cap := room
  have last := listPushReserved_eq room (substr s start s.length)
  rw [split, dif_pos positive, counted, Option.bind_eq_bind, Option.bind_some]
  simp only [built, Option.bind_eq_bind, Option.bind_some, last]
  rw [substr_length, whole]

theorem length_intercalate (sep : Text) {items : List Text} (nonempty : items ≠ []) :
    (List.intercalate sep items).length =
      sep.length * (items.length - 1) + (items.map List.length).sum := by
  induction items with
  | nil => exact absurd rfl nonempty
  | cons part rest ih =>
    cases rest with
    | nil => simp
    | cons next rest =>
      rw [List.intercalate_cons_cons, List.length_append, List.length_append,
        ih (List.cons_ne_nil _ _)]
      simp only [List.length_cons, List.map_cons, List.sum_cons, Nat.add_sub_cancel, Nat.mul_succ]
      omega

theorem memcpy_begins {out : Block UInt8} {l : Text} (begins : out.Begins l) (src : Text)
    (fits : l.length + src.length ≤ out.size) :
    ∃ c, memcpy out l.length src = some c ∧ c.size = out.size ∧ c.Begins (l ++ src) :=
  begins.exists_copy fits fun i x found => by
    rw [List.getD_eq_getElem?_getD, found, Option.getD_some]

theorem memcpySome_begins {out : Block UInt8} {l : Text} (begins : out.Begins l) (src : Text)
    (fits : l.length + src.length ≤ out.size) :
    ∃ c, memcpySome out l.length src = some c ∧ c.size = out.size ∧ c.Begins (l ++ src) := by
  unfold memcpySome
  split
  · exact memcpy_begins begins src fits
  · next empty =>
    have none : src = [] := List.eq_nil_of_length_eq_zero (Nat.eq_zero_of_not_pos empty)
    exact ⟨out, rfl, rfl, by rw [none, List.append_nil]; exact begins⟩

theorem joinParts_eq (sep : Text) (items : List Text) {out : Block UInt8} {l : Text}
    (begins : out.Begins l)
    (fits : l.length + (List.intercalate sep items).length ≤ out.size) :
    ∃ c, joinParts sep items out l.length = some c ∧ c.size = out.size ∧
      c.Begins (l ++ List.intercalate sep items) := by
  induction items generalizing out l with
  | nil => exact ⟨out, rfl, rfl, by rw [List.intercalate_nil, List.append_nil]; exact begins⟩
  | cons part rest ih =>
    cases rest with
    | nil =>
      rw [List.intercalate_singleton] at fits ⊢
      exact memcpySome_begins begins _ fits
    | cons next rest =>
      rw [List.intercalate_cons_cons, List.length_append, List.length_append] at fits
      obtain ⟨c, first, sizeC, placedC⟩ := memcpySome_begins begins part (by omega)
      have room : (l ++ part).length + sep.length ≤ c.size := by
        rw [List.length_append, sizeC]
        omega
      obtain ⟨d, second, sizeD, placedD⟩ := memcpySome_begins placedC sep room
      obtain ⟨e, later, sizeE, placedE⟩ := ih placedD (by
        rw [List.length_append, List.length_append, sizeD, sizeC]
        omega)
      refine ⟨e, ?_, sizeE.trans (sizeD.trans sizeC), ?_⟩
      · rw [List.length_append] at second
        rw [List.length_append, List.length_append] at later
        rw [joinParts, first, Option.bind_some, second, Option.bind_some, later]
      · rw [List.intercalate_cons_cons, ← List.append_assoc, ← List.append_assoc]
        exact placedE

theorem strOf_eq {out : Block UInt8} {whole : Text} (begins : out.Begins whole)
    (size : out.size = whole.length + 1) :
    (out.store whole.length 0).map (strOf · whole.length) = some whole := by
  obtain ⟨c, done, -, kept⟩ :=
    begins.exists_store (Nat.le_refl _) (by rw [size]; exact Nat.lt_succ_self _) 0
  rw [done, Option.map_some, strOf, kept.map_range]

theorem join_eq (items : List Text) (sep : Text) :
    join items sep = some (List.intercalate sep items) := by
  unfold join
  split
  · rfl
  · rw [substr_length, List.drop_zero, List.intercalate_singleton]
  · next many _ =>
    have nonempty : items ≠ [] := by
      rintro rfl
      exact many rfl
    have total := length_intercalate sep nonempty
    obtain ⟨c, done, size, begins⟩ := joinParts_eq sep items
      (Block.begins_nil (malloc ((List.intercalate sep items).length + 1)))
      (by simp [malloc])
    rw [List.length_nil] at done
    dsimp only
    rw [← total, done, Option.bind_some]
    exact strOf_eq begins size

theorem copyRest_eq {whole : Text} {src : Nat} {out : Block UInt8} {l : Text}
    (begins : out.Begins l) (same : l ++ s.drop src = whole) (size : out.size = whole.length + 1) :
    ∃ c, copyRest s src out l.length = some c ∧ c.size = out.size ∧ c.Begins whole := by
  induction distance : s.length - src generalizing src out l with
  | zero =>
    rw [List.drop_eq_nil_of_le (by omega), List.append_nil] at same
    exact ⟨out, by rw [copyRest, if_neg (by omega)], rfl, same ▸ begins⟩
  | succ n ih =>
    have inside : src < s.length := by omega
    have head : s.getD src 0 = s[src] := by
      rw [List.getD_eq_getElem?_getD, List.getElem?_eq_getElem inside, Option.getD_some]
    rw [List.drop_eq_getElem_cons inside] at same
    have long := congrArg List.length same
    rw [List.length_append, List.length_cons] at long
    obtain ⟨c, done, sizeC, placed⟩ :=
      memcpy_begins begins [s[src]] (by rw [List.length_singleton]; omega)
    obtain ⟨d, later, sizeD, whole'⟩ := ih placed (by rw [List.append_assoc]; exact same)
      (sizeC.trans size) (by omega)
    rw [List.length_append] at later
    refine ⟨d, ?_, sizeD.trans sizeC, whole'⟩
    rw [copyRest, if_pos inside, head, done, Option.bind_some]
    exact later

/-- What the replacing pass keeps: its block begins with a part of the result, and is as long. -/
structure Writes (s sep new whole : Text) (places : List Nat) (i : Nat) (st : Block UInt8 × Nat) :
    Prop where
  size : st.1.size = whole.length + 1
  begins : ∃ l, st.1.Begins l ∧ st.2 = l.length ∧
    l ++ List.intercalate new (pieces s sep.length i places) = whole

theorem Writes.hit {new whole : Text} {later : List Nat} {i : Nat} {st : Block UInt8 × Nat}
    (writes : Writes s sep new whole (i :: later) i st) :
    ∃ st', (memcpySome st.1 st.2 new).map (·, st.2 + new.length) = some st' ∧
      Writes s sep new whole later (i + sep.length) st' := by
  obtain ⟨size, l, begins, place, whole'⟩ := writes
  rw [intercalate_pieces_hit] at whole'
  have long := congrArg List.length whole'
  rw [List.length_append, List.length_append] at long
  obtain ⟨c, done, sizeC, placed⟩ := memcpySome_begins begins new (by omega)
  refine ⟨(c, st.2 + new.length), by rw [place, done, Option.map_some], sizeC.trans size, l ++ new,
    placed, by rw [place, List.length_append], ?_⟩
  rw [List.append_assoc]
  exact whole'

theorem Writes.skip {new whole : Text} {places : List Nat} {i : Nat} {st : Block UInt8 × Nat}
    (writes : Writes s sep new whole places i st) (inside : i < s.length)
    (leftmost : Leftmost (matchAt s sep · = true) sep.length i places)
    (missing : matchAt s sep i = false) :
    ∃ st', (memcpy st.1 st.2 [s.getD i 0]).map (·, st.2 + 1) = some st' ∧
      Writes s sep new whole places (i + 1) st' := by
  obtain ⟨size, l, begins, place, whole'⟩ := writes
  have head : s[i]? = some (s.getD i 0) := by
    rw [List.getD_eq_getElem?_getD, List.getElem?_eq_getElem inside, Option.getD_some]
  rw [intercalate_pieces_skip new leftmost (by rw [missing]; decide) head] at whole'
  have long := congrArg List.length whole'
  rw [List.length_append, List.length_cons] at long
  obtain ⟨c, done, sizeC, placed⟩ := memcpy_begins begins [s.getD i 0]
    (by rw [List.length_singleton]; omega)
  refine ⟨(c, st.2 + 1), by rw [place, done, Option.map_some], sizeC.trans size,
    l ++ [s.getD i 0], placed, by rw [place, List.length_append, List.length_singleton], ?_⟩
  rw [List.append_assoc]
  exact whole'

theorem strReplace_eq (positive : 0 < sep.length) {places : List Nat}
    (leftmost : Leftmost (matchAt s sep · = true) sep.length 0 places) (new : Text) :
    strReplace s sep new = some (List.intercalate new (pieces s sep.length 0 places)) := by
  obtain ⟨_, counted⟩ := sweep_count positive leftmost 0
  rw [Nat.zero_add] at counted
  rw [strReplace, dif_pos positive]
  simp only [counted, Option.bind_eq_bind, Option.bind_some]
  by_cases empty : places = []
  · rw [empty, pieces, List.length_nil]
    simp only [if_true, substr_length, List.intercalate_singleton]
  · have many : places.length ≠ 0 := mt List.eq_nil_of_length_eq_zero empty
    -- The room is the length of the result, because the pieces are those of the string.
    have whole := intercalate_pieces (matchAt_eq ▸ leftmost)
    have before := length_intercalate sep (pieces_ne_nil s sep.length 0 places)
    have after := length_intercalate new (pieces_ne_nil s sep.length 0 places)
    rw [whole, List.drop_zero, length_pieces, Nat.add_sub_cancel] at before
    rw [length_pieces, Nat.add_sub_cancel] at after
    have total : (s.length : Int) + places.length * ((new.length : Int) - sep.length) =
        (List.intercalate new (pieces s sep.length 0 places)).length := by
      rw [before, after]
      push_cast
      ring
    -- What has been written and what is still to come is the result.
    obtain ⟨src, ⟨out, dst⟩, built, ⟨size, l, begins, rfl, written⟩, -⟩ :=
      sweep_rule positive
        (fun _ (out, dst) => (memcpySome out dst new).map (·, dst + new.length))
        (fun src (out, dst) => (memcpy out dst [s.getD src 0]).map (·, dst + 1))
        (Writes s sep new (List.intercalate new (pieces s sep.length 0 places)))
        (fun i => matchAt_bounded positive) (fun _ _ _ _ _ writes => writes.hit)
        (fun _ _ _ within leftmost missing writes =>
          writes.skip (by omega) leftmost missing) leftmost
        (malloc ((List.intercalate new (pieces s sep.length 0 places)).length + 1), 0)
        ⟨rfl, [], Block.begins_nil _, rfl, List.nil_append _⟩
    rw [pieces, List.intercalate_singleton] at written
    obtain ⟨c, copied, sizeC, whole'⟩ := copyRest_eq begins written size
    simp only [if_neg many, total, Int.toNat_natCast_add_one, Int.toNat_natCast, built,
      Option.bind_some, copied]
    exact strOf_eq whole' (sizeC.trans size)

/-- The parts of a string between the leftmost occurrences of a separator. -/
structure SplitsAt (s sep : Text) (parts : List Text) (places : List Nat) : Prop where
  leftmost : Leftmost (fun i => sep <+: s.drop i) sep.length 0 places
  between : parts = pieces s sep.length 0 places
  count : parts.length = places.length + 1
  clear : ∀ part ∈ parts, ¬sep <:+: part

end Laws

end Nytrix.Str
