import Nytrix.Codec.Text

/-! Comma-separated values: rows of cells written as text and read back. -/

namespace Nytrix.Codec

/-- What has been read: rows, the cells of the last one, its last cell, and whether in quotes. -/
structure Reading where
  rows : List (List Text)
  row : List Text
  cell : Text
  inQuote : Bool
  deriving DecidableEq

/-- More bytes in the last cell. -/
def Reading.more (r : Reading) (bytes : Text) : Reading := { r with cell := r.cell ++ bytes }

/-- The last cell ends. -/
def Reading.endCell (r : Reading) : Reading := { r with row := r.row ++ [r.cell], cell := [] }

/-- The last cell and its row end. -/
def Reading.endRow (r : Reading) : Reading :=
  { r with rows := r.rows ++ [r.row ++ [r.cell]], row := [], cell := [] }

/-- The rows that the bytes left add. -/
def decodeFrom (sCode : UInt8) : Text → Reading → List (List Text)
  | [], r => if 0 < r.cell.length ∨ 0 < r.row.length then r.endRow.rows else r.rows
  | c :: rest, r =>
    if r.inQuote then
      if c = 34 then
        match rest with
        | 34 :: rest => decodeFrom sCode rest (r.more [34])
        | rest => decodeFrom sCode rest { r with inQuote := false }
      else decodeFrom sCode rest (r.more (chr c.toNat))
    else if c = 34 then decodeFrom sCode rest { r with inQuote := true }
    else if c = sCode then decodeFrom sCode rest r.endCell
    else if c = 10 then decodeFrom sCode rest r.endRow
    else if c = 13 then
      match rest with
      | 10 :: rest => decodeFrom sCode rest r.endRow
      | rest => decodeFrom sCode rest r.endRow
    else decodeFrom sCode rest (r.more (chr c.toNat))

/-- The rows of a text. -/
def decode (data sep : Text) : List (List Text) :=
  decodeFrom (sep.headD 0) data ⟨[], [], [], false⟩

/-- Whether a cell is written in quotes. -/
def needsQuote (cell sep : Text) : Bool :=
  strContains cell sep || strContains cell [34] || strContains cell [10] || strContains cell [13]

/-- How a byte is written in quotes. -/
def escapeByte (c : UInt8) : Text := if c = 34 then [34, 34] else chr c.toNat

/-- How a cell is written. -/
def encodeCell (sep cell : Text) : Text :=
  if needsQuote cell sep then [34] ++ cell.flatMap escapeByte ++ [34] else cell

/-- How the cells of a row are written. -/
def encodeRow (sep : Text) : List Text → Text
  | [] => [10]
  | [cell] => encodeCell sep cell ++ [10]
  | cell :: next :: rest => encodeCell sep cell ++ sep ++ encodeRow sep (next :: rest)

/-- How rows are written. -/
def encode (rows : List (List Text)) (sep : Text) : Text := rows.flatMap (encodeRow sep)

section Steps

variable {sep c : UInt8} {rest : Text} {r : Reading}

theorem decodeFrom_cons : decodeFrom sep (c :: rest) r =
    if r.inQuote then
      if c = 34 then
        match rest with
        | 34 :: rest => decodeFrom sep rest (r.more [34])
        | rest => decodeFrom sep rest { r with inQuote := false }
      else decodeFrom sep rest (r.more (chr c.toNat))
    else if c = 34 then decodeFrom sep rest { r with inQuote := true }
    else if c = sep then decodeFrom sep rest r.endCell
    else if c = 10 then decodeFrom sep rest r.endRow
    else if c = 13 then
      match rest with
      | 10 :: rest => decodeFrom sep rest r.endRow
      | rest => decodeFrom sep rest r.endRow
    else decodeFrom sep rest (r.more (chr c.toNat)) :=
  decodeFrom.eq_def sep (c :: rest) r

theorem decodeFrom_quoted (inside : r.inQuote = true) (other : c ≠ 34) :
    decodeFrom sep (c :: rest) r = decodeFrom sep rest (r.more (chr c.toNat)) := by
  rw [decodeFrom_cons]
  simp only [inside, other, if_true, if_false]

theorem decodeFrom_doubled (inside : r.inQuote = true) :
    decodeFrom sep (34 :: 34 :: rest) r = decodeFrom sep rest (r.more [34]) := by
  rw [decodeFrom_cons]
  simp only [inside, if_true]

theorem decodeFrom_close (inside : r.inQuote = true) (ends : rest.head? ≠ some 34) :
    decodeFrom sep (34 :: rest) r = decodeFrom sep rest { r with inQuote := false } := by
  rw [decodeFrom_cons]
  simp only [inside, if_true]
  split
  · exact absurd rfl ends
  · rfl

theorem decodeFrom_open (outside : r.inQuote = false) :
    decodeFrom sep (34 :: rest) r = decodeFrom sep rest { r with inQuote := true } := by
  rw [decodeFrom_cons]
  simp only [outside, Bool.false_eq_true, if_false, if_true]

theorem decodeFrom_separator (outside : r.inQuote = false) (quote : sep ≠ 34) :
    decodeFrom sep (sep :: rest) r = decodeFrom sep rest r.endCell := by
  rw [decodeFrom_cons]
  simp only [outside, quote, Bool.false_eq_true, if_false, if_true]

theorem decodeFrom_line (outside : r.inQuote = false) (line : sep ≠ 10) :
    decodeFrom sep (10 :: rest) r = decodeFrom sep rest r.endRow := by
  rw [decodeFrom_cons]
  simp [outside, line.symm]

theorem decodeFrom_byte (outside : r.inQuote = false)
    (plain : c ≠ 34 ∧ c ≠ sep ∧ c ≠ 10 ∧ c ≠ 13) :
    decodeFrom sep (c :: rest) r = decodeFrom sep rest (r.more (chr c.toNat)) := by
  obtain ⟨quote, other, line, back⟩ := plain
  rw [decodeFrom_cons]
  simp only [outside, quote, other, line, back, Bool.false_eq_true, if_false]

end Steps

section Cells

variable {sep : UInt8} {cell : Text}

theorem plain_of_not_needsQuote (plain : needsQuote cell [sep] = false) :
    ∀ c ∈ cell, c ≠ 34 ∧ c ≠ sep ∧ c ≠ 10 ∧ c ≠ 13 := by
  simp only [needsQuote, Bool.or_eq_false_iff] at plain
  obtain ⟨⟨⟨noSep, noQuote⟩, noLine⟩, noReturn⟩ := plain
  have absent {b : UInt8} (none : strContains cell [b] = false) : b ∉ cell := by
    intro member
    rw [(strContains_byte cell b).mpr member] at none
    cases none
  intro c member
  refine ⟨?_, ?_, ?_, ?_⟩
  · rintro rfl
    exact absent noQuote member
  · rintro rfl
    exact absent noSep member
  · rintro rfl
    exact absent noLine member
  · rintro rfl
    exact absent noReturn member

theorem decodeFrom_plain (text rest : Text) (r : Reading) (outside : r.inQuote = false)
    (plain : ∀ c ∈ text, c ≠ 34 ∧ c ≠ sep ∧ c ≠ 10 ∧ c ≠ 13) :
    decodeFrom sep (text ++ rest) r = decodeFrom sep rest (r.more (spread text)) := by
  induction text generalizing r with
  | nil => simp [spread, Reading.more]
  | cons c text ih =>
    rw [List.forall_mem_cons] at plain
    rw [List.cons_append, decodeFrom_byte outside plain.1,
      ih (r.more (chr c.toNat)) outside plain.2]
    simp [Reading.more, spread]

theorem decodeFrom_inside (text rest : Text) (r : Reading) (inside : r.inQuote = true)
    (other : 34 ∉ text) :
    decodeFrom sep (text ++ rest) r = decodeFrom sep rest (r.more (spread text)) := by
  induction text generalizing r with
  | nil => simp [spread, Reading.more]
  | cons c text ih =>
    rw [List.mem_cons, not_or] at other
    rw [List.cons_append, decodeFrom_quoted inside (Ne.symm other.1),
      ih (r.more (chr c.toNat)) inside other.2]
    simp [Reading.more, spread]

theorem decodeFrom_escaped (text rest : Text) (r : Reading) (inside : r.inQuote = true) :
    decodeFrom sep (text.flatMap escapeByte ++ rest) r =
      decodeFrom sep rest (r.more (spread (spread text))) := by
  induction text generalizing r with
  | nil => simp [spread, Reading.more]
  | cons c text ih =>
    rw [List.flatMap_cons, List.append_assoc, escapeByte]
    split
    · next quote =>
      -- A doubled quote stands for one.
      subst quote
      rw [List.cons_append, List.cons_append, List.nil_append, decodeFrom_doubled inside,
        ih (r.more [34]) inside]
      have itself : spread (spread (34 :: text)) = 34 :: spread (spread text) := by
        have one : chr (34 : UInt8).toNat = [34] := by decide
        simp only [spread, List.flatMap_cons, List.flatMap_append, one, List.singleton_append]
      simp [itself, Reading.more]
    · next other =>
      rw [decodeFrom_inside _ _ _ inside (ascii_not_mem_chr (by decide) other),
        ih (r.more (spread (chr c.toNat))) inside]
      simp [Reading.more, spread]

/-- What a cell is read as. -/
def received (sep : UInt8) (cell : Text) : Text :=
  if needsQuote cell [sep] then spread (spread cell) else spread cell

theorem received_eq_iff (sep : UInt8) (cell : Text) :
    received sep cell = cell ↔ ∀ c ∈ cell, ¬Lossy c := by
  unfold received
  split
  · exact spread_spread_eq_iff cell
  · exact spread_eq_iff cell

theorem decodeFrom_cell (cell rest : Text) (r : Reading) (outside : r.inQuote = false)
    (ends : rest.head? ≠ some 34) :
    decodeFrom sep (encodeCell [sep] cell ++ rest) r =
      decodeFrom sep rest (r.more (received sep cell)) := by
  unfold encodeCell received
  split
  · -- The opening quote, the escaped text and the closing quote are read one after the other.
    rw [List.append_assoc, List.append_assoc, List.singleton_append, decodeFrom_open outside,
      decodeFrom_escaped cell _ { r with inQuote := true } rfl, List.singleton_append,
      decodeFrom_close rfl ends]
    simp only [Reading.more, outside]
  · next plain =>
    exact decodeFrom_plain cell rest r outside (plain_of_not_needsQuote (by simpa using plain))

theorem decodeFrom_row (line : sep ≠ 10) (quote : sep ≠ 34) {row : List Text} (cells : row ≠ [])
    (rest : Text) (rows : List (List Text)) (before : List Text) :
    decodeFrom sep (encodeRow [sep] row ++ rest) ⟨rows, before, [], false⟩ =
      decodeFrom sep rest ⟨rows ++ [before ++ row.map (received sep)], [], [], false⟩ := by
  induction row generalizing before with
  | nil => exact absurd rfl cells
  | cons cell later ih =>
    cases later with
    | nil =>
      rw [encodeRow, List.append_assoc, decodeFrom_cell _ _ _ rfl (by simp), List.singleton_append,
        decodeFrom_line (by rfl) line]
      simp [Reading.more, Reading.endRow]
    | cons next later =>
      rw [encodeRow, List.append_assoc, List.append_assoc,
        decodeFrom_cell _ _ _ rfl (by simpa using quote), List.singleton_append,
        decodeFrom_separator (by rfl) quote]
      simp only [Reading.more, Reading.endCell, List.nil_append]
      rw [ih (by simp) (before ++ [received sep cell])]
      simp

theorem decode_encode (line : sep ≠ 10) (quote : sep ≠ 34) {rows : List (List Text)}
    (cells : ∀ row ∈ rows, row ≠ []) :
    decode (encode rows [sep]) [sep] = rows.map fun row => row.map (received sep) := by
  have general : ∀ (rows before : List (List Text)), (∀ row ∈ rows, row ≠ []) →
      decodeFrom sep (encode rows [sep]) ⟨before, [], [], false⟩ =
        before ++ rows.map fun row => row.map (received sep) := by
    intro rows
    induction rows with
    | nil => intro before _; simp [encode, decodeFrom]
    | cons row later ih =>
      intro before cells
      rw [List.forall_mem_cons] at cells
      rw [encode, List.flatMap_cons, decodeFrom_row line quote cells.1]
      exact (ih _ cells.2).trans (by simp)
  exact (general rows [] cells).trans (List.nil_append _)

end Cells

end Nytrix.Codec
