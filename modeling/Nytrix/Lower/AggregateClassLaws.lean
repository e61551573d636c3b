import Nytrix.Lower.AggregateClass

/-! The classes of an aggregate are those of what its nesting spreads over the eightbytes. -/

namespace Nytrix.Lower

/-- A class that tells whether there are integers or floats, where integers hide floats. -/
def Shows (cls : AggClass) (integer float : Prop) : Prop :=
  (integer ∧ cls = .integer) ∨ (¬ integer ∧ float ∧ cls = .sse) ∨
    (¬ integer ∧ ¬ float ∧ cls = .none)

section Shown

variable {cls dst : AggClass} {integer float integer' float' : Prop}

theorem Shows.integer_iff (shows : Shows cls integer float) : cls = .integer ↔ integer := by
  rcases shows with ⟨some, rfl⟩ | ⟨without, -, rfl⟩ | ⟨without, -, rfl⟩
  · exact ⟨fun _ => some, fun _ => rfl⟩
  · exact ⟨fun same => (nomatch same), fun some => absurd some without⟩
  · exact ⟨fun same => (nomatch same), fun some => absurd some without⟩

theorem Shows.sse_iff (shows : Shows cls integer float) : cls = .sse ↔ ¬ integer ∧ float := by
  rcases shows with ⟨some, rfl⟩ | ⟨without, floats, rfl⟩ | ⟨without, nothing, rfl⟩
  · exact ⟨fun same => (nomatch same), fun only => absurd some only.1⟩
  · exact ⟨fun _ => ⟨without, floats⟩, fun _ => rfl⟩
  · exact ⟨fun same => (nomatch same), fun only => absurd only.2 nothing⟩

theorem Shows.none_iff (shows : Shows cls integer float) : cls = .none ↔ ¬ integer ∧ ¬ float := by
  rcases shows with ⟨some, rfl⟩ | ⟨without, floats, rfl⟩ | ⟨without, nothing, rfl⟩
  · exact ⟨fun same => (nomatch same), fun neither => absurd some neither.1⟩
  · exact ⟨fun same => (nomatch same), fun neither => absurd floats neither.2⟩
  · exact ⟨fun _ => ⟨without, nothing⟩, fun _ => rfl⟩

theorem Shows.congr (shows : Shows cls integer float) (integers : integer ↔ integer')
    (floats : ¬ integer → (float ↔ float')) : Shows cls integer' float' := by
  rcases shows with ⟨some, same⟩ | ⟨without, some, same⟩ | ⟨without, nothing, same⟩
  · exact .inl ⟨integers.1 some, same⟩
  · exact .inr (.inl ⟨fun some => without (integers.2 some), (floats without).1 some, same⟩)
  · exact .inr (.inr ⟨fun some => without (integers.2 some),
      fun some => nothing ((floats without).2 some), same⟩)

theorem Shows.merge (shows : Shows dst integer float) (some : cls = .integer ∨ cls = .sse) :
    Shows (nyNativeSysvMergeClass dst cls) (integer ∨ cls = .integer) (float ∨ cls = .sse) := by
  rcases shows with ⟨has, rfl⟩ | ⟨without, floats, rfl⟩ | ⟨without, nothing, rfl⟩ <;>
    rcases some with rfl | rfl <;> simp [Shows, nyNativeSysvMergeClass, *]

end Shown

section Pieces

variable {field : CField} {fieldClasses classes classes' : Classes} {chunk : Nat}

theorem Classes.spread_at (classes : Classes) (cls : AggClass) {start stop : Nat}
    (order : start ≤ stop) (bound : stop < 2) (inside : chunk < 2) :
    (classes.spread cls start stop).at chunk =
      if start ≤ chunk ∧ chunk ≤ stop then nyNativeSysvMergeClass (classes.at chunk) cls
      else classes.at chunk := by
  -- There are three ranges and two eightbytes.
  have stops : stop = 0 ∨ stop = 1 := by omega
  have starts : start = 0 ∨ start = 1 := by omega
  have chunks : chunk = 0 ∨ chunk = 1 := by omega
  rcases stops with rfl | rfl <;> rcases starts with rfl | rfl <;> rcases chunks with rfl | rfl <;>
    first | rfl | omega

/-- Eight bytes of a field have one in an eightbyte of the aggregate. -/
def CField.PieceCovers (field : CField) (piece chunk : Nat) : Prop :=
  ∃ byte < field.size, byte / 8 = piece ∧ (field.offset + byte) / 8 = chunk

theorem pieceCovers_iff (field : CField) (piece : Nat) (starts : 8 * piece < field.size) :
    field.PieceCovers piece chunk ↔
      (field.offset + piece * 8) / 8 ≤ chunk ∧
        chunk ≤ (field.offset + piece * 8 +
          (if 8 < field.size - 8 * piece then 8 else field.size - 8 * piece) - 1) / 8 := by
  constructor
  · rintro ⟨byte, inside, rfl, rfl⟩
    split <;> omega
  · rintro ⟨from', until'⟩
    -- The first byte in both, which is that of the later beginning.
    by_cases early : 8 * chunk ≤ field.offset + piece * 8
    · exact ⟨piece * 8, by omega, by omega, by split at until' <;> omega⟩
    · refine ⟨8 * chunk - field.offset, ?_, ?_, by omega⟩
      · split at until' <;> omega
      · split at until' <;> omega

theorem spread_shows {piece start stop : Nat} {cls : AggClass} {integer float : Prop}
    (some : cls = .integer ∨ cls = .sse) (order : start ≤ stop) (bound : stop < 2)
    (inside : chunk < 2) (shows : Shows (classes.at chunk) integer float)
    (covers : field.PieceCovers piece chunk ↔ start ≤ chunk ∧ chunk ≤ stop) :
    Shows ((classes.spread cls start stop).at chunk)
      (integer ∨ (field.PieceCovers piece chunk ∧ cls = .integer))
      (float ∨ (field.PieceCovers piece chunk ∧ cls = .sse)) := by
  rw [classes.spread_at cls order bound inside]
  split
  case isTrue here =>
    have covered := covers.2 here
    exact (shows.merge some).congr (by simp [covered]) (fun _ => by simp [covered])
  case isFalse elsewhere =>
    have uncovered : ¬ field.PieceCovers piece chunk := fun covered => elsewhere (covers.1 covered)
    exact shows.congr (by simp [uncovered]) (fun _ => by simp [uncovered])

/-- A field has a byte with a class in an eightbyte. -/
def FieldHas (field : CField) (fieldClasses : Classes) (cls : AggClass) (chunk : Nat) : Prop :=
  ∃ byte < field.size, (field.offset + byte) / 8 = chunk ∧ fieldClasses.at (byte / 8) = cls

theorem fieldHas_iff {cls : AggClass} (small : field.size ≤ 16) :
    FieldHas field fieldClasses cls chunk ↔
      (field.PieceCovers 0 chunk ∧ fieldClasses.first = cls) ∨
        (field.PieceCovers 1 chunk ∧ fieldClasses.second = cls) := by
  constructor
  · rintro ⟨byte, inside, here, has⟩
    have pieces : byte / 8 = 0 ∨ byte / 8 = 1 := by omega
    rcases pieces with first | second
    · rw [first] at has
      exact .inl ⟨⟨byte, inside, first, here⟩, has⟩
    · rw [second] at has
      exact .inr ⟨⟨byte, inside, second, here⟩, has⟩
  · rintro (⟨⟨byte, inside, piece, here⟩, has⟩ | ⟨⟨byte, inside, piece, here⟩, has⟩)
    · exact ⟨byte, inside, here, by rw [piece]; exact has⟩
    · exact ⟨byte, inside, here, by rw [piece]; exact has⟩

/-- A class that a field may have in eight of its bytes. -/
def Classes.Plain (classes : Classes) : Prop :=
  ∀ piece, classes.at piece = .none ∨ classes.at piece = .integer ∨ classes.at piece = .sse

theorem mergePieces_cons {piece remaining : Nat} {pieces : List Nat} (some : remaining ≠ 0)
    (merged : mergePieces field fieldClasses (piece :: pieces) remaining classes =
      Option.some classes') :
    fieldClasses.at piece ≠ .none ∧
      (field.offset + piece * 8 + (if 8 < remaining then 8 else remaining) - 1) / 8 < 2 ∧
      mergePieces field fieldClasses pieces (remaining - (if 8 < remaining then 8 else remaining))
        (classes.spread (fieldClasses.at piece) ((field.offset + piece * 8) / 8)
          ((field.offset + piece * 8 + (if 8 < remaining then 8 else remaining) - 1) / 8)) =
        Option.some classes' := by
  rw [mergePieces, if_neg some] at merged
  dsimp only at merged
  generalize (if 8 < remaining then 8 else remaining) = bytes at merged ⊢
  split at merged
  case isTrue => cases merged
  case isFalse kept =>
    rw [not_or] at kept
    exact ⟨kept.1, by omega, merged⟩

theorem mergePieces_shows (plain : fieldClasses.Plain) (small : field.size ≤ 16)
    (merged : mergePieces field fieldClasses [0, 1] field.size classes = some classes') :
    (∀ byte < field.size, fieldClasses.at (byte / 8) ≠ .none) ∧
      ∀ chunk < 2, ∀ integer float, Shows (classes.at chunk) integer float →
        Shows (classes'.at chunk) (integer ∨ FieldHas field fieldClasses .integer chunk)
          (float ∨ FieldHas field fieldClasses .sse chunk) := by
  simp only [fieldHas_iff small]
  by_cases empty : field.size = 0
  · -- A field without bytes adds nothing.
    rw [mergePieces, if_pos empty, Option.some.injEq] at merged
    subst merged
    refine ⟨fun byte inside => by omega, fun chunk inside integer float shows => ?_⟩
    have uncovered : ∀ piece, ¬ field.PieceCovers piece chunk := by
      rintro piece ⟨byte, inside, -⟩
      omega
    exact shows.congr (by simp [uncovered]) (fun _ => by simp [uncovered])
  obtain ⟨has, bound, merged⟩ := mergePieces_cons empty merged
  have first := fun {chunk : Nat} (inside : chunk < 2) {integer float : Prop}
      (shows : Shows (classes.at chunk) integer float) =>
    spread_shows ((plain 0).resolve_left has) (by split <;> omega) bound inside shows
      (pieceCovers_iff field 0 (by omega))
  by_cases short : field.size ≤ 8
  · -- There is no second piece.
    have rest : field.size - (if 8 < field.size then 8 else field.size) = 0 := by
      split <;> omega
    rw [rest, mergePieces, if_pos rfl, Option.some.injEq] at merged
    subst merged
    constructor
    · intro byte inside
      rw [show byte / 8 = 0 by omega]
      exact has
    · intro chunk inside integer float shows
      have uncovered : ¬ field.PieceCovers 1 chunk := by
        rintro ⟨byte, inside, piece, -⟩
        omega
      exact (first inside shows).congr (by simp [uncovered, Classes.at])
        (fun _ => by simp [uncovered, Classes.at])
  · have rest : field.size - (if 8 < field.size then 8 else field.size) = field.size - 8 := by
      split <;> omega
    rw [rest] at merged
    obtain ⟨has', bound', merged⟩ := mergePieces_cons (by omega) merged
    have nothing : field.size - 8 - (if 8 < field.size - 8 then 8 else field.size - 8) = 0 := by
      split <;> omega
    rw [nothing, mergePieces, Option.some.injEq] at merged
    subst merged
    constructor
    · intro byte inside
      have pieces : byte / 8 = 0 ∨ byte / 8 = 1 := by omega
      rcases pieces with piece | piece
      · rw [piece]
        exact has
      · rw [piece]
        exact has'
    · intro chunk inside integer float shows
      have both := spread_shows ((plain 1).resolve_left has') (by split <;> omega) bound' inside
        (first inside shows) (pieceCovers_iff field 1 (by omega))
      exact both.congr (by simp [Classes.at, or_assoc]) (fun _ => by simp [Classes.at, or_assoc])

end Pieces

section Fields

variable {parser : Parser}

/-- What is in eight bytes of a field: the scalar, or what is spread over them in its type. -/
def PieceIs (parser : Parser) (field : CField) (isFloat : Bool) (piece : Nat) : Prop :=
  if field.isNested then
    ∃ inner, nyNativeCNestedType parser field = some inner ∧ Spreads parser inner isFloat piece
  else field.isFloat = isFloat

/-- A field spreads floats, or something else, over an eightbyte. -/
def FieldSpreads (parser : Parser) (field : CField) (isFloat : Bool) (chunk : Nat) : Prop :=
  ∃ byte < field.size, (field.offset + byte) / 8 = chunk ∧ PieceIs parser field isFloat (byte / 8)

theorem spreads_iff {ty : CRecord} {isFloat : Bool} {chunk : Nat} :
    Spreads parser ty isFloat chunk ↔
      (∃ field ∈ ty.fields, FieldSpreads parser field isFloat chunk) ∨
        (isFloat = false ∧ 8 * chunk < ty.size ∧ ∀ field ∈ ty.fields, ¬ field.Covers chunk) := by
  constructor
  · intro spreads
    cases spreads with
    | scalar recorded plain covers =>
      obtain ⟨byte, inside, here⟩ := covers
      exact .inl ⟨_, recorded, byte, inside, here, by simp [PieceIs, plain]⟩
    | nested recorded looked found inside spreads =>
      exact .inl ⟨_, recorded, _, inside, rfl, by
        rw [PieceIs, if_pos looked]
        exact ⟨_, found, spreads⟩⟩
    | padding reached empty => exact .inr ⟨rfl, reached, empty⟩
  · rintro (⟨field, recorded, byte, inside, rfl, is⟩ | ⟨rfl, reached, empty⟩)
    · unfold PieceIs at is
      split at is
      case isTrue looked =>
        obtain ⟨inner, found, spreads⟩ := is
        exact .nested recorded looked found inside spreads
      case isFalse plain =>
        subst is
        exact .scalar recorded (by simpa using plain) ⟨byte, inside, rfl⟩
    · exact .padding reached empty

/-- The classes of what is nested tell what is spread over its eightbytes. -/
def NestedShows (parser : Parser) (nested : CRecord → Option Classes) : Prop :=
  ∀ inner classes, nested inner = some classes → classes.first ≠ .memory → classes.Plain ∧
    ∀ piece < 2, Shows (classes.at piece) (Spreads parser inner false piece)
      (Spreads parser inner true piece)

variable {nested : CRecord → Option Classes} {field : CField} {fieldClasses : Classes}

theorem fieldClassesOf_shows (nestedShows : NestedShows parser nested)
    (given : fieldClassesOf parser nested field = some fieldClasses) :
    fieldClasses.Plain ∧ ∀ piece < 2, fieldClasses.at piece ≠ .none →
      Shows (fieldClasses.at piece) (PieceIs parser field false piece)
        (PieceIs parser field true piece) := by
  unfold fieldClassesOf at given
  split at given
  case isTrue float =>
    -- A float is one in each piece.
    obtain rfl := Option.some.inj given
    have plain : field.isNested = false := by
      simp only [CField.isFloat, Bool.and_eq_true, Bool.or_eq_true, decide_eq_true_eq] at float
      rcases float.2 with is | is <;> simp [CField.isNested, is]
    have classed : ∀ piece, (Classes.mk .sse (if 8 < field.size then .sse else .none)).at piece =
        .none ∨ (Classes.mk .sse (if 8 < field.size then .sse else .none)).at piece = .sse := by
      intro piece
      match piece with
      | 0 => exact .inr rfl
      | 1 =>
        simp only [Classes.at]
        split
        · exact .inr rfl
        · exact .inl rfl
      | _ + 2 => exact .inl rfl
    refine ⟨fun piece => (classed piece).imp id .inr, fun piece _ some => ?_⟩
    rw [(classed piece).resolve_left some]
    exact .inr (.inl ⟨by simp [PieceIs, plain, float], by simp [PieceIs, plain, float], rfl⟩)
  case isFalse noFloat =>
  split at given
  case isTrue => cases given
  case isFalse =>
  split at given
  case isTrue looked =>
    -- What is nested is known from its own classes.
    obtain ⟨found, notMemory⟩ := Option.filter_eq_some_iff.1 given
    obtain ⟨inner, lookup, classified⟩ := Option.bind_eq_some_iff.1 found
    obtain ⟨plain, shown⟩ := nestedShows inner fieldClasses classified (by simpa using notMemory)
    refine ⟨plain, fun piece inside _ => (shown piece inside).congr ?_ fun _ => ?_⟩
    · simp [PieceIs, looked, lookup]
    · simp [PieceIs, looked, lookup]
  case isFalse plain =>
    -- Everything else is no float, in its first eight bytes.
    obtain rfl := Option.some.inj given
    constructor
    · intro piece
      match piece with
      | 0 => exact .inr (.inl rfl)
      | 1 => exact .inl rfl
      | _ + 2 => exact .inl rfl
    · intro piece inside some
      match piece with
      | 0 => exact .inl ⟨by simpa [PieceIs, plain] using noFloat, rfl⟩
      | 1 => exact absurd rfl some
      | _ + 2 => exact absurd rfl some

theorem fieldHas_spreads (nestedShows : NestedShows parser nested)
    (given : fieldClassesOf parser nested field = some fieldClasses) (small : field.size ≤ 16)
    (classed : ∀ byte < field.size, fieldClasses.at (byte / 8) ≠ .none) (chunk : Nat) :
    (FieldHas field fieldClasses .integer chunk ↔ FieldSpreads parser field false chunk) ∧
      (¬ FieldHas field fieldClasses .integer chunk →
        (FieldHas field fieldClasses .sse chunk ↔ FieldSpreads parser field true chunk)) ∧
      (field.Covers chunk →
        FieldSpreads parser field false chunk ∨ FieldSpreads parser field true chunk) := by
  have shown := (fieldClassesOf_shows nestedShows given).2
  have shows : ∀ byte, byte < field.size → Shows (fieldClasses.at (byte / 8))
      (PieceIs parser field false (byte / 8)) (PieceIs parser field true (byte / 8)) :=
    fun byte inside => shown (byte / 8) (by omega) (classed byte inside)
  refine ⟨⟨?_, ?_⟩, ?_, ?_⟩
  · rintro ⟨byte, inside, here, has⟩
    exact ⟨byte, inside, here, (shows byte inside).integer_iff.1 has⟩
  · rintro ⟨byte, inside, here, is⟩
    exact ⟨byte, inside, here, (shows byte inside).integer_iff.2 is⟩
  · intro noInteger
    constructor
    · rintro ⟨byte, inside, here, has⟩
      exact ⟨byte, inside, here, ((shows byte inside).sse_iff.1 has).2⟩
    · rintro ⟨byte, inside, here, is⟩
      refine ⟨byte, inside, here, (shows byte inside).sse_iff.2 ⟨fun integer => noInteger ?_, is⟩⟩
      exact ⟨byte, inside, here, (shows byte inside).integer_iff.2 integer⟩
  · rintro ⟨byte, inside, here⟩
    by_contra neither
    rw [not_or] at neither
    refine classed byte inside ((shows byte inside).none_iff.2 ⟨fun is => neither.1 ?_, fun is =>
      neither.2 ?_⟩)
    · exact ⟨byte, inside, here, is⟩
    · exact ⟨byte, inside, here, is⟩

theorem FieldSpreads.covers {isFloat : Bool} {chunk : Nat}
    (spreads : FieldSpreads parser field isFloat chunk) : field.Covers chunk := by
  obtain ⟨byte, inside, here, -⟩ := spreads
  exact ⟨byte, inside, here⟩

end Fields

/--
An aggregate in which what is nested begins with an eightbyte, at every level.

All its members are recorded, there are no arrays of aggregates, and no eightbyte is padding.
-/
inductive Aligned (parser : Parser) : CRecord → Prop
  | intro {ty : CRecord} (recorded : ty.unrecorded = [])
      (filled : ∀ chunk, 8 * chunk < ty.size → ∃ field ∈ ty.fields, field.Covers chunk)
      (inside : ∀ field ∈ ty.fields, field.offset + field.size ≤ ty.size)
      (starts : ∀ field ∈ ty.fields, field.isNested = true → ∀ inner,
        nyNativeCNestedType parser field = some inner →
          field.offset % 8 = 0 ∧ field.elements = 1 ∧ inner.size ≤ field.size)
      (inner : ∀ field ∈ ty.fields, field.isNested = true → ∀ inner,
        nyNativeCNestedType parser field = some inner → Aligned parser inner) : Aligned parser ty

section Aggregates

variable {parser : Parser} {nested : CRecord → Option Classes} {ty : CRecord}

/-- The classes so far tell what the fields so far spread over the eightbytes. -/
structure Shown (parser : Parser) (fields : List CField) (classes : Classes) : Prop where
  shows : ∀ chunk < 2, Shows (classes.at chunk)
    (∃ field ∈ fields, FieldSpreads parser field false chunk)
    (∃ field ∈ fields, FieldSpreads parser field true chunk)
  covered : ∀ field ∈ fields, ∀ chunk, field.Covers chunk →
    FieldSpreads parser field false chunk ∨ FieldSpreads parser field true chunk

theorem Shown.start : Shown parser [] ⟨.none, .none⟩ where
  shows chunk inside := by
    refine .inr (.inr ⟨by simp, by simp, ?_⟩)
    match chunk with
    | 0 => rfl
    | 1 => rfl
  covered field inList := absurd inList List.not_mem_nil

theorem Shown.step {fields : List CField} {field : CField} {classes classes' fieldClasses : Classes}
    (shown : Shown parser fields classes) (nestedShows : NestedShows parser nested)
    (given : fieldClassesOf parser nested field = some fieldClasses) (small : field.size ≤ 16)
    (merged : mergePieces field fieldClasses [0, 1] field.size classes = some classes') :
    Shown parser (fields ++ [field]) classes' := by
  have plain := (fieldClassesOf_shows nestedShows given).1
  obtain ⟨classed, adds⟩ := mergePieces_shows plain small merged
  have spreads := fieldHas_spreads nestedShows given small classed
  constructor
  case shows =>
    intro chunk inside
    obtain ⟨integers, floats, -⟩ := spreads chunk
    refine (adds chunk inside _ _ (shown.shows chunk inside)).congr ?_ fun without => ?_
    · simp [or_and_right, exists_or, integers]
    · rw [not_or] at without
      simp [or_and_right, exists_or, floats without.2]
  case covered =>
    intro other inList chunk
    rcases List.mem_append.1 inList with before | last
    · exact shown.covered other before chunk
    · rw [List.mem_singleton] at last
      subst last
      exact (spreads chunk).2.2

theorem Shown.fill {classes : Classes} (shown : Shown parser ty.fields classes)
    (sized : 0 < ty.size) (small : ty.size ≤ 16) {chunk : Nat} (inside : chunk < 2) :
    Shows ((ty.fill classes).at chunk) (Spreads parser ty false chunk)
      (Spreads parser ty true chunk) := by
  have shows := shown.shows chunk inside
  -- Where a field has a byte, there is a class.
  have empty : classes.at chunk = .none → ∀ field ∈ ty.fields, ¬ field.Covers chunk := by
    intro none field inList covers
    obtain ⟨noInteger, noFloat⟩ := shows.none_iff.1 none
    rcases shown.covered field inList chunk covers with integer | float
    · exact noInteger ⟨field, inList, integer⟩
    · exact noFloat ⟨field, inList, float⟩
  have floats : Spreads parser ty true chunk ↔
      ∃ field ∈ ty.fields, FieldSpreads parser field true chunk := by
    simp [spreads_iff]
  by_cases filled : classes.at chunk = .none ∧ 8 * chunk < ty.size
  · -- The eightbyte is padding.
    have becomes : (ty.fill classes).at chunk = .integer := by
      match chunk with
      | 0 => exact if_pos filled.1
      | 1 => exact if_pos ⟨filled.2, filled.1⟩
    exact .inl ⟨.padding filled.2 (empty filled.1), becomes⟩
  · have stays : (ty.fill classes).at chunk = classes.at chunk := by
      match chunk with
      | 0 => exact if_neg fun none => filled ⟨none, by omega⟩
      | 1 => exact if_neg fun none => filled ⟨none.2, none.1⟩
    rw [stays]
    refine shows.congr ?_ fun _ => floats.symm
    rw [spreads_iff]
    constructor
    · exact .inl
    · rintro (spreads | ⟨-, reached, nothing⟩)
      · exact spreads
      · -- It would be padding without a class.
        have noClass : classes.at chunk = .none := by
          refine shows.none_iff.2 ⟨?_, ?_⟩
          · rintro ⟨field, inList, spreads⟩
            exact nothing field inList spreads.covers
          · rintro ⟨field, inList, spreads⟩
            exact nothing field inList spreads.covers
        exact absurd ⟨noClass, reached⟩ filled

theorem classifyFields_shows (nestedShows : NestedShows parser nested) (sized : 0 < ty.size)
    (small : ty.size ≤ 16) {result : Classes} (notMemory : result.first ≠ .memory) :
    ∀ (rest done : List CField) (classes : Classes), ty.fields = done ++ rest →
      Shown parser done classes → classifyFields parser nested ty rest classes = some result →
      ∀ chunk < 2, Shows (result.at chunk) (Spreads parser ty false chunk)
        (Spreads parser ty true chunk) := by
  intro rest
  induction rest with
  | nil =>
    intro done classes whole shown classified chunk inside
    rw [classifyFields, Option.some.injEq] at classified
    subst classified
    rw [List.append_nil] at whole
    subst whole
    exact shown.fill sized small inside
  | cons field rest rest_shows =>
    intro done classes whole shown classified
    rw [classifyFields] at classified
    split at classified
    case isTrue =>
      -- A field in the wrong place puts the aggregate in memory.
      obtain rfl := Option.some.inj classified
      exact absurd rfl notMemory
    case isFalse placed =>
      obtain ⟨fieldClasses, given, classified⟩ := Option.bind_eq_some_iff.1 classified
      obtain ⟨classes', merged, classified⟩ := Option.bind_eq_some_iff.1 classified
      have inside : field.size ≤ 16 := by
        simp only [CRecord.misplaces, Bool.or_eq_true, decide_eq_true_eq, not_or] at placed
        omega
      exact rest_shows (done ++ [field]) classes' (by simp [whole])
        (shown.step nestedShows given inside merged) classified

theorem classify_shows (parser : Parser) (levels : Nat) :
    NestedShows parser (nyNativeSysvClassifyAggregateDepth parser levels) := by
  induction levels with
  | zero =>
    intro ty classes classified
    cases classified
  | succ levels levels_show =>
    intro ty classes classified notMemory
    rw [nyNativeSysvClassifyAggregateDepth] at classified
    split at classified
    case isTrue => cases classified
    case isFalse layout =>
    split at classified
    case isTrue =>
      obtain rfl := Option.some.inj classified
      exact absurd rfl notMemory
    case isFalse small =>
      rw [not_or] at layout
      have shows := classifyFields_shows levels_show (by omega) (by omega) notMemory ty.fields []
        ⟨.none, .none⟩ rfl Shown.start classified
      refine ⟨fun piece => ?_, shows⟩
      by_cases inside : piece < 2
      · rcases shows piece inside with ⟨-, is⟩ | ⟨-, -, is⟩ | ⟨-, -, is⟩
        · exact .inr (.inl is)
        · exact .inr (.inr is)
        · exact .inl is
      · match piece, inside with
        | _ + 2, _ => exact .inl rfl
        | 0, inside => exact absurd (by decide) inside
        | 1, inside => exact absurd (by decide) inside

theorem IsLeaf.inside {leaf : Leaf} (isLeaf : IsLeaf parser ty leaf) (aligned : Aligned parser ty) :
    leaf.offset + leaf.size ≤ ty.size := by
  induction isLeaf with
  | scalar recorded plain =>
    obtain ⟨-, -, inside, -, -⟩ := aligned
    exact inside _ recorded
  | @nested ty field inner leaf index recorded looked found element leafOf leaf_inside =>
    obtain ⟨-, -, inside, starts, below⟩ := aligned
    obtain ⟨-, single, fits⟩ := starts _ recorded looked _ found
    have bound := leaf_inside (below _ recorded looked _ found)
    have placed := inside _ recorded
    -- There is one element only.
    obtain rfl : index = 0 := by omega
    simp only [Nat.zero_mul]
    omega
  | unrecorded present =>
    obtain ⟨all, -, -, -, -⟩ := aligned
    rw [all] at present
    exact absurd present List.not_mem_nil

theorem Spreads.leaf {isFloat : Bool} {chunk : Nat} (spreads : Spreads parser ty isFloat chunk)
    (aligned : Aligned parser ty) :
    ∃ leaf, IsLeaf parser ty leaf ∧ leaf.Overlaps chunk ∧ leaf.isFloat = isFloat := by
  induction spreads with
  | @scalar ty field chunk recorded plain covers =>
    obtain ⟨byte, inside, here⟩ := covers
    refine ⟨_, .scalar recorded plain, ⟨field.offset + byte, ?_, ?_, here⟩, rfl⟩
    · exact Nat.le_add_right _ _
    · exact Nat.add_lt_add_left inside _
  | @nested ty field inner isFloat byte recorded looked found inside spreads inner_leaf =>
    obtain ⟨-, -, -, starts, below⟩ := aligned
    obtain ⟨start, single, -⟩ := starts _ recorded looked _ found
    obtain ⟨leaf, isLeaf, ⟨here, from', until', piece⟩, same⟩ :=
      inner_leaf (below _ recorded looked _ found)
    refine ⟨_, .nested recorded looked found (show 0 < field.elements by omega) isLeaf,
      ⟨field.offset + here, ?_, ?_, ?_⟩, same⟩
    · simp only [Nat.zero_mul]
      omega
    · simp only [Nat.zero_mul]
      omega
    · -- The eightbytes of what is nested are those of the aggregate.
      omega
  | padding reached empty =>
    obtain ⟨-, filled, -, -, -⟩ := aligned
    obtain ⟨field, recorded, covers⟩ := filled _ reached
    exact absurd covers (empty field recorded)

theorem IsLeaf.spreads {leaf : Leaf} {chunk : Nat} (isLeaf : IsLeaf parser ty leaf)
    (aligned : Aligned parser ty) (overlaps : leaf.Overlaps chunk) :
    Spreads parser ty leaf.isFloat chunk := by
  induction isLeaf generalizing chunk with
  | @scalar ty field recorded plain =>
    obtain ⟨byte, from', until', here⟩ := overlaps
    dsimp only at from' until'
    refine .scalar recorded plain ⟨byte - field.offset, by omega, ?_⟩
    rw [Nat.add_sub_cancel' from', here]
  | @nested ty field inner leaf index recorded looked found element leafOf leaf_spreads =>
    obtain ⟨byte, from', until', rfl⟩ := overlaps
    have below := aligned
    obtain ⟨-, -, -, starts, below⟩ := below
    obtain ⟨start, single, fits⟩ := starts _ recorded looked _ found
    have bound := leafOf.inside (below _ recorded looked _ found)
    obtain rfl : index = 0 := by omega
    simp only [Nat.zero_mul] at from' until'
    have spreads := leaf_spreads (below _ recorded looked _ found)
      ⟨byte - field.offset, by omega, by omega, rfl⟩
    rw [show byte / 8 = (field.offset + (byte - field.offset)) / 8 by
      rw [Nat.add_sub_cancel' (by omega)]]
    exact .nested recorded looked found (by omega) spreads
  | unrecorded present =>
    obtain ⟨all, -, -, -, -⟩ := aligned
    rw [all] at present
    exact absurd present List.not_mem_nil

theorem spreadsAsLeaves_of_aligned (aligned : Aligned parser ty) : SpreadsAsLeaves parser ty := by
  rintro chunk - ⟨leaf, isLeaf, overlaps⟩
  by_cases some : ∃ leaf, IsLeaf parser ty leaf ∧ leaf.Overlaps chunk ∧ leaf.isFloat = false
  · refine .inl ⟨some, ?_⟩
    obtain ⟨leaf, isLeaf, overlaps, integer⟩ := some
    rw [← integer]
    exact isLeaf.spreads aligned overlaps
  · have floats : ∀ leaf, IsLeaf parser ty leaf → leaf.Overlaps chunk → leaf.isFloat = true := by
      intro leaf isLeaf overlaps
      by_contra integer
      exact some ⟨leaf, isLeaf, overlaps, by simpa using integer⟩
    refine .inr ⟨floats, fun spreads => some (spreads.leaf aligned), ?_⟩
    rw [← floats leaf isLeaf overlaps]
    exact isLeaf.spreads aligned overlaps

/-- The classes of an aggregate are those of its leaves exactly if its nesting spreads nothing. -/
theorem classify_flattened_iff {classes : Classes}
    (accepted : nyNativeSysvClassifyAggregate parser ty = some classes)
    (notMemory : classes.first ≠ .memory) :
    (∀ chunk < 2, SysvClass parser ty chunk (classes.at chunk)) ↔ SpreadsAsLeaves parser ty := by
  have shows := (classify_shows parser 9 ty classes accepted notMemory).2
  constructor
  · intro flattened chunk inside leaf
    rcases flattened chunk inside leaf with ⟨integer, some⟩ | ⟨sse, floats⟩
    · exact .inl ⟨some, (shows chunk inside).integer_iff.1 integer⟩
    · exact .inr ⟨floats, (shows chunk inside).sse_iff.1 sse⟩
  · intro spreads chunk inside leaf
    rcases spreads chunk inside leaf with ⟨some, integer⟩ | ⟨floats, only⟩
    · exact .inl ⟨(shows chunk inside).integer_iff.2 integer, some⟩
    · exact .inr ⟨(shows chunk inside).sse_iff.2 only, floats⟩

end Aggregates

section Examples

/-- A field that is a float. -/
def floatField (offset : Nat) : CField := { kind := .float, offset, size := 4, align := 4 }

/-- A field that is an integer. -/
def intField (offset : Nat) : CField := { kind := .int, offset, size := 4, align := 4 }

/-- A structure of two fields of four bytes. -/
def pairOf (first second : Nat → CField) : CRecord :=
  { kind := .struct, size := 8, fields := [first 0, second 4] }

/-- A field that is a pair. -/
def pairField (offset : Nat) : CField :=
  { kind := .struct, typeName := some (Nytrix.Types.nm "pair"), offset, size := 8, align := 4 }

/-- A header that declares a pair. -/
def pairHeader (first second : Nat → CField) : Parser :=
  { tags := [(Nytrix.Types.nm "pair", pairOf first second)] }

/-- A pair of an integer and a float, and a double behind it. -/
def pairAndDouble : CRecord :=
  { kind := .struct
    size := 16
    fields := [pairField 0, { kind := .double, offset := 8, size := 8, align := 8 }] }

/-- A pair in the first eightbyte and a double in the second have the classes of their leaves. -/
theorem classify_flattened_pairAndDouble :
    nyNativeSysvClassifyAggregate (pairHeader intField floatField) pairAndDouble =
        some ⟨.integer, .sse⟩ ∧
      ∀ chunk < 2, SysvClass (pairHeader intField floatField) pairAndDouble chunk
        (Classes.at ⟨.integer, .sse⟩ chunk) := by
  refine ⟨by decide, (classify_flattened_iff (by decide) (by decide)).2
    (spreadsAsLeaves_of_aligned ?_)⟩
  have found : nyNativeCNestedType (pairHeader intField floatField) (pairField 0) =
      some (pairOf intField floatField) := by decide
  -- The pair has nothing nested, and both of them have a field in each eightbyte.
  have pair : Aligned (pairHeader intField floatField) (pairOf intField floatField) := by
    refine ⟨rfl, fun chunk reached => ⟨intField 0, by decide, 0, by decide, ?_⟩, by decide, ?_, ?_⟩
    · simp only [pairOf] at reached
      simp only [intField]
      omega
    · intro field recorded looked
      simp only [pairOf, List.mem_cons, List.not_mem_nil, or_false] at recorded
      rcases recorded with rfl | rfl <;> cases looked
    · intro field recorded looked
      simp only [pairOf, List.mem_cons, List.not_mem_nil, or_false] at recorded
      rcases recorded with rfl | rfl <;> cases looked
  refine ⟨rfl, fun chunk reached => ?_, by decide, ?_, ?_⟩
  · simp only [pairAndDouble] at reached
    have chunks : chunk = 0 ∨ chunk = 1 := by omega
    rcases chunks with rfl | rfl
    · exact ⟨pairField 0, by decide, 0, by decide, rfl⟩
    · exact ⟨_, List.mem_cons_of_mem _ List.mem_cons_self, 0, by decide, rfl⟩
  · intro field recorded looked inner lookup
    simp only [pairAndDouble, List.mem_cons, List.not_mem_nil, or_false] at recorded
    rcases recorded with rfl | rfl
    · rw [found, Option.some.injEq] at lookup
      subst lookup
      exact ⟨rfl, rfl, by decide⟩
    · cases looked
  · intro field recorded looked inner lookup
    simp only [pairAndDouble, List.mem_cons, List.not_mem_nil, or_false] at recorded
    rcases recorded with rfl | rfl
    · rw [found, Option.some.injEq] at lookup
      subst lookup
      exact pair
    · cases looked

/-- A float, and a pair of a float and an integer behind it. -/
def floatAndPair : CRecord :=
  { kind := .struct, size := 12, fields := [floatField 0, pairField 4] }

/--
Two floats are passed as integers.

The first eightbyte has a float and the float of the pair; the integer of the pair is in the second
one, but it makes an integer of the first eight bytes of the pair, which begin in the first one.
-/
theorem not_flattened_floatAndPair :
    nyNativeSysvClassifyAggregate (pairHeader floatField intField) floatAndPair =
        some ⟨.integer, .integer⟩ ∧
      ¬ ∀ chunk < 2, SysvClass (pairHeader floatField intField) floatAndPair chunk
        (Classes.at ⟨.integer, .integer⟩ chunk) := by
  refine ⟨by decide, fun flattened => ?_⟩
  have found : nyNativeCNestedType (pairHeader floatField intField) (pairField 4) =
      some (pairOf floatField intField) := by decide
  have leaf : IsLeaf (pairHeader floatField intField) floatAndPair ⟨0, 4, true⟩ :=
    .scalar (show floatField 0 ∈ floatAndPair.fields by decide) rfl
  rcases flattened 0 (by decide) ⟨_, leaf, 0, by decide, by decide, rfl⟩ with
    ⟨-, other, isLeaf, ⟨byte, from', until', here⟩, integer⟩ | ⟨differ, -⟩
  · -- No integer has a byte in the first eightbyte.
    cases isLeaf with
    | scalar recorded plain =>
      simp only [floatAndPair, List.mem_cons, List.not_mem_nil, or_false] at recorded
      rcases recorded with rfl | rfl
      · cases integer
      · cases plain
    | @nested _ field inner leaf index recorded looked lookup element leafOf =>
      simp only [floatAndPair, List.mem_cons, List.not_mem_nil, or_false] at recorded
      rcases recorded with rfl | rfl
      · cases looked
      · rw [found, Option.some.injEq] at lookup
        subst lookup
        cases leafOf with
        | scalar recorded plain =>
          simp only [pairOf, List.mem_cons, List.not_mem_nil, or_false] at recorded
          rcases recorded with rfl | rfl
          · cases integer
          · simp only [pairField, intField] at from'
            omega
        | nested recorded looked =>
          simp only [pairOf, List.mem_cons, List.not_mem_nil, or_false] at recorded
          rcases recorded with rfl | rfl <;> cases looked
        | unrecorded present => exact absurd present List.not_mem_nil
    | unrecorded present => exact absurd present List.not_mem_nil
  · cases differ

end Examples

end Nytrix.Lower
