import Mathlib.Data.List.Dedup
import Nytrix.Base.InternLaws

/-! Runs of calls to the string table: as long as the ids fit 32 bits, strings and ids correspond. -/

namespace Nytrix.Base

open Nytrix.Lib

/-- A string that was interned, and the id that the call returned. -/
structure InternCall where
  str : List UInt8
  id : Nat
  deriving DecidableEq

/-- The calls of a program from one state of the string table to another. -/
inductive Steps (lit : Nat) : Interns → List InternCall → Interns → Prop
  /-- No call yet. -/
  | refl (s : Interns) : Steps lit s [] s
  /-- The tables are allocated when they are not there. -/
  | init {s m s' : Interns} {calls : List InternCall} (earlier : Steps lit s calls m)
    (done : internInit lit m = some s') : Steps lit s calls s'
  /-- A string is interned, with a pointer from the allocator for a copy of it. -/
  | str {s m s' : Interns} {calls : List InternCall} {dup id : Nat} {str : List UInt8}
    (earlier : Steps lit s calls m) (fresh : Fresh m dup)
    (done : internStr lit m dup str = some (s', id)) : Steps lit s (calls ++ [⟨str, id⟩]) s'
  /-- A pointer is looked up. -/
  | containsPtr {s m s' : Interns} {calls : List InternCall} {ptr : Nat} {found : Bool}
    (earlier : Steps lit s calls m) (done : internContainsPtr m ptr = some (s', found)) :
    Steps lit s calls s'

/-- The distinct strings among those given, without the empty one. -/
def distinctStrings (strs : List (List UInt8)) : List (List UInt8) :=
  (strs.filter (· ≠ [])).dedup

/-- The ids of the strings of the calls fit 32 bits. -/
def Few (calls : List InternCall) : Prop :=
  (distinctStrings (calls.map InternCall.str)).length < 2 ^ 32

theorem mem_distinctStrings {strs : List (List UInt8)} {str : List UInt8} :
    str ∈ distinctStrings strs ↔ str ∈ strs ∧ str ≠ [] := by
  simp only [distinctStrings, List.mem_dedup, List.mem_filter, decide_eq_true_eq]

theorem Few.of_append {calls more : List InternCall} (few : Few (calls ++ more)) : Few calls := by
  refine Nat.lt_of_le_of_lt (List.Nodup.length_le_of_subset (List.nodup_dedup _) ?_) few
  intro str member
  obtain ⟨given, some_str⟩ := mem_distinctStrings.mp member
  refine mem_distinctStrings.mpr ⟨?_, some_str⟩
  rw [List.map_append]
  exact List.mem_append_left _ given

theorem length_le_distinctStrings {strs given : List (List UInt8)} (first : strs[0]? = some [])
    (distinct : strs.Nodup) (among : ∀ str ∈ strs, str ≠ [] → str ∈ given) :
    strs.length ≤ (distinctStrings given).length + 1 := by
  cases strs with
  | nil => exact Nat.zero_le _
  | cons head rest =>
    obtain rfl : head = [] := by simpa using first
    obtain ⟨absent, distinct⟩ := List.nodup_cons.mp distinct
    refine Nat.succ_le_succ (List.Nodup.length_le_of_subset distinct ?_)
    intro str member
    have some_str : str ≠ [] := fun none => absent (none ▸ member)
    exact mem_distinctStrings.mpr
      ⟨among str (List.mem_cons_of_mem [] member) some_str, some_str⟩

/-- The table has exactly the strings of the calls, each at the id that its call returned. -/
structure Records (lit : Nat) (s : Interns) (strs : List (List UInt8)) (calls : List InternCall) :
    Prop where
  interned : Interned lit s strs
  ids : ∀ call ∈ calls, strs[call.id]? = some call.str
  called : ∀ str ∈ strs, str ≠ [] → str ∈ calls.map InternCall.str

/-- What a run reaches: the tables are not there yet, or they have the strings of the calls. -/
def Reaches (lit : Nat) (table : Nat → InternEntry) (s : Interns) (calls : List InternCall) :
    Prop :=
  (s = internStart lit table ∧ ∀ call ∈ calls, call = ⟨[], 0⟩) ∨ ∃ strs, Records lit s strs calls

section Records

variable {lit dup ptr : Nat} {table : Nat → InternEntry} {s : Interns} {strs : List (List UInt8)}
  {calls : List InternCall} {name : List UInt8}

theorem Records.first (interned : Interned lit s [[]]) (empty : ∀ call ∈ calls, call = ⟨[], 0⟩) :
    Records lit s [[]] calls where
  interned := interned
  ids := by
    intro call member
    rw [empty call member]
    rfl
  called := by
    intro str member some_str
    exact absurd (List.mem_singleton.mp member) some_str

theorem Records.intern (records : Records lit s strs calls) (fresh : Fresh s dup)
    (few : Few (calls ++ [⟨name, 0⟩])) :
    ∃ s' id strs', internStr lit s dup name = some (s', id) ∧ Extends s s' ∧
      Records lit s' strs' (calls ++ [⟨name, id⟩]) := by
  -- The records of a longer list that has the string at an id, and no other strings than before.
  have longer {s' : Interns} {strs' : List (List UInt8)} {id : Nat} (kept : Interned lit s' strs')
      (old : ∀ {i : Nat} {str : List UInt8}, strs[i]? = some str → strs'[i]? = some str)
      (here : strs'[id]? = some name) (only : ∀ str ∈ strs', str ∈ strs ∨ str = name) :
      Records lit s' strs' (calls ++ [⟨name, id⟩]) := by
    refine ⟨kept, ?_, ?_⟩
    · intro call inside
      rcases List.mem_append.mp inside with before | new
      · exact old (records.ids call before)
      · rw [List.mem_singleton.mp new]
        exact here
    · intro str inside some_str
      rw [List.map_append]
      rcases only str inside with before | rfl
      · exact List.mem_append_left _ (records.called str before some_str)
      · exact List.mem_append_right _ List.mem_cons_self
  by_cases member : name ∈ strs
  · -- A string that the table has keeps its id.
    obtain ⟨id, at_id⟩ := List.mem_iff_getElem?.mp member
    exact ⟨s, id, strs, internStr_known records.interned at_id, Extends.refl s,
      longer records.interned (fun at_i => at_i) at_id (fun str inside => .inl inside)⟩
  · -- The id of a new string fits 32 bits, since it is one more of the distinct strings.
    have begins := records.interned.first
    have positive : 0 < strs.length := (List.getElem?_eq_some_iff.mp begins).1
    have bound : (strs ++ [name]).length ≤
        (distinctStrings ((calls ++ [InternCall.mk name 0]).map InternCall.str)).length + 1 := by
      apply length_le_distinctStrings
      · rw [List.getElem?_append_left positive, begins]
      · rw [List.nodup_append]
        refine ⟨records.interned.distinct, List.nodup_singleton name, ?_⟩
        rintro a inside b new rfl
        rw [List.mem_singleton.mp new] at inside
        exact member inside
      · intro str inside some_str
        rw [List.map_append]
        rcases List.mem_append.mp inside with before | new
        · exact List.mem_append_left _ (records.called str before some_str)
        · exact List.mem_append_right _ (by simpa using new)
    rw [List.length_append, List.length_singleton] at bound
    have fits : strs.length < 2 ^ 32 := Nat.lt_of_le_of_lt (by omega) few
    obtain ⟨s', returned, interned, extends_, -⟩ :=
      internStr_new records.interned fresh member fits
    refine ⟨s', strs.length, strs ++ [name], returned, extends_, longer interned ?_ ?_ ?_⟩
    · intro i str at_i
      rw [List.getElem?_append_left (List.getElem?_eq_some_iff.mp at_i).1, at_i]
    · rw [List.getElem?_append_right (Nat.le_refl _), Nat.sub_self]
      rfl
    · intro str inside
      rcases List.mem_append.mp inside with before | new
      · exact .inl before
      · exact .inr (List.mem_singleton.mp new)

theorem Records.containsPtr (records : Records lit s strs calls) (ptr : Nat) :
    ∃ s' found, internContainsPtr s ptr = some (s', found) ∧
      (found = true ↔ ∃ id, internGet lit s id = ptr) ∧ Extends s s' ∧
      Records lit s' strs calls := by
  obtain ⟨s', found, answered, entry, interned, extends_⟩ :=
    internContainsPtr_spec records.interned ptr
  exact ⟨s', found, answered, entry.trans (isEntryPtr_iff_internGet records.interned ptr), extends_,
    interned, records.ids, records.called⟩

end Records

section Runs

variable {lit dup ptr : Nat} {table : Nat → InternEntry} {s s' m : Interns}
  {calls more : List InternCall} {name : List UInt8}

theorem records_start (some_lit : lit ≠ 0) (table : Nat → InternEntry)
    (empty : ∀ call ∈ calls, call = ⟨[], 0⟩) :
    ∃ s, internInit lit (internStart lit table) = some s ∧ Records lit s [[]] calls ∧
      Extends (internStart lit table) s ∧ s.memory = (internStart lit table).memory := by
  obtain ⟨s, allocated, interned, memory⟩ := internInit_start some_lit table
  refine ⟨s, allocated, Records.first interned empty, ?_, memory⟩
  exact ⟨fun _ => interned.allocated, Nat.zero_le _, fun id less => absurd less (Nat.not_lt_zero id),
    fun ptr _ => congrFun memory ptr⟩

theorem Reaches.intern (some_lit : lit ≠ 0) (reaches : Reaches lit table s calls)
    (fresh : Fresh s dup) (few : Few (calls ++ [⟨name, 0⟩])) :
    ∃ s' id, internStr lit s dup name = some (s', id) ∧
      Reaches lit table s' (calls ++ [⟨name, id⟩]) ∧ Extends s s' := by
  rcases reaches with ⟨rfl, empty⟩ | ⟨strs, records⟩
  · cases name with
    | nil =>
      -- The empty string has the id zero without the tables.
      refine ⟨_, 0, rfl, .inl ⟨rfl, ?_⟩, Extends.refl _⟩
      intro call member
      rcases List.mem_append.mp member with before | new
      · exact empty call before
      · exact List.mem_singleton.mp new
    | cons byte bytes =>
      -- Any other string has them allocated first.
      obtain ⟨s0, allocated, records, kept, memory⟩ := records_start some_lit table empty
      have free : Fresh s0 dup := ⟨fresh.some_ptr, fresh.word, by rw [memory]; exact fresh.unused⟩
      obtain ⟨s', id, strs', returned, extends_, after⟩ := records.intern free few
      refine ⟨s', id, ?_, .inr ⟨strs', after⟩, kept.trans extends_⟩
      rw [← returned]
      unfold internStr
      simp only [List.isEmpty_cons, Bool.false_eq_true, if_false, allocated,
        internInit_again records.interned]
  · obtain ⟨s', id, strs', returned, extends_, after⟩ := records.intern fresh few
    exact ⟨s', id, returned, .inr ⟨strs', after⟩, extends_⟩

theorem Reaches.init (some_lit : lit ≠ 0) (reaches : Reaches lit table s calls) :
    ∃ s', internInit lit s = some s' ∧ Reaches lit table s' calls ∧ Extends s s' := by
  rcases reaches with ⟨rfl, empty⟩ | ⟨strs, records⟩
  · obtain ⟨s0, allocated, records, kept, -⟩ := records_start some_lit table empty
    exact ⟨s0, allocated, .inr ⟨[[]], records⟩, kept⟩
  · exact ⟨s, internInit_again records.interned, .inr ⟨strs, records⟩, Extends.refl s⟩

theorem Reaches.containsPtr (reaches : Reaches lit table s calls) (ptr : Nat) :
    ∃ s' found, internContainsPtr s ptr = some (s', found) ∧ Reaches lit table s' calls ∧
      Extends s s' ∧ (s.allocated = true → (found = true ↔ ∃ id, internGet lit s id = ptr)) := by
  rcases reaches with ⟨rfl, empty⟩ | ⟨strs, records⟩
  · refine ⟨internStart lit table, false, ?_, .inl ⟨rfl, empty⟩, Extends.refl _,
      fun allocated => absurd allocated Bool.false_ne_true⟩
    rw [internContainsPtr, if_pos (.inr rfl)]
  · obtain ⟨s', found, answered, entry, extends_, after⟩ := records.containsPtr ptr
    exact ⟨s', found, answered, .inr ⟨strs, after⟩, extends_, fun _ => entry⟩

theorem few_append_iff (id id' : Nat) :
    Few (calls ++ [⟨name, id⟩]) ↔ Few (calls ++ [⟨name, id'⟩]) := by
  simp only [Few, List.map_append, List.map_cons, List.map_nil]

theorem Reaches.steps (some_lit : lit ≠ 0) (reaches : Reaches lit table s calls)
    (run : Steps lit s more s') (few : Few (calls ++ more)) :
    Reaches lit table s' (calls ++ more) ∧ Extends s s' := by
  -- The induction is on the run, and each step is one of the calls above.
  induction run with
  | refl =>
    rw [List.append_nil]
    exact ⟨reaches, Extends.refl _⟩
  | init earlier done ih =>
    obtain ⟨reached, kept⟩ := ih few
    obtain ⟨s'', done', after, extends_⟩ := reached.init some_lit
    obtain rfl := Option.some.inj (done.symm.trans done')
    exact ⟨after, kept.trans extends_⟩
  | str earlier fresh done ih =>
    rw [← List.append_assoc] at few ⊢
    obtain ⟨reached, kept⟩ := ih few.of_append
    obtain ⟨s'', id, done', after, extends_⟩ :=
      reached.intern some_lit fresh ((few_append_iff _ 0).mp few)
    obtain ⟨rfl, rfl⟩ := Prod.mk.inj (Option.some.inj (done.symm.trans done'))
    exact ⟨after, kept.trans extends_⟩
  | containsPtr earlier done ih =>
    obtain ⟨reached, kept⟩ := ih few
    obtain ⟨s'', found, done', after, extends_, -⟩ := reached.containsPtr _
    obtain ⟨rfl, rfl⟩ := Prod.mk.inj (Option.some.inj (done.symm.trans done'))
    exact ⟨after, kept.trans extends_⟩

theorem Reaches.internGet (reaches : Reaches lit table s calls) {call : InternCall}
    (member : call ∈ calls) :
    s.memory (internGet lit s call.id) = call.str ++ [0] ∧
      ∀ {s' : Interns} {later : List InternCall}, Reaches lit table s' later → Extends s s' →
        internGet lit s' call.id = internGet lit s call.id := by
  rcases reaches with ⟨rfl, empty⟩ | ⟨strs, records⟩
  · -- Before the tables are there, only the empty string has an id.
    rw [empty call member]
    have lit_get : Base.internGet lit (internStart lit table) 0 = lit := rfl
    show (internStart lit table).memory (Base.internGet lit (internStart lit table) 0) = _ ∧
      ∀ {s' : Interns} {later : List InternCall}, Reaches lit table s' later →
        Extends (internStart lit table) s' → Base.internGet lit s' 0 = _
    rw [lit_get]
    refine ⟨internStart_memory lit table, ?_⟩
    intro s' later reaches _
    rcases reaches with ⟨rfl, -⟩ | ⟨strs, records⟩
    · rfl
    · have positive := records.interned.lt_count records.interned.first
      unfold Base.internGet
      rw [if_neg (by omega)]
      exact records.interned.literal
  · have at_id := records.ids call member
    have inside := records.interned.lt_count at_id
    unfold Base.internGet
    rw [if_neg (by omega)]
    refine ⟨(records.interned.entries at_id).2.1, ?_⟩
    intro s' later _ extends_
    have within := extends_.count
    rw [if_neg (by omega), extends_.table _ inside]

theorem Reaches.id_eq_iff (reaches : Reaches lit table s calls) {a b : InternCall}
    (member_a : a ∈ calls) (member_b : b ∈ calls) : a.id = b.id ↔ a.str = b.str := by
  rcases reaches with ⟨rfl, empty⟩ | ⟨strs, records⟩
  · rw [empty a member_a, empty b member_b]
    simp
  · have at_a := records.ids a member_a
    have at_b := records.ids b member_b
    constructor
    · intro same
      rw [same, at_b] at at_a
      exact (Option.some.inj at_a).symm
    · intro same
      obtain ⟨insideA, hereA⟩ := List.getElem?_eq_some_iff.mp at_a
      obtain ⟨insideB, hereB⟩ := List.getElem?_eq_some_iff.mp at_b
      exact (List.Nodup.getElem_inj_iff records.interned.distinct).mp
        (hereA.trans (same.trans hereB.symm))

/--
While the ids fit 32 bits, strings and ids correspond.

The id of a string has its bytes from the call on, at one pointer.
Once the tables are there, the query for a pointer is true exactly for the pointers of ids.
-/
theorem intern_bijective (some_lit : lit ≠ 0) (run : Steps lit (internStart lit table) calls s)
    (few : Few calls) :
    (∀ a ∈ calls, ∀ b ∈ calls, (a.id = b.id ↔ a.str = b.str)) ∧
    (∀ call ∈ calls, s.memory (internGet lit s call.id) = call.str ++ [0] ∧
      ∀ more s', Steps lit s more s' → Few (calls ++ more) →
        internGet lit s' call.id = internGet lit s call.id ∧
        s'.memory (internGet lit s call.id) = call.str ++ [0]) ∧
    (∀ ptr, ∃ s' found, internContainsPtr s ptr = some (s', found) ∧
      (s.allocated = true → (found = true ↔ ∃ id, internGet lit s id = ptr))) ∧
    (∀ name dup, Fresh s dup → Few (calls ++ [⟨name, 0⟩]) →
      ∃ s' id, internStr lit s dup name = some (s', id)) := by
  have reaches : Reaches lit table s calls :=
    (Reaches.steps some_lit (.inl ⟨rfl, fun call member => absurd member List.not_mem_nil⟩) run
      few).1
  refine ⟨fun a member_a b member_b => reaches.id_eq_iff member_a member_b, ?_, ?_, ?_⟩
  · intro call member
    obtain ⟨bytes, same⟩ := reaches.internGet member
    refine ⟨bytes, ?_⟩
    intro more s' later fits
    obtain ⟨after, extends_⟩ := reaches.steps some_lit later fits
    have there : s.memory (internGet lit s call.id) ≠ [] := by simp [bytes]
    exact ⟨same after extends_, (extends_.memory _ there).trans bytes⟩
  · intro ptr
    obtain ⟨s', found, answered, -, -, entry⟩ := reaches.containsPtr ptr
    exact ⟨s', found, answered, entry⟩
  · intro name dup fresh fits
    obtain ⟨s', id, returned, -⟩ := reaches.intern some_lit fresh fits
    exact ⟨s', id, returned⟩

theorem steps_empty (lit : Nat) (table : Nat → InternEntry) {dup : Nat}
    (fresh : Fresh (internStart lit table) dup) :
    Steps lit (internStart lit table) [⟨[], 0⟩] (internStart lit table) :=
  .str (.refl _) fresh rfl

theorem fresh_start (table : Nat → InternEntry) : Fresh (internStart 8 table) 16 :=
  ⟨by omega, by omega, internStart_memory_of_ne table (by omega)⟩

/-- One call with one letter: the bytes of its id are the letter. -/
theorem intern_bijective_letter :
    ∃ s id, Steps 8 (internStart 8 fun _ => ⟨0, 0, 0⟩) [⟨[65], id⟩] s ∧
      s.memory (internGet 8 s id) = [65, 0] := by
  have few (id : Nat) : Few [⟨[65], id⟩] := by
    show (distinctStrings [[65]]).length < 2 ^ 32
    decide
  obtain ⟨s, id, returned, -⟩ :=
    @Reaches.intern 8 16 (fun _ => ⟨0, 0, 0⟩) _ [] [65] (by omega)
      (.inl ⟨rfl, fun call member => absurd member List.not_mem_nil⟩) (fresh_start _) (few 0)
  have run := Steps.str (Steps.refl _) (fresh_start _) returned
  exact ⟨s, id, run,
    ((intern_bijective (by omega) run (few id)).2.1 ⟨[65], id⟩ List.mem_cons_self).1⟩

end Runs

section Overflow

variable {lit dup : Nat} {s : Interns} {strs : List (List UInt8)} {name : List UInt8}

theorem internStr_full (interned : Interned lit s strs) (fresh : Fresh s dup) (absent : name ∉ strs)
    (full : strs.length = 2 ^ 32) : ∃ s', internStr lit s dup name = some (s', 0) := by
  have nonempty : name.isEmpty = false := by
    cases name with
    | nil => exact absurd (List.mem_of_getElem? interned.first) absent
    | cons _ _ => rfl
  have some_name : name ≠ [] := by
    rintro rfl
    cases nonempty
  have top : s.count = 2 ^ 32 := interned.count.trans full
  rcases interned.seek some_name with ⟨found, -, at_found⟩ | ⟨idx, ends, -⟩
  · exact absurd (List.mem_of_getElem? at_found) absent
  · have wraps : s.count % 2 ^ 32 = 0 := by rw [top, Nat.mod_self]
    obtain ⟨ptrs, put, -⟩ :=
      @internPtrMapPut_spec (internEnter s dup name (hash64 name) 0) (IsEntryPtr s) s.ptrMapLen dup
        interned.ptrs rfl fresh.some_ptr (interned.not_isEntryPtr fresh)
    -- The map of hashes is so large that it does not grow.
    obtain ⟨bits, power⟩ := interned.ids.size
    have load := interned.idsLoad
    have wide : 2 ^ 33 ≤ s.map.length := by
      rw [top] at load
      have more : 2 ^ 32 < 2 ^ (bits + 1) := by omega
      have larger : 32 < bits + 1 := (Nat.pow_lt_pow_iff_right (by omega)).mp more
      rw [power]
      exact Nat.pow_le_pow_right (by omega) larger
    have settled : ¬ (s.count + 1) * 10 > (s.map.set idx 0).length * 7 := by
      rw [List.length_set, top]
      omega
    have same : (internEnter s dup name (hash64 name) 0).map = s.map := rfl
    have size : (internEnter s dup name (hash64 name) 0).count = s.count + 1 := rfl
    apply Exists.intro
    unfold internStr
    simp only [nonempty, Bool.false_eq_true, if_false, internInit_again interned,
      Option.bind_some, ends, internAdd, wraps, put, same, internMapGrow, size, if_neg settled,
      Option.map_some]
    rfl

/-- The four bytes of a number below two to the thirty-second. -/
def fourBytes (n : Nat) : List UInt8 :=
  [UInt8.ofNat n, UInt8.ofNat (n / 256), UInt8.ofNat (n / 65536), UInt8.ofNat (n / 16777216)]

theorem fourBytes_inj {n k : Nat} (fits : n < 2 ^ 32) (fits' : k < 2 ^ 32)
    (same : fourBytes n = fourBytes k) : n = k := by
  simp only [fourBytes, List.cons.injEq, and_true, ← UInt8.toNat_inj, UInt8.toNat_ofNat'] at same
  omega

/-- The strings after so many numbers were interned. -/
def numbered (n : Nat) : List (List UInt8) := [] :: (List.range n).map fourBytes

theorem fourBytes_not_mem {n : Nat} (fits : n < 2 ^ 32) : fourBytes n ∉ numbered n := by
  intro member
  rcases List.mem_cons.mp member with empty | earlier
  · simp [fourBytes] at empty
  · obtain ⟨k, less, same⟩ := List.mem_map.mp earlier
    rw [List.mem_range] at less
    exact absurd (fourBytes_inj (by omega) fits same) (by omega)

theorem steps_numbered (table : Nat → InternEntry) (n : Nat) (fits : n < 2 ^ 32) :
    ∃ calls s, Steps 8 (internStart 8 table) calls s ∧ Interned 8 s (numbered n) ∧
      ∀ ptr, 16 * (n + 1) ≤ ptr → s.memory ptr = [] := by
  -- The induction is on the numbers, and the pointers are multiples of sixteen.
  induction n with
  | zero =>
    obtain ⟨s, allocated, interned, memory⟩ := internInit_start (show 8 ≠ 0 by omega) table
    refine ⟨[], s, .init (.refl _) allocated, interned, ?_⟩
    intro ptr beyond
    rw [memory]
    exact internStart_memory_of_ne table (by omega)
  | succ n ih =>
    obtain ⟨calls, s, run, interned, free⟩ := ih (by omega)
    have fresh : Fresh s (16 * (n + 1)) := ⟨by omega, by omega, free _ (Nat.le_refl _)⟩
    have length : (numbered n).length = n + 1 := by simp [numbered]
    obtain ⟨s', returned, interned', -, others⟩ :=
      internStr_new interned fresh (fourBytes_not_mem (by omega)) (by omega)
    refine ⟨_, s', .str run fresh returned, ?_, ?_⟩
    · have whole : numbered n ++ [fourBytes n] = numbered (n + 1) := by
        simp only [numbered, List.range_succ, List.map_append, List.map_cons, List.map_nil,
          List.cons_append]
      rwa [whole] at interned'
    · intro ptr beyond
      rw [others ptr (by omega)]
      exact free ptr (by omega)

/--
Interning every string of four bytes gives the last one the id of the empty string.

Before the tables are there, the pointer of the id zero is not found either.
-/
theorem intern_not_bijective :
    (∃ calls s, Steps 8 (internStart 8 fun _ => ⟨0, 0, 0⟩) calls s ∧
      ∃ a ∈ calls, ∃ b ∈ calls, a.id = b.id ∧ a.str ≠ b.str) ∧
    ∃ s, Steps 8 (internStart 8 fun _ => ⟨0, 0, 0⟩) [⟨[], 0⟩] s ∧
      internGet 8 s 0 = 8 ∧ internContainsPtr s 8 = some (s, false) := by
  constructor
  · obtain ⟨calls, s, run, interned, free⟩ :=
      steps_numbered (fun _ => ⟨0, 0, 0⟩) (2 ^ 32 - 1) (by omega)
    have fresh : Fresh s (16 * 2 ^ 32) := ⟨by omega, by omega, free _ (by omega)⟩
    have full : (numbered (2 ^ 32 - 1)).length = 2 ^ 32 := by
      rewrite [numbered, List.length_cons, List.length_map, List.length_range]
      omega
    obtain ⟨s', returned⟩ :=
      internStr_full interned fresh (fourBytes_not_mem (show 2 ^ 32 - 1 < 2 ^ 32 by omega)) full
    -- The empty string is interned before the last one.
    have both := Steps.str (Steps.str run fresh (internStr_known interned interned.first)) fresh
      returned
    refine ⟨_, s', both, ⟨[], 0⟩, ?_, ⟨fourBytes (2 ^ 32 - 1), 0⟩, ?_, rfl, ?_⟩
    · exact List.mem_append_left _ (List.mem_append_right _ List.mem_cons_self)
    · exact List.mem_append_right _ List.mem_cons_self
    · exact (List.cons_ne_nil _ _).symm
  · exact ⟨_, steps_empty 8 _ (fresh_start _), rfl, rfl⟩

end Overflow

end Nytrix.Base
