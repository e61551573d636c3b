import Nytrix.Rt.Classify
import Mathlib.Tactic.Common

/-! A test answers as it would without a cache, as long as no cache has a note that is wrong. -/

namespace Nytrix.Rt

open Nytrix.Lib
open Nytrix.Lib.DirectCache

/-- What a cache of a unit may note of a word or of a page. -/
inductive Note where
  | noHeap | constStr | noStr | float | noFloat | page
  deriving DecidableEq

/-- What the caches of a unit note, of words that their tests would look up. -/
def UnitCaches.Notes (u : UnitCaches) : Note → Nat → Prop
  | .noHeap, p => heapGuard p ∧ Keeps ptrSlot u.negHeap p
  | .constStr, p => strGuard p ∧ Keeps ptrSlot u.constStr p
  | .noStr, p => strGuard p ∧ Keeps ptrSlot u.nonStr p
  | .float, p => floatGuard p ∧ Keeps ptrSlot u.float p
  | .noFloat, p => floatGuard p ∧ Keeps ptrSlot u.nonFloat p
  | .page, pg => pg ≠ 0 ∧
    (pg = u.lastHdr.1 ∨ pg = u.lastHdr.2 ∨ pg = u.lastHdrPages.1 ∨ pg = u.lastHdrPages.2 ∨
      Keeps pageSlot u.hdrPages pg ∨ pg = u.lastPage ∨ Keeps pageSlot u.pages pg)

/-- Whether a note is right. -/
def Note.Holds (m : Mem) : Note → Nat → Prop
  | .noHeap, p => hasMagic m p = false
  | .constStr, p => hasStrTag m p = true
  | .noStr, p => hasStrTag m p = false
  | .float, p => hasFloatTag m p = true
  | .noFloat, p => hasFloatTag m p = false
  | .page, pg => m.mapped (pg / 4096) = true

/-- A note does no harm when it is right, or when the cache of heap pointers answers before it. -/
def Note.Harmless (m : Mem) (heapPtr : DirectCache) (n : Note) (p : Nat) : Prop :=
  n.Holds m p ∨ (n = .noHeap ∧ Keeps heapPtrSlot heapPtr p)

/-- The caches that a test sees have no wrong note. -/
structure Caches.Right (m : Mem) (c : Caches) : Prop where
  heap : ∀ p, heapGuard p → Keeps heapPtrSlot c.heapPtr p → hasMagic m p = true
  notes : ∀ n p, c.unit.Notes n p → n.Harmless m c.heapPtr p

/-- Every note that one state of the caches of a unit has more than another is right. -/
def Learned (m : Mem) (u u' : UnitCaches) : Prop :=
  ∀ n p, u'.Notes n p → u.Notes n p ∨ n.Holds m p

/-- Whatever the caches that a test sees have learned is right. -/
structure Caches.Learned (m : Mem) (c c' : Caches) : Prop where
  heap : ∀ p, Keeps heapPtrSlot c'.heapPtr p → Keeps heapPtrSlot c.heapPtr p ∨ hasMagic m p = true
  unit : Rt.Learned m c.unit c'.unit

section Pages

variable {m : Mem} {u v w : UnitCaches} {p n : Nat}

theorem Learned.refl : Learned m u u := fun _ _ noted => Or.inl noted

theorem Learned.trans (first : Learned m u v) (second : Learned m v w) : Learned m u w := by
  intro n p noted
  rcases second n p noted with noted | holds
  · exact first n p noted
  · exact Or.inr holds

theorem Learned.of_pages {pg1 pg2 : Nat} (first : m.mapped (pg1 / 4096) = true)
    (last : m.mapped (pg2 / 4096) = true)
    (pages : ∀ pg, v.Notes .page pg → pg = pg1 ∨ pg = pg2 ∨ u.Notes .page pg)
    (same : ∀ n p, n ≠ .page → v.Notes n p → u.Notes n p) : Learned m u v := by
  intro n p noted
  by_cases paged : n = .page
  · subst paged
    rcases pages p noted with rfl | rfl | known
    · exact Or.inr first
    · exact Or.inr last
    · exact Or.inl known
  · exact Or.inl (same n p paged noted)

/-- Pages known are mapped. -/
def PagesRight (m : Mem) (u : UnitCaches) : Prop := ∀ pg, u.Notes .page pg → m.mapped (pg / 4096)

theorem PagesRight.learned (right : PagesRight m u) (learned : Learned m u v) : PagesRight m v := by
  intro pg noted
  rcases learned .page pg noted with noted | holds
  · exact right pg noted
  · exact holds

theorem covers_iff (some : 0 < n) (few : n ≤ 4096) :
    m.covers p n = true ↔
      p + n ≤ 2 ^ 64 ∧ m.mapped (p / 4096) = true ∧ m.mapped ((p + n - 1) / 4096) = true := by
  simp only [Mem.covers, Bool.and_eq_true, decide_eq_true_eq, List.all_eq_true, List.mem_range'_1]
  constructor
  · rintro ⟨within, mapped⟩
    exact ⟨within, mapped _ (by omega), mapped _ (by omega)⟩
  · rintro ⟨within, first, last⟩
    refine ⟨within, ?_⟩
    intro page between
    have either : page = p / 4096 ∨ page = (p + n - 1) / 4096 := by omega
    rcases either with rfl | rfl
    · exact first
    · exact last

theorem pageBase_div (p : Nat) : pageBase p / 4096 = p / 4096 := by
  unfold pageBase
  omega

theorem pageBase_ne_zero (large : 0x1000 ≤ p) : pageBase p ≠ 0 := by
  unfold pageBase
  omega

theorem rtAddrMapped_of_pages (few : n ≤ 4096) (within : inRange p n = true)
    (first : m.mapped (pageBase p / 4096) = true)
    (last : m.mapped (pageBase (p + n - 1) / 4096) = true) : rtAddrMapped m p n = true := by
  have bounds := within
  simp only [inRange, Bool.and_eq_true, decide_eq_true_eq, ne_eq] at bounds
  rw [pageBase_div] at first last
  rw [rtAddrMapped, within, Bool.true_and, covers_iff (by omega) few]
  exact ⟨by omega, first, last⟩

theorem pages_of_rtAddrMapped (few : n ≤ 4096) (mapped : rtAddrMapped m p n = true) :
    m.mapped (pageBase p / 4096) = true ∧ m.mapped (pageBase (p + n - 1) / 4096) = true := by
  simp only [rtAddrMapped, Bool.and_eq_true] at mapped
  have bounds := mapped.1
  simp only [inRange, Bool.and_eq_true, decide_eq_true_eq, ne_eq] at bounds
  rw [pageBase_div, pageBase_div]
  exact ((covers_iff (by omega) few).mp mapped.2).2

theorem Keeps.of_storePages {c : DirectCache} {pg1 pg2 pg : Nat}
    (kept : Keeps pageSlot (storePages c pg1 pg2) pg) :
    pg = pg1 ∨ pg = pg2 ∨ Keeps pageSlot c pg := by
  simp only [storePages] at kept
  split at kept
  · rcases keeps_store.mp kept with ⟨rfl, -⟩ | ⟨-, kept⟩
    · exact Or.inr (Or.inl rfl)
    · rcases keeps_store.mp kept with ⟨rfl, -⟩ | ⟨-, kept⟩
      · exact Or.inl rfl
      · exact Or.inr (Or.inr kept)
  · rcases keeps_store.mp kept with ⟨rfl, -⟩ | ⟨-, kept⟩
    · exact Or.inl rfl
    · exact Or.inr (Or.inr kept)

theorem noted_of_hit {pg : Nat} (nonzero : pg ≠ 0) (known : u.pages.hit pageSlot pg = true) :
    u.Notes .page pg := by
  refine ⟨nonzero, ?_⟩
  simp [(hit_iff nonzero).mp known]

theorem rtAddrReadable_spec (right : PagesRight m u) (few : n ≤ 4096) :
    (rtAddrReadable m u p n).1 = rtAddrMapped m p n ∧ Learned m u (rtAddrReadable m u p n).2 := by
  unfold rtAddrReadable
  simp only
  split
  · rename_i outside
    have outside : inRange p n = false := by simpa using outside
    exact ⟨by simp [rtAddrMapped, outside], Learned.refl⟩
  · rename_i inside
    have inside : inRange p n = true := by simpa using inside
    have large : 0x1000 ≤ p := by
      simp only [inRange, Bool.and_eq_true, decide_eq_true_eq] at inside
      exact inside.1.1
    have firstNonzero := pageBase_ne_zero large
    have some : n ≠ 0 := by
      simp only [inRange, Bool.and_eq_true, decide_eq_true_eq] at inside
      exact inside.1.2
    have lastNonzero := pageBase_ne_zero (p := p + n - 1) (by omega)
    split
    · -- The last page answers for all bytes.
      rename_i last
      have noted : u.Notes .page (pageBase p) := ⟨firstNonzero, by simp [last.1]⟩
      have mapped := right _ noted
      exact ⟨(rtAddrMapped_of_pages few inside mapped (last.2 ▸ mapped)).symm, Learned.refl⟩
    · split
      · -- The table answers for the pages of all bytes.
        rename_i known
        simp only [Bool.and_eq_true, Bool.or_eq_true, decide_eq_true_eq] at known
        have first := right _ (noted_of_hit firstNonzero known.1)
        have last : m.mapped (pageBase (p + n - 1) / 4096) = true := by
          rcases known.2 with same | hit
          · exact same ▸ first
          · exact right _ (noted_of_hit lastNonzero hit)
        refine ⟨(rtAddrMapped_of_pages few inside first last).symm,
          Learned.of_pages first last ?_ ?_⟩
        · rintro pg ⟨nonzero, noted⟩
          simp only [UnitCaches.Notes]
          grind
        · intro note q other noted
          cases note <;> first | exact noted | exact absurd rfl other
      · split
        · rename_i unmapped
          exact ⟨by simpa using unmapped, Learned.refl⟩
        · rename_i mapped
          have mapped : rtAddrMapped m p n = true := by simpa using mapped
          obtain ⟨first, last⟩ := pages_of_rtAddrMapped few mapped
          refine ⟨mapped.symm, Learned.of_pages first last ?_ ?_⟩
          · rintro pg ⟨nonzero, noted⟩
            have back := @Keeps.of_storePages u.pages (pageBase p) (pageBase (p + n - 1)) pg
            simp only [UnitCaches.Notes]
            grind
          · intro note q other noted
            cases note <;> first | exact noted | exact absurd rfl other

theorem rtTryReadI64_spec (right : PagesRight m u) :
    ∃ u', rtTryReadI64 m u p = some (if rtAddrMapped m p 8 then some (m.word p) else none, u') ∧
      Learned m u u' := by
  obtain ⟨answer, learned⟩ := rtAddrReadable_spec (p := p) (n := 8) right (by omega)
  refine ⟨(rtAddrReadable m u p 8).2, ?_, learned⟩
  unfold rtTryReadI64
  simp only [answer]
  by_cases mapped : rtAddrMapped m p 8 = true
  · have covered : m.covers p 8 = true := by
      simp only [rtAddrMapped, Bool.and_eq_true] at mapped
      exact mapped.2
    simp [mapped, covered]
  · simp [mapped]

theorem rtReadableHdrCacheHit_spec (right : PagesRight m u) (few : n ≤ 4096) :
    ((rtReadableHdrCacheHit u p n).1 = true → rtAddrMapped m p n = true) ∧
      Learned m u (rtReadableHdrCacheHit u p n).2 := by
  unfold rtReadableHdrCacheHit
  simp only
  split
  · exact ⟨by simp, Learned.refl⟩
  · rename_i inside
    have inside : inRange p n = true := by simpa using inside
    have bounds := inside
    simp only [inRange, Bool.and_eq_true, decide_eq_true_eq, ne_eq] at bounds
    have firstNonzero := pageBase_ne_zero bounds.1.1
    have lastNonzero := pageBase_ne_zero (p := p + n - 1) (by omega)
    split
    · -- The pages are those of the last header.
      rename_i last
      have firstNoted : u.Notes .page (pageBase p) := ⟨firstNonzero, by simp [last]⟩
      have lastNoted : u.Notes .page (pageBase (p + n - 1)) := ⟨lastNonzero, by simp [last]⟩
      exact ⟨fun _ => rtAddrMapped_of_pages few inside (right _ firstNoted) (right _ lastNoted),
        Learned.refl⟩
    · split
      · exact ⟨by simp, Learned.refl⟩
      · rename_i firstKnown
        have firstKept := (hit_iff firstNonzero).mp (by simpa using firstKnown)
        have first := right (pageBase p) ⟨firstNonzero, by simp [firstKept]⟩
        split
        · exact ⟨by simp, Learned.refl⟩
        · rename_i lastKnown
          have last : m.mapped (pageBase (p + n - 1) / 4096) = true := by
            by_cases same : pageBase (p + n - 1) = pageBase p
            · rw [same]
              exact first
            · have lastKept := (hit_iff lastNonzero).mp (by simpa [same] using lastKnown)
              exact right _ ⟨lastNonzero, by simp [lastKept]⟩
          refine ⟨fun _ => rtAddrMapped_of_pages few inside first last,
            Learned.of_pages first last ?_ ?_⟩
          · rintro pg ⟨nonzero, noted⟩
            simp only [UnitCaches.Notes]
            grind
          · intro note q other noted
            cases note <;> first | exact noted | exact absurd rfl other

theorem rtReadableHdrCacheStore_spec (few : n ≤ 4096) (mapped : rtAddrMapped m p n = true) :
    Learned m u (rtReadableHdrCacheStore u p n) := by
  unfold rtReadableHdrCacheStore
  split
  · exact Learned.refl
  · obtain ⟨first, last⟩ := pages_of_rtAddrMapped few mapped
    refine Learned.of_pages first last ?_ ?_
    · rintro pg ⟨nonzero, noted⟩
      have back := @Keeps.of_storePages u.hdrPages (pageBase p) (pageBase (p + n - 1)) pg
      simp only [UnitCaches.Notes]
      grind
    · intro note q other noted
      cases note <;> first | exact noted | exact absurd rfl other

theorem rtHeaderReadableCached_spec (right : PagesRight m u) (few : n ≤ 4096) :
    (rtHeaderReadableCached m u p n).1 = rtAddrMapped m p n ∧
      Learned m u (rtHeaderReadableCached m u p n).2 := by
  obtain ⟨known, learned⟩ := rtReadableHdrCacheHit_spec (p := p) right few
  unfold rtHeaderReadableCached
  simp only
  split
  · rename_i hit
    exact ⟨(known hit).symm, learned⟩
  · obtain ⟨answer, more⟩ := rtAddrReadable_spec (p := p) (right.learned learned) few
    split
    · rename_i unreadable
      exact ⟨by rw [← answer]; simpa using unreadable, learned.trans more⟩
    · rename_i readable
      have mapped : rtAddrMapped m p n = true := by rw [← answer]; simpa using readable
      exact ⟨mapped.symm, (learned.trans more).trans (rtReadableHdrCacheStore_spec few mapped)⟩

theorem headerReadable_spec (right : PagesRight m u) :
    ((headerReadable m u p).1 = false → rtAddrMapped m p 32 = false) ∧
      ((headerReadable m u p).1 = true → inRange p 32 = true → rtAddrMapped m p 32 = true) ∧
      Learned m u (headerReadable m u p).2 := by
  unfold headerReadable
  simp only
  split
  · rename_i last
    refine ⟨by simp, fun _ inside => ?_, Learned.refl⟩
    have bounds := inside
    simp only [inRange, Bool.and_eq_true, decide_eq_true_eq, ne_eq] at bounds
    have first : u.Notes .page (pageBase p) :=
      ⟨pageBase_ne_zero bounds.1.1, by simp [← last]⟩
    have second : u.Notes .page (pageBase (p + 31)) :=
      ⟨pageBase_ne_zero (by omega), by simp [← last]⟩
    exact rtAddrMapped_of_pages (by omega) inside (right _ first) (right _ second)
  · obtain ⟨answer, learned⟩ := rtHeaderReadableCached_spec (p := p) (n := 32) right (by omega)
    split
    · rename_i unreadable
      refine ⟨fun _ => ?_, by simp, learned⟩
      rw [← answer]
      simpa using unreadable
    · rename_i readable
      have mapped : rtAddrMapped m p 32 = true := by
        rw [← answer]
        simpa using readable
      obtain ⟨first, last⟩ := pages_of_rtAddrMapped (by omega) mapped
      refine ⟨by simp, fun _ _ => mapped, learned.trans (Learned.of_pages first last ?_ ?_)⟩
      · rintro pg ⟨nonzero, noted⟩
        simp only [UnitCaches.Notes]
        grind
      · intro note q other noted
        cases note <;> first | exact noted | exact absurd rfl other

end Pages

section Stores

variable {m : Mem} {u : UnitCaches} {p : Nat}

theorem learned_rtHeapPtrNegCacheStore (holds : Note.noHeap.Holds m p) :
    Learned m u (rtHeapPtrNegCacheStore u p) := by
  intro note q noted
  cases note with
  | noHeap =>
    rcases keeps_store.mp noted.2 with ⟨rfl, -⟩ | ⟨-, kept⟩
    · exact Or.inr holds
    · exact Or.inl ⟨noted.1, kept⟩
  | _ => exact Or.inl noted

theorem learned_clear_negHeap :
    Learned m u { u with negHeap := u.negHeap.clear ptrSlot p } := by
  intro note q noted
  cases note with
  | noHeap => exact Or.inl ⟨noted.1, (keeps_clear.mp noted.2).2⟩
  | _ => exact Or.inl noted

theorem learned_rtConstStrCacheStore (holds : Note.constStr.Holds m p) :
    Learned m u (rtConstStrCacheStore u p) := by
  intro note q noted
  cases note with
  | constStr =>
    rcases keeps_store.mp noted.2 with ⟨rfl, -⟩ | ⟨-, kept⟩
    · exact Or.inr holds
    · exact Or.inl ⟨noted.1, kept⟩
  | noStr => exact Or.inl ⟨noted.1, (keeps_clear.mp noted.2).2⟩
  | _ => exact Or.inl noted

theorem learned_rtNonStrCacheStore (holds : Note.noStr.Holds m p) :
    Learned m u (rtNonStrCacheStore u p) := by
  intro note q noted
  cases note with
  | noStr =>
    rcases keeps_store.mp noted.2 with ⟨rfl, -⟩ | ⟨-, kept⟩
    · exact Or.inr holds
    · exact Or.inl ⟨noted.1, kept⟩
  | _ => exact Or.inl noted

theorem learned_rtFloatCacheStore (holds : floatGuard p = true → Note.float.Holds m p) :
    Learned m u (rtFloatCacheStore u p) := by
  intro note q noted
  cases note with
  | float =>
    rcases keeps_store.mp noted.2 with ⟨rfl, -⟩ | ⟨-, kept⟩
    · exact Or.inr (holds noted.1)
    · exact Or.inl ⟨noted.1, kept⟩
  | noFloat => exact Or.inl ⟨noted.1, (keeps_clear.mp noted.2).2⟩
  | _ => exact Or.inl noted

theorem learned_rtNonFloatCacheStore (holds : Note.noFloat.Holds m p) :
    Learned m u (rtNonFloatCacheStore u p) := by
  intro note q noted
  cases note with
  | noFloat =>
    rcases keeps_store.mp noted.2 with ⟨rfl, -⟩ | ⟨-, kept⟩
    · exact Or.inr holds
    · exact Or.inl ⟨noted.1, kept⟩
  | float => exact Or.inl ⟨noted.1, (keeps_clear.mp noted.2).2⟩
  | _ => exact Or.inl noted

theorem learned_rtFloatCacheForget : Learned m u (rtFloatCacheForget u p) := by
  intro note q noted
  cases note with
  | float => exact Or.inl ⟨noted.1, noted.2.of_forget.2⟩
  | noFloat => exact Or.inl ⟨noted.1, noted.2.of_forget.2⟩
  | _ => exact Or.inl noted

end Stores

section Tests

variable {m : Mem} {c c' : Caches}

theorem Caches.Learned.refl : c.Learned m c := ⟨fun _ kept => Or.inl kept, Rt.Learned.refl⟩

theorem Caches.Learned.of_unit {u : UnitCaches} (learned : Rt.Learned m c.unit u) :
    c.Learned m { c with unit := u } :=
  ⟨fun _ kept => Or.inl kept, learned⟩

theorem Caches.Learned.trans {c'' : Caches} (first : c.Learned m c') (second : c'.Learned m c'') :
    c.Learned m c'' := by
  refine ⟨?_, first.unit.trans second.unit⟩
  intro p kept
  rcases second.heap p kept with kept | magic
  · exact first.heap p kept
  · exact Or.inr magic

theorem learned_rtHeapPtrCacheStore {p : Nat} (magic : hasMagic m p = true) :
    c.Learned m (rtHeapPtrCacheStore c p) := by
  refine ⟨?_, learned_clear_negHeap⟩
  intro q kept
  rcases keeps_store.mp kept with ⟨rfl, -⟩ | ⟨-, kept⟩
  · exact Or.inr magic
  · exact Or.inl kept

/-- The notes of a unit other than those of no heap pointer are right. -/
def OthersRight (m : Mem) (u : UnitCaches) : Prop :=
  ∀ n p, n ≠ .noHeap → u.Notes n p → n.Holds m p

theorem Caches.Right.others (right : c.Right m) : OthersRight m c.unit := by
  intro n p other noted
  rcases right.notes n p noted with holds | ⟨same, -⟩
  · exact holds
  · exact absurd same other

theorem OthersRight.learned {u v : UnitCaches} (right : OthersRight m u)
    (learned : Rt.Learned m u v) : OthersRight m v := by
  intro n p other noted
  rcases learned n p noted with noted | holds
  · exact right n p other noted
  · exact holds

theorem OthersRight.pages {u : UnitCaches} (right : OthersRight m u) : PagesRight m u :=
  fun pg noted => right .page pg (by decide) noted

theorem Caches.Right.pages (right : c.Right m) : PagesRight m c.unit := right.others.pages

theorem heapGuard_iff (v : BitVec 64) :
    heapGuard v.toNat = true ↔ 0x1000 < v.toInt ∧ v.toNat % 16 = 0 := by
  simp only [heapGuard, Bool.and_eq_true, decide_eq_true_eq]
  rw [BitVec.toInt_eq_toNat_cond]
  have bound := v.isLt
  split <;> omega

/-- The heap test answers as it would without a cache. -/
theorem isValidHeapPtr_spec (right : c.Right m) (v : BitVec 64) :
    ∃ c', isValidHeapPtr m c v = some (heapTest m v, c') ∧ c.Learned m c' := by
  unfold isValidHeapPtr heapTest
  simp only
  by_cases guarded : 0x1000 < v.toInt ∧ v.toNat % 16 = 0
  swap
  · have unguarded : heapGuard v.toNat = false := by
      rw [← Bool.not_eq_true, heapGuard_iff]
      exact guarded
    exact ⟨c, by simp only [guarded, not_false_eq_true, if_true, unguarded, Bool.false_and],
      Caches.Learned.refl⟩
  have guard := (heapGuard_iff v).mpr guarded
  have bounds := guard
  simp only [heapGuard, Bool.and_eq_true, decide_eq_true_eq] at bounds
  have nonzero : v.toNat ≠ 0 := by omega
  rw [if_neg (by simpa using guarded), guard, Bool.true_and]
  split
  · -- The cache of heap pointers answers.
    rename_i hit
    rw [right.heap _ guard ((hit_iff nonzero).mp hit)]
    exact ⟨c, rfl, Caches.Learned.refl⟩
  rename_i missed
  split
  · -- The cache of other words answers, and nothing hides its note.
    rename_i hit
    have plain : hasMagic m v.toNat = false := by
      rcases right.notes .noHeap v.toNat ⟨guard, (hit_iff nonzero).mp hit⟩ with holds | ⟨-, kept⟩
      · exact holds
      · exact absurd ((hit_iff nonzero).mpr kept) missed
    rw [plain]
    exact ⟨c, rfl, Caches.Learned.refl⟩
  obtain ⟨unreadable, readable, learned⟩ := headerReadable_spec (p := v.toNat - 32) right.pages
  have negative : ∀ u, Rt.Learned m c.unit u → hasMagic m v.toNat = false →
      ∃ c', some (false, { c with unit := rtHeapPtrNegCacheStore u v.toNat }) =
        some (hasMagic m v.toNat, c') ∧ c.Learned m c' := by
    intro u learned plain
    rw [plain]
    exact ⟨_, rfl, Caches.Learned.of_unit (learned.trans (learned_rtHeapPtrNegCacheStore plain))⟩
  split
  · -- The header cannot be read.
    rename_i unseen
    refine negative _ learned ?_
    rw [hasMagic, unreadable (by simpa using unseen), Bool.false_and]
  · rename_i seen
    have seen : (headerReadable m c.unit (v.toNat - 32)).1 = true := by simpa using seen
    obtain ⟨u, read, more⟩ :=
      rtTryReadI64_spec (p := v.toNat - 32) (right.pages.learned learned)
    rw [read]
    by_cases mapped : rtAddrMapped m (v.toNat - 32) 8 = true
    · -- The word is read, so that the address is in range and the whole header can be read.
      have inside : inRange (v.toNat - 32) 32 = true := by
        simp only [rtAddrMapped, inRange, Bool.and_eq_true, decide_eq_true_eq] at mapped ⊢
        omega
      have whole := readable seen inside
      simp only [mapped, if_true]
      split
      · rename_i other
        refine negative _ (learned.trans more) ?_
        simp [hasMagic, other]
      · rename_i magic
        have magic : hasMagic m v.toNat = true := by
          simp only [hasMagic, whole, Bool.true_and]
          simpa using magic
        rw [magic]
        exact ⟨_, rfl, (Caches.Learned.of_unit (learned.trans more)).trans
          (learned_rtHeapPtrCacheStore magic)⟩
    · simp only [mapped]
      refine negative _ (learned.trans more) ?_
      have outside : rtAddrMapped m (v.toNat - 32) 32 = false := by
        rw [← Bool.not_eq_true]
        intro whole
        apply mapped
        obtain ⟨first, -⟩ := pages_of_rtAddrMapped (by omega) whole
        have inside : inRange (v.toNat - 32) 8 = true := by
          simp only [rtAddrMapped, inRange, Bool.and_eq_true, decide_eq_true_eq] at whole ⊢
          omega
        refine rtAddrMapped_of_pages (by omega) inside first ?_
        have same : pageBase (v.toNat - 32 + 8 - 1) = pageBase (v.toNat - 32) := by
          unfold pageBase
          omega
        rw [same]
        exact first
      rw [hasMagic, outside, Bool.false_and]

theorem rtHeapObjectPtr_spec (right : c.Right m) (v : BitVec 64) :
    ∃ c', rtHeapObjectPtr m c v = some (heapObject m v, c') ∧ c.Learned m c' := by
  have object : ∀ base : BitVec 64, ∃ c',
      ((isValidHeapPtr m c base).map fun answer => (if answer.1 then base else 0, answer.2)) =
        some (if heapTest m base then base else 0, c') ∧ c.Learned m c' := by
    intro base
    obtain ⟨c', answer, learned⟩ := isValidHeapPtr_spec right base
    exact ⟨c', by rw [answer, Option.map_some], learned⟩
  unfold rtHeapObjectPtr heapObject
  simp only
  split
  · exact ⟨c, rfl, Caches.Learned.refl⟩
  · split
    · exact object v
    · split
      · exact ⟨c, rfl, Caches.Learned.refl⟩
      · exact object (rtMaskPtr v)

theorem isVFlt_spec (right : OthersRight m c.unit) (v : BitVec 64) :
    ∃ c', isVFlt m c v = some (floatTest m v, c') ∧ c.Learned m c' := by
  unfold isVFlt floatTest
  simp only
  by_cases guard : floatGuard v.toNat = true
  swap
  · have unguarded : (!isPtr v || decide (v.toNat % 16 ≠ 8)) = true := by
      simp only [floatGuard, isPtr, Bool.and_eq_true, Bool.or_eq_true, Bool.not_eq_true',
        Bool.and_eq_false_iff, decide_eq_true_eq, decide_eq_false_iff_not] at guard ⊢
      omega
    rw [if_pos unguarded, Bool.eq_false_iff.mpr guard, Bool.false_and]
    exact ⟨c, rfl, Caches.Learned.refl⟩
  have bounds := guard
  simp only [floatGuard, Bool.and_eq_true, decide_eq_true_eq] at bounds
  have nonzero : v.toNat ≠ 0 := by omega
  have guarded : ¬ (!isPtr v || decide (v.toNat % 16 ≠ 8)) = true := by
    simp only [isPtr, Bool.or_eq_true, Bool.not_eq_true', Bool.and_eq_false_iff, decide_eq_true_eq,
      decide_eq_false_iff_not]
    omega
  rw [if_neg guarded, guard, Bool.true_and]
  split
  · rename_i hit
    have float : hasFloatTag m v.toNat = true :=
      right .float v.toNat (by decide) ⟨guard, (hit_iff nonzero).mp hit⟩
    rw [float]
    exact ⟨c, rfl, Caches.Learned.refl⟩
  split
  · rename_i hit
    have other : hasFloatTag m v.toNat = false :=
      right .noFloat v.toNat (by decide) ⟨guard, (hit_iff nonzero).mp hit⟩
    rw [other]
    exact ⟨c, rfl, Caches.Learned.refl⟩
  obtain ⟨u, read, learned⟩ := rtTryReadI64_spec (p := v.toNat - 8) right.pages
  have negative : hasFloatTag m v.toNat = false →
      ∃ c', some (false, { c with unit := rtNonFloatCacheStore u v.toNat }) =
        some (hasFloatTag m v.toNat, c') ∧ c.Learned m c' := by
    intro other
    rw [other]
    exact ⟨_, rfl, Caches.Learned.of_unit (learned.trans (learned_rtNonFloatCacheStore other))⟩
  rw [read]
  by_cases mapped : rtAddrMapped m (v.toNat - 8) 8 = true
  · simp only [mapped, if_true]
    split
    · rename_i tagged
      have float : hasFloatTag m v.toNat = true := by simp [hasFloatTag, mapped, tagged]
      rw [float]
      exact ⟨_, rfl, Caches.Learned.of_unit
        (learned.trans (learned_rtFloatCacheStore fun _ => float))⟩
    · rename_i untagged
      exact negative (by simp [hasFloatTag, untagged])
  · simp only [mapped]
    exact negative (by simp [hasFloatTag, mapped])

theorem heapObjectIsStr_spec (right : OthersRight m c.unit) (p : Nat) :
    ∃ c', heapObjectIsStr m c p = some (hasStrTag m p, c') ∧ c.Learned m c' := by
  unfold heapObjectIsStr
  obtain ⟨u, read, learned⟩ := rtTryReadI64_spec (p := p - 8) right.pages
  rw [read]
  by_cases mapped : rtAddrMapped m (p - 8) 8 = true
  · simp only [mapped, if_true]
    refine ⟨_, by rw [hasStrTag, mapped, Bool.true_and], Caches.Learned.of_unit ?_⟩
    split
    · rename_i tagged
      have string : hasStrTag m p = true := by simp [hasStrTag, mapped, isStrTag, tagged]
      exact learned.trans (learned_rtConstStrCacheStore string)
    · exact learned
  · simp only [mapped]
    exact ⟨_, by simp [hasStrTag, mapped], Caches.Learned.of_unit learned⟩

theorem outsideIsStr_spec (right : OthersRight m c.unit) {p : Nat} (guard : strGuard p = true) :
    ∃ c', outsideIsStr m c p = some (hasStrTag m p, c') ∧ c.Learned m c' := by
  have bounds := guard
  simp only [strGuard, Bool.and_eq_true, decide_eq_true_eq] at bounds
  have nonzero : p ≠ 0 := by omega
  unfold outsideIsStr
  split
  · rename_i hit
    have string : hasStrTag m p = true :=
      right .constStr p (by decide) ⟨guard, (hit_iff nonzero).mp hit⟩
    rw [string]
    exact ⟨c, rfl, Caches.Learned.refl⟩
  split
  · rename_i hit
    have other : hasStrTag m p = false :=
      right .noStr p (by decide) ⟨guard, (hit_iff nonzero).mp hit⟩
    rw [other]
    exact ⟨c, rfl, Caches.Learned.refl⟩
  obtain ⟨u, read, learned⟩ := rtTryReadI64_spec (p := p - 8) right.pages
  rw [read]
  by_cases mapped : rtAddrMapped m (p - 8) 8 = true
  · simp only [mapped, if_true]
    refine ⟨_, by rw [hasStrTag, mapped, Bool.true_and], Caches.Learned.of_unit ?_⟩
    split
    · rename_i tagged
      have string : hasStrTag m p = true := by simp [hasStrTag, mapped, isStrTag, tagged]
      exact learned.trans (learned_rtConstStrCacheStore string)
    · rename_i notConst
      split
      · rename_i notStr
        have other : hasStrTag m p = false := by simp [hasStrTag, isStrTag, notConst, notStr]
        exact learned.trans (learned_rtNonStrCacheStore other)
      · exact learned
  · simp only [mapped]
    exact ⟨_, by simp [hasStrTag, mapped], Caches.Learned.of_unit learned⟩

theorem isVStr_spec (right : c.Right m) (v : BitVec 64) :
    ∃ c', isVStr m c v = some (strTest m v, c') ∧ c.Learned m c' := by
  obtain ⟨c₁, object, learned⟩ := rtHeapObjectPtr_spec right v
  have others := right.others.learned learned.unit
  unfold isVStr strTest
  rw [object]
  simp only
  split
  · obtain ⟨c₂, answer, more⟩ := heapObjectIsStr_spec others (heapObject m v).toNat
    exact ⟨c₂, answer, learned.trans more⟩
  · by_cases guard : strGuard v.toNat = true
    · have guarded : ¬ (!isPtr v || decide (v.toNat % 8 ≠ 0)) = true := by
        simp only [strGuard, isPtr, Bool.and_eq_true, Bool.or_eq_true, Bool.not_eq_true',
          Bool.and_eq_false_iff, decide_eq_true_eq, decide_eq_false_iff_not] at guard ⊢
        omega
      obtain ⟨c₂, answer, more⟩ := outsideIsStr_spec others guard
      rw [if_neg guarded, guard, Bool.true_and]
      exact ⟨c₂, answer, learned.trans more⟩
    · have unguarded : (!isPtr v || decide (v.toNat % 8 ≠ 0)) = true := by
        simp only [strGuard, isPtr, Bool.and_eq_true, Bool.or_eq_true, Bool.not_eq_true',
          Bool.and_eq_false_iff, decide_eq_true_eq, decide_eq_false_iff_not] at guard ⊢
        omega
      rw [if_pos unguarded, Bool.eq_false_iff.mpr guard, Bool.false_and]
      exact ⟨c₁, rfl, learned⟩

theorem isValidHeapPtr_again {v : BitVec 64} {answer : Bool}
    (asked : isValidHeapPtr m c v = some (answer, c')) :
    isValidHeapPtr m c' v = some (answer, c') := by
  by_cases guarded : 0x1000 < v.toInt ∧ v.toNat % 16 = 0
  swap
  · rw [isValidHeapPtr, if_pos guarded] at asked ⊢
    obtain ⟨rfl, rfl⟩ := Prod.mk.inj (Option.some.inj asked)
    rfl
  have stored : ∀ u, (rtHeapPtrNegCacheStore u v.toNat).negHeap.hit ptrSlot v.toNat = true := by
    intro u
    simp [rtHeapPtrNegCacheStore, DirectCache.store, DirectCache.hit]
  have unguarded : ¬ ¬ (0x1000 < v.toInt ∧ v.toNat % 16 = 0) := by simpa using guarded
  rw [isValidHeapPtr, if_neg unguarded] at asked
  simp only at asked
  split at asked
  · rename_i hit
    obtain ⟨rfl, rfl⟩ := Prod.mk.inj (Option.some.inj asked)
    simp [isValidHeapPtr, guarded, hit]
  rename_i missed
  have negative : ∀ u, (false, ({ c with unit := rtHeapPtrNegCacheStore u v.toNat } : Caches)) =
      (answer, c') → isValidHeapPtr m c' v = some (answer, c') := by
    intro u same
    obtain ⟨rfl, rfl⟩ := Prod.mk.inj same
    rw [isValidHeapPtr, if_neg unguarded]
    simp only
    rw [if_neg missed, if_pos (stored u)]
  split at asked
  · rename_i hit
    obtain ⟨rfl, rfl⟩ := Prod.mk.inj (Option.some.inj asked)
    simp [isValidHeapPtr, guarded, missed, hit]
  split at asked
  · exact negative _ (Option.some.inj asked)
  split at asked
  · cases asked
  · exact negative _ (Option.some.inj asked)
  · split at asked
    · exact negative _ (Option.some.inj asked)
    · obtain ⟨rfl, rfl⟩ := Prod.mk.inj (Option.some.inj asked)
      simp [isValidHeapPtr, guarded, rtHeapPtrCacheStore, DirectCache.store, DirectCache.hit]

end Tests

end Nytrix.Rt
