import Nytrix.Rt.ClassifyLaws
import Nytrix.Rt.Pools

/-! Tests answer as they would without a cache in runs that leave no wrong note in a cache. -/

namespace Nytrix.Rt

open Nytrix.Lib
open Nytrix.Lib.DirectCache

section Memory

variable {m m' : Mem} {p q w n : Nat} {bytes : List (BitVec 8)}

theorem word_congr (same : ∀ i, i < 8 → m'.byte (p + i) = m.byte (p + i)) :
    m'.word p = m.word p := by
  unfold Mem.word
  congr 1
  apply List.map_congr_left
  intro i inside
  rw [same i (List.mem_range.mp inside)]

theorem word_write_of_apart (apart : q + 8 ≤ p ∨ p + bytes.length ≤ q) :
    (m.write p bytes).word q = m.word q := by
  apply word_congr
  intro i inside
  simp only [Mem.write]
  rw [if_neg (by omega)]

theorem sum_digits (w n : Nat) :
    ((List.range n).map fun i => w / 256 ^ i % 256 * 256 ^ i).sum = w % 256 ^ n := by
  induction n with
  | zero => simp [Nat.mod_one]
  | succ n ih =>
    rw [List.range_succ, List.map_append, List.sum_append, ih, Nat.mod_pow_succ]
    simp [Nat.mul_comm]

theorem word_write_wordBytes (fits : w < 2 ^ 64) : (m.write p (wordBytes w)).word p = w := by
  have byte : ∀ i ∈ List.range 8,
      ((m.write p (wordBytes w)).byte (p + i)).toNat * 256 ^ i = w / 256 ^ i % 256 * 256 ^ i := by
    intro i inside
    have inside := List.mem_range.mp inside
    have length : (wordBytes w).length = 8 := by simp [wordBytes]
    simp only [Mem.write, length]
    rw [if_pos (by omega)]
    simp [wordBytes, inside]
  rw [Mem.word, List.map_congr_left byte, sum_digits]
  exact Nat.mod_eq_of_lt fits

theorem covers_congr (same : m'.mapped = m.mapped) : m'.covers p n = m.covers p n := by
  rw [Mem.covers, Mem.covers, same]

theorem put_eq_some (written : m.put p bytes = some m') :
    m.covers p bytes.length = true ∧ m' = m.write p bytes := by
  unfold Mem.put at written
  split at written
  · rename_i covered
    exact ⟨covered, (Option.some.inj written).symm⟩
  · cases written

theorem putWord_mapped (written : m.putWord p w = some m') : m'.mapped = m.mapped := by
  obtain ⟨-, rfl⟩ := put_eq_some written
  rfl

theorem putWord_word_of_apart (written : m.putWord p w = some m') (apart : q + 8 ≤ p ∨ p + 8 ≤ q) :
    m'.word q = m.word q := by
  obtain ⟨-, rfl⟩ := put_eq_some written
  apply word_write_of_apart
  simpa [wordBytes] using apart

theorem putWord_word (written : m.putWord p w = some m') (fits : w < 2 ^ 64) : m'.word p = w := by
  obtain ⟨-, rfl⟩ := put_eq_some written
  exact word_write_wordBytes fits

theorem hasMagic_congr (mapped : m'.mapped = m.mapped) (word : m'.word (p - 32) = m.word (p - 32)) :
    hasMagic m' p = hasMagic m p := by
  rw [hasMagic, hasMagic, rtAddrMapped, rtAddrMapped, covers_congr mapped, word]

end Memory

section Runs

variable {U : Type} [DecidableEq U] {unitOf : RtFile → U} {s s' : RtState U}

/-- No cache has a wrong note. -/
structure RtState.Right (s : RtState U) : Prop where
  heap : ∀ p, heapGuard p → Keeps heapPtrSlot s.heapPtr p → hasMagic s.mem p = true
  notes : ∀ u n p, (s.units u).Notes n p → n.Harmless s.mem s.heapPtr p

/-- No note that stays in a cache turns wrong. -/
structure Spares (s s' : RtState U) : Prop where
  heap : ∀ p, heapGuard p → Keeps heapPtrSlot s.heapPtr p → Keeps heapPtrSlot s'.heapPtr p →
    hasMagic s.mem p = true → hasMagic s'.mem p = true
  notes : ∀ u n p, (s.units u).Notes n p → (s'.units u).Notes n p →
    n.Harmless s.mem s.heapPtr p → n.Harmless s'.mem s'.heapPtr p

/-- Every new note is right. -/
structure Learns (s s' : RtState U) : Prop where
  heap : ∀ p, Keeps heapPtrSlot s'.heapPtr p →
    Keeps heapPtrSlot s.heapPtr p ∨ hasMagic s'.mem p = true
  notes : ∀ u n p, (s'.units u).Notes n p → (s.units u).Notes n p ∨ n.Harmless s'.mem s'.heapPtr p

omit [DecidableEq U] in
/-- The first state has no note. -/
theorem right_init (m : Mem) : ({ mem := m } : RtState U).Right := by
  constructor
  · intro p _ kept
    exact absurd kept not_keeps_empty
  · intro u n p noted
    cases n with
    | page =>
      obtain ⟨nonzero, noted⟩ := noted
      simp [nonzero, not_keeps_empty] at noted
    | _ => exact absurd noted.2 not_keeps_empty

omit [DecidableEq U] in
/-- A step that turns no note wrong and makes none keeps the caches right. -/
theorem RtState.Right.step (right : s.Right) (spares : Spares s s') (learns : Learns s s') :
    s'.Right := by
  constructor
  · intro p guard kept
    rcases learns.heap p kept with before | magic
    · exact spares.heap p guard before kept (right.heap p guard before)
    · exact magic
  · intro u n p noted
    rcases learns.notes u n p noted with before | harmless
    · exact spares.notes u n p before noted (right.notes u n p before)
    · exact harmless

omit [DecidableEq U] in
/-- The caches that a source file sees have no wrong note. -/
theorem RtState.Right.view (right : s.Right) (file : RtFile) : (s.view unitOf file).Right s.mem :=
  ⟨right.heap, fun n p noted => right.notes (unitOf file) n p noted⟩

omit [DecidableEq U] in
/-- A step that leaves the caches makes no note. -/
theorem Learns.of_same (heap : s'.heapPtr = s.heapPtr) (units : s'.units = s.units) :
    Learns s s' := by
  constructor
  · intro p kept
    rw [heap] at kept
    exact Or.inl kept
  · intro u n p noted
    rw [units] at noted
    exact Or.inl noted

theorem Learns.of_leave {file : RtFile} {c : Caches}
    (learned : (s.view unitOf file).Learned s.mem c) : Learns s (s.leave unitOf file c) := by
  constructor
  · exact learned.heap
  · intro u n p noted
    by_cases own : u = unitOf file
    · simp only [RtState.leave, own, if_true] at noted
      rcases learned.unit n p noted with before | holds
      · exact Or.inl (own ▸ before)
      · exact Or.inr (Or.inl holds)
    · simp only [RtState.leave, own, if_false] at noted
      exact Or.inl noted

theorem probe_spec {file : RtFile} {v : BitVec 64} {answer : Bool}
    {test : Mem → Caches → BitVec 64 → Option (Bool × Caches)}
    (tested : ∃ c, test s.mem (s.view unitOf file) v = some (answer, c) ∧
      (s.view unitOf file).Learned s.mem c) :
    ∃ s', s.probe unitOf file test v = some (answer, s') ∧ s'.mem = s.mem ∧ Learns s s' := by
  obtain ⟨c, asked, learned⟩ := tested
  exact ⟨s.leave unitOf file c, by rw [RtState.probe, asked, Option.map_some], rfl,
    Learns.of_leave learned⟩

omit [DecidableEq U] in
/-- The block that is taken, the size it has, and the caches, which stay. -/
theorem takeBlock_spec {total block fill : Nat} {given : Given}
    (taken : s.takeBlock total given = some (block, fill, s')) :
    total ≤ fill ∧ s'.heapPtr = s.heapPtr ∧ s'.units = s.units := by
  have sized : ∀ slot, nyMemPoolSlot total = some slot → total ≤ poolSizes.getD slot 0 := by
    intro slot found
    obtain ⟨inside, fits, -⟩ := List.findIdx?_eq_some_iff_getElem.mp found
    simpa [List.getD, inside] using fits
  unfold RtState.takeBlock at taken
  split at taken
  · cases taken
    exact ⟨Nat.le_refl _, rfl, rfl⟩
  · rename_i slot found
    simp only at taken
    split at taken
    · simp only [Option.bind_eq_bind, Option.bind_eq_some_iff, Option.pure_def] at taken
      obtain ⟨next, -, taken⟩ := taken
      cases taken
      exact ⟨sized slot found, rfl, rfl⟩
    · cases taken
      exact ⟨sized slot found, rfl, rfl⟩

theorem mallocWith_spec {zeroed : Bool} {size : BitVec 64} {given : Given} {r : Nat}
    (allocated : s.mallocWith unitOf zeroed size given = some (r, s')) :
    (r = 0 ∧ s'.heapPtr = s.heapPtr ∧ s'.units = s.units) ∨
      (32 ≤ r ∧ hasMagic s'.mem r = true ∧ ∃ t : RtState U, t.heapPtr = s.heapPtr ∧
        t.units = s.units ∧ t.mem = s'.mem ∧
        s' = t.leave unitOf .memory (rtHeapPtrCacheStore (t.view unitOf .memory) r)) := by
  unfold RtState.mallocWith at allocated
  simp only at allocated
  split at allocated
  · cases allocated
    exact Or.inl ⟨rfl, rfl, rfl⟩
  split at allocated
  · cases allocated
  rename_i block fill t taken
  obtain ⟨large, heap, units⟩ := takeBlock_spec taken
  split at allocated
  · cases allocated
    exact Or.inl ⟨rfl, heap, units⟩
  split at allocated
  · cases allocated
  rename_i fit
  simp only [Option.bind_eq_bind, Option.bind_eq_some_iff, Option.pure_def] at allocated
  obtain ⟨m₁, magicPut, m₂, sizePut, allocated⟩ := allocated
  cases allocated
  refine Or.inr ⟨by omega, ?_, { t with mem := m₂ }, heap, units, rfl, rfl⟩
  -- The header lies in the block, and the second word is written after the first.
  have usableBlock : usable t.mem block fill = true := by simpa using fit
  simp only [usable, Bool.and_eq_true, decide_eq_true_eq] at usableBlock
  obtain ⟨⟨low, high⟩, covered⟩ := usableBlock
  have mapped : m₂.mapped = t.mem.mapped := by
    rw [putWord_mapped sizePut, putWord_mapped magicPut]
    split <;> rfl
  have header : m₂.covers block 32 = true := by
    rw [covers_congr mapped, covers_iff (by omega) (by omega)]
    simp only [Mem.covers, Bool.and_eq_true, decide_eq_true_eq, List.all_eq_true,
      List.mem_range'_1] at covered
    exact ⟨by omega, covered.2 _ (by omega), covered.2 _ (by omega)⟩
  have word : m₂.word block = magic1 := by
    rw [putWord_word_of_apart sizePut (by omega), putWord_word magicPut (by decide)]
  have range : inRange block 32 = true := by
    simp only [inRange, Bool.and_eq_true, decide_eq_true_eq]
    omega
  simp [hasMagic, rtAddrMapped, RtState.leave, header, word, range]

theorem mallocWith_learns {zeroed : Bool} {size : BitVec 64} {given : Given} {r : Nat}
    (allocated : s.mallocWith unitOf zeroed size given = some (r, s')) : Learns s s' := by
  rcases mallocWith_spec allocated with ⟨-, heap, units⟩ | ⟨-, magic, t, heap, units, mem, rfl⟩
  · exact Learns.of_same heap units
  · have learned : Learns t (t.leave unitOf .memory
        (rtHeapPtrCacheStore (t.view unitOf .memory) r)) :=
      Learns.of_leave (learned_rtHeapPtrCacheStore magic)
    constructor
    · rw [← heap]
      exact learned.heap
    · rw [← units]
      exact learned.notes

theorem carve_spec {chunk n q : Nat} {m m' : Mem} (carved : RtState.carve m chunk n = some m')
    (before : q + 8 ≤ chunk) : m'.mapped = m.mapped ∧ m'.word q = m.word q := by
  induction n generalizing m with
  | zero =>
    cases carved
    exact ⟨rfl, rfl⟩
  | succ n ih =>
    simp only [RtState.carve, Option.bind_eq_bind, Option.bind_eq_some_iff] at carved
    obtain ⟨m₁, written, carved⟩ := carved
    obtain ⟨mapped, word⟩ := ih carved
    rw [mapped, word]
    exact ⟨putWord_mapped written, putWord_word_of_apart written (by omega)⟩

theorem refill_learns {given : Given} (filled : s.refill unitOf given = some s') :
    Learns s s' := by
  unfold RtState.refill at filled
  split at filled
  · cases filled
    exact Learns.of_same rfl rfl
  simp only [Option.bind_eq_bind, Option.bind_eq_some_iff, Option.pure_def] at filled
  obtain ⟨⟨chunk, t⟩, allocated, filled⟩ := filled
  have learned := mallocWith_learns allocated
  split at filled
  · cases filled
    exact learned
  rename_i nonzero
  simp only [Option.bind_eq_some_iff] at filled
  obtain ⟨m₁, carved, m₂, ended, filled⟩ := filled
  cases filled
  rcases mallocWith_spec allocated with ⟨zero, -⟩ | ⟨large, magic, t₀, heap, units, mem, shape⟩
  · exact absurd zero nonzero
  -- The chunk is the body of the object, so that its header keeps the magic word.
  obtain ⟨mapped, word⟩ := carve_spec (q := chunk - 32) carved (by omega)
  have kept : hasMagic m₂ chunk = true := by
    rw [← magic]
    refine hasMagic_congr ((putWord_mapped ended).trans mapped) ?_
    rw [putWord_word_of_apart ended (by omega), word]
  have again : Learns { t₀ with mem := m₂ } (({ t₀ with mem := m₂ } : RtState U).leave unitOf .memory
      (rtHeapPtrCacheStore (({ t₀ with mem := m₂ } : RtState U).view unitOf .memory) chunk)) :=
    Learns.of_leave (learned_rtHeapPtrCacheStore kept)
  subst shape
  constructor
  · rw [← heap]
    exact again.heap
  · rw [← units]
    exact again.notes

theorem boxSlot_learns {bits : BitVec 64} {r : Nat}
    (boxed : s.boxSlot unitOf bits = some (r, s')) : Learns s s' := by
  unfold RtState.boxSlot at boxed
  split at boxed
  · cases boxed
    exact Learns.of_same rfl rfl
  simp only [Option.bind_eq_bind, Option.bind_eq_some_iff, Option.pure_def] at boxed
  obtain ⟨next, -, m₁, tagPut, m₂, bitsPut, boxed⟩ := boxed
  cases boxed
  have float : floatGuard (s.fltCache + 8) = true → Note.float.Holds m₂ (s.fltCache + 8) := by
    intro guard
    simp only [floatGuard, Bool.and_eq_true, decide_eq_true_eq] at guard
    obtain ⟨covered, -⟩ := put_eq_some tagPut
    obtain ⟨above, -⟩ := put_eq_some bitsPut
    have length : ∀ w, (wordBytes w).length = 8 := by simp [wordBytes]
    rw [length] at covered above
    have top := ((covers_iff (by omega) (by omega)).mp above).1
    have mapped : m₂.covers s.fltCache 8 = true := by
      rw [covers_congr ((putWord_mapped bitsPut).trans (putWord_mapped tagPut)), covered]
    have word : m₂.word s.fltCache = tagFloat := by
      rw [putWord_word_of_apart bitsPut (by omega), putWord_word tagPut (by decide)]
    have range : inRange s.fltCache 8 = true := by
      simp only [inRange, Bool.and_eq_true, decide_eq_true_eq]
      omega
    simp [Note.Holds, hasFloatTag, rtAddrMapped, mapped, word, range]
  have learned : Learns { s with mem := m₂, fltCache := next }
      (RtState.leave unitOf { s with mem := m₂, fltCache := next } .math _) :=
    Learns.of_leave (Caches.Learned.of_unit (learned_rtFloatCacheStore float))
  exact ⟨learned.heap, learned.notes⟩

theorem learned_rtHeapPtrCacheForget {m : Mem} {c : Caches} {p : Nat} :
    c.Learned m (rtHeapPtrCacheForget c p) :=
  ⟨fun _ kept => Or.inl (keeps_clear.mp kept).2, learned_clear_negHeap⟩

theorem Learns.of_leave_old {file : RtFile} {c : Caches}
    (learned : ∀ m, (s.view unitOf file).Learned m c)
    (heap : s'.heapPtr = (s.leave unitOf file c).heapPtr)
    (units : s'.units = (s.leave unitOf file c).units) : Learns s s' := by
  have again : Learns { s with mem := s'.mem } (RtState.leave unitOf { s with mem := s'.mem } file c) :=
    Learns.of_leave (learned s'.mem)
  constructor
  · rw [heap]
    exact again.heap
  · rw [units, heap]
    exact again.notes

theorem rtFltFree_learns {v : BitVec 64} (freed : s.rtFltFree unitOf v = some s') :
    Learns s s' := by
  unfold RtState.rtFltFree at freed
  split at freed
  · cases freed
    exact Learns.of_same rfl rfl
  simp only [Option.bind_eq_bind, Option.bind_eq_some_iff, Option.pure_def] at freed
  obtain ⟨m₁, -, freed⟩ := freed
  cases freed
  exact Learns.of_leave_old (fun m => Caches.Learned.of_unit learned_rtFloatCacheForget) rfl rfl

theorem freeBlock_learns {ptr : BitVec 64} {after : Mem}
    (freed : s.freeBlock unitOf ptr after = some s') : Learns s s' := by
  unfold RtState.freeBlock at freed
  simp only [Option.bind_eq_bind, Option.bind_eq_some_iff, Option.pure_def] at freed
  obtain ⟨word, -, freed⟩ := freed
  split at freed
  · simp only [Option.bind_eq_some_iff] at freed
    obtain ⟨m₁, -, freed⟩ := freed
    cases freed
    exact Learns.of_leave_old (fun m => learned_rtHeapPtrCacheForget) rfl rfl
  · cases freed
    exact Learns.of_leave_old (fun m => learned_rtHeapPtrCacheForget) rfl rfl

theorem freeAs_learns {kind : RtState.Kind} {ptr : BitVec 64} {after : Mem}
    (freed : s.freeAs unitOf kind ptr after = some s') : Learns s s' := by
  cases kind with
  | heap => exact freeBlock_learns freed
  | float => exact rtFltFree_learns freed
  | other =>
    cases freed
    exact Learns.of_same rfl rfl

theorem rtFreeRaw_learns {ptr : BitVec 64} {after : Mem} :
    Learns s (s.rtFreeRaw unitOf ptr after) := by
  unfold RtState.rtFreeRaw
  split
  · exact Learns.of_same rfl rfl
  · exact Learns.of_leave_old (fun m => learned_rtHeapPtrCacheForget) rfl rfl

theorem probe_eq_some {file : RtFile} {v : BitVec 64} {answer : Bool}
    {test : Mem → Caches → BitVec 64 → Option (Bool × Caches)}
    (probed : s.probe unitOf file test v = some (answer, s')) :
    ∃ c, test s.mem (s.view unitOf file) v = some (answer, c) ∧ s' = s.leave unitOf file c := by
  simp only [RtState.probe, Option.map_eq_some_iff] at probed
  obtain ⟨⟨b, c⟩, asked, same⟩ := probed
  obtain ⟨rfl, rfl⟩ := Prod.mk.inj same
  exact ⟨c, asked, rfl⟩

theorem view_leave {file : RtFile} {c : Caches} : (s.leave unitOf file c).view unitOf file = c := by
  simp [RtState.view, RtState.leave]

theorem leave_leave {file : RtFile} {c c' : Caches} :
    (s.leave unitOf file c).leave unitOf file c' = s.leave unitOf file c' := by
  simp only [RtState.leave, RtState.mk.injEq, true_and, and_true]
  funext u
  split <;> rfl

theorem freeKind_learns {ptr : BitVec 64} {kind : RtState.Kind} (right : s.Right)
    (told : s.freeKind unitOf ptr = some (kind, s')) : Learns s s' := by
  simp only [RtState.freeKind, Option.bind_eq_bind, Option.bind_eq_some_iff, Option.pure_def] at told
  obtain ⟨⟨b₁, s₁⟩, first, ⟨b₂, s₂⟩, second, told⟩ := told
  obtain ⟨c₁, asked, rfl⟩ := probe_eq_some first
  have seen : (s.view unitOf .memory).Right s.mem := right.view .memory
  obtain ⟨c, answered, learned⟩ := isValidHeapPtr_spec seen ptr
  obtain ⟨rfl, rfl⟩ := Prod.mk.inj (Option.some.inj (asked.symm.trans answered))
  -- The second test of the same word changes nothing.
  obtain ⟨c₂, again, rfl⟩ := probe_eq_some second
  rw [view_leave] at again
  have same := again.symm.trans (isValidHeapPtr_again asked)
  obtain ⟨rfl, rfl⟩ := Prod.mk.inj (Option.some.inj same)
  split at told
  · cases told
    rw [leave_leave]
    exact Learns.of_leave learned
  · simp only [Option.bind_eq_some_iff] at told
    obtain ⟨⟨b₃, s₃⟩, third, told⟩ := told
    cases told
    obtain ⟨c₃, floated, rfl⟩ := probe_eq_some third
    rw [leave_leave, view_leave] at floated
    obtain ⟨c, answered, more⟩ := isVFlt_spec (seen.others.learned learned.unit) ptr
    obtain ⟨-, rfl⟩ := Prod.mk.inj (Option.some.inj (floated.symm.trans answered))
    rw [leave_leave, leave_leave]
    exact Learns.of_leave (learned.trans more)

omit [DecidableEq U] in
/-- Allocating a small string leaves the caches. -/
theorem rtAllocSmallStringLen_learns {bytes : List (BitVec 8)} {given : Given} {r : Nat}
    (allocated : s.rtAllocSmallStringLen bytes given = some (r, s')) : Learns s s' := by
  have written : ∀ t : RtState U, t.heapPtr = s.heapPtr → t.units = s.units →
      t.ssoWrite bytes = some (r, s') → Learns s s' := by
    intro t heap units wrote
    simp only [RtState.ssoWrite, Option.bind_eq_bind, Option.bind_eq_some_iff,
      Option.pure_def] at wrote
    obtain ⟨_, _, _, _, _, _, _, _, _, _, _, _, _, _, _, _, wrote⟩ := wrote
    cases wrote
    exact Learns.of_same heap units
  unfold RtState.rtAllocSmallStringLen at allocated
  split at allocated
  · cases allocated
    exact Learns.of_same rfl rfl
  simp only [Option.bind_eq_bind, Option.bind_eq_some_iff, Option.pure_def] at allocated
  obtain ⟨full, -, allocated⟩ := allocated
  split at allocated
  · cases allocated
    exact Learns.of_same rfl rfl
  split at allocated
  · obtain ⟨t, grown, wrote⟩ := Option.bind_eq_some_iff.mp allocated
    unfold RtState.ssoGrow at grown
    split at grown
    · cases grown
    · simp only [Option.bind_eq_bind, Option.bind_eq_some_iff, Option.pure_def] at grown
      obtain ⟨m₁, -, grown⟩ := grown
      cases grown
      exact written { s with mem := m₁, ssoStrings := given.block } rfl rfl wrote
  · exact written s rfl rfl allocated

theorem rtMallocRaw_learns {given : Given}
    (plain : heapGuard given.block = true → hasMagic given.mem given.block = true →
      Keeps heapPtrSlot s.heapPtr given.block) : Learns s (s.rtMallocRaw unitOf given).2 := by
  unfold RtState.rtMallocRaw
  simp only
  split
  · exact Learns.of_same rfl rfl
  constructor
  · exact fun p kept => Or.inl kept
  · intro u n p noted
    by_cases own : u = unitOf .memory
    · simp only [RtState.leave, own, if_true] at noted
      cases n with
      | noHeap =>
        rcases keeps_store.mp noted.2 with ⟨rfl, -⟩ | ⟨-, kept⟩
        · refine Or.inr ?_
          by_cases magic : hasMagic given.mem given.block = true
          · exact Or.inr ⟨rfl, plain noted.1 magic⟩
          · exact Or.inl (Bool.eq_false_iff.mpr magic)
        · exact Or.inl (own ▸ ⟨noted.1, kept⟩)
      | _ => exact Or.inl (own ▸ noted)
    · simp only [RtState.leave, own, if_false] at noted
      exact Or.inl noted

variable (unitOf) in
/--
What an operation must leave alone.

It turns no note wrong that stays in a cache: neither by a write to the word that the note is about,
nor by taking a heap pointer out of the shared cache that another cache has as none. When something
is freed or a float is boxed, this is so of the tests and of the refill before, too. A raw block has
no magic word before it.
-/
def RtOp.Meets (s : RtState U) : RtOp → Prop
  | .mallocRaw given => Spares s (s.rtMallocRaw unitOf given).2 ∧
    (heapGuard given.block = true → hasMagic given.mem given.block = true →
      Keeps heapPtrSlot s.heapPtr given.block)
  | .free ptr freed => ∀ kind s₁, s.freeKind unitOf ptr = some (kind, s₁) → Spares s s₁ ∧
    ∀ s₂, s₁.freeAs unitOf kind ptr freed = some s₂ → Spares s₁ s₂
  | .fltBox bits given => ∀ s₁, s.refill unitOf given = some s₁ → Spares s s₁ ∧
    ∀ r s₂, s₁.boxSlot unitOf bits = some (r, s₂) → Spares s₁ s₂
  | op => ∀ s', op.exec unitOf s = some s' → Spares s s'

variable (unitOf) in
/-- Every operation of a run leaves alone what it must. -/
def AllMeet (s : RtState U) : List RtOp → Prop
  | [] => True
  | op :: ops => op.Meets unitOf s ∧ ∀ s', op.exec unitOf s = some s' → AllMeet s' ops

theorem exec_right {op : RtOp} (right : s.Right) (meets : op.Meets unitOf s)
    (ran : op.exec unitOf s = some s') : s'.Right := by
  have tested : ∀ {file v test answer}, (∃ c, test s.mem (s.view unitOf file) v = some (answer, c) ∧
      (s.view unitOf file).Learned s.mem c) →
      (s.probe unitOf file test v).map Prod.snd = some s' → Learns s s' := by
    intro file v test answer spec probed
    obtain ⟨t, asked, -, learned⟩ := probe_spec spec
    rw [asked, Option.map_some, Option.some.injEq] at probed
    exact probed ▸ learned
  have second : ∀ {x : Option (Nat × RtState U)}, x.map Prod.snd = some s' → ∃ r, x = some (r, s') := by
    intro x mapped
    obtain ⟨⟨r, t⟩, found, rfl⟩ := Option.map_eq_some_iff.mp mapped
    exact ⟨r, found⟩
  cases op with
  | heap file v =>
    exact right.step (meets s' ran) (tested (isValidHeapPtr_spec (right.view file) v) ran)
  | flt file v =>
    exact right.step (meets s' ran) (tested (isVFlt_spec (right.view file).others v) ran)
  | str file v =>
    exact right.step (meets s' ran) (tested (isVStr_spec (right.view file) v) ran)
  | malloc size given =>
    obtain ⟨r, allocated⟩ := second ran
    exact right.step (meets s' ran) (mallocWith_learns allocated)
  | mallocUninit size given =>
    obtain ⟨r, allocated⟩ := second ran
    exact right.step (meets s' ran) (mallocWith_learns allocated)
  | mallocRaw given =>
    cases ran
    exact right.step meets.1 (rtMallocRaw_learns meets.2)
  | free ptr freed =>
    simp only [RtOp.exec, RtState.rtFree] at ran
    split at ran
    · cases ran
    · rename_i kind s₁ told
      obtain ⟨probes, release⟩ := meets kind s₁ told
      have between := right.step probes (freeKind_learns right told)
      exact between.step (release s' ran) (freeAs_learns ran)
  | freeRaw ptr freed =>
    cases ran
    exact right.step (meets _ rfl) rtFreeRaw_learns
  | fltBox bits given =>
    obtain ⟨r, boxed⟩ := second ran
    simp only [RtState.rtFltBoxVal, Option.bind_eq_bind, Option.bind_eq_some_iff] at boxed
    obtain ⟨s₁, filled, boxed⟩ := boxed
    obtain ⟨refill, box⟩ := meets s₁ filled
    have between := right.step refill (refill_learns filled)
    exact between.step (box r s' boxed) (boxSlot_learns boxed)
  | fltFree v => exact right.step (meets s' ran) (rtFltFree_learns ran)
  | smallString bytes given =>
    obtain ⟨r, allocated⟩ := second ran
    exact right.step (meets s' ran) (rtAllocSmallStringLen_learns allocated)

theorem rtRun_right {ops : List RtOp} (right : s.Right) (meets : AllMeet unitOf s ops)
    (ran : rtRun unitOf s ops = some s') : s'.Right := by
  induction ops generalizing s with
  | nil =>
    cases ran
    exact right
  | cons op ops ih =>
    simp only [rtRun, Option.bind_eq_bind, Option.bind_eq_some_iff] at ran
    obtain ⟨t, moved, ran⟩ := ran
    exact ih (exec_right right meets.1 moved) (meets.2 t moved) ran

omit [DecidableEq U] in
/-- The first state has no note that could turn wrong. -/
theorem spares_init (m : Mem) : Spares ({ mem := m } : RtState U) s' := by
  constructor
  · intro p _ kept
    exact absurd kept not_keeps_empty
  · intro u n p noted
    cases n with
    | page =>
      obtain ⟨nonzero, noted⟩ := noted
      simp [nonzero, not_keeps_empty] at noted
    | _ => exact absurd noted.2 not_keeps_empty

theorem isVFlt_heapPtr {m : Mem} {c c' : Caches} {v : BitVec 64} {answer : Bool}
    (asked : isVFlt m c v = some (answer, c')) : c'.heapPtr = c.heapPtr := by
  unfold isVFlt at asked
  simp only at asked
  repeat' split at asked
  all_goals cases asked
  all_goals rfl

theorem meets_flt (file : RtFile) (v : BitVec 64) : (RtOp.flt file v).Meets unitOf s := by
  intro s' ran
  obtain ⟨⟨answer, t⟩, probed, rfl⟩ := Option.map_eq_some_iff.mp ran
  obtain ⟨c, asked, rfl⟩ := probe_eq_some probed
  have heap : c.heapPtr = s.heapPtr := isVFlt_heapPtr asked
  constructor
  · exact fun p _ _ _ magic => magic
  · intro u n p _ _ harmless
    simpa only [RtState.leave, heap] using harmless

end Runs

/-- Some pages of zeros, and nothing else. -/
def somePages : Mem := { byte := fun _ => 0, mapped := fun page => 16 ≤ page && page < 64 }

/-- A small string, and a test of the words in it. -/
def oneString : List RtOp := [.smallString [65] ⟨0x10010, somePages⟩, .flt .core 0x10048]

/-- A small string, a test of the word of the next one, and the next one. -/
def nextString : List RtOp :=
  [.smallString [65] ⟨0x10010, somePages⟩, .str .string 0x10078,
    .smallString [66] ⟨0, somePages⟩]

/-- What a test in the source of strings answers after a run, and what it would without a cache. -/
def strAnswers {U : Type} [DecidableEq U] (unitOf : RtFile → U) (ops : List RtOp)
    (v : BitVec 64) : Option (Bool × Bool) := do
  let s ← rtRun unitOf { mem := somePages } ops
  let answer ← s.probe unitOf .string isVStr v
  return (answer.1, strTest s.mem v)

end Nytrix.Rt
