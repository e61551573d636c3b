import Nytrix.Lib.Tiling

/-! The generational collector of the runtime: spaces, allocation, the write barrier, collections. -/

namespace Nytrix.Rt.Gc

open Nytrix.Lib

/-- The words of memory by address; every access of the collector is to an aligned word. -/
abbrev Memory := Nat → Nat

/-- Stores one word. -/
def Memory.store (mem : Memory) (a v : Nat) : Memory := fun x => if x = a then v else mem x

/-- Clears a stretch of memory. -/
def Memory.clear (mem : Memory) (a n : Nat) : Memory := fun x =>
  if a ≤ x ∧ x < a + n then 0 else mem x

/-- Copies a stretch of memory, which may overlap its destination. -/
def Memory.copy (mem : Memory) (dst src n : Nat) : Memory := fun x =>
  if dst ≤ x ∧ x < dst + n then mem (src + (x - dst)) else mem x

/-- The number of collections an object survives before it is promoted. -/
def promotionAge : Nat := 3

/-- The mark in an object's flags. -/
def markedFlag : Nat := 1

/-- The flag of an object that was scanned. -/
def scannedFlag : Nat := 2

/-- The flag of an object outside the nursery. -/
def tenuredFlag : Nat := 4

/-- The flag of a large object. -/
def largeFlag : Nat := 32

/-- The bytes of header and runtime prefix before an object's body. -/
def objectDataOffset : Nat := 48

/-- The word that opens every runtime prefix. -/
def magic1 : Nat := 0x545249584E5954

/-- The tag of lists. -/
def tagList : Nat := 100

/-- The tag of dictionaries. -/
def tagDict : Nat := 101

/-- The tag of tuples. -/
def tagTuple : Nat := 103

/-- The tag of successful results. -/
def tagOk : Nat := 104

/-- The tag of failed results. -/
def tagErr : Nat := 105

/-- The tag of closures. -/
def tagClosure : Nat := 107

/-- A value that may be an address: no small integer and above the lowest page. -/
def isPtr (v : Nat) : Bool := v % 2 = 0 && 0x1000 < v

/-- The bytes of a body, rounded up in the arithmetic of `size_t`. -/
def bodySize (size : Nat) : Nat :=
  let rounded := (size + 15) % 2 ^ 64
  rounded - rounded % 16

/-- The bytes an object takes with its header, in the arithmetic of `size_t`. -/
def allocSize (size : Nat) : Nat := (objectDataOffset + bodySize size) % 2 ^ 64

/--
Where the two spaces lie and from which size on an object is large.

The spaces are blocks of the C allocator in the user half of a 64-bit address space, at least as
large as the initialisation makes them.
-/
structure Config where
  nurseryStart : Nat
  nurseryLimit : Nat
  tenuredStart : Nat
  tenuredLimit : Nat
  largeThreshold : Nat
  nurseryAligned : nurseryStart % 16 = 0
  tenuredAligned : tenuredStart % 16 = 0
  nurseryRoom : nurseryStart + 64 * 1024 ≤ nurseryLimit
  tenuredRoom : tenuredStart + 256 * 1024 ≤ tenuredLimit
  nurseryMapped : 0x1000 < nurseryStart
  tenuredMapped : 0x1000 < tenuredStart
  nurseryUser : nurseryLimit ≤ 2 ^ 47
  tenuredUser : tenuredLimit ≤ 2 ^ 47
  apart : nurseryLimit ≤ tenuredStart ∨ tenuredLimit ≤ nurseryStart

/-- A large object: the address of its block and the size of it. -/
structure Large where
  header : Nat
  total : Nat
  deriving DecidableEq

/-- The state of the collector, with the memory of the whole process. -/
structure State where
  mem : Memory
  nurseryPtr : Nat
  tenuredFree : Nat
  large : List Large
  remembered : List Nat
  roots : List Nat

/-- The state after initialisation, in a memory of any contents. -/
def init (c : Config) (mem : Memory) : State :=
  { mem, nurseryPtr := c.nurseryStart, tenuredFree := c.tenuredStart,
    large := [], remembered := [], roots := [] }

/-- The size recorded in a header. -/
def sizeAt (mem : Memory) (h : Nat) : Nat := mem (h + 8)

/-- The bytes an object takes by the size recorded in its header. -/
def totalAt (mem : Memory) (h : Nat) : Nat := allocSize (sizeAt mem h)

/-- The flags, which are the low half of a header's first word. -/
def flagsAt (mem : Memory) (h : Nat) : Nat := mem h % 2 ^ 32

/-- The age, which is the high half of a header's first word. -/
def ageAt (mem : Memory) (h : Nat) : Nat := mem h / 2 ^ 32

/-- The first word of a header. -/
def headWord (flags age : Nat) : Nat := flags + 2 ^ 32 * age

/-- The object has its mark. -/
def isMarked (mem : Memory) (h : Nat) : Bool := flagsAt mem h &&& markedFlag ≠ 0

/-- Sets the mark of an object. -/
def setMark (mem : Memory) (h : Nat) : Memory := mem.store h (mem h ||| markedFlag)

/-- The tag of an object. -/
def tagAt (mem : Memory) (h : Nat) : Nat := mem (h + 40)

/-- The address of the object of a header. -/
def objPtr (h : Nat) : Nat := h + objectDataOffset

/-- The checks by which a word that may be a header is told from other data. -/
def headerCandidateValid (mem : Memory) (h usedEnd : Nat) : Bool :=
  h + objectDataOffset ≤ usedEnd && mem (h + 16) = magic1 && sizeAt mem h ≤ 2 ^ 64 - 1 - 15 &&
    objectDataOffset ≤ totalAt mem h && h + totalAt mem h ≤ usedEnd &&
    sizeAt mem h ≤ mem (h + 24) / 2

/-- The header of an object of a space; its address is asserted to be aligned. -/
def headerInSpace (mem : Memory) (obj start usedEnd : Nat) : Option Nat :=
  if start + objectDataOffset ≤ obj ∧ obj < usedEnd + objectDataOffset ∧ obj % 8 = 0 then
    let h := obj - objectDataOffset
    if start ≤ h ∧ h < usedEnd ∧ headerCandidateValid mem h usedEnd then some h else none
  else none

/-- The large object whose block holds an address; blocks do not overlap, so there is one. -/
def largeIndexFind (g : State) (a : Nat) : Option Large :=
  g.large.find? fun l => l.header ≤ a && a < l.header + l.total

/-- The header of a large object. -/
def headerOfLarge (g : State) (obj : Nat) : Option Nat := do
  let l ← largeIndexFind g obj
  if obj = objPtr l.header ∧ headerCandidateValid g.mem l.header (l.header + l.total) then
    some l.header
  else none

/-- The header of an object, in the nursery, in tenured space or of a large object. -/
def headerForObject (c : Config) (g : State) (obj : Nat) : Option Nat :=
  if !isPtr obj then none else
  (headerInSpace g.mem obj c.nurseryStart g.nurseryPtr).or
    ((headerInSpace g.mem obj c.tenuredStart g.tenuredFree).or (headerOfLarge g obj))

/-- Clears an object's block and writes its header and runtime prefix. -/
def initObject (mem : Memory) (h size flags age : Nat) : Memory :=
  ((((mem.clear h (allocSize size)).store h (headWord flags age)).store (h + 8) size).store
    (h + 16) magic1).store (h + 24) (2 * bodySize size % 2 ^ 64 ||| 1)

/-- Allocates in the nursery, when there is room. -/
def allocFastUnlocked (c : Config) (g : State) (size : Nat) : Option (State × Nat) :=
  if c.nurseryLimit < g.nurseryPtr + allocSize size then none else
  some ({ g with mem := initObject g.mem g.nurseryPtr size 0 0
                 nurseryPtr := g.nurseryPtr + allocSize size }, objPtr g.nurseryPtr)

/-- Allocates in tenured space, when there is room. -/
def allocTenuredUnlocked (c : Config) (g : State) (size : Nat) : Option (State × Nat) :=
  if c.tenuredLimit < g.tenuredFree + allocSize size then none else
  some ({ g with mem := initObject g.mem g.tenuredFree size tenuredFlag promotionAge
                 tenuredFree := g.tenuredFree + allocSize size }, objPtr g.tenuredFree)

/-- Allocates a large object in the block the C allocator gives, if it gives one. -/
def allocLargeUnlocked (g : State) (size : Nat) : Option Nat → State × Nat
  | none => (g, 0)
  | some h => ({ g with mem := initObject g.mem h size (tenuredFlag ||| largeFlag) promotionAge
                        large := ⟨h, allocSize size⟩ :: g.large }, objPtr h)

/-- The objects that moved, from their old to their new address, in the order they lay in. -/
abbrev ForwardMap := List (Nat × Nat)

/-- Records that an object moved; one that stays where it is is not recorded. -/
def forwardPush (map : ForwardMap) (source dest : Nat) : ForwardMap :=
  if source = 0 ∨ source = dest then map else map ++ [(source, dest)]

/-- The new address of an object that moved, or null. -/
def forwardFind (map : ForwardMap) (value : Nat) : Nat := (map.lookup value).getD 0

/-- Redirects the reference in a slot. -/
def forwardSlot (map : ForwardMap) (mem : Memory) (slot : Nat) : Memory :=
  if slot = 0 ∨ !isPtr (mem slot) then mem else
  if forwardFind map (mem slot) ≠ 0 then mem.store slot (forwardFind map (mem slot)) else mem

/-- A count that may be tagged, none when it is negative. -/
def taggedCount (v : Nat) : Nat := if 2 ^ 63 ≤ v then 0 else if v % 2 = 1 then v / 2 else v

/-- The state of a dictionary slot that is in use, raw or tagged. -/
def isLive (state : Nat) : Bool := state = 1 || state = 3

/-- The offsets from the header of the references in an object, by its cells. -/
def tracedOffsets (cells : Nat → Nat) : List Nat :=
  let size := cells 8
  let tag := cells 40
  if tag = tagList ∨ tag = tagTuple then
    (List.range (min (taggedCount (cells 48)) ((size - 16) / 8))).map fun i => 64 + 8 * i
  else if tag = tagDict then
    (List.range (min (taggedCount (cells 56)) ((size - 16) / 24))).flatMap fun i =>
      if isLive (cells (64 + 24 * i + 16)) then [64 + 24 * i, 64 + 24 * i + 8] else []
  else if tag = tagOk ∨ tag = tagErr then
    (if 8 ≤ size then [48] else []) ++ if 16 ≤ size then [56] else []
  else if tag = tagClosure then
    (if 16 ≤ size then [56] else []) ++ if 24 ≤ size then [64] else []
  else []

/-- The slots of the references in an object, which marking, forwarding and remembering share. -/
def tracedSlots (mem : Memory) (h : Nat) : List Nat :=
  (tracedOffsets fun o => mem (h + o)).map fun o => h + o

/-- Visits the objects of a space from its start to its end, by the sizes in their headers. -/
def walk (visit : State → Nat → State) : Nat → Nat → Nat → State → State
  | 0, _, _, g => g
  | fuel + 1, p, stop, g =>
    if p < stop then
      let g := visit g p
      walk visit fuel (p + totalAt g.mem p) stop g
    else g

/-- Visits the objects of the nursery. -/
def walkNursery (c : Config) (visit : State → Nat → State) (g : State) : State :=
  walk visit (g.nurseryPtr - c.nurseryStart) c.nurseryStart g.nurseryPtr g

/-- Visits the objects of tenured space. -/
def walkTenured (c : Config) (visit : State → Nat → State) (g : State) : State :=
  walk visit (g.tenuredFree - c.tenuredStart) c.tenuredStart g.tenuredFree g

/-- Redirects the references of an object. -/
def updateObjectRefs (map : ForwardMap) (g : State) (h : Nat) : State :=
  { g with mem := (tracedSlots g.mem h).foldl (forwardSlot map) g.mem }

/-- Redirects the roots, the remembered slots and the references of every object. -/
def applyForwards (c : Config) (map : ForwardMap) (g : State) : State :=
  let g := { g with mem := g.roots.foldl (forwardSlot map) g.mem }
  let g := { g with mem := g.remembered.foldl (forwardSlot map) g.mem }
  let g := walkNursery c (updateObjectRefs map) g
  let g := walkTenured c (updateObjectRefs map) g
  g.large.foldl (fun g l => updateObjectRefs map g l.header) g

/-- The value is an address of the nursery in use. -/
def slotPointsToNursery (c : Config) (g : State) (value : Nat) : Bool :=
  isPtr value && c.nurseryStart + objectDataOffset ≤ value &&
    value < g.nurseryPtr + objectDataOffset

/-- Remembers a slot, once. -/
def addRemembered (g : State) (slot : Nat) : State :=
  if slot ∈ g.remembered then g else { g with remembered := g.remembered ++ [slot] }

/-- Remembers a slot that refers to the nursery. -/
def rememberSlotIfNursery (c : Config) (g : State) (slot : Nat) : State :=
  if slot ≠ 0 ∧ slotPointsToNursery c g (g.mem slot) then addRemembered g slot else g

/-- Remembers the slots of an object that refer to the nursery. -/
def rememberObjectRefs (c : Config) (g : State) (h : Nat) : State :=
  (tracedSlots g.mem h).foldl (rememberSlotIfNursery c) g

/-- Finds the slots to remember anew, in tenured and large objects. -/
def rebuildRemembered (c : Config) (g : State) : State :=
  let g := walkTenured c (rememberObjectRefs c) { g with remembered := [] }
  g.large.foldl (fun g l => rememberObjectRefs c g l.header) g

/-- The walk of the validator over a space meets none of its abort conditions. -/
def validateWalk (mem : Memory) (ptr : Nat) : Nat → Nat → Bool
  | 0, p => p = ptr
  | fuel + 1, p =>
    if p < ptr then
      p + objectDataOffset ≤ ptr && objectDataOffset ≤ totalAt mem p &&
        p + totalAt mem p ≤ ptr && mem (p + 16) = magic1 && sizeAt mem p ≤ mem (p + 24) / 2 &&
        validateWalk mem ptr fuel (p + totalAt mem p)
    else p = ptr

/-- The validator finds nothing wrong with a space. -/
def validateSpace (mem : Memory) (start ptr limit : Nat) : Bool :=
  start = 0 || ptr = 0 || limit = 0 ||
    (start ≤ ptr && ptr ≤ limit && validateWalk mem ptr (ptr - start) start)

/-- The validator finds nothing wrong. -/
def validate (c : Config) (g : State) : Bool :=
  validateSpace g.mem c.nurseryStart g.nurseryPtr c.nurseryLimit &&
    validateSpace g.mem c.tenuredStart g.tenuredFree c.tenuredLimit &&
    g.roots.all (· ≠ 0) &&
    g.remembered.all fun slot => slot ≠ 0 &&
      (g.large.any (fun l => l.header ≤ slot && slot < l.header + l.total) ||
        (c.tenuredStart ≤ slot && slot < g.tenuredFree))

/-- Registers a root slot. -/
def addRoot (g : State) (slot : Nat) : State :=
  if slot = 0 then g else { g with roots := g.roots ++ [slot] }

/-- Takes out one registration of a root slot; the last root fills its place. -/
def removeRoot (g : State) (slot : Nat) : State :=
  match g.roots.findIdx? (· = slot) with
  | some i => { g with roots := (g.roots.set i (g.roots.getLastD 0)).dropLast }
  | none => g

/-- Stores a value and remembers the slot when an old object comes to refer to the nursery. -/
def writeBarrier (c : Config) (g : State) (slot value : Nat) : State :=
  if slot = 0 then g else
  let old := (c.tenuredStart ≤ slot && slot < g.tenuredFree) || (largeIndexFind g slot).isSome
  let young := c.nurseryStart ≤ value && value < g.nurseryPtr
  let g := if value ≠ 0 ∧ old ∧ young then addRemembered g slot else g
  { g with mem := g.mem.store slot value }

/-- Marks an object and everything it refers to that is not marked yet. -/
def mark (c : Config) : Nat → State → Nat → State
  | 0, g, _ => g
  | fuel + 1, g, obj => match headerForObject c g obj with
    | none => g
    | some h =>
      if isMarked g.mem h then g else
      (tracedSlots g.mem h).foldl
        (fun g slot => if isPtr (g.mem slot) then mark c fuel g (g.mem slot) else g)
        { g with mem := setMark g.mem h }

/-- No recursion of marking is deeper than there are objects. -/
def markDepth (c : Config) (g : State) : Nat :=
  (g.nurseryPtr - c.nurseryStart) + (g.tenuredFree - c.tenuredStart) + g.large.length

/-- Marks what the given slots refer to. -/
def markSlots (c : Config) (depth : Nat) (slots : List Nat) (g : State) : State :=
  slots.foldl (fun g slot => if g.mem slot ≠ 0 then mark c depth g (g.mem slot) else g) g

/-- Marks from the roots and the remembered slots. -/
def markFromRoots (c : Config) (g : State) : State :=
  let depth := markDepth c g
  markSlots c depth g.remembered (markSlots c depth g.roots g)

/-- The state of the loop that promotes survivors. -/
structure Promotion where
  mem : Memory
  ptr : Nat
  nurseryTo : Nat
  tenuredFree : Nat
  forwards : ForwardMap

/-- Moves one object of the nursery down or to tenured space; tenured space may be full. -/
def promoteOne (c : Config) (s : Promotion) : Option Promotion :=
  let h := s.ptr
  let total := totalAt s.mem h
  if isMarked s.mem h then
    let age := ageAt s.mem h
    let nextAge := if age < 2 ^ 32 - 1 then age + 1 else age
    if nextAge < promotionAge then
      let dst := s.nurseryTo
      let mem := if dst ≠ h then s.mem.copy dst h total else s.mem
      let flags := flagsAt mem dst &&& (2 ^ 32 - 1 - (markedFlag + tenuredFlag + scannedFlag))
      some { s with mem := mem.store dst (headWord flags nextAge), ptr := h + total,
                    nurseryTo := dst + total,
                    forwards := forwardPush s.forwards (objPtr h) (objPtr dst) }
    else if s.tenuredFree + total ≤ c.tenuredLimit then
      let dst := s.tenuredFree
      let mem := s.mem.copy dst h total
      let flags := (flagsAt mem dst ||| tenuredFlag) &&& (2 ^ 32 - 1 - (markedFlag + scannedFlag))
      some { s with mem := mem.store dst (headWord flags promotionAge), ptr := h + total,
                    tenuredFree := dst + total,
                    forwards := forwardPush s.forwards (objPtr h) (objPtr dst) }
    else none
  else some { s with ptr := h + total }

/-- Moves the objects of the nursery one after the other. -/
def promoteLoop (c : Config) (stop : Nat) : Nat → Promotion → Option Promotion
  | 0, s => if s.ptr < stop then none else some s
  | fuel + 1, s =>
    if s.ptr < stop then do
      let s ← promoteOne c s
      promoteLoop c stop fuel s
    else some s

/-- Keeps the marked objects of the nursery, there or in tenured space; fails as a fatal error. -/
def promoteSurvivors (c : Config) (g : State) : Option State := do
  let s ← promoteLoop c g.nurseryPtr (g.nurseryPtr - c.nurseryStart)
    ⟨g.mem, c.nurseryStart, c.nurseryStart, g.tenuredFree, []⟩
  let mem := s.mem.clear s.nurseryTo (g.nurseryPtr - s.nurseryTo)
  let g := { g with mem, nurseryPtr := s.nurseryTo, tenuredFree := s.tenuredFree }
  pure (if s.forwards = [] then g else applyForwards c s.forwards g)

/-- Decides where the marked objects of tenured space go, without moving them yet. -/
def sweepPlan (mem : Memory) (stop : Nat) : Nat → Nat → Nat → ForwardMap → Nat × ForwardMap
  | 0, _, newFree, forwards => (newFree, forwards)
  | fuel + 1, p, newFree, forwards =>
    if p < stop then
      let total := totalAt mem p
      if isMarked mem p then
        sweepPlan mem stop fuel (p + total) (newFree + total)
          (forwardPush forwards (objPtr p) (objPtr newFree))
      else sweepPlan mem stop fuel (p + total) newFree forwards
    else (newFree, forwards)

/-- Moves one object of tenured space down and takes its mark. -/
def sweepMove (mem : Memory) (move : Nat × Nat) : Memory :=
  let src := move.1 - objectDataOffset
  let dst := move.2 - objectDataOffset
  let mem := mem.copy dst src (totalAt mem src)
  mem.store dst
    (headWord ((flagsAt mem dst ||| tenuredFlag) &&& (2 ^ 32 - 1 - markedFlag)) (ageAt mem dst))

/-- Keeps the marked objects of tenured space, slid together. -/
def sweepTenured (c : Config) (g : State) : State :=
  let (newFree, forwards) :=
    sweepPlan g.mem g.tenuredFree (g.tenuredFree - c.tenuredStart) c.tenuredStart c.tenuredStart []
  let mem := forwards.foldl sweepMove g.mem
  let mem := mem.clear newFree (g.tenuredFree - newFree)
  let g := { g with mem, tenuredFree := newFree }
  let g := if forwards = [] then g else applyForwards c forwards g
  rebuildRemembered c g

/-- Takes the mark of an object. -/
def clearMark (mem : Memory) (h : Nat) : Memory :=
  mem.store h (headWord (flagsAt mem h &&& (2 ^ 32 - 1 - markedFlag)) (ageAt mem h))

/-- Takes the marks of the large objects. -/
def clearLargeMarks (g : State) : State :=
  { g with mem := g.large.foldl (fun mem l => clearMark mem l.header) g.mem }

/-- Frees the large objects without a mark and takes the marks of the others. -/
def sweepLarge (g : State) : State :=
  let kept := g.large.filter fun l => isMarked g.mem l.header
  { g with large := kept, mem := kept.foldl (fun mem l => clearMark mem l.header) g.mem }

/-- A collection of the nursery. -/
def minorCollect (c : Config) (g : State) : Option State := do
  let g ← promoteSurvivors c (markFromRoots c (clearLargeMarks g))
  pure (rebuildRemembered c g)

/-- A collection of all spaces. -/
def majorCollect (c : Config) (g : State) : Option State := do
  let g ← minorCollect c g
  pure (rebuildRemembered c (sweepLarge (sweepTenured c g)))

/-- Allocates in the nursery or as a large object, without collecting; null when full. -/
def allocFast (c : Config) (g : State) (size : Nat) (block : Option Nat) : State × Nat :=
  if c.largeThreshold ≤ allocSize size then allocLargeUnlocked g size block
  else (allocFastUnlocked c g size).getD (g, 0)

/-- Allocates in tenured space, after a collection of all spaces where it is full. -/
def allocOld (c : Config) (g : State) (size : Nat) : Option (State × Nat) :=
  match allocTenuredUnlocked c g size with
  | some r => some r
  | none => do
    let g ← majorCollect c g
    pure ((allocTenuredUnlocked c g size).getD (g, 0))

/-- Allocates after a collection of the nursery. -/
def allocSlow (c : Config) (g : State) (size : Nat) (block : Option Nat) : Option (State × Nat) :=
  if c.largeThreshold ≤ allocSize size then some (allocLargeUnlocked g size block) else do
  let g ← minorCollect c g
  match allocFastUnlocked c g size with
  | some r => some r
  | none => allocOld c g size

/-- Allocates, collecting the nursery when it is full. -/
def alloc (c : Config) (g : State) (size : Nat) (block : Option Nat) : Option (State × Nat) :=
  if c.largeThreshold ≤ allocSize size then some (allocLargeUnlocked g size block) else
  match allocFastUnlocked c g size with
  | some r => some r
  | none => allocSlow c g size block

end Nytrix.Rt.Gc
