import Mathlib.Data.List.Basic

/-! The scopes of a function: names are bound, popped and looked up through filters and caches. -/

namespace Nytrix.Scopes

/-- A text in memory: its bytes before the zero byte that ends it. -/
abbrev Text := List UInt8

/-- A word of the machine. -/
abbrev Word := BitVec 64

section Hashing

/-- Mixes the bits of a word. -/
def nyFasthashMix (h : Word) : Word :=
  let h := (h ^^^ (h >>> 23)) * 0x2127599bf4325c37
  h ^^^ (h >>> 47)

/-- The factor of the hash. -/
def hashFactor : Word := 0x880355f21e6d1965

/-- Up to eight bytes as a word, the first one the lowest. -/
def wordOf : List UInt8 → Word
  | [] => 0
  | c :: rest => BitVec.setWidth 64 c.toBitVec ^^^ (wordOf rest <<< 8)

/-- Mixes a word into a hash. -/
def hashWord (h v : Word) : Word := (h ^^^ nyFasthashMix v) * hashFactor

/-- Mixes bytes into a hash, eight at a time, and the last ones together. -/
def hashBytes (h : Word) : List UInt8 → Word
  | a :: b :: c :: d :: e :: f :: g :: i :: rest =>
    hashBytes (hashWord h (wordOf [a, b, c, d, e, f, g, i])) rest
  | [] => h
  | rest => hashWord h (wordOf rest)

/-- The hash of some bytes. -/
def nyHash64Fast (data : List UInt8) : Word :=
  nyFasthashMix (hashBytes (0xcbf29ce484222325 ^^^ (BitVec.ofNat 64 data.length * hashFactor)) data)

/-- The hash of a name, as far as its length goes. -/
def nyHashName (s : Text) (len : Nat) : Word := nyHash64Fast (s.take len)

end Hashing

section Records

variable {V : Type*}

/-- A bound name: where its text is, its hash and length, and what it is bound to. -/
structure Binding (V : Type*) where
  name : Nat
  nameHash : Word
  nameLen : BitVec 32
  value : V
  isUsed : Bool
  deriving DecidableEq

/-- What the lookups of one kind keep: the last hit, by its index, and the last miss. -/
structure LookupCache where
  lookupName : Nat
  lookupNameLen : Nat
  lookupHit : Option Nat
  lookupVarsLen : Nat
  lookupVarsData : Nat
  lookupMissName : Nat
  lookupMissNameLen : Nat
  lookupMissHash : Word
  lookupMissVarsLen : Nat
  lookupMissVarsData : Nat
  deriving DecidableEq

/-- The cache that keeps nothing. -/
def LookupCache.clear : LookupCache := ⟨0, 0, none, 0, 0, 0, 0, 0, 0, 0⟩

/--
A scope: its bindings, the oldest first, where they are and for how many there is room, the filter
of its names as one word, and the caches of the lookups that mark and of those that do not.
-/
structure Scope (V : Type*) where
  vars : List (Binding V)
  data : Nat
  cap : Nat
  nameBloom : BitVec 256
  marking : LookupCache
  noMark : LookupCache
  deriving DecidableEq

/-- The scope of which all bytes are zero. -/
def Scope.zero : Scope V := ⟨[], 0, 0, 0, .clear, .clear⟩

/-- The cache for one kind of lookup. -/
def Scope.cacheRef (sc : Scope V) (markUsed : Bool) : LookupCache :=
  if markUsed then sc.marking else sc.noMark

/-- The scope with another cache for one kind of lookup. -/
def Scope.setCache (sc : Scope V) (markUsed : Bool) (c : LookupCache) : Scope V :=
  if markUsed then { sc with marking := c } else { sc with noMark := c }

/-- The first bit of the filter for a hash. -/
def bloomBit0 (hash : Word) : Nat := (hash &&& 255).toNat

/-- The second bit of the filter for a hash. -/
def bloomBit1 (hash : Word) : Nat := ((hash >>> 8) &&& 255).toNat

/-- Adds a hash to the filter of a scope. -/
def nyScopeBloomAdd (sc : Scope V) (hash : Word) : Scope V :=
  { sc with nameBloom := sc.nameBloom ||| BitVec.twoPow 256 (bloomBit0 hash) |||
      BitVec.twoPow 256 (bloomBit1 hash) }

/-- Whether the filter of a scope lets a hash through. -/
def nyScopeBloomMaybeHas (sc : Scope V) (hash : Word) : Bool :=
  sc.vars.length ≠ 0 && sc.nameBloom.getLsbD (bloomBit0 hash) &&
    sc.nameBloom.getLsbD (bloomBit1 hash)

end Records

section Names

variable {V : Type*} (text : Nat → Text)

/-- The length of the name of a binding; it is kept in 32 bits. -/
def nyBindingNameLen (b : Binding V) : BitVec 32 :=
  if text b.name = [] then 0
  else if b.nameLen ≠ 0 then b.nameLen
  else BitVec.ofNat 32 (text b.name).length

/-- The hash of the name of a binding. -/
def nyBindingNameHash (b : Binding V) : Word :=
  if b.nameHash = 0 then nyHashName (text b.name) (nyBindingNameLen text b).toNat else b.nameHash

/-- Whether the text at one address is that at another, or is its beginning of a length. -/
def sameName (a b len : Nat) : Bool :=
  a = b || (decide ((text a).take len = (text b).take len) && decide ((text a).length ≤ len))

/-- Whether a binding has a name. -/
def Binding.isNamed (b : Binding V) (name nameLen : Nat) (wantHash : Word) : Bool :=
  nyBindingNameHash text b = wantHash && (nyBindingNameLen text b).toNat = nameLen &&
    sameName text b.name name nameLen

end Names

/-- The last index below a number at which a property holds. -/
def scanDown {α : Type*} (p : α → Bool) (items : List α) : Nat → Option Nat
  | 0 => none
  | i + 1 => if items[i]?.any p then some i else scanDown p items i

section Lookup

variable {V : Type*} (text : Nat → Text)

/-- Marks the binding at an index as used. -/
def Scope.use (sc : Scope V) (markUsed : Bool) (i : Nat) : Scope V :=
  if markUsed then { sc with vars := sc.vars.modify i fun b => { b with isUsed := true } } else sc

/-- Whether a cache says that a name is not in a scope. -/
def LookupCache.misses (c : LookupCache) (sc : Scope V) (name nameLen : Nat) (wantHash : Word) :
    Bool :=
  c.lookupMissName ≠ 0 && c.lookupMissVarsData = sc.data &&
    c.lookupMissVarsLen = sc.vars.length && c.lookupMissNameLen = nameLen &&
    c.lookupMissHash = wantHash && sameName text c.lookupMissName name nameLen

/-- The index at which a cache says that a name is in a scope. -/
def LookupCache.hits (c : LookupCache) (sc : Scope V) (name nameLen : Nat) (wantHash : Word) :
    Option Nat :=
  c.lookupHit.filter fun hit =>
    c.lookupName ≠ 0 && c.lookupVarsData = sc.data && c.lookupVarsLen = sc.vars.length &&
      c.lookupNameLen = nameLen &&
      sc.vars[hit]?.any (fun b => nyBindingNameHash text b = wantHash) &&
      sameName text c.lookupName name nameLen

/-- Keeps a miss. -/
def LookupCache.noteMiss (c : LookupCache) (sc : Scope V) (name nameLen : Nat) (wantHash : Word) :
    LookupCache :=
  { c with
    lookupMissName := name
    lookupMissNameLen := nameLen
    lookupMissHash := wantHash
    lookupMissVarsLen := sc.vars.length
    lookupMissVarsData := sc.data }

/-- Keeps a hit. -/
def LookupCache.noteHit (c : LookupCache) (sc : Scope V) (name nameLen hit : Nat) : LookupCache :=
  { c with
    lookupName := name
    lookupNameLen := nameLen
    lookupHit := some hit
    lookupVarsLen := sc.vars.length
    lookupVarsData := sc.data }

/-- Looks a name up in one scope. -/
def scopeLookupAt (sc : Scope V) (name nameLen : Nat) (wantHash : Word) (markUsed : Bool) :
    Option Nat × Scope V :=
  let c := sc.cacheRef markUsed
  if c.misses text sc name nameLen wantHash then (none, sc)
  else if !nyScopeBloomMaybeHas sc wantHash then
    (none, sc.setCache markUsed (c.noteMiss sc name nameLen wantHash))
  else
    match c.hits text sc name nameLen wantHash with
    | some hit => (some hit, sc.use markUsed hit)
    | none =>
      match scanDown (fun b => b.isNamed text name nameLen wantHash) sc.vars sc.vars.length with
      | some i => (some i, (sc.use markUsed i).setCache markUsed (c.noteHit sc name nameLen i))
      | none => (none, sc.setCache markUsed (c.noteMiss sc name nameLen wantHash))

/-- Looks a name up in the scopes below a number, the innermost first. -/
def scopeLookupFrom (name nameLen : Nat) (wantHash : Word) (markUsed : Bool) :
    Nat → (Nat → Scope V) → Option (Nat × Nat) × (Nat → Scope V)
  | 0, scopes => (none, scopes)
  | s + 1, scopes =>
    match scopeLookupAt text (scopes s) name nameLen wantHash markUsed with
    | (some i, sc) => (some (s, i), Function.update scopes s sc)
    | (none, sc) => scopeLookupFrom name nameLen wantHash markUsed s (Function.update scopes s sc)

/-- Looks a name up; a length or a hash that is zero is computed. -/
def scopeLookupImpl (scopes : Nat → Scope V) (depth name nameLen : Nat) (wantHash : Word)
    (markUsed : Bool) : Option (Nat × Nat) × (Nat → Scope V) :=
  if text name = [] then (none, scopes)
  else
    let nameLen := if nameLen = 0 then (text name).length else nameLen
    let wantHash := if wantHash = 0 then nyHashName (text name) nameLen else wantHash
    scopeLookupFrom text name nameLen wantHash markUsed (depth + 1) scopes

end Lookup

section Binding

variable {V : Type*} (text : Nat → Text)

/-- Pushes a binding; when there is no room the bindings move to another address. -/
def Scope.push (sc : Scope V) (b : Binding V) (fresh : Nat) : Scope V :=
  if sc.vars.length = sc.cap then
    { sc with
      vars := sc.vars ++ [b]
      data := fresh
      cap := if sc.cap = 0 then 8 else sc.cap * 2 }
  else { sc with vars := sc.vars ++ [b] }

/-- Clears both caches of a scope. -/
def scopeLookupCacheReset (sc : Scope V) : Scope V :=
  { sc with marking := .clear, noMark := .clear }

/-- The indices of the bindings of a name in a scope that a new binding of it redefines. -/
def redefined (sc : Scope V) (name : Nat) : List Nat :=
  let nameLen := (text name).length
  let wantHash := nyHashName (text name) nameLen
  if nyScopeBloomMaybeHas sc wantHash then
    (List.range sc.vars.length).filter fun i =>
      sc.vars[i]?.any fun b => b.isNamed text name nameLen wantHash
  else []

/--
Binds a name in a scope.

Given are the bindings that are redefined, the binding of an outer scope that is shadowed, and the
scopes afterwards.
-/
def scopeBind (scopes : Nat → Scope V) (depth name : Nat) (v : V) (fresh : Nat) :
    List Nat × Option (Nat × Nat) × (Nat → Scope V) :=
  let nameLen := (text name).length
  let wantHash := nyHashName (text name) nameLen
  let (shadow, scopes') :=
    if depth > 0 then scopeLookupImpl text scopes (depth - 1) name 0 0 false else (none, scopes)
  let b : Binding V := ⟨name, wantHash, BitVec.ofNat 32 nameLen, v, false⟩
  let sc := nyScopeBloomAdd ((scopes' depth).push b fresh) wantHash
  (redefined text (scopes depth) name, shadow,
    Function.update scopes' depth (scopeLookupCacheReset sc))

/-- Enters a scope. -/
def scopeEnter (scopes : Nat → Scope V) (depth : Nat) : (Nat → Scope V) × Nat :=
  (Function.update scopes (depth + 1) .zero, depth + 1)

/-- Leaves a scope, whose bindings are freed. -/
def scopePop (scopes : Nat → Scope V) (depth : Nat) : (Nat → Scope V) × Nat :=
  (Function.update scopes depth { scopes depth with vars := [], data := 0, cap := 0 }, depth - 1)

end Binding

section Plain

variable {V : Type*} (text : Nat → Text)

/-- The most recent binding of a text in a scope. -/
def latest (sc : Scope V) (name : Text) : Option Nat :=
  scanDown (fun b => decide (text b.name = name)) sc.vars sc.vars.length

/-- The most recent binding of a text in the innermost of the scopes below a number that has one. -/
def plainSearch (scopes : Nat → Scope V) (name : Text) : Nat → Option (Nat × Nat)
  | 0 => none
  | s + 1 =>
    match latest text (scopes s) name with
    | some i => some (s, i)
    | none => plainSearch scopes name s

end Plain

section Runs

variable {V : Type*}

/-- Memory as far as it holds names, and the scopes with the number of the innermost one. -/
structure Stack (V : Type*) where
  text : Nat → Text
  scopes : Nat → Scope V
  depth : Nat

/-- At the beginning there is one scope, of which all bytes are zero. -/
def Stack.Start (s : Stack V) : Prop := s.depth = 0 ∧ s.scopes 0 = .zero

/-- Whether a length and a hash may be passed for a name: each is zero or that of the name. -/
def Passed (name : Text) (nameLen : Nat) (wantHash : Word) : Prop :=
  (nameLen = 0 ∨ nameLen = name.length) ∧
    (wantHash = 0 ∨ wantHash = nyHashName name name.length)

/--
A step: a scope is entered or left, a name is bound or looked up, or a text that is no bound name
is written.

Names are not at address zero, and their texts are among those in play.
-/
inductive Step (play : Set Text) : Stack V → Stack V → Prop
  | enter (s) : Step play s ⟨s.text, (scopeEnter s.scopes s.depth).1, s.depth + 1⟩
  | pop (s) (inner : 0 < s.depth) :
      Step play s ⟨s.text, (scopePop s.scopes s.depth).1, s.depth - 1⟩
  | bind (s) (depth name) (v : V) (fresh) (live : depth ≤ s.depth) (address : name ≠ 0)
      (playing : s.text name ∈ play) :
      Step play s ⟨s.text, (scopeBind s.text s.scopes depth name v fresh).2.2, s.depth⟩
  | lookup (s) (depth name nameLen wantHash markUsed) (live : depth ≤ s.depth)
      (address : name ≠ 0) (playing : s.text name ∈ play)
      (passed : Passed (s.text name) nameLen wantHash) :
      Step play s
        ⟨s.text, (scopeLookupImpl s.text s.scopes depth name nameLen wantHash markUsed).2, s.depth⟩
  | write (s) (address : Nat) (text : Text)
      (unbound : ∀ d ≤ s.depth, ∀ b ∈ (s.scopes d).vars, b.name ≠ address) :
      Step play s ⟨Function.update s.text address text, s.scopes, s.depth⟩

end Runs

end Nytrix.Scopes
