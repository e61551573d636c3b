import Mathlib.Algebra.Order.Ring.Int
import Mathlib.Logic.Relation
import Mathlib.Data.Set.Function
import Nytrix.Scopes.Scope

/-! A lookup through filters and caches finds what a plain search finds. -/

namespace Nytrix.Scopes

section Scanning

variable {α : Type*} {p q : α → Bool} {items : List α}

theorem scanDown_eq_some {n i : Nat} : scanDown p items n = some i ↔
    i < n ∧ items[i]?.any p = true ∧ ∀ j, i < j → j < n → items[j]?.any p = false := by
  -- Induction on the number of indices that are left.
  induction n with
  | zero => simp [scanDown]
  | succ n ih =>
    unfold scanDown
    by_cases here : items[n]?.any p = true
    · simp only [if_pos here, Option.some.injEq]
      constructor
      · rintro rfl
        exact ⟨by omega, here, fun j after before => by omega⟩
      · intro ⟨below, _, absent⟩
        by_contra other
        simp [absent n (by omega) (by omega)] at here
    · rw [if_neg here, ih]
      constructor
      · intro ⟨below, found, absent⟩
        refine ⟨by omega, found, fun j after before => ?_⟩
        rcases Nat.lt_or_ge j n with less | last
        · exact absent j after less
        · obtain rfl : j = n := by omega
          simpa using here
      · intro ⟨below, found, absent⟩
        have earlier : i ≠ n := fun same => here (same ▸ found)
        exact ⟨by omega, found, fun j after before => absent j after (by omega)⟩

theorem scanDown_eq_none {n : Nat} :
    scanDown p items n = none ↔ ∀ j < n, items[j]?.any p = false := by
  induction n with
  | zero => simp [scanDown]
  | succ n ih =>
    unfold scanDown
    by_cases here : items[n]?.any p = true
    · simp only [if_pos here, reduceCtorEq, false_iff]
      exact fun absent => by simp [absent n (by omega)] at here
    · rw [if_neg here, ih]
      constructor
      · intro absent j before
        rcases Nat.lt_or_ge j n with less | last
        · exact absent j less
        · obtain rfl : j = n := by omega
          simpa using here
      · exact fun absent j before => absent j (by omega)

theorem scanDown_congr (agree : ∀ x ∈ items, p x = q x) (n : Nat) :
    scanDown p items n = scanDown q items n := by
  induction n with
  | zero => rfl
  | succ n ih =>
    have same : items[n]?.any p = items[n]?.any q := by
      cases found : items[n]? with
      | none => rfl
      | some x => simpa using agree x (List.mem_of_getElem? found)
    rw [scanDown, scanDown, same, ih]

theorem scanDown_map {β : Type*} (f : α → β) (p : β → Bool) (n : Nat) :
    scanDown p (items.map f) n = scanDown (fun x => p (f x)) items n := by
  induction n with
  | zero => rfl
  | succ n ih =>
    have same : (items.map f)[n]?.any p = items[n]?.any fun x => p (f x) := by
      rw [List.getElem?_map]
      cases items[n]? <;> rfl
    rw [scanDown, scanDown, same, ih]

end Scanning

variable {V : Type*} {text : Nat → Text} {play : Set Text}

section Invariants

/-- The hash of a whole name. -/
def fullHash (name : Text) : Word := nyHashName name name.length

/-- A binding of a name in play, with its hash and as much of its length as is kept. -/
structure Binding.Good (text : Nat → Text) (play : Set Text) (b : Binding V) : Prop where
  playing : text b.name ∈ play
  hash : b.nameHash = fullHash (text b.name)
  len : b.nameLen = BitVec.ofNat 32 (text b.name).length

/-- What a cache keeps of a scope is right, whenever it was noted. -/
structure LookupCache.Good (text : Nat → Text) (sc : Scope V) (c : LookupCache) : Prop where
  hit : ∀ i, c.lookupHit = some i → ∃ b, sc.vars[i]? = some b ∧
    latest text sc (text b.name) = some i
  miss : c.lookupMissName ≠ 0 → ∀ b ∈ sc.vars, fullHash (text b.name) ≠ c.lookupMissHash

/-- A scope whose bindings, filter and caches are right. -/
structure Scope.Good (text : Nat → Text) (play : Set Text) (sc : Scope V) : Prop where
  bindings : ∀ b ∈ sc.vars, b.Good text play
  bloom : ∀ b ∈ sc.vars, nyScopeBloomMaybeHas sc (fullHash (text b.name)) = true
  cache : ∀ markUsed, (sc.cacheRef markUsed).Good text sc

/-- A stack whose live scopes are right. -/
def Stack.Good (play : Set Text) (s : Stack V) : Prop :=
  ∀ d ≤ s.depth, (s.scopes d).Good s.text play

/-- The names in play have different hashes, and their lengths are kept. -/
structure Fit (play : Set Text) : Prop where
  distinct : Set.InjOn fullHash play
  short : ∀ name ∈ play, name.length < 2 ^ 32

end Invariants

section Naming

theorem sameName_iff (a b : Nat) :
    sameName text a b (text b).length = true ↔ text a = text b := by
  simp only [sameName, List.take_length, Bool.or_eq_true, Bool.and_eq_true, decide_eq_true_eq]
  constructor
  · rintro (same | ⟨begins, short⟩)
    · rw [same]
    · rwa [List.take_of_length_le short] at begins
  · exact fun same => .inr ⟨by rw [← same, List.take_length], by rw [same]⟩

theorem nyBindingNameLen_good {b : Binding V} (good : b.Good text play) (fit : Fit play) :
    (nyBindingNameLen text b).toNat = (text b.name).length := by
  have short := fit.short _ good.playing
  unfold nyBindingNameLen
  split
  · simp_all
  · have kept : (BitVec.ofNat 32 (text b.name).length).toNat = (text b.name).length := by
      rw [BitVec.toNat_ofNat, Nat.mod_eq_of_lt short]
    split
    · rw [good.len, kept]
    · exact kept

theorem nyBindingNameHash_good {b : Binding V} (good : b.Good text play) (fit : Fit play) :
    nyBindingNameHash text b = fullHash (text b.name) := by
  unfold nyBindingNameHash
  split
  · rw [nyBindingNameLen_good good fit]
    rfl
  · exact good.hash

theorem fullHash_eq_iff (fit : Fit play) {a b : Text} (left : a ∈ play) (right : b ∈ play) :
    fullHash a = fullHash b ↔ a = b :=
  ⟨fun same => fit.distinct left right same, fun same => by rw [same]⟩

theorem isNamed_eq {b : Binding V} (good : b.Good text play) (fit : Fit play) (name : Nat) :
    b.isNamed text name (text name).length (fullHash (text name)) =
      decide (text b.name = text name) := by
  rw [Bool.eq_iff_iff, decide_eq_true_eq]
  simp only [Binding.isNamed, Bool.and_eq_true, decide_eq_true_eq, sameName_iff,
    nyBindingNameHash_good good fit, nyBindingNameLen_good good fit]
  exact ⟨fun ⟨_, same⟩ => same, fun same => ⟨⟨by rw [same], by rw [same]⟩, same⟩⟩

end Naming

section Frames

theorem latest_eq_map (sc : Scope V) (name : Text) : latest text sc name =
    scanDown (fun a => decide (text a = name)) (sc.vars.map Binding.name) sc.vars.length := by
  rw [scanDown_map]
  rfl

theorem latest_congr {sc sc' : Scope V}
    (same : sc'.vars.map Binding.name = sc.vars.map Binding.name) (name : Text) :
    latest text sc' name = latest text sc name := by
  have lengths : sc'.vars.length = sc.vars.length := by
    simpa using congrArg List.length same
  rw [latest_eq_map, latest_eq_map, same, lengths]

theorem map_use {β : Type*} (f : Binding V → β) (sc : Scope V) (markUsed : Bool) (i : Nat)
    (unmarked : ∀ b, f { b with isUsed := true } = f b) :
    (sc.use markUsed i).vars.map f = sc.vars.map f := by
  unfold Scope.use
  cases markUsed with
  | false => rfl
  | true =>
    apply List.ext_getElem?
    intro j
    simp only [if_true, List.getElem?_map, List.getElem?_modify]
    cases sc.vars[j]? with
    | none => rfl
    | some b =>
      by_cases same : i = j
      · simp [same, unmarked]
      · simp [same]

@[simp] theorem setCache_vars (sc : Scope V) (markUsed : Bool) (c : LookupCache) :
    (sc.setCache markUsed c).vars = sc.vars := by
  cases markUsed <;> rfl

@[simp] theorem setCache_nameBloom (sc : Scope V) (markUsed : Bool) (c : LookupCache) :
    (sc.setCache markUsed c).nameBloom = sc.nameBloom := by
  cases markUsed <;> rfl

@[simp] theorem use_nameBloom (sc : Scope V) (markUsed : Bool) (i : Nat) :
    (sc.use markUsed i).nameBloom = sc.nameBloom := by
  cases markUsed <;> rfl

@[simp] theorem use_cacheRef (sc : Scope V) (markUsed kind : Bool) (i : Nat) :
    (sc.use markUsed i).cacheRef kind = sc.cacheRef kind := by
  cases markUsed <;> rfl

theorem setCache_cacheRef (sc : Scope V) (markUsed kind : Bool) (c : LookupCache) :
    (sc.setCache markUsed c).cacheRef kind = if kind = markUsed then c else sc.cacheRef kind := by
  cases markUsed <;> cases kind <;> rfl

theorem LookupCache.Good.congr {sc sc' : Scope V} {c : LookupCache} (good : c.Good text sc)
    (same : sc'.vars.map Binding.name = sc.vars.map Binding.name) : c.Good text sc' := by
  refine ⟨fun i kept => ?_, fun kept b member => ?_⟩
  · obtain ⟨b, found, last⟩ := good.hit i kept
    have names := congrArg (fun names : List Nat => names[i]?) same
    simp only [List.getElem?_map, found, Option.map_some] at names
    obtain ⟨b', found', name⟩ := Option.map_eq_some_iff.mp names
    exact ⟨b', found', by rw [name, latest_congr same, last]⟩
  · have among : b.name ∈ sc.vars.map Binding.name := same ▸ List.mem_map_of_mem member
    obtain ⟨b', member', name⟩ := List.mem_map.mp among
    exact name ▸ good.miss kept b' member'

/-- What identifies the name of a binding. -/
def Binding.key (b : Binding V) : Nat × Word × BitVec 32 := (b.name, b.nameHash, b.nameLen)

theorem Scope.Good.congr {sc sc' : Scope V} (good : sc.Good text play)
    (keys : sc'.vars.map Binding.key = sc.vars.map Binding.key)
    (bloom : sc'.nameBloom = sc.nameBloom)
    (cache : ∀ markUsed, (sc'.cacheRef markUsed).Good text sc') : sc'.Good text play := by
  have known : ∀ b ∈ sc'.vars, ∃ b' ∈ sc.vars, b'.key = b.key := fun b member =>
    List.mem_map.mp (keys ▸ List.mem_map_of_mem member)
  have lengths : sc'.vars.length = sc.vars.length := by
    simpa using congrArg List.length keys
  refine ⟨fun b member => ?_, fun b member => ?_, cache⟩
  · obtain ⟨b', member', key⟩ := known b member
    simp only [Binding.key, Prod.mk.injEq] at key
    have before := good.bindings b' member'
    exact ⟨key.1 ▸ before.playing, by rw [← key.2.1, ← key.1, before.hash],
      by rw [← key.2.2, ← key.1, before.len]⟩
  · obtain ⟨b', member', key⟩ := known b member
    simp only [Binding.key, Prod.mk.injEq] at key
    have before := good.bloom b' member'
    simpa only [nyScopeBloomMaybeHas, lengths, bloom, key.1] using before

end Frames

section Lookups

/-- A lookup in one scope finds the most recent binding, and leaves the scope right. -/
theorem scopeLookupAt_good (fit : Fit play) {sc : Scope V} (good : sc.Good text play) {name : Nat}
    (playing : text name ∈ play) (markUsed : Bool) :
    let out := scopeLookupAt text sc name (text name).length (fullHash (text name)) markUsed
    out.1 = latest text sc (text name) ∧ out.2.Good text play ∧
      out.2.vars.map Binding.name = sc.vars.map Binding.name := by
  -- The scan finds the most recent binding, as names and their hashes go together.
  have scan : scanDown (fun b => b.isNamed text name (text name).length (fullHash (text name)))
      sc.vars sc.vars.length = latest text sc (text name) :=
    scanDown_congr (fun b member => isNamed_eq (good.bindings b member) fit name) _
  -- Without a binding of that hash there is none of that name, and a miss can be kept.
  have missed (none : ∀ b ∈ sc.vars, fullHash (text b.name) ≠ fullHash (text name)) :
      latest text sc (text name) = Option.none := by
    rw [latest, scanDown_eq_none]
    intro j below
    rw [List.getElem?_eq_getElem below]
    simpa using fun same => none _ (List.getElem_mem below) (by rw [same])
  have noted (none : ∀ b ∈ sc.vars, fullHash (text b.name) ≠ fullHash (text name)) :
      (sc.setCache markUsed ((sc.cacheRef markUsed).noteMiss sc name (text name).length
        (fullHash (text name)))).Good text play := by
    refine good.congr (by simp) (by simp) fun kind => ?_
    rw [setCache_cacheRef]
    split
    · refine LookupCache.Good.congr ⟨fun i kept => ?_, fun _ => none⟩ (by simp)
      exact (good.cache markUsed).hit i kept
    · exact (good.cache kind).congr (by simp)
  unfold scopeLookupAt
  dsimp only
  split
  · -- The cache says that the name is missing.
    rename_i misses
    simp only [LookupCache.misses, Bool.and_eq_true, decide_eq_true_eq] at misses
    have none := (good.cache markUsed).miss (by simpa using misses.1.1.1.1.1)
    rw [misses.1.2] at none
    exact ⟨(missed none).symm, good, rfl⟩
  · split
    · -- The filter says that the name is missing.
      rename_i filtered
      have none : ∀ b ∈ sc.vars, fullHash (text b.name) ≠ fullHash (text name) := by
        intro b member same
        have passed := good.bloom b member
        rw [same] at passed
        simp [passed] at filtered
      exact ⟨(missed none).symm, noted none, by simp⟩
    · split
      · -- The cache says where the name is.
        rename_i hit hits
        obtain ⟨kept, conditions⟩ := Option.filter_eq_some_iff.mp hits
        obtain ⟨b, found, last⟩ := (good.cache markUsed).hit hit kept
        simp only [Bool.and_eq_true, found, Option.any_some, decide_eq_true_eq] at conditions
        have named := good.bindings b (List.mem_of_getElem? found)
        have same : text b.name = text name := by
          rw [← fullHash_eq_iff fit named.playing playing, ← nyBindingNameHash_good named fit]
          exact conditions.1.2
        refine ⟨by rw [← same, last], good.congr ?_ (by simp) fun kind => ?_, ?_⟩
        · exact map_use _ sc markUsed hit fun _ => rfl
        · rw [use_cacheRef]
          exact (good.cache kind).congr (map_use _ sc markUsed hit fun _ => rfl)
        · exact map_use _ sc markUsed hit fun _ => rfl
      · rw [scan]
        split
        · -- The scan finds the name.
          rename_i i last
          refine ⟨last.symm, good.congr ?_ (by simp) fun kind => ?_, ?_⟩
          · rw [setCache_vars]
            exact map_use _ sc markUsed i fun _ => rfl
          · rw [setCache_cacheRef]
            have names : ((sc.use markUsed i).setCache markUsed ((sc.cacheRef markUsed).noteHit sc
                name (text name).length i)).vars.map Binding.name = sc.vars.map Binding.name := by
              rw [setCache_vars]
              exact map_use _ sc markUsed i fun _ => rfl
            split
            · refine LookupCache.Good.congr ⟨fun j kept => ?_, ?_⟩ names
              · obtain rfl : i = j := Option.some.inj kept
                obtain ⟨-, here, -⟩ := scanDown_eq_some.mp last
                obtain ⟨b, found, same⟩ := (Option.any_eq_true _ _).mp here
                exact ⟨b, found, by rw [of_decide_eq_true same, last]⟩
              · exact (good.cache markUsed).miss
            · rw [use_cacheRef]
              exact (good.cache kind).congr names
          · rw [setCache_vars]
            exact map_use _ sc markUsed i fun _ => rfl
        · -- The scan finds nothing.
          rename_i missing
          have none : ∀ b ∈ sc.vars, fullHash (text b.name) ≠ fullHash (text name) := by
            intro b member same
            have named := (fullHash_eq_iff fit (good.bindings b member).playing playing).mp same
            obtain ⟨j, below, found⟩ := List.getElem_of_mem member
            have apart := scanDown_eq_none.mp missing j below
            rw [List.getElem?_eq_getElem below, found] at apart
            simp [named] at apart
          exact ⟨missing.symm, noted none, by simp⟩

theorem plainSearch_congr {scopes scopes' : Nat → Scope V} (name : Text) (n : Nat)
    (same : ∀ d < n, (scopes' d).vars.map Binding.name = (scopes d).vars.map Binding.name) :
    plainSearch text scopes' name n = plainSearch text scopes name n := by
  induction n with
  | zero => rfl
  | succ n ih =>
    rw [plainSearch, plainSearch, latest_congr (same n (by omega)),
      ih fun d below => same d (by omega)]

theorem scopeLookupFrom_good (fit : Fit play) {name : Nat} (playing : text name ∈ play)
    (markUsed : Bool) (n : Nat) (scopes : Nat → Scope V)
    (good : ∀ d < n, (scopes d).Good text play) :
    let out := scopeLookupFrom text name (text name).length (fullHash (text name)) markUsed n scopes
    out.1 = plainSearch text scopes (text name) n ∧ (∀ d < n, (out.2 d).Good text play) ∧
      (∀ d, (out.2 d).vars.map Binding.name = (scopes d).vars.map Binding.name) ∧
      ∀ d, n ≤ d → out.2 d = scopes d := by
  -- Induction on the number of scopes; what the innermost one becomes is not read further out.
  induction n generalizing scopes with
  | zero => exact ⟨rfl, fun d below => absurd below (by omega), fun _ => rfl, fun _ _ => rfl⟩
  | succ n ih =>
    obtain ⟨found, kept, names⟩ :=
      scopeLookupAt_good fit (good n (by omega)) playing markUsed
    generalize at_n : scopeLookupAt text (scopes n) name (text name).length
      (fullHash (text name)) markUsed = out at found kept names
    obtain ⟨hit, sc⟩ := out
    have same : ∀ d, (Function.update scopes n sc d).vars.map Binding.name =
        (scopes d).vars.map Binding.name := by
      intro d
      by_cases here : d = n
      · rw [here, Function.update_self]
        exact names
      · rw [Function.update_of_ne here]
    unfold scopeLookupFrom
    rw [at_n, plainSearch, ← found]
    cases hit with
    | some i =>
      refine ⟨rfl, fun d below => ?_, same, fun d beyond => ?_⟩
      · by_cases here : d = n
        · rw [here]
          simpa using kept
        · simpa [Function.update_of_ne here] using good d below
      · exact Function.update_of_ne (by omega) _ _
    | none =>
      obtain ⟨result, live, keeps, beyond⟩ := ih (Function.update scopes n sc) fun d below => by
        rw [Function.update_of_ne (by omega)]
        exact good d (by omega)
      refine ⟨?_, fun d below => ?_, fun d => (keeps d).trans (same d), fun d above => ?_⟩
      · exact result.trans (plainSearch_congr _ _ fun d _ => same d)
      · rcases Nat.lt_or_ge d n with less | last
        · exact live d less
        · obtain rfl : d = n := by omega
          dsimp only
          rw [beyond d (by omega), Function.update_self]
          exact kept
      · dsimp only
        rw [beyond d (by omega), Function.update_of_ne (by omega)]

theorem scopeLookupImpl_good (fit : Fit play) {name : Nat} (playing : text name ∈ play)
    (markUsed : Bool) {nameLen : Nat} {wantHash : Word}
    (passed : Passed (text name) nameLen wantHash) {depth : Nat} {scopes : Nat → Scope V}
    (good : ∀ d ≤ depth, (scopes d).Good text play) :
    let out := scopeLookupImpl text scopes depth name nameLen wantHash markUsed
    out.1 = (if text name = [] then none else plainSearch text scopes (text name) (depth + 1)) ∧
      (∀ d ≤ depth, (out.2 d).Good text play) ∧ ∀ d, depth < d → out.2 d = scopes d := by
  unfold scopeLookupImpl
  by_cases empty : text name = []
  · simpa [empty] using good
  · have len : (if nameLen = 0 then (text name).length else nameLen) = (text name).length := by
      rcases passed.1 with zero | full
      · rw [if_pos zero]
      · split
        · rfl
        · exact full
    have hash : (if wantHash = 0 then nyHashName (text name) (text name).length else wantHash) =
        fullHash (text name) := by
      rcases passed.2 with zero | full
      · rw [if_pos zero]
        rfl
      · split
        · rfl
        · exact full
    simp only [if_neg empty, len, hash]
    obtain ⟨found, live, -, beyond⟩ := scopeLookupFrom_good fit playing markUsed (depth + 1)
      scopes fun d below => good d (by omega)
    exact ⟨found, fun d below => live d (by omega), fun d above => beyond d above⟩

end Lookups

section Steps

theorem good_zero : (Scope.zero : Scope V).Good text play := by
  refine ⟨by simp [Scope.zero], by simp [Scope.zero], fun markUsed => ?_⟩
  have clear : (Scope.zero : Scope V).cacheRef markUsed = .clear := by cases markUsed <;> rfl
  rw [clear]
  exact ⟨fun i kept => by simp [LookupCache.clear] at kept, fun kept => absurd rfl kept⟩

@[simp] theorem push_vars (sc : Scope V) (b : Binding V) (fresh : Nat) :
    (sc.push b fresh).vars = sc.vars ++ [b] := by
  unfold Scope.push
  split <;> rfl

@[simp] theorem push_nameBloom (sc : Scope V) (b : Binding V) (fresh : Nat) :
    (sc.push b fresh).nameBloom = sc.nameBloom := by
  unfold Scope.push
  split <;> rfl

theorem bloomBit_lt (hash : Word) : bloomBit0 hash < 256 ∧ bloomBit1 hash < 256 := by
  have mask (w : Word) : (w &&& 255).toNat < 256 := by
    rw [BitVec.toNat_and]
    exact Nat.lt_of_le_of_lt Nat.and_le_right (by decide)
  exact ⟨mask hash, mask (hash >>> 8)⟩

theorem getLsbD_nyScopeBloomAdd (sc : Scope V) (hash : Word) (i : Nat) :
    (nyScopeBloomAdd sc hash).nameBloom.getLsbD i = (sc.nameBloom.getLsbD i ||
      decide (bloomBit0 hash = i) || decide (bloomBit1 hash = i)) := by
  have short := bloomBit_lt hash
  simp [nyScopeBloomAdd, short.1, short.2]

theorem good_push {sc : Scope V} (good : sc.Good text play) {b : Binding V}
    (added : b.Good text play) (fresh : Nat) :
    (scopeLookupCacheReset (nyScopeBloomAdd (sc.push b fresh) (fullHash (text b.name)))).Good
      text play := by
  have vars : (scopeLookupCacheReset (nyScopeBloomAdd (sc.push b fresh)
      (fullHash (text b.name)))).vars = sc.vars ++ [b] := push_vars sc b fresh
  have bits (i : Nat) := getLsbD_nyScopeBloomAdd (sc.push b fresh) (fullHash (text b.name)) i
  refine ⟨fun b' member => ?_, fun b' member => ?_, fun markUsed => ?_⟩
  · rw [vars, List.mem_append, List.mem_singleton] at member
    rcases member with before | rfl
    · exact good.bindings b' before
    · exact added
  · rw [vars, List.mem_append, List.mem_singleton] at member
    simp only [nyScopeBloomMaybeHas, vars]
    simp only [scopeLookupCacheReset, bits, push_nameBloom]
    rcases member with before | rfl
    · have passed := good.bloom b' before
      simp only [nyScopeBloomMaybeHas, Bool.and_eq_true] at passed
      simp [passed.1.2, passed.2]
    · simp
  · -- Both caches keep nothing.
    have clear : (scopeLookupCacheReset (nyScopeBloomAdd (sc.push b fresh)
        (fullHash (text b.name)))).cacheRef markUsed = .clear := by cases markUsed <;> rfl
    rw [clear]
    exact ⟨fun i kept => by simp [LookupCache.clear] at kept, fun kept => absurd rfl kept⟩

theorem Scope.Good.write {sc : Scope V} (good : sc.Good text play) {address : Nat}
    (unbound : ∀ b ∈ sc.vars, b.name ≠ address) (new : Text) :
    sc.Good (Function.update text address new) play := by
  have same : ∀ b ∈ sc.vars, Function.update text address new b.name = text b.name :=
    fun b member => Function.update_of_ne (unbound b member) _ _
  have agree (name : Text) : latest (Function.update text address new) sc name =
      latest text sc name :=
    scanDown_congr (fun b member => by rw [same b member]) _
  refine ⟨fun b member => ?_, fun b member => ?_, fun markUsed => ⟨fun i kept => ?_, ?_⟩⟩
  · have before := good.bindings b member
    exact ⟨same b member ▸ before.playing, by rw [same b member, before.hash],
      by rw [same b member, before.len]⟩
  · rw [same b member]
    exact good.bloom b member
  · obtain ⟨b, found, last⟩ := (good.cache markUsed).hit i kept
    exact ⟨b, found, by rw [agree, same b (List.mem_of_getElem? found), last]⟩
  · intro kept b member
    rw [same b member]
    exact (good.cache markUsed).miss kept b member

theorem scopeBind_good (fit : Fit play) {name : Nat} (playing : text name ∈ play)
    {depth live : Nat} (inside : depth ≤ live) {scopes : Nat → Scope V}
    (good : ∀ d ≤ live, (scopes d).Good text play) (v : V) (fresh : Nat) :
    ∀ d ≤ live, ((scopeBind text scopes depth name v fresh).2.2 d).Good text play := by
  -- Before the binding is pushed the outer scopes are searched for one that it shadows.
  have before : ∀ d ≤ live, ((if depth > 0 then
      scopeLookupImpl text scopes (depth - 1) name 0 0 false else (none, scopes)).2 d).Good
        text play := by
    intro d below
    split
    · obtain ⟨-, kept, beyond⟩ := scopeLookupImpl_good fit playing false
        ⟨.inl rfl, .inl rfl⟩ (fun d (below : d ≤ depth - 1) => good d (by omega))
      rcases Nat.lt_or_ge (depth - 1) d with above | within
      · rw [beyond d above]
        exact good d below
      · exact kept d within
    · exact good d below
  intro d below
  simp only [scopeBind]
  by_cases here : d = depth
  · rw [here, Function.update_self]
    exact good_push (before depth inside) (b := ⟨name, _, _, v, false⟩) ⟨playing, rfl, rfl⟩ fresh
  · rw [Function.update_of_ne here]
    exact before d below

theorem Step.good (fit : Fit play) {s s' : Stack V} (step : Step play s s')
    (good : s.Good play) : s'.Good play := by
  cases step with
  | enter =>
    intro d below
    by_cases here : d = s.depth + 1
    · simpa [scopeEnter, here] using good_zero
    · simpa [scopeEnter, Function.update_of_ne here] using good d (by
        have : d ≤ s.depth + 1 := below
        omega)
  | pop inner =>
    intro d below
    have outer : d ≤ s.depth - 1 := below
    have apart : d ≠ s.depth := by omega
    simpa [scopePop, Function.update_of_ne apart] using good d (by omega)
  | bind depth name v fresh live address playing =>
    exact scopeBind_good fit playing live good v fresh
  | lookup depth name nameLen wantHash markUsed live address playing passed =>
    obtain ⟨-, kept, beyond⟩ := scopeLookupImpl_good fit playing markUsed passed
      fun d below => good d (Nat.le_trans below live)
    intro d below
    rcases Nat.lt_or_ge depth d with above | within
    · dsimp only
      rw [beyond d above]
      exact good d below
    · exact kept d within
  | write address new unbound => exact fun d below => (good d below).write (unbound d below) new

theorem run_good (fit : Fit play) {s s' : Stack V} (start : s.Start)
    (run : Relation.ReflTransGen (Step play) s s') : s'.Good play := by
  induction run with
  | refl =>
    intro d below
    obtain rfl : d = 0 := by
      rw [start.1] at below
      omega
    rw [start.2]
    exact good_zero
  | tail _ step ih => exact step.good fit ih

end Steps

section Results

/-- In every state that is reached a lookup finds what a plain search finds of a name. -/
theorem scopeLookup_eq_plainSearch (fit : Fit play) {s s' : Stack V} (start : s.Start)
    (run : Relation.ReflTransGen (Step play) s s') {depth name nameLen : Nat} {wantHash : Word}
    (live : depth ≤ s'.depth) (playing : s'.text name ∈ play)
    (passed : Passed (s'.text name) nameLen wantHash) (markUsed : Bool) :
    (scopeLookupImpl s'.text s'.scopes depth name nameLen wantHash markUsed).1 =
      if s'.text name = [] then none
      else plainSearch s'.text s'.scopes (s'.text name) (depth + 1) :=
  (scopeLookupImpl_good fit playing markUsed passed fun d below =>
    run_good fit start run d (Nat.le_trans below live)).1

/-- The texts at two addresses. -/
def twoTexts (address : Nat) : Text := if address = 1 then [120] else [121]

/-- The stack at the beginning, with given texts. -/
def startStack (text : Nat → Text) : Stack Unit := ⟨text, fun _ => .zero, 0⟩

/-- The stack after a name has been bound in a scope. -/
def Stack.bound (s : Stack Unit) (depth name : Nat) : Stack Unit :=
  ⟨s.text, (scopeBind s.text s.scopes depth name () 64).2.2, s.depth⟩

/-- The stack after a scope has been entered. -/
def Stack.entered (s : Stack Unit) : Stack Unit :=
  ⟨s.text, (scopeEnter s.scopes s.depth).1, s.depth + 1⟩

/-- A name that is bound again in an inner scope is found there. -/
theorem scopeLookup_eq_plainSearch_shadowed :
    (scopeLookupImpl twoTexts ((((startStack twoTexts).bound 0 1).entered).bound 1 1).scopes
      1 1 0 0 true).1 = some (1, 0) := by
  have fit : Fit {[120], [121]} := by
    refine ⟨?_, ?_⟩
    · rintro a (rfl | rfl) b (rfl | rfl) same
      · rfl
      · exact absurd same (by decide +kernel)
      · exact absurd same (by decide +kernel)
      · rfl
    · rintro name (rfl | rfl) <;> decide
  have playing : ∀ address, twoTexts address ∈ ({[120], [121]} : Set Text) := by
    intro address
    unfold twoTexts
    split
    · exact .inl rfl
    · exact .inr rfl
  have run : Relation.ReflTransGen (Step {[120], [121]}) (startStack twoTexts)
      ((((startStack twoTexts).bound 0 1).entered).bound 1 1) :=
    ((Relation.ReflTransGen.single (.bind _ 0 1 () 64 (Nat.le_refl _) (by decide)
      (playing 1))).tail (.enter _)).tail
      (.bind _ 1 1 () 64 (Nat.le_refl _) (by decide) (playing 1))
  have found := @scopeLookup_eq_plainSearch _ _ fit _ _ ⟨rfl, rfl⟩ run 1 1 _ _
    (Nat.le_refl 1) (playing 1) ⟨.inl rfl, .inl rfl⟩ true
  refine found.trans ?_
  decide +kernel

theorem scopeLookupAt_long {sc : Scope V} (clear : sc.noMark = .clear) {name nameLen : Nat}
    (long : 2 ^ 32 ≤ nameLen) (wantHash : Word) :
    (scopeLookupAt text sc name nameLen wantHash false).1 = none := by
  have absent : scanDown (fun b => b.isNamed text name nameLen wantHash) sc.vars
      sc.vars.length = none := by
    rw [scanDown_eq_none]
    intro j below
    have kept := (nyBindingNameLen text sc.vars[j]).isLt
    have apart : (nyBindingNameLen text sc.vars[j]).toNat ≠ nameLen := by omega
    rw [List.getElem?_eq_getElem below]
    simp [Binding.isNamed, apart]
  have unkept : (sc.cacheRef false).hits text sc name nameLen wantHash = none := by
    simp [Scope.cacheRef, clear, LookupCache.clear, LookupCache.hits]
  unfold scopeLookupAt
  dsimp only
  split
  · rfl
  · split
    · rfl
    · rw [unkept, absent]

theorem plainSearch_bound (name : Text) : plainSearch (fun _ => name)
    ((startStack fun _ => name).bound 0 1).scopes name 1 = some (0, 0) := by
  have vars : (((startStack fun _ => name).bound 0 1).scopes 0).vars.map Binding.name = [1] := by
    simp [Stack.bound, scopeBind, startStack, scopeLookupCacheReset, nyScopeBloomAdd, Scope.zero]
  have one : (((startStack fun _ => name).bound 0 1).scopes 0).vars.length = 1 := by
    simpa using congrArg List.length vars
  have last : latest (fun _ => name) (((startStack fun _ => name).bound 0 1).scopes 0) name =
      some 0 := by
    rw [latest_eq_map, vars, one]
    simp [scanDown]
  rw [plainSearch, last]

theorem scopeLookupImpl_long {scopes : Nat → Scope V} (clear : (scopes 0).noMark = .clear)
    {name : Nat} (long : 2 ^ 32 ≤ (text name).length) :
    (scopeLookupImpl text scopes 0 name 0 0 false).1 = none := by
  have nonempty : text name ≠ [] :=
    List.ne_nil_of_length_pos (Nat.lt_of_lt_of_le (by decide) long)
  have absent := @scopeLookupAt_long _ text _ clear name _ long
    (nyHashName (text name) (text name).length)
  rw [scopeLookupImpl, if_neg nonempty]
  simp only [if_true, scopeLookupFrom]
  generalize scopeLookupAt text (scopes 0) name (text name).length
    (nyHashName (text name) (text name).length) false = out at absent ⊢
  obtain ⟨found, sc⟩ := out
  dsimp only at absent
  rw [absent]

theorem noMark_bound (name : Text) :
    (((startStack fun _ => name).bound 0 1).scopes 0).noMark = .clear := by
  simp [Stack.bound, scopeBind, startStack, scopeLookupCacheReset]

/-- The text of a name that is too long. -/
def longText : Text := List.replicate (2 ^ 32) 97

/-- The empty name and a name of more than 32 bits are bound and not found. -/
theorem scopeLookup_fails :
    ((scopeLookupImpl (fun _ => []) ((startStack fun _ => []).bound 0 1).scopes 0 1 0 0 false).1 =
        none ∧
      plainSearch (fun _ => []) ((startStack fun _ => []).bound 0 1).scopes [] 1 = some (0, 0)) ∧
    (scopeLookupImpl (fun _ => longText) ((startStack fun _ => longText).bound 0 1).scopes
        0 1 0 0 false).1 = none ∧
      plainSearch (fun _ => longText) ((startStack fun _ => longText).bound 0 1).scopes
        longText 1 = some (0, 0) := by
  have long : 2 ^ 32 ≤ longText.length := by rw [longText, List.length_replicate]
  exact ⟨⟨by simp [scopeLookupImpl], plainSearch_bound []⟩,
    scopeLookupImpl_long (noMark_bound longText) long, plainSearch_bound longText⟩

end Results

end Nytrix.Scopes
