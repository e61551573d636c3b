import Mathlib.Logic.Basic
import Mathlib.Logic.Function.Basic

/-! Intervals of live values, and linear scans that give one register to intervals that are apart. -/

namespace Nytrix.Lib

section Scan

variable {K α : Type} [DecidableEq K] (key : α → K) (last : K → Int) (pool : Nat → α → List Nat)

/-- The registers given so far, and where the last interval of each register ends. -/
structure ScanState (K : Type) where
  reg : K → Option Nat := fun _ => none
  ends : Nat → Int := fun _ => -1

/-- Gives an item the first register of its pool whose last interval has ended. -/
def scanStep (s : ScanState K) (i : Nat) (a : α) : ScanState K :=
  match (pool i a).find? fun r => decide (s.ends r ≤ i) with
  | none => s
  | some r =>
    { reg := Function.update s.reg (key a) (some r)
      ends := Function.update s.ends r (last (key a)) }

/-- The scan from a position on. -/
def scanFrom : List α → Nat → ScanState K → ScanState K
  | [], _, s => s
  | a :: rest, i, s => scanFrom rest (i + 1) (scanStep key last pool s i a)

/-- The scan of all items. -/
def scan (items : List α) : ScanState K := scanFrom key last pool items 0 {}

variable {key last pool} {items : List α}

/-- What a scan keeps at a position. -/
structure ScanOk (key : α → K) (last : K → Int) (pool : Nat → α → List Nat) (items : List α)
    (n : Nat) (s : ScanState K) : Prop where
  given : ∀ {k : K} {r : Nat}, s.reg k = some r → ∃ i < n, ∃ a, items[i]? = some a ∧ key a = k ∧
    r ∈ pool i a ∧ last k ≤ s.ends r
  apart : ∀ {i j : Nat} {a b : α} {r : Nat}, items[i]? = some a → items[j]? = some b → i < j →
    j < n → s.reg (key a) = some r → s.reg (key b) = some r → last (key a) ≤ j

/-- One step of a scan keeps it, when candidates have keys of their own that do not end early. -/
theorem ScanOk.step {n : Nat} {s : ScanState K} {a : α} (ok : ScanOk key last pool items n s)
    (found : items[n]? = some a)
    (unique : ∀ {i j : Nat} {b c : α}, items[i]? = some b → items[j]? = some c →
      pool i b ≠ [] → key b = key c → i = j)
    (forward : ∀ {i : Nat} {b : α}, items[i]? = some b → pool i b ≠ [] → (i : Int) ≤ last (key b)) :
    ScanOk key last pool items (n + 1) (scanStep key last pool s n a) := by
  unfold scanStep
  split
  · next none =>
    constructor
    · intro k r assigned
      obtain ⟨i, less, rest⟩ := ok.given assigned
      exact ⟨i, by omega, rest⟩
    · intro i j b c r first second before within left right
      rcases Nat.lt_succ_iff_lt_or_eq.mp within with inside | rfl
      · exact ok.apart first second before inside left right
      · -- The item here got no register, and no earlier item has its key.
        obtain ⟨j, less, d, there, same, member, -⟩ := ok.given right
        have := unique there second (List.ne_nil_of_mem member) same
        omega
  · next r chosen =>
    have inPool : r ∈ pool n a := List.mem_of_find?_eq_some chosen
    have ended : s.ends r ≤ n := by simpa using List.find?_some chosen
    have candidate : pool n a ≠ [] := List.ne_nil_of_mem inPool
    have reaches := forward found candidate
    constructor
    · intro k q assigned
      dsimp only at assigned ⊢
      rw [Function.update_apply] at assigned
      split at assigned
      · next same =>
        cases assigned
        refine ⟨n, by omega, a, found, same.symm, inPool, ?_⟩
        exact Int.le_of_eq (by rw [Function.update_self, same])
      · obtain ⟨i, less, b, there, same, member, within⟩ := ok.given assigned
        refine ⟨i, by omega, b, there, same, member, ?_⟩
        rw [Function.update_apply]
        split
        · next same' =>
          rw [same'] at within
          omega
        · exact within
    · intro i j b c q first second before within left right
      dsimp only at left right
      rw [Function.update_apply] at left right
      rcases Nat.lt_succ_iff_lt_or_eq.mp within with inside | rfl
      · -- Neither of two earlier items has the key of the item here.
        rw [if_neg ?_] at left
        · rw [if_neg ?_] at right
          · exact ok.apart first second before inside left right
          · intro same
            have := unique found second candidate same.symm
            omega
        · intro same
          have := unique found first candidate same.symm
          omega
      · rw [Option.some.inj (second.symm.trans found), if_pos rfl] at right
        rw [if_neg ?_] at left
        · obtain ⟨k, -, d, -, -, -, within'⟩ := ok.given left
          rw [← Option.some.inj right] at within'
          omega
        · intro same
          have := unique found first candidate same.symm
          omega

theorem ScanOk.scanFrom {rest : List α} {n : Nat} {s : ScanState K}
    (ok : ScanOk key last pool items n s) (suffix : ∀ k, rest[k]? = items[n + k]?)
    (unique : ∀ {i j : Nat} {b c : α}, items[i]? = some b → items[j]? = some c →
      pool i b ≠ [] → key b = key c → i = j)
    (forward : ∀ {i : Nat} {b : α}, items[i]? = some b → pool i b ≠ [] → (i : Int) ≤ last (key b)) :
    ScanOk key last pool items (n + rest.length) (scanFrom key last pool rest n s) := by
  induction rest generalizing n s with
  | nil => exact ok
  | cons a rest ih =>
    have found : items[n]? = some a := (suffix 0).symm
    have after := ih (ok.step found unique forward) (fun k => by
      have next := suffix (k + 1)
      rwa [List.getElem?_cons_succ, show n + (k + 1) = n + 1 + k by omega] at next)
    rwa [List.length_cons, show n + (rest.length + 1) = n + 1 + rest.length by omega]

theorem scan_ok
    (unique : ∀ {i j : Nat} {b c : α}, items[i]? = some b → items[j]? = some c →
      pool i b ≠ [] → key b = key c → i = j)
    (forward : ∀ {i : Nat} {b : α}, items[i]? = some b → pool i b ≠ [] → (i : Int) ≤ last (key b)) :
    ScanOk key last pool items items.length (scan key last pool items) := by
  have start : ScanOk key last pool items 0 ({} : ScanState K) := by
    constructor
    · intro k r assigned
      cases assigned
    · intro i j a b r _ _ _ within
      omega
  have whole : ScanOk key last pool items (0 + items.length) (scanFrom key last pool items 0 {}) :=
    start.scanFrom (fun k => by rw [Nat.zero_add]) unique forward
  rwa [Nat.zero_add] at whole

end Scan

section Liveness

/-- Some path from a node comes to a use, and before that passes no definition. -/
inductive Live {N : Type} (flows : N → N → Prop) (uses defines : N → Prop) : N → Prop
  | use {n : N} (here : uses n) : Live flows uses defines n
  | step {m n : N} (edge : flows m n) (passes : ¬ defines m) (later : Live flows uses defines n) :
    Live flows uses defines m

variable (flows : Nat → Nat → Prop) (uses : Nat → Prop) {defines : Nat → Prop} {start last : Int}

theorem live_within_iff (only : ∀ n, defines n ↔ (n : Int) = start) (ordered : start ≤ last) :
    (∀ n, Live flows uses defines n → start < n ∧ (n : Int) ≤ last) ↔
      (∀ n, uses n → start < n ∧ (n : Int) ≤ last) ∧
      ∀ m n, flows m n → Live flows uses defines n → start ≤ m ∧ (m : Int) ≤ last := by
  constructor
  · intro within
    refine ⟨fun n here => within n (.use here), ?_⟩
    intro m n edge later
    by_cases defined : defines m
    · have := (only m).mp defined
      omega
    · have := within m (.step edge defined later)
      omega
  · rintro ⟨inside, entered⟩ n live
    induction live with
    | use here => exact inside _ here
    | step edge passes later _ =>
      have from_ := entered _ _ edge later
      have := mt (only _).mpr passes
      omega

end Liveness

end Nytrix.Lib
