import Mathlib.Tactic.Common

/-! Passes over a list of places that grows while its places are scanned. -/

namespace Nytrix.Lib.Worklist

variable {S : Type}

section Passes

variable (size : S → ℕ) (scan : ℕ → S → S)

/-- Scans so many places in order. -/
def pass : ℕ → S → S
  | 0, s => s
  | n + 1, s => scan n (pass n s)

/-- Passes over the places there are, until none is new, so many at most. -/
def rounds : ℕ → S → Option S
  | 0, _ => none
  | fuel + 1, s =>
    let t := pass scan (size s) s
    if size s < size t then rounds fuel t else some t

/-- Scans places in order from one on, up to the last one there is by then. -/
def sweep : ℕ → ℕ → S → Option S
  | 0, _, _ => none
  | fuel + 1, i, s => if i < size s then sweep fuel (i + 1) (scan i s) else some s

end Passes

variable {size : S → ℕ} {scan : ℕ → S → S} {Inv : S → Prop}

section Keeping

variable (step : ∀ i s, Inv s → Inv (scan i s))
include step

theorem pass_keeps (n : ℕ) {s : S} (holds : Inv s) : Inv (pass scan n s) := by
  induction n with
  | zero => exact holds
  | succ n ih => exact step n _ ih

theorem rounds_keeps {fuel : ℕ} {s t : S} (holds : Inv s)
    (ended : rounds size scan fuel s = some t) : Inv t := by
  induction fuel generalizing s with
  | zero => exact absurd ended nofun
  | succ fuel ih =>
    have passed := pass_keeps step (size s) holds
    rw [rounds] at ended
    split at ended
    · exact ih passed ended
    · exact Option.some.inj ended ▸ passed

theorem rounds_end {bound : ℕ} (bounded : ∀ s, Inv s → size s ≤ bound) {fuel : ℕ} {s : S}
    (holds : Inv s) (enough : bound < fuel + size s) : ∃ t, rounds size scan fuel s = some t := by
  induction fuel generalizing s with
  | zero => exact absurd (bounded s holds) (by omega)
  | succ fuel ih =>
    rw [rounds]
    -- Another round comes only after new places.
    split
    · next grown => exact ih (pass_keeps step (size s) holds) (by omega)
    · exact ⟨_, rfl⟩

theorem sweep_end {bound : ℕ} (bounded : ∀ s, Inv s → size s ≤ bound) {fuel i : ℕ} {s : S}
    (holds : Inv s) (started : 0 < fuel) (enough : bound < fuel + i) :
    ∃ t, sweep size scan fuel i s = some t := by
  induction fuel generalizing i s with
  | zero => exact absurd started (Nat.lt_irrefl 0)
  | succ fuel ih =>
    have within := bounded s holds
    rw [sweep]
    split
    · exact ih (step i s holds) (by omega) (by omega)
    · exact ⟨s, rfl⟩

end Keeping

theorem sweep_eq_pass {fuel i : ℕ} {s t : S}
    (ended : sweep size scan fuel i (pass scan i s) = some t) :
    ∃ n, t = pass scan n s ∧ size t ≤ n ∧ ∀ j, i ≤ j → j < n → j < size (pass scan j s) := by
  induction fuel generalizing i with
  | zero => exact absurd ended nofun
  | succ fuel ih =>
    rw [sweep] at ended
    split at ended
    · next more =>
      obtain ⟨n, same, complete, inside⟩ := ih ended
      refine ⟨n, same, complete, fun j after upto => ?_⟩
      rcases Nat.eq_or_lt_of_le after with rfl | later
      · exact more
      · exact inside j later upto
    · next finished =>
      obtain rfl := Option.some.inj ended
      exact ⟨i, rfl, by omega, fun j after upto => by omega⟩

theorem pass_done {done : ℕ → S → Prop} {n : ℕ} {s : S}
    (settles : ∀ i < n, (∀ j < i, done j (pass scan i s)) →
      ∀ j ≤ i, done j (scan i (pass scan i s))) :
    ∀ j < n, done j (pass scan n s) := by
  induction n with
  | zero => exact fun j upto => absurd upto (Nat.not_lt_zero j)
  | succ n ih =>
    have before := ih fun i upto => settles i (Nat.lt_succ_of_lt upto)
    exact fun j upto => settles n (Nat.lt_succ_self n) before j (Nat.le_of_lt_succ upto)

end Nytrix.Lib.Worklist
