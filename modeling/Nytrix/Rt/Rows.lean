import Mathlib.Data.List.DropRight
import Mathlib.Logic.Function.Basic
import Nytrix.Rt.BigintLaws

/-! Rows of integers, and taking a multiple of one row from another in place. -/

namespace Nytrix.Rt

open Nytrix.Lib

section Columns

/-- A small integer for the result of an operation of 128-bit integers, if it is one. -/
def tryI128SmallTag (v : Int) : Option Num :=
  if smallIntMin ≤ v ∧ v ≤ smallIntMax then some (tagV (BitVec.ofInt 64 v)) else none

/-- The difference `a - q * b` of small integers, if it is a small integer. -/
def trySubmulI64IntPairSmall (a : Num) (q : BitVec 64) (b : Num) : Option Num :=
  match smallRaw a, smallRaw b with
  | some av, some bv => tryI128SmallTag (i128 (av.toInt - q.toInt * bv.toInt))
  | _, _ => none

/-- The sum or difference of small integers, if it is a small integer. -/
def tryAddIntPairSmall (a b : Num) (subB : Bool) : Option Num :=
  match smallRaw a, smallRaw b with
  | some av, some bv =>
    tryI128SmallTag (i128 (if subB then av.toInt - bv.toInt else av.toInt + bv.toInt))
  | _, _ => none

/-- What becomes of an item of a row, for a multiplier and the item of the other row. -/
def submulItem (q a b : Num) : Num :=
  match smallRaw q with
  | none => bigintSubmul a q b
  | some qRaw =>
    if qRaw = 1 ∨ qRaw = -1 then
      let subB : Bool := qRaw = 1
      ((tryAddIntPairSmall a b subB).or (tryAddLimb2Kind a b subB true)).getD (bigintSubmul a q b)
    else
      ((trySubmulI64IntPairSmall a qRaw b).or (trySubmulI64Limb2 a qRaw b)).getD
        (bigintSubmul a q b)

/-- The items of the rows, which are lists at addresses. -/
abbrev Rows := Nat → List Num

/-- Writes an item of a row. -/
def Rows.setItem (rows : Rows) (row c : Nat) (v : Num) : Rows :=
  Function.update rows row ((rows row).set c v)

/-- The turn of the loop for a column; nothing is said when it is outside of a row. -/
def submulColumn (q : Num) (rowK rowJ c : Nat) (rows : Rows) : Option Rows := do
  let b ← (rows rowJ)[c]?
  if isZeroFast b then return rows
  else
    let a ← (rows rowK)[c]?
    return rows.setItem rowK c (submulItem q a b)

/-- The turns of the loop from a column on. -/
def submulColumns (q : Num) (rowK rowJ : Nat) : Nat → Nat → Rows → Option Rows
  | 0, _, rows => some rows
  | turns + 1, c, rows =>
    (submulColumn q rowK rowJ c rows).bind (submulColumns q rowK rowJ turns (c + 1))

/-- The number of columns up to a limit, which may be a tagged word. -/
def columnsUpTo (limitV : BitVec 64) : Nat :=
  let limit := if isInt (.word limitV) then untagWord limitV else limitV
  (limit.toInt + 1).toNat

/-- Takes a multiple of a row from another, up to a limit. -/
def bigintRowSubmul (rows : Rows) (rowK rowJ : Nat) (q : Num) (limitV : BitVec 64) : Option Rows :=
  if q = tagV 0 then some rows else submulColumns q rowK rowJ (columnsUpTo limitV) 0 rows

/-- Takes a multiple of a row from another, up to the last item that is not zero. -/
def bigintRowSubmulAuto (rows : Rows) (rowK rowJ : Nat) (q : Num) : Option Rows :=
  if q = tagV 0 then some rows
  else submulColumns q rowK rowJ ((rows rowJ).rdropWhile isZeroFast).length 0 rows

end Columns

section Items

variable {a b q r : Num} {m n k v : Int}

theorem isZeroFast_of_zero (denoted : Denotes a 0) : isZeroFast a = true := by
  generalize value : (0 : Int) = zero at denoted
  cases denoted with
  | @small bits tagged =>
    rw [isZeroFast, tagged, Bool.true_and, decide_eq_true_eq]
    exact BitVec.eq_of_toInt_eq (value.symm.trans rfl)
  | @big sign limbs canonical =>
    obtain ⟨normal, ⟨-, none⟩ | ⟨some, unit⟩⟩ := canonical
    · rw [isZeroFast, none]
      rfl
    · have positive : limbsValue limbs ≠ 0 := mt (normal_eq_nil_iff normal).mpr some
      rcases unit with rfl | rfl <;> omega

theorem smallRaw_denotes (denoted : Denotes a m) {raw : BitVec 64} (small : smallRaw a = some raw) :
    m = raw.toInt ∧ smallIntMin ≤ m ∧ m ≤ smallIntMax := by
  cases denoted with
  | @small bits tagged =>
    rw [smallRaw, if_pos tagged] at small
    cases small
    exact ⟨rfl, untagWord_bounds bits⟩
  | big canonical => cases small

theorem tryI128SmallTag_denotes (low : -2 ^ 127 ≤ v) (high : v < 2 ^ 127)
    (done : tryI128SmallTag (i128 v) = some r) : Denotes r v := by
  rw [i128, Int.bmod_eq_of_le (by omega) (by omega)] at done
  unfold tryI128SmallTag at done
  split at done
  · next small =>
    cases done
    have bounds := small
    rw [smallIntMin, smallIntMax] at bounds
    refine tagV_denotes ?_ small.1 small.2
    rw [BitVec.toInt_ofInt, Int.bmod_eq_of_le (by omega) (by omega)]
  · cases done

theorem tryAddIntPairSmall_denotes {subB : Bool} (left : Denotes a m) (right : Denotes b n)
    (done : tryAddIntPairSmall a b subB = some r) : Denotes r (if subB then m - n else m + n) := by
  unfold tryAddIntPairSmall at done
  split at done
  · next av bv smallA smallB =>
    obtain ⟨rfl, lowA, highA⟩ := smallRaw_denotes left smallA
    obtain ⟨rfl, lowB, highB⟩ := smallRaw_denotes right smallB
    rw [smallIntMin, smallIntMax] at *
    exact tryI128SmallTag_denotes (by split <;> omega) (by split <;> omega) done
  · cases done

theorem trySubmulI64IntPairSmall_denotes {raw : BitVec 64} (left : Denotes a m)
    (right : Denotes b k) (low : smallIntMin ≤ raw.toInt) (high : raw.toInt ≤ smallIntMax)
    (done : trySubmulI64IntPairSmall a raw b = some r) : Denotes r (m - raw.toInt * k) := by
  unfold trySubmulI64IntPairSmall at done
  split at done
  · next av bv smallA smallB =>
    obtain ⟨rfl, lowA, highA⟩ := smallRaw_denotes left smallA
    obtain ⟨rfl, lowB, highB⟩ := smallRaw_denotes right smallB
    rw [smallIntMin, smallIntMax] at *
    have product : |raw.toInt * bv.toInt| ≤ 2 ^ 62 * 2 ^ 62 := by
      rw [abs_mul]
      exact mul_le_mul (abs_le.mpr ⟨by omega, by omega⟩) (abs_le.mpr ⟨by omega, by omega⟩)
        (abs_nonneg _) (by omega)
    obtain ⟨least, most⟩ := abs_le.mp product
    exact tryI128SmallTag_denotes (by omega) (by omega) done
  · cases done

theorem getD_denotes {fast : Option Num} (quick : ∀ r, fast = some r → Denotes r v)
    (slow : Denotes r v) : Denotes (fast.getD r) v := by
  cases fast with
  | none => exact slow
  | some r => exact quick r rfl

theorem submulItem_denotes (first : Denotes a m) (second : Denotes q n) (third : Denotes b k) :
    Denotes (submulItem q a b) (m - n * k) := by
  have slow := (bigintSubmul_denotes first second third).1
  unfold submulItem
  cases small : smallRaw q with
  | none => exact slow
  | some raw =>
    obtain ⟨rfl, low, high⟩ := smallRaw_denotes second small
    dsimp only
    split
    · next unit =>
      refine getD_denotes (fun r found => ?_) slow
      have right : Denotes r (if decide (raw = 1) then m - k else m + k) := by
        rcases Option.or_eq_some_iff.mp found with found | ⟨-, found⟩
        · exact tryAddIntPairSmall_denotes first third found
        · exact tryAddLimb2Kind_denotes first third found
      rcases unit with rfl | rfl
      · rwa [show (1 : BitVec 64).toInt = 1 from rfl, Int.one_mul]
      · rwa [show (-1 : BitVec 64).toInt = -1 from rfl, Int.neg_one_mul, Int.sub_neg]
    · refine getD_denotes (fun r found => ?_) slow
      rcases Option.or_eq_some_iff.mp found with found | ⟨-, found⟩
      · exact trySubmulI64IntPairSmall_denotes first third low high found
      · exact trySubmulI64Limb2_denotes first third low high found

end Items

section Loop

variable {q : Num} {n : Int} {rows before : Rows} {rowK rowJ : Nat} {ms ks : List Int}

/-- The items of a row stand for these integers. -/
def RowDenotes (row : List Num) (ms : List Int) : Prop :=
  row.length = ms.length ∧
    ∀ (c : Nat) (a : Num) (m : Int), row[c]? = some a → ms[c]? = some m → Denotes a m

theorem RowDenotes.nil : RowDenotes [] [] := ⟨rfl, nofun⟩

theorem RowDenotes.cons {a : Num} {m : Int} {row : List Num} (first : Denotes a m)
    (rest : RowDenotes row ms) : RowDenotes (a :: row) (m :: ms) := by
  refine ⟨congrArg (· + 1) rest.1, fun c x y foundX foundY => ?_⟩
  cases c with
  | zero =>
    cases foundX
    cases foundY
    exact first
  | succ c => exact rest.2 c x y foundX foundY

/-- A row of integers with a multiple of another taken away in so many columns. -/
def eliminated (n : Int) (ks : List Int) (columns : Nat) (ms : List Int) : List Int :=
  ms.mapIdx fun c m => if c < columns then m - n * ks.getD c 0 else m

/-- The rows after so many columns: one of them is changed there, and only there. -/
structure Eliminated (before rows : Rows) (rowK rowJ : Nat) (ms ks : List Int) (n : Int)
    (columns : Nat) : Prop where
  result : RowDenotes (rows rowK) (eliminated n ks columns ms)
  behind : ∀ c ≥ columns, (rows rowK)[c]? = (before rowK)[c]?
  multiplied : rows rowJ = before rowJ
  others : ∀ row, row ≠ rowK → rows row = before row

theorem getElem?_eliminated (columns c : Nat) :
    (eliminated n ks columns ms)[c]? =
      ms[c]?.map fun m => if c < columns then m - n * ks.getD c 0 else m :=
  List.getElem?_mapIdx

theorem length_eliminated (columns : Nat) : (eliminated n ks columns ms).length = ms.length :=
  List.length_mapIdx

theorem eliminated_skip {c : Nat} (zero : ks.getD c 0 = 0) :
    eliminated n ks (c + 1) ms = eliminated n ks c ms := by
  refine List.ext_getElem? fun i => ?_
  rw [getElem?_eliminated, getElem?_eliminated]
  congr 1
  funext m
  rcases Nat.lt_trichotomy i c with less | rfl | more
  · rw [if_pos less, if_pos (by omega)]
  · rw [if_pos (Nat.lt_succ_self i), if_neg (Nat.lt_irrefl i), zero, Int.mul_zero, Int.sub_zero]
  · rw [if_neg (by omega), if_neg (by omega)]

theorem eliminated_zero : eliminated n ks 0 ms = ms := by
  refine List.ext_getElem? fun c => ?_
  rw [getElem?_eliminated]
  simp

theorem Eliminated.step {c : Nat} (so : Eliminated before rows rowK rowJ ms ks n c)
    (different : rowK ≠ rowJ) (multiplier : Denotes q n) (heldJ : RowDenotes (before rowJ) ks)
    (heldK : RowDenotes (before rowK) ms) (inside : c < ks.length)
    (covered : c < ms.length ∨ ks.getD c 0 = 0) :
    ∃ rows', submulColumn q rowK rowJ c rows = some rows' ∧
      Eliminated before rows' rowK rowJ ms ks n (c + 1) := by
  obtain ⟨b, foundB⟩ : ∃ b, (before rowJ)[c]? = some b :=
    ⟨_, List.getElem?_eq_getElem (heldJ.1 ▸ inside)⟩
  have k := List.getElem?_eq_getElem inside
  have product : ks.getD c 0 = ks[c] := by
    rw [List.getD_eq_getElem?_getD, k, Option.getD_some]
  have third : Denotes b ks[c] := heldJ.2 c b _ foundB k
  rw [product] at covered
  unfold submulColumn
  rw [so.multiplied, foundB, Option.bind_eq_bind, Option.bind_some]
  by_cases zero : isZeroFast b = true
  · -- The product is zero, and the row stays as it is.
    refine ⟨rows, if_pos zero, ?_, fun i low => so.behind i (by omega), so.multiplied, so.others⟩
    rw [eliminated_skip (product.trans (isZeroFast_eq_zero third zero))]
    exact so.result
  · have some : ks[c] ≠ 0 := fun none => zero (isZeroFast_of_zero (none ▸ third))
    have less := covered.resolve_right some
    obtain ⟨a, foundA⟩ : ∃ a, (before rowK)[c]? = .some a :=
      ⟨_, List.getElem?_eq_getElem (heldK.1 ▸ less)⟩
    have m := List.getElem?_eq_getElem less
    have first : Denotes a ms[c] := heldK.2 c a _ foundA m
    have foundA' := (so.behind c (Nat.le_refl c)).trans foundA
    rw [if_neg zero, foundA', Option.bind_some]
    refine ⟨_, rfl, ?_, ?_, ?_, ?_⟩
    · rw [Rows.setItem, Function.update_self]
      have length : ms.length = (before rowK).length := heldK.1.symm
      refine ⟨?_, fun i x y foundX foundY => ?_⟩
      · rw [List.length_set, so.result.1, length_eliminated, length_eliminated]
      · rw [getElem?_eliminated] at foundY
        by_cases here : i = c
        · subst here
          rw [List.getElem?_set_self (by rw [so.result.1, length_eliminated]; exact less)] at foundX
          rw [m, Option.map_some, if_pos (Nat.lt_succ_self i), product] at foundY
          cases foundX
          cases foundY
          exact submulItem_denotes first multiplier third
        · rw [List.getElem?_set_ne (Ne.symm here)] at foundX
          refine so.result.2 i x y foundX ?_
          rw [getElem?_eliminated, ← foundY]
          congr 1
          funext z
          by_cases low : i < c
          · rw [if_pos low, if_pos (by omega)]
          · rw [if_neg low, if_neg (by omega)]
    · intro i low
      rw [Rows.setItem, Function.update_self, List.getElem?_set_ne (by omega)]
      exact so.behind i (by omega)
    · rw [Rows.setItem, Function.update_of_ne different.symm]
      exact so.multiplied
    · intro row other
      rw [Rows.setItem, Function.update_of_ne other]
      exact so.others row other

theorem Eliminated.run (turns : Nat) {c : Nat} (so : Eliminated before rows rowK rowJ ms ks n c)
    (different : rowK ≠ rowJ) (multiplier : Denotes q n) (heldJ : RowDenotes (before rowJ) ks)
    (heldK : RowDenotes (before rowK) ms) (inside : c + turns ≤ ks.length)
    (covered : ∀ i, i < c + turns → i < ms.length ∨ ks.getD i 0 = 0) :
    ∃ rows', submulColumns q rowK rowJ turns c rows = some rows' ∧
      Eliminated before rows' rowK rowJ ms ks n (c + turns) := by
  induction turns generalizing c rows with
  | zero => exact ⟨rows, rfl, so⟩
  | succ turns ih =>
    obtain ⟨next, done, so'⟩ :=
      so.step different multiplier heldJ heldK (by omega) (covered c (by omega))
    obtain ⟨last, later, so''⟩ := ih so' (by omega) fun i below => covered i (by omega)
    refine ⟨last, ?_, ?_⟩
    · rw [submulColumns, done, Option.bind_some, later]
    · rwa [show c + (turns + 1) = c + 1 + turns by omega]

theorem eliminated_eq {few many : Nat} (le : few ≤ many)
    (zero : ∀ c, few ≤ c → ks.getD c 0 = 0) :
    eliminated n ks many ms = eliminated n ks few ms := by
  induction many, le using Nat.le_induction with
  | base => rfl
  | succ many le ih => rw [eliminated_skip (zero many le), ih]

theorem eliminated_of_zero (columns : Nat) : eliminated 0 ks columns ms = ms := by
  refine List.ext_getElem? fun c => ?_
  rw [getElem?_eliminated]
  simp

theorem Eliminated.start (heldK : RowDenotes (rows rowK) ms) :
    Eliminated rows rows rowK rowJ ms ks n 0 :=
  ⟨eliminated_zero.symm ▸ heldK, fun _ _ => rfl, rfl, fun _ _ => rfl⟩

end Loop

section Rows

variable {rows : Rows} {rowK rowJ : Nat} {q : Num} {n : Int} {ms ks : List Int} {limitV : BitVec 64}

theorem support_spec {row : List Num} (held : RowDenotes row ks) :
    (row.rdropWhile isZeroFast).length ≤ ks.length ∧
      ∀ c, (row.rdropWhile isZeroFast).length ≤ c → ks.getD c 0 = 0 := by
  refine ⟨held.1 ▸ (List.rdropWhile_prefix isZeroFast row).length_le, fun c behind => ?_⟩
  rw [List.getD_eq_getElem?_getD]
  cases found : ks[c]? with
  | none => rfl
  | some k =>
    obtain ⟨inside, -⟩ := List.getElem?_eq_some_iff.mp found
    obtain ⟨a, item⟩ : ∃ a, row[c]? = some a := ⟨_, List.getElem?_eq_getElem (held.1 ▸ inside)⟩
    have whole : row.rdropWhile isZeroFast ++ row.rtakeWhile isZeroFast = row :=
      List.rdropWhile_append_rtakeWhile
    have dropped : (row.rdropWhile isZeroFast ++ row.rtakeWhile isZeroFast)[c]? = some a := by
      rw [whole, item]
    rw [List.getElem?_append_right behind] at dropped
    have zero : isZeroFast a = true := List.mem_rtakeWhile_imp (List.mem_of_getElem? dropped)
    exact isZeroFast_eq_zero (held.2 c _ k item found) zero

/-- The columns are in the second row, and those of the first have all of its items but zeros. -/
def Reaches (ms ks : List Int) (columns : Nat) : Prop :=
  columns ≤ ks.length ∧ ∀ c, c < columns → c < ms.length ∨ ks.getD c 0 = 0

theorem Eliminated.of_zero (heldK : RowDenotes (rows rowK) ms) (columns : Nat) :
    Eliminated rows rows rowK rowJ ms ks 0 columns :=
  ⟨(eliminated_of_zero columns).symm ▸ heldK, fun _ _ => rfl, rfl, fun _ _ => rfl⟩

theorem bigintRowSubmul_eliminated (different : rowK ≠ rowJ) (multiplier : Denotes q n)
    (heldK : RowDenotes (rows rowK) ms) (heldJ : RowDenotes (rows rowJ) ks)
    (covers : Reaches ms ks (columnsUpTo limitV)) :
    ∃ rows', bigintRowSubmul rows rowK rowJ q limitV = some rows' ∧
      Eliminated rows rows' rowK rowJ ms ks n (columnsUpTo limitV) := by
  unfold bigintRowSubmul
  split
  · next zero =>
    subst zero
    obtain rfl : n = 0 := denotes_tagV (by decide) (by decide) multiplier
    exact ⟨rows, rfl, .of_zero heldK _⟩
  · have run := (Eliminated.start heldK).run (columnsUpTo limitV) different multiplier heldJ heldK
      (by rw [Nat.zero_add]; exact covers.1) (by rw [Nat.zero_add]; exact covers.2)
    rwa [Nat.zero_add] at run

theorem bigintRowSubmulAuto_eliminated (different : rowK ≠ rowJ) (multiplier : Denotes q n)
    (heldK : RowDenotes (rows rowK) ms) (heldJ : RowDenotes (rows rowJ) ks)
    (covers : Reaches ms ks ks.length) :
    ∃ rows', bigintRowSubmulAuto rows rowK rowJ q = some rows' ∧
      Eliminated rows rows' rowK rowJ ms ks n ks.length := by
  unfold bigintRowSubmulAuto
  split
  · next zero =>
    subst zero
    obtain rfl : n = 0 := denotes_tagV (by decide) (by decide) multiplier
    exact ⟨rows, rfl, .of_zero heldK _⟩
  · obtain ⟨within, zero⟩ := support_spec heldJ
    obtain ⟨rows', done, so⟩ := (Eliminated.start heldK).run
      ((rows rowJ).rdropWhile isZeroFast).length different multiplier heldJ heldK
      (by rw [Nat.zero_add]; exact within) fun c less => covers.2 c (by omega)
    rw [Nat.zero_add] at so
    refine ⟨rows', done, ?_, fun c behind => so.behind c (by omega), so.multiplied, so.others⟩
    rw [eliminated_eq within zero]
    exact so.result

/--
Taking a multiple of one row from another is exact, up to a limit and over all columns.

The rows are different lists, and every column that is read or written is one of theirs. Where the
limit is not below the last item that is not zero, both ways give the same integers.
-/
theorem rowSubmul_exact (rows : Rows) (rowK rowJ : Nat) (q : Num) (n : Int) (ms ks : List Int)
    (limitV : BitVec 64) (different : rowK ≠ rowJ) (multiplier : Denotes q n)
    (heldK : RowDenotes (rows rowK) ms) (heldJ : RowDenotes (rows rowJ) ks) :
    (Reaches ms ks (columnsUpTo limitV) →
      ∃ rows', bigintRowSubmul rows rowK rowJ q limitV = some rows' ∧
        Eliminated rows rows' rowK rowJ ms ks n (columnsUpTo limitV)) ∧
    (Reaches ms ks ks.length →
      ∃ rows', bigintRowSubmulAuto rows rowK rowJ q = some rows' ∧
        Eliminated rows rows' rowK rowJ ms ks n ks.length) ∧
    (Reaches ms ks (columnsUpTo limitV) → Reaches ms ks ks.length →
      (∀ c, columnsUpTo limitV ≤ c → ks.getD c 0 = 0) →
      ∃ rows₁ rows₂ result, bigintRowSubmul rows rowK rowJ q limitV = some rows₁ ∧
        bigintRowSubmulAuto rows rowK rowJ q = some rows₂ ∧
        RowDenotes (rows₁ rowK) result ∧ RowDenotes (rows₂ rowK) result) := by
  refine ⟨bigintRowSubmul_eliminated different multiplier heldK heldJ,
    bigintRowSubmulAuto_eliminated different multiplier heldK heldJ, fun some all zero => ?_⟩
  obtain ⟨rows₁, first, so₁⟩ :=
    bigintRowSubmul_eliminated different multiplier heldK heldJ some
  obtain ⟨rows₂, second, so₂⟩ :=
    bigintRowSubmulAuto_eliminated different multiplier heldK heldJ all
  refine ⟨rows₁, rows₂, _, first, second, so₁.result, ?_⟩
  rw [← eliminated_eq some.1 zero]
  exact so₂.result

/-- A row of a small integer and an object, and one of two small integers. -/
def twoRows : Rows := fun row =>
  if row = 0 then [tagV 7, .big 1 [-1#64]] else [tagV 3, tagV 5]

/-- Three times the second row is taken from the first. -/
theorem rowSubmul_exact_two :
    ∃ rows, bigintRowSubmul twoRows 0 1 (tagV 3) (tagWord 1) = some rows ∧
      Eliminated twoRows rows 0 1 [7, 2 ^ 64 - 1] [3, 5] 3 2 := by
  have small (v : BitVec 64) (low : smallIntMin ≤ v.toInt) (high : v.toInt ≤ smallIntMax) :
      Denotes (tagV v) v.toInt := tagV_denotes rfl low high
  have large : Denotes (.big 1 [-1#64]) (2 ^ 64 - 1) :=
    .big ⟨by simp [Lib.Normal], .inr ⟨by simp, .inl rfl⟩⟩
  have first : RowDenotes (twoRows 0) [7, 2 ^ 64 - 1] :=
    .cons (small 7 (by decide) (by decide)) (.cons large .nil)
  have second : RowDenotes (twoRows 1) [3, 5] :=
    .cons (small 3 (by decide) (by decide)) (.cons (small 5 (by decide) (by decide)) .nil)
  have columns : columnsUpTo (tagWord 1) = 2 := by decide
  have limited := (rowSubmul_exact twoRows 0 1 (tagV 3) 3 _ _ (tagWord 1) Nat.zero_ne_one
    (small 3 (by decide) (by decide)) first second).1
  rw [columns] at limited
  exact limited ⟨by decide, by decide⟩

/-- A row of a single one at every address. -/
def oneRow : Rows := fun _ => [tagV 1]

/-- A row that is taken from itself is changed, and a limit behind the rows leads out of them. -/
theorem rowSubmul_fails :
    (¬∀ rows rowK rowJ q n ms ks limitV, Denotes q n → RowDenotes (rows rowK) ms →
      RowDenotes (rows rowJ) ks → ∃ rows', bigintRowSubmul rows rowK rowJ q limitV = some rows' ∧
        Eliminated rows rows' rowK rowJ ms ks n (columnsUpTo limitV)) ∧
    bigintRowSubmul oneRow 0 1 (tagV 1) (tagWord 1) = none := by
  refine ⟨fun all => ?_, by decide⟩
  have one : Denotes (tagV 1) 1 := tagV_denotes (by decide) (by decide) (by decide)
  have row : RowDenotes (oneRow 0) [1] := .cons one .nil
  obtain ⟨rows', done, so⟩ := all oneRow 0 0 (tagV 1) 1 [1] [1] 1 one row row
  have changed : (bigintRowSubmul oneRow 0 0 (tagV 1) 1).map (· 0) = some [tagV 0] := by decide
  rw [done, Option.map_some] at changed
  have same := so.multiplied
  rw [Option.some.inj changed] at same
  exact absurd same (by decide)

end Rows

end Nytrix.Rt
