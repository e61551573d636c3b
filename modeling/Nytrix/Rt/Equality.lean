import Nytrix.Rt.ValueLaws

/-! Equality of the language: what it means, its symmetry, and where it is transitive. -/

namespace Nytrix.Rt

section Meaning

/-- The items of a list, a tuple or a range. -/
def Value.items? : Value → Option (List Value)
  | .seq _ _ items => some items
  | .range _ start stop step => some (rangeItems start stop step)
  | _ => none

/-- The number of a small integer or a big integer. -/
def Value.number? : Value → Option Int
  | .int value => some value.toInt
  | .big _ sign limbs => some (valToMpz (.big sign limbs))
  | _ => none

/-- Whether the value is an object that is no big integer. -/
def Value.isObject (v : Value) : Bool := v.isPtr && !v.isBigintObj

/-- What makes two values equal whose words differ, where no float is one of them. -/
inductive Equal : Value → Value → Prop
  | number {a b : Value} {n : Int} (left : a.number? = some n) (right : b.number? = some n) :
    Equal a b
  | nilZero : Equal .nil (.int 0)
  | zeroNil : Equal (.int 0) .nil
  | complex {a b : Value} (left : a.isObject = true) (right : b.isObject = true)
    (some : (a.isComplex || b.isComplex) = true) (re : doubleEq a.complexRe b.complexRe = true)
    (im : doubleEq a.complexIm b.complexIm = true) : Equal a b
  | string {p q : BitVec 64} {bytes : List (BitVec 8)} : Equal (.str p bytes) (.str q bytes)
  | items {a b : Value} {xs ys : List Value} (left : a.items? = some xs)
    (right : b.items? = some ys) (all : List.Forall₂ (fun x y => rtEq x y = true) xs ys) :
    Equal a b

theorem rtEq_int_left (n : BitVec 63) (y : Value) :
    (leafEq (.int n) y).getD false = rtEq (.int n) y := by
  unfold rtEq
  cases leafEq (.int n) y <;> rfl

theorem rtEq_int_right (x : Value) (n : BitVec 63) :
    (leafEq x (.int n)).getD false = rtEq x (.int n) := by
  unfold rtEq
  cases leafEq x (.int n) with
  | some answer => rfl
  | none => cases x <;> rfl

theorem intItemsEq_eq_itemsEq {xs ys : List Value}
    (small : (∀ x ∈ xs, x.isInt = true) ∨ ∀ y ∈ ys, y.isInt = true) :
    intItemsEq xs ys = itemsEq xs ys := by
  induction xs generalizing ys with
  | nil => cases ys <;> rfl
  | cons x xs ih => cases ys with
    | nil => rfl
    | cons y ys =>
      rw [intItemsEq, itemsEq, ih (small.imp (fun all z member => all z (.tail _ member))
        fun all z member => all z (.tail _ member))]
      congr 1
      rcases small with all | all
      · have held := all x (.head _)
        cases x with
        | int n => exact rtEq_int_left n y
        | _ => cases held
      · have held := all y (.head _)
        cases y with
        | int n => exact rtEq_int_right x n
        | _ => cases held

theorem rangeItems_isInt {start stop step : BitVec 63} :
    ∀ x ∈ rangeItems start stop step, x.isInt = true := by
  intro x member
  obtain ⟨i, -, rfl⟩ := List.mem_map.mp member
  rfl

theorem itemsEq_iff (xs ys : List Value) :
    (decide (xs.length = ys.length) && itemsEq xs ys) = true ↔
      List.Forall₂ (fun x y => rtEq x y = true) xs ys := by
  induction xs generalizing ys with
  | nil => cases ys <;> simp [itemsEq]
  | cons x xs ih => cases ys with
    | nil => simp
    | cons y ys =>
      rw [List.forall₂_cons, ← ih, itemsEq]
      simp only [List.length_cons, Nat.add_right_cancel_iff, Bool.and_eq_true, decide_eq_true_eq]
      exact and_left_comm

theorem Value.Placed.word_ne {v : Value} (placed : v.Placed) (pointer : v.isPtr = true) :
    v.word ≠ 0 ∧ v.word ≠ tagWord 0 := by
  have mapped := placed.mapped pointer
  constructor
  · intro zero
    rw [zero] at mapped
    exact absurd mapped (by decide)
  · intro zero
    rw [zero] at mapped
    exact absurd mapped (by decide)

theorem leafEq_objects {a b : Value} (left : a.isObject = true) (right : b.isObject = true)
    (placedA : a.Placed) (placedB : b.Placed) (plainA : a.isFlt = false) (plainB : b.isFlt = false)
    (differ : a.word ≠ b.word) :
    leafEq a b =
      if a.isComplex || b.isComplex then
        some (doubleEq a.complexRe b.complexRe && doubleEq a.complexIm b.complexIm)
      else if a.bytes?.isSome && b.bytes?.isSome then some (a.bytes? = b.bytes?)
      else none := by
  simp only [Value.isObject, Bool.and_eq_true, Bool.not_eq_true'] at left right
  have wordA := placedA.word_ne left.1
  have wordB := placedB.word_ne right.1
  have noInt {v : Value} (pointer : v.isPtr = true) : v.isInt = false := by
    cases v <;> first | rfl | cases pointer
  simp only [leafEq, differ, left.1, left.2, right.1, right.2, plainA, plainB, wordA.1, wordA.2,
    wordB.1, wordB.2, noInt left.1, noInt right.1, decide_false, Bool.false_and, Bool.or_false,
    Bool.and_true, Bool.false_eq_true, if_false, if_true, ne_eq, not_true_eq_false]

theorem items_object {v : Value} {xs : List Value} (known : v.items? = some xs) :
    v.isObject = true ∧ v.isFlt = false ∧ v.isComplex = false ∧ v.bytes? = none := by
  cases v with
  | seq _ _ _ => exact ⟨rfl, rfl, rfl, rfl⟩
  | range _ _ _ _ => exact ⟨rfl, rfl, rfl, rfl⟩
  | _ => cases known

theorem leafEq_items {a b : Value} {xs ys : List Value} (left : a.items? = some xs)
    (right : b.items? = some ys) (placedA : a.Placed) (placedB : b.Placed)
    (differ : a.word ≠ b.word) : leafEq a b = none := by
  obtain ⟨objectA, plainA, partsA, stringA⟩ := items_object left
  obtain ⟨objectB, plainB, partsB, -⟩ := items_object right
  rw [leafEq_objects objectA objectB placedA placedB plainA plainB differ, partsA, partsB, stringA]
  rfl

theorem rtEq_items {a b : Value} {xs ys : List Value} (left : a.items? = some xs)
    (right : b.items? = some ys) (placedA : a.Placed) (placedB : b.Placed)
    (differ : a.word ≠ b.word) :
    rtEq a b = true ↔ List.Forall₂ (fun x y => rtEq x y = true) xs ys := by
  have leaf := leafEq_items left right placedA placedB differ
  have size (start stop step : BitVec 63) :
      rangeLen start stop step = (rangeItems start stop step).length := by simp [rangeItems]
  rw [← itemsEq_iff]
  unfold rtEq
  rw [leaf]
  -- A range has small integers as its items, whichever side it stands on.
  cases a with
  | seq _ _ items => cases left; cases b with
    | seq _ _ others => cases right; rfl
    | range _ start stop step =>
      cases right
      simp only [size, intItemsEq_eq_itemsEq (.inr rangeItems_isInt)]
    | _ => cases right
  | range _ start stop step => cases left; cases b with
    | seq _ _ others =>
      cases right
      simp only [size, intItemsEq_eq_itemsEq (.inl rangeItems_isInt)]
    | range _ start' stop' step' =>
      cases right
      simp only [size, intItemsEq_eq_itemsEq (.inl rangeItems_isInt)]
    | _ => cases right
  | _ => cases left

theorem rtEq_of_word {a b : Value} (same : a.word = b.word) : rtEq a b = true := by
  unfold rtEq
  rw [leafEq, if_pos same]

theorem rtEq_of_leaf {a b : Value} {answer : Bool} (leaf : leafEq a b = some answer) :
    rtEq a b = answer := by
  unfold rtEq
  rw [leaf]

theorem valToMpz_int (value : BitVec 63) : valToMpz (Value.int value).toNum = value.toInt := by
  have bounds := value.toInt_lt
  have low := value.le_toInt
  have wide : (value.signExtend 64).toInt = value.toInt := BitVec.toInt_signExtend_of_le (by decide)
  exact valToMpz_eq (tagV_denotes wide (by simp only [smallIntMin, smallIntMax]; omega)
    (by simp only [smallIntMax]; omega))

theorem valToMpz_number {v : Value} {n : Int} (known : v.number? = some n) :
    valToMpz v.toNum = n ∧ (v.isBigintObj || v.isInt) = true := by
  cases v with
  | int value => cases known; exact ⟨valToMpz_int value, rfl⟩
  | big addr sign limbs => cases known; exact ⟨rfl, rfl⟩
  | _ => cases known

theorem number_of_isInt {v : Value} (held : (v.isBigintObj || v.isInt) = true) :
    v.number? = some (valToMpz v.toNum) := by
  cases v with
  | int value => rw [valToMpz_int]; rfl
  | big addr sign limbs => rfl
  | _ => cases held

theorem items_of_unsettled {a b : Value} (leaf : leafEq a b = none) (equal : rtEq a b = true) :
    ∃ xs ys, a.items? = some xs ∧ b.items? = some ys := by
  unfold rtEq at equal
  rw [leaf] at equal
  cases a with
  | seq _ _ xs => cases b with
    | seq _ _ ys => exact ⟨xs, ys, rfl, rfl⟩
    | range _ start stop step => exact ⟨xs, _, rfl, rfl⟩
    | _ => exact Bool.noConfusion equal
  | range _ start stop step => cases b with
    | seq _ _ ys => exact ⟨_, ys, rfl, rfl⟩
    | range _ start' stop' step' => exact ⟨_, _, rfl, rfl⟩
    | _ => exact Bool.noConfusion equal
  | _ => exact Bool.noConfusion equal

theorem equal_of_rtEq {a b : Value} (placedA : a.Placed) (placedB : b.Placed)
    (plainA : a.isFlt = false) (plainB : b.isFlt = false) (differ : a.word ≠ b.word)
    (equal : rtEq a b = true) : Equal a b := by
  have answered {answer : Bool} (leaf : leafEq a b = some answer) : answer = true :=
    (rtEq_of_leaf leaf).symm.trans equal
  by_cases big : (a.isBigintObj || b.isBigintObj) = true
  · have leaf : leafEq a b = some ((a.isBigintObj || a.isInt) && (b.isBigintObj || b.isInt) &&
        decide (valToMpz a.toNum = valToMpz b.toNum)) := by
      rw [leafEq, if_neg differ, if_pos big]
    have held := answered leaf
    simp only [Bool.and_eq_true, decide_eq_true_eq] at held
    exact .number (number_of_isInt held.1.1) (held.2 ▸ number_of_isInt held.1.2)
  · by_cases mixed : (decide (a.word = 0) && decide (b.word = tagWord 0) ||
        decide (a.word = tagWord 0) && decide (b.word = 0)) = true
    · simp only [Bool.or_eq_true, Bool.and_eq_true, decide_eq_true_eq] at mixed
      rcases mixed with ⟨left, right⟩ | ⟨left, right⟩
      · rw [Value.eq_nil placedA left, Value.eq_zero placedB right]
        exact .nilZero
      · rw [Value.eq_zero placedA left, Value.eq_nil placedB right]
        exact .zeroNil
    · have rest : leafEq a b =
          if a.isInt ≠ b.isInt then some false
          else if a.isPtr && b.isPtr then
            if a.isComplex || b.isComplex then
              some (doubleEq a.complexRe b.complexRe && doubleEq a.complexIm b.complexIm)
            else if a.bytes?.isSome && b.bytes?.isSome then some (a.bytes? = b.bytes?)
            else none
          else some false := by
        rw [leafEq, if_neg differ, if_neg big, if_neg mixed, plainA, plainB]
        rfl
      rw [Bool.or_eq_true, not_or, Bool.not_eq_true, Bool.not_eq_true] at big
      by_cases ints : a.isInt = b.isInt
      · rw [if_neg (not_not_intro ints)] at rest
        by_cases pointers : (a.isPtr && b.isPtr) = true
        · rw [if_pos pointers] at rest
          rw [Bool.and_eq_true] at pointers
          by_cases parts : (a.isComplex || b.isComplex) = true
          · rw [if_pos parts] at rest
            have held := answered rest
            rw [Bool.and_eq_true] at held
            exact .complex (by rw [Value.isObject, pointers.1, big.1]; rfl)
              (by rw [Value.isObject, pointers.2, big.2]; rfl) parts held.1 held.2
          · rw [if_neg parts] at rest
            by_cases strings : (a.bytes?.isSome && b.bytes?.isSome) = true
            · rw [if_pos strings] at rest
              have same := of_decide_eq_true (answered rest)
              cases a with
              | str p bytes => cases b with
                | str q others =>
                  rw [Option.some.inj (show some bytes = some others from same)]
                  exact .string
                | _ => cases strings
              | _ => cases strings
            · rw [if_neg strings] at rest
              obtain ⟨xs, ys, left, right⟩ := items_of_unsettled rest equal
              exact .items left right ((rtEq_items left right placedA placedB differ).mp equal)
        · rw [if_neg pointers] at rest
          cases answered rest
      · rw [if_pos ints] at rest
        cases answered rest

theorem rtEq_of_equal {a b : Value} (placedA : a.Placed) (placedB : b.Placed)
    (plainA : a.isFlt = false) (plainB : b.isFlt = false) (equal : Equal a b) :
    rtEq a b = true := by
  by_cases differ : a.word = b.word
  · exact rtEq_of_word differ
  · cases equal with
    | number left right =>
      obtain ⟨valueA, heldA⟩ := valToMpz_number left
      obtain ⟨valueB, heldB⟩ := valToMpz_number right
      by_cases big : (a.isBigintObj || b.isBigintObj) = true
      · refine rtEq_of_leaf ?_
        rw [leafEq, if_neg differ, if_pos big, heldA, heldB, valueA, valueB]
        simp
      · -- Two small integers with one value have one word.
        exfalso
        rw [Bool.or_eq_true, not_or] at big
        cases a with
        | int v => cases b with
          | int w =>
            have same : v.toInt = w.toInt :=
              (Option.some.inj left).trans (Option.some.inj right).symm
            exact differ (by rw [BitVec.eq_of_toInt_eq same])
          | big _ _ _ => exact big.2 rfl
          | _ => cases right
        | big _ _ _ => exact big.1 rfl
        | _ => cases left
    | nilZero => exact rtEq_of_leaf (by decide)
    | zeroNil => exact rtEq_of_leaf (by decide)
    | complex left right parts re im =>
      refine rtEq_of_leaf ?_
      rw [leafEq_objects left right placedA placedB plainA plainB differ, if_pos parts, re, im]
      rfl
    | string =>
      refine rtEq_of_leaf ?_
      rw [leafEq_objects rfl rfl placedA placedB plainA plainB differ]
      simp [Value.isComplex, Value.bytes?]
    | items left right all =>
      exact (rtEq_items left right placedA placedB differ).mpr all

theorem rtEq_iff {a b : Value} (placedA : a.Placed) (placedB : b.Placed)
    (plainA : a.isFlt = false) (plainB : b.isFlt = false) :
    rtEq a b = true ↔ a.word = b.word ∨ Equal a b := by
  constructor
  · intro equal
    by_cases differ : a.word = b.word
    · exact .inl differ
    · exact .inr (equal_of_rtEq placedA placedB plainA plainB differ equal)
  · rintro (same | equal)
    · exact rtEq_of_word same
    · exact rtEq_of_equal placedA placedB plainA plainB equal

end Meaning

section Equivalence

/-- A value itself, or a value at any depth within it. -/
inductive Inside (x : Value) : Value → Prop
  | self : Inside x x
  | item {v y : Value} {items : List Value} (known : v.items? = some items) (member : y ∈ items)
    (deeper : Inside x y) : Inside x v

/-- Values of one heap, without floats: objects with one address are the same. -/
structure OneHeap (vs : List Value) : Prop where
  placed : ∀ v ∈ vs, ∀ x, Inside x v → x.Placed
  plain : ∀ v ∈ vs, ∀ x, Inside x v → x.isFlt = false
  same : ∀ v ∈ vs, ∀ w ∈ vs, ∀ x y, Inside x v → Inside y w → x.word = y.word → x = y

/-- The complex number zero. -/
def ZeroComplex (v : Value) : Prop :=
  v.isComplex = true ∧ doubleEq v.complexRe 0 = true ∧ doubleEq v.complexIm 0 = true

/-- Neither the small integer zero nor the complex number zero is the value, or within it. -/
def Zeroless (v : Value) : Prop := ∀ x, Inside x v → x ≠ .int 0 ∧ ¬ZeroComplex x

theorem Inside.trans {x y v : Value} (inner : Inside x y) (outer : Inside y v) : Inside x v := by
  induction outer with
  | self => exact inner
  | item known member _ ih => exact .item known member ih

theorem Inside.of_mem {v x : Value} {items : List Value} (known : v.items? = some items)
    (member : x ∈ items) : Inside x v := .item known member .self

theorem OneHeap.mono {vs ws : List Value} (heap : OneHeap vs)
    (within : ∀ w ∈ ws, ∃ v ∈ vs, Inside w v) : OneHeap ws where
  placed w member x inside :=
    have ⟨v, outer, deeper⟩ := within w member
    heap.placed v outer x (inside.trans deeper)
  plain w member x inside :=
    have ⟨v, outer, deeper⟩ := within w member
    heap.plain v outer x (inside.trans deeper)
  same w member w' member' x y insideX insideY :=
    have ⟨v, outer, deeper⟩ := within w member
    have ⟨v', outer', deeper'⟩ := within w' member'
    heap.same v outer v' outer' x y (insideX.trans deeper) (insideY.trans deeper')

theorem Value.itemsInduction {P : Value → Prop}
    (step : ∀ v, (∀ items, v.items? = some items → ∀ x ∈ items, P x) → P v) : ∀ v, P v
  | .seq addr tuple items =>
    step (.seq addr tuple items) fun found known x member =>
      have same : found = items := (Option.some.inj known).symm
      have : sizeOf x < sizeOf items := List.sizeOf_lt_of_mem (same ▸ member)
      Value.itemsInduction step x
  | .range addr start stop width =>
    step (.range addr start stop width) fun found known x member => by
      obtain ⟨i, -, rfl⟩ := List.mem_map.mp (Option.some.inj known ▸ member)
      exact step _ fun _ none => nomatch none
  | .int _ | .nil | .fls | .tru | .big _ _ _ | .flt _ _ | .complex _ _ _ | .str _ _ =>
    step _ fun _ none => nomatch none
termination_by v => sizeOf v
decreasing_by
  simp only [Value.seq.sizeOf_spec]
  omega

theorem doubleEq_trans {x y z : BitVec 64} (left : doubleEq x y = true)
    (right : doubleEq y z = true) : doubleEq x z = true := by
  simp only [doubleEq, Bool.and_eq_true, Bool.or_eq_true, decide_eq_true_eq] at left right ⊢
  refine ⟨⟨left.1.1, right.1.2⟩, ?_⟩
  rcases left.2 with rfl | zeros
  · exact right.2
  · rcases right.2 with rfl | others
    · exact .inr zeros
    · exact .inr ⟨zeros.1, others.2⟩

theorem Equal.symm {a b : Value} (equal : Equal a b)
    (inner : ∀ xs, a.items? = some xs → ∀ x ∈ xs, ∀ ys, b.items? = some ys → ∀ y ∈ ys,
      rtEq x y = true → rtEq y x = true) : Equal b a := by
  cases equal with
  | number left right => exact .number right left
  | nilZero => exact .zeroNil
  | zeroNil => exact .nilZero
  | complex left right parts re im =>
    exact .complex right left (by rwa [Bool.or_comm]) (by rwa [doubleEq_symm])
      (by rwa [doubleEq_symm])
  | string => exact .string
  | items left right all =>
    refine .items right left (List.Forall₂.flip ?_)
    exact (List.forall₂_iff_get.mpr ⟨all.length_eq, fun i low high =>
      inner _ left _ (List.get_mem _ _) _ right _ (List.get_mem _ _) (all.get low high)⟩)

theorem rtEq_symm {a b : Value} (heap : OneHeap [a, b]) (equal : rtEq a b = true) :
    rtEq b a = true := by
  induction a using Value.itemsInduction generalizing b with
  | step a ih =>
    have placedA := heap.placed a (.head _) a .self
    have placedB := heap.placed b (.tail _ (.head _)) b .self
    have plainA := heap.plain a (.head _) a .self
    have plainB := heap.plain b (.tail _ (.head _)) b .self
    rw [rtEq_iff placedA placedB plainA plainB] at equal
    rw [rtEq_iff placedB placedA plainB plainA]
    refine equal.imp Eq.symm fun reason => reason.symm ?_
    intro xs left x memberX ys right y memberY
    refine ih xs left x memberX (heap.mono ?_)
    intro w member
    rcases List.mem_cons.mp member with rfl | rest
    · exact ⟨a, .head _, .of_mem left memberX⟩
    · rw [List.mem_singleton.mp rest]
      exact ⟨b, .tail _ (.head _), .of_mem right memberY⟩

theorem items_parts {v : Value} {xs : List Value} (known : v.items? = some xs) :
    v.complexRe = 0 ∧ v.complexIm = 0 := by
  cases v with
  | seq _ _ _ => exact ⟨rfl, rfl⟩
  | range _ _ _ _ => exact ⟨rfl, rfl⟩
  | _ => cases known

theorem isComplex_of_parts {a b : Value} (object : a.isObject = true) (plain : a.isFlt = false)
    (zeroless : ¬ZeroComplex b) (parts : (a.isComplex || b.isComplex) = true)
    (re : doubleEq a.complexRe b.complexRe = true)
    (im : doubleEq a.complexIm b.complexIm = true) : a.isComplex = true := by
  by_contra other
  rw [Bool.not_eq_true] at other
  rw [other, Bool.false_or] at parts
  -- An object that is not complex counts as zero.
  have zero : a.complexRe = 0 ∧ a.complexIm = 0 := by
    cases a with
    | complex _ _ _ => cases other
    | flt _ _ => cases plain
    | str _ _ => exact ⟨rfl, rfl⟩
    | seq _ _ _ => exact ⟨rfl, rfl⟩
    | range _ _ _ _ => exact ⟨rfl, rfl⟩
    | _ => cases object
  rw [zero.1, doubleEq_symm] at re
  rw [zero.2, doubleEq_symm] at im
  exact zeroless ⟨parts, re, im⟩

theorem not_isObject_of_number {v : Value} {n : Int} (known : v.number? = some n) :
    v.isObject = false := by
  cases v <;> first | rfl | cases known

/-- The reasons for two equalities with a common value in the middle give a third. -/
theorem Equal.trans {a b c : Value} (left : Equal a b) (right : Equal b c)
    (plain : a.isFlt = false) (nonzero : b ≠ .int 0) (zeroless : ¬ZeroComplex b)
    (inner : ∀ ys, b.items? = some ys → ∀ xs, a.items? = some xs → ∀ zs, c.items? = some zs →
      ∀ x ∈ xs, ∀ y ∈ ys, ∀ z ∈ zs, rtEq x y = true → rtEq y z = true → rtEq x z = true) :
    a.word = c.word ∨ Equal a c := by
  cases left with
  | number known held => cases right with
    | number known' held' => exact .inr (.number known (held.symm.trans known' ▸ held'))
    | nilZero => cases held
    | zeroNil => exact absurd rfl nonzero
    | complex object _ _ _ _ => rw [not_isObject_of_number held] at object; cases object
    | string => cases held
    | items known' _ _ =>
      have object := (items_object known').1
      rw [not_isObject_of_number held] at object
      cases object
  | nilZero => exact absurd rfl nonzero
  | zeroNil => cases right with
    | number known' _ => cases known'
    | nilZero => exact .inl rfl
    | complex object _ _ _ _ => cases object
    | items known' _ _ => cases known'
  | complex objectA objectB parts re im =>
    have complexA := isComplex_of_parts objectA plain zeroless parts re im
    cases right with
    | number known' _ => rw [not_isObject_of_number known'] at objectB; cases objectB
    | nilZero => cases objectB
    | zeroNil => cases objectB
    | complex _ objectC _ re' im' =>
      exact .inr (.complex objectA objectC (by rw [complexA]; rfl) (doubleEq_trans re re')
        (doubleEq_trans im im'))
    | string => exact .inr (.complex objectA rfl (by rw [complexA]; rfl) re im)
    | items known known' _ =>
      have partsB := items_parts known
      have partsC := items_parts known'
      rw [partsB.1, ← partsC.1] at re
      rw [partsB.2, ← partsC.2] at im
      exact .inr (.complex objectA (items_object known').1 (by rw [complexA]; rfl) re im)
  | string => cases right with
    | number known' _ => cases known'
    | complex objectB objectC parts re im =>
      exact .inr (.complex rfl objectC parts re im)
    | string => exact .inr .string
    | items known' _ _ => cases known'
  | items known held all => cases right with
    | number known' _ =>
      have object := (items_object held).1
      rw [not_isObject_of_number known'] at object
      cases object
    | nilZero => cases held
    | zeroNil => cases held
    | complex objectB objectC parts re im =>
      have partsA := items_parts known
      have partsB := items_parts held
      rw [(items_object held).2.2.1] at parts
      rw [partsB.1, ← partsA.1] at re
      rw [partsB.2, ← partsA.2] at im
      exact .inr (.complex (items_object known).1 objectC
        (by rw [(items_object known).2.2.1]; exact parts) re im)
    | string => cases held
    | items known' held' all' =>
      obtain rfl := Option.some.inj (held.symm.trans known')
      refine .inr (.items known held' ?_)
      refine List.forall₂_iff_get.mpr ⟨all.length_eq.trans all'.length_eq, fun i low high => ?_⟩
      have middle : i < _ := all.length_eq ▸ low
      exact inner _ held _ known _ held' _ (List.get_mem _ _) _ (List.get_mem _ _) _
        (List.get_mem _ _) (all.get low middle) (all'.get middle high)

theorem rtEq_trans {a b c : Value} (heap : OneHeap [a, b, c]) (zeroless : Zeroless b)
    (left : rtEq a b = true) (right : rtEq b c = true) : rtEq a c = true := by
  induction b using Value.itemsInduction generalizing a c with
  | step b ih =>
    have placed := fun v member => heap.placed v member v .self
    have plain := fun v member => heap.plain v member v .self
    have memberA : a ∈ [a, b, c] := .head _
    have memberB : b ∈ [a, b, c] := .tail _ (.head _)
    have memberC : c ∈ [a, b, c] := .tail _ (.tail _ (.head _))
    rw [rtEq_iff (placed a memberA) (placed b memberB) (plain a memberA) (plain b memberB)] at left
    rw [rtEq_iff (placed b memberB) (placed c memberC) (plain b memberB) (plain c memberC)] at right
    rw [rtEq_iff (placed a memberA) (placed c memberC) (plain a memberA) (plain c memberC)]
    rcases left with sameAB | left
    · rw [heap.same a memberA b memberB a b .self .self sameAB]
      exact right
    rcases right with sameBC | right
    · rw [← heap.same b memberB c memberC b c .self .self sameBC]
      exact .inr left
    refine left.trans right (plain a memberA) (zeroless b .self).1 (zeroless b .self).2 ?_
    intro ys held xs known zs held' x memberX y memberY z memberZ
    refine ih ys held y memberY (heap.mono ?_) fun w inside =>
      zeroless w (inside.trans (.of_mem held memberY))
    intro w member
    simp only [List.mem_cons, List.not_mem_nil, or_false] at member
    rcases member with rfl | rfl | rfl
    · exact ⟨a, memberA, .of_mem known memberX⟩
    · exact ⟨b, memberB, .of_mem held memberY⟩
    · exact ⟨c, memberC, .of_mem held' memberZ⟩

end Equivalence

section Exactness

mutual

/-- How deep sequences are nested in a value. -/
def Value.depth : Value → Nat
  | .seq _ _ items => itemsDepth items + 1
  | .range _ _ _ _ => 1
  | _ => 0

/-- The depth of the deepest item. -/
def itemsDepth : List Value → Nat
  | [] => 0
  | x :: xs => max x.depth (itemsDepth xs)

end

/-- The words in use are among those listed. -/
def Covers (used : List (BitVec 64)) (vs : List Value) : Prop :=
  ∀ v ∈ vs, ∀ x, Inside x v → x.word ∈ used

/-- The objects of a value leave addresses for copies of the sequences on a path into it. -/
def Room (v : Value) : Prop :=
  ∃ used : List (BitVec 64), Covers used [v] ∧ used.length + 2 * v.depth + 2 < 2 ^ 59

theorem depth_lt {v x : Value} {items : List Value} (known : v.items? = some items)
    (member : x ∈ items) : x.depth < v.depth := by
  have below {x : Value} {items : List Value} (member : x ∈ items) :
      x.depth ≤ itemsDepth items := by
    induction items with
    | nil => cases member
    | cons y items ih =>
      rw [itemsDepth]
      rcases List.mem_cons.mp member with rfl | rest
      · exact Nat.le_max_left _ _
      · exact (ih rest).trans (Nat.le_max_right _ _)
  cases v with
  | seq _ _ _ =>
    cases known
    exact Nat.lt_succ_of_le (below member)
  | range _ _ _ _ =>
    cases known
    obtain ⟨i, -, rfl⟩ := List.mem_map.mp member
    exact Nat.zero_lt_one
  | _ => cases known

theorem exists_address {used : List (BitVec 64)} (few : used.length < 2 ^ 59) :
    ∃ q : BitVec 64, q ∉ used ∧ 4096 < q.toNat ∧ q.toNat % 8 = 0 := by
  have value {k : Nat} (small : k < 2 ^ 59) :
      (BitVec.ofNat 64 (16 * (k + 1024))).toNat = 16 * (k + 1024) := by
    rw [BitVec.toNat_ofNat]
    omega
  -- There are more candidates than addresses in use.
  have more : used.toFinset.card <
      ((Finset.range (2 ^ 59)).image fun k => BitVec.ofNat 64 (16 * (k + 1024))).card := by
    rw [Finset.card_image_of_injOn, Finset.card_range]
    · exact (List.toFinset_card_le used).trans_lt few
    · intro i low j high same
      have equal := congrArg BitVec.toNat same
      simp only at equal
      rw [value (by simpa using low), value (by simpa using high)] at equal
      omega
  obtain ⟨q, candidate, fresh⟩ := Finset.exists_mem_notMem_of_card_lt_card more
  obtain ⟨k, small, rfl⟩ := Finset.mem_image.mp candidate
  have known := value (Finset.mem_range.mp small)
  exact ⟨_, fun member => fresh (List.mem_toFinset.mpr member), by omega, by omega⟩

theorem Inside.cases_items {x v : Value} (inside : Inside x v) :
    x = v ∨ ∃ items, v.items? = some items ∧ ∃ y ∈ items, Inside x y := by
  cases inside with
  | self => exact .inl rfl
  | item known member deeper => exact .inr ⟨_, known, _, member, deeper⟩

theorem OneHeap.add {vs : List Value} {n : Value} (heap : OneHeap vs) (placed : n.Placed)
    (plain : n.isFlt = false)
    (items : ∀ found, n.items? = some found → ∀ y ∈ found, ∃ v ∈ vs, Inside y v)
    (own : ∀ v ∈ vs, ∀ y, Inside y v → y.word = n.word → y = n) : OneHeap (n :: vs) := by
  have within {w x : Value} (member : w ∈ n :: vs) (inside : Inside x w) :
      x = n ∨ ∃ v ∈ vs, Inside x v := by
    rcases List.mem_cons.mp member with rfl | rest
    · rcases inside.cases_items with rfl | ⟨found, known, y, inner, deeper⟩
      · exact .inl rfl
      · obtain ⟨v, outer, whole⟩ := items found known y inner
        exact .inr ⟨v, outer, deeper.trans whole⟩
    · exact .inr ⟨w, rest, inside⟩
  refine ⟨?_, ?_, ?_⟩
  · intro w member x inside
    rcases within member inside with rfl | ⟨v, outer, whole⟩
    · exact placed
    · exact heap.placed v outer x whole
  · intro w member x inside
    rcases within member inside with rfl | ⟨v, outer, whole⟩
    · exact plain
    · exact heap.plain v outer x whole
  · intro w member w' member' x y insideX insideY same
    rcases within member insideX with rfl | ⟨v, outer, whole⟩
    · rcases within member' insideY with rfl | ⟨v', outer', whole'⟩
      · rfl
      · exact (own v' outer' y whole' same.symm).symm
    · rcases within member' insideY with rfl | ⟨v', outer', whole'⟩
      · exact own v outer x whole same
      · exact heap.same v outer v' outer' x y whole whole' same

theorem forall₂_replace {l r : List Value} {x y : Value} (middle : rtEq x y = true) :
    List.Forall₂ (fun x y => rtEq x y = true) (l ++ x :: r) (l ++ y :: r) :=
  List.rel_append (List.forall₂_same.mpr fun _ _ => rtEq_of_word rfl)
    (.cons middle (List.forall₂_same.mpr fun _ _ => rtEq_of_word rfl))

theorem rtEq_of_forall₂ {l r s : List Value} {x y : Value}
    (all : List.Forall₂ (fun x y => rtEq x y = true) (l ++ x :: r) (l ++ y :: s)) :
    rtEq x y = true := by
  induction l with
  | nil => exact (List.forall₂_cons.mp all).1
  | cons z l ih => exact ih (List.forall₂_cons.mp all).2

/-- Values that are equal to a third one but not to each other, and the addresses they take. -/
structure Apart (v : Value) (rest : List Value) (used : List (BitVec 64)) (size : Nat) where
  first : Value
  last : Value
  more : List (BitVec 64)
  few : more.length ≤ size
  known : Covers (more ++ used) (first :: last :: v :: rest)
  heap : OneHeap (first :: last :: v :: rest)
  left : rtEq first v = true
  right : rtEq v last = true
  apart : rtEq first last = false

theorem Inside.eq_of_leaf {x v : Value} (leaf : v.items? = none) (inside : Inside x v) : x = v := by
  rcases inside.cases_items with rfl | ⟨items, known, -⟩
  · rfl
  · rw [leaf] at known
    cases known

theorem OneHeap.addLeaf {vs : List Value} {n : Value} {used : List (BitVec 64)}
    (heap : OneHeap vs) (covers : Covers used vs) (placed : n.Placed)
    (plain : n.isFlt = false) (leaf : n.items? = none) (fresh : n.word ∉ used) :
    OneHeap (n :: vs) :=
  heap.add placed plain (fun found known => by rw [leaf] at known; cases known)
    fun v member y inside same => absurd (same ▸ covers v member y inside) fresh

theorem apart_zero {rest : List Value} {used : List (BitVec 64)} (heap : OneHeap (.int 0 :: rest))
    (covers : Covers used (.int 0 :: rest))
    (room : used.length + 2 < 2 ^ 59) : Nonempty (Apart (.int 0) rest used 2) := by
  obtain ⟨q, fresh, high, aligned⟩ := exists_address (show used.length < 2 ^ 59 by omega)
  have placed : (Value.big q 0 []).Placed := ⟨fun _ => high, by rintro _ ⟨⟩; exact aligned⟩
  have nilPlaced : Value.nil.Placed := ⟨nofun, nofun⟩
  have grown : OneHeap (.big q 0 [] :: .int 0 :: rest) :=
    heap.addLeaf covers placed rfl rfl fresh
  have distinct : q ≠ 0 := fun zero => by rw [zero] at high; exact absurd high (by decide)
  have placedOf := fun w member => grown.placed w member
  refine ⟨.nil, .big q 0 [], [0, q], Nat.le_refl 2, ?_, ?_, by decide, ?_, ?_⟩
  · intro w member y inside
    simp only [List.mem_cons] at member
    rcases member with rfl | rfl | other
    · rw [inside.eq_of_leaf rfl]
      exact .head _
    · rw [inside.eq_of_leaf rfl]
      exact .tail _ (.head _)
    · exact List.mem_append_right _ (covers w (List.mem_cons.mpr other) y inside)
  · refine grown.add nilPlaced rfl (fun found known => by cases known) ?_
    intro v member y inside same
    exact Value.eq_nil (placedOf v member y inside) same
  · refine rtEq_of_equal ⟨nofun, nofun⟩ placed rfl rfl ?_
    exact .number rfl rfl
  · refine Bool.eq_false_iff.mpr fun equal => ?_
    rw [rtEq_iff nilPlaced placed rfl rfl] at equal
    rcases equal with same | equal
    · exact distinct same.symm
    · cases equal with
      | number left _ => cases left
      | complex object _ _ _ _ => cases object
      | items known _ _ => cases known

theorem apart_complex {v : Value} {rest : List Value} {used : List (BitVec 64)}
    (zero : ZeroComplex v) (heap : OneHeap (v :: rest))
    (covers : Covers used (v :: rest))
    (room : used.length + 2 < 2 ^ 59) : Nonempty (Apart v rest used 2) := by
  obtain ⟨p, freshP, highP, -⟩ := exists_address (show used.length < 2 ^ 59 by omega)
  obtain ⟨q, freshQ, highQ, -⟩ :=
    exists_address (show (p :: used).length < 2 ^ 59 by rw [List.length_cons]; omega)
  have placed {r : BitVec 64} {bytes : List (BitVec 8)} (high : 4096 < r.toNat) :
      (Value.str r bytes).Placed := ⟨fun _ => high, nofun⟩
  have placedV := heap.placed v (.head _) v .self
  have plainV := heap.plain v (.head _) v .self
  have object : v.isObject = true := by
    cases v with
    | complex _ _ _ => rfl
    | _ => exact Bool.noConfusion zero.1
  have grown : OneHeap (.str p [0] :: v :: rest) :=
    heap.addLeaf covers (placed highP) rfl rfl freshP
  have coversP : Covers (p :: used) (.str p [0] :: v :: rest) := by
    intro w member y inside
    rcases List.mem_cons.mp member with rfl | other
    · rw [inside.eq_of_leaf rfl]
      exact .head _
    · exact .tail _ (covers w other y inside)
  have distinct : q ≠ p := fun same => freshQ (same ▸ .head _)
  refine ⟨.str q [], .str p [0], [q, p], Nat.le_refl 2, ?_, ?_, ?_, ?_, ?_⟩
  · intro w member y inside
    rcases List.mem_cons.mp member with rfl | other
    · rw [inside.eq_of_leaf rfl]
      exact .head _
    · exact .tail _ (coversP w other y inside)
  · exact grown.addLeaf coversP (placed highQ) rfl rfl freshQ
  -- A string counts as the complex number zero.
  · refine rtEq_of_equal (placed highQ) placedV rfl plainV (.complex rfl object ?_ ?_ ?_)
    · rw [zero.1]; rfl
    · rw [doubleEq_symm]; exact zero.2.1
    · rw [doubleEq_symm]; exact zero.2.2
  · refine rtEq_of_equal placedV (placed highP) plainV rfl (.complex object rfl ?_ ?_ ?_)
    · rw [zero.1]; rfl
    · exact zero.2.1
    · exact zero.2.2
  · refine Bool.eq_false_iff.mpr fun equal => ?_
    rw [rtEq_iff (placed highQ) (placed highP) rfl rfl] at equal
    rcases equal with same | equal
    · exact distinct same
    · cases equal with
      | number known _ => cases known
      | complex _ _ parts _ _ => cases parts
      | items known _ _ => cases known

theorem OneHeap.addSeq {vs items : List Value} {used : List (BitVec 64)} {p : BitVec 64}
    (heap : OneHeap vs) (covers : Covers used vs)
    (within : ∀ x ∈ items, ∃ w ∈ vs, Inside x w) (fresh : p ∉ used) (high : 4096 < p.toNat)
    (aligned : p.toNat % 8 = 0) :
    OneHeap (.seq p false items :: vs) ∧ Covers (p :: used) (.seq p false items :: vs) := by
  have placed : (Value.seq p false items).Placed := ⟨fun _ => high, by rintro _ ⟨⟩; exact aligned⟩
  constructor
  · refine heap.add placed rfl (by rintro _ ⟨⟩; exact within) fun w member x inside same => ?_
    have taken := covers w member x inside
    rw [same] at taken
    exact absurd taken fresh
  · intro w member y inside
    rcases List.mem_cons.mp member with rfl | other
    · rcases inside.cases_items with rfl | ⟨found, ⟨⟩, x, member, deeper⟩
      · exact .head _
      · obtain ⟨v, outer, whole⟩ := within x member
        exact .tail _ (covers v outer y (deeper.trans whole))
    · exact .tail _ (covers w other y inside)

theorem Apart.lift {v y : Value} {rest : List Value} {used : List (BitVec 64)} {size : Nat}
    {items : List Value} (apart : Apart y (v :: rest) used size) (known : v.items? = some items)
    (member : y ∈ items) (room : used.length + size + 2 < 2 ^ 59) :
    Nonempty (Apart v rest used (size + 2)) := by
  obtain ⟨l, r, rfl⟩ := List.append_of_mem member
  obtain ⟨first, last, more, few, covers, grown, left, right, differ⟩ := apart
  obtain ⟨p, freshP, highP, alignedP⟩ :=
    exists_address (show (more ++ used).length < 2 ^ 59 by rw [List.length_append]; omega)
  obtain ⟨q, freshQ, highQ, alignedQ⟩ := exists_address
    (show (p :: (more ++ used)).length < 2 ^ 59 by
      rw [List.length_cons, List.length_append]; omega)
  have whole : v ∈ first :: last :: y :: v :: rest := .tail _ (.tail _ (.tail _ (.head _)))
  -- The heap grows by the two sequences, whose items are in it already.
  have inner {n : Value} (new : n ∈ first :: last :: y :: v :: rest) :
      ∀ x ∈ l ++ n :: r, ∃ w ∈ first :: last :: y :: v :: rest, Inside x w := by
    intro x inside
    rcases List.mem_append.mp inside with before | after
    · exact ⟨v, whole, .of_mem known (List.mem_append_left _ before)⟩
    · rcases List.mem_cons.mp after with rfl | after
      · exact ⟨x, new, .self⟩
      · exact ⟨v, whole, .of_mem known (List.mem_append_right _ (.tail _ after))⟩
  obtain ⟨second, coversP⟩ :=
    grown.addSeq covers (inner (.tail _ (.head _))) freshP highP alignedP
  obtain ⟨third, coversQ⟩ := second.addSeq coversP
    (fun x inside => have ⟨w, old, deeper⟩ := inner (.head _) x inside; ⟨w, .tail _ old, deeper⟩)
    freshQ highQ alignedQ
  have here {w : Value} (mem : w ∈ Value.seq q false (l ++ first :: r) ::
      .seq p false (l ++ last :: r) :: v :: rest) : w ∈ Value.seq q false (l ++ first :: r) ::
      .seq p false (l ++ last :: r) :: first :: last :: y :: v :: rest := by
    rcases List.mem_cons.mp mem with rfl | mem
    · exact .head _
    · rcases List.mem_cons.mp mem with rfl | mem
      · exact .tail _ (.head _)
      · exact .tail _ (.tail _ (.tail _ (.tail _ (.tail _ mem))))
  have heap := third.mono fun w mem => ⟨w, here mem, .self⟩
  have atQ := heap.placed _ (.head _) _ .self
  have atP := heap.placed _ (.tail _ (.head _)) _ .self
  have atV := heap.placed v (.tail _ (.tail _ (.head _))) v .self
  have plainV := heap.plain v (.tail _ (.tail _ (.head _))) v .self
  refine ⟨.seq q false (l ++ first :: r), .seq p false (l ++ last :: r), q :: p :: more, ?_,
    fun w mem => coversQ w (here mem), heap, ?_, ?_, ?_⟩
  · simp only [List.length_cons]
    omega
  · exact rtEq_of_equal atQ atV rfl plainV (.items rfl known (forall₂_replace left))
  · exact rtEq_of_equal atV atP plainV rfl (.items known rfl (forall₂_replace right))
  · refine Bool.eq_false_iff.mpr fun equal => ?_
    have distinct : q ≠ p := fun same => freshQ (same ▸ .head _)
    rw [rtEq_items (a := .seq q false _) (b := .seq p false _) rfl rfl atQ atP distinct] at equal
    rw [rtEq_of_forall₂ equal] at differ
    cases differ

theorem apart_of_bad {x v : Value} (inside : Inside x v) (bad : x = .int 0 ∨ ZeroComplex x) :
    ∀ {rest : List Value} {used : List (BitVec 64)}, OneHeap (v :: rest) →
      Covers used (v :: rest) → used.length + 2 * v.depth + 2 < 2 ^ 59 →
      ∃ size ≤ 2 * v.depth + 2, Nonempty (Apart v rest used size) := by
  induction inside with
  | self =>
    intro rest used heap covers room
    refine ⟨2, Nat.le_add_left _ _, ?_⟩
    rcases bad with rfl | zero
    · exact apart_zero heap covers (by omega)
    · exact apart_complex zero heap covers (by omega)
  | @item v y items known member deeper ih =>
    intro rest used heap covers room
    have below := depth_lt known member
    have within : ∀ w ∈ y :: v :: rest, ∃ u ∈ v :: rest, Inside w u := by
      intro w mem
      rcases List.mem_cons.mp mem with rfl | old
      · exact ⟨v, .head _, .of_mem known member⟩
      · exact ⟨w, old, .self⟩
    obtain ⟨size, few, ⟨apart⟩⟩ := ih (heap.mono within)
      (fun w mem z deep => have ⟨u, old, whole⟩ := within w mem; covers u old z (deep.trans whole))
      (by omega)
    exact ⟨size + 2, by omega, apart.lift known member (by omega)⟩

theorem transitive_iff_zeroless {b : Value} (heap : OneHeap [b]) (room : Room b) :
    (∀ a c, OneHeap [a, b, c] → rtEq a b = true → rtEq b c = true → rtEq a c = true) ↔
      Zeroless b := by
  constructor
  · intro transitive x inside
    obtain ⟨used, covers, few⟩ := room
    have good : ¬(x = .int 0 ∨ ZeroComplex x) := by
      intro bad
      obtain ⟨size, -, ⟨apart⟩⟩ := apart_of_bad inside bad heap covers few
      have swapped : ∀ w ∈ [apart.first, b, apart.last], w ∈ [apart.first, apart.last, b] := by
        intro w mem
        simp only [List.mem_cons, List.not_mem_nil, or_false] at mem ⊢
        exact mem.imp_right Or.symm
      have equal := transitive apart.first apart.last
        (apart.heap.mono fun w mem => ⟨w, swapped w mem, .self⟩) apart.left apart.right
      rw [apart.apart] at equal
      cases equal
    exact not_or.mp good
  · intro zeroless a c heap left right
    exact rtEq_trans heap zeroless left right

theorem rtEq_range {p q start stop step : _} {tuple : Bool} {ys : List Value}
    (heap : OneHeap [.range p start stop step, .seq q tuple ys]) :
    rtEq (.range p start stop step) (.seq q tuple ys) = true ↔
      List.Forall₂ (fun x y => rtEq x y = true) (rangeItems start stop step) ys := by
  have memberA : Value.range p start stop step ∈ [.range p start stop step, .seq q tuple ys] :=
    .head _
  have memberB : Value.seq q tuple ys ∈ [.range p start stop step, .seq q tuple ys] :=
    .tail _ (.head _)
  refine rtEq_items rfl rfl (heap.placed _ memberA _ .self) (heap.placed _ memberB _ .self) ?_
  intro same
  cases heap.same _ memberA _ memberB _ _ .self .self same

/--
Equality is reflexive and symmetric, that of a range and a sequence is that of their items, and it
is transitive through a value if and only if no zero, small or complex, is within that.
-/
theorem rtEq_equivalence_iff {b : Value} (heap : OneHeap [b]) (room : Room b) :
    rtEq b b = true ∧ (∀ a, OneHeap [a, b] → rtEq a b = rtEq b a) ∧
      (∀ p start stop step q tuple ys, b = .seq q tuple ys →
        OneHeap [.range p start stop step, b] →
        (rtEq (.range p start stop step) b = true ↔
          List.Forall₂ (fun x y => rtEq x y = true) (rangeItems start stop step) ys)) ∧
      ((∀ a c, OneHeap [a, b, c] → rtEq a b = true → rtEq b c = true → rtEq a c = true) ↔
        Zeroless b) := by
  refine ⟨rtEq_of_word rfl, ?_, ?_, transitive_iff_zeroless heap room⟩
  · intro a pair
    have swapped : OneHeap [b, a] := pair.mono fun w mem => ⟨w, by
      simp only [List.mem_cons, List.not_mem_nil, or_false] at mem ⊢
      exact mem.symm, .self⟩
    exact Bool.eq_iff_iff.mpr ⟨rtEq_symm pair, rtEq_symm swapped⟩
  · rintro p start stop step q tuple ys rfl pair
    exact rtEq_range pair

theorem OneHeap.addStr {vs : List Value} {used : List (BitVec 64)} {p : BitVec 64}
    {bytes : List (BitVec 8)} (heap : OneHeap vs) (covers : Covers used vs) (fresh : p ∉ used)
    (high : 4096 < p.toNat) :
    OneHeap (.str p bytes :: vs) ∧ Covers (p :: used) (.str p bytes :: vs) := by
  refine ⟨heap.addLeaf covers ⟨fun _ => high, nofun⟩ rfl rfl fresh, ?_⟩
  intro w member y inside
  rcases List.mem_cons.mp member with rfl | other
  · rw [inside.eq_of_leaf rfl]
    exact .head _
  · exact .tail _ (covers w other y inside)

theorem OneHeap.str {p : BitVec 64} {bytes : List (BitVec 8)} (high : 4096 < p.toNat) :
    OneHeap [.str p bytes] ∧ Covers [p] [.str p bytes] :=
  OneHeap.addStr ⟨nofun, nofun, nofun⟩ nofun List.not_mem_nil high

/-- Equality is an equivalence at a list with a string in it. -/
theorem rtEq_equivalence_iff_list :
    rtEq (.seq 12288 false [.str 8192 [97]]) (.seq 12288 false [.str 8192 [97]]) = true ∧
      ∀ a c, OneHeap [a, .seq 12288 false [.str 8192 [97]], c] →
        rtEq a (.seq 12288 false [.str 8192 [97]]) = true →
        rtEq (.seq 12288 false [.str 8192 [97]]) c = true → rtEq a c = true := by
  obtain ⟨text, known⟩ : OneHeap [.str 8192 [97]] ∧ Covers [8192] [.str 8192 [97]] :=
    OneHeap.str (by decide)
  have inner {x : Value} (inside : Inside x (.str 8192 [97])) : x = .str 8192 [97] :=
    inside.eq_of_leaf rfl
  obtain ⟨grown, covers⟩ := text.addSeq (p := 12288) known
    (fun x member => ⟨x, member, .self⟩) (by decide) (by decide) (by decide)
  have heap : OneHeap [.seq 12288 false [.str 8192 [97]]] :=
    grown.mono fun w member => ⟨w, List.mem_singleton.mp member ▸ .head _, .self⟩
  have all := rtEq_equivalence_iff heap
    ⟨[12288, 8192], fun w member => covers w (List.mem_singleton.mp member ▸ .head _), by decide⟩
  refine ⟨all.1, all.2.2.2.mpr fun x inside => ?_⟩
  rcases inside.cases_items with rfl | ⟨found, ⟨⟩, y, member, deeper⟩
  · exact ⟨nofun, fun zero => Bool.noConfusion zero.1⟩
  · obtain rfl := List.mem_singleton.mp member
    rw [inner deeper]
    exact ⟨nofun, fun zero => Bool.noConfusion zero.1⟩

/-- Two strings that differ are both equal to the complex number zero. -/
theorem rtEq_transitive_fails :
    ¬∀ a b c, OneHeap [a, b, c] → rtEq a b = true → rtEq b c = true → rtEq a c = true := by
  intro transitive
  obtain ⟨first, knownA⟩ : OneHeap [.str 8192 [97]] ∧ Covers [8192] [.str 8192 [97]] :=
    OneHeap.str (by decide)
  obtain ⟨second, knownB⟩ :
      OneHeap [.str 16384 [98], .str 8192 [97]] ∧ Covers [16384, 8192] [.str 16384 [98], _] :=
    first.addStr knownA (by decide) (by decide)
  have third : OneHeap [.complex 12288 0 0, .str 16384 [98], .str 8192 [97]] :=
    second.addLeaf knownB ⟨fun _ => by decide, by rintro _ ⟨⟩; decide⟩ rfl rfl (by decide)
  have heap : OneHeap [.str 8192 [97], .complex 12288 0 0, .str 16384 [98]] :=
    third.mono fun w member => ⟨w, by
      simp only [List.mem_cons, List.not_mem_nil, or_false] at member ⊢
      tauto, .self⟩
  have equal := transitive _ _ _ heap (rtEq_of_leaf (by decide)) (rtEq_of_leaf (by decide))
  have differ : rtEq (.str 8192 [97]) (.str 16384 [98]) = false := rtEq_of_leaf (by decide)
  rw [differ] at equal
  cases equal

end Exactness

end Nytrix.Rt
