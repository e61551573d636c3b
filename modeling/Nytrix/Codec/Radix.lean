import Mathlib.Data.Nat.Digits.Lemmas
import Nytrix.Codec.Base

/-! Bytes as numbers in any base: written with an alphabet and read back. -/

namespace Nytrix.Codec

/-- The number that bytes stand for, the first one the highest. -/
def bytesToBigint (bytes : List UInt8) : Int := bytes.foldl (fun n b => n * 256 + b.toNat) 0

/-- So many of the lowest bytes of a number, the lowest one first. -/
def lowBytes : Nat → Nat → List UInt8
  | 0, _ => []
  | count + 1, x => .ofNat (x &&& 255) :: lowBytes count (x >>> 8)

/-- The bytes of a number, the highest one first. -/
def bigintToBytes (a : Int) : List UInt8 :=
  let x := a.natAbs
  if x = 0 then [0] else (lowBytes ((Nat.log2 x + 1 + 7) / 8) x).reverse

/-- The position of a byte in an alphabet. -/
def baseNIndex (alphabet : Text) (ch : UInt8) : Option Nat := alphabet.findIdx? (· = ch)

/-- The alphabet has two bytes or more, no two the same. -/
def baseNValidAlphabet (alphabet : Text) : Bool :=
  2 ≤ alphabet.length &&
    (List.range alphabet.length).all fun i => baseNIndex alphabet (alphabet.getD i 0) = some i

/--
The digits of a number, the lowest one first.

Each turn of the loop divides the number, so that as many turns as the number says are enough.
-/
def digitsLoop (base : Nat) : Nat → Nat → List Nat
  | 0, _ => []
  | turns + 1, x =>
    if 0 < x then
      let q := x / base
      (x - q * base) :: digitsLoop base turns q
    else []

/-- The characters of digits, the highest one first. -/
def writeDigits (alphabet : Text) (digits : List Nat) : Text :=
  digits.reverse.map fun d => alphabet.getD d 0

/-- A number written with an alphabet; it must not be negative. -/
def baseNEncodeInt (n : Int) (alphabet : Text) : Option Text :=
  if baseNValidAlphabet alphabet = false ∨ n < 0 then none
  else if n = 0 then some (chr (load8 alphabet 0))
  else some (writeDigits alphabet (digitsLoop alphabet.length n.toNat n.toNat))

/-- The number that characters stand for after the digits read so far. -/
def readDigits (value : UInt8 → Option Nat) (base : Nat) : Text → Int → Option Int
  | [], n => some n
  | c :: rest, n =>
    match value c with
    | none => none
    | some d => readDigits value base rest (n * base + d)

/-- The number that a text stands for, or minus one. -/
def baseNDecodeInt (s alphabet : Text) : Int :=
  if baseNValidAlphabet alphabet = false ∨ s.length = 0 then -1
  else (readDigits (baseNIndex alphabet) alphabet.length s 0).getD (-1)

/-- Bytes written with an alphabet, where a leading zero byte is the first character. -/
def baseNEncodeBytes (bytes : List UInt8) (alphabet : Text) : Option Text :=
  if bytes.length = 0 then some []
  else if baseNValidAlphabet alphabet = false then none
  else
    let zeros := (bytes.takeWhile (· = 0)).map fun _ => alphabet.getD 0 0
    let n := bytesToBigint bytes
    if n ≠ 0 then (baseNEncodeInt n alphabet).map (zeros ++ ·) else some zeros

/-- The bytes that a text stands for, where a leading first character is a zero byte. -/
def baseNDecodeBytes (s alphabet : Text) : Option (List UInt8) :=
  if baseNValidAlphabet alphabet = false then none
  else if s.length = 0 then some []
  else
    let z := (s.takeWhile (· = alphabet.getD 0 0)).length
    let n := baseNDecodeInt s alphabet
    if n < 0 then none
    else some (List.replicate z 0 ++ if n ≠ 0 then bigintToBytes n else [])

/-- The alphabet of base 58. -/
def base58Chars : Text := ascii [
    '1', '2', '3', '4', '5', '6', '7', '8', '9', 'A', 'B', 'C', 'D', 'E', 'F', 'G', 'H', 'J', 'K',
    'L', 'M', 'N', 'P', 'Q', 'R', 'S', 'T', 'U', 'V', 'W', 'X', 'Y', 'Z', 'a', 'b', 'c', 'd', 'e',
    'f', 'g', 'h', 'i', 'j', 'k', 'm', 'n', 'o', 'p', 'q', 'r', 's', 't', 'u', 'v', 'w', 'x', 'y',
    'z']

/-- Bytes in base 58. -/
def base58EncodeBytes (bytes : List UInt8) : Text :=
  if bytes.length = 0 then []
  else
    let n := (bytesToBigint bytes).toNat
    (bytes.takeWhile (· = 0)).map (fun _ => 49) ++ writeDigits base58Chars (digitsLoop 58 n n)

/-- The value of a character of base 58; there is none for the other bytes. -/
def base58Value (c : UInt8) : Option Nat :=
  let n := c.toNat
  if 49 ≤ n ∧ n ≤ 57 then some (n - 49)
  else if 65 ≤ n ∧ n ≤ 72 then some (9 + n - 65)
  else if 74 ≤ n ∧ n ≤ 78 then some (17 + n - 74)
  else if 80 ≤ n ∧ n ≤ 90 then some (22 + n - 80)
  else if 97 ≤ n ∧ n ≤ 107 then some (33 + n - 97)
  else if 109 ≤ n ∧ n ≤ 122 then some (44 + n - 109)
  else none

/-- Base 58 read back. -/
def base58DecodeStr (s : Text) : Option (List UInt8) :=
  if s.length = 0 then some []
  else
    let z := (s.takeWhile (· = 49)).length
    (readDigits base58Value 58 s 0).map fun n =>
      List.replicate z 0 ++ if n ≠ 0 then bigintToBytes n else []

section Laws

theorem digitsLoop_eq {base : Nat} (two : 2 ≤ base) {turns x : Nat} (enough : x ≤ turns) :
    digitsLoop base turns x = Nat.digits base x := by
  induction turns generalizing x with
  | zero =>
    obtain rfl : x = 0 := Nat.le_zero.mp enough
    simp [digitsLoop]
  | succ turns ih =>
    rw [digitsLoop]
    split
    · next positive =>
      have less : x / base < x := Nat.div_lt_self positive two
      have rest : x - x / base * base = x % base := by
        rw [Nat.mul_comm, Nat.mod_eq_sub_mul_div]
      dsimp only
      rw [Nat.digits_def' two positive, rest, ih (by omega)]
    · next zero =>
      obtain rfl : x = 0 := by omega
      simp

theorem lowBytes_eq {count x : Nat} (enough : 256 ^ count ≤ x) (few : x < 256 ^ (count + 1)) :
    (lowBytes (count + 1) x).map UInt8.toNat = Nat.digits 256 x := by
  have low (x : Nat) : (UInt8.ofNat (x &&& 255)).toNat = x % 256 := by
    have bits := low_bits x 8
    simp only [Nat.reducePow, Nat.reduceSub] at bits
    rw [bits, UInt8.toNat_ofNat']
    exact Nat.mod_mod x 256
  have positive : 0 < x := Nat.lt_of_lt_of_le (Nat.pow_pos (by decide)) enough
  induction count generalizing x with
  | zero =>
    have high : x / 256 = 0 := Nat.div_eq_of_lt (by simpa using few)
    rw [Nat.digits_def' (by decide) positive, high, Nat.digits_zero]
    simp only [lowBytes, List.map_cons, List.map_nil, low]
  | succ count ih =>
    have power : 256 ^ (count + 1) = 256 * 256 ^ count := Nat.pow_succ'
    have above : 256 ^ count ≤ x / 256 := by
      rw [Nat.le_div_iff_mul_le (by decide), Nat.mul_comm, ← power]
      exact enough
    have below : x / 256 < 256 ^ (count + 1) := by
      rw [Nat.div_lt_iff_lt_mul (by decide), ← Nat.pow_succ]
      exact few
    have later := ih above below (Nat.lt_of_lt_of_le (Nat.pow_pos (by decide)) above)
    rw [Nat.digits_def' (by decide) positive, lowBytes, List.map_cons, low,
      Nat.shiftRight_eq_div_pow, ← later]

theorem bigintToBytes_digits {x : Nat} (positive : x ≠ 0) :
    (bigintToBytes x).map UInt8.toNat = (Nat.digits 256 x).reverse := by
  have count : (Nat.log2 x + 1 + 7) / 8 = Nat.log2 x / 8 + 1 := by omega
  have power (k : Nat) : 256 ^ k = 2 ^ (8 * k) := by rw [Nat.pow_mul]
  have least : 256 ^ (Nat.log2 x / 8) ≤ x := by
    rw [power]
    exact Nat.le_trans (Nat.pow_le_pow_right (by decide) (by omega)) (Nat.log2_self_le positive)
  have most : x < 256 ^ (Nat.log2 x / 8 + 1) := by
    rw [power]
    exact Nat.lt_of_lt_of_le Nat.lt_log2_self (Nat.pow_le_pow_right (by decide) (by omega))
  rw [bigintToBytes]
  simp only [Int.natAbs_natCast]
  rw [if_neg positive, count, List.map_reverse, lowBytes_eq least most]

theorem bytesToBigint_eq (bytes : List UInt8) :
    bytesToBigint bytes = (Nat.ofDigits 256 (bytes.reverse.map UInt8.toNat) : Nat) := by
  have general : ∀ digits : List UInt8, digits.foldr (fun b n => n * 256 + (b.toNat : Int)) 0 =
      (Nat.ofDigits 256 (digits.map UInt8.toNat) : Nat) := by
    intro digits
    induction digits with
    | nil => rfl
    | cons b rest ih =>
      rw [List.foldr_cons, ih, List.map_cons, Nat.ofDigits_cons]
      push_cast
      ring
  rw [← general, List.foldr_reverse, bytesToBigint]

theorem bytes_of_significant (b : UInt8) (rest : List UInt8) (nonzero : b ≠ 0) :
    bytesToBigint (b :: rest) ≠ 0 ∧ bigintToBytes (bytesToBigint (b :: rest)) = b :: rest := by
  have highest : b.toNat ≠ 0 := fun eq => nonzero (UInt8.toNat_inj.mp eq)
  have digits : Nat.digits 256 (Nat.ofDigits 256 ((b :: rest).reverse.map UInt8.toNat)) =
      (b :: rest).reverse.map UInt8.toNat := by
    refine Nat.digits_ofDigits 256 (by decide) _ ?_ ?_
    · intro d member
      obtain ⟨c, -, rfl⟩ := List.mem_map.mp member
      exact c.toNat_lt
    · simp [highest]
  rw [bytesToBigint_eq]
  generalize Nat.ofDigits 256 ((b :: rest).reverse.map UInt8.toNat) = n at digits
  have positive : n ≠ 0 := by
    rintro rfl
    simp at digits
  refine ⟨by exact_mod_cast positive, ?_⟩
  have bytes := bigintToBytes_digits positive
  rw [digits, ← List.map_reverse, List.reverse_reverse] at bytes
  exact List.map_injective_iff.mpr (fun _ _ => UInt8.toNat_inj.mp) bytes

theorem bytes_of_bigint (bytes : List UInt8) :
    List.replicate (bytes.takeWhile (· = 0)).length 0 ++
      (if bytesToBigint bytes ≠ 0 then bigintToBytes (bytesToBigint bytes) else []) = bytes := by
  induction bytes with
  | nil => rfl
  | cons b rest ih =>
    by_cases zero : b = 0
    · -- A leading zero byte does not change the number.
      subst zero
      have number : bytesToBigint (0 :: rest) = bytesToBigint rest := rfl
      rw [number, List.takeWhile_cons_of_pos (by decide), List.length_cons, List.replicate_succ,
        List.cons_append, ih]
    · obtain ⟨positive, bytes⟩ := bytes_of_significant b rest zero
      rw [List.takeWhile_cons_of_neg (by simpa using zero), if_pos positive, bytes]
      rfl

/-- The characters of an alphabet stand for their positions. -/
structure Ciphers (alphabet : Text) (value : UInt8 → Option Nat) : Prop where
  two : 2 ≤ alphabet.length
  value_eq : ∀ d < alphabet.length, value (alphabet.getD d 0) = some d

theorem Ciphers.ne_zero {alphabet : Text} {value : UInt8 → Option Nat}
    (ciphers : Ciphers alphabet value) {d : Nat} (below : d < alphabet.length) (positive : d ≠ 0) :
    alphabet.getD d 0 ≠ alphabet.getD 0 0 := by
  intro same
  have two := ciphers.two
  have first := ciphers.value_eq 0 (by omega)
  rw [← same, ciphers.value_eq d below] at first
  exact positive (Option.some.inj first)

theorem readDigits_map {alphabet : Text} {value : UInt8 → Option Nat}
    (ciphers : Ciphers alphabet value) (base : Nat) {digits : List Nat}
    (small : ∀ d ∈ digits, d < alphabet.length) (n : Int) :
    readDigits value base (digits.map fun d => alphabet.getD d 0) n =
      some (digits.foldl (fun (n : Int) (d : Nat) => n * base + d) n) := by
  induction digits generalizing n with
  | nil => rfl
  | cons d rest ih =>
    rw [List.forall_mem_cons] at small
    rw [List.map_cons, readDigits, ciphers.value_eq d small.1]
    exact ih small.2 _

theorem readDigits_written {alphabet : Text} {value : UInt8 → Option Nat}
    (ciphers : Ciphers alphabet value) (zeros n : Nat) :
    readDigits value alphabet.length (List.replicate zeros (alphabet.getD 0 0) ++
        writeDigits alphabet (Nat.digits alphabet.length n)) 0 = some (n : Int) ∧
      ((List.replicate zeros (alphabet.getD 0 0) ++
        writeDigits alphabet (Nat.digits alphabet.length n)).takeWhile
          (· = alphabet.getD 0 0)).length = zeros := by
  have two := ciphers.two
  have small : ∀ d ∈ Nat.digits alphabet.length n, d < alphabet.length :=
    fun d member => Nat.digits_lt_base (by omega) member
  refine ⟨?_, ?_⟩
  · -- The text is the one of the digits with zeros in front.
    have text : List.replicate zeros (alphabet.getD 0 0) ++
        writeDigits alphabet (Nat.digits alphabet.length n) =
        ((Nat.digits alphabet.length n ++ List.replicate zeros 0).reverse).map
          fun d => alphabet.getD d 0 := by
      rw [List.reverse_append, List.map_append, List.reverse_replicate, List.map_replicate,
        writeDigits]
    have value_of : ∀ digits : List Nat,
        digits.foldr (fun (d : Nat) (n : Int) => n * alphabet.length + d) 0 =
          (Nat.ofDigits alphabet.length digits : Nat) := by
      intro digits
      induction digits with
      | nil => rfl
      | cons d rest ih =>
        rw [List.foldr_cons, ih, Nat.ofDigits_cons]
        push_cast
        ring
    rw [text, readDigits_map ciphers, List.foldl_reverse, value_of,
      Nat.ofDigits_append_replicate_zero, Nat.ofDigits_digits]
    intro d member
    rw [List.mem_reverse, List.mem_append, List.mem_replicate] at member
    rcases member with digit | ⟨-, rfl⟩
    · exact small d digit
    · omega
  · rw [List.takeWhile_append_of_pos (by simp), List.length_append, List.length_replicate,
      Nat.add_eq_left, List.length_eq_zero_iff]
    by_cases zero : n = 0
    · subst zero
      simp [writeDigits]
    · -- The highest digit is not zero, so its character is not the first one.
      have some_digit : Nat.digits alphabet.length n ≠ [] := Nat.digits_ne_nil_iff_ne_zero.mpr zero
      have highest := Nat.getLast_digit_ne_zero alphabet.length zero
      have below := small _ (List.getLast_mem some_digit)
      rw [writeDigits, ← List.dropLast_append_getLast some_digit, List.reverse_append,
        List.reverse_singleton, List.singleton_append, List.map_cons,
        List.takeWhile_cons_of_neg]
      simpa using ciphers.ne_zero below highest

theorem ciphers_base58 : Ciphers base58Chars base58Value := ⟨by decide, by decide⟩

theorem bytesToBigint_cast (bytes : List UInt8) :
    ((bytesToBigint bytes).toNat : Int) = bytesToBigint bytes := by
  rw [bytesToBigint_eq]
  rfl

theorem written_ne_nil {alphabet : Text} {bytes : List UInt8} (two : 2 ≤ alphabet.length)
    (some_byte : bytes ≠ []) :
    (List.replicate (bytes.takeWhile (· = 0)).length (alphabet.getD 0 0) ++ writeDigits alphabet
      (Nat.digits alphabet.length (bytesToBigint bytes).toNat)).length ≠ 0 := by
  intro empty
  rw [List.length_eq_zero_iff, List.append_eq_nil_iff, List.replicate_eq_nil_iff, writeDigits,
    List.map_eq_nil_iff, List.reverse_eq_nil_iff, Nat.digits_eq_nil_iff_eq_zero] at empty
  have number := bytesToBigint_cast bytes
  have whole := bytes_of_bigint bytes
  rw [empty.2] at number
  rw [empty.1, ← number] at whole
  exact some_byte whole.symm

theorem base58DecodeStr_base58EncodeBytes (bytes : List UInt8) :
    base58DecodeStr (base58EncodeBytes bytes) = some bytes := by
  unfold base58EncodeBytes
  split
  · next empty =>
    rw [List.length_eq_zero_iff.mp empty]
    rfl
  · next nonempty =>
    have some_byte : bytes ≠ [] := fun eq => nonempty (by rw [eq]; rfl)
    have long := written_ne_nil ciphers_base58.two some_byte
    have read := readDigits_written ciphers_base58 (bytes.takeWhile (· = 0)).length
      (bytesToBigint bytes).toNat
    rw [bytesToBigint_cast] at read
    rw [← digitsLoop_eq ciphers_base58.two (Nat.le_refl _),
      show base58Chars.length = 58 from rfl, show base58Chars.getD 0 0 = 49 from rfl] at long read
    dsimp only
    rw [List.map_const', base58DecodeStr, if_neg long]
    dsimp only
    rw [read.1, read.2, Option.map_some, bytes_of_bigint]

theorem ciphers_baseN {alphabet : Text} (two : 2 ≤ alphabet.length) (distinct : alphabet.Nodup) :
    Ciphers alphabet (baseNIndex alphabet) ∧ baseNValidAlphabet alphabet = true := by
  have index (d : Nat) (below : d < alphabet.length) :
      baseNIndex alphabet (alphabet.getD d 0) = some d := by
    rw [List.getD_eq_getElem?_getD, List.getElem?_eq_getElem below, Option.getD_some, baseNIndex,
      List.findIdx?_eq_some_iff_getElem]
    refine ⟨below, by simp, ?_⟩
    intro j before
    simpa using fun same => absurd ((distinct.getElem_inj_iff).mp same) (Nat.ne_of_lt before)
  refine ⟨⟨two, index⟩, ?_⟩
  simp only [baseNValidAlphabet, Bool.and_eq_true, decide_eq_true_eq, List.all_eq_true,
    List.mem_range]
  exact ⟨two, index⟩

theorem baseNDecodeBytes_baseNEncodeBytes {alphabet : Text} (two : 2 ≤ alphabet.length)
    (distinct : alphabet.Nodup) (bytes : List UInt8) :
    ((baseNEncodeBytes bytes alphabet).bind (baseNDecodeBytes · alphabet)) = some bytes := by
  obtain ⟨ciphers, valid⟩ := ciphers_baseN two distinct
  unfold baseNEncodeBytes
  split
  · next empty =>
    rw [List.length_eq_zero_iff.mp empty]
    simp [baseNDecodeBytes, valid]
  · next nonempty =>
    have some_byte : bytes ≠ [] := fun eq => nonempty (by rw [eq]; rfl)
    have long := written_ne_nil two some_byte
    have read := readDigits_written ciphers (bytes.takeWhile (· = 0)).length
      (bytesToBigint bytes).toNat
    have cast := bytesToBigint_cast bytes
    rw [cast] at read
    -- The text is the same one where the number is zero, which has no digits.
    have text : (if bytesToBigint bytes ≠ 0 then
        (baseNEncodeInt (bytesToBigint bytes) alphabet).map
          ((bytes.takeWhile (· = 0)).map (fun _ => alphabet.getD 0 0) ++ ·)
        else some ((bytes.takeWhile (· = 0)).map fun _ => alphabet.getD 0 0)) =
        some (List.replicate (bytes.takeWhile (· = 0)).length (alphabet.getD 0 0) ++
          writeDigits alphabet (Nat.digits alphabet.length (bytesToBigint bytes).toNat)) := by
      rw [List.map_const']
      split
      · next positive =>
        rw [baseNEncodeInt, if_neg (by rw [valid]; simp; omega), if_neg positive,
          digitsLoop_eq two (Nat.le_refl _)]
        rfl
      · next zero =>
        rw [not_not.mp zero]
        simp [writeDigits]
    have number : baseNDecodeInt (List.replicate (bytes.takeWhile (· = 0)).length
        (alphabet.getD 0 0) ++ writeDigits alphabet
          (Nat.digits alphabet.length (bytesToBigint bytes).toNat)) alphabet =
        bytesToBigint bytes := by
      rw [baseNDecodeInt, if_neg, read.1, Option.getD_some]
      rintro (invalid | empty)
      · rw [valid] at invalid
        cases invalid
      · exact long empty
    have positive : ¬bytesToBigint bytes < 0 := by
      rw [← cast]
      omega
    rw [if_neg (by rw [valid]; decide)]
    dsimp only
    rw [text, Option.bind_some, baseNDecodeBytes, if_neg (by rw [valid]; decide), if_neg long]
    dsimp only
    rw [read.2, number, if_neg positive, bytes_of_bigint]

/--
Every text codec reads back what it wrote: base 64, base 32 and base 16 for every byte string, base
n for every byte list and alphabet of two bytes or more that differ, and base 58.
-/
theorem codecs_round_trip :
    (∀ s, decode64 (encode64 s) = s) ∧ (∀ s, decode64Url (encode64Url s) = s) ∧
      (∀ s, decode32 (encode32 s) = s) ∧ (∀ s, decode32Hex (encode32Hex s) = s) ∧
      (∀ s, decode16 (encode16 s) = s) ∧
      (∀ (bytes : List UInt8) (alphabet : Text), 2 ≤ alphabet.length → alphabet.Nodup →
        (baseNEncodeBytes bytes alphabet).bind (baseNDecodeBytes · alphabet) = some bytes) ∧
      ∀ bytes, base58DecodeStr (base58EncodeBytes bytes) = some bytes :=
  ⟨decode64Internal_encode64Internal coded_base64,
    decode64Internal_encode64Internal coded_base64Url,
    decode32Internal_encode32Internal coded_base32,
    decode32Internal_encode32Internal coded_base32Hex, decode16_encode16,
    fun bytes _ two distinct => baseNDecodeBytes_baseNEncodeBytes two distinct bytes,
    base58DecodeStr_base58EncodeBytes⟩

/-- Three bytes, the first of them zero, come back from text with two letters. -/
theorem codecs_round_trip_binary :
    (baseNEncodeBytes [0, 5, 255] [97, 98]).bind (baseNDecodeBytes · [97, 98]) =
      some [0, 5, 255] :=
  codecs_round_trip.2.2.2.2.2.1 [0, 5, 255] [97, 98] (by decide) (by decide)

end Laws

end Nytrix.Codec
