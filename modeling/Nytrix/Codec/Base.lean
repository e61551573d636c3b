import Nytrix.Codec.Text
import Mathlib.Algebra.Order.Ring.Int

/-! Base 16, base 32 and base 64: bytes written with an alphabet and read back. -/

namespace Nytrix.Codec

/-- The byte at a position of a string, which ends with a zero byte. -/
def load8 (s : Text) (position : Nat) : Nat := (s.getD position 0).toNat

/-- The text of one character of an alphabet. -/
def letter (alphabet : Text) (position : Nat) : Text := chr (load8 alphabet position)

/-- The byte that is stored for a number. -/
def store8 (value : Nat) : UInt8 := .ofNat value

/-- A text of ASCII characters. -/
def ascii (characters : List Char) : Text := characters.map fun c => .ofNat c.toNat

section Base64

/-- The alphabet of base 64. -/
def base64Alphabet : Text := ascii [
    'A', 'B', 'C', 'D', 'E', 'F', 'G', 'H', 'I', 'J', 'K', 'L', 'M', 'N', 'O', 'P',
    'Q', 'R', 'S', 'T', 'U', 'V', 'W', 'X', 'Y', 'Z', 'a', 'b', 'c', 'd', 'e', 'f',
    'g', 'h', 'i', 'j', 'k', 'l', 'm', 'n', 'o', 'p', 'q', 'r', 's', 't', 'u', 'v',
    'w', 'x', 'y', 'z', '0', '1', '2', '3', '4', '5', '6', '7', '8', '9', '+', '/']

/-- The alphabet of base 64 for URLs and file names. -/
def base64UrlAlphabet : Text := ascii [
    'A', 'B', 'C', 'D', 'E', 'F', 'G', 'H', 'I', 'J', 'K', 'L', 'M', 'N', 'O', 'P',
    'Q', 'R', 'S', 'T', 'U', 'V', 'W', 'X', 'Y', 'Z', 'a', 'b', 'c', 'd', 'e', 'f',
    'g', 'h', 'i', 'j', 'k', 'l', 'm', 'n', 'o', 'p', 'q', 'r', 's', 't', 'u', 'v',
    'w', 'x', 'y', 'z', '0', '1', '2', '3', '4', '5', '6', '7', '8', '9', '-', '_']

/-- The value of a character of base 64; there is none for the other bytes. -/
def b64Unmap (c : UInt8) (url : Bool) : Option Nat :=
  let n := c.toNat
  if 65 ≤ n ∧ n ≤ 90 then some (n - 65)
  else if 97 ≤ n ∧ n ≤ 122 then some (n - 71)
  else if 48 ≤ n ∧ n ≤ 57 then some (n + 4)
  else if n = (if url then 45 else 43) then some 62
  else if n = (if url then 95 else 47) then some 63
  else none

/-- How up to three bytes are written: a missing byte counts as zero. -/
def group64 (alphabet : Text) (padding : Bool) (b1 : Nat) (b2 b3 : Option Nat) : Text :=
  letter alphabet (b1 >>> 2) ++
    letter alphabet ((b1 &&& 3) <<< 4 ||| b2.getD 0 >>> 4) ++
    (if b2.isSome then letter alphabet ((b2.getD 0 &&& 15) <<< 2 ||| b3.getD 0 >>> 6)
      else if padding then [61] else []) ++
    if b3.isSome then letter alphabet (b3.getD 0 &&& 63) else if padding then [61] else []

/-- How bytes are written in base 64. -/
def encode64Internal (alphabet : Text) (padding : Bool) : Text → Text
  | [] => []
  | [a] => group64 alphabet padding a.toNat none none
  | [a, b] => group64 alphabet padding a.toNat (some b.toNat) none
  | a :: b :: c :: rest =>
    group64 alphabet padding a.toNat (some b.toNat) (some c.toNat) ++
      encode64Internal alphabet padding rest

/--
The bytes that a text in base 64 from a position on stands for.

Each turn of the loop goes at least one position further, so that as many turns as there are bytes
are enough.
-/
def decode64Loop (s : Text) (url : Bool) : Nat → Nat → Text
  | 0, _ => []
  | turns + 1, i =>
    let value := fun j => b64Unmap (s.getD j 0) url
    if s.length ≤ i then []
    else if load8 s i = 0 then []
    else
      match value i with
      | none =>
        if load8 s i = 61 then []
        else
          let skipped := (s.drop (i + 1)).takeWhile fun c => b64Unmap c url = none
          decode64Loop s url turns (i + 1 + skipped.length)
      | some c1 =>
        if s.length ≤ i + 1 then []
        else
          match value (i + 1) with
          | none => []
          | some c2 =>
            let third := if i + 2 < s.length ∧ load8 s (i + 2) ≠ 61 then value (i + 2) else none
            let fourth := if i + 3 < s.length ∧ load8 s (i + 3) ≠ 61 then value (i + 3) else none
            let more :=
              match third with
              | none => []
              | some c3 =>
                store8 ((c2 &&& 15) <<< 4 ||| c3 >>> 2) ::
                  match fourth with
                  | none => []
                  | some c4 => [store8 ((c3 &&& 3) <<< 6 ||| c4)]
            store8 (c1 <<< 2 ||| c2 >>> 4) :: more ++ decode64Loop s url turns (i + 4)

/-- The bytes that a text in base 64 stands for. -/
def decode64Internal (s : Text) (url : Bool) : Text := decode64Loop s url s.length 0

/-- Bytes in base 64. -/
def encode64 (data : Text) : Text := encode64Internal base64Alphabet true data

/-- Base 64 read back. -/
def decode64 (s : Text) : Text := decode64Internal s false

/-- Bytes in base 64 for URLs and file names. -/
def encode64Url (data : Text) : Text := encode64Internal base64UrlAlphabet true data

/-- Base 64 for URLs and file names read back. -/
def decode64Url (s : Text) : Text := decode64Internal s true

end Base64

section Base32

/-- The alphabet of base 32. -/
def base32Alphabet : Text := ascii [
    'A', 'B', 'C', 'D', 'E', 'F', 'G', 'H', 'I', 'J', 'K', 'L', 'M', 'N', 'O', 'P',
    'Q', 'R', 'S', 'T', 'U', 'V', 'W', 'X', 'Y', 'Z', '2', '3', '4', '5', '6', '7']

/-- The extended hexadecimal alphabet of base 32. -/
def base32HexAlphabet : Text := ascii [
    '0', '1', '2', '3', '4', '5', '6', '7', '8', '9', 'A', 'B', 'C', 'D', 'E', 'F',
    'G', 'H', 'I', 'J', 'K', 'L', 'M', 'N', 'O', 'P', 'Q', 'R', 'S', 'T', 'U', 'V']

/-- The value of a character of base 32; there is none for the other bytes. -/
def b32Unmap (c : UInt8) (hex : Bool) : Option Nat :=
  let n := c.toNat
  if hex then
    if 48 ≤ n ∧ n ≤ 57 then some (n - 48)
    else if 65 ≤ n ∧ n ≤ 86 then some (n - 55)
    else if 97 ≤ n ∧ n ≤ 118 then some (n - 87)
    else none
  else if 65 ≤ n ∧ n ≤ 90 then some (n - 65)
  else if 97 ≤ n ∧ n ≤ 122 then some (n - 97)
  else if 50 ≤ n ∧ n ≤ 55 then some (n - 24)
  else none

/-- How the last one to five bytes, or any five, are written: a missing byte counts as zero. -/
def group32 (alphabet : Text) (padding : Bool) (b1 : Nat) (b2 b3 b4 b5 : Option Nat) : Text :=
  let pad := fun n => if padding then List.replicate n (61 : UInt8) else []
  letter alphabet (b1 >>> 3) ++
    letter alphabet ((b1 &&& 7) <<< 2 ||| b2.getD 0 >>> 6) ++
    if b2.isSome then
      letter alphabet (b2.getD 0 >>> 1 &&& 31) ++
        letter alphabet ((b2.getD 0 &&& 1) <<< 4 ||| b3.getD 0 >>> 4) ++
        if b3.isSome then
          letter alphabet ((b3.getD 0 &&& 15) <<< 1 ||| b4.getD 0 >>> 7) ++
            if b4.isSome then
              letter alphabet (b4.getD 0 >>> 2 &&& 31) ++
                letter alphabet ((b4.getD 0 &&& 3) <<< 3 ||| b5.getD 0 >>> 5) ++
                if b5.isSome then letter alphabet (b5.getD 0 &&& 31) else pad 1
            else pad 3
        else pad 4
    else pad 6

/-- How bytes are written in base 32. -/
def encode32Internal (alphabet : Text) (padding : Bool) : Text → Text
  | [] => []
  | [a] => group32 alphabet padding a.toNat none none none none
  | [a, b] => group32 alphabet padding a.toNat (some b.toNat) none none none
  | [a, b, c] => group32 alphabet padding a.toNat (some b.toNat) (some c.toNat) none none
  | [a, b, c, d] =>
    group32 alphabet padding a.toNat (some b.toNat) (some c.toNat) (some d.toNat) none
  | a :: b :: c :: d :: e :: rest =>
    group32 alphabet padding a.toNat (some b.toNat) (some c.toNat) (some d.toNat) (some e.toNat) ++
      encode32Internal alphabet padding rest

/-- A small integer, of 63 bits. -/
abbrev SmallInt := BitVec 63

/-- A small integer shifted right, over its 64 bits and without its sign. -/
def SmallInt.shr (value : SmallInt) (count : Nat) : SmallInt :=
  ((value.signExtend 64) >>> count).setWidth 63

/-- The bytes that the rest of a text in base 32 stands for, after the bits read so far. -/
def decode32From (hex : Bool) : Text → SmallInt → Nat → Text
  | [], _, _ => []
  | c :: rest, val, bits =>
    if c.toNat = 61 then []
    else
      match b32Unmap c hex with
      | none => decode32From hex rest val bits
      | some v =>
        let val := val <<< 5 ||| BitVec.ofNat 63 v
        if 8 ≤ bits + 5 then
          store8 (SmallInt.shr val (bits + 5 - 8) &&& 255).toNat ::
            decode32From hex rest val (bits + 5 - 8)
        else decode32From hex rest val (bits + 5)

/-- The bytes that a text in base 32 stands for. -/
def decode32Internal (s : Text) (hex : Bool) : Text := decode32From hex s 0 0

/-- Bytes in base 32. -/
def encode32 (data : Text) : Text := encode32Internal base32Alphabet true data

/-- Base 32 read back. -/
def decode32 (s : Text) : Text := decode32Internal s false

/-- Bytes in base 32 with the extended hexadecimal alphabet. -/
def encode32Hex (data : Text) : Text := encode32Internal base32HexAlphabet true data

/-- Base 32 with the extended hexadecimal alphabet read back. -/
def decode32Hex (s : Text) : Text := decode32Internal s true

end Base32

section Base16

/-- The alphabet of base 16. -/
def base16Alphabet : Text := ascii [
    '0', '1', '2', '3', '4', '5', '6', '7', '8', '9', 'A', 'B', 'C', 'D', 'E', 'F']

/-- The value of a hexadecimal digit; there is none for the other bytes. -/
def baseHexUnmap (c : UInt8) : Option Nat :=
  let n := c.toNat
  if 48 ≤ n ∧ n ≤ 57 then some (n - 48)
  else if 65 ≤ n ∧ n ≤ 70 then some (n - 55)
  else if 97 ≤ n ∧ n ≤ 102 then some (n - 87)
  else none

/-- Bytes in base 16. -/
def encode16 (data : Text) : Text :=
  data.flatMap fun b =>
    letter base16Alphabet (b.toNat >>> 4) ++ letter base16Alphabet (b.toNat &&& 15)

/-- Base 16 read back; pairs that are no digits are skipped. -/
def decode16 : Text → Text
  | c1 :: c2 :: rest =>
    match baseHexUnmap c1, baseHexUnmap c2 with
    | some v1, some v2 => store8 (v1 <<< 4 ||| v2) :: decode16 rest
    | _, _ => decode16 rest
  | _ => []

end Base16

section Laws

/-- The characters of an alphabet stand for their positions, and the padding for nothing. -/
structure Coded (alphabet : Text) (unmap : UInt8 → Option Nat) (size : Nat) : Prop where
  letter_eq : ∀ v < size, letter alphabet v = [alphabet.getD v 0]
  unmap_eq : ∀ v < size, unmap (alphabet.getD v 0) = some v
  padding : unmap 61 = none
  zero : unmap 0 = none

theorem coded_base64 : Coded base64Alphabet (b64Unmap · false) 64 :=
  ⟨by decide, by decide, by decide, by decide⟩

theorem coded_base64Url : Coded base64UrlAlphabet (b64Unmap · true) 64 :=
  ⟨by decide, by decide, by decide, by decide⟩

theorem coded_base32 : Coded base32Alphabet (b32Unmap · false) 32 :=
  ⟨by decide, by decide, by decide, by decide⟩

theorem coded_base32Hex : Coded base32HexAlphabet (b32Unmap · true) 32 :=
  ⟨by decide, by decide, by decide, by decide⟩

theorem coded_base16 : Coded base16Alphabet baseHexUnmap 16 :=
  ⟨by decide, by decide, by decide, by decide⟩

theorem pack {k y : Nat} (x : Nat) (below : y < 2 ^ k) : x <<< k ||| y = x * 2 ^ k + y := by
  rw [← Nat.shiftLeft_add_eq_or_of_lt below, Nat.shiftLeft_eq]

theorem low_bits (x k : Nat) : x &&& (2 ^ k - 1) = x % 2 ^ k := Nat.and_two_pow_sub_one_eq_mod x k

theorem store8_toNat (a : UInt8) : store8 a.toNat = a := UInt8.ofNat_toNat

section Groups64

variable {b1 b2 b3 : Nat} (small1 : b1 < 256) (small2 : b2 < 256) (small3 : b3 < 256)

include small1 small2 in
/-- The values that a first and a second byte are written as give the first byte. -/
theorem first_byte64 :
    b1 >>> 2 < 64 ∧ ((b1 &&& 3) <<< 4 ||| b2 >>> 4) < 64 ∧
      (b1 >>> 2) <<< 2 ||| ((b1 &&& 3) <<< 4 ||| b2 >>> 4) >>> 4 = b1 := by
  have two := low_bits b1 2
  simp only [Nat.reducePow, Nat.reduceSub] at two
  simp only [Nat.shiftRight_eq_div_pow, two]
  rw [pack (b1 % 4) (show b2 / 2 ^ 4 < 2 ^ 4 by omega)]
  rw [pack (b1 / 2 ^ 2) (by omega)]
  omega

include small2 small3 in
/-- The values that a second and a third byte are written as give the second byte. -/
theorem second_byte64 :
    ((b2 &&& 15) <<< 2 ||| b3 >>> 6) < 64 ∧
      (((b1 &&& 3) <<< 4 ||| b2 >>> 4) &&& 15) <<< 4 |||
        ((b2 &&& 15) <<< 2 ||| b3 >>> 6) >>> 2 = b2 := by
  have two := low_bits b1 2
  have four := fun x => low_bits x 4
  simp only [Nat.reducePow, Nat.reduceSub] at two four
  simp only [Nat.shiftRight_eq_div_pow, two, four]
  rw [pack (b1 % 4) (show b2 / 2 ^ 4 < 2 ^ 4 by omega),
    pack (b2 % 16) (show b3 / 2 ^ 6 < 2 ^ 2 by omega), pack _ (by omega)]
  omega

include small3 in
/-- The values that a third byte is written as give it. -/
theorem third_byte64 :
    b3 &&& 63 < 64 ∧
      (((b2 &&& 15) <<< 2 ||| b3 >>> 6) &&& 3) <<< 6 ||| (b3 &&& 63) = b3 := by
  have two := fun x => low_bits x 2
  have four := low_bits b2 4
  have six := low_bits b3 6
  simp only [Nat.reducePow, Nat.reduceSub] at two four six
  simp only [Nat.shiftRight_eq_div_pow, two, four, six]
  rw [pack (b2 % 16) (show b3 / 2 ^ 6 < 2 ^ 2 by omega), pack _ (by omega)]
  omega

end Groups64

theorem decode64Loop_step {s rest : Text} {url : Bool} {i turns v1 v2 : Nat} {c1 c2 c3 c4 : UInt8}
    (zero : b64Unmap 0 url = none) (padding : b64Unmap 61 url = none)
    (left : s.drop i = c1 :: c2 :: c3 :: c4 :: rest) (first : b64Unmap c1 url = some v1)
    (second : b64Unmap c2 url = some v2) :
    decode64Loop s url (turns + 1) i =
      store8 (v1 <<< 2 ||| v2 >>> 4) ::
        (match b64Unmap c3 url with
          | none => []
          | some v3 =>
            store8 ((v2 &&& 15) <<< 4 ||| v3 >>> 2) ::
              match b64Unmap c4 url with
              | none => []
              | some v4 => [store8 ((v3 &&& 3) <<< 6 ||| v4)]) ++
        decode64Loop s url turns (i + 4) := by
  have length : s.length = i + (4 + rest.length) := by
    have lengths := congrArg List.length left
    simp only [List.length_drop, List.length_cons] at lengths
    omega
  have at_ (k : Nat) : s.getD (i + k) 0 = (c1 :: c2 :: c3 :: c4 :: rest).getD k 0 := by
    rw [← left, List.getD_eq_getElem?_getD, List.getD_eq_getElem?_getD, List.getElem?_drop]
  have one : s.getD i 0 = c1 := at_ 0
  have two : s.getD (i + 1) 0 = c2 := at_ 1
  have three : s.getD (i + 2) 0 = c3 := at_ 2
  have four : s.getD (i + 3) 0 = c4 := at_ 3
  have nonzero : c1.toNat ≠ 0 := by
    intro eq
    rw [show c1 = 0 from UInt8.toNat_inj.mp eq, zero] at first
    cases first
  -- The padding has no value, so a character that is padding is passed over like one without.
  have plain (c : UInt8) : (if c.toNat ≠ 61 then b64Unmap c url else none) = b64Unmap c url := by
    split
    · rfl
    · next pad =>
      rw [show c = 61 from UInt8.toNat_inj.mp (not_not.mp pad), padding]
  rw [decode64Loop]
  simp only [load8, one, two, three, four, first, second, if_neg nonzero, length,
    if_neg (show ¬i + (4 + rest.length) ≤ i by omega),
    if_neg (show ¬i + (4 + rest.length) ≤ i + 1 by omega),
    show i + 2 < i + (4 + rest.length) by omega, show i + 3 < i + (4 + rest.length) by omega,
    true_and, plain]

theorem decode64Loop_end {s : Text} {url : Bool} {i : Nat} (turns : Nat) (left : s.drop i = []) :
    decode64Loop s url turns i = [] := by
  cases turns with
  | zero => rfl
  | succ turns =>
    rw [decode64Loop]
    simp only [if_pos (List.drop_eq_nil_iff.mp left)]

theorem decode64Internal_encode64Internal {alphabet : Text} {url : Bool}
    (coded : Coded alphabet (b64Unmap · url) 64) (data : Text) :
    decode64Internal (encode64Internal alphabet true data) url = data := by
  -- The induction follows the groups of three bytes; a group takes one turn of the reader.
  have general : ∀ (s : Text) (turns i : Nat), s.drop i = encode64Internal alphabet true data →
      (encode64Internal alphabet true data).length ≤ turns →
      decode64Loop s url turns i = data := by
    have zero : (0 : Nat) < 256 := by decide
    induction data using encode64Internal.induct with
    | case1 => exact fun s turns i left _ => decode64Loop_end turns left
    | case2 a =>
      intro s turns i left enough
      obtain ⟨below1, below2, byte1⟩ := first_byte64 a.toNat_lt zero
      simp only [encode64Internal, group64, Option.getD_none, Option.isSome_none,
        Bool.false_eq_true, if_false, if_true, coded.letter_eq _ below1,
        coded.letter_eq _ below2, List.cons_append, List.nil_append] at left enough
      obtain ⟨turns, rfl⟩ : ∃ k, turns = k + 1 := Nat.exists_eq_succ_of_ne_zero (by
        rintro rfl
        cases enough)
      rw [decode64Loop_step coded.zero coded.padding left (coded.unmap_eq _ below1)
        (coded.unmap_eq _ below2), coded.padding, byte1, store8_toNat,
        decode64Loop_end turns (by rw [← List.drop_drop, left]; rfl)]
      rfl
    | case3 a b =>
      intro s turns i left enough
      obtain ⟨below1, below2, byte1⟩ := first_byte64 a.toNat_lt b.toNat_lt
      obtain ⟨below3, byte2⟩ := @second_byte64 a.toNat _ _ b.toNat_lt zero
      simp only [encode64Internal, group64, Option.getD_none, Option.getD_some, Option.isSome_none,
        Option.isSome_some, Bool.false_eq_true, if_false, if_true, coded.letter_eq _ below1,
        coded.letter_eq _ below2, coded.letter_eq _ below3, List.cons_append, List.nil_append]
        at left enough
      obtain ⟨turns, rfl⟩ : ∃ k, turns = k + 1 := Nat.exists_eq_succ_of_ne_zero (by
        rintro rfl
        cases enough)
      rw [decode64Loop_step coded.zero coded.padding left (coded.unmap_eq _ below1)
        (coded.unmap_eq _ below2), coded.unmap_eq _ below3, byte1, store8_toNat,
        decode64Loop_end turns (by rw [← List.drop_drop, left]; rfl)]
      simp only [coded.padding, byte2, store8_toNat, List.append_nil]
    | case4 a b c rest ih =>
      intro s turns i left enough
      obtain ⟨below1, below2, byte1⟩ := first_byte64 a.toNat_lt b.toNat_lt
      obtain ⟨below3, byte2⟩ := @second_byte64 a.toNat _ _ b.toNat_lt c.toNat_lt
      obtain ⟨below4, byte3⟩ := @third_byte64 b.toNat _ c.toNat_lt
      simp only [encode64Internal, group64, Option.getD_some, Option.isSome_some, if_true,
        coded.letter_eq _ below1, coded.letter_eq _ below2, coded.letter_eq _ below3,
        coded.letter_eq _ below4, List.cons_append, List.nil_append] at left enough
      obtain ⟨turns, rfl⟩ : ∃ k, turns = k + 1 := Nat.exists_eq_succ_of_ne_zero (by
        rintro rfl
        cases enough)
      rw [decode64Loop_step coded.zero coded.padding left (coded.unmap_eq _ below1)
        (coded.unmap_eq _ below2), coded.unmap_eq _ below3, byte1, store8_toNat,
        ih s turns (i + 4) (by rw [← List.drop_drop, left]; rfl)
          (by simp only [List.length_cons] at enough; omega)]
      simp only [coded.unmap_eq _ below4, byte2, byte3, store8_toNat, List.cons_append,
        List.nil_append]
  exact general _ _ 0 (List.drop_zero) (Nat.le_refl _)

/-- The bytes that values of five bits stand for, after pending bits. -/
def unpack : List Nat → Nat → Nat → List Nat
  | [], _, _ => []
  | v :: rest, pending, bits =>
    if 8 ≤ bits + 5 then
      (pending * 32 + v) / 2 ^ (bits - 3) ::
        unpack rest ((pending * 32 + v) % 2 ^ (bits - 3)) (bits - 3)
    else unpack rest (pending * 32 + v) (bits + 5)

theorem toNat_shl_or (val : SmallInt) {v : Nat} (small : v < 32) :
    (val <<< 5 ||| BitVec.ofNat 63 v).toNat = val.toNat % 2 ^ 58 * 32 + v := by
  rw [BitVec.toNat_or, BitVec.toNat_shiftLeft, BitVec.toNat_ofNat,
    Nat.mod_eq_of_lt (show v < 2 ^ 63 by omega), Nat.shiftLeft_eq,
    show 2 ^ 63 = 2 ^ 58 * 2 ^ 5 from rfl, Nat.mul_mod_mul_right, ← Nat.shiftLeft_eq,
    pack _ small, Nat.shiftLeft_eq]

theorem toNat_shr_and (val : SmallInt) {count : Nat} (few : count ≤ 4) :
    (SmallInt.shr val count &&& 255).toNat = val.toNat / 2 ^ count % 256 := by
  have low := low_bits (((val.signExtend 64) >>> count).setWidth 63).toNat 8
  simp only [Nat.reducePow, Nat.reduceSub] at low
  have below := val.isLt
  rw [SmallInt.shr, BitVec.toNat_and, show (255 : SmallInt).toNat = 255 from rfl, low,
    BitVec.toNat_setWidth, BitVec.toNat_ushiftRight, Nat.shiftRight_eq_div_pow,
    BitVec.toNat_signExtend, BitVec.toNat_setWidth,
    Nat.mod_eq_of_lt (show val.toNat < 2 ^ 64 by omega)]
  -- The sign is copied to the highest bit only, far above the byte.
  split
  · rcases count with _ | _ | _ | _ | _ | count <;> omega
  · rcases count with _ | _ | _ | _ | _ | count <;> omega

theorem decode32From_letters {alphabet : Text} {hex : Bool}
    (coded : Coded alphabet (b32Unmap · hex) 32) (values : List Nat)
    (small : ∀ v ∈ values, v < 32) {rest : Text} (ends : rest.head? = none ∨ rest.head? = some 61)
    (val : SmallInt) (bits : Nat) (few : bits ≤ 7) :
    decode32From hex (values.flatMap (letter alphabet) ++ rest) val bits =
      (unpack values (val.toNat % 2 ^ bits) bits).map store8 := by
  induction values generalizing val bits with
  | nil =>
    cases rest with
    | nil => rfl
    | cons c rest =>
      obtain rfl : c = 61 := by simpa using ends
      rfl
  | cons v values ih =>
    rw [List.forall_mem_cons] at small
    have value := coded.unmap_eq v small.1
    have padding : (alphabet.getD v 0).toNat ≠ 61 := by
      intro eq
      rw [show alphabet.getD v 0 = 61 from UInt8.toNat_inj.mp eq, coded.padding] at value
      cases value
    have sum := toNat_shl_or val small.1
    have below := small.1
    rw [List.flatMap_cons, coded.letter_eq v small.1, List.append_assoc, List.singleton_append,
      decode32From, if_neg padding]
    simp only [value]
    rw [unpack]
    split
    · next more =>
      -- Eight bits or more are there: the highest eight are stored and the others stay.
      obtain ⟨count, rfl⟩ := Nat.exists_eq_add_of_le (show 3 ≤ bits by omega)
      rw [show 3 + count + 5 - 8 = count by omega, show 3 + count - 3 = count by omega,
        ih small.2 _ _ (by omega), toNat_shr_and _ (by omega), sum, List.map_cons]
      have byte : (val.toNat % 2 ^ 58 * 32 + v) / 2 ^ count % 256 =
          (val.toNat % 2 ^ (3 + count) * 32 + v) / 2 ^ count := by
        rcases count with _ | _ | _ | _ | _ | count <;> omega
      have pending : (val.toNat % 2 ^ 58 * 32 + v) % 2 ^ count =
          (val.toNat % 2 ^ (3 + count) * 32 + v) % 2 ^ count := by
        rcases count with _ | _ | _ | _ | _ | count <;> omega
      rw [byte, pending]
    · next fewer =>
      rw [ih small.2 _ _ (by omega), sum]
      have pending : (val.toNat % 2 ^ 58 * 32 + v) % 2 ^ (bits + 5) =
          val.toNat % 2 ^ bits * 32 + v := by
        rcases bits with _ | _ | _ | bits <;> omega
      rw [pending]

/-- The five-bit values that bytes are written as. -/
def values32 : Text → List Nat
  | [] => []
  | [a] => [a.toNat / 8, a.toNat % 8 * 4]
  | [a, b] =>
    [a.toNat / 8, a.toNat % 8 * 4 + b.toNat / 64, b.toNat / 2 % 32, b.toNat % 2 * 16]
  | [a, b, c] =>
    [a.toNat / 8, a.toNat % 8 * 4 + b.toNat / 64, b.toNat / 2 % 32, b.toNat % 2 * 16 + c.toNat / 16,
      c.toNat % 16 * 2]
  | [a, b, c, d] =>
    [a.toNat / 8, a.toNat % 8 * 4 + b.toNat / 64, b.toNat / 2 % 32, b.toNat % 2 * 16 + c.toNat / 16,
      c.toNat % 16 * 2 + d.toNat / 128, d.toNat / 4 % 32, d.toNat % 4 * 8]
  | a :: b :: c :: d :: e :: rest =>
    a.toNat / 8 :: (a.toNat % 8 * 4 + b.toNat / 64) :: (b.toNat / 2 % 32) ::
      (b.toNat % 2 * 16 + c.toNat / 16) :: (c.toNat % 16 * 2 + d.toNat / 128) ::
      (d.toNat / 4 % 32) :: (d.toNat % 4 * 8 + e.toNat / 32) :: (e.toNat % 32) :: values32 rest

theorem straddles32 (x : Nat) {y : Nat} (small : y < 256) :
    (x &&& 7) <<< 2 ||| y >>> 6 = x % 8 * 4 + y / 64 ∧
      (x &&& 1) <<< 4 ||| y >>> 4 = x % 2 * 16 + y / 16 ∧
      (x &&& 15) <<< 1 ||| y >>> 7 = x % 16 * 2 + y / 128 ∧
      (x &&& 3) <<< 3 ||| y >>> 5 = x % 4 * 8 + y / 32 := by
  have seven : x &&& 7 = x % 8 := low_bits x 3
  have one : x &&& 1 = x % 2 := low_bits x 1
  have fifteen : x &&& 15 = x % 16 := low_bits x 4
  have three : x &&& 3 = x % 4 := low_bits x 2
  have by6 : y >>> 6 = y / 64 := Nat.shiftRight_eq_div_pow y 6
  have by4 : y >>> 4 = y / 16 := Nat.shiftRight_eq_div_pow y 4
  have by7 : y >>> 7 = y / 128 := Nat.shiftRight_eq_div_pow y 7
  have by5 : y >>> 5 = y / 32 := Nat.shiftRight_eq_div_pow y 5
  rw [seven, one, fifteen, three, by6, by4, by7, by5]
  exact ⟨pack (k := 2) _ (show y / 64 < 4 by omega), pack (k := 4) _ (show y / 16 < 16 by omega),
    pack (k := 1) _ (show y / 128 < 2 by omega), pack (k := 3) _ (show y / 32 < 8 by omega)⟩

theorem inside32 (x : Nat) :
    x >>> 3 = x / 8 ∧ x >>> 1 &&& 31 = x / 2 % 32 ∧ x >>> 2 &&& 31 = x / 4 % 32 ∧
      x &&& 31 = x % 32 := by
  have low := fun x => low_bits x 5
  simp only [Nat.reducePow, Nat.reduceSub] at low
  simp only [low, Nat.shiftRight_eq_div_pow, Nat.reducePow, and_self]

theorem encode32Internal_eq (alphabet data : Text) :
    ∃ rest : Text, (rest.head? = none ∨ rest.head? = some 61) ∧
      encode32Internal alphabet true data = (values32 data).flatMap (letter alphabet) ++ rest := by
  have plain := fun x : Nat => (inside32 x).1
  have second := fun x : Nat => (inside32 x).2.1
  have fourth := fun x : Nat => (inside32 x).2.2.1
  have last := fun x : Nat => (inside32 x).2.2.2
  have straddle2 := fun (x : Nat) (y : UInt8) => (straddles32 x y.toNat_lt).1
  have straddle4 := fun (x : Nat) (y : UInt8) => (straddles32 x y.toNat_lt).2.1
  have straddle5 := fun (x : Nat) (y : UInt8) => (straddles32 x y.toNat_lt).2.2.1
  have straddle7 := fun (x : Nat) (y : UInt8) => (straddles32 x y.toNat_lt).2.2.2
  have end2 := fun x : Nat => (straddles32 x (show 0 < 256 by decide)).1
  have end4 := fun x : Nat => (straddles32 x (show 0 < 256 by decide)).2.1
  have end5 := fun x : Nat => (straddles32 x (show 0 < 256 by decide)).2.2.1
  have end7 := fun x : Nat => (straddles32 x (show 0 < 256 by decide)).2.2.2
  simp only [Nat.zero_div, Nat.add_zero] at end2 end4 end5 end7
  induction data using encode32Internal.induct with
  | case1 => exact ⟨[], .inl rfl, rfl⟩
  | case2 a =>
    refine ⟨List.replicate 6 61, .inr rfl, ?_⟩
    simp only [encode32Internal, group32, values32, Option.getD_none, Option.isSome_none,
      Bool.false_eq_true, if_true, if_false, plain, end2, List.flatMap_cons, List.flatMap_nil,
      List.append_assoc, List.nil_append]
  | case3 a b =>
    refine ⟨List.replicate 4 61, .inr rfl, ?_⟩
    simp only [encode32Internal, group32, values32, Option.getD_some, Option.getD_none,
      Option.isSome_some, Option.isSome_none, Bool.false_eq_true, if_true, if_false, plain, second,
      straddle2, end4, List.flatMap_cons, List.flatMap_nil, List.append_assoc, List.nil_append]
  | case4 a b c =>
    refine ⟨List.replicate 3 61, .inr rfl, ?_⟩
    simp only [encode32Internal, group32, values32, Option.getD_some, Option.getD_none,
      Option.isSome_some, Option.isSome_none, Bool.false_eq_true, if_true, if_false, plain, second,
      straddle2, straddle4, end5, List.flatMap_cons, List.flatMap_nil, List.append_assoc,
      List.nil_append]
  | case5 a b c d =>
    refine ⟨List.replicate 1 61, .inr rfl, ?_⟩
    simp only [encode32Internal, group32, values32, Option.getD_some, Option.getD_none,
      Option.isSome_some, Option.isSome_none, Bool.false_eq_true, if_true, if_false, plain, second,
      fourth, straddle2, straddle4, straddle5, end7, List.flatMap_cons, List.flatMap_nil,
      List.append_assoc, List.nil_append]
  | case6 a b c d e rest ih =>
    obtain ⟨pad, ends, eq⟩ := ih
    refine ⟨pad, ends, ?_⟩
    simp only [encode32Internal, group32, values32, Option.getD_some, Option.isSome_some, if_true,
      plain, second, fourth, last, straddle2, straddle4, straddle5, straddle7, eq,
      List.flatMap_cons, List.append_assoc]

theorem values32_small (data : Text) : ∀ v ∈ values32 data, v < 32 := by
  have byte (a : UInt8) : a.toNat < 256 := a.toNat_lt
  induction data using values32.induct with
  | case1 => simp [values32]
  | case2 a =>
    have := byte a
    simp only [values32, List.forall_mem_cons]
    exact ⟨by omega, by omega, by simp⟩
  | case3 a b =>
    have := byte a
    have := byte b
    simp only [values32, List.forall_mem_cons]
    exact ⟨by omega, by omega, by omega, by omega, by simp⟩
  | case4 a b c =>
    have := byte a
    have := byte b
    have := byte c
    simp only [values32, List.forall_mem_cons]
    exact ⟨by omega, by omega, by omega, by omega, by omega, by simp⟩
  | case5 a b c d =>
    have := byte a
    have := byte b
    have := byte c
    have := byte d
    simp only [values32, List.forall_mem_cons]
    exact ⟨by omega, by omega, by omega, by omega, by omega, by omega, by omega, by simp⟩
  | case6 a b c d e rest ih =>
    have := byte a
    have := byte b
    have := byte c
    have := byte d
    have := byte e
    simp only [values32, List.forall_mem_cons]
    exact ⟨by omega, by omega, by omega, by omega, by omega, by omega, by omega, by omega, ih⟩

theorem regroup32 (x y : Nat) (small : x < 256) :
    x / 8 * 32 + (x % 8 * 4 + y) = x * 4 + y ∧
      (x / 64 * 32 + x / 2 % 32) * 32 + (x % 2 * 16 + y) = x * 16 + y ∧
      x / 16 * 32 + (x % 16 * 2 + y) = x * 2 + y ∧
      (x / 128 * 32 + x / 4 % 32) * 32 + (x % 4 * 8 + y) = x * 8 + y ∧
      x / 32 * 32 + x % 32 = x := by
  refine ⟨by omega, by omega, by omega, by omega, by omega⟩

theorem cut (x : Nat) {k y : Nat} (small : y < k) : (x * k + y) / k = x ∧ (x * k + y) % k = y := by
  rw [Nat.mul_comm, Nat.mul_add_div (by omega), Nat.div_eq_of_lt small, Nat.mul_add_mod,
    Nat.mod_eq_of_lt small]
  exact ⟨rfl, rfl⟩

theorem unpack_values32 (data : Text) : unpack (values32 data) 0 0 = data.map UInt8.toNat := by
  have byte (a : UInt8) : a.toNat < 256 := a.toNat_lt
  have first (a b : UInt8) := (regroup32 a.toNat (b.toNat / 64) (byte a)).1
  have second (b c : UInt8) := (regroup32 b.toNat (c.toNat / 16) (byte b)).2.1
  have third (c d : UInt8) := (regroup32 c.toNat (d.toNat / 128) (byte c)).2.2.1
  have fourth (d e : UInt8) := (regroup32 d.toNat (e.toNat / 32) (byte d)).2.2.2.1
  have fifth (e : UInt8) := (regroup32 e.toNat 0 (byte e)).2.2.2.2
  have cut4 (a b : UInt8) := cut a.toNat (show b.toNat / 64 < 4 by have := byte b; omega)
  have cut16 (b c : UInt8) := cut b.toNat (show c.toNat / 16 < 16 by have := byte c; omega)
  have cut2 (c d : UInt8) := cut c.toNat (show d.toNat / 128 < 2 by have := byte d; omega)
  have cut8 (d e : UInt8) := cut d.toNat (show e.toNat / 32 < 8 by have := byte e; omega)
  have zero : (0 : UInt8).toNat = 0 := rfl
  have last4 (a : UInt8) := cut4 a 0
  have last16 (b : UInt8) := cut16 b 0
  have last2 (c : UInt8) := cut2 c 0
  have last8 (d : UInt8) := cut8 d 0
  have first' (a : UInt8) := first a 0
  have second' (b : UInt8) := second b 0
  have third' (c : UInt8) := third c 0
  have fourth' (d : UInt8) := fourth d 0
  simp only [zero, Nat.zero_div, Nat.add_zero] at last4 last16 last2 last8 first' second' third' fourth'
  induction data using values32.induct with
  | case1 => rfl
  | case2 a => simp [values32, unpack, first', last4]
  | case3 a b => simp [values32, unpack, first, second', cut4, last16]
  | case4 a b c => simp [values32, unpack, first, second, third', cut4, cut16, last2]
  | case5 a b c d =>
    simp [values32, unpack, first, second, third, fourth', cut4, cut16, cut2, last8]
  | case6 a b c d e rest ih =>
    simp [values32, unpack, first, second, third, fourth, fifth, cut4, cut16, cut2, cut8,
      Nat.mod_one, ih]

theorem decode32Internal_encode32Internal {alphabet : Text} {hex : Bool}
    (coded : Coded alphabet (b32Unmap · hex) 32) (data : Text) :
    decode32Internal (encode32Internal alphabet true data) hex = data := by
  obtain ⟨rest, ends, written⟩ := encode32Internal_eq alphabet data
  rw [decode32Internal, written,
    decode32From_letters coded _ (values32_small data) ends 0 0 (by decide)]
  show (unpack (values32 data) 0 0).map store8 = data
  rw [unpack_values32, List.map_map]
  exact (List.map_congr_left fun a _ => store8_toNat a).trans (List.map_id data)

theorem decode16_encode16 (data : Text) : decode16 (encode16 data) = data := by
  induction data with
  | nil => rfl
  | cons a rest ih =>
    have byte : a.toNat < 256 := a.toNat_lt
    have low := low_bits a.toNat 4
    simp only [Nat.reducePow, Nat.reduceSub] at low
    have high : a.toNat >>> 4 = a.toNat / 16 := Nat.shiftRight_eq_div_pow _ 4
    have first : a.toNat / 16 < 16 := by omega
    have second : a.toNat % 16 < 16 := by omega
    have whole : (a.toNat / 16) <<< 4 ||| a.toNat % 16 = a.toNat := by
      rw [pack _ second]
      omega
    rw [encode16, List.flatMap_cons, high, low, coded_base16.letter_eq _ first,
      coded_base16.letter_eq _ second, List.append_assoc, List.singleton_append,
      List.singleton_append, decode16, coded_base16.unmap_eq _ first,
      coded_base16.unmap_eq _ second]
    simp only [whole, store8_toNat]
    exact congrArg (a :: ·) ih

end Laws

end Nytrix.Codec
