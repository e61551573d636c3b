import Nytrix.Lib.Stateful
import Mathlib.Algebra.Order.Ring.Int
import Mathlib.Data.List.TakeWhile

/-! Byte streams: little-endian numbers, C strings, and readers that take back what was written. -/

namespace Nytrix.Lib

/-- The low bytes of a number, the least significant first. -/
def leBytes : Nat → Nat → List UInt8
  | 0, _ => []
  | width + 1, n => UInt8.ofNat n :: leBytes width (n / 256)

/-- The number that bytes stand for, the least significant first. -/
def leNat : List UInt8 → Nat
  | [] => 0
  | byte :: rest => byte.toNat + 256 * leNat rest

@[simp] theorem leBytes_length (width n : Nat) : (leBytes width n).length = width := by
  induction width generalizing n with
  | zero => rfl
  | succ width ih => simp [leBytes, ih]

theorem leNat_leBytes {width n : Nat} (fits : n < 256 ^ width) : leNat (leBytes width n) = n := by
  induction width generalizing n with
  | zero =>
    simp only [Nat.pow_zero, Nat.lt_one_iff] at fits
    simp [leBytes, leNat, fits]
  | succ width ih =>
    -- The first byte is the remainder, and the others stand for the quotient.
    have quotient : n / 256 < 256 ^ width := by
      rw [Nat.pow_succ] at fits
      omega
    simp only [leBytes, leNat, ih quotient, UInt8.toNat_ofNat']
    omega

/-- The bytes of a C string, each character standing for one byte. -/
def stringBytes (s : String) : List UInt8 := s.toList.map fun c => UInt8.ofNat c.toNat

/-- The C string in a buffer, which ends at the first zero byte. -/
def cString (bytes : List UInt8) : String :=
  String.ofList ((bytes.takeWhile (· ≠ 0)).map fun byte => Char.ofNat byte.toNat)

/-- The characters are bytes other than the terminator. -/
def IsCString (s : String) : Prop := ∀ c ∈ s.toList, 0 < c.toNat ∧ c.toNat < 256

instance (s : String) : Decidable (IsCString s) :=
  List.decidableBAll (fun c : Char => 0 < c.toNat ∧ c.toNat < 256) s.toList

@[simp] theorem stringBytes_length (s : String) : (stringBytes s).length = s.length := by
  simp [stringBytes, String.length_toList]

theorem cString_stringBytes {s : String} (proper : IsCString s) : cString (stringBytes s) = s := by
  -- No character is the terminator, so the whole buffer counts, and each byte is its character.
  have whole : (stringBytes s).takeWhile (· ≠ 0) = stringBytes s := by
    refine List.takeWhile_eq_self_iff.mpr ?_
    intro byte member
    obtain ⟨c, inside, rfl⟩ := List.mem_map.mp member
    obtain ⟨positive, small⟩ := proper c inside
    rw [decide_eq_true_eq, Ne, ← UInt8.toNat_inj, UInt8.toNat_ofNat_of_lt' small]
    exact Nat.ne_of_gt positive
  have each : s.toList.map (fun c => Char.ofNat (UInt8.ofNat c.toNat).toNat) = s.toList := by
    refine (List.map_congr_left fun c inside => ?_).trans (List.map_id _)
    rw [UInt8.toNat_ofNat_of_lt' (proper c inside).2]
    exact Char.ofNat_toNat c
  rw [cString, whole, stringBytes, List.map_map]
  exact (congrArg String.ofList each).trans (String.ofList_toList)

variable {ε α β : Type}

/-- Computations that take bytes off a stream and may fail. -/
abbrev Reader (ε : Type) := StateT (List UInt8) (Except ε)

/-- Takes this many bytes off the stream. -/
def readBytes (err : ε) (count : Nat) : Reader ε (List UInt8) := fun bytes =>
  if count ≤ bytes.length then .ok (bytes.take count, bytes.drop count) else .error err

/-- Takes a little-endian number of this width off the stream. -/
def readLe (err : ε) (width : Nat) : Reader ε Nat := do
  let bytes ← readBytes err width
  return leNat bytes

/-- Reads a part only under a condition, and otherwise takes the default. -/
def readIf (cond : Bool) (read : Reader ε α) (default : α) : Reader ε α :=
  if cond then read else pure default

/-- Reads the same kind of thing over and over. -/
def readMany (read : Reader ε α) : Nat → Reader ε (List α)
  | 0 => pure []
  | count + 1 => do
    let first ← read
    let rest ← readMany read count
    return first :: rest

/-- The reader takes exactly these bytes off any stream and answers this. -/
def Reads (read : Reader ε α) (bytes : List UInt8) (x : α) : Prop :=
  ∀ rest, read (bytes ++ rest) = .ok (x, rest)

theorem Reads.pure (x : α) : Reads (pure x : Reader ε α) [] x := fun _ => rfl

theorem Reads.bind {first : Reader ε α} {next : α → Reader ε β} {bytes more : List UInt8} {x : α}
    {y : β} (one : Reads first bytes x) (two : Reads (next x) more y) :
    Reads (first >>= next) (bytes ++ more) y := by
  intro rest
  rw [List.append_assoc]
  exact bind_ok_iff.mpr ⟨x, more ++ rest, one _, two rest⟩

theorem Reads.map {read : Reader ε α} {convert : α → β} {bytes : List UInt8} {x : α} {y : β}
    (one : Reads read bytes x) (same : convert x = y) :
    Reads (do let x ← read; return convert x) bytes y := by
  intro rest
  rw [← same]
  exact bind_ok_iff.mpr ⟨x, rest, one rest, rfl⟩

theorem Reads.bytes (err : ε) {bytes : List UInt8} {count : Nat} (length : bytes.length = count) :
    Reads (readBytes err count) bytes bytes := by
  intro rest
  simp [readBytes, ← length]

theorem Reads.le (err : ε) {width n : Nat} (fits : n < 256 ^ width) :
    Reads (readLe err width) (leBytes width n) n :=
  .map (.bytes err (leBytes_length width n)) (leNat_leBytes fits)

theorem Reads.when {cond : Bool} {read : Reader ε α} {default x : α} {bytes : List UInt8}
    (there : cond = true) (one : Reads read bytes x) : Reads (readIf cond read default) bytes x := by
  rw [readIf, if_pos there]
  exact one

theorem Reads.unless {cond : Prop} [Decidable cond] {stop read : Reader ε α} {bytes : List UInt8}
    {x : α} (fine : ¬ cond) (one : Reads read bytes x) :
    Reads (if cond then stop else read) bytes x := by
  rw [if_neg fine]
  exact one

theorem Reads.manyMap {read : Reader ε β} {write : α → List UInt8} {back : α → β} {xs : List α}
    (each : ∀ x ∈ xs, Reads read (write x) (back x)) :
    Reads (readMany read xs.length) (xs.flatMap write) (xs.map back) := by
  induction xs with
  | nil => exact Reads.pure []
  | cons x rest ih =>
    have first := each x (by simp)
    have others := ih fun y member => each y (by simp [member])
    have whole : Reads (readMany read (rest.length + 1)) (write x ++ (rest.flatMap write ++ []))
        (back x :: rest.map back) := by
      rw [readMany]
      exact .bind first (.bind others (.pure _))
    rwa [List.append_nil] at whole

theorem Reads.many {read : Reader ε α} {write : α → List UInt8} {xs : List α}
    (each : ∀ x ∈ xs, Reads read (write x) x) :
    Reads (readMany read xs.length) (xs.flatMap write) xs := by
  have taken := Reads.manyMap each
  rwa [List.map_id'] at taken

theorem readMany_length {read : Reader ε α} {count : Nat} {bytes rest : List UInt8} {xs : List α}
    (done : readMany read count bytes = .ok (xs, rest)) : xs.length = count := by
  induction count generalizing bytes rest xs with
  | zero =>
    obtain ⟨rfl, -⟩ := Prod.mk.inj (pure_ok_iff.mp done)
    rfl
  | succ count ih =>
    simp only [readMany, bind_ok_iff, pure_ok_iff] at done
    obtain ⟨x, _, -, ys, _, more, same⟩ := done
    obtain ⟨rfl, -⟩ := Prod.mk.inj same
    rw [List.length_cons, ih more]

theorem readMany_forall {read : Reader ε α} {p : α → Prop}
    (each : ∀ bytes x rest, read bytes = .ok (x, rest) → p x) {count : Nat}
    {bytes rest : List UInt8} {xs : List α} (done : readMany read count bytes = .ok (xs, rest)) :
    ∀ x ∈ xs, p x := by
  induction count generalizing bytes rest xs with
  | zero =>
    obtain ⟨rfl, -⟩ := Prod.mk.inj (pure_ok_iff.mp done)
    simp
  | succ count ih =>
    simp only [readMany, bind_ok_iff, pure_ok_iff] at done
    obtain ⟨x, _, first, ys, _, more, same⟩ := done
    obtain ⟨rfl, -⟩ := Prod.mk.inj same
    intro y member
    rcases List.mem_cons.mp member with rfl | later
    · exact each _ _ _ first
    · exact ih more y later

end Nytrix.Lib
