import Nytrix.Nir.Verify

/-! The integer and floating-point operations the VM and the constant folders share. -/

namespace Nytrix.Nir

/-- Whether a division of these operands has no representable quotient. -/
def divTraps (a b : I64) : Bool :=
  b = 0 || (a = int64Min && b = -1)

/-- Whether a shift by this amount is outside the word. -/
def shiftTraps (b : I64) : Bool :=
  decide (b.toInt < 0) || decide (64 ≤ b.toInt)

/-- The result of an integer operation, absent when the operands are refused. -/
def analyzeBinaryFold (op : Op) (a b : I64) : Option I64 :=
  match op with
  | .addI64 => some (a + b)
  | .subI64 => some (a - b)
  | .mulI64 => some (a * b)
  | .divI64 => if divTraps a b then none else some (a.sdiv b)
  | .modI64 => if divTraps a b then none else some (a.srem b)
  | .andI64 => some (a &&& b)
  | .orI64 => some (a ||| b)
  | .xorI64 => some (a ^^^ b)
  | .shlI64 => if shiftTraps b then none else some (a <<< b.toNat)
  | .sarI64 => if shiftTraps b then none else some (a.sshiftRight b.toNat)
  | _ => none

/-- A truth value as the word the comparisons produce. -/
def ofBool (p : Bool) : I64 := if p then 1 else 0

/-- The result of a signed comparison. -/
def analyzeCmpFold (cmp : Cmp) (a b : I64) : I64 :=
  ofBool (match cmp with
    | .eq => a = b
    | .ne => a ≠ b
    | .lt => a.toInt < b.toInt
    | .le => a.toInt ≤ b.toInt
    | .gt => b.toInt < a.toInt
    | .ge => b.toInt ≤ a.toInt)

/-- The word holding a double. -/
def f64ToBits (v : Float) : I64 := v.toBits.toBitVec

/-- The double a word holds. -/
def bitsToF64 (bits : I64) : Float := Float.ofBits (.ofBitVec bits)

/-- The word holding a single in its low half. -/
def f32ToBits (v : Float32) : I64 := v.toBits.toBitVec.zeroExtend 64

/-- The single in the low half of a word. -/
def bitsToF32 (bits : I64) : Float32 := Float32.ofBits (.ofBitVec (bits.truncate 32))

/-- Comparison of two doubles. -/
def cmpFloat64 (cmp : Cmp) (a b : Float) : I64 :=
  ofBool (match cmp with
    | .eq => a == b
    | .ne => a != b
    | .lt => a < b
    | .le => a ≤ b
    | .gt => a > b
    | .ge => a ≥ b)

/-- Comparison of two singles. -/
def cmpFloat32 (cmp : Cmp) (a b : Float32) : I64 :=
  ofBool (match cmp with
    | .eq => a == b
    | .ne => a != b
    | .lt => a < b
    | .le => a ≤ b
    | .gt => a > b
    | .ge => a ≥ b)

/-- What a copy or a conversion makes of its operand. -/
def unaryResult (op : Op) (a : I64) : I64 :=
  match op with
  | .i64ToF64 => f64ToBits (Int64.ofBitVec a).toFloat
  | .i64ToF32 => f32ToBits (Int64.ofBitVec a).toFloat32
  | .f64ToF32 => f32ToBits (bitsToF64 a).toFloat32
  | .f32ToF64 => f64ToBits (bitsToF32 a).toFloat
  | _ => a

/-- What a two-operand instruction computes, absent when the operands are refused. -/
def binaryResult (op : Op) (cmp : Cmp) (a b : I64) : Option I64 :=
  match op with
  | .cmpI64 => some (analyzeCmpFold cmp a b)
  | .cmpF64 => some (cmpFloat64 cmp (bitsToF64 a) (bitsToF64 b))
  | .cmpF32 => some (cmpFloat32 cmp (bitsToF32 a) (bitsToF32 b))
  | .addF64 => some (f64ToBits (bitsToF64 a + bitsToF64 b))
  | .subF64 => some (f64ToBits (bitsToF64 a - bitsToF64 b))
  | .mulF64 => some (f64ToBits (bitsToF64 a * bitsToF64 b))
  | .divF64 => some (f64ToBits (bitsToF64 a / bitsToF64 b))
  | .addF32 => some (f32ToBits (bitsToF32 a + bitsToF32 b))
  | .subF32 => some (f32ToBits (bitsToF32 a - bitsToF32 b))
  | .mulF32 => some (f32ToBits (bitsToF32 a * bitsToF32 b))
  | .divF32 => some (f32ToBits (bitsToF32 a / bitsToF32 b))
  | op => analyzeBinaryFold op a b

theorem toNat_of_nonneg {x : I64} (nonneg : 0 ≤ x.toInt) : (x.toNat : Int) = x.toInt := by
  rw [BitVec.toInt_eq_toNat_cond] at nonneg ⊢
  have := x.isLt
  split at nonneg <;> simp_all
  omega

end Nytrix.Nir
