import ArmBackend.Double.Basic
import ArmBackend.Operator

/-!
# What operators compute

The values of the operators that look at their operands only. Words are bit vectors; truth is one
and falsehood zero. Shift amounts count modulo the width, and division follows the hardware: a
quotient by zero is zero, and the least integer divided by minus one is itself.
-/

namespace ArmBackend

/-- Truth as a word. -/
def truth {w : Nat} (b : Bool) : BitVec w :=
  if b then 1 else 0

/-- Signed division. -/
def signedQuotient (x y : BitVec 32) : BitVec 32 :=
  if y = 0 then 0 else x.sdiv y

/-- Unsigned division. -/
def unsignedQuotient (x y : BitVec 32) : BitVec 32 :=
  if y = 0 then 0 else x / y

/-- The value of an operator on 32 bit words. -/
def Word32Op.eval (op : Word32Op) (x y : BitVec 32) : BitVec 32 :=
  match op with
  | .and => x &&& y
  | .or => x ||| y
  | .xor => x ^^^ y
  | .shl => x <<< (y.toNat % 32)
  | .shr => x >>> (y.toNat % 32)
  | .sar => x.sshiftRight (y.toNat % 32)
  | .ror => x.rotateRight (y.toNat % 32)
  | .equal => truth (x == y)

/-- The value of an operator on 64 bit words. -/
def Word64Op.eval (op : Word64Op) (x y : BitVec 64) : BitVec 64 :=
  match op with
  | .and => x &&& y
  | .or => x ||| y
  | .xor => x ^^^ y
  | .shl => x <<< (y.toNat % 64)
  | .shr => x >>> (y.toNat % 64)
  | .sar => x.sshiftRight (y.toNat % 64)
  | .equal => truth (x == y)

/-- The value of an integer operator. -/
def Int32Op.eval (op : Int32Op) (x y : BitVec 32) : BitVec 32 :=
  match op with
  | .add | .addWithOverflow => x + y
  | .sub | .subWithOverflow => x - y
  | .mul => x * y
  | .div => signedQuotient x y
  | .udiv => unsignedQuotient x y
  | .mod => x - signedQuotient x y * y
  | .umod => x - unsignedQuotient x y * y
  | .lessThan => truth (x.slt y)
  | .lessThanOrEqual => truth (x.sle y)
  | .unsignedLessThan => truth (x.ult y)
  | .unsignedLessThanOrEqual => truth (x.ule y)

/-- Whether an operation with overflow leaves the range of 32 bit integers; none for others. -/
def Int32Op.overflows? (op : Int32Op) (x y : BitVec 32) : Option Bool :=
  match op with
  | .addWithOverflow => some ((x + y).toInt != x.toInt + y.toInt)
  | .subWithOverflow => some ((x - y).toInt != x.toInt - y.toInt)
  | _ => none

/-- The value of a conversion. -/
def Conversion.eval (c : Conversion) (v : BitVec 64) : BitVec 64 :=
  match c with
  | .int32ToFloat64 => (Double.ofInt (v.setWidth 32).toInt).bits
  | .uint32ToFloat64 => (Double.ofInt (v.setWidth 32).toNat).bits
  | .float64ToInt32 => (Double.saturateInt32 ⟨v⟩).setWidth 64
  | .float64ToUint32 => (Double.saturateUint32 ⟨v⟩).setWidth 64
  | .truncateFloat64ToInt32 => (Double.wrapInt32 ⟨v⟩).setWidth 64
  | .int32ToInt64 => (v.setWidth 32).signExtend 64
  | .uint32ToUint64 | .truncateInt64ToInt32 => (v.setWidth 32).setWidth 64

/-- The value of an operator on doubles. -/
def Float64Op.eval (op : Float64Op) (x y : Double) : BitVec 64 :=
  match op with
  | .add => (x.add y).bits
  | .sub => (x.sub y).bits
  | .mul => (x.mul y).bits
  | .div => (x.div y).bits
  | .equal => truth (x.eq y)
  | .lessThan => truth (x.lt y)
  | .lessThanOrEqual => truth (x.le y)

end ArmBackend
