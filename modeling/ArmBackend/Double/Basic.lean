/-!
# Double precision numbers

A double is its 64 bits. Every finite double is a whole multiple of `2 ^ -1074`, so arithmetic is
done exactly on integers counted in that unit and rounded once, to the nearest double and to the
even one of two equally near. An infinity behaves in comparisons like a number beyond every
finite one.

* `Double.units` is the exact value of a double;
* `Double.nearest` is the double nearest to a fraction of units;
* `Double.truncate?` is the integer part;
* `Double.wrapInt32`, `Double.saturateInt32` and `Double.saturateUint32` make words of doubles.
-/

namespace ArmBackend

/-- A double precision number, given by its bit pattern. -/
structure Double where
  /-- Sign, eleven bits of exponent and fifty-two bits of fraction. -/
  bits : BitVec 64
  deriving DecidableEq, Repr

namespace Double

instance : Inhabited Double := ⟨⟨0⟩⟩

/-! ## Parts of a pattern -/

/-- The weight of the leading bit of a significand, which the pattern leaves out. -/
def hiddenBit : Nat :=
  0x10000000000000

/-- Whether the sign bit is set. -/
def isNegative (x : Double) : Bool :=
  x.bits.msb

/-- The exponent field. -/
def exponentField (x : Double) : Nat :=
  x.bits.toNat / hiddenBit % 0x800

/-- The fraction field. -/
def fraction (x : Double) : Nat :=
  x.bits.toNat % hiddenBit

/-- Whether `x` is not a number. -/
def isNaN (x : Double) : Bool :=
  x.exponentField == 0x7ff && x.fraction != 0

/-- Whether `x` is an infinity. -/
def isInfinite (x : Double) : Bool :=
  x.exponentField == 0x7ff && x.fraction == 0

/-- Whether `x` is a zero of either sign. -/
def isZero (x : Double) : Bool :=
  x.exponentField == 0 && x.fraction == 0

/-- The absolute value that exponent and fraction fields stand for, in units of `2 ^ -1074`. -/
def magnitudeOf (exponent fraction : Nat) : Nat :=
  if exponent = 0 then fraction else (hiddenBit + fraction) <<< (exponent - 1)

/-- The absolute value of `x` in units of `2 ^ -1074`; of an infinity, a number above all others. -/
def magnitude (x : Double) : Nat :=
  magnitudeOf x.exponentField x.fraction

/-- The value of `x` in units of `2 ^ -1074`. -/
def units (x : Double) : Int :=
  if x.isNegative then -(x.magnitude : Int) else x.magnitude

/-- How many units make one. -/
def unitsPerOne : Nat :=
  1 <<< 1074

/-! ## Special values -/

/-- The unsigned pattern of infinity. -/
def infinityPattern : Nat :=
  0x7ff * hiddenBit

/-- The double with the given sign and unsigned pattern. -/
def ofPattern (negative : Bool) (pattern : Nat) : Double :=
  ⟨BitVec.ofNat 64 (if negative then 0x8000000000000000 + pattern else pattern)⟩

/-- A zero with a sign. -/
def zero (negative : Bool) : Double :=
  ofPattern negative 0

/-- An infinity with a sign. -/
def infinity (negative : Bool) : Double :=
  ofPattern negative infinityPattern

/-- The value that the word for "not a number" reads as. -/
def nan : Double :=
  ⟨0x7ff8000000000001#64⟩

/-- What an operation without a meaningful result gives. -/
def invalid : Double :=
  ⟨0xfff8000000000000#64⟩

/-- A value that is not a number, with its quiet bit set. -/
def quieted (x : Double) : Double :=
  ⟨x.bits ||| 0x0008000000000000#64⟩

/-! ## Rounding -/

/-- The integer nearest to `num / den`; of two equally near, the even one. -/
def roundHalfEven (num den : Nat) : Nat :=
  let quotient := num / den
  let twice := 2 * (num % den)
  if twice < den then quotient
  else if den < twice then quotient + 1
  else quotient + quotient % 2

/-- The unsigned pattern nearest to `num / den` units. The shift makes the rounded quotient a
significand of 53 bits, or leaves it as it is below that; a carry out of the significand raises
the exponent by itself. -/
def nearestPattern (num den : Nat) : Nat :=
  let shift := (num / den).log2 - 52
  min (shift * hiddenBit + roundHalfEven num (den <<< shift)) infinityPattern

/-- The double nearest to `num / den` units, with a sign. -/
def nearest (negative : Bool) (num den : Nat) : Double :=
  ofPattern negative (nearestPattern num den)

/-- The double nearest to an integer. -/
def ofInt (z : Int) : Double :=
  nearest (decide (z < 0)) (z.natAbs * unitsPerOne) 1

/-! ## Arithmetic -/

/-- The result when an operand is not a number: the first such operand. -/
def propagate (x y : Double) : Double :=
  if x.isNaN then x.quieted else y.quieted

/-- `x` with its sign changed. -/
def neg (x : Double) : Double :=
  ⟨x.bits ^^^ 0x8000000000000000#64⟩

/-- Sum. -/
def add (x y : Double) : Double :=
  if x.isNaN || y.isNaN then propagate x y
  else if x.isInfinite then
    if y.isInfinite && x.isNegative != y.isNegative then invalid else x
  else if y.isInfinite then y
  else
    let sum := x.units + y.units
    if sum = 0 then zero (x.isNegative && y.isNegative)
    else nearest (decide (sum < 0)) sum.natAbs 1

/-- Difference. -/
def sub (x y : Double) : Double :=
  if x.isNaN || y.isNaN then propagate x y else x.add y.neg

/-- Product. -/
def mul (x y : Double) : Double :=
  if x.isNaN || y.isNaN then propagate x y
  else
    let negative := x.isNegative != y.isNegative
    if x.isInfinite || y.isInfinite then
      if x.isZero || y.isZero then invalid else infinity negative
    else nearest negative (x.magnitude * y.magnitude) unitsPerOne

/-- Quotient. A number other than zero divided by zero is an infinity. -/
def div (x y : Double) : Double :=
  if x.isNaN || y.isNaN then propagate x y
  else
    let negative := x.isNegative != y.isNegative
    if x.isInfinite then
      if y.isInfinite then invalid else infinity negative
    else if y.isInfinite then zero negative
    else if y.isZero then
      if x.isZero then invalid else infinity negative
    else nearest negative (x.magnitude * unitsPerOne) y.magnitude

/-! ## Comparison -/

/-- Whether both values are numbers. -/
def ordered (x y : Double) : Bool :=
  !x.isNaN && !y.isNaN

/-- Equality of values: the zeros are equal, and what is not a number equals nothing. -/
def eq (x y : Double) : Bool :=
  ordered x y && x.units == y.units

/-- Strict order of values. -/
def lt (x y : Double) : Bool :=
  ordered x y && decide (x.units < y.units)

/-- Order of values. -/
def le (x y : Double) : Bool :=
  ordered x y && decide (x.units ≤ y.units)

/-! ## Integers -/

/-- The value without its fraction; none for infinities and what is not a number. -/
def truncate? (x : Double) : Option Int :=
  if x.exponentField = 0x7ff then none else some (x.units.tdiv unitsPerOne)

/-- The value when it is an integer. -/
def toInt? (x : Double) : Option Int :=
  match x.truncate? with
  | some z => if z * unitsPerOne = x.units then some z else none
  | none => none

/-- The value without its fraction, as a double with the sign of `x`. From `2 ^ 52` on a double has
no fraction; infinities and what is not a number lie above that. -/
def trunc (x : Double) : Double :=
  if x.exponentField < 1075 then
    nearest x.isNegative (x.magnitude / unitsPerOne * unitsPerOne) 1
  else x

/-- The remainder of a division whose quotient is an integer, with the sign of `x`. -/
def rem (x y : Double) : Double :=
  if x.isNaN || y.isNaN || x.isInfinite || y.isZero then nan
  else if y.isInfinite then x
  else nearest x.isNegative (x.magnitude % y.magnitude) 1

/-- The integer part as a word, if it lies between two bounds. Beyond them the word says nothing
about `x`. -/
def toWord (least greatest : Int) (x : Double) : BitVec 32 :=
  match x.truncate? with
  | some z => if least ≤ z ∧ z ≤ greatest then BitVec.ofInt 32 z else 0
  | none => 0

/-- The number of words, `2 ^ 32`. -/
def wordCount : Double :=
  ofInt 0x100000000

/-- The low 32 bits of the integer part; zero for infinities and what is not a number. The remainder
has the sign of `x`, and is moved up by the number of words when it is negative. -/
def wrapInt32 (x : Double) : BitVec 32 :=
  if x.isNaN || x.isInfinite then 0
  else
    let rest := x.trunc.rem wordCount
    toWord 0 0xffffffff (if rest.lt (zero false) then rest.add wordCount else rest)

/-- The signed word nearest to the integer part; zero for what is not a number. -/
def saturateInt32 (x : Double) : BitVec 32 :=
  if x.isNaN then 0
  else if x.le (ofInt (-0x80000000)) then BitVec.intMin 32
  else if (ofInt 0x7fffffff).le x then BitVec.intMax 32
  else x.toWord (-0x80000000) 0x7fffffff

/-- The unsigned word nearest to the integer part; zero for what is not a number. -/
def saturateUint32 (x : Double) : BitVec 32 :=
  if x.isNaN || x.le (zero false) then 0
  else if (ofInt 0xffffffff).le x then BitVec.allOnes 32
  else x.toWord 0 0xffffffff

end Double
end ArmBackend
