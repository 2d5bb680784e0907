import ArmBackend.Double.Basic
import ArmBackend.Numeral

/-!
# Shortest decimal of a double

The text of a double has the fewest decimal digits that read back as the same double; of several
such decimals it is the one nearest to the value, and of two equally near the one with the even
last digit. `Double.shortest` finds the digits in exact arithmetic: on the grid of decimals with
one, two, three, … digits it tests the two neighbours of the value against the interval of reals
that round to it. `DecimalStyle` says how digits and exponent are put on paper.
-/

namespace ArmBackend

/-- A positive decimal `digits * 10 ^ exponent`. -/
structure Decimal where
  digits : Nat
  exponent : Int
  deriving DecidableEq, Repr

namespace Decimal

/-- The same decimal without zeros at the end of its digits. -/
def strip (fuel : Nat) (d : Decimal) : Decimal :=
  match fuel with
  | 0 => d
  | fuel + 1 =>
    if d.digits ≠ 0 ∧ d.digits % 10 = 0 then strip fuel ⟨d.digits / 10, d.exponent + 1⟩ else d

end Decimal

/-- How decimals are written. -/
structure DecimalStyle where
  /-- The least exponent of the first digit that is written without an exponent. -/
  leastPositional : Int
  /-- The least exponent of the first digit that is written with an exponent again. -/
  leastExponential : Int
  /-- The number of digits an exponent has at least. -/
  exponentPlaces : Nat
  deriving DecidableEq, Repr

namespace DecimalStyle

/-- A decimal without its sign: positional, or one digit before the point and an exponent. -/
def write (style : DecimalStyle) (d : Decimal) : String :=
  let digits := Nat.toDigits 10 d.digits
  let first := d.exponent + digits.length - 1
  if first < style.leastPositional ∨ style.leastExponential ≤ first then
    -- scientific: one digit before the point
    let tail := digits.drop 1
    let power := Nat.toDigits 10 first.natAbs
    String.ofList (digits.take 1 ++ (if tail.isEmpty then [] else '.' :: tail) ++
      ['e', if first < 0 then '-' else '+'] ++
      List.replicate (style.exponentPlaces - power.length) '0' ++ power)
  else if first < 0 then
    -- below one: the point and the zeros come first
    String.ofList ('0' :: '.' :: List.replicate (first.natAbs - 1) '0' ++ digits)
  else
    let whole := first.toNat + 1
    if digits.length ≤ whole then
      String.ofList (digits ++ List.replicate (whole - digits.length) '0')
    else String.ofList (digits.take whole ++ '.' :: digits.drop whole)

end DecimalStyle

namespace Double

/-- The power of ten at or below `num / den`, for a fraction below one: searched downwards. -/
def leadingBelowOne (den : Nat) : Nat → Nat → Nat → Nat
  | 0, _, places => places
  | fuel + 1, num, places =>
    if den ≤ num then places else leadingBelowOne den fuel (num * 10) (places + 1)

/-- The exponent of the first decimal digit of `units`. -/
def leadingExponent (units : Nat) : Int :=
  if unitsPerOne ≤ units then ((Nat.toDigits 10 (units / unitsPerOne)).length : Int) - 1
  else -(leadingBelowOne unitsPerOne 400 units 0 : Int)

/-- The decimal on the grid of `10 ^ grid` that is nearest to `value`, among those strictly
between `below` and `above`, or at these ends if they count too; all three in half units. -/
def onGrid? (grid : Int) (below value above : Nat) (ends : Bool) : Option Decimal :=
  let up := Nat.pow 10 (-grid).toNat
  let step := 2 * unitsPerOne * Nat.pow 10 grid.toNat
  let scaled := value * up
  -- the ends themselves round to the double only when its significand is even
  let inside (n : Nat) : Bool :=
    if ends then below * up ≤ n * step && n * step ≤ above * up
    else below * up < n * step && n * step < above * up
  let lower := scaled / step
  let upper := lower + 1
  let gapBelow := scaled - lower * step
  let gapAbove := upper * step - scaled
  match inside lower, inside upper with
  | false, false => none
  | true, false => some ⟨lower, grid⟩
  | false, true => some ⟨upper, grid⟩
  | true, true =>
    if gapBelow < gapAbove ∨ gapBelow = gapAbove ∧ lower % 2 = 0 then some ⟨lower, grid⟩
    else some ⟨upper, grid⟩

/-- The first grid, from `places` digits on, that has a decimal for the value. -/
def firstGrid (leading : Int) (below value above : Nat) (ends : Bool) : Nat → Nat → Decimal
  | 0, places => ⟨0, leading - places⟩
  | fuel + 1, places =>
    match onGrid? (leading + 1 - places) below value above ends with
    | some d => d
    | none => firstGrid leading below value above ends fuel (places + 1)

/-- The shortest decimal that reads back as the finite double with this unsigned pattern. -/
def shortestOfPattern (pattern : Nat) : Decimal :=
  let at' (p : Nat) : Nat := magnitudeOf (p / hiddenBit) (p % hiddenBit)
  let value := at' pattern
  let d := firstGrid (leadingExponent value) (at' (pattern - 1) + value) (2 * value)
    (value + at' (pattern + 1)) (pattern % 2 == 0) 17 1
  d.strip 20

/-- The shortest decimal that reads back as the absolute value of `x`. -/
def shortest (x : Double) : Decimal :=
  if x.isZero then ⟨0, 0⟩ else shortestOfPattern (x.bits.toNat % 0x8000000000000000)

/-- Numbers from `0.0001` up to a million are written without an exponent; an exponent has a sign
and at least two digits. -/
def style : DecimalStyle where
  leastPositional := -4
  leastExponential := 6
  exponentPlaces := 2

/-- The text of a double. -/
def text (x : Double) : String :=
  if x.isNaN then "NaN"
  else if x.isInfinite then (if x.isNegative then "-Inf" else "+Inf")
  else (if x.isNegative then "-" else "") ++ style.write x.shortest

end Double
end ArmBackend
