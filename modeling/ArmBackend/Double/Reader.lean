import ArmBackend.Double.Basic
import ArmBackend.Numeral

/-!
# Reading doubles

A double is written in decimal, with an optional point and power of ten, or in hexadecimal with a
power of two that must be there; underscores may separate digits, and infinity and "not a number"
have names in any case. The text is read exactly and rounded once. A number too large for a double
is out of range, one too small is zero.
-/

namespace ArmBackend.Double

/-- The digits before the exponent: their value and how many stand after the point. -/
structure Significand where
  value : Nat := 0
  places : Nat := 0
  sawPoint : Bool := false
  sawDigit : Bool := false

/-- Reads digits of `base`, passing over underscores and one point; also gives the rest. -/
def readSignificand (base : Nat) : List Char → Significand → Significand × List Char
  | [], m => (m, [])
  | c :: rest, m =>
    if c = '_' then readSignificand base rest m
    else if c = '.' then
      if m.sawPoint then (m, c :: rest) else readSignificand base rest { m with sawPoint := true }
    else match Numeral.digitValue? c with
      | some d =>
        if d < base then
          readSignificand base rest
            { m with
              value := m.value * base + d
              places := if m.sawPoint then m.places + 1 else 0
              sawDigit := true }
        else (m, c :: rest)
      | none => (m, c :: rest)

/-- Reads the digits of an exponent, passing over underscores; also gives the rest. -/
def readPower : List Char → Nat → Nat × List Char
  | [], n => (n, [])
  | c :: rest, n =>
    if c = '_' then readPower rest n
    else if '0' ≤ c ∧ c ≤ '9' then readPower rest (n * 10 + (c.toNat - '0'.toNat))
    else (n, c :: rest)

/-- Reads an exponent behind `mark`, with a sign and at least one digit. Without the mark there is
no exponent, which is an error only where one is `required`. -/
def readExponent? (mark : Char) (required : Bool) : List Char → Option (Int × List Char)
  | [] => if required then none else some (0, [])
  | c :: rest =>
    if c ≠ mark ∧ c ≠ mark.toUpper then (if required then none else some (0, c :: rest))
    else match rest with
      | '+' :: digits => power digits
      | '-' :: digits => (power digits).map fun (n, rest) => (-n, rest)
      | digits => power digits
where
  /-- The digits of the exponent, the first of which is no underscore. -/
  power : List Char → Option (Int × List Char)
    | [] => none
    | c :: rest =>
      if '0' ≤ c ∧ c ≤ '9' then
        let (n, rest) := readPower (c :: rest) 0
        some ((n : Int), rest)
      else none

/-- The double nearest to `value * 10 ^ exponent`. Exponents that lie far outside the range of a
double are settled by the position of the first digit alone. -/
def ofDecimal (negative : Bool) (value : Nat) (exponent : Int) : Double :=
  let leading := exponent + (Nat.toDigits 10 value).length
  if value = 0 ∨ leading < -330 then zero negative
  else if 310 < leading then infinity negative
  else
    nearest negative (value * Nat.pow 10 exponent.toNat * unitsPerOne)
      (Nat.pow 10 (-exponent).toNat)

/-- The double nearest to `value * 2 ^ exponent`. -/
def ofBinary (negative : Bool) (value : Nat) (exponent : Int) : Double :=
  let leading := exponent + value.log2
  if value = 0 ∨ leading < -1200 then zero negative
  else if 1100 < leading then infinity negative
  else nearest negative (value <<< exponent.toNat * unitsPerOne) (1 <<< (-exponent).toNat)

/-- The value of a name for infinity or for what is not a number. -/
def named? (s : List Char) : Option Double :=
  let infinite (name : List Char) : Bool :=
    let lower := String.ofList (name.map Char.toLower)
    lower == "inf" || lower == "infinity"
  match s with
  | '+' :: rest => if infinite rest then some (infinity false) else none
  | '-' :: rest => if infinite rest then some (infinity true) else none
  | _ =>
    if infinite s then some (infinity false)
    else if String.ofList (s.map Char.toLower) == "nan" then some nan
    else none

/-- Reads a number behind its sign. -/
def readMagnitude? (negative : Bool) (s : List Char) : Option Double := do
  let hexadecimal := match s with
    | '0' :: mark :: _ :: _ => mark == 'x' || mark == 'X'
    | _ => false
  let (m, rest) := if hexadecimal then readSignificand 16 (s.drop 2) {} else readSignificand 10 s {}
  guard m.sawDigit
  let (power, rest) ← readExponent? (if hexadecimal then 'p' else 'e') hexadecimal rest
  guard rest.isEmpty
  return if hexadecimal then ofBinary negative m.value (power - 4 * m.places)
    else ofDecimal negative m.value (power - m.places)

/-- Reads a double. -/
def read (s : List Char) : Except NumeralError Double := do
  if let some x := named? s then return x
  let number? := match s with
    | '+' :: rest => readMagnitude? false rest
    | '-' :: rest => readMagnitude? true rest
    | _ => readMagnitude? false s
  match number? with
  | none => throw .malformed
  | some x =>
    -- the digits were read past any underscore: whether these separate digits is judged here
    if '_' ∈ s ∧ Numeral.underscoresSeparate s = false then throw .malformed
    if x.isInfinite then throw .outOfRange
    return x

end ArmBackend.Double
