import ArmBackend.Text.Quoted

/-!
# Numerals

Integers written by people: an optional sign, an optional base mark (`0x`, `0b`, `0o`, or a bare
leading zero for base eight) and digits that single underscores may separate. A numeral is either
malformed or out of range for the asked width, and the first of the two that a left to right
reading meets is the one reported. A plain decimal has neither base marks nor underscores, so its
leading zeros mean nothing. Truth values have a fixed list of spellings.
-/

namespace ArmBackend

/-- Why a piece of text is not the asked number. -/
inductive NumeralError
  | malformed
  | outOfRange
  deriving DecidableEq, Repr

namespace Numeral

/-- The wording of an error. -/
def errorText : NumeralError → String
  | .malformed => "invalid syntax"
  | .outOfRange => "value out of range"

/-- The value of a digit: decimal digits first, then letters of either case. -/
def digitValue? (c : Char) : Option Nat :=
  if '0' ≤ c ∧ c ≤ '9' then some (c.toNat - '0'.toNat)
  else if 'a' ≤ c ∧ c ≤ 'z' then some (c.toNat - 'a'.toNat + 10)
  else if 'A' ≤ c ∧ c ≤ 'Z' then some (c.toNat - 'A'.toNat + 10)
  else none

/-- Whether `c` is a digit of `base`. -/
def isDigitOf (base : Nat) (c : Char) : Bool :=
  (digitValue? c).any (· < base)

/-- The base that a mark at the front announces, with the text after the mark. A mark needs at
least one more character; a leading zero without a letter is itself the mark of base eight. -/
def splitBase : List Char → Nat × List Char
  | '0' :: mark :: c :: rest =>
    if mark = 'x' ∨ mark = 'X' then (16, c :: rest)
    else if mark = 'b' ∨ mark = 'B' then (2, c :: rest)
    else if mark = 'o' ∨ mark = 'O' then (8, c :: rest)
    else (8, mark :: c :: rest)
  | '0' :: rest => (8, rest)
  | s => (10, s)

/-- What the character before an underscore may be. -/
inductive Neighbour
  | start
  | digit
  | underscore
  | other
  deriving DecidableEq

/-- Whether each underscore of `s` stands between two digits, after a character of kind `before`. -/
def underscoresBetween (isDigit : Char → Bool) : Neighbour → List Char → Bool
  | before, [] => before ≠ .underscore
  | before, c :: rest =>
    if isDigit c then underscoresBetween isDigit .digit rest
    else if c = '_' then before = .digit && underscoresBetween isDigit .underscore rest
    else before ≠ .underscore && underscoresBetween isDigit .other rest

/-- Whether the underscores of a numeral separate digits; a base mark counts as a digit. -/
def underscoresSeparate : List Char → Bool
  | '+' :: rest => unsigned rest
  | '-' :: rest => unsigned rest
  | s => unsigned s
where
  /-- The rule behind the sign. -/
  unsigned : List Char → Bool
    | '0' :: mark :: rest =>
      if mark = 'x' ∨ mark = 'X' then underscoresBetween (isDigitOf 16) .digit rest
      else if mark ∈ ['b', 'B', 'o', 'O'] then underscoresBetween (isDigitOf 10) .digit rest
      else underscoresBetween (isDigitOf 10) .start ('0' :: mark :: rest)
    | s => underscoresBetween (isDigitOf 10) .start s

/-- Reads digits of `base` onto `value`, passing over underscores, up to `limit`. -/
def readDigits (base limit : Nat) : List Char → Nat → Except NumeralError Nat
  | [], value => .ok value
  | c :: rest, value =>
    if c = '_' then readDigits base limit rest value
    else match digitValue? c with
      | none => .error .malformed
      | some d =>
        if base ≤ d then .error .malformed
        else if limit < value * base + d then .error .outOfRange
        else readDigits base limit rest (value * base + d)

/-- Reads a natural number below `2 ^ bits`. -/
def readUnsigned (bits : Nat) (s : List Char) : Except NumeralError Nat := do
  if s.isEmpty then throw .malformed
  let (base, digits) := splitBase s
  let value ← readDigits base (1 <<< bits - 1) digits 0
  if '_' ∈ s ∧ underscoresSeparate s = false then throw .malformed
  return value

/-- Reads a natural number below `2 ^ bits` in decimal digits alone. -/
def readPlain (bits : Nat) (s : List Char) : Except NumeralError Nat :=
  if s.isEmpty || s.contains '_' then .error .malformed
  else readDigits 10 (1 <<< bits - 1) s 0

/-- Reads an integer of `bits` bits in two's complement range: a sign, if there is one, and a
magnitude that `read` takes. -/
def readWithSign (read : List Char → Except NumeralError Nat) (bits : Nat) (s : List Char) :
    Except NumeralError Int :=
  match s with
  | '-' :: rest => do
    let value ← read rest
    if 1 <<< (bits - 1) < value then throw .outOfRange
    return -(value : Int)
  | '+' :: rest => positive rest
  | _ => positive s
where
  /-- An integer without a minus sign. -/
  positive (s : List Char) : Except NumeralError Int := do
    let value ← read s
    if 1 <<< (bits - 1) ≤ value then throw .outOfRange
    return (value : Int)

/-- Reads an integer of `bits` bits. -/
def readSigned (bits : Nat) (s : List Char) : Except NumeralError Int :=
  readWithSign (readUnsigned bits) bits s

/-- Reads an integer of `bits` bits in plain decimal. -/
def readDecimal (bits : Nat) (s : List Char) : Except NumeralError Int :=
  readWithSign (readPlain bits) bits s

/-- Reads a truth value. -/
def readBool (s : String) : Except NumeralError Bool :=
  if s ∈ ["1", "t", "T", "TRUE", "true", "True"] then .ok true
  else if s ∈ ["0", "f", "F", "FALSE", "false", "False"] then .ok false
  else .error .malformed

/-- The decimal digits of a natural number. -/
def natural (n : Nat) : String :=
  String.ofList (Nat.toDigits 10 n)

/-- An integer in decimal. -/
def decimal : Int → String
  | .ofNat n => natural n
  | .negSucc n => "-" ++ natural (n + 1)

end Numeral
end ArmBackend
