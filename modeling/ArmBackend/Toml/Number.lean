import ArmBackend.Double.Reader
import ArmBackend.Toml.Basic

/-!
# Numbers

Integers are decimal with an optional sign, or have a base mark and no sign; floats have a point or
an exponent. Single underscores may separate digits, and a decimal number has no leading zeros. The
spelling is taken off the text first and read when a field asks for it, so a decimal integer serves
as a float too.
-/

namespace ArmBackend.Toml

/-! ## Spelling -/

/-- The digits that a base mark allows. -/
def digitsOfMark? : Char → Option Nat
  | 'x' => some 16
  | 'o' => some 8
  | 'b' => some 2
  | _ => none

/-- Whether a character continues a decimal number. -/
def isDecimalChar (c : Char) : Bool :=
  c.isDigit || c == '+' || c == '-' || c == '_' || c == '.' || c == 'e' || c == 'E'

/-- The word for infinity or for what is not a number, at the front of a text. -/
def specialWord? : List Char → Option (List Char)
  | 'i' :: 'n' :: 'f' :: _ => some ['i', 'n', 'f']
  | 'n' :: 'a' :: 'n' :: _ => some ['n', 'a', 'n']
  | _ => none

/-- Takes the spelling of a decimal number or of a special value off. -/
def readDecimal (s : List Char) : Option (Value × List Char) :=
  let digits := s.takeWhile isDecimalChar
  let rest := s.drop digits.length
  match rest.head? with
  | some 'i' | some 'n' =>
    (specialWord? rest).map fun word => (.float (digits ++ word), rest.drop word.length)
  | _ =>
    if digits.isEmpty then none
    else if digits.any fun c => c == '.' || c == 'e' || c == 'E' then some (.float digits, rest)
    else some (.integer digits, rest)

/-- Takes the spelling of a number off. A zero that no point or exponent follows ends the number,
unless a base mark comes next. -/
def readNumber (s : List Char) : Option (Value × List Char) :=
  match s with
  | '0' :: mark :: c :: rest =>
    if mark = '.' ∨ mark = 'e' ∨ mark = 'E' then readDecimal s
    else match digitsOfMark? mark with
      | some base =>
        let digits := (c :: rest).takeWhile fun d => Numeral.isDigitOf base d || d == '_'
        some (.integer ('0' :: mark :: digits), (c :: rest).drop digits.length)
      | none => some (.integer ['0'], mark :: c :: rest)
  | _ => readDecimal s

/-! ## Meaning -/

/-- Whether underscores stand one by one between other characters. -/
def underscoresApart : List Char → Bool
  | [] => true
  | '_' :: rest =>
    match rest with
    | [] => false
    | c :: _ => c != '_' && underscoresApart rest
  | _ :: rest => underscoresApart rest

/-- A spelling without its underscores, if they stand one by one and not at an end. -/
def withoutUnderscores? (s : List Char) : Option (List Char) :=
  if s.head? != some '_' && underscoresApart s then some (s.filter (· != '_')) else none

/-- A text without its sign. -/
def unsignedPart : List Char → List Char
  | '+' :: rest => rest
  | '-' :: rest => rest
  | s => s

/-- Whether a decimal number starts with a zero that another digit follows. -/
def hasLeadingZero (s : List Char) : Bool :=
  match unsignedPart s with
  | '0' :: c :: _ => c.isDigit
  | _ => false

/-- Reads an integer of 64 bits. -/
def integer? (s : List Char) : Option Int :=
  match s with
  | '0' :: mark :: c :: rest => do
    -- with a base mark there is no sign
    let base ← digitsOfMark? mark
    let digits ← withoutUnderscores? (c :: rest)
    match Numeral.readDigits base 0x7fffffffffffffff digits 0 with
    | .ok n => some (n : Int)
    | .error _ => none
  | _ => do
    let digits ← (withoutUnderscores? (unsignedPart s)).map fun digits =>
      (s.take (s.length - (unsignedPart s).length)) ++ digits
    if hasLeadingZero digits then none
    else match Numeral.readDecimal 64 digits with
      | .ok z => some z
      | .error _ => none

/-- Whether the underscores of a float separate digits: each has a digit before it since the last
underscore or sign, and no neighbour that is a point or an exponent mark. -/
def underscoresInFloat : Char → Bool → List Char → Bool
  | before, _, [] => before != '_'
  | before, digit, c :: rest =>
    let mark (c : Char) : Bool := c == '.' || c == 'e' || c == 'E'
    if c = '_' then digit && !mark before && underscoresInFloat c false rest
    else if c = '+' ∨ c = '-' then underscoresInFloat c false rest
    else if mark c then before != '_' && underscoresInFloat c digit rest
    else underscoresInFloat c true rest

/-- Whether a point has a digit on either side; at most one may occur. -/
def pointsBetweenDigits : Char → List Char → Bool
  | _, [] => true
  | before, '.' :: rest =>
    before.isDigit && (rest.head?.any Char.isDigit) && !rest.contains '.' &&
      pointsBetweenDigits '.' rest
  | _, c :: rest => pointsBetweenDigits c rest

/-- Reads a float. -/
def float? (s : List Char) : Option Double :=
  if s = ['+', 'n', 'a', 'n'] ∨ s = ['-', 'n', 'a', 'n'] then some Double.nan
  else if s.contains '_' && !underscoresInFloat '_' false s then none
  else
    let digits := s.filter (· != '_')
    if !pointsBetweenDigits ' ' digits || hasLeadingZero digits then none
    else match Double.read digits with
      | .ok x => some x
      | .error _ => none

end ArmBackend.Toml
