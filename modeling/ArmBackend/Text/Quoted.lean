import ArmBackend.Text.Printable

/-!
# Quoted text

Names and rejected inputs stand between double quotes in messages and listings. A quote and a
backslash are escaped, printable characters stand for themselves, the seven usual control
characters have letters, and every other character is written by its code point in hexadecimal.
-/

namespace ArmBackend.Text

/-- The lower case hexadecimal digits of `n`, filled up with zeros to `width` places. -/
def hexPlaces (width n : Nat) : String :=
  let digits := Nat.toDigits 16 n
  String.ofList (List.replicate (width - digits.length) '0' ++ digits)

/-- `n` in hexadecimal after `0x`, without leading zeros. -/
def hexNumber (n : Nat) : String :=
  "0x" ++ hexPlaces 1 n

/-- The letter that stands for a control character after a backslash. -/
def escapeLetter? : Nat → Option Char
  | 0x07 => some 'a'
  | 0x08 => some 'b'
  | 0x0c => some 'f'
  | 0x0a => some 'n'
  | 0x0d => some 'r'
  | 0x09 => some 't'
  | 0x0b => some 'v'
  | _ => none

/-- One character as it stands inside quotes. -/
def quotedChar (c : Char) : String :=
  if c == '"' || c == '\\' then String.ofList ['\\', c]
  else if isPrintable c then c.toString
  else match escapeLetter? c.toNat with
    | some letter => String.ofList ['\\', letter]
    | none =>
      if c.toNat < 0x80 then "\\x" ++ hexPlaces 2 c.toNat
      else if c.toNat < 0x10000 then "\\u" ++ hexPlaces 4 c.toNat
      else "\\U" ++ hexPlaces 8 c.toNat

/-- `s` between double quotes. -/
def quoted (s : String) : String :=
  "\"" ++ String.join (s.toList.map quotedChar) ++ "\""

end ArmBackend.Text
