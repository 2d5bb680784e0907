import ArmBackend.Double.Reader
import ArmBackend.Double.Shortest
import ArmBackend.Fault

/-!
# Values as text

Values travel as 64 bit patterns: 32 bit words are zero extended and doubles are their own bits.
Here they are read from and written as text, by machine type. A tagged value is written as the bare
word in base sixteen and read as an integer.
-/

namespace ArmBackend.Value

/-- The result of a reader, with its error signed and put into context. -/
def signed {α : Type} (context : String) (reader : Reader) (text : String)
    (result : Except NumeralError α) : Except Fault α :=
  match result with
  | .ok v => .ok v
  | .error e => .error ((Fault.refused (.numeral reader text e)).within context)

/-- Reads a value of a machine type. -/
def read (type : MachineType) (text : String) : Except Fault (BitVec 64) := do
  let s := text.toList
  match type with
  | .int32 =>
    let v ← signed "int32" .signed text (Numeral.readSigned 32 s)
    return (BitVec.ofInt 32 v).setWidth 64
  | .uint32 =>
    let v ← signed "uint32" .unsigned text (Numeral.readUnsigned 32 s)
    return BitVec.ofNat 64 v
  | .int64 | .tagged =>
    let v ← signed type.name .signed text (Numeral.readSigned 64 s)
    return BitVec.ofInt 64 v
  | .float64 =>
    let v ← signed "float64" .float text (Double.read s)
    return v.bits
  | .bool =>
    let v ← signed "bool" .bool text (Numeral.readBool text)
    return if v then 1 else 0
  | .none | .unassigned _ => throw (.refused (.unsupportedType type))

/-- A word in base sixteen. -/
def hexadecimal (v : BitVec 64) : String :=
  Text.hexNumber v.toNat

/-- Writes a value of a machine type. -/
def text (type : MachineType) (v : BitVec 64) : String :=
  match type with
  | .int32 => Numeral.decimal (v.setWidth 32).toInt
  | .uint32 => Numeral.natural (v.setWidth 32).toNat
  | .int64 => Numeral.decimal v.toInt
  | .float64 => Double.text ⟨v⟩
  | .bool => if v ≠ 0 then "true" else "false"
  | .none | .tagged | .unassigned _ => hexadecimal v

end ArmBackend.Value
