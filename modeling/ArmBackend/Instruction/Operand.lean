import ArmBackend.Double.Shortest
import ArmBackend.Operator

/-!
# Operands and constants

An operand is a virtual register with a demand on where it has to live, an index into the table of
immediates, a register that stands for a constant, or a block label. Constants of the tables carry
a kind and one field per way of being read; two constants are the same entry of a table when they
agree field by field, doubles being compared as numbers.
-/

namespace ArmBackend

/-- Where a register operand has to live. -/
inductive Location
  | any
  | register
  | sameAsFirst
  | fixedRegister (index : Int)
  | fixedDouble (index : Int)
  | stackSlot (index : Int)
  | unassigned (code index : Int)
  deriving DecidableEq, Repr

/-- What an instruction reads or writes. -/
inductive Operand
  | vreg (index : Int) (location : Location)
  | immediate (index : Int)
  | constant (register : Int)
  | label (block : Int)
  | unassigned (kind index : Int) (location : Location)
  deriving DecidableEq, Repr

namespace Location

/-- What is written behind the register. -/
def suffix : Location → String
  | .fixedRegister index => "(r" ++ Numeral.decimal index ++ ")"
  | .fixedDouble index => "(d" ++ Numeral.decimal index ++ ")"
  | .stackSlot index => "(s" ++ Numeral.decimal index ++ ")"
  | .sameAsFirst => "(=0)"
  | .any | .register | .unassigned _ _ => ""

end Location

namespace Operand

/-- An operand without the tables it may point into. -/
def text : Operand → String
  | .vreg index location => "v" ++ Numeral.decimal index ++ location.suffix
  | .immediate index => "#" ++ Numeral.decimal index
  | .constant register => "=v" ++ Numeral.decimal register
  | .label block => "B" ++ Numeral.decimal block
  | .unassigned _ index location => "v" ++ Numeral.decimal index ++ location.suffix

end Operand

/-- How a constant of the tables is read. -/
inductive ConstantTag
  | of (kind : ConstantKind)
  | unassigned (code : Int)
  deriving DecidableEq, Repr

/-- A constant of the tables of immediates and of register constants. -/
structure Constant where
  tag : ConstantTag
  int : Int := 0
  float : Double := ⟨0⟩
  name : String := ""
  deriving DecidableEq, Repr

namespace Constant

/-- A 32 bit integer constant. -/
def ofInt32 (v : BitVec 32) : Constant :=
  { tag := .of .int32, int := v.toInt }

/-- Whether two constants are the same entry of a table. -/
def sameEntry (a b : Constant) : Bool :=
  a.tag == b.tag && a.int == b.int && a.float.eq b.float && a.name == b.name

/-- The text of a constant. -/
def text (c : Constant) : String :=
  match c.tag with
  | .of .int32 | .of .int64 => Numeral.decimal c.int
  | .of .float64 => c.float.text
  | .of .heap => "heap:" ++ c.name
  | .of .external => "ext:" ++ c.name
  | .unassigned code => "const(" ++ Numeral.decimal code ++ ")"

end Constant
end ArmBackend
