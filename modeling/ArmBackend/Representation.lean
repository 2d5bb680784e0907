import ArmBackend.Numeral

/-!
# Representations and machine types

A representation says how wide a loaded, stored or joined value is; a machine type says what a
parameter or result means. Numbers outside the two tables are kept as they are.
-/

namespace ArmBackend

/-- How a value lies in memory or in a register. -/
inductive Rep
  | none
  | bit
  | word8
  | word16
  | word32
  | word64
  | float64
  | tagged
  | unassigned (code : Nat)
  deriving DecidableEq, Repr

/-- What a parameter, a loaded value or a result means. -/
inductive MachineType
  | none
  | int32
  | uint32
  | int64
  | float64
  | tagged
  | bool
  | unassigned (code : Nat)
  deriving DecidableEq, Repr

/-- Whether a store tells the collector about the pointer it writes. -/
inductive WriteBarrier
  | none
  | full
  deriving DecidableEq, Repr

namespace Rep

/-- Every assigned representation, in the order of the codes. -/
def all : List Rep :=
  [.none, .bit, .word8, .word16, .word32, .word64, .float64, .tagged]

/-- The name of a representation. -/
def name : Rep → String
  | .none => "none"
  | .bit => "bit"
  | .word8 => "word8"
  | .word16 => "word16"
  | .word32 => "word32"
  | .word64 => "word64"
  | .float64 => "float64"
  | .tagged => "tagged"
  | .unassigned code => "Rep(" ++ Numeral.natural code ++ ")"

/-- The representation with a code. -/
def ofCode (code : Nat) : Rep :=
  all[code]?.getD (.unassigned code)

/-- The code of a representation. -/
def code : Rep → Nat
  | .unassigned code => code
  | rep => all.idxOf rep

/-- The representation with a name. -/
def ofName? (name : String) : Option Rep :=
  all.find? (·.name == name)

end Rep

namespace MachineType

/-- Every assigned machine type, in the order of the codes. -/
def all : List MachineType :=
  [.none, .int32, .uint32, .int64, .float64, .tagged, .bool]

/-- The name of a machine type. -/
def name : MachineType → String
  | .none => "none"
  | .int32 => "int32"
  | .uint32 => "uint32"
  | .int64 => "int64"
  | .float64 => "float64"
  | .tagged => "tagged"
  | .bool => "bool"
  | .unassigned code => "Mach(" ++ Numeral.natural code ++ ")"

/-- The machine type with a code. -/
def ofCode (code : Nat) : MachineType :=
  all[code]?.getD (.unassigned code)

/-- The code of a machine type. -/
def code : MachineType → Nat
  | .unassigned code => code
  | type => all.idxOf type

/-- The machine type with a name. -/
def ofName? (name : String) : Option MachineType :=
  all.find? (·.name == name)

/-- The representation that values of a machine type are kept in. -/
def rep : MachineType → Rep
  | .int32 | .uint32 => .word32
  | .int64 => .word64
  | .float64 => .float64
  | .tagged => .tagged
  | .bool => .bit
  | .none | .unassigned _ => .none

end MachineType
end ArmBackend
