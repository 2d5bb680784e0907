import ArmBackend.Instruction.Operand

/-!
# Argument locations

Arguments are handed out in order: the first four that are no doubles go to registers, the first
eight doubles to double registers, and all others to stack slots. Caller and callee use the same
rule, so they agree on where an argument is.
-/

namespace ArmBackend

/-- How many locations of each kind are taken. -/
structure Linkage where
  registers : Nat := 0
  doubles : Nat := 0
  slots : Nat := 0
  deriving DecidableEq, Repr

namespace Linkage

/-- How many arguments go to registers. -/
def registerCount : Nat := 4

/-- How many arguments go to double registers. -/
def doubleCount : Nat := 8

/-- The location of the next argument. -/
def next (l : Linkage) (double : Bool) : Linkage × Location :=
  if double && l.doubles < doubleCount then
    ({ l with doubles := l.doubles + 1 }, .fixedDouble l.doubles)
  else if !double && l.registers < registerCount then
    ({ l with registers := l.registers + 1 }, .fixedRegister l.registers)
  else ({ l with slots := l.slots + 1 }, .stackSlot l.slots)

/-- The locations of a list of arguments, each told to be a double or not. -/
def locations : Linkage → List Bool → List Location
  | _, [] => []
  | l, double :: rest =>
    let (l, location) := l.next double
    location :: locations l rest

end Linkage
end ArmBackend
