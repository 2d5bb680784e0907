import ArmBackend.BitSet

/-!
# Streams of instructions

A stream is the code of one graph: instructions, the blocks that cut them into ranges, a table of
immediates that operands point into, and the constants that registers stand for. Registers are
numbered from zero; two sets tell which of them hold doubles and which hold heap references.
-/

namespace ArmBackend

namespace Stream

/-- A join of registers at the start of a block. -/
structure Phi where
  out : Int
  inputs : List Int
  deriving DecidableEq, Repr

/-- A block of code: the instructions from `start` up to `stop`. -/
structure Block where
  id : Int
  phis : List Phi := []
  succ : List Int := []
  start : Int
  stop : Int
  deriving DecidableEq, Repr

end Stream

/-- Selected code with its tables. -/
structure Stream where
  code : List Instr := []
  blocks : List Stream.Block := []
  immediates : List Constant := []
  /-- The registers that stand for constants. -/
  constants : List (Int × Constant) := []
  doubles : BitSet := .empty
  references : BitSet := .empty
  nextVreg : Nat := 0

namespace Stream

/-- A register that was not used before. -/
def newVreg (s : Stream) : Stream × Nat :=
  ({ s with nextVreg := s.nextVreg + 1 }, s.nextVreg)

/-- A constant as it stands in the table of immediates: a double is kept apart from others by its
bits, so that zeros of either sign are different entries. -/
def immediateEntry (c : Constant) : Constant :=
  if c.tag = .of .float64 then { c with int := c.float.bits.toInt } else c

/-- Finds a constant in the table of immediates, or adds it at the end, and gives its index. -/
def addImmediate (s : Stream) (c : Constant) : Stream × Nat :=
  let entry := immediateEntry c
  match s.immediates.findIdx? fun old => old.sameEntry entry with
  | some i => (s, i)
  | none => ({ s with immediates := s.immediates ++ [entry] }, s.immediates.length)

/-- Appends an instruction. -/
def emit (s : Stream) (i : Instr) : Stream :=
  { s with code := s.code ++ [i] }

/-- The constant a register stands for. -/
def constant? (s : Stream) (register : Int) : Option Constant :=
  s.constants.lookup register

/-- Makes a register stand for a constant. -/
def setConstant (s : Stream) (register : Int) (c : Constant) : Stream :=
  if (s.constant? register).isSome then
    { s with constants := s.constants.map fun (v, old) => (v, if v = register then c else old) }
  else { s with constants := s.constants ++ [(register, c)] }

/-- The instructions of the machine, without the pseudo instructions. -/
def target (s : Stream) : List Instr :=
  s.code.filter fun i => !i.op.isPseudo

/-- The entry of the table of immediates at an index. -/
def immediate (s : Stream) (index : Int) : Except Fault Constant :=
  if index < 0 then .error .outOfRange
  else match s.immediates[index.toNat]? with
    | some c => .ok c
    | none => .error .outOfRange

/-- The constant that an operand stands for. -/
def toConstant (s : Stream) (o : Operand) : Except Fault Constant :=
  match o with
  | .immediate index => s.immediate index
  | .constant register | .vreg register _ =>
    match s.constant? register with
    | some c => .ok c
    | none => .error { cause := .notConstant o }
  | .label _ | .unassigned _ _ _ => .error { cause := .notConstant o }

/-- The 32 bit integer that an operand stands for. -/
def toInt32 (s : Stream) (o : Operand) : Except Fault Int := do
  let c ← s.toConstant o
  if c.tag = .of .int32 then return (BitVec.ofInt 32 c.int).toInt
  throw { cause := .notInt32 o c }

/-- The register of an operand. -/
def toVreg (o : Operand) : Except Fault Int :=
  match o with
  | .vreg register _ | .constant register => .ok register
  | .immediate _ | .label _ | .unassigned _ _ _ => .error { cause := .notRegister o }

end Stream
end ArmBackend
