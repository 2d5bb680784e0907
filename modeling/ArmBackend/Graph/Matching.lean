import ArmBackend.Graph.Basic

/-!
# Matching

How passes look at the operands of a node: an operand may be a 32 bit constant, and of the two
operands of a commutative operator a constant is taken as the right one.
-/

namespace ArmBackend

/-- An operand, with its value when it is a 32 bit constant. -/
structure Int32Match where
  id : NodeId
  op : Operator
  value? : Option (BitVec 32)
  deriving DecidableEq, Repr

/-- The two operands of a binary node. -/
structure BinaryMatch where
  node : NodeId
  left : Int32Match
  right : Int32Match
  deriving DecidableEq, Repr

namespace Int32Match

/-- Whether the operand is the constant `v`. -/
def isConst (m : Int32Match) (v : BitVec 32) : Bool :=
  m.value? == some v

/-- Whether the operand is a constant between `least` and `greatest`. -/
def isInRange (m : Int32Match) (least greatest : Int) : Bool :=
  m.value?.any fun v => decide (least ≤ v.toInt ∧ v.toInt ≤ greatest)

/-- Whether the operand is a positive constant with a single bit. -/
def isPowerOf2 (m : Int32Match) : Bool :=
  m.value?.any fun v => decide (0 < v.toInt) && v &&& (v - 1) == 0

end Int32Match

/-- Whether both operands are constants. -/
def BinaryMatch.isFoldable (m : BinaryMatch) : Bool :=
  m.left.value?.isSome && m.right.value?.isSome

namespace Graph

/-- Looks at an operand. -/
def int32 (g : Graph) (id : NodeId) : Except Fault Int32Match := do
  let n ← g.node id
  return { id, op := n.op
           value? := if n.op = .constant .int32 then some (BitVec.ofInt 32 n.int) else none }

/-- Splits a binary node into its operands. -/
def binary (g : Graph) (id : NodeId) : Except Fault BinaryMatch := do
  let n ← g.node id
  if n.valueCount < 2 then throw (.malformed id n.op .notBinary)
  let left ← g.int32 (← n.input 0)
  let right ← g.int32 (← n.input 1)
  if n.op.isAssigned = false then throw .outOfRange
  if n.op.isCommutative && left.value?.isSome && right.value?.isNone then
    return { node := id, left := right, right := left }
  return { node := id, left, right }

/-- The operand of a bitwise complement, if `id` is one. -/
def complementOf? (g : Graph) (id : NodeId) : Except Fault (Option NodeId) := do
  if (← g.op id) ≠ .word32 .xor then return none
  let m ← g.binary id
  return if m.right.isConst (-1) then some m.left.id else none

end Graph

/-! ## Runs of ones -/

/-- The number of zeros below the lowest one. -/
def trailingZeros (v : BitVec 32) : Nat :=
  ((List.range 32).find? fun i => v.getLsbD i).getD 32

/-- The number of zeros above the highest one. -/
def leadingZeros (v : BitVec 32) : Nat :=
  ((List.range 32).find? fun i => v.getMsbD i).getD 32

/-- The number of ones. -/
def onesCount (v : BitVec 32) : Nat :=
  ((List.range 32).filter fun i => v.getLsbD i).length

/-- The lowest one of a word and how many ones it has, and whether these form a single run. -/
structure BitRun where
  lsb : Nat
  width : Nat
  contiguous : Bool
  deriving DecidableEq, Repr

/-- Looks for a single run of ones. -/
def bitRun (v : BitVec 32) : BitRun :=
  if v = 0 then ⟨0, 0, false⟩
  else
    let lsb := trailingZeros v
    let width := onesCount v
    ⟨lsb, width, leadingZeros v + width + lsb == 32⟩

end ArmBackend
