import ArmBackend.Selection.Word

/-!
# Doubles and conversions

Covers operators on doubles. A product that only one sum or difference consumes is taken in by the
instruction that overwrites its accumulator.
-/

namespace ArmBackend.Selection

/-- Covers an operator with one operand. -/
def coverUnary (id : NodeId) (op : Opcode) : Select Unit := do
  let out ← define id
  let x ← useRegister (← (← read).graph.valueIn id 0)
  emit { op, out := [out], inputs := [x] }

/-- Covers an operator on two doubles. -/
def coverDoubles (id : NodeId) (op : Opcode) : Select Unit := do
  let n ← (← read).graph.node id
  let out ← define id
  let left ← useRegister (← n.input 0)
  let right ← useRegister (← n.input 1)
  emit { op, out := [out], inputs := [left, right] }

/-- Whether a node is a product of doubles that `user` alone consumes. -/
def isCoveredDoubleProduct (user id : NodeId) : Select Bool := do
  if (← (← read).graph.op id) ≠ .float64 .mul then return false
  canCover user id

/-- Emits a product combined with an accumulator. -/
def emitAccumulate (op : Opcode) (id product accumulator : NodeId) : Select Unit := do
  let n ← (← read).graph.node product
  let out ← defineAt id .sameAsFirst
  let x ← useRegister accumulator
  let left ← useRegister (← n.input 0)
  let right ← useRegister (← n.input 1)
  emit { op, out := [out], inputs := [x, left, right] }

/-- Covers a sum of doubles. -/
def coverDoubleAdd (id : NodeId) : Select Unit := do
  let n ← (← read).graph.node id
  let left ← n.input 0
  let right ← n.input 1
  if ← isCoveredDoubleProduct id left then emitAccumulate .vmla id left right
  else if ← isCoveredDoubleProduct id right then emitAccumulate .vmla id right left
  else coverDoubles id .vadd

/-- Covers a difference of doubles. -/
def coverDoubleSub (id : NodeId) : Select Unit := do
  let n ← (← read).graph.node id
  let right ← n.input 1
  if ← isCoveredDoubleProduct id right then emitAccumulate .vmls id right (← n.input 0)
  else coverDoubles id .vsub

/-- Covers a comparison of doubles. -/
def coverDoubleCompare (id : NodeId) (k : Continuation) : Select Unit := do
  let n ← (← read).graph.node id
  let left ← useRegister (← n.input 0)
  let right ← useRegister (← n.input 1)
  emitFlags .vcmp .none k [] [left, right]

end ArmBackend.Selection
