import ArmBackend.Selection.Basic

/-!
# The flexible operand

The last operand of a data processing instruction may be a number that fits the instruction or a
shifted register. An operator whose right operand does not fit is tried the other way round, with
the instruction that takes its operands exchanged.
-/

namespace ArmBackend.Selection

/-- How a shift operator is taken in: which shift it is, and which amounts fit an instruction. -/
structure ShiftRule where
  kind : ShiftKind
  least : Int
  greatest : Int
  deriving DecidableEq, Repr

/-- The rule of a shift operator. -/
def shiftRule? : Operator → Option ShiftRule
  | .word32 .sar => some ⟨.asr, 1, 32⟩
  | .word32 .shl => some ⟨.lsl, 0, 31⟩
  | .word32 .shr => some ⟨.lsr, 1, 32⟩
  | .word32 .ror => some ⟨.ror, 1, 31⟩
  | _ => none

/-- An addressing mode with the operands that it asks for. -/
structure Operand2 where
  mode : AddrMode
  operands : List Operand
  deriving DecidableEq, Repr

/-- A node as a shifted register, if it is a shift. -/
def tryShift (id : NodeId) : Select (Option Operand2) := do
  let g := (← read).graph
  let op ← g.op id
  if !op.isAssigned then throw .outOfRange
  match shiftRule? op with
  | none => return none
  | some rule =>
    let m ← g.binary id
    let value ← useRegister m.left.id
    if m.right.isInRange rule.least rule.greatest then
      return some ⟨.shiftImmediate rule.kind, [value, ← useImmediate m.right.id]⟩
    return some ⟨.shiftRegister rule.kind, [value, ← useRegister m.right.id]⟩

/-- A node as the flexible operand of an instruction, if it fits. -/
def tryOperand2 (op : Opcode) (id : NodeId) : Select (Option Operand2) := do
  let m ← (← read).graph.int32 id
  if m.value?.any op.canBeImmediate then
    return some ⟨.immediate, [← useImmediate id]⟩
  tryShift id

/-- Covers a binary node with `op`, or with `reverse` when only the left operand fits the flexible
one. -/
def coverBinary (id : NodeId) (op reverse : Opcode) (k : Continuation) : Select Unit := do
  let m ← (← read).graph.binary id
  if m.left.id = m.right.id then
    let x ← useRegister m.left.id
    emitFlags op .register k [← define id] [x, x]
  else if let some right ← tryOperand2 op m.right.id then
    let left ← useRegister m.left.id
    emitFlags op right.mode k [← define id] (left :: right.operands)
  -- the flexible operand is always the second, so a left one needs the reversed operation
  else if let some left ← tryOperand2 reverse m.left.id then
    let right ← useRegister m.right.id
    emitFlags reverse left.mode k [← define id] (right :: left.operands)
  else
    let left ← useRegister m.left.id
    let right ← useRegister m.right.id
    emitFlags op .register k [← define id] [left, right]

/-- Covers a comparison with an instruction that only sets flags. Exchanged operands exchange the
condition, unless the instruction is commutative. -/
def coverCompare (id : NodeId) (op : Opcode) (k : Continuation) (commutative : Bool) :
    Select Unit := do
  let m ← (← read).graph.binary id
  if let some right ← tryOperand2 op m.right.id then
    let left ← useRegister m.left.id
    emitFlags op right.mode k [] (left :: right.operands)
  else if let some left ← tryOperand2 op m.left.id then
    let right ← useRegister m.right.id
    -- swapping the operands of a comparison turns its condition round
    emitFlags op left.mode (if commutative then k else k.commute) [] (right :: left.operands)
  else
    let left ← useRegister m.left.id
    let right ← useRegister m.right.id
    emitFlags op .register k [] [left, right]

/-- Covers a test of a value against zero. -/
def coverTest (id : NodeId) (k : Continuation) : Select Unit := do
  let x ← useRegister id
  emitFlags .tst .register k [] [x, x]

/-- Covers a shift with a move of a shifted register. -/
def coverShift (id : NodeId) (k : Continuation) : Select Unit := do
  match ← tryShift id with
  | some shifted => emitFlags .mov shifted.mode k [← define id] shifted.operands
  | none => throw (.malformed id (← (← read).graph.op id) .notShift)

end ArmBackend.Selection
