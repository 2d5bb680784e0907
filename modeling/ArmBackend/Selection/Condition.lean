import ArmBackend.Selection.Double

/-!
# Conditions

A value that is compared with zero, by a branch or by an equality, may itself be a comparison, an
overflow or arithmetic that nothing else consumes. The instruction that computes it then sets the
flags, and the condition is the one the operator stands for.
-/

namespace ArmBackend.Selection

/-- A comparison: how its instruction is chosen, and the condition that makes it true. -/
inductive Comparison
  | words (cond : Cond)
  | doubles (cond : Cond)
  deriving DecidableEq, Repr

/-- The comparison that an operator is. -/
def comparison? : Operator → Option Comparison
  | .word32 .equal => some (.words .eq)
  | .int32 .lessThan => some (.words .lt)
  | .int32 .lessThanOrEqual => some (.words .le)
  | .int32 .unsignedLessThan => some (.words .lo)
  | .int32 .unsignedLessThanOrEqual => some (.words .ls)
  | .float64 .equal => some (.doubles .ueq)
  | .float64 .lessThan => some (.doubles .ult)
  | .float64 .lessThanOrEqual => some (.doubles .ule)
  | _ => none

/-- The condition of a comparison. -/
def Comparison.cond : Comparison → Cond
  | .words cond => cond
  | .doubles cond => cond

/-- Emits the instruction of a comparison. -/
def emitComparison (c : Comparison) (id : NodeId) (k : Continuation) : Select Unit :=
  match c with
  | .words _ => coverCompare id .cmp k false
  | .doubles _ => coverDoubleCompare id k

/-- The instructions of an operation with overflow, for either order of the operands. -/
def overflowOps? : Operator → Option (Opcode × Opcode)
  | .int32 .addWithOverflow => some (.add, .add)
  | .int32 .subWithOverflow => some (.sub, .rsb)
  | _ => none

/-- The instruction that sets the flags as an operator would and drops the value. -/
def testOp? : Operator → Option Opcode
  | .word32 .and => some .tst
  | .word32 .xor => some .teq
  | .int32 .add => some .cmn
  | .int32 .sub => some .cmp
  | _ => none

/-- The operation whose overflow a branch may test by emitting it: it stands in the branch's block,
has no code yet, and its value is not used in the block before the branch. -/
def fusedOverflow? (projection : NodeId) (k : Continuation) :
    Select (Option (NodeId × Opcode × Opcode)) := do
  let site ← read
  let g := site.graph
  if !k.isBranch || (← g.node projection).int ≠ 1 then return none
  let x ← g.valueIn projection 0
  let op ← g.op x
  if !op.isAssigned then throw .outOfRange
  match overflowOps? op with
  | none => return none
  | some (direct, reverse) =>
    -- the operation has to be written here, and its value wanted nowhere else in the block
    if (← get).defined.contains x || site.schedule.blockOf x ≠ some site.block then return none
    let value ← g.findProjection x 0
    if value < 0 then return some (x, direct, reverse)
    let uses ← g.uses value
    if uses.any fun u => site.schedule.blockOf u.user = some site.block then return none
    return some (x, direct, reverse)

/-- Strips comparisons with zero that nothing else consumes; each one turns the condition round. -/
def stripNegations : Nat → NodeId → NodeId → Continuation → Select (NodeId × NodeId × Continuation)
  | 0, _, _, _ => throw .endless
  | fuel + 1, user, value, k => do
    if !(← canCover user value) then return (user, value, k)
    let g := (← read).graph
    if (← g.op value) ≠ .word32 .equal then return (user, value, k)
    let m ← g.binary value
    if !m.right.isConst 0 then return (user, value, k)
    stripNegations fuel value m.left.id k.negate

/-- Covers the operator of a value that is compared with zero. -/
def coverFlags (value : NodeId) (k : Continuation) : Select Unit := do
  let op ← (← read).graph.op value
  if let some c := comparison? op then
    emitComparison c value (k.overwrite c.cond)
  else if let some test := testOp? op then
    coverCompare value test k op.isCommutative
  else match op with
    | .projection =>
      -- an overflow flag is read off the operation that sets it
      match ← fusedOverflow? value k with
      | some (x, direct, reverse) => coverBinary x direct reverse (k.overwrite .vs)
      | none => coverTest value k
    | .word32 .or => coverBinary value .orr .orr k
    | .word32 .shl | .word32 .shr | .word32 .sar | .word32 .ror => coverShift value k
    | _ => coverTest value k

/-- Covers a comparison of `value` with zero on behalf of `user`. -/
def coverCompareZero (user value : NodeId) (k : Continuation) : Select Unit := do
  let (user, value, k) ← stripNegations ((← read).graph.size + 1) user value k
  if ← canCover user value then coverFlags value k else coverTest value k

/-- Covers a comparison whose value is needed. -/
def coverComparison (id : NodeId) (c : Comparison) : Select Unit :=
  emitComparison c id (.result c.cond id)

/-- Covers an equality of words whose value is needed. -/
def coverEqual (id : NodeId) : Select Unit := do
  let m ← (← read).graph.binary id
  if m.right.isConst 0 then coverCompareZero id m.left.id (.result .eq id)
  else coverCompare id .cmp (.result .eq id) false

/-- Covers an operation with overflow; the flag is materialised for its projection 1. -/
def coverOverflow (id : NodeId) (direct reverse : Opcode) : Select Unit := do
  let site ← read
  let flag ← site.graph.findProjection id 1
  let k : Continuation :=
    if 0 ≤ flag ∧ (site.schedule.blockOf flag).isSome then .result .vs flag else {}
  coverBinary id direct reverse k

/-- Covers a branch. -/
def coverBranch (id : NodeId) (ifTrue ifFalse : Nat) : Select Unit := do
  coverCompareZero id (← (← read).graph.valueIn id 0) (.branch .ne ifTrue ifFalse)

end ArmBackend.Selection
