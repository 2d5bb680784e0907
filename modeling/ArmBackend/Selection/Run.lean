import ArmBackend.Selection.Access
import ArmBackend.Selection.Condition

/-!
# Selecting instructions

Covers every block of a scheduled graph and lays the code out in the order of the blocks. A block is
covered from its end: first the control node, then the nodes from the last to the first, so that
each segment goes in front of those covered before it.
-/

namespace ArmBackend.Selection

/-! ## Parameters, joins and projections -/

/-- The parameters of a graph in the order of their indices. -/
def parameters (g : Graph) : List (NodeId × Node) :=
  (g.nodes.toList.zipIdx.filterMap fun (n, id) =>
    if n.op = .parameter then some ((id : NodeId), n) else none).mergeSort
      fun a b => decide (a.2.int ≤ b.2.int)

/-- Gives the parameters their registers and incoming locations. -/
def assignParameters : Linkage → List (NodeId × Node) → Select Unit
  | _, [] => return
  | l, (id, n) :: rest => do
    let (l, location) := l.next (n.mach == .float64)
    let v ← vreg id
    modify fun s => { s with params := (id, .vreg v location) :: s.params }
    assignParameters l rest

/-- Covers a parameter: it is defined where it comes in. -/
def coverParameter (id : NodeId) : Select Unit := do
  match (← get).params.lookup id with
  | none => throw (.malformed id .parameter .noLocation)
  | some location =>
    markDefined id
    markRep id (← vreg id)
    emit { op := .nop, out := [location] }

/-- Covers a join of values. -/
def coverPhi (id : NodeId) : Select Unit := do
  let n ← (← read).graph.node id
  let out ← vreg id
  let inputs ← (← n.valueInputs).mapM fun x => do
    markUsed x
    return (← vreg x : Int)
  markDefined id
  markRep id out
  modify fun s => { s with phis := { out, inputs } :: s.phis }

/-- Covers a projection. It has no code: projection 0 shares the register of the operation, and
projection 1 is the flag that the operation defines. -/
def coverProjection (id : NodeId) : Select Unit := do
  let g := (← read).graph
  let x ← g.valueIn id 0
  let op ← g.op x
  if !op.hasOverflow then throw (.malformed id .projection (.projectionOf op))
  markUsed x

/-! ## Nodes -/

/-- Covers a 32 bit operator. -/
def coverWord32 (id : NodeId) : Word32Op → Select Unit
  | .and => coverAnd id
  | .or => coverBinary id .orr .orr {}
  | .xor => coverXor id
  | .shl | .sar | .ror => coverShift id {}
  | .shr => coverShr id
  | .equal => coverEqual id

/-- Covers an integer operator. -/
def coverInt32 (id : NodeId) : Int32Op → Select Unit
  | .add => coverAdd id
  | .addWithOverflow => coverOverflow id .add .add
  | .sub => coverSub id
  | .subWithOverflow => coverOverflow id .sub .rsb
  | .mul => coverMul id
  | .div => coverDivision id .signed
  | .udiv => coverDivision id .unsigned
  | .mod => coverRemainder id .signed
  | .umod => coverRemainder id .unsigned
  | .lessThan => coverComparison id (.words .lt)
  | .lessThanOrEqual => coverComparison id (.words .le)
  | .unsignedLessThan => coverComparison id (.words .lo)
  | .unsignedLessThanOrEqual => coverComparison id (.words .ls)

/-- The instruction of a conversion; none for those that need 64 bit words. -/
def conversionOp? : Conversion → Option Opcode
  | .int32ToFloat64 => some .vcvtF64S32
  | .uint32ToFloat64 => some .vcvtF64U32
  | .float64ToInt32 => some .vcvtS32F64
  | .float64ToUint32 => some .vcvtU32F64
  | .truncateFloat64ToInt32 => some .truncateDouble
  | .int32ToInt64 | .uint32ToUint64 | .truncateInt64ToInt32 => none

/-- Covers an operator on doubles. -/
def coverFloat64 (id : NodeId) : Float64Op → Select Unit
  | .add => coverDoubleAdd id
  | .sub => coverDoubleSub id
  | .mul => coverDoubles id .vmul
  | .div => coverDoubles id .vdiv
  | .equal => coverComparison id (.doubles .ueq)
  | .lessThan => coverComparison id (.doubles .ult)
  | .lessThanOrEqual => coverComparison id (.doubles .ule)

/-- Turns an operator down that has no code. -/
def unsupported (id : NodeId) (op : Operator) : Select Unit :=
  throw { cause := .unsupported (.operator id op) }

/-- Covers a node. -/
def coverNode (id : NodeId) : Select Unit := do
  let g := (← read).graph
  let op ← g.op id
  match op with
  -- control, joins of effects and constants need no instruction
  | .start | .exit | .dead | .merge | .ifTrue | .ifFalse | .effectPhi | .valueEffect
  | .controlEffect | .constant _ => return
  | .parameter => coverParameter id
  | .phi => coverPhi id
  | .projection => coverProjection id
  -- a finished value is the value it was given
  | .finish => markUsed (← g.valueIn id 0)
  | .call => coverCall id
  | .load => coverLoad id
  | .store => coverStore id
  | .word32 w => coverWord32 id w
  | .int32 i => coverInt32 id i
  | .convert c =>
    match conversionOp? c with
    | some code => coverUnary id code
    | none => unsupported id op
  | .float64 f => coverFloat64 id f
  | .invalid | .branch | .ret | .change _ | .stringAdd | .word64 _ | .unassigned _ =>
    unsupported id op

/-! ## Blocks -/

/-- The successor of a block that a projection of its branch leads to, directly or through a
merge. -/
def targetOf? (g : Graph) (s : Schedule) (projection : NodeId) :
    List Nat → Except Fault (Option Nat)
  | [] => return none
  | x :: rest => do
    let block ← s.block x
    if block.head = projection then return some x
    let head ← g.node block.head
    if head.op = .merge && head.inputs.contains projection then return some x
    targetOf? g s projection rest

/-- The blocks that the last projections of a branch, in the order of the uses, lead to. -/
def branchTargets (g : Graph) (s : Schedule) (block : Block) (branch : NodeId) :
    Except Fault (Nat × Nat) := do
  let (t, f) ← (← g.uses branch).foldlM
    (fun (t, f) u => do
      match ← g.op u.user with
      | .ifTrue => return (← targetOf? g s u.user block.succ, f)
      | .ifFalse => return (t, ← targetOf? g s u.user block.succ)
      | _ => return (t, f))
    ((none, none) : Option Nat × Option Nat)
  match t, f with
  | some t, some f => return (t, f)
  | _, _ => throw (.malformed branch .branch .noBranchTargets)

/-- Covers a return. -/
def coverReturn (id : NodeId) : Select Unit := do
  let x ← (← read).graph.valueIn id 0
  let inRegister ← useAt x (.fixedRegister 0)
  let result ← if ← isDouble x then useAt x (.fixedDouble 0) else pure inRegister
  emit { op := .ret, inputs := [result] }

/-- Covers the end of a block. -/
def coverControl (b : Nat) (block : Block) : Select Unit := do
  let site ← read
  let control := block.control.getD (-1)
  match block.kind with
  | .goto =>
    match block.succ with
    | [target] => emit { op := .jmp, inputs := [.label target] }
    | succ =>
      throw (.malformed block.head (← site.graph.op block.head) (.gotoSuccessors succ.length))
  | .branch =>
    let (t, f) ← branchTargets site.graph site.schedule block control
    coverBranch control t f
  | .ret => coverReturn control
  | .none => throw (.malformed block.head (← site.graph.op block.head) (.unterminated b))

/-- Covers one node or the end of a block, and gives its segment. -/
def segmentOf (b : Nat) (id : NodeId) (cover : Select Unit) : Select (List Instr) := do
  modify fun s => { s with segment := [] }
  withReader (fun site => { site with block := b, node := id }) cover
  return (← get).segment

/-- Covers the nodes of a block, given from the last to the first. The code goes in front of what
follows. -/
def coverNodes (b : Nat) : List NodeId → List Instr → Select (List Instr)
  | [], code => return code
  | id :: rest, code => do
    let used ← isUsed id
    if used && !(← get).defined.contains id then
      let segment ← segmentOf b id (coverNode id)
      coverNodes b rest (segment ++ code)
    else coverNodes b rest code

/-- The code of a block. -/
structure Covered where
  id : Nat
  succ : List Nat
  phis : List Stream.Phi
  code : List Instr

/-- Covers a block. -/
def coverBlock (b : Nat) (block : Block) : Select Covered := do
  modify fun s => { s with phis := [] }
  let last ← segmentOf b (block.control.getD (-1)) (coverControl b block)
  let code ← coverNodes b block.nodes.reverse last
  return { id := b, succ := block.succ, phis := (← get).phis, code }

/-- Covers blocks, given from the last to the first; the result is in the order of the blocks. -/
def coverBlocks : List (Block × Nat) → List Covered → Select (List Covered)
  | [], done => return done
  | (block, b) :: rest, done => do
    let covered ← coverBlock b block
    coverBlocks rest (covered :: done)

/-- Appends the code of a block to a stream. -/
def appendBlock (s : Stream) (c : Covered) : Stream :=
  let start : Int := s.code.length
  { s with
    code := s.code ++ c.code
    blocks := s.blocks ++ [{
      id := c.id, phis := c.phis, succ := c.succ.map fun (x : Nat) => (x : Int)
      start, stop := start + c.code.length }] }

/-- Covers a whole schedule. -/
def coverAll : Select (List Covered) := do
  let site ← read
  assignParameters {} (parameters site.graph)
  coverBlocks site.schedule.blocks.toList.zipIdx.reverse []

end Selection

/-- Selects instructions for a scheduled graph. -/
def select (graph : Graph) (schedule : Schedule) (features : Features) : Except Fault Stream := do
  let (covered, s) ← (Selection.coverAll.run { graph, schedule, features }).run {}
  return covered.foldl Selection.appendBlock s.stream

end ArmBackend
