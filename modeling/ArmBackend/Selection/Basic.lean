import ArmBackend.Graph.Matching
import ArmBackend.Graph.Uses
import ArmBackend.Schedule.Basic
import ArmBackend.Selection.Linkage
import ArmBackend.Stream.Basic
import ArmBackend.Target

/-!
# Covering a node

Instruction selection goes through the blocks from the last to the first and through the nodes of a
block from the bottom up. The users of a node are covered before the node, so an instruction may
take a node in whose value only it consumes; such a node is never marked as used and gets no code
of its own.

This module holds what every rule of selection works with: the scheduled graph, the marks and
registers given so far, how an operand is used or defined, and how an instruction is emitted. The
instructions of one node form a segment, in the order of execution.
-/

namespace ArmBackend.Selection

/-- What a rule can look at: the scheduled graph, the features of the target, and the block and the
node that are being covered. -/
structure Site where
  graph : Graph
  schedule : Schedule
  features : Features
  block : Nat := 0
  node : NodeId := -1

/-- What selection has done so far. -/
structure State where
  /-- The tables of the stream. Its code is put in at the end. -/
  stream : Stream := {}
  /-- The registers of nodes that are no constants. -/
  vregs : List (NodeId × Nat) := []
  /-- The registers handed out for nodes that are constants, the latest first. No rule looks at this
  record: a constant is found by its value. -/
  handedOut : List (NodeId × Nat) := []
  /-- Where the parameters come in. -/
  params : List (NodeId × Operand) := []
  used : List NodeId := []
  defined : List NodeId := []
  /-- The instructions of the node being covered. -/
  segment : List Instr := []
  /-- The joins of the block being covered. -/
  phis : List Stream.Phi := []

end Selection

/-- Steps of selection. -/
abbrev Select := ReaderT Selection.Site (StateT Selection.State (Except Fault))

namespace Selection

/-! ## Marks -/

/-- Marks a node as needed at run time. -/
def markUsed (id : NodeId) : Select Unit := do
  if id < 0 then throw .outOfRange
  modify fun s => { s with used := s.used.insert id }

/-- Marks a node as computed by an instruction. -/
def markDefined (id : NodeId) : Select Unit := do
  if id < 0 then throw .outOfRange
  modify fun s => { s with defined := s.defined.insert id }

/-- Whether a node needs code: it has an effect, or its value is used. -/
def isUsed (id : NodeId) : Select Bool := do
  let op ← (← read).graph.op id
  if !op.isAssigned then throw .outOfRange
  return !op.isPure || (← get).used.contains id

/-- Whether `user` is the only consumer of `id` and stands in the same block, so that its
instruction may take `id` in. -/
def canCover (user id : NodeId) : Select Bool := do
  let site ← read
  if site.schedule.blockOf id ≠ site.schedule.blockOf user then return false
  let uses ← site.graph.uses id
  return (uses.filter fun u => (site.schedule.blockOf u.user).isSome).length == 1

/-! ## Registers -/

/-- The node whose register holds the value of `id`: the end of a region passes its value on, and
the value of an operation with overflow is its projection 0. -/
def carrier (g : Graph) : Nat → NodeId → Except Fault NodeId
  | 0, _ => .error .endless
  | fuel + 1, id => do
    let n ← g.node id
    match n.op with
    | .finish => carrier g fuel (← n.input 0)
    | .projection =>
      let x ← n.input 0
      if (← g.op x).hasOverflow && n.int = 0 then return x
      return id
    | _ => return id

/-- The representation of the value of a node other than the end of a region. -/
def nodeRep (n : Node) : Rep :=
  match n.op with
  | .constant .float64 | .convert .int32ToFloat64 | .convert .uint32ToFloat64 => .float64
  | .float64 .add | .float64 .sub | .float64 .mul | .float64 .div => .float64
  | .load | .phi => n.rep
  | .parameter => n.mach.rep
  | .constant .heap | .call => .tagged
  | .constant .int64 => .word64
  | _ => .word32

/-- The representation of the value of a node. -/
def repOf (g : Graph) : Nat → NodeId → Except Fault Rep
  | 0, _ => .error .endless
  | fuel + 1, id => do
    let n ← g.node id
    if n.op = .finish then repOf g fuel (← n.input 0) else return nodeRep n

/-- Whether the value of a node is a double. -/
def isDouble (id : NodeId) : Select Bool := do
  let g := (← read).graph
  return (← repOf g (g.size + 1) id) == .float64

/-- Notes what kind of value the register of a node holds. -/
def markRep (id : NodeId) (v : Nat) : Select Unit := do
  let g := (← read).graph
  match ← repOf g (g.size + 1) id with
  | .float64 => modify fun s =>
      { s with stream := { s.stream with doubles := s.stream.doubles.insert v } }
  | .tagged => modify fun s =>
      { s with stream := { s.stream with references := s.stream.references.insert v } }
  | _ => return

/-- A register that was not used before. -/
def newVreg : Select Nat :=
  modifyGet fun s =>
    let (stream, v) := s.stream.newVreg
    (v, { s with stream })

/-- The constant that a node stands for. -/
def constantOf? (n : Node) : Option Constant :=
  match n.op with
  | .constant .int32 => some (.ofInt32 (BitVec.ofInt 32 n.int))
  | .constant .int64 => some { tag := .of .int64, int := n.int }
  | .constant .float64 => some { tag := .of .float64, float := n.float }
  | .constant .heap => some { tag := .of .heap, name := n.name }
  | .constant .external => some { tag := .of .external, name := n.name }
  | _ => none

/-- The register of a constant. Equal constants share one. -/
def constantVreg (id : NodeId) (c : Constant) : Select Nat := do
  let table := (← get).stream.constants
  match table.find? fun (_, old) => old.sameEntry c with
  | some (v, _) => return v.toNat
  | none =>
    let v ← newVreg
    modify fun s => { s with stream := s.stream.setConstant v c }
    markRep id v
    return v

/-- The register of a node of its own. -/
def ownVreg (id : NodeId) : Select Nat := do
  match (← get).vregs.lookup id with
  | some v => return v
  | none =>
    let v ← newVreg
    modify fun s => { s with vregs := (id, v) :: s.vregs }
    return v

/-- The register that holds the value of a node. -/
def vreg (id : NodeId) : Select Nat := do
  let g := (← read).graph
  let x ← carrier g (g.size + 1) id
  match constantOf? (← g.node x) with
  | some c =>
    let v ← constantVreg x c
    modify fun s => { s with handedOut := (x, v) :: s.handedOut }
    return v
  | none => ownVreg x

/-! ## Operands -/

/-- The value of a node, at a given place. -/
def useAt (id : NodeId) (location : Location) : Select Operand := do
  markUsed id
  return .vreg (← vreg id) location

/-- The value of a node, in a register. -/
def useRegister (id : NodeId) : Select Operand :=
  useAt id .register

/-- A number in the instruction. -/
def immediate (v : BitVec 32) : Select Operand :=
  modifyGet fun s =>
    let (stream, i) := s.stream.addImmediate (.ofInt32 v)
    (.immediate i, { s with stream })

/-- A constant in the instruction. The node of the constant is not needed at run time. -/
def useImmediate (id : NodeId) : Select Operand := do
  let m ← (← read).graph.int32 id
  match m.value? with
  | some v => immediate v
  | none => throw (.malformed id m.op .notImmediate)

/-- The value of a node as the output of an instruction, at a given place. -/
def defineAt (id : NodeId) (location : Location) : Select Operand := do
  markDefined id
  let v ← vreg id
  markRep id v
  return .vreg v location

/-- The value of a node as the output of an instruction, in a register. -/
def define (id : NodeId) : Select Operand :=
  defineAt id .register

/-- A register for a value between two instructions. -/
def tempRegister : Select Operand := do
  return .vreg (← newVreg) .register

/-- A register that an instruction overwrites. -/
def tempAt (location : Location) : Select Operand := do
  return .vreg (← newVreg) location

/-- A double register for a value between two instructions. -/
def tempDouble : Select Operand := do
  let v ← newVreg
  modify fun s => { s with stream := { s.stream with doubles := s.stream.doubles.insert v } }
  return .vreg v .register

/-! ## Instructions -/

/-- Appends an instruction to the segment. -/
def emit (i : Instr) : Select Unit := do
  match i.check with
  | .ok () => modify fun s => { s with segment := s.segment ++ [i] }
  | .error defect =>
    let site ← read
    let op ← if 0 ≤ site.node then site.graph.op site.node else pure .invalid
    throw (.malformed site.node op (.instruction defect))

/-- What the condition flags of an instruction are for. -/
inductive FlagsUse
  | unused
  /-- They make the value of a node. -/
  | result (node : NodeId)
  /-- They decide between two blocks. -/
  | branch (ifTrue ifFalse : Nat)
  deriving DecidableEq, Repr

/-- The condition under which the flags count as true, and what they are for. -/
structure Continuation where
  use : FlagsUse := .unused
  cond : Cond := .eq
  deriving DecidableEq, Repr

namespace Continuation

/-- The value of a node is one when the condition holds. -/
def result (cond : Cond) (node : NodeId) : Continuation :=
  { use := .result node, cond }

/-- The first block is next when the condition holds, the second otherwise. -/
def branch (cond : Cond) (ifTrue ifFalse : Nat) : Continuation :=
  { use := .branch ifTrue ifFalse, cond }

/-- The opposite condition. -/
def negate (k : Continuation) : Continuation :=
  { k with cond := k.cond.negate }

/-- The condition for exchanged operands. -/
def commute (k : Continuation) : Continuation :=
  { k with cond := k.cond.commute }

/-- Whether the flags decide a branch. -/
def isBranch (k : Continuation) : Bool :=
  match k.use with
  | .branch _ _ => true
  | _ => false

/-- Another condition in place of the comparison with zero: a continuation that asks for zero asks
for the opposite. -/
def overwrite (k : Continuation) (cond : Cond) : Continuation :=
  { k with cond := if k.cond = .eq then cond.negate else cond }

end Continuation

/-- Emits an instruction and puts its flags to use. -/
def emitFlags (op : Opcode) (mode : AddrMode) (k : Continuation) (out inputs : List Operand) :
    Select Unit := do
  match k.use with
  | .unused => emit { op, mode, cond := k.cond, out, inputs }
  | .result node =>
    let flag ← define node
    emit { op, mode, flags := .set, cond := k.cond, out := out ++ [flag], inputs }
  | .branch t f =>
    emit { op, mode, flags := .branch, cond := k.cond, out,
           inputs := inputs ++ [.label t, .label f] }

end Selection
end ArmBackend
