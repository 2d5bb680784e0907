import ArmBackend.Fault

/-!
# Graphs

A graph is an arena of nodes that refer to each other by number. The inputs of a node are its value
inputs, then its effect inputs, then its control inputs; three counts tell where one group ends and
the next begins. Node 0 starts the control chain and the exit node, once set, collects the returns.

The counts are integers and inputs may name any number: a graph can be built wrong, and
`Graph.verify` is what tells. An access outside the arena or an input list is the fault
`Fault.outOfRange`.
-/

namespace ArmBackend

/-- What travels along an edge. -/
inductive EdgeKind
  | value
  | effect
  | control
  deriving DecidableEq, Repr

/-- A node: its operator, its inputs and the parameters of the operator. -/
structure Node where
  op : Operator
  inputs : List NodeId := []
  valueCount : Int := 0
  effectCount : Int := 0
  controlCount : Int := 0
  /-- The value of an integer constant, the index of a parameter or projection. -/
  int : Int := 0
  /-- The value of a double constant. -/
  float : Double := ⟨0⟩
  /-- The name of a heap object or external entry. -/
  name : String := ""
  /-- What a load, store or phi moves. -/
  rep : Rep := .none
  /-- The type of a parameter, or whether a load extends the sign. -/
  mach : MachineType := .none
  barrier : WriteBarrier := .none
  deriving DecidableEq, Repr

/-- An arena of nodes. -/
structure Graph where
  nodes : Array Node
  exit : Option NodeId := none

namespace Node

/-- The input at an index. -/
def input (n : Node) (index : Int) : Except Fault NodeId :=
  if index < 0 then .error .outOfRange
  else match n.inputs[index.toNat]? with
    | some x => .ok x
    | none => .error .outOfRange

/-- The inputs from one position up to another. -/
def inputsBetween (n : Node) (first last : Int) : Except Fault (List NodeId) :=
  if 0 ≤ first ∧ first ≤ last ∧ last ≤ n.inputs.length then
    .ok ((n.inputs.take last.toNat).drop first.toNat)
  else .error .outOfRange

/-- The value inputs. -/
def valueInputs (n : Node) : Except Fault (List NodeId) :=
  n.inputsBetween 0 n.valueCount

/-- The effect inputs. -/
def effectInputs (n : Node) : Except Fault (List NodeId) :=
  n.inputsBetween n.valueCount (n.valueCount + n.effectCount)

/-- The control inputs. -/
def controlInputs (n : Node) : Except Fault (List NodeId) :=
  n.inputsBetween (n.valueCount + n.effectCount) n.inputs.length

/-- The first effect input, or no node. -/
def effectIn (n : Node) : Except Fault NodeId :=
  if n.effectCount = 0 then .ok (-1) else n.input n.valueCount

/-- The first control input, or no node. -/
def controlIn (n : Node) : Except Fault NodeId :=
  if n.controlCount = 0 then .ok (-1) else n.input (n.valueCount + n.effectCount)

/-- The kind of the edge at an index. -/
def edgeKind (n : Node) (index : Nat) : EdgeKind :=
  if (index : Int) < n.valueCount then .value
  else if (index : Int) < n.valueCount + n.effectCount then .effect
  else .control

/-! ## Nodes of each operator -/

/-- A node whose edges are counted by the arity of its operator. -/
def ofArity (op : Operator) (inputs : List NodeId) : Node :=
  let arity := op.arity?.getD {}
  { op, inputs
    valueCount := arity.value.getD 0
    effectCount := arity.effect.getD 0
    controlCount := arity.control.getD 0 }

/-- A 32 bit integer constant. -/
def int32 (v : BitVec 32) : Node :=
  { op := .constant .int32, int := v.toInt }

/-- A 64 bit integer constant. -/
def int64 (v : Int) : Node :=
  { op := .constant .int64, int := v }

/-- A double constant. -/
def float64 (x : Double) : Node :=
  { op := .constant .float64, float := x }

/-- A constant heap object. -/
def heap (name : String) : Node :=
  { op := .constant .heap, name }

/-- The address of an external entry. -/
def external (name : String) : Node :=
  { op := .constant .external, name }

/-- The parameter with an index. -/
def parameter (index : Int) (type : MachineType) : Node :=
  { op := .parameter, inputs := [0], controlCount := 1, int := index, mach := type }

/-- One result of a node with several. -/
def projection (index : Int) (x : NodeId) : Node :=
  { op := .projection, inputs := [x], valueCount := 1, int := index }

/-- A join of values; the last input is the merge. -/
def phi (rep : Rep) (inputs : List NodeId) : Node :=
  { op := .phi, inputs, valueCount := inputs.length - 1, controlCount := 1, rep }

/-- A join of effects; the last input is the merge. -/
def effectPhi (inputs : List NodeId) : Node :=
  { op := .effectPhi, inputs, effectCount := inputs.length - 1, controlCount := 1 }

/-- A join of control. -/
def merge (inputs : List NodeId) : Node :=
  { op := .merge, inputs, controlCount := inputs.length }

/-- The node that collects the returns. -/
def collect (returns : List NodeId) : Node :=
  { op := .exit, inputs := returns, controlCount := returns.length }

/-- A call of `target`; effect and control follow the arguments. -/
def call (target : NodeId) (arguments : List NodeId) (effect control : NodeId) : Node :=
  { op := .call, inputs := target :: arguments ++ [effect, control]
    valueCount := 1 + arguments.length, effectCount := 1, controlCount := 1 }

/-- The edges that anchor a node in the chains: a negative number is no edge. -/
def anchors (x : NodeId) : List NodeId :=
  if 0 ≤ x then [x] else []

/-- A load of `rep` at `base + index`; the control input may be absent. -/
def load (rep : Rep) (base index effect control : NodeId) : Node :=
  { op := .load, inputs := [base, index, effect] ++ anchors control
    valueCount := 2, effectCount := 1, controlCount := (anchors control).length, rep }

/-- A store of `rep` to `base + index`; the control input may be absent. -/
def store (rep : Rep) (barrier : WriteBarrier) (base index value effect control : NodeId) : Node :=
  { op := .store, inputs := [base, index, value, effect] ++ anchors control
    valueCount := 3, effectCount := 1, controlCount := (anchors control).length, rep, barrier }

/-- A representation change; the effect and control inputs may be absent. -/
def change (op : Operator) (x effect control : NodeId) : Node :=
  { op, inputs := x :: anchors effect ++ anchors control
    valueCount := 1, effectCount := (anchors effect).length
    controlCount := (anchors control).length }

end Node

namespace Graph

/-- The node every graph starts with. -/
def start : NodeId := 0

/-- The graph that has only its start node. -/
def empty : Graph :=
  { nodes := #[{ op := .start }] }

/-- The number of nodes. -/
def size (g : Graph) : Nat :=
  g.nodes.size

/-- The node with a number, if there is one. -/
def node? (g : Graph) (id : NodeId) : Option Node :=
  if id < 0 then none else g.nodes[id.toNat]?

/-- The node with a number. -/
def node (g : Graph) (id : NodeId) : Except Fault Node :=
  match g.node? id with
  | some n => .ok n
  | none => .error .outOfRange

/-- The operator of a node. -/
def op (g : Graph) (id : NodeId) : Except Fault Operator :=
  match g.node? id with
  | some n => .ok n.op
  | none => .error .outOfRange

/-- The first effect input of a node, or no node. -/
def effectIn (g : Graph) (id : NodeId) : Except Fault NodeId := do
  (← g.node id).effectIn

/-- The first control input of a node, or no node. -/
def controlIn (g : Graph) (id : NodeId) : Except Fault NodeId := do
  (← g.node id).controlIn

/-- A value input of a node. -/
def valueIn (g : Graph) (id : NodeId) (index : Int) : Except Fault NodeId := do
  let n ← g.node id
  if n.valueCount ≤ index then throw (.malformed id n.op (.noValueInput index))
  n.input index

/-! ## Building -/

/-- The graph with one more node, and its number. -/
def push (g : Graph) (n : Node) : Graph × NodeId :=
  ({ g with nodes := g.nodes.push n }, g.nodes.size)

/-- Adds a node of an operator with a fixed number of inputs. -/
def addNode (g : Graph) (op : Operator) (inputs : List NodeId) :
    Except Fault (Graph × NodeId) :=
  match op.arity? with
  | none => .error .outOfRange
  | some ⟨some v, some e, some c⟩ =>
    if v + e + c = inputs.length then .ok (g.push (.ofArity op inputs))
    else .error (.malformed (-1) op (.inputCount inputs.length))
  | some _ => .error (.malformed (-1) op (.inputCount inputs.length))

/-- Adds a node that is described in full. -/
def add (g : Graph) (n : Node) : Except Fault (Graph × NodeId) :=
  if (n.inputs.length : Int) = n.valueCount + n.effectCount + n.controlCount then .ok (g.push n)
  else .error (.malformed (-1) n.op
    (.edgeCounts n.valueCount n.effectCount n.controlCount n.inputs.length))

/-- Adds a join of values; the last input is the merge. -/
def addPhi (g : Graph) (rep : Rep) (inputs : List NodeId) : Except Fault (Graph × NodeId) :=
  if inputs.length < 2 then .error (.malformed (-1) .phi .noMerge)
  else .ok (g.push (.phi rep inputs))

/-- Adds a join of effects; the last input is the merge. -/
def addEffectPhi (g : Graph) (inputs : List NodeId) : Except Fault (Graph × NodeId) :=
  if inputs.length < 2 then .error (.malformed (-1) .effectPhi .noMerge)
  else .ok (g.push (.effectPhi inputs))

/-- Adds a representation change. -/
def addChange (g : Graph) (op : Operator) (x effect control : NodeId) :
    Except Fault (Graph × NodeId) :=
  if op.isChange then .ok (g.push (.change op x effect control))
  else .error (.malformed (-1) op .notChange)

/-- Adds the bitwise complement of `x`: an exclusive or with all ones. -/
def addNot (g : Graph) (x : NodeId) : Graph × NodeId :=
  let (g, ones) := g.push (.int32 (-1))
  g.push (.ofArity (.word32 .xor) [x, ones])

/-- Makes a new node that collects `returns` the exit. -/
def setExit (g : Graph) (returns : List NodeId) : Graph × NodeId :=
  let (g, id) := g.push (.collect returns)
  ({ g with exit := some id }, id)

/-- Sets the machine type of a node. -/
def setMach (g : Graph) (id : NodeId) (type : MachineType) : Graph :=
  { g with nodes := g.nodes.modify id.toNat fun n => { n with mach := type } }

/-- Cuts a node off its inputs; it stays in the arena as a dead node. -/
def kill (g : Graph) (id : NodeId) : Except Fault Graph :=
  match g.node? id with
  | some _ => .ok { g with nodes := g.nodes.setIfInBounds id.toNat { op := .dead } }
  | none => .error .outOfRange

end Graph
end ArmBackend
