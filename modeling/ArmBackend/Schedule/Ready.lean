import ArmBackend.Schedule.Basic

/-!
# The order inside a block

Joins come first. Any other node waits for the inputs that have to come before it in its block, for
one that it takes twice also twice. A node that waits for nothing is ready. Ready nodes are in a
queue, which gives out the least; a node that is given out is listed, and whoever waited for it
waits for one input less.

How the queue finds the least node makes no difference to the order, so the queue is a parameter.
-/

namespace ArmBackend

/-- The operations of a queue of nodes. -/
structure ReadyQueue (σ : Type) where
  empty : σ
  push : σ → NodeId → σ
  /-- A node with the queue that is left, or nothing when the queue is empty. -/
  pop : σ → Option (NodeId × σ)

/-- A list of nodes, searched for the least when one is asked for. -/
def ReadyQueue.scanned : ReadyQueue (List NodeId) where
  empty := []
  push queue id := id :: queue
  pop queue := queue.min?.map fun id => (id, queue.erase id)

/-- The state of a pass that puts the nodes of a block into order. -/
structure Agenda (σ : Type) where
  /-- How many inputs a node waits for. -/
  wait : NodeId → Int := fun _ => 0
  /-- The nodes that wait for a node, each as often as it takes it. -/
  users : NodeId → List NodeId := fun _ => []
  ready : σ
  /-- The nodes that are listed. -/
  nodes : List NodeId := []

namespace Schedule

/-- The inputs of a node that have to come before it in its block. -/
def dependencies (g : Graph) (s : Schedule) (b : Nat) (n : Node) : Except Fault (List NodeId) :=
  n.inputs.filterM fun input => do
    let op ← g.op input
    return s.blockOf input = some b && !op.isHead && !op.isPhi

end Schedule

namespace Agenda

variable {σ : Type} (queue : ReadyQueue σ)

/-- Lists a node. -/
def list (a : Agenda σ) (id : NodeId) : Agenda σ :=
  { a with nodes := a.nodes ++ [id] }

/-- Puts a node into the queue if it waits for nothing. -/
def offer (a : Agenda σ) (id : NodeId) : Agenda σ :=
  if a.wait id = 0 then { a with ready := queue.push a.ready id } else a

/-- Makes a node wait for an input. -/
def await (id : NodeId) (a : Agenda σ) (input : NodeId) : Agenda σ :=
  { a with
    wait := fun x => if x = id then a.wait x + 1 else a.wait x
    users := fun x => if x = input then a.users x ++ [id] else a.users x }

/-- Makes a node wait for one input less. -/
def release (a : Agenda σ) (id : NodeId) : Agenda σ :=
  offer queue { a with wait := fun x => if x = id then a.wait x - 1 else a.wait x } id

/-- Takes a node of a block into the pass. -/
def enter (g : Graph) (s : Schedule) (b : Nat) (a : Agenda σ) (id : NodeId) :
    Except Fault (Agenda σ) := do
  let n ← g.node id
  if n.op.isPhi then return a.list id
  let inputs ← s.dependencies g b n
  return (inputs.foldl (await id) a).offer queue id

/-- Lists ready nodes until there are none. -/
def drain : Nat → Agenda σ → Except Fault (Agenda σ)
  | 0, _ => .error .endless
  | fuel + 1, a =>
    match queue.pop a.ready with
    | none => .ok a
    | some (id, ready) => drain fuel ((a.users id).foldl (release queue) { a.list id with ready })

end Agenda

/-- The nodes of a block in the order of execution, by a queue for those that are ready. -/
def Schedule.orderNodesBy {σ : Type} (queue : ReadyQueue σ) (g : Graph) (s : Schedule) (b : Nat) :
    Except Fault (List NodeId) := do
  let block ← s.block b
  let entered ← block.nodes.foldlM (Agenda.enter queue g s b) { ready := queue.empty }
  -- A node is ready once, so the queue is empty after as many steps as there are nodes.
  let drained ← entered.drain queue (block.nodes.length + 1)
  if drained.nodes.length ≠ block.nodes.length then
    throw (.malformed block.head (← g.op block.head) (.cycle b))
  return drained.nodes

end ArmBackend
