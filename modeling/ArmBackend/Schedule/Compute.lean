import ArmBackend.BitSet
import ArmBackend.Graph.Uses
import ArmBackend.Schedule.Order
import ArmBackend.Schedule.Ready

/-!
# Scheduling a graph

The control chain of a graph gives the blocks: the start node, the projections of branches and the
merges start them; branches and returns end them, and a merge ends the blocks that lead to it by a
jump. Every node the exit depends on is then placed: a node with a control input in the block its
control leads to, any other in the deepest block among those of its inputs. Inside a block joins
come first, and of the nodes whose inputs are there the one with the least number comes next.
-/

namespace ArmBackend.Schedule

/-! ## Live nodes -/

/-- Marks what the listed nodes depend on. -/
def markLive (g : Graph) : Nat → List NodeId → BitSet → Except Fault BitSet
  | 0, _, _ => .error .endless
  | _ + 1, [], live => .ok live
  | fuel + 1, id :: rest, live => do
    let n ← g.node id
    let (pending, live) ← n.inputs.foldlM
      (fun (pending, live) x => do
        let (known, live) ← live.testAndInsert x
        return (if known then pending else x :: pending, live))
      (rest, live)
    markLive g fuel pending live

/-- The nodes that a node depends on, itself included. -/
def liveNodes (g : Graph) (root : NodeId) : Except Fault BitSet := do
  let live ← (BitSet.withCapacity g.size).insertKey root
  markLive g (g.size + 2) [root] live

/-! ## Blocks -/

/-- Follows control inputs to the node that starts the block. -/
def headOf (g : Graph) (id : NodeId) : Except Fault NodeId :=
  climb (g.size + 1) id
where
  /-- The walk along control inputs. -/
  climb : Nat → NodeId → Except Fault NodeId
    | 0, _ => .error .endless
    | fuel + 1, x => do
      if x < 0 then throw (.malformed id (← g.op id) .noControlInput)
      if (← g.op x).isHead then return x
      climb fuel (← g.controlIn x)

/-- The block that starts with a node. -/
def blockAt (s : Schedule) (head : NodeId) : Except Fault Nat :=
  match s.blocks.findIdx? fun block => block.head = head with
  | some b => .ok b
  | none => .error .outOfRange

/-- The block that control leads to. -/
def blockOfControl (g : Graph) (s : Schedule) (id : NodeId) : Except Fault Nat := do
  s.blockAt (← headOf g id)

/-- The nodes that start blocks: the start node, then the others by number. -/
def headsOf (g : Graph) (live : BitSet) : List NodeId :=
  Graph.start :: (g.nodes.toList.zipIdx.filterMap fun (n, id) =>
    if live.mem id && id ≠ 0 && n.op.isHead then some (id : NodeId) else none)

/-- Ends a block at a node; a block ends once. -/
def endBlock (s : Schedule) (node : NodeId) (b : Nat) (kind : BlockKind) (control : Option NodeId) :
    Except Fault Schedule := do
  let block ← s.block b
  if block.kind ≠ .none then
    throw (.floatingControl
      (.endsTwice node block.head (block.control.getD (-1)) (control.getD (-1))))
  return s.modifyBlock b fun block => { block with kind, control }

/-- Ends the blocks that a control node ends. -/
def endBlocks (g : Graph) (s : Schedule) (id : NodeId) (n : Node) : Except Fault Schedule := do
  match n.op with
  | .branch => endBlock s id (← blockOfControl g s (← n.controlIn)) .branch (some id)
  | .ret => endBlock s id (← blockOfControl g s (← n.controlIn)) .ret (some id)
  | .merge =>
    let target ← s.blockAt id
    n.inputs.foldlM
      (fun s input => do
        -- every input of a merge ends its block with a jump there
        let b ← blockOfControl g s input
        return (← endBlock s id b .goto none).link b target)
      s
  | _ => return s

/-- The live projections of a branch; of several the last. -/
def projections (g : Graph) (live : BitSet) (branch : NodeId) :
    Except Fault (Option NodeId × Option NodeId) := do
  let users := (← g.uses branch).filterMap fun u =>
    if live.contains u.user then (g.node? u.user).map fun n => (u.user, n.op) else none
  let last (op : Operator) : Option NodeId :=
    ((users.filter fun (_, o) => o = op).getLast?).map (·.1)
  return (last .ifTrue, last .ifFalse)

/-- Links a block that ends in a branch to the blocks of its projections. -/
def linkBranch (g : Graph) (live : BitSet) (s : Schedule) (b : Nat) : Except Fault Schedule := do
  let block ← s.block b
  match block.kind, block.control with
  | .none, _ => throw (.floatingControl (.noEnd block.head))
  | .branch, some branch =>
    match ← projections g live branch with
    | (some t, some f) => return (s.link b (← s.blockAt t)).link b (← s.blockAt f)
    | _ => throw (.floatingControl (.missingProjection branch))
  | _, _ => return s

/-- The blocks of the control chain, in order. -/
def buildBlocks (g : Graph) (live : BitSet) : Except Fault Schedule := do
  let heads := headsOf g live
  let s : Schedule := { blocks := (heads.map fun head => { head }).toArray }
  let s ← g.nodes.toList.zipIdx.foldlM
    (fun s (n, id) => if live.mem id then endBlocks g s id n else pure s) s
  let s ← (List.range s.blocks.size).foldlM (linkBranch g live) s
  let (ordered, complete) ← s.order
  if !complete then throw (.floatingControl .unreachable)
  return ordered

/-! ## Placement -/

/-- Steps that place nodes. -/
abbrev Place := StateT Schedule (Except Fault)

/-- Places the heads and the control nodes of all blocks. -/
def placeControl (s : Schedule) : Schedule :=
  s.blocks.toList.zipIdx.foldl
    (fun s (block, b) => block.control.elim (s.place b block.head) ((s.place b block.head).place b))
    s

/-- The deeper one of two blocks, the first when they are equally deep. -/
def deeper (s : Schedule) (a b : Nat) : Nat :=
  if s.blocks[a]?.elim 0 Block.depth < s.blocks[b]?.elim 0 Block.depth then b else a

/-- Places a node, after its inputs if it has no control input, and gives its block. -/
def placeNode (g : Graph) : Nat → NodeId → Place Nat
  | 0, _ => throw .endless
  | fuel + 1, id => do
    if let some b := (← get).blockOf id then return b
    let n ← g.node id
    let b ←
      if n.controlCount ≠ 0 then
        let control ← n.controlIn
        blockOfControl g (← get) control
      else
        -- a node without control goes into the deepest block of its inputs
        n.inputs.foldlM
          (fun b input => do
            let x ← placeNode g fuel input
            return (← get).deeper b x)
          0
    modify (·.append b id)
    return b

/-- Whether a node is placed by its own rule and not as the head or the end of a block. -/
def isPlaced (op : Operator) : Bool :=
  !op.isHead && op ≠ .branch && op ≠ .ret

/-- Places every live node. -/
def placeNodes (g : Graph) (exit : NodeId) (live : BitSet) : Place Unit := do
  modify placeControl
  g.nodes.toList.zipIdx.forM fun (n, id) => do
    if live.mem id && (id : NodeId) ≠ exit && isPlaced n.op then
      let _ ← placeNode g (g.size + 1) id

/-- Checks that the inputs of a node are placed where they are there in time. -/
def checkDominated (g : Graph) (s : Schedule) (b : Nat) (id : NodeId) : Except Fault Unit := do
  let n ← g.node id
  n.inputs.forM fun input => do
    if let some x := s.blockOf input then
      if !s.dominates x b && !n.op.isPhi then
        throw (.floatingControl (.notDominated id input))

/-! ## Order inside a block -/

/-- The nodes of a block in the order of execution. -/
def orderNodes (g : Graph) (s : Schedule) (b : Nat) : Except Fault (List NodeId) :=
  orderNodesBy .scanned g s b

/-- Puts the nodes of every block into order. -/
def orderBlocks (g : Graph) (s : Schedule) : Except Fault Schedule :=
  (List.range s.blocks.size).foldlM
    (fun s b => do
      let nodes ← orderNodes g s b
      return s.modifyBlock b fun block => { block with nodes })
    s

/-- Schedules a graph. -/
def compute (g : Graph) : Except Fault Schedule := do
  match g.exit with
  | none => throw (.invalidGraph .noEnd)
  | some exit =>
    let live ← liveNodes g exit
    let blocks ← buildBlocks g live
    let (_, placed) ← (placeNodes g exit live).run blocks
    placed.blocks.toList.zipIdx.forM fun (block, b) =>
      block.nodes.forM fun id => checkDominated g placed b id
    orderBlocks g placed

end ArmBackend.Schedule
