import ArmBackend.Schedule.Order

/-!
# Building a graph with its schedule

An assembler adds nodes to a graph and places them in the current block as they are added, so that
the graph comes with a schedule. Loads, stores, calls and representation changes are threaded
through the current effect. A branch, a jump or a return closes the current block; binding a label
opens the next one. A label that one branch jumps to starts with the projection of the branch, any
other with a merge of its jumps, and the effects of the jumps are joined where they differ.

A step that fails keeps what it has done so far, for the graph is shared with whoever reads it.
-/

namespace ArmBackend

/-- A jump to a label: the block it leaves, and the control and effect it carries. -/
structure Jump where
  block : Nat
  control : NodeId
  effect : NodeId
  deriving DecidableEq, Repr

/-- A jump target: the jumps to it so far, and the block it is bound to. -/
structure Label where
  jumps : List Jump := []
  block : Option Nat := none
  deriving DecidableEq, Repr

/-- The label with its blocks renumbered by their position in `order`. -/
def Label.renumber (order : List Nat) (l : Label) : Label :=
  { jumps := l.jumps.map fun j => { j with block := (order.idxOf? j.block).getD j.block }
    block := l.block.bind order.idxOf? }

/-- A graph under construction, with its schedule. -/
structure Assembler where
  graph : Graph := .empty
  schedule : Schedule := {}
  /-- The block nodes are added to. -/
  current : Option Nat := none
  control : NodeId := Graph.start
  effect : NodeId := Graph.start
  params : List NodeId := []
  returns : List NodeId := []
  labels : String → Label := fun _ => {}

/-- Steps of an assembler. The state outlives a failure. -/
abbrev Assemble := ExceptT Fault (StateM Assembler)

namespace Assembler

/-- Adds a node to the graph only. -/
def push (n : Node) : Assemble NodeId :=
  modifyGet fun a =>
    let (graph, id) := a.graph.push n
    (id, { a with graph })

/-- Adds a node to the graph only, if the graph takes it. -/
def tryPush (add : Graph → Except Fault (Graph × NodeId)) : Assemble NodeId := do
  match add (← get).graph with
  | .ok (graph, id) =>
    modify fun a => { a with graph }
    return id
  | .error f => throw f

/-- Appends a node of the graph to the current block. -/
def append (id : NodeId) : Assemble NodeId := do
  let a ← get
  match a.current with
  | some b =>
    set { a with schedule := a.schedule.append b id }
    return id
  | none => throw (.malformed id (← a.graph.op id) .noCurrentBlock)

/-- Adds a node to the current block. -/
def emit (n : Node) : Assemble NodeId := do
  append (← push n)

/-- Adds a node to the current block, if the graph takes it. -/
def tryEmit (add : Graph → Except Fault (Graph × NodeId)) : Assemble NodeId := do
  append (← tryPush add)

/-- Makes a node the current effect. -/
def threaded (id : NodeId) : Assemble NodeId := do
  modify fun a => { a with effect := id }
  return id

/-- Adds the parameters from an index on. -/
def addParams : Nat → List MachineType → Assemble Unit
  | _, [] => pure ()
  | index, type :: rest => do
    let id ← emit (.parameter index type)
    modify fun a => { a with params := a.params ++ [id] }
    addParams (index + 1) rest

/-- The assembler whose only block starts with the start node and holds the parameters. -/
def new (params : List MachineType) : Assembler :=
  let (schedule, b) := ({} : Schedule).newBlock Graph.start
  let a : Assembler := { schedule := schedule.place b Graph.start, current := some b }
  ((addParams 0 params).run.run a).2

/-! ## Values -/

/-- The parameter at an index. -/
def param (index : Int) : Assemble NodeId := do
  if index < 0 then throw .outOfRange
  match (← get).params[index.toNat]? with
  | some id => return id
  | none => throw .outOfRange

/-- Adds an operator that takes only the listed values. -/
def operator (op : Operator) (inputs : List NodeId) : Assemble NodeId :=
  tryEmit fun g => g.addNode op inputs

/-- Adds the bitwise complement of a value. -/
def complement (x : NodeId) : Assemble NodeId := do
  let ones ← emit (.int32 (-1))
  operator (.word32 .xor) [x, ones]

/-- Adds a representation change. -/
def change (op : Operator) (x : NodeId) : Assemble NodeId := do
  let a ← get
  threaded (← tryEmit fun g => g.addChange op x a.effect a.control)

/-- Adds a load. -/
def load (rep : Rep) (base index : NodeId) : Assemble NodeId := do
  let a ← get
  threaded (← emit (.load rep base index a.effect a.control))

/-- Sets the machine type of a node. -/
def setMach (id : NodeId) (type : MachineType) : Assemble Unit :=
  modify fun a => { a with graph := a.graph.setMach id type }

/-- Adds a store. -/
def store (rep : Rep) (barrier : WriteBarrier) (base index value : NodeId) : Assemble NodeId := do
  let a ← get
  threaded (← emit (.store rep barrier base index value a.effect a.control))

/-- Adds a call. -/
def call (target : NodeId) (arguments : List NodeId) : Assemble NodeId := do
  let a ← get
  threaded (← emit (.call target arguments a.effect a.control))

/-- Adds a join of values, one for each input of the merge that starts the current block. -/
def phi (rep : Rep) (values : List NodeId) : Assemble NodeId := do
  let a ← get
  let some b := a.current | throw .outOfRange
  let block ← a.schedule.block b
  let head ← a.graph.node block.head
  if head.op ≠ .merge || head.inputs.length ≠ values.length then
    throw (.malformed block.head head.op (.phiValues values.length))
  tryEmit fun g => g.addPhi rep (values ++ [block.head])

/-! ## Control -/

/-- The current block. -/
def openBlock : Assemble Nat := do
  match (← get).current with
  | some b => return b
  | none => throw .outOfRange

/-- Closes a block by the way it ends. -/
def close (b : Nat) (kind : BlockKind) (control : Option NodeId) : Assemble Unit :=
  modify fun a =>
    let placed := control.elim a.schedule (a.schedule.place b)
    { a with
      schedule := placed.modifyBlock b fun block => { block with kind, control }
      current := none }

/-- Records a jump to a label. -/
def jump (label : String) (j : Jump) : Assemble Unit :=
  modify fun a =>
    { a with labels := fun name =>
        if name = label then { a.labels name with jumps := (a.labels name).jumps ++ [j] }
        else a.labels name }

/-- Ends the current block with a branch on a value. -/
def branch (condition : NodeId) (ifTrue ifFalse : String) : Assemble Unit := do
  let a ← get
  let id ← push (.ofArity .branch [condition, a.control])
  let b ← openBlock
  close b .branch (some id)
  jump ifTrue ⟨b, ← push (.ofArity .ifTrue [id]), a.effect⟩
  jump ifFalse ⟨b, ← push (.ofArity .ifFalse [id]), a.effect⟩

/-- Ends the current block with a jump to a label. -/
def goto (label : String) : Assemble Unit := do
  let a ← get
  let b ← openBlock
  close b .goto none
  jump label ⟨b, a.control, a.effect⟩

/-- Ends the current block by returning a value. -/
def ret (value : NodeId) : Assemble Unit := do
  let a ← get
  let id ← push (.ofArity .ret [value, a.effect, a.control])
  close (← openBlock) .ret (some id)
  modify fun a => { a with returns := a.returns ++ [id] }

/-- The node that starts the block of a label. -/
def headFor (jumps : List Jump) : Assemble NodeId := do
  match jumps with
  | [j] =>
    let op ← (← get).graph.op j.control
    if op = .ifTrue || op = .ifFalse then return j.control
    push (.merge [j.control])
  | _ => push (.merge (jumps.map Jump.control))

/-- Joins the effects of the jumps to a label where they differ. -/
def joinEffects (head first : NodeId) (jumps : List Jump) : Assemble NodeId :=
  if jumps.all fun j => j.effect = first then pure first
  else tryEmit fun g => g.addEffectPhi (jumps.map Jump.effect ++ [head])

/-- Opens the block of a label. -/
def bind (label : String) : Assemble Unit := do
  let l := (← get).labels label
  match l.block, l.jumps with
  | none, first :: rest =>
    let head ← headFor (first :: rest)
    modify fun a =>
      let (schedule, b) := a.schedule.newBlock head
      let linked := l.jumps.foldl (fun s j => s.link j.block b) (schedule.place b head)
      { a with
        schedule := linked
        labels := fun name => if name = label then { l with block := some b } else a.labels name
        current := some b
        control := head
        effect := first.effect }
    -- the effects meet after the block is open, so that their phi is placed in it
    let effect ← joinEffects head first.effect l.jumps
    modify fun a => { a with effect }
  | bound, jumps => throw (.malformed (-1) .merge (.badLabel bound.isSome jumps.length))

/-! ## The finished program -/

/-- Collects the returns and puts the blocks into order. -/
def finish : Assemble Unit := do
  let a ← get
  if let some b := a.current then
    let block ← a.schedule.block b
    throw (.malformed block.head (← a.graph.op block.head) .openBlock)
  let order := reversePostorder a.schedule.successors a.schedule.blocks.size
  let schedule ← a.schedule.ordered
  set { a with
    graph := (a.graph.setExit a.returns).1
    schedule
    labels := fun name => Label.renumber order (a.labels name) }

end Assembler
end ArmBackend
