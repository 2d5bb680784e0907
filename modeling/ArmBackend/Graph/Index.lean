import ArmBackend.Graph.Uses

/-!
# Use lists that are kept

The uses of all nodes are collected in one pass over the edges. A graph may keep the lists of that
pass from one question to the next: they are collected when they are first asked for, and dropped
whenever the graph changes. Redirecting the uses of a node goes through its list while the edges in
it are rewritten, and drops the lists at the end.

Two things about memory are outside the model. A pass that fails on an edge to no node keeps nothing
here, so that the next question fails too; where lists are filled in place, those filled so far would
stay and answer it. And each node has a list of inputs of its own; nodes that are made from one and
the same slice of a caller would share it, and redirecting an edge of one would redirect it for all.
-/

namespace ArmBackend

/-- A graph with the use lists of its nodes, if they were asked for since it last changed. -/
structure Indexed where
  graph : Graph := .empty
  lists : Option (Array (List Use)) := none

/-- Steps of a graph that keeps its use lists. The state outlives a failure. -/
abbrev Indexing := ExceptT Fault (StateM Indexed)

/-- The node that takes the place of another one on edges of a kind. -/
def Graph.Replacement.node (r : Graph.Replacement) : EdgeKind → NodeId
  | .value => r.value
  | .effect => r.effect
  | .control => r.control

/-- Redirects one edge by its kind, if there is a replacement for that kind. -/
def Graph.redirectEdge (g : Graph) (r : Graph.Replacement) (u : Use) : Graph :=
  let new := r.node (g.useKind u)
  if 0 ≤ new then
    { g with nodes := g.nodes.modify u.user.toNat fun n =>
        { n with inputs := n.inputs.set u.index new } }
  else g

namespace Indexed

/-! ## Questions -/

/-- Puts an edge behind the uses of the node it points to. -/
def file (lists : Array (List Use)) (input : NodeId) (u : Use) : Except Fault (Array (List Use)) :=
  if 0 ≤ input ∧ input < lists.size then .ok (lists.modify input.toNat (· ++ [u]))
  else .error .outOfRange

/-- The uses of every node, by a pass over the edges. -/
def collect (g : Graph) : Except Fault (Array (List Use)) :=
  g.nodes.toList.zipIdx.foldlM
    (fun lists (n, user) =>
      n.inputs.zipIdx.foldlM (fun lists (input, index) => file lists input ⟨user, index⟩) lists)
    (Array.replicate g.size [])

/-- The use lists, collected now if they are not kept. -/
def current : Indexing (Array (List Use)) := do
  match (← get).lists with
  | some lists => return lists
  | none =>
    let lists ← collect (← get).graph
    modify fun s => { s with lists := some lists }
    return lists

/-- The uses of a node. -/
def uses (id : NodeId) : Indexing (List Use) := do
  let lists ← current
  if id < 0 then throw .outOfRange
  match lists[id.toNat]? with
  | some l => return l
  | none => throw .outOfRange

/-- The number of value edges that point to a node. -/
def valueUses (id : NodeId) : Indexing Nat := do
  let l ← uses id
  let g := (← get).graph
  return (l.filter fun u => g.useKind u = .value).length

/-- The first projection of a node with the given index, or no node. -/
def findProjection (id : NodeId) (index : Int) : Indexing NodeId := do
  let l ← uses id
  let g := (← get).graph
  let isIt (u : Use) : Bool :=
    match g.node? u.user with
    | some n => n.op = .projection && n.int = index
    | none => false
  return (l.find? isIt).elim (-1) (·.user)

/-! ## Changes -/

/-- Adds what the graph takes. -/
def add (f : Graph → Except Fault (Graph × NodeId)) : Indexing NodeId := do
  match f (← get).graph with
  | .ok (graph, id) =>
    set { graph : Indexed }
    return id
  | .error fault => throw fault

/-- Cuts a node off its inputs. -/
def kill (id : NodeId) : Indexing Unit := do
  match (← get).graph.kill id with
  | .ok graph => set { graph : Indexed }
  | .error fault => throw fault

/-- Redirects every use of `old` by the kind of its edge. -/
def replaceUses (old : NodeId) (r : Graph.Replacement) : Indexing Unit := do
  (← uses old).forM fun u => modify fun s => { s with graph := s.graph.redirectEdge r u }
  modify fun s => { s with lists := none }

end Indexed
end ArmBackend
