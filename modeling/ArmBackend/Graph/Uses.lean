import ArmBackend.Graph.Basic

/-!
# Uses

The uses of a node are the edges that point to it, found by looking at every edge of the graph as
it is now. Looking at the uses of any node fails when some edge points outside the arena.
-/

namespace ArmBackend

/-- An edge, by the node it enters and its place among the inputs there. -/
structure Use where
  user : NodeId
  index : Nat
  deriving DecidableEq, Repr

namespace Graph

/-- Whether a number names a node. -/
def contains (g : Graph) (id : NodeId) : Bool :=
  decide (0 ≤ id ∧ id < g.nodes.size)

/-- Whether every edge points to a node. -/
def isClosed (g : Graph) : Bool :=
  g.nodes.all fun n => n.inputs.all g.contains

/-- The edges that point to `id`, ordered by the node they enter and their place there. -/
def edgesTo (g : Graph) (id : NodeId) : List Use :=
  g.nodes.toList.zipIdx.flatMap fun (n, user) =>
    n.inputs.zipIdx.filterMap fun (input, index) =>
      if input = id then some ⟨user, index⟩ else none

/-- The uses of a node. -/
def uses (g : Graph) (id : NodeId) : Except Fault (List Use) :=
  if g.isClosed && g.contains id then .ok (g.edgesTo id) else .error .outOfRange

/-- The kind of edge a use is. -/
def useKind (g : Graph) (u : Use) : EdgeKind :=
  match g.node? u.user with
  | some n => n.edgeKind u.index
  | none => .control

/-- The number of value edges that point to a node. -/
def valueUses (g : Graph) (id : NodeId) : Except Fault Nat := do
  return ((← g.uses id).filter fun u => g.useKind u = .value).length

/-- The first projection of a node with the given index, or no node. -/
def findProjection (g : Graph) (id : NodeId) (index : Int) : Except Fault NodeId := do
  let isIt (u : Use) : Bool :=
    match g.node? u.user with
    | some n => n.op = .projection && n.int = index
    | none => false
  return ((← g.uses id).find? isIt).elim (-1) (·.user)

/-- What stands in place of a node, by the kind of edge; a negative number keeps the edge. -/
structure Replacement where
  value : NodeId
  effect : NodeId
  control : NodeId
  deriving DecidableEq, Repr

/-- The node that takes the place of `old` on an edge. -/
def Replacement.target (r : Replacement) (old : NodeId) (kind : EdgeKind) : NodeId :=
  let new := match kind with
    | .value => r.value
    | .effect => r.effect
    | .control => r.control
  if 0 ≤ new then new else old

end Graph

/-- A node with its edges to `old` redirected. -/
def Node.redirect (n : Node) (old : NodeId) (r : Graph.Replacement) : Node :=
  { n with inputs := n.inputs.mapIdx fun index input =>
      if input = old then r.target old (n.edgeKind index) else input }

/-- Redirects every use of `old` by the kind of its edge. -/
def Graph.replaceUses (g : Graph) (old : NodeId) (r : Graph.Replacement) : Except Fault Graph := do
  let _ ← g.uses old
  return { g with nodes := g.nodes.map (·.redirect old r) }

end ArmBackend
