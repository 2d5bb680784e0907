import ArmBackend.Graph.Verify
import ArmBackend.Lowering.Fragment

/-!
# The lowering pass

Every representation change of a graph is replaced by its fragment, in the order of the nodes; its
uses are redirected by the kind of their edges and the change itself is killed. Nodes that the pass
adds are not looked at again. When a change cannot be lowered the graph is left as the changes
before it made it.

A change whose fragment branches has to be anchored in the control chain, or the branch could not
be scheduled; `Lowering.checkAnchored` finds those that are not.
-/

namespace ArmBackend.Lowering

/-- The layout for lowering to a word width. -/
def layoutFor (word : Int) : Except Fault Layout :=
  if isWordWidth word then .ok (.ofWord word) else .error (.refused (.wordWidth word))

/-- Where the fragment of a change starts. -/
def entry (g : Graph) (id : NodeId) : Except Fault Entry := do
  let n ← g.node id
  if n.valueCount ≠ 1 ∨ 1 < n.effectCount ∨ 1 < n.controlCount then
    throw (.malformed id n.op (.inputs n.valueCount n.effectCount n.controlCount))
  let value ← n.input 0
  let effect ← n.effectIn
  let control ← n.controlIn
  if decide (effect < 0) ≠ decide (control < 0) then throw (.malformed id n.op .halfAnchored)
  return { value, effect, anchored := decide (0 ≤ control)
           control := if control < 0 then Graph.start else control }

/-- Whether a node is a constant small integer. -/
def isSmallConstant (l : Layout) (g : Graph) (id : NodeId) : Except Fault Bool := do
  return (← g.int32 id).value?.any fun v => l.isSmi v.toInt

/-- Lowers one node: the grown graph and what stands in place of the node, or nothing when the node
is not a representation change. -/
def reduce (l : Layout) (g : Graph) (id : NodeId) :
    Except Fault (Option (Graph × Graph.Replacement)) := do
  match ← g.op id with
  | .change c =>
    let e ← entry g id
    let small ← if c = .int32ToTagged then isSmallConstant l g e.value else pure false
    let (r, g) := (fragment l c small e).run g
    return some (g, r)
  | _ => return none

/-- Whether lowering a node puts a branch into the graph. -/
def branches (l : Layout) (g : Graph) (id : NodeId) : Except Fault Bool := do
  let n ← g.node id
  match n.op with
  | .change .bitToBool | .change .uint32ToTagged | .change .taggedToFloat64
  | .change .taggedToInt32 | .change .taggedToUint32 => return true
  | .change .int32ToTagged =>
    if n.valueCount = 0 then return false
    let small ← isSmallConstant l g (← n.input 0)
    return l.word = 32 && !small
  | _ => return false

/-- Rejects a change that branches without a control input. -/
def checkAnchored (g : Graph) (word : Int) : Except Fault Unit := do
  let l ← layoutFor word
  g.nodes.toList.zipIdx.forM fun (n, id) => do
    if ← branches l g id then
      if (← n.controlIn) < 0 then throw (.malformed id n.op .unanchoredBranch)

/-- How far the pass came: the graph, the number of lowered changes and the fault that stopped it,
if one did. -/
structure Lowered where
  graph : Graph
  changed : Nat
  fault : Option Fault := none

/-- Lowers a node and puts its fragment in its place. -/
def lowerNode (l : Layout) (g : Graph) (id : NodeId) : Except Fault (Option Graph) := do
  match ← inContext s!"node {id}" (reduce l g id) with
  | none => return none
  | some (grown, r) =>
    let rewired ← grown.replaceUses id r
    return some (← rewired.kill id)

/-- Lowers the listed nodes in order. -/
def lowerNodes (l : Layout) : List Nat → Graph → Nat → Lowered
  | [], g, changed => { graph := g, changed }
  | id :: rest, g, changed =>
    match lowerNode l g id with
    | .error f => { graph := g, changed, fault := some f }
    | .ok none => lowerNodes l rest g changed
    | .ok (some g) => lowerNodes l rest g (changed + 1)

/-- Lowers every representation change of a graph that verifies. -/
def run (g : Graph) (word : Int) : Lowered :=
  match (do inContext "verify" g.verify; layoutFor word : Except Fault Layout) with
  | .error f => { graph := g, changed := 0, fault := some f }
  | .ok l => lowerNodes l (List.range g.size) g 0

end ArmBackend.Lowering
