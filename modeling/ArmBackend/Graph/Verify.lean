import ArmBackend.Graph.Basic

/-!
# Verification

A graph verifies when every node has an assigned operator, as many inputs of each kind as the
operator takes, at most one effect and one control anchor on a representation change, and inputs
that name nodes of the graph. The first node that breaks a rule is reported.
-/

namespace ArmBackend

namespace Arity

/-- Whether a count is what the arity asks for. -/
def admits (want : Option Nat) (count : Int) : Bool :=
  want.all fun n => (n : Int) == count

end Arity

namespace Graph

/-- The first rule that a node breaks, if any. -/
def violation? (g : Graph) (id : NodeId) (n : Node) : Option Violation :=
  match n.op.arity? with
  | none => some (.unknownOperator id n.op.code)
  | some arity =>
    if n.op = .invalid then some (.unknownOperator id n.op.code)
    else if !(Arity.admits arity.value n.valueCount && Arity.admits arity.effect n.effectCount &&
        Arity.admits arity.control n.controlCount) then
      some (.inputCounts id n.op n.valueCount n.effectCount n.controlCount)
    else if n.op.isChange ∧ (1 < n.effectCount ∨ 1 < n.controlCount) then
      some (.tooManyAnchors id n.op)
    -- the range of the inputs is looked at last, so counts are reported first
    else match n.inputs.find? fun input => decide (input < 0 ∨ (g.nodes.size : Int) ≤ input) with
      | some input => some (.inputRange id n.op input)
      | none => none

/-- Checks every node against the operator table. -/
def verify (g : Graph) : Except Fault Unit :=
  match g.nodes.toList.zipIdx.findSome? fun (n, id) => g.violation? id n with
  | some violation => .error (.invalidGraph violation)
  | none => .ok ()

end Graph
end ArmBackend
