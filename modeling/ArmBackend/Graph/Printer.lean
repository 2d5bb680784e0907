import ArmBackend.Graph.Basic

/-!
# Listing of a graph

One line per live node: its number, its operator, its value, effect and control inputs, and the
parameters the operator has.
-/

namespace ArmBackend

/-- Numbers, each with a blank before it. -/
def listIds (ids : List NodeId) : String :=
  String.join (ids.map fun id => s!" {id}")

/-- The parameters of a node's operator. -/
def Node.parameters (n : Node) : String :=
  match n.op with
  | .constant .int32 | .constant .int64 | .projection => s!"  {n.int}"
  | .constant .float64 => s!"  {n.float.text}"
  | .constant .heap | .constant .external => "  " ++ Text.quoted n.name
  | .parameter => s!"  {n.int} {n.mach.name}"
  | .phi => s!"  {n.rep.name}"
  | .load => s!"  {n.rep.name}" ++ (if n.mach = .none then "" else s!" {n.mach.name}")
  | .store => s!"  {n.rep.name}" ++ (if n.barrier = .full then " barrier" else "")
  | _ => ""

namespace Graph

/-- The line of a node, without indentation. -/
def line (g : Graph) (id : NodeId) : Except Fault String := do
  let n ← g.node id
  let values ← n.valueInputs
  let effects ← n.effectInputs
  let controls ← n.controlInputs
  return Text.alignRight 4 (Numeral.decimal id) ++ " " ++ Text.alignLeft 22 n.op.name ++
    listIds values ++ " |" ++ listIds effects ++ " |" ++ listIds controls ++ n.parameters

/-- The listing of every node that is not dead. -/
def text (g : Graph) : Except Fault String := do
  let live := g.nodes.toList.zipIdx.filter fun (n, _) => n.op ≠ .dead
  let lines ← live.mapM fun (_, id) => g.line id
  return String.join (lines.map (· ++ "\n"))

end Graph
end ArmBackend
