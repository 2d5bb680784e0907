import ArmBackend.Graph.Verify
import ArmBackend.GraphFile.Basic
import ArmBackend.Value

/-!
# Programs

A program is the graph that a graph file describes, with its target, its parameters and the names of
its nodes. The nodes of the file follow the start node and the parameters in order, so the number of
a name is known before the node is built; the exit collects every return.
-/

namespace ArmBackend

/-- A graph with its target, its parameters in order and its names. -/
structure Program where
  config : Config := {}
  graph : Graph := .empty
  params : List NodeId := []
  names : List (String × NodeId) := []

namespace GraphFile

/-- Adds the parameters from an index on. -/
def addParams : Nat → List String → Program → Except Fault Program
  | _, [], p => .ok p
  | index, type :: rest, p =>
    match MachineType.ofName? type with
    | none => .error (.refused (.parameterType index type))
    | some t =>
      let (graph, id) := p.graph.push (.parameter index t)
      addParams (index + 1) rest
        { p with graph, params := p.params ++ [id],
                 names := p.names ++ [("p" ++ Numeral.natural index, id)] }

/-- Gives the named nodes from an index on their numbers, the first of which is `base`. -/
def addNames (base : NodeId) : Nat → List NodeEntry → List (String × NodeId) →
    Except Fault (List (String × NodeId))
  | _, [], names => .ok names
  | index, n :: rest, names =>
    if n.name = "" then addNames base (index + 1) rest names
    else if (names.lookup n.name).isSome then .error (.refused (.duplicateName index n.name))
    else addNames base (index + 1) rest (names ++ [(n.name, base + index)])

/-- The nodes that a list of names stands for. -/
def resolve (names : List (String × NodeId)) (inputs : List String) : Except Fault (List NodeId) :=
  inputs.mapM fun name =>
    match names.lookup name with
    | some id => .ok id
    | none => .error (.refused (.undefinedInput name))

/-- The parameters of the operator of a node. -/
def withPayload (entry : NodeEntry) (n : Node) : Except Fault Node :=
  match n.op with
  | .constant .int32 =>
    -- written signed or unsigned, kept signed
    if -0x80000000 ≤ entry.int ∧ entry.int ≤ 0xffffffff then
      .ok { n with int := (BitVec.ofInt 32 entry.int).toInt }
    else .error (.refused (.int32Range entry.int))
  | .constant .int64 => .ok { n with int := entry.int }
  | .constant .float64 => .ok { n with float := entry.float }
  | .constant .heap | .constant .external =>
    if entry.ref = "" then .error (.refused .noReference) else .ok { n with name := entry.ref }
  | .projection | .parameter => .ok { n with int := entry.index }
  | _ => .ok n

/-- The representation that a field names; an empty field names none. -/
def readRep (name : String) : Except Fault Rep :=
  if name = "" then .ok .none
  else match Rep.ofName? name with
    | some rep => .ok rep
    | none => .error (.refused (.unknownRep name))

/-- The machine type that a field names; an empty field names none. -/
def readType (name : String) : Except Fault MachineType :=
  if name = "" then .ok .none
  else match MachineType.ofName? name with
    | some type => .ok type
    | none => .error (.refused (.unknownMachineType name))

/-- The write barrier that a field names. -/
def readBarrier (name : String) : Except Fault WriteBarrier :=
  if name = "" ∨ name = "none" then .ok .none
  else if name = "full" then .ok .full
  else .error (.refused (.unknownBarrier name))

/-- Whether an operator needs a representation. -/
def needsRep : Operator → Bool
  | .load | .store | .phi => true
  | _ => false

/-- The node that an entry describes. -/
def buildNode (names : List (String × NodeId)) (entry : NodeEntry) : Except Fault Node := do
  let some op := Operator.ofName? entry.op | throw (.refused (.unknownOperator entry.op))
  let inputs ← resolve names (entry.value ++ entry.effect ++ entry.control)
  let n ← withPayload entry
    { op, inputs, valueCount := entry.value.length, effectCount := entry.effect.length
      controlCount := entry.control.length }
  let rep ← readRep entry.rep
  let mach ← readType entry.type
  let barrier ← readBarrier entry.barrier
  if needsRep op && rep == .none then throw (.refused (.needsRep op))
  return { n with rep, mach, barrier }

/-- Adds the nodes from an index on. -/
def addNodes (names : List (String × NodeId)) : Nat → List NodeEntry → Graph → Except Fault Graph
  | _, [], g => .ok g
  | index, entry :: rest, g => do
    let n ← inContext s!"node {index} ({entry.name})" (buildNode names entry)
    addNodes names (index + 1) rest (g.push n).1

/-- The returns of a graph. -/
def returnsOf (g : Graph) : List NodeId :=
  g.nodes.toList.zipIdx.filterMap fun (n, id) => if n.op = .ret then some (id : NodeId) else none

/-- Builds the graph that a file describes. -/
def build (f : GraphFile) : Except Fault Program := do
  let config : Config := { word := if f.word = 0 then 32 else f.word, features := f.features }
  config.validate
  let p ← addParams 0 f.params { config, names := [("start", Graph.start)] }
  let names ← addNames p.graph.size 0 f.nodes p.names
  let g ← addNodes names 0 f.nodes p.graph
  let returns := returnsOf g
  if returns.isEmpty then throw (.refused .noReturnNode)
  let (g, _) := g.setExit returns
  g.verify
  return { p with graph := g, names }

/-- Reads a graph file and builds its graph. -/
def parse (text : String) : Except Fault Program := do
  let f ← inContext "decode" (decode text)
  f.build

/-- The program in the graph file at a path, given what the file holds, if there is one. -/
def load (path : String) (content : Option String) : Except Fault Program := do
  let some text := content | throw ((Fault.refused (.noSuchFile path)).within "read file")
  inContext path (parse text)

end GraphFile

namespace Program

/-- The type of a parameter. -/
def paramType (p : Program) (id : NodeId) : Except Fault MachineType := do
  return (← p.graph.node id).mach

/-- Reads arguments from an index on by the types of the parameters. -/
def readArguments (p : Program) : Nat → List NodeId → List String → Except Fault (List (BitVec 64))
  | index, id :: params, text :: texts => do
    let type ← p.paramType id
    let v ← inContext s!"arg {index}" (Value.read type text)
    return v :: (← p.readArguments (index + 1) params texts)
  | _, _, _ => return []

/-- Reads the arguments of a program. -/
def arguments (p : Program) (texts : List String) : Except Fault (List (BitVec 64)) :=
  if texts.length ≠ p.params.length then
    .error (.refused (.argumentCount p.params.length texts.length))
  else p.readArguments 0 p.params texts

end Program
end ArmBackend
