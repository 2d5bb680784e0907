import ArmBackend.Evaluation.Arithmetic
import ArmBackend.Graph.Basic
import ArmBackend.Heap

/-!
# Evaluating a graph

A graph is evaluated on demand. Three questions drive it: is a control node reached, run the effects
up to a node, and what is the value of a node. Each question is answered once in a run and
remembered. `Machine.respond` answers one question with the help of further ones, and
`Machine.answer` is its closure up to a depth; `Machine.run` picks a depth that no evaluation which
ends at all can exceed.

The heap outlives a run, also one that fails.
-/

namespace ArmBackend

/-- A graph with a heap to evaluate it on. -/
structure Machine where
  heap : Heap

namespace Machine

/-- A machine for a word width. -/
def new (word : Int) : Except Fault Machine :=
  if isWordWidth word then .ok { heap := .new (.ofWord word) }
  else .error (.refused (.wordWidth word))

/-- A question about a graph, with the type of its answer. -/
inductive Query : Type → Type 1
  /-- Whether a control node is reached. -/
  | reached (id : NodeId) : Query Bool
  /-- Run the effects up to and including a node. -/
  | effect (id : NodeId) : Query Unit
  /-- The value of a node, as 64 bits. -/
  | value (id : NodeId) : Query (BitVec 64)

/-- What was found out in a run, and the heap. -/
structure State where
  heap : Heap
  reached : NodeId → Option Bool := fun _ => none
  effects : NodeId → Bool := fun _ => false
  values : NodeId → Option (BitVec 64) := fun _ => none
  /-- The nodes that have worked on the heap, in the order in which they did. No answer depends on
  it. -/
  journal : List NodeId := []

/-- Steps of an evaluation. The heap outlives a failure. -/
abbrev Eval := ExceptT Fault (StateM State)

/-- How a question is put. -/
abbrev Ask := {α : Type} → Query α → Eval α

/-- What an evaluation reads. -/
structure Env where
  graph : Graph
  arguments : List (BitVec 64)

/-- Works on the heap. -/
def onHeap (f : Heap → Heap × BitVec 64) : Eval (BitVec 64) :=
  modifyGet fun s =>
    let (heap, v) := f s.heap
    (v, { s with heap })

/-- Works on the heap for a node, and notes that it did. -/
def access (id : NodeId) (f : Heap → Heap × BitVec 64) : Eval (BitVec 64) :=
  modifyGet fun s =>
    let (heap, v) := f s.heap
    (v, { s with heap, journal := s.journal ++ [id] })

/-! ## Control -/

/-- The first of the listed control nodes that is reached, by its position. -/
def firstReached (ask : Ask) : Nat → List NodeId → Eval (Option Nat)
  | _, [] => return none
  | index, c :: rest => do
    if ← ask (.reached c) then return some index
    firstReached ask (index + 1) rest

/-- Decides whether a control node is reached. -/
def decideReached (env : Env) (ask : Ask) (id : NodeId) : Eval Bool := do
  let g := env.graph
  let n ← g.node id
  match n.op with
  | .start => return true
  | .merge => return (← firstReached ask 0 n.inputs).isSome
  | .ifTrue | .ifFalse =>
    let branch ← n.input 0
    -- the condition is not asked for unless the branch is reached
    if ← ask (.reached (← g.controlIn branch)) then
      let condition ← ask (.value (← g.valueIn branch 0))
      return (condition != 0) == (n.op == .ifTrue)
    return false
  | _ =>
    let control ← n.controlIn
    if control < 0 then throw (.malformed id n.op .notControl)
    ask (.reached control)

/-- The index of the merge input that is reached. -/
def takenInput (env : Env) (ask : Ask) (merge : NodeId) : Eval Nat := do
  let n ← env.graph.node merge
  match ← firstReached ask 0 n.inputs with
  | some index => return index
  | none => throw (.malformed merge n.op .mergeNotReached)

/-- The input of a join that belongs to the merge input that is reached. -/
def takenValue (env : Env) (ask : Ask) (n : Node) : Eval NodeId := do
  let index ← takenInput env ask (← n.controlIn)
  n.input index

/-! ## Effects -/

/-- Runs the effects up to and including a node. -/
def runEffect (env : Env) (ask : Ask) (id : NodeId) : Eval Unit := do
  let n ← env.graph.node id
  match n.op with
  | .start | .valueEffect | .controlEffect => return
  | .effectPhi => ask (.effect (← takenValue env ask n))
  | op =>
    (← n.effectInputs).forM fun e => ask (.effect e)
    match op with
    | .load | .store | .call | .change _ =>
      let _ ← ask (.value id)
    | _ => return

/-! ## Values -/

/-- The value of an input. -/
def inputValue (ask : Ask) (n : Node) (index : Int) : Eval (BitVec 64) := do
  ask (.value (← n.input index))

/-- The argument that a parameter stands for. -/
def argument (env : Env) (id : NodeId) (n : Node) : Eval (BitVec 64) := do
  if (env.arguments.length : Int) ≤ n.int then throw (.malformed id n.op (.noArgument n.int))
  if n.int < 0 then throw .outOfRange
  let a := env.arguments[n.int.toNat]?.getD 0
  match n.mach with
  | .int32 | .uint32 | .bool => return (a.setWidth 32).setWidth 64
  | .tagged => return (← get).heap.toWord a
  | .none | .int64 | .float64 | .unassigned _ => return a

/-- The value of a constant. -/
def constantValue (id : NodeId) (n : Node) (kind : ConstantKind) : Eval (BitVec 64) := do
  match kind with
  | .int32 => return (BitVec.ofInt 32 n.int).setWidth 64
  | .int64 => return BitVec.ofInt 64 n.int
  | .float64 => return n.float.bits
  | .heap =>
    if n.name = trueValue then return (← get).heap.trueObject
    if n.name = falseValue then return (← get).heap.falseObject
    throw (.malformed id n.op (.unknownHeapConstant n.name))
  | .external => onHeap fun h => h.external n.name

/-- The value of a projection: of index 0 the value of the operation, of others its overflow. -/
def projectionValue (env : Env) (ask : Ask) (id : NodeId) (n : Node) : Eval (BitVec 64) := do
  let x ← n.input 0
  let operation ← env.graph.node x
  -- the other projections are computed from the operands, without asking for the operation
  if n.int = 0 then ask (.value x)
  else
    let left ← inputValue ask operation 0
    let right ← inputValue ask operation 1
    let overflow? : Option Bool :=
      match operation.op with
      | .int32 op => op.overflows? (left.setWidth 32) (right.setWidth 32)
      | _ => none
    match overflow? with
    | some b => return truth b
    | none => throw (.malformed id n.op (.overflowOf n.int operation.op))

/-- The sign of a small word carried up to 32 bits, when the type of a load is signed. -/
def extendLoaded (n : Node) (v : BitVec 64) : BitVec 64 :=
  if n.mach ≠ .int32 then v
  else match n.rep with
    | .word8 => ((v.setWidth 8).signExtend 32).setWidth 64
    | .word16 => ((v.setWidth 16).signExtend 32).setWidth 64
    | _ => v

/-- Calls the only function there is, which allocates a boxed number. -/
def callValue (env : Env) (ask : Ask) (id : NodeId) (n : Node) : Eval (BitVec 64) := do
  ask (.effect (← n.effectIn))
  let target ← env.graph.node (← n.input 0)
  if target.name ≠ allocateHeapNumber || n.valueCount ≠ 2 then
    throw (.malformed id n.op .unsupportedCall)
  let size ← inputValue ask n 1
  access id fun h => h.allocate size

/-- Loads from memory. -/
def loadValue (ask : Ask) (id : NodeId) (n : Node) : Eval (BitVec 64) := do
  ask (.effect (← n.effectIn))
  let base ← inputValue ask n 0
  let index ← inputValue ask n 1
  access id fun h => (h, extendLoaded n (h.load n.rep (base + index)))

/-- Stores to memory. -/
def storeValue (ask : Ask) (id : NodeId) (n : Node) : Eval (BitVec 64) := do
  ask (.effect (← n.effectIn))
  let base ← inputValue ask n 0
  let index ← inputValue ask n 1
  let v ← inputValue ask n 2
  access id fun h => (h.store (base + index) v, 0)

/-- What a representation change makes of a value. -/
def changeOn (c : Change) (v : BitVec 64) (h : Heap) : Heap × BitVec 64 :=
  let integer (x : Int) (small : Bool) : Heap × BitVec 64 :=
    if small then (h, h.tag x) else h.box (.ofInt x)
  match c with
  | .bitToBool => (h, if v.setWidth 32 ≠ 0 then h.trueObject else h.falseObject)
  | .boolToBit => (h, truth (h.toWord v == h.trueObject))
  | .int32ToTagged =>
    let x := (v.setWidth 32).toInt
    integer x (h.layout.isSmi x)
  | .uint32ToTagged =>
    let x := (v.setWidth 32).toNat
    integer x (decide ((x : Int) ≤ h.layout.smiMax))
  | .float64ToTagged => h.box ⟨v⟩
  | .taggedToInt32 | .taggedToUint32 =>
    (h, if Heap.isSmi v then (BitVec.ofInt 32 (h.untag v)).setWidth 64
      else (h.number v).wrapInt32.setWidth 64)
  | .taggedToFloat64 => (h, (h.number v).bits)

/-- Changes the representation of a value. -/
def changeValue (ask : Ask) (id : NodeId) (n : Node) (c : Change) : Eval (BitVec 64) := do
  ask (.effect (← n.effectIn))
  let v ← inputValue ask n 0
  access id (changeOn c v)

/-- Computes the value of a node. -/
def compute (env : Env) (ask : Ask) (id : NodeId) : Eval (BitVec 64) := do
  let n ← env.graph.node id
  let words {α : Type} (f : BitVec 64 → BitVec 64 → α) : Eval α := do
    let x ← inputValue ask n 0
    let y ← inputValue ask n 1
    return f x y
  match n.op with
  | .parameter => argument env id n
  | .constant kind => constantValue id n kind
  | .phi => ask (.value (← takenValue env ask n))
  | .projection => projectionValue env ask id n
  | .finish =>
    ask (.effect (← n.input 1))
    inputValue ask n 0
  | .call => callValue env ask id n
  | .load => loadValue ask id n
  | .store => storeValue ask id n
  | .word32 op => words fun x y => (op.eval (x.setWidth 32) (y.setWidth 32)).setWidth 64
  | .word64 op => words op.eval
  | .int32 op => words fun x y => (op.eval (x.setWidth 32) (y.setWidth 32)).setWidth 64
  | .convert c => return c.eval (← inputValue ask n 0)
  | .float64 op => words fun x y => op.eval ⟨x⟩ ⟨y⟩
  | .change c => changeValue ask id n c
  | op => throw (.malformed id op .notEvaluable)

/-! ## Questions -/

/-- Answers a question with the help of others. What was answered before is remembered; an effect
counts as run from its start on. -/
def respond (env : Env) (ask : Ask) : {α : Type} → Query α → Eval α
  | _, .reached id => do
    match (← get).reached id with
    | some answer => return answer
    | none =>
      let answer ← decideReached env ask id
      modify fun s => { s with reached := fun x => if x = id then some answer else s.reached x }
      return answer
  | _, .effect id => do
    if id < 0 || (← get).effects id then return
    -- marked before it runs, so that a circle of effects ends here
    modify fun s => { s with effects := fun x => x = id || s.effects x }
    runEffect env ask id
  | _, .value id => do
    match (← get).values id with
    | some v => return v
    | none =>
      let v ← compute env ask id
      modify fun s => { s with values := fun x => if x = id then some v else s.values x }
      return v

/-- Answers a question whose help goes no deeper than `depth`. -/
def answer (env : Env) (depth : Nat) : {α : Type} → Query α → Eval α :=
  match depth with
  | 0 => fun _ => throw .endless
  | depth + 1 => fun q => respond env (answer env depth) q

/-- The depth that suffices for a graph: between two effects that are entered, at most two
questions per node are open, and each effect is entered once. -/
def depthFor (g : Graph) : Nat :=
  4 * (g.size + 2) * (g.size + 2)

/-- The value of the first return that is reached. -/
def firstReturn (env : Env) (ask : Ask) : List NodeId → Eval (BitVec 64)
  | [] => throw { cause := .noReturn false }
  | id :: rest => do
    let n ← env.graph.node id
    if n.op ≠ .ret then firstReturn env ask rest
    else if ← ask (.reached id) then
      ask (.effect (← n.effectIn))
      ask (.value (← env.graph.valueIn id 0))
    else firstReturn env ask rest

/-- Evaluates a graph from its exit. -/
def evaluate (env : Env) : Eval (BitVec 64) := do
  match env.graph.exit with
  | none => throw { cause := .noReturn true }
  | some exit =>
    let n ← env.graph.node exit
    firstReturn env (answer env (depthFor env.graph)) (← n.controlInputs)

/-- Runs a graph on arguments. -/
def run (m : Machine) (graph : Graph) (arguments : List (BitVec 64)) :
    Except Fault (BitVec 64) × Machine :=
  let (result, s) := (evaluate { graph, arguments }).run.run { heap := m.heap }
  (result, { heap := s.heap })

end Machine
end ArmBackend
