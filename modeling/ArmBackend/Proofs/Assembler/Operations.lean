import ArmBackend.Assembler
import ArmBackend.Proofs.Appended
import ArmBackend.Proofs.Lowering.Added
import ArmBackend.Proofs.Schedule.Building

/-!
# Programs of an assembler

A program is a row of operations whose node arguments were returned by earlier ones. `Assembled`
relates the operations that were performed, the last one first, to the assembler that they leave.

`Step` says what one operation can do to the assembler, and is all that proofs about programs look
at: it returns a parameter, adds a node to the current block, closes the current block, or opens the
block of a label. What is added is told by what it must be like, not by the operation that adds it.

## Results

* `Assembled` — the programs that run without failure, with what they did.
* `execute_assembled` — programs can be executed.
* `created` — the blocks of a program, each with its head and with the blocks it was jumped to from.
* `Step` — what an operation can do.
-/

namespace ArmBackend

namespace Assembler

/-! ## Operations -/

/-- A constant of a program. -/
inductive Literal
  | int32 (v : BitVec 32)
  | int64 (v : Int)
  | float64 (x : Double)
  | heap (name : String)
  | external (name : String)

/-- The node of a constant. -/
def Literal.node : Literal → Node
  | .int32 v => .int32 v
  | .int64 v => .int64 v
  | .float64 x => .float64 x
  | .heap name => .heap name
  | .external name => .external name

/-- One operation of an assembler. A complement is a constant and a binary operator. -/
inductive Operation
  | param (index : Int)
  | literal (l : Literal)
  | unary (op : Operator) (x : NodeId)
  | binary (op : Operator) (left right : NodeId)
  | projection (index : Int) (x : NodeId)
  | change (op : Operator) (x : NodeId)
  | load (rep : Rep) (base index : NodeId)
  | store (rep : Rep) (barrier : WriteBarrier) (base index value : NodeId)
  | call (target : NodeId) (arguments : List NodeId)
  | phi (rep : Rep) (values : List NodeId)
  | branch (condition : NodeId) (ifTrue ifFalse : String)
  | goto (label : String)
  | bind (label : String)
  | ret (value : NodeId)

/-- Performs an operation. Those that end or open a block return no node. -/
def perform : Operation → Assemble (Option NodeId)
  | .param index => return some (← param index)
  | .literal l => return some (← emit l.node)
  | .unary op x => return some (← operator op [x])
  | .binary op left right => return some (← operator op [left, right])
  | .projection index x => return some (← emit (.projection index x))
  | .change op x => return some (← change op x)
  | .load rep base index => return some (← load rep base index)
  | .store rep barrier base index value => return some (← store rep barrier base index value)
  | .call target arguments => return some (← call target arguments)
  | .phi rep values => return some (← phi rep values)
  | .branch condition ifTrue ifFalse => do
    branch condition ifTrue ifFalse
    return none
  | .goto label => do
    goto label
    return none
  | .bind label => do
    bind label
    return none
  | .ret value => do
    ret value
    return none

namespace Operation

/-- The node arguments of an operation. -/
def arguments : Operation → List NodeId
  | .param _ | .literal _ | .goto _ | .bind _ => []
  | .unary _ x | .projection _ x | .change _ x | .ret x | .branch x _ _ => [x]
  | .binary _ left right => [left, right]
  | .load _ base index => [base, index]
  | .store _ _ base index value => [base, index, value]
  | .call target arguments => target :: arguments
  | .phi _ values => values

/-- Whether an operation adds a node to the current block: the value, memory and phi operations. -/
def adds : Operation → Bool
  | .literal _ | .unary .. | .binary .. | .projection .. | .change .. | .load .. | .store ..
  | .call .. | .phi .. => true
  | .param _ | .branch .. | .goto _ | .bind _ | .ret _ => false

/-- Whether an operation closes the current block. -/
def closes : Operation → Bool
  | .branch .. | .goto _ | .ret _ => true
  | _ => false

/-- The labels that an operation jumps to, in order. -/
def targets : Operation → List String
  | .branch _ ifTrue ifFalse => [ifTrue, ifFalse]
  | .goto label => [label]
  | _ => []

end Operation

/-! ## Programs -/

/-- `x` succeeds in `a` with `r` and leaves `a'`. -/
def Runs {α : Type} (x : Assemble α) (a : Assembler) (r : α) (a' : Assembler) : Prop :=
  x.run.run a = (.ok r, a')

/-- An operation that was performed: what it returned, and the assembler before and after it. -/
structure Event where
  op : Operation
  result : Option NodeId
  before : Assembler
  after : Assembler

/-- The programs over the given parameters that run without failure: what was done, the last
operation first, and the assembler that is left. Every node argument of an operation was returned by
an earlier one. -/
inductive Assembled (params : List MachineType) : List Event → Assembler → Prop
  | new : Assembled params [] (new params)
  | perform {past : List Event} {a a' : Assembler} {op : Operation} {r : Option NodeId}
      (run : Assembled params past a)
      (arguments : ∀ x ∈ op.arguments, ∃ e ∈ past, e.result = some x)
      (succeeds : Runs (perform op) a r a') :
      Assembled params (⟨op, r, a, a'⟩ :: past) a'

/-- Performs one more operation of a program, if its node arguments were returned before and it
succeeds. -/
def perform? (state : List Event × Assembler) (op : Operation) : Option (List Event × Assembler) :=
  let (past, a) := state
  if op.arguments.all fun x => past.any fun e => e.result = some x then
    match (perform op).run.run a with
    | (.ok result, a') => some (⟨op, result, a, a'⟩ :: past, a')
    | (.error _, _) => none
  else none

/-- Performs the operations of a program one after the other. -/
def execute (params : List MachineType) (ops : List Operation) :
    Option (List Event × Assembler) :=
  ops.foldlM perform? ([], new params)

/-- What is executed is a program. -/
theorem execute_assembled {params : List MachineType} {ops : List Operation} {past : List Event}
    {a : Assembler} (h : execute params ops = some (past, a)) : Assembled params past a := by
  -- By induction on the operations that are still to come, from any program executed so far.
  have hAll : ∀ (ops : List Operation) (state : List Event × Assembler),
      Assembled params state.1 state.2 → ops.foldlM perform? state = some (past, a) →
      Assembled params past a := by
    intro ops
    induction ops with
    | nil =>
      intro state hState h
      cases h
      exact hState
    | cons op ops ih =>
      intro state hState h
      rw [List.foldlM_cons] at h
      obtain ⟨next, hNext, h⟩ := Option.bind_eq_some_iff.mp h
      refine ih next ?_ h
      obtain ⟨known, before⟩ := state
      unfold perform? at hNext
      dsimp only at hNext
      split at hNext
      · next hArguments =>
        split at hNext
        · next result a' hRuns =>
          cases hNext
          refine .perform hState (fun x hx => ?_) hRuns
          have hAny := List.all_eq_true.mp hArguments x hx
          obtain ⟨e, he, hIs⟩ := List.any_eq_true.mp hAny
          exact ⟨e, he, of_decide_eq_true hIs⟩
        · cases hNext
      · cases hNext
  exact hAll ops _ .new h

/-- The blocks that were current at the jumps to a label, in the order of the jumps. -/
def departures (label : String) : List Event → List Nat
  | [] => []
  | e :: past => departures label past ++
      (e.op.targets.filter (· = label)).flatMap fun _ => e.before.current.toList

/-- A block that was created: its head, and the blocks that were current at the jumps to its label
before the label was bound. -/
structure Created where
  head : NodeId
  arrivals : List Nat
  deriving DecidableEq

/-- The blocks of a program in the order of their creation. -/
def created : List Event → List Created
  | [] => [⟨Graph.start, []⟩]
  | e :: past =>
    match e.op with
    | .bind label => created past ++ [⟨e.after.control, departures label past⟩]
    | _ => created past

/-! ## Steps -/

/-- The assembler with more nodes in its graph. -/
def grown (a : Assembler) (ns : List Node) : Assembler :=
  { a with graph := a.graph.append ns }

/-- The assembler with a new node behind those of a block. -/
def placed (a : Assembler) (b : Nat) (n : Node) : Assembler :=
  { a with graph := a.graph.append [n], schedule := a.schedule.append b a.graph.size }

/-- The assembler with a new node behind those of a block that is the current effect. -/
def chained (a : Assembler) (b : Nat) (n : Node) : Assembler :=
  { a.placed b n with effect := a.graph.size }

/-- The labels after a jump to one of them. -/
def recorded (labels : String → Label) (label : String) (j : Jump) : String → Label := fun name =>
  if name = label then { labels name with jumps := (labels name).jumps ++ [j] } else labels name

/-- The assembler after a block was ended, with the jumps and returns that ended it. -/
def left (a : Assembler) (b : Nat) (kind : BlockKind) (control : Option NodeId) (ns : List Node)
    (js : List (String × Jump)) (rs : List NodeId) : Assembler :=
  { a with
    graph := a.graph.append ns
    schedule := a.schedule.ended b kind control
    current := none
    returns := a.returns ++ rs
    labels := js.foldl (fun labels p => recorded labels p.1 p.2) a.labels }

/-- The assembler in the new block of a label. -/
def entered (a : Assembler) (label : String) (head effect : NodeId) : Assembler :=
  { a with
    schedule := a.schedule.opened head ((a.labels label).jumps.map Jump.block)
    labels := fun name =>
      if name = label then { a.labels label with block := some a.schedule.blocks.size }
      else a.labels name
    current := some a.schedule.blocks.size
    control := head
    effect }

/-- Whether a node may be added to block `b` by an operation. -/
structure Suits (a : Assembler) (op : Operation) (b : Nat) (n : Node) : Prop where
  fits : n.fitsArity = true
  inputs : ∀ x ∈ n.inputs, x ∈ op.arguments ∨ x = a.effect ∨ x = a.control ∨
    a.schedule.headOf? b = some x
  /-- A join has as many values as the merge that starts the block has inputs. -/
  phi : n.op = .phi → ∃ h m, a.schedule.headOf? b = some h ∧ a.graph.node? h = some m ∧
    m.op = .merge ∧ n.valueCount = m.inputs.length
  effectPhi : n.op ≠ .effectPhi

/-- The head of a new block that is entered by the given jumps, with the node to add for it. -/
inductive Heads (a : Assembler) : List Jump → List Node → NodeId → Prop
  | shared {j : Jump} {op : Operator} (hOp : a.graph.HasOp j.control op)
      (hIf : op = .ifTrue ∨ op = .ifFalse) : Heads a [j] [] j.control
  | merge (jumps : List Jump) : Heads a jumps [.merge (jumps.map Jump.control)] a.graph.size

/-- What an operation can do to an assembler. -/
inductive Step (a : Assembler) : Operation → Option NodeId → Assembler → Prop
  -- a parameter that was asked for before is given again
  | look {index : Int} {id : NodeId} (hParam : id ∈ a.params) : Step a (.param index) (some id) a
  -- a node without memory access leaves the effect as it was
  | place {op : Operation} {b : Nat} {n : Node} (hAdds : op.adds = true)
      (hOpen : a.current = some b) (hSuits : Suits a op b n) (hPlain : n.op.isAccess = false) :
      Step a op (some a.graph.size) (a.placed b n)
  | chain {op : Operation} {b : Nat} {n : Node} (hAdds : op.adds = true)
      (hOpen : a.current = some b) (hSuits : Suits a op b n) (hAccess : n.op.isAccess = true)
      (hEffect : 0 ≤ a.effect → n.effectIn = .ok a.effect) :
      Step a op (some a.graph.size) (a.chained b n)
  -- the block is closed, and its jumps are filed under their labels
  | leave {op : Operation} {b : Nat} {kind : BlockKind} {control : Option NodeId} {ns : List Node}
      {js : List (String × Jump)} {rs : List NodeId} (hCloses : op.closes = true)
      (hOpen : a.current = some b)
      (hNodes : ∀ n ∈ ns, n.fitsArity = true ∧ ∀ x ∈ n.inputs, x ∈ op.arguments ∨ x = a.effect ∨
        x = a.control ∨ (a.graph.append ns).Knows x)
      (hTargets : js.map Prod.fst = op.targets)
      (hJumps : ∀ p ∈ js, p.2.block = b ∧ p.2.effect = a.effect ∧
        (p.2.control = a.control ∨ (a.graph.append ns).Knows p.2.control))
      (hReturns : ∀ x ∈ rs, (a.graph.append ns).Knows x) :
      Step a op none (a.left b kind control ns js rs)
  -- all jumps bring one effect
  | enter {label : String} {first : Jump} {rest : List Jump} {hs : List Node} {head : NodeId}
      (hJumps : (a.labels label).jumps = first :: rest) (hHead : Heads a (first :: rest) hs head)
      (hSame : ∀ j ∈ rest, j.effect = first.effect) :
      Step a (.bind label) none ((a.grown hs).entered label head first.effect)
  -- they bring different ones, which meet in an effect phi
  | join {label : String} {first : Jump} {rest : List Jump} {hs : List Node} {head : NodeId}
      (hJumps : (a.labels label).jumps = first :: rest) (hHead : Heads a (first :: rest) hs head)
      (hDiffer : ∃ j ∈ rest, j.effect ≠ first.effect) :
      Step a (.bind label) none (((a.grown hs).entered label head first.effect).chained
        a.schedule.blocks.size (.effectPhi ((first :: rest).map Jump.effect ++ [head])))

end Assembler
end ArmBackend
