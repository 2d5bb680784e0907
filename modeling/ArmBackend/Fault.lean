import ArmBackend.Instruction.Basic
import ArmBackend.Representation
import ArmBackend.Text.Layout

/-!
# Faults

Everything that can go wrong, by cause. A fault is a cause with the contexts it passed through on
its way out; its message is the contexts and the cause, joined by colons. A cause that breaks off
everything under way passes through them and stands alone. Each cause is worded in one place, and
the families `Defect`, `Violation`, `FloatingControl`, `Unsupported` and `Refusal` say what a caller
may tell apart.
-/

namespace ArmBackend

/-- The number of a node. Edges may name a number that no node has; `-1` stands for no node. -/
abbrev NodeId := Int

/-- What is wrong with one node. -/
inductive Defect
  | inputCount (given : Nat)
  | edgeCounts (value effect control : Int) (given : Nat)
  | noMerge
  | notChange
  | noValueInput (index : Int)
  | notBinary
  | inputs (value effect control : Int)
  | halfAnchored
  | unanchoredBranch
  | noControlInput
  | cycle (block : Nat)
  | noCurrentBlock
  | badLabel (bound : Bool) (jumps : Nat)
  | phiValues (given : Nat)
  | openBlock
  | gotoSuccessors (count : Nat)
  | unterminated (block : Nat)
  | noBranchTargets
  | noLocation
  | projectionOf (op : Operator)
  | notImmediate
  | notShift
  | loadOf (rep : Rep)
  | storeOf (rep : Rep)
  | barrierOn (rep : Rep)
  | instruction (defect : InstrDefect)
  | notControl
  | mergeNotReached
  | noArgument (index : Int)
  | unknownHeapConstant (name : String)
  | unsupportedCall
  | overflowOf (index : Int) (op : Operator)
  | notEvaluable
  deriving DecidableEq, Repr

/-- What verification finds wrong with a graph. -/
inductive Violation
  | unknownOperator (node : NodeId) (code : Nat)
  | inputCounts (node : NodeId) (op : Operator) (value effect control : Int)
  | tooManyAnchors (node : NodeId) (op : Operator)
  | inputRange (node : NodeId) (op : Operator) (input : NodeId)
  | noEnd
  deriving DecidableEq, Repr

/-- Why the control nodes of a graph do not form blocks that nodes can be placed in. -/
inductive FloatingControl
  | endsTwice (node head first second : NodeId)
  | noEnd (head : NodeId)
  | missingProjection (branch : NodeId)
  | unreachable
  | notDominated (node input : NodeId)
  deriving DecidableEq, Repr

/-- What instruction selection has no code for. -/
inductive Unsupported
  | operator (node : NodeId) (op : Operator)
  | indirectCall (node : NodeId) (target : Operator)
  deriving DecidableEq, Repr

/-- Which reader turned a text down. -/
inductive Reader
  | signed
  | unsigned
  | float
  | bool
  deriving DecidableEq, Repr

/-- Why an input from outside is turned down. -/
inductive Refusal
  | unknownFeature (name : String)
  | configWord (word : Int)
  | wordWidth (word : Int)
  | instruction (defect : InstrDefect)
  | codeRange (block start stop : Int)
  | parameterType (index : Nat) (name : String)
  | duplicateName (index : Nat) (name : String)
  | unknownOperator (name : String)
  | undefinedInput (name : String)
  | int32Range (value : Int)
  | noReference
  | unknownRep (name : String)
  | unknownMachineType (name : String)
  | unknownBarrier (name : String)
  | needsRep (op : Operator)
  | noReturnNode
  | argumentCount (want got : Nat)
  | numeral (reader : Reader) (text : String) (error : NumeralError)
  | unsupportedType (type : MachineType)
  | noSuchFile (path : String)
  | noGraphFile
  | resultType (name : String)
  | usage
  deriving DecidableEq, Repr

/-- Why something could not be done. -/
inductive Cause
  | malformed (node : NodeId) (op : Operator) (defect : Defect)
  | invalidGraph (violation : Violation)
  | floatingControl (reason : FloatingControl)
  | unsupported (what : Unsupported)
  | noReturn (noEnd : Bool)
  | undecodable
  | unassignable (given target : String)
  | noParts (type : String)
  | refused (refusal : Refusal)
  | notConstant (operand : Operand)
  | notInt32 (operand : Operand) (constant : Constant)
  | notRegister (operand : Operand)
  | outOfRange
  | endless
  deriving DecidableEq, Repr

/-- A cause and the contexts around it, outermost first. -/
structure Fault where
  context : List String := []
  cause : Cause
  deriving DecidableEq, Repr

/-! ## Wording -/

/-- The wording of a node's defect. -/
def Defect.text : Defect → String
  | .inputCount given => s!"bad input count {given}"
  | .edgeCounts value effect control given =>
    s!"edge counts {value}+{effect}+{control} do not sum to {given}"
  | .noMerge => "no merge"
  | .notChange => "not a change operator"
  | .noValueInput index => s!"no value input {index}"
  | .notBinary => "not a binary operator"
  | .inputs value effect control => s!"inputs {value}/{effect}/{control}"
  | .halfAnchored => "effect and control must be anchored together"
  | .unanchoredBranch => "branching change needs effect and control inputs"
  | .noControlInput => "no control input"
  | .cycle block => s!"cycle in block {block}"
  | .noCurrentBlock => "no current block"
  | .badLabel bound jumps => s!"bad label: bound {bound}, jumps {jumps}"
  | .phiValues given => s!"phi of {given} values"
  | .openBlock => "block is not terminated"
  | .gotoSuccessors count => s!"goto with {count} successors"
  | .unterminated block => s!"block {block} is not terminated"
  | .noBranchTargets => "branch targets not found"
  | .noLocation => "no location"
  | .projectionOf op => s!"projection of {op.name}"
  | .notImmediate => "not an immediate"
  | .notShift => "not a shift"
  | .loadOf rep => s!"load of {rep.name}"
  | .storeOf rep => s!"store of {rep.name}"
  | .barrierOn rep => s!"write barrier on {rep.name} store"
  | .instruction defect => defect.text
  | .notControl => "not a control node"
  | .mergeNotReached => "merge is not reached"
  | .noArgument index => s!"no argument {index}"
  | .unknownHeapConstant name => "unknown heap constant " ++ Text.quoted name
  | .unsupportedCall => "unsupported call"
  | .overflowOf index op => s!"projection {index} of {op.name}"
  | .notEvaluable => "can't evaluate"

/-- The wording of a violation. -/
def Violation.text : Violation → String
  | .unknownOperator node code => s!"node {node}: unknown operator {code}"
  | .inputCounts node op value effect control =>
    s!"node {node}: {op.name}: inputs {value}/{effect}/{control}"
  | .tooManyAnchors node op => s!"node {node}: {op.name}: too many anchors"
  | .inputRange node op input => s!"node {node}: {op.name}: input {input} out of range"
  | .noEnd => "no end node"

/-- The wording of a fault of the control chain. -/
def FloatingControl.text : FloatingControl → String
  | .endsTwice node head first second =>
    s!"node {node}: block of {head} ends twice: {first} and {second}"
  | .noEnd head => s!"block of {head} has no end"
  | .missingProjection branch => s!"branch {branch}: missing projection"
  | .unreachable => "blocks not reachable from start"
  | .notDominated node input => s!"node {node}: input {input} is not dominated"

/-- The wording of what selection does not cover. -/
def Unsupported.text : Unsupported → String
  | .operator node op => s!"node {node}: {op.name}"
  | .indirectCall node target => s!"node {node}: indirect call through {target.name}"

/-- How a reader signs its errors. -/
def Reader.name : Reader → String
  | .signed => "strconv.ParseInt"
  | .unsigned => "strconv.ParseUint"
  | .float => "strconv.ParseFloat"
  | .bool => "strconv.ParseBool"

/-- The wording of a refusal. -/
def Refusal.text : Refusal → String
  | .unknownFeature name => "unknown feature: " ++ Text.quoted name
  | .configWord word => s!"word width must be 32 or 64: {word}"
  | .wordWidth word => s!"bad word width: {word}"
  | .instruction defect => defect.text
  | .codeRange block start stop => s!"block B{block}: bad code range {start}:{stop}"
  | .parameterType index name => s!"param {index}: unknown machine type " ++ Text.quoted name
  | .duplicateName index name => s!"node {index}: duplicate name " ++ Text.quoted name
  | .unknownOperator name => "unknown operator " ++ Text.quoted name
  | .undefinedInput name => "undefined input " ++ Text.quoted name
  | .int32Range value => s!"int32 constant out of range: {value}"
  | .noReference => "ref expected"
  | .unknownRep name => "unknown rep " ++ Text.quoted name
  | .unknownMachineType name => "unknown machine type " ++ Text.quoted name
  | .unknownBarrier name => "unknown write barrier " ++ Text.quoted name
  | .needsRep op => s!"{op.name} needs rep"
  | .noReturnNode => "no return"
  | .argumentCount want got => s!"want {want} arguments, got {got}"
  | .numeral reader text error =>
    s!"{reader.name}: parsing " ++ Text.quoted text ++ ": " ++ Numeral.errorText error
  | .unsupportedType type => s!"unsupported machine type {type.name}"
  | .noSuchFile path => s!"open {path}: no such file or directory"
  | .noGraphFile => "graph file expected"
  | .resultType name => s!"unknown result type: {name}"
  | .usage => "usage"

/-- The wording of a cause. -/
def Cause.text : Cause → String
  | .malformed node op defect => s!"node {node}: {op.name}: " ++ defect.text
  | .invalidGraph violation => violation.text ++ ": malformed graph"
  | .floatingControl reason => reason.text ++ ": floating control"
  | .unsupported what => what.text ++ ": unsupported operator"
  | .noReturn noEnd => if noEnd then "no end: no return reached" else "no return reached"
  | .undecodable => "decode"
  | .unassignable given target =>
    s!"reflect.Set: value of type {given} is not assignable to type {target}"
  | .noParts type => s!"unhandled part: {type}"
  | .refused refusal => refusal.text
  | .notConstant operand => s!"operand {operand.text} is not a constant"
  | .notInt32 operand constant => s!"operand {operand.text} is not an int32: {constant.text}"
  | .notRegister operand => s!"operand {operand.text} is not a register"
  | .outOfRange => "index out of range"
  | .endless => "endless evaluation"

/-- Whether a cause breaks off everything under way, so that no context is told on its way out. -/
def Cause.isAbrupt : Cause → Bool
  | .unassignable _ _ => true
  | .noParts _ => true
  | .notConstant _ => true
  | .notInt32 _ _ => true
  | .notRegister _ => true
  | .outOfRange => true
  | .endless => true
  | _ => false

namespace Fault

/-- The text of a fault: its contexts, then its cause. -/
def message (f : Fault) : String :=
  Text.joinWith ": " (f.context ++ [f.cause.text])

/-- The fault seen from one context further out. -/
def within (f : Fault) (context : String) : Fault :=
  if f.cause.isAbrupt then f else { f with context := context :: f.context }

/-- A node with a defect. -/
def malformed (node : NodeId) (op : Operator) (defect : Defect) : Fault :=
  { cause := .malformed node op defect }

/-- A graph that does not verify. -/
def invalidGraph (violation : Violation) : Fault :=
  { cause := .invalidGraph violation }

/-- A control chain that does not form blocks. -/
def floatingControl (reason : FloatingControl) : Fault :=
  { cause := .floatingControl reason }

/-- An input that is turned down. -/
def refused (refusal : Refusal) : Fault :=
  { cause := .refused refusal }

/-- An access outside a table. -/
def outOfRange : Fault :=
  { cause := .outOfRange }

/-- An evaluation that would never end. -/
def endless : Fault :=
  { cause := .endless }

end Fault

/-- The result with one more context around its fault. -/
def inContext {α : Type} (context : String) : Except Fault α → Except Fault α
  | .ok a => .ok a
  | .error f => .error (f.within context)

end ArmBackend
