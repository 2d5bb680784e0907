import ArmBackend.Graph.Matching
import ArmBackend.Graph.Uses
import ArmBackend.Layout

/-!
# Fragments

A representation change is expanded into a fragment of machine level nodes: a test, two paths and a
join where the two forms of a tagged value have to be told apart, and an allocation where a double
has to be boxed. A fragment is built in a state monad over the graph, which only ever grows, and
answers with the nodes that stand in place of the change.
-/

namespace ArmBackend

/-- Steps that add nodes to a graph. -/
abbrev Build := StateM Graph

namespace Build

/-- Adds a node. -/
def push (n : Node) : Build NodeId := fun g =>
  let (g, id) := g.push n
  (id, g)

/-- Adds a node of an operator with a fixed number of inputs. -/
def node (op : Operator) (inputs : List NodeId) : Build NodeId :=
  push (.ofArity op inputs)

/-- Adds a 32 bit constant. -/
def int32 (v : Int) : Build NodeId :=
  push (.int32 (BitVec.ofInt 32 v))

end Build

namespace Lowering

open Build

/-- Where a fragment starts: the changed value and the chains it hangs on. -/
structure Entry where
  value : NodeId
  effect : NodeId
  control : NodeId
  anchored : Bool
  deriving DecidableEq, Repr

/-- A branch, its two projections and the merge behind them. -/
structure Diamond where
  ifTrue : NodeId
  ifFalse : NodeId
  merge : NodeId
  deriving DecidableEq, Repr

/-- A boxed value and the effect it leaves. -/
structure Boxed where
  value : NodeId
  effect : NodeId
  deriving DecidableEq, Repr

variable (l : Layout)

/-- Adds a diamond on a condition. -/
def diamond (condition control : NodeId) : Build Diamond := do
  let branch ← node .branch [condition, control]
  let ifTrue ← node .ifTrue [branch]
  let ifFalse ← node .ifFalse [branch]
  let merge ← push (.merge [ifTrue, ifFalse])
  return { ifTrue, ifFalse, merge }

/-- Boxes a double. The object is fresh, so the store needs no write barrier. -/
def box (value effect control : NodeId) : Build Boxed := do
  let target ← push (.external allocateHeapNumber)
  let size ← int32 l.heapNumberSize
  let object ← push (.call target [size] effect control)
  let offset ← int32 l.heapNumberOffset
  let store ← push (.store .float64 .none object offset value object control)
  let finish ← node .finish [object, store]
  return { value := finish, effect := finish }

/-- Reads the double of a boxed number on the path that `control` starts. -/
def unbox (object control : NodeId) : Build NodeId := do
  let offset ← int32 l.heapNumberOffset
  let effect ← node .controlEffect [control]
  push (.load .float64 object offset effect (-1))

/-- The operator for the word width. -/
def wordOp (op32 op64 : Operator) : Operator :=
  if l.word = 64 then op64 else op32

/-- The tag bit of a word: not zero for a pointer. -/
def tagBit (value : NodeId) : Build NodeId := do
  let mask ← int32 1
  node (wordOp l (.word32 .and) (.word64 .and)) [value, mask]

/-- Makes a small integer of a word. -/
def smiTag (value : NodeId) (unsigned : Bool) : Build NodeId := do
  let shift ← int32 l.smiShift
  if l.word = 32 then node (.word32 .shl) [value, shift]
  else
    let wide ← node (.convert (if unsigned then .uint32ToUint64 else .int32ToInt64)) [value]
    node (.word64 .shl) [wide, shift]

/-- The payload of a small integer. -/
def smiUntag (value : NodeId) : Build NodeId := do
  let shift ← int32 l.smiShift
  if l.word = 32 then node (.word32 .sar) [value, shift]
  else
    let wide ← node (.word64 .sar) [value, shift]
    node (.convert .truncateInt64ToInt32) [wide]

/-- The effect that an allocation depends on. -/
def allocationEffect (e : Entry) : Build NodeId :=
  if 0 ≤ e.effect then pure e.effect else node .valueEffect [e.value]

/-- The effect behind a merge: a join when one of the paths had an effect of its own. -/
def joinEffects (e : Entry) (merge : NodeId) (effects : List NodeId) : Build NodeId :=
  if !e.anchored then pure (-1)
  else if effects.all (· = e.effect) then pure e.effect
  else push (.effectPhi (effects ++ [merge]))

/-- The control behind a fragment without branches. -/
def passControl (e : Entry) : NodeId :=
  if e.anchored then e.control else -1

/-! ## One fragment per change -/

/-- A bit selects one of the two canonical objects. -/
def bitToBool (e : Entry) : Build Graph.Replacement := do
  let d ← diamond e.value e.control
  let yes ← push (.heap trueValue)
  let no ← push (.heap falseValue)
  let phi ← push (.phi .tagged [yes, no, d.merge])
  return { value := phi, effect := e.effect, control := d.merge }

/-- A boolean object is compared with the true object. -/
def boolToBit (e : Entry) : Build Graph.Replacement := do
  let yes ← push (.heap trueValue)
  let equal ← node (wordOp l (.word32 .equal) (.word64 .equal)) [e.value, yes]
  return { value := equal, effect := e.effect, control := passControl e }

/-- A double is always boxed. -/
def float64ToTagged (e : Entry) : Build Graph.Replacement := do
  let effect ← allocationEffect e
  let boxed ← box l e.value effect e.control
  return { value := boxed.value
           effect := if e.anchored then boxed.effect else e.effect
           control := passControl e }

/-- A word that is known to be a small integer is shifted. -/
def smallInt32ToTagged (e : Entry) : Build Graph.Replacement := do
  let smi ← smiTag l e.value false
  return { value := smi, effect := e.effect, control := passControl e }

/-- Doubling a word tags it as a small integer unless the sum overflows; then it is boxed. -/
def int32ToTagged (e : Entry) : Build Graph.Replacement := do
  let double ← node (.int32 .addWithOverflow) [e.value, e.value]
  let overflow ← push (.projection 1 double)
  let d ← diamond overflow e.control
  let number ← node (.convert .int32ToFloat64) [e.value]
  let effect ← allocationEffect e
  let boxed ← box l number effect d.ifTrue
  let smi ← push (.projection 0 double)
  let phi ← push (.phi .tagged [boxed.value, smi, d.merge])
  let effect ← joinEffects e d.merge [boxed.effect, e.effect]
  return { value := phi, effect, control := d.merge }

/-- An unsigned word up to the greatest small integer is shifted, any other is boxed. -/
def uint32ToTagged (e : Entry) : Build Graph.Replacement := do
  let greatest ← int32 l.smiMax
  let small ← node (.int32 .unsignedLessThanOrEqual) [e.value, greatest]
  let d ← diamond small e.control
  let smi ← smiTag l e.value true
  let number ← node (.convert .uint32ToFloat64) [e.value]
  let effect ← allocationEffect e
  let boxed ← box l number effect d.ifFalse
  let phi ← push (.phi .tagged [smi, boxed.value, d.merge])
  let effect ← joinEffects e d.merge [e.effect, boxed.effect]
  return { value := phi, effect, control := d.merge }

/-- A pointer gives the boxed double, a small integer is converted. -/
def taggedToFloat64 (e : Entry) : Build Graph.Replacement := do
  let tag ← tagBit l e.value
  let d ← diamond tag e.control
  let loaded ← unbox l e.value d.ifTrue
  let smi ← smiUntag l e.value
  let number ← node (.convert .int32ToFloat64) [smi]
  let phi ← push (.phi .float64 [loaded, number, d.merge])
  return { value := phi, effect := e.effect, control := d.merge }

/-- A pointer gives the truncated double, a small integer its payload. Truncation keeps the low 32
bits, which are the same for signed and unsigned words. -/
def taggedToInt32 (e : Entry) : Build Graph.Replacement := do
  let tag ← tagBit l e.value
  let d ← diamond tag e.control
  let loaded ← unbox l e.value d.ifTrue
  let number ← node (.convert .truncateFloat64ToInt32) [loaded]
  let smi ← smiUntag l e.value
  let phi ← push (.phi .word32 [number, smi, d.merge])
  return { value := phi, effect := e.effect, control := d.merge }

/-- The fragment of a change. `small` says that the value is a constant small integer. -/
def fragment (c : Change) (small : Bool) (e : Entry) : Build Graph.Replacement :=
  match c with
  | .bitToBool => bitToBool e
  | .boolToBit => boolToBit l e
  | .float64ToTagged => float64ToTagged l e
  | .int32ToTagged => if l.word = 64 || small then smallInt32ToTagged l e else int32ToTagged l e
  | .uint32ToTagged => uint32ToTagged l e
  | .taggedToFloat64 => taggedToFloat64 l e
  | .taggedToInt32 | .taggedToUint32 => taggedToInt32 l e

end Lowering
end ArmBackend
