import ArmBackend.Selection.Basic

/-!
# Memory and calls

Covers loads, stores and calls. The offset of an access may be a number in the instruction, on
either side of the sum. A store with a write barrier passes its operands in fixed registers, of
which two are overwritten.
-/

namespace ArmBackend.Selection

/-- The instruction that loads a representation; small words extend their sign when the type of the
load is signed. -/
def loadOp? (rep : Rep) (type : MachineType) : Option Opcode :=
  match rep with
  | .float64 => some .vldr
  | .bit | .word8 => some (if type = .int32 then .ldrsb else .ldrb)
  | .word16 => some (if type = .int32 then .ldrsh else .ldrh)
  | .word32 | .tagged => some .ldr
  | .none | .word64 | .unassigned _ => none

/-- The instruction that stores a representation. -/
def storeOp? : Rep → Option Opcode
  | .float64 => some .vstr
  | .bit | .word8 => some .strb
  | .word16 => some .strh
  | .word32 | .tagged => some .str
  | .none | .word64 | .unassigned _ => none

/-- The addressing mode and the operands of an access to `base + index`. -/
def address (op : Opcode) (base index : NodeId) : Select (AddrMode × List Operand) := do
  let g := (← read).graph
  if (← g.int32 index).value?.any op.canBeImmediate then
    let x ← useRegister base
    return (.offsetImmediate, [x, ← useImmediate index])
  if (← g.int32 base).value?.any op.canBeImmediate then
    let x ← useRegister index
    return (.offsetImmediate, [x, ← useImmediate base])
  let x ← useRegister base
  return (.offsetRegister, [x, ← useRegister index])

/-- Covers a load. -/
def coverLoad (id : NodeId) : Select Unit := do
  let n ← (← read).graph.node id
  match loadOp? n.rep n.mach with
  | none => throw (.malformed id n.op (.loadOf n.rep))
  | some op =>
    let (mode, inputs) ← address op (← n.input 0) (← n.input 1)
    let out ← define id
    emit { op, mode, out := [out], inputs }

/-- The register that the write barrier expects the object in. -/
def barrierObject : Location := .fixedRegister 4

/-- The register that the write barrier expects the index in, and overwrites. -/
def barrierIndex : Location := .fixedRegister 5

/-- The register that the write barrier expects the value in, and overwrites. -/
def barrierValue : Location := .fixedRegister 6

/-- Emits a store with a write barrier. -/
def emitBarrier (base index value : NodeId) : Select Unit := do
  let x ← useAt base barrierObject
  let y ← useAt index barrierIndex
  let z ← useAt value barrierValue
  let t ← tempAt barrierIndex
  let u ← tempAt barrierValue
  emit { op := .storeWriteBarrier, inputs := [x, y, z], temp := [t, u] }

/-- Covers a store. -/
def coverStore (id : NodeId) : Select Unit := do
  let n ← (← read).graph.node id
  let base ← n.input 0
  let index ← n.input 1
  let value ← n.input 2
  if n.barrier = .full then
    if n.rep ≠ .tagged then throw (.malformed id n.op (.barrierOn n.rep))
    emitBarrier base index value
  else match storeOp? n.rep with
    | none => throw (.malformed id n.op (.storeOf n.rep))
    | some op =>
      let (mode, inputs) ← address op base index
      let x ← useRegister value
      emit { op, mode, inputs := inputs ++ [x] }

/-- The arguments of a call, each at its location. -/
def useArguments : Linkage → List NodeId → Select (List Operand)
  | _, [] => return []
  | l, a :: rest => do
    let (l, location) := l.next (← isDouble a)
    let x ← useAt a location
    return x :: (← useArguments l rest)

/-- Covers a call of a constant address. -/
def coverCall (id : NodeId) : Select Unit := do
  let g := (← read).graph
  let n ← g.node id
  let target ← n.input 0
  let op ← g.op target
  if op ≠ .constant .heap && op ≠ .constant .external then
    throw { cause := .unsupported (.indirectCall id op) }
  markUsed target
  -- the target is no argument: it takes no location
  let entry : Operand := .constant (← vreg target)
  match ← n.valueInputs with
  | [] => throw .outOfRange
  | _ :: arguments =>
    let inputs ← useArguments {} arguments
    let out ← defineAt id (.fixedRegister 0)
    emit { op := .call, out := [out], inputs := entry :: inputs }

end ArmBackend.Selection
