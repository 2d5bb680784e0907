import ArmBackend.Selection.Operand2

/-!
# Words and integers

Covers the 32 bit operators that compute a value: bit fields and complements, sums with a product,
products with constants near a power of two, and division with or without a division instruction.
-/

namespace ArmBackend.Selection

/-- Whether the target has a feature. -/
def has (f : Feature) : Select Bool := do
  return (← read).features.has f

/-! ## Bits -/

/-- Covers `x` without the bits of `y`. -/
def coverClear (id x y : NodeId) : Select Unit := do
  let out ← define id
  match ← tryShift y with
  | some shifted =>
    emit { op := .bic, mode := shifted.mode, out := [out],
           inputs := (← useRegister x) :: shifted.operands }
  | none =>
    let left ← useRegister x
    let right ← useRegister y
    emit { op := .bic, mode := .register, out := [out], inputs := [left, right] }

/-- Covers the extraction of a bit field. -/
def coverExtract (id base : NodeId) (lsb : Select Operand) (width : Nat) : Select Unit := do
  let out ← define id
  let x ← useRegister base
  let low ← lsb
  let count ← immediate (BitVec.ofNat 32 width)
  emit { op := .ubfx, out := [out], inputs := [x, low, count] }

/-- Covers a bitwise and with a mask of low ones. The mask may be taken from a shifted word. -/
def coverLowMask (id : NodeId) (left : Int32Match) (width : Nat) : Select Unit := do
  let g := (← read).graph
  if left.op = .word32 .shr then
    let shifted ← g.binary left.id
    if shifted.right.isInRange 0 31 then
      let lsb := (shifted.right.value?.getD 0).toNat
      coverExtract id shifted.left.id (useImmediate shifted.right.id) (min width (32 - lsb))
      return
  coverExtract id left.id (immediate 0) width

/-- Covers a bitwise and with a constant by a bit field instruction. The result tells whether there
is one. -/
def coverMask (id : NodeId) (left : Int32Match) (mask : BitVec 32) : Select Bool := do
  let ones := bitRun mask
  if ones.contiguous && ones.lsb = 0 then
    coverLowMask id left ones.width
    return true
  -- `bfc` clears in place, so the result takes the register of the first operand
  let zeros := bitRun (~~~mask)
  if zeros.contiguous then
    let out ← defineAt id .sameAsFirst
    let x ← useRegister left.id
    let low ← immediate (BitVec.ofNat 32 zeros.lsb)
    let count ← immediate (BitVec.ofNat 32 zeros.width)
    emit { op := .bfc, out := [out], inputs := [x, low, count] }
    return true
  return false

/-- The operand of a complement that `user` alone consumes. -/
def coveredComplement? (user id : NodeId) : Select (Option NodeId) := do
  match ← (← read).graph.complementOf? id with
  | some x => return if ← canCover user id then some x else none
  | none => return none

/-- Covers a bitwise and. -/
def coverAnd (id : NodeId) : Select Unit := do
  let m ← (← read).graph.binary id
  if let some x ← coveredComplement? id m.left.id then
    coverClear id m.right.id x
  else if let some x ← coveredComplement? id m.right.id then
    coverClear id m.left.id x
  else
    if ← has .armv7 then
      if let some mask := m.right.value? then
        if ← coverMask id m.left mask then return
    coverBinary id .and .and {}

/-- Covers an exclusive or; one with all ones is a complement. -/
def coverXor (id : NodeId) : Select Unit := do
  let m ← (← read).graph.binary id
  if !m.right.isConst (-1) then coverBinary id .eor .eor {}
  else
    let out ← define id
    match ← tryShift m.left.id with
    | some shifted =>
      emit { op := .mvn, mode := shifted.mode, out := [out], inputs := shifted.operands }
    | none =>
      emit { op := .mvn, mode := .register, out := [out], inputs := [← useRegister m.left.id] }

/-- The base and the width of the bit field that a shifted mask leaves, if it leaves one. -/
def shiftedField? (g : Graph) (id : NodeId) (lsb : Nat) : Except Fault (Option (NodeId × Nat)) := do
  let m ← g.binary id
  match m.right.value? with
  | none => return none
  | some mask =>
    let run := bitRun ((mask >>> lsb) <<< lsb)
    return if run.contiguous && run.lsb = lsb then some (m.left.id, run.width) else none

/-- Covers a logical shift to the right; of a masked word it is the extraction of a bit field. -/
def coverShr (id : NodeId) : Select Unit := do
  let g := (← read).graph
  let m ← g.binary id
  if (← has .armv7) && m.left.op = .word32 .and && m.right.isInRange 0 31 then
    let lsb := (m.right.value?.getD 0).toNat
    if let some (base, width) ← shiftedField? g m.left.id lsb then
      coverExtract id base (useImmediate m.right.id) width
      return
  coverShift id {}

/-! ## Sums and products -/

/-- Emits a product combined with a third value. -/
def emitMultiply (op : Opcode) (id product addend : NodeId) : Select Unit := do
  let m ← (← read).graph.binary product
  let out ← define id
  let left ← useRegister m.left.id
  let right ← useRegister m.right.id
  let third ← useRegister addend
  emit { op, out := [out], inputs := [left, right, third] }

/-- Whether an operand is a product that `user` alone consumes. -/
def isCoveredProduct (op : Operator) (user : NodeId) (m : Int32Match) : Select Bool := do
  if m.op ≠ op then return false
  canCover user m.id

/-- Covers a sum, with a product taken in. -/
def coverAdd (id : NodeId) : Select Unit := do
  let m ← (← read).graph.binary id
  if ← isCoveredProduct (.int32 .mul) id m.left then
    emitMultiply .mla id m.left.id m.right.id
  else if ← isCoveredProduct (.int32 .mul) id m.right then
    emitMultiply .mla id m.right.id m.left.id
  else coverBinary id .add .add {}

/-- Covers a difference, with a product taken in when the target can. -/
def coverSub (id : NodeId) : Select Unit := do
  let m ← (← read).graph.binary id
  if ← has .mls then
    if ← isCoveredProduct (.int32 .mul) id m.right then
      emitMultiply .mls id m.right.id m.left.id
      return
  coverBinary id .sub .rsb {}

/-- The shift by which a product with a positive constant is a sum or a difference of a value and
the shifted value. -/
def shiftedSum? (v : BitVec 32) : Option (Opcode × Nat) :=
  let isPower (w : BitVec 32) : Bool := decide (0 < w.toInt) && w &&& (w - 1) == 0
  if v.toInt ≤ 0 then none
  else if isPower (v - 1) then some (.add, trailingZeros (v - 1))
  else if v.toInt < 0x7fffffff && isPower (v + 1) then some (.rsb, trailingZeros (v + 1))
  else none

/-- Covers a product. -/
def coverMul (id : NodeId) : Select Unit := do
  let m ← (← read).graph.binary id
  match m.right.value?.bind shiftedSum? with
  | some (op, shift) =>
    let out ← define id
    let x ← useRegister m.left.id
    let y ← useRegister m.left.id
    let amount ← immediate (BitVec.ofNat 32 shift)
    emit { op, mode := .shiftImmediate .lsl, out := [out], inputs := [x, y, amount] }
  | none =>
    let out ← define id
    let left ← useRegister m.left.id
    let right ← useRegister m.right.id
    emit { op := .mul, out := [out], inputs := [left, right] }

/-! ## Division -/

/-- The instructions that divide, directly or through doubles. -/
structure DivisionOps where
  divide : Opcode
  toDouble : Opcode
  fromDouble : Opcode
  deriving DecidableEq, Repr

/-- Division of signed integers. -/
def DivisionOps.signed : DivisionOps :=
  ⟨.sdiv, .vcvtF64S32, .vcvtS32F64⟩

/-- Division of unsigned integers. -/
def DivisionOps.unsigned : DivisionOps :=
  ⟨.udiv, .vcvtF64U32, .vcvtU32F64⟩

/-- Emits a division, through doubles when the target cannot divide: a double holds every 32 bit
integer exactly. -/
def emitDivision (ops : DivisionOps) (out left right : Operand) : Select Unit := do
  if ← has .sudiv then emit { op := ops.divide, out := [out], inputs := [left, right] }
  else
    let l ← tempDouble
    let r ← tempDouble
    let q ← tempDouble
    emit { op := ops.toDouble, out := [l], inputs := [left] }
    emit { op := ops.toDouble, out := [r], inputs := [right] }
    emit { op := .vdiv, out := [q], inputs := [l, r] }
    emit { op := ops.fromDouble, out := [out], inputs := [q] }

/-- Covers a quotient. -/
def coverDivision (id : NodeId) (ops : DivisionOps) : Select Unit := do
  let m ← (← read).graph.binary id
  let out ← define id
  let left ← useRegister m.left.id
  let right ← useRegister m.right.id
  emitDivision ops out left right

/-- Covers a remainder: the dividend without the product of quotient and divisor. -/
def coverRemainder (id : NodeId) (ops : DivisionOps) : Select Unit := do
  let m ← (← read).graph.binary id
  let out ← define id
  let left ← useRegister m.left.id
  let right ← useRegister m.right.id
  let quotient ← tempRegister
  emitDivision ops quotient left right
  if ← has .mls then emit { op := .mls, out := [out], inputs := [quotient, right, left] }
  else
    let product ← tempRegister
    emit { op := .mul, out := [product], inputs := [quotient, right] }
    emit { op := .sub, mode := .register, out := [out], inputs := [left, product] }

end ArmBackend.Selection
