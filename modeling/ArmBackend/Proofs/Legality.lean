import Mathlib.Tactic.Common
import ArmBackend.Stream.Basic
import ArmBackend.Target

/-!
# Legal instructions

What the processor asks of an instruction, written without the rules of selection. A number may
stand only in certain slots of an instruction, which its opcode and its addressing mode name
(`Opcode.slot?`), and each slot takes only certain numbers (`Slot.Admits`): the flexible operand a
rotated byte, an address an offset within reach, a shift a short amount, and a bit field a range of
bits of the word. Some opcodes need a feature of the processor.

## Results

* `immediateFits_iff` — the test of the assembler finds exactly the rotated bytes.
-/

namespace ArmBackend

/-! ## Rotated bytes -/

/-- Whether a word is an eight bit number rotated right by an even amount. -/
def IsRotatedByte (v : BitVec 32) : Prop :=
  ∃ (byte : BitVec 8) (k : Nat), v = (byte.setWidth 32).rotateRight (2 * k)

theorem rotateRight_rotateLeft (v : BitVec 32) (r : Nat) :
    (v.rotateLeft r).rotateRight r = v := by
  have hr : r % 32 < 32 := Nat.mod_lt r (by decide)
  ext i hi
  simp only [BitVec.getElem_rotateRight, BitVec.getElem_rotateLeft]
  split
  · rw [dif_neg (by omega)]
    exact getElem_congr_idx (by omega)
  · rw [dif_pos (by omega)]
    exact getElem_congr_idx (by omega)

theorem rotateLeft_rotateRight (v : BitVec 32) (r : Nat) :
    (v.rotateRight r).rotateLeft r = v := by
  have hr : r % 32 < 32 := Nat.mod_lt r (by decide)
  ext i hi
  simp only [BitVec.getElem_rotateRight, BitVec.getElem_rotateLeft]
  split
  · rw [dif_neg (by omega)]
    exact getElem_congr_idx (by omega)
  · rw [dif_pos (by omega)]
    exact getElem_congr_idx (by omega)

theorem immediateFits_iff {v : BitVec 32} : immediateFits v = true ↔ IsRotatedByte v := by
  unfold immediateFits
  simp only [List.any_eq_true, List.mem_range, decide_eq_true_eq]
  constructor
  · rintro ⟨k, -, hByte⟩
    have hNarrow : ((v.rotateLeft (2 * k)).setWidth 8).setWidth 32 = v.rotateLeft (2 * k) := by
      apply BitVec.eq_of_toNat_eq
      simp only [BitVec.toNat_setWidth]
      omega
    refine ⟨(v.rotateLeft (2 * k)).setWidth 8, k, ?_⟩
    rw [hNarrow, rotateRight_rotateLeft]
  · rintro ⟨byte, k, rfl⟩
    refine ⟨k % 16, Nat.mod_lt _ (by decide), ?_⟩
    -- Rotations of a word count modulo its width.
    have hAmount : 2 * k % 32 = 2 * (k % 16) := by omega
    rw [← BitVec.rotateRight_mod_eq_rotateRight, hAmount, rotateLeft_rotateRight,
      BitVec.toNat_setWidth]
    have hLt := byte.isLt
    omega

instance (v : BitVec 32) : Decidable (IsRotatedByte v) :=
  decidable_of_iff _ immediateFits_iff

/-! ## Slots -/

/-- What a number in an instruction is for. -/
inductive Slot
  /-- The flexible operand of a data processing instruction. -/
  | flexible
  /-- The offset of an address. -/
  | offset
  /-- The amount of a shift. -/
  | amount (kind : ShiftKind)
  /-- The lowest bit or the width of a bit field. -/
  | field
  deriving DecidableEq, Repr

namespace Opcode

/-- How many operands stand in front of the flexible one. -/
def lead (op : Opcode) : Nat :=
  op.shape?.elim 0 Shape.inputs

/-- Whether the opcode works on a bit field. -/
def IsField (op : Opcode) : Prop :=
  op = .ubfx ∨ op = .bfc

instance (op : Opcode) : Decidable op.IsField :=
  inferInstanceAs (Decidable (_ ∨ _))

/-- The slot for a number that an instruction has as its input `k`. -/
def slot? (op : Opcode) (mode : AddrMode) (k : Nat) : Option Slot :=
  match mode with
  | .immediate => if k = op.lead then some .flexible else none
  | .shiftImmediate kind => if k = op.lead + 1 then some (.amount kind) else none
  | .offsetImmediate => if k = 1 then some .offset else none
  | _ =>
    if ¬op.IsField then none
    else if k = 1 ∨ k = 2 then some .field
    else none

/-- Whether a number can be the flexible operand: it is a rotated byte, or its complement or its
negative is one and the opcode has a counterpart that takes that. -/
def Encodes (op : Opcode) (v : BitVec 32) : Prop :=
  IsRotatedByte v ∨
    (op ∈ [Opcode.and, .bic, .mov, .mvn] ∧ IsRotatedByte (~~~v)) ∨
    (op ∈ [Opcode.add, .sub, .cmp, .cmn] ∧ IsRotatedByte (-v))

/-- Whether an offset of either sign is within reach of an access. -/
def Reaches : Opcode → BitVec 32 → Prop
  | .ldr, v | .str, v | .ldrb, v | .ldrsb, v | .strb, v => v.toInt.natAbs ≤ 4095
  | .ldrh, v | .ldrsh, v | .strh, v => v.toInt.natAbs ≤ 255
  | .vldr, v | .vstr, v => v.toInt.natAbs ≤ 1020 ∧ 4 ∣ v.toInt
  | _, _ => False

/-- The feature of the processor that an opcode needs. -/
def feature? : Opcode → Option Feature
  | .sdiv | .udiv => some .sudiv
  | .mls => some .mls
  | .ubfx | .bfc => some .armv7
  | _ => none

end Opcode

/-- Whether a shift by an amount in the instruction can be encoded. -/
def ShiftKind.Allows : ShiftKind → BitVec 32 → Prop
  | .asr, v | .lsr, v => 1 ≤ v.toInt ∧ v.toInt ≤ 32
  | .lsl, v => 0 ≤ v.toInt ∧ v.toInt ≤ 31
  | .ror, v => 1 ≤ v.toInt ∧ v.toInt ≤ 31

/-- Whether a number can stand in a slot. -/
def Slot.Admits (op : Opcode) : Slot → BitVec 32 → Prop
  | .flexible, v => op.Encodes v
  | .offset, v => op.Reaches v
  | .amount kind, v => kind.Allows v
  | .field, v => 0 ≤ v.toInt

/-! ## Instructions -/

/-- Whether an operand points into the table of immediates. -/
def Operand.isImmediate : Operand → Bool
  | .immediate _ => true
  | _ => false

/-- Whether an operand is the number `v`. -/
def Stream.IsNumber (s : Stream) (o : Operand) (v : BitVec 32) : Prop :=
  o.isImmediate ∧ s.toInt32 o = .ok v.toInt

/-- Whether the processor takes the inputs of an instruction. -/
structure Opcode.Accepts (op : Opcode) (features : Features) (s : Stream) (mode : AddrMode)
    (inputs : List Operand) : Prop where
  /-- Each slot holds a number that fits. -/
  numbers : ∀ k slot, op.slot? mode k = some slot →
    ∃ o v, inputs[k]? = some o ∧ s.IsNumber o v ∧ slot.Admits op v
  /-- There are no other numbers. -/
  elsewhere : ∀ (k : Nat) o, inputs[k]? = some o → o.isImmediate → (op.slot? mode k).isSome
  /-- A bit field has a bit and lies within the word. -/
  field : op.IsField → ∃ o o' lsb width, inputs[1]? = some o ∧ inputs[2]? = some o' ∧
    s.IsNumber o lsb ∧ s.IsNumber o' width ∧
    0 ≤ lsb.toInt ∧ 1 ≤ width.toInt ∧ lsb.toInt + width.toInt ≤ 32
  feature : ∀ f, op.feature? = some f → features.has f

/-- Whether the processor takes an instruction. -/
structure Instr.Legal (i : Instr) (features : Features) (s : Stream) : Prop where
  accepts : i.op.Accepts features s i.mode i.inputs
  outputs : ∀ o ∈ i.out ++ i.temp, o.isImmediate = false

/-- A number that the assembler takes for the flexible operand can be encoded there. -/
theorem Opcode.encodes_of_canBeImmediate {op : Opcode} {v : BitVec 32} {shape : Shape}
    (hShape : op.shape? = some shape) (hFlexible : shape.extension = .operand2)
    (h : op.canBeImmediate v = true) : op.Encodes v := by
  unfold Opcode.Encodes
  simp only [← immediateFits_iff]
  cases op with
  | and | mov | mvn | bic | add | sub | cmp | cmn =>
    simpa [canBeImmediate] using h
  | tst | teq | orr | eor | rsb => exact .inl h
  | _ => cases hShape <;> cases hFlexible

/-- An offset that the assembler takes for an access is within reach. -/
theorem Opcode.reaches_of_canBeImmediate {op : Opcode} {v : BitVec 32} {shape : Shape}
    (hShape : op.shape? = some shape) (hOffset : shape.extension = .offset)
    (h : op.canBeImmediate v = true) : op.Reaches v := by
  cases op with
  | ldr | str | ldrb | ldrsb | strb | ldrh | ldrsh | strh | vldr | vstr =>
    simp only [canBeImmediate, decide_eq_true_eq] at h
    unfold Reaches
    omega
  | _ => cases hShape <;> cases hOffset

end ArmBackend
