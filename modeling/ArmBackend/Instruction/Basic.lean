import ArmBackend.Instruction.Condition
import ArmBackend.Instruction.Opcode
import ArmBackend.Instruction.Operand

/-!
# Instructions

An instruction and the rules it has to obey: which constants fit its immediate slot, and how many
operands its opcode and addressing mode ask for.
-/

namespace ArmBackend

/-- One selected instruction. -/
structure Instr where
  op : Opcode
  mode : AddrMode := .none
  flags : FlagsMode := .none
  cond : Cond := .eq
  out : List Operand := []
  inputs : List Operand := []
  temp : List Operand := []
  deriving DecidableEq, Repr

/-! ## Immediates -/

/-- Whether `v` is an eight bit number rotated right by an even amount. -/
def immediateFits (v : BitVec 32) : Bool :=
  (List.range 16).any fun k => decide ((v.rotateLeft (2 * k)).toNat ≤ 0xff)

namespace Opcode

/-- Whether the constant `v` fits the immediate slot of an instruction. Some opcodes have a
counterpart that takes the inverted or the negated constant. -/
def canBeImmediate (op : Opcode) (v : BitVec 32) : Bool :=
  match op with
  | .and | .mov | .mvn | .bic => immediateFits v || immediateFits (~~~v)
  | .add | .sub | .cmp | .cmn => immediateFits v || immediateFits (-v)
  | .tst | .teq | .orr | .eor | .rsb => immediateFits v
  | .vldr | .vstr => decide (-1020 ≤ v.toInt ∧ v.toInt ≤ 1020 ∧ v.toInt % 4 = 0)
  | .ldrb | .ldrsb | .strb | .ldr | .str => decide (-4095 ≤ v.toInt ∧ v.toInt ≤ 4095)
  | .ldrh | .ldrsh | .strh => decide (-255 ≤ v.toInt ∧ v.toInt ≤ 255)
  | _ => false

end Opcode

/-! ## Operand counts -/

/-- What an addressing mode adds to the inputs of an instruction. -/
inductive Extension
  | plain
  | operand2
  | offset
  | fixed
  deriving DecidableEq, Repr

/-- The operands of an ARM instruction. -/
structure Shape where
  inputs : Nat
  outputs : Nat
  extension : Extension := .plain
  deriving DecidableEq, Repr

/-- The operands that each ARM opcode asks for; none for other numbers. -/
def Opcode.shape? : Opcode → Option Shape
  | .add | .and | .bic | .orr | .eor | .sub | .rsb =>
    some { inputs := 1, outputs := 1, extension := .operand2 }
  | .cmp | .cmn | .tst | .teq => some { inputs := 1, outputs := 0, extension := .operand2 }
  | .mov | .mvn => some { inputs := 0, outputs := 1, extension := .operand2 }
  | .mul | .sdiv | .udiv | .vadd | .vsub | .vmul | .vdiv => some { inputs := 2, outputs := 1 }
  | .mla | .mls | .bfc | .ubfx | .vmla | .vmls => some { inputs := 3, outputs := 1 }
  | .vcmp => some { inputs := 2, outputs := 0 }
  | .vcvtF64S32 | .vcvtF64U32 | .vcvtS32F64 | .vcvtU32F64 => some { inputs := 1, outputs := 1 }
  | .ldrb | .ldrsb | .ldrh | .ldrsh | .ldr | .vldr =>
    some { inputs := 0, outputs := 1, extension := .offset }
  | .strb | .strh | .str | .vstr => some { inputs := 1, outputs := 0, extension := .offset }
  | .storeWriteBarrier => some { inputs := 3, outputs := 0, extension := .fixed }
  | .nop | .jmp | .ret | .call | .truncateDouble | .unassigned _ => none

/-- Why an instruction is not well formed. -/
inductive InstrDefect
  | unknownOpcode (code : Int)
  | badMode (op : Opcode) (mode : AddrMode)
  | unexpectedMode (op : Opcode) (mode : AddrMode)
  | operandCounts (op : Opcode) (mode : AddrMode) (wantIn wantOut gotIn gotOut : Nat)
  | nopOperands
  | jumpLabel
  | returnOutputs
  | callTarget
  | truncateOperands
  deriving DecidableEq, Repr

/-- The wording of a defect. -/
def InstrDefect.text : InstrDefect → String
  | .unknownOpcode code => "unknown opcode " ++ Numeral.decimal code
  | .badMode op mode => op.name ++ ": bad addressing mode " ++ mode.name
  | .unexpectedMode op mode => op.name ++ ": unexpected addressing mode " ++ mode.name
  | .operandCounts op mode wantIn wantOut gotIn gotOut =>
    op.name ++ " " ++ mode.name ++ ": want " ++ Numeral.natural wantIn ++ " inputs " ++
      Numeral.natural wantOut ++ " outputs, got " ++ Numeral.natural gotIn ++ " " ++
      Numeral.natural gotOut
  | .nopOperands => "arch_nop: bad operands"
  | .jumpLabel => "arch_jmp: want one label"
  | .returnOutputs => "arch_ret: unexpected outputs"
  | .callTarget => "arch_call: want call target"
  | .truncateOperands => "arch_truncate_double_to_i: want one input and one output"

/-- How many inputs an addressing mode adds under an extension. -/
def Extension.inputs (e : Extension) (op : Opcode) (mode : AddrMode) : Except InstrDefect Nat :=
  match e with
  | .fixed => .ok 0
  | .operand2 =>
    match mode.operand2Inputs? with
    | some n => .ok n
    | none => .error (.badMode op mode)
  | .offset =>
    if mode = .offsetImmediate ∨ mode = .offsetRegister then .ok 2 else .error (.badMode op mode)
  | .plain => if mode = .none then .ok 0 else .error (.unexpectedMode op mode)

/-- How many inputs the flags add: a branch names its two labels. -/
def FlagsMode.inputs : FlagsMode → Nat
  | .branch => 2
  | _ => 0

/-- How many outputs the flags add: a set flag is a result. -/
def FlagsMode.outputs : FlagsMode → Nat
  | .set => 1
  | _ => 0

namespace Instr

/-- Checks the operands of a pseudo instruction. -/
def checkPseudo (i : Instr) : Except InstrDefect Unit :=
  match i.op with
  | .nop => if i.inputs ≠ [] ∨ 1 < i.out.length then .error .nopOperands else .ok ()
  | .jmp =>
    match i.inputs, i.out with
    | [.label _], [] => .ok ()
    | _, _ => .error .jumpLabel
  | .ret => if i.out ≠ [] then .error .returnOutputs else .ok ()
  | .call =>
    match i.inputs with
    | .constant _ :: _ => .ok ()
    | _ => .error .callTarget
  | .truncateDouble =>
    if i.inputs.length ≠ 1 ∨ i.out.length ≠ 1 then .error .truncateOperands else .ok ()
  | _ => .ok ()

/-- Checks the number of operands against opcode, addressing mode and flags. -/
def check (i : Instr) : Except InstrDefect Unit :=
  if i.op.isPseudo then i.checkPseudo
  else match i.op.shape? with
    | none => .error (.unknownOpcode i.op.code)
    | some shape => do
      let more ← shape.extension.inputs i.op i.mode
      let wantIn := shape.inputs + more + i.flags.inputs
      let wantOut := shape.outputs + i.flags.outputs
      if i.inputs.length ≠ wantIn ∨ i.out.length ≠ wantOut then
        throw (.operandCounts i.op i.mode wantIn wantOut i.inputs.length i.out.length)

end Instr
end ArmBackend
