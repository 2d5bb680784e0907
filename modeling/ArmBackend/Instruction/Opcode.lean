import ArmBackend.Numeral

/-!
# Opcodes and addressing modes

The opcodes are a few pseudo instructions that every target shares, followed by the ARM
instructions. An addressing mode says what stands in the flexible second operand of a data
processing instruction, or how a memory instruction forms its address. Numbers outside the tables
are kept as they are; a number below the first ARM opcode counts as a pseudo instruction.
-/

namespace ArmBackend

/-- What an instruction does. -/
inductive Opcode
  | nop
  | jmp
  | ret
  | call
  | truncateDouble
  | add
  | and
  | bic
  | cmp
  | cmn
  | tst
  | teq
  | orr
  | eor
  | sub
  | rsb
  | mov
  | mvn
  | mul
  | mla
  | mls
  | sdiv
  | udiv
  | bfc
  | ubfx
  | vcmp
  | vadd
  | vsub
  | vmul
  | vmla
  | vmls
  | vdiv
  | vcvtF64S32
  | vcvtF64U32
  | vcvtS32F64
  | vcvtU32F64
  | ldrb
  | ldrsb
  | strb
  | ldrh
  | ldrsh
  | strh
  | ldr
  | str
  | vldr
  | vstr
  | storeWriteBarrier
  | unassigned (code : Int)
  deriving DecidableEq, Repr

namespace Opcode

/-- Every assigned opcode, in the order of the codes. -/
def all : List Opcode :=
  [.nop, .jmp, .ret, .call, .truncateDouble, .add, .and, .bic, .cmp, .cmn, .tst, .teq, .orr, .eor,
    .sub, .rsb, .mov, .mvn, .mul, .mla, .mls, .sdiv, .udiv, .bfc, .ubfx, .vcmp, .vadd, .vsub,
    .vmul, .vmla, .vmls, .vdiv, .vcvtF64S32, .vcvtF64U32, .vcvtS32F64, .vcvtU32F64, .ldrb, .ldrsb,
    .strb, .ldrh, .ldrsh, .strh, .ldr, .str, .vldr, .vstr, .storeWriteBarrier]

/-- The code of an opcode. -/
def code : Opcode → Int
  | .unassigned code => code
  | op => all.idxOf op

/-- The opcode with a code. -/
def ofCode (code : Int) : Opcode :=
  if code < 0 then .unassigned code else all[code.toNat]?.getD (.unassigned code)

/-- Whether the opcode is a pseudo instruction. -/
def isPseudo : Opcode → Bool
  | .nop | .jmp | .ret | .call | .truncateDouble => true
  | .unassigned code => decide (code < 5)
  | _ => false

/-- The name of an opcode. -/
def name : Opcode → String
  | .nop => "arch_nop"
  | .jmp => "arch_jmp"
  | .ret => "arch_ret"
  | .call => "arch_call"
  | .truncateDouble => "arch_truncate_double_to_i"
  | .add => "add"
  | .and => "and"
  | .bic => "bic"
  | .cmp => "cmp"
  | .cmn => "cmn"
  | .tst => "tst"
  | .teq => "teq"
  | .orr => "orr"
  | .eor => "eor"
  | .sub => "sub"
  | .rsb => "rsb"
  | .mov => "mov"
  | .mvn => "mvn"
  | .mul => "mul"
  | .mla => "mla"
  | .mls => "mls"
  | .sdiv => "sdiv"
  | .udiv => "udiv"
  | .bfc => "bfc"
  | .ubfx => "ubfx"
  | .vcmp => "vcmp.f64"
  | .vadd => "vadd.f64"
  | .vsub => "vsub.f64"
  | .vmul => "vmul.f64"
  | .vmla => "vmla.f64"
  | .vmls => "vmls.f64"
  | .vdiv => "vdiv.f64"
  | .vcvtF64S32 => "vcvt.f64.s32"
  | .vcvtF64U32 => "vcvt.f64.u32"
  | .vcvtS32F64 => "vcvt.s32.f64"
  | .vcvtU32F64 => "vcvt.u32.f64"
  | .ldrb => "ldrb"
  | .ldrsb => "ldrsb"
  | .strb => "strb"
  | .ldrh => "ldrh"
  | .ldrsh => "ldrsh"
  | .strh => "strh"
  | .ldr => "ldr"
  | .str => "str"
  | .vldr => "vldr.f64"
  | .vstr => "vstr.f64"
  | .storeWriteBarrier => "str_wb"
  | .unassigned code => "op(" ++ Numeral.decimal code ++ ")"

/-- The name of a pseudo instruction; an ARM opcode is shown by its number. -/
def pseudoName (op : Opcode) : String :=
  if op.isPseudo then op.name else "op(" ++ Numeral.decimal op.code ++ ")"

end Opcode

/-- How a shifted operand is moved. -/
inductive ShiftKind
  | asr
  | lsl
  | lsr
  | ror
  deriving DecidableEq, Repr

/-- The form of a flexible operand or of an address. -/
inductive AddrMode
  | none
  | offsetImmediate
  | offsetRegister
  | immediate
  | register
  | shiftImmediate (kind : ShiftKind)
  | shiftRegister (kind : ShiftKind)
  | unassigned (code : Int)
  deriving DecidableEq, Repr

namespace AddrMode

/-- Every assigned addressing mode, in the order of the codes. -/
def all : List AddrMode :=
  [.none, .offsetImmediate, .offsetRegister, .immediate, .register, .shiftImmediate .asr,
    .shiftImmediate .lsl, .shiftImmediate .lsr, .shiftImmediate .ror, .shiftRegister .asr,
    .shiftRegister .lsl, .shiftRegister .lsr, .shiftRegister .ror]

/-- The code of an addressing mode. -/
def code : AddrMode → Int
  | .unassigned code => code
  | mode => all.idxOf mode

/-- The addressing mode with a code. -/
def ofCode (code : Int) : AddrMode :=
  if code < 0 then .unassigned code else all[code.toNat]?.getD (.unassigned code)

/-- The name of an addressing mode. -/
def name : AddrMode → String
  | .none => ""
  | .offsetImmediate => "Offset_RI"
  | .offsetRegister => "Offset_RR"
  | .immediate => "Operand2_I"
  | .register => "Operand2_R"
  | .shiftImmediate .asr => "Operand2_R_ASR_I"
  | .shiftImmediate .lsl => "Operand2_R_LSL_I"
  | .shiftImmediate .lsr => "Operand2_R_LSR_I"
  | .shiftImmediate .ror => "Operand2_R_ROR_I"
  | .shiftRegister .asr => "Operand2_R_ASR_R"
  | .shiftRegister .lsl => "Operand2_R_LSL_R"
  | .shiftRegister .lsr => "Operand2_R_LSR_R"
  | .shiftRegister .ror => "Operand2_R_ROR_R"
  | .unassigned code => "mode(" ++ Numeral.decimal code ++ ")"

/-- How many inputs the flexible second operand takes in a mode; none for other modes. -/
def operand2Inputs? : AddrMode → Option Nat
  | .immediate | .register => some 1
  | .shiftImmediate _ | .shiftRegister _ => some 2
  | _ => Option.none

end AddrMode
end ArmBackend
