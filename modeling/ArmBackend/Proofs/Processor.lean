import ArmBackend.Evaluation.Arithmetic
import ArmBackend.Proofs.Legality
import Mathlib.Algebra.Group.Nat.Defs

/-!
# What the processor computes

The meaning of the instructions on 32 bit words, as the manual of the processor has it: what the
flexible operand stands for, what an instruction computes, which flags it leaves, and when a
condition holds. Registers and the table of immediates are given by a `Reading`.

Sums and differences go through one adder: a difference adds the complement and a carry. The flags
are those of the adder. A logical instruction takes its carry from the shifter and leaves the
overflow flag as it was; neither depends on the result, so a reading has them as they come.

A bank of registers is a reading with registers for doubles beside those for words. An instruction
writes one register of either kind; conversions and the division of doubles are those of the
evaluator. Code without branches runs from its first instruction to its last.

## Results

* `holds?_negate` — the opposite condition.
* `holds?_cmp` — what a condition says of two words that were compared.
* `compare?_commute` — the condition for words that were compared the other way round.
* `execute?_append` — code runs piece by piece.
-/

namespace ArmBackend

/-! ## Flags and conditions -/

/-- The condition flags: negative, zero, carry and overflow. -/
structure Flags where
  n : Bool
  z : Bool
  c : Bool
  v : Bool
  deriving DecidableEq, Repr

/-- Whether a condition holds. The conditions of doubles are about flags that the unit for doubles
leaves. -/
def Cond.holds? (cond : Cond) (f : Flags) : Option Bool :=
  match cond with
  | .eq => some f.z
  | .ne => some !f.z
  | .lt => some (f.n != f.v)
  | .ge => some (f.n == f.v)
  | .le => some (f.z || f.n != f.v)
  | .gt => some (!f.z && f.n == f.v)
  | .lo => some !f.c
  | .hs => some f.c
  | .ls => some (!f.c || f.z)
  | .hi => some (f.c && !f.z)
  | .vs => some f.v
  | .vc => some !f.v
  | .ueq | .une | .ult | .uge | .ule | .ugt | .unassigned _ => none

/-- The sum of two words and a carry, with its flags: there is a carry when the sum of the natural
numbers does not fit, and an overflow when that of the integers does not. -/
def addWithCarry (x y : BitVec 32) (carry : Bool) : BitVec 32 × Flags :=
  let sum := x + y + BitVec.ofNat 32 carry.toNat
  (sum, {
    n := sum.msb
    z := sum == 0
    c := sum.toNat != x.toNat + y.toNat + carry.toNat
    v := sum.toInt != x.toInt + y.toInt + carry.toNat })

/-! ## Operands -/

instance (kind : ShiftKind) (v : BitVec 32) : Decidable (kind.Allows v) := by
  cases kind <;> exact inferInstanceAs (Decidable (_ ∧ _))

/-- A word shifted by any amount. -/
def ShiftKind.shift (kind : ShiftKind) (x : BitVec 32) (amount : Nat) : BitVec 32 :=
  match kind with
  | .asr => x.sshiftRight amount
  | .lsl => x <<< amount
  | .lsr => x >>> amount
  | .ror => x.rotateRight amount

/-- What an instruction finds: the registers, the table of immediates of a stream, the carry that
the shifter leaves, and the overflow flag as it was. -/
structure Reading where
  registers : Int → BitVec 32
  stream : Stream
  carry : Bool
  overflow : Bool

namespace Reading

variable (ρ : Reading)

/-- The word in a register. -/
def register? : Operand → Option (BitVec 32)
  | .vreg r _ => some (ρ.registers r)
  | _ => none

/-- A number in an instruction, by the table of immediates. -/
def number? (o : Operand) : Option (BitVec 32) :=
  if o.isImmediate then (ρ.stream.toInt32 o).toOption.map (BitVec.ofInt 32) else none

/-- The flexible operand that some inputs start with. A register gives the amount of a shift by its
low byte: so a logical shift may shift everything out, an arithmetic one leaves the sign, and a
rotation goes round. -/
def flexible? (mode : AddrMode) (inputs : List Operand) : Option (BitVec 32) :=
  match mode, inputs with
  | .immediate, o :: _ => ρ.number? o
  | .register, o :: _ => ρ.register? o
  | .shiftImmediate kind, o :: a :: _ => do
    let x ← ρ.register? o
    let amount ← ρ.number? a
    if kind.Allows amount then some (kind.shift x amount.toNat) else none
  | .shiftRegister kind, o :: a :: _ => do
    let x ← ρ.register? o
    let amount ← ρ.register? a
    return kind.shift x (amount.toNat % 256)
  | _, _ => none

/-- The result of a logical instruction, with its flags. -/
def logical (w : BitVec 32) : BitVec 32 × Flags :=
  (w, { n := w.msb, z := w == 0, c := ρ.carry, v := ρ.overflow })

end Reading

/-! ## Instructions -/

/-- What an instruction with two operands makes of them; a comparison is the instruction whose flags
it sets. -/
def Opcode.process? (op : Opcode) (ρ : Reading) (x y : BitVec 32) : Option (BitVec 32 × Flags) :=
  match op with
  | .add | .cmn => some (addWithCarry x y false)
  | .sub | .cmp => some (addWithCarry x (~~~y) true)
  | .rsb => some (addWithCarry (~~~x) y true)
  | .and | .tst => some (ρ.logical (x &&& y))
  | .eor | .teq => some (ρ.logical (x ^^^ y))
  | .orr => some (ρ.logical (x ||| y))
  | .bic => some (ρ.logical (x &&& ~~~y))
  | _ => none

namespace Instr

variable (i : Instr) (ρ : Reading)

/-- The result and the flags of a data processing instruction. The labels of a branch come behind
its operands. -/
def outcome? : Option (BitVec 32 × Flags) :=
  match i.op, i.inputs with
  | .mov, rest => (ρ.flexible? i.mode rest).map ρ.logical
  | .mvn, rest => (ρ.flexible? i.mode rest).map fun y => ρ.logical (~~~y)
  | op, o :: rest => do
    let x ← ρ.register? o
    let y ← ρ.flexible? i.mode rest
    op.process? ρ x y
  | _, [] => none

/-- The word that an instruction computes. -/
def result? : Option (BitVec 32) :=
  match i.op, i.inputs with
  | .mul, [a, b] => do return (← ρ.register? a) * (← ρ.register? b)
  | .mla, [a, b, c] => do return (← ρ.register? a) * (← ρ.register? b) + (← ρ.register? c)
  | .mls, [a, b, c] => do
    let x ← ρ.register? a
    let y ← ρ.register? b
    return (← ρ.register? c) - x * y
  | .sdiv, [a, b] => do return signedQuotient (← ρ.register? a) (← ρ.register? b)
  | .udiv, [a, b] => do return unsignedQuotient (← ρ.register? a) (← ρ.register? b)
  | .ubfx, [a, low, count] => do
    let x ← ρ.register? a
    let lsb ← ρ.number? low
    let width ← ρ.number? count
    return (x >>> lsb.toNat) &&& BitVec.ofNat 32 (2 ^ width.toNat - 1)
  | .bfc, [a, low, count] => do
    let x ← ρ.register? a
    let lsb ← ρ.number? low
    let width ← ρ.number? count
    return x &&& ~~~(BitVec.ofNat 32 (2 ^ width.toNat - 1) <<< lsb.toNat)
  | _, _ => (i.outcome? ρ).map Prod.fst

/-- Whether the condition of an instruction holds of the flags that it sets. -/
def holds? : Option Bool := do
  i.cond.holds? (← i.outcome? ρ).2

/-- The label that a branch goes to: the first one if its condition holds. -/
def target? : Option Int :=
  match i.inputs.reverse with
  | .label f :: .label t :: _ => (i.holds? ρ).map fun b => if b then t else f
  | _ => none

end Instr

/-! ## The adder -/

variable {x y : BitVec 32} {b : Bool}

theorem addWithCarry_comm (x y : BitVec 32) (carry : Bool) :
    addWithCarry x y carry = addWithCarry y x carry := by
  unfold addWithCarry
  rw [BitVec.add_comm x y, Nat.add_comm x.toNat, Int.add_comm x.toInt]

@[simp] theorem add_fst (x y : BitVec 32) : (addWithCarry x y false).1 = x + y := by
  simp [addWithCarry]

@[simp] theorem sub_fst (x y : BitVec 32) : (addWithCarry x (~~~y) true).1 = x - y := by
  show x + ~~~y + 1#32 = x - y
  rw [BitVec.sub_eq_add_neg, BitVec.neg_eq_not_add, BitVec.add_assoc]

@[simp] theorem rsb_fst (x y : BitVec 32) : (addWithCarry (~~~x) y true).1 = y - x := by
  rw [addWithCarry_comm, sub_fst]

theorem add_z (x y : BitVec 32) : (addWithCarry x y false).2.z = (x + y == 0) :=
  congrArg (· == 0) (add_fst x y)

/-- Two words whose difference is zero are equal. -/
theorem sub_beq_zero (x y : BitVec 32) : (x - y == 0) = (x == y) := by
  rw [Bool.eq_iff_iff, beq_iff_eq, beq_iff_eq]
  constructor <;> bv_omega

theorem sub_z (x y : BitVec 32) : (addWithCarry x (~~~y) true).2.z = (x == y) := by
  have hZero : (addWithCarry x (~~~y) true).2.z = (x - y == 0) := congrArg (· == 0) (sub_fst x y)
  rw [hZero, sub_beq_zero]

/-- The overflow flag of a sum. -/
theorem add_v (x y : BitVec 32) :
    (addWithCarry x y false).2.v = ((x + y).toInt != x.toInt + y.toInt) := by
  simp [addWithCarry]

/-- The overflow flag of a difference. -/
theorem sub_v (x y : BitVec 32) :
    (addWithCarry x (~~~y) true).2.v = ((x - y).toInt != x.toInt - y.toInt) := by
  have hFlag : (addWithCarry x (~~~y) true).2.v =
      ((addWithCarry x (~~~y) true).1.toInt != x.toInt + (~~~y).toInt + 1) := rfl
  have hNot : (~~~y).toInt = -y.toInt - 1 := by
    simp only [BitVec.toInt_eq_toNat_cond, BitVec.toNat_not]
    have hy := y.isLt
    split <;> split <;> omega
  have hSum : x.toInt + (~~~y).toInt + 1 = x.toInt - y.toInt := by omega
  rw [hFlag, sub_fst, hSum]

/-- The sign of a difference tells the order, turned round by an overflow. -/
theorem sub_n_v (x y : BitVec 32) :
    ((addWithCarry x (~~~y) true).2.n != (addWithCarry x (~~~y) true).2.v) = x.slt y := by
  have hSign : (addWithCarry x (~~~y) true).2.n = (x - y).msb := congrArg BitVec.msb (sub_fst x y)
  rw [hSign, sub_v, BitVec.slt_eq_decide, BitVec.msb_eq_toInt]
  have hDifference : (x - y).toInt = (x.toInt - y.toInt).bmod (2 ^ 32) := BitVec.toInt_sub
  have hx := BitVec.le_toInt x
  have hx' := BitVec.toInt_lt (x := x)
  have hy := BitVec.le_toInt y
  have hy' := BitVec.toInt_lt (x := y)
  have hRange := Int.bmod_def (x.toInt - y.toInt) (2 ^ 32)
  rw [hDifference, Bool.eq_iff_iff, bne_iff_ne, decide_eq_true_eq, Ne, Bool.eq_iff_iff,
    decide_eq_true_eq, bne_iff_ne]
  -- the difference wraps just where the overflow flag is set
  split at hRange <;> omega

/-- A difference leaves no carry when it has to borrow. -/
theorem sub_c (x y : BitVec 32) : (addWithCarry x (~~~y) true).2.c = y.ule x := by
  have hFlag : (addWithCarry x (~~~y) true).2.c =
      ((addWithCarry x (~~~y) true).1.toNat != x.toNat + (~~~y).toNat + 1) := rfl
  rw [hFlag, sub_fst, BitVec.toNat_sub, BitVec.toNat_not, BitVec.ule_eq_decide]
  have hx := x.isLt
  have hy := y.isLt
  rw [Bool.eq_iff_iff, bne_iff_ne, decide_eq_true_eq]
  omega

/-! ## Comparisons -/

namespace Cond

variable {c : Cond} {f : Flags}

/-- What a condition says of two words that were compared. -/
def compare? (c : Cond) (x y : BitVec 32) : Option Bool :=
  match c with
  | .eq => some (x == y)
  | .ne => some (x != y)
  | .lt => some (x.slt y)
  | .ge => some (y.sle x)
  | .le => some (x.sle y)
  | .gt => some (y.slt x)
  | .lo => some (x.ult y)
  | .hs => some (y.ule x)
  | .ls => some (x.ule y)
  | .hi => some (y.ult x)
  | _ => none

/-- The opposite condition holds when the condition does not. -/
theorem holds?_negate (c : Cond) (f : Flags) : c.negate.holds? f = (c.holds? f).map (!·) := by
  obtain ⟨n, z, c', v⟩ := f
  cases c <;> cases n <;> cases z <;> cases c' <;> cases v <;> rfl

/-- The opposite condition says the opposite of two words. -/
theorem compare?_negate (c : Cond) (x y : BitVec 32) :
    c.negate.compare? x y = (c.compare? x y).map (!·) := by
  cases c with
  | eq => rfl
  | ne => exact congrArg some (Bool.not_not _).symm
  | lt | le | gt | ge => simp [compare?, negate, BitVec.sle_eq_not_slt]
  | lo | ls | hi | hs => simp [compare?, negate, BitVec.ule_eq_not_ult]
  | _ => rfl

/-- Comparing sets the flags by which the conditions are decided. -/
theorem holds?_cmp (h : c.compare? x y = some b) :
    c.holds? (addWithCarry x (~~~y) true).2 = some b := by
  -- Five conditions go by the flags; the other five are their opposites.
  have hEq : Cond.eq.holds? (addWithCarry x (~~~y) true).2 = Cond.eq.compare? x y :=
    congrArg some (sub_z x y)
  have hLt : Cond.lt.holds? (addWithCarry x (~~~y) true).2 = Cond.lt.compare? x y :=
    congrArg some (sub_n_v x y)
  have hLe : Cond.le.holds? (addWithCarry x (~~~y) true).2 = Cond.le.compare? x y := by
    unfold holds? compare?
    dsimp only
    rw [sub_n_v, sub_z, BitVec.sle_eq_slt_or_eq, Bool.or_comm]
  have hLo : Cond.lo.holds? (addWithCarry x (~~~y) true).2 = Cond.lo.compare? x y := by
    unfold holds? compare?
    dsimp only
    rw [sub_c, BitVec.ule_eq_not_ult, Bool.not_not]
  have hLs : Cond.ls.holds? (addWithCarry x (~~~y) true).2 = Cond.ls.compare? x y := by
    unfold holds? compare?
    dsimp only
    rw [sub_c, sub_z, Option.some_inj, Bool.eq_iff_iff]
    simp only [BitVec.ule_eq_decide, Bool.or_eq_true, Bool.not_eq_true', decide_eq_false_iff_not,
      beq_iff_eq, decide_eq_true_eq]
    bv_omega
  have hNegate : ∀ {c : Cond}, c.holds? (addWithCarry x (~~~y) true).2 = c.compare? x y →
      c.negate.holds? (addWithCarry x (~~~y) true).2 = c.negate.compare? x y := by
    intro c hc
    rw [holds?_negate, compare?_negate, hc]
  rw [← h]
  cases c with
  | eq => exact hEq
  | ne => exact hNegate hEq
  | lt => exact hLt
  | ge => exact hNegate hLt
  | le => exact hLe
  | gt => exact hNegate hLe
  | lo => exact hLo
  | hs => exact hNegate hLo
  | ls => exact hLs
  | hi => exact hNegate hLs
  | _ => cases h

/-- Words that are compared the other way round ask for the mirror image of the condition. -/
theorem compare?_commute (c : Cond) (x y : BitVec 32) :
    c.commute.compare? y x = c.compare? x y := by
  cases c with
  | eq => exact congrArg some (Bool.beq_comm ..)
  | ne => exact congrArg some (bne_comm ..)
  | _ => rfl

end Cond

end ArmBackend

/-! ## Running code -/

namespace ArmBackend

/-- The registers of a processor. -/
structure Bank extends Reading where
  doubles : Int → Double

namespace Bank

variable (b : Bank) (r q : Int) (w : BitVec 32) (x : Double)

/-- Writes a register for words. -/
def setWord : Bank :=
  { b with registers := fun q => if q = r then w else b.registers q }

/-- Writes a register for doubles. -/
def setDouble : Bank :=
  { b with doubles := fun q => if q = r then x else b.doubles q }

@[simp] theorem setWord_registers : (b.setWord r w).registers r = w :=
  if_pos rfl

@[simp] theorem setDouble_doubles : (b.setDouble r x).doubles r = x :=
  if_pos rfl

variable {r q}

theorem setWord_registers_of_ne (h : q ≠ r) : (b.setWord r w).registers q = b.registers q :=
  if_neg h

theorem setDouble_doubles_of_ne (h : q ≠ r) : (b.setDouble r x).doubles q = b.doubles q :=
  if_neg h

@[simp] theorem setDouble_toReading : (b.setDouble r x).toReading = b.toReading :=
  rfl

end Bank

/-- What an instruction makes of the registers. -/
def Instr.step? (i : Instr) (b : Bank) : Option Bank :=
  match i.op, i.out, i.inputs with
  | .vcvtF64S32, [.vreg d _], [.vreg r _] => some (b.setDouble d (.ofInt (b.registers r).toInt))
  | .vcvtF64U32, [.vreg d _], [.vreg r _] => some (b.setDouble d (.ofInt (b.registers r).toNat))
  | .vcvtS32F64, [.vreg r _], [.vreg d _] => some (b.setWord r (b.doubles d).saturateInt32)
  | .vcvtU32F64, [.vreg r _], [.vreg d _] => some (b.setWord r (b.doubles d).saturateUint32)
  | .vdiv, [.vreg d _], [.vreg x _, .vreg y _] =>
    some (b.setDouble d ((b.doubles x).div (b.doubles y)))
  | _, [.vreg r _], _ => (i.result? b.toReading).map (b.setWord r)
  | _, _, _ => none

/-- Runs code from its first instruction to its last. -/
def execute? (code : List Instr) (b : Bank) : Option Bank :=
  code.foldlM (fun b i => i.step? b) b

variable {b b' : Bank} {i : Instr} {code code' : List Instr}

@[simp] theorem execute?_nil : execute? [] b = some b :=
  rfl

theorem execute?_cons : execute? (i :: code) b = (i.step? b).bind (execute? code) :=
  rfl

@[simp] theorem execute?_singleton : execute? [i] b = i.step? b := by
  rw [execute?_cons]
  cases i.step? b <;> rfl

/-- Code runs piece by piece. -/
theorem execute?_append (h : execute? code b = some b') :
    execute? (code ++ code') b = execute? code' b' := by
  unfold execute? at *
  rw [List.foldlM_append, h]
  rfl

end ArmBackend
