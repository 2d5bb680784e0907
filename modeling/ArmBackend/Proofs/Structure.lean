import ArmBackend.Proofs.Dominance
import ArmBackend.Proofs.Verified
import ArmBackend.Stream.Basic

/-!
# Well formed streams

Which registers an instruction reads and writes, and what it means for a stream of instructions to
be in single assignment form over the blocks of a schedule: no register is written twice or stands
for a constant at the same time, and a register is read only where its value is there on every path.

What it means for a stream to be laid out over a schedule. Its blocks are those of the schedule, in
order, and cut the code into consecutive ranges. Each range ends in its only terminator, which
goes where the block of the schedule goes. Every operand points into the tables of the stream.
-/

namespace ArmBackend

/-- The register of an operand, if it has one. -/
def Operand.register? : Operand → Option Int
  | .vreg index _ => some index
  | .constant register => some register
  | .immediate _ | .label _ | .unassigned _ _ _ => none

namespace Instr

/-- The registers that an instruction reads. -/
def reads (i : Instr) : List Int :=
  i.inputs.filterMap Operand.register?

/-- The registers that an instruction writes. -/
def writes (i : Instr) : List Int :=
  i.out.filterMap Operand.register?

end Instr

namespace Stream

/-- The instructions of a block. -/
def Block.code (b : Block) (s : Stream) : List Instr :=
  (s.code.take b.stop.toNat).drop b.start.toNat

/-- The registers that a block writes: by its joins, then by its instructions. -/
def Block.writes (b : Block) (s : Stream) : List Int :=
  b.phis.map Phi.out ++ (b.code s).flatMap Instr.writes

/-- The registers that the block at a position writes. -/
def writesOf (s : Stream) (b : Nat) : List Int :=
  s.blocks[b]?.elim [] (·.writes s)

/-- Single assignment form over the blocks of a schedule. -/
structure SsaForm (s : Stream) (schedule : Schedule) : Prop where
  /-- No register is written twice. -/
  nodup : (s.blocks.flatMap (·.writes s)).Nodup
  /-- No register that is written stands for a constant. -/
  notConstant : ∀ b, ∀ r ∈ s.writesOf b, s.constant? r = none
  /-- A register that is read stands for a constant, is written before in the same block, or is
  written in a block that strictly dominates it. -/
  reads : ∀ b (block : Block), s.blocks[b]? = some block → ∀ front i rest,
    block.code s = front ++ i :: rest → ∀ r ∈ i.reads,
      (s.constant? r).isSome ∨ r ∈ block.phis.map Phi.out ∨ r ∈ front.flatMap Instr.writes ∨
        ∃ a, schedule.StrictlyDominates a b ∧ r ∈ s.writesOf a
  /-- What a join takes from a predecessor stands for a constant or is written in a block that
  dominates the predecessor. -/
  joins : ∀ b (block : Block), s.blocks[b]? = some block → ∀ phi : Phi, phi ∈ block.phis →
    ∀ (k : Nat) r, phi.inputs[k]? = some r → (s.constant? r).isSome ∨
      ∃ p, (schedule.predecessors b)[k]? = some p ∧
        ∃ a, schedule.Dominates a p ∧ r ∈ s.writesOf a

end Stream
end ArmBackend

/-! ## Layout over a schedule -/

namespace ArmBackend

namespace Stream

/-- Whether a register was given out. -/
def HasVreg (s : Stream) (r : Int) : Prop :=
  0 ≤ r ∧ r < s.nextVreg

/-- Whether an operand points into the tables of a stream. -/
def Knows (s : Stream) : Operand → Prop
  | .vreg r _ => s.HasVreg r
  | .immediate index => 0 ≤ index ∧ index < s.immediates.length
  | .constant r => s.HasVreg r ∧ (s.constant? r).isSome
  | .label _ => True
  | .unassigned _ _ _ => False

end Stream

namespace Instr

/-- Whether an instruction ends a block. -/
def IsTerminator (i : Instr) : Prop :=
  i.op = .jmp ∨ i.op = .ret ∨ i.flags = .branch

instance (i : Instr) : Decidable i.IsTerminator :=
  inferInstanceAs (Decidable (_ ∨ _))

/-- Whether an instruction decides between two blocks: its last two inputs are their labels. -/
def Branches (i : Instr) (ifTrue ifFalse : Nat) : Prop :=
  i.flags = .branch ∧ ∃ front, i.inputs = front ++ [.label ifTrue, .label ifFalse]

/-- Whether the operands of an instruction are as many as it asks for, and point into the tables. -/
def Fits (i : Instr) (s : Stream) : Prop :=
  i.check = .ok () ∧ ∀ o ∈ i.inputs ++ i.out ++ i.temp, s.Knows o

end Instr

namespace Schedule

/-- Whether block `t` starts with a projection of a branch. -/
def StartsWith (s : Schedule) (g : Graph) (t : Nat) (branch : NodeId) (op : Operator) : Prop :=
  ∃ block n, s.blocks[t]? = some block ∧ g.node? block.head = some n ∧ n.op = op ∧
    branch ∈ n.inputs

/-- Whether an instruction ends a block of a schedule: it goes where the block goes. -/
def EndsIn (s : Schedule) (g : Graph) (block : Block) (i : Instr) : Prop :=
  match block.kind with
  | .none => False
  | .goto => ∃ t : Nat, block.succ = [t] ∧ i = { op := .jmp, inputs := [.label t] }
  | .ret => ∃ x, i = { op := .ret, inputs := [x] }
  | .branch => ∃ branch t f, block.control = some branch ∧ block.succ = [t, f] ∧
      i.Branches t f ∧ s.StartsWith g t branch .ifTrue ∧ s.StartsWith g f branch .ifFalse

end Schedule

namespace Stream

/-- A stream is laid out over a schedule. -/
structure LaidOver (stream : Stream) (g : Graph) (s : Schedule) : Prop where
  size : stream.blocks.length = s.blocks.size
  /-- A block has the number and the successors of the block of the schedule. -/
  block : ∀ (b : Nat) (block : Block) (source : ArmBackend.Block), stream.blocks[b]? = some block →
    s.blocks[b]? = some source →
      block.id = b ∧ block.succ = source.succ.map fun (t : Nat) => (t : Int)
  /-- Each block starts where the one in front stops, from the first instruction to the last. -/
  ranges : stream.blocks.map Block.start ++ [(stream.code.length : Int)] =
    0 :: stream.blocks.map Block.stop
  /-- A block ends in its only terminator. -/
  ends : ∀ (b : Nat) (block : Block) (source : ArmBackend.Block), stream.blocks[b]? = some block →
    s.blocks[b]? = some source → block.start < block.stop ∧
      ∃ front last, block.code stream = front ++ [last] ∧ (∀ i ∈ front, ¬i.IsTerminator) ∧
        last.IsTerminator ∧ s.EndsIn g source last
  code : ∀ i ∈ stream.code, i.Fits stream
  joins : ∀ block ∈ stream.blocks, ∀ phi ∈ block.phis, ∀ r ∈ phi.out :: phi.inputs,
    stream.HasVreg r

end Stream
end ArmBackend
