import ArmBackend.Stream.Basic

/-!
# Listing of a stream

A paragraph per block with its joins and instructions, then the constants by register. Operands that
point into a table are written as what they point to.
-/

namespace ArmBackend.Stream

/-- An operand, with what it points to in the tables. -/
def operandText (s : Stream) (o : Operand) : Except Fault String :=
  match o with
  | .immediate index =>
    if index < s.immediates.length then do
      return "#" ++ (← s.immediate index).text
    else .ok o.text
  | .constant register =>
    match s.constant? register with
    | some c => .ok ("=" ++ c.text)
    | none => .ok o.text
  | .vreg _ _ | .label _ | .unassigned _ _ _ => .ok o.text

/-- An instruction: opcode, addressing mode, flags, outputs, inputs and temporaries. -/
def instrText (s : Stream) (i : Instr) : Except Fault String := do
  let mode := if i.mode.name.isEmpty then "" else "." ++ i.mode.name
  let flags := if i.flags = .none then "" else " [" ++ i.flags.name ++ " " ++ i.cond.name ++ "]"
  let out ← i.out.mapM s.operandText
  let inputs ← i.inputs.mapM s.operandText
  let temp ← i.temp.mapM s.operandText
  return i.op.name ++ mode ++ flags ++ " " ++ Text.joinWith ", " out ++
    (if out.isEmpty then "" else " = ") ++ Text.joinWith ", " inputs ++
    (if temp.isEmpty then "" else " temp" ++ String.join (temp.map (" " ++ ·)))

/-- A join of registers. -/
def phiText (p : Phi) : String :=
  s!"phi v{p.out} =" ++ String.join (p.inputs.map fun v => s!" v{v}")

/-- The instructions of a block. -/
def codeOf (s : Stream) (b : Block) : Except Fault (List Instr) :=
  if b.stop < b.start ∨ s.code.length < b.stop then
    .error (.refused (.codeRange b.id b.start b.stop))
  else if b.start < 0 then .error .outOfRange
  else .ok ((s.code.take b.stop.toNat).drop b.start.toNat)

/-- The paragraph of a block. -/
def paragraph (s : Stream) (b : Block) : Except Fault String := do
  let succ := if b.succ.isEmpty then "" else " ->" ++ String.join (b.succ.map fun x => s!" B{x}")
  let instrs ← (← s.codeOf b).mapM s.instrText
  let lines := b.phis.map phiText ++ instrs
  return s!"B{b.id}:" ++ succ ++ "\n" ++ String.join (lines.map fun line => "\t" ++ line ++ "\n")

/-- The registers in use that stand for a constant, in increasing order. -/
def constantTable (s : Stream) : List (Nat × Constant) :=
  (List.range s.nextVreg).filterMap fun v => (s.constant? (v : Nat)).map fun c => (v, c)

/-- The listing of the constants. -/
def constantsText (s : Stream) : String :=
  if s.constants.isEmpty then ""
  else "\n" ++ String.join (s.constantTable.map fun (v, c) => s!"const v{v} = " ++ c.text ++ "\n")

/-- The listing of a stream. -/
def text (s : Stream) : Except Fault String := do
  let paragraphs ← s.blocks.mapM s.paragraph
  return Text.joinWith "\n" paragraphs ++ s.constantsText

end ArmBackend.Stream
