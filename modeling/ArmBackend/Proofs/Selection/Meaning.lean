import ArmBackend.Proofs.Processor
import ArmBackend.Proofs.Selection.Constants
import ArmBackend.Proofs.Selection.Advances

/-!
# The meaning of operands

An assignment gives every node a word. It is consistent when the word of an integer operator is the
one that the operator computes from the words of its inputs. A reading agrees with it when each
register holds the word of every node that the register stands for, and the table of immediates is
the one of the stream. `Always` says that something holds of every consistent assignment and every
reading that agrees with it: what is once read off the tables of registers and numbers stays true
while they grow.

## Results

* `binary_value` — the value of a binary node in terms of its matched operands.
* `useRegister_means`, `immediate_means`, `useImmediate_means` — what an operand reads.
* `tryShift_means`, `tryOperand2_means` — what a flexible operand stands for.
-/

namespace ArmBackend

/-! ## Assignments -/

/-- The word that the rule of an integer operator gives a node, from the words of its inputs. -/
def Node.word? (g : Graph) (val : NodeId → BitVec 32) (n : Node) : Option (BitVec 32) :=
  match n.op with
  | .constant .int32 => some (BitVec.ofInt 32 n.int)
  | .word32 op => do
    let x ← (n.input 0).toOption
    let y ← (n.input 1).toOption
    return op.eval (val x) (val y)
  | .int32 op => do
    let x ← (n.input 0).toOption
    let y ← (n.input 1).toOption
    return op.eval (val x) (val y)
  | .finish => (n.input 0).toOption.map val
  | .projection => do
    let x ← (n.input 0).toOption
    if n.int = 0 then return val x
    let m ← g.node? x
    match m.op with
    | .int32 op => do
      let a ← (m.input 0).toOption
      let b ← (m.input 1).toOption
      return truth (← op.overflows? (val a) (val b))
    | _ => none
  | _ => none

namespace Graph

variable {g : Graph} {val : NodeId → BitVec 32} {id u x y : NodeId} {n : Node}

/-- Whether an assignment follows the rules of the integer operators. -/
structure Obeys (g : Graph) (val : NodeId → BitVec 32) : Prop where
  rule : ∀ {id n w}, g.node? id = some n → n.word? g val = some w → val id = w

/-- Whether an assignment follows the rules of the integer operators, with every amount of a shift
below the width. -/
structure Consistent (g : Graph) (val : NodeId → BitVec 32) : Prop extends Obeys g val where
  amount : ∀ {id n y}, g.node? id = some n → n.op.isShift32 = true → n.input 1 = .ok y →
    (val y).toNat < 32

/-- That the rules are followed is read off the nodes. -/
theorem Obeys.of_nodes
    (h : ∀ p ∈ g.nodes.toList.zipIdx, (p.1.word? g val).all (val p.2 == ·) = true) :
    g.Obeys val where
  rule := by
    intro id n w hn hw
    obtain ⟨k, rfl, -⟩ := node?_eq_some.mp hn
    have hAll := h (n, k) (mem_zipIdx.mpr hn)
    rw [hw] at hAll
    exact eq_of_beq hAll

/-- Consistency is read off the nodes. -/
theorem Consistent.of_nodes
    (hRule : ∀ p ∈ g.nodes.toList.zipIdx, (p.1.word? g val).all (val p.2 == ·) = true)
    (hAmount : ∀ p ∈ g.nodes.toList.zipIdx, p.1.op.isShift32 = true →
      ∀ y ∈ (p.1.input 1).toOption, (val y).toNat < 32) : g.Consistent val where
  toObeys := .of_nodes hRule
  amount := by
    intro id n y hn hShift hy
    obtain ⟨k, rfl, -⟩ := node?_eq_some.mp hn
    exact hAmount (n, k) (mem_zipIdx.mpr hn) hShift y (toOption_eq_some.mpr hy)

namespace Obeys

variable (h : g.Obeys val)
include h

theorem int32 (hn : g.node? id = some n) (hOp : n.op = .constant .int32) :
    val id = BitVec.ofInt 32 n.int :=
  h.rule hn (by unfold Node.word?; rw [hOp])

theorem word32 {op : Word32Op} (hn : g.node? id = some n) (hOp : n.op = .word32 op)
    (hx : n.input 0 = .ok x) (hy : n.input 1 = .ok y) : val id = op.eval (val x) (val y) :=
  h.rule hn (by unfold Node.word?; rw [hOp, hx, hy]; rfl)

theorem ofInt32 {op : Int32Op} (hn : g.node? id = some n) (hOp : n.op = .int32 op)
    (hx : n.input 0 = .ok x) (hy : n.input 1 = .ok y) : val id = op.eval (val x) (val y) :=
  h.rule hn (by unfold Node.word?; rw [hOp, hx, hy]; rfl)

theorem finish (hn : g.node? id = some n) (hOp : n.op = .finish) (hx : n.input 0 = .ok x) :
    val id = val x :=
  h.rule hn (by unfold Node.word?; rw [hOp, hx]; rfl)

theorem projection (hn : g.node? id = some n) (hOp : n.op = .projection) (hInt : n.int = 0)
    (hx : n.input 0 = .ok x) : val id = val x :=
  h.rule hn (by unfold Node.word?; rw [hOp, hx]; simp [hInt, Except.toOption])

/-- The flag of an operation with overflow. -/
theorem overflow {op : Int32Op} {m : Node} {a b : NodeId} {flag : Bool}
    (hp : g.Projects id 1 x) (hm : g.node? x = some m) (hOp : m.op = .int32 op)
    (ha : m.input 0 = .ok a) (hb : m.input 1 = .ok b)
    (hFlag : op.overflows? (val a) (val b) = some flag) : val id = truth flag := by
  obtain ⟨n, hn, hProjection, hInt, hx⟩ := hp
  refine h.rule hn ?_
  unfold Node.word?
  rw [hProjection, hx]
  simp [hInt, hm, hOp, ha, hb, hFlag, Except.toOption]

/-- A node has the word of its carrier. -/
theorem carries (hCarries : g.Carries u x) : val u = val x := by
  induction hCarries with
  | own => rfl
  | finish hn hOp hy _ ih => exact (h.finish hn hOp hy).trans ih
  | projection hn hOp hInt hx => exact h.projection hn hOp hInt hx

/-- A constant that the matcher sees is the word of its node. -/
theorem value {m : Int32Match} {v : BitVec 32} (hm : g.int32 u = .ok m) (hv : m.value? = some v) :
    val u = v := by
  unfold Graph.int32 at hm
  obtain ⟨n, hn, hm⟩ := bind_eq_ok.mp hm
  cases pure_eq_ok.mp hm
  obtain ⟨hOp, hInt⟩ := Option.ite_none_right_eq_some.mp hv
  rw [← Option.some.inj hInt]
  exact h.int32 (node_eq_ok.mp hn) hOp

end Obeys

/-! ## Binary nodes -/

variable {m : BinaryMatch}

/-- The matched operands are the two inputs of a node, exchanged at most when this makes no
difference. -/
theorem binary_inputs (h : g.binary id = .ok m) :
    (g.int32 m.left.id = .ok m.left ∧ g.int32 m.right.id = .ok m.right) ∧
      ∃ n x y, g.node? id = some n ∧ n.input 0 = .ok x ∧ n.input 1 = .ok y ∧
        (m.left.id = x ∧ m.right.id = y ∨
          n.op.isCommutative = true ∧ m.left.id = y ∧ m.right.id = x) := by
  unfold Graph.binary at h
  simp only [bind_eq_ok, check_eq_ok] at h
  obtain ⟨n, hn, -, x, hx, l, hl, y, hy, r, hr, -, h⟩ := h
  have hLeft := (int32_eq_ok hl).1
  have hRight := (int32_eq_ok hr).1
  have hn := node_eq_ok.mp hn
  -- the sides are exchanged where the operator allows it and only the left one is a constant
  split at h
  · next hSwap =>
    cases pure_eq_ok.mp h
    simp only [Bool.and_eq_true] at hSwap
    exact ⟨⟨hRight ▸ hr, hLeft ▸ hl⟩, n, x, y, hn, hx, hy, .inr ⟨hSwap.1.1, hRight, hLeft⟩⟩
  · cases pure_eq_ok.mp h
    exact ⟨⟨hLeft ▸ hl, hRight ▸ hr⟩, n, x, y, hn, hx, hy, .inl ⟨hLeft, hRight⟩⟩

end Graph

theorem Word32Op.eval_comm {op : Word32Op} (h : (Operator.word32 op).isCommutative = true)
    (x y : BitVec 32) : op.eval x y = op.eval y x := by
  cases op with
  | and => exact BitVec.and_comm x y
  | or => exact BitVec.or_comm x y
  | xor => exact BitVec.xor_comm x y
  | equal => exact congrArg truth (Bool.beq_comm ..)
  | shl | shr | sar | ror => cases h

theorem Int32Op.eval_comm {op : Int32Op} (h : (Operator.int32 op).isCommutative = true)
    (x y : BitVec 32) : op.eval x y = op.eval y x := by
  cases op with
  | add | addWithOverflow => exact BitVec.add_comm x y
  | mul => exact BitVec.mul_comm x y
  | _ => cases h

theorem Int32Op.overflows?_comm {op : Int32Op} (h : (Operator.int32 op).isCommutative = true)
    (x y : BitVec 32) : op.overflows? x y = op.overflows? y x := by
  cases op with
  | addWithOverflow =>
    unfold overflows?
    rw [BitVec.add_comm x y, Int.add_comm x.toInt]
  | add | mul => rfl
  | _ => cases h

namespace Graph.Obeys

variable {g : Graph} {val : NodeId → BitVec 32} {id : NodeId} {m : BinaryMatch}
variable (h : g.Obeys val)
include h

/-- The word of an operator on words, by its matched operands. -/
theorem binary_word32 {op : Word32Op} (hOp : g.HasOp id (.word32 op)) (hm : g.binary id = .ok m) :
    val id = op.eval (val m.left.id) (val m.right.id) := by
  obtain ⟨-, n, x, y, hn, hx, hy, hOperands⟩ := binary_inputs hm
  have hIs := HasOp.unique ⟨n, hn, rfl⟩ hOp
  rcases hOperands with ⟨rfl, rfl⟩ | ⟨hSwap, rfl, rfl⟩
  · exact h.word32 hn hIs hx hy
  · rw [hIs] at hSwap
    rw [Word32Op.eval_comm hSwap]
    exact h.word32 hn hIs hx hy

/-- The word of an integer operator, by its matched operands. -/
theorem binary_int32 {op : Int32Op} (hOp : g.HasOp id (.int32 op)) (hm : g.binary id = .ok m) :
    val id = op.eval (val m.left.id) (val m.right.id) := by
  obtain ⟨-, n, x, y, hn, hx, hy, hOperands⟩ := binary_inputs hm
  have hIs := HasOp.unique ⟨n, hn, rfl⟩ hOp
  rcases hOperands with ⟨rfl, rfl⟩ | ⟨hSwap, rfl, rfl⟩
  · exact h.ofInt32 hn hIs hx hy
  · rw [hIs] at hSwap
    rw [Int32Op.eval_comm hSwap]
    exact h.ofInt32 hn hIs hx hy

/-- The flag of an operation with overflow, by its matched operands. -/
theorem binary_overflow {op : Int32Op} {p : NodeId} {flag : Bool} (hp : g.Projects p 1 id)
    (hOp : g.HasOp id (.int32 op)) (hm : g.binary id = .ok m)
    (hFlag : op.overflows? (val m.left.id) (val m.right.id) = some flag) :
    val p = truth flag := by
  obtain ⟨-, n, x, y, hn, hx, hy, hOperands⟩ := binary_inputs hm
  have hIs := HasOp.unique ⟨n, hn, rfl⟩ hOp
  -- operands are exchanged for commutative operators alone, which overflow alike
  rcases hOperands with ⟨rfl, rfl⟩ | ⟨hSwap, rfl, rfl⟩
  · exact h.overflow hp hn hIs hx hy hFlag
  · rw [hIs] at hSwap
    rw [Int32Op.overflows?_comm hSwap] at hFlag
    exact h.overflow hp hn hIs hx hy hFlag

end Graph.Obeys

/-- The amount of a shift is below the width. -/
theorem Graph.Consistent.binary_amount {g : Graph} {val : NodeId → BitVec 32} {id : NodeId}
    {m : BinaryMatch} (h : g.Consistent val) {op : Operator} (hOp : g.HasOp id op)
    (hShift : op.isShift32 = true) (hm : g.binary id = .ok m) : (val m.right.id).toNat < 32 := by
  obtain ⟨-, n, x, y, hn, hx, hy, hOperands⟩ := binary_inputs hm
  have hIs := HasOp.unique ⟨n, hn, rfl⟩ hOp
  rcases hOperands with ⟨-, rfl⟩ | ⟨hSwap, -⟩
  · exact h.amount hn (hIs ▸ hShift) hy
  · -- No shift is commutative.
    rw [hIs] at hSwap
    unfold Operator.isShift32 at hShift
    split at hShift <;> first | cases hSwap | cases hShift

namespace Selection

variable {α : Type} {site : Site} {g : Graph} {s s' : State} {id u x : NodeId} {r : Nat}
  {D : NodeId → Prop} {val : NodeId → BitVec 32} {ρ : Reading}

/-! ## Readings -/

/-- Whether the registers of a reading hold the words of the nodes that they stand for, and its
table of immediates is that of a stream, or a longer one. -/
structure Agrees (g : Graph) (regs : List (NodeId × Nat)) (stream : Stream)
    (val : NodeId → BitVec 32) (ρ : Reading) : Prop where
  node : ∀ {x : NodeId} {r : Nat}, (x, r) ∈ regs → ρ.registers r = val x
  constant : ∀ {x c entry} {r : Int}, g.constant? x = some c → (r, entry) ∈ stream.constants →
    (entry = c ∨ entry.sameEntry c = true) → ρ.registers r = val x
  immediates : stream.immediates <+: ρ.stream.immediates

/-- Whether the registers that stand for a node hold a word. -/
def Holding (ρ : Reading) (g : Graph) (s : State) (u : NodeId) (v : BitVec 32) : Prop :=
  ∀ r : Nat, Stands g s.vregs s.stream u r → ρ.registers r = v

/-- Agreement is read off the tables: the registers of nodes, and those of constants. -/
theorem Agrees.of_tables {regs : List (NodeId × Nat)} {stream : Stream}
    (hNode : ∀ p ∈ regs, ρ.registers (p.2 : Nat) = val p.1)
    (hConstant : ∀ p ∈ g.nodes.toList.zipIdx, ∀ e ∈ stream.constants, ∀ c ∈ constantOf? p.1,
      e.2 = c ∨ e.2.sameEntry c = true → ρ.registers e.1 = val p.2)
    (hImmediates : stream.immediates <+: ρ.stream.immediates) : Agrees g regs stream val ρ where
  node := fun hx => hNode _ hx
  constant := by
    intro x c entry r hc hr hSame
    obtain ⟨n, hn, hOf⟩ := Option.bind_eq_some_iff.mp hc
    obtain ⟨k, rfl, -⟩ := Graph.node?_eq_some.mp hn
    exact hConstant (n, k) (Graph.mem_zipIdx.mpr hn) (r, entry) hr c hOf hSame
  immediates := hImmediates

theorem Agrees.of_grown (h : Agrees g s'.vregs s'.stream val ρ) (hGrown : Grown s s' D) :
    Agrees g s.vregs s.stream val ρ where
  node := fun hx => h.node (hGrown.vregs hx)
  constant := fun hc hr hSame => h.constant hc (hGrown.constants hr) hSame
  immediates := hGrown.immediates.trans h.immediates

/-- A register holds the word of each node that it stands for. -/
theorem Agrees.register (h : Agrees g s.vregs s.stream val ρ) (hVal : g.Obeys val)
    (hStands : Stands g s.vregs s.stream u r) : ρ.registers r = val u := by
  obtain ⟨x, n, hCarries, hn, hTable⟩ := hStands
  rw [hVal.carries hCarries]
  have hConstant : g.constant? x = constantOf? n := by
    unfold Graph.constant?
    rw [hn]
    rfl
  -- a constant stands in a register of its value, another node in its own
  split at hTable
  · next c hc =>
    obtain ⟨entry, hMem, hSame⟩ := hTable
    exact h.constant (hConstant.trans hc) hMem hSame
  · exact h.node hTable

/-- A number in the table of immediates is read. -/
theorem number?_of_isNumber {stream : Stream} {o : Operand} {v : BitVec 32}
    (hNumber : stream.IsNumber o v) (hTable : stream.immediates <+: ρ.stream.immediates) :
    ρ.number? o = some v := by
  obtain ⟨i, c, rfl, hGet, hRest⟩ := Stream.isNumber_iff.mp hNumber
  obtain ⟨more, hMore⟩ := hTable
  -- the table at run time starts with the one there is now
  have hEntry : ρ.stream.immediates[i]? = some c := by
    rw [← hMore, List.getElem?_append_left (List.getElem?_eq_some_iff.mp hGet).1]
    exact hGet
  obtain ⟨hImmediate, hInt⟩ : ρ.stream.IsNumber (.immediate i) v :=
    Stream.isNumber_iff.mpr ⟨i, c, rfl, hEntry, hRest⟩
  unfold Reading.number?
  rw [if_pos hImmediate, hInt]
  exact congrArg some BitVec.ofInt_toInt

theorem Agrees.number {o : Operand} {v : BitVec 32} (h : Agrees g s.vregs s.stream val ρ)
    (hNumber : s.stream.IsNumber o v) : ρ.number? o = some v :=
  number?_of_isNumber hNumber h.immediates

/-- Whether something holds of all consistent assignments, and the readings that agree with them by
the tables of a state. -/
def Always (g : Graph) (s : State) (P : (NodeId → BitVec 32) → Reading → Prop) : Prop :=
  ∀ val ρ, g.Consistent val → Agrees g s.vregs s.stream val ρ → P val ρ

variable {P Q : (NodeId → BitVec 32) → Reading → Prop}

theorem Always.grown (h : Always g s P) (hGrown : Grown s s' D) : Always g s' P :=
  fun val ρ hVal hAgrees => h val ρ hVal (hAgrees.of_grown hGrown)

theorem Always.mono (h : Always g s P) (hPQ : ∀ val ρ, g.Consistent val → P val ρ → Q val ρ) :
    Always g s Q :=
  fun val ρ hVal hAgrees => hPQ val ρ hVal (h val ρ hVal hAgrees)

/-! ## Operands -/

/-- An operand for a node reads its word. -/
theorem useAt_means (D : NodeId → Prop) (hs : s.Sound) (u : NodeId) (location : Location) :
    Ensures site s (useAt u location) fun o s' => Advances s s' [] D ∧
      Always site.graph s' fun val ρ => ρ.register? o = some (val u) := by
  refine (useAt_advances D hs u location).mono ?_
  rintro _ s' ⟨h, r, rfl, hStands⟩
  exact ⟨h, fun val ρ hVal hAgrees => congrArg some (hAgrees.register hVal.toObeys hStands)⟩

theorem useRegister_means (D : NodeId → Prop) (hs : s.Sound) (u : NodeId) :
    Ensures site s (useRegister u) fun o s' => Advances s s' [] D ∧
      Always site.graph s' fun val ρ => ρ.register? o = some (val u) :=
  useAt_means D hs u .register

/-- A number in an instruction is read off the table. -/
theorem immediate_means (D : NodeId → Prop) (hs : s.Sound) (v : BitVec 32) :
    Ensures site s (immediate v) fun o s' => Advances s s' [] D ∧
      Always site.graph s' fun _ ρ => ρ.number? o = some v := by
  refine (immediate_advances D hs v).mono ?_
  rintro o s' ⟨h, hNumber⟩
  exact ⟨h, fun _ _ _ hAgrees => hAgrees.number hNumber⟩

/-- A constant in an instruction is the word of its node. -/
theorem useImmediate_means (D : NodeId → Prop) (hs : s.Sound) (u : NodeId) :
    Ensures site s (useImmediate u) fun o s' => Advances s s' [] D ∧
      Always site.graph s' fun val ρ => ρ.number? o = some (val u) := by
  refine (useImmediate_advances D hs u).mono ?_
  rintro o s' ⟨h, m, v, hm, hv, hNumber⟩
  refine ⟨h, fun val ρ hVal hAgrees => ?_⟩
  have hWord : val u = v := hVal.value hm hv
  exact (hAgrees.number hNumber).trans (congrArg some hWord.symm)

/-! ## Flexible operands -/

/-- A shift within the width is the one of its rule, which can be encoded within its range. -/
theorem shiftRule?_eval {op : Operator} {rule : ShiftRule} (h : shiftRule? op = some rule) :
    ∃ w, op = .word32 w ∧ op.isShift32 = true ∧ ∀ x y : BitVec 32, y.toNat < 32 →
      w.eval x y = rule.kind.shift x y.toNat ∧
        (rule.least ≤ y.toInt → y.toInt ≤ rule.greatest → rule.kind.Allows y) := by
  have hMod : ∀ y : BitVec 32, y.toNat < 32 → y.toNat % 32 = y.toNat := fun y => Nat.mod_eq_of_lt
  unfold shiftRule? at h
  split at h <;> cases h
  all_goals
    refine ⟨_, rfl, rfl, fun x y hy => ⟨?_, fun hLeast hGreatest => ⟨hLeast, hGreatest⟩⟩⟩
    simp only [Word32Op.eval, ShiftKind.shift, hMod y hy]

/-- Whether a flexible operand stands for the word of a node, whatever comes behind it. -/
def Operand2.Reads (f : Operand2) (g : Graph) (s : State) (u : NodeId) : Prop :=
  Always g s fun val ρ => ∀ tail, ρ.flexible? f.mode (f.operands ++ tail) = some (val u)

theorem Operand2.Reads.grown {f : Operand2} (h : f.Reads g s u) (hGrown : Grown s s' D) :
    f.Reads g s' u :=
  Always.grown h hGrown

/-- A shift that is taken in is the shift that its node computes. -/
theorem tryShift_means (D : NodeId → Prop) (hs : s.Sound) (u : NodeId) :
    Ensures site s (tryShift u) fun f? s' => Advances s s' [] D ∧
      ∀ f, f? = some f → f.Reads site.graph s' u := by
  refine ensures_tryShift (fun _ _ _ => ⟨.nothing hs, nofun⟩) ?_
  intro op rule m hIs hRule hm
  obtain ⟨w, rfl, hShift, hEval⟩ := shiftRule?_eval hRule
  -- What the shift computes, of the words of its operands.
  have hWord : ∀ {val}, site.graph.Consistent val → (val m.right.id).toNat < 32 ∧
      rule.kind.shift (val m.left.id) (val m.right.id).toNat = val u := by
    intro val hVal
    have hAmount := hVal.binary_amount hIs hShift hm
    rw [hVal.binary_word32 hIs hm]
    exact ⟨hAmount, (hEval _ _ hAmount).1.symm⟩
  refine (useRegister_means D hs m.left.id).mono ?_
  rintro x s₁ ⟨h₁, hx⟩
  refine ⟨fun hRange => ?_, ?_⟩
  · refine (useImmediate_means D h₁.sound m.right.id).mono ?_
    rintro n s₂ ⟨h₂, hn⟩
    refine ⟨h₁.trans h₂, ?_⟩
    rintro _ ⟨⟩ val ρ hVal hAgrees tail
    obtain ⟨hAmount, hShifted⟩ := hWord hVal
    have hAllows : rule.kind.Allows (val m.right.id) := by
      obtain ⟨v, hv, hBounds⟩ := (Option.any_eq_true _ _).mp hRange
      obtain ⟨hLeast, hGreatest⟩ := of_decide_eq_true hBounds
      have hRight := hVal.value (Graph.binary_inputs hm).1.2 hv
      rw [← hRight] at hLeast hGreatest
      exact (hEval 0 _ hAmount).2 hLeast hGreatest
    have hLeft := (hx.grown h₂.toGrown) val ρ hVal hAgrees
    have hNumber := hn val ρ hVal hAgrees
    simp [Reading.flexible?, hLeft, hNumber, hAllows, hShifted]
  · refine (useRegister_means D h₁.sound m.right.id).mono ?_
    rintro y s₂ ⟨h₂, hy⟩
    refine ⟨h₁.trans h₂, ?_⟩
    rintro _ ⟨⟩ val ρ hVal hAgrees tail
    obtain ⟨hAmount, hShifted⟩ := hWord hVal
    -- The processor reads the low byte of the register, which is the whole amount.
    have hByte : (val m.right.id).toNat % 256 = (val m.right.id).toNat := by omega
    have hLeft := (hx.grown h₂.toGrown) val ρ hVal hAgrees
    have hRight := hy val ρ hVal hAgrees
    simp [Reading.flexible?, hLeft, hRight, hByte, hShifted]

theorem tryOperand2_means (D : NodeId → Prop) (hs : s.Sound) (op : Opcode) (u : NodeId) :
    Ensures site s (tryOperand2 op u) fun f? s' => Advances s s' [] D ∧
      ∀ f, f? = some f → f.Reads site.graph s' u := by
  refine ensures_tryOperand2 (fun _ _ _ => ?_) fun _ _ _ => tryShift_means D hs u
  refine (useImmediate_means D hs u).mono ?_
  rintro o s' ⟨h, hNumber⟩
  refine ⟨h, ?_⟩
  rintro _ ⟨⟩ val ρ hVal hAgrees tail
  exact hNumber val ρ hVal hAgrees

end Selection
end ArmBackend
