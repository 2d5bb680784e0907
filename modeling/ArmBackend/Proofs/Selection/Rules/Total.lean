import ArmBackend.Proofs.Selection.Linkage
import ArmBackend.Proofs.Selection.Outlines
import ArmBackend.Proofs.Selection.Rules.Fields
import ArmBackend.Proofs.Selection.Rules.Nodes
import ArmBackend.Proofs.Selection.Rules.Products

/-!
# Rules that cannot fail

A rule looks nodes up, asks for registers and emits instructions, and each of these can fail: a node
may be missing, the ends of regions may pass a value on in a circle, and an instruction may have too
few operands. `Grounded` excludes the first two of a graph. The third never comes up, since a rule
gives every instruction the operands that its addressing mode asks for.

The rules that words, sums, products and comparisons are covered by succeed in such a graph, from
whatever state they are run.

## Results

* `Grounded.tryOperand2_returns`, `tryOperand2_complete` — the flexible operand.
* `Grounded.coverBinary_returns`, `Grounded.coverCompare_returns` — the rules for two operands.
* `Grounded.coverAnd_returns`, `Grounded.coverAdd_returns`, `Grounded.coverDoubleAdd_returns` — the
  rules that take in an operand.
* `Grounded.coverFlags_returns` — the rule for a value that is compared with zero.
-/

namespace ArmBackend

/-! ## Graphs -/

/-- A well-formed graph in which every node has a node that carries its value: nowhere do the ends
of regions pass a value on in a circle. -/
structure Graph.Grounded (g : Graph) : Prop where
  wellFormed : g.WellFormed
  carried : ∀ {u : NodeId} {n : Node}, g.node? u = some n → ∃ x, g.Carries u x

/-- Without ends of regions every node carries its own value or shares that of its operation. -/
theorem Graph.Grounded.of_nodes {g : Graph} (hWell : g.WellFormed)
    (h : ∀ n ∈ g.nodes.toList, n.op ≠ .finish) : g.Grounded := by
  refine ⟨hWell, fun {u n} hn => Selection.exists_carries hn ?_⟩
  obtain ⟨i, -, hi⟩ := node?_eq_some.mp hn
  exact h n (Array.mem_toList_iff.mpr (Array.mem_of_getElem? hi))

/-- Whether a node can be named as the output of an instruction. -/
def Graph.Definable (g : Graph) (id : NodeId) : Prop :=
  ∃ op, g.HasOp id op ∧ op ≠ .finish

/-- A match has an operator for each side. -/
theorem Graph.binary_hasOp {g : Graph} {id : NodeId} {m : BinaryMatch} (h : g.binary id = .ok m) :
    g.HasOp m.left.id m.left.op ∧ g.HasOp m.right.id m.right.op :=
  ⟨(binary_feeds h).1.2, (binary_feeds h).2.2⟩

/-! ## Operand counts -/

namespace Opcode

variable {op : Opcode} {shape : Shape}

/-- What has a shape is checked against it. -/
theorem isPseudo_of_shape (h : op.shape? = some shape) : op.isPseudo = false := by
  cases op <;> first
    | rfl
    | cases h

end Opcode

namespace Instr

/-- An instruction passes its check that has the operands of its shape, its mode and its flags. -/
theorem check_of_shape {i : Instr} {shape : Shape} {more : Nat} (hShape : i.op.shape? = some shape)
    (hMode : shape.extension.inputs i.op i.mode = .ok more)
    (hInputs : i.inputs.length = shape.inputs + more + i.flags.inputs)
    (hOut : i.out.length = shape.outputs + i.flags.outputs) : i.check = .ok () := by
  unfold check
  rw [Opcode.isPseudo_of_shape hShape, if_neg Bool.false_ne_true, hShape]
  dsimp only
  rw [hMode, ok_bind, if_neg (not_or.mpr ⟨not_not_intro hInputs, not_not_intro hOut⟩)]
  rfl

end Instr

namespace Selection

variable {α β : Type} {site : Site} {id u x y : NodeId} {k : Continuation} {m : BinaryMatch}
  {operator : Operator}

/-- A step, of which something is known, in front of one that succeeds for that reason. -/
theorem Returns.after {m : Select α} {f : α → Select β} {P : α → Prop} (hm : Returns site m)
    (hP : ∀ s, Ensures site s m fun a _ => P a) (hf : ∀ a, P a → Returns site (f a)) :
    Returns site (m >>= f) := by
  intro s
  obtain ⟨a, s₁, hRun⟩ := hm s
  obtain ⟨b, s₂, hNext⟩ := hf a (hP s a s₁ hRun) s₁
  refine ⟨b, s₂, ?_⟩
  rw [run_bind hRun, hNext]

/-- A step with a known reply in front. -/
theorem Replies.returns {m : Select α} {f : α → Select β} {a : α} (h : Replies site m a)
    (hf : Returns site (f a)) : Returns site (m >>= f) := by
  intro s
  rw [h.bind]
  exact hf s

/-! ## The flexible operand -/

/-- Something of which a test holds is there. -/
theorem exists_of_any {o : Option α} {p : α → Bool} (h : o.any p = true) : ∃ a, o = some a :=
  Option.isSome_iff_exists.mp ((Option.any_eq_true_iff_get _ _).mp h).1

/-- A shift is a binary operator. -/
theorem isBinary_of_rule {rule : ShiftRule} (h : shiftRule? operator = some rule) :
    operator.IsBinary := by
  unfold shiftRule? at h
  split at h
  all_goals first
    | rfl
    | cases h

/-- Whether there are as many operands as the addressing mode asks for. -/
def Operand2.Complete (f : Operand2) : Prop :=
  f.mode.operand2Inputs? = some f.operands.length

/-- An operand that is complete has as many operands as its mode takes. -/
theorem Operand2.Complete.inputs {f : Operand2} (h : f.Complete) :
    Extension.operand2.inputs op f.mode = .ok f.operands.length := by
  unfold Complete at h
  unfold Extension.inputs
  simp only [h]

/-- A shift that is found comes with its operand and its amount. -/
theorem tryShift_complete (id : NodeId) (s : State) :
    Ensures site s (tryShift id) fun o _ => ∀ f, o = some f → f.Complete := by
  refine ensures_tryShift (fun _ _ _ => nofun) fun op rule m _ _ _ x s₁ _ => ⟨fun _ => ?_, ?_⟩
  · rintro amount s₂ _ f ⟨⟩
    rfl
  · rintro amount s₂ _ f ⟨⟩
    rfl

/-- What is taken in has the operands of its addressing mode. -/
theorem tryOperand2_complete (op : Opcode) (id : NodeId) (s : State) :
    Ensures site s (tryOperand2 op id) fun o _ => ∀ f, o = some f → f.Complete := by
  refine ensures_tryOperand2 (fun _ _ _ => ?_) fun _ _ _ => tryShift_complete id s
  rintro value s₁ _ f ⟨⟩
  rfl

/-- The shape of a data processing instruction. -/
def flexibleShape (inputs outputs : Nat) : Shape :=
  { inputs, outputs, extension := .operand2 }

end Selection

namespace Graph.Grounded

open Selection

variable {α : Type} {site : Site} {id u x y : NodeId} {k : Continuation} {m : BinaryMatch}
  {operator o o' : Operator} {op : Opcode} {mode : AddrMode} {inputs outputs : Nat}

/-! ## Operands -/

/-- Any node of the graph can be asked for its register. -/
theorem useRegister_returns (h : site.graph.Grounded) (hu : site.graph.HasOp u o) :
    Returns site (useRegister u) := by
  obtain ⟨n, hn, -⟩ := hu
  obtain ⟨x, hx⟩ := h.carried hn
  exact Selection.useRegister_returns h.wellFormed hx

/-- A node that can be named gets its register as an output. -/
theorem defineAt_returns (h : site.graph.Grounded) (hId : site.graph.Definable id)
    (location : Location) : Returns site (defineAt id location) := by
  obtain ⟨op, hOp, hFinish⟩ := hId
  have ⟨n, hn, _⟩ := hOp
  obtain ⟨x, hx⟩ := h.carried hn
  -- The mark and the register need the node that carries the value, and the representation an
  -- operator other than the end of a region.
  unfold defineAt
  refine (markDefined_returns (nonneg_of_carries hx)).bind fun _ => ?_
  refine (vreg_returns h.wellFormed hx).bind fun r => ?_
  exact (markRep_returns hOp hFinish r).bind fun _ => .pure _

/-- A node that can be named is defined in any register. -/
theorem define_returns (h : site.graph.Grounded) (hId : site.graph.Definable id) :
    Returns site (define id) :=
  h.defineAt_returns hId .register

/-- The operands of a binary node. -/
theorem binary (h : site.graph.Grounded) (hOp : site.graph.HasOp id operator)
    (hBinary : operator.IsBinary) : ∃ m, site.graph.binary id = .ok m := by
  obtain ⟨x, y, hApplies⟩ := h.wellFormed.applies hOp hBinary
  obtain ⟨m, hm, -⟩ := hApplies.matches h.wellFormed hBinary
  exact ⟨m, hm⟩

/-- The nodes of a well-formed graph have assigned operators. -/
theorem isAssigned (h : site.graph.Grounded) (hOp : site.graph.HasOp id operator) :
    operator.isAssigned = true := by
  obtain ⟨n, hn, rfl⟩ := hOp
  obtain ⟨arity, hArity, -⟩ := arity_of_verify h.wellFormed.verify hn
  -- An operator without a code has no arity, and verified nodes have one.
  cases hUnassigned : n.op <;> first
    | rfl
    | (rw [hUnassigned] at hArity; cases hArity)

/-- Looking for a shift succeeds, whether there is one or not. -/
theorem tryShift_returns (h : site.graph.Grounded) (hu : site.graph.HasOp u operator) :
    Returns site (tryShift u) := by
  unfold tryShift
  refine .read (.look (op_eq_ok.mpr hu) ?_)
  rw [h.isAssigned hu]
  simp only [Bool.not_true, Bool.false_eq_true, if_false]
  split
  · exact .pure _
  · next rule hRule =>
    -- The amount is a number only where it is in range, and what is in range is a constant.
    obtain ⟨m, hm⟩ := h.binary hu (isBinary_of_rule hRule)
    obtain ⟨hLeft, hRight⟩ := binary_hasOp hm
    refine .look hm ((h.useRegister_returns hLeft).bind fun value => ?_)
    split
    · next hAmount =>
      obtain ⟨c, hc⟩ := exists_of_any hAmount
      have hConstant := isInt32_of_value (binary_matches hm).2 hc
      exact (useImmediate_returns hConstant).bind fun _ => .pure _
    · exact (h.useRegister_returns hRight).bind fun _ => .pure _

/-- Looking for a flexible operand succeeds, whether there is one or not. -/
theorem tryOperand2_returns (h : site.graph.Grounded) (op : Opcode)
    (hu : site.graph.HasOp u operator) : Returns site (tryOperand2 op u) := by
  have ⟨n, hn, _⟩ := hu
  unfold tryOperand2
  -- A match looks at the node alone, so it is there.
  obtain ⟨m, hm⟩ : ∃ m, site.graph.int32 u = .ok m := by
    unfold Graph.int32
    rw [node_eq_ok.mpr hn]
    exact ⟨_, rfl⟩
  refine .read (.look hm ?_)
  split
  · next hFits =>
    obtain ⟨v, hv⟩ := exists_of_any hFits
    have hConstant := isInt32_of_value hm hv
    rw [(int32_eq_ok hm).1] at hConstant
    exact (useImmediate_returns hConstant).bind fun _ => .pure _
  · exact h.tryShift_returns hu

/-- An instruction is emitted whatever its flags are for. -/
theorem emitFlags_returns (h : site.graph.Grounded) (hk : k.Within site.graph.Definable)
    {shape : Shape} {more : Nat} (hShape : op.shape? = some shape)
    (hMode : shape.extension.inputs op mode = .ok more) {out ins : List Operand}
    (hIn : ins.length = shape.inputs + more) (hOut : out.length = shape.outputs) :
    Returns site (emitFlags op mode k out ins) := by
  unfold emitFlags
  split
  · exact emit_returns (Instr.check_of_shape hShape hMode hIn hOut)
  · -- The flag is one more output.
    next node hUse =>
    refine (h.define_returns (hk node hUse)).bind fun flag => ?_
    refine emit_returns (Instr.check_of_shape hShape hMode hIn ?_)
    rw [List.length_append, hOut]
    rfl
  · -- The labels of a branch are two more inputs.
    refine emit_returns (Instr.check_of_shape hShape hMode ?_ hOut)
    rw [List.length_append, hIn]
    rfl

/-- A data processing instruction with its flexible operand. -/
theorem emitFlexible_returns (h : site.graph.Grounded) (hk : k.Within site.graph.Definable)
    (hShape : op.shape? = some (flexibleShape inputs outputs)) {f : Operand2} (hf : f.Complete)
    (front : List Operand) (hFront : front.length = inputs) {out : List Operand}
    (hOut : out.length = outputs) :
    Returns site (emitFlags op f.mode k out (front ++ f.operands)) := by
  refine h.emitFlags_returns hk hShape hf.inputs ?_ hOut
  rw [List.length_append, hFront]
  rfl

/-! ## Binary rules -/

/-- A binary node can be named as an output. -/
theorem definable (hOp : site.graph.HasOp id operator) (hBinary : operator.IsBinary) :
    site.graph.Definable id := by
  refine ⟨operator, hOp, ?_⟩
  rintro rfl
  cases hBinary

/-- A binary rule succeeds if its two instructions have the shape of data processing. -/
theorem coverBinary_returns (h : site.graph.Grounded) (hOp : site.graph.HasOp id operator)
    (hBinary : operator.IsBinary) (hk : k.Within site.graph.Definable) {reverse : Opcode}
    (hDirect : op.shape? = some (flexibleShape 1 1))
    (hReverse : reverse.shape? = some (flexibleShape 1 1)) :
    Returns site (coverBinary id op reverse k) := by
  obtain ⟨m, hm⟩ := h.binary hOp hBinary
  obtain ⟨hLeft, hRight⟩ := binary_hasOp hm
  have hOut := definable hOp hBinary
  -- Each way ends in naming the output and emitting the instruction.
  have hEnd : ∀ {code : Opcode} {f : Operand2} (o : Operand),
      code.shape? = some (flexibleShape 1 1) → f.Complete →
      Returns site (define id >>= fun out => emitFlags code f.mode k [out] ([o] ++ f.operands)) :=
    fun o hShape hf => (h.define_returns hOut).bind fun _ =>
      h.emitFlexible_returns hk hShape hf [o] rfl rfl
  -- Equal operands come first, then the right one is tried, then the left one with `reverse`.
  unfold coverBinary
  refine .read (.look hm ?_)
  split
  · refine (h.useRegister_returns hLeft).bind fun x => ?_
    exact hEnd (f := ⟨.register, [x]⟩) x hDirect rfl
  · refine (h.tryOperand2_returns op hRight).after (tryOperand2_complete op _) fun right hFlex => ?_
    split
    · exact (h.useRegister_returns hLeft).bind fun x => hEnd x hDirect (hFlex _ rfl)
    · refine (h.tryOperand2_returns reverse hLeft).after (tryOperand2_complete reverse _)
        fun left hFlex => ?_
      split
      · exact (h.useRegister_returns hRight).bind fun x => hEnd x hReverse (hFlex _ rfl)
      · refine (h.useRegister_returns hLeft).bind fun x => ?_
        refine (h.useRegister_returns hRight).bind fun y => ?_
        exact hEnd (f := ⟨.register, [y]⟩) x hDirect rfl

/-- So does a comparison, which has no output. -/
theorem coverCompare_returns (h : site.graph.Grounded) (hOp : site.graph.HasOp id operator)
    (hBinary : operator.IsBinary) (hk : k.Within site.graph.Definable)
    (hShape : op.shape? = some (flexibleShape 1 0)) (commutative : Bool) :
    Returns site (coverCompare id op k commutative) := by
  obtain ⟨m, hm⟩ := h.binary hOp hBinary
  obtain ⟨hLeft, hRight⟩ := binary_hasOp hm
  -- A comparison has no output. The condition may be that for exchanged operands.
  have hEnd : ∀ {f : Operand2} {k : Continuation} (o : Operand), f.Complete →
      k.Within site.graph.Definable →
      Returns site (emitFlags op f.mode k [] ([o] ++ f.operands)) :=
    fun o hf hk => h.emitFlexible_returns hk hShape hf [o] rfl rfl
  unfold coverCompare
  refine .read (.look hm ?_)
  refine (h.tryOperand2_returns op hRight).after (tryOperand2_complete op _) fun right hFlex => ?_
  split
  · exact (h.useRegister_returns hLeft).bind fun x => hEnd x (hFlex _ rfl) hk
  · refine (h.tryOperand2_returns op hLeft).after (tryOperand2_complete op _) fun left hFlex => ?_
    split
    · refine (h.useRegister_returns hRight).bind fun x => hEnd x (hFlex _ rfl) ?_
      split
      · exact hk
      · exact hk.commute
    · refine (h.useRegister_returns hLeft).bind fun x => ?_
      refine (h.useRegister_returns hRight).bind fun y => ?_
      exact hEnd (f := ⟨.register, [y]⟩) x rfl hk

/-- A test succeeds for any node. -/
theorem coverTest_returns (h : site.graph.Grounded) (hu : site.graph.HasOp u operator)
    (hk : k.Within site.graph.Definable) : Returns site (coverTest u k) :=
  (h.useRegister_returns hu).bind fun x =>
    h.emitFlexible_returns (f := ⟨.register, [x]⟩) hk rfl rfl [x] rfl rfl

/-- A shift is always taken in. -/
theorem coverShift_returns (h : site.graph.Grounded) (hOp : site.graph.HasOp id operator)
    {rule : ShiftRule} (hRule : shiftRule? operator = some rule)
    (hk : k.Within site.graph.Definable) : Returns site (coverShift id k) := by
  -- The operator has a rule for shifts, so it is not turned down.
  have hShifts : shifts site.graph id = true := by
    have ⟨n, hn, hIs⟩ := hOp
    unfold shifts
    rw [hn, Option.any_some, hIs, hRule]
    rfl
  unfold coverShift
  refine (h.tryShift_returns hOp).after
    (P := fun o => o.isSome = true ∧ ∀ f, o = some f → f.Complete) ?_ ?_
  · intro s o t hRun
    exact ⟨(tryShift_shifts id s o t hRun).trans hShifts, tryShift_complete id s o t hRun⟩
  · -- What is no shift would be turned down, but it does not come here.
    rintro o ⟨hSome, hFlex⟩
    cases o with
    | none => cases hSome
    | some f =>
      refine (h.define_returns (definable hOp (isBinary_of_rule hRule))).bind fun out => ?_
      exact h.emitFlexible_returns hk rfl (hFlex f rfl) [] rfl rfl

/-! ## Operands that are taken in -/

/-- Whether a node can be taken in can be looked up. -/
theorem canCover_replies (h : site.graph.Grounded) (user : NodeId)
    (hu : site.graph.HasOp u operator) : ∃ answer, Replies site (canCover user u) answer := by
  obtain ⟨n, hn, -⟩ := hu
  unfold canCover
  by_cases hBlock : site.schedule.blockOf u = site.schedule.blockOf user
  · have hUses := h.wellFormed.uses hn
    refine ⟨(placedUses site.schedule (site.graph.edgesTo u)).length == 1, fun s => ?_⟩
    rw [Replies.read.bind, if_neg (not_not_intro hBlock), (Replies.look hUses).bind]
    rfl
  · refine ⟨false, fun s => ?_⟩
    rw [Replies.read.bind, if_pos hBlock]
    rfl

/-- The operand of a complement that is taken in is in the graph. -/
theorem coveredComplement?_replies (h : site.graph.Grounded) (user : NodeId)
    (hu : site.graph.HasOp u operator) :
    ∃ r, Replies site (coveredComplement? user u) r ∧
      ∀ x, r = some x → ∃ o, site.graph.HasOp x o := by
  obtain ⟨r, hr⟩ := exists_complementOf? h.wellFormed hu
  cases r with
  | none =>
    refine ⟨none, fun s => ?_, nofun⟩
    unfold coveredComplement?
    rw [Replies.read.bind, (Replies.look hr).bind]
    rfl
  | some x =>
    obtain ⟨covered, hCover⟩ := h.canCover_replies user hu
    refine ⟨if covered then some x else none, fun s => ?_, fun y hy => ?_⟩
    · unfold coveredComplement?
      rw [Replies.read.bind, (Replies.look hr).bind]
      dsimp only
      rw [hCover.bind]
      rfl
    · -- What is complemented is an operand, so it is a node.
      obtain ⟨-, hSame⟩ := Option.ite_none_right_eq_some.mp hy
      cases hSame
      obtain ⟨n, hn, hMem⟩ := (complementOf?_feeds hr).2
      obtain ⟨k, hk⟩ := h.wellFormed.node_of_input ⟨n, hn, List.mem_of_mem_take hMem⟩
      exact ⟨k.op, k, hk, rfl⟩

/-- A product that is taken in is a product. -/
theorem isCoveredProduct_replies (h : site.graph.Grounded) (op : Operator) (user : NodeId)
    {m : Int32Match} (hm : site.graph.HasOp m.id m.op) :
    ∃ answer, Replies site (isCoveredProduct op user m) answer ∧ (answer = true → m.op = op) := by
  obtain ⟨covered, hCover⟩ := h.canCover_replies user hm
  unfold isCoveredProduct
  by_cases hOp : m.op = op
  · refine ⟨covered, ?_, fun _ => hOp⟩
    rw [if_neg (not_not_intro hOp)]
    exact hCover
  · refine ⟨false, ?_, nofun⟩
    rw [if_pos hOp]
    exact fun _ => rfl

/-- A product of doubles that is taken in is one. -/
theorem isCoveredDoubleProduct_replies (h : site.graph.Grounded) (user : NodeId)
    (hu : site.graph.HasOp u operator) :
    ∃ answer, Replies site (isCoveredDoubleProduct user u) answer ∧
      (answer = true → operator = .float64 .mul) := by
  obtain ⟨covered, hCover⟩ := h.canCover_replies user hu
  unfold isCoveredDoubleProduct
  by_cases hOp : operator = .float64 .mul
  · refine ⟨covered, fun s => ?_, fun _ => hOp⟩
    rw [Replies.read.bind, (Replies.look (op_eq_ok.mpr hu)).bind, if_neg (not_not_intro hOp)]
    exact hCover s
  · refine ⟨false, fun s => ?_, nofun⟩
    rw [Replies.read.bind, (Replies.look (op_eq_ok.mpr hu)).bind, if_pos hOp]
    rfl

/-! ## Words -/

/-- A bit clear succeeds. -/
theorem coverClear_returns (h : site.graph.Grounded) (hId : site.graph.Definable id)
    (hx : site.graph.HasOp x o) (hy : site.graph.HasOp y o') :
    Returns site (coverClear id x y) := by
  unfold coverClear
  refine (h.define_returns hId).bind fun out => ?_
  refine (h.tryShift_returns hy).after (tryShift_complete y) fun shifted hFlex => ?_
  split
  · next f =>
    refine (h.useRegister_returns hx).bind fun left => ?_
    exact h.emitFlexible_returns (.unused _) rfl (hFlex f rfl) [left] rfl rfl
  · refine (h.useRegister_returns hx).bind fun left => ?_
    exact (h.useRegister_returns hy).bind fun right => emit_returns rfl

/-- A bit field instruction succeeds if its lowest bit does. -/
theorem coverExtract_returns (h : site.graph.Grounded) (hId : site.graph.Definable id)
    (hx : site.graph.HasOp x o) {lsb : Select Operand} (hLsb : Returns site lsb) (width : Nat) :
    Returns site (coverExtract id x lsb width) := by
  unfold coverExtract
  refine (h.define_returns hId).bind fun out => (h.useRegister_returns hx).bind fun base => ?_
  exact hLsb.bind fun low => (immediate_returns _).bind fun count => emit_returns rfl

/-- A mask is covered or left alone without failing. -/
theorem coverMask_returns (h : site.graph.Grounded) (hId : site.graph.Definable id)
    {left : Int32Match} (hLeft : site.graph.HasOp left.id left.op) (mask : BitVec 32) :
    Returns site (coverMask id left mask) := by
  -- The low bits are a field of the word itself, or of the word that was shifted.
  have hWhole : ∀ width, Returns site (coverExtract id left.id (immediate 0) width) :=
    h.coverExtract_returns hId hLeft (immediate_returns 0)
  have hLow : ∀ width, Returns site (coverLowMask id left width) := by
    -- The field of a shifted word is taken from the word, at the amount of the shift.
    intro width
    unfold coverLowMask
    refine .read ?_
    dsimp only
    split
    · next hShift =>
      obtain ⟨m, hm⟩ := h.binary (hShift ▸ hLeft) (rfl : (Operator.word32 .shr).IsBinary)
      refine .look hm ?_
      split
      · next hAmount =>
        obtain ⟨c, hc⟩ := exists_of_any hAmount
        have hConstant := isInt32_of_value (binary_matches hm).2 hc
        refine Returns.bind ?_ fun _ => .pure _
        exact h.coverExtract_returns hId (binary_hasOp hm).1 (useImmediate_returns hConstant) _
      · exact hWhole width
    · exact hWhole width
  unfold coverMask
  dsimp only
  split
  · exact (hLow _).bind fun _ => .pure _
  · split
    · refine (h.defineAt_returns hId .sameAsFirst).bind fun out => ?_
      refine (h.useRegister_returns hLeft).bind fun x => (immediate_returns _).bind fun low => ?_
      exact (immediate_returns _).bind fun count => (emit_returns rfl).bind fun _ => .pure _
    · exact .pure _

/-- A conjunction is covered. -/
theorem coverAnd_returns (h : site.graph.Grounded) (hOp : site.graph.HasOp id (.word32 .and)) :
    Returns site (coverAnd id) := by
  obtain ⟨m, hm⟩ := h.binary hOp rfl
  obtain ⟨hLeft, hRight⟩ := binary_hasOp hm
  have hId := definable hOp rfl
  have hPlain : Returns site (coverBinary id .and .and {}) :=
    h.coverBinary_returns hOp rfl (.unused _) rfl rfl
  obtain ⟨left, hLeftReplies, hLeftNode⟩ := h.coveredComplement?_replies id hLeft
  obtain ⟨right, hRightReplies, hRightNode⟩ := h.coveredComplement?_replies id hRight
  -- What is left when no operand is a complement is a mask or the plain instruction.
  unfold coverAnd
  refine .read (.look hm (hLeftReplies.returns ?_))
  cases left with
  | some x =>
    obtain ⟨o, hx⟩ := hLeftNode x rfl
    exact h.coverClear_returns hId hRight hx
  | none =>
    refine hRightReplies.returns ?_
    cases right with
    | some x =>
      obtain ⟨o, hx⟩ := hRightNode x rfl
      exact h.coverClear_returns hId hLeft hx
    | none =>
      refine (has_replies .armv7).returns ?_
      split
      · split
        · refine (h.coverMask_returns hId hLeft _).bind fun done => ?_
          split
          · exact .pure _
          · exact hPlain
        · exact hPlain
      · exact hPlain

/-- An exclusive or is covered. -/
theorem coverXor_returns (h : site.graph.Grounded) (hOp : site.graph.HasOp id (.word32 .xor)) :
    Returns site (coverXor id) := by
  obtain ⟨m, hm⟩ := h.binary hOp rfl
  have hLeft := (binary_hasOp hm).1
  unfold coverXor
  refine .read (.look hm ?_)
  split
  · exact h.coverBinary_returns hOp rfl (.unused _) rfl rfl
  · refine (h.define_returns (definable hOp rfl)).bind fun out => ?_
    refine (h.tryShift_returns hLeft).after (tryShift_complete _) fun shifted hFlex => ?_
    split
    · next f => exact h.emitFlexible_returns (.unused _) rfl (hFlex f rfl) [] rfl rfl
    · exact (h.useRegister_returns hLeft).bind fun x => emit_returns rfl

/-! ## Sums and products -/

/-- A product that is taken in has two operands to bring along. -/
theorem emitMultiply_returns (h : site.graph.Grounded) (hOp : op.shape? = some ⟨3, 1, .plain⟩)
    (hId : site.graph.Definable id) (hx : site.graph.HasOp x (.int32 .mul))
    (hy : site.graph.HasOp y o) : Returns site (emitMultiply op id x y) := by
  obtain ⟨m, hm⟩ := h.binary hx rfl
  obtain ⟨hLeft, hRight⟩ := binary_hasOp hm
  unfold emitMultiply
  refine .read (.look hm ((h.define_returns hId).bind fun out => ?_))
  refine (h.useRegister_returns hLeft).bind fun left => ?_
  refine (h.useRegister_returns hRight).bind fun right => ?_
  refine (h.useRegister_returns hy).bind fun third => ?_
  exact emit_returns (Instr.check_of_shape hOp rfl rfl rfl)

/-- An addition is covered, with a product on either side or none. -/
theorem coverAdd_returns (h : site.graph.Grounded) (hOp : site.graph.HasOp id (.int32 .add)) :
    Returns site (coverAdd id) := by
  obtain ⟨m, hm⟩ := h.binary hOp rfl
  obtain ⟨hLeft, hRight⟩ := binary_hasOp hm
  have hId := definable hOp rfl
  obtain ⟨left, hLeftReplies, hLeftMul⟩ := h.isCoveredProduct_replies (.int32 .mul) id hLeft
  obtain ⟨right, hRightReplies, hRightMul⟩ := h.isCoveredProduct_replies (.int32 .mul) id hRight
  -- A product is asked for its operands, which it has because it is a multiplication.
  unfold coverAdd
  refine .read (.look hm (hLeftReplies.returns ?_))
  split
  · next hTrue => exact h.emitMultiply_returns rfl hId (hLeftMul hTrue ▸ hLeft) hRight
  · refine hRightReplies.returns ?_
    split
    · next hTrue => exact h.emitMultiply_returns rfl hId (hRightMul hTrue ▸ hRight) hLeft
    · exact h.coverBinary_returns hOp rfl (.unused _) rfl rfl

/-- A product is covered. -/
theorem coverMul_returns (h : site.graph.Grounded) (hOp : site.graph.HasOp id (.int32 .mul)) :
    Returns site (coverMul id) := by
  obtain ⟨m, hm⟩ := h.binary hOp rfl
  obtain ⟨⟨n, hn, -⟩, k, hk, -⟩ := binary_hasOp hm
  obtain ⟨x, hx⟩ := h.carried hn
  obtain ⟨y, hy⟩ := h.carried hk
  exact Selection.coverMul_returns h.wellFormed hOp hm hx hy

/-! ## Doubles -/

/-- The two operands of a node. -/
theorem operands (h : site.graph.Grounded) (hOp : site.graph.HasOp id operator)
    (hBinary : operator.IsBinary) : ∃ n x y, site.graph.node id = .ok n ∧ n.input 0 = .ok x ∧
      n.input 1 = .ok y ∧ (∃ o, site.graph.HasOp x o) ∧ ∃ o, site.graph.HasOp y o := by
  -- A verified binary node has its two inputs, and inputs are nodes.
  obtain ⟨x, y, n, hn, -, hInputs⟩ := h.wellFormed.applies hOp hBinary
  obtain ⟨a, ha⟩ := h.wellFormed.node_of_input ⟨n, hn, (by simp [hInputs] : x ∈ n.inputs)⟩
  obtain ⟨b, hb⟩ := h.wellFormed.node_of_input ⟨n, hn, (by simp [hInputs] : y ∈ n.inputs)⟩
  exact ⟨n, x, y, node_eq_ok.mpr hn, by simp [Node.input, hInputs], by simp [Node.input, hInputs],
    ⟨a.op, a, ha, rfl⟩, b.op, b, hb, rfl⟩

/-- An operation on doubles with two operands is covered. -/
theorem coverDoubles_returns (h : site.graph.Grounded) (hOp : site.graph.HasOp id operator)
    (hBinary : operator.IsBinary) (hShape : op.shape? = some ⟨2, 1, .plain⟩) :
    Returns site (coverDoubles id op) := by
  obtain ⟨n, x, y, hn, hx, hy, ⟨o, hLeft⟩, o', hRight⟩ := h.operands hOp hBinary
  unfold coverDoubles
  refine .read (.look hn ((h.define_returns (definable hOp hBinary)).bind fun out => ?_))
  refine .look hx ((h.useRegister_returns hLeft).bind fun left => ?_)
  refine .look hy ((h.useRegister_returns hRight).bind fun right => ?_)
  exact emit_returns (Instr.check_of_shape hShape rfl rfl rfl)

/-- A product of doubles that is taken in has two operands to bring along. -/
theorem emitAccumulate_returns (h : site.graph.Grounded) (hShape : op.shape? = some ⟨3, 1, .plain⟩)
    (hId : site.graph.Definable id) (hx : site.graph.HasOp x (.float64 .mul))
    (hy : site.graph.HasOp y o) : Returns site (emitAccumulate op id x y) := by
  obtain ⟨n, a, b, hn, ha, hb, ⟨o, hLeft⟩, o', hRight⟩ := h.operands hx rfl
  unfold emitAccumulate
  refine .read (.look hn ((h.defineAt_returns hId _).bind fun out => ?_))
  refine (h.useRegister_returns hy).bind fun third => ?_
  refine .look ha ((h.useRegister_returns hLeft).bind fun left => ?_)
  refine .look hb ((h.useRegister_returns hRight).bind fun right => ?_)
  exact emit_returns (Instr.check_of_shape hShape rfl rfl rfl)

/-- A sum of doubles is covered. -/
theorem coverDoubleAdd_returns (h : site.graph.Grounded)
    (hOp : site.graph.HasOp id (.float64 .add)) : Returns site (coverDoubleAdd id) := by
  obtain ⟨n, x, y, hn, hx, hy, ⟨o, hLeft⟩, o', hRight⟩ := h.operands hOp rfl
  have hId := definable hOp rfl
  obtain ⟨left, hLeftReplies, hLeftMul⟩ := h.isCoveredDoubleProduct_replies id hLeft
  obtain ⟨right, hRightReplies, hRightMul⟩ := h.isCoveredDoubleProduct_replies id hRight
  unfold coverDoubleAdd
  refine .read (.look hn (.look hx (.look hy (hLeftReplies.returns ?_))))
  split
  · next hTrue => exact h.emitAccumulate_returns rfl hId (hLeftMul hTrue ▸ hLeft) hRight
  · refine hRightReplies.returns ?_
    split
    · next hTrue => exact h.emitAccumulate_returns rfl hId (hRightMul hTrue ▸ hRight) hLeft
    · exact h.coverDoubles_returns hOp rfl rfl

/-- A comparison of doubles is covered. -/
theorem coverDoubleCompare_returns (h : site.graph.Grounded) (hOp : site.graph.HasOp id operator)
    (hBinary : operator.IsBinary) (hk : k.Within site.graph.Definable) :
    Returns site (coverDoubleCompare id k) := by
  obtain ⟨n, x, y, hn, hx, hy, ⟨o, hLeft⟩, o', hRight⟩ := h.operands hOp hBinary
  unfold coverDoubleCompare
  refine .read (.look hn (.look hx ((h.useRegister_returns hLeft).bind fun left => ?_)))
  refine .look hy ((h.useRegister_returns hRight).bind fun right => ?_)
  exact h.emitFlags_returns hk rfl rfl rfl rfl

/-! ## Values compared with zero -/

/-- What a comparison does with its two operands. -/
theorem emitComparison_returns (h : site.graph.Grounded) (hOp : site.graph.HasOp id operator)
    {c : Comparison} (hComparison : comparison? operator = some c)
    (hk : k.Within site.graph.Definable) : Returns site (emitComparison c id k) := by
  have hBinary : operator.IsBinary := by
    unfold comparison? at hComparison
    split at hComparison
    all_goals first
      | rfl
      | cases hComparison
  unfold emitComparison
  split
  · exact h.coverCompare_returns hOp hBinary hk rfl _
  · exact h.coverDoubleCompare_returns hOp hBinary hk

/-- The first value input of a node that has one. -/
theorem valueIn (h : site.graph.Grounded) (hu : site.graph.HasOp u operator)
    (hOne : operator.arity?.bind Arity.value = some 1) :
    ∃ x o, site.graph.valueIn u 0 = .ok x ∧ site.graph.HasOp x o := by
  obtain ⟨n, hn, rfl⟩ := hu
  have hCount : ¬n.valueCount ≤ 0 := by
    rw [valueCount_of_verify h.wellFormed.verify hn hOne]
    decide
  -- There are as many value inputs as the arity says, so there is a first one.
  obtain ⟨x, rest, hInputs⟩ := List.exists_cons_of_length_pos (h.wellFormed.le_inputs hn hOne)
  obtain ⟨w, hw⟩ := h.wellFormed.node_of_input ⟨n, hn, (by simp [hInputs] : x ∈ n.inputs)⟩
  refine ⟨x, w.op, ?_, w, hw, rfl⟩
  unfold Graph.valueIn
  rw [node_eq_ok.mpr hn, ok_bind, if_neg hCount]
  simp [Node.input, hInputs]

/-- The projections of a node of the graph can be searched. -/
theorem findProjection (h : site.graph.Grounded) (hu : site.graph.HasOp u operator) (index : Int) :
    ∃ p, site.graph.findProjection u index = .ok p := by
  obtain ⟨n, hn, -⟩ := hu
  unfold Graph.findProjection
  rw [h.wellFormed.uses hn]
  exact ⟨_, rfl⟩

/-- The operation that a branch may emit for a flag can be looked up. -/
theorem fusedOverflow?_returns (h : site.graph.Grounded) (hu : site.graph.HasOp u .projection)
    (k : Continuation) : Returns site (fusedOverflow? u k) := by
  obtain ⟨x, operator, hx, hxOp⟩ := h.valueIn hu rfl
  obtain ⟨n, hn, -⟩ := hu
  unfold fusedOverflow?
  refine .read (.look (node_eq_ok.mpr hn) ?_)
  dsimp only
  split
  · exact .pure _
  · refine .look hx (.look (op_eq_ok.mpr hxOp) ?_)
    rw [h.isAssigned hxOp]
    simp only [Bool.not_true, Bool.false_eq_true, if_false]
    split
    · exact .pure _
    · refine .get fun s => ?_
      split
      · exact .pure _
      · -- A projection that is found is a node, so its uses can be asked for.
        obtain ⟨p, hp⟩ := h.findProjection hxOp 0
        refine .look hp ?_
        split
        · exact .pure _
        · next hNonneg =>
          obtain ⟨q, hq, -⟩ := (findProjection_eq_ok hp).1 (Int.not_lt.mp hNonneg)
          refine .look (h.wellFormed.uses hq) ?_
          split
          · exact .pure _
          · exact .pure _

/-- What a branch may emit for a flag is an operation with overflow. -/
theorem fusedOverflow?_operation (u : NodeId) (k : Continuation) (s : State) :
    Ensures site s (fusedOverflow? u k) fun r _ => ∀ x direct reverse,
      r = some (x, direct, reverse) → ∃ operator, site.graph.HasOp x operator ∧
        overflowOps? operator = some (direct, reverse) := by
  refine (fusedOverflow?_ops u k).mono ?_
  rintro r _ ⟨-, hFound⟩ x direct reverse hr
  exact (hFound x direct reverse hr).2

/-- The instructions for overflow have the shape of data processing. -/
theorem overflowOps?_shapes {direct reverse : Opcode}
    (h : overflowOps? operator = some (direct, reverse)) :
    operator.IsBinary ∧ direct.shape? = some (flexibleShape 1 1) ∧
      reverse.shape? = some (flexibleShape 1 1) := by
  unfold overflowOps? at h
  split at h <;> cases h <;> exact ⟨rfl, rfl, rfl⟩

/-- A value that is compared with zero is covered whatever it is. -/
theorem coverFlags_returns (h : site.graph.Grounded) (hu : site.graph.HasOp u operator)
    (hk : k.Within site.graph.Definable) : Returns site (coverFlags u k) := by
  -- A comparison, arithmetic whose value is dropped, a flag, and the operators that set the flags
  -- of their own instruction. Everything else is tested for zero.
  unfold coverFlags
  refine .read (.look (op_eq_ok.mpr hu) ?_)
  split
  · next c hComparison => exact h.emitComparison_returns hu hComparison (hk.overwrite _)
  · split
    · next test hTest =>
      obtain ⟨hBinary, hShape⟩ : operator.IsBinary ∧ test.shape? = some (flexibleShape 1 0) := by
        unfold testOp? at hTest
        split at hTest <;> cases hTest <;> exact ⟨rfl, rfl⟩
      exact h.coverCompare_returns hu hBinary hk hShape _
    · split
      · refine (h.fusedOverflow?_returns hu k).after (fusedOverflow?_operation u k)
          fun fused hFused => ?_
        split
        · next x direct reverse =>
          obtain ⟨o, hx, hOps⟩ := hFused x direct reverse rfl
          obtain ⟨hBinary, hDirect, hReverse⟩ := overflowOps?_shapes hOps
          exact h.coverBinary_returns hx hBinary (hk.overwrite _) hDirect hReverse
        · exact h.coverTest_returns hu hk
      · exact h.coverBinary_returns hu rfl hk rfl rfl
      · exact h.coverShift_returns hu rfl hk
      · exact h.coverShift_returns hu rfl hk
      · exact h.coverShift_returns hu rfl hk
      · exact h.coverShift_returns hu rfl hk
      · exact h.coverTest_returns hu hk

/-- An operation with overflow is covered, whether its flag is wanted or not. -/
theorem coverOverflow_returns (h : site.graph.Grounded) {direct reverse : Opcode}
    (hOp : site.graph.HasOp id operator) (hOps : overflowOps? operator = some (direct, reverse)) :
    Returns site (coverOverflow id direct reverse) := by
  obtain ⟨hBinary, hDirect, hReverse⟩ := overflowOps?_shapes hOps
  obtain ⟨flag, hFlag⟩ := h.findProjection hOp 1
  unfold coverOverflow
  refine .read (.look hFlag ?_)
  refine h.coverBinary_returns hOp hBinary ?_ hDirect hReverse
  split
  · next hPlaced =>
    -- The flag is a projection, so it can be named as an output.
    obtain ⟨p, hp, hProjection, -⟩ := (findProjection_eq_ok hFlag).1 hPlaced.1
    exact .result ⟨.projection, ⟨p, hp, hProjection⟩, nofun⟩ _
  · exact .unused _

end Graph.Grounded
end ArmBackend
