import ArmBackend.Proofs.Selection.Alike

/-!
# The rules of selection over two graphs

Every rule runs alike over graphs that answer alike about its node (`Twin`), and keeps the
invariant. The proofs follow the rules step by step; what a matcher hands out is an input of the node
it looks at, so the rule stays among the nodes that both graphs know.

## Results

* `coverNode_steady`, `coverControl_steady` — the rules for a node and for the end of a block.
* `coverAll_steady` — a whole run.
-/

namespace ArmBackend.Selection.Twin

variable {A : NodeId → Prop} {J : State → Prop} {site : Site} {g' : Graph}
  {id user value base index x y : NodeId} {k : Continuation}

/-! ## The flexible operand -/

/-- The operands of a binary member are members. -/
theorem binary_alike (h : Twin A J site g') (hId : A id) :
    Alike site g' J (liftM (site.graph.binary id)) (liftM (g'.binary id)) fun m =>
      A m.left.id ∧ A m.right.id := by
  refine (Alike.lookup (h.binary hId)).mono ?_
  intro m hm
  obtain ⟨⟨hLeft, -⟩, ⟨hRight, -⟩⟩ := Graph.binary_feeds hm
  exact ⟨h.ofFeeds hId hLeft, h.ofFeeds hId hRight⟩

/-- A value input of a member is a member. -/
theorem valueIn_alike (h : Twin A J site g') (hId : A id) (index : Int) :
    Alike site g' J (liftM (site.graph.valueIn id index)) (liftM (g'.valueIn id index)) A :=
  (Alike.lookup (h.valueIn hId index)).mono fun _ hx => h.ofFeeds hId (Graph.valueIn_feeds hx)

/-- The inputs of a member are members. -/
theorem input_alike (h : Twin A J site g') (hId : A id) {n : Node}
    (hn : site.graph.node id = .ok n) (index : Int) :
    Alike site g' J (liftM (n.input index)) (liftM (n.input index)) A :=
  (Alike.lookup rfl).mono fun _ hx => h.ofInput hId hn hx

/-- The shift that is tried takes its operand and its amount from the members. -/
theorem tryShift_steady (h : Twin A J site g') (hId : A id) : Steady site g' J (tryShift id) := by
  unfold tryShift
  refine .read ((Alike.lookup (h.op hId)).bind ?_)
  intro op _
  dsimp only
  split
  · exact .throw_bind _
  · split
    · exact .pure trivial
    · refine (h.binary_alike hId).bind ?_
      rintro m ⟨hLeft, hRight⟩
      refine (h.useRegister_steady hLeft).bind fun _ => ?_
      split
      · exact (h.useImmediate_steady hRight).bind fun _ => .pure trivial
      · exact (h.useRegister_steady hRight).bind fun _ => .pure trivial

/-- The flexible operand is an immediate, a shift or none, in both graphs alike. -/
theorem tryOperand2_steady (h : Twin A J site g') (hId : A id) (op : Opcode) :
    Steady site g' J (tryOperand2 op id) := by
  unfold tryOperand2
  refine .read ((Alike.lookup (h.int32 hId)).bind ?_)
  intro m _
  split
  · exact (h.useImmediate_steady hId).bind fun _ => .pure trivial
  · exact h.tryShift_steady hId

/-- Either operand may become the flexible one; the answer to each try is shared. -/
theorem coverBinary_steady (h : Twin A J site g') (hId : A id) (hk : k.Within A)
    (op reverse : Opcode) : Steady site g' J (coverBinary id op reverse k) := by
  unfold coverBinary
  refine .read ((h.binary_alike hId).bind ?_)
  rintro m ⟨hLeft, hRight⟩
  -- Equal operands, then a flexible one on the right, then on the left, then none.
  split
  · refine (h.useRegister_steady hLeft).bind fun _ => ?_
    exact (h.define_steady hId).bind fun _ => h.emitFlags_steady hk _ _ _ _
  · refine (h.tryOperand2_steady hRight op).bind fun right => ?_
    split
    · refine (h.useRegister_steady hLeft).bind fun _ => ?_
      exact (h.define_steady hId).bind fun _ => h.emitFlags_steady hk _ _ _ _
    · refine (h.tryOperand2_steady hLeft reverse).bind fun left => ?_
      split
      · refine (h.useRegister_steady hRight).bind fun _ => ?_
        exact (h.define_steady hId).bind fun _ => h.emitFlags_steady hk _ _ _ _
      · refine (h.useRegister_steady hLeft).bind fun _ => ?_
        refine (h.useRegister_steady hRight).bind fun _ => ?_
        exact (h.define_steady hId).bind fun _ => h.emitFlags_steady hk _ _ _ _

/-- A comparison may exchange its operands, which leaves the node named. -/
theorem coverCompare_steady (h : Twin A J site g') (hId : A id) (hk : k.Within A) (op : Opcode)
    (commutative : Bool) : Steady site g' J (coverCompare id op k commutative) := by
  unfold coverCompare
  refine .read ((h.binary_alike hId).bind ?_)
  rintro m ⟨hLeft, hRight⟩
  refine (h.tryOperand2_steady hRight op).bind fun right => ?_
  split
  · exact (h.useRegister_steady hLeft).bind fun _ => h.emitFlags_steady hk _ _ _ _
  · refine (h.tryOperand2_steady hLeft op).bind fun left => ?_
    split
    · refine (h.useRegister_steady hRight).bind fun _ => ?_
      refine h.emitFlags_steady ?_ _ _ _ _
      split
      · exact hk
      · exact hk.commute
    · refine (h.useRegister_steady hLeft).bind fun _ => ?_
      exact (h.useRegister_steady hRight).bind fun _ => h.emitFlags_steady hk _ _ _ _

/-- A test of a value against itself uses that value alone. -/
theorem coverTest_steady (h : Twin A J site g') (hId : A id) (hk : k.Within A) :
    Steady site g' J (coverTest id k) :=
  (h.useRegister_steady hId).bind fun _ => h.emitFlags_steady hk _ _ _ _

/-- Where no shift is found the fault names the operator, which is the same one. -/
theorem coverShift_steady (h : Twin A J site g') (hId : A id) (hk : k.Within A) :
    Steady site g' J (coverShift id k) := by
  unfold coverShift
  refine (h.tryShift_steady hId).bind fun shifted => ?_
  split
  · exact (h.define_steady hId).bind fun _ => h.emitFlags_steady hk _ _ _ _
  · refine .read ((Alike.lookup (h.op hId)).bind ?_)
    intro op _
    exact .throw _

/-! ## Words and integers -/

/-- The features belong to the site, whatever the graph. -/
theorem has_steady (f : Feature) : Steady site g' J (has f) :=
  .read (.pure trivial)

/-- A bit clear takes the operand of the complement instead of the complement. -/
theorem coverClear_steady (h : Twin A J site g') (hId : A id) (hx : A x) (hy : A y) :
    Steady site g' J (coverClear id x y) := by
  unfold coverClear
  refine (h.define_steady hId).bind fun out => ?_
  refine (h.tryShift_steady hy).bind fun shifted => ?_
  split
  · exact (h.useRegister_steady hx).bind fun _ => h.emit_steady _
  · refine (h.useRegister_steady hx).bind fun _ => ?_
    exact (h.useRegister_steady hy).bind fun _ => h.emit_steady _

/-- A bit field instruction, its lowest bit given by a steady step. -/
theorem coverExtract_steady (h : Twin A J site g') (hId : A id) (hBase : A base)
    {lsb : Select Operand} (hLsb : Steady site g' J lsb) (width : Nat) :
    Steady site g' J (coverExtract id base lsb width) := by
  unfold coverExtract
  refine (h.define_steady hId).bind fun _ => ?_
  refine (h.useRegister_steady hBase).bind fun _ => ?_
  refine hLsb.bind fun _ => ?_
  exact (h.immediate_steady _).bind fun _ => h.emit_steady _

/-- A mask of low bits, taken of a shifted value where the shift fits. -/
theorem coverLowMask_steady (h : Twin A J site g') (hId : A id) {left : Int32Match}
    (hLeft : A left.id) (width : Nat) : Steady site g' J (coverLowMask id left width) := by
  unfold coverLowMask
  refine .read ?_
  dsimp only
  split
  · refine (h.binary_alike hLeft).bind ?_
    rintro m ⟨hBase, hShift⟩
    split
    · refine (h.coverExtract_steady hId hBase (h.useImmediate_steady hShift) _).bind fun _ => ?_
      exact .pure trivial
    · exact h.coverExtract_steady hId hLeft (h.immediate_steady _) _
  · exact h.coverExtract_steady hId hLeft (h.immediate_steady _) _

/-- A mask that a bit field instruction does, or that is left to the general rule. -/
theorem coverMask_steady (h : Twin A J site g') (hId : A id) {left : Int32Match}
    (hLeft : A left.id) (mask : BitVec 32) : Steady site g' J (coverMask id left mask) := by
  unfold coverMask
  dsimp only
  -- Not a mask of low bits: what it clears may be one field.
  split
  · exact (h.coverLowMask_steady hId hLeft _).bind fun _ => .pure trivial
  · split
    · refine (h.defineAt_steady hId _).bind fun _ => ?_
      refine (h.useRegister_steady hLeft).bind fun _ => ?_
      refine (h.immediate_steady _).bind fun _ => ?_
      refine (h.immediate_steady _).bind fun _ => ?_
      exact (h.emit_steady _).bind fun _ => .pure trivial
    · exact .pure trivial

/-- The operand of a complement that is taken in is a member. -/
theorem coveredComplement?_alike (h : Twin A J site g') (hId : A id) :
    Alike site g' J (coveredComplement? user id) (coveredComplement? user id) fun o =>
      ∀ x, o = some x → A x := by
  unfold coveredComplement?
  refine .read ((Alike.lookup (h.complementOf? hId)).bind ?_)
  intro o ho
  split
  · next x =>
    have hx := h.ofFeeds hId (Graph.complementOf?_feeds ho).2
    refine (h.canCover_steady hId).bind fun covered => .pure ?_
    intro y hy
    split at hy
    · cases hy
      exact hx
    · cases hy
  · refine .pure ?_
    rintro x ⟨⟩

/-- The forms of a conjunction are tried in the same order over both graphs. -/
theorem coverAnd_steady (h : Twin A J site g') (hId : A id) : Steady site g' J (coverAnd id) := by
  unfold coverAnd
  refine .read ((h.binary_alike hId).bind ?_)
  rintro m ⟨hLeft, hRight⟩
  -- A complement on the left, then one on the right, then a mask.
  refine (h.coveredComplement?_alike hLeft).bind ?_
  intro left hComplement
  split
  · exact h.coverClear_steady hId hRight (hComplement _ rfl)
  · refine (h.coveredComplement?_alike hRight).bind ?_
    intro right hComplement'
    split
    · exact h.coverClear_steady hId hLeft (hComplement' _ rfl)
    · have hPlain := h.coverBinary_steady hId (.unused A) .and .and
      refine (has_steady _).bind fun armv7 => ?_
      dsimp only
      split
      · split
        · refine (h.coverMask_steady hId hLeft _).bind fun done => ?_
          split
          · exact .pure trivial
          · exact hPlain
        · exact hPlain
      · exact hPlain

/-- An exclusive or with all bits set moves the complement of its operand. -/
theorem coverXor_steady (h : Twin A J site g') (hId : A id) : Steady site g' J (coverXor id) := by
  unfold coverXor
  refine .read ((h.binary_alike hId).bind ?_)
  rintro m ⟨hLeft, hRight⟩
  split
  · exact h.coverBinary_steady hId (.unused A) _ _
  · refine (h.define_steady hId).bind fun _ => ?_
    refine (h.tryShift_steady hLeft).bind fun shifted => ?_
    split
    · exact h.emit_steady _
    · exact (h.useRegister_steady hLeft).bind fun _ => h.emit_steady _

/-- A logical shift to the right of a masked value is a bit field. -/
theorem coverShr_steady (h : Twin A J site g') (hId : A id) : Steady site g' J (coverShr id) := by
  unfold coverShr
  refine .read ((h.binary_alike hId).bind ?_)
  rintro m ⟨hLeft, hRight⟩
  have hPlain := h.coverShift_steady hId (.unused A)
  refine (has_steady _).bind fun armv7 => ?_
  dsimp only
  split
  · refine (Alike.lookup (h.shiftedField? hLeft _)).bind ?_
    intro field hField
    split
    · next base width =>
      have hBase := h.ofFeeds hLeft (Graph.shiftedField?_feeds hField)
      refine (h.coverExtract_steady hId hBase (h.useImmediate_steady hRight) _).bind fun _ => ?_
      exact .pure trivial
    · exact hPlain
  · exact hPlain

/-- A product that is taken in brings its own operands along. -/
theorem emitMultiply_steady (h : Twin A J site g') (hId : A id) (hx : A x) (hy : A y)
    (op : Opcode) : Steady site g' J (emitMultiply op id x y) := by
  unfold emitMultiply
  refine .read ((h.binary_alike hx).bind ?_)
  rintro m ⟨hLeft, hRight⟩
  refine (h.define_steady hId).bind fun _ => ?_
  refine (h.useRegister_steady hLeft).bind fun _ => ?_
  refine (h.useRegister_steady hRight).bind fun _ => ?_
  exact (h.useRegister_steady hy).bind fun _ => h.emit_steady _

/-- Whether a product is taken in depends on its operator and its uses. -/
theorem isCoveredProduct_steady (h : Twin A J site g') {m : Int32Match} (hm : A m.id)
    (op : Operator) : Steady site g' J (isCoveredProduct op user m) := by
  unfold isCoveredProduct
  split
  · exact .pure trivial
  · exact h.canCover_steady hm

/-- An addition takes in a product on either side. -/
theorem coverAdd_steady (h : Twin A J site g') (hId : A id) : Steady site g' J (coverAdd id) := by
  unfold coverAdd
  refine .read ((h.binary_alike hId).bind ?_)
  rintro m ⟨hLeft, hRight⟩
  refine (h.isCoveredProduct_steady hLeft _).bind fun left => ?_
  split
  · exact h.emitMultiply_steady hId hLeft hRight _
  · refine (h.isCoveredProduct_steady hRight _).bind fun right => ?_
    split
    · exact h.emitMultiply_steady hId hRight hLeft _
    · exact h.coverBinary_steady hId (.unused A) _ _

/-- A subtraction takes in a product on its right, with the feature for it. -/
theorem coverSub_steady (h : Twin A J site g') (hId : A id) : Steady site g' J (coverSub id) := by
  unfold coverSub
  refine .read ((h.binary_alike hId).bind ?_)
  rintro m ⟨hLeft, hRight⟩
  have hPlain := h.coverBinary_steady hId (.unused A) .sub .rsb
  refine (has_steady _).bind fun mls => ?_
  dsimp only
  split
  · refine (h.isCoveredProduct_steady hRight _).bind fun right => ?_
    split
    · exact (h.emitMultiply_steady hId hRight hLeft _).bind fun _ => .pure trivial
    · exact hPlain
  · exact hPlain

/-- A product with a constant may become a shift with an addition. -/
theorem coverMul_steady (h : Twin A J site g') (hId : A id) : Steady site g' J (coverMul id) := by
  unfold coverMul
  refine .read ((h.binary_alike hId).bind ?_)
  rintro m ⟨hLeft, hRight⟩
  split
  · refine (h.define_steady hId).bind fun _ => ?_
    refine (h.useRegister_steady hLeft).bind fun _ => ?_
    refine (h.useRegister_steady hLeft).bind fun _ => ?_
    exact (h.immediate_steady _).bind fun _ => h.emit_steady _
  · refine (h.define_steady hId).bind fun _ => ?_
    refine (h.useRegister_steady hLeft).bind fun _ => ?_
    exact (h.useRegister_steady hRight).bind fun _ => h.emit_steady _

/-- A division by the instruction for it, or through doubles, as the features say. -/
theorem emitDivision_steady (h : Twin A J site g') (ops : DivisionOps) (out left right : Operand) :
    Steady site g' J (emitDivision ops out left right) := by
  unfold emitDivision
  refine (has_steady _).bind fun sudiv => ?_
  split
  · exact h.emit_steady _
  · refine h.tempDouble_steady.bind fun _ => ?_
    refine h.tempDouble_steady.bind fun _ => ?_
    refine h.tempDouble_steady.bind fun _ => ?_
    refine (h.emit_steady _).bind fun _ => ?_
    refine (h.emit_steady _).bind fun _ => ?_
    exact (h.emit_steady _).bind fun _ => h.emit_steady _

/-- A quotient of two members. -/
theorem coverDivision_steady (h : Twin A J site g') (hId : A id) (ops : DivisionOps) :
    Steady site g' J (coverDivision id ops) := by
  unfold coverDivision
  refine .read ((h.binary_alike hId).bind ?_)
  rintro m ⟨hLeft, hRight⟩
  refine (h.define_steady hId).bind fun _ => ?_
  refine (h.useRegister_steady hLeft).bind fun _ => ?_
  exact (h.useRegister_steady hRight).bind fun _ => h.emitDivision_steady _ _ _ _

/-- A remainder is the dividend less the product of quotient and divisor. -/
theorem coverRemainder_steady (h : Twin A J site g') (hId : A id) (ops : DivisionOps) :
    Steady site g' J (coverRemainder id ops) := by
  unfold coverRemainder
  refine .read ((h.binary_alike hId).bind ?_)
  rintro m ⟨hLeft, hRight⟩
  refine (h.define_steady hId).bind fun _ => ?_
  refine (h.useRegister_steady hLeft).bind fun _ => ?_
  refine (h.useRegister_steady hRight).bind fun _ => ?_
  refine h.tempRegister_steady.bind fun _ => ?_
  refine (h.emitDivision_steady _ _ _ _).bind fun _ => ?_
  refine (has_steady _).bind fun mls => ?_
  split
  · exact h.emit_steady _
  · refine h.tempRegister_steady.bind fun _ => ?_
    exact (h.emit_steady _).bind fun _ => h.emit_steady _

/-! ## Doubles -/

/-- A conversion of one member. -/
theorem coverUnary_steady (h : Twin A J site g') (hId : A id) (op : Opcode) :
    Steady site g' J (coverUnary id op) := by
  unfold coverUnary
  refine (h.define_steady hId).bind fun _ => ?_
  refine .read ((h.valueIn_alike hId 0).bind ?_)
  intro x hx
  exact (h.useRegister_steady hx).bind fun _ => h.emit_steady _

/-- An operation on two doubles. -/
theorem coverDoubles_steady (h : Twin A J site g') (hId : A id) (op : Opcode) :
    Steady site g' J (coverDoubles id op) := by
  unfold coverDoubles
  refine .read ((Alike.lookup (h.node hId)).bind ?_)
  intro n hn
  refine (h.define_steady hId).bind fun _ => ?_
  refine (h.input_alike hId hn 0).bind fun left hLeft => ?_
  refine (h.useRegister_steady hLeft).bind fun _ => ?_
  refine (h.input_alike hId hn 1).bind fun right hRight => ?_
  exact (h.useRegister_steady hRight).bind fun _ => h.emit_steady _

/-- Whether a product of doubles is taken in. -/
theorem isCoveredDoubleProduct_steady (h : Twin A J site g') (hId : A id) :
    Steady site g' J (isCoveredDoubleProduct user id) := by
  unfold isCoveredDoubleProduct
  refine .read ((Alike.lookup (h.op hId)).bind ?_)
  intro op _
  split
  · exact .pure trivial
  · exact h.canCover_steady hId

/-- A product of doubles that is taken in brings its operands along. -/
theorem emitAccumulate_steady (h : Twin A J site g') (hId : A id) (hx : A x) (hy : A y)
    (op : Opcode) : Steady site g' J (emitAccumulate op id x y) := by
  unfold emitAccumulate
  refine .read ((Alike.lookup (h.node hx)).bind ?_)
  intro n hn
  refine (h.defineAt_steady hId _).bind fun _ => ?_
  refine (h.useRegister_steady hy).bind fun _ => ?_
  refine (h.input_alike hx hn 0).bind fun left hLeft => ?_
  refine (h.useRegister_steady hLeft).bind fun _ => ?_
  refine (h.input_alike hx hn 1).bind fun right hRight => ?_
  exact (h.useRegister_steady hRight).bind fun _ => h.emit_steady _

/-- A sum of doubles takes in a product on either side. -/
theorem coverDoubleAdd_steady (h : Twin A J site g') (hId : A id) :
    Steady site g' J (coverDoubleAdd id) := by
  unfold coverDoubleAdd
  refine .read ((Alike.lookup (h.node hId)).bind ?_)
  intro n hn
  refine (h.input_alike hId hn 0).bind fun left hLeft => ?_
  refine (h.input_alike hId hn 1).bind fun right hRight => ?_
  refine (h.isCoveredDoubleProduct_steady hLeft).bind fun covered => ?_
  split
  · exact h.emitAccumulate_steady hId hLeft hRight _
  · refine (h.isCoveredDoubleProduct_steady hRight).bind fun covered => ?_
    split
    · exact h.emitAccumulate_steady hId hRight hLeft _
    · exact h.coverDoubles_steady hId _

/-- A difference of doubles takes in a product on its right. -/
theorem coverDoubleSub_steady (h : Twin A J site g') (hId : A id) :
    Steady site g' J (coverDoubleSub id) := by
  unfold coverDoubleSub
  refine .read ((Alike.lookup (h.node hId)).bind ?_)
  intro n hn
  refine (h.input_alike hId hn 1).bind fun right hRight => ?_
  refine (h.isCoveredDoubleProduct_steady hRight).bind fun covered => ?_
  split
  · refine (h.input_alike hId hn 0).bind fun left hLeft => ?_
    exact h.emitAccumulate_steady hId hRight hLeft _
  · exact h.coverDoubles_steady hId _

/-- A comparison of doubles uses both operands. -/
theorem coverDoubleCompare_steady (h : Twin A J site g') (hId : A id) (hk : k.Within A) :
    Steady site g' J (coverDoubleCompare id k) := by
  unfold coverDoubleCompare
  refine .read ((Alike.lookup (h.node hId)).bind ?_)
  intro n hn
  refine (h.input_alike hId hn 0).bind fun left hLeft => ?_
  refine (h.useRegister_steady hLeft).bind fun _ => ?_
  refine (h.input_alike hId hn 1).bind fun right hRight => ?_
  exact (h.useRegister_steady hRight).bind fun _ => h.emitFlags_steady hk _ _ _ _

/-! ## Memory and calls -/

/-- An address is a base with an offset that fits, either operand, or two registers. -/
theorem address_steady (h : Twin A J site g') (hBase : A base) (hIndex : A index) (op : Opcode) :
    Steady site g' J (address op base index) := by
  unfold address
  refine .read ((Alike.lookup (h.int32 hIndex)).bind ?_)
  intro m _
  -- The index as an offset, then the base as one, then both in registers.
  split
  · refine (h.useRegister_steady hBase).bind fun _ => ?_
    exact (h.useImmediate_steady hIndex).bind fun _ => .pure trivial
  · refine (Alike.lookup (h.int32 hBase)).bind ?_
    intro m' _
    split
    · refine (h.useRegister_steady hIndex).bind fun _ => ?_
      exact (h.useImmediate_steady hBase).bind fun _ => .pure trivial
    · refine (h.useRegister_steady hBase).bind fun _ => ?_
      exact (h.useRegister_steady hIndex).bind fun _ => .pure trivial

/-- A load uses the parts of its address. -/
theorem coverLoad_steady (h : Twin A J site g') (hId : A id) : Steady site g' J (coverLoad id) := by
  unfold coverLoad
  refine .read ((Alike.lookup (h.node hId)).bind ?_)
  intro n hn
  split
  · exact .throw _
  · refine (h.input_alike hId hn 0).bind fun base hBase => ?_
    refine (h.input_alike hId hn 1).bind fun index hIndex => ?_
    refine (h.address_steady hBase hIndex _).bind fun _ => ?_
    exact (h.define_steady hId).bind fun _ => h.emit_steady _

/-- A store with a barrier uses fixed registers, two of which it overwrites. -/
theorem emitBarrier_steady (h : Twin A J site g') (hBase : A base) (hIndex : A index)
    (hValue : A value) : Steady site g' J (emitBarrier base index value) := by
  unfold emitBarrier
  refine (h.useAt_steady hBase _).bind fun _ => ?_
  refine (h.useAt_steady hIndex _).bind fun _ => ?_
  refine (h.useAt_steady hValue _).bind fun _ => ?_
  refine (h.tempAt_steady _).bind fun _ => ?_
  exact (h.tempAt_steady _).bind fun _ => h.emit_steady _

/-- A store uses the parts of its address and its value. -/
theorem coverStore_steady (h : Twin A J site g') (hId : A id) :
    Steady site g' J (coverStore id) := by
  unfold coverStore
  refine .read ((Alike.lookup (h.node hId)).bind ?_)
  intro n hn
  refine (h.input_alike hId hn 0).bind fun base hBase => ?_
  refine (h.input_alike hId hn 1).bind fun index hIndex => ?_
  refine (h.input_alike hId hn 2).bind fun value hValue => ?_
  -- Only tagged values go through the barrier.
  split
  · dsimp only
    split
    · exact .throw_bind _
    · exact h.emitBarrier_steady hBase hIndex hValue
  · split
    · exact .throw _
    · refine (h.address_steady hBase hIndex _).bind fun _ => ?_
      exact (h.useRegister_steady hValue).bind fun _ => h.emit_steady _

/-- The arguments of a call go where the linkage sends them, one after the other. -/
theorem useArguments_steady (h : Twin A J site g') {l : List NodeId} (hl : ∀ a ∈ l, A a)
    (linkage : Linkage) : Steady site g' J (useArguments linkage l) := by
  induction l generalizing linkage with
  | nil => exact Alike.pure trivial
  | cons a rest ih =>
    have ha := hl a List.mem_cons_self
    unfold useArguments
    refine (h.isDouble_steady ha).bind fun double => ?_
    refine (h.useAt_steady ha _).bind fun x => ?_
    exact (ih (fun b hb => hl b (List.mem_cons_of_mem _ hb)) _).bind fun _ => .pure trivial

/-- A call uses its target and its arguments. -/
theorem coverCall_steady (h : Twin A J site g') (hId : A id) : Steady site g' J (coverCall id) := by
  unfold coverCall
  refine .read ((Alike.lookup (h.node hId)).bind ?_)
  intro n hn
  refine (h.input_alike hId hn 0).bind fun target hTarget => ?_
  refine (Alike.lookup (h.op hTarget)).bind ?_
  intro op _
  dsimp only
  split
  · exact .throw_bind _
  · refine (h.markUsed_steady target).bind fun _ => ?_
    refine (h.vreg_steady hTarget).bind fun _ => ?_
    refine (Alike.lookup rfl).bind ?_
    intro l hl
    split
    · exact .throw _
    · -- The target was the first of the value inputs; the arguments are the others.
      next target' arguments =>
      have hArguments : ∀ a ∈ arguments, A a := by
        intro a ha
        have hMem : a ∈ n.values := by
          rw [← Node.valueInputs_eq_ok hl]
          exact List.mem_cons_of_mem _ ha
        exact h.ofFeeds hId ⟨n, Graph.node_eq_ok.mp hn, hMem⟩
      refine (h.useArguments_steady hArguments _).bind fun _ => ?_
      exact (h.defineAt_steady hId _).bind fun _ => h.emit_steady _

/-! ## Conditions -/

/-- A comparison of words or of doubles. -/
theorem emitComparison_steady (h : Twin A J site g') (hId : A id) (hk : k.Within A)
    (c : Comparison) : Steady site g' J (emitComparison c id k) := by
  unfold emitComparison
  split
  · exact h.coverCompare_steady hId hk _ _
  · exact h.coverDoubleCompare_steady hId hk

/-- Whether a node is used in a block depends only on the uses with a place. -/
theorem any_of_placedUses {schedule : Schedule} {uses uses' : List Use} {b : Nat}
    (hSame : placedUses schedule uses' = placedUses schedule uses) :
    (uses'.any fun u => schedule.blockOf u.user = some b) =
      uses.any fun u => schedule.blockOf u.user = some b := by
  have hPlaced : ∀ l : List Use, (l.any fun u => schedule.blockOf u.user = some b) =
      (placedUses schedule l).any fun u => schedule.blockOf u.user = some b := by
    intro l
    unfold placedUses
    rw [List.any_filter]
    congr 1
    funext u
    cases schedule.blockOf u.user <;> simp
  rw [hPlaced, hPlaced uses, hSame]

/-- Whether the value of an operation is consumed in the block. A projection that only the other graph
has is used nowhere, which is as good as none. -/
theorem consumed_alike {α : Type} {P : α → Prop} {yes no : α} (h : Twin A J site g') (hx : A x)
    (hYes : P yes) (hNo : P no) :
    Alike site g' J
      (do
        let value ← site.graph.findProjection x 0
        if value < 0 then return no
        let uses ← site.graph.uses value
        if uses.any fun u => site.schedule.blockOf u.user = some site.block then return yes
        return no)
      (do
        let value ← g'.findProjection x 0
        if value < 0 then return no
        let uses ← g'.uses value
        if uses.any fun u => site.schedule.blockOf u.user = some site.block then return yes
        return no) P := by
  rcases h.projection 0 hx with ⟨hSame, hMember⟩ | ⟨p, uses, hOld, hNew, hNonneg, -, hUses, hIdle⟩
  · refine (Alike.lookup hSame).bind ?_
    intro p hp
    split
    · exact .pure hNo
    · next hNonneg =>
      refine h.alike_uses (hMember p hp (Int.not_lt.mp hNonneg)) ?_
      intro uses uses' hPlaced
      rw [any_of_placedUses hPlaced]
      split
      · exact .pure hYes
      · exact .pure hNo
  · -- One graph stops at the projection that is missing, the other one at its uses.
    have hUnused : (uses.any fun u => site.schedule.blockOf u.user = some site.block) = false := by
      rw [List.any_eq_false]
      intro u hu
      rw [hIdle u hu]
      simp
    rw [hOld, liftM_ok_bind, if_pos (by decide)]
    rw [hNew, liftM_ok_bind, if_neg (Int.not_lt.mpr hNonneg), hUses, liftM_ok_bind, hUnused]
    exact .pure hNo

/-- The operation that a branch may emit is a member. -/
theorem fusedOverflow?_alike (h : Twin A J site g') (hId : A id) :
    Alike site g' J (fusedOverflow? id k) (fusedOverflow? id k) fun o =>
      ∀ x ops, o = some (x, ops) → A x := by
  have hNone : ∀ x ops, (none : Option (NodeId × Opcode × Opcode)) = some (x, ops) → A x := by
    rintro x ops ⟨⟩
  unfold fusedOverflow?
  refine .read ((Alike.lookup (h.node hId)).bind ?_)
  intro n _
  dsimp only
  split
  · exact .pure hNone
  · refine (h.valueIn_alike hId 0).bind fun x hx => ?_
    have hSome : ∀ direct reverse : Opcode, ∀ y ops,
        some (x, direct, reverse) = some (y, ops) → A y := by
      rintro direct reverse y ops ⟨⟩
      exact hx
    refine (Alike.lookup (h.op hx)).bind ?_
    intro op _
    split
    · exact .throw_bind _
    · split
      · exact .pure hNone
      · -- The operation must have no code yet, stand in this block, and have no use of its value
        -- here.
        refine Steady.get.bind fun s => ?_
        show Alike site g' J
          (if _ || decide (site.schedule.blockOf x ≠ some site.block) then _ else _)
          (if _ || decide (site.schedule.blockOf x ≠ some site.block) then _ else _) _
        split
        · exact .pure hNone
        · exact h.consumed_alike hx hNone (hSome _ _)

/-! ## Negations -/

/-- Whether `user` may take `id` in. -/
def coverable (site : Site) (user id : NodeId) : Except Fault Bool :=
  (canCover user id site {}).map Prod.fst

/-- The answer does not depend on what was done so far. -/
theorem canCover_eq (site : Site) (s : State) :
    canCover user id site s = (coverable site user id).map fun answer => (answer, s) := by
  unfold coverable canCover
  show (if _ then _ else _ : Select Bool) site s =
    Except.map _ (Except.map _ ((if _ then _ else _ : Select Bool) site {}))
  -- In another block there is nothing to count.
  split
  · rfl
  · show (liftM (site.graph.uses id) >>= _ : Select Bool) site s =
      Except.map _ (Except.map _ ((liftM (site.graph.uses id) >>= _ : Select Bool) site {}))
    cases site.graph.uses id <;> rfl

/-- Where the next negation is stripped: the value is a comparison with zero that its user alone
consumes. The comparison becomes the user, and what it compares the value. -/
def stripped? (site : Site) (p : NodeId × NodeId) : Option (NodeId × NodeId) :=
  match coverable site p.1 p.2, site.graph.op p.2, site.graph.binary p.2 with
  | .ok true, .ok (.word32 .equal), .ok m =>
    if m.right.isConst 0 then some (p.2, m.left.id) else none
  | _, _, _ => none

/-- What is asked of a negation that is stripped. -/
theorem stripped?_eq_some {p q : NodeId × NodeId} (h : stripped? site p = some q) :
    ∃ m, coverable site p.1 p.2 = .ok true ∧ site.graph.op p.2 = .ok (.word32 .equal) ∧
      site.graph.binary p.2 = .ok m ∧ m.right.isConst 0 = true ∧ q = (p.2, m.left.id) := by
  -- The three look-ups succeed and the right operand is zero.
  unfold stripped? at h
  split at h
  · next m hCover hOp hBinary =>
    split at h
    · next hZero => exact ⟨m, hCover, hOp, hBinary, hZero, (Option.some.inj h).symm⟩
    · cases h
  · cases h

/-- The question leaves the state alone. -/
theorem canCover_alike (site : Site) :
    Alike site site.graph (fun _ => True) (canCover user id) (canCover user id) fun answer =>
      coverable site user id = .ok answer := by
  intro s _
  refine ⟨rfl, ?_⟩
  intro answer t hAnswer
  rw [canCover_eq] at hAnswer
  cases hCover : coverable site user id with
  | error f =>
    rw [hCover] at hAnswer
    cases hAnswer
  | ok b =>
    rw [hCover] at hAnswer
    cases hAnswer
    exact ⟨rfl, trivial⟩

/-- Where nothing more is stripped, the fuel does not matter. -/
theorem stripNegations_stop (hNone : stripped? site (user, value) = none) (f f' : Nat) :
    Alike site site.graph (fun _ => True) (stripNegations (f' + 1) user value k)
      (stripNegations (f + 1) user value k) fun _ => True := by
  rw [stripNegations, stripNegations]
  refine (canCover_alike site).bind ?_
  intro covered hCover
  split
  · exact .pure trivial
  · next hCovered =>
    refine .read ((Alike.lookup rfl).bind ?_)
    intro op hOp
    split
    · exact .pure trivial
    · next hEqual =>
      refine (Alike.lookup rfl).bind ?_
      intro m hm
      split
      · exact .pure trivial
      · next hZero =>
        -- All that is asked for holds, so the negation would be stripped.
        have hSome : stripped? site (user, value) = some (value, m.left.id) := by
          simp [stripped?, hCover, hOp, hm, of_not_not hEqual, by simpa using hCovered,
            by simpa using hZero]
        cases hNone.symm.trans hSome

/-- Where a negation is stripped, the walk goes on behind it with less fuel. -/
theorem stripNegations_step {p : NodeId × NodeId} (hNext : stripped? site (user, value) = some p)
    (f : Nat) (s : State) :
    stripNegations (f + 1) user value k site s = stripNegations f p.1 p.2 k.negate site s := by
  obtain ⟨m, hCover, hOp, hBinary, hZero, rfl⟩ := stripped?_eq_some hNext
  have hCan : canCover user value site s = .ok (true, s) := by
    rw [canCover_eq, hCover]
    rfl
  have hRead : (read : Select Site) site s = .ok (site, s) := rfl
  rw [stripNegations, run_bind hCan, if_neg (by decide), run_bind hRead]
  dsimp only
  rw [hOp, liftM_ok_bind, if_neg (by decide), hBinary, liftM_ok_bind, hZero, if_neg (by decide)]

/-- Stripping negations is a walk along the values. -/
theorem stripNegations_follows (site : Site) :
    Follows (stripped? site)
      (fun fuel p k s => stripNegations fuel p.1 p.2 k site s) (fun _ _ => .error .endless) where
  zero := fun _ => rfl
  stop := by
    intro p hNone f f'
    funext k s
    exact (stripNegations_stop hNone f f' s trivial).1
  step := by
    intro p q hNext
    refine ⟨fun rest k s => rest k.negate s, rfl, ?_⟩
    intro f
    funext k s
    exact stripNegations_step hNext f s

/-- The walk along negations stays in the graph, and a value is stripped once. -/
theorem stripNegations_fuel {f f' : Nat} (hf : site.graph.size < f) (hf' : site.graph.size < f')
    (s : State) : stripNegations f user value k site s = stripNegations f' user value k site s := by
  have hFuel : (fun k s => stripNegations f user value k site s) =
      fun k s => stripNegations f' user value k site s :=
    (stripNegations_follows site).fuel_irrelevant Prod.snd site.graph.ids ?_ ?_
      (by rwa [Graph.card_ids]) (by rwa [Graph.card_ids]) (user, value)
  · exact congrFun (congrFun hFuel k) s
  -- The walk goes by its value alone: the user decides whether it goes on, not where to.
  · intro p q hNext
    obtain ⟨m, -, hOp, -⟩ := stripped?_eq_some hNext
    obtain ⟨n, hn, -⟩ := Graph.op_eq_ok.mp hOp
    exact Graph.mem_ids hn
  · rintro ⟨u, v⟩ ⟨u', v'⟩ q q' hNext hNext' (rfl : v = v')
    obtain ⟨m, -, -, hBinary, -, rfl⟩ := stripped?_eq_some hNext
    obtain ⟨m', -, -, hBinary', -, rfl⟩ := stripped?_eq_some hNext'
    cases hBinary.symm.trans hBinary'
    rfl

/-- What is left after stripping is a member, used by a member. -/
theorem stripNegations_alike (h : Twin A J site g') (hUser : A user) (hValue : A value)
    (hk : k.Within A) (fuel : Nat) :
    Alike site g' J (stripNegations fuel user value k) (stripNegations fuel user value k) fun p =>
      A p.1 ∧ A p.2.1 ∧ p.2.2.Within A := by
  -- induction on the fuel, with one comparison stripped at each step
  induction fuel generalizing user value k with
  | zero => exact .throw _
  | succ fuel ih =>
    rw [stripNegations]
    refine (h.canCover_steady hValue).bind fun covered => ?_
    split
    · exact .pure ⟨hUser, hValue, hk⟩
    · refine .read ((Alike.lookup (h.op hValue)).bind ?_)
      intro op _
      split
      · exact .pure ⟨hUser, hValue, hk⟩
      · refine (h.binary_alike hValue).bind ?_
        rintro m ⟨hLeft, -⟩
        split
        · exact .pure ⟨hUser, hValue, hk⟩
        · exact ih hValue hLeft hk.negate

/-! ## Values compared with zero -/

/-- The flags of a value are those of a comparison, of an operation or of a test. -/
theorem coverFlags_steady (h : Twin A J site g') (hValue : A value) (hk : k.Within A) :
    Steady site g' J (coverFlags value k) := by
  unfold coverFlags
  refine .read ((Alike.lookup (h.op hValue)).bind ?_)
  intro op _
  -- A comparison keeps its own condition; the others compare with zero.
  split
  · exact h.emitComparison_steady hValue (hk.overwrite _) _
  · split
    · exact h.coverCompare_steady hValue hk _ _
    · split
      · refine (h.fusedOverflow?_alike hValue).bind ?_
        intro fused hFused
        split
        · exact h.coverBinary_steady (hFused _ _ rfl) (hk.overwrite _) _ _
        · exact h.coverTest_steady hValue hk
      · exact h.coverBinary_steady hValue hk _ _
      · exact h.coverShift_steady hValue hk
      · exact h.coverShift_steady hValue hk
      · exact h.coverShift_steady hValue hk
      · exact h.coverShift_steady hValue hk
      · exact h.coverTest_steady hValue hk

/-- A comparison with zero, once its negations are stripped. -/
theorem coverCompareZero_steady (h : Twin A J site g') (hUser : A user) (hValue : A value)
    (hk : k.Within A) : Steady site g' J (coverCompareZero user value k) := by
  unfold coverCompareZero
  refine .read ?_
  -- The fuel is the number of nodes, which may be greater in the other graph.
  refine Alike.bind (P := fun p => A p.1 ∧ A p.2.1 ∧ p.2.2.Within A) ?_ ?_
  · intro s hs
    obtain ⟨hSame, hPost⟩ := h.stripNegations_alike hUser hValue hk (g'.size + 1) s hs
    have hFuel : stripNegations (g'.size + 1) user value k site s =
        stripNegations (site.graph.size + 1) user value k site s :=
      stripNegations_fuel (Nat.lt_succ_of_le h.size) (Nat.lt_succ_self _) s
    rw [hFuel] at hSame hPost
    exact ⟨hSame, hPost⟩
  · rintro ⟨user, value, k⟩ ⟨hUser, hValue, hk⟩
    refine (h.canCover_steady hValue).bind fun covered => ?_
    split
    · exact h.coverFlags_steady hValue hk
    · exact h.coverTest_steady hValue hk

/-- A comparison whose word is wanted names its own node. -/
theorem coverComparison_steady (h : Twin A J site g') (hId : A id) (c : Comparison) :
    Steady site g' J (coverComparison id c) :=
  h.emitComparison_steady hId (.result hId _) c

/-- An equation with zero is a negation, another one a comparison. -/
theorem coverEqual_steady (h : Twin A J site g') (hId : A id) :
    Steady site g' J (coverEqual id) := by
  unfold coverEqual
  refine .read ((h.binary_alike hId).bind ?_)
  rintro m ⟨hLeft, -⟩
  split
  · exact h.coverCompareZero_steady hId hLeft (.result hId _)
  · exact h.coverCompare_steady hId (.result hId _) _ _

/-- An operation with overflow names its flag, if that has a place. -/
theorem coverOverflow_steady (h : Twin A J site g') (hId : A id) (direct reverse : Opcode) :
    Steady site g' J (coverOverflow id direct reverse) := by
  unfold coverOverflow
  refine .read ?_
  rcases h.projection 1 hId with ⟨hSame, hMember⟩ | ⟨p, uses, hOld, hNew, hNonneg, hIdle, -⟩
  · refine (Alike.lookup hSame).bind ?_
    intro flag hFlag
    refine h.coverBinary_steady hId ?_ _ _
    split
    · next hPlaced => exact .result (hMember flag hFlag hPlaced.1) _
    · exact .unused A
  · -- The flag of the other graph has no place, so it is not asked for.
    have hNone : ¬(0 ≤ (-1 : NodeId) ∧ (site.schedule.blockOf (-1)).isSome) :=
      fun hFlag => absurd hFlag.1 (by decide)
    rw [hOld, liftM_ok_bind, hNew, liftM_ok_bind, if_neg hNone, if_neg (by simp [hIdle])]
    exact h.coverBinary_steady hId (.unused A) _ _

/-- A branch compares its condition with zero. -/
theorem coverBranch_steady (h : Twin A J site g') (hId : A id) (t f : Nat) :
    Steady site g' J (coverBranch id t f) := by
  unfold coverBranch
  refine .read ((h.valueIn_alike hId 0).bind fun x hx => ?_)
  exact h.coverCompareZero_steady hId hx (.branch A _ _ _)

/-! ## Nodes -/

/-- The parameters go where the linkage sends them. -/
theorem assignParameters_steady (h : Twin A J site g') {l : List (NodeId × Node)}
    (hl : ∀ p ∈ l, A p.1) (linkage : Linkage) : Steady site g' J (assignParameters linkage l) := by
  induction l generalizing linkage with
  | nil => exact Alike.pure trivial
  | cons p rest ih =>
    obtain ⟨id, n⟩ := p
    have hId : A id := hl (id, n) List.mem_cons_self
    unfold assignParameters
    refine (h.vreg_steady hId).bind fun v => ?_
    refine Steady.bind (h.modify_steady (fun _ => rfl) (fun _ => rfl) fun _ => Nat.le_refl _) ?_
    intro _
    exact ih (fun q hq => hl q (List.mem_cons_of_mem _ hq)) _

/-- A parameter defines its register where it was assigned. -/
theorem coverParameter_steady (h : Twin A J site g') (hId : A id) :
    Steady site g' J (coverParameter id) := by
  unfold coverParameter
  refine Steady.get.bind fun s => ?_
  split
  · exact .throw _
  · refine (h.markDefined_steady id).bind fun _ => ?_
    refine (h.vreg_steady hId).bind fun _ => ?_
    exact (h.markRep_steady hId).bind fun _ => h.emit_steady _

/-- The registers of several members. -/
theorem useAll_steady (h : Twin A J site g') {l : List NodeId} (hl : ∀ x ∈ l, A x) :
    Steady site g' J (l.mapM fun x => do
      Selection.markUsed x
      return ((← Selection.vreg x : Nat) : Int)) := by
  induction l with
  | nil => exact Alike.pure trivial
  | cons x rest ih =>
    rw [List.mapM_cons]
    refine Steady.bind ?_ fun v => ?_
    · refine (h.markUsed_steady x).bind fun _ => ?_
      exact (h.vreg_steady (hl x List.mem_cons_self)).bind fun _ => .pure trivial
    · exact (ih fun y hy => hl y (List.mem_cons_of_mem _ hy)).bind fun _ => .pure trivial

/-- A phi uses all that its arms bring, and defines its own register. -/
theorem coverPhi_steady (h : Twin A J site g') (hId : A id) : Steady site g' J (coverPhi id) := by
  unfold coverPhi
  refine .read ((Alike.lookup (h.node hId)).bind ?_)
  intro n hn
  refine (h.vreg_steady hId).bind fun out => ?_
  refine (Alike.lookup rfl).bind ?_
  intro l hl
  -- What the arms bring are inputs, so members.
  have hInputs : ∀ x ∈ l, A x := by
    intro x hx
    rw [Node.valueInputs_eq_ok hl] at hx
    exact h.ofFeeds hId ⟨n, Graph.node_eq_ok.mp hn, hx⟩
  refine (h.useAll_steady hInputs).bind fun inputs => ?_
  refine (h.markDefined_steady id).bind fun _ => ?_
  refine (h.markRep_steady hId).bind fun _ => ?_
  exact h.modify_steady (fun _ => rfl) (fun _ => rfl) fun _ => Nat.le_refl _

/-- A projection marks its operation as used. -/
theorem coverProjection_steady (h : Twin A J site g') (hId : A id) :
    Steady site g' J (coverProjection id) := by
  unfold coverProjection
  refine .read ((h.valueIn_alike hId 0).bind fun x hx => ?_)
  refine (Alike.lookup (h.op hx)).bind ?_
  intro op _
  dsimp only
  split
  · exact .throw_bind _
  · exact h.markUsed_steady x

/-- The rules for words. -/
theorem coverWord32_steady (h : Twin A J site g') (hId : A id) (op : Word32Op) :
    Steady site g' J (coverWord32 id op) := by
  cases op with
  | and => exact h.coverAnd_steady hId
  | or => exact h.coverBinary_steady hId (.unused A) _ _
  | xor => exact h.coverXor_steady hId
  | shl => exact h.coverShift_steady hId (.unused A)
  | sar => exact h.coverShift_steady hId (.unused A)
  | ror => exact h.coverShift_steady hId (.unused A)
  | shr => exact h.coverShr_steady hId
  | equal => exact h.coverEqual_steady hId

/-- The rules for integers. -/
theorem coverInt32_steady (h : Twin A J site g') (hId : A id) (op : Int32Op) :
    Steady site g' J (coverInt32 id op) := by
  cases op with
  | add => exact h.coverAdd_steady hId
  | addWithOverflow => exact h.coverOverflow_steady hId _ _
  | sub => exact h.coverSub_steady hId
  | subWithOverflow => exact h.coverOverflow_steady hId _ _
  | mul => exact h.coverMul_steady hId
  | div => exact h.coverDivision_steady hId _
  | udiv => exact h.coverDivision_steady hId _
  | mod => exact h.coverRemainder_steady hId _
  | umod => exact h.coverRemainder_steady hId _
  | lessThan => exact h.coverComparison_steady hId _
  | lessThanOrEqual => exact h.coverComparison_steady hId _
  | unsignedLessThan => exact h.coverComparison_steady hId _
  | unsignedLessThanOrEqual => exact h.coverComparison_steady hId _

/-- The rules for doubles. -/
theorem coverFloat64_steady (h : Twin A J site g') (hId : A id) (op : Float64Op) :
    Steady site g' J (coverFloat64 id op) := by
  cases op with
  | add => exact h.coverDoubleAdd_steady hId
  | sub => exact h.coverDoubleSub_steady hId
  | mul => exact h.coverDoubles_steady hId _
  | div => exact h.coverDoubles_steady hId _
  | equal => exact h.coverComparison_steady hId _
  | lessThan => exact h.coverComparison_steady hId _
  | lessThanOrEqual => exact h.coverComparison_steady hId _

/-- The rule for a node. -/
theorem coverNode_steady (h : Twin A J site g') (hId : A id) :
    Steady site g' J (coverNode id) := by
  unfold coverNode
  refine .read ((Alike.lookup (h.op hId)).bind ?_)
  intro op _
  cases op with
  | parameter => exact h.coverParameter_steady hId
  | phi => exact h.coverPhi_steady hId
  | projection => exact h.coverProjection_steady hId
  | finish => exact (h.valueIn_alike hId 0).bind fun x _ => h.markUsed_steady x
  | call => exact h.coverCall_steady hId
  | load => exact h.coverLoad_steady hId
  | store => exact h.coverStore_steady hId
  | word32 op => exact h.coverWord32_steady hId op
  | int32 op => exact h.coverInt32_steady hId op
  | convert c =>
    dsimp only
    split
    · exact h.coverUnary_steady hId _
    · exact .throw _
  | float64 op => exact h.coverFloat64_steady hId op
  -- these write nothing, and the last ones are refused in either graph
  | start | exit | dead | merge | ifTrue | ifFalse | effectPhi | valueEffect | controlEffect
  | constant _ => exact .pure trivial
  | invalid | branch | ret | change _ | stringAdd | word64 _ | unassigned _ => exact .throw _

/-! ## Blocks -/

/-- The return uses its value where the linkage expects it. -/
theorem coverReturn_steady (h : Twin A J site g') (hId : A id) :
    Steady site g' J (coverReturn id) := by
  unfold coverReturn
  refine .read ((h.valueIn_alike hId 0).bind fun x hx => ?_)
  refine (h.useAt_steady hx _).bind fun _ => ?_
  refine (h.isDouble_steady hx).bind fun double => ?_
  -- A double is asked for again, where the linkage returns doubles.
  split
  · exact (h.useAt_steady hx _).bind fun _ => h.emit_steady _
  · exact Alike.bind (P := fun _ => True) (.pure trivial) fun _ _ => h.emit_steady _

/-- The rule for the end of a block. -/
theorem coverControl_steady (h : Twin A J site g') {b : Nat} {block : Block}
    (hBlock : site.schedule.blocks[b]? = some block) : Steady site g' J (coverControl b block) := by
  unfold coverControl
  refine .read ?_
  dsimp only
  split
  · split
    · exact h.emit_steady _
    · refine (Alike.lookup (h.op (h.head hBlock))).bind ?_
      intro op _
      exact .throw _
  · -- The targets are looked up before the condition is covered.
    next hKind =>
    have hControl := h.ended hBlock (.inl hKind)
    refine (Alike.lookup (h.targets hBlock hKind)).bind ?_
    rintro ⟨t, f⟩ _
    exact h.coverBranch_steady hControl t f
  · next hKind => exact h.coverReturn_steady (h.ended hBlock (.inr hKind))
  · refine (Alike.lookup (h.op (h.head hBlock))).bind ?_
    intro op _
    exact .throw _

/-- The graphs answer alike wherever in the schedule they are asked. -/
theorem move (h : Twin A J site g') (b : Nat) (hId : 0 ≤ id → A id) :
    Twin A J { site with block := b, node := id } g' :=
  { h with here := hId }

/-- A segment of a block, covered at its own place. -/
theorem segmentOf_steady (h : Twin A J site g') {b : Nat} {cover : Select Unit}
    (hCover : Steady { site with block := b, node := id } g' J cover) :
    Steady site g' J (segmentOf b id cover) := by
  unfold segmentOf
  refine Steady.bind (h.modify_steady (fun _ => rfl) (fun _ => rfl) fun _ => Nat.le_refl _) ?_
  intro _
  refine Steady.bind (.withReader rfl hCover) fun _ => ?_
  exact Steady.get.bind fun _ => .pure trivial

/-- The nodes of a block, from the last one. -/
theorem coverNodes_steady (h : Twin A J site g') {l : List NodeId} (hl : ∀ x ∈ l, A x) (b : Nat)
    (code : List Instr) : Steady site g' J (coverNodes b l code) := by
  induction l generalizing code with
  | nil => exact Alike.pure trivial
  | cons id rest ih =>
    have hId := hl id List.mem_cons_self
    have hRest : ∀ x ∈ rest, A x := fun x hx => hl x (List.mem_cons_of_mem _ hx)
    -- Whether a node is covered is read off the state, which is the same over both graphs.
    unfold coverNodes
    refine (h.isUsed_steady hId).bind fun used => ?_
    refine Steady.get.bind fun s => ?_
    split
    · refine Steady.bind ?_ fun segment => ih hRest _
      exact h.segmentOf_steady ((h.move b fun _ => hId).coverNode_steady hId)
    · exact ih hRest _

/-- A block: its end first, then its nodes. -/
theorem coverBlock_steady (h : Twin A J site g') {b : Nat} {block : Block}
    (hBlock : site.schedule.blocks[b]? = some block) : Steady site g' J (coverBlock b block) := by
  unfold coverBlock
  refine Steady.bind (h.modify_steady (fun _ => rfl) (fun _ => rfl) fun _ => Nat.le_refl _) ?_
  intro _
  refine Steady.bind ?_ fun last => ?_
  · exact h.segmentOf_steady ((h.move b (h.control hBlock)).coverControl_steady hBlock)
  · refine Steady.bind ?_ fun code => Steady.get.bind fun _ => .pure trivial
    exact h.coverNodes_steady (fun x hx => h.listed hBlock (List.mem_reverse.mp hx)) b last

/-- Several blocks of the schedule. -/
theorem coverBlocks_steady (h : Twin A J site g') {l : List (Block × Nat)}
    (hl : ∀ p ∈ l, site.schedule.blocks[p.2]? = some p.1) (done : List Covered) :
    Steady site g' J (coverBlocks l done) := by
  induction l generalizing done with
  | nil => exact Alike.pure trivial
  | cons p rest ih =>
    obtain ⟨block, b⟩ := p
    unfold coverBlocks
    refine (h.coverBlock_steady (hl (block, b) List.mem_cons_self)).bind fun covered => ?_
    exact ih (fun q hq => hl q (List.mem_cons_of_mem _ hq)) _

/-- A whole run. -/
theorem coverAll_steady (h : Twin A J site g') : Steady site g' J coverAll := by
  unfold coverAll
  refine .read ?_
  show Alike site g' J
    (assignParameters {} (Selection.parameters site.graph) >>= _)
    (assignParameters {} (Selection.parameters g') >>= _) _
  rw [h.parameters]
  refine (h.assignParameters_steady (fun p hp => h.parameter hp) {}).bind fun _ => ?_
  refine h.coverBlocks_steady ?_ []
  rintro ⟨block, b⟩ hMem
  rw [← Array.getElem?_toList]
  exact List.mem_zipIdx_iff_getElem?.mp (List.mem_reverse.mp hMem)

end ArmBackend.Selection.Twin
