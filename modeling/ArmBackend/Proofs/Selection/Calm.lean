import ArmBackend.Proofs.Selection.Emits
import ArmBackend.Proofs.Selection.Rules.Nodes

/-!
# Rules that touch no memory

Loads, stores and calls are the effects of a program, and each is selected as one instruction. All
other nodes, and the ends of blocks, are covered by instructions without effect. This has to be said
of every rule, because a rule also decides which nodes it computes on its way: none of these is an
effect, so an effect is never taken for computed before the walk comes to it.

A step is calm when it stays in the scope of nodes and opcodes without effect.

## Results

* `coverWord32_calm`, `coverInt32_calm`, `coverFloat64_calm`, `coverBranch_calm` — the rules of
  values are calm.
* `coverNode_calm`, `coverControl_calm` — nodes without effect and ends of blocks are calm.
-/

namespace ArmBackend

/-- Whether a node of this operator touches memory or leaves the function. -/
def Operator.isEffectful : Operator → Bool
  | .load | .store | .call => true
  | _ => false

/-- Whether an instruction touches memory or leaves the function. -/
def Opcode.isEffectful : Opcode → Bool
  | .ldrb | .ldrsb | .strb | .ldrh | .ldrsh | .strh | .ldr | .str | .vldr | .vstr
  | .storeWriteBarrier | .call => true
  | _ => false

/-- Whether a node touches memory or leaves the function. -/
def Graph.isEffectful (g : Graph) (id : NodeId) : Bool :=
  (g.node? id).any fun n => n.op.isEffectful

/-- No effect takes a flexible operand. -/
theorem Opcode.IsFlexible.plain {op : Opcode} {lead : Nat} (h : op.IsFlexible lead) :
    op.isEffectful = false := by
  obtain ⟨outputs, h⟩ := h
  cases op with
  | ldrb | ldrsb | strb | ldrh | ldrsh | strh | ldr | str | vldr | vstr | storeWriteBarrier =>
    cases h
  | call => cases h
  | _ => rfl

/-- Whether a node is an effect depends on its operator alone. -/
theorem Graph.isEffectful_of_op {g : Graph} {id : NodeId} {op : Operator} (h : g.HasOp id op) :
    g.isEffectful id = op.isEffectful := by
  obtain ⟨n, hn, rfl⟩ := h
  unfold isEffectful
  rw [hn]
  rfl

namespace Selection

variable {α β : Type} {site : Site} {s s' : State} {id u : NodeId} {k : Continuation}
  {l : List Operand}

/-- Nodes and opcodes without effect. -/
abbrev Scope.calm (g : Graph) : Scope g :=
  .anyOutput g (fun x => g.isEffectful x = false) fun op => op.isEffectful = false

/-- A step that neither emits an effect nor computes the node of one. -/
abbrev Calm (site : Site) (l : List Operand) (m : Select α) : Prop :=
  Emits site (.calm site.graph) l m fun _ => []

/-- Whether the flags of a continuation are no effect: they are that of no node, or of one without
effect. -/
abbrev Continuation.IsPlain (g : Graph) (k : Continuation) : Prop :=
  (Scope.calm g).Flags k

/-- Whether the instructions of a division are no effects. -/
abbrev DivisionOps.IsPlain (g : Graph) (ops : DivisionOps) : Prop :=
  (Scope.calm g).Divides ops

/-! ## Comparisons and tests -/

/-- A comparison is calm in each of its three forms. -/
theorem coverCompare_calm {op : Opcode} (hOp : op.isEffectful = false)
    (hk : k.IsPlain site.graph) (commutative : Bool) :
    Calm site l (coverCompare id op k commutative) := by
  have hTurned : (if commutative then k else k.commute).IsPlain site.graph := by
    cases commutative <;> exact hk
  unfold coverCompare
  -- a flexible operand on the right, then one on the left with the condition turned round
  refine .read (.look fun m _ => (tryOperand2_emits _ _).bind fun right => ?_)
  split
  · exact (useRegister_emits _).bind fun left => emitFlags_emits hOp _ hk (by simp) _
  · refine (tryOperand2_emits _ _).bind fun left => ?_
    split
    · exact (useRegister_emits _).bind fun right => emitFlags_emits hOp _ hTurned (by simp) _
    · refine (useRegister_emits _).bind fun left => (useRegister_emits _).bind fun right => ?_
      exact emitFlags_emits hOp _ hk (by simp) _

/-- A test of a value is calm. -/
theorem coverTest_calm (hk : k.IsPlain site.graph) : Calm site l (coverTest id k) :=
  (useRegister_emits _).bind fun _ => emitFlags_emits rfl _ hk (by simp) _

/-! ## Words and integers -/

/-- A bit field is taken out without effect, however the position of its lowest bit is given. -/
theorem coverExtract_calm (hId : site.graph.isEffectful id = false) {base : NodeId}
    {lsb : Select Operand} (hLsb : ∀ l, Calm site l lsb) (width : Nat) :
    Calm site l (coverExtract id base lsb width) := by
  unfold coverExtract
  refine (define_emits hId).bind fun out => (useRegister_emits _).bind fun x => ?_
  exact (hLsb _).bind fun low => (immediate_emits _).bind fun count => emit_emits rfl (by simp)

/-- A mask of low bits takes a shift below it in. -/
theorem coverLowMask_calm (hId : site.graph.isEffectful id = false) (left : Int32Match)
    (width : Nat) : Calm site l (coverLowMask id left width) := by
  have hWhole : Calm site l (coverExtract id left.id (immediate 0) width) :=
    coverExtract_calm hId (fun _ => immediate_emits _) width
  unfold coverLowMask
  refine .read ?_
  dsimp only
  split
  · refine .look fun shifted _ => ?_
    split
    · exact (coverExtract_calm hId (fun _ => useImmediate_emits _) _).bind fun _ => .pure _ nofun
    · exact hWhole
  · exact hWhole

/-- A mask is a field that is taken out or cleared, or is left to the general rule. -/
theorem coverMask_calm (hId : site.graph.isEffectful id = false) (left : Int32Match)
    (mask : BitVec 32) : Calm site l (coverMask id left mask) := by
  unfold coverMask
  dsimp only
  split
  · exact (coverLowMask_calm hId left _).bind fun _ => .pure _ nofun
  · split
    · refine (defineAt_emits hId _).bind fun out => (useRegister_emits _).bind fun x => ?_
      refine (immediate_emits _).bind fun low => (immediate_emits _).bind fun count => ?_
      refine Emits.bind (R := fun _ => []) (emit_emits rfl (by simp)) fun _ => .pure _ nofun
    · exact .pure _ nofun

/-- A look for a complement that may be taken in changes nothing. -/
theorem coveredComplement?_calm (user u : NodeId) :
    Calm site l (coveredComplement? user u) := by
  unfold coveredComplement?
  refine .read (.look fun x? _ => ?_)
  split
  · exact (canCover_emits _).bind fun covers => .pure _ nofun
  · exact .pure _ nofun

/-- A conjunction is a clear, a bit field or a plain operation. -/
theorem coverAnd_calm (hId : site.graph.isEffectful id = false) : Calm site l (coverAnd id) := by
  have hPlain : ∀ l, Calm site l (coverBinary id .and .and {}) := fun _ =>
    coverBinary_emits hId rfl rfl nofun
  unfold coverAnd
  -- A complement on the left is looked for first, then one on the right, then a mask.
  refine .read (.look fun m _ => (coveredComplement?_calm _ _).bind fun x? => ?_)
  split
  · exact coverClear_emits hId rfl
  · refine (coveredComplement?_calm _ _).bind fun y? => ?_
    split
    · exact coverClear_emits hId rfl
    · refine (has_emits _).bind fun v7 => ?_
      split
      · split
        · refine (coverMask_calm hId _ _).bind fun done => ?_
          split
          · exact .pure _ nofun
          · exact hPlain _
        · exact hPlain _
      · exact hPlain _

/-- An exclusive or is a complement or a plain operation. -/
theorem coverXor_calm (hId : site.graph.isEffectful id = false) : Calm site l (coverXor id) := by
  unfold coverXor
  refine .read (.look fun m _ => ?_)
  split
  · exact coverBinary_emits hId rfl rfl nofun
  · refine (define_emits hId).bind fun out => (tryShift_emits _).bind fun shifted => ?_
    split
    · exact emit_emits rfl (by simp)
    · exact (useRegister_emits _).bind fun x => emit_emits rfl (by simp)

/-- A shift to the right is a bit field or a plain shift. -/
theorem coverShr_calm (hId : site.graph.isEffectful id = false) : Calm site l (coverShr id) := by
  have hPlain : ∀ l, Calm site l (coverShift id {}) := fun _ => coverShift_emits hId rfl nofun
  unfold coverShr
  refine .read (.look fun m _ => (has_emits _).bind fun v7 => ?_)
  split
  · refine .look fun field _ => ?_
    split
    · exact (coverExtract_calm hId (fun _ => useImmediate_emits _) _).bind fun _ => .pure _ nofun
    · exact hPlain _
  · exact hPlain _

/-- A product with an addend is one instruction. -/
theorem emitMultiply_calm {op : Opcode} (hOp : op.isEffectful = false)
    (hId : site.graph.isEffectful id = false) {product addend : NodeId} :
    Calm site l (emitMultiply op id product addend) := by
  unfold emitMultiply
  refine .read (.look fun m _ => (define_emits hId).bind fun out => ?_)
  refine (useRegister_emits _).bind fun left => (useRegister_emits _).bind fun right => ?_
  exact (useRegister_emits _).bind fun third => emit_emits hOp (by simp)

/-- A look for a product that may be taken in changes nothing. -/
theorem isCoveredProduct_calm (op : Operator) (user : NodeId) (m : Int32Match) :
    Calm site l (isCoveredProduct op user m) := by
  unfold isCoveredProduct
  split
  · exact .pure _ nofun
  · exact canCover_emits _

/-- A sum takes in a product on either side, or none. -/
theorem coverAdd_calm (hId : site.graph.isEffectful id = false) : Calm site l (coverAdd id) := by
  unfold coverAdd
  refine .read (.look fun m _ => (isCoveredProduct_calm _ _ _).bind fun left => ?_)
  split
  · exact emitMultiply_calm rfl hId
  · refine (isCoveredProduct_calm _ _ _).bind fun right => ?_
    split
    · exact emitMultiply_calm rfl hId
    · exact coverBinary_emits hId rfl rfl nofun

/-- Only a product on the right is taken into a difference. -/
theorem coverSub_calm (hId : site.graph.isEffectful id = false) : Calm site l (coverSub id) := by
  have hPlain : ∀ l, Calm site l (coverBinary id .sub .rsb {}) := fun _ =>
    coverBinary_emits hId rfl rfl nofun
  unfold coverSub
  refine .read (.look fun m _ => (has_emits _).bind fun mls => ?_)
  split
  · refine (isCoveredProduct_calm _ _ _).bind fun right => ?_
    split
    · exact (emitMultiply_calm rfl hId).bind fun _ => .pure _ nofun
    · exact hPlain _
  · exact hPlain _

/-- A product by a number next to a power of two is a flexible operation, so it is no effect either.
-/
theorem coverMul_calm (hId : site.graph.isEffectful id = false) : Calm site l (coverMul id) :=
  coverMul_emits hId rfl fun hSum => (shiftedSum?_flexible hSum).1.plain

/-! ## Conditions -/

/-- A comparison of words or doubles is calm. -/
theorem emitComparison_calm (c : Comparison) (hk : k.IsPlain site.graph) :
    Calm site l (emitComparison c id k) := by
  unfold emitComparison
  split
  · exact coverCompare_calm rfl hk false
  · exact coverDoubleCompare_emits rfl hk

/-- The flags of a value are those of its operation, or of a test of the value. -/
theorem coverFlags_calm (value : NodeId) (hk : k.IsPlain site.graph) :
    Calm site l (coverFlags value k) := by
  unfold coverFlags
  refine .read (.look fun op hOp => ?_)
  have hPlain : op.isEffectful = false → site.graph.isEffectful value = false := by
    intro h
    rw [Graph.isEffectful_of_op (Graph.op_eq_ok.mp hOp), h]
  split
  · -- a comparison
    exact emitComparison_calm _ hk
  · split
    · -- a sum, a difference or a conjunction, of which only the flags are wanted
      next test hTest =>
      exact coverCompare_calm (testOp?_flexible hTest).plain hk _
    · split
      · -- a projection of an overflow, or any other
        refine .keep (fun _ => fusedOverflow?_ops value k) fun r hr => ?_
        split
        · next x direct reverse =>
          -- The operation that a branch emits has overflow, so it is no effect either.
          obtain ⟨-, operator, hx, hOps⟩ := hr x direct reverse rfl
          obtain ⟨hDirect, hReverse⟩ := overflowOps?_flexible hOps
          refine coverBinary_emits ?_ hDirect.plain hReverse.plain hk
          show site.graph.isEffectful x = false
          rw [Graph.isEffectful_of_op hx]
          unfold overflowOps? at hOps
          split at hOps <;> first | rfl | cases hOps
        · exact coverTest_calm hk
      · -- operations that set the flags of their value
        exact coverBinary_emits (hPlain rfl) rfl rfl hk
      · exact coverShift_emits (hPlain rfl) rfl hk
      · exact coverShift_emits (hPlain rfl) rfl hk
      · exact coverShift_emits (hPlain rfl) rfl hk
      · exact coverShift_emits (hPlain rfl) rfl hk
      · -- nothing known of the value: it is tested
        exact coverTest_calm hk

/-- Negations in front of a comparison with zero are taken off. -/
theorem coverCompareZero_calm {value : NodeId} (hFeeds : site.graph.Feeds u value)
    (hk : k.IsPlain site.graph) : Calm site l (coverCompareZero u value k) := by
  unfold coverCompareZero
  refine .read (.keep (fun _ => stripNegations_ensures hFeeds) fun r hr => ?_)
  obtain ⟨-, -, hUse⟩ := hr
  have hStripped : r.2.2.IsPlain site.graph := by
    unfold Continuation.IsPlain Scope.Flags
    rw [hUse]
    exact hk
  refine (canCover_emits _).bind fun covers => ?_
  split
  · exact coverFlags_calm _ hStripped
  · exact coverTest_calm hStripped

/-- The flags of a node without effect are no effect. -/
theorem Continuation.isPlain_result {g : Graph} (hId : g.isEffectful id = false) (cond : Cond) :
    (Continuation.result cond id).IsPlain g := by
  rintro _ ⟨⟩
  exact hId

/-- An equality with zero looks for the flags of the other operand. -/
theorem coverEqual_calm (hId : site.graph.isEffectful id = false) : Calm site l (coverEqual id) := by
  have hk := Continuation.isPlain_result hId .eq
  unfold coverEqual
  refine .read (.look fun m hm => ?_)
  split
  · exact coverCompareZero_calm (Graph.binary_feeds hm).1.1 hk
  · exact coverCompare_calm rfl hk false

/-- The flag of an operation with overflow is the value of a projection, which is no effect. -/
theorem coverOverflow_calm (hId : site.graph.isEffectful id = false) {direct reverse : Opcode}
    (hDirect : direct.isEffectful = false) (hReverse : reverse.isEffectful = false) :
    Calm site l (coverOverflow id direct reverse) := by
  unfold coverOverflow
  refine .read (.look fun flag hFlag => ?_)
  refine coverBinary_emits hId hDirect hReverse ?_
  split
  · next hFound =>
    obtain ⟨n, hn, hOp, -⟩ := (Graph.findProjection_eq_ok hFlag).1 hFound.1
    refine Continuation.isPlain_result ?_ .vs
    rw [Graph.isEffectful_of_op ⟨n, hn, hOp⟩]
    rfl
  · exact nofun

/-- The flags that a branch asks for are those of no node. -/
theorem coverBranch_calm (t f : Nat) : Calm site l (coverBranch id t f) := by
  unfold coverBranch
  exact .read (.look fun x hx => coverCompareZero_calm (Graph.valueIn_feeds hx) nofun)

/-! ## Nodes without effect and ends of blocks -/

/-- Every operator on words is calm. -/
theorem coverWord32_calm (hId : site.graph.isEffectful id = false) (w : Word32Op) :
    Calm site l (coverWord32 id w) := by
  cases w with
  | and => exact coverAnd_calm hId
  | or => exact coverBinary_emits hId rfl rfl nofun
  | xor => exact coverXor_calm hId
  | shl | sar | ror => exact coverShift_emits hId rfl nofun
  | shr => exact coverShr_calm hId
  | equal => exact coverEqual_calm hId

/-- Every operator on integers is calm. -/
theorem coverInt32_calm (hId : site.graph.isEffectful id = false) (i : Int32Op) :
    Calm site l (coverInt32 id i) := by
  have hCompare : ∀ c : Comparison, Calm site l (coverComparison id c) := fun c =>
    emitComparison_calm c (Continuation.isPlain_result hId c.cond)
  cases i with
  | add => exact coverAdd_calm hId
  | addWithOverflow | subWithOverflow => exact coverOverflow_calm hId rfl rfl
  | sub => exact coverSub_calm hId
  | mul => exact coverMul_calm hId
  | div | udiv => exact coverDivision_emits hId ⟨rfl, rfl, rfl, rfl⟩
  | mod | umod => exact coverRemainder_emits hId ⟨rfl, rfl, rfl, rfl⟩ rfl rfl rfl
  | lessThan | lessThanOrEqual | unsignedLessThan | unsignedLessThanOrEqual => exact hCompare _

/-- Every operator on doubles is calm. -/
theorem coverFloat64_calm (hId : site.graph.isEffectful id = false) (f : Float64Op) :
    Calm site l (coverFloat64 id f) := by
  have hCompare : ∀ c : Comparison, Calm site l (coverComparison id c) := fun c =>
    emitComparison_calm c (Continuation.isPlain_result hId c.cond)
  cases f with
  | add => exact coverDoubleAdd_emits hId rfl rfl
  | sub => exact coverDoubleSub_emits hId rfl rfl
  | mul | div => exact coverDoubles_emits hId rfl
  | equal | lessThan | lessThanOrEqual => exact hCompare _

/-- No conversion is an effect. -/
theorem conversionOp?_plain {c : Conversion} {op : Opcode} (h : conversionOp? c = some op) :
    op.isEffectful = false := by
  unfold conversionOp? at h
  split at h <;> cases h <;> rfl

/-- A node without effect is covered by instructions without effect. -/
theorem coverNode_calm (hId : site.graph.isEffectful id = false) (hs : s.Sound) :
    Ensures site s (coverNode id) fun _ s' => (Scope.calm site.graph).Adds s s' := by
  have hCalm : ∀ {m : Select Unit}, Calm site [] m →
      Ensures site s m fun _ s' => (Scope.calm site.graph).Adds s s' := fun h => h.adds hs
  unfold coverNode
  simp only [ensures_bind, ensures_read, ensures_lift]
  intro op hOp
  have hPlain : op.isEffectful = false := by
    rw [← Graph.isEffectful_of_op (Graph.op_eq_ok.mp hOp), hId]
  cases op with
  | start | exit | dead | merge | ifTrue | ifFalse | effectPhi | valueEffect | controlEffect =>
    exact hCalm (.pure _ nofun)
  | constant kind => exact hCalm (.pure _ nofun)
  | parameter => exact coverParameter_emits hId rfl hs fun _ _ => trivial
  | phi => exact hCalm (coverPhi_emits hId)
  | projection => exact hCalm coverProjection_emits
  | finish => exact hCalm (.look fun x _ => markUsed_emits x)
  | call | load | store => cases hPlain
  | word32 w => exact hCalm (coverWord32_calm hId w)
  | int32 i => exact hCalm (coverInt32_calm hId i)
  | convert c =>
    dsimp only
    split
    · -- a conversion with an instruction of its own
      next code hCode => exact hCalm (coverUnary_emits hId (conversionOp?_plain hCode))
    · exact (ensures_throw _ _).mpr trivial
  | float64 f => exact hCalm (coverFloat64_calm hId f)
  | invalid | branch | ret | stringAdd => exact (ensures_throw _ _).mpr trivial
  | change c => exact (ensures_throw _ _).mpr trivial
  | word64 w => exact (ensures_throw _ _).mpr trivial
  | unassigned code => exact (ensures_throw _ _).mpr trivial

/-- The end of a block is no effect. -/
theorem coverControl_calm (b : Nat) (block : Block) : Calm site l (coverControl b block) := by
  unfold coverControl
  refine .read ?_
  dsimp only
  split
  · split
    · -- a jump
      exact emit_emits rfl (by simp)
    · exact .look fun op _ => .throw _
  · -- a branch
    exact .look fun p _ => coverBranch_calm p.1 p.2
  · exact coverReturn_emits rfl
  · exact .look fun op _ => .throw _

end Selection
end ArmBackend
