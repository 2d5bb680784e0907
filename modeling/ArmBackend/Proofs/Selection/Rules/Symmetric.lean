import ArmBackend.Proofs.Selection.Parallel

/-!
# The order of the operands

The rules for commutative operators try their patterns on one operand before the other: a complement
or a product that may be taken in, a constant, a shift. Exchanging the operands lets the patterns
find the operands in the other places, but what is emitted has the same outlines, whether the node
is covered by itself or a branch tests it.

Three things carry this. A constant is matched on the right in either order, so only two operands
that are no constants are matched the other way round, and the patterns for constants do not apply
to these. The patterns that take in an operand emit the same opcode for either side. And the
condition that a comparison has for exchanged operands is the condition itself for an equality.

A look at one operand may fail where the look at the other one decides, as for an exclusive or that
has only one operand, so without further assumptions the order decides whether there is code at all.
In a grounded graph it does not.

## Results

* `Exchanged.coverCompareZero_matched` — a value that is compared with zero.
* `Exchanged.coverNode_matched`, `Exchanged.coverNode_agreed` — the node itself.
* `visit_exchange` — the outlines of a visit do not depend on the order.
* `visit_exchange_lopsided` — a graph in which the order decides whether there is code.
-/

namespace ArmBackend

namespace Selection

variable {site : Site} {id l r : NodeId} {m : BinaryMatch} {n : Node} {op : Opcode}
  {k : Continuation}

/-! ## The outlines of the rules that take an operand in -/

/-- The outline of a bitwise and that takes no operand in. -/
def andOutline (features : Features) (m : BinaryMatch) : Outline :=
  if features.has .armv7 then (m.right.value?.bind maskOutline?).getD { op := .and }
  else { op := .and }

/-- The outline of a conjunction follows from what may be taken in, on the left first. -/
theorem coverAnd_outlined (hm : site.graph.binary id = .ok m) :
    Outlined site (coverAnd id) (chosen (clears? site id m.left.id) (clears? site id m.right.id)
      { op := .bic } (andOutline site.features m)) := by
  have hPlain : Writes site (coverBinary id .and .and {}) [{ op := .and }] :=
    coverBinary_writes_self hm .and {}
  unfold coverAnd
  refine .read (.look hm (.ask (coveredComplement?_tells id _) ?_ ?_))
  · intro x? hSome
    obtain ⟨x, rfl⟩ := Option.isSome_iff_exists.mp hSome
    exact (coverClear_writes id _ x).outlined
  · intro x? hNone
    cases x? with
    | some => cases hNone
    | none =>
      refine .ask (coveredComplement?_tells id _) ?_ ?_
      · intro x? hSome
        obtain ⟨x, rfl⟩ := Option.isSome_iff_exists.mp hSome
        exact (coverClear_writes id _ x).outlined
      · intro x? hNone
        cases x? with
        | some => cases hNone
        | none =>
          -- No operand is a complement: what is left depends on the constant on the right alone.
          refine Writes.outlined ?_
          refine .after (P := (· = site.features.has .armv7)) (.read (.pure _)) ?_ ?_
          · rintro s b t ⟨⟩
            rfl
          · rintro b rfl
            unfold andOutline
            split
            · cases m.right.value? with
              | none => exact hPlain
              | some mask => exact coverMask_else_writes hPlain id m.left mask
            · exact hPlain

/-- So does that of a sum. -/
theorem coverAdd_outlined (hm : site.graph.binary id = .ok m) :
    Outlined site (coverAdd id) (chosen (takes? site (.int32 .mul) id m.left.id)
      (takes? site (.int32 .mul) id m.right.id) { op := .mla } { op := .add }) := by
  obtain ⟨hLeft, hRight⟩ := Graph.binary_hasOp hm
  unfold coverAdd
  refine .read (.look hm (.ask (isCoveredProduct_tells _ id hLeft) ?_ ?_))
  · rintro b rfl
    exact (emitMultiply_writes _ _ _ _).outlined
  · rintro b rfl
    refine .ask (isCoveredProduct_tells _ id hRight) ?_ ?_
    · rintro b rfl
      exact (emitMultiply_writes _ _ _ _).outlined
    · rintro b rfl
      exact (coverBinary_writes_self hm .add {}).outlined

/-- So does that of a sum of doubles. -/
theorem coverDoubleAdd_outlined (hn : site.graph.node id = .ok n) (hl : n.input 0 = .ok l)
    (hr : n.input 1 = .ok r) :
    Outlined site (coverDoubleAdd id) (chosen (takes? site (.float64 .mul) id l)
      (takes? site (.float64 .mul) id r) { op := .vmla } { op := .vadd }) := by
  unfold coverDoubleAdd
  refine .read (.look hn (.look hl (.look hr (.ask (isCoveredDoubleProduct_tells id l) ?_ ?_))))
  · rintro b rfl
    exact (emitAccumulate_writes _ _ _ _).outlined
  · rintro b rfl
    refine .ask (isCoveredDoubleProduct_tells id r) ?_ ?_
    · rintro b rfl
      exact (emitAccumulate_writes _ _ _ _).outlined
    · rintro b rfl
      exact (coverDoubles_writes _ _).outlined

/-- A comparison whose condition is the same for exchanged operands. -/
theorem compareWith_self {commutative : Bool} (hk : commutative = true ∨ k.commute = k)
    (g : Graph) : compareWith g m op k commutative = k := by
  unfold compareWith
  split
  · rfl
  · split
    · split
      · rfl
      · next hNot => exact hk.resolve_left hNot
    · rfl

end Selection

namespace Graph.Exchanged

open Selection

variable {site : Site} {g' : Graph} {x y l r : NodeId} {k : Continuation} {op reverse : Opcode}
  {n : Node}

/-! ## Rules over exchanged graphs -/

/-- An instruction for two operands. That of the node itself does not depend on their order. -/
theorem coverBinary_matched (h : site.graph.Exchanged g' x l r) (k : Continuation)
    (hSelf : y = x → reverse = op) :
    Matched site g' (coverBinary y op reverse k) (coverBinary y op reverse k) := by
  refine Matched.of_look (e := fun g => g.binary y) fun m m' hm hm' => ?_
  -- Another node has the same match in both graphs, and the node itself has one instruction.
  have hOp : binaryOp g' m' op reverse = binaryOp site.graph m op reverse := by
    rcases h.binary_cases hm hm' with rfl | ⟨hy, -⟩
    · unfold binaryOp
      simp only [h.fits]
    · rw [hSelf hy, binaryOp_self, binaryOp_self]
  refine .of_writes (coverBinary_writes hm op reverse k) ?_
  rw [← hOp]
  exact coverBinary_writes hm' op reverse k

/-- A comparison of two operands. That of the node itself has a condition that is its own
converse. -/
theorem coverCompare_matched (h : site.graph.Exchanged g' x l r) (op : Opcode)
    {commutative : Bool} (hSelf : y = x → commutative = true ∨ k.commute = k) :
    Matched site g' (coverCompare y op k commutative) (coverCompare y op k commutative) := by
  refine Matched.of_look (e := fun g => g.binary y) fun m m' hm hm' => ?_
  have hWith : compareWith g' m' op k commutative = compareWith site.graph m op k commutative := by
    rcases h.binary_cases hm hm' with rfl | ⟨hy, -⟩
    · unfold compareWith
      simp only [h.fits]
    · rw [compareWith_self (hSelf hy), compareWith_self (hSelf hy)]
  refine .of_writes (coverCompare_writes hm op k commutative) ?_
  rw [← hWith]
  exact coverCompare_writes hm' op k commutative

/-- A test of the same node matches. -/
theorem coverTest_matched (site : Site) (g' : Graph) (y : NodeId) (k : Continuation) :
    Matched site g' (coverTest y k) (coverTest y k) :=
  .of_writes (coverTest_writes y k) (coverTest_writes y k)

/-- A shift has one order. -/
theorem coverShift_matched (site : Site) (g' : Graph) (y : NodeId) (k : Continuation) :
    Matched site g' (coverShift y k) (coverShift y k) :=
  .of_writes (coverShift_writes y k) (coverShift_writes y k)

/-! ## Values compared with zero -/

/-- The operator of the node whose operands are exchanged. -/
theorem commutative (h : site.graph.Exchanged g' x l r) {operator : Operator}
    (hOp : site.graph.HasOp x operator) : operator.isCommutative = true := by
  obtain ⟨n, rest, hn, -, -, hCommutative, -⟩ := h.here
  rw [hOp.unique ⟨n, hn, rfl⟩]
  exact hCommutative

/-- Among the comparisons only equalities are commutative, and these are their own converses. -/
theorem commute_overwrite {operator : Operator} {cond : Cond}
    (hWords : comparison? operator = some (.words cond))
    (hCommutative : operator.isCommutative = true) (k : Continuation) :
    (k.overwrite cond).commute = k.overwrite cond := by
  -- The other comparisons are excluded by `hCommutative`, and equality commutes to itself.
  unfold comparison? at hWords
  split at hWords <;> cases hWords <;> try cases hCommutative
  unfold Continuation.overwrite Continuation.commute
  dsimp only
  split <;> rfl

/-- A sum with overflow has one instruction for both orders. -/
theorem reverse_eq_direct {operator : Operator} {direct reverse : Opcode}
    (hOps : overflowOps? operator = some (direct, reverse))
    (hCommutative : operator.isCommutative = true) : reverse = direct := by
  unfold overflowOps? at hOps
  split at hOps <;> cases hOps
  · rfl
  · cases hCommutative

/-- The flags of a value match, whichever instruction sets them. -/
theorem coverFlags_matched (h : site.graph.Exchanged g' x l r) (y : NodeId) (k : Continuation) :
    Matched site g' (coverFlags y k) (coverFlags y k) := by
  unfold coverFlags
  refine .read (.look (h.op y) fun operator hOp => ?_)
  have hOp := op_eq_ok.mp hOp
  have hSelf : y = x → operator.isCommutative = true := fun hy => h.commutative (hy ▸ hOp)
  split
  · next c hComparison =>
    cases c with
    | words cond =>
      refine h.coverCompare_matched .cmp fun hy => .inr ?_
      exact commute_overwrite hComparison (hSelf hy) k
    | doubles cond =>
      exact .of_writes (coverDoubleCompare_writes y _) (coverDoubleCompare_writes y _)
  · split
    · next test hTest => exact h.coverCompare_matched test fun hy => .inl (hSelf hy)
    · split
      · -- A projection is not the node itself, but the operation it belongs to may be.
        have hApart : y ≠ x := h.ne_of_op hOp rfl
        refine .after (h.fusedOverflow? hApart k)
          (Grounded.fusedOverflow?_operation y k) fun fused hFused => ?_
        split
        · next z direct reverse =>
          obtain ⟨o, hz, hOps⟩ := hFused z direct reverse rfl
          refine h.coverBinary_matched _ fun hy => ?_
          exact reverse_eq_direct hOps (h.commutative (hy ▸ hz))
        · exact coverTest_matched site g' y k
      · exact h.coverBinary_matched k fun _ => rfl
      · exact coverShift_matched site g' y k
      · exact coverShift_matched site g' y k
      · exact coverShift_matched site g' y k
      · exact coverShift_matched site g' y k
      · exact coverTest_matched site g' y k

/-- Stripping negations comes to the same value over both graphs. -/
theorem coverCompareZero_matched (h : site.graph.Exchanged g' x l r) (user y : NodeId)
    (k : Continuation) :
    Matched site g' (coverCompareZero user y k) (coverCompareZero user y k) := by
  unfold coverCompareZero
  refine .read ?_
  show Matched site g' (Selection.stripNegations (site.graph.size + 1) user y k >>= _)
    (Selection.stripNegations (g'.size + 1) user y k >>= _)
  rw [h.size]
  -- The walk along negations ends at the same value, which may be the node itself.
  refine .bind (h.stripNegations _ user y k) ?_
  rintro ⟨user, y, k⟩
  refine .bind (.of_eq (h.canCover user y)) fun covered => ?_
  split
  · exact h.coverFlags_matched y k
  · exact coverTest_matched site g' y k

/-! ## The node itself -/

/-- The two orders of an equation match. -/
theorem coverEqual_matched (h : site.graph.Exchanged g' x l r) :
    Matched site g' (coverEqual x) (coverEqual x) := by
  have hCompare : Matched site g' (coverCompare x .cmp (.result .eq x) false)
      (coverCompare x .cmp (.result .eq x) false) :=
    h.coverCompare_matched .cmp fun _ => .inr rfl
  unfold coverEqual
  refine .read (.looks fun m m' hm hm' => ?_)
  rw [h.right_isConst hm hm']
  split
  · next hZero =>
    rw [h.binary_of_isConst hm hm' hZero]
    exact h.coverCompareZero_matched x m.left.id _
  · exact hCompare

/-- The two orders of an operation with overflow match. -/
theorem coverOverflow_matched (h : site.graph.Exchanged g' x l r) (op : Opcode) :
    Matched site g' (coverOverflow x op op) (coverOverflow x op op) := by
  unfold coverOverflow
  refine .read (.look (h.findProjection x 1) fun flag _ => ?_)
  exact h.coverBinary_matched _ fun _ => rfl

/-- The two orders of an exclusive or match. -/
theorem coverXor_matched (h : site.graph.Exchanged g' x l r) :
    Matched site g' (coverXor x) (coverXor x) := by
  refine Matched.of_look (e := fun g => g.binary x) fun m m' hm hm' => ?_
  refine .of_writes (coverXor_writes hm) ?_
  rw [← h.right_isConst hm hm']
  exact coverXor_writes hm'

/-- The two orders of a product match. -/
theorem coverMul_matched (h : site.graph.Exchanged g' x l r) :
    Matched site g' (coverMul x) (coverMul x) := by
  refine Matched.of_look (e := fun g => g.binary x) fun m m' hm hm' => ?_
  have hOp : productOp m' = productOp m := by
    unfold productOp
    rw [h.right_value hm hm']
  refine .of_writes (coverMul_writes hm) ?_
  rw [← hOp]
  exact coverMul_writes hm'

/-- The two orders of a conjunction match. -/
theorem coverAnd_matched (h : site.graph.Exchanged g' x l r) :
    Matched site g' (coverAnd x) (coverAnd x) := by
  refine Matched.of_look (e := fun g => g.binary x) fun m m' hm hm' => ?_
  refine .of_outlined (coverAnd_outlined hm) (coverAnd_outlined hm') fun o o' ho ho' => ?_
  have hRest : andOutline site.features m' = andOutline site.features m := by
    unfold andOutline
    rw [h.right_value hm hm']
  -- The second rule asks the same questions, in the same order or in the other one.
  simp only [h.clears?, hRest] at ho'
  rcases h.binary_cases hm hm' with rfl | ⟨-, -, -, rfl⟩
  · exact chosen_unique ho (.inl ho')
  · exact chosen_unique ho (.inr ho')

/-- The two orders of a sum match. -/
theorem coverAdd_matched (h : site.graph.Exchanged g' x l r) :
    Matched site g' (coverAdd x) (coverAdd x) := by
  refine Matched.of_look (e := fun g => g.binary x) fun m m' hm hm' => ?_
  refine .of_outlined (coverAdd_outlined hm) (coverAdd_outlined hm') fun o o' ho ho' => ?_
  simp only [h.takes?] at ho'
  rcases h.binary_cases hm hm' with rfl | ⟨-, -, -, rfl⟩
  · exact chosen_unique ho (.inl ho')
  · exact chosen_unique ho (.inr ho')

/-- The inputs of the node. -/
theorem inputs (h : site.graph.Exchanged g' x l r) :
    ∃ n, site.graph.node x = .ok n ∧ n.input 0 = .ok l ∧ n.input 1 = .ok r := by
  obtain ⟨n, rest, hn, hInputs, -⟩ := h.here
  exact ⟨n, node_eq_ok.mpr hn, by simp [Node.input, hInputs], by simp [Node.input, hInputs]⟩

/-- The two orders of a sum of doubles match. -/
theorem coverDoubleAdd_matched (h : site.graph.Exchanged g' x l r) :
    Matched site g' (coverDoubleAdd x) (coverDoubleAdd x) := by
  obtain ⟨n, hn, hl, hr⟩ := h.inputs
  have hSymm : (site.over g').graph.Exchanged site.graph x r l := h.symm
  obtain ⟨n', hn', hr', hl'⟩ := hSymm.inputs
  refine .of_outlined (coverDoubleAdd_outlined hn hl hr) (coverDoubleAdd_outlined hn' hr' hl') ?_
  intro o o' ho ho'
  simp only [h.takes?] at ho'
  exact chosen_unique ho (.inr ho')

/-- The node itself emits the same outlines for either order of its operands. -/
theorem coverNode_matched (h : site.graph.Exchanged g' x l r) :
    Matched site g' (coverNode x) (coverNode x) := by
  unfold coverNode
  refine .read (.look (h.op x) fun operator hOp => ?_)
  have hOp := op_eq_ok.mp hOp
  have hCommutative := h.commutative hOp
  -- Only commutative operators are left, of which those on 64 bit words have no code at all.
  cases operator with
  | word32 w =>
    cases w with
    | and => exact h.coverAnd_matched
    | or => exact h.coverBinary_matched {} fun _ => rfl
    | xor => exact h.coverXor_matched
    | equal => exact h.coverEqual_matched
    | shl | shr | sar | ror => cases hCommutative
  | int32 i =>
    cases i with
    | add => exact h.coverAdd_matched
    | addWithOverflow => exact h.coverOverflow_matched .add
    | mul => exact h.coverMul_matched
    | _ => cases hCommutative
  | float64 f =>
    cases f with
    | add => exact h.coverDoubleAdd_matched
    | mul => exact .of_writes (coverDoubles_writes x .vmul) (coverDoubles_writes x .vmul)
    | equal => exact .of_writes (coverDoubleCompare_writes x _) (coverDoubleCompare_writes x _)
    | _ => cases hCommutative
  | word64 w => exact .throw _ _
  | _ => cases hCommutative

/-- A branch matches, since it asks for its condition alone. -/
theorem coverBranch_matched (h : site.graph.Exchanged g' x l r)
    (hOp : site.graph.HasOp y .branch) (t f : Nat) :
    Matched site g' (coverBranch y t f) (coverBranch y t f) := by
  unfold coverBranch
  refine .read (.look (h.valueIn (h.ne_of_op hOp rfl) 0) fun z _ => ?_)
  exact h.coverCompareZero_matched y z _

/-! ## Whether there is code -/

/-- What can be named as an output can be over the other graph. -/
theorem definable (h : site.graph.Exchanged g' x l r) (hk : k.Within site.graph.Definable) :
    k.Within g'.Definable := by
  intro id hUse
  obtain ⟨operator, hOp, hFinish⟩ := hk id hUse
  exact ⟨operator, h.hasOp.mpr hOp, hFinish⟩

/-- A value that is compared with zero is covered in both graphs, unless the walk along negations
comes to no end in either. -/
theorem coverCompareZero_agreed (h : site.graph.Exchanged g' x l r)
    (hGrounded : site.graph.Grounded) {user : NodeId} (hFeeds : site.graph.Feeds user y)
    (hk : k.Within site.graph.Definable) :
    Agreed site g' (coverCompareZero user y k) (coverCompareZero user y k) := by
  have hRest : ∀ {place : Site} {user y : NodeId} {k : Continuation} {o : Operator},
      place.graph.Grounded → place.graph.HasOp y o → k.Within place.graph.Definable →
      Returns place (Selection.canCover user y >>= fun covered =>
        if covered then coverFlags y k else coverTest y k) := by
    intro place user y k o hPlace hy hk
    obtain ⟨covered, hCover⟩ := hPlace.canCover_replies user hy
    refine hCover.returns ?_
    split
    · exact hPlace.coverFlags_returns hy hk
    · exact hPlace.coverTest_returns hy hk
  unfold coverCompareZero
  refine .read ?_
  show Agreed site g' (Selection.stripNegations (site.graph.size + 1) user y k >>= _)
    (Selection.stripNegations (g'.size + 1) user y k >>= _)
  rw [h.size]
  -- The walk itself may fail, but then it fails in both graphs.
  refine .bind (P := fun p => site.graph.Feeds p.1 p.2.1 ∧ p.2.2.use = k.use)
    (h.stripNegations _ user y k) ?_ ?_
  · intro s
    refine (stripNegations_ensures hFeeds).mono ?_
    rintro p _ ⟨-, -, hStripped⟩
    exact hStripped
  · -- What the walk ends at is an operand again, so it is a node.
    rintro ⟨user, z, k'⟩ ⟨⟨n, hn, hMem⟩, hUse⟩
    obtain ⟨w, hw⟩ :=
      hGrounded.wellFormed.node_of_input ⟨n, hn, (List.mem_of_mem_take hMem : z ∈ n.inputs)⟩
    have hz : site.graph.HasOp z w.op := ⟨w, hw, rfl⟩
    have hk' : k'.Within site.graph.Definable := fun id hId => hk id (hUse.symm.trans hId)
    exact .of_returns (hRest hGrounded hz hk')
      (hRest (h.grounded hGrounded) (h.hasOp.mpr hz) (h.definable hk'))

/-- An equation is covered over both graphs. -/
theorem coverEqual_agreed (h : site.graph.Exchanged g' x l r) (hGrounded : site.graph.Grounded)
    (hOp : site.graph.HasOp x (.word32 .equal)) :
    Agreed site g' (coverEqual x) (coverEqual x) := by
  have hOther : (site.over g').graph.Grounded := h.grounded hGrounded
  have hk : (Continuation.result .eq x).Within site.graph.Definable :=
    .result (Grounded.definable hOp rfl) .eq
  have hCompare : Agreed site g' (coverCompare x .cmp (.result .eq x) false)
      (coverCompare x .cmp (.result .eq x) false) :=
    .of_returns (hGrounded.coverCompare_returns hOp rfl hk rfl false)
      (hOther.coverCompare_returns (h.hasOp.mpr hOp) rfl (h.definable hk) rfl false)
  obtain ⟨m, hm⟩ := hGrounded.binary hOp rfl
  obtain ⟨m', hm'⟩ := h.binary_ok hm
  unfold coverEqual
  refine .read (.look hm hm' ?_)
  rw [h.right_isConst hm hm']
  -- only a right side of zero takes the other way, and both graphs have it alike
  split
  · next hZero =>
    rw [h.binary_of_isConst hm hm' hZero]
    exact h.coverCompareZero_agreed hGrounded (binary_feeds hm).1.1 hk
  · exact hCompare

/-- The node itself is covered for both orders of its operands or for neither. -/
theorem coverNode_agreed (h : site.graph.Exchanged g' x l r) (hGrounded : site.graph.Grounded) :
    Agreed site g' (coverNode x) (coverNode x) := by
  have hOther : (site.over g').graph.Grounded := h.grounded hGrounded
  obtain ⟨n, rest, hn, -⟩ := h.here
  obtain ⟨operator, hOp⟩ : ∃ operator, site.graph.HasOp x operator := ⟨n.op, n, hn, rfl⟩
  have hOp' : (site.over g').graph.HasOp x operator := h.hasOp.mpr hOp
  have hCommutative := h.commutative hOp
  unfold coverNode
  refine .read (.look (op_eq_ok.mpr hOp) (op_eq_ok.mpr hOp') ?_)
  -- The rules return in either graph, except that an equality with zero may walk without end.
  cases operator with
  | word32 w =>
    cases w with
    | and => exact .of_returns (hGrounded.coverAnd_returns hOp) (hOther.coverAnd_returns hOp')
    | or =>
      exact .of_returns (hGrounded.coverBinary_returns hOp rfl (.unused _) rfl rfl)
        (hOther.coverBinary_returns hOp' rfl (.unused _) rfl rfl)
    | xor => exact .of_returns (hGrounded.coverXor_returns hOp) (hOther.coverXor_returns hOp')
    | equal => exact h.coverEqual_agreed hGrounded hOp
    | shl | shr | sar | ror => cases hCommutative
  | int32 i =>
    cases i with
    | add => exact .of_returns (hGrounded.coverAdd_returns hOp) (hOther.coverAdd_returns hOp')
    | addWithOverflow =>
      exact .of_returns (hGrounded.coverOverflow_returns hOp rfl)
        (hOther.coverOverflow_returns hOp' rfl)
    | mul => exact .of_returns (hGrounded.coverMul_returns hOp) (hOther.coverMul_returns hOp')
    | _ => cases hCommutative
  | float64 f =>
    cases f with
    | add =>
      exact .of_returns (hGrounded.coverDoubleAdd_returns hOp) (hOther.coverDoubleAdd_returns hOp')
    | mul =>
      exact .of_returns (hGrounded.coverDoubles_returns hOp rfl rfl)
        (hOther.coverDoubles_returns hOp' rfl rfl)
    | equal =>
      exact .of_returns
        (hGrounded.coverDoubleCompare_returns hOp rfl (.result (Grounded.definable hOp rfl) _))
        (hOther.coverDoubleCompare_returns hOp' rfl (.result (Grounded.definable hOp' rfl) _))
    | _ => cases hCommutative
  | word64 w => exact .throw _ _
  | _ => cases hCommutative

/-- A branch is covered for both orders or for neither. -/
theorem coverBranch_agreed (h : site.graph.Exchanged g' x l r) (hGrounded : site.graph.Grounded)
    (hOp : site.graph.HasOp y .branch) (t f : Nat) :
    Agreed site g' (coverBranch y t f) (coverBranch y t f) := by
  have hApart : y ≠ x := h.ne_of_op hOp rfl
  -- A branch is not commutative, so its own input is the same.
  obtain ⟨z, -, hz, -⟩ := hGrounded.valueIn hOp rfl
  unfold coverBranch
  refine .read (.look hz ((h.valueIn hApart 0).trans hz) ?_)
  exact h.coverCompareZero_agreed hGrounded (valueIn_feeds hz) (.branch _ _ _ _)

end Graph.Exchanged

namespace Selection

/-! ## Visits -/

variable {site : Site} {g' : Graph} {x y l r : NodeId} {n : Node} {cover : Select Unit}

/-- The outlines of the code of a visited node, if there is code. -/
def visit (site : Site) (b : Nat) (id : NodeId) (cover : Select Unit) (s : State) :
    Option (List Outline) :=
  (segmentOf b id cover site s).toOption.map fun p => p.1.map Instr.outline

/-- The visits that cover a node: its own, or that of a branch, which may take the node in. -/
inductive Visits (g : Graph) (x : NodeId) : NodeId → Select Unit → Prop
  | alone : Visits g x x (coverNode x)
  | branch {y : NodeId} (hOp : g.HasOp y .branch) (ifTrue ifFalse : Nat) :
    Visits g x y (coverBranch y ifTrue ifFalse)

/-- Whatever covers the node matches. -/
theorem Visits.matched (site : Site) (hVisit : Visits site.graph x y cover)
    (h : site.graph.Exchanged g' x l r) : Matched site g' cover cover := by
  cases hVisit with
  | alone => exact h.coverNode_matched
  | branch hOp t f => exact h.coverBranch_matched hOp t f

/-- Whatever covers the node does so over both graphs or over neither. -/
theorem Visits.agreed (site : Site) (hVisit : Visits site.graph x y cover)
    (h : site.graph.Exchanged g' x l r) (hGrounded : site.graph.Grounded) :
    Agreed site g' cover cover := by
  cases hVisit with
  | alone => exact h.coverNode_agreed hGrounded
  | branch hOp t f => exact h.coverBranch_agreed hGrounded hOp t f

/-- A visit has outlines when the rule succeeds from an empty segment. -/
theorem visit_eq_some {b : Nat} {s : State} {L : List Outline} :
    visit site b y cover s = some L ↔ ∃ t, cover { site with block := b, node := y }
      { s with segment := [] } = .ok ((), t) ∧ t.outlines = L := by
  have hVisit : visit site b y cover s =
      (cover { site with block := b, node := y } { s with segment := [] } >>= fun p =>
        Except.ok (p.2.segment, p.2)).toOption.map fun p => p.1.map Instr.outline := rfl
  rw [hVisit]
  cases cover { site with block := b, node := y } { s with segment := [] } with
  | error e =>
    constructor
    · rintro ⟨⟩
    · rintro ⟨t, ⟨⟩, -⟩
  | ok p =>
    constructor
    · rintro ⟨⟩
      exact ⟨p.2, rfl, rfl⟩
    · rintro ⟨t, hRun, rfl⟩
      cases hRun
      rfl

/-- Two value inputs are the first two inputs. -/
theorem inputs_of_valueInputs (h : n.valueInputs = .ok [l, r]) :
    n.valueCount = 2 ∧ ∃ rest, n.inputs = l :: r :: rest := by
  unfold Node.valueInputs Node.inputsBetween at h
  split at h
  · next hRange =>
    have hTake : n.inputs.take n.valueCount.toNat = [l, r] := Except.ok.inj h
    have hLength := congrArg List.length hTake
    rw [List.length_take] at hLength
    have hCount : n.valueCount.toNat = 2 := by
      simp only [List.length_cons, List.length_nil] at hLength
      omega
    refine ⟨by omega, n.inputs.drop 2, ?_⟩
    rw [hCount] at hTake
    rw [← List.take_append_drop 2 n.inputs, hTake]
    simp
  · cases h

/-- The operands of a commutative node, not both of them constants, can be exchanged: where the node
is visited by itself or by a branch, the outlines stay the same. Whether there are any does not
depend on the order either, if the graph is grounded. -/
theorem visit_exchange (hn : site.graph.node? x = some n) (hCommutative : n.op.isCommutative = true)
    (hInputs : n.valueInputs = .ok [l, r])
    (hSingle : ¬(site.graph.HasOp l (.constant .int32) ∧ site.graph.HasOp r (.constant .int32)))
    (hVisit : Visits site.graph x y cover) (b : Nat) (s : State) :
    (∀ L L', visit site b y cover s = some L →
      visit (site.over (site.graph.exchange x)) b y cover s = some L' → L' = L) ∧
    (site.graph.Grounded →
      visit (site.over (site.graph.exchange x)) b y cover s = visit site b y cover s) := by
  obtain ⟨hCount, rest, hList⟩ := inputs_of_valueInputs hInputs
  have h : site.graph.Exchanged (site.graph.exchange x) x l r :=
    Graph.exchanged_exchange hn hList hCount hCommutative hSingle
  have hSame : ∀ L L', visit site b y cover s = some L →
      visit (site.over (site.graph.exchange x)) b y cover s = some L' → L' = L := by
    intro L L' hL hL'
    obtain ⟨t, hRun, rfl⟩ := visit_eq_some.mp hL
    obtain ⟨t', hRun', rfl⟩ := visit_eq_some.mp hL'
    exact hVisit.matched { site with block := b, node := y } h _ () t hRun () t' hRun'
  -- If one visit succeeds, so does the other, and then the outlines are the same by the first part.
  refine ⟨hSame, fun hGrounded => Option.ext fun L => ?_⟩
  have hAgreed := hVisit.agreed { site with block := b, node := y } h hGrounded
  constructor
  · intro hL'
    obtain ⟨t', hRun', -⟩ := visit_eq_some.mp hL'
    obtain ⟨⟨⟨⟩, t⟩, hRun⟩ := (hAgreed _).mp ⟨_, hRun'⟩
    have hL : visit site b y cover s = some t.outlines := visit_eq_some.mpr ⟨t, hRun, rfl⟩
    rw [hL, hSame _ L hL hL']
  · intro hL
    obtain ⟨t, hRun, -⟩ := visit_eq_some.mp hL
    obtain ⟨⟨⟨⟩, t'⟩, hRun'⟩ := (hAgreed _).mpr ⟨_, hRun⟩
    have hL' : visit (site.over (site.graph.exchange x)) b y cover s = some t'.outlines :=
      visit_eq_some.mpr ⟨t', hRun', rfl⟩
    rw [hL', hSame L _ hL hL']

/-- A word without the bits of a complement, the complement on the left. -/
def cleared : Site where
  graph := {
    nodes := #[{ op := .start }, .parameter 0 .int32, .parameter 1 .int32, .int32 (-1),
      .ofArity (.word32 .xor) [1, 3], .ofArity (.word32 .and) [4, 2], .ofArity .ret [5, 0, 0],
      .collect [6]]
    exit := some 7 }
  schedule := .single [1, 2, 3, 4, 5] 6
  features := .none

/-- The complement is taken in on either side. -/
theorem visit_exchange_cleared :
    visit cleared 0 5 (coverNode 5) {} = some [{ op := .bic }] ∧
      visit (cleared.over (cleared.graph.exchange 5)) 0 5 (coverNode 5) {} =
        visit cleared 0 5 (coverNode 5) {} := by
  have hWell : cleared.graph.WellFormed :=
    .of_nodes (by decide +kernel) (by decide +kernel) (by decide +kernel)
  have hGrounded : cleared.graph.Grounded := .of_nodes hWell (by decide +kernel)
  have hParameter : ¬cleared.graph.HasOp 2 (.constant .int32) := by
    rintro ⟨n, ⟨⟩, ⟨⟩⟩
  refine ⟨by decide +kernel, ?_⟩
  exact (visit_exchange rfl rfl rfl (fun hBoth => hParameter hBoth.2) .alone 0 {}).2 hGrounded

/-- A word without the bits of a complement, where the word is an exclusive or that lacks its second
operand and has no place. -/
def lopsided : Site where
  graph := {
    nodes := #[{ op := .start }, .parameter 0 .int32, .int32 (-1), .ofArity (.word32 .xor) [1, 2],
      { op := .word32 .xor, inputs := [1], valueCount := 1 }, .ofArity (.word32 .and) [3, 4],
      .ofArity .ret [5, 0, 0], .collect [6]]
    exit := some 7 }
  schedule := .single [1, 2, 3, 5] 6
  features := .none

/-- A sum of two products, of which the second one has an end of a region that passes on itself. -/
def circling : Site where
  graph := {
    nodes := #[{ op := .start }, .parameter 0 .int32, .ofArity (.int32 .mul) [1, 1],
      .ofArity .finish [3, 0], .ofArity (.int32 .mul) [1, 3], .ofArity (.int32 .add) [2, 4],
      .ofArity .ret [5, 0, 0], .collect [6]]
    exit := some 7 }
  schedule := .single [1, 2, 3, 4, 5] 6
  features := .none

/-- Without a grounded graph the order of the operands decides whether there is code: the operand on
the left is taken in before the one on the right is looked at. -/
theorem visit_exchange_lopsided :
    (lopsided.graph.Applies (.word32 .and) 5 3 4 ∧
      visit lopsided 0 5 (coverNode 5) {} = some [{ op := .bic }] ∧
      visit (lopsided.over (lopsided.graph.exchange 5)) 0 5 (coverNode 5) {} = none) ∧
    circling.graph.WellFormed ∧ circling.graph.Applies (.int32 .add) 5 2 4 ∧
      visit circling 0 5 (coverNode 5) {} = some [{ op := .mla }] ∧
      visit (circling.over (circling.graph.exchange 5)) 0 5 (coverNode 5) {} = none := by
  refine ⟨⟨⟨_, rfl, rfl, rfl⟩, by decide +kernel, by decide +kernel⟩, ?_, ⟨_, rfl, rfl, rfl⟩,
    by decide +kernel, by decide +kernel⟩
  exact .of_nodes (by decide +kernel) (by decide +kernel) (by decide +kernel)

end Selection
end ArmBackend
