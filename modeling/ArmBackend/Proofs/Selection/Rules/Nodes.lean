import ArmBackend.Proofs.Selection.Access
import ArmBackend.Proofs.Selection.Conditions
import ArmBackend.Proofs.Selection.Rules.Words

/-!
# What the rules of nodes emit

A value that is compared with zero may be a comparison, a sum, an overflow or anything else; whatever
the rules take in, one instruction sets the flags, and it is the only one. So the end of a block is
one instruction, and the code of a node ends no block.

## Results

* `coverCompareZero_drafts` — a comparison with zero is one instruction.
* `coverNode_drafts` — the code of a node is legal, fits the tables and ends no block.
* `coverControl_drafts` — the end of a block is one instruction that goes where the block goes.
-/

namespace ArmBackend.Selection

variable {site : Site} {start : Stream} {ops : List (Operand × Form)} {s s' : State}
  {id u : NodeId} {k : Continuation} {op : Opcode}

/-! ## Doubles -/

/-- A conversion emits one instruction with an output and an input. -/
theorem coverUnary_drafts (h : Draft site.features start ops [] s)
    (hOp : Ordinary site.features op) :
    Ensures site s (coverUnary id op) fun _ s' => Inner site.features start s' := by
  unfold coverUnary
  simp only [ensures_bind, ensures_read, ensures_lift]
  refine (define_drafts h).mono ?_
  intro o s₁ h₁ u _
  refine (useRegister_drafts h₁).mono ?_
  intro x s₂ h₂
  exact emit_ordinary h₂ hOp (by simp) (by simp) rfl rfl

/-- An operation on doubles emits one instruction with two inputs. -/
theorem coverDoubles_drafts (h : Draft site.features start ops [] s)
    (hOp : Ordinary site.features op) :
    Ensures site s (coverDoubles id op) fun _ s' => Inner site.features start s' := by
  unfold coverDoubles
  simp only [ensures_bind, ensures_read, ensures_lift]
  intro n _
  refine (define_drafts h).mono ?_
  intro o s₁ h₁ u _
  refine (useRegister_drafts h₁).mono ?_
  intro x s₂ h₂ v _
  refine (useRegister_drafts h₂).mono ?_
  intro y s₃ h₃
  exact emit_ordinary h₃ hOp (by simp) (by simp) rfl rfl

/-- A product that is taken in gives an instruction with three inputs. -/
theorem emitAccumulate_drafts (h : Draft site.features start ops [] s)
    (hOp : Ordinary site.features op) {product accumulator : NodeId} :
    Ensures site s (emitAccumulate op id product accumulator) fun _ s' =>
      Inner site.features start s' := by
  unfold emitAccumulate
  simp only [ensures_bind, ensures_read, ensures_lift]
  intro n _
  refine (defineAt_drafts h .sameAsFirst).mono ?_
  intro o s₁ h₁
  refine (useRegister_drafts h₁).mono ?_
  intro x s₂ h₂ u _
  refine (useRegister_drafts h₂).mono ?_
  intro y s₃ h₃ v _
  refine (useRegister_drafts h₃).mono ?_
  intro z s₄ h₄
  exact emit_ordinary h₄ hOp (by simp) (by simp) rfl rfl

/-- A sum of doubles emits one instruction. -/
theorem coverDoubleAdd_drafts (h : Draft site.features start ops [] s) :
    Ensures site s (coverDoubleAdd id) fun _ s' => Inner site.features start s' := by
  unfold coverDoubleAdd
  simp only [ensures_bind, ensures_read, ensures_lift]
  intro n _ left _ right _
  refine (isCoveredDoubleProduct_ensures _ _).mono ?_
  rintro b _ ⟨rfl, -⟩
  split
  · exact emitAccumulate_drafts h (.of_none (by decide))
  · simp only [ensures_bind]
    refine (isCoveredDoubleProduct_ensures _ _).mono ?_
    rintro b _ ⟨rfl, -⟩
    split
    · exact emitAccumulate_drafts h (.of_none (by decide))
    · exact coverDoubles_drafts h (.of_none (by decide))

/-- A difference of doubles emits one instruction. -/
theorem coverDoubleSub_drafts (h : Draft site.features start ops [] s) :
    Ensures site s (coverDoubleSub id) fun _ s' => Inner site.features start s' := by
  unfold coverDoubleSub
  simp only [ensures_bind, ensures_read, ensures_lift]
  intro n _ right _
  refine (isCoveredDoubleProduct_ensures _ _).mono ?_
  rintro b _ ⟨rfl, -⟩
  split
  · simp only [ensures_bind, ensures_lift]
    intro left _
    exact emitAccumulate_drafts h (.of_none (by decide))
  · exact coverDoubles_drafts h (.of_none (by decide))

/-- A comparison of doubles sets the flags as its continuation says. -/
theorem coverDoubleCompare_drafts (h : Draft site.features start ops [] s) (k : Continuation) :
    Ensures site s (coverDoubleCompare id k) fun _ s' => Flagged site.features start k s' := by
  unfold coverDoubleCompare
  simp only [ensures_bind, ensures_read, ensures_lift]
  intro n _ u _
  refine (useRegister_drafts h).mono ?_
  intro x s₁ h₁ v _
  refine (useRegister_drafts h₁).mono ?_
  intro y s₂ h₂
  have hRow : Row (ops ++ [(x, .register)] ++ [(y, .register)]) [x, y] [.register, .register] := by
    simp [Row]
  have hSuits : Opcode.vcmp.Suits site.features .none [.register, .register] :=
    .plain (by simp) (by decide) (by rintro f ⟨⟩) (by simp)
  exact emitFlags_drafts h₂ k hRow hSuits (by simp) (by decide)

/-! ## Conditions -/

/-- A comparison sets the flags as its continuation says. -/
theorem emitComparison_drafts (h : Draft site.features start ops [] s) (c : Comparison)
    (k : Continuation) :
    Ensures site s (emitComparison c id k) fun _ s' => Flagged site.features start k s' := by
  unfold emitComparison
  split
  · exact coverCompare_drafts h ⟨0, rfl⟩ k false
  · exact coverDoubleCompare_drafts h k

/-- The instructions for overflow take a flexible operand and give a word. -/
theorem overflowOps?_flexible {operator : Operator} {direct reverse : Opcode}
    (h : overflowOps? operator = some (direct, reverse)) :
    direct.IsFlexible 1 ∧ reverse.IsFlexible 1 := by
  unfold overflowOps? at h
  split at h <;> cases h <;> exact ⟨⟨1, rfl⟩, ⟨1, rfl⟩⟩

/-- The instructions that only set flags take a flexible operand. -/
theorem testOp?_flexible {operator : Operator} (h : testOp? operator = some op) :
    op.IsFlexible 1 := by
  unfold testOp? at h
  split at h <;> cases h <;> exact ⟨0, rfl⟩

/-- What a branch may emit for a flag is the operation of the flag, by the instructions that this
operation has. -/
theorem fusedOverflow?_ops (v : NodeId) (k : Continuation) :
    Ensures site s (fusedOverflow? v k) fun r s' => s' = s ∧
      ∀ x direct reverse, r = some (x, direct, reverse) →
        (site.graph.HasOp v .projection → site.graph.Projects v 1 x) ∧
          ∃ operator, site.graph.HasOp x operator ∧
            overflowOps? operator = some (direct, reverse) := by
  -- Two answers are possible: none, or the operation that the projection belongs to.
  have hNone : Ensures site s (pure none) fun r s' => s' = s ∧
      ∀ (x : NodeId) (direct reverse : Opcode), r = some (x, direct, reverse) →
        (site.graph.HasOp v .projection → site.graph.Projects v 1 x) ∧
          ∃ operator, site.graph.HasOp x operator ∧
            overflowOps? operator = some (direct, reverse) :=
    (ensures_pure _ _).mpr ⟨rfl, by rintro _ _ _ ⟨⟩⟩
  unfold fusedOverflow?
  simp only [ensures_bind, ensures_read, ensures_lift]
  intro n hn
  split
  · exact hNone
  · next hBranch =>
    simp only [Bool.or_eq_true, decide_eq_true_eq, not_or, Decidable.not_not] at hBranch
    simp only [ensures_bind, ensures_lift]
    intro x hx operator hOp
    -- A continuation that branches asks for the second projection.
    have hFlag : site.graph.HasOp v .projection → site.graph.Projects v 1 x := by
      rintro ⟨m, hm, hProjection⟩
      obtain ⟨m', hm', hInput, -⟩ := Graph.valueIn_eq_ok hx
      cases hn.symm.trans hm'
      cases (Graph.node_eq_ok.mp hn).symm.trans hm
      exact ⟨n, hm, hProjection, hBranch.2, hInput⟩
    split
    · simp only [ensures_bind, ensures_throw]
    · split
      · exact hNone
      · next direct reverse hOps =>
        have hSome : Ensures site s (pure (some (x, direct, reverse))) fun r s' => s' = s ∧
            ∀ (x : NodeId) (direct reverse : Opcode), r = some (x, direct, reverse) →
              (site.graph.HasOp v .projection → site.graph.Projects v 1 x) ∧
                ∃ operator, site.graph.HasOp x operator ∧
                  overflowOps? operator = some (direct, reverse) := by
          refine (ensures_pure _ _).mpr ⟨rfl, ?_⟩
          rintro _ _ _ ⟨⟩
          exact ⟨hFlag, operator, Graph.op_eq_ok.mp hOp, hOps⟩
        simp only [ensures_bind, ensures_get]
        split
        · exact hNone
        · simp only [ensures_bind, ensures_lift]
          intro value _
          split
          · exact hSome
          · simp only [ensures_bind, ensures_lift]
            intro uses _
            split
            · exact hNone
            · exact hSome

/-- Whatever a value is that is compared with zero, one instruction sets the flags. -/
theorem coverFlags_drafts (h : Draft site.features start ops [] s) (v : NodeId)
    (k : Continuation) :
    Ensures site s (coverFlags v k) fun _ s' => Flagged site.features start k s' := by
  unfold coverFlags
  simp only [ensures_bind, ensures_read, ensures_lift]
  intro operator _
  split
  · next c _ =>
    refine (emitComparison_drafts h c _).mono ?_
    intro _ s' h'
    exact h'.of_use rfl
  · split
    · next test hTest =>
      exact coverCompare_drafts h (testOp?_flexible hTest) k _
    · split
      · simp only [ensures_bind]
        refine (fusedOverflow?_ops v k).mono ?_
        rintro r _ ⟨rfl, hr⟩
        split
        · next x direct reverse =>
          -- an overflow operator whose projection is the condition sets the flags itself
          obtain ⟨-, operator, -, hOps⟩ := hr x direct reverse rfl
          obtain ⟨hDirect, hReverse⟩ := overflowOps?_flexible hOps
          refine (coverBinary_drafts h hDirect hReverse _).mono ?_
          intro _ s' h'
          exact h'.of_use rfl
        · exact coverTest_drafts h k
      · exact coverBinary_drafts h ⟨1, rfl⟩ ⟨1, rfl⟩ k
      all_goals first
        | exact coverShift_drafts h k
        | exact coverTest_drafts h k

/-- A comparison with zero sets the flags, whatever is taken in. -/
theorem coverCompareZero_drafts (h : Draft site.features start ops [] s) {v : NodeId}
    (hFeeds : site.graph.Feeds u v) (k : Continuation) :
    Ensures site s (coverCompareZero u v k) fun _ s' => Flagged site.features start k s' := by
  unfold coverCompareZero
  simp only [ensures_bind, ensures_read]
  refine (stripNegations_ensures hFeeds).mono ?_
  rintro ⟨user, value, k'⟩ _ ⟨rfl, -, -, hUse⟩
  dsimp only
  refine (canCover_ensures user value).mono ?_
  rintro b _ ⟨rfl, -⟩
  split
  · refine (coverFlags_drafts h value k').mono ?_
    intro _ s' h'
    exact h'.of_use hUse.symm
  · refine (coverTest_drafts h k').mono ?_
    intro _ s' h'
    exact h'.of_use hUse.symm

/-- A comparison whose word is wanted writes the word. -/
theorem coverComparison_drafts (h : Draft site.features start ops [] s) (c : Comparison) :
    Ensures site s (coverComparison id c) fun _ s' => Inner site.features start s' := by
  refine (emitComparison_drafts h c _).mono ?_
  intro _ s' h'
  exact h'.inner rfl

/-- An equation writes its word. -/
theorem coverEqual_drafts (h : Draft site.features start ops [] s) :
    Ensures site s (coverEqual id) fun _ s' => Inner site.features start s' := by
  unfold coverEqual
  simp only [ensures_bind, ensures_read, ensures_lift]
  intro m hm
  split
  · refine (coverCompareZero_drafts h (Graph.binary_feeds hm).1.1 _).mono ?_
    intro _ s' h'
    exact h'.inner rfl
  · refine (coverCompare_drafts h ⟨0, rfl⟩ _ false).mono ?_
    intro _ s' h'
    exact h'.inner rfl

/-- An operation with overflow writes its flag, if that is wanted. -/
theorem coverOverflow_drafts (h : Draft site.features start ops [] s) {direct reverse : Opcode}
    (hDirect : direct.IsFlexible 1) (hReverse : reverse.IsFlexible 1) :
    Ensures site s (coverOverflow id direct reverse) fun _ s' => Inner site.features start s' := by
  unfold coverOverflow
  simp only [ensures_bind, ensures_read, ensures_lift]
  intro flag _
  refine (coverBinary_drafts h hDirect hReverse _).mono ?_
  intro _ s' h'
  refine h'.inner ?_
  split <;> rfl

/-- A branch goes by the flags. -/
theorem coverBranch_drafts (h : Draft site.features start ops [] s) (t f : Nat) :
    Ensures site s (coverBranch id t f) fun _ s' =>
      Flagged site.features start (.branch .ne t f) s' := by
  unfold coverBranch
  simp only [ensures_bind, ensures_read, ensures_lift]
  intro value hValue
  exact coverCompareZero_drafts h (Graph.valueIn_feeds hValue) _

/-! ## Memory and calls -/

/-- The operands of an access: registers, or a register and an offset within reach. -/
theorem address_drafts (h : Draft site.features start ops [] s) {shape : Shape}
    (hShape : op.shape? = some shape) (hOffset : shape.extension = .offset) (base index : NodeId) :
    Ensures site s (address op base index) fun r s' =>
      ∃ ops' forms, Draft site.features start ops' [] s' ∧ ops ⊆ ops' ∧ Row ops' r.2 forms ∧
        op.Suits site.features r.1 forms := by
  have hOrdinary : ¬op.IsField ∧ op.feature? = none := by
    cases op <;> first
      | decide
      | cases hShape <;> cases hOffset
  unfold address
  simp only [ensures_bind, ensures_read, ensures_lift]
  intro m hm
  -- The index as an offset, then the base as one, then both in registers.
  split
  · next hFits =>
    simp only [ensures_bind, ensures_pure]
    refine (useRegister_drafts h).mono ?_
    intro x s₁ h₁
    refine (useImmediate_drafts h₁ hm).mono ?_
    rintro o s₂ ⟨v, hv, h₂⟩
    rw [hv, Option.any_some] at hFits
    exact ⟨_, _, h₂, by simp, by simp [Row], .access hShape hOffset hFits⟩
  · simp only [ensures_bind, ensures_lift]
    intro m' hm'
    split
    · next hFits =>
      simp only [ensures_bind, ensures_pure]
      refine (useRegister_drafts h).mono ?_
      intro x s₁ h₁
      refine (useImmediate_drafts h₁ hm').mono ?_
      rintro o s₂ ⟨v, hv, h₂⟩
      rw [hv, Option.any_some] at hFits
      exact ⟨_, _, h₂, by simp, by simp [Row], .access hShape hOffset hFits⟩
    · simp only [ensures_bind, ensures_pure]
      refine (useRegister_drafts h).mono ?_
      intro x s₁ h₁
      refine (useRegister_drafts h₁).mono ?_
      intro y s₂ h₂
      refine ⟨_, [.register, .register], h₂, by simp, by simp [Row],
        .plain (by simp) hOrdinary.1 ?_ (by simp)⟩
      intro f hf
      rw [hOrdinary.2] at hf
      cases hf

/-- Whether an opcode is a load or a store. -/
def IsAccess (op : Opcode) : Prop :=
  (∃ shape, op.shape? = some shape ∧ shape.extension = .offset) ∧ op ≠ .jmp ∧ op ≠ .ret

/-- What a load is covered with is an access. -/
theorem loadOp?_isAccess {rep : Rep} {type : MachineType} (h : loadOp? rep type = some op) :
    IsAccess op := by
  cases rep with
  | float64 | word32 | tagged =>
    cases h
    exact ⟨⟨_, rfl, rfl⟩, by decide, by decide⟩
  | bit | word8 | word16 =>
    cases h
    split
    · exact ⟨⟨_, rfl, rfl⟩, by decide, by decide⟩
    · exact ⟨⟨_, rfl, rfl⟩, by decide, by decide⟩
  | none | word64 | unassigned => cases h

/-- What a store is covered with is an access. -/
theorem storeOp?_isAccess {rep : Rep} (h : storeOp? rep = some op) : IsAccess op := by
  cases rep with
  | float64 | bit | word8 | word16 | word32 | tagged =>
    cases h
    exact ⟨⟨_, rfl, rfl⟩, by decide, by decide⟩
  | none | word64 | unassigned => cases h

/-- A load emits one access with an output. -/
theorem coverLoad_drafts (h : Draft site.features start ops [] s) :
    Ensures site s (coverLoad id) fun _ s' => Inner site.features start s' := by
  unfold coverLoad
  simp only [ensures_bind, ensures_read, ensures_lift]
  intro n _
  split
  · exact (ensures_throw _ _).mpr trivial
  · next op hOp =>
    obtain ⟨⟨shape, hShape, hOffset⟩, hJump, hReturn⟩ := loadOp?_isAccess hOp
    simp only [ensures_bind, ensures_lift]
    intro base _ index _
    refine (address_drafts h hShape hOffset base index).mono ?_
    rintro ⟨mode, inputs⟩ s₁ ⟨ops₁, forms, h₁, -, hRow, hSuits⟩
    dsimp only
    refine (define_drafts h₁).mono ?_
    intro o s₂ h₂
    exact emit_inner h₂ forms (hRow.mono (by simp)) hSuits (by simp)
      (by simp [Instr.IsTerminator, hJump, hReturn])

/-- A store with a barrier emits one instruction with two scratch registers. -/
theorem emitBarrier_drafts (h : Draft site.features start ops [] s) {base index value : NodeId} :
    Ensures site s (emitBarrier base index value) fun _ s' => Inner site.features start s' := by
  unfold emitBarrier
  simp only [ensures_bind]
  refine (useAt_drafts h _).mono ?_
  intro x s₁ h₁
  refine (useAt_drafts h₁ _).mono ?_
  intro y s₂ h₂
  refine (useAt_drafts h₂ _).mono ?_
  intro z s₃ h₃
  refine (tempAt_drafts h₃ _).mono ?_
  intro t s₄ h₄
  refine (tempAt_drafts h₄ _).mono ?_
  intro u s₅ h₅
  have hOp : Ordinary site.features .storeWriteBarrier := .of_none (by decide)
  exact emit_ordinary h₅ hOp (by simp) (by simp) rfl rfl

/-- A store emits one access without an output. -/
theorem coverStore_drafts (h : Draft site.features start ops [] s) :
    Ensures site s (coverStore id) fun _ s' => Inner site.features start s' := by
  unfold coverStore
  simp only [ensures_bind, ensures_read, ensures_lift]
  intro n _ base _ index _ value _
  split
  · split
    · simp only [ensures_bind, ensures_throw]
    · exact emitBarrier_drafts h
  · split
    · exact (ensures_throw _ _).mpr trivial
    · next op hOp =>
      obtain ⟨⟨shape, hShape, hOffset⟩, hJump, hReturn⟩ := storeOp?_isAccess hOp
      simp only [ensures_bind]
      refine (address_drafts h hShape hOffset base index).mono ?_
      rintro ⟨mode, inputs⟩ s₁ ⟨ops₁, forms, h₁, -, hRow, hSuits⟩
      dsimp only
      refine (useRegister_drafts h₁).mono ?_
      intro x s₂ h₂
      have hValue : Row (ops₁ ++ [(x, .register)]) [x] [.register] := by simp [Row]
      exact emit_inner h₂ (forms ++ [.register]) ((hRow.mono (by simp)).append hValue)
        (hSuits.append (by simp)) (by simp) (by simp [Instr.IsTerminator, hJump, hReturn])

/-- Each argument of a call is asked for where the linkage sends it. -/
theorem useArguments_drafts {l : List NodeId} (linkage : Linkage)
    (h : Draft site.features start ops [] s) :
    Ensures site s (useArguments linkage l) fun operands s' =>
      ∃ ops', Draft site.features start ops' [] s' ∧ ops ⊆ ops' ∧
        ∀ o ∈ operands, (o, Form.register) ∈ ops' := by
  -- operands taken for earlier arguments stay taken
  induction l generalizing linkage ops s with
  | nil =>
    unfold useArguments
    exact (ensures_pure _ _).mpr ⟨ops, h, fun _ hp => hp, by simp⟩
  | cons x rest ih =>
    unfold useArguments
    simp only [ensures_bind, ensures_pure]
    refine (isDouble_ensures x).mono ?_
    rintro double _ rfl
    refine (useAt_drafts h _).mono ?_
    intro o s₁ h₁
    refine (ih _ h₁).mono ?_
    rintro operands s₂ ⟨ops₂, h₂, hSub, hMem⟩
    refine ⟨ops₂, h₂, fun p hp => hSub (by simp [hp]), ?_⟩
    intro o' ho'
    rcases List.mem_cons.mp ho' with rfl | hRest
    · exact hSub (by simp)
    · exact hMem o' hRest

/-- A call emits one instruction with its arguments. -/
theorem coverCall_drafts (h : Draft site.features start ops [] s) :
    Ensures site s (coverCall id) fun _ s' => Inner site.features start s' := by
  unfold coverCall
  simp only [ensures_bind, ensures_read, ensures_lift]
  intro n _ target _ operator hOperator
  split
  · simp only [ensures_bind, ensures_throw]
  · next hConstant =>
    simp only [ensures_bind, ensures_lift]
    refine (markUsed_drafts h).mono ?_
    intro _ s₁ h₁
    refine (vreg_drafts h₁).mono ?_
    rintro v s₂ ⟨h₂, hHolds, hv⟩ values _
    split
    · exact (ensures_throw _ _).mpr trivial
    · next arguments =>
      -- The target is a constant of the graph, so its register stands for one.
      have hTarget : s₂.IsConstant v := by
        have hOp := Graph.op_eq_ok.mp hOperator
        have hKinds : operator = .constant .heap ∨ operator = .constant .external := by
          by_contra hNeither
          rw [not_or] at hNeither
          simp [hNeither.1, hNeither.2] at hConstant
        obtain ⟨x, op', hx, hOp', hTable⟩ := hHolds
        have hOwn : site.graph.Carries target target :=
          .of_op hOp (by rcases hKinds with rfl | rfl <;> simp)
            (by rcases hKinds with rfl | rfl <;> simp)
        cases hOwn.unique hx
        cases hOp.unique hOp'
        rcases hKinds with rfl | rfl <;> exact hTable
      have hForm : Form.address.Holds s₂.stream (.constant v) :=
        ⟨v, rfl, hv, State.isConstant_iff.mp hTarget⟩
      have hEntry := h₂.take hForm
      simp only [ensures_bind]
      refine (useArguments_drafts {} hEntry).mono ?_
      rintro inputs s₃ ⟨ops₃, h₃, hSub, hInputs⟩
      refine (defineAt_drafts h₃ _).mono ?_
      intro o s₄ h₄
      have hRow : Row (ops₃ ++ [(o, .register)]) (.constant v :: inputs)
          (.address :: List.replicate inputs.length .register) :=
        .cons (List.mem_append_left _ (hSub (by simp)))
          (Row.registers fun o ho => List.mem_append_left _ (hInputs o ho))
      have hSuits : Opcode.call.Suits site.features .none
          (.address :: List.replicate inputs.length .register) :=
        .plain (by simp) (by decide) (by rintro f ⟨⟩) (by simp)
      exact emit_inner h₄ _ hRow hSuits (by simp) (by simp [Instr.IsTerminator])

/-! ## Nodes -/

/-- A parameter emits one instruction that only has an output. -/
theorem coverParameter_drafts (h : Draft site.features start ops [] s) :
    Ensures site s (coverParameter id) fun _ s' => Inner site.features start s' := by
  unfold coverParameter
  simp only [ensures_bind, ensures_get]
  split
  · exact (ensures_throw _ _).mpr trivial
  · next location hLookup =>
    obtain ⟨l, r, hSplit, -⟩ := List.lookup_eq_some_iff.mp hLookup
    -- locations were recorded with registers that the stream knows
    have hLocation : Form.register.Holds s.stream location :=
      h.params (id, location) (by rw [hSplit]; simp)
    simp only [ensures_bind]
    refine (markDefined_drafts (h.take hLocation)).mono ?_
    intro _ s₁ h₁
    refine (vreg_drafts h₁).mono ?_
    rintro v s₂ ⟨h₂, -⟩
    refine (markRep_drafts h₂ v).mono ?_
    intro _ s₃ h₃
    have hOp : Ordinary site.features .nop := .of_none (by decide)
    exact emit_ordinary h₃ hOp (by simp) (by simp) rfl rfl

/-- The registers of the inputs of a join, kept as operands. -/
theorem useInputs_drafts {l : List NodeId} (h : Draft site.features start ops [] s) :
    Ensures site s (l.mapM fun x => do
        markUsed x
        return (← vreg x : Int)) fun rs s' =>
      ∃ ops', Draft site.features start ops' [] s' ∧ ops ⊆ ops' ∧
        ∀ r ∈ rs, (Operand.vreg r .any, Form.register) ∈ ops' := by
  induction l generalizing ops s with
  | nil =>
    simp only [List.mapM_nil, ensures_pure]
    exact ⟨ops, h, fun _ hp => hp, by simp⟩
  | cons x rest ih =>
    simp only [List.mapM_cons, ensures_bind, ensures_pure]
    refine (markUsed_drafts h).mono ?_
    intro _ s₁ h₁
    refine (vreg_drafts h₁).mono ?_
    rintro v s₂ ⟨h₂, -, hv⟩
    refine (ih (h₂.take (.vreg hv .any))).mono ?_
    rintro rs s₃ ⟨ops₃, h₃, hSub, hrs⟩
    refine ⟨ops₃, h₃, fun p hp => hSub (by simp [hp]), ?_⟩
    intro r hr
    rcases List.mem_cons.mp hr with rfl | hr
    · exact hSub (by simp)
    · exact hrs r hr

/-- A join adds one entry to the joins of its block, and no code. -/
theorem coverPhi_drafts (h : Draft site.features start ops [] s) :
    Ensures site s (coverPhi id) fun _ s' => Inner site.features start s' := by
  unfold coverPhi
  simp only [ensures_bind, ensures_read, ensures_lift, ensures_modify]
  intro n _
  refine (vreg_drafts h).mono ?_
  rintro v s₁ ⟨h₁, -, hv⟩ values _
  refine (useInputs_drafts (h₁.take (.vreg hv .any))).mono ?_
  rintro rs s₂ ⟨ops₂, h₂, hSub, hrs⟩
  refine (markDefined_drafts h₂).mono ?_
  intro _ s₃ h₃
  refine (markRep_drafts h₃ v).mono ?_
  intro _ s₄ h₄
  have hOut : (Operand.vreg v .any, Form.register) ∈ ops₂ := hSub (by simp)
  -- the registers a phi names are known when it is filed
  have hJoin : ∀ r ∈ (v : Int) :: rs, s₄.stream.HasVreg r := by
    intro r hr
    rcases List.mem_cons.mp hr with rfl | hr
    · exact (h₄.operands hOut).knows
    · exact (h₄.operands (hrs r hr)).knows
  refine ⟨ops₂, [], ⟨h₄.grows, h₄.sound.of_tables rfl rfl rfl, h₄.params, ?_, h₄.operands,
    h₄.segment, h₄.code, h₄.layout⟩, by simp⟩
  intro phi hPhi
  rcases List.mem_cons.mp hPhi with rfl | hOld
  · exact hJoin
  · exact h₄.joins phi hOld

/-- A node that is only marked has no code. -/
theorem markUsed_inner (h : Draft site.features start ops [] s) :
    Ensures site s (markUsed u) fun _ s' => Inner site.features start s' := by
  refine (markUsed_drafts h).mono ?_
  intro _ s' h'
  exact ⟨ops, [], h', by simp⟩

/-- A projection emits nothing. -/
theorem coverProjection_drafts (h : Draft site.features start ops [] s) :
    Ensures site s (coverProjection id) fun _ s' => Inner site.features start s' := by
  unfold coverProjection
  simp only [ensures_bind, ensures_read, ensures_lift]
  intro x _ operator _
  split
  · simp only [ensures_bind, ensures_throw]
  · exact markUsed_inner h

/-- The rules for words emit instructions that fit. -/
theorem coverWord32_drafts (h : Draft site.features start ops [] s) (w : Word32Op) :
    Ensures site s (coverWord32 id w) fun _ s' => Inner site.features start s' := by
  cases w with
  | and => exact coverAnd_drafts h
  | or => exact coverBinary_inner h ⟨1, rfl⟩ ⟨1, rfl⟩
  | xor => exact coverXor_drafts h
  | shl | sar | ror =>
    refine (coverShift_drafts h {}).mono ?_
    intro _ s' h'
    exact h'.inner rfl
  | shr => exact coverShr_drafts h
  | equal => exact coverEqual_drafts h

/-- The rules for integers emit instructions that fit. -/
theorem coverInt32_drafts (h : Draft site.features start ops [] s) (i : Int32Op) :
    Ensures site s (coverInt32 id i) fun _ s' => Inner site.features start s' := by
  cases i with
  | add => exact coverAdd_drafts h
  | addWithOverflow => exact coverOverflow_drafts h ⟨1, rfl⟩ ⟨1, rfl⟩
  | sub => exact coverSub_drafts h
  | subWithOverflow => exact coverOverflow_drafts h ⟨1, rfl⟩ ⟨1, rfl⟩
  | mul => exact coverMul_drafts h
  | div => exact coverDivision_drafts h (.inl rfl)
  | udiv => exact coverDivision_drafts h (.inr rfl)
  | mod => exact coverRemainder_drafts h (.inl rfl)
  | umod => exact coverRemainder_drafts h (.inr rfl)
  | lessThan | lessThanOrEqual | unsignedLessThan | unsignedLessThanOrEqual =>
    exact coverComparison_drafts h _

/-- The rules for doubles emit instructions that fit. -/
theorem coverFloat64_drafts (h : Draft site.features start ops [] s) (f : Float64Op) :
    Ensures site s (coverFloat64 id f) fun _ s' => Inner site.features start s' := by
  cases f with
  | add => exact coverDoubleAdd_drafts h
  | sub => exact coverDoubleSub_drafts h
  | mul | div => exact coverDoubles_drafts h (.of_none (by decide))
  | equal | lessThan | lessThanOrEqual => exact coverComparison_drafts h _

/-- The conversions are ordinary instructions. -/
theorem conversionOp?_ordinary {c : Conversion} (h : conversionOp? c = some op)
    (features : Features) : Ordinary features op := by
  cases c <;> cases h <;> exact .of_none (by decide)

/-- The code of a node is legal, fits the tables and ends no block. -/
theorem coverNode_drafts (h : Draft site.features start ops [] s) :
    Ensures site s (coverNode id) fun _ s' => Inner site.features start s' := by
  unfold coverNode
  simp only [ensures_bind, ensures_read, ensures_lift]
  intro operator _
  have hNothing : Ensures site s (pure ()) fun _ s' => Inner site.features start s' :=
    (ensures_pure _ _).mpr ⟨ops, [], h, by simp⟩
  cases operator with
  | start | exit | dead | merge | ifTrue | ifFalse | effectPhi | valueEffect | controlEffect
  | constant => exact hNothing
  | parameter => exact coverParameter_drafts h
  | phi => exact coverPhi_drafts h
  | projection => exact coverProjection_drafts h
  | finish =>
    simp only [ensures_bind, ensures_lift]
    intro u _
    exact markUsed_inner h
  | call => exact coverCall_drafts h
  | load => exact coverLoad_drafts h
  | store => exact coverStore_drafts h
  | word32 w => exact coverWord32_drafts h w
  | int32 i => exact coverInt32_drafts h i
  | convert c =>
    dsimp only
    split
    · next code hCode => exact coverUnary_drafts h (conversionOp?_ordinary hCode _)
    · exact (ensures_throw _ _).mpr trivial
  | float64 f => exact coverFloat64_drafts h f
  | invalid | branch | ret | change | stringAdd | word64 | unassigned =>
    exact (ensures_throw _ _).mpr trivial

/-! ## Ends of blocks -/

/-- Whether an instruction goes where selection finds that a block goes. -/
inductive Closes (g : Graph) (schedule : Schedule) (block : Block) (i : Instr) : Prop
  | goto {t : Nat} (hKind : block.kind = .goto) (hSucc : block.succ = [t])
      (hi : i = { op := .jmp, inputs := [.label t] })
  | branch {t f : Nat} (hKind : block.kind = .branch)
      (hTargets : branchTargets g schedule block (block.control.getD (-1)) = .ok (t, f))
      (hi : i.Branches t f)
  | ret {x : Operand} (hKind : block.kind = .ret) (hi : i = { op := .ret, inputs := [x] })

/-- What closes a block is a terminator. -/
theorem Closes.isTerminator {g : Graph} {schedule : Schedule} {block : Block} {i : Instr}
    (h : Closes g schedule block i) : i.IsTerminator := by
  cases h with
  | goto _ _ hi =>
    rw [hi]
    exact .inl rfl
  | branch _ _ hi => exact .inr (.inr hi.1)
  | ret _ hi =>
    rw [hi]
    exact .inr (.inl rfl)

/-- The end of a block is one instruction that goes where the block goes. -/
theorem coverControl_drafts (h : Draft site.features start ops [] s) (b : Nat) (block : Block) :
    Ensures site s (coverControl b block) fun _ s' =>
      ∃ ops' i, Draft site.features start ops' [i] s' ∧ Closes site.graph site.schedule block i := by
  unfold coverControl
  simp only [ensures_bind, ensures_read]
  cases hKind : block.kind with
  | goto =>
    dsimp only
    split
    · next t hSucc =>
      have hRow : Row (ops ++ [(.label t, .label)]) [.label t] [.label] := by simp [Row]
      have hSuits : Opcode.jmp.Suits site.features .none [.label] :=
        .plain (by simp) (by decide) (by rintro f ⟨⟩) (by simp)
      refine (emit_drafts (h.label t) hRow hSuits (by simp)).mono ?_
      intro _ s' h'
      exact ⟨_, _, h', .goto hKind hSucc rfl⟩
    · simp only [ensures_bind, ensures_lift, ensures_throw]
      exact fun _ _ => trivial
  | branch =>
    simp only [ensures_bind, ensures_lift]
    rintro ⟨t, f⟩ hTargets
    refine (coverBranch_drafts h t f).mono ?_
    rintro _ s' ⟨ops', i, h', hi⟩
    exact ⟨ops', i, h', .branch hKind hTargets hi⟩
  | ret =>
    unfold coverReturn
    simp only [ensures_bind, ensures_read, ensures_lift]
    intro x _
    refine (useAt_drafts h _).mono ?_
    intro o s₁ h₁
    refine (isDouble_ensures x).mono ?_
    rintro double _ rfl
    -- The value is returned in the one register or the other.
    have hReturn : ∀ {ops : List (Operand × Form)} {s : State} {o : Operand},
        Draft site.features start ops [] s → (o, Form.register) ∈ ops →
        Ensures site s (emit { op := .ret, inputs := [o] }) fun _ s' =>
          ∃ ops' i, Draft site.features start ops' [i] s' ∧
            Closes site.graph site.schedule block i := by
      intro ops s o h ho
      have hRow : Row ops [o] [.register] := by simp [Row, ho]
      have hSuits : Opcode.ret.Suits site.features .none [.register] :=
        .plain (by simp) (by decide) (by rintro f ⟨⟩) (by simp)
      refine (emit_drafts h hRow hSuits (by simp)).mono ?_
      intro _ s' h'
      exact ⟨_, _, h', .ret hKind rfl⟩
    split
    · simp only [ensures_bind]
      refine (useAt_drafts h₁ _).mono ?_
      intro o' s₂ h₂
      exact hReturn h₂ (by simp)
    · have ho : (o, Form.register) ∈ ops ++ [(o, .register)] := by simp
      exact hReturn h₁ ho
  | none =>
    simp only [ensures_bind, ensures_lift, ensures_throw]
    exact fun _ _ => trivial

end ArmBackend.Selection
