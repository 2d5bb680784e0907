import ArmBackend.Proofs.Selection.Progress
import ArmBackend.Selection.Double

/-!
# Covering values

What the rules for 32 bit operators and doubles cover, one lemma for each rule. A rule may take
shifts, masks, complements and products of its operands into its instruction, so the nodes whose
inputs are read are those of a predicate `V` that is closed under such operands (`Folds`). Under it
each rule computes the value of its node, and that of its flags if it makes any, from inputs of
nodes of `V`.
-/

namespace ArmBackend

/-- Whether an instruction may take a node of this operator in as one of its operands. -/
def Operator.isFolded : Operator → Bool
  | .word32 op => op ≠ .or && op ≠ .equal
  | .int32 op => op = .mul
  | .float64 op => op = .mul
  | _ => false

namespace Selection

variable {site : Site} {V : NodeId → Prop} {start s : State} {a : Account}
  {id u w : NodeId} {k : Continuation} {ds : List NodeId}

/-- The operands of a flexible operand, if there is one. -/
def operandsOf (r : Option Operand2) : List Operand :=
  r.elim [] Operand2.operands

/-- Whether the nodes that may be looked at include those that an instruction may take in. -/
def Folds (g : Graph) (V : NodeId → Prop) : Prop :=
  ∀ {w u}, V w → g.Feeds w u → ∀ op, g.HasOp u op → op.isFolded = true → V u

/-- An instruction covers the nodes whose registers it writes, if it reads what was taken and
nothing is left over. -/
theorem emit_covers (h : Progress site.graph V start a s) (i : Instr) (hCode : a.code = [])
    (hTemps : a.temps = []) (hOut : i.out = a.defs.map Prod.snd)
    (hIn : ∀ o ∈ i.inputs, o ∈ a.reads ∨ o.register? = none)
    (hDefs : a.defs.map Prod.fst = ds) :
    Ensures site s (emit i) fun _ s' => Covers site.graph V start ds s' := by
  refine (emit_ensures h i).mono ?_
  intro _ s' h'
  refine Covers.single h' (i := i) ?_ hTemps hOut hIn hDefs
  simp [Account.emit, hCode]

/-- The same with flags: the node that the flags make, if any, is covered too. -/
theorem emitFlags_covers (h : Progress site.graph V start a s) (hOwns : ∀ id, k.target? = some id →
      Owns site.graph id) (op : Opcode) (mode : AddrMode) (out inputs : List Operand)
    (hCode : a.code = []) (hTemps : a.temps = []) (hOut : out = a.defs.map Prod.snd)
    (hIn : ∀ o ∈ inputs, o ∈ a.reads) (hDefs : a.defs.map Prod.fst ++ k.target?.toList = ds) :
    Ensures site s (emitFlags op mode k out inputs) fun _ s' =>
      Covers site.graph V start ds s' := by
  refine (emitFlags_ensures h k hOwns op mode out inputs).mono ?_
  rintro _ s' ⟨flags, hFlags, i, hiOut, hiIn, h'⟩
  refine Covers.single h' (i := i) ?_ hTemps ?_ ?_ ?_
  · simp [hCode]
  · rw [hiOut, hOut, List.map_append]
  · intro o ho
    exact (hiIn o ho).imp (hIn o) id
  · rw [List.map_append, hFlags, hDefs]

/-! ## The flexible operand -/

/-- An operator with a rule for shifts may be taken in. -/
theorem shiftRule?_isFolded {op : Operator} {rule : ShiftRule} (h : shiftRule? op = some rule) :
    op.isFolded = true := by
  unfold shiftRule? at h
  split at h <;> first | rfl | cases h

/-- A shift that is taken in reads its operand, and its amount if that is no constant. -/
theorem tryShift_ensures (h : Progress site.graph V start a s)
    (hV : ∀ op, site.graph.HasOp id op → op.isFolded = true → V id) :
    Ensures site s (tryShift id) fun r s' =>
      Progress site.graph V start (a.read (operandsOf r)) s' := by
  refine ensures_tryShift (fun _ _ _ => h.read ?_) ?_
  · intro o ho
    cases ho
  · intro op rule m hOp hRule hm
    -- From here on the inputs that are read are those of the shift itself, which may be looked at.
    have hId := hV op hOp (shiftRule?_isFolded hRule)
    obtain ⟨⟨hLeft, -⟩, hRight, -⟩ := Graph.binary_feeds hm
    refine (useAt_ensures h hId hLeft .register).mono ?_
    refine fun x s₁ h₁ => ⟨fun _ => ?_, ?_⟩
    · refine (useImmediate_ensures h₁).mono ?_
      intro y s₂ h₂
      rw [Account.read_read] at h₂
      exact h₂
    · refine (useAt_ensures h₁ hId hRight .register).mono ?_
      intro y s₂ h₂
      rw [Account.read_read] at h₂
      exact h₂

/-- A flexible operand reads a shifted register or a constant that can be encoded. -/
theorem tryOperand2_ensures (h : Progress site.graph V start a s) (op : Opcode)
    (hV : ∀ op, site.graph.HasOp id op → op.isFolded = true → V id) :
    Ensures site s (tryOperand2 op id) fun r s' =>
      Progress site.graph V start (a.read (operandsOf r)) s' := by
  exact ensures_tryOperand2 (fun _ _ _ => useImmediate_ensures h) fun _ _ _ => tryShift_ensures h hV

/-- A binary node is covered from its two inputs, whichever of them is taken in. -/
theorem coverBinary_ensures (h : Progress site.graph V start {} s) (hFolds : Folds site.graph V)
    (hV : V id) (hOwns : Owns site.graph id)
    (hTarget : ∀ id, k.target? = some id → Owns site.graph id) (op reverse : Opcode) :
    Ensures site s (coverBinary id op reverse k) fun _ s' =>
      Covers site.graph V start (id :: k.target?.toList) s' := by
  unfold coverBinary
  simp only [ensures_bind, ensures_read, ensures_lift]
  intro m hm
  -- An operand that is used twice, a flexible one on the right, one on the left with the operands
  -- exchanged, or two registers.
  obtain ⟨⟨hLeft, -⟩, hRight, -⟩ := Graph.binary_feeds hm
  split
  · simp only [ensures_bind]
    refine (useAt_ensures h hV hLeft .register).mono ?_
    intro x s₁ h₁
    refine (define_ensures h₁ hOwns).mono ?_
    intro o s₂ h₂
    exact emitFlags_covers h₂ hTarget _ _ _ _ rfl rfl rfl (by simp) rfl
  · simp only [ensures_bind]
    refine (tryOperand2_ensures h op (hFolds hV hRight)).mono ?_
    intro r s₁ h₁
    split
    · simp only [ensures_bind]
      refine (useAt_ensures h₁ hV hLeft .register).mono ?_
      intro x s₂ h₂
      refine (define_ensures h₂ hOwns).mono ?_
      intro o s₃ h₃
      exact emitFlags_covers h₃ hTarget _ _ _ _ rfl rfl rfl (by simp +contextual [operandsOf]) rfl
    · simp only [ensures_bind]
      refine (tryOperand2_ensures h₁ reverse (hFolds hV hLeft)).mono ?_
      intro r s₂ h₂
      split
      · simp only [ensures_bind]
        refine (useAt_ensures h₂ hV hRight .register).mono ?_
        intro x s₃ h₃
        refine (define_ensures h₃ hOwns).mono ?_
        intro o s₄ h₄
        exact emitFlags_covers h₄ hTarget _ _ _ _ rfl rfl rfl (by simp +contextual [operandsOf]) rfl
      · simp only [ensures_bind]
        refine (useAt_ensures h₂ hV hLeft .register).mono ?_
        intro x s₃ h₃
        refine (useAt_ensures h₃ hV hRight .register).mono ?_
        intro y s₄ h₄
        refine (define_ensures h₄ hOwns).mono ?_
        intro o s₅ h₅
        exact emitFlags_covers h₅ hTarget _ _ _ _ rfl rfl rfl (by simp) rfl

/-- Exchanged operands do not change which node the flags make. -/
@[simp] theorem Continuation.target?_commute (k : Continuation) : k.commute.target? = k.target? :=
  rfl

/-- A negation does not change which node the flags make. -/
@[simp] theorem Continuation.target?_negate (k : Continuation) : k.negate.target? = k.target? :=
  rfl

/-- Another condition does not change which node the flags make. -/
@[simp] theorem Continuation.target?_overwrite (k : Continuation) (cond : Cond) :
    (k.overwrite cond).target? = k.target? :=
  rfl

/-- A comparison covers the node of its flags alone: it has no other output. -/
theorem coverCompare_ensures (h : Progress site.graph V start {} s) (hFolds : Folds site.graph V)
    (hV : V id) (hTarget : ∀ id, k.target? = some id → Owns site.graph id) (op : Opcode)
    (commutative : Bool) :
    Ensures site s (coverCompare id op k commutative) fun _ s' =>
      Covers site.graph V start k.target?.toList s' := by
  unfold coverCompare
  simp only [ensures_bind, ensures_read, ensures_lift]
  intro m hm
  obtain ⟨⟨hLeft, -⟩, hRight, -⟩ := Graph.binary_feeds hm
  refine (tryOperand2_ensures h op (hFolds hV hRight)).mono ?_
  intro r s₁ h₁
  split
  · simp only [ensures_bind]
    refine (useAt_ensures h₁ hV hLeft .register).mono ?_
    intro x s₂ h₂
    exact emitFlags_covers h₂ hTarget _ _ _ _ rfl rfl rfl (by simp +contextual [operandsOf]) rfl
  · simp only [ensures_bind]
    refine (tryOperand2_ensures h₁ op (hFolds hV hLeft)).mono ?_
    intro r s₂ h₂
    split
    · simp only [ensures_bind]
      refine (useAt_ensures h₂ hV hRight .register).mono ?_
      intro x s₃ h₃
      -- With the operands exchanged the condition changes, but not the node that it makes.
      have hSame : (if commutative then k else k.commute).target? = k.target? := by
        cases commutative <;> rfl
      refine emitFlags_covers h₃ ?_ _ _ _ _ rfl rfl rfl (by simp +contextual [operandsOf]) ?_
      · rw [hSame]
        exact hTarget
      · rw [hSame]
        rfl
    · simp only [ensures_bind]
      refine (useAt_ensures h₂ hV hLeft .register).mono ?_
      intro x s₃ h₃
      refine (useAt_ensures h₃ hV hRight .register).mono ?_
      intro y s₄ h₄
      exact emitFlags_covers h₄ hTarget _ _ _ _ rfl rfl rfl (by simp) rfl

/-- A test of a value covers the node of its flags alone. -/
theorem coverTest_ensures (h : Progress site.graph V start {} s) (hw : V w)
    (hu : site.graph.Feeds w u) (hTarget : ∀ id, k.target? = some id → Owns site.graph id) :
    Ensures site s (coverTest u k) fun _ s' =>
      Covers site.graph V start k.target?.toList s' := by
  unfold coverTest
  simp only [ensures_bind]
  refine (useAt_ensures h hw hu .register).mono ?_
  intro x s₁ h₁
  exact emitFlags_covers h₁ hTarget _ _ _ _ rfl rfl rfl (by simp) rfl

/-- A shift is covered by a move with a shifted operand. -/
theorem coverShift_ensures (h : Progress site.graph V start {} s) (hV : V id)
    (hOwns : Owns site.graph id) (hTarget : ∀ id, k.target? = some id → Owns site.graph id) :
    Ensures site s (coverShift id k) fun _ s' =>
      Covers site.graph V start (id :: k.target?.toList) s' := by
  unfold coverShift
  simp only [ensures_bind]
  refine (tryShift_ensures h fun _ _ _ => hV).mono ?_
  intro r s₁ h₁
  split
  · simp only [ensures_bind]
    refine (define_ensures h₁ hOwns).mono ?_
    intro o s₂ h₂
    exact emitFlags_covers h₂ hTarget _ _ _ _ rfl rfl rfl (by simp [operandsOf]) rfl
  · simp only [ensures_bind, ensures_read, ensures_lift, ensures_throw]
    -- Without a rule for the shift the selection fails.
    exact fun _ _ => trivial

/-! ## Bits -/

/-- Bits are cleared with a complement that is taken in, shifted or not. -/
theorem coverClear_ensures (h : Progress site.graph V start {} s) (hFolds : Folds site.graph V)
    (hOwns : Owns site.graph id) {x y v : NodeId} (hv : V v) (hx : site.graph.Feeds v x)
    (hw : V w) (hy : site.graph.Feeds w y) :
    Ensures site s (coverClear id x y) fun _ s' => Covers site.graph V start [id] s' := by
  unfold coverClear
  simp only [ensures_bind]
  refine (define_ensures h hOwns).mono ?_
  intro o s₁ h₁
  refine (tryShift_ensures h₁ (hFolds hw hy)).mono ?_
  intro r s₂ h₂
  split
  · simp only [ensures_bind]
    refine (useAt_ensures h₂ hv hx .register).mono ?_
    intro x s₃ h₃
    exact emit_covers h₃ _ rfl rfl rfl (by simp +contextual [operandsOf]) rfl
  · simp only [ensures_bind]
    refine (useAt_ensures h₂ hv hx .register).mono ?_
    intro x s₃ h₃
    refine (useAt_ensures h₃ hw hy .register).mono ?_
    intro y s₄ h₄
    exact emit_covers h₄ _ rfl rfl rfl (by simp) rfl

/-- A bit field is covered from its word, whatever gives the position of its lowest bit. -/
theorem coverExtract_ensures (h : Progress site.graph V start {} s) (hOwns : Owns site.graph id)
    {base : NodeId} (hw : V w) (hBase : site.graph.Feeds w base) {lsb : Select Operand}
    (hLsb : ∀ {a s}, Progress site.graph V start a s →
      Ensures site s lsb fun o s' => Progress site.graph V start (a.read [o]) s') (width : Nat) :
    Ensures site s (coverExtract id base lsb width) fun _ s' =>
      Covers site.graph V start [id] s' := by
  unfold coverExtract
  simp only [ensures_bind]
  refine (define_ensures h hOwns).mono ?_
  intro o s₁ h₁
  refine (useAt_ensures h₁ hw hBase .register).mono ?_
  intro x s₂ h₂
  refine (hLsb h₂).mono ?_
  intro low s₃ h₃
  refine (immediate_ensures h₃ _).mono ?_
  intro count s₄ h₄
  exact emit_covers h₄ _ rfl rfl rfl (by simp) rfl

/-- A mask of low bits is a bit field, of the word or of what the word is shifted from. -/
theorem coverLowMask_ensures (h : Progress site.graph V start {} s) (hFolds : Folds site.graph V)
    (hOwns : Owns site.graph id) {left : Int32Match} (hw : V w)
    (hLeft : site.graph.Feeds w left.id) (hOp : site.graph.HasOp left.id left.op) (width : Nat) :
    Ensures site s (coverLowMask id left width) fun _ s' =>
      Covers site.graph V start [id] s' := by
  unfold coverLowMask
  simp only [ensures_bind, ensures_read]
  split
  · next hShr =>
    -- The word under the mask is a shift, so the field may be taken from its operand.
    have hV : V left.id := hFolds hw hLeft _ hOp (by rw [hShr]; rfl)
    simp only [ensures_bind, ensures_lift]
    intro m hm
    obtain ⟨⟨hBase, -⟩, -⟩ := Graph.binary_feeds hm
    split
    · simp only [ensures_bind, ensures_pure]
      exact coverExtract_ensures h hOwns hV hBase (fun h => useImmediate_ensures h) _
    · exact coverExtract_ensures h hOwns hw hLeft (fun h => immediate_ensures h _) _
  · exact coverExtract_ensures h hOwns hw hLeft (fun h => immediate_ensures h _) _

/-- Either a bit field instruction covers the node, or nothing is done. -/
theorem coverMask_ensures (h : Progress site.graph V start {} s) (hFolds : Folds site.graph V)
    (hOwns : Owns site.graph id) {left : Int32Match} (hw : V w)
    (hLeft : site.graph.Feeds w left.id) (hOp : site.graph.HasOp left.id left.op)
    (mask : BitVec 32) :
    Ensures site s (coverMask id left mask) fun done s' =>
      if done then Covers site.graph V start [id] s' else Progress site.graph V start {} s' := by
  unfold coverMask
  dsimp only
  split
  · simp only [ensures_bind, ensures_pure]
    exact coverLowMask_ensures h hFolds hOwns hw hLeft hOp _
  · split
    · simp only [ensures_bind, ensures_pure]
      -- A field that is cleared stays in its register, so the output is tied to the input.
      refine (defineAt_ensures h hOwns .sameAsFirst).mono ?_
      intro o s₁ h₁
      refine (useAt_ensures h₁ hw hLeft .register).mono ?_
      intro x s₂ h₂
      refine (immediate_ensures h₂ _).mono ?_
      intro low s₃ h₃
      refine (immediate_ensures h₃ _).mono ?_
      intro count s₄ h₄
      exact emit_covers h₄ _ rfl rfl rfl (by simp) rfl
    · exact (ensures_pure _ _).mpr h

/-- Whether `user` and `id` stand in the same block, and `id` has only one use that is placed. -/
def CoveredBy (site : Site) (user id : NodeId) : Prop :=
  site.schedule.blockOf id = site.schedule.blockOf user ∧
    ((site.graph.edgesTo id).filter fun u => (site.schedule.blockOf u.user).isSome).length = 1

/-- A node may be covered only together with its one user in the same block. -/
theorem canCover_ensures (user id : NodeId) :
    Ensures site s (canCover user id) fun b s' => s' = s ∧ (b = true → CoveredBy site user id) := by
  unfold canCover
  simp only [ensures_bind, ensures_read]
  split
  · simp [ensures_pure]
  · next hBlock =>
    simp only [ensures_bind, ensures_lift, ensures_pure]
    intro uses hUses
    refine ⟨trivial, fun hOne => ⟨Decidable.not_not.mp hBlock, ?_⟩⟩
    unfold Graph.uses at hUses
    split at hUses
    · cases hUses
      exact beq_iff_eq.mp hOne
    · cases hUses

/-- A look at the features changes nothing. -/
theorem has_ensures (f : Feature) : Ensures site s (has f) fun _ s' => s' = s := by
  unfold has
  simp only [ensures_bind, ensures_read, ensures_pure]

/-- What is found is the operand of a complement, an exclusive or with all ones, that may be
covered. -/
theorem coveredComplement?_ensures (user id : NodeId) :
    Ensures site s (coveredComplement? user id) fun r s' =>
      s' = s ∧ ∀ x, r = some x → site.graph.HasOp id (.word32 .xor) ∧ site.graph.Feeds id x := by
  unfold coveredComplement?
  simp only [ensures_bind, ensures_read, ensures_lift]
  intro r hr
  split
  · simp only [ensures_bind, ensures_pure]
    refine (canCover_ensures user id).mono ?_
    rintro b s' ⟨rfl, -⟩
    refine ⟨rfl, ?_⟩
    intro y hy
    split at hy
    · cases hy
      exact Graph.complementOf?_feeds hr
    · cases hy
  · simp [ensures_pure]

/-- A conjunction is covered as a clear, a bit field or a plain operation. -/
theorem coverAnd_ensures (h : Progress site.graph V start {} s) (hFolds : Folds site.graph V)
    (hV : V id) (hOwns : Owns site.graph id) :
    Ensures site s (coverAnd id) fun _ s' => Covers site.graph V start [id] s' := by
  have hBinary : ∀ {s}, Progress site.graph V start {} s →
      Ensures site s (coverBinary id .and .and {}) fun _ s' => Covers site.graph V start [id] s' :=
    fun h => coverBinary_ensures h hFolds hV hOwns (by rintro _ ⟨⟩) .and .and
  unfold coverAnd
  simp only [ensures_bind, ensures_read, ensures_lift]
  intro m hm
  obtain ⟨⟨hLeft, hLeftOp⟩, hRight, -⟩ := Graph.binary_feeds hm
  -- A complement is looked for on the left, then on the right, then a mask that is a field.
  refine (coveredComplement?_ensures id m.left.id).mono ?_
  rintro r _ ⟨rfl, hr⟩
  split
  · next x =>
    obtain ⟨hXor, hx⟩ := hr x rfl
    exact coverClear_ensures h hFolds hOwns hV hRight (hFolds hV hLeft _ hXor rfl) hx
  · simp only [ensures_bind]
    refine (coveredComplement?_ensures id m.right.id).mono ?_
    rintro r _ ⟨rfl, hr⟩
    split
    · next x =>
      obtain ⟨hXor, hx⟩ := hr x rfl
      exact coverClear_ensures h hFolds hOwns hV hLeft (hFolds hV hRight _ hXor rfl) hx
    · simp only [ensures_bind]
      refine (has_ensures .armv7).mono ?_
      rintro b _ rfl
      split
      · split
        · simp only [ensures_bind]
          refine (coverMask_ensures h hFolds hOwns hV hLeft hLeftOp _).mono ?_
          intro done s₁ h₁
          split
          · next hDone =>
            rw [if_pos hDone] at h₁
            exact (ensures_pure _ _).mpr h₁
          · next hDone =>
            rw [if_neg hDone] at h₁
            exact hBinary h₁
        · exact hBinary h
      · exact hBinary h

/-- An exclusive or is covered as a complement or a plain operation. -/
theorem coverXor_ensures (h : Progress site.graph V start {} s) (hFolds : Folds site.graph V)
    (hV : V id) (hOwns : Owns site.graph id) :
    Ensures site s (coverXor id) fun _ s' => Covers site.graph V start [id] s' := by
  unfold coverXor
  simp only [ensures_bind, ensures_read, ensures_lift]
  intro m hm
  obtain ⟨⟨hLeft, -⟩, -⟩ := Graph.binary_feeds hm
  -- an exclusive or, or with all ones a complement, whose operand may be shifted
  split
  · exact coverBinary_ensures h hFolds hV hOwns (by rintro _ ⟨⟩) .eor .eor
  · simp only [ensures_bind]
    refine (define_ensures h hOwns).mono ?_
    intro o s₁ h₁
    refine (tryShift_ensures h₁ (hFolds hV hLeft)).mono ?_
    intro r s₂ h₂
    split
    · exact emit_covers h₂ _ rfl rfl rfl (by simp +contextual [operandsOf]) rfl
    · simp only [ensures_bind]
      refine (useAt_ensures h₂ hV hLeft .register).mono ?_
      intro x s₃ h₃
      exact emit_covers h₃ _ rfl rfl rfl (by simp) rfl

/-- A shift of a mask to the right is a bit field where the mask is a run of ones from the shift on.
-/
theorem coverShr_ensures (h : Progress site.graph V start {} s) (hFolds : Folds site.graph V)
    (hV : V id) (hOwns : Owns site.graph id) :
    Ensures site s (coverShr id) fun _ s' => Covers site.graph V start [id] s' := by
  have hShift : ∀ {s}, Progress site.graph V start {} s →
      Ensures site s (coverShift id {}) fun _ s' => Covers site.graph V start [id] s' :=
    fun h => coverShift_ensures h hV hOwns (by rintro _ ⟨⟩)
  unfold coverShr
  simp only [ensures_bind, ensures_read, ensures_lift]
  intro m hm
  obtain ⟨⟨hLeft, hLeftOp⟩, -⟩ := Graph.binary_feeds hm
  refine (has_ensures .armv7).mono ?_
  rintro b _ rfl
  split
  · next hMask =>
    simp only [Bool.and_eq_true, decide_eq_true_eq] at hMask
    simp only [ensures_bind, ensures_lift]
    intro r hr
    split
    · simp only [ensures_bind, ensures_pure]
      -- The mask is taken in, so the field is read from its operand.
      have hAnd : V m.left.id := hFolds hV hLeft _ hLeftOp (by rw [hMask.1.2]; rfl)
      exact coverExtract_ensures h hOwns hAnd (Graph.shiftedField?_feeds hr)
        (fun h => useImmediate_ensures h) _
    · exact hShift h
  · exact hShift h

/-! ## Sums and products -/

/-- A product with an addend reads the factors of the product, which is taken in. -/
theorem emitMultiply_ensures (h : Progress site.graph V start {} s) (hOwns : Owns site.graph id)
    {product addend : NodeId} (hProduct : V product) (hw : V w)
    (hAddend : site.graph.Feeds w addend) (op : Opcode) :
    Ensures site s (emitMultiply op id product addend) fun _ s' =>
      Covers site.graph V start [id] s' := by
  unfold emitMultiply
  simp only [ensures_bind, ensures_read, ensures_lift]
  intro m hm
  obtain ⟨⟨hLeft, -⟩, hRight, -⟩ := Graph.binary_feeds hm
  refine (define_ensures h hOwns).mono ?_
  intro o s₁ h₁
  refine (useAt_ensures h₁ hProduct hLeft .register).mono ?_
  intro x s₂ h₂
  refine (useAt_ensures h₂ hProduct hRight .register).mono ?_
  intro y s₃ h₃
  refine (useAt_ensures h₃ hw hAddend .register).mono ?_
  intro z s₄ h₄
  exact emit_covers h₄ _ rfl rfl rfl (by simp) rfl

/-- Only an operand with the operator of a product is taken in. -/
theorem isCoveredProduct_ensures (op : Operator) (user : NodeId) (m : Int32Match) :
    Ensures site s (isCoveredProduct op user m) fun b s' => s' = s ∧ (b = true → m.op = op) := by
  unfold isCoveredProduct
  split
  · simp [ensures_pure]
  · next hOp =>
    refine (canCover_ensures user m.id).mono ?_
    rintro b s' ⟨rfl, -⟩
    exact ⟨rfl, fun _ => Decidable.not_not.mp hOp⟩

/-- A sum takes in a product on the left, or else on the right. -/
theorem coverAdd_ensures (h : Progress site.graph V start {} s) (hFolds : Folds site.graph V)
    (hV : V id) (hOwns : Owns site.graph id) :
    Ensures site s (coverAdd id) fun _ s' => Covers site.graph V start [id] s' := by
  unfold coverAdd
  simp only [ensures_bind, ensures_read, ensures_lift]
  intro m hm
  obtain ⟨⟨hLeft, hLeftOp⟩, hRight, hRightOp⟩ := Graph.binary_feeds hm
  -- The factors of a product that is taken in are read in its place, and the other operand is.
  refine (isCoveredProduct_ensures _ _ _).mono ?_
  rintro b _ ⟨rfl, hMul⟩
  split
  · next hb =>
    exact emitMultiply_ensures h hOwns (hFolds hV hLeft _ hLeftOp (by rw [hMul hb]; rfl)) hV hRight _
  · simp only [ensures_bind]
    refine (isCoveredProduct_ensures _ _ _).mono ?_
    rintro b _ ⟨rfl, hMul⟩
    split
    · next hb =>
      exact emitMultiply_ensures h hOwns (hFolds hV hRight _ hRightOp (by rw [hMul hb]; rfl)) hV
        hLeft _
    · exact coverBinary_ensures h hFolds hV hOwns (by rintro _ ⟨⟩) _ _

/-- A difference takes in a product on the right alone. -/
theorem coverSub_ensures (h : Progress site.graph V start {} s) (hFolds : Folds site.graph V)
    (hV : V id) (hOwns : Owns site.graph id) :
    Ensures site s (coverSub id) fun _ s' => Covers site.graph V start [id] s' := by
  have hBinary : ∀ {s}, Progress site.graph V start {} s →
      Ensures site s (coverBinary id .sub .rsb {}) fun _ s' => Covers site.graph V start [id] s' :=
    fun h => coverBinary_ensures h hFolds hV hOwns (by rintro _ ⟨⟩) _ _
  unfold coverSub
  simp only [ensures_bind, ensures_read, ensures_lift]
  intro m hm
  obtain ⟨⟨hLeft, -⟩, hRight, hRightOp⟩ := Graph.binary_feeds hm
  refine (has_ensures .mls).mono ?_
  rintro b _ rfl
  split
  · simp only [ensures_bind]
    refine (isCoveredProduct_ensures _ _ _).mono ?_
    rintro b _ ⟨rfl, hMul⟩
    split
    · next hb =>
      simp only [ensures_bind, ensures_pure]
      -- What is subtracted is a product: its factors are read in its place.
      exact emitMultiply_ensures h hOwns (hFolds hV hRight _ hRightOp (by rw [hMul hb]; rfl)) hV
        hLeft _
    · exact hBinary h
  · exact hBinary h

/-- A product by a number next to a power of two reads the other factor twice, any other its two
factors. -/
theorem coverMul_ensures (h : Progress site.graph V start {} s) (hV : V id)
    (hOwns : Owns site.graph id) :
    Ensures site s (coverMul id) fun _ s' => Covers site.graph V start [id] s' := by
  unfold coverMul
  simp only [ensures_bind, ensures_read, ensures_lift]
  intro m hm
  obtain ⟨⟨hLeft, -⟩, hRight, -⟩ := Graph.binary_feeds hm
  split
  · simp only [ensures_bind]
    refine (define_ensures h hOwns).mono ?_
    intro o s₁ h₁
    -- The factor comes once as it is and once shifted.
    refine (useAt_ensures h₁ hV hLeft .register).mono ?_
    intro x s₂ h₂
    refine (useAt_ensures h₂ hV hLeft .register).mono ?_
    intro y s₃ h₃
    refine (immediate_ensures h₃ _).mono ?_
    intro z s₄ h₄
    exact emit_covers h₄ _ rfl rfl rfl (by simp) rfl
  · simp only [ensures_bind]
    refine (define_ensures h hOwns).mono ?_
    intro o s₁ h₁
    refine (useAt_ensures h₁ hV hLeft .register).mono ?_
    intro x s₂ h₂
    refine (useAt_ensures h₂ hV hRight .register).mono ?_
    intro y s₃ h₃
    exact emit_covers h₃ _ rfl rfl rfl (by simp) rfl

/-! ## Division -/

/-- Whether each instruction so far reads only operands of the account and temporaries that an
earlier one wrote. -/
def Account.Follows (a : Account) : Prop :=
  ∀ front i rest, a.code = front ++ i :: rest → ∀ o ∈ i.inputs,
    o ∈ a.reads ∨ o.register? = none ∨ (o ∈ a.temps ∧ o ∈ front.flatMap Instr.out)

/-- A new temporary is not read yet. -/
theorem Account.Follows.temp (h : a.Follows) (o : Operand) : (a.temp o).Follows := by
  intro front i rest hSplit x hx
  rcases h front i rest hSplit x hx with hRead | hNone | ⟨hTemp, hOut⟩
  · exact .inl hRead
  · exact .inr (.inl hNone)
  · exact .inr (.inr ⟨List.mem_append_left _ hTemp, hOut⟩)

/-- An instruction may read what the account has read, and temporaries that were written before it.
-/
theorem Account.Follows.emit (h : a.Follows) {i : Instr}
    (hi : ∀ o ∈ i.inputs, o ∈ a.reads ∨ (o ∈ a.temps ∧ o ∈ a.code.flatMap Instr.out)) :
    (a.emit i).Follows := by
  intro front j rest hSplit x hx
  -- The instruction in question is the last one, or it was there before.
  rcases List.eq_nil_or_concat rest with rfl | ⟨init, last, rfl⟩
  · obtain ⟨hFront, hEq⟩ := List.append_inj' hSplit rfl
    rw [← List.singleton_inj.mp hEq] at hx
    rw [← hFront]
    exact (hi x hx).imp id Or.inr
  · rw [List.concat_eq_append, ← List.cons_append, ← List.append_assoc] at hSplit
    exact h front j init (List.append_inj' hSplit rfl).1 x hx

/-- A division, by one instruction or through doubles, writes its output and its temporaries. -/
theorem emitDivision_ensures (h : Progress site.graph V start a s) (hFollows : a.Follows)
    {left right : Operand} (hLeft : left ∈ a.reads) (hRight : right ∈ a.reads)
    (ops : DivisionOps) (out : Operand) :
    Ensures site s (emitDivision ops out left right) fun _ s' =>
      ∃ a' : Account, Progress site.graph V start a' s' ∧ a'.Follows ∧ a'.reads = a.reads ∧
        a'.defs = a.defs ∧ (∀ o ∈ a.temps, o ∈ a'.temps) ∧ ∃ ts, a'.temps = a.temps ++ ts ∧
          (a'.code.flatMap Instr.out).Perm (a.code.flatMap Instr.out ++ out :: ts) := by
  unfold emitDivision
  simp only [ensures_bind]
  refine (has_ensures .sudiv).mono ?_
  rintro b _ rfl
  -- Hardware divides in one instruction; otherwise the operands become doubles, and the quotient a
  -- word again.
  split
  · refine (emit_ensures h _).mono ?_
    intro _ s₁ h₁
    refine ⟨_, h₁, hFollows.emit ?_, rfl, rfl, fun o ho => ho, [], (List.append_nil _).symm, ?_⟩
    · simp [hLeft, hRight]
    · simp [Account.emit]
  · simp only [ensures_bind]
    refine (tempDouble_ensures h).mono ?_
    intro l s₁ h₁
    refine (tempDouble_ensures h₁).mono ?_
    intro r s₂ h₂
    refine (tempDouble_ensures h₂).mono ?_
    intro q s₃ h₃
    refine (emit_ensures h₃ _).mono ?_
    intro _ s₄ h₄
    refine (emit_ensures h₄ _).mono ?_
    intro _ s₅ h₅
    refine (emit_ensures h₅ _).mono ?_
    intro _ s₆ h₆
    refine (emit_ensures h₆ _).mono ?_
    intro _ s₇ h₇
    refine ⟨_, h₇, ((((hFollows.temp l).temp r).temp q).emit ?_ |>.emit ?_ |>.emit ?_ |>.emit ?_),
      rfl, rfl, ?_, [l, r, q], ?_, ?_⟩
    · -- Each of the four instructions reads an operand or what one before it has written.
      simp [hLeft]
    · simp [hRight]
    · simp [Account.temp, Account.emit]
    · simp [Account.temp, Account.emit]
    · simp +contextual [Account.temp, Account.emit]
    · simp [Account.temp, Account.emit]
    · simp only [Account.temp, Account.emit, List.flatMap_append, List.flatMap_cons,
        List.flatMap_nil, List.append_nil, List.append_assoc]
      have hLast : ([l, r, q] ++ [out]).Perm ([out] ++ [l, r, q]) := List.perm_append_comm
      exact hLast.append_left _

/-- A quotient is computed from the two operands, in hardware or through doubles. -/
theorem coverDivision_ensures (h : Progress site.graph V start {} s) (hV : V id)
    (hOwns : Owns site.graph id) (ops : DivisionOps) :
    Ensures site s (coverDivision id ops) fun _ s' => Covers site.graph V start [id] s' := by
  unfold coverDivision
  simp only [ensures_bind, ensures_read, ensures_lift]
  intro m hm
  obtain ⟨⟨hLeft, -⟩, hRight, -⟩ := Graph.binary_feeds hm
  refine (define_ensures h hOwns).mono ?_
  intro o s₁ h₁
  refine (useAt_ensures h₁ hV hLeft .register).mono ?_
  intro x s₂ h₂
  refine (useAt_ensures h₂ hV hRight .register).mono ?_
  intro y s₃ h₃
  refine (emitDivision_ensures h₃ (by simp [Account.Follows, Account.read, Account.define])
    (by simp) (by simp) ops o).mono ?_
  rintro _ s₄ ⟨a, h₄, hFollows, -, hDefs, -, ts, hTemps, hOut⟩
  -- The temporaries of the division are all written, and the output is that of the node.
  refine ⟨a, h₄, ⟨hFollows, ?_⟩, by rw [hDefs]; rfl⟩
  rw [hDefs, hTemps]
  exact hOut

/-- A remainder is computed from a quotient in a temporary: its product with the divisor is
subtracted, in one instruction or two. -/
theorem coverRemainder_ensures (h : Progress site.graph V start {} s) (hV : V id)
    (hOwns : Owns site.graph id) (ops : DivisionOps) :
    Ensures site s (coverRemainder id ops) fun _ s' => Covers site.graph V start [id] s' := by
  unfold coverRemainder
  simp only [ensures_bind, ensures_read, ensures_lift]
  intro m hm
  obtain ⟨⟨hLeft, -⟩, hRight, -⟩ := Graph.binary_feeds hm
  refine (define_ensures h hOwns).mono ?_
  intro o s₁ h₁
  refine (useAt_ensures h₁ hV hLeft .register).mono ?_
  intro x s₂ h₂
  refine (useAt_ensures h₂ hV hRight .register).mono ?_
  intro y s₃ h₃
  refine (tempRegister_ensures h₃).mono ?_
  intro q s₄ h₄
  refine (emitDivision_ensures h₄ (by simp [Account.Follows, Account.read, Account.define,
    Account.temp]) (by simp) (by simp) ops q).mono ?_
  rintro _ s₅ ⟨a, h₅, hFollows, hReads, hDefs, hKept, ts, hTemps, hOut⟩
  -- The quotient is there, so the instructions that follow may read it.
  have hQuotient : q ∈ a.temps ∧ q ∈ a.code.flatMap Instr.out := by
    refine ⟨hKept q (by simp [Account.temp]), hOut.mem_iff.mpr ?_⟩
    simp
  have hxy : x ∈ a.reads ∧ y ∈ a.reads := by
    rw [hReads]
    simp
  refine (has_ensures .mls).mono ?_
  rintro b _ rfl
  split
  · refine (emit_ensures h₅ _).mono ?_
    intro _ s₆ h₆
    refine ⟨_, h₆, ⟨hFollows.emit ?_, ?_⟩, by rw [Account.emit, hDefs]; rfl⟩
    · simp only [List.mem_cons, List.not_mem_nil, or_false]
      rintro _ (rfl | rfl | rfl)
      · exact .inr hQuotient
      · exact .inl hxy.2
      · exact .inl hxy.1
    · -- What is written is the output and the temporaries, in another order.
      simp only [Account.emit, List.flatMap_append, List.flatMap_cons, List.flatMap_nil,
        List.append_nil, hDefs, hTemps]
      have hLast : ((q :: ts) ++ [o]).Perm ([o] ++ q :: ts) := List.perm_append_comm
      exact (hOut.append_right _).trans hLast
  · simp only [ensures_bind]
    -- Without a multiply and subtract the product needs a temporary of its own.
    refine (tempRegister_ensures h₅).mono ?_
    intro p s₆ h₆
    refine (emit_ensures h₆ _).mono ?_
    intro _ s₇ h₇
    refine (emit_ensures h₇ _).mono ?_
    intro _ s₈ h₈
    refine ⟨_, h₈, ⟨((hFollows.temp p).emit ?_).emit ?_, ?_⟩,
      by rw [Account.emit, Account.emit, Account.temp, hDefs]; rfl⟩
    · simp only [List.mem_cons, List.not_mem_nil, or_false]
      rintro _ (rfl | rfl)
      · exact .inr ⟨List.mem_append_left _ hQuotient.1, hQuotient.2⟩
      · exact .inl hxy.2
    · simp [Account.temp, Account.emit, hxy]
    · simp only [Account.emit, Account.temp, List.flatMap_append, List.flatMap_cons,
        List.flatMap_nil, List.append_nil, hDefs, hTemps, List.append_assoc]
      have hLast : ((q :: ts ++ [p]) ++ [o]).Perm ([o] ++ (q :: ts ++ [p])) :=
        List.perm_append_comm
      rw [List.append_assoc] at hLast
      exact (hOut.append_right _).trans hLast

/-! ## Doubles -/

/-- A unary node is covered from its one operand. -/
theorem coverUnary_ensures (h : Progress site.graph V start {} s) (hV : V id)
    (hOwns : Owns site.graph id) (op : Opcode) :
    Ensures site s (coverUnary id op) fun _ s' => Covers site.graph V start [id] s' := by
  unfold coverUnary
  simp only [ensures_bind, ensures_read, ensures_lift]
  refine (define_ensures h hOwns).mono ?_
  intro o s₁ h₁ x hx
  refine (useAt_ensures h₁ hV (Graph.valueIn_feeds hx) .register).mono ?_
  intro y s₂ h₂
  exact emit_covers h₂ _ rfl rfl rfl (by simp) rfl

/-- A node of doubles is covered from its two operands, which stay in registers. -/
theorem coverDoubles_ensures (hVerify : site.graph.verify = .ok ())
    (h : Progress site.graph V start {} s) (hV : V id) (hOwns : Owns site.graph id)
    {f : Float64Op} (hOp : site.graph.HasOp id (.float64 f)) (op : Opcode) :
    Ensures site s (coverDoubles id op) fun _ s' => Covers site.graph V start [id] s' := by
  unfold coverDoubles
  simp only [ensures_bind, ensures_read, ensures_lift]
  intro n hn
  -- Verification has counted the inputs, so both are value inputs.
  have hCount := Graph.valueCount_of_op hVerify hOp hn rfl
  refine (define_ensures h hOwns).mono ?_
  intro o s₁ h₁ x hx
  refine (useAt_ensures h₁ hV (Graph.feeds_of_input hn hx (by omega)) .register).mono ?_
  intro l s₂ h₂ y hy
  refine (useAt_ensures h₂ hV (Graph.feeds_of_input hn hy (by omega)) .register).mono ?_
  intro r s₃ h₃
  exact emit_covers h₃ _ rfl rfl rfl (by simp) rfl

/-- Only a product of doubles is taken in. -/
theorem isCoveredDoubleProduct_ensures (user id : NodeId) :
    Ensures site s (isCoveredDoubleProduct user id) fun b s' =>
      s' = s ∧ (b = true → site.graph.HasOp id (.float64 .mul)) := by
  unfold isCoveredDoubleProduct
  simp only [ensures_bind, ensures_read, ensures_lift]
  intro op hOp
  split
  · simp [ensures_pure]
  · next hMul =>
    refine (canCover_ensures user id).mono ?_
    rintro b s' ⟨rfl, -⟩
    refine ⟨rfl, fun _ => ?_⟩
    rw [Decidable.not_not.mp hMul] at hOp
    exact Graph.op_eq_ok.mp hOp

/-- A product of doubles is added to or subtracted from an operand in the register of the output. -/
theorem emitAccumulate_ensures (hVerify : site.graph.verify = .ok ())
    (h : Progress site.graph V start {} s) (hOwns : Owns site.graph id) {product x : NodeId}
    (hProduct : V product) (hOp : site.graph.HasOp product (.float64 .mul)) (hw : V w)
    (hx : site.graph.Feeds w x) (op : Opcode) :
    Ensures site s (emitAccumulate op id product x) fun _ s' =>
      Covers site.graph V start [id] s' := by
  unfold emitAccumulate
  simp only [ensures_bind, ensures_read, ensures_lift]
  intro n hn
  -- The output is tied to the accumulator, which is read first; then come the factors of the
  -- product.
  have hCount := Graph.valueCount_of_op hVerify hOp hn rfl
  refine (defineAt_ensures h hOwns .sameAsFirst).mono ?_
  intro o s₁ h₁
  refine (useAt_ensures h₁ hw hx .register).mono ?_
  intro z s₂ h₂ y hy
  refine (useAt_ensures h₂ hProduct (Graph.feeds_of_input hn hy (by omega)) .register).mono ?_
  intro l s₃ h₃ y' hy'
  refine (useAt_ensures h₃ hProduct (Graph.feeds_of_input hn hy' (by omega)) .register).mono ?_
  intro r s₄ h₄
  exact emit_covers h₄ _ rfl rfl rfl (by simp) rfl

/-- A sum of doubles takes in a product on the left, or else on the right. -/
theorem coverDoubleAdd_ensures (hVerify : site.graph.verify = .ok ())
    (h : Progress site.graph V start {} s) (hFolds : Folds site.graph V) (hV : V id)
    (hOwns : Owns site.graph id) (hOp : site.graph.HasOp id (.float64 .add)) :
    Ensures site s (coverDoubleAdd id) fun _ s' => Covers site.graph V start [id] s' := by
  unfold coverDoubleAdd
  simp only [ensures_bind, ensures_read, ensures_lift]
  intro n hn x hx y hy
  have hCount := Graph.valueCount_of_op hVerify hOp hn rfl
  have hLeft := Graph.feeds_of_input hn hx (by omega)
  have hRight := Graph.feeds_of_input hn hy (by omega)
  -- The product that is taken in gives its factors, and the other operand is accumulated on.
  refine (isCoveredDoubleProduct_ensures id x).mono ?_
  rintro b _ ⟨rfl, hMul⟩
  split
  · next hb =>
    exact emitAccumulate_ensures hVerify h hOwns (hFolds hV hLeft _ (hMul hb) rfl) (hMul hb) hV
      hRight _
  · simp only [ensures_bind]
    refine (isCoveredDoubleProduct_ensures id y).mono ?_
    rintro b _ ⟨rfl, hMul⟩
    split
    · next hb =>
      exact emitAccumulate_ensures hVerify h hOwns (hFolds hV hRight _ (hMul hb) rfl) (hMul hb) hV
        hLeft _
    · exact coverDoubles_ensures hVerify h hV hOwns hOp _

/-- A difference of doubles takes in a product on the right alone. -/
theorem coverDoubleSub_ensures (hVerify : site.graph.verify = .ok ())
    (h : Progress site.graph V start {} s) (hFolds : Folds site.graph V) (hV : V id)
    (hOwns : Owns site.graph id) (hOp : site.graph.HasOp id (.float64 .sub)) :
    Ensures site s (coverDoubleSub id) fun _ s' => Covers site.graph V start [id] s' := by
  unfold coverDoubleSub
  simp only [ensures_bind, ensures_read, ensures_lift]
  intro n hn y hy
  have hCount := Graph.valueCount_of_op hVerify hOp hn rfl
  have hRight := Graph.feeds_of_input hn hy (by omega)
  -- A product on the left is no use: what is subtracted from has to be the accumulator.
  refine (isCoveredDoubleProduct_ensures id y).mono ?_
  rintro b _ ⟨rfl, hMul⟩
  split
  · next hb =>
    simp only [ensures_bind, ensures_lift]
    intro x hx
    exact emitAccumulate_ensures hVerify h hOwns (hFolds hV hRight _ (hMul hb) rfl) (hMul hb) hV
      (Graph.feeds_of_input hn hx (by omega)) _
  · exact coverDoubles_ensures hVerify h hV hOwns hOp _

/-- A comparison of doubles covers the node of its flags alone. -/
theorem coverDoubleCompare_ensures (hVerify : site.graph.verify = .ok ())
    (h : Progress site.graph V start {} s) (hV : V id) {f : Float64Op}
    (hOp : site.graph.HasOp id (.float64 f))
    (hTarget : ∀ id, k.target? = some id → Owns site.graph id) :
    Ensures site s (coverDoubleCompare id k) fun _ s' =>
      Covers site.graph V start k.target?.toList s' := by
  unfold coverDoubleCompare
  simp only [ensures_bind, ensures_read, ensures_lift]
  intro n hn x hx
  have hCount := Graph.valueCount_of_op hVerify hOp hn rfl
  refine (useAt_ensures h hV (Graph.feeds_of_input hn hx (by omega)) .register).mono ?_
  intro l s₁ h₁ y hy
  refine (useAt_ensures h₁ hV (Graph.feeds_of_input hn hy (by omega)) .register).mono ?_
  intro r s₂ h₂
  exact emitFlags_covers h₂ hTarget _ _ _ _ rfl rfl rfl (by simp) rfl

end Selection
end ArmBackend
