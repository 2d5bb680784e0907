import ArmBackend.Proofs.BitRuns
import ArmBackend.Proofs.Selection.Draft
import ArmBackend.Proofs.Selection.Values

/-!
# What the rules of words emit

The rules for the flexible operand, for bits and for integer arithmetic emit instructions whose
operands suit them, from whatever graph. A rule that may put the flags to use emits exactly one
instruction (`Flagged`); the others emit instructions that end no block (`Inner`).

## Results

* `tryOperand2_drafts` — a number or a shifted register that is found fits the opcode that asked.
* `coverBinary_drafts`, `coverCompare_drafts` — also with the operands the other way round.
-/

namespace ArmBackend.Selection

variable {site : Site} {start : Stream} {ops : List (Operand × Form)} {s s' : State}
  {id u : NodeId} {k : Continuation} {op : Opcode}

/-! ## Numbers -/

/-- A small number is itself when read as a signed word. -/
theorem toInt_ofNat {n : Nat} (h : n ≤ 32) : (BitVec.ofNat 32 n).toInt = n := by
  rw [BitVec.toInt_eq_toNat_cond, BitVec.toNat_ofNat]
  omega

/-- A number that is not negative reads the same with and without a sign. -/
theorem toNat_of_nonneg {v : BitVec 32} (h : 0 ≤ v.toInt) : (v.toNat : Int) = v.toInt := by
  have hLt := v.isLt
  rw [BitVec.toInt_eq_toNat_cond] at h ⊢
  split at h <;> omega

/-! ## The flexible operand -/

/-- The operands of a binary node are matched as they stand in the graph. -/
theorem binary_matches {g : Graph} {m : BinaryMatch} (h : g.binary id = .ok m) :
    g.int32 m.left.id = .ok m.left ∧ g.int32 m.right.id = .ok m.right := by
  unfold Graph.binary at h
  simp only [bind_eq_ok, check_eq_ok] at h
  obtain ⟨n, -, -, a, -, l, hl, b, -, r, hr, -, h⟩ := h
  have hlId := (Graph.int32_eq_ok hl).1
  have hrId := (Graph.int32_eq_ok hr).1
  split at h
  · cases pure_eq_ok.mp h
    exact ⟨hrId.symm ▸ hr, hlId.symm ▸ hl⟩
  · cases pure_eq_ok.mp h
    exact ⟨hlId.symm ▸ hl, hrId.symm ▸ hr⟩

/-- More operands are taken, and a flexible operand that was found suits the opcode. -/
def Yields (features : Features) (start : Stream) (ops : List (Operand × Form)) (op : Opcode)
    (r : Option Operand2) (s : State) : Prop :=
  ∃ ops', ops ⊆ ops' ∧ Draft features start ops' [] s ∧
    ∀ x, r = some x → ∃ forms, op.Flexible x.mode forms ∧ Row ops' x.operands forms

/-- The amounts that a rule takes are those of its shift. -/
theorem shiftRule?_allows {operator : Operator} {rule : ShiftRule} {v : BitVec 32}
    (h : shiftRule? operator = some rule) (hv : rule.least ≤ v.toInt ∧ v.toInt ≤ rule.greatest) :
    rule.kind.Allows v := by
  unfold shiftRule? at h
  split at h <;> cases h <;> exact hv

/-- A shift that is found has operands that suit it. -/
theorem tryShift_drafts (h : Draft site.features start ops [] s) (op : Opcode) :
    Ensures site s (tryShift id) fun r s' => Yields site.features start ops op r s' := by
  refine ensures_tryShift (fun _ _ _ => ⟨ops, fun _ hp => hp, h, nofun⟩) ?_
  intro operator rule m _ hRule hm
  refine (useRegister_drafts h).mono ?_
  refine fun value s₁ h₁ => ⟨fun hRange => ?_, ?_⟩
  · refine (useImmediate_drafts h₁ (binary_matches hm).2).mono ?_
    rintro amount s₂ ⟨v, hv, h₂⟩
    refine ⟨_, by simp, h₂, ?_⟩
    rintro x ⟨⟩
    -- the range that was tested is the one the shifter encodes
    have hAllows : rule.least ≤ v.toInt ∧ v.toInt ≤ rule.greatest := by
      simpa [Int32Match.isInRange, hv] using hRange
    exact ⟨_, .shift (shiftRule?_allows hRule hAllows), by simp [Row]⟩
  · refine (useRegister_drafts h₁).mono ?_
    intro amount s₂ h₂
    refine ⟨_, by simp, h₂, ?_⟩
    rintro x ⟨⟩
    exact ⟨_, .shiftRegister rule.kind, by simp [Row]⟩

/-- A flexible operand that is found suits the opcode. -/
theorem tryOperand2_drafts (h : Draft site.features start ops [] s) (op : Opcode) :
    Ensures site s (tryOperand2 op id) fun r s' => Yields site.features start ops op r s' := by
  refine ensures_tryOperand2 (fun m hm hFits => ?_) fun _ _ _ => tryShift_drafts h op
  refine (useImmediate_drafts h hm).mono ?_
  rintro o s₁ ⟨v, hv, h₁⟩
  refine ⟨_, by simp, h₁, ?_⟩
  rintro x ⟨⟩
  rw [hv, Option.any_some] at hFits
  exact ⟨_, .number hFits, by simp [Row]⟩

/-- A row of registers. -/
theorem Row.registers {front : List Operand} (h : ∀ o ∈ front, (o, Form.register) ∈ ops) :
    Row ops front (List.replicate front.length .register) := by
  induction front with
  | nil => exact .nil
  | cons o front ih =>
    exact .cons (h o List.mem_cons_self) (ih fun o ho => h o (List.mem_cons_of_mem _ ho))

/-- A data processing instruction with registers in front of its flexible operand. -/
theorem emitFlags_flexible (front : List Operand) {mode : AddrMode} {operands out : List Operand}
    {forms : List Form} (h : Draft site.features start ops [] s) (k : Continuation)
    (hOp : op.IsFlexible front.length) (hFlexible : op.Flexible mode forms)
    (hFront : ∀ o ∈ front, (o, Form.register) ∈ ops) (hRow : Row ops operands forms)
    (hOut : ∀ o ∈ out, (o, Form.register) ∈ ops) :
    Ensures site s (emitFlags op mode k out (front ++ operands)) fun _ s' =>
      Flagged site.features start k s' := by
  obtain ⟨-, -, hEnd⟩ := hOp.basic
  exact emitFlags_drafts h k ((Row.registers hFront).append hRow) (.flexible hOp hFlexible) hOut hEnd

/-- A binary rule emits one instruction, and sets the flags if asked to. -/
theorem coverBinary_drafts (h : Draft site.features start ops [] s) {reverse : Opcode}
    (hOp : op.IsFlexible 1) (hReverse : reverse.IsFlexible 1) (k : Continuation) :
    Ensures site s (coverBinary id op reverse k) fun _ s' =>
      Flagged site.features start k s' := by
  unfold coverBinary
  simp only [ensures_bind, ensures_read, ensures_lift]
  intro m _
  -- Equal operands, then a flexible one on the right, then on the left, then none.
  split
  · simp only [ensures_bind]
    refine (useRegister_drafts h).mono ?_
    intro x s₁ h₁
    refine (define_drafts h₁).mono ?_
    intro o s₂ h₂
    exact emitFlags_flexible [x] h₂ k hOp .register (by simp) (by simp [Row]) (by simp)
  · simp only [ensures_bind]
    refine (tryOperand2_drafts h op).mono ?_
    rintro r s₁ ⟨ops₁, -, h₁, hr⟩
    split
    · next right =>
      obtain ⟨forms, hFlexible, hRow⟩ := hr right rfl
      simp only [ensures_bind]
      refine (useRegister_drafts h₁).mono ?_
      intro x s₂ h₂
      refine (define_drafts h₂).mono ?_
      intro o s₃ h₃
      exact emitFlags_flexible [x] h₃ k hOp hFlexible (by simp)
        (hRow.mono (by simp)) (by simp)
    · simp only [ensures_bind]
      refine (tryOperand2_drafts h₁ reverse).mono ?_
      rintro r s₂ ⟨ops₂, -, h₂, hr⟩
      split
      · next left =>
        obtain ⟨forms, hFlexible, hRow⟩ := hr left rfl
        simp only [ensures_bind]
        refine (useRegister_drafts h₂).mono ?_
        intro x s₃ h₃
        refine (define_drafts h₃).mono ?_
        intro o s₄ h₄
        exact emitFlags_flexible [x] h₄ k hReverse hFlexible (by simp)
          (hRow.mono (by simp)) (by simp)
      · simp only [ensures_bind]
        refine (useRegister_drafts h₂).mono ?_
        intro x s₃ h₃
        refine (useRegister_drafts h₃).mono ?_
        intro y s₄ h₄
        refine (define_drafts h₄).mono ?_
        intro o s₅ h₅
        exact emitFlags_flexible [x] h₅ k hOp .register (by simp) (by simp [Row])
          (by simp)

/-- A rule that emits one instruction for its value alone. -/
theorem coverBinary_inner (h : Draft site.features start ops [] s) {reverse : Opcode}
    (hOp : op.IsFlexible 1) (hReverse : reverse.IsFlexible 1) :
    Ensures site s (coverBinary id op reverse {}) fun _ s' => Inner site.features start s' := by
  refine (coverBinary_drafts h hOp hReverse {}).mono ?_
  intro _ s' h'
  exact h'.inner rfl

/-- A comparison emits one instruction without an output. -/
theorem coverCompare_drafts (h : Draft site.features start ops [] s) (hOp : op.IsFlexible 1)
    (k : Continuation) (commutative : Bool) :
    Ensures site s (coverCompare id op k commutative) fun _ s' =>
      Flagged site.features start k s' := by
  unfold coverCompare
  simp only [ensures_bind, ensures_read, ensures_lift]
  intro m _
  refine (tryOperand2_drafts h op).mono ?_
  rintro r s₁ ⟨ops₁, -, h₁, hr⟩
  split
  · next right =>
    obtain ⟨forms, hFlexible, hRow⟩ := hr right rfl
    simp only [ensures_bind]
    refine (useRegister_drafts h₁).mono ?_
    intro x s₂ h₂
    exact emitFlags_flexible [x] h₂ k hOp hFlexible (by simp) (hRow.mono (by simp)) (by simp)
  · simp only [ensures_bind]
    refine (tryOperand2_drafts h₁ op).mono ?_
    rintro r s₂ ⟨ops₂, -, h₂, hr⟩
    split
    · next left =>
      obtain ⟨forms, hFlexible, hRow⟩ := hr left rfl
      simp only [ensures_bind]
      refine (useRegister_drafts h₂).mono ?_
      intro x s₃ h₃
      -- commuting the condition changes what is asked, not what the flags are for
      have hUse : k.use = (if commutative then k else k.commute).use := by
        cases commutative <;> rfl
      refine (emitFlags_flexible [x] h₃ _ hOp hFlexible (by simp) (hRow.mono (by simp))
        (by simp)).mono ?_
      intro _ s₄ h₄
      exact h₄.of_use hUse
    · simp only [ensures_bind]
      refine (useRegister_drafts h₂).mono ?_
      intro x s₃ h₃
      refine (useRegister_drafts h₃).mono ?_
      intro y s₄ h₄
      exact emitFlags_flexible [x] h₄ k hOp .register (by simp) (by simp [Row]) (by simp)

/-- A test emits one instruction without an output. -/
theorem coverTest_drafts (h : Draft site.features start ops [] s) (k : Continuation) :
    Ensures site s (coverTest u k) fun _ s' => Flagged site.features start k s' := by
  unfold coverTest
  simp only [ensures_bind]
  refine (useRegister_drafts h).mono ?_
  intro x s₁ h₁
  exact emitFlags_flexible [x] h₁ k ⟨0, rfl⟩ .register (by simp) (by simp [Row]) (by simp)

/-- A shift emits one move with a shifted operand. -/
theorem coverShift_drafts (h : Draft site.features start ops [] s) (k : Continuation) :
    Ensures site s (coverShift id k) fun _ s' => Flagged site.features start k s' := by
  unfold coverShift
  simp only [ensures_bind]
  refine (tryShift_drafts h .mov).mono ?_
  rintro r s₁ ⟨ops₁, -, h₁, hr⟩
  split
  · next shifted =>
    obtain ⟨forms, hFlexible, hRow⟩ := hr shifted rfl
    simp only [ensures_bind]
    refine (define_drafts h₁).mono ?_
    intro o s₂ h₂
    exact emitFlags_flexible [] h₂ k ⟨1, rfl⟩ hFlexible (by simp) (hRow.mono (by simp)) (by simp)
  · simp only [ensures_bind, ensures_read, ensures_lift, ensures_throw]
    exact fun _ _ => trivial

/-! ## Bits -/

/-- One instruction that ends no block. -/
theorem emit_inner (h : Draft site.features start ops [] s) {i : Instr} (forms : List Form)
    (hIn : Row ops i.inputs forms) (hSuits : i.op.Suits site.features i.mode forms)
    (hOut : ∀ o ∈ i.out ++ i.temp, (o, Form.register) ∈ ops) (hEnd : ¬i.IsTerminator) :
    Ensures site s (emit i) fun _ s' => Inner site.features start s' := by
  refine (emit_drafts h hIn hSuits hOut).mono ?_
  intro _ s' h'
  refine ⟨ops, [i], h', ?_⟩
  intro j hj
  rw [List.mem_singleton.mp hj]
  exact hEnd

/-- A data processing instruction that leaves the flags alone. -/
theorem emit_flexible (front : List Operand) {operands : List Operand} {forms : List Form}
    {i : Instr} (h : Draft site.features start ops [] s) (hInputs : i.inputs = front ++ operands)
    (hOp : i.op.IsFlexible front.length) (hFlexible : i.op.Flexible i.mode forms)
    (hFront : ∀ o ∈ front, (o, Form.register) ∈ ops) (hRow : Row ops operands forms)
    (hOut : ∀ o ∈ i.out ++ i.temp, (o, Form.register) ∈ ops) (hFlags : i.flags = .none) :
    Ensures site s (emit i) fun _ s' => Inner site.features start s' := by
  obtain ⟨-, -, hJump, hReturn⟩ := hOp.basic
  have hIn := (Row.registers hFront).append hRow
  rw [← hInputs] at hIn
  refine emit_inner h _ hIn (.flexible hOp hFlexible) hOut ?_
  simp [Instr.IsTerminator, hJump, hReturn, hFlags]

/-- A bit clear emits one instruction, shifted or not. -/
theorem coverClear_drafts (h : Draft site.features start ops [] s) {x y : NodeId} :
    Ensures site s (coverClear id x y) fun _ s' => Inner site.features start s' := by
  unfold coverClear
  simp only [ensures_bind]
  refine (define_drafts h).mono ?_
  intro o s₁ h₁
  refine (tryShift_drafts h₁ .bic).mono ?_
  rintro r s₂ ⟨ops₂, hSub, h₂, hr⟩
  have ho : (o, Form.register) ∈ ops₂ := hSub (by simp)
  -- with a shifted operand where there is one, else with a register
  split
  · next shifted =>
    obtain ⟨forms, hFlexible, hRow⟩ := hr shifted rfl
    simp only [ensures_bind]
    refine (useRegister_drafts h₂).mono ?_
    intro left s₃ h₃
    exact emit_flexible [left] h₃ rfl ⟨1, rfl⟩ hFlexible (by simp) (hRow.mono (by simp))
      (by simp [ho]) rfl
  · simp only [ensures_bind]
    refine (useRegister_drafts h₂).mono ?_
    intro left s₃ h₃
    refine (useRegister_drafts h₃).mono ?_
    intro right s₄ h₄
    exact emit_flexible [left] h₄ rfl ⟨1, rfl⟩ .register (by simp) (by simp [Row]) (by simp [ho])
      rfl

/-- The extraction of a field whose lowest bit is the number that `lsb` takes. -/
theorem coverExtract_drafts (h : Draft site.features start ops [] s)
    (hFeature : site.features.has .armv7) {base : NodeId} {lsb : Select Operand}
    {low : BitVec 32} {width : Nat}
    (hLsb : ∀ {ops s}, Draft site.features start ops [] s → Ensures site s lsb fun o s' =>
      Draft site.features start (ops ++ [(o, .number low)]) [] s')
    (hLow : 0 ≤ low.toInt) (hWidth : 1 ≤ width) (hSum : low.toInt + width ≤ 32) :
    Ensures site s (coverExtract id base lsb width) fun _ s' =>
      Inner site.features start s' := by
  unfold coverExtract
  simp only [ensures_bind]
  refine (define_drafts h).mono ?_
  intro o s₁ h₁
  refine (useRegister_drafts h₁).mono ?_
  intro x s₂ h₂
  refine (hLsb h₂).mono ?_
  intro lowest s₃ h₃
  refine (immediate_drafts h₃ _).mono ?_
  intro count s₄ h₄
  have hCount : (BitVec.ofNat 32 width).toInt = width := toInt_ofNat (by omega)
  refine emit_inner h₄ [.register, .number low, .number (BitVec.ofNat 32 width)] (by simp [Row])
    (.bits (.inl rfl) hFeature hLow ?_ ?_) (by simp) (by simp [Instr.IsTerminator])
  · rw [hCount]
    omega
  · rw [hCount]
    omega

/-- A constant operand that is known to be `v`. -/
theorem useImmediate_value (h : Draft site.features start ops [] s) {m : Int32Match}
    {v : BitVec 32} (hm : site.graph.int32 u = .ok m) (hv : m.value? = some v) :
    Ensures site s (useImmediate u) fun o s' =>
      Draft site.features start (ops ++ [(o, .number v)]) [] s' := by
  refine (useImmediate_drafts h hm).mono ?_
  rintro o s' ⟨v', hv', h'⟩
  cases hv.symm.trans hv'
  exact h'

/-- An operand in the range of bit numbers. -/
theorem isInRange_bits {m : Int32Match} (h : m.isInRange 0 31 = true) :
    ∃ v, m.value? = some v ∧ 0 ≤ v.toInt ∧ v.toInt ≤ 31 ∧
      ((m.value?.getD 0).toNat : Int) = v.toInt := by
  unfold Int32Match.isInRange at h
  cases hv : m.value? with
  | none =>
    rw [hv] at h
    cases h
  | some v =>
    rw [hv, Option.any_some, decide_eq_true_eq] at h
    exact ⟨v, rfl, h.1, h.2, toNat_of_nonneg h.1⟩

/-- A mask of low bits emits a bit field instruction whose field lies in the word. -/
theorem coverLowMask_drafts (h : Draft site.features start ops [] s)
    (hFeature : site.features.has .armv7) {left : Int32Match} {width : Nat} (hWidth : 1 ≤ width)
    (hWord : width ≤ 32) :
    Ensures site s (coverLowMask id left width) fun _ s' => Inner site.features start s' := by
  -- extracting the low bits is always possible
  have hWhole : Ensures site s (coverExtract id left.id (immediate 0) width) fun _ s' =>
      Inner site.features start s' := by
    refine coverExtract_drafts h hFeature (fun h => immediate_drafts h 0) (by decide) hWidth ?_
    have hZero : (0 : BitVec 32).toInt = 0 := by decide
    omega
  unfold coverLowMask
  simp only [ensures_bind, ensures_read]
  split
  · simp only [ensures_bind, ensures_lift]
    intro m hm
    split
    · next hRange =>
      -- under a shift by a constant the field lies higher up, if it fits there
      obtain ⟨v, hv, hLow, hHigh, hNat⟩ := isInRange_bits hRange
      simp only [ensures_bind, ensures_pure]
      refine (coverExtract_drafts h hFeature
        (fun h => useImmediate_value h (binary_matches hm).2 hv) hLow ?_ ?_).mono fun _ _ h' => h'
      · omega
      · omega
    · exact hWhole
  · exact hWhole

/-- Either a bit field instruction covers the node, or nothing is done. -/
theorem coverMask_drafts (h : Draft site.features start ops [] s)
    (hFeature : site.features.has .armv7) {left : Int32Match} (mask : BitVec 32) :
    Ensures site s (coverMask id left mask) fun done s' =>
      if done then Inner site.features start s' else Draft site.features start ops [] s' := by
  unfold coverMask
  dsimp only
  split
  · next hOnes =>
    simp only [Bool.and_eq_true, decide_eq_true_eq] at hOnes
    obtain ⟨hWidth, hSum⟩ := bitRun_within hOnes.1
    simp only [ensures_bind, ensures_pure, if_true]
    exact coverLowMask_drafts h hFeature hWidth (by omega)
  · split
    · next hZeros =>
      -- a run of zeros is cleared in place, so the result shares the first operand's register
      obtain ⟨hWidth, hSum⟩ := bitRun_within hZeros
      simp only [ensures_bind, ensures_pure, if_true]
      refine (defineAt_drafts h .sameAsFirst).mono ?_
      intro o s₁ h₁
      refine (useRegister_drafts h₁).mono ?_
      intro x s₂ h₂
      refine (immediate_drafts h₂ _).mono ?_
      intro low s₃ h₃
      refine (immediate_drafts h₃ _).mono ?_
      intro count s₄ h₄
      have hLow := toInt_ofNat (n := (bitRun (~~~mask)).lsb) (by omega)
      have hCount := toInt_ofNat (n := (bitRun (~~~mask)).width) (by omega)
      refine emit_inner h₄ [.register, .number (.ofNat 32 (bitRun (~~~mask)).lsb),
        .number (.ofNat 32 (bitRun (~~~mask)).width)] (by simp [Row])
        (.bits (.inr rfl) hFeature ?_ ?_ ?_) (by simp) (by simp [Instr.IsTerminator])
      · rw [hLow]
        omega
      · rw [hCount]
        omega
      · rw [hLow, hCount]
        omega
    · exact (ensures_pure _ _).mpr h

/-- Whether there is a feature is told by the site. -/
theorem has_drafts (f : Feature) :
    Ensures site s (has f) fun b s' => s' = s ∧ b = site.features.has f := by
  unfold has
  simp only [ensures_bind, ensures_read, ensures_pure, and_self]

/-- A conjunction emits one instruction in each of its forms. -/
theorem coverAnd_drafts (h : Draft site.features start ops [] s) :
    Ensures site s (coverAnd id) fun _ s' => Inner site.features start s' := by
  unfold coverAnd
  simp only [ensures_bind, ensures_read, ensures_lift]
  intro m _
  refine (coveredComplement?_ensures id m.left.id).mono ?_
  rintro r _ ⟨rfl, -⟩
  split
  · exact coverClear_drafts h
  · simp only [ensures_bind]
    refine (coveredComplement?_ensures id m.right.id).mono ?_
    rintro r _ ⟨rfl, -⟩
    split
    · exact coverClear_drafts h
    · simp only [ensures_bind]
      refine (has_drafts .armv7).mono ?_
      rintro b _ ⟨rfl, rfl⟩
      split
      · next hFeature =>
        split
        · next mask _ =>
          simp only [ensures_bind]
          refine (coverMask_drafts h hFeature mask).mono ?_
          intro done s' h'
          cases done with
          | true => exact (ensures_pure _ _).mpr h'
          | false => exact coverBinary_inner h' ⟨1, rfl⟩ ⟨1, rfl⟩
        · exact coverBinary_inner h ⟨1, rfl⟩ ⟨1, rfl⟩
      · exact coverBinary_inner h ⟨1, rfl⟩ ⟨1, rfl⟩

/-- An exclusive or emits one instruction in each of its forms. -/
theorem coverXor_drafts (h : Draft site.features start ops [] s) :
    Ensures site s (coverXor id) fun _ s' => Inner site.features start s' := by
  unfold coverXor
  simp only [ensures_bind, ensures_read, ensures_lift]
  intro m _
  split
  · exact coverBinary_inner h ⟨1, rfl⟩ ⟨1, rfl⟩
  · simp only [ensures_bind]
    refine (define_drafts h).mono ?_
    intro o s₁ h₁
    refine (tryShift_drafts h₁ .mvn).mono ?_
    rintro r s₂ ⟨ops₂, hSub, h₂, hr⟩
    have ho : (o, Form.register) ∈ ops₂ := hSub (by simp)
    split
    · next shifted =>
      obtain ⟨forms, hFlexible, hRow⟩ := hr shifted rfl
      exact emit_flexible [] h₂ rfl ⟨1, rfl⟩ hFlexible (by simp) hRow (by simp [ho]) rfl
    · simp only [ensures_bind]
      refine (useRegister_drafts h₂).mono ?_
      intro x s₃ h₃
      exact emit_flexible [] h₃ rfl ⟨1, rfl⟩ .register (by simp) (by simp [Row]) (by simp [ho]) rfl

/-- The field that a shifted mask leaves starts at the shift and lies within the word. -/
theorem shiftedField?_within {g : Graph} {lsb width : Nat} {base : NodeId}
    (h : shiftedField? g id lsb = .ok (some (base, width))) : 1 ≤ width ∧ lsb + width ≤ 32 := by
  unfold shiftedField? at h
  obtain ⟨m, -, h⟩ := bind_eq_ok.mp h
  split at h
  · cases pure_eq_ok.mp h
  · have hSome := pure_eq_ok.mp h
    split at hSome
    · next hRun =>
      simp only [Bool.and_eq_true, decide_eq_true_eq] at hRun
      cases hSome
      have hWithin := bitRun_within hRun.1
      rw [hRun.2] at hWithin
      exact hWithin
    · cases hSome

/-- A logical shift emits a bit field instruction or a move. -/
theorem coverShr_drafts (h : Draft site.features start ops [] s) :
    Ensures site s (coverShr id) fun _ s' => Inner site.features start s' := by
  have hShift : Ensures site s (coverShift id {}) fun _ s' => Inner site.features start s' := by
    refine (coverShift_drafts h {}).mono ?_
    intro _ s' h'
    exact h'.inner rfl
  unfold coverShr
  simp only [ensures_bind, ensures_read, ensures_lift]
  intro m hm
  refine (has_drafts .armv7).mono ?_
  rintro b _ ⟨rfl, rfl⟩
  split
  · next hField =>
    simp only [Bool.and_eq_true, decide_eq_true_eq] at hField
    -- the field's place is the shift amount, which the guard has bounded
    obtain ⟨v, hv, hLow, hHigh, hNat⟩ := isInRange_bits hField.2
    simp only [ensures_bind, ensures_lift]
    intro r hr
    split
    · next base width =>
      obtain ⟨hWidth, hSum⟩ := shiftedField?_within hr
      simp only [ensures_bind, ensures_pure]
      refine (coverExtract_drafts h hField.1.1
        (fun h => useImmediate_value h (binary_matches hm).2 hv) hLow hWidth ?_).mono
        fun _ _ h' => h'
      omega
    · exact hShift
  · exact hShift

/-! ## Sums, products and quotients -/

/-- Whether the processor has an opcode, which is no bit field instruction and ends no block. -/
def Ordinary (features : Features) (op : Opcode) : Prop :=
  ¬op.IsField ∧ op ≠ .jmp ∧ op ≠ .ret ∧ ∀ f, op.feature? = some f → features.has f

/-- An opcode that needs no feature. -/
theorem Ordinary.of_none {features : Features}
    (h : ¬op.IsField ∧ op ≠ .jmp ∧ op ≠ .ret ∧ op.feature? = none) : Ordinary features op := by
  obtain ⟨hField, hJump, hReturn, hFeature⟩ := h
  refine ⟨hField, hJump, hReturn, ?_⟩
  intro f hf
  rw [hFeature] at hf
  cases hf

/-- An opcode that needs a feature that there is. -/
theorem Ordinary.of_feature {features : Features} {f : Feature}
    (h : ¬op.IsField ∧ op ≠ .jmp ∧ op ≠ .ret ∧ op.feature? = some f) (hFeature : features.has f) :
    Ordinary features op := by
  obtain ⟨hField, hJump, hReturn, hOp⟩ := h
  refine ⟨hField, hJump, hReturn, ?_⟩
  intro f' hf'
  cases hOp.symm.trans hf'
  exact hFeature

/-- An instruction on registers alone. -/
theorem emit_registers {code : List Instr} (h : Draft site.features start ops code s) {i : Instr}
    (hOp : Ordinary site.features i.op) (hIn : ∀ o ∈ i.inputs, (o, Form.register) ∈ ops)
    (hOut : ∀ o ∈ i.out ++ i.temp, (o, Form.register) ∈ ops) (hMode : i.mode = .none) :
    Ensures site s (emit i) fun _ s' => Draft site.features start ops (code ++ [i]) s' := by
  refine emit_drafts h (Row.registers hIn) (.plain ?_ hOp.1 hOp.2.2.2 ?_) hOut
  · rw [hMode]
    simp
  · simp

/-- The one instruction of a node, on registers alone. -/
theorem emit_ordinary (h : Draft site.features start ops [] s) {i : Instr}
    (hOp : Ordinary site.features i.op) (hIn : ∀ o ∈ i.inputs, (o, Form.register) ∈ ops)
    (hOut : ∀ o ∈ i.out ++ i.temp, (o, Form.register) ∈ ops) (hMode : i.mode = .none)
    (hFlags : i.flags = .none) :
    Ensures site s (emit i) fun _ s' => Inner site.features start s' := by
  refine (emit_registers h hOp hIn hOut hMode).mono ?_
  intro _ s' h'
  refine ⟨ops, [i], h', ?_⟩
  intro j hj
  rw [List.mem_singleton.mp hj]
  simp [Instr.IsTerminator, hOp.2.1, hOp.2.2.1, hFlags]

/-- A product that is taken in gives an instruction with three inputs. -/
theorem emitMultiply_drafts (h : Draft site.features start ops [] s) {product addend : NodeId}
    (hOp : Ordinary site.features op) :
    Ensures site s (emitMultiply op id product addend) fun _ s' =>
      Inner site.features start s' := by
  unfold emitMultiply
  simp only [ensures_bind, ensures_read, ensures_lift]
  intro m _
  refine (define_drafts h).mono ?_
  intro o s₁ h₁
  refine (useRegister_drafts h₁).mono ?_
  intro left s₂ h₂
  refine (useRegister_drafts h₂).mono ?_
  intro right s₃ h₃
  refine (useRegister_drafts h₃).mono ?_
  intro third s₄ h₄
  exact emit_ordinary h₄ hOp (by simp) (by simp) rfl rfl

/-- An addition emits one instruction. -/
theorem coverAdd_drafts (h : Draft site.features start ops [] s) :
    Ensures site s (coverAdd id) fun _ s' => Inner site.features start s' := by
  unfold coverAdd
  simp only [ensures_bind, ensures_read, ensures_lift]
  intro m _
  refine (isCoveredProduct_ensures _ _ _).mono ?_
  rintro b _ ⟨rfl, -⟩
  split
  · exact emitMultiply_drafts h (.of_none (by decide))
  · simp only [ensures_bind]
    refine (isCoveredProduct_ensures _ _ _).mono ?_
    rintro b _ ⟨rfl, -⟩
    split
    · exact emitMultiply_drafts h (.of_none (by decide))
    · exact coverBinary_inner h ⟨1, rfl⟩ ⟨1, rfl⟩

/-- A subtraction emits one instruction. -/
theorem coverSub_drafts (h : Draft site.features start ops [] s) :
    Ensures site s (coverSub id) fun _ s' => Inner site.features start s' := by
  have hBinary : Ensures site s (coverBinary id .sub .rsb {}) fun _ s' =>
      Inner site.features start s' := coverBinary_inner h ⟨1, rfl⟩ ⟨1, rfl⟩
  unfold coverSub
  simp only [ensures_bind, ensures_read, ensures_lift]
  intro m _
  refine (has_drafts .mls).mono ?_
  rintro b _ ⟨rfl, rfl⟩
  split
  · next hFeature =>
    simp only [ensures_bind]
    refine (isCoveredProduct_ensures _ _ _).mono ?_
    rintro b _ ⟨rfl, -⟩
    split
    · simp only [ensures_bind, ensures_pure]
      exact emitMultiply_drafts h (.of_feature (by decide) hFeature)
    · exact hBinary
  · exact hBinary

/-- A product that is a sum or a difference with a shifted value shifts within the word. -/
theorem shiftedSum?_flexible {v : BitVec 32} {shift : Nat}
    (h : shiftedSum? v = some (op, shift)) : op.IsFlexible 1 ∧ shift < 32 := by
  unfold shiftedSum? at h
  dsimp only at h
  -- a power of two is not zero, so the shift is below the width
  have hPower : ∀ {w : BitVec 32}, (decide (0 < w.toInt) && w &&& (w - 1) == 0) = true → w ≠ 0 := by
    rintro w hw rfl
    simp at hw
  split at h
  · cases h
  · split at h
    · next hAbove =>
      cases h
      exact ⟨⟨1, rfl⟩, trailingZeros_lt (hPower hAbove)⟩
    · split at h
      · next hBelow =>
        cases h
        rw [Bool.and_eq_true] at hBelow
        exact ⟨⟨1, rfl⟩, trailingZeros_lt (hPower hBelow.2)⟩
      · cases h

/-- A product emits a multiplication or a shifted sum. -/
theorem coverMul_drafts (h : Draft site.features start ops [] s) :
    Ensures site s (coverMul id) fun _ s' => Inner site.features start s' := by
  unfold coverMul
  simp only [ensures_bind, ensures_read, ensures_lift]
  intro m _
  split
  · next op shift hSum =>
    obtain ⟨v, -, hv⟩ := Option.bind_eq_some_iff.mp hSum
    obtain ⟨hOp, hShift⟩ := shiftedSum?_flexible hv
    simp only [ensures_bind]
    refine (define_drafts h).mono ?_
    intro o s₁ h₁
    refine (useRegister_drafts h₁).mono ?_
    intro x s₂ h₂
    refine (useRegister_drafts h₂).mono ?_
    intro y s₃ h₃
    refine (immediate_drafts h₃ _).mono ?_
    intro amount s₄ h₄
    -- `shiftedSum?` gives shifts of at most thirty
    have hAllows : ShiftKind.lsl.Allows (BitVec.ofNat 32 shift) := by
      have hInt := toInt_ofNat (n := shift) (by omega)
      show 0 ≤ (BitVec.ofNat 32 shift).toInt ∧ (BitVec.ofNat 32 shift).toInt ≤ 31
      omega
    exact emit_flexible [x] h₄ rfl hOp (.shift hAllows) (by simp) (by simp [Row]) (by simp) rfl
  · simp only [ensures_bind]
    refine (define_drafts h).mono ?_
    intro o s₁ h₁
    refine (useRegister_drafts h₁).mono ?_
    intro x s₂ h₂
    refine (useRegister_drafts h₂).mono ?_
    intro y s₃ h₃
    have hMul : Ordinary site.features .mul := .of_none (by decide)
    exact emit_ordinary h₃ hMul (by simp) (by simp) rfl rfl

/-- The instructions of a division, with or without the feature. -/
theorem DivisionOps.ordinary {divs : DivisionOps} (h : divs = .signed ∨ divs = .unsigned)
    (features : Features) : (features.has .sudiv → Ordinary features divs.divide) ∧
      Ordinary features divs.toDouble ∧ Ordinary features divs.fromDouble := by
  rcases h with rfl | rfl
  · exact ⟨.of_feature (by decide), .of_none (by decide), .of_none (by decide)⟩
  · exact ⟨.of_feature (by decide), .of_none (by decide), .of_none (by decide)⟩

/-- A division goes on from the instructions and the operands there are. -/
theorem emitDivision_drafts (h : Draft site.features start ops [] s) {divs : DivisionOps}
    (hDivs : divs = .signed ∨ divs = .unsigned) {out left right : Operand}
    (hOut : (out, Form.register) ∈ ops) (hLeft : (left, Form.register) ∈ ops)
    (hRight : (right, Form.register) ∈ ops) :
    Ensures site s (emitDivision divs out left right) fun _ s' =>
      ∃ ops' code, ops ⊆ ops' ∧ Draft site.features start ops' code s' ∧
        ∀ i ∈ code, ¬i.IsTerminator := by
  obtain ⟨hDivide, hTo, hFrom⟩ := DivisionOps.ordinary hDivs site.features
  unfold emitDivision
  simp only [ensures_bind]
  refine (has_drafts .sudiv).mono ?_
  rintro b _ ⟨rfl, rfl⟩
  split
  · next hFeature =>
    have hOp := hDivide hFeature
    refine (emit_registers h hOp (by simp [hLeft, hRight]) (by simp [hOut]) rfl).mono ?_
    intro _ s' h'
    refine ⟨ops, _, fun _ hp => hp, h', ?_⟩
    simp [Instr.IsTerminator, hOp.2.1, hOp.2.2.1]
  · -- without the divider the quotient is taken between doubles
    have hQuotient : Ordinary site.features .vdiv := .of_none (by decide)
    simp only [ensures_bind]
    refine (tempDouble_drafts h).mono ?_
    intro l s₁ h₁
    refine (tempDouble_drafts h₁).mono ?_
    intro r s₂ h₂
    refine (tempDouble_drafts h₂).mono ?_
    intro q s₃ h₃
    refine (emit_registers h₃ hTo (by simp [hLeft]) (by simp) rfl).mono ?_
    intro _ s₄ h₄
    refine (emit_registers h₄ hTo (by simp [hRight]) (by simp) rfl).mono ?_
    intro _ s₅ h₅
    refine (emit_registers h₅ hQuotient (by simp) (by simp) rfl).mono ?_
    intro _ s₆ h₆
    refine (emit_registers h₆ hFrom (by simp) (by simp [hOut]) rfl).mono ?_
    intro _ s₇ h₇
    refine ⟨_, _, by simp, h₇, ?_⟩
    simp [Instr.IsTerminator, hTo.2.1, hTo.2.2.1, hFrom.2.1, hFrom.2.2.1]

/-- A division emits one instruction, or four with doubles. -/
theorem coverDivision_drafts (h : Draft site.features start ops [] s) {divs : DivisionOps}
    (hDivs : divs = .signed ∨ divs = .unsigned) :
    Ensures site s (coverDivision id divs) fun _ s' => Inner site.features start s' := by
  unfold coverDivision
  simp only [ensures_bind, ensures_read, ensures_lift]
  intro m _
  refine (define_drafts h).mono ?_
  intro o s₁ h₁
  refine (useRegister_drafts h₁).mono ?_
  intro left s₂ h₂
  refine (useRegister_drafts h₂).mono ?_
  intro right s₃ h₃
  refine (emitDivision_drafts h₃ hDivs (by simp) (by simp) (by simp)).mono ?_
  rintro _ s₄ ⟨ops₄, code, -, h₄, hCode⟩
  exact ⟨ops₄, code, h₄, hCode⟩

/-- A remainder emits a division, with the product and the difference behind it. -/
theorem coverRemainder_drafts (h : Draft site.features start ops [] s) {divs : DivisionOps}
    (hDivs : divs = .signed ∨ divs = .unsigned) :
    Ensures site s (coverRemainder id divs) fun _ s' => Inner site.features start s' := by
  unfold coverRemainder
  simp only [ensures_bind, ensures_read, ensures_lift]
  intro m _
  refine (define_drafts h).mono ?_
  intro o s₁ h₁
  refine (useRegister_drafts h₁).mono ?_
  intro left s₂ h₂
  refine (useRegister_drafts h₂).mono ?_
  intro right s₃ h₃
  refine (tempRegister_drafts h₃).mono ?_
  intro quotient s₄ h₄
  refine (emitDivision_drafts h₄ hDivs (by simp) (by simp) (by simp)).mono ?_
  rintro _ s₅ ⟨ops₅, code, hSub, h₅, hCode⟩
  -- the operands' forms are still known after the quotient's code
  have ho : (o, Form.register) ∈ ops₅ := hSub (by simp)
  have hLeft : (left, Form.register) ∈ ops₅ := hSub (by simp)
  have hRight : (right, Form.register) ∈ ops₅ := hSub (by simp)
  have hQuotient : (quotient, Form.register) ∈ ops₅ := hSub (by simp)
  refine (has_drafts .mls).mono ?_
  rintro b _ ⟨rfl, rfl⟩
  split
  · next hFeature =>
    have hOp : Ordinary site.features .mls := .of_feature (by decide) hFeature
    refine (emit_registers h₅ hOp (by simp [hLeft, hRight, hQuotient]) (by simp [ho]) rfl).mono ?_
    intro _ s₆ h₆
    refine ⟨_, _, h₆, ?_⟩
    intro i hi
    rcases List.mem_append.mp hi with hOld | hNew
    · exact hCode i hOld
    · rw [List.mem_singleton.mp hNew]
      simp [Instr.IsTerminator]
  · -- without `mls` the product is formed first and subtracted after
    have hMul : Ordinary site.features .mul := .of_none (by decide)
    simp only [ensures_bind]
    refine (tempRegister_drafts h₅).mono ?_
    intro product s₆ h₆
    refine (emit_registers h₆ hMul (by simp [hRight, hQuotient]) (by simp) rfl).mono ?_
    intro _ s₇ h₇
    have hRow : Row (ops₅ ++ [(product, .register)]) [left, product] [.register, .register] := by
      simp [Row, hLeft]
    have hSuits : Opcode.sub.Suits site.features .register [.register, .register] :=
      .plain (by simp) (by decide) (by rintro f ⟨⟩) (by simp)
    refine (emit_drafts h₇ hRow hSuits (by simp [ho])).mono ?_
    intro _ s₈ h₈
    refine ⟨_, _, h₈, ?_⟩
    intro i hi
    simp only [List.mem_append, List.mem_singleton] at hi
    rcases hi with (hOld | rfl) | rfl
    · exact hCode i hOld
    · simp [Instr.IsTerminator]
    · simp [Instr.IsTerminator]

end ArmBackend.Selection
