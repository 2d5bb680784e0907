import ArmBackend.Proofs.BitRuns
import ArmBackend.Proofs.Selection.Emits
import ArmBackend.Proofs.Selection.Returns

/-!
# Bit fields

A bitwise and with a constant, and a logical shift of one, may be covered by an instruction that
takes a bit field out of a word or clears it. Three patterns lead there: a mask of low ones, which
may lie over a shifted word; a mask whose zeros are a run; and a shift under which a mask has a run
of ones, whatever it has below.

## Results

* `coverMask_field`, `coverAnd_field`, `coverShr_field` — an instruction for a bit field computes
  the word of its node.
* `coverNode_field` — and each of the patterns is covered by the instruction for its field.
-/

namespace ArmBackend

/-- What an instruction for a bit field makes of its base: it clears the field or takes it out. -/
def Opcode.onField (op : Opcode) (lsb width : Nat) (v : BitVec 32) : BitVec 32 :=
  if op = .bfc then v &&& ~~~runOfOnes lsb width
  else (v >>> lsb) &&& BitVec.ofNat 32 (2 ^ width - 1)

namespace Selection

variable {site : Site} {start s s' : State} {id base u x y : NodeId} {op : Opcode} {lsb width : Nat}
  {i : Instr} {v : BitVec 32} {ρ : Reading} {n : Node}

/-! ## Instructions for bit fields -/

/-- What a step adds that covers a node by one instruction for a bit field of `base`. A field is
cleared in place. -/
structure AddsField (site : Site) (start s : State) (id base : NodeId) (op : Opcode)
    (lsb width : Nat) (i : Instr) : Prop where
  segment : s.segment = start.segment ++ [i]
  opcode : i.op = op
  output : ∃ r : Nat, i.out = [.vreg r (if op = .bfc then .sameAsFirst else .register)] ∧
    Stands site.graph s.vregs s.stream id r
  inputs : ∃ (r : Nat) (low count : Operand), i.inputs = [.vreg r .register, low, count] ∧
    Stands site.graph s.vregs s.stream base r ∧ s.stream.IsNumber low (.ofNat 32 lsb) ∧
    s.stream.IsNumber count (.ofNat 32 width)

/-- The instruction computes the field, or what is left without it, from what the base holds. -/
theorem AddsField.result (h : AddsField site start s id base op lsb width i) (hField : op.IsField)
    (hWithin : 1 ≤ width ∧ lsb + width ≤ 32) (hTable : s.stream.immediates <+: ρ.stream.immediates)
    (hBase : Holding ρ site.graph s base v) : i.result? ρ = some (op.onField lsb width v) := by
  obtain ⟨r, low, count, hInputs, hStands, hLow, hCount⟩ := h.inputs
  have hWord : ρ.registers r = v := hBase r hStands
  have hLow := number?_of_isNumber hLow hTable
  have hCount := number?_of_isNumber hCount hTable
  have hNat : (BitVec.ofNat 32 lsb).toNat = lsb ∧ (BitVec.ofNat 32 width).toNat = width := by
    simp only [BitVec.toNat_ofNat]
    omega
  unfold Instr.result?
  rw [h.opcode, hInputs]
  rcases hField with rfl | rfl
  · simp [Reading.register?, hWord, hLow, hCount, hNat, Opcode.onField]
  · simp [Reading.register?, hWord, hLow, hCount, hNat, Opcode.onField, runOfOnes]

/-- The operands of the instruction are the base and the numbers of the field. -/
theorem emit_field (hs : s.Sound) {out : Operand} {r q : Nat} {low count : Operand}
    (hSegment : s.segment = start.segment)
    (hOut : out = .vreg r (if op = .bfc then .sameAsFirst else .register))
    (hr : Stands site.graph s.vregs s.stream id r) (hq : Stands site.graph s.vregs s.stream base q)
    (hLow : s.stream.IsNumber low (.ofNat 32 lsb))
    (hCount : s.stream.IsNumber count (.ofNat 32 width)) :
    Ensures site s (emit { op, out := [out], inputs := [.vreg q .register, low, count] })
      fun _ s' => ∃ i, AddsField site start s' id base op lsb width i := by
  refine (emit_advances (fun _ => True) hs _).mono ?_
  intro _ s' h
  refine ⟨_, by rw [h.segment, hSegment], rfl, ⟨r, by rw [hOut], hr.mono h.toGrown⟩, ?_⟩
  exact ⟨q, low, count, rfl, hq.mono h.toGrown, isNumber_mono hLow h.toGrown,
    isNumber_mono hCount h.toGrown⟩

theorem coverExtract_field (hs : s.Sound) {low : Select Operand} (hLow : ∀ t : State, t.Sound →
      Ensures site t low fun o s' => Advances t s' [] (fun _ => True) ∧
        s'.stream.IsNumber o (.ofNat 32 lsb)) (width : Nat) :
    Ensures site s (coverExtract id base low width) fun _ s' =>
      ∃ i, AddsField site s s' id base .ubfx lsb width i := by
  unfold coverExtract
  simp only [ensures_bind]
  refine (define_advances (D := fun _ => True) hs trivial).mono ?_
  rintro _ s₁ ⟨h₁, r, rfl, hr⟩
  refine (useAt_advances (fun _ => True) h₁.sound base .register).mono ?_
  rintro _ s₂ ⟨h₂, q, rfl, hq⟩
  refine (hLow s₂ h₂.sound).mono ?_
  rintro low s₃ ⟨h₃, hNumber⟩
  refine (immediate_advances (fun _ => True) h₃.sound _).mono ?_
  rintro count s₄ ⟨h₄, hCount⟩
  have hRest := (h₂.trans h₃).trans h₄
  exact emit_field h₄.sound (by simpa using (h₁.trans hRest).segment) rfl (hr.mono hRest.toGrown)
    (hq.mono (h₃.trans h₄).toGrown) (isNumber_mono hNumber h₄.toGrown) hCount

theorem coverExtract_returns (hWell : site.graph.WellFormed) {w : Word32Op}
    (hOp : site.graph.HasOp id (.word32 w)) (hBase : site.graph.Carries base y)
    {low : Select Operand} (hLow : Returns site low) (width : Nat) :
    Returns site (coverExtract id base low width) := by
  unfold coverExtract
  refine (define_returns hWell hOp nofun nofun).bind fun out => ?_
  refine (useRegister_returns hWell hBase).bind fun q => hLow.bind fun low => ?_
  exact (immediate_returns _).bind fun count => emit_returns rfl

/-! ## Masks -/

/-- What a step adds that covers a node by an instruction for a bit field: whatever the words of the
nodes are, the field of the base is `f` of them. -/
def AddsValue (site : Site) (s s' : State) (id : NodeId)
    (f : (NodeId → BitVec 32) → BitVec 32) : Prop :=
  ∃ base op lsb width i, AddsField site s s' id base op lsb width i ∧ op.IsField ∧ 1 ≤ width ∧
    lsb + width ≤ 32 ∧ ∀ val, site.graph.Obeys val → op.onField lsb width (val base) = f val

theorem AddsValue.congr {f f' : (NodeId → BitVec 32) → BitVec 32}
    (h : AddsValue site s s' id f) (hSame : ∀ val, site.graph.Obeys val → f val = f' val) :
    AddsValue site s s' id f' := by
  obtain ⟨base, op, lsb, width, i, hAdds, hField, hWidth, hFits, hValue⟩ := h
  exact ⟨base, op, lsb, width, i, hAdds, hField, hWidth, hFits,
    fun val hVal => (hValue val hVal).trans (hSame val hVal)⟩

/-- The number of a bit. -/
theorem isInRange_ofNat {m : Int32Match} (h : m.isInRange 0 31 = true) :
    ∃ k < 32, m.value? = some (.ofNat 32 k) ∧ (m.value?.getD 0).toNat = k := by
  obtain ⟨c, hc, -, hMost, hNat⟩ := isInRange_bits h
  rw [hc, Option.getD_some] at hNat ⊢
  exact ⟨c.toNat, by omega, by simp, rfl⟩

/-- The word of a shift by a constant. -/
theorem word_of_shr {g : Graph} {val : NodeId → BitVec 32} (hVal : g.Obeys val) {m : BinaryMatch}
    {k : Nat} (hOp : g.HasOp u (.word32 .shr)) (hm : g.binary u = .ok m)
    (hk : m.right.value? = some (.ofNat 32 k)) (hFew : k < 32) :
    val u = val m.left.id >>> k := by
  rw [hVal.binary_word32 hOp hm, hVal.value (Graph.binary_inputs hm).1.2 hk]
  have hAmount : (BitVec.ofNat 32 k).toNat % 32 = k := by
    rw [BitVec.toNat_ofNat]
    omega
  show val m.left.id >>> ((BitVec.ofNat 32 k).toNat % 32) = _
  rw [hAmount]

theorem coverLowMask_field (hs : s.Sound) {left : Int32Match}
    (hLeft : site.graph.HasOp left.id left.op) (hWidth : 1 ≤ width) (hFits : width ≤ 32) :
    Ensures site s (coverLowMask id left width) fun _ s' =>
      AddsValue site s s' id fun val => val left.id &&& runOfOnes 0 width := by
  have hWhole : Ensures site s (coverExtract id left.id (immediate 0) width) fun _ s' =>
      AddsValue site s s' id fun val => val left.id &&& runOfOnes 0 width := by
    have hZero : ∀ t : State, t.Sound → Ensures site t (immediate 0) fun o s' =>
        Advances t s' [] (fun _ => True) ∧ s'.stream.IsNumber o (.ofNat 32 0) :=
      fun t ht => immediate_advances _ ht 0
    refine (coverExtract_field hs hZero width).mono ?_
    rintro _ s' ⟨i, hAdds⟩
    refine ⟨_, _, _, _, i, hAdds, .inl rfl, hWidth, by omega, fun val _ => ?_⟩
    simp [Opcode.onField, runOfOnes_zero]
  -- Over a shift by the number of a bit the field is one of the shifted word, cut to what is left
  -- of that; over anything else it starts at bit 0.
  unfold coverLowMask
  simp only [ensures_bind, ensures_read]
  split
  · next hShr =>
    simp only [ensures_bind, ensures_lift]
    intro m hm
    split
    · next hRange =>
      obtain ⟨k, hFew, hk, hNat⟩ := isInRange_ofNat hRange
      have hConstant := Graph.isInt32_of_value (Graph.binary_inputs hm).1.2 hk
      simp only [hNat, ensures_bind, ensures_pure]
      refine (coverExtract_field hs (fun t ht => useImmediate_of_isInt32 _ ht hConstant) _).mono ?_
      rintro _ s' ⟨i, hAdds⟩
      refine ⟨_, _, _, _, i, hAdds, .inl rfl, by omega, by omega, fun val hVal => ?_⟩
      show Opcode.onField _ _ _ _ = val left.id &&& runOfOnes 0 width
      rw [word_of_shr hVal (hShr ▸ hLeft) hm hk hFew, runOfOnes_zero, ← field_min]
      rfl
    · exact hWhole
  · exact hWhole

/-- Whether a mask is a run of ones from bit 0 on. -/
def LowOnes (mask : BitVec 32) : Prop :=
  (bitRun mask).contiguous = true ∧ (bitRun mask).lsb = 0

/-- A mask whose zeros are a run clears them, unless it is one of low ones. -/
theorem coverMask_clears (hs : s.Sound) (left : Int32Match) {mask : BitVec 32}
    (hLow : ¬LowOnes mask) (hZeros : (bitRun (~~~mask)).contiguous = true) :
    Ensures site s (coverMask id left mask) fun done s' => done = true ∧ ∃ i,
      AddsField site s s' id left.id .bfc (bitRun (~~~mask)).lsb (bitRun (~~~mask)).width i := by
  unfold coverMask
  dsimp only
  -- no ones below, so the mask is read as a field of zeros
  rw [if_neg (by simpa [LowOnes] using hLow), if_pos hZeros]
  simp only [ensures_bind, ensures_pure]
  refine (defineAt_advances (D := fun _ => True) hs trivial .sameAsFirst).mono ?_
  rintro _ s₁ ⟨h₁, r, rfl, hr⟩
  refine (useAt_advances (fun _ => True) h₁.sound left.id .register).mono ?_
  rintro _ s₂ ⟨h₂, q, rfl, hq⟩
  refine (immediate_advances (fun _ => True) h₂.sound _).mono ?_
  rintro low s₃ ⟨h₃, hNumber⟩
  refine (immediate_advances (fun _ => True) h₃.sound _).mono ?_
  rintro count s₄ ⟨h₄, hCount⟩
  have hRest := (h₂.trans h₃).trans h₄
  refine (emit_field h₄.sound (by simpa using (h₁.trans hRest).segment) rfl (hr.mono hRest.toGrown)
    (hq.mono (h₃.trans h₄).toGrown) (isNumber_mono hNumber h₄.toGrown) hCount).mono ?_
  exact fun _ _ h => ⟨trivial, h⟩

theorem coverMask_clears_returns (hWell : site.graph.WellFormed) {w : Word32Op}
    (hOp : site.graph.HasOp id (.word32 w)) {left : Int32Match}
    (hLeft : site.graph.Carries left.id y) {mask : BitVec 32} (hLow : ¬LowOnes mask)
    (hZeros : (bitRun (~~~mask)).contiguous = true) : Returns site (coverMask id left mask) := by
  unfold coverMask
  dsimp only
  rw [if_neg (by simpa [LowOnes] using hLow), if_pos hZeros]
  refine (defineAt_returns hWell hOp nofun nofun _).bind fun out => ?_
  refine (useRegister_returns hWell hLeft).bind fun q => (immediate_returns _).bind fun low => ?_
  exact (immediate_returns _).bind fun count => (emit_returns rfl).bind fun _ => .pure _

/-- A mask is covered by an instruction for a bit field, or nothing is done. -/
theorem coverMask_field (hs : s.Sound) {left : Int32Match}
    (hLeft : site.graph.HasOp left.id left.op) (mask : BitVec 32) :
    Ensures site s (coverMask id left mask) fun done s' =>
      if done then AddsValue site s s' id fun val => val left.id &&& mask else s' = s := by
  -- A mask of low ones is looked at first: its zeros may be a run too.
  by_cases hOnes : LowOnes mask
  · have hRun := eq_run_of_contiguous hOnes.1
    obtain ⟨hWidth, hFits⟩ := bitRun_within hOnes.1
    rw [hOnes.2] at hRun
    unfold coverMask
    dsimp only
    rw [if_pos (by simpa [LowOnes] using hOnes)]
    simp only [ensures_bind, ensures_pure]
    refine (coverLowMask_field hs hLeft hWidth (by omega)).mono ?_
    intro _ s' h
    rw [← hRun] at h
    exact h
  · by_cases hZeros : (bitRun (~~~mask)).contiguous = true
    · refine (coverMask_clears hs left hOnes hZeros).mono ?_
      rintro _ s' ⟨rfl, i, hAdds⟩
      obtain ⟨hWidth, hFits⟩ := bitRun_within hZeros
      refine ⟨_, _, _, _, i, hAdds, .inr rfl, hWidth, hFits, fun val _ => ?_⟩
      rw [Opcode.onField, if_pos rfl, ← eq_run_of_contiguous hZeros, BitVec.not_not]
    · unfold coverMask
      dsimp only
      rw [if_neg (by simpa [LowOnes] using hOnes), if_neg hZeros]
      exact (ensures_pure _ _).mpr rfl

/-! ## Rules -/

/-- Whether what a step adds has no instruction for a bit field, or is one that computes a node. -/
def Settles (site : Site) (s s' : State) (id : NodeId) : Prop :=
  (∃ code, s'.segment = s.segment ++ code ∧ ∀ i ∈ code, ¬i.op.IsField) ∨
    AddsValue site s s' id fun val => val id

/-- Any node may be computed, but no bit field emitted. -/
abbrev Scope.unfielded (g : Graph) : Scope g :=
  .anyOutput g (fun _ => True) fun op => ¬op.IsField

/-- A rule that emits no bit field. -/
theorem settles_of_emits {m : Select Unit} {R : Unit → List Operand} (hs : s.Sound)
    (h : Emits site (.unfielded site.graph) [] m R) :
    Ensures site s m fun _ s' => Settles site s s' id := by
  refine (h.adds hs).mono ?_
  rintro _ s' ⟨code, hAdvances, hCode⟩
  exact .inl ⟨code, hAdvances.segment, fun i hi => (hCode i hi).1⟩

theorem coverAnd_field (hs : s.Sound) (hOp : site.graph.HasOp id (.word32 .and)) :
    Ensures site s (coverAnd id) fun _ s' => Settles site s s' id := by
  have hAnd : ¬Opcode.and.IsField := by decide
  have hBic : ¬Opcode.bic.IsField := by decide
  have hPlain : Ensures site s (coverBinary id .and .and {}) fun _ s' => Settles site s s' id :=
    settles_of_emits hs (coverBinary_emits trivial hAnd hAnd nofun)
  have hClear : ∀ x y, Ensures site s (coverClear id x y) fun _ s' => Settles site s s' id :=
    fun x y => settles_of_emits hs (coverClear_emits trivial hBic)
  unfold coverAnd
  simp only [ensures_bind, ensures_read, ensures_lift]
  intro m hm
  -- Only the mask of a constant leads to a bit field; every other way there is none in the code.
  refine (coveredComplement?_ensures id m.left.id).mono ?_
  rintro x? _ ⟨rfl, -⟩
  split
  · exact hClear _ _
  · simp only [ensures_bind]
    refine (coveredComplement?_ensures id m.right.id).mono ?_
    rintro y? _ ⟨rfl, -⟩
    split
    · exact hClear _ _
    · simp only [ensures_bind]
      refine (has_ensures .armv7).mono ?_
      rintro armv7 _ rfl
      split
      · split
        · next mask hMask =>
          simp only [ensures_bind]
          refine (coverMask_field hs (Graph.binary_feeds hm).1.2 mask).mono ?_
          intro done s' hDone
          cases done with
          | true =>
            refine (ensures_pure _ _).mpr (.inr (AddsValue.congr hDone fun val hVal => ?_))
            rw [hVal.binary_word32 hOp hm, hVal.value (Graph.binary_inputs hm).1.2 hMask]
            rfl
          | false =>
            have hSame : s' = _ := hDone
            rw [hSame]
            exact hPlain
        · exact hPlain
      · exact hPlain

/-- A mask under a shift leaves a field if it has a run of ones from the shift on. -/
theorem shiftedField?_run {g : Graph} (h : shiftedField? g id lsb = .ok (some (base, width))) :
    ∃ m mask, g.binary id = .ok m ∧ m.left.id = base ∧ m.right.value? = some mask ∧
      (mask >>> lsb) <<< lsb = runOfOnes lsb width ∧ 1 ≤ width ∧ lsb + width ≤ 32 := by
  unfold shiftedField? at h
  obtain ⟨m, hm, h⟩ := bind_eq_ok.mp h
  split at h
  · cases pure_eq_ok.mp h
  · next mask hMask =>
    obtain ⟨hRun, hSome⟩ := Option.ite_none_right_eq_some.mp (pure_eq_ok.mp h)
    simp only [Bool.and_eq_true, decide_eq_true_eq] at hRun
    cases hSome
    obtain ⟨hWidth, hFits⟩ := bitRun_within hRun.1
    have hOnes := eq_run_of_contiguous hRun.1
    rw [hRun.2] at hFits hOnes
    exact ⟨m, mask, hm, rfl, hMask, hOnes, hWidth, hFits⟩

theorem coverShr_field (hs : s.Sound) (hOp : site.graph.HasOp id (.word32 .shr)) :
    Ensures site s (coverShr id) fun _ s' => Settles site s s' id := by
  have hMov : ¬Opcode.mov.IsField := by decide
  have hPlain : Ensures site s (coverShift id {}) fun _ s' => Settles site s s' id :=
    settles_of_emits hs (coverShift_emits trivial hMov nofun)
  unfold coverShr
  simp only [ensures_bind, ensures_read, ensures_lift]
  intro m hm
  refine (has_ensures .armv7).mono ?_
  rintro armv7 _ rfl
  split
  · next hGuard =>
    simp only [Bool.and_eq_true, decide_eq_true_eq] at hGuard
    obtain ⟨k, hFew, hk, hNat⟩ := isInRange_ofNat hGuard.2
    have hConstant := Graph.isInt32_of_value (Graph.binary_inputs hm).1.2 hk
    simp only [hNat, ensures_bind, ensures_lift]
    intro field hFound
    split
    · obtain ⟨m', mask, hm', rfl, hMask, hRun, hWidth, hFits⟩ := shiftedField?_run hFound
      simp only [ensures_bind, ensures_pure]
      refine (coverExtract_field hs (fun t ht => useImmediate_of_isInt32 _ ht hConstant) _).mono ?_
      rintro _ s' ⟨i, hAdds⟩
      refine .inr ⟨_, _, _, _, i, hAdds, .inl rfl, hWidth, hFits, fun val hVal => ?_⟩
      -- The shift drops what the mask has below the run.
      have hAnd : val m.left.id = val m'.left.id &&& mask := by
        have hLeft := (Graph.binary_feeds hm).1.2
        rw [hGuard.1.2] at hLeft
        rw [hVal.binary_word32 hLeft hm', hVal.value (Graph.binary_inputs hm').1.2 hMask]
        rfl
      show Opcode.onField _ _ _ _ = val id
      rw [word_of_shr hVal hOp hm hk hFew, hAnd, shift_and_of_run hRun hFits]
      rfl
    · exact hPlain
  · exact hPlain

/-! ## Patterns -/

/-- The patterns of a bit field of `x`. -/
inductive FieldPattern (site : Site) (id x : NodeId) : Opcode → Nat → Nat → Prop
  /-- A mask of low ones over a shifted word. -/
  | masked {y : NodeId} {lsb width : Nat}
      (hMask : site.graph.Combines (.word32 .and) id y (.ofNat 32 (2 ^ width - 1)))
      (hShift : site.graph.Combines (.word32 .shr) y x (.ofNat 32 lsb)) :
      FieldPattern site id x .ubfx lsb width
  /-- A shift of a masked word, whatever the mask has below the shift. -/
  | shifted {y : NodeId} {mask : BitVec 32} {lsb width : Nat}
      (hShift : site.graph.Combines (.word32 .shr) id y (.ofNat 32 lsb))
      (hMask : site.graph.Combines (.word32 .and) y x mask)
      (hField : mask >>> lsb = .ofNat 32 (2 ^ width - 1)) : FieldPattern site id x .ubfx lsb width
  /-- A mask without a run of ones, that is none of low ones. What it masks is no complement that
  the instruction takes in. -/
  | cleared {mask : BitVec 32} {lsb width : Nat}
      (hMask : site.graph.Combines (.word32 .and) id x mask)
      (hZeros : ~~~mask = runOfOnes lsb width)
      (hLow : ∀ k, 1 ≤ k → k ≤ 32 → mask ≠ runOfOnes 0 k)
      (hComplement : ∀ y, site.graph.complementOf? x = .ok (some y) → ¬CoveredBy site id x) :
      FieldPattern site id x .bfc lsb width

/-- Whether a node is a complement can be looked up. -/
theorem exists_complementOf? {g : Graph} (hWell : g.WellFormed) {operator : Operator}
    (hOp : g.HasOp u operator) : ∃ r, g.complementOf? u = .ok r := by
  unfold Graph.complementOf?
  rw [Graph.op_eq_ok.mpr hOp, ok_bind]
  by_cases hXor : operator = .word32 .xor
  · subst hXor
    obtain ⟨a, b, hApplies⟩ := hWell.applies hOp rfl
    obtain ⟨m, hm, -⟩ := hApplies.matches hWell rfl
    rw [if_neg (not_not_intro rfl), hm]
    exact ⟨_, rfl⟩
  · rw [if_pos hXor]
    exact ⟨_, rfl⟩

theorem canCover_false (hWell : site.graph.WellFormed) (hn : site.graph.node? u = some n)
    (h : ¬CoveredBy site id u) : Replies site (canCover id u) false := by
  unfold canCover
  intro s
  rw [Replies.read.bind]
  split
  · rfl
  · next hBlock =>
    rw [(Replies.look (hWell.uses hn)).bind]
    have hMany : ((site.graph.edgesTo u).filter
        fun e => (site.schedule.blockOf e.user).isSome).length ≠ 1 :=
      fun hOne => h ⟨Decidable.not_not.mp hBlock, hOne⟩
    rw [beq_eq_false_iff_ne.mpr hMany]
    rfl

/-- A complement that cannot be taken in is none. -/
theorem coveredComplement?_none (hWell : site.graph.WellFormed) {operator : Operator}
    (hOp : site.graph.HasOp u operator)
    (hComplement : ∀ y, site.graph.complementOf? u = .ok (some y) → ¬CoveredBy site id u) :
    Replies site (coveredComplement? id u) none := by
  obtain ⟨r, hr⟩ := exists_complementOf? hWell hOp
  obtain ⟨n, hn, -⟩ := hOp
  unfold coveredComplement?
  intro s
  rw [Replies.read.bind, (Replies.look hr).bind]
  cases r with
  | none => rfl
  | some y =>
    dsimp only
    rw [(canCover_false hWell hn (hComplement y hr)).bind]
    rfl

/-- What is no exclusive or is no complement. -/
theorem complementOf?_none {g : Graph} {operator : Operator} (hOp : g.HasOp u operator)
    (hXor : operator ≠ .word32 .xor) (y : NodeId) : g.complementOf? u ≠ .ok (some y) := by
  unfold Graph.complementOf?
  rw [Graph.op_eq_ok.mpr hOp, ok_bind, if_pos hXor]
  nofun

/-- A word under a mask is covered by way of the mask. -/
theorem coverNode_masked (hWell : site.graph.WellFormed) (hArmv7 : site.features.has .armv7 = true)
    {mask : BitVec 32} (hMask : site.graph.Combines (.word32 .and) id x mask)
    (hx : ∀ v, ¬site.graph.IsInt32 x v)
    (hComplement : ∀ y, site.graph.complementOf? x = .ok (some y) → ¬CoveredBy site id x) :
    site.graph.HasOp id (.word32 .and) ∧ ∃ left : Int32Match, left.id = x ∧
      site.graph.HasOp x left.op ∧ ∀ s s', coverMask id left mask site s = .ok (true, s') →
        coverNode id site s = .ok ((), s') := by
  have hOp := hMask.hasOp
  obtain ⟨m, hm, hLeft, hLeftOp, hValue, hRight⟩ := hMask.binary hWell rfl fun _ => hx
  refine ⟨hOp, m.left, hLeft, hLeftOp, fun s s' hRun => ?_⟩
  -- Neither operand is a complement that is taken in, so the rule gets to the mask.
  have hNoLeft : Replies site (coveredComplement? id m.left.id) none := by
    rw [hLeft]
    exact coveredComplement?_none hWell hLeftOp hComplement
  have hNoRight : Replies site (coveredComplement? id m.right.id) none := by
    obtain ⟨n, hn, hConstant, -⟩ := hRight
    have hOp : site.graph.HasOp m.right.id (.constant .int32) := ⟨n, hn, hConstant⟩
    exact coveredComplement?_none hWell hOp fun y hy => absurd hy (complementOf?_none hOp nofun y)
  rw [coverNode_word32 hOp]
  show coverAnd id site s = _
  unfold coverAnd
  rw [Replies.read.bind, (Replies.look hm).bind, hNoLeft.bind]
  dsimp only
  rw [hNoRight.bind]
  dsimp only
  rw [(has_replies .armv7).bind, if_pos hArmv7, hValue]
  show (coverMask id m.left mask site s >>= fun p => _) = _
  rw [hRun]
  rfl

/-- A number of a bit is in range. -/
theorem isInRange_of_value {m : Int32Match} (hLsb : lsb < 32)
    (h : m.value? = some (.ofNat 32 lsb)) :
    m.isInRange 0 31 = true ∧ (m.value?.getD 0).toNat = lsb := by
  have hInt := toInt_ofNat (Nat.le_of_lt hLsb)
  refine ⟨?_, ?_⟩
  · unfold Int32Match.isInRange
    rw [h, Option.any_some, hInt, decide_eq_true_eq]
    omega
  · rw [h, Option.getD_some, BitVec.toNat_ofNat]
    omega

/-- A field is taken out with a number that a node gives. -/
theorem coverExtract_shifted (hWell : site.graph.WellFormed) (hs : s.Sound)
    (hx : site.graph.Carries x u) {w : Word32Op} (hOp : site.graph.HasOp id (.word32 w))
    {b : NodeId} (hb : site.graph.IsInt32 b (.ofNat 32 lsb)) :
    ∃ s' i, coverExtract id x (useImmediate b) width site s = .ok ((), s') ∧
      AddsField site s s' id x .ubfx lsb width i := by
  obtain ⟨_, s', hRun, i, hAdds⟩ :=
    (coverExtract_returns hWell hOp hx (useImmediate_returns hb) width).ensures
      (coverExtract_field hs (fun t ht => useImmediate_of_isInt32 _ ht hb) width)
  exact ⟨s', i, hRun, hAdds⟩

/-! ### What covers each pattern -/

section
variable (hWell : site.graph.WellFormed) (hs : s.Sound) (hArmv7 : site.features.has .armv7 = true)
  (hx : site.graph.Carries x u) (hLsb : lsb < 32) (hWidth : 1 ≤ width) (hFits : lsb + width ≤ 32)
include hWell hs hArmv7 hx hLsb hWidth hFits

theorem coverNode_masked_shift
    (hMask : site.graph.Combines (.word32 .and) id y (.ofNat 32 (2 ^ width - 1)))
    (hShift : site.graph.Combines (.word32 .shr) y x (.ofNat 32 lsb)) :
    ∃ s' i, coverNode id site s = .ok ((), s') ∧ AddsField site s s' id x .ubfx lsb width i := by
  have hShr := hShift.hasOp
  obtain ⟨hOp, left, rfl, hLeft, hNode⟩ := coverNode_masked hWell hArmv7 hMask
    (fun v ⟨n, hn, hIs, _⟩ => nomatch hShr.unique ⟨n, hn, hIs⟩)
    (fun b hb => absurd hb (complementOf?_none hShr nofun b))
  obtain ⟨m, hm, rfl, -, hValue, hConstant⟩ := hShift.binary hWell rfl nofun
  obtain ⟨hRange, hNat⟩ := isInRange_of_value hLsb hValue
  obtain ⟨s', i, hRun, hAdds⟩ := coverExtract_shifted hWell hs hx hOp hConstant
  refine ⟨s', i, hNode s s' ?_, hAdds⟩
  unfold coverMask
  rw [← runOfOnes_zero, bitRun_run hWidth (by omega)]
  show (coverLowMask id left width site s >>= fun p => _) = _
  -- The field ends with the word, where the shift leaves no more of it.
  have hExtract : coverLowMask id left width site s = .ok ((), s') := by
    unfold coverLowMask
    rw [Replies.read.bind]
    dsimp only
    rw [if_pos (hLeft.unique hShr), (Replies.look hm).bind, if_pos hRange, hNat,
      min_eq_left (by omega)]
    show (coverExtract id _ _ width site s >>= fun p => _) = _
    rw [hRun]
    rfl
  rw [hExtract]
  rfl

theorem coverNode_shifted_mask {mask : BitVec 32}
    (hShift : site.graph.Combines (.word32 .shr) id y (.ofNat 32 lsb))
    (hMask : site.graph.Combines (.word32 .and) y x mask) (hConstant : ∀ v, ¬site.graph.IsInt32 x v)
    (hField : mask >>> lsb = .ofNat 32 (2 ^ width - 1)) :
    ∃ s' i, coverNode id site s = .ok ((), s') ∧ AddsField site s s' id x .ubfx lsb width i := by
  obtain ⟨m, hm, rfl, hLeft, hValue, hb⟩ := hShift.binary hWell rfl nofun
  obtain ⟨hRange, hNat⟩ := isInRange_of_value hLsb hValue
  obtain ⟨m', hm', rfl, -, hMasked, -⟩ := hMask.binary hWell rfl fun _ => hConstant
  obtain ⟨s', i, hRun, hAdds⟩ := coverExtract_shifted hWell hs hx hShift.hasOp hb
  -- shifting the mask away leaves `width` ones from bit zero on
  have hFound : shiftedField? site.graph m.left.id lsb = .ok (some (m'.left.id, width)) := by
    unfold shiftedField?
    rw [hm', ok_bind, hMasked]
    dsimp only
    rw [hField, ← runOfOnes, bitRun_run hWidth hFits]
    simp
    rfl
  have hGuard : (site.features.has .armv7 && decide (m.left.op = .word32 .and) &&
      m.right.isInRange 0 31) = true := by
    rw [hArmv7, hRange, decide_eq_true (hLeft.unique hMask.hasOp)]
    rfl
  refine ⟨s', i, ?_, hAdds⟩
  rw [coverNode_word32 hShift.hasOp]
  show coverShr id site s = _
  unfold coverShr
  rw [Replies.read.bind]
  dsimp only
  rw [(Replies.look hm).bind, (has_replies .armv7).bind, hNat, if_pos hGuard,
    (Replies.look hFound).bind]
  show (coverExtract id _ _ width site s >>= fun p => _) = _
  rw [hRun]
  rfl

omit hLsb in
theorem coverNode_cleared {mask : BitVec 32}
    (hMask : site.graph.Combines (.word32 .and) id x mask)
    (hConstant : ∀ v, ¬site.graph.IsInt32 x v) (hZeros : ~~~mask = runOfOnes lsb width)
    (hLow : ∀ k, 1 ≤ k → k ≤ 32 → mask ≠ runOfOnes 0 k)
    (hComplement : ∀ y, site.graph.complementOf? x = .ok (some y) → ¬CoveredBy site id x) :
    ∃ s' i, coverNode id site s = .ok ((), s') ∧ AddsField site s s' id x .bfc lsb width i := by
  obtain ⟨hOp, left, rfl, -, hNode⟩ := coverNode_masked hWell hArmv7 hMask hConstant hComplement
  have hFound : bitRun (~~~mask) = ⟨lsb, width, true⟩ := by
    rw [hZeros]
    exact bitRun_run hWidth hFits
  -- The run that the search finds in the mask itself does not start at bit 0.
  have hNotLow : ¬LowOnes mask := by
    rintro ⟨hRun, hLsb⟩
    have hOnes := eq_run_of_contiguous hRun
    obtain ⟨hSome, hWithin⟩ := bitRun_within hRun
    rw [hLsb] at hOnes
    exact hLow _ hSome (by omega) hOnes
  have hRuns : (bitRun (~~~mask)).contiguous = true := by rw [hFound]
  obtain ⟨_, s', hRun, rfl, i, hAdds⟩ :=
    (coverMask_clears_returns hWell hOp hx hNotLow hRuns).ensures
      (coverMask_clears hs left hNotLow hRuns)
  rw [hFound] at hAdds
  exact ⟨s', i, hNode s s' hRun, hAdds⟩

end

/-- An instruction for a bit field computes the word of its node from that of its base. And with the
feature, each of the patterns is covered by the instruction for its field. -/
theorem coverNode_field (hWell : site.graph.WellFormed) (hs : s.Sound) {w : Word32Op}
    (hOp : site.graph.HasOp id (.word32 w)) (hw : w = .and ∨ w = .shr) :
    (∀ s' code, coverNode id site s = .ok ((), s') → s'.segment = s.segment ++ code →
      ∀ i ∈ code, i.op.IsField → ∃ base lsb width,
        AddsField site s s' id base i.op lsb width i ∧ 1 ≤ width ∧ lsb + width ≤ 32 ∧
          ∀ val ρ, site.graph.Obeys val → s'.stream.immediates <+: ρ.stream.immediates →
            Holding ρ site.graph s' base (val base) →
              i.result? ρ = some (i.op.onField lsb width (val base)) ∧
                i.op.onField lsb width (val base) = val id) ∧
      ∀ x u op lsb width, site.features.has .armv7 = true → site.graph.Carries x u →
        (∀ v, ¬site.graph.IsInt32 x v) → lsb < 32 → 1 ≤ width → lsb + width ≤ 32 →
          FieldPattern site id x op lsb width → ∃ s' i,
            coverNode id site s = .ok ((), s') ∧ AddsField site s s' id x op lsb width i := by
  constructor
  · have hSettles : Ensures site s (coverNode id) fun _ s' => Settles site s s' id := by
      unfold Ensures
      rw [coverNode_word32 hOp]
      rcases hw with rfl | rfl
      · exact coverAnd_field hs hOp
      · exact coverShr_field hs hOp
    intro s' code hRun hCode i hi hField
    -- The code is what the step added: it has no bit field at all, or is one instruction.
    rcases hSettles () s' hRun with ⟨code', hCode', hNone⟩ | hValue
    · rw [hCode', List.append_cancel_left_eq] at hCode
      subst hCode
      exact absurd hField (hNone i hi)
    · obtain ⟨base, op, lsb, width, i', hAdds, hIs, hWidth, hFits, hValue⟩ := hValue
      have hOne := hAdds.segment.symm.trans hCode
      rw [List.append_cancel_left_eq] at hOne
      subst hOne
      cases List.mem_singleton.mp hi
      rw [hAdds.opcode]
      refine ⟨base, lsb, width, hAdds, hWidth, hFits, fun val ρ hVal hTable hBase => ?_⟩
      exact ⟨hAdds.result hIs ⟨hWidth, hFits⟩ hTable hBase, hValue val hVal⟩
  · intro x u op lsb width hArmv7 hx hConstant hLsb hWidth hFits hPattern
    cases hPattern with
    | masked hMask hShift =>
      exact coverNode_masked_shift hWell hs hArmv7 hx hLsb hWidth hFits hMask hShift
    | shifted hShift hMask hField =>
      exact coverNode_shifted_mask hWell hs hArmv7 hx hLsb hWidth hFits hShift hMask hConstant
        hField
    | cleared hMask hZeros hLow hComplement =>
      exact coverNode_cleared hWell hs hArmv7 hx hWidth hFits hMask hConstant hZeros hLow
        hComplement

/-- The byte of a parameter that starts at its bit 4, where bit fields have instructions. -/
def middleByte : Site where
  graph := {
    nodes := #[{ op := .start }, .parameter 0 .int32, .int32 4, .ofArity (.word32 .shr) [1, 2],
      .int32 255, .ofArity (.word32 .and) [3, 4], .ofArity .ret [5, 0, 0], .collect [6]]
    exit := some 7 }
  schedule := .single [1, 2, 3, 4, 5] 6
  features := .ofCodes [Feature.armv7.code]

theorem coverNode_field_middleByte :
    ∃ s' i, coverNode 5 middleByte {} = .ok ((), s') ∧
      AddsField middleByte {} s' 5 1 .ubfx 4 8 i ∧
      ∃ base, ∀ val ρ, middleByte.graph.Obeys val →
        s'.stream.immediates <+: ρ.stream.immediates →
          Holding ρ middleByte.graph s' base (val base) → i.result? ρ = some (val 5) := by
  have hWell : middleByte.graph.WellFormed :=
    .of_nodes (by decide +kernel) (by decide +kernel) (by decide +kernel)
  have hShift : middleByte.graph.Combines (.word32 .shr) 3 1 (.ofNat 32 4) :=
    ⟨2, ⟨_, rfl, rfl, by decide⟩, .inl ⟨_, rfl, rfl, rfl⟩⟩
  have hMask : middleByte.graph.Combines (.word32 .and) 5 3 (.ofNat 32 (2 ^ 8 - 1)) :=
    ⟨4, ⟨_, rfl, rfl, by decide⟩, .inl ⟨_, rfl, rfl, rfl⟩⟩
  have hAnd : middleByte.graph.HasOp 5 (.word32 .and) := ⟨_, rfl, rfl⟩
  have hParameter : middleByte.graph.HasOp 1 .parameter := ⟨_, rfl, rfl⟩
  obtain ⟨hComputes, hCovers⟩ := coverNode_field hWell .empty hAnd (.inl rfl)
  obtain ⟨s', i, hRun, hAdds⟩ := hCovers 1 1 .ubfx 4 8 (by decide) (.of_op hParameter nofun nofun)
    (fun v ⟨n, hn, hIs, _⟩ => nomatch hParameter.unique ⟨n, hn, hIs⟩) (by decide) (by decide)
    (by decide) (.masked hMask hShift)
  refine ⟨s', i, hRun, hAdds, ?_⟩
  obtain ⟨base, lsb, width, -, -, -, hResult⟩ := hComputes s' [i] hRun hAdds.segment i
    (List.mem_singleton_self i) (hAdds.opcode ▸ .inl rfl)
  refine ⟨base, fun val ρ hVal hTable hBase => ?_⟩
  obtain ⟨hRead, hValue⟩ := hResult val ρ hVal hTable hBase
  rw [hRead, hValue]

end Selection
end ArmBackend
