import ArmBackend.Proofs.Selection.Forms
import ArmBackend.Proofs.Selection.Registers

/-!
# Drafting instructions

While a node is covered, operands are taken one by one and then put into instructions. A `Draft`
lists the operands taken so far with their forms, and the instructions emitted so far, and says that
both agree with the tables of the stream. The primitive steps of selection each add one operand or
one instruction. Nothing here looks at the graph: a draft is sound whatever node it is for.

## Results

* `vreg_drafts`, `useAt_drafts`, `immediate_drafts`, `defineAt_drafts` — operands and their forms.
* `emit_drafts`, `emitFlags_drafts` — an instruction whose operands suit it is legal and fits the
  tables, and a branch ends in its labels.
-/

namespace ArmBackend.Selection

/-- The operands taken and the instructions emitted for a node agree with the tables, which have
grown since `start`. -/
structure Draft (features : Features) (start : Stream) (ops : List (Operand × Form))
    (code : List Instr) (s : State) : Prop where
  grows : start.Extends s.stream
  sound : s.Sound
  params : ∀ p ∈ s.params, Form.register.Holds s.stream p.2
  joins : ∀ phi ∈ s.phis, ∀ r ∈ phi.out :: phi.inputs, s.stream.HasVreg r
  operands : ∀ {o form}, (o, form) ∈ ops → form.Holds s.stream o
  segment : s.segment = code
  code : ∀ i ∈ code, i.Legal features s.stream ∧ i.Fits s.stream
  /-- The code is laid out only in the end. -/
  layout : s.stream.code = [] ∧ s.stream.blocks = []

/-- A row of operands with the forms they were taken as. -/
def Row (ops : List (Operand × Form)) (inputs : List Operand) (forms : List Form) : Prop :=
  List.Forall₂ (fun o form => (o, form) ∈ ops) inputs forms

variable {site : Site} {features : Features} {start : Stream} {ops ops' : List (Operand × Form)}
  {code : List Instr} {s s' : State} {id u : NodeId} {inputs out : List Operand}
  {forms : List Form} {op : Opcode} {mode : AddrMode}

/-- Operands that were taken stay taken. -/
theorem Row.mono (h : Row ops inputs forms) (hSub : ops ⊆ ops') : Row ops' inputs forms :=
  h.imp fun _ _ ho => hSub ho

/-- Rows are put one behind the other. -/
theorem Row.append {more : List Operand} {moreForms : List Form} (h : Row ops inputs forms)
    (h' : Row ops more moreForms) : Row ops (inputs ++ more) (forms ++ moreForms) :=
  List.rel_append h h'

/-! ## Steps that only give registers -/

/-- Instructions stay legal while the tables grow. -/
theorem legal_mono {i : Instr} {t t' : Stream} (h : i.Legal features t) (hExtends : t.Extends t') :
    i.Legal features t' := by
  refine ⟨⟨?_, h.accepts.elsewhere, ?_, h.accepts.feature⟩, h.outputs⟩
  · intro k slot hSlot
    obtain ⟨o, v, ho, hNumber, hAdmits⟩ := h.accepts.numbers k slot hSlot
    exact ⟨o, v, ho, hNumber.mono hExtends, hAdmits⟩
  · intro hField
    obtain ⟨o, o', v, v', ho, ho', hv, hv', hSum⟩ := h.accepts.field hField
    exact ⟨o, o', v, v', ho, ho', hv.mono hExtends, hv'.mono hExtends, hSum⟩

/-- An instruction that fits the tables fits them when they have grown. -/
theorem fits_mono {i : Instr} {t t' : Stream} (h : i.Fits t) (hExtends : t.Extends t') :
    i.Fits t' :=
  ⟨h.1, fun o ho => (h.2 o ho).mono hExtends⟩

/-- A step that lets the tables grow keeps a draft. -/
theorem Draft.step (h : Draft features start ops code s) (hGrows : s.stream.Extends s'.stream)
    (hSound : s'.Sound) (hParams : s'.params = s.params) (hPhis : s'.phis = s.phis)
    (hSegment : s'.segment = s.segment)
    (hLayout : s'.stream.code = s.stream.code ∧ s'.stream.blocks = s.stream.blocks) :
    Draft features start ops code s' where
  grows := h.grows.trans hGrows
  sound := hSound
  params := by
    intro p hp
    rw [hParams] at hp
    exact (h.params p hp).mono hGrows
  joins := by
    intro phi hPhi r hr
    rw [hPhis] at hPhi
    exact (h.joins phi hPhi r hr).mono hGrows
  operands := fun ho => (h.operands ho).mono hGrows
  -- code emitted earlier stays legal, since it looks up numbers that stay in the tables
  segment := hSegment.trans h.segment
  code := fun i hi => ⟨legal_mono (h.code i hi).1 hGrows, fits_mono (h.code i hi).2 hGrows⟩
  layout := ⟨hLayout.1.trans h.layout.1, hLayout.2.trans h.layout.2⟩

/-- A step that only gives registers and enters numbers leaves a draft as it is. -/
theorem Draft.allocate (h : Draft features start ops code s) (hAlloc : Allocates s s') :
    Draft features start ops code s' := by
  refine h.step ⟨hAlloc.next_le, ?_, ?_⟩ hAlloc.sound hAlloc.params hAlloc.phis hAlloc.segment
    hAlloc.layout
  · exact hAlloc.immediates
  · intro r hr
    rw [← State.isConstant_iff] at hr ⊢
    exact hAlloc.constant_mono hr

/-- Another operand whose form is known. -/
theorem Draft.take (h : Draft features start ops code s) {o : Operand} {form : Form}
    (ho : form.Holds s.stream o) : Draft features start (ops ++ [(o, form)]) code s where
  __ := h
  operands := by
    intro o' form' hMem
    rcases List.mem_append.mp hMem with hOld | hNew
    · exact h.operands hOld
    · cases List.mem_singleton.mp hNew
      exact ho

/-- The number of a block is an operand that needs no table. -/
theorem Draft.label (h : Draft features start ops code s) (t : Nat) :
    Draft features start (ops ++ [(.label t, .label)]) code s :=
  h.take ⟨t, rfl⟩

/-- The register of a node is taken, and is known to the stream. -/
theorem vreg_drafts (h : Draft features start ops code s) :
    Ensures site s (vreg u) fun v s' =>
      Draft features start ops code s' ∧ Holds site.graph s' u v ∧ s'.stream.HasVreg v := by
  refine (vreg_ensures h.sound).mono ?_
  rintro v s' ⟨hAlloc, hHolds⟩
  refine ⟨h.allocate hAlloc, hHolds, Int.natCast_nonneg v, ?_⟩
  -- The register is in one of the tables, and all of these lie below the next one.
  obtain ⟨x, op, -, -, hTable⟩ := hHolds
  split at hTable
  · obtain ⟨w, hw, hLt⟩ := hAlloc.sound.constant_lt hTable
    omega
  · have hLt := hAlloc.sound.vreg_lt hTable
    omega

/-- A new register is taken, and is known to the stream. -/
theorem newVreg_drafts (h : Draft features start ops code s) :
    Ensures site s newVreg fun v s' =>
      Draft features start ops code s' ∧ s'.stream.HasVreg v := by
  refine (newVreg_ensures h.sound).mono ?_
  rintro v s' ⟨hAlloc, -, -, hFresh⟩
  have hLt := hFresh.lt
  exact ⟨h.allocate hAlloc, Int.natCast_nonneg v, by omega⟩

/-! ## Operands -/

/-- A use is marked away from all that a draft speaks of. -/
theorem markUsed_drafts (h : Draft features start ops code s) :
    Ensures site s (markUsed u) fun _ s' => Draft features start ops code s' :=
  ensures_markUsed (h.step (.refl _) (h.sound.of_tables rfl rfl rfl) rfl rfl rfl ⟨rfl, rfl⟩)

/-- So is a node that is computed. -/
theorem markDefined_drafts (h : Draft features start ops code s) :
    Ensures site s (markDefined u) fun _ s' => Draft features start ops code s' :=
  ensures_markDefined (h.step (.refl _) (h.sound.of_tables rfl rfl rfl) rfl rfl rfl ⟨rfl, rfl⟩)

/-- The class of a register is noted without a change to the draft. -/
theorem markRep_drafts (h : Draft features start ops code s) (v : Nat) :
    Ensures site s (markRep id v) fun _ s' => Draft features start ops code s' :=
  (markRep_ensures h.sound).mono fun _ _ hAlloc => h.allocate hAlloc

/-- An operand for a node is a register that is taken. -/
theorem useAt_drafts (h : Draft features start ops code s) (location : Location) :
    Ensures site s (useAt u location) fun o s' =>
      Draft features start (ops ++ [(o, .register)]) code s' := by
  unfold useAt
  simp only [ensures_bind, ensures_pure]
  refine (markUsed_drafts h).mono ?_
  intro _ s₁ h₁
  refine (vreg_drafts h₁).mono ?_
  rintro v s₂ ⟨h₂, -, hv⟩
  exact h₂.take (.vreg hv location)

theorem useRegister_drafts (h : Draft features start ops code s) :
    Ensures site s (useRegister u) fun o s' =>
      Draft features start (ops ++ [(o, .register)]) code s' :=
  useAt_drafts h .register

/-- The output for a node is a register that is taken. -/
theorem defineAt_drafts (h : Draft features start ops code s) (location : Location) :
    Ensures site s (defineAt id location) fun o s' =>
      Draft features start (ops ++ [(o, .register)]) code s' := by
  unfold defineAt
  simp only [ensures_bind, ensures_pure]
  refine (markDefined_drafts h).mono ?_
  intro _ s₁ h₁
  refine (vreg_drafts h₁).mono ?_
  rintro v s₂ ⟨h₂, -, hv⟩
  refine (markRep_drafts (h₂.take (.vreg hv location)) v).mono ?_
  intro _ s₃ h₃
  exact h₃

theorem define_drafts (h : Draft features start ops code s) :
    Ensures site s (define id) fun o s' =>
      Draft features start (ops ++ [(o, .register)]) code s' :=
  defineAt_drafts h .register

/-- A temporary is a register that is taken. -/
theorem tempAt_drafts (h : Draft features start ops code s) (location : Location) :
    Ensures site s (tempAt location) fun o s' =>
      Draft features start (ops ++ [(o, .register)]) code s' := by
  unfold tempAt
  simp only [ensures_bind, ensures_pure]
  refine (newVreg_drafts h).mono ?_
  rintro v s₁ ⟨h₁, hv⟩
  exact h₁.take (.vreg hv location)

theorem tempRegister_drafts (h : Draft features start ops code s) :
    Ensures site s tempRegister fun o s' =>
      Draft features start (ops ++ [(o, .register)]) code s' :=
  tempAt_drafts h .register

/-- A temporary for a double is a register that is taken. -/
theorem tempDouble_drafts (h : Draft features start ops code s) :
    Ensures site s tempDouble fun o s' =>
      Draft features start (ops ++ [(o, .register)]) code s' := by
  unfold tempDouble
  simp only [ensures_bind, ensures_modify, ensures_pure]
  refine (newVreg_drafts h).mono ?_
  rintro v s₁ ⟨h₁, hv⟩
  refine (h₁.take (.vreg hv .register)).step ⟨Nat.le_refl _, List.prefix_rfl, fun hr => hr⟩
    (h₁.sound.of_tables rfl rfl rfl) rfl rfl rfl ⟨rfl, rfl⟩

/-- What the table of immediates gives for a number is that number. -/
theorem addImmediate_isNumber (t : Stream) (v : BitVec 32) :
    (t.addImmediate (.ofInt32 v)).1.IsNumber (.immediate (t.addImmediate (.ofInt32 v)).2) v := by
  rw [Stream.isNumber_iff]
  have hEntry : Stream.immediateEntry (.ofInt32 v) = .ofInt32 v := rfl
  have hInt : (BitVec.ofInt 32 v.toInt).toInt = v.toInt := by rw [BitVec.ofInt_toInt]
  unfold Stream.addImmediate
  rw [hEntry]
  dsimp only
  cases hFind : t.immediates.findIdx? fun old => old.sameEntry (.ofInt32 v) with
  | none =>
    refine ⟨t.immediates.length, .ofInt32 v, rfl, ?_, rfl, hInt⟩
    rw [List.getElem?_append_right (Nat.le_refl _), Nat.sub_self]
    rfl
  | some i =>
    -- An entry of the table that is the same constant has the same integer.
    obtain ⟨hLt, hSame, -⟩ := List.findIdx?_eq_some_iff_getElem.mp hFind
    simp only [Constant.sameEntry, Bool.and_eq_true, beq_iff_eq] at hSame
    refine ⟨i, t.immediates[i], rfl, List.getElem?_eq_getElem hLt, hSame.1.1.1, ?_⟩
    rw [hSame.1.1.2]
    exact hInt

/-- A number in an instruction is entered in the table of numbers. -/
theorem immediate_isNumber (hs : s.Sound) (v : BitVec 32) :
    Ensures site s (immediate v) fun o s' => Allocates s s' ∧ s'.stream.IsNumber o v :=
  (immediate_allocates hs v).and
    ((ensures_modifyGet _ _).mpr (addImmediate_isNumber s.stream v))

/-- A number is taken, as the number that it is. -/
theorem immediate_drafts (h : Draft features start ops code s) (v : BitVec 32) :
    Ensures site s (immediate v) fun o s' =>
      Draft features start (ops ++ [(o, .number v)]) code s' :=
  (immediate_isNumber h.sound v).mono fun _ _ ⟨hAlloc, hNumber⟩ =>
    (h.allocate hAlloc).take hNumber

/-- A constant in the instruction is the number that the matcher saw. -/
theorem useImmediate_drafts (h : Draft features start ops code s) {m : Int32Match}
    (hm : site.graph.int32 u = .ok m) :
    Ensures site s (useImmediate u) fun o s' =>
      ∃ v, m.value? = some v ∧ Draft features start (ops ++ [(o, .number v)]) code s' := by
  unfold useImmediate
  simp only [ensures_bind, ensures_read, ensures_lift]
  intro m' hm'
  cases hm.symm.trans hm'
  split
  · next v hv =>
    refine (immediate_drafts h v).mono ?_
    intro o s' h'
    exact ⟨v, hv, h'⟩
  · exact (ensures_throw _ _).mpr trivial

/-! ## Instructions -/

/-- An instruction whose operands suit it is legal and fits the tables. -/
theorem emit_drafts (h : Draft features start ops code s) {i : Instr}
    (hIn : Row ops i.inputs forms) (hSuits : i.op.Suits features i.mode forms)
    (hOut : ∀ o ∈ i.out ++ i.temp, (o, Form.register) ∈ ops) :
    Ensures site s (emit i) fun _ s' => Draft features start ops (code ++ [i]) s' := by
  refine ensures_emit fun hCheck => ?_
  have hInputs : List.Forall₂ (fun o (form : Form) => form.Holds s.stream o) i.inputs forms :=
    List.Forall₂.imp (fun _ _ ho => h.operands ho) hIn
  -- The operands are legal in the mode, and outputs are registers.
  have hLegal : i.Legal features s.stream := by
    refine ⟨hSuits.accepts hInputs, ?_⟩
    intro o ho
    obtain ⟨r, location, rfl, -⟩ := h.operands (hOut o ho)
    rfl
  -- Every operand is known to the stream.
  have hFits : i.Fits s.stream := by
    refine ⟨hCheck, ?_⟩
    intro o ho
    rw [List.append_assoc] at ho
    rcases List.mem_append.mp ho with ho | ho
    · obtain ⟨k, hk⟩ := List.mem_iff_getElem?.mp ho
      obtain ⟨hLt, hGet⟩ := List.getElem?_eq_some_iff.mp hk
      have hHolds := hInputs.get hLt (by rw [← hInputs.length_eq]; exact hLt)
      rw [List.get_eq_getElem, hGet] at hHolds
      exact hHolds.knows
    · exact (h.operands (hOut o ho)).knows
  exact {
    grows := h.grows
    sound := h.sound.of_tables rfl rfl rfl
    params := h.params
    joins := h.joins
    operands := h.operands
    segment := congrArg (· ++ [i]) h.segment
    code := by
      intro j hj
      rcases List.mem_append.mp hj with hOld | hNew
      · exact h.code j hOld
      · rw [List.mem_singleton.mp hNew]
        exact ⟨hLegal, hFits⟩
    layout := h.layout }

/-- What an instruction does with its flags: it goes to one of two blocks, or it ends no block. -/
def Continues (k : Continuation) (i : Instr) : Prop :=
  match k.use with
  | .branch t f => i.Branches t f
  | .unused | .result _ => ¬i.IsTerminator

/-- A node is covered by one instruction that puts its flags to use. -/
def Flagged (features : Features) (start : Stream) (k : Continuation) (s : State) : Prop :=
  ∃ ops i, Draft features start ops [i] s ∧ Continues k i

/-- A node is covered by instructions that end no block. -/
def Inner (features : Features) (start : Stream) (s : State) : Prop :=
  ∃ ops code, Draft features start ops code s ∧ ∀ i ∈ code, ¬i.IsTerminator

/-- An instruction whose flags are for no branch ends no block. -/
theorem Flagged.inner {k : Continuation} (h : Flagged features start k s)
    (hUse : k.isBranch = false) : Inner features start s := by
  obtain ⟨ops, i, hDraft, hi⟩ := h
  refine ⟨ops, [i], hDraft, ?_⟩
  intro j hj
  rw [List.mem_singleton.mp hj]
  unfold Continuation.isBranch at hUse
  unfold Continues at hi
  split at hi
  · next hBranch =>
    rw [hBranch] at hUse
    cases hUse
  · exact hi
  · exact hi

/-- Only the use of the flags matters to what the instruction does with them. -/
theorem Flagged.of_use {k k' : Continuation} (h : Flagged features start k s)
    (hUse : k'.use = k.use) : Flagged features start k' s := by
  obtain ⟨ops, i, hDraft, hi⟩ := h
  refine ⟨ops, i, hDraft, ?_⟩
  unfold Continues at hi ⊢
  rw [hUse]
  exact hi

/-- A node is covered by one instruction with the flags that are asked for. -/
theorem emitFlags_drafts (h : Draft features start ops [] s) (k : Continuation)
    (hIn : Row ops inputs forms) (hSuits : op.Suits features mode forms)
    (hOut : ∀ o ∈ out, (o, Form.register) ∈ ops) (hOp : op ≠ .jmp ∧ op ≠ .ret) :
    Ensures site s (emitFlags op mode k out inputs) fun _ s' => Flagged features start k s' := by
  unfold emitFlags
  cases hUse : k.use with
  | unused =>
    refine (emit_drafts h hIn hSuits (by simpa using hOut)).mono ?_
    intro _ s' h'
    refine ⟨ops, _, h', ?_⟩
    unfold Continues
    rw [hUse]
    simp [Instr.IsTerminator, hOp]
  | result node =>
    simp only [ensures_bind]
    refine (define_drafts h).mono ?_
    intro flag s₁ h₁
    have hSub : ops ⊆ ops ++ [(flag, .register)] := List.subset_append_left _ _
    -- The register of the flags is one more output.
    have hOutputs : ∀ o ∈ (out ++ [flag]) ++ [], (o, Form.register) ∈ ops ++ [(flag, .register)] := by
      intro o ho
      simp only [List.append_nil, List.mem_append, List.mem_singleton] at ho
      rcases ho with ho | rfl
      · exact hSub (hOut o ho)
      · simp
    refine (emit_drafts h₁ (hIn.mono hSub) hSuits hOutputs).mono ?_
    intro _ s₂ h₂
    refine ⟨_, _, h₂, ?_⟩
    unfold Continues
    rw [hUse]
    simp [Instr.IsTerminator, hOp]
  | branch t f =>
    have h₂ := (h.label t).label f
    have hSub : ops ⊆ ops ++ [(.label t, .label)] ++ [(.label f, .label)] := by
      intro p hp
      simp [hp]
    -- The two targets are two more operands.
    have hLabels : Row (ops ++ [(.label t, .label)] ++ [(.label f, .label)])
        [.label t, .label f] [.label, .label] := by simp [Row]
    have hRow := (hIn.mono hSub).append hLabels
    refine (emit_drafts h₂ hRow (hSuits.append (by simp)) ?_).mono ?_
    · intro o ho
      rw [List.append_nil] at ho
      exact hSub (hOut o ho)
    · intro _ s' h'
      refine ⟨_, _, h', ?_⟩
      unfold Continues
      rw [hUse]
      exact ⟨rfl, inputs, rfl⟩

end ArmBackend.Selection
