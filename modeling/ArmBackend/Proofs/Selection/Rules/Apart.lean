import ArmBackend.Proofs.Selection.Effects
import ArmBackend.Proofs.Selection.Rules.Decided

/-!
# Rules with nothing to deliver

A node that is neither an operator on words nor a flag is *apart*: its instructions say nothing of
such values. All that matters is that they leave the registers of other nodes alone, which they do:
what they write is the register of their node or a new one.

So `Scope.apart` allows any opcode, and clear outputs only: every rule of a node apart stays in it.

## Results

* `coverNode_faithful` — what covering a node adds.
* `coverControl_faithful` — what the end of a block adds.
-/

namespace ArmBackend.Selection

variable {α β : Type} {site : Site} {g : Graph} {s s' : State} {id u x : NodeId} {r : Nat}
  {k : Continuation} {op : Opcode} {o : Operand} {i : Instr} {l : List Operand}

/-! ## Outputs -/

/-- Whether a node is neither an operator on words nor a flag, and has a register of its own. -/
structure Apart (g : Graph) (id : NodeId) : Prop where
  owns : Owns g id
  word : ∀ op, g.HasOp id op → op.isProcessing = false
  flag : ¬g.IsFlag id

theorem Apart.of_op {operator : Operator} (hOp : g.HasOp id operator)
    (hFinish : operator ≠ .finish) (hProjection : operator ≠ .projection)
    (hConstant : operator.isConstant = false) (hProcessing : operator.isProcessing = false)
    (hComparison : operator.isComparison = false) : Apart g id where
  owns := .of_op hOp hFinish hProjection hConstant
  word := fun _ hOp' => hOp.unique hOp' ▸ hProcessing
  flag := not_isFlag hOp hComparison hProjection

/-- Whether an output is a new register, or that of a node apart. -/
def Clear (g : Graph) (s : State) (o : Operand) : Prop :=
  ∃ r : Nat, o.register? = some (r : Int) ∧ (Fresh s r ∨ ∃ x, Apart g x ∧ (x, r) ∈ s.vregs)

theorem Clear.mono (h : Clear g s o) (hGrows : Grows s s') : Clear g s' o := by
  obtain ⟨r, hr, hOutput⟩ := h
  refine ⟨r, hr, hOutput.imp (·.mono hGrows) ?_⟩
  rintro ⟨x, hx, hMem⟩
  exact ⟨x, hx, hGrows.vreg_mono hMem⟩

/-- Nodes apart may be computed, and any instruction with clear outputs emitted. -/
def Scope.apart (g : Graph) : Scope g where
  computes := Apart g
  emits := fun _ => True
  writes := Clear g
  mono := Clear.mono
  own := fun _ hx hStands => ⟨_, rfl, .inr ⟨_, hx, hStands.own hx.owns⟩⟩
  temp := fun _ hFresh => ⟨_, rfl, .inl hFresh⟩

/-- An access stays in the scope of its node. -/
theorem AddsAccess.apart (h : AddsAccess site.graph id s s') (hId : Apart site.graph id) :
    (Scope.apart site.graph).Adds s s' := by
  obtain ⟨i, hAdvances, -, hOut⟩ := h
  refine ⟨[i], hAdvances.mono ?_, ?_⟩
  · rintro x rfl
    exact hId
  · intro i' hi
    rw [List.mem_singleton.mp hi]
    refine ⟨trivial, fun o ho => ?_⟩
    obtain ⟨r, location, rfl, hStands⟩ := hOut o ho
    exact ⟨r, rfl, .inr ⟨id, hId, hStands.own hId.owns⟩⟩

/-! ## Nodes and ends of blocks -/

/-- Whether every output of an instruction is clear, or the register of a node that the instruction
delivers. -/
def Meets (site : Site) (s : State) (i : Instr) : Prop :=
  ∀ o ∈ i.out, Clear site.graph s o ∨ ∃ x, Serves site s i x o

/-- Whether a node is apart, or some instruction writes its register. -/
def Written (g : Graph) (s : State) (code : List Instr) (x : NodeId) : Prop :=
  Apart g x ∨ ∃ i ∈ code, ∃ r : Nat, (x, r) ∈ s.vregs ∧ (r : Int) ∈ i.writes

/-- What a rule adds: every instruction meets its outputs, and all that is computed is written. -/
structure Faithful (site : Site) (s s' : State) (code : List Instr) : Prop where
  advances : Advances s s' code (Written site.graph s' code)
  meets : ∀ i ∈ code, Meets site s' i

theorem Emitted.faithful {nodes : List NodeId} (h : Emitted site s s' nodes i) :
    Faithful site s s' [i] where
  advances := by
    refine h.advances.mono fun x hx => .inr ⟨i, List.mem_singleton_self i, ?_⟩
    obtain ⟨k, hk, rfl⟩ := List.mem_iff_getElem.mp hx
    have hk' : k < i.out.length := h.serves.length_eq ▸ hk
    obtain ⟨r, hr, hMem, -⟩ := h.serves.get hk hk'
    exact ⟨r, hMem, List.mem_filterMap.mpr ⟨_, List.getElem_mem hk', hr⟩⟩
  meets := by
    intro i' hi o ho
    rw [List.mem_singleton.mp hi] at ho ⊢
    obtain ⟨k, hk, rfl⟩ := List.mem_iff_getElem.mp ho
    have hk' : k < nodes.length := h.serves.length_eq ▸ hk
    exact .inr ⟨_, h.serves.get hk' hk⟩

/-- A rule of a node apart. -/
theorem faithful_of_apart {m : Select Unit}
    (h : Ensures site s m fun _ s' => (Scope.apart site.graph).Adds s s') :
    Ensures site s m fun _ s' => ∃ code, Faithful site s s' code := by
  refine h.mono ?_
  rintro _ s' ⟨code, hAdvances, hCode⟩
  exact ⟨code, hAdvances.mono fun _ hx => .inl hx, fun i hi o ho => .inl ((hCode i hi).2 o ho)⟩

theorem faithful_of_emits {m : Select Unit} {R : Unit → List Operand}
    (h : Emits site (.apart site.graph) [] m R) (hs : s.Sound) :
    Ensures site s m fun _ s' => ∃ code, Faithful site s s' code :=
  faithful_of_apart (h.adds hs)

/-- A rule with one instruction. -/
theorem faithful_of_emitted {m : Select Unit}
    (h : Ensures site s m fun _ s' => ∃ nodes i, Emitted site s s' nodes i) :
    Ensures site s m fun _ s' => ∃ code, Faithful site s s' code := by
  refine h.mono ?_
  rintro _ s' ⟨nodes, i, hEmitted⟩
  exact ⟨[i], hEmitted.faithful⟩

theorem faithful_of_word {m : Select Unit}
    (h : Ensures site s m fun _ s' => ∃ i, Emitted site s s' [id] i) :
    Ensures site s m fun _ s' => ∃ code, Faithful site s s' code :=
  faithful_of_emitted (h.mono fun _ _ hEmitted => ⟨[id], hEmitted⟩)

theorem coverWord32_faithful {w : Word32Op} (hs : s.Sound)
    (hOp : site.graph.HasOp id (.word32 w)) :
    Ensures site s (coverWord32 id w) fun _ s' => ∃ code, Faithful site s s' code := by
  cases w with
  | and => exact faithful_of_word (coverAnd_exact hs hOp)
  | or => exact faithful_of_word (coverWord_exact hs hOp rfl mirrors_or)
  | xor => exact faithful_of_word (coverXor_exact hs hOp)
  | shl | sar | ror => exact faithful_of_word (coverShift_exact hs hOp rfl)
  | shr => exact faithful_of_word (coverShr_exact hs hOp)
  | equal => exact faithful_of_emitted (coverEqual_exact hs hOp)

theorem coverInt32_faithful {n : Int32Op} (hs : s.Sound) (hOp : site.graph.HasOp id (.int32 n)) :
    Ensures site s (coverInt32 id n) fun _ s' => ∃ code, Faithful site s s' code := by
  -- sums and comparisons compute a word that is known; products and quotients stay apart
  cases n with
  | add => exact faithful_of_word (coverAdd_exact hs hOp)
  | addWithOverflow | subWithOverflow => exact faithful_of_emitted (coverOverflow_exact hs hOp rfl)
  | sub => exact faithful_of_word (coverSub_exact hs hOp)
  | mul =>
    have hId : Apart site.graph id := .of_op hOp nofun nofun rfl rfl rfl
    exact faithful_of_emits (coverMul_emits hId trivial fun _ => trivial) hs
  | div | udiv =>
    have hId : Apart site.graph id := .of_op hOp nofun nofun rfl rfl rfl
    exact faithful_of_emits (coverDivision_emits hId ⟨trivial, trivial, trivial, trivial⟩) hs
  | mod | umod =>
    have hId : Apart site.graph id := .of_op hOp nofun nofun rfl rfl rfl
    have hOps : ∀ ops, (Scope.apart site.graph).Divides ops :=
      fun _ => ⟨trivial, trivial, trivial, trivial⟩
    exact faithful_of_emits (coverRemainder_emits hId (hOps _) trivial trivial trivial) hs
  | lessThan | lessThanOrEqual | unsignedLessThan | unsignedLessThanOrEqual =>
    exact faithful_of_word (coverComparison_exact hs hOp rfl rfl)

theorem coverFloat64_faithful {f : Float64Op} (hs : s.Sound)
    (hOp : site.graph.HasOp id (.float64 f)) :
    Ensures site s (coverFloat64 id f) fun _ s' => ∃ code, Faithful site s s' code := by
  have hId : Apart site.graph id := .of_op hOp nofun nofun rfl rfl rfl
  -- The truth of a comparison of doubles is no flag of words.
  have hCompare : ∀ c, Ensures site s (coverComparison id (.doubles c)) fun _ s' =>
      ∃ code, Faithful site s s' code := by
    intro c
    refine faithful_of_emits (coverDoubleCompare_emits trivial ?_) hs
    rintro node ⟨⟩
    exact hId
  cases f with
  | add => exact faithful_of_emits (coverDoubleAdd_emits hId trivial trivial) hs
  | sub => exact faithful_of_emits (coverDoubleSub_emits hId trivial trivial) hs
  | mul | div => exact faithful_of_emits (coverDoubles_emits hId trivial) hs
  | equal | lessThan | lessThanOrEqual => exact hCompare _

/-- Covering a node computes what the node stands for. -/
theorem coverNode_faithful (hs : s.Sound) (hParams : ParamsGiven s) :
    Ensures site s (coverNode id) fun _ s' => ∃ code, Faithful site s s' code := by
  unfold coverNode
  simp only [ensures_bind, ensures_read, ensures_lift]
  intro operator hOperator
  have hOp := Graph.op_eq_ok.mp hOperator
  have hNothing : Ensures site s (pure ()) fun _ s' => ∃ code, Faithful site s s' code :=
    faithful_of_emits (.pure (R := fun _ => []) () nofun) hs
  -- the nodes that touch memory or call write the one instruction that is their own
  have hAccess : ∀ {m : Select Unit}, Apart site.graph id →
      (Ensures site s m fun _ s' => AddsAccess site.graph id s s') →
      Ensures site s m fun _ s' => ∃ code, Faithful site s s' code :=
    fun hId h => faithful_of_apart (h.mono fun _ _ hAdds => hAdds.apart hId)
  cases operator with
  | start | exit | dead | merge | ifTrue | ifFalse | effectPhi | valueEffect | controlEffect =>
    exact hNothing
  | constant kind => exact hNothing
  | parameter =>
    have hId : Apart site.graph id := .of_op hOp nofun nofun rfl rfl rfl
    refine faithful_of_apart (coverParameter_emits hId trivial hs fun location hLocation => ?_)
    -- a parameter's register was given before the first block
    obtain ⟨v, hv, hOwn⟩ := hParams id location hLocation
    exact ⟨v, hv, .inr ⟨id, hId, hOwn⟩⟩
  | phi =>
    exact faithful_of_emits (coverPhi_emits (Apart.of_op hOp nofun nofun rfl rfl rfl)) hs
  | projection => exact faithful_of_emits coverProjection_emits hs
  | finish =>
    have hMark : Emits site (.apart site.graph) [] (do markUsed (← site.graph.valueIn id 0))
        fun _ => [] := .look fun x _ => markUsed_emits x
    exact faithful_of_emits hMark hs
  | call => exact hAccess (.of_op hOp nofun nofun rfl rfl rfl) (coverCall_adds hs hOp)
  | load => exact hAccess (.of_op hOp nofun nofun rfl rfl rfl) (coverLoad_adds hs hOp)
  | store => exact hAccess (.of_op hOp nofun nofun rfl rfl rfl) (coverStore_adds hs hOp)
  | word32 w => exact coverWord32_faithful hs hOp
  | int32 n => exact coverInt32_faithful hs hOp
  | convert c =>
    dsimp only
    split
    · have hId : Apart site.graph id := .of_op hOp nofun nofun rfl rfl rfl
      exact faithful_of_emits (coverUnary_emits hId trivial) hs
    · exact (ensures_throw _ _).mpr trivial
  | float64 f => exact coverFloat64_faithful hs hOp
  | invalid | branch | ret | stringAdd => exact (ensures_throw _ _).mpr trivial
  | change c => exact (ensures_throw _ _).mpr trivial
  | word64 w => exact (ensures_throw _ _).mpr trivial
  | unassigned c => exact (ensures_throw _ _).mpr trivial

/-- Whether some code is one instruction that chooses between the targets of a branch, by the word
of its condition. -/
def Branching (site : Site) (block : Block) (s : State) (code : List Instr) : Prop :=
  block.kind = .branch → ∃ i c t f, code = [i] ∧
    branchTargets site.graph site.schedule block (block.control.getD (-1)) = .ok (t, f) ∧
    site.graph.valueIn (block.control.getD (-1)) 0 = .ok c ∧ Chooses site s i c t f

/-- The end of a block writes nothing of another kind, and a branch goes by its condition. -/
theorem coverControl_faithful (hs : s.Sound) (b : Nat) (block : Block) :
    Ensures site s (coverControl b block) fun _ s' =>
      ∃ code, Faithful site s s' code ∧ Branching site block s' code := by
  -- Only a branch has to say where it goes.
  have hPlain : ∀ {m : Select Unit}, Emits site (.apart site.graph) [] m (fun _ => []) →
      block.kind ≠ .branch → Ensures site s m fun _ s' =>
        ∃ code, Faithful site s s' code ∧ Branching site block s' code := by
    intro m hm hKind
    refine (faithful_of_emits hm hs).mono ?_
    rintro _ s' ⟨code, hFaithful⟩
    exact ⟨code, hFaithful, fun hBranch => absurd hBranch hKind⟩
  unfold coverControl
  simp only [ensures_bind, ensures_read]
  cases hKind : block.kind with
  | goto =>
    dsimp only
    refine hPlain ?_ (by simp [hKind])
    split
    · exact emit_emits trivial nofun
    · exact .look fun _ _ => .throw _
  | branch =>
    simp only [ensures_bind, ensures_lift]
    rintro ⟨t, f⟩ hTargets
    refine (coverBranch_exact hs t f).mono ?_
    rintro _ s' ⟨c, nodes, i, hc, hEmitted, hChooses⟩
    exact ⟨[i], hEmitted.faithful, fun _ => ⟨i, c, t, f, rfl, hTargets, hc, hChooses⟩⟩
  | ret => exact hPlain (coverReturn_emits trivial) (by simp [hKind])
  | none => exact hPlain (.look fun _ _ => .throw _) (by simp [hKind])

end ArmBackend.Selection
