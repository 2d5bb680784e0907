import ArmBackend.Proofs.Placement
import ArmBackend.Proofs.Selection.Access
import ArmBackend.Proofs.Selection.Conditions
import ArmBackend.Selection.Run

/-!
# Covering a node or the end of a block

What selection does at one place of a schedule. A `Step` names what is taken, fused and computed
there; `CoversNode`, `CoversPhi` and `CoversEnd` say what is true of it for a node, a join and the
end of a block.

## Results

* `coverNode_ensures`, `coverPhi_ensures`, `coverControl_ensures` — the three kinds of places.
-/

namespace ArmBackend.Selection

variable {site : Site} {s : State} {c u v w x : NodeId}

/-- What is done at one place: the nodes that are taken, the operation that is fused, the nodes
computed on account of these, and those computed on account of the place itself. -/
structure Step where
  taken : List NodeId := []
  fused : Option NodeId := none
  extra : List NodeId := []
  own : List NodeId := []

/-- All nodes computed at one place. -/
def Step.defs (t : Step) : List NodeId :=
  t.extra ++ t.own

/-- A place is covered from state `start` to state `s`. -/
structure Step.Describes (t : Step) (site : Site) (c : NodeId) (start s : State) : Prop where
  consumes : Consumes site c t.taken t.fused t.extra
  covers : Covers site.graph (Visible site c t.taken t.fused) start t.defs s
  own_nodup : t.own.Nodup
  own : ∀ x ∈ t.own, (x = c ∧ ∀ op, site.graph.HasOp c op → op ≠ .projection ∧ op ≠ .finish) ∨
    (site.graph.Projects x 1 c ∧ ∃ op, site.graph.HasOp c op ∧ op.hasOverflow = true)

/-- A node is covered. Its value is computed, stands for a constant, or is that of another node,
which is then used. -/
structure CoversNode (site : Site) (c : NodeId) (t : Step) (start s : State) : Prop where
  describes : t.Describes site c start s
  fused : t.fused = none
  taken : t.taken ≠ [] → site.graph.HasOp c (.word32 .equal)
  value : ∀ op, site.graph.HasOp c op → op.hasValue = true → op.isConstant = true ∨ c ∈ t.own ∨
    ∃ n y, site.graph.node? c = some n ∧ n.input 0 = .ok y ∧ y ∈ s.used ∧
      (op = .finish ∨ op = .projection ∧ ∃ op, site.graph.HasOp y op ∧ op.hasOverflow = true)
  flags : ∀ op, site.graph.HasOp c op → op.hasOverflow = true → ∀ p,
    site.graph.Projects p 1 c → (site.schedule.blockOf p).isSome → p ∈ t.own
  silent : site.graph.HasOp c .projection → s.segment = []

/-- What a step computes on account of what it takes is not what it computes of its own. -/
theorem CoversNode.nodup_defs {t : Step} {s' : State} (h : CoversNode site c t s s') :
    t.defs.Nodup := by
  have hConsumes := h.describes.consumes
  -- at most one result of another node
  have hExtra : t.extra.Nodup := by
    match hList : t.extra, hConsumes.defs.1 with
    | [], _ => exact List.nodup_nil
    | [x], _ => exact List.pairwise_singleton _ _
  refine List.nodup_append.mpr ⟨hExtra, h.describes.own_nodup, ?_⟩
  rintro x hx _ hx' rfl
  -- an equality that takes nodes in is not what they end with, and does not overflow
  rcases hConsumes.defs.2 x hx with hFused | ⟨hTaken, op, hEqual, hOp⟩
  · rw [h.fused] at hFused
    cases hFused
  · have hc := h.taken (List.ne_nil_of_mem hTaken)
    rcases h.describes.own x hx' with ⟨rfl, -⟩ | ⟨-, op', hOp', hOverflow⟩
    · cases hOp.unique hc
      exact hEqual rfl
    · cases hOp'.unique hc
      cases hOverflow

/-- A node whose value alone is computed. -/
theorem CoversNode.of_value {op : Operator} (hOp : site.graph.HasOp c op)
    (hProjection : op ≠ .projection) (hFinish : op ≠ .finish) (hOverflow : op.hasOverflow = false)
    {s' : State}
    (h : Covers site.graph (Visible site c [] none) s [c] s') :
    CoversNode site c { own := [c] } s s' where
  describes := {
    consumes := (Strips.done c).consumes
    covers := h
    own_nodup := List.pairwise_singleton _ _
    own := by
      intro x hx
      refine .inl ⟨List.mem_singleton.mp hx, ?_⟩
      intro op' hOp'
      cases hOp.unique hOp'
      exact ⟨hProjection, hFinish⟩ }
  fused := rfl
  taken := fun h => absurd rfl h
  value := fun _ _ _ => .inr (.inl (List.mem_singleton_self c))
  flags := by
    intro op' hOp' hOver
    cases hOp.unique hOp'
    rw [hOverflow] at hOver
    cases hOver
  silent := fun hIs => absurd (hOp.unique hIs) hProjection

/-- A node that computes nothing. -/
theorem CoversNode.of_nothing {op : Operator} (hOp : site.graph.HasOp c op)
    (hOverflow : op.hasOverflow = false) {s' : State}
    (h : Covers site.graph (Visible site c [] none) s [] s')
    (hValue : op.hasValue = true → op.isConstant = true ∨
      ∃ n y, site.graph.node? c = some n ∧ n.input 0 = .ok y ∧ y ∈ s'.used ∧
        (op = .finish ∨ op = .projection ∧ ∃ op, site.graph.HasOp y op ∧ op.hasOverflow = true))
    (hSilent : op = .projection → s'.segment = []) : CoversNode site c {} s s' where
  describes := {
    consumes := (Strips.done c).consumes
    covers := h
    own_nodup := List.nodup_nil
    own := by
      intro x hx
      cases hx }
  fused := rfl
  taken := fun h => absurd rfl h
  value := by
    intro op' hOp' hHas
    cases hOp.unique hOp'
    exact (hValue hHas).imp id Or.inr
  flags := by
    intro op' hOp' hOver
    cases hOp.unique hOp'
    rw [hOverflow] at hOver
    cases hOver
  silent := fun hIs => hSilent (hOp.unique hIs)

/-! ## Parameters, projections and joins -/

/-- Whether every parameter comes in in its own register. -/
def ParamsGiven (s : State) : Prop :=
  ∀ id o, s.params.lookup id = some o → ∃ v : Nat, o.register? = some (v : Int) ∧ (id, v) ∈ s.vregs

theorem coverParameter_ensures (hs : s.Sound) (hSegment : s.segment = []) (hParams : ParamsGiven s)
    (V : NodeId → Prop) :
    Ensures site s (coverParameter c) fun _ s' => Covers site.graph V s [c] s' := by
  unfold coverParameter
  simp only [ensures_bind, ensures_get]
  split
  · exact (ensures_throw _ _).mpr trivial
  · next o ho =>
    obtain ⟨v, hv, hOwn⟩ := hParams c o ho
    simp only [ensures_bind]
    refine ensures_markDefined ?_
    refine (vreg_ensures (sound_defined hs)).mono ?_
    rintro r s₁ ⟨hAlloc, -⟩
    refine (markRep_ensures hAlloc.sound).mono ?_
    intro _ s₂ hRep
    -- the parameter's register was given at the start, and is only named here
    have hBoth := hAlloc.trans hRep
    have h₂ := (Progress.init hs hSegment).define (g := site.graph) (V := V) hBoth
      (hBoth.vreg_mono hOwn) hv
    exact emit_covers h₂ _ rfl rfl rfl (by simp) rfl

theorem coverProjection_ensures (hs : s.Sound) (hSegment : s.segment = [])
    (hOp : site.graph.HasOp c .projection) :
    Ensures site s (coverProjection c) fun _ s' => CoversNode site c {} s s' := by
  unfold coverProjection
  simp only [ensures_bind, ensures_read, ensures_lift]
  intro x hx op hxOp
  split
  · simp only [ensures_bind, ensures_throw]
  · next hOverflow =>
    obtain ⟨n, hn, hInput, -⟩ := Graph.valueIn_eq_ok hx
    refine ensures_markUsed ?_
    have hMark := (Progress.init hs hSegment).mark (V := Visible site c [] none) (.own rfl)
      (Graph.valueIn_feeds hx)
    refine .of_nothing hOp rfl (.empty hMark rfl rfl rfl) (fun _ => .inr ?_) fun _ => hSegment
    refine ⟨n, x, Graph.node_eq_ok.mp hn, hInput, List.mem_insert_self, .inr ⟨rfl, op, ?_, ?_⟩⟩
    · exact Graph.op_eq_ok.mp hxOp
    · simpa using hOverflow

theorem coverFinish_ensures (hs : s.Sound) (hSegment : s.segment = [])
    (hOp : site.graph.HasOp c .finish) (hu : site.graph.valueIn c 0 = .ok u) :
    Ensures site s (markUsed u) fun _ s' => CoversNode site c {} s s' := by
  obtain ⟨n, hn, hInput, -⟩ := Graph.valueIn_eq_ok hu
  refine ensures_markUsed ?_
  have hMark := (Progress.init hs hSegment).mark (V := Visible site c [] none) (.own rfl)
    (Graph.valueIn_feeds hu)
  refine .of_nothing hOp rfl (.empty hMark rfl rfl rfl) (fun _ => .inr ?_) nofun
  exact ⟨n, u, Graph.node_eq_ok.mp hn, hInput, List.mem_insert_self, .inl rfl⟩

/-- A join is covered: it takes the value of each of its inputs, in order. -/
structure CoversPhi (g : Graph) (c : NodeId) (phi : Stream.Phi) (start s : State) : Prop where
  grows : Grows start s
  sound : s.Sound
  used : ∀ {u}, u ∈ s.used ↔ u ∈ start.used ∨ g.Feeds c u
  defined : ∀ {u}, u ∈ s.defined ↔ u ∈ start.defined ∨ u = c
  segment : s.segment = start.segment
  phis : s.phis = phi :: start.phis
  out : ∃ v : Nat, phi.out = v ∧ (c, v) ∈ s.vregs
  inputs : ∃ n, g.node? c = some n ∧
    List.Forall₂ (fun u r => ∃ v : Nat, r = (v : Int) ∧ Holds g s u v) n.values phi.inputs

/-- The inputs of a join are marked, and their registers found. -/
theorem useInputs_ensures {l : List NodeId} (hs : s.Sound) :
    Ensures site s (l.mapM fun x => do
        markUsed x
        return (← vreg x : Int)) fun rs s' =>
      Grows s s' ∧ s'.Sound ∧ (∀ u, u ∈ s'.used ↔ u ∈ s.used ∨ u ∈ l) ∧
        s'.defined = s.defined ∧ s'.segment = s.segment ∧ s'.phis = s.phis ∧
        List.Forall₂ (fun u r => ∃ v : Nat, r = (v : Int) ∧ Holds site.graph s' u v) l rs := by
  induction l generalizing s with
  | nil =>
    simp only [List.mapM_nil, ensures_pure]
    exact ⟨.refl s, hs, by simp, trivial, trivial, trivial, .nil⟩
  | cons x rest ih =>
    simp only [List.mapM_cons, ensures_bind, ensures_pure]
    refine ensures_markUsed ?_
    have hMark : State.Sound { s with used := s.used.insert x } := hs.of_tables rfl rfl rfl
    refine (vreg_ensures hMark).mono ?_
    rintro v s₁ ⟨hAlloc, hHolds⟩
    refine (ih hAlloc.sound).mono ?_
    rintro rs s₂ ⟨hGrows, hSound, hUsed, hDefined, hSegment, hPhis, hRest⟩
    -- marking and allocating are two steps of growth, so the first operand holds in all later
    -- states
    have hUse : Grows s { s with used := s.used.insert x } := .of_tables rfl rfl rfl rfl ⟨rfl, rfl⟩
    have hFirst : Grows s s₁ := hUse.trans hAlloc.toGrows
    refine ⟨hFirst.trans hGrows, hSound, ?_, hDefined.trans hAlloc.defined,
      hSegment.trans hAlloc.segment, hPhis.trans hAlloc.phis,
      .cons ⟨v, rfl, hHolds.mono hGrows⟩ hRest⟩
    intro u
    rw [hUsed, hAlloc.used, List.mem_insert_iff, List.mem_cons]
    tauto

theorem coverPhi_ensures (hs : s.Sound) (hOp : site.graph.HasOp c .phi) :
    Ensures site s (coverPhi c) fun _ s' => ∃ phi, CoversPhi site.graph c phi s s' := by
  unfold coverPhi
  simp only [ensures_bind, ensures_read, ensures_lift, ensures_modify]
  intro n hn
  have hNode := Graph.node_eq_ok.mp hn
  refine (vreg_ensures hs).mono ?_
  rintro v s₁ ⟨hAlloc₁, hHolds⟩ values hValues
  have hOwn := hHolds.own (.of_op hOp nofun nofun) hOp rfl
  refine (useInputs_ensures hAlloc₁.sound).mono ?_
  rintro rs s₂ ⟨hGrows₂, hSound₂, hUsed, hDefined, hSegment, hPhis, hInputs⟩
  refine ensures_markDefined ?_
  refine (markRep_ensures (sound_defined hSound₂)).mono ?_
  intro _ s₃ hRep
  have hGrows₃ := grows_defined.trans hRep.toGrows
  -- in the order of `CoversPhi`: growth, soundness, uses, definition, segment, phis, then the
  -- registers
  refine ⟨{ out := v, inputs := rs }, ?_, ?_, ?_, ?_, ?_, ?_, ⟨v, rfl, ?_⟩, n, hNode, ?_⟩
  · exact ((hAlloc₁.toGrows.trans hGrows₂).trans hGrows₃).trans (.of_tables rfl rfl rfl rfl ⟨rfl, rfl⟩)
  · exact hRep.sound.of_tables rfl rfl rfl
  · intro u
    show u ∈ s₃.used ↔ _
    rw [hRep.used]
    show u ∈ s₂.used ↔ _
    rw [hUsed, hAlloc₁.used, Node.valueInputs_eq_ok hValues]
    refine or_congr Iff.rfl ⟨fun hu => ⟨n, hNode, hu⟩, ?_⟩
    rintro ⟨m, hm, hu⟩
    rw [hNode] at hm
    cases hm
    exact hu
  · intro u
    show u ∈ s₃.defined ↔ _
    rw [hRep.defined, List.mem_insert_iff, hDefined, hAlloc₁.defined, or_comm]
  · exact hRep.segment.trans (hSegment.trans hAlloc₁.segment)
  · exact congrArg _ (hRep.phis.trans (hPhis.trans hAlloc₁.phis))
  · exact hGrows₃.vreg_mono (hGrows₂.vreg_mono hOwn)
  · rw [← Node.valueInputs_eq_ok hValues]
    refine hInputs.imp ?_
    rintro u r ⟨v', rfl, hHolds'⟩
    exact ⟨v', rfl, hHolds'.mono (hGrows₃.trans (.of_tables rfl rfl rfl rfl ⟨rfl, rfl⟩))⟩

/-! ## Nodes -/

theorem coverWord32_ensures (hVerify : site.graph.verify = .ok ())
    (hProjected : site.graph.OverflowProjected) (hs : s.Sound) (hSegment : s.segment = [])
    {op : Word32Op} (hOp : site.graph.HasOp c (.word32 op)) :
    Ensures site s (coverWord32 c op) fun _ s' => ∃ t, CoversNode site c t s s' := by
  have hOwns : Owns site.graph c := .of_op hOp nofun nofun rfl
  have hVisible : Visible site c [] none c := .own rfl
  have hNone : ∀ id, (({} : Continuation).target?) = some id → Owns site.graph id := by
    rintro _ ⟨⟩
  have hInit : Progress site.graph (Visible site c [] none) s {} s := .init hs hSegment
  have hValue : ∀ s', Covers site.graph (Visible site c [] none) s [c] s' →
      ∃ t, CoversNode site c t s s' := fun s' h => ⟨_, .of_value hOp nofun nofun rfl h⟩
  have hShift : Ensures site s (coverShift c {}) fun _ s' => ∃ t, CoversNode site c t s s' :=
    (coverShift_ensures hInit hVisible hOwns hNone).mono fun _ => hValue
  cases op with
  | and => exact (coverAnd_ensures hInit folds_visible hVisible hOwns).mono fun _ => hValue
  | or =>
    exact (coverBinary_ensures hInit folds_visible hVisible hOwns hNone _ _).mono fun _ => hValue
  | xor => exact (coverXor_ensures hInit folds_visible hVisible hOwns).mono fun _ => hValue
  | shl => exact hShift
  | sar => exact hShift
  | ror => exact hShift
  | shr => exact (coverShr_ensures hInit folds_visible hVisible hOwns).mono fun _ => hValue
  -- a comparison may take a whole chain of nodes with it; the other operators define their own node
  -- only
  | equal =>
    refine (coverEqual_ensures hVerify hProjected hs hSegment hOp).mono ?_
    rintro _ s' ⟨T, ds, hConsumes, hCovers⟩
    refine ⟨{ taken := T, extra := ds, own := [c] }, ?_, rfl, fun _ => hOp, ?_, ?_, ?_⟩
    · refine ⟨hConsumes, hCovers, List.pairwise_singleton _ _, ?_⟩
      intro x hx
      refine .inl ⟨List.mem_singleton.mp hx, ?_⟩
      intro op hIs
      cases hOp.unique hIs
      exact ⟨nofun, nofun⟩
    · exact fun _ _ _ => .inr (.inl (List.mem_singleton_self c))
    · intro op hOp' hOverflow
      cases hOp.unique hOp'
      cases hOverflow
    · intro hIs
      cases hOp.unique hIs

theorem coverInt32_ensures (hVerify : site.graph.verify = .ok ())
    (hProjected : site.graph.OverflowProjected) (hs : s.Sound) (hSegment : s.segment = [])
    {op : Int32Op} (hOp : site.graph.HasOp c (.int32 op)) :
    Ensures site s (coverInt32 c op) fun _ s' => ∃ t, CoversNode site c t s s' := by
  have hOwns : Owns site.graph c := .of_op hOp nofun nofun rfl
  have hVisible : Visible site c [] none c := .own rfl
  have hInit : Progress site.graph (Visible site c [] none) s {} s := .init hs hSegment
  have hValue : (Operator.int32 op).hasOverflow = false → ∀ s',
      Covers site.graph (Visible site c [] none) s [c] s' → ∃ t, CoversNode site c t s s' :=
    fun hOverflow s' h => ⟨_, .of_value hOp nofun nofun hOverflow h⟩
  -- an operator with overflow defines its flag's projection in the same instruction
  have hFlagged : (Operator.int32 op).hasOverflow = true → ∀ direct reverse,
      Ensures site s (coverOverflow c direct reverse) fun _ s' =>
        ∃ t, CoversNode site c t s s' := by
    intro hOverflow direct reverse
    refine (coverOverflow_ensures hProjected hInit folds_visible hVisible hOp hOverflow direct
      reverse).mono ?_
    rintro _ s' ⟨flags, hLength, hFlags, hPlaced, hCovers⟩
    refine ⟨{ own := c :: flags }, ?_, rfl, fun h => absurd rfl h, ?_, ?_, ?_⟩
    · refine ⟨(Strips.done c).consumes, hCovers, List.nodup_cons.mpr ⟨?_, ?_⟩, ?_⟩
      · intro hc
        obtain ⟨n, hn, hProjection, -⟩ := hFlags c hc
        cases hOp.unique ⟨n, hn, hProjection⟩
      · match flags, hLength with
        | [], _ => exact List.nodup_nil
        | [p], _ => exact List.pairwise_singleton _ _
      · intro x hx
        -- what is defined here is the node itself or its projection
        rcases List.mem_cons.mp hx with rfl | hFlag
        · refine .inl ⟨rfl, ?_⟩
          intro op hIs
          cases hOp.unique hIs
          exact ⟨nofun, nofun⟩
        · exact .inr ⟨hFlags x hFlag, _, hOp, hOverflow⟩
    · exact fun _ _ _ => .inr (.inl List.mem_cons_self)
    · intro _ _ _ p hp hIn
      exact List.mem_cons_of_mem _ (hPlaced p hp hIn)
    · intro hIs
      cases hOp.unique hIs
  have hCompare : ∀ {comparison}, comparison? (.int32 op) = some comparison →
      Ensures site s (coverComparison c comparison) fun _ s' => ∃ t, CoversNode site c t s s' := by
    intro comparison hComparison
    refine (coverComparison_ensures hVerify hInit folds_visible hVisible hOp hComparison
      hOwns).mono fun _ => hValue ?_
    cases op <;> first | rfl | cases hComparison
  cases op with
  | add => exact (coverAdd_ensures hInit folds_visible hVisible hOwns).mono fun _ => hValue rfl
  | addWithOverflow => exact hFlagged rfl _ _
  | sub => exact (coverSub_ensures hInit folds_visible hVisible hOwns).mono fun _ => hValue rfl
  | subWithOverflow => exact hFlagged rfl _ _
  | mul => exact (coverMul_ensures hInit hVisible hOwns).mono fun _ => hValue rfl
  | div => exact (coverDivision_ensures hInit hVisible hOwns _).mono fun _ => hValue rfl
  | udiv => exact (coverDivision_ensures hInit hVisible hOwns _).mono fun _ => hValue rfl
  | mod => exact (coverRemainder_ensures hInit hVisible hOwns _).mono fun _ => hValue rfl
  | umod => exact (coverRemainder_ensures hInit hVisible hOwns _).mono fun _ => hValue rfl
  | lessThan => exact hCompare rfl
  | lessThanOrEqual => exact hCompare rfl
  | unsignedLessThan => exact hCompare rfl
  | unsignedLessThanOrEqual => exact hCompare rfl

theorem coverFloat64_ensures (hVerify : site.graph.verify = .ok ()) (hs : s.Sound)
    (hSegment : s.segment = []) {op : Float64Op} (hOp : site.graph.HasOp c (.float64 op)) :
    Ensures site s (coverFloat64 c op) fun _ s' => ∃ t, CoversNode site c t s s' := by
  have hOwns : Owns site.graph c := .of_op hOp nofun nofun rfl
  have hVisible : Visible site c [] none c := .own rfl
  have hInit : Progress site.graph (Visible site c [] none) s {} s := .init hs hSegment
  have hValue : ∀ s', Covers site.graph (Visible site c [] none) s [c] s' →
      ∃ t, CoversNode site c t s s' := fun s' h => ⟨_, .of_value hOp nofun nofun rfl h⟩
  -- the three comparisons share one rule
  have hCompare : ∀ {comparison}, comparison? (.float64 op) = some comparison →
      Ensures site s (coverComparison c comparison) fun _ s' => ∃ t, CoversNode site c t s s' :=
    fun hComparison => (coverComparison_ensures hVerify hInit folds_visible hVisible hOp
      hComparison hOwns).mono fun _ => hValue
  cases op with
  | add =>
    exact (coverDoubleAdd_ensures hVerify hInit folds_visible hVisible hOwns hOp).mono
      fun _ => hValue
  | sub =>
    exact (coverDoubleSub_ensures hVerify hInit folds_visible hVisible hOwns hOp).mono
      fun _ => hValue
  | mul => exact (coverDoubles_ensures hVerify hInit hVisible hOwns hOp _).mono fun _ => hValue
  | div => exact (coverDoubles_ensures hVerify hInit hVisible hOwns hOp _).mono fun _ => hValue
  | equal => exact hCompare rfl
  | lessThan => exact hCompare rfl
  | lessThanOrEqual => exact hCompare rfl

/-- Every node but a join is covered by one step. -/
theorem coverNode_ensures (hVerify : site.graph.verify = .ok ())
    (hProjected : site.graph.OverflowProjected) (hs : s.Sound) (hSegment : s.segment = [])
    (hParams : ParamsGiven s) (hPhi : ¬site.graph.HasOp c .phi) :
    Ensures site s (coverNode c) fun _ s' => ∃ t, CoversNode site c t s s' := by
  have hVisible : Visible site c [] none c := .own rfl
  have hInit : Progress site.graph (Visible site c [] none) s {} s := .init hs hSegment
  unfold coverNode
  simp only [ensures_bind, ensures_read, ensures_lift]
  intro op hOp
  have hOp := Graph.op_eq_ok.mp hOp
  -- the nodes with no code of their own: what has a value among them is a constant
  have hNothing : op.hasOverflow = false → (op.hasValue = true → op.isConstant = true) →
      Ensures site s (pure ()) fun _ s' => ∃ t, CoversNode site c t s s' :=
    fun hOverflow hConstant => (ensures_pure _ _).mpr ⟨_, .of_nothing hOp hOverflow
      (.empty hInit rfl rfl rfl) (fun h => .inl (hConstant h)) fun _ => hSegment⟩
  have hOwned : op ≠ .finish → op ≠ .projection → op.isConstant = false → Owns site.graph c :=
    fun hFinish hProjection hConstant => .of_op hOp hFinish hProjection hConstant
  have hValue : op ≠ .projection → op ≠ .finish → op.hasOverflow = false → ∀ s',
      Covers site.graph (Visible site c [] none) s [c] s' → ∃ t, CoversNode site c t s s' :=
    fun hProjection hFinish hOverflow s' h =>
      ⟨_, .of_value hOp hProjection hFinish hOverflow h⟩
  cases op with
  | start => exact hNothing rfl nofun
  | exit => exact hNothing rfl nofun
  | dead => exact hNothing rfl nofun
  | merge => exact hNothing rfl nofun
  | ifTrue => exact hNothing rfl nofun
  | ifFalse => exact hNothing rfl nofun
  | effectPhi => exact hNothing rfl nofun
  | valueEffect => exact hNothing rfl nofun
  | controlEffect => exact hNothing rfl nofun
  | constant kind => exact hNothing rfl fun _ => rfl
  | parameter =>
    exact (coverParameter_ensures hs hSegment hParams _).mono fun _ => hValue nofun nofun rfl
  | phi => exact absurd hOp hPhi
  | projection =>
    refine (coverProjection_ensures hs hSegment hOp).mono ?_
    exact fun _ s' h => ⟨_, h⟩
  | finish =>
    simp only [ensures_bind, ensures_lift]
    intro u hu
    refine (coverFinish_ensures hs hSegment hOp hu).mono ?_
    exact fun _ s' h => ⟨_, h⟩
  | call =>
    exact (coverCall_ensures hInit hVisible (hOwned nofun nofun rfl)).mono
      fun _ => hValue nofun nofun rfl
  | load =>
    exact (coverLoad_ensures hVerify hInit hVisible (hOwned nofun nofun rfl) hOp).mono
      fun _ => hValue nofun nofun rfl
  | store =>
    refine (coverStore_ensures hVerify hInit hVisible hOp).mono ?_
    intro _ s' h
    exact ⟨_, .of_nothing hOp rfl h nofun nofun⟩
  | word32 word => exact coverWord32_ensures hVerify hProjected hs hSegment hOp
  | int32 int => exact coverInt32_ensures hVerify hProjected hs hSegment hOp
  | convert conversion =>
    dsimp only
    split
    · exact (coverUnary_ensures hInit hVisible (hOwned nofun nofun rfl) _).mono
        fun _ => hValue nofun nofun rfl
    · exact (ensures_throw _ _).mpr trivial
  | float64 f => exact coverFloat64_ensures hVerify hs hSegment hOp
  -- the remaining operators are refused
  | invalid => exact (ensures_throw _ _).mpr trivial
  | branch => exact (ensures_throw _ _).mpr trivial
  | ret => exact (ensures_throw _ _).mpr trivial
  | change change => exact (ensures_throw _ _).mpr trivial
  | stringAdd => exact (ensures_throw _ _).mpr trivial
  | word64 word => exact (ensures_throw _ _).mpr trivial
  | unassigned code => exact (ensures_throw _ _).mpr trivial

theorem coverNode_phi_ensures (hs : s.Sound) (hPhi : site.graph.HasOp c .phi) :
    Ensures site s (coverNode c) fun _ s' => ∃ phi, CoversPhi site.graph c phi s s' := by
  unfold coverNode
  simp only [ensures_bind, ensures_read, ensures_lift]
  intro op hOp
  cases hPhi.unique (Graph.op_eq_ok.mp hOp)
  exact coverPhi_ensures hs hPhi

/-! ## Ends of blocks -/

/-- The end of a block is covered. Only a branch takes or fuses anything. -/
structure CoversEnd (site : Site) (block : Block) (t : Step) (start s : State) : Prop where
  describes : t.Describes site (block.control.getD (-1)) start s
  own : t.own = []
  branch : t.taken ≠ [] → block.kind = .branch

theorem CoversEnd.nodup_defs {block : Block} {t : Step} {s' : State}
    (h : CoversEnd site block t s s') : t.defs.Nodup := by
  rw [Step.defs, h.own, List.append_nil]
  match hList : t.extra, h.describes.consumes.defs.1 with
  | [], _ => exact List.nodup_nil
  | [x], _ => exact List.pairwise_singleton _ _

/-- The end of a block that computes nothing. -/
theorem CoversEnd.of_nothing {block : Block} {s' : State}
    (h : Covers site.graph (Visible site (block.control.getD (-1)) [] none) s [] s') :
    CoversEnd site block {} s s' := by
  refine ⟨⟨(Strips.done _).consumes, h, List.nodup_nil, ?_⟩, rfl, fun h => absurd rfl h⟩
  intro x hx
  cases hx

theorem coverReturn_ensures (hs : s.Sound) (hSegment : s.segment = []) :
    Ensures site s (coverReturn c) fun _ s' =>
      Covers site.graph (Visible site c [] none) s [] s' := by
  have hVisible : Visible site c [] none c := .own rfl
  unfold coverReturn
  simp only [ensures_bind, ensures_read, ensures_lift]
  intro x hx
  have hFeeds := Graph.valueIn_feeds hx
  refine (useAt_ensures (.init hs hSegment) hVisible hFeeds _).mono ?_
  intro o s₁ h₁
  refine (isDouble_ensures x).mono ?_
  rintro double _ rfl
  split
  · -- a double goes back in a second register as well
    simp only [ensures_bind]
    refine (useAt_ensures h₁ hVisible hFeeds _).mono ?_
    intro o' s₂ h₂
    exact emit_covers h₂ _ rfl rfl rfl (by simp) rfl
  · simp only [ensures_bind, ensures_pure]
    exact emit_covers h₁ _ rfl rfl rfl (by simp) rfl

theorem coverControl_ensures (hVerify : site.graph.verify = .ok ())
    (hProjected : site.graph.OverflowProjected) (hs : s.Sound) (hSegment : s.segment = [])
    (b : Nat) (block : Block) :
    Ensures site s (coverControl b block) fun _ s' => ∃ t, CoversEnd site block t s s' := by
  unfold coverControl
  simp only [ensures_bind, ensures_read]
  split
  · split
    · -- a block that runs on ends in a jump
      have hInit : Progress site.graph (Visible site (block.control.getD (-1)) [] none) s {} s :=
        .init hs hSegment
      refine (emit_covers hInit _ rfl rfl rfl (by simp [Operand.register?]) rfl).mono ?_
      exact fun _ s' h => ⟨_, .of_nothing h⟩
    · simp only [ensures_bind, ensures_lift, ensures_throw]
      exact fun _ _ => trivial
  · next hKind =>
    simp only [ensures_bind, ensures_lift]
    -- only a branch takes the nodes of its condition with it
    rintro ⟨t, f⟩ _
    refine (coverBranch_ensures hVerify hProjected hs hSegment t f).mono ?_
    rintro _ s' ⟨T, F, ds, hConsumes, hCovers⟩
    refine ⟨{ taken := T, fused := F, extra := ds }, ⟨hConsumes, ?_, List.nodup_nil, ?_⟩, rfl,
      fun _ => hKind⟩
    · rw [Step.defs, List.append_nil]
      exact hCovers
    · intro x hx
      cases hx
  · refine (coverReturn_ensures hs hSegment).mono ?_
    exact fun _ s' h => ⟨_, .of_nothing h⟩
  · simp only [ensures_bind, ensures_lift, ensures_throw]
    exact fun _ _ => trivial

end ArmBackend.Selection
