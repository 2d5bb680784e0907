import ArmBackend.Proofs.Selection.Rules.Apart

/-!
# What selected code computes

Along the walk every instruction keeps meeting its outputs, and every node that was computed has an
instruction that writes its register. In the end each instruction that writes the register of an
operator on words computes the word of the node, each that writes the register of a flag sets it by
a condition that holds when the flag is one, and each branch goes by the word of its condition. All
this is said of readings, whose registers hold the words of the nodes that they stand for.

Nothing is asked of the graph or of the schedule but that selection succeeds.

## Results

* `select_computes` — the words of operators.
* `select_decides` — flags and branches.
-/

namespace ArmBackend

/-! ## Targets of branches -/

/-- Whether block `t` is entered through a projection of a branch, directly or in a merge. -/
def Schedule.Enters (s : Schedule) (g : Graph) (t : Nat) (branch : NodeId) (op : Operator) : Prop :=
  ∃ block p, s.blocks[t]? = some block ∧ g.HasOp p op ∧ g.HasInput p branch ∧
    (block.head = p ∨ ∃ m, g.node? block.head = some m ∧ m.op = .merge ∧ p ∈ m.inputs)

namespace Selection

variable {site : Site} {g : Graph} {schedule : Schedule} {s s' : State} {id x : NodeId} {r b : Nat}
  {D : NodeId → Prop} {block : Block} {i : Instr} {code more : List Instr}

/-- The two blocks found for a branch are successors that its projections lead to. -/
theorem branchTargets_enters {branch : NodeId} {t f : Nat}
    (h : branchTargets g schedule block branch = .ok (t, f)) :
    (t ∈ block.succ ∧ schedule.Enters g t branch .ifTrue) ∧
      f ∈ block.succ ∧ schedule.Enters g f branch .ifFalse := by
  unfold branchTargets at h
  obtain ⟨uses, hUses, h⟩ := bind_eq_ok.mp h
  obtain ⟨p, hFold, h⟩ := bind_eq_ok.mp h
  have hFound : ∀ {u : Use} {op : Operator} {x : Nat}, u ∈ uses → g.op u.user = .ok op →
      targetOf? g schedule u.user block.succ = .ok (some x) →
      x ∈ block.succ ∧ schedule.Enters g x branch op := by
    intro u op x hu hOp hx
    obtain ⟨hMem, found, hBlock, hHead⟩ := targetOf?_eq_some hx
    rw [Graph.uses_eq_ok hUses] at hu
    obtain ⟨n, hn, hInput⟩ := Graph.mem_edgesTo.mp hu
    exact ⟨hMem, found, u.user, hBlock, Graph.op_eq_ok.mp hOp,
      ⟨n, hn, List.mem_of_getElem? hInput⟩, hHead⟩
  -- Each use may overwrite what was found for its arm, by a block that this projection leads to.
  have hArms : (∀ x, p.1 = some x → x ∈ block.succ ∧ schedule.Enters g x branch .ifTrue) ∧
      ∀ x, p.2 = some x → x ∈ block.succ ∧ schedule.Enters g x branch .ifFalse := by
    refine Settles.of_ok (Settles.foldlM_mem (R := fun _ => True)
      (I := fun p : Option Nat × Option Nat =>
        (∀ x, p.1 = some x → x ∈ block.succ ∧ schedule.Enters g x branch .ifTrue) ∧
          ∀ x, p.2 = some x → x ∈ block.succ ∧ schedule.Enters g x branch .ifFalse) ?_ ?_) hFold
    · simp
    · rintro u hu ⟨t?, f?⟩ ⟨hT, hF⟩
      refine Settles.intro ?_
      intro q hq
      obtain ⟨op, hOp, hq⟩ := bind_eq_ok.mp hq
      split at hq
      · obtain ⟨x?, hx, hq⟩ := bind_eq_ok.mp hq
        cases pure_eq_ok.mp hq
        refine ⟨?_, hF⟩
        rintro x rfl
        exact hFound hu hOp hx
      · obtain ⟨x?, hx, hq⟩ := bind_eq_ok.mp hq
        cases pure_eq_ok.mp hq
        refine ⟨hT, ?_⟩
        rintro x rfl
        exact hFound hu hOp hx
      · cases pure_eq_ok.mp hq
        exact ⟨hT, hF⟩
  obtain ⟨t?, f?⟩ := p
  dsimp only at h hArms
  split at h
  · cases pure_eq_ok.mp h
    exact ⟨hArms.1 _ rfl, hArms.2 _ rfl⟩
  · cases h

/-! ## The walk -/

theorem Meets.mono (h : Meets site s i) (hMoves : Moves s s' D) : Meets site s' i := by
  intro o ho
  rcases h o ho with hClear | ⟨x, r, hr, hMem, hDelivers⟩
  · exact .inl (hClear.mono hMoves.grows)
  · exact .inr ⟨x, r, hr, hMoves.vregs hMem, hDelivers.grown hMoves.toGrown⟩

/-- What an instruction delivers does not depend on the place that is covered. -/
theorem Meets.of_at {node : NodeId} (h : Meets (site.at b node) s i) : Meets site s i := by
  intro o ho
  rcases h o ho with hClear | ⟨x, r, hr, hMem, hWord, hFlag⟩
  · exact .inl hClear
  · exact .inr ⟨x, r, hr, hMem, hWord, hFlag⟩

theorem Written.mono (h : Written g s code x) (hMoves : Moves s s' D) (hCode : code ⊆ more) :
    Written g s' more x := by
  rcases h with hApart | ⟨i, hi, r, hMem, hr⟩
  · exact .inl hApart
  · exact .inr ⟨i, hCode hi, r, hMoves.vregs hMem, hr⟩

theorem Branching.mono (h : Branching site block s code) (hMoves : Moves s s' D) :
    Branching site block s' code := by
  intro hKind
  obtain ⟨i, c, t, f, hCode, hTargets, hc, hChooses⟩ := h hKind
  exact ⟨i, c, t, f, hCode, hTargets, hc, hChooses.branches,
    hChooses.target.imp_right (·.grown hMoves.toGrown)⟩

/-- What is kept along the walk, of all the code that was selected so far. -/
structure Kept (site : Site) (s : State) (code : List Instr) : Prop where
  sound : s.Sound
  params : ParamsGiven s
  meets : ∀ i ∈ code, Meets site s i
  written : ∀ x ∈ s.defined, Written site.graph s code x

/-- A step that adds to the tables keeps what is known, if what it computes is written. -/
theorem Kept.moves (h : Kept site s code) (hMoves : Moves s s' D) (hCode : code ⊆ more)
    (hMeets : ∀ i ∈ more, i ∉ code → Meets site s' i)
    (hWritten : ∀ x, D x → Written site.graph s' more x) : Kept site s' more where
  sound := hMoves.sound
  params := by
    intro x o ho
    rw [hMoves.grows.params] at ho
    obtain ⟨v, hv, hMem⟩ := h.params x o ho
    exact ⟨v, hv, hMoves.vregs hMem⟩
  meets := by
    intro i hi
    by_cases hOld : i ∈ code
    · exact (h.meets i hOld).mono hMoves
    · exact hMeets i hi hOld
  written := by
    intro x hx
    rcases hMoves.defined x hx with hOld | hNew
    · exact (h.written x hOld).mono hMoves hCode
    · exact hWritten x hNew

/-- A step that changes no table. -/
theorem Kept.same (h : Kept site s code) (hMoves : Moves s s' Nothing) : Kept site s' code :=
  h.moves hMoves (List.Subset.refl _) (fun _ hi hNot => absurd hi hNot) fun _ hx => hx.elim

/-- A piece of code is what its rule adds. -/
theorem segmentOf_faithful (h : Kept site s code) {cover : Select Unit}
    {P : List Instr → State → Prop}
    (hCover : ∀ t : State, t.Sound → ParamsGiven t → Ensures (site.at b id) t cover fun _ s' =>
      ∃ segment, Faithful (site.at b id) t s' segment ∧ P segment s') :
    Ensures site s (segmentOf b id cover) fun segment s' =>
      Kept site s' (segment ++ code) ∧ Moves s s' (Written site.graph s' segment) ∧
        P segment s' := by
  unfold segmentOf
  simp only [ensures_bind, ensures_modify, ensures_get, ensures_pure, ensures_withReader]
  -- The rule starts from an empty piece, so that what it adds is the whole piece.
  have hEmpty : Moves s { s with segment := [] } Nothing :=
    .of_tables h.sound rfl rfl rfl rfl rfl rfl ⟨rfl, rfl⟩
  have hStart : Kept site { s with segment := [] } code := h.same hEmpty
  have hPiece : Ensures (site.at b id) { s with segment := [] } cover _ :=
    hCover { s with segment := [] } hStart.sound hStart.params
  refine hPiece.mono ?_
  rintro _ s' ⟨segment, hFaithful, hP⟩
  have hSegment : s'.segment = segment := hFaithful.advances.segment
  rw [hSegment]
  have hMoves : Moves _ s' (Written site.graph s' segment) := hFaithful.advances.toMoves
  refine ⟨?_, (hEmpty.mono fun _ hx => hx.elim).trans hMoves, hP⟩
  refine hStart.moves hMoves (List.subset_append_right _ _) ?_ ?_
  · intro i hi hNot
    rcases List.mem_append.mp hi with hNew | hOld
    · exact (hFaithful.meets i hNew).of_at
    · exact absurd hOld hNot
  · intro x hx
    -- What is new in the table is apart, or an instruction of the new piece writes it.
    rcases hx with hApart | ⟨i, hi, hWrites⟩
    · exact .inl hApart
    · exact .inr ⟨i, List.mem_append_left _ hi, hWrites⟩

/-- The nodes are covered from the last to the first, and their code goes in front. -/
theorem coverNodes_faithful {l : List NodeId} {last : List Instr}
    (h : Kept site s (last ++ code)) :
    Ensures site s (coverNodes b l last) fun all s' => ∃ front, all = front ++ last ∧
      Kept site s' (all ++ code) ∧ ∃ D, Moves s s' D := by
  refine ensures_coverNodes (I := fun _ all t => ∃ front, all = front ++ last ∧
    Kept site t (all ++ code) ∧ ∃ D, Moves s t D)
    ⟨[], rfl, h, Nothing, .refl h.sound, .refl s⟩ ?_ fun _ _ _ _ hI _ => hI
  rintro x rest _ t ⟨front, rfl, hKept, D, hMoves⟩ _ _
  refine (segmentOf_faithful (P := fun _ _ => True) hKept fun t ht hParams => ?_).mono ?_
  · refine (coverNode_faithful ht hParams).mono ?_
    rintro _ s' ⟨segment, hFaithful⟩
    exact ⟨segment, hFaithful, trivial⟩
  · -- the segment comes in front of what is there
    rintro segment t' ⟨hKept', hMoves', -⟩
    rw [← List.append_assoc] at hKept'
    refine ⟨segment ++ front, (List.append_assoc _ _ _).symm, hKept', fun _ => True, ?_⟩
    exact (hMoves.mono fun _ _ => trivial).trans (hMoves'.mono fun _ _ => trivial)

/-- Whether the code of a block ends in its branch, if it has one. -/
def Chosen (site : Site) (block : Block) (s : State) (code : List Instr) : Prop :=
  ∃ front last, code = front ++ last ∧ Branching site block s last

theorem coverBlock_faithful (h : Kept site s code) :
    Ensures site s (coverBlock b block) fun c s' => Kept site s' (c.code ++ code) ∧
      Chosen site block s' c.code ∧ ∃ D, Moves s s' D := by
  unfold coverBlock
  simp only [ensures_bind, ensures_modify, ensures_get, ensures_pure]
  have hEmpty : Moves s { s with phis := [] } Nothing :=
    .of_tables h.sound rfl rfl rfl rfl rfl rfl ⟨rfl, rfl⟩
  -- the end of the block is covered first, with its branch
  refine (segmentOf_faithful (P := fun segment s' => Branching site block s' segment)
    (h.same hEmpty) fun t ht _ => ?_).mono ?_
  · refine (coverControl_faithful ht b block).mono ?_
    rintro _ s' ⟨segment, hFaithful, hBranching⟩
    refine ⟨segment, hFaithful, fun hKind => ?_⟩
    obtain ⟨i, c, t, f, hCode, hTargets, hc, hChooses, hGoes⟩ := hBranching hKind
    exact ⟨i, c, t, f, hCode, hTargets, hc, hChooses, hGoes⟩
  · -- then the nodes, backwards, which put their code in front
    rintro last s₁ ⟨hKept, hMoves, hBranching⟩
    refine (coverNodes_faithful hKept).mono ?_
    rintro all s₂ ⟨front, rfl, hAll, D, hRest⟩
    refine ⟨hAll, ⟨front, last, rfl, hBranching.mono hRest⟩, fun _ => True, ?_⟩
    exact ((hEmpty.mono fun _ _ => trivial).trans (hMoves.mono fun _ _ => trivial)).trans
      (hRest.mono fun _ _ => trivial)

theorem coverBlocks_faithful {l : List (Block × Nat)} (h : Kept site s []) :
    Ensures site s (coverBlocks l.reverse []) fun all s' =>
      Kept site s' (all.flatMap Covered.code) ∧
        List.Forall₂ (fun (c : Covered) p => Chosen site p.1 s' c.code) all l := by
  refine ensures_coverBlocks_each (I := fun _ done t => Kept site t (done.flatMap Covered.code))
    (P := fun c p t => Chosen site p.1 t c.code) h ?_
  intro block b rest done t hKept
  refine (coverBlock_faithful hKept).mono ?_
  rintro c t' ⟨hKept', hChosen, D, hMoves⟩
  refine ⟨List.flatMap_cons ▸ hKept', hChosen, ?_⟩
  -- later blocks only add registers and constants, so the choices made stay right
  rintro c' p ⟨front, last, hCode, hBranching⟩
  exact ⟨front, last, hCode, hBranching.mono hMoves⟩

theorem coverAll_faithful :
    Ensures site {} coverAll fun covered s => Kept site s (covered.flatMap Covered.code) ∧
      List.Forall₂ (fun (c : Covered) p => Chosen site p.1 s c.code) covered
        site.schedule.blocks.toList.zipIdx := by
  unfold coverAll
  simp only [ensures_bind, ensures_read]
  refine (assignParameters_ensures {} (fun p => parameters_hasOp) .empty nofun rfl rfl).mono ?_
  rintro _ s ⟨hSound, hParams, -, hDefined, -⟩
  exact coverBlocks_faithful ⟨hSound, hParams, by simp, by simp [hDefined]⟩

/-- An instruction that writes the register of a node delivers the node, unless this is apart. -/
theorem Kept.delivers (h : Kept site s code) (hMem : (id, r) ∈ s.vregs) (hi : i ∈ code)
    (hr : (r : Int) ∈ i.writes) (hId : ¬Apart site.graph id) : Delivers site s i id r := by
  obtain ⟨o, ho, hRegister⟩ := List.mem_filterMap.mp hr
  have hSame : ∀ {q : Nat}, o.register? = some (q : Int) → q = r := by
    intro q hq
    rw [hRegister] at hq
    exact (Int.ofNat.inj (Option.some.inj hq)).symm
  rcases h.meets i hi o ho with ⟨q, hq, hFresh | ⟨x, hx, hxMem⟩⟩ | ⟨x, q, hq, hxMem, hDelivers⟩
  · rw [hSame hq] at hFresh
    exact absurd hMem hFresh.not_vreg
  · rw [hSame hq] at hxMem
    exact absurd (h.sound.vreg_inj hxMem hMem ▸ hx) hId
  · rw [hSame hq] at hxMem hDelivers
    exact h.sound.vreg_inj hxMem hMem ▸ hDelivers

end Selection

open Selection

/-! ## Streams -/

/-- What selection has done at the end of its walk. -/
def walk (g : Graph) (schedule : Schedule) (features : Features) : Except Fault State := do
  let (_, s) ← (coverAll.run { graph := g, schedule, features }).run {}
  return s

/-- What is known of a stream and the state that it was laid out from. -/
structure LaidOut (site : Site) (s : State) (stream : Stream) : Prop where
  kept : Kept site s stream.code
  grown : Grown s { s with stream } Nothing
  /-- The code of a block ends in one instruction, which decides where a branch goes. -/
  ends : ∀ (b : Nat) (source : Block) (block : Stream.Block),
    site.schedule.blocks[b]? = some source → stream.blocks[b]? = some block →
      ∃ front i, block.code stream = front ++ [i] ∧ (∀ j ∈ front, ¬j.IsTerminator) ∧
        Branching site source s [i]

theorem select_laidOut {g : Graph} {schedule : Schedule} {features : Features} {stream : Stream}
    (hSelect : select g schedule features = .ok stream) :
    ∃ s, walk g schedule features = .ok s ∧ LaidOut ⟨g, schedule, features, 0, -1⟩ s stream := by
  unfold select at hSelect
  obtain ⟨⟨covered, s⟩, hCovered, hStream⟩ := bind_eq_ok.mp hSelect
  cases pure_eq_ok.mp hStream
  have hWalk : walk g schedule features = .ok s := bind_eq_ok.mpr ⟨_, hCovered, rfl⟩
  obtain ⟨_, _, hDraft, hEnds⟩ := coverAll_drafts covered s hCovered
  obtain ⟨hKept, hChosen⟩ := coverAll_faithful covered s hCovered
  obtain ⟨added, hBlocks, hCode, -, hAdded⟩ := foldl_appendBlock covered s.stream
  rw [hDraft.layout.2, List.nil_append] at hBlocks
  rw [hDraft.layout.1, List.nil_append] at hCode
  refine ⟨s, hWalk, hCode ▸ hKept, grown_layout hKept.sound covered, ?_⟩
  intro b source block hSource hBlock
  -- The block at a position has the code that was covered for the block of the schedule there.
  rw [hBlocks] at hBlock
  obtain ⟨hLt, hGet⟩ := List.getElem?_eq_some_iff.mp hBlock
  obtain ⟨hSize, hGetSource⟩ := Array.getElem?_eq_some_iff.mp hSource
  have hb : b < covered.length := hAdded.length_eq ▸ hLt
  have hIndex : b < schedule.blocks.toList.zipIdx.length := by simpa using hSize
  have hBlockCode := (hAdded.get hb hLt).2
  obtain ⟨front, i, hLast, hPlain, -⟩ := (hEnds.get hb hIndex).ends
  obtain ⟨front', last, hSplit, hBranching⟩ := hChosen.get hb hIndex
  simp only [List.get_eq_getElem, List.getElem_zipIdx, Array.getElem_toList, hGet, hGetSource]
    at hBlockCode hLast hSplit hBranching
  refine ⟨front, i, hBlockCode.trans hLast, hPlain, fun hKind => ?_⟩
  obtain ⟨j, c, t, f, rfl, hRest⟩ := hBranching hKind
  obtain ⟨-, rfl⟩ := List.append_singleton_inj.mp (hLast.symm.trans hSplit)
  exact ⟨i, c, t, f, rfl, hRest⟩

theorem LaidOut.assigns {site : Site} {s : State} {stream : Stream} (h : LaidOut site s stream) :
    Assigns s.vregs stream := by
  refine ⟨h.kept.sound.vreg_inj, h.kept.sound.vreg_fun, ?_⟩
  intro x r hx
  have hNot := h.grown.sound.apart hx
  rw [State.isConstant_iff] at hNot
  simpa using hNot

/-- What holds of the tables of the walk holds of the stream. -/
theorem LaidOut.reads {site : Site} {s : State} {stream : Stream} (h : LaidOut site s stream)
    {P : (NodeId → BitVec 32) → Reading → Prop} (hP : Always site.graph s P) :
    ∀ val ρ, site.graph.Consistent val → Agrees site.graph s.vregs stream val ρ → P val ρ :=
  hP.grown h.grown

/-- Whether every instruction that writes the register of a node is as `P` says, and there is one if
the node was computed. -/
structure Computes (s : State) (stream : Stream) (id : NodeId) (P : Nat → Instr → Prop) : Prop where
  written : id ∈ s.defined → ∃ (r : Nat) (i : Instr), (id, r) ∈ s.vregs ∧ i ∈ stream.code ∧
    (r : Int) ∈ i.writes
  each : ∀ {r : Nat} {i : Instr}, (id, r) ∈ s.vregs → i ∈ stream.code → (r : Int) ∈ i.writes → P r i

theorem LaidOut.computes {site : Site} {s : State} {stream : Stream} {id : NodeId}
    {P : Nat → Instr → Prop} (h : LaidOut site s stream) (hId : ¬Apart site.graph id)
    (hP : ∀ {r : Nat} {i : Instr}, Delivers site s i id r → P r i) : Computes s stream id P where
  written := by
    intro hDefined
    rcases h.kept.written id hDefined with hApart | ⟨i, hi, r, hMem, hr⟩
    · exact absurd hApart hId
    · exact ⟨r, i, hMem, hi, hr⟩
  each := fun hMem hi hr => hP (h.kept.delivers hMem hi hr hId)

/-- Folding and fusion preserve values. For any graph over any schedule, each instruction that is
selected to write the register of a bitwise operator, a shift, a sum or a difference computes the
word of its node, whichever operands it takes in, unless it is a bit field instruction. -/
theorem select_computes {g : Graph} {schedule : Schedule} {features : Features} {stream : Stream}
    (hSelect : select g schedule features = .ok stream) :
    ∃ s, walk g schedule features = .ok s ∧ Assigns s.vregs stream ∧
      ∀ id op, g.HasOp id op → op.isProcessing = true → Computes s stream id fun _ i =>
        i.Extracts features op ∨ ∀ val ρ, g.Consistent val → Agrees g s.vregs stream val ρ →
          i.result? ρ = some (val id) := by
  obtain ⟨s, hWalk, hLaid⟩ := select_laidOut hSelect
  refine ⟨s, hWalk, hLaid.assigns, ?_⟩
  intro id op hOp hProcessing
  have hId : ¬Apart g id := by
    intro hApart
    rw [hApart.word op hOp] at hProcessing
    cases hProcessing
  refine hLaid.computes hId fun hDelivers => ?_
  exact (hDelivers.word op hOp hProcessing).imp_right hLaid.reads

/-- A shift on the left of a difference, a complement, and a product on the right of another. -/
def mixture : Graph where
  nodes := #[{ op := .start }, .parameter 0 .int32, .int32 3, .ofArity (.word32 .shl) [1, 2],
    .int32 100, .ofArity (.int32 .add) [1, 4], .ofArity (.int32 .sub) [3, 5], .int32 (-1),
    .ofArity (.word32 .xor) [5, 7], .ofArity (.word32 .and) [6, 8], .ofArity (.int32 .mul) [9, 1],
    .ofArity (.int32 .sub) [5, 10], .ofArity .ret [11, 0, 0], .collect [12]]
  exit := some 13

/-- The words of the nodes for the argument 5. -/
def mixtureWords (id : NodeId) : BitVec 32 :=
  [0, 5, 3, 40, 100, 105, -65, -1, -106, -106, -530, 635].getD id.toNat 0

/-- The registers that hold these words. -/
def mixtureRegisters (r : Int) : BitVec 32 :=
  [5, 635, -106, 105, -65].getD r.toNat 0

/-- A reading of a stream selected for these words. -/
def mixtureReading (stream : Stream) : Reading where
  registers := mixtureRegisters
  stream := stream
  carry := false
  overflow := false

theorem select_computes_mixture : ∃ s stream,
    select mixture (.single [1, 2, 3, 4, 5, 6, 7, 8, 9, 10, 11] 12) ⟨7⟩ = .ok stream ∧
      walk mixture (.single [1, 2, 3, 4, 5, 6, 7, 8, 9, 10, 11] 12) ⟨7⟩ = .ok s ∧
      stream.code.map Instr.op = [.nop, .add, .rsb, .bic, .mls, .ret] ∧
      mixture.Consistent mixtureWords ∧
      Agrees mixture s.vregs stream mixtureWords (mixtureReading stream) ∧
      ∃ (r : Nat) (i : Instr), (11, r) ∈ s.vregs ∧ i ∈ stream.code ∧ (r : Int) ∈ i.writes ∧
        i.result? (mixtureReading stream) = some 635 := by
  -- Selection is run once; what its instructions are worth is told by the theorem.
  have hRun : ((select mixture (.single [1, 2, 3, 4, 5, 6, 7, 8, 9, 10, 11] 12) ⟨7⟩).toOption.bind
      fun stream => (walk mixture (.single [1, 2, 3, 4, 5, 6, 7, 8, 9, 10, 11] 12) ⟨7⟩).toOption.map
        fun s => (stream.code.map Instr.op, stream.constants.length, s.vregs, s.defined)) =
      some ([.nop, .add, .rsb, .bic, .mls, .ret], 0, [(6, 4), (5, 3), (9, 2), (11, 1), (1, 0)],
        [1, 5, 6, 9, 11]) := by
    decide +kernel
  obtain ⟨stream, hStream, hRun⟩ := Option.bind_eq_some_iff.mp hRun
  obtain ⟨s, hState, hRun⟩ := Option.map_eq_some_iff.mp hRun
  simp only [Prod.mk.injEq, List.length_eq_zero_iff] at hRun
  obtain ⟨hOps, hConstants, hRegs, hDefined⟩ := hRun
  have hSelect := toOption_eq_some.mp hStream
  have hVal : mixture.Consistent mixtureWords := .of_nodes (by decide +kernel) (by decide +kernel)
  have hRegisters : ∀ p ∈ [((6 : NodeId), 4), (5, 3), (9, 2), (11, 1), (1, 0)],
      mixtureRegisters ((p.2 : Nat) : Int) = mixtureWords p.1 := by
    decide
  have hAgrees : Agrees mixture s.vregs stream mixtureWords (mixtureReading stream) := by
    refine .of_tables (hRegs ▸ hRegisters) ?_ List.prefix_rfl
    simp [hConstants]
  obtain ⟨s', hWalk, -, hEach⟩ := select_computes hSelect
  cases (toOption_eq_some.mp hState).symm.trans hWalk
  have hComputes := hEach 11 (.int32 .sub) ⟨_, rfl, rfl⟩ rfl
  obtain ⟨r, i, hMem, hi, hr⟩ := hComputes.written (by simp [hDefined])
  refine ⟨s, stream, hSelect, hWalk, hOps, hVal, hAgrees, r, i, hMem, hi, hr, ?_⟩
  rcases hComputes.each hMem hi hr with ⟨-, -, hAnd | hShr⟩ | hResult
  · cases hAnd
  · cases hShr
  · exact hResult mixtureWords _ hVal hAgrees

/-- Flags and branches decide by the words of their nodes. For any graph over any schedule, each
instruction that is selected to write the register of a comparison or of an overflow puts the truth
of its condition there, which is the word of the node; and the one instruction that ends a block
with a branch goes to the true arm exactly when the word of the condition is not zero. Left out are
comparisons of doubles that were reached from the condition. -/
theorem select_decides {g : Graph} {schedule : Schedule} {features : Features} {stream : Stream}
    (hSelect : select g schedule features = .ok stream) :
    ∃ s, walk g schedule features = .ok s ∧ Assigns s.vregs stream ∧
      (∀ id, g.IsFlag id → Computes s stream id fun r i =>
        (i.op = .vcmp ∧ g.AsksDoubles id) ∨
          i.flags = .set ∧ i.out.getLast? = some (.vreg r .register) ∧
            ∀ val ρ, g.Consistent val → Agrees g s.vregs stream val ρ →
              i.holds? ρ = some (val id == 1)) ∧
      ∀ (b : Nat) (source : Block) (block : Stream.Block), schedule.blocks[b]? = some source →
        stream.blocks[b]? = some block → source.kind = .branch →
          ∃ front i c t f, block.code stream = front ++ [i] ∧ (∀ j ∈ front, ¬j.IsTerminator) ∧
            g.valueIn (source.control.getD (-1)) 0 = .ok c ∧ i.Branches t f ∧
            (t ∈ source.succ ∧ schedule.Enters g t (source.control.getD (-1)) .ifTrue) ∧
            (f ∈ source.succ ∧ schedule.Enters g f (source.control.getD (-1)) .ifFalse) ∧
            ((i.op = .vcmp ∧ g.AsksDoubles c) ∨
              ∀ val ρ, g.Consistent val → Agrees g s.vregs stream val ρ →
                i.target? ρ = some (if val c ≠ 0 then (t : Int) else f)) := by
  obtain ⟨s, hWalk, hLaid⟩ := select_laidOut hSelect
  refine ⟨s, hWalk, hLaid.assigns, ?_, ?_⟩
  · intro id hFlag
    refine hLaid.computes (fun hApart => hApart.flag hFlag) fun hDelivers => ?_
    refine (hDelivers.flag hFlag).imp_right ?_
    rintro ⟨hSet, hLast, hHolds⟩
    exact ⟨hSet, hLast, hLaid.reads hHolds⟩
  -- Where a block branches, its last instruction is the one that the rule of branches adds.
  · intro b source block hSource hBlock hKind
    obtain ⟨front, i, hCode, hPlain, hBranching⟩ := hLaid.ends b source block hSource hBlock
    obtain ⟨j, c, t, f, hOne, hTargets, hc, hChooses⟩ := hBranching hKind
    cases List.singleton_inj.mp hOne
    obtain ⟨hTrue, hFalse⟩ := branchTargets_enters hTargets
    exact ⟨front, i, c, t, f, hCode, hPlain, hc, hChooses.branches, hTrue, hFalse,
      hChooses.target.imp_right hLaid.reads⟩

/-- A branch on an overflow that is compared with zero, and a comparison with a constant on the left
that is compared with zero twice. -/
def refusals : Graph where
  nodes := #[{ op := .start }, .parameter 0 .int32, .int32 100,
    .ofArity (.int32 .addWithOverflow) [1, 2], .projection 1 3, .int32 0,
    .ofArity (.word32 .equal) [4, 5], .ofArity .branch [6, 0], .ofArity .ifTrue [7],
    .ofArity .ifFalse [7], .ofArity (.int32 .lessThan) [2, 1], .ofArity (.word32 .equal) [10, 5],
    .ofArity (.word32 .equal) [11, 5], .ofArity .ret [12, 0, 8], .ofArity .ret [2, 0, 9],
    .collect [13, 14]]
  exit := some 15

/-- The words of the nodes for the greatest argument. -/
def refusalsWords (id : NodeId) : BitVec 32 :=
  [0, 0x7fffffff, 100, 0x80000063, 1, 0, 0, 0, 0, 0, 1, 0, 1].getD id.toNat 0

/-- The registers that hold these words. -/
def refusalsRegisters (r : Int) : BitVec 32 :=
  [0x7fffffff, 100, 1, 0x80000063].getD r.toNat 0

/-- A reading of a stream selected for these words. -/
def refusalsReading (stream : Stream) : Reading where
  registers := refusalsRegisters
  stream := stream
  carry := false
  overflow := false

theorem select_decides_refusals : ∃ schedule s stream block,
    Schedule.compute refusals = .ok schedule ∧ select refusals schedule ⟨0⟩ = .ok stream ∧
      walk refusals schedule ⟨0⟩ = .ok s ∧ refusals.Consistent refusalsWords ∧
      Agrees refusals s.vregs stream refusalsWords (refusalsReading stream) ∧
      (∃ (r : Nat) (i : Instr), (12, r) ∈ s.vregs ∧ i ∈ stream.code ∧ (r : Int) ∈ i.writes ∧
        i.flags = .set ∧ i.holds? (refusalsReading stream) = some true) ∧
      stream.blocks[0]? = some block ∧ ∃ front i t f, block.code stream = front ++ [i] ∧
        i.Branches t f ∧ schedule.Enters refusals f 7 .ifFalse ∧
        i.target? (refusalsReading stream) = some (f : Int) := by
  have hRun : ((Schedule.compute refusals).toOption.bind fun schedule =>
      (select refusals schedule ⟨0⟩).toOption.bind fun stream =>
        (walk refusals schedule ⟨0⟩).toOption.map fun s => decide
          (schedule.blocks[0]?.map (fun b => (b.kind, b.control)) = some (.branch, some 7) ∧
            stream.blocks.length = 3 ∧ stream.code.map Instr.op = [.nop, .cmp, .add, .ret, .ret] ∧
            stream.constants = [(1, .ofInt32 100)] ∧ s.vregs = [(3, 3), (12, 2), (1, 0)] ∧
            s.defined = [1, 12, 3])) = some true := by
    decide +kernel
  obtain ⟨schedule, hSchedule, hRun⟩ := Option.bind_eq_some_iff.mp hRun
  obtain ⟨stream, hStream, hRun⟩ := Option.bind_eq_some_iff.mp hRun
  obtain ⟨s, hState, hRun⟩ := Option.map_eq_some_iff.mp hRun
  obtain ⟨hSource, hBlocks, hOps, hConstants, hRegs, hDefined⟩ := of_decide_eq_true hRun
  obtain ⟨source, hFirst, hEnd⟩ := Option.map_eq_some_iff.mp hSource
  obtain ⟨hKind, hControl⟩ := Prod.mk.inj hEnd
  have hBlock : stream.blocks[0]? = some stream.blocks[0] := List.getElem?_eq_getElem _
  have hSelect := toOption_eq_some.mp hStream
  have hVal : refusals.Consistent refusalsWords := .of_nodes (by decide +kernel) (by decide +kernel)
  have hRegisters : ∀ p ∈ [((3 : NodeId), 3), (12, 2), (1, 0)],
      refusalsRegisters ((p.2 : Nat) : Int) = refusalsWords p.1 := by
    decide
  have hHundred : ∀ p ∈ refusals.nodes.toList.zipIdx, ∀ e ∈ [((1 : Int), Constant.ofInt32 100)],
      ∀ c ∈ constantOf? p.1, e.2 = c ∨ e.2.sameEntry c = true →
        refusalsRegisters e.1 = refusalsWords p.2 := by
    decide +kernel
  have hAgrees : Agrees refusals s.vregs stream refusalsWords (refusalsReading stream) :=
    .of_tables (hRegs ▸ hRegisters) (hConstants ▸ hHundred) List.prefix_rfl
  -- None of the instructions compares doubles.
  have hWords : ∀ i ∈ stream.code, i.op ≠ .vcmp := by
    intro i hi hVcmp
    have hMem : Opcode.vcmp ∈ stream.code.map Instr.op := hVcmp ▸ List.mem_map_of_mem hi
    rw [hOps] at hMem
    revert hMem
    decide
  obtain ⟨s', hWalk, -, hFlags, hBranches⟩ := select_decides hSelect
  cases (toOption_eq_some.mp hState).symm.trans hWalk
  have hComputes := hFlags 12 ⟨_, rfl, .inl rfl⟩
  obtain ⟨r, i, hMem, hi, hr⟩ := hComputes.written (by simp [hDefined])
  obtain ⟨front, j, c, t, f, hCode, -, hc, hLabels, -, ⟨-, hEnters⟩, hTarget⟩ :=
    hBranches 0 source _ hFirst hBlock hKind
  rw [hControl] at hc hEnters
  cases hc
  refine ⟨schedule, s, stream, _, toOption_eq_some.mp hSchedule, hSelect, hWalk, hVal, hAgrees,
    ⟨r, i, hMem, hi, hr, ?_⟩, hBlock, front, j, t, f, hCode, hLabels, hEnters, ?_⟩
  · rcases hComputes.each hMem hi hr with ⟨hVcmp, -⟩ | ⟨hSet, -, hHolds⟩
    · exact absurd hVcmp (hWords i hi)
    · exact ⟨hSet, hHolds refusalsWords _ hVal hAgrees⟩
  · rcases hTarget with ⟨hVcmp, -⟩ | hTarget
    · refine absurd hVcmp (hWords j ?_)
      have hj : j ∈ (stream.blocks[0]).code stream := by simp [hCode]
      exact List.mem_of_mem_take (List.mem_of_mem_drop hj)
    · exact hTarget refusalsWords _ hVal hAgrees

end ArmBackend
