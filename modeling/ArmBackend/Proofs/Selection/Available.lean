import ArmBackend.Proofs.Selection.Once

/-!
# Values are there where they are read

The walk goes from the end of the code to its start, so whatever reads a value has marked it by the
time the walk comes to its place. There it is computed, or passed on from another node that is then
marked as well, unless an entry further down in the code fused it. A fused operation is computed at
the end of its block, and no instruction of that block reads it.

## Results

* `Run.used_before` — a node that is used at all is marked when the walk comes to it.
* `Run.available` — the carrier of a node that is used is computed in front of its readers.
* `Run.reads_available`, `Run.joins_available` — what instructions and joins read is there.
-/

namespace ArmBackend.Selection

variable {site : Site} {E : List Entry} {s : State} {e e' : Entry} {b i a j : Nat}
  {u w x y p : NodeId} {op : Operator}

/-- A mark that neither an entry nor those in front of it in the code have set is older. -/
theorem Trace.used_of_not_sees {A B : List Entry} (h : Trace site (A ++ e :: B) s)
    (hu : u ∈ s.used) (hNot : ∀ e' ∈ A ++ [e], ¬e'.Sees site u) : u ∈ e.before.used := by
  induction A generalizing s with
  | nil =>
    cases h with
    | cons _ hValid => exact (hValid.used hu).resolve_right (hNot e List.mem_cons_self)
  | cons e' A ih =>
    cases h with
    | cons hTrace hValid hUsed =>
      refine ih hTrace ?_ fun e'' he'' => hNot e'' (List.mem_cons_of_mem _ he'')
      rw [← hUsed]
      exact (hValid.used hu).resolve_right (hNot e' List.mem_cons_self)

namespace Run

/-- What an entry reads stands in front of it. -/
theorem sees_precedes (R : Run site E s) (he : e ∈ E) (hSees : e.Sees site u)
    (hu : site.schedule.At a j u) : Precedes a j e.block e.index := by
  obtain ⟨w, hLooks, hFeeds⟩ := hSees
  have ⟨n, hn, hMem⟩ := hFeeds
  rcases hLooks with ⟨hVisited, hPhi, rfl⟩ | ⟨hEmits, hVisible⟩
  · -- An input of a join stands in a block that dominates a predecessor.
    have hOp : n.op = .phi := by
      obtain ⟨m, hm, hOp⟩ := hPhi
      cases hn.symm.trans hm
      exact hOp
    obtain ⟨k, hk⟩ := List.mem_iff_getElem?.mp hMem
    obtain ⟨p, hp, a', j', hLists, hDominates⟩ :=
      R.valid.joins hVisited.lists hn hOp k u hk
    obtain ⟨rfl, rfl⟩ := R.valid.unique hu hLists.at
    have hLt := (R.valid.forward e.block).2 p (List.mem_of_getElem? hp)
    have hLe := hDominates.le R.valid.forward
    exact .inl (Nat.lt_of_le_of_lt hLe hLt)
  · obtain ⟨hReach, hPhi⟩ := R.visible_inReach he hEmits hVisible ⟨n.op, n, hn, rfl⟩
    obtain ⟨b, i, hAt⟩ := hReach.placed
    have hUnder := hReach.under R.valid (R.valid.feeds_under hAt hPhi hFeeds)
    exact R.valid.precedes hUnder hu hReach.here

/-- A node that is used at all is marked when the walk comes to it. -/
theorem used_before (R : Run site E s) (he : e ∈ E) (hu : e.node ∈ s.used)
    (hAt : site.schedule.At e.block e.index e.node) : e.node ∈ e.before.used := by
  obtain ⟨A, B, hE⟩ := List.append_of_mem he
  have hTrace := R.trace
  rw [hE] at hTrace
  refine hTrace.used_of_not_sees hu ?_
  -- an entry that sees the node precedes it, so it was covered after it and lies in `A`
  intro e' he' hSees
  have hMem : e' ∈ E := by
    rw [hE]
    rcases List.mem_append.mp he' with hA | hLast
    · exact List.mem_append_left _ hA
    · rw [List.mem_singleton.mp hLast]
      exact List.mem_append_right _ List.mem_cons_self
  have hBefore := R.sees_precedes hMem hSees hAt
  unfold Precedes at hBefore
  rcases List.mem_append.mp he' with hA | hLast
  · have hSorted := R.walked.sorted
    rw [hE] at hSorted
    have hOrder := (List.pairwise_append.mp hSorted).2.2 e' hA e List.mem_cons_self
    unfold Precedes at hOrder
    omega
  · rw [List.mem_singleton.mp hLast] at hBefore
    omega

/-- A node that is used and computed further down in the code than its place is fused there. -/
theorem fused_of_later (R : Run site E s) (he : e ∈ E) (hu : u ∈ s.used)
    (hAt : site.schedule.At b i u) (hOrder : Precedes b i e.block e.index)
    (hDefs : u ∈ e.step.defs) : e.step.fused = some u := by
  rcases List.mem_append.mp hDefs with hExtra | hOwn
  · rcases (R.extra_kinds he hExtra).2 with ⟨hFused, -⟩ | ⟨hTaken, -⟩
    · exact hFused
    · exact absurd hu (R.not_used he hTaken)
  · obtain ⟨hVisited, hKind⟩ := R.own_kinds he hOwn
    have hHere := hVisited.lists.at
    rcases hKind with ⟨rfl, -⟩ | ⟨⟨n, hn, hProjection, -, hInput⟩, -⟩
    · obtain ⟨hBlock, hIndex⟩ := R.valid.unique hAt hHere
      unfold Precedes at hOrder
      omega
    · -- A flag stands behind its operation.
      have hFeeds := Graph.feeds_of_verify R.given.verify hn (by rw [hProjection]; rfl) hInput
      have hPhi : ¬site.graph.HasOp u .phi := by
        intro hPhi
        cases hPhi.unique ⟨n, hn, hProjection⟩
      have hBack := R.valid.precedes (R.valid.feeds_under hAt hPhi hFeeds) hHere hAt
      unfold Precedes at hOrder hBack
      omega

/-- What may have happened at the place of a node that is used. -/
theorem visited_or_fused (R : Run site E s) (hu : u ∈ s.used) (hAt : site.schedule.Lists b i u) :
    ∃ e ∈ E, e.block = b ∧ e.index = i ∧ e.node = u ∧
      (CoversNode (site.at b u) u e.step e.before e.after ∨
        (site.graph.HasOp u .phi ∧ e.step = { own := [u] }) ∨
        ∃ e' ∈ E, e'.step.fused = some u) := by
  obtain ⟨e, he, rfl, rfl, rfl⟩ := R.entry hAt.at
  refine ⟨e, he, rfl, rfl, rfl, ?_⟩
  have hMarked := R.used_before he hu hAt.at
  cases R.trace.valid he with
  | node _ _ hCovers => exact .inl hCovers
  | phi _ hOp _ _ hStep => exact .inr (.inl ⟨hOp, hStep⟩)
  | finish block hBlock hIndex =>
    obtain ⟨block', hBlock', hNode⟩ := hAt
    rw [hBlock] at hBlock'
    cases hBlock'
    have hLt := (List.getElem?_eq_some_iff.mp hNode).1
    omega
  | skip _ _ _ _ _ _ hIdle =>
    refine .inr (.inr ?_)
    rcases hIdle with ⟨op, -, -, hNot⟩ | hDefined
    · exact absurd hMarked hNot
    · -- It was computed further down in the code, where nothing but a fusion can do so.
      obtain ⟨A, B, t, hE, hTrace, -, hSame, -⟩ := R.trace.upTo he
      rw [hSame, hTrace.defined] at hDefined
      obtain ⟨e', hB, hDefs⟩ := hDefined
      have he' : e' ∈ E := by
        rw [hE]
        exact List.mem_append_right _ (List.mem_cons_of_mem _ hB)
      have hSorted := R.walked.sorted
      rw [hE] at hSorted
      have hOrder := (List.pairwise_cons.mp (List.pairwise_append.mp hSorted).2.1).1 e' hB
      exact ⟨e', he', R.fused_of_later he' hu hAt.at hOrder hDefs⟩

/-! ## Where values are computed -/

/-- The end of a region and the value of an operation with overflow are not computed themselves. -/
theorem not_defs (R : Run site E s) (he : e ∈ E) (hx : x ∈ e.step.defs)
    (hOp : site.graph.HasOp x .finish ∨ ∃ y, site.graph.Projects x 0 y) : False := by
  have hAlias : ∀ op, site.graph.HasOp x op → op = .finish ∨ op = .projection := by
    intro op hIs
    rcases hOp with hFinish | ⟨y, n, hn, hProjection, -⟩
    · exact .inl (hIs.unique hFinish)
    · exact .inr (hIs.unique ⟨n, hn, hProjection⟩)
  -- no rule defines an alias: neither as an extra result, nor as its own
  rcases List.mem_append.mp hx with hExtra | hOwn
  · rcases (R.extra_kinds he hExtra).2 with ⟨-, -, -, op, hIs, hOverflow⟩ | ⟨-, op, -, hIs⟩
    · rcases hAlias op hIs with rfl | rfl <;> cases hOverflow
    · rcases hAlias _ hIs with hEq | hEq <;> cases hEq
  · rcases (R.own_kinds he hOwn).2 with ⟨rfl, hNot⟩ | ⟨hFlag, -⟩
    · rcases hOp with hFinish | ⟨y, n, hn, hProjection, -⟩
      · exact (hNot _ hFinish).2 rfl
      · exact (hNot _ ⟨n, hn, hProjection⟩).1 rfl
    · rcases hOp with hFinish | ⟨y, hValue⟩
      · obtain ⟨n, hn, hProjection, -⟩ := hFlag
        cases hFinish.unique ⟨n, hn, hProjection⟩
      · cases hFlag.int_unique hValue

/-- Where the value of a node that is used comes from: the node is a constant, is computed at its
place or fused, or it passes on the value of another node that is used. -/
theorem value_kinds (R : Run site E s) (hu : u ∈ s.used) (hAt : site.schedule.Lists b i u)
    (hOp : site.graph.HasOp u op) (hValue : op.hasValue = true) : op.isConstant = true ∨
      (∃ e ∈ E, e.block = b ∧ e.index = i ∧ u ∈ e.step.defs) ∨
      (∃ e ∈ E, e.step.fused = some u) ∨
      ∃ n y, site.graph.node? u = some n ∧ n.input 0 = .ok y ∧ y ∈ s.used ∧
        (op = .finish ∨ op = .projection ∧ ∃ op, site.graph.HasOp y op ∧ op.hasOverflow = true) := by
  obtain ⟨e, he, hBlock, hIndex, rfl, hCovers | ⟨-, hStep⟩ | hFused⟩ := R.visited_or_fused hu hAt
  · rcases hCovers.value op hOp hValue with hConstant | hOwn | ⟨n, y, hn, hInput, hUsed, hKind⟩
    · exact .inl hConstant
    · exact .inr (.inl ⟨e, he, hBlock, hIndex, List.mem_append_right _ hOwn⟩)
    · exact .inr (.inr (.inr ⟨n, y, hn, hInput, R.trace.used_mono he hUsed, hKind⟩))
  · refine .inr (.inl ⟨e, he, hBlock, hIndex, ?_⟩)
    rw [hStep]
    exact List.mem_singleton_self _
  · exact .inr (.inr (.inl hFused))

/-- Whether the value of node `x` is there for the users of `u`, which stands at place `i` of block
`b`: it is computed at that place or below it, or at the end of a block where nothing but
projections looks at `u`. -/
def Provides (site : Site) (E : List Entry) (u x : NodeId) (b i : Nat) : Prop :=
  ∃ e ∈ E, x ∈ e.step.defs ∧
    ((e.block = b ∧ e.index = i) ∨ site.schedule.Below e.block e.index b i ∨
      (site.schedule.Dominates e.block b ∧ ∀ {w b' i'}, site.schedule.At b' i' w →
        site.graph.Feeds w u → b' = e.block → site.graph.HasOp w .projection))

/-- An operation with overflow that is used is computed at its place, together with its flag, or
fused at the end of its block. -/
theorem overflow_kinds (R : Run site E s) (hx : x ∈ s.used) (hAt : site.schedule.Lists a j x)
    (hOp : site.graph.HasOp x op) (hOverflow : op.hasOverflow = true) :
    (∃ e ∈ E, e.block = a ∧ e.index = j ∧ x ∈ e.step.defs ∧ ∀ p, site.graph.Projects p 1 x →
      (site.schedule.blockOf p).isSome → p ∈ e.step.defs) ∨
    ∃ e ∈ E, e.block = a ∧ x ∈ e.step.defs ∧
      ∃ p ∈ e.step.taken, Fuses (site.at e.block e.node) p x := by
  obtain ⟨o, rfl⟩ := hasOverflow_int32 hOverflow
  obtain ⟨e, he, hBlock, hIndex, rfl, hCovers | ⟨hPhi, -⟩ | ⟨e', he', hFused⟩⟩ :=
    R.visited_or_fused hx hAt
  · refine .inl ⟨e, he, hBlock, hIndex, ?_, ?_⟩
    · -- The operation covers itself, and its projections along with it.
      rcases hCovers.value _ hOp rfl with hConstant | hOwn | ⟨_, _, _, _, _, hKind⟩
      · cases hConstant
      · exact List.mem_append_right _ hOwn
      · rcases hKind with hFinish | ⟨hProjection, -⟩
        · cases hFinish
        · cases hProjection
    · intro p hp hPlaced
      exact List.mem_append_right _ (hCovers.flags _ hOp hOverflow p hp hPlaced)
  · cases hOp.unique hPhi
  · obtain ⟨hDefs, p, hp, hFuses⟩ := (R.trace.valid he').consumes.fused _ hFused
    refine .inr ⟨e', he', ?_, ?_, p, hp, hFuses⟩
    · -- It was taken in by a branch of its own block.
      have hHome : site.schedule.blockOf e.node = some e'.block := hFuses.block
      rw [R.valid.home hAt.at] at hHome
      exact (Option.some.inj hHome).symm
    · rw [Step.defs, hDefs]
      exact List.mem_append_left _ (List.mem_singleton_self _)

/-- The users of an operation with overflow are projections. -/
theorem projection_of_feeds (R : Run site E s) (hOp : site.graph.HasOp x op)
    (hOverflow : op.hasOverflow = true) (hFeeds : site.graph.Feeds w x) :
    site.graph.HasOp w .projection := by
  obtain ⟨n, hn, hMem⟩ := hFeeds
  obtain ⟨index, -, m, hm, hProjection, -⟩ :=
    (R.given.projected x op hOp hOverflow).1 w n hn (List.mem_of_mem_take hMem)
  exact ⟨m, hm, hProjection⟩

/-- The flag of an operation with overflow is computed with the operation. -/
theorem provides_flag (R : Run site E s) (hu : u ∈ s.used) (hAt : site.schedule.Lists b i u)
    (hFlag : site.graph.Projects u 1 y) (hy : y ∈ s.used) (hOp : site.graph.HasOp y op)
    (hOverflow : op.hasOverflow = true) : Provides site E u u b i := by
  have ⟨n, hn, hProjection, _, hInput⟩ := hFlag
  have hFeeds := Graph.feeds_of_verify R.given.verify hn (by rw [hProjection]; rfl) hInput
  have hPhi : ¬site.graph.HasOp u .phi := by
    intro hPhi
    cases hPhi.unique ⟨n, hn, hProjection⟩
  obtain ⟨a, j, hyAt, hBelow⟩ := R.valid.inputs hAt.at hPhi hFeeds
  rcases R.overflow_kinds hy hyAt hOp hOverflow with ⟨e, he, rfl, rfl, -, hFlags⟩ |
    ⟨e, he, -, -, p, hp, hFuses⟩
  · refine ⟨e, he, hFlags u hFlag ?_, .inr (.inl hBelow)⟩
    rw [R.valid.home hAt.at]
    rfl
  · -- An operation is fused on account of its flag, which is then taken.
    have hSame := (R.given.projected y op hOp hOverflow).2 1 p u hFuses.flag hFlag
    rw [hSame] at hp
    exact absurd hu (R.not_used he hp)

/-- The value of an operation with overflow is there for the users of its projection. -/
theorem provides_projection (R : Run site E s) (hAt : site.schedule.Lists b i u)
    (hValue : site.graph.Projects u 0 x) (hx : x ∈ s.used) (hOp : site.graph.HasOp x op)
    (hOverflow : op.hasOverflow = true) : Provides site E u x b i := by
  have ⟨n, hn, hProjection, _, hInput⟩ := hValue
  have hFeeds := Graph.feeds_of_verify R.given.verify hn (by rw [hProjection]; rfl) hInput
  have hPhi : ¬site.graph.HasOp u .phi := by
    intro hPhi
    cases hPhi.unique ⟨n, hn, hProjection⟩
  obtain ⟨a, j, hxAt, hBelow⟩ := R.valid.inputs hAt.at hPhi hFeeds
  rcases R.overflow_kinds hx hxAt hOp hOverflow with ⟨e, he, rfl, rfl, hDefs, -⟩ |
    ⟨e, he, rfl, hDefs, p, hp, hFuses⟩
  · exact ⟨e, he, hDefs, .inr (.inl hBelow)⟩
  · refine ⟨e, he, hDefs, .inr (.inr ⟨hBelow.1, ?_⟩)⟩
    rintro w b' i' hw ⟨m, hm, hMem⟩ rfl
    exact absurd (R.valid.home hw) (hFuses.elsewhere hValue hm (List.mem_of_mem_take hMem))

/-- What is there for the users of an input of the end of a region is there for those of the end. -/
theorem provides_finish (R : Run site E s) (hAt : site.schedule.Lists b i u)
    (hOp : site.graph.HasOp u .finish) (hFeeds : site.graph.Feeds u y)
    (hyAt : site.schedule.Lists a j y) (h : Provides site E y x a j) : Provides site E u x b i := by
  have hPhi : ¬site.graph.HasOp u .phi := by
    intro hPhi
    cases hPhi.unique hOp
  have hUnder := R.valid.feeds_under hAt.at hPhi hFeeds
  have hBelow := R.valid.below_of_under hUnder hyAt.at hAt.at
  obtain ⟨e, he, hDefs, hHere | hDown | ⟨hDominates, hUsers⟩⟩ := h
  · refine ⟨e, he, hDefs, .inr (.inl ?_)⟩
    rw [hHere.1, hHere.2]
    exact hBelow
  · refine ⟨e, he, hDefs, .inr (.inl (R.valid.below_trans hDown hBelow))⟩
  · refine ⟨e, he, hDefs, .inr (.inl ⟨hDominates.trans hBelow.1, ?_⟩)⟩
    intro hBlock
    cases (hUsers hAt.at hFeeds hBlock.symm).unique hOp

/-- The carrier of a node that is used is there for the users of the node. -/
theorem provides (R : Run site E s) (hCarries : site.graph.Carries u x) (hu : u ∈ s.used)
    (hAt : site.schedule.Lists b i u) (hValue : ∃ op, site.graph.HasOp u op ∧ op.hasValue = true)
    (hOp : site.graph.HasOp x op) (hConstant : op.isConstant = false) :
    Provides site E u x b i := by
  induction hCarries generalizing b i with
  | @own x n hn hFinish hAlias =>
    obtain ⟨op', hOp', hValue⟩ := hValue
    cases hOp.unique hOp'
    rcases R.value_kinds hu hAt hOp hValue with hIs | ⟨e, he, hBlock, hIndex, hDefs⟩ |
      ⟨e, he, hFused⟩ | ⟨m, y, hm, hInput, hUsed, hKind⟩
    · rw [hConstant] at hIs
      cases hIs
    · exact ⟨e, he, hDefs, .inl ⟨hBlock, hIndex⟩⟩
    · obtain ⟨hDefs, p, -, hFuses⟩ := (R.trace.valid he).consumes.fused _ hFused
      obtain ⟨op', hOp', hOverflow⟩ := hFuses.overflow
      have hHome : site.schedule.blockOf x = some e.block := hFuses.block
      rw [R.valid.home hAt.at] at hHome
      cases hHome
      refine ⟨e, he, ?_, .inr (.inr ⟨.refl _, ?_⟩)⟩
      · rw [Step.defs, hDefs]
        exact List.mem_append_left _ (List.mem_singleton_self _)
      · intro w _ _ _ hFeeds _
        exact R.projection_of_feeds hOp' hOverflow hFeeds
    · rw [hn] at hm
      cases hm
      have hEq : n.op = op := by
        obtain ⟨m, hm, hEq⟩ := hOp
        cases hn.symm.trans hm
        exact hEq
      rcases hKind with rfl | ⟨rfl, yOp, hyOp, hOverflow⟩
      · exact absurd hEq hFinish
      · -- A projection that carries its own value is the flag.
        have hIndex : n.int = 1 := by
          obtain ⟨index, hIndex, m, hm, -, hInt, -⟩ :=
            (R.given.projected y yOp hyOp hOverflow).1 x n hn (Node.mem_inputs hInput)
          cases hn.symm.trans hm
          rcases hIndex with rfl | rfl
          · rw [hAlias hEq hInt y yOp hInput hyOp] at hOverflow
            cases hOverflow
          · exact hInt
        exact R.provides_flag hu hAt ⟨n, hn, hEq, hIndex, hInput⟩ hUsed hyOp hOverflow
  | @finish u y x n hn hFinish hInput hRest ih =>
    have hIs : site.graph.HasOp u .finish := ⟨n, hn, hFinish⟩
    have hFeeds := Graph.feeds_of_verify R.given.verify hn (by rw [hFinish]; rfl) hInput
    have hPhi : ¬site.graph.HasOp u .phi := by
      intro hPhi
      cases hPhi.unique hIs
    obtain ⟨a, j, hyAt, -⟩ := R.valid.inputs hAt.at hPhi hFeeds
    rcases R.value_kinds hu hAt hIs rfl with hNot | ⟨e, he, -, -, hDefs⟩ | ⟨e, he, hFused⟩ |
      ⟨m, y', hm, hInput', hUsed, -⟩
    · cases hNot
    · exact (R.not_defs he hDefs (.inl hIs)).elim
    · obtain ⟨-, p, -, hFuses⟩ := (R.trace.valid he).consumes.fused _ hFused
      obtain ⟨op', hOp', hOverflow⟩ := hFuses.overflow
      cases hOp'.unique hIs
      cases hOverflow
    · cases hn.symm.trans hm
      cases hInput.symm.trans hInput'
      exact R.provides_finish hAt hIs hFeeds hyAt (ih hUsed hyAt (R.valued hAt.at hFeeds) hOp)
  | @projection u x n op' hn hProjection hInt hInput hxOp hOverflow =>
    have hIs : site.graph.HasOp u .projection := ⟨n, hn, hProjection⟩
    have hFirst : site.graph.Projects u 0 x := ⟨n, hn, hProjection, hInt, hInput⟩
    rcases R.value_kinds hu hAt hIs rfl with hNot | ⟨e, he, -, -, hDefs⟩ | ⟨e, he, hFused⟩ |
      ⟨m, y', hm, hInput', hUsed, -⟩
    · cases hNot
    · exact (R.not_defs he hDefs (.inr ⟨x, hFirst⟩)).elim
    · obtain ⟨-, p, -, hFuses⟩ := (R.trace.valid he).consumes.fused _ hFused
      obtain ⟨op', hOp', hOver⟩ := hFuses.overflow
      cases hOp'.unique hIs
      cases hOver
    · cases hn.symm.trans hm
      cases hInput.symm.trans hInput'
      exact R.provides_projection hAt hFirst hUsed hxOp hOverflow

/-! ## What is read -/

/-- The register of a node that is computed at an entry is written there. -/
theorem writes_of_defs (R : Run site E s) (he : e ∈ E) (hx : x ∈ e.step.defs) {v : Nat}
    (hv : (x, v) ∈ s.vregs) : (v : Int) ∈ e.writes :=
  R.trace.writes_of_defs he hx hv

/-- The register that holds the value of a node that is used stands for a constant, or is written
where the carrier is computed. -/
theorem holds_provides (R : Run site E s) (hu : u ∈ s.used) (hAt : site.schedule.Lists b i u)
    (hValue : ∃ op, site.graph.HasOp u op ∧ op.hasValue = true) {v : Nat}
    (hHolds : Holds site.graph s u v) :
    s.IsConstant v ∨ ∃ x, (x, v) ∈ s.vregs ∧ Provides site E u x b i := by
  obtain ⟨x, op, hCarries, hOp, hRegister⟩ := hHolds
  split at hRegister
  · exact .inl hRegister
  · next hConstant =>
    rw [Bool.not_eq_true] at hConstant
    exact .inr ⟨x, hRegister, R.provides hCarries hu hAt hValue hOp hConstant⟩

/-- The code of an entry reads no inputs of projections: these have no code. -/
theorem visible_not_projection (R : Run site E s) (he : e ∈ E) (hCode : e.code ≠ [])
    (hw : Visible (site.at e.block e.node) e.node e.step.taken e.step.fused w) :
    ¬site.graph.HasOp w .projection := by
  intro hOp
  -- A projection has no code, is folded into nothing, and is taken in by another rule.
  cases hw with
  | own =>
    cases R.trace.valid he with
    | skip _ _ _ _ hNone => exact hCode hNone
    | node _ _ hCovers hSegment =>
      rw [hSegment] at hCode
      exact hCode (hCovers.silent hOp)
    | phi _ _ _ _ _ hNone => exact hCode hNone
    | finish block hBlock _ hNode =>
      rw [hNode] at hOp
      cases hControl : block.control with
      | none =>
        rw [hControl] at hOp
        obtain ⟨n, hn, -⟩ := hOp
        exact absurd (Graph.node?_lt hn).1 (by decide)
      | some id =>
        rw [hControl] at hOp
        cases (R.valid.control_op hBlock hControl hOp).1
  | folded _ _ hHas hFolded =>
    cases hHas.unique hOp
    cases hFolded
  | taken _ hHas hProjection => exact hProjection (hHas.unique hOp)
  | fused hx =>
    obtain ⟨p, -, hFuses⟩ := R.fused_last he hx
    obtain ⟨op, hHas, hOverflow⟩ := hFuses.overflow
    cases hHas.unique hOp
    cases hOverflow

/-- A register that an instruction reads stands for a constant, is written by the same entry before,
or by an entry in front of it: in the same block or in one that strictly dominates it. -/
theorem reads_available (R : Run site E s) (he : e ∈ E) {front rest : List Instr} {instr : Instr}
    (hSplit : e.code = front ++ instr :: rest) {r : Int} (hr : r ∈ instr.reads) :
    s.IsConstant r ∨ r ∈ front.flatMap Instr.writes ∨ ∃ e' ∈ E, r ∈ e'.writes ∧
      (site.schedule.StrictlyDominates e'.block e.block ∨
        (e'.block = e.block ∧ e'.index < e.index)) := by
  rcases (R.trace.valid he).reads hSplit hr with
    ⟨hEmits, v, w, u, rfl, hVisible, hFeeds, hUsed, hHolds⟩ | hFront
  · have ⟨n, hn, _⟩ := hFeeds
    obtain ⟨hReach, hPhi⟩ := R.visible_inReach he hEmits hVisible ⟨n.op, n, hn, rfl⟩
    obtain ⟨b, i, hw⟩ := hReach.placed
    obtain ⟨a, j, hu, hBelow⟩ := R.valid.inputs hw hPhi hFeeds
    have hUnder := hReach.under R.valid (R.valid.feeds_under hw hPhi hFeeds)
    have hFromHere := R.valid.below_of_under hUnder hu.at hReach.here
    rcases R.holds_provides (R.trace.used_mono he hUsed) hu (R.valued hw hFeeds)
      (hHolds.mono (R.trace.grows he)) with hConstant | ⟨x, hx, e', he', hDefs, hPlace⟩
    · exact .inl hConstant
    · refine .inr (.inr ⟨e', he', R.writes_of_defs he' hDefs hx, ?_⟩)
      have hDone : site.schedule.Below e'.block e'.index e.block e.index →
          site.schedule.StrictlyDominates e'.block e.block ∨
            (e'.block = e.block ∧ e'.index < e.index) := by
        intro hDown
        by_cases hSame : e'.block = e.block
        · exact .inr ⟨hSame, hDown.2 hSame⟩
        · exact .inl ⟨hDown.1, hSame⟩
      rcases hPlace with ⟨hBlock, hIndex⟩ | hDown | ⟨hDominates, hUsers⟩
      · refine hDone ?_
        rw [hBlock, hIndex]
        exact hFromHere
      · exact hDone (R.valid.below_trans hDown hFromHere)
      · refine hDone ⟨hDominates.trans hFromHere.1, ?_⟩
        -- In the block itself only a projection would read it, and that has no code.
        intro hSame
        have hFirst := hDominates.le R.valid.forward
        have hSecond := R.valid.below_precedes hBelow
        have hThird : b ≤ e.block := by
          rcases hReach.node with rfl | hNode
          · exact Nat.le_of_eq (R.valid.unique hw hReach.here).1
          · have hOrder := R.valid.precedes hNode hw hReach.here
            unfold Precedes at hOrder
            omega
        have hBlock : b = e'.block := by
          unfold Precedes at hSecond
          omega
        refine absurd (hUsers hw hFeeds hBlock) (R.visible_not_projection he ?_ hVisible)
        rw [hSplit]
        simp
  · exact .inr (.inl hFront)

/-- What a join takes from a predecessor stands for a constant, or is written by an entry of a block
that dominates the predecessor. -/
theorem joins_available (R : Run site E s) (he : e ∈ E) {phi : Stream.Phi} (hPhi : phi ∈ e.phis)
    {k : Nat} {r : Int} (hr : phi.inputs[k]? = some r) :
    s.IsConstant r ∨ ∃ p, (site.schedule.predecessors e.block)[k]? = some p ∧
      ∃ e' ∈ E, r ∈ e'.writes ∧ site.schedule.Dominates e'.block p := by
  -- Only the visit of a phi adds one.
  rcases (R.trace.valid he).kinds with ⟨-, -, -, -, hPhis⟩ |
    ⟨phi', ⟨hVisited, hOp⟩, hCovers, -, -, hPhis⟩ | ⟨-, -, -, -, hPhis⟩
  · rw [hPhis] at hPhi
    cases hPhi
  · rw [hPhis] at hPhi
    cases List.mem_singleton.mp hPhi
    obtain ⟨n, hn, hInputs⟩ := hCovers.inputs
    have hIs : n.op = .phi := by
      obtain ⟨m, hm, hIs⟩ := hOp
      cases hn.symm.trans hm
      exact hIs
    obtain ⟨hLt, hGet⟩ := List.getElem?_eq_some_iff.mp hr
    have hk : k < n.values.length := by
      rw [hInputs.length_eq]
      exact hLt
    obtain ⟨v, hRegister, hHolds⟩ := hInputs.get hk hLt
    have hv : r = v := hGet.symm.trans hRegister
    have hFeeds : site.graph.Feeds e.node n.values[k] := ⟨n, hn, List.getElem_mem hk⟩
    obtain ⟨p, hp, a, j, hu, hDominates⟩ :=
      R.valid.joins hVisited.lists hn hIs k _ (List.getElem?_eq_getElem hk)
    have hUsed := R.trace.used_mono he (hCovers.used.mpr (.inr hFeeds))
    rcases R.holds_provides hUsed hu (R.valued hVisited.lists.at hFeeds)
      (hHolds.mono (R.trace.grows he)) with hConstant | ⟨x, hx, e', he', hDefs, hPlace⟩
    · rw [hv]
      exact .inl hConstant
    · rw [hv]
      refine .inr ⟨p, hp, e', he', R.writes_of_defs he' hDefs hx, ?_⟩
      -- What is written there dominates the predecessor, from its own block or from above.
      rcases hPlace with ⟨rfl, -⟩ | hDown | ⟨hAbove, -⟩
      · exact hDominates
      · exact hDown.1.trans hDominates
      · exact hAbove.trans hDominates
  · rw [hPhis] at hPhi
    cases hPhi

end Run
end ArmBackend.Selection
