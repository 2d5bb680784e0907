import ArmBackend.Proofs.Selection.Trace

/-!
# Nothing is computed twice

A node may be computed at its own place, at that of an operation whose flag it is, or at a place
that takes or fuses it. Over a valid schedule no two places of a walk compute the same node. The
key is that a node which is taken is never marked as used: its only user is the node that takes it,
and that one does not look at it.

## Results

* `Run.not_used` — what is taken is never marked.
* `Run.defs_unique` — no node is computed at two places.
-/

namespace ArmBackend.Selection

/-- A complete walk over a valid schedule, and the state it has come to. -/
structure Run (site : Site) (E : List Entry) (s : State) : Prop where
  given : Given site
  valid : site.schedule.Valid site.graph
  valued : site.schedule.Valued site.graph
  trace : Trace site E s
  walked : Walked site.schedule E 0 0

variable {site : Site} {E : List Entry} {s : State} {e e' : Entry} {b i : Nat}
  {c c' u w x : NodeId} {T T' : List NodeId}

/-! ## Chains of nodes that are taken -/

/-- A user of a node that is taken is the one that takes it. -/
theorem Takes.sole (hValid : site.schedule.Valid site.graph) (h : Takes site c u)
    (hc : ∃ b i, site.schedule.At b i c) (hw : ∃ b i, site.schedule.At b i w)
    (hFeeds : site.graph.Feeds w u) : c = w := by
  obtain ⟨⟨n, hn, hu⟩, hCovered⟩ := h
  obtain ⟨n', hn', hu'⟩ := hFeeds
  obtain ⟨b, i, hc⟩ := hc
  obtain ⟨b', i', hw⟩ := hw
  refine hCovered.sole hn (List.mem_of_mem_take hu) ?_ hn' (List.mem_of_mem_take hu') ?_
  · rw [hValid.home hc]
    rfl
  · rw [hValid.home hw]
    rfl

/-- What is taken in a chain stands under the first node, and in the order of the chain. -/
theorem chain_under (hValid : site.schedule.Valid site.graph)
    (hChain : (c :: T).IsChain (Takes site)) (hc : T ≠ [] → ∃ b i, site.schedule.At b i c)
    (hPhi : ∀ w ∈ c :: T, ¬site.graph.HasOp w .phi) :
    (c :: T).Pairwise fun w u => site.schedule.Under u w := by
  induction T generalizing c with
  | nil => exact List.pairwise_singleton _ _
  | cons v T ih =>
    obtain ⟨hTakes, hRest⟩ := List.isChain_cons_cons.mp hChain
    obtain ⟨b, i, hAt⟩ := hc (List.cons_ne_nil _ _)
    have hUnder := hValid.feeds_under hAt (hPhi c List.mem_cons_self) hTakes.1
    have ⟨a, j, _, _, hv, _⟩ := hUnder
    have hPairs := ih hRest (fun _ => ⟨a, j, hv⟩) fun w hw => hPhi w (List.mem_cons_of_mem _ hw)
    refine List.pairwise_cons.mpr ⟨?_, hPairs⟩
    intro w hw
    rcases List.mem_cons.mp hw with rfl | hw
    · exact hUnder
    · exact hValid.under_trans ((List.pairwise_cons.mp hPairs).1 w hw) hUnder

/-- Each node of a chain is taken by the one in front of it. -/
theorem exists_takes (hChain : (c :: T).IsChain (Takes site)) (hu : u ∈ T) :
    ∃ w ∈ c :: T.dropLast, Takes site w u := by
  induction T generalizing c with
  | nil => cases hu
  | cons v T ih =>
    obtain ⟨hTakes, hRest⟩ := List.isChain_cons_cons.mp hChain
    rcases List.mem_cons.mp hu with rfl | hu
    · exact ⟨c, List.mem_cons_self, hTakes⟩
    · obtain ⟨w, hw, hTaken⟩ := ih hRest hu
      refine ⟨w, List.mem_cons_of_mem _ ?_, hTaken⟩
      rw [List.dropLast_cons_of_ne_nil (List.ne_nil_of_mem hu)]
      exact hw

/-- Two chains that share a node that is taken run into one another: the first node of one of them
is in the other. -/
theorem chains_meet (hValid : site.schedule.Valid site.graph)
    (hChain : (c :: T).IsChain (Takes site)) (hChain' : (c' :: T').IsChain (Takes site))
    (hAt : ∀ w ∈ c :: T, ∃ b i, site.schedule.At b i w)
    (hAt' : ∀ w ∈ c' :: T', ∃ b i, site.schedule.At b i w) (hu : u ∈ T) (hu' : u ∈ T') :
    c ∈ T' ∨ c' ∈ c :: T := by
  induction T generalizing c with
  | nil => cases hu
  | cons v T ih =>
    obtain ⟨hTakes, hRest⟩ := List.isChain_cons_cons.mp hChain
    -- `v` is taken by one node only, so the two chains agree on who takes it
    have hFirst : v ∈ T' → c ∈ T' ∨ c' ∈ c :: v :: T := by
      intro hv
      obtain ⟨w, hw, hTakes'⟩ := exists_takes hChain' hv
      have hw' : w ∈ c' :: T' := by
        rcases List.mem_cons.mp hw with rfl | hw
        · exact List.mem_cons_self
        · exact List.mem_cons_of_mem _ (List.dropLast_subset _ hw)
      have hSame := hTakes.sole hValid (hAt c List.mem_cons_self) (hAt' w hw') hTakes'.1
      rw [← hSame] at hw'
      rcases List.mem_cons.mp hw' with rfl | hc
      · exact .inr List.mem_cons_self
      · exact .inl hc
    rcases List.mem_cons.mp hu with rfl | hu
    · exact hFirst hu'
    · -- the induction either meets at `v`, which `hFirst` steps back from, or ends on this chain
      rcases ih hRest (fun w hw => hAt w (List.mem_cons_of_mem _ hw)) hu with hv | hc'
      · exact hFirst hv
      · exact .inr (List.mem_cons_of_mem _ hc')

/-! ## Entries -/

theorem Entry.Valid.consumes (h : e.Valid site) :
    Consumes (site.at e.block e.node) e.node e.step.taken e.step.fused e.step.extra := by
  rcases h.kinds with ⟨-, -, hStep, -⟩ | ⟨phi, -, -, hStep, -⟩ | ⟨-, hDescribes, -⟩
  · rw [hStep]
    exact (Strips.done _).consumes
  · rw [hStep]
    exact (Strips.done _).consumes
  · exact hDescribes.consumes

/-- Where something is taken, the node is no join: it compares with zero or has no value. -/
theorem Entry.Valid.takes (hValid : site.schedule.Valid site.graph) (h : e.Valid site)
    (hTaken : e.step.taken ≠ []) : e.Active site ∧ ∃ op, site.graph.HasOp e.node op ∧
      op ≠ .phi ∧ (op = .word32 .equal ∨ op.hasValue = false) := by
  cases h with
  | skip _ _ _ hStep =>
    rw [hStep] at hTaken
    exact absurd rfl hTaken
  | node hVisited _ hCovers =>
    exact ⟨.inl hVisited, _, hCovers.taken hTaken, nofun, .inl rfl⟩
  | phi _ _ _ _ hStep =>
    rw [hStep] at hTaken
    exact absurd rfl hTaken
  | finish block hBlock hIndex hNode hCovers =>
    have hChain := hCovers.describes.consumes.chain
    -- the first link of the chain reads an input of the control node, so that node exists
    obtain ⟨v, T, hList⟩ := List.exists_cons_of_ne_nil hTaken
    rw [hList] at hChain
    obtain ⟨⟨n, hn, -⟩, -⟩ := (List.isChain_cons_cons.mp hChain).1
    have hn : site.graph.node? (block.control.getD (-1)) = some n := hn
    cases hControl : block.control with
    | none =>
      rw [hControl] at hn
      exact absurd (Graph.node?_lt hn).1 (by decide)
    | some id =>
      rw [hControl] at hn hNode
      have hOp : site.graph.HasOp id n.op := ⟨n, hn, rfl⟩
      obtain ⟨hNone, hPhi⟩ := hValid.control_op hBlock hControl hOp
      refine ⟨.inr ⟨block, hBlock, hIndex, by rw [hControl, hNode]⟩, n.op, ?_, hPhi, .inr hNone⟩
      rw [hNode]
      exact hOp

/-- The node of a place that is not skipped stands there. -/
theorem Entry.Active.at (h : e.Active site) (hOp : ∃ op, site.graph.HasOp e.node op) :
    site.schedule.At e.block e.index e.node := by
  rcases h with hVisited | ⟨block, hBlock, hIndex, hNode⟩
  · exact hVisited.lists.at
  · obtain ⟨op, n, hn, -⟩ := hOp
    cases hControl : block.control with
    | none =>
      rw [hNode, hControl] at hn
      exact absurd (Graph.node?_lt hn).1 (by decide)
    | some id =>
      have hId : e.node = id := by rw [hNode, hControl, Option.getD_some]
      rw [hIndex, hId]
      exact Schedule.at_control hBlock hControl

/-- Where a node stands that an entry looks at: at the place of the entry or under it, and not above
anything that it takes. -/
structure InReach (site : Site) (e : Entry) (w : NodeId) : Prop where
  here : site.schedule.At e.block e.index e.node
  node : w = e.node ∨ site.schedule.Under w e.node
  taken : ∀ u ∈ e.step.taken, w = u ∨ site.schedule.Under w u
  placed : ∃ b i, site.schedule.At b i w

theorem InReach.under (hValid : site.schedule.Valid site.graph) (h : InReach site e w)
    (hUnder : site.schedule.Under u w) : site.schedule.Under u e.node := by
  rcases h.node with rfl | hNode
  · exact hUnder
  · exact hValid.under_trans hUnder hNode

/-- What stands under a node in reach is in reach. -/
theorem InReach.step (hValid : site.schedule.Valid site.graph) (h : InReach site e w)
    (hUnder : site.schedule.Under u w) : InReach site e u where
  here := h.here
  node := .inr (h.under hValid hUnder)
  taken := by
    intro v hv
    rcases h.taken v hv with rfl | hTaken
    · exact .inr hUnder
    · exact .inr (hValid.under_trans hUnder hTaken)
  placed := by
    obtain ⟨a, j, -, -, hAt, -⟩ := hUnder
    exact ⟨a, j, hAt⟩

namespace Run

/-- Entries stand in the order of the code. -/
theorem split (R : Run site E s) {A B : List Entry} (hE : E = A ++ e :: B) (he' : e' ∈ E) :
    (e' ∈ A ∧ Precedes e'.block e'.index e.block e.index) ∨ e' = e ∨
      (e' ∈ B ∧ Precedes e.block e.index e'.block e'.index) := by
  have hSorted := R.walked.sorted
  rw [hE] at hSorted he'
  obtain ⟨-, hRest, hCross⟩ := List.pairwise_append.mp hSorted
  rcases List.mem_append.mp he' with hA | hB
  · exact .inl ⟨hA, hCross e' hA e List.mem_cons_self⟩
  · rcases List.mem_cons.mp hB with rfl | hB
    · exact .inr (.inl rfl)
    · exact .inr (.inr ⟨hB, (List.pairwise_cons.mp hRest).1 e' hB⟩)

/-- There is one entry for each place. -/
theorem same (R : Run site E s) (he : e ∈ E) (he' : e' ∈ E) (hBlock : e'.block = e.block)
    (hIndex : e'.index = e.index) : e' = e := by
  obtain ⟨A, B, hE⟩ := List.append_of_mem he
  rcases R.split hE he' with ⟨-, hBefore⟩ | hSame | ⟨-, hAfter⟩
  · unfold Precedes at hBefore
    omega
  · exact hSame
  · unfold Precedes at hAfter
    omega

/-- What was computed further down in the code is known at a place. -/
theorem defined (R : Run site E s) (he : e ∈ E) (he' : e' ∈ E)
    (hOrder : Precedes e.block e.index e'.block e'.index) (hx : x ∈ e'.step.defs) :
    x ∈ e.before.defined := by
  obtain ⟨A, B, t, hE, hTrace, -, hDefined, -⟩ := R.trace.upTo he
  rw [hDefined, hTrace.defined]
  rcases R.split hE he' with ⟨-, hBefore⟩ | rfl | ⟨hB, -⟩
  · unfold Precedes at *
    omega
  · unfold Precedes at hOrder
    omega
  · exact ⟨e', hB, hx⟩

/-- Every place has an entry for the node that stands there. -/
theorem entry (R : Run site E s) (hu : site.schedule.At b i u) :
    ∃ e ∈ E, e.block = b ∧ e.index = i ∧ e.node = u :=
  R.trace.entry R.walked hu

/-! ## What an entry takes and looks at -/

/-- What an entry takes stands under its node, in the order in which it is taken. -/
theorem taken_under (R : Run site E s) (he : e ∈ E) :
    (e.node :: e.step.taken).Pairwise fun w u => site.schedule.Under u w := by
  have hEntry := R.trace.valid he
  by_cases hTaken : e.step.taken = []
  · rw [hTaken]
    exact List.pairwise_singleton _ _
  · obtain ⟨hActive, op, hOp, hPhi, -⟩ := hEntry.takes R.valid hTaken
    refine chain_under R.valid hEntry.consumes.chain (fun _ => ⟨_, _, hActive.at ⟨op, hOp⟩⟩) ?_
    intro w hw hIs
    rcases List.mem_cons.mp hw with rfl | hw
    · exact hPhi (hOp.unique hIs)
    · obtain ⟨op', hOp', -, hPhi'⟩ := hEntry.consumes.taken w hw
      exact hPhi' (hOp'.unique hIs)

/-- The node of an entry that takes something, and what it takes, have places. -/
theorem taken_at (R : Run site E s) (he : e ∈ E) (hTaken : e.step.taken ≠ []) :
    ∀ w ∈ e.node :: e.step.taken, ∃ b i, site.schedule.At b i w := by
  obtain ⟨hActive, op, hOp, -⟩ := (R.trace.valid he).takes R.valid hTaken
  intro w hw
  rcases List.mem_cons.mp hw with rfl | hw
  · exact ⟨_, _, hActive.at ⟨op, hOp⟩⟩
  · obtain ⟨a, j, -, -, hAt, -⟩ := (List.pairwise_cons.mp (R.taken_under he)).1 w hw
    exact ⟨a, j, hAt⟩

/-- What is taken has one user, which the same entry takes or which is its node. It compares with
zero or has no value. -/
theorem above (R : Run site E s) (he : e ∈ E) (hu : u ∈ e.step.taken) :
    ∃ w ∈ e.node :: e.step.taken, Takes site w u ∧ site.schedule.Under u w ∧
      ∃ op, site.graph.HasOp w op ∧ (op = .word32 .equal ∨ op.hasValue = false) := by
  have hEntry := R.trace.valid he
  have hTaken := List.ne_nil_of_mem hu
  obtain ⟨w, hw, hTakes⟩ := exists_takes hEntry.consumes.chain hu
  obtain ⟨-, op, hOp, -, hKind⟩ := hEntry.takes R.valid hTaken
  have hUnder : ∀ {w op}, w ∈ e.node :: e.step.taken → site.graph.HasOp w op → op ≠ .phi →
      Takes site w u → site.schedule.Under u w := by
    intro w op hw hOp hPhi hTakes
    obtain ⟨b, i, hAt⟩ := R.taken_at he hTaken w hw
    exact R.valid.feeds_under hAt (fun hIs => hPhi (hOp.unique hIs)) hTakes.1
  -- the chain is headed by the entry's node; its inner links are comparisons with zero
  rcases List.mem_cons.mp hw with rfl | hw
  · have hPhi : op ≠ .phi := by
      rcases hKind with rfl | hNone
      · nofun
      · rintro rfl
        cases hNone
    exact ⟨_, List.mem_cons_self, hTakes, hUnder List.mem_cons_self hOp hPhi hTakes, op, hOp, hKind⟩
  · have hMem : w ∈ e.node :: e.step.taken :=
      List.mem_cons_of_mem _ (List.dropLast_subset _ hw)
    have hEqual := hEntry.consumes.inner w hw
    exact ⟨w, hMem, hTakes, hUnder hMem hEqual nofun hTakes, _, hEqual, .inl rfl⟩

/-- An entry with code has a node that is no join. -/
theorem not_phi (R : Run site E s) (h : e.Emits site) : ¬site.graph.HasOp e.node .phi := by
  rcases h with ⟨-, hPhi⟩ | ⟨block, hBlock, -, hNode⟩
  · exact hPhi
  · intro hOp
    cases hControl : block.control with
    | none =>
      rw [hNode, hControl] at hOp
      obtain ⟨n, hn, -⟩ := hOp
      exact absurd (Graph.node?_lt hn).1 (by decide)
    | some id =>
      rw [hNode, hControl] at hOp
      exact (R.valid.control_op hBlock hControl hOp).2 rfl

/-- The flag of an operation that is fused is taken last. -/
theorem fused_last (R : Run site E s) (he : e ∈ E) (hx : e.step.fused = some x) :
    ∃ p, e.step.taken.getLast? = some p ∧ Fuses (site.at e.block e.node) p x := by
  have hConsumes := (R.trace.valid he).consumes
  obtain ⟨-, p, hp, hFuses⟩ := hConsumes.fused x hx
  refine ⟨p, ?_, hFuses⟩
  obtain ⟨front, last, hList⟩ :=
    (List.eq_nil_or_concat' e.step.taken).resolve_left (List.ne_nil_of_mem hp)
  rw [hList] at hp ⊢
  rcases List.mem_append.mp hp with hInner | hLast
  · -- All others are comparisons, and a flag is a projection.
    have hEqual := hConsumes.inner p (by rw [hList, List.dropLast_concat]; exact hInner)
    obtain ⟨n, hn, hOp, -⟩ := hFuses.flag
    cases hEqual.unique ⟨n, hn, hOp⟩
  · rw [List.mem_singleton.mp hLast, List.getLast?_concat]

/-- What is taken last is in reach. -/
theorem last_inReach (R : Run site E s) (he : e ∈ E) (hw : e.step.taken.getLast? = some w) :
    InReach site e w := by
  have hPairs := R.taken_under he
  obtain ⟨front, hList⟩ := List.getLast?_eq_some_iff.mp hw
  have hMem : w ∈ front ++ [w] := List.mem_append_right _ (List.mem_singleton_self w)
  rw [hList] at hPairs
  -- each node of the chain is covered under all those before it
  obtain ⟨hFirst, hRest⟩ := List.pairwise_cons.mp hPairs
  have hTaken : e.step.taken ≠ [] := by
    rw [hList]
    exact List.ne_nil_of_mem hMem
  obtain ⟨hActive, op, hOp, -⟩ := (R.trace.valid he).takes R.valid hTaken
  refine ⟨hActive.at ⟨op, hOp⟩, .inr (hFirst w hMem), ?_, ?_⟩
  · rw [hList]
    intro u hu
    rcases List.mem_append.mp hu with hu | hu
    · exact .inr ((List.pairwise_append.mp hRest).2.2 u hu w (List.mem_singleton_self w))
    · exact .inl (List.mem_singleton.mp hu).symm
  · obtain ⟨a, j, -, -, hAt, -⟩ := hFirst w hMem
    exact ⟨a, j, hAt⟩

/-- What is fused is in reach: it is the input of the flag that is taken last. -/
theorem fused_inReach (R : Run site E s) (he : e ∈ E) (hx : e.step.fused = some x) :
    InReach site e x := by
  obtain ⟨p, hp, hFuses⟩ := R.fused_last he hx
  have hReach := R.last_inReach he hp
  obtain ⟨b, i, hAt⟩ := hReach.placed
  obtain ⟨n, hn, hProjection, -, hInput⟩ := hFuses.flag
  have hFeeds := Graph.feeds_of_verify R.given.verify hn (by rw [hProjection]; rfl) hInput
  refine hReach.step R.valid (R.valid.feeds_under hAt ?_ hFeeds)
  rintro ⟨m, hm, hPhi⟩
  cases hn.symm.trans hm
  cases hProjection.symm.trans hPhi

/-- The nodes whose inputs the code of an entry may read are in reach, and are no joins. -/
theorem visible_inReach (R : Run site E s) (he : e ∈ E) (hEmits : e.Emits site)
    (hw : Visible (site.at e.block e.node) e.node e.step.taken e.step.fused w)
    (hOp : ∃ op, site.graph.HasOp w op) : InReach site e w ∧ ¬site.graph.HasOp w .phi := by
  induction hw with
  | own hT =>
    have hActive : e.Active site := hEmits.imp And.left id
    refine ⟨⟨hActive.at hOp, .inl rfl, ?_, ⟨_, _, hActive.at hOp⟩⟩, R.not_phi hEmits⟩
    rw [hT]
    simp
  | @folded v u op hv hFeeds hHas hFolded ih =>
    have ⟨n, hn, _⟩ := hFeeds
    obtain ⟨hReach, hPhi⟩ := ih ⟨n.op, n, hn, rfl⟩
    -- a folded node stands under its user, and the user is within reach by induction
    obtain ⟨b, i, hAt⟩ := hReach.placed
    refine ⟨hReach.step R.valid (R.valid.feeds_under hAt hPhi hFeeds), ?_⟩
    intro hPhi'
    cases hHas.unique hPhi'
    cases hFolded
  | @taken w op hw hHas hProjection =>
    refine ⟨R.last_inReach he hw, ?_⟩
    intro hPhi
    obtain ⟨op', hOp', -, hNot⟩ :=
      (R.trace.valid he).consumes.taken w (List.mem_of_getLast? hw)
    exact hNot (hOp'.unique hPhi)
  | @fused x hx =>
    refine ⟨R.fused_inReach he hx, ?_⟩
    intro hPhi
    obtain ⟨p, -, hFuses⟩ := R.fused_last he hx
    obtain ⟨op, hOp, hOverflow⟩ := hFuses.overflow
    cases hOp.unique hPhi
    cases hOverflow

/-- What an entry looks at is in reach. -/
theorem looks_inReach (R : Run site E s) (he : e ∈ E) (hw : e.Looks site w)
    (hOp : ∃ op, site.graph.HasOp w op) : InReach site e w := by
  rcases hw with ⟨hVisited, hPhi, rfl⟩ | ⟨hEmits, hVisible⟩
  · refine ⟨hVisited.lists.at, .inl rfl, ?_, ⟨_, _, hVisited.lists.at⟩⟩
    intro u hu
    obtain ⟨-, op, hOp', hNot, -⟩ :=
      (R.trace.valid he).takes R.valid (List.ne_nil_of_mem hu)
    exact absurd (hOp'.unique hPhi) hNot
  · exact (R.visible_inReach he hEmits hVisible hOp).1

/-! ## What is taken is not used -/

/-- Entries for the same node are the same. -/
theorem same_node (R : Run site E s) (he : e ∈ E) (he' : e' ∈ E)
    (hAt : site.schedule.At e.block e.index e.node)
    (hAt' : site.schedule.At e'.block e'.index e'.node) (hNode : e'.node = e.node) : e' = e := by
  rw [hNode] at hAt'
  obtain ⟨hBlock, hIndex⟩ := R.valid.unique hAt' hAt
  exact R.same he he' hBlock hIndex

/-- A node that is taken is visited only if it is marked. -/
theorem used_of_taken (R : Run site E s) (he : e ∈ E) (he' : e' ∈ E) (hActive : e'.Active site)
    (hTaken : e'.node ∈ e.step.taken) : e'.node ∈ s.used := by
  obtain ⟨op, hOp, hPure, -⟩ := (R.trace.valid he).consumes.taken _ hTaken
  rcases hActive with hVisited | ⟨block, hBlock, -, hNode⟩
  · rcases hVisited.needed with ⟨op', hOp', hImpure⟩ | hUsed
    · rw [hOp.unique hOp', hImpure] at hPure
      cases hPure
    · exact R.trace.used_mono he' ((R.trace.valid he').used_mono hUsed)
  · -- The end of a block has no value, so nothing takes it.
    obtain ⟨w, hw, hTakes, -⟩ := R.above he hTaken
    obtain ⟨b, i, hAt⟩ := R.taken_at he (List.ne_nil_of_mem hTaken) w hw
    obtain ⟨op', hOp', hValue⟩ := R.valued hAt hTakes.1
    cases hControl : block.control with
    | none =>
      rw [hNode, hControl] at hOp
      obtain ⟨n, hn, -⟩ := hOp
      exact absurd (Graph.node?_lt hn).1 (by decide)
    | some id =>
      rw [hNode, hControl] at hOp'
      rw [(R.valid.control_op hBlock hControl hOp').1] at hValue
      cases hValue

/-- Of two entries that take the same node one is taken by the other, and visited nevertheless. -/
theorem taken_twice (R : Run site E s) (he : e ∈ E) (he' : e' ∈ E) (hx : x ∈ e.step.taken)
    (hx' : x ∈ e'.step.taken) : e' = e ∨ (e.node ∈ e'.step.taken ∧ e.node ∈ s.used) ∨
      (e'.node ∈ e.step.taken ∧ e'.node ∈ s.used) := by
  have hTaken := List.ne_nil_of_mem hx
  have hTaken' := List.ne_nil_of_mem hx'
  have hEntry := R.trace.valid he
  have hEntry' := R.trace.valid he'
  obtain ⟨hActive, op, hOp, -⟩ := hEntry.takes R.valid hTaken
  obtain ⟨hActive', op', hOp', -⟩ := hEntry'.takes R.valid hTaken'
  rcases chains_meet R.valid hEntry.consumes.chain hEntry'.consumes.chain (R.taken_at he hTaken)
    (R.taken_at he' hTaken') hx hx' with hFirst | hSecond
  · exact .inr (.inl ⟨hFirst, R.used_of_taken he' he hActive hFirst⟩)
  · rcases List.mem_cons.mp hSecond with hEq | hSecond
    · exact .inl (R.same_node he he' (hActive.at ⟨op, hOp⟩) (hActive'.at ⟨op', hOp'⟩) hEq)
    · exact .inr (.inr ⟨hSecond, R.used_of_taken he he' hActive' hSecond⟩)

/-- What is taken is not marked, if this holds of all that stands above it: whoever else looks at it
is its one user, and then that user is taken as well as visited or taken twice. -/
theorem not_used_of_above (R : Run site E s) (he : e ∈ E) (hu : u ∈ e.step.taken)
    (ih : ∀ w, site.schedule.Under u w → ∀ e ∈ E, w ∈ e.step.taken → w ∉ s.used) :
    u ∉ s.used := by
  intro hUsed
  obtain ⟨e', he', w, hLooks, hFeeds⟩ := R.trace.used hUsed
  have hTaken := List.ne_nil_of_mem hu
  have ⟨n, hn, _⟩ := hFeeds
  have hReach := R.looks_inReach he' hLooks ⟨n.op, n, hn, rfl⟩
  obtain ⟨z, hz, hTakes, hUnder, op, hOp, hKind⟩ := R.above he hu
  have hSame := hTakes.sole R.valid (R.taken_at he hTaken z hz) hReach.placed hFeeds
  rw [hSame] at hz hTakes hUnder hOp
  have hActive := ((R.trace.valid he).takes R.valid hTaken).1
  have hHere := R.taken_at he hTaken _ List.mem_cons_self
  by_cases hOther : e' = e
  · -- An entry does not look above what it takes.
    rw [hOther] at hReach
    rcases hReach.taken u hu with rfl | hBack
    · exact R.valid.under_irrefl hUnder
    · exact R.valid.under_irrefl (R.valid.under_trans hBack hUnder)
  -- The user is the node of the other entry.
  have hOwn : e'.Active site → w = e'.node → False := by
    rintro hActive' rfl
    rcases List.mem_cons.mp hz with hEq | hz
    · have hAt' := hActive'.at ⟨op, hOp⟩
      rw [hEq] at hOp
      exact hOther (R.same_node he he' (hActive.at ⟨op, hOp⟩) hAt' hEq)
    · exact ih _ hUnder e he hz (R.used_of_taken he he' hActive' hz)
  rcases hLooks with ⟨hVisited, -, hw⟩ | ⟨hEmits, hVisible⟩
  · exact hOwn (.inl hVisited) hw
  · have hActive' : e'.Active site := hEmits.imp And.left id
    cases hVisible with
    | own => exact hOwn hActive' rfl
    | @folded v _ op' hv hFeeds' hOp' hFolded =>
      have ⟨m, hm, _⟩ := hFeeds'
      obtain ⟨b, i, hAt'⟩ :=
        (R.looks_inReach he' (.inr ⟨hEmits, hv⟩) ⟨m.op, m, hm, rfl⟩).placed
      obtain ⟨op'', hOp'', hValue⟩ := R.valued hAt' hFeeds'
      cases hOp.unique hOp''
      cases hOp.unique hOp'
      rcases hKind with rfl | hNone
      · cases hFolded
      · rw [hNone] at hValue
        cases hValue
    | @taken _ op' hw _ _ =>
      have hMem := List.mem_of_getLast? hw
      rcases List.mem_cons.mp hz with rfl | hz
      · exact ih _ hUnder e' he' hMem (R.used_of_taken he' he hActive hMem)
      · have hUp : ∀ {e}, e ∈ E → w ∈ e.step.taken → site.schedule.Under u e.node :=
          fun he hw => R.valid.under_trans hUnder ((List.pairwise_cons.mp (R.taken_under he)).1 w hw)
        rcases R.taken_twice he he' hz hMem with hSame | ⟨hIn, hUsed⟩ | ⟨hIn, hUsed⟩
        · exact hOther hSame
        · exact ih _ (hUp he hz) e' he' hIn hUsed
        · exact ih _ (hUp he' hMem) e he hIn hUsed
    | fused hx =>
      obtain ⟨p, -, hFuses⟩ := R.fused_last he' hx
      obtain ⟨op', hOp', hOverflow⟩ := hFuses.overflow
      cases hOp.unique hOp'
      rcases hKind with rfl | hNone
      · cases hOverflow
      · obtain ⟨o, rfl⟩ := hasOverflow_int32 hOverflow
        cases hNone

/-- What is taken is never marked as used. -/
theorem not_used (R : Run site E s) (he : e ∈ E) (hu : u ∈ e.step.taken) : u ∉ s.used := by
  have hFinite : {w | w ∈ E.map Entry.node}.Finite := List.finite_toSet _
  have hNode : ∀ {e u}, e ∈ E → u ∈ e.step.taken → u ∈ {w | w ∈ E.map Entry.node} := by
    intro e u he hu
    obtain ⟨b, i, hAt⟩ := R.taken_at he (List.ne_nil_of_mem hu) u (List.mem_cons_of_mem _ hu)
    obtain ⟨e', he', -, -, rfl⟩ := R.entry hAt
    exact List.mem_map_of_mem he'
  have hAll := (R.valid.under_wellFoundedOn hFinite).induction (hNode he hu)
    (P := fun u => ∀ e ∈ E, u ∈ e.step.taken → u ∉ s.used) ?_
  · exact hAll e he hu
  · intro u _ ih e he hu
    exact R.not_used_of_above he hu fun w hw e' he' hw' => ih w (hNode he' hw') hw e' he' hw'

/-! ## What is computed is computed once -/

/-- What an entry computes of its own is its node, or the flag of its node. -/
theorem own_kinds (R : Run site E s) (he : e ∈ E) (hx : x ∈ e.step.own) : e.Visited site ∧
    ((x = e.node ∧ ∀ op, site.graph.HasOp e.node op → op ≠ .projection ∧ op ≠ .finish) ∨
      (site.graph.Projects x 1 e.node ∧
        ∃ op, site.graph.HasOp e.node op ∧ op.hasOverflow = true)) := by
  -- only nodes and phis have results of their own
  cases R.trace.valid he with
  | skip _ _ _ hStep =>
    rw [hStep] at hx
    cases hx
  | node hVisited _ hCovers => exact ⟨hVisited, hCovers.describes.own x hx⟩
  | phi hVisited hOp _ _ hStep =>
    rw [hStep] at hx
    refine ⟨hVisited, .inl ⟨List.mem_singleton.mp hx, ?_⟩⟩
    intro op hOp'
    cases hOp.unique hOp'
    exact ⟨nofun, nofun⟩
  | finish _ _ _ _ hCovers =>
    rw [hCovers.own] at hx
    cases hx

/-- What an entry computes beside is the operation that it fuses, or arithmetic that it takes. It
stands before the entry. -/
theorem extra_kinds (R : Run site E s) (he : e ∈ E) (hx : x ∈ e.step.extra) :
    (∀ {b i}, site.schedule.At b i x → Precedes b i e.block e.index) ∧
      ((e.step.fused = some x ∧ e.Finishes site ∧ site.schedule.blockOf x = some e.block ∧
          ∃ op, site.graph.HasOp x op ∧ op.hasOverflow = true) ∨
        (x ∈ e.step.taken ∧ ∃ op, op ≠ .equal ∧ site.graph.HasOp x (.word32 op))) := by
  have hEntry := R.trace.valid he
  have hConsumes := hEntry.consumes
  -- In either case something is taken, and what is computed stands under it.
  have hTaken : e.step.taken ≠ [] := by
    rcases hConsumes.defs.2 x hx with hFused | ⟨hMem, -⟩
    · obtain ⟨-, p, hp, -⟩ := hConsumes.fused x hFused
      exact List.ne_nil_of_mem hp
    · exact List.ne_nil_of_mem hMem
  obtain ⟨hActive, op, hOp, -, hKind⟩ := hEntry.takes R.valid hTaken
  rcases hConsumes.defs.2 x hx with hFused | ⟨hMem, hWord⟩
  · obtain ⟨p, hp, hFuses⟩ := R.fused_last he hFused
    have hFinishes : e.Finishes site := by
      cases hEntry with
      | skip _ _ _ hStep =>
        rw [hStep] at hFused
        cases hFused
      | node _ _ hCovers =>
        rw [hCovers.fused] at hFused
        cases hFused
      | phi _ _ _ _ hStep =>
        rw [hStep] at hFused
        cases hFused
      | finish block hBlock hIndex hNode => exact ⟨block, hBlock, hIndex, hNode⟩
    have hBlock : site.schedule.blockOf x = some e.block := hFuses.block
    refine ⟨?_, .inl ⟨hFused, hFinishes, hBlock, hFuses.overflow⟩⟩
    intro b i hAt
    obtain ⟨xOp, hxOp, hOverflow⟩ := hFuses.overflow
    rcases (R.fused_inReach he hFused).node with rfl | hUnder
    · -- The end of a block is no such operation.
      obtain ⟨o, rfl⟩ := hasOverflow_int32 hOverflow
      cases hxOp.unique hOp
      rcases hKind with hEqual | hNone
      · cases hEqual
      · cases hNone
    · exact R.valid.precedes hUnder hAt (hActive.at ⟨op, hOp⟩)
  · refine ⟨?_, .inr ⟨hMem, hWord⟩⟩
    intro b i hAt
    have hUnder := (List.pairwise_cons.mp (R.taken_under he)).1 x hMem
    exact R.valid.precedes hUnder hAt (hActive.at ⟨op, hOp⟩)

/-- What an entry computes of its own no entry computes beside. -/
theorem own_extra (R : Run site E s) (he : e ∈ E) (he' : e' ∈ E) (hx : x ∈ e.step.own)
    (hx' : x ∈ e'.step.extra) : False := by
  obtain ⟨hVisited, hOwn⟩ := R.own_kinds he hx
  obtain ⟨hBefore, hExtra⟩ := R.extra_kinds he' hx'
  rcases hOwn with ⟨rfl, -⟩ | ⟨⟨n, hn, hProjection, -⟩, -⟩
  · -- It would have been computed before the walk came to it.
    refine hVisited.fresh (R.defined he he' (hBefore hVisited.lists.at) ?_)
    exact List.mem_append_left _ hx'
  · rcases hExtra with ⟨-, -, -, op, hOp, hOverflow⟩ | ⟨-, op, -, hOp⟩
    · cases hOp.unique ⟨n, hn, hProjection⟩
      cases hOverflow
    · cases hOp.unique ⟨n, hn, hProjection⟩

/-- No node is computed at two places. -/
theorem defs_unique (R : Run site E s) (he : e ∈ E) (he' : e' ∈ E) (hx : x ∈ e.step.defs)
    (hx' : x ∈ e'.step.defs) : e' = e := by
  rcases List.mem_append.mp hx with hExtra | hOwn
  · rcases List.mem_append.mp hx' with hExtra' | hOwn'
    · obtain ⟨-, hKind⟩ := R.extra_kinds he hExtra
      obtain ⟨-, hKind'⟩ := R.extra_kinds he' hExtra'
      rcases hKind with ⟨-, hFinish, hHome, op, hOp, hOverflow⟩ | ⟨hTaken, op, hEqual, hOp⟩
      · rcases hKind' with ⟨-, hFinish', hHome', -⟩ | ⟨-, op', -, hOp'⟩
        · -- Both are the end of the block of the operation.
          have hBlock : e'.block = e.block := Option.some.inj (hHome'.symm.trans hHome)
          obtain ⟨block, hGet, hIndex, -⟩ := hFinish
          obtain ⟨block', hGet', hIndex', -⟩ := hFinish'
          rw [hBlock, hGet] at hGet'
          cases hGet'
          exact R.same he he' hBlock (hIndex'.trans hIndex.symm)
        · cases hOp.unique hOp'
          cases hOverflow
      · rcases hKind' with ⟨-, -, -, op', hOp', hOverflow⟩ | ⟨hTaken', -⟩
        · cases hOp.unique hOp'
          cases hOverflow
        · rcases R.taken_twice he he' hTaken hTaken' with hSame | ⟨hIn, hUsed⟩ | ⟨hIn, hUsed⟩
          · exact hSame
          · exact absurd hUsed (R.not_used he' hIn)
          · exact absurd hUsed (R.not_used he hIn)
    · exact (R.own_extra he' he hOwn' hExtra).elim
  · rcases List.mem_append.mp hx' with hExtra' | hOwn'
    · exact (R.own_extra he he' hOwn hExtra').elim
    · obtain ⟨hVisited, hKind⟩ := R.own_kinds he hOwn
      obtain ⟨hVisited', hKind'⟩ := R.own_kinds he' hOwn'
      refine R.same_node he he' hVisited.lists.at hVisited'.lists.at ?_
      rcases hKind with ⟨rfl, hNot⟩ | ⟨⟨n, hn, hOp, -, hIn⟩, -⟩
      · rcases hKind' with ⟨hEq, -⟩ | ⟨⟨m, hm, hOp', -, -⟩, -⟩
        · exact hEq.symm
        · exact absurd rfl (hNot _ ⟨m, hm, hOp'⟩).1
      · rcases hKind' with ⟨rfl, hNot⟩ | ⟨⟨m, hm, hOp', -, hIn'⟩, -⟩
        · exact absurd rfl (hNot _ ⟨n, hn, hOp⟩).1
        · rw [hn] at hm
          cases hm
          exact Except.ok.inj (hIn'.symm.trans hIn)

end Run

end ArmBackend.Selection
