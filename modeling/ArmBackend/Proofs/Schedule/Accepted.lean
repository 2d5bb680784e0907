import ArmBackend.Proofs.Schedule.Filled
import ArmBackend.Proofs.Schedule.Schedulable

/-!
# Graphs that are scheduled

What scheduling asks of a graph is enough: when it is `Schedulable` the blocks are built, every node
finds its place, each input stands where it is there in time, and no node waits for itself or for
the end of its block. Together with `compute_schedulable` this says which graphs without cycles have
a schedule.

A live node closes blocks when its turn comes. Where no block is closed in two ways, a block that
has been closed was closed by a node that has had its turn (`ClosedBy`), so that none is closed
again. Once all nodes have had their turn every block is closed, every branch has its two arms, and
going back from block to block leads to the start: no block is left out of the order.

Placing compares depths and checking walks along immediate dominators, where `Schedulable` speaks of
covering. The depths of blocks and their dominators tell which head covers which (`Measured`), so
the deepest of the blocks that cover one another in a row is the last of the row.

## Results

* `buildBlocks_of_schedulable` — the blocks are built.
* `compute_of_schedulable` — a graph that is as scheduling asks has a schedule.
* `compute_ok_iff_schedulable` — the graphs without cycles that have one.
-/

namespace ArmBackend.Schedule

variable {g : Graph} {exit id u x h : NodeId} {live : BitSet} {s t : Schedule} {b i target : Nat}
  {block : Block} {n : Node} {done : NodeId → Nat → Prop} {R : Fault → Prop}

/-! ## Finding heads -/

/-- The walk along control inputs finds the head, unless it runs out of steps. -/
theorem climb_finds (hHead : g.ControlHead x h) (fuel : Nat) :
    headOf.climb g id fuel x = .ok h ∨ headOf.climb g id fuel x = .error .endless := by
  induction fuel generalizing x with
  | zero => exact .inr rfl
  | succ fuel ih =>
    rcases hHead.cases_step with ⟨rfl, n, hn, hIs⟩ | ⟨u, hStep, hRest⟩
    · unfold headOf.climb
      rw [if_neg (Int.not_lt.mpr (Graph.node?_lt hn).1), Graph.op_eq_ok.mpr ⟨n, hn, rfl⟩, ok_bind,
        if_pos hIs]
      exact .inl rfl
    · rw [climb_step hStep]
      exact ih hRest

/-- Where no chain goes round, the head that control leads to is found. -/
theorem headOf_settles_of_head (hWell : g.WellFormed)
    (hAcyclic : ∀ id, ¬Relation.TransGen g.HasInput id id) (hHead : g.ControlHead x h) :
    Settles R (headOf g x) (g.ControlHead x) := by
  have hFinds : headOf g x = .ok h ∨ headOf g x = .error .endless :=
    climb_finds hHead (g.size + 1)
  rcases hFinds with hFound | hEndless
  · exact Settles.of_eq_ok hFound hHead
  · obtain ⟨n, hn⟩ : ∃ n, g.node? x = some n := by
      rcases hHead.cases_step with ⟨-, n, hn, -⟩ | ⟨u, ⟨n, hn, -⟩, -⟩ <;> exact ⟨n, hn⟩
    have hSettles := headOf_settles hWell hn (.refl : g.Live x x)
    rw [show headOf g x = .error .endless from hEndless] at hSettles
    rcases hSettles with hRejection | ⟨-, w, -, hLoop⟩
    · cases hRejection
    · have hCycle := Relation.TransGen.mono (fun _ _ hStep => hStep.hasInput hWell) _ _ hLoop
      exact absurd hCycle (hAcyclic w)

/-! ## Closing blocks -/

/-- The blocks of the live heads while they are closed: each that is closed was closed in a way that
is in `done`. -/
structure ClosedBy (g : Graph) (exit : NodeId) (live : BitSet) (done : NodeId → Nat → Prop)
    (s : Schedule) : Prop where
  heads : s.heads = (headsOf g live).toArray
  closed : ∀ (b : Nat) (block : Block), s.blocks[b]? = some block → block.kind ≠ .none →
    ∃ e i x, g.Live exit e ∧ done e i ∧ g.Closes e i x ∧ g.ControlHead x block.head

theorem exists_block_of_mem_heads (hHeads : s.heads = (headsOf g live).toArray)
    (hMem : h ∈ headsOf g live) :
    ∃ (b : Nat) (block : Block), s.blocks[b]? = some block ∧ block.head = h := by
  obtain ⟨b, hb⟩ := List.getElem?_of_mem hMem
  have hAt := heads_getElem? s b
  rw [hHeads, List.getElem?_toArray, hb] at hAt
  obtain ⟨block, hBlock, hHead⟩ := Option.map_eq_some_iff.mp hAt.symm
  exact ⟨b, block, hBlock, hHead⟩

namespace ClosedBy

theorem mono {done' : NodeId → Nat → Prop} (hClosed : ClosedBy g exit live done s)
    (hDone : ∀ e i, done e i → done' e i) : ClosedBy g exit live done' s := by
  refine ⟨hClosed.heads, fun b block hBlock hKind => ?_⟩
  obtain ⟨e, i, x, hIs, hIn, hCloses, hHead⟩ := hClosed.closed b block hBlock hKind
  exact ⟨e, i, x, hIs, hDone e i hIn, hCloses, hHead⟩

theorem link (hClosed : ClosedBy g exit live done s) (b target : Nat) :
    ClosedBy g exit live done (s.link b target) := by
  refine ⟨(heads_link s b target).trans hClosed.heads, fun c new hNew hKind => ?_⟩
  obtain ⟨old, hOld, hMoved, -⟩ := link_block hNew
  rw [hMoved.head]
  exact hClosed.closed c old hOld (hMoved.kind ▸ hKind)

section Schedulable

variable (hWell : g.WellFormed) (hAcyclic : ∀ id, ¬Relation.TransGen g.HasInput id id)
  (hLive : ∀ id, live.contains id = true ↔ g.Live exit id) (hS : g.Schedulable exit)
  (hClosed : ClosedBy g exit live done s)
include hS hClosed

/-- A block that is to be closed in a new way is still open. -/
theorem endBlock {e : NodeId} {kind : BlockKind} {control : Option NodeId} (hIs : g.Live exit e)
    (hCloses : g.Closes e i x) (hNew : ¬done e i) (hBlock : s.blocks[b]? = some block)
    (hHead : g.ControlHead x block.head) :
    Settles R (Schedule.endBlock s e b kind control)
      (ClosedBy g exit live fun e' i' => done e' i' ∨ (e' = e ∧ i' = i)) := by
  -- a block that is closed already was closed by this very end
  have hOpen : block.kind = .none := by
    by_contra hKind
    obtain ⟨e', i', x', hIs', hDone, hCloses', hHead'⟩ := hClosed.closed b block hBlock hKind
    obtain ⟨rfl, rfl⟩ := hS.once hIs hIs' hCloses hCloses' hHead hHead'
    exact hNew hDone
  unfold Schedule.endBlock Schedule.block
  rw [hBlock, ok_bind, if_neg (not_not_intro hOpen)]
  have hHeads : (s.modifyBlock b fun block => { block with kind, control }).heads = s.heads :=
    heads_modifyBlock fun _ => rfl
  refine Settles.pure ⟨hHeads.trans hClosed.heads, ?_⟩
  intro c new hNew hKind
  rw [getElem?_modifyBlock] at hNew
  split at hNew
  · next hSame =>
    obtain ⟨old, hOld, rfl⟩ := Option.map_eq_some_iff.mp hNew
    rw [← hSame, hBlock, Option.some.injEq] at hOld
    rw [← hOld]
    exact ⟨e, i, x, hIs, .inr ⟨rfl, rfl⟩, hCloses, hHead⟩
  · obtain ⟨e', i', x', hIs', hDone, hCloses', hHead'⟩ := hClosed.closed c new hNew hKind
    exact ⟨e', i', x', hIs', .inl hDone, hCloses', hHead'⟩

omit hS in
include hWell hAcyclic hLive in
/-- The block that control leads to is found. -/
theorem blockOfControl (hIs : g.Live exit u) (hHead : g.ControlHead u h) :
    Settles R (blockOfControl g s u) fun b =>
      ∃ block, s.blocks[b]? = some block ∧ g.ControlHead u block.head := by
  refine blockOfControl_settles hWell ?_ hIs (headOf_settles_of_head hWell hAcyclic hHead)
  intro head hHeadLive hIsHead
  exact exists_block_of_mem_heads hClosed.heads
    (mem_headsOf_of_isHead ((hLive head).mpr hHeadLive) hIsHead)

include hWell hAcyclic hLive

/-- A branch or a return closes the block that it stands in. -/
theorem endAt {kind : BlockKind} (hn : g.node? id = some n) (hIs : g.Live exit id)
    (hEnd : g.IsEnd id) (hNew : ¬done id 0) :
    Settles R
      (do Schedule.endBlock s id (← Schedule.blockOfControl g s (← n.controlIn)) kind (some id))
      (ClosedBy g exit live fun e i => done e i ∨ (e = id ∧ i = 0)) := by
  obtain ⟨u, hStep⟩ := (hEnd.entered hWell).step hWell hEnd.not_isHead
  obtain ⟨h, hHead⟩ := hS.lands hIs (fun _ => .inr hEnd) (.inl hStep)
  have hControl : n.controlIn = .ok u := by
    obtain ⟨m, hm, -, -, hu⟩ := hStep
    obtain rfl : n = m := Option.some.inj (hn.symm.trans hm)
    exact hu
  rw [hControl, ok_bind]
  refine (hClosed.blockOfControl hWell hAcyclic hLive (hIs.input (hStep.hasInput hWell))
    hHead).bind ?_
  rintro b ⟨block, hBlock, hChain⟩
  exact hClosed.endBlock hS hIs (.ends hEnd) hNew hBlock (hChain.step hStep)

/-- A node that has not had its turn closes its blocks. -/
theorem endBlocks (hn : g.node? id = some n) (hIs : g.Live exit id) (hNew : ∀ i, ¬done id i) :
    Settles R (Schedule.endBlocks g s id n)
      (ClosedBy g exit live fun e i => done e i ∨ e = id) := by
  unfold Schedule.endBlocks
  split
  · next hOp =>
    refine (hClosed.endAt hWell hAcyclic hLive hS hn hIs ⟨n, hn, .inl hOp⟩ (hNew 0)).mono ?_
    exact fun t hNext => hNext.mono fun _ _ => .imp_right And.left
  · next hOp =>
    refine (hClosed.endAt hWell hAcyclic hLive hS hn hIs ⟨n, hn, .inr hOp⟩ (hNew 0)).mono ?_
    exact fun t hNext => hNext.mono fun _ _ => .imp_right And.left
  · next hOp =>
    have hHead : g.IsHead id := ⟨n, hn, by rw [hOp]; rfl⟩
    obtain ⟨c, found, hFound, hFoundHead⟩ := exists_block_of_mem_heads hClosed.heads
      (mem_headsOf_of_isHead ((hLive id).mpr hIs) hHead)
    obtain ⟨target, -, hTarget, -, -⟩ := blockAt_eq_ok hFound hFoundHead
    rw [hTarget, ok_bind]
    -- The inputs that have had their turn are those in front.
    refine (Settles.foldlM (I := fun front t =>
      ClosedBy g exit live (fun e i => done e i ∨ (e = id ∧ i < front.length)) t) ?_ ?_).mono ?_
    · exact hClosed.mono fun _ _ => .inl
    · intro front x rest t hSplit hNow
      have hInput : g.HasInput id x := ⟨n, hn, by rw [hSplit]; simp⟩
      obtain ⟨h, hChain⟩ := hS.lands hIs (fun _ => .inl hHead) (.inr ⟨hHead, hInput⟩)
      refine (hNow.blockOfControl hWell hAcyclic hLive (hIs.input hInput) hChain).bind ?_
      rintro b ⟨block, hBlock, hLeads⟩
      have hx : n.inputs[front.length]? = some x := by rw [hSplit]; simp
      have hFresh : ¬(done id front.length ∨ (id = id ∧ front.length < front.length)) := by
        rintro (hDone | ⟨-, hLt⟩)
        · exact hNew _ hDone
        · exact Nat.lt_irrefl _ hLt
      refine (hNow.endBlock hS hIs (.jumps hn hOp hx) hFresh hBlock hLeads).bind fun u hNext => ?_
      refine Settles.pure ((hNext.link b target).mono ?_)
      rintro e i ((hDone | ⟨rfl, hLt⟩) | ⟨rfl, rfl⟩)
      · exact .inl hDone
      · exact .inr ⟨rfl, by simp; omega⟩
      · exact .inr ⟨rfl, by simp⟩
    · exact fun t hNext => hNext.mono fun _ _ => .imp_right And.left
  · exact Settles.pure (hClosed.mono fun _ _ => .inl)

end Schedulable

end ClosedBy

section Schedulable

variable (hWell : g.WellFormed) (hStart : g.HasOp Graph.start .start)
  (hAcyclic : ∀ id, ¬Relation.TransGen g.HasInput id id)
  (hRoot : ∃ n, g.node? exit = some n) (hLive : ∀ id, live.contains id = true ↔ g.Live exit id)
  (hS : g.Schedulable exit)
include hWell hLive hS

include hAcyclic in
/-- Every live node closes its blocks. -/
theorem ClosedBy.endAll (hClosed : ClosedBy g exit live (fun _ _ => False) s) :
    Settles R (g.nodes.toList.zipIdx.foldlM
        (fun s (n, id) => if live.mem id then Schedule.endBlocks g s id n else pure s) s)
      fun _ => True := by
  refine (Settles.foldlM (I := fun (front : List (Node × Nat)) t =>
    ClosedBy g exit live (fun e _ => e ∈ front.map fun p => (p.2 : NodeId)) t) ?_ ?_).mono
    fun _ _ => trivial
  · exact hClosed.mono fun _ _ hNone => hNone.elim
  · rintro front ⟨n, k⟩ rest t hSplit hNow
    have hn : g.node? k = some n := Graph.mem_zipIdx.mp (by rw [hSplit]; simp)
    dsimp only
    by_cases hMem : live.mem k = true
    · rw [if_pos hMem]
      have hIs : g.Live exit k := (hLive k).mp (by rwa [BitSet.contains_natCast])
      -- Each node has a number of its own.
      have hNew : (k : NodeId) ∉ front.map fun p => (p.2 : NodeId) := by
        have hNodup : (g.nodes.toList.zipIdx.map Prod.snd).Nodup := by
          rw [List.zipIdx_map_snd]
          exact List.nodup_range' _
        rw [hSplit, List.map_append, List.map_cons] at hNodup
        intro hIn
        obtain ⟨p, hp, hSame⟩ := List.mem_map.mp hIn
        exact (List.nodup_append.mp hNodup).2.2 _ (List.mem_map_of_mem hp) k List.mem_cons_self
          (Int.ofNat_inj.mp hSame)
      refine (hNow.endBlocks hWell hAcyclic hLive hS hn hIs
        fun _ => hNew).mono fun u hNext => hNext.mono ?_
      rintro e - (hDone | rfl) <;> simp_all
    · rw [if_neg hMem]
      exact Settles.pure (hNow.mono fun e _ hDone => by simp_all)

/-! ## Edges of branches -/

omit hS in
/-- The arms of a branch are found when it has them. -/
theorem projections_of_arms {c p q : NodeId} (hTrue : g.IsArm exit c .ifTrue p)
    (hFalse : g.IsArm exit c .ifFalse q) :
    ∃ y z, projections g live c = .ok (some y, some z) := by
  -- The last live user with the operator is taken; an arm is one, so there is such a user.
  have hUser : ∀ {op x}, g.IsArm exit c op x → ∃ y, (((((g.edgesTo c).filterMap fun u =>
      if live.contains u.user then (g.node? u.user).map fun n => (u.user, n.op) else none).filter
        fun p => p.2 = op).getLast?).map (·.1)) = some y := by
    rintro op x ⟨hIs, ⟨n, hn, hOp⟩, m, hm, hMem⟩
    obtain rfl : n = m := Option.some.inj (hn.symm.trans hm)
    obtain ⟨i, hi⟩ := List.getElem?_of_mem hMem
    have hUse : (⟨x, i⟩ : Use) ∈ g.edgesTo c := Graph.mem_edgesTo.mpr ⟨n, hn, hi⟩
    have hFound : (x, op) ∈ ((g.edgesTo c).filterMap fun u =>
        if live.contains u.user then (g.node? u.user).map fun n => (u.user, n.op) else none).filter
          fun p => p.2 = op := by
      refine List.mem_filter.mpr ⟨List.mem_filterMap.mpr ⟨_, hUse, ?_⟩, by simp⟩
      rw [if_pos ((hLive x).mpr hIs), hn, ← hOp]
      rfl
    cases hLast : (((g.edgesTo c).filterMap fun u =>
        if live.contains u.user then (g.node? u.user).map fun n => (u.user, n.op) else none).filter
          fun p => p.2 = op).getLast? with
    | none =>
      rw [List.getLast?_eq_none_iff.mp hLast] at hFound
      cases hFound
    | some p => exact ⟨p.1, rfl⟩
  obtain ⟨y, hy⟩ := hUser hTrue
  obtain ⟨z, hz⟩ := hUser hFalse
  obtain ⟨n, hn⟩ := hWell.node_of_input hTrue.2.2
  refine ⟨y, z, ?_⟩
  unfold projections
  rw [hWell.uses hn, ok_bind]
  dsimp only
  rw [hy, hz]
  rfl

/-- Blocks with their ends, and with the edges of some of the branches. -/
structure Ready (g : Graph) (exit : NodeId) (live : BitSet) (s : Schedule) : Prop where
  outline : Outline g exit live s
  endings : Endings g s
  ended : ∀ (b : Nat) (block : Block), s.blocks[b]? = some block → block.kind ≠ .none

omit hLive hS hWell in
/-- The node that ends a block by a branch is a live branch. -/
theorem Ready.branch (hReady : Ready g exit live s) (hBlock : s.blocks[b]? = some block)
    (hKind : block.kind = .branch) : ∃ c, block.control = some c ∧ g.Live exit c ∧
      g.HasOp c .branch := by
  obtain ⟨c, hControl, hOp⟩ := (hReady.endings b block hBlock).branch hKind
  exact ⟨c, hControl, ((hReady.outline.sketch b block hBlock).control c hControl).1, hOp⟩

/-- A block gets its edges. -/
theorem Ready.linkBranch (hReady : Ready g exit live s) (hBlock : s.blocks[b]? = some block) :
    Settles R (Schedule.linkBranch g live s b) (Ready g exit live) := by
  -- The step succeeds, since both arms are there and start blocks.
  obtain ⟨t, ht⟩ : ∃ t, Schedule.linkBranch g live s b = .ok t := by
    unfold Schedule.linkBranch Schedule.block
    rw [hBlock, ok_bind]
    split
    · next hKind => exact absurd hKind (hReady.ended b block hBlock)
    · next c hKind hControl =>
      obtain ⟨c', hControl', hIs, hOp⟩ := hReady.branch hBlock hKind
      obtain rfl := Option.some.inj (hControl.symm.trans hControl')
      obtain ⟨p, hTrue, -⟩ := hS.arms hIs hOp (.inl rfl)
      obtain ⟨q, hFalse, -⟩ := hS.arms hIs hOp (.inr rfl)
      obtain ⟨y, z, hFound⟩ := projections_of_arms hWell hLive hTrue hFalse
      obtain ⟨n, hn⟩ := hWell.node_of_input hTrue.2.2
      have hHeads := (Outline.projections (R := g.Rejects exit) hWell hn).of_ok hFound
      obtain ⟨i, -, hAtY, -⟩ := hReady.outline.blockAt (hHeads y (.inl rfl)).1
      obtain ⟨j, -, hAtZ, -⟩ := hReady.outline.blockAt (hHeads z (.inr rfl)).1
      rw [hFound, ok_bind]
      dsimp only
      rw [hAtY, ok_bind, hAtZ, ok_bind]
      exact ⟨_, rfl⟩
    · exact ⟨s, rfl⟩
  obtain ⟨hOutline, hProgress, -⟩ := (hReady.outline.linkBranch hWell hBlock).of_ok ht
  obtain ⟨hEndings, hHeads, -⟩ := hReady.endings.linkBranch ht
  refine Settles.of_eq_ok ht ⟨hOutline, hEndings, fun c new hNew => ?_⟩
  -- No block loses its end by being linked.
  have hLt : c < s.blocks.size := by
    rw [← size_heads, ← hHeads, size_heads]
    exact (Array.getElem?_eq_some_iff.mp hNew).1
  have hOld := Array.getElem?_eq_getElem hLt
  obtain ⟨same, hSame, -, hKeep⟩ := hProgress c _ hOld
  obtain rfl : same = new := Option.some.inj (hSame.symm.trans hNew)
  rw [(hKeep (hReady.ended c _ hOld)).1]
  exact hReady.ended c _ hOld

/-! ## All blocks -/

omit hWell in
include hStart in
theorem live_of_mem_headsOf (hMem : h ∈ headsOf g live) : g.Live exit h ∧ g.IsHead h := by
  rcases mem_headsOf.mp hMem with rfl | ⟨-, hIs, hHead⟩
  · exact ⟨hS.start, .of_hasOp hStart rfl⟩
  · exact ⟨(hLive h).mp hIs, hHead⟩

include hRoot hStart

/-- When every node has had its turn all blocks are closed. -/
theorem ready_of_ended {ended : Schedule}
    (hEnded : g.nodes.toList.zipIdx.foldlM
      (fun s (n, id) => if live.mem id then Schedule.endBlocks g s id n else pure s)
      ({ blocks := ((headsOf g live).map fun head => ({ head := head } : Block)).toArray } :
        Schedule) = .ok ended) :
    Ready g exit live ended := by
  obtain ⟨hOutline, hEnds⟩ := (Outline.endAll hWell hRoot hLive Outline.init).of_ok hEnded
  obtain ⟨hEndings, hHeads, hMerges⟩ :=
    ((Endings.init g _).endAll hWell (heads_ofHeads _)).of_ok hEnded
  refine ⟨hOutline, hEndings, fun b block hBlock => ?_⟩
  have hNodup : ended.heads.toList.Nodup := by
    rw [hHeads]
    exact headsOf_nodup
  obtain ⟨hIs, hHead⟩ := live_of_mem_headsOf hStart hLive hS
    (List.mem_of_getElem? (hOutline.headsOf_getElem? hBlock))
  -- Some live node closes the block of this head, and no other block has the head.
  obtain ⟨e, i, x, hE, hCloses, hChain⟩ := hS.ended hIs hHead
  cases hCloses with
  | ends hEnd =>
    obtain ⟨c, other, hOther, hControl⟩ := hEnds e hE hEnd
    have hSketch := hOutline.sketch c other hOther
    obtain rfl := eq_of_head hNodup hBlock hOther
      (hChain.unique (hSketch.control e hControl).2.2)
    obtain rfl : block = other := Option.some.inj (hBlock.symm.trans hOther)
    intro hNone
    rw [hSketch.unended hNone] at hControl
    cases hControl
  | jumps hn hOp hx =>
    obtain ⟨k, rfl, -⟩ := Graph.node?_eq_some.mp hn
    have hMem : live.mem k = true := by
      rw [← BitSet.contains_natCast]
      exact (hLive k).mpr hE
    obtain ⟨c, other, hOther, hChain', hKind, -⟩ :=
      (hMerges _ (Graph.mem_zipIdx.mpr hn) hMem hOp).1 x (List.mem_of_getElem? hx)
    obtain rfl := eq_of_head hNodup hBlock hOther (hChain.unique hChain')
    obtain rfl : block = other := Option.some.inj (hBlock.symm.trans hOther)
    rw [hKind]
    decide

include hAcyclic

/-- The blocks of a graph that can be scheduled get their ends and edges. -/
theorem linkedBlocks_of_schedulable : ∃ linked, linkedBlocks g live = .ok linked ∧
    Ready g exit live linked := by
  -- at first no block is closed; then each end closes its own, and each branch is linked
  have hOpen : ClosedBy g exit live (fun _ _ => False)
      { blocks := ((headsOf g live).map fun head => ({ head := head } : Block)).toArray } := by
    refine ⟨heads_ofHeads _, fun b block hBlock hKind => ?_⟩
    rw [List.getElem?_toArray, List.getElem?_map, Option.map_eq_some_iff] at hBlock
    obtain ⟨head, -, rfl⟩ := hBlock
    exact absurd rfl hKind
  obtain ⟨ended, hEnded, -⟩ :=
    (ClosedBy.endAll (R := fun _ => False) hWell hAcyclic hLive hS hOpen).exists_ok
  have hReady := ready_of_ended hWell hStart hRoot hLive hS hEnded
  have hLinks : Settles (fun _ => False)
      ((List.range ended.blocks.size).foldlM (Schedule.linkBranch g live) ended)
      (Ready g exit live) := by
    refine Settles.foldlM_mem hReady fun b hb t ht => ?_
    have hLt : b < t.blocks.size := by
      rw [ht.outline.size, ← hReady.outline.size]
      exact List.mem_range.mp hb
    exact ht.linkBranch hWell hLive hS (Array.getElem?_eq_getElem hLt)
  obtain ⟨linked, hLinked, hDone⟩ := hLinks.exists_ok
  refine ⟨linked, ?_, hDone⟩
  unfold linkedBlocks
  dsimp only
  rw [hEnded]
  exact hLinked

omit hStart hAcyclic hRoot hLive hS in
/-- The head of a block stands for no other block. -/
theorem block_of_head (hLinked : linkedBlocks g live = .ok s) (hBlock : s.blocks[b]? = some block)
    {i : Nat} (hHead : s.heads[i]? = some block.head) : i = b :=
  heads_inj (linkedBlocks_drawn hWell hLinked).heads hHead (by rw [heads_getElem?, hBlock]; rfl)

omit hAcyclic in
/-- The block that a branch closes leads to its arms, and each of these is the only one. -/
theorem edge_of_arm {op : Operator} (hLinked : linkedBlocks g live = .ok s)
    (hBlock : s.blocks[b]? = some block) (hOps : op = .ifTrue ∨ op = .ifFalse)
    (hArm : g.IsArm exit u op block.head) :
    ∃ (p : Nat) (before : Block), s.blocks[p]? = some before ∧ g.ControlHead u before.head ∧
      b ∈ s.successors p := by
  obtain ⟨hOutline, hEnds, hKinds⟩ := (linkedBlocks_settles hWell hRoot hLive).of_ok hLinked
  have hBranch := hS.arm_of hOps hArm
  have hLiveU := hArm.1.input hArm.2.2
  obtain ⟨p, before, hBefore, hControl⟩ := hEnds u hLiveU (.of_hasOp hBranch (.inl rfl))
  have hChain := ((hOutline.sketch p before hBefore).control u hControl).2.2
  have hEnding := (linkedBlocks_drawn hWell hLinked).endings p before hBefore
  -- The block that the branch ends is one of a branch.
  have hKind : before.kind = .branch := by
    cases hKind : before.kind with
    | none => exact absurd hKind (hKinds p before hBefore)
    | goto =>
      rw [(hEnding.goto hKind).1] at hControl
      cases hControl
    | branch => rfl
    | ret =>
      obtain ⟨-, c, hControl', hRet⟩ := hEnding.ret hKind
      obtain rfl := Option.some.inj (hControl.symm.trans hControl')
      cases hBranch.unique hRet
  have hp : p ∈ List.range s.blocks.size :=
    List.mem_range.mpr (Array.getElem?_eq_some_iff.mp hBefore).1
  obtain ⟨c, t, f, hControl', hSucc, hTrue, hFalse⟩ :=
    ((linkedBlocks_wiring hLinked).1 p before hBefore).wired hKind hp
  obtain rfl := Option.some.inj (hControl.symm.trans hControl')
  -- A branch has one live arm of each kind, so the block it leads to is that of the arm.
  have hEq : ∀ {i}, s.StartsWith g i u op → i = b := by
    rintro i ⟨arm, m, hArmBlock, hm, hmOp, hMem⟩
    refine block_of_head hWell hLinked hBlock ?_
    have hArmLive := live_of_mem_headsOf hStart hLive hS
      (List.mem_of_getElem? (hOutline.headsOf_getElem? hArmBlock))
    obtain ⟨only, -, hOnly⟩ := hS.arms hLiveU hBranch hOps
    rw [heads_getElem?, hArmBlock, Option.map_some,
      hOnly arm.head ⟨hArmLive.1, ⟨m, hm, hmOp⟩, m, hm, hMem⟩, hOnly block.head hArm]
  refine ⟨p, before, hBefore, hChain, ?_⟩
  rw [successors_eq hBefore, hSucc]
  rcases hOps with rfl | rfl
  · rw [hEq hTrue]
    exact List.mem_cons_self
  · rw [hEq hFalse]
    exact List.mem_cons_of_mem _ List.mem_cons_self

omit hAcyclic in
/-- A block is entered from the blocks of what its head takes. -/
theorem edge_of_linked (hLinked : linkedBlocks g live = .ok s) (hBlock : s.blocks[b]? = some block)
    (hInput : g.HasInput block.head u) :
    ∃ (p : Nat) (before : Block), s.blocks[p]? = some before ∧ g.ControlHead u before.head ∧
      b ∈ s.successors p := by
  have hOutline := ((linkedBlocks_settles hWell hRoot hLive).of_ok hLinked).1
  obtain ⟨hIs, n, hn, hHead⟩ := live_of_mem_headsOf hStart hLive hS
    (List.mem_of_getElem? (hOutline.headsOf_getElem? hBlock))
  have hArm : ∀ {op}, op = .ifTrue ∨ op = .ifFalse → n.op = op →
      ∃ (p : Nat) (before : Block), s.blocks[p]? = some before ∧ g.ControlHead u before.head ∧
        b ∈ s.successors p := fun hOps hOp =>
    edge_of_arm hWell hStart hRoot hLive hS hLinked hBlock hOps ⟨hIs, ⟨n, hn, hOp⟩, hInput⟩
  -- A head that has an input is an arm or a merge.
  cases hOp : n.op with
  | ifTrue => exact hArm (.inl rfl) hOp
  | ifFalse => exact hArm (.inr rfl) hOp
  | start => exact absurd hInput (hWell.not_hasInput_start ⟨n, hn, hOp⟩)
  | merge =>
    obtain ⟨m, hm, hx⟩ := hInput
    obtain rfl : n = m := Option.some.inj (hn.symm.trans hm)
    obtain ⟨p, before, hBefore, hChain, -, t, hSucc, hTarget⟩ :=
      ((linkedBlocks_drawn hWell hLinked).merged ((hLive _).mpr hIs) hn hOp).1 u hx
    refine ⟨p, before, hBefore, hChain, ?_⟩
    rw [successors_eq hBefore, hSucc, block_of_head hWell hLinked hBlock hTarget]
    exact List.mem_singleton.mpr rfl
  | _ =>
    rw [hOp] at hHead
    cases hHead

/-- A path leads to every block. -/
theorem reached_of_linked (hLinked : linkedBlocks g live = .ok s) (hb : b < s.blocks.size) :
    s.Reached b := by
  obtain ⟨hOutline, -, -⟩ := (linkedBlocks_settles hWell hRoot hLive).of_ok hLinked
  refine hWell.inputs_induction hAcyclic (P := fun h => ∀ (b : Nat) (block : Block),
    s.blocks[b]? = some block → block.head = h → s.Reached b) ?_ _ b _
    (Array.getElem?_eq_getElem hb) rfl
  rintro - ih b block hBlock rfl
  have hAt := hOutline.headsOf_getElem? hBlock
  obtain ⟨hIs, hHead⟩ := live_of_mem_headsOf hStart hLive hS (List.mem_of_getElem? hAt)
  by_cases hZero : block.head = Graph.start
  · -- The start is the first of the heads.
    have hFirst : b = 0 := by
      refine heads_inj (linkedBlocks_drawn hWell hLinked).heads
        (by rw [heads_getElem?, hBlock]; rfl) ?_
      rw [(linkedBlocks_drawn hWell hLinked).heads, hZero]
      rfl
    rw [hFirst]
    exact ⟨[0], List.isChain_singleton 0, rfl, rfl⟩
  · obtain ⟨u, hInput⟩ := hS.entered hIs hHead hZero
    obtain ⟨p, before, hBefore, hChain, hEdge⟩ :=
      edge_of_linked hWell hStart hRoot hLive hS hLinked hBlock hInput
    obtain ⟨path, hPath⟩ :=
      ih before.head (.head' hInput (hChain.inputs hWell)) p before hBefore rfl
    exact ⟨path ++ [b], hPath.concat hEdge⟩

/-- The blocks of a graph that can be scheduled are built. -/
theorem buildBlocks_of_schedulable : ∃ f, buildBlocks g live = .ok f := by
  obtain ⟨linked, hLinked, -⟩ :=
    linkedBlocks_of_schedulable hWell hStart hAcyclic hRoot hLive hS
  have hKnown := (linkedBlocks_unordered hLinked).edges.consistent.edgesKnown
  refine ⟨linked.inOrder, buildBlocks_eq_ok.mpr ⟨linked, hLinked, ?_, rfl⟩⟩
  refine hKnown.size_inOrder (linkedBlocks_wiring hLinked).2.1 fun b hb => ?_
  exact reached_of_linked hWell hStart hAcyclic hRoot hLive hS hLinked hb

end Schedulable

end ArmBackend.Schedule

/-! ## Places and order -/

namespace ArmBackend.Schedule

variable {g : Graph} {exit id x h k : NodeId} {live : BitSet} {f s t : Schedule} {a b : Nat}
  {block other : Block}

/-! ## Depths -/

/-- Whether the stored dominators are those of the paths, and blocks are deeper than these. -/
structure Measured (s : Schedule) : Prop where
  dominates : ∀ {a b}, a < s.blocks.size → b < s.blocks.size → s.OnEveryPath a b →
    s.dominates a b = true
  deeper : ∀ {a b}, a < s.blocks.size → b < s.blocks.size → s.Reached b → s.OnEveryPath a b →
    a ≠ b → s.depthAt a < s.depthAt b

/-- Blocks that have been put into order are measured. -/
theorem Unordered.measured (hUnordered : s.Unordered) : s.inOrder.Measured := by
  have hEdges := hUnordered.edges.consistent
  have h0 : 0 < s.blocks.size := by
    obtain ⟨first, hFirst, -⟩ := hUnordered.first
    exact (Array.getElem?_eq_some_iff.mp hFirst).1
  have hKnown : (s.renumber s.postorder).EdgesKnown :=
    (hEdges.numbered h0).edges.edgesKnown
  have hFrom := orderedFrom_inOrder hEdges hUnordered.first
  have hSize : s.inOrder.blocks.size = (s.renumber s.postorder).blocks.size := by
    rw [inOrder, setDominators, Array.size_mapIdx]
    rfl
  have hDepth : ∀ {c}, c < s.inOrder.blocks.size →
      s.inOrder.depthAt c = ((s.renumber s.postorder).dominatorsOf c).length := by
    intro c hc
    rw [hSize] at hc
    unfold depthAt inOrder
    rw [show reversePostorder s.successors s.blocks.size = s.postorder from rfl,
      setDominators_getElem? (Array.getElem?_eq_getElem hc)]
    rfl
  refine ⟨fun ha hb hPath => (hFrom.dominates _ _ ha hb).mpr hPath, ?_⟩
  rintro a b ha hb ⟨way, hWay⟩ hPath hNe
  rw [hDepth ha, hDepth hb]
  -- depths are counts of dominators, which grow strictly along domination
  refine length_dominatorsOf_lt hKnown (hSize ▸ ha) (hSize ▸ hb) ⟨way, ?_⟩ ?_ hNe
  · exact setDominators_isPath.mp hWay
  · exact fun path hTo => hPath path (setDominators_isPath.mpr hTo)

theorem isPath_of_frame (hFrame : t.frame = s.frame) {path : List Nat} :
    t.IsPath path b ↔ s.IsPath path b := by
  unfold IsPath
  rw [successors_of_frame hFrame]

/-- More nodes in blocks make no difference. -/
theorem Measured.of_frame (hMeasured : s.Measured) (hFrame : t.frame = s.frame) : t.Measured := by
  have hSize : t.blocks.size = s.blocks.size := by
    have hSame : t.frame.size = s.frame.size := congrArg Array.size hFrame
    rwa [frame, frame, Array.size_map, Array.size_map] at hSame
  constructor
  · intro a b ha hb hPath
    rw [dominates_of_frame hFrame]
    exact hMeasured.dominates (hSize ▸ ha) (hSize ▸ hb) fun path hTo =>
      hPath path ((isPath_of_frame hFrame).mpr hTo)
  · rintro a b ha hb ⟨way, hWay⟩ hPath hNe
    rw [depthAt_of_frame hFrame, depthAt_of_frame hFrame]
    exact hMeasured.deeper (hSize ▸ ha) (hSize ▸ hb) ⟨way, (isPath_of_frame hFrame).mp hWay⟩
      (fun path hTo => hPath path ((isPath_of_frame hFrame).mpr hTo)) hNe

/-! ## Nodes in their places -/

/-- The blocks `f` of a graph that can be scheduled, with its nodes placed in them. -/
structure Arranged (g : Graph) (exit : NodeId) (f s : Schedule) : Prop where
  well : g.WellFormed
  start : g.HasOp Graph.start .start
  acyclic : ∀ id, ¬Relation.TransGen g.HasInput id id
  schedulable : g.Schedulable exit
  -- `f` has the blocks, `s` the blocks with their nodes
  framed : Framed g exit f
  placing : Placing g exit f s
  all : ∀ id, g.Live exit id → id ≠ exit → ∃ b, s.home id = some b
  flow : Flow g exit s
  measured : s.Measured

namespace Arranged

variable (r : Arranged g exit f s)
include r

/-- A node that is listed, and is no join, has to have its inputs there in time. -/
theorem checked (hBlock : s.blocks[b]? = some block) (hId : id ∈ block.nodes)
    (hPhi : ¬g.IsPhi id) : g.Checked exit id := by
  obtain ⟨hBelow, hHead, hEnd, -⟩ := r.placing.member b block hBlock id hId
  refine ⟨hBelow.to_reflTransGen, ?_, hHead, hEnd, hPhi⟩
  rintro rfl
  exact r.acyclic id hBelow

theorem home_of_mem (hBlock : s.blocks[b]? = some block) (hId : id ∈ block.nodes) :
    s.home id = some b :=
  (r.placing.home id b).mpr
    ⟨block, hBlock, List.mem_cons_of_mem _ (List.mem_append_left _ hId)⟩

theorem block_of_home (hHome : s.home id = some b) : ∃ block, s.blocks[b]? = some block := by
  obtain ⟨block, hBlock, -⟩ := (r.placing.home id b).mp hHome
  exact ⟨block, hBlock⟩

/-- A node stands in the first block, or in one that it rests in. -/
theorem cases_home (hHome : s.home id = some b) (hBlock : s.blocks[b]? = some block) :
    b = 0 ∨ g.RestsIn id block.head := by
  refine (restsIn_of_home r.well r.acyclic (fun _ _ => r.placing.sited r.well r.framed)
    hHome).imp_right ?_
  rintro ⟨own, hOwn, hRests⟩
  obtain rfl : block = own := Option.some.inj (hBlock.symm.trans hOwn)
  exact hRests

/-- A block whose head covers that of another is on every path to it. -/
theorem onEveryPath_of_covers (hOther : s.blocks[a]? = some other)
    (hBlock : s.blocks[b]? = some block) (hCovers : g.Covers other.head block.head) :
    s.OnEveryPath a b :=
  r.flow.onEveryPath_of_covers r.well r.start hOther hBlock (.self (r.flow.head hBlock)) hCovers

/-- The inputs of a listed node stand in blocks that dominate its own. -/
theorem onEveryPath_of_input (hBlock : s.blocks[b]? = some block) (hId : id ∈ block.nodes)
    (hPhi : ¬g.IsPhi id) (hInput : g.HasInput id x) (hHome : s.home x = some a) :
    s.OnEveryPath a b := by
  have hChecked := r.checked hBlock hId hPhi
  obtain ⟨other, hOther⟩ := r.block_of_home hHome
  rcases r.cases_home hHome hOther with rfl | hRests
  · rintro path ⟨-, hFirst, -⟩
    exact List.mem_of_mem_head? hFirst
  · have hAt := r.home_of_mem hBlock hId
    obtain ⟨n, hn, hChain, hDeepest⟩ := r.placing.sited r.well r.framed hAt
    by_cases hControl : n.controlCount = 0
    · -- The block of a node that floats is the deepest one among those of its inputs.
      have hFloats : g.Floats id := ⟨n, hn, hControl⟩
      have hLe : s.depthAt a ≤ s.depthAt b := by
        obtain ⟨m, hm, hx⟩ := hInput
        obtain rfl : n = m := Option.some.inj (hn.symm.trans hm)
        obtain ⟨c, hc, hLe⟩ := (hDeepest hControl).below x hx
        obtain rfl : a = c := Option.some.inj (hHome.symm.trans hc)
        exact hLe
      rcases r.cases_home hAt hBlock with rfl | hOwn
      · have hZero := (r.placing.depthAt_eq_zero r.framed hBlock).mpr rfl
        rw [hZero, Nat.le_zero, r.placing.depthAt_eq_zero r.framed hOther] at hLe
        rw [hLe]
        exact fun path hPath => List.mem_of_getLast? hPath.2.2
      · rcases r.schedulable.floating hChecked.live hChecked.notExit hFloats
          (hRests.of_input hFloats hInput) hOwn with hAbove | hBelow
        · exact r.onEveryPath_of_covers hOther hBlock hAbove
        · have hPath := r.onEveryPath_of_covers hBlock hOther hBelow
          by_cases hSame : b = a
          · rw [hSame]
            exact fun path hPath => List.mem_of_getLast? hPath.2.2
          · have hLt := r.measured.deeper (Array.getElem?_eq_some_iff.mp hBlock).1
              (Array.getElem?_eq_some_iff.mp hOther).1 (r.flow.reached hOther) hPath hSame
            omega
    · obtain ⟨own, hOwn, hHead⟩ := hChain hControl
      obtain rfl : block = own := Option.some.inj (hBlock.symm.trans hOwn)
      exact r.onEveryPath_of_covers hOther hBlock
        (r.schedulable.anchored hChecked hInput hRests ⟨n, hn, hControl⟩ hHead)

/-- The inputs of a listed node pass the check. -/
theorem dominated (hBlock : s.blocks[b]? = some block) (hId : id ∈ block.nodes)
    (hPhi : ¬g.IsPhi id) (hInput : g.HasInput id x) (hHome : s.home x = some a) :
    s.dominates a b = true := by
  obtain ⟨other, hOther⟩ := r.block_of_home hHome
  exact r.measured.dominates (Array.getElem?_eq_some_iff.mp hOther).1
    (Array.getElem?_eq_some_iff.mp hBlock).1 (r.onEveryPath_of_input hBlock hId hPhi hInput hHome)

theorem settled : Settled g exit s :=
  r.placing.settled r.well r.framed r.all
    (fun _ _ hBlock _ hId hPhi _ hInput _ hHome => r.dominated hBlock hId hPhi hInput hHome)
    r.placing rfl

/-- All nodes pass the check. -/
theorem checkAll : (s.blocks.toList.zipIdx.forM fun (block, b) =>
    block.nodes.forM fun id => checkDominated g s b id) = .ok () := by
  have hSettles : Settles (fun _ => False) (s.blocks.toList.zipIdx.forM fun (block, b) =>
      block.nodes.forM fun id => checkDominated g s b id) fun _ => ∀ p ∈ s.blocks.toList.zipIdx,
        ∀ id ∈ p.1.nodes, True := by
    refine Settles.forM fun ⟨block, b⟩ hp => Settles.forM fun id hId => ?_
    have hBlock : s.blocks[b]? = some block := by
      rwa [List.mem_zipIdx_iff_getElem?, Array.getElem?_toList] at hp
    obtain ⟨n, hn, -⟩ := r.placing.sited r.well r.framed (r.home_of_mem hBlock hId)
    unfold checkDominated
    rw [Graph.node_eq_ok.mpr hn, ok_bind]
    refine (Settles.forM (Q := fun _ => True) fun x hx => ?_).mono fun _ _ => trivial
    -- An input without a place is not checked.
    cases hHome : s.blockOf x with
    | none => exact Settles.pure trivial
    | some a =>
      -- The block of the input dominates this one, unless a phi takes it.
      have hPasses : (!s.dominates a b && !n.op.isPhi) = false := by
        by_cases hIs : n.op.isPhi = true
        · simp [hIs]
        · have hPhi : ¬g.IsPhi id := by
            rintro ⟨m, hm, hOp⟩
            obtain rfl : n = m := Option.some.inj (hn.symm.trans hm)
            exact hIs hOp
          simp [r.dominated hBlock hId hPhi ⟨n, hn, hx⟩ hHome]
      dsimp only
      rw [hPasses]
      exact Settles.pure trivial
  obtain ⟨⟨⟩, hOk, -⟩ := hSettles.exists_ok
  exact hOk

/-! ## Order -/

/-- No node takes the node that ends its block. -/
theorem not_awaits_control (hBlock : s.blocks[b]? = some block) (hId : id ∈ block.nodes)
    (hControl : block.control = some x) : ¬Awaits g s b id x := by
  rintro ⟨hPhi, hInput, -⟩
  have hChecked := r.checked hBlock hId hPhi
  have hEnd := r.flow.isEnd_of_control hBlock hControl
  -- It rests in a later block, and the block of that dominates its own.
  obtain ⟨k, ⟨y, hRests, hEntered, hChain⟩, hCovers, hNe⟩ :=
    r.schedulable.closed hChecked hInput hEnd (r.flow.control hBlock hControl).2
  obtain ⟨c, hAt, hDominates⟩ := r.settled.dominates_of_restsOn hRests (r.home_of_mem hBlock hId)
  obtain ⟨n, hn, hSited, -⟩ := r.settled.sited y c hAt
  obtain ⟨m, hm, hAnchored⟩ := hEntered
  obtain rfl : n = m := Option.some.inj (hn.symm.trans hm)
  obtain ⟨other, hOther, hHead⟩ := hSited hAnchored
  obtain rfl := hChain.unique hHead
  obtain rfl := (r.onEveryPath_of_covers hBlock hOther hCovers).antisymm
    (onEveryPath_of_dominates hDominates) (r.flow.reached hOther)
  exact hNe (congrArg Block.head (Option.some.inj (hOther.symm.trans hBlock)))

/-- No node waits, directly or not, for itself or for the node that ends its block. -/
theorem not_circular (hFilled : Filled g s b block) : ¬Circular g s b block := by
  rintro ⟨id, hId, x, hWaits, hx⟩
  have hInputs : ∀ {u w}, Relation.TransGen (Awaits g s b) u w →
      Relation.TransGen g.HasInput u w := fun hWay =>
    Relation.TransGen.mono (fun _ _ hAwaits => hAwaits.2.1) _ _ hWay
  rcases hx with rfl | hControl
  · exact r.acyclic x (hInputs hWaits)
  · obtain ⟨y, hWay, hLast⟩ := Relation.TransGen.tail'_iff.mp hWaits
    refine r.not_awaits_control hFilled.stored ?_ hControl hLast
    rcases Relation.ReflTransGen.cases_tail hWay with rfl | ⟨z, -, hInto⟩
    · exact hId
    · rcases hFilled.awaits_cases hInto with hOther | hEnd
      · exact (List.mem_filter.mp hOther).1
      · obtain rfl := Option.some.inj (hControl.symm.trans hEnd)
        exact absurd (.single hLast.2.1) (r.acyclic x)

end Arranged

/-! ## Schedules -/

section Schedulable

variable (hWell : g.WellFormed) (hStart : g.HasOp Graph.start .start)
  (hAcyclic : ∀ id, ¬Relation.TransGen g.HasInput id id) (hS : g.Schedulable exit)
include hWell hStart hAcyclic hS

/-- Every node of a graph that can be scheduled finds its place. -/
theorem placeNodes_of_schedulable (hRoot : ∃ n, g.node? exit = some n)
    (hLive : ∀ id, live.contains id = true ↔ g.Live exit id) (hBuild : buildBlocks g live = .ok f) :
    ∃ s, (placeNodes g exit live).run f = .ok ((), s) ∧ Arranged g exit f s := by
  have hCycles : g.CyclesJoined := fun id hCycle =>
    hAcyclic id (Relation.TransGen.mono (fun _ _ => Graph.Depends.hasInput) _ _ hCycle)
  have hFramed := (buildBlocks_settles hWell hRoot hLive).of_ok hBuild
  have hPlaces := placeNodes_settles (R := fun _ => False) hWell hCycles hRoot ?_ hLive hFramed
  · obtain ⟨⟨⟨⟩, s⟩, hPlaced, hPlacing, hAll⟩ := hPlaces.exists_ok
    refine ⟨s, hPlaced, hWell, hStart, hAcyclic, hS, hFramed, hPlacing, hAll,
      (buildBlocks_flow hWell hRoot hLive hBuild).of_frame hPlacing.frame, ?_⟩
    obtain ⟨linked, hLinked, -, rfl⟩ := buildBlocks_eq_ok.mp hBuild
    exact (linkedBlocks_unordered hLinked).measured.of_frame hPlacing.frame
  · -- a chain that placing climbs has a head, so that climbing it ends
    intro w u hBelow hStep
    have hNe : w ≠ exit := by
      rintro rfl
      exact hAcyclic w hBelow
    obtain ⟨h, hHead⟩ := hS.lands hBelow.to_reflTransGen (fun hEq => absurd hEq hNe) (.inl hStep)
    exact headOf_settles_of_head hWell hAcyclic hHead

/-- A graph that is as scheduling asks has a schedule. -/
theorem compute_of_schedulable (hExit : g.exit = some exit) : ∃ s, compute g = .ok s := by
  have hRoot := hWell.exit exit hExit
  obtain ⟨live, hMarked, hLive⟩ :=
    (liveNodes_settles (R := fun _ => False) hWell hRoot).exists_ok
  obtain ⟨f, hBuild⟩ := buildBlocks_of_schedulable hWell hStart hAcyclic hRoot hLive hS
  obtain ⟨s, hPlaced, r⟩ := placeNodes_of_schedulable hWell hStart hAcyclic hS hRoot hLive hBuild
  have hPlacement : placement g = .ok s := by
    unfold placement
    rw [hExit]
    dsimp only
    rw [hMarked, ok_bind, hBuild, ok_bind, hPlaced, ok_bind]
    dsimp only
    rw [r.checkAll]
    rfl
  -- only a circle among the nodes of one block is left to fail, and there is none
  have hSettles : Settles (fun _ => False) (compute g) fun _ => True := by
    refine (compute_least hPlacement).weaken ?_ fun _ _ => trivial
    rintro fault ⟨b, block, op, hBlock, hCircular, -⟩
    exact r.not_circular (placement_filled hPlacement hBlock) hCircular
  exact hSettles.exists_ok.imp fun _ => And.left

omit hS in
/-- A graph without cycles has a schedule exactly when it is as scheduling asks. -/
theorem compute_ok_iff_schedulable (hExit : g.exit = some exit) :
    (∃ s, compute g = .ok s) ↔ g.Schedulable exit := by
  constructor
  · rintro ⟨s, hCompute⟩
    obtain ⟨e, he, hS⟩ := compute_schedulable hWell hStart hAcyclic hCompute
    obtain rfl := Option.some.inj (hExit.symm.trans he)
    exact hS
  · exact fun hS => compute_of_schedulable hWell hStart hAcyclic hS hExit

end Schedulable

end ArmBackend.Schedule
