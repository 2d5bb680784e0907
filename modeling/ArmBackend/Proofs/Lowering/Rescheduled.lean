import ArmBackend.Proofs.Lowering.Resting

/-!
# Scheduling behind the pass

A graph that can be scheduled, and whose control is threaded through the changes that branch, can be
scheduled when the pass is through. Its blocks are the pieces of those of before, from a mark to
where the next change splits the block or to where the block is closed, and the arms of the
fragments; and what a node takes is there in front of it, as it was.

## Results

* `Spliced.reschedulable` — what scheduling asks of a graph holds when the pass is through.
-/

namespace ArmBackend

/-- The input at a position belongs to an edge of the kind of that position. -/
theorem Node.edge_of_getElem? {n : Node} {i : Nat} {x : NodeId} (h : n.inputs[i]? = some x) :
    (n.edgeKind i, x) ∈ n.edges := by
  obtain ⟨hi, rfl⟩ := List.getElem?_eq_some_iff.mp h
  exact List.mem_mapIdx.mpr ⟨i, hi, rfl⟩

/-- Rewiring takes each input by the kind of its edge. -/
theorem Node.rewire_getElem? {n : Node} {ρ : EdgeKind → NodeId → NodeId} {i : Nat} :
    (n.rewire ρ).inputs[i]? = n.inputs[i]?.map (ρ (n.edgeKind i)) :=
  List.getElem?_mapIdx

/-- What closes a block is no change. -/
theorem Graph.Closes.stays {g : Graph} {e x : NodeId} {i : Nat} (h : g.Closes e i x) :
    g.Stays e := by
  cases h with
  | ends hEnd => exact hEnd.stays
  | jumps hn hOp _ => exact ⟨_, hn, by rw [hOp]; rfl⟩

namespace Lowering

variable {l : Layout} {g h : Graph} {exit : NodeId} {n m : Node}
  {ρ : EdgeKind → NodeId → NodeId} {arms : NodeId → Option Arms} {a : Arms} {op : Operator}
  {b c e j k p q u w x y z : NodeId} {kind : EdgeKind} {i : Nat}

/-! ## Parts of fragments -/

section Parts

variable {s : Site} {forks : Option Arms}

/-- A node that hangs on a control starts no block, ends none and joins nothing. -/
theorem Hangs.not_op (hHangs : Hangs h s k w) {P : Operator → Prop}
    (hP : ∀ op, P op → op.isPlain = false) : ¬∃ m, h.node? w = some m ∧ P m.op := by
  rintro ⟨m', hm', hOp⟩
  obtain ⟨m, hm, hPlain⟩ := hHangs.exists_node
  obtain rfl := Option.some.inj (hm.symm.trans hm')
  rw [hP _ hOp] at hPlain
  cases hPlain

/-- A node that hangs on a control is no head. -/
theorem Hangs.not_isHead (hHangs : Hangs h s k w) : ¬h.IsHead w :=
  hHangs.not_op (P := fun op => op.isHead = true) fun op hOp => by
    unfold Operator.isPlain
    simp [hOp]

/-- A node that hangs on a control ends no block. -/
theorem Hangs.not_isEnd (hHangs : Hangs h s k w) : ¬h.IsEnd w :=
  hHangs.not_op (P := fun op => op = .branch ∨ op = .ret) fun op hOp => by
    rcases hOp with rfl | rfl <;> rfl

/-- A step along control from a node that hangs leads to what it hangs on. -/
theorem Hangs.step (hHangs : Hangs h s k w) (hStep : h.ControlStep w y) :
    s.pins ∧ (y = k ∨ y = s.base) := by
  obtain ⟨k', m, hk, hm, -, hControl, -⟩ := hHangs.cases_node
  obtain ⟨m', hm', -, hSome, hIn⟩ := hStep
  obtain rfl := Option.some.inj (hm.symm.trans hm')
  obtain ⟨hPins, hIn'⟩ := hControl hSome
  obtain rfl := Except.ok.inj (hIn.symm.trans hIn')
  exact ⟨hPins, hk⟩

/-- A join hangs on the merge. -/
theorem Joined.step (hJoined : Joined h s a w) : h.ControlStep w a.merge := by
  obtain ⟨m, hm, hPhi, hSome, hIn, -⟩ := hJoined
  exact ⟨m, hm, Operator.isHead_of_isPhi hPhi, hSome, hIn⟩

/-- A join ends no block. -/
theorem Joined.not_isEnd (hJoined : Joined h s a w) : ¬h.IsEnd w :=
  Answers.not_isEnd (show Answers h s (some a) w from hJoined)

/-- A join is a phi, of values or of effects. -/
theorem Joined.isPhi (hJoined : Joined h s a w) : h.IsPhi w := by
  obtain ⟨m, hm, hPhi, -⟩ := hJoined
  exact ⟨m, hm, hPhi⟩

/-- The nodes of the diamond are entered by control. -/
theorem Branched.entered (hForked : Branched h s a) (hHas : a.Has w) : h.Entered w := by
  rcases hHas with rfl | rfl | rfl | rfl
  · exact hForked.step.entered
  · exact ⟨_, hForked.ifTrue, show (1 : Int) ≠ 0 by decide⟩
  · exact ⟨_, hForked.ifFalse, show (1 : Int) ≠ 0 by decide⟩
  · exact ⟨_, hForked.merge, show (2 : Int) ≠ 0 by decide⟩

/-- The control that a part hangs on is one of the controls of the fragment. -/
theorem Level.of_step (hLevel : Level s forks k) (hy : y = k ∨ y = s.base) : Level s forks y := by
  rcases hy with rfl | rfl
  · exact hLevel
  · exact .inl rfl

end Parts

namespace Spliced

variable (hL : Spliced l g h exit ρ arms)
include hL

/-! ## Where fragments stand -/

/-- Control leads to a head from where an edge of something live leads that had a head. -/
theorem controlHead_led (hHead : g.ControlHead x b) : ∃ b', h.ControlHead (ρ .control x) b' := by
  obtain ⟨k, hMark⟩ := Graph.FirstMark.exists_of_head hHead
  exact ⟨_, hL.controlHead hMark⟩

/-- Control leads to a head from where a fragment starts. -/
theorem controlHead_base (hIs : g.IsChange c) (hLive : g.Live exit c) :
    ∃ b', h.ControlHead (site g ρ c).base b' := by
  rcases hIs.floats_or_step hL.well with hFloats | ⟨u, hStep⟩
  · rw [site_base_of_floats hFloats]
    exact ⟨_, .self (.of_hasOp hL.hasOp_start rfl)⟩
  · rw [hL.base hStep]
    obtain ⟨b, hHead⟩ := hL.schedulable.controlHead hL.well hLive (hL.checked hIs hLive).notExit
      hStep.entered
    exact hL.controlHead_led (hHead.of_chain (.single hStep))

/-- The controls of a live fragment lead to heads. -/
theorem controlHead_level (hIs : g.IsChange c) (hLive : g.Live exit c)
    (hLevel : Level (site g ρ c) (arms c) k) : ∃ b', h.ControlHead k b' := by
  rcases hLevel with rfl | ⟨a, ha, hArm⟩
  · exact hL.controlHead_base hIs hLive
  · exact ⟨k, .self ((hL.forked ha).isHead_arm hArm)⟩

/-- A change that branches stands in a block. -/
theorem controlHead_splits (hLive : g.Live exit c) (hSplits : Splits arms c) :
    ∃ b, g.ControlHead c b :=
  hL.schedulable.controlHead hL.well hLive (hL.checked (hL.isChange hSplits) hLive).notExit
    (hL.anchored hSplits)

/-- Control goes on from a live change that branches to a return. -/
theorem flowsOut (hLive : g.Live exit c) (hSplits : Splits arms c) : g.FlowsOut exit c := by
  obtain ⟨b, hHead⟩ := hL.controlHead_splits hLive hSplits
  exact hL.threaded.flowsOut_of_splits hL.well hL.acyclic hL.schedulable hLive hSplits hHead

/-- The branch of a live change, its arms and its merge are live. -/
theorem live_has (hLive : g.Live exit c) (ha : arms c = some a) (hHas : a.Has w) :
    h.Live exit w := by
  have hSplits : Splits arms c := Option.isSome_iff_exists.mpr ⟨a, ha⟩
  have hForked := hL.forked ha
  have hMerge := hL.live (hL.flowsOut hLive hSplits)
  rw [(hL.graft (hL.isChange hSplits)).merges a ha] at hMerge
  have hArm : ∀ {k}, a.IsArm k → h.Live exit k := fun hArm =>
    hMerge.input (hForked.input_merge.mpr hArm)
  rcases hHas with rfl | rfl | rfl | rfl
  · exact (hArm (.inl rfl)).input ((hForked.input_arm (.inl rfl)).mpr rfl)
  · exact hArm (.inl rfl)
  · exact hArm (.inr rfl)
  · exact hMerge

/-- What is live was live and is no change, or is dead, or is a part of the fragment of a live
change. -/
theorem live_node_cases (hLive : h.Live exit w) : (g.Live exit w ∧ g.Stays w) ∨ g.IsChange w ∨
    ∃ c, g.IsChange c ∧ g.Live exit c ∧ Part h (site g ρ c) (arms c) w := by
  rcases hL.live_cases hLive with hWas | hPart
  · obtain ⟨n, hn⟩ := hL.live_node hWas
    exact (Graph.stays_or_isChange hn).imp (⟨hWas, ·⟩) .inl
  · exact .inr (.inr hPart)

/-! ## Control -/

/-- A step back from what stays is an old one, rewired. -/
theorem back_cases (hStays : g.Stays w) (hBack : h.ControlBack w y) :
    ∃ u, g.ControlBack w u ∧ ρ .control u = y := by
  rcases hBack with hStep | ⟨hHead, hInput⟩
  · obtain ⟨u, hu, hEq⟩ := (hL.controlStep_iff hStays).mp hStep
    exact ⟨u, .inl hu, hEq⟩
  · have hHead := (hL.isHead_iff hStays).mp hHead
    obtain ⟨kind, u, hEdge, hEq⟩ := (hL.hasInput_iff hStays).mp hInput
    obtain rfl := hHead.edge hL.well hEdge
    exact ⟨u, .inr ⟨hHead, Graph.hasInput_iff_edge.mpr ⟨_, hEdge⟩⟩, hEq⟩

/-- No step back leads from a change that is dead. -/
theorem not_back_of_isChange (hIs : g.IsChange c) : ¬h.ControlBack c y := fun hBack =>
  hL.not_hasInput_of_isChange hIs (hBack.hasInput hL.wellFormed)

/-- Where control is asked for it leads to a head. -/
theorem lands (hLive : h.Live exit w) (hExit : w = exit → h.IsHead w ∨ h.IsEnd w)
    (hBack : h.ControlBack w y) : ∃ b', h.ControlHead y b' := by
  rcases hL.live_node_cases hLive with ⟨hWas, hStays⟩ | hIs | ⟨c, hIs, hLiveC, hPart⟩
  · obtain ⟨u, hu, rfl⟩ := hL.back_cases hStays hBack
    obtain ⟨b, hHead⟩ := hL.schedulable.lands hWas (fun hEq =>
      (hExit hEq).imp (hL.isHead_iff hStays).mp (hL.isEnd_iff hStays).mp) hu
    exact hL.controlHead_led hHead
  · exact absurd hBack (hL.not_back_of_isChange hIs)
  · cases hPart with
    | hangs hk hHangs =>
      obtain ⟨-, hy⟩ := hHangs.step (hBack.step hHangs.not_isHead)
      exact hL.controlHead_level hIs hLiveC (hk.of_step hy)
    | joined ha hJoined =>
      rw [hBack.eq_of_step hJoined.step]
      exact ⟨_, .self (hL.forked ha).isHead_merge⟩
    | @forks a ha hHas =>
      -- The merge takes the arms, these take the branch, and that hangs where the fragment starts.
      have hForked := hL.forked ha
      have hBase := hL.controlHead_base hIs hLiveC
      have hArm : ∀ {k}, a.IsArm k → h.ControlBack k y → ∃ b', h.ControlHead y b' := by
        intro k hArm hBack
        obtain ⟨b', hHead⟩ := hBase
        rw [(hForked.input_arm hArm).mp (hBack.hasInput_of_isHead (hForked.isHead_arm hArm))]
        exact ⟨b', hHead.step hForked.step⟩
      rcases hHas with rfl | rfl | rfl | rfl
      · rwa [hBack.eq_of_step hForked.step]
      · exact hArm (.inl rfl) hBack
      · exact hArm (.inr rfl) hBack
      · have hInput := hBack.hasInput_of_isHead hForked.isHead_merge
        exact ⟨y, .self (hForked.isHead_arm (hForked.input_merge.mp hInput))⟩

/-- A part of a fragment that starts a block is an arm or the merge. -/
theorem isHead_part (hPart : Part h (site g ρ c) (arms c) w) (hHead : h.IsHead w) :
    ∃ a, arms c = some a ∧ (a.IsArm w ∨ w = a.merge) := by
  cases hPart with
  | hangs _ hHangs => exact absurd hHead hHangs.not_isHead
  | joined ha hJoined => exact absurd hHead hJoined.step.not_isHead
  | @forks a ha hHas =>
    refine ⟨a, ha, ?_⟩
    rcases hHas with rfl | hArm | hArm | hMerge
    · exact absurd hHead (hL.forked ha).step.not_isHead
    · exact .inl (.inl hArm)
    · exact .inl (.inr hArm)
    · exact .inr hMerge

/-- A head that is live is entered from somewhere. -/
theorem entered (hLive : h.Live exit w) (hHead : h.IsHead w) (hNe : w ≠ Graph.start) :
    ∃ u, h.HasInput w u := by
  rcases hL.live_node_cases hLive with ⟨hWas, hStays⟩ | hIs | ⟨c, hIs, hLiveC, hPart⟩
  · obtain ⟨u, hInput⟩ := hL.schedulable.entered hWas ((hL.isHead_iff hStays).mp hHead) hNe
    obtain ⟨kind, hEdge⟩ := Graph.hasInput_iff_edge.mp hInput
    exact ⟨_, (hL.hasInput_iff hStays).mpr ⟨kind, u, hEdge, rfl⟩⟩
  · exact absurd hHead (hL.not_isHead_of_isChange hIs)
  · obtain ⟨a, ha, hArm | rfl⟩ := hL.isHead_part hPart hHead
    · exact ⟨_, ((hL.forked ha).input_arm hArm).mpr rfl⟩
    · exact ⟨_, (hL.forked ha).input_merge.mpr (.inl rfl)⟩

/-! ## Blocks -/

/-- What closes a block closes one still. -/
theorem closes (hCloses : g.Closes e i x) : h.Closes e i (ρ .control x) := by
  cases hCloses with
  | ends hEnd =>
    rw [hL.fixed hEnd.stays]
    exact .ends ((hL.isEnd_iff hEnd.stays).mpr hEnd)
  | @jumps i x n hn hOp hx =>
    have hHead : g.IsHead e := ⟨n, hn, by rw [hOp]; rfl⟩
    have hKind : n.edgeKind i = .control := hHead.edge hL.well ⟨n, hn, Node.edge_of_getElem? hx⟩
    refine .jumps (hL.node hn (by rw [hOp]; rfl)) hOp ?_
    rw [Node.rewire_getElem?, hx, hKind]
    rfl

/-- The piece of a block at a mark ends where the next change splits the block, or where the block
is closed. -/
theorem ended_mark (hLive : g.Live exit k) (hMark : g.IsHead k ∨ Splits arms k) :
    ∃ e i x, h.Live exit e ∧ h.Closes e i x ∧ h.ControlHead x (ρ .control k) := by
  obtain ⟨b, hHead⟩ : ∃ b, g.ControlHead k b := by
    rcases hMark with hHead | hSplits
    · exact ⟨k, .self hHead⟩
    · exact hL.controlHead_splits hLive hSplits
  obtain ⟨e, i, x, hLiveE, hCloses, hHeadX, hFlows⟩ := hL.threaded.closing hL.well hL.acyclic
    hL.schedulable (hHead.live hL.well hLive) hHead.2
  have hChain : Relation.ReflTransGen g.ControlStep x k := by
    rcases hMark with hIs | hSplits
    · rw [← hHead.eq_self hIs]
      exact hHeadX.1
    · exact hL.threaded.last hLive hSplits hHead hLiveE hCloses hHeadX
  -- From the mark on, nothing splits the block before it is closed, or some change does.
  rcases Graph.FirstMark.next hChain hMark with hFirst | ⟨c, u, hChain, hSplits, hStep, hFirst⟩
  · have hLed := hL.live hFlows
    rw [hL.fixed hCloses.stays] at hLed
    exact ⟨e, i, _, hLed, hL.closes hCloses, hL.controlHead hFirst⟩
  · obtain ⟨a, ha⟩ := Option.isSome_iff_exists.mp hSplits
    have hForked := hL.forked ha
    have hLiveC : g.Live exit c := (hCloses.live hLiveE).trans
      (Relation.ReflTransGen.mono (fun _ _ hStep => hStep.hasInput hL.well) _ _ hChain)
    refine ⟨a.branch, 0, a.branch, hL.live_has hLiveC ha (.inl rfl),
      .ends (.of_hasOp hForked.hasOp_branch (.inl rfl)), .step hForked.step ?_⟩
    rw [hL.base hStep]
    exact hL.controlHead hFirst

/-- A head that is live has its block closed. -/
theorem ended (hLive : h.Live exit w) (hHead : h.IsHead w) :
    ∃ e i x, h.Live exit e ∧ h.Closes e i x ∧ h.ControlHead x w := by
  rcases hL.live_node_cases hLive with ⟨hWas, hStays⟩ | hIs | ⟨c, hIs, hLiveC, hPart⟩
  · have hEnded := hL.ended_mark hWas (.inl ((hL.isHead_iff hStays).mp hHead))
    rwa [hL.fixed hStays] at hEnded
  · exact absurd hHead (hL.not_isHead_of_isChange hIs)
  · obtain ⟨a, ha, hArm | rfl⟩ := hL.isHead_part hPart hHead
    · -- An arm jumps to the merge.
      have hMerge := hL.live_has hLiveC ha (.inr (.inr (.inr rfl)))
      rcases hArm with rfl | rfl
      · exact ⟨a.merge, 0, _, hMerge, .jumps (hL.forked ha).merge rfl rfl, .self hHead⟩
      · exact ⟨a.merge, 1, _, hMerge, .jumps (hL.forked ha).merge rfl rfl, .self hHead⟩
    · have hEnded := hL.ended_mark hLiveC (.inr (Option.isSome_iff_exists.mpr ⟨a, ha⟩))
      rwa [(hL.graft hIs).merges a ha] at hEnded

/-! ### Blocks are closed in one way -/

/-- The branches, arms and merges of the fragments are new. -/
theorem not_has_of_node (hn : g.node? w = some n) (ha : arms c = some a) : ¬a.Has w := fun hHas =>
  absurd (Graph.node?_lt hn).2 (Int.not_lt.mpr (hL.grafted.fresh ha hHas))

/-- The heads of before and the merges of the fragments are told apart. -/
theorem mark_unique (hk : g.IsHead k ∨ Splits arms k) (hj : g.IsHead j ∨ Splits arms j)
    (hSame : ρ .control k = ρ .control j) : k = j := by
  have hMerge : ∀ {c a}, arms c = some a → ρ .control c = a.merge := fun ha =>
    (hL.graft (hL.grafted.done ha).1).merges _ ha
  have hApart : ∀ {k c a}, g.IsHead k → arms c = some a → k ≠ a.merge := by
    rintro k c a ⟨n, hn, -⟩ ha hEq
    exact hL.not_has_of_node hn ha (.inr (.inr (.inr hEq)))
  -- a head stays itself and a change goes to its merge, so four pairs of marks are told apart
  rcases hk with hHead | hSplits <;> rcases hj with hHead' | hSplits'
  · rwa [hL.fixed hHead.stays, hL.fixed hHead'.stays] at hSame
  · obtain ⟨a, ha⟩ := Option.isSome_iff_exists.mp hSplits'
    rw [hL.fixed hHead.stays, hMerge ha] at hSame
    exact absurd hSame (hApart hHead ha)
  · obtain ⟨a, ha⟩ := Option.isSome_iff_exists.mp hSplits
    rw [hL.fixed hHead'.stays, hMerge ha] at hSame
    exact absurd hSame.symm (hApart hHead' ha)
  · obtain ⟨a, ha⟩ := Option.isSome_iff_exists.mp hSplits
    obtain ⟨a', ha'⟩ := Option.isSome_iff_exists.mp hSplits'
    rw [hMerge ha, hMerge ha'] at hSame
    exact hL.grafted.apart ha ha' (.inr (.inr (.inr rfl))) (.inr (.inr (.inr hSame)))

/-- An arm is no head of before and no merge. -/
theorem mark_ne_arm (hk : g.IsHead k ∨ Splits arms k) (ha : arms c = some a) (hArm : a.IsArm w) :
    ρ .control k ≠ w := by
  rintro rfl
  rcases hk with hHead | hSplits
  · rw [hL.fixed hHead.stays] at hArm
    obtain ⟨n, hn, -⟩ := hHead
    exact hL.not_has_of_node hn ha hArm.has
  · obtain ⟨a', ha'⟩ := Option.isSome_iff_exists.mp hSplits
    rw [(hL.graft (hL.isChange hSplits)).merges a' ha'] at hArm
    have hMerge := (hL.forked ha').merge
    rcases hArm with hEq | hEq
    · rw [hEq, (hL.forked ha).ifTrue] at hMerge
      cases hMerge
    · rw [hEq, (hL.forked ha).ifFalse] at hMerge
      cases hMerge

/-- What closes a block: what closed one, where its last piece ends; a branch, where a change splits
a block; and a merge, where an arm ends. -/
inductive Closer (g : Graph) (exit : NodeId) (ρ : EdgeKind → NodeId → NodeId)
    (arms : NodeId → Option Arms) : NodeId → Nat → NodeId → Prop
  | closes {e x k : NodeId} {i : Nat} (hLive : g.Live exit e) (hCloses : g.Closes e i x)
      (hMark : g.FirstMark (Splits arms) x k) : Closer g exit ρ arms e i (ρ .control k)
  | splits {c u k : NodeId} {a : Arms} (ha : arms c = some a) (hLive : g.Live exit c)
      (hStep : g.ControlStep c u) (hMark : g.FirstMark (Splits arms) u k) :
      Closer g exit ρ arms a.branch 0 (ρ .control k)
  | jumps {c w : NodeId} {i : Nat} {a : Arms} (ha : arms c = some a) (hArm : a.IsArm w)
      (hAt : [a.ifTrue, a.ifFalse][i]? = some w) : Closer g exit ρ arms a.merge i w

/-- What closes a block closed one. -/
theorem closes_cases (hStays : g.Stays e) (hCloses : h.Closes e i y) :
    ∃ x, g.Closes e i x ∧ ρ .control x = y := by
  cases hCloses with
  | ends hEnd => exact ⟨e, .ends ((hL.isEnd_iff hStays).mp hEnd), hL.fixed hStays⟩
  | jumps hm hOp hy =>
    obtain ⟨n, hn, hIs⟩ := hStays
    obtain rfl := Option.some.inj ((hL.node hn hIs).symm.trans hm)
    rw [Node.rewire_getElem?] at hy
    obtain ⟨x, hx, rfl⟩ := Option.map_eq_some_iff.mp hy
    have hOp : n.op = .merge := hOp
    have hHead : g.IsHead e := ⟨n, hn, by rw [hOp]; rfl⟩
    rw [hHead.edge hL.well ⟨n, hn, Node.edge_of_getElem? hx⟩]
    exact ⟨x, .jumps hn hOp hx, rfl⟩

/-- The parts of a fragment that close blocks are its branch and its merge. -/
theorem closes_part (hPart : Part h (site g ρ c) (arms c) e) (hCloses : h.Closes e i y) :
    ∃ a, arms c = some a ∧ ((e = a.branch ∧ i = 0 ∧ y = a.branch) ∨
      (e = a.merge ∧ [a.ifTrue, a.ifFalse][i]? = some y)) := by
  have hMerge : ∀ {m}, h.node? e = some m → m.op = .merge → h.IsHead e := fun hm hOp =>
    ⟨_, hm, by rw [hOp]; rfl⟩
  -- Of all parts only the branch ends a block, and only the merge is jumped to.
  cases hPart with
  | hangs _ hHangs =>
    cases hCloses with
    | ends hEnd => exact absurd hEnd hHangs.not_isEnd
    | jumps hm hOp _ => exact absurd (hMerge hm hOp) hHangs.not_isHead
  | joined ha hJoined =>
    cases hCloses with
    | ends hEnd => exact absurd hEnd hJoined.not_isEnd
    | jumps hm hOp _ => exact absurd (hMerge hm hOp) hJoined.step.not_isHead
  | @forks a ha hHas =>
    have hForked := hL.forked ha
    refine ⟨a, ha, ?_⟩
    cases hCloses with
    | ends hEnd =>
      rcases hHas with rfl | hArm | hArm | rfl
      · exact .inl ⟨rfl, rfl, rfl⟩
      · exact absurd (hForked.isHead_arm (.inl hArm)) hEnd.not_isHead
      · exact absurd (hForked.isHead_arm (.inr hArm)) hEnd.not_isHead
      · exact absurd hForked.isHead_merge hEnd.not_isHead
    | jumps hm hOp hy =>
      have hIs : h.HasOp e .merge := ⟨_, hm, hOp⟩
      rcases hHas with rfl | rfl | rfl | rfl
      · cases hForked.hasOp_branch.unique hIs
      · cases Graph.HasOp.unique ⟨_, hForked.ifTrue, rfl⟩ hIs
      · cases Graph.HasOp.unique ⟨_, hForked.ifFalse, rfl⟩ hIs
      · obtain rfl := Option.some.inj (hForked.merge.symm.trans hm)
        exact .inr ⟨rfl, hy⟩

/-- What closes a block closed one before or belongs to a fragment. -/
theorem closer (hLive : h.Live exit e) (hCloses : h.Closes e i y) (hHead : h.ControlHead y w) :
    Closer g exit ρ arms e i w := by
  rcases hL.live_node_cases hLive with ⟨hWas, hStays⟩ | hIs | ⟨c, hIs, hLiveC, hPart⟩
  · -- A node that stays closes what it closed, at the end of the last piece.
    obtain ⟨x, hClosed, rfl⟩ := hL.closes_cases hStays hCloses
    obtain ⟨b, hLeads⟩ := hL.schedulable.controlHead_of_closes hL.well hWas hClosed
    obtain ⟨k, hMark⟩ := Graph.FirstMark.exists_of_head hLeads
    rw [hHead.unique (hL.controlHead hMark)]
    exact .closes hWas hClosed hMark
  · cases hCloses with
    | ends hEnd => exact absurd hEnd (hL.not_isEnd_of_isChange hIs)
    | jumps hm hOp _ =>
      exact absurd ⟨_, hm, by rw [hOp]; rfl⟩ (hL.not_isHead_of_isChange hIs)
  · obtain ⟨a, ha, ⟨rfl, rfl, rfl⟩ | ⟨rfl, hAt⟩⟩ := hL.closes_part hPart hCloses
    · -- The branch closes the piece in front of the change.
      obtain ⟨u, hStep⟩ := (hIs.floats_or_step hL.well).resolve_left
        (hL.anchored (Option.isSome_iff_exists.mpr ⟨a, ha⟩)).not_floats
      obtain ⟨b, hLeads⟩ := hL.schedulable.controlHead hL.well hLiveC
        (hL.checked hIs hLiveC).notExit hStep.entered
      obtain ⟨k, hMark⟩ := Graph.FirstMark.exists_of_head (hLeads.of_chain (.single hStep))
      have hLed := hL.controlHead hMark
      rw [← hL.base hStep] at hLed
      rw [hHead.unique (hLed.step (hL.forked ha).step)]
      exact .splits ha hLiveC hStep hMark
    · -- The merge closes the block of an arm.
      have hArm : a.IsArm y := (List.mem_cons.mp (List.mem_of_getElem? hAt)).imp_right
        List.mem_singleton.mp
      rw [hHead.eq_self ((hL.forked ha).isHead_arm hArm)]
      exact .jumps ha hArm hAt

/-- An arm belongs to one fragment, at one of its two places. -/
theorem arm_unique {a' : Arms} {i' : Nat} (ha : arms c = some a) (ha' : arms b = some a')
    (hArm : a.IsArm w) (hArm' : a'.IsArm w) (hAt : [a.ifTrue, a.ifFalse][i]? = some w)
    (hAt' : [a'.ifTrue, a'.ifFalse][i']? = some w) : a = a' ∧ i = i' := by
  obtain rfl := hL.grafted.apart ha ha' hArm.has hArm'.has
  obtain rfl := Option.some.inj (ha.symm.trans ha')
  have hForked := hL.forked ha
  have hNe : a.ifTrue ≠ a.ifFalse := by
    intro hEq
    have hTrue := hForked.ifTrue
    rw [hEq, hForked.ifFalse] at hTrue
    cases hTrue
  have hNodup : [a.ifTrue, a.ifFalse].Nodup := by simpa using hNe
  have hLt := (List.getElem?_eq_some_iff.mp hAt).1
  exact ⟨rfl, (List.getElem?_inj hLt hNodup).mp (hAt.trans hAt'.symm)⟩

/-- No block is closed in two ways. -/
theorem once {i' : Nat} {w' : NodeId} (hCloser : Closer g exit ρ arms e i w)
    (hCloser' : Closer g exit ρ arms p i' w') (hSame : w = w') : e = p ∧ i = i' := by
  -- A piece of a block ends in one way, and the arms are no such pieces.
  have hClosed : ∀ {e x k c u j i}, g.Live exit e → g.Closes e i x →
      g.FirstMark (Splits arms) x k → g.Live exit c → Splits arms c → g.ControlStep c u →
      g.FirstMark (Splits arms) u j → ρ .control k ≠ ρ .control j := by
    intro e x k c u j i hLiveE hCloses hMarkX hLive hSplits hStep hMark hSame
    obtain rfl := hL.mark_unique hMarkX.mark hMark.mark hSame
    obtain ⟨b, hHead⟩ := hL.controlHead_splits hLive hSplits
    exact hL.threaded.not_splits_of_closes hL.well hL.acyclic hLiveE hCloses hMarkX hLive hSplits
      hHead hStep hMark
  have hSplits : ∀ {c a}, arms c = some a → Splits arms c := fun ha =>
    Option.isSome_iff_exists.mpr ⟨_, ha⟩
  -- Two pieces that begin at one mark are one piece; what is left are the cases of its two ends.
  cases hCloser with
  | closes hLive hCloses hMark =>
    cases hCloser' with
    | closes hLive' hCloses' hMark' =>
      obtain rfl := hL.mark_unique hMark.mark hMark'.mark hSame
      obtain ⟨b, hHead⟩ := hL.schedulable.controlHead_of_closes hL.well hLive hCloses
      exact hL.schedulable.once hLive hLive' hCloses hCloses' hHead
        ((hMark.controlHead hHead).of_mark hMark')
    | splits ha hLive' hStep hMark' =>
      exact absurd hSame (hClosed hLive hCloses hMark hLive' (hSplits ha) hStep hMark')
    | jumps ha hArm _ => exact absurd hSame (hL.mark_ne_arm hMark.mark ha hArm)
  | splits ha hLive hStep hMark =>
    cases hCloser' with
    | closes hLive' hCloses hMark' =>
      exact absurd hSame.symm (hClosed hLive' hCloses hMark' hLive (hSplits ha) hStep hMark)
    | splits ha' hLive' hStep' hMark' =>
      obtain rfl := hL.mark_unique hMark.mark hMark'.mark hSame
      obtain ⟨b, hHead⟩ := hL.controlHead_splits hLive (hSplits ha)
      obtain rfl := hL.threaded.splits_unique hL.well hL.acyclic hL.schedulable hLive (hSplits ha)
        hHead hStep hMark hLive' (hSplits ha') hStep' hMark'
      obtain rfl := Option.some.inj (ha.symm.trans ha')
      exact ⟨rfl, rfl⟩
    | jumps ha' hArm _ => exact absurd hSame (hL.mark_ne_arm hMark.mark ha' hArm)
  | jumps ha hArm hAt =>
    cases hCloser' with
    | closes hLive' hCloses hMark =>
      exact absurd hSame.symm (hL.mark_ne_arm hMark.mark ha hArm)
    | splits ha' hLive' hStep hMark => exact absurd hSame.symm (hL.mark_ne_arm hMark.mark ha hArm)
    | jumps ha' hArm' hAt' =>
      subst hSame
      obtain ⟨rfl, hEq⟩ := hL.arm_unique ha ha' hArm hArm' hAt hAt'
      exact ⟨rfl, hEq⟩

/-! ### Arms -/

/-- The arms of a branch are those that it had, or those of a fragment. -/
theorem arm_cases (hOps : op = .ifTrue ∨ op = .ifFalse) (hArm : h.IsArm exit e op p) :
    (g.IsArm exit e op p ∧ g.Stays e) ∨ ∃ c a, g.Live exit c ∧ arms c = some a ∧ e = a.branch ∧
      (op = .ifTrue ∧ p = a.ifTrue ∨ op = .ifFalse ∧ p = a.ifFalse) := by
  obtain ⟨hLive, hOp, hInput⟩ := id hArm
  have hHead := hArm.isHead hOps
  -- an arm of the lowered graph was an arm before, or belongs to the diamond of a change
  rcases hL.live_node_cases hLive with ⟨hWas, hStays⟩ | hIs | ⟨c, hIs, hLiveC, hPart⟩
  · obtain ⟨kind, u, hEdge, rfl⟩ := (hL.hasInput_iff hStays).mp hInput
    have hWasArm : g.IsArm exit u op p :=
      ⟨hWas, (hL.hasOp_iff hStays).mp hOp, Graph.hasInput_iff_edge.mpr ⟨kind, hEdge⟩⟩
    have hBranch := hL.schedulable.arm_of hOps hWasArm
    have hKeeps : g.Stays u := Graph.stays_of_op (P := fun op => op = .branch) hBranch nofun
    rw [hL.fixed hKeeps]
    exact .inl ⟨hWasArm, hKeeps⟩
  · exact absurd hInput (hL.not_hasInput_of_isChange hIs)
  · obtain ⟨a, ha, hIsArm | rfl⟩ := hL.isHead_part hPart hHead
    · have hForked := hL.forked ha
      refine .inr ⟨c, a, hLiveC, ha, (hForked.input_arm hIsArm).mp hInput, ?_⟩
      rcases hIsArm with rfl | rfl
      · exact .inl ⟨hOp.unique ⟨_, hForked.ifTrue, rfl⟩, rfl⟩
      · exact .inr ⟨hOp.unique ⟨_, hForked.ifFalse, rfl⟩, rfl⟩
    · have hMerge := hOp.unique ⟨_, (hL.forked ha).merge, rfl⟩
      rcases hOps with rfl | rfl <;> cases hMerge

/-- Only a branch has arms. -/
theorem arm_of (hOps : op = .ifTrue ∨ op = .ifFalse) (hArm : h.IsArm exit e op p) :
    h.HasOp e .branch := by
  rcases hL.arm_cases hOps hArm with ⟨hWas, hStays⟩ | ⟨c, a, -, ha, rfl, -⟩
  · exact (hL.hasOp_iff hStays).mpr (hL.schedulable.arm_of hOps hWas)
  · exact (hL.forked ha).hasOp_branch

/-- A branch that stays is not the branch of a fragment. -/
theorem branch_ne (hStays : g.Stays e) (ha : arms c = some a) : e ≠ a.branch := by
  intro hEq
  obtain ⟨n, hn, -⟩ := hStays
  exact hL.not_has_of_node hn ha (.inl hEq)

/-- A live branch has each of its arms once, those of the fragments too. -/
theorem arms_unique (hLive : h.Live exit e) (hOp : h.HasOp e .branch)
    (hOps : op = .ifTrue ∨ op = .ifFalse) : ∃! p, h.IsArm exit e op p := by
  rcases hL.live_node_cases hLive with ⟨hWas, hStays⟩ | hIs | ⟨c, hIs, hLiveC, hPart⟩
  · obtain ⟨p, hArm, hOnly⟩ := hL.schedulable.arms hWas ((hL.hasOp_iff hStays).mp hOp) hOps
    have hHead := hArm.isHead hOps
    obtain ⟨kind, hEdge⟩ := Graph.hasInput_iff_edge.mp hArm.2.2
    have hLed := hL.live
      (hL.threaded.flowsOut_of_isHead hL.well hL.acyclic hL.schedulable hArm.1 hHead)
    rw [hL.fixed hHead.stays] at hLed
    refine ⟨p, ⟨hLed, (hL.hasOp_iff hHead.stays).mpr hArm.2.1,
      (hL.hasInput_iff hHead.stays).mpr ⟨kind, e, hEdge, hL.fixed hStays⟩⟩, ?_⟩
    intro q hq
    rcases hL.arm_cases hOps hq with ⟨hWasArm, -⟩ | ⟨c, a, -, ha, hEq, -⟩
    · exact hOnly q hWasArm
    · exact absurd hEq (hL.branch_ne hStays ha)
  · exact absurd (.of_hasOp hOp (.inl rfl)) (hL.not_isEnd_of_isChange hIs)
  · obtain ⟨a, ha, ⟨rfl, -⟩ | ⟨rfl, -⟩⟩ :=
      hL.closes_part hPart (.ends (.of_hasOp hOp (.inl rfl)))
    · have hForked := hL.forked ha
      -- What takes the branch of a fragment is an arm of it.
      have hOnly : ∀ q, h.IsArm exit a.branch op q →
          op = .ifTrue ∧ q = a.ifTrue ∨ op = .ifFalse ∧ q = a.ifFalse := by
        intro q hq
        rcases hL.arm_cases hOps hq with ⟨-, hStays⟩ | ⟨b, a', -, ha', hEq, hCases⟩
        · exact absurd rfl (hL.branch_ne hStays ha)
        · obtain rfl := hL.grafted.apart ha ha' (.inl rfl) (.inl hEq)
          obtain rfl := Option.some.inj (ha.symm.trans ha')
          exact hCases
      rcases hOps with rfl | rfl
      · refine ⟨a.ifTrue, ⟨hL.live_has hLiveC ha (.inr (.inl rfl)), ⟨_, hForked.ifTrue, rfl⟩,
          (hForked.input_arm (.inl rfl)).mpr rfl⟩, fun q hq => ?_⟩
        exact ((hOnly q hq).resolve_right nofun).2
      · refine ⟨a.ifFalse, ⟨hL.live_has hLiveC ha (.inr (.inr (.inl rfl))),
          ⟨_, hForked.ifFalse, rfl⟩, (hForked.input_arm (.inr rfl)).mpr rfl⟩, fun q hq => ?_⟩
        exact ((hOnly q hq).resolve_left nofun).2
    · cases hOp.unique ⟨_, (hL.forked ha).merge, rfl⟩

/-! ## Places -/

/-- A listed part of a fragment hangs on a control. -/
theorem hangs_of_checked (hPart : Part h (site g ρ c) (arms c) w) (hChecked : h.Checked exit w) :
    ∃ k, Level (site g ρ c) (arms c) k ∧ Hangs h (site g ρ c) k w := by
  cases hPart with
  | hangs hk hHangs => exact ⟨_, hk, hHangs⟩
  | joined ha hJoined => exact absurd hJoined.isPhi hChecked.notPhi
  | @forks a ha hHas =>
    have hForked := hL.forked ha
    rcases hHas with rfl | hArm | hArm | rfl
    · exact absurd (.of_hasOp hForked.hasOp_branch (.inl rfl)) hChecked.notEnd
    · exact absurd (hForked.isHead_arm (.inl hArm)) hChecked.notHead
    · exact absurd (hForked.isHead_arm (.inr hArm)) hChecked.notHead
    · exact absurd hForked.isHead_merge hChecked.notHead

/-- What a node with a control input takes, and hangs on a control with, rests on nodes whose blocks
cover that of the control. -/
theorem covers_of_part {b' : NodeId} (hIs : g.IsChange c) (hLive : g.Live exit c)
    (hk : Level (site g ρ c) (arms c) k) (hHangs : Hangs h (site g ρ c) k w)
    (hEntered : h.Entered w) (hInput : h.HasInput w y) (hRests : h.RestsIn y b)
    (hLeads : h.ControlHead w b') : h.Covers b b' := by
  obtain ⟨k', m, hk', hm, hPlain, hControl, hEdges⟩ := hHangs.cases_node
  obtain ⟨m', hm', hSome⟩ := hEntered
  obtain rfl := Option.some.inj (hm.symm.trans hm')
  obtain ⟨hPins, hIn⟩ := hControl hSome
  have hLevel : Level (site g ρ c) (arms c) k' := hk.of_step hk'
  have hStep : h.ControlStep w k' := ⟨m, hm, Operator.isHead_of_isPlain hPlain, hSome, hIn⟩
  have hLeads : h.ControlHead k' b' := hLeads.of_chain (.single hStep)
  have hStarts : h.IsHead b := by
    obtain ⟨z, -, -, hOn⟩ := hRests
    exact hOn.2
  obtain ⟨m', hm', hy⟩ := hInput
  obtain rfl := Option.some.inj (hm.symm.trans hm')
  obtain ⟨kind, hEdge⟩ := Node.mem_inputs_iff.mp hy
  -- The input is the control itself, what the change took, or another part.
  rcases hEdges _ hEdge with hEq | ⟨z, hTaken, hEq⟩ | hNext
  · cases hEq
    rw [hRests.eq_of_controlHead hL.wellFormed hLeads]
    exact .self
  · have hEq : ρ kind z = y := hEq
    rw [← hEq] at hRests
    exact (hLevel.covers (fun a ha => hL.forked ha)
      (hL.covers_of_takes hIs hLive hPins hTaken hRests)).at_head hStarts hLeads
  · exact (hL.covers_of_hangs hIs hLive hPins hLevel hNext hRests).at_head hStarts hLeads

/-- What a node with control takes rests on blocks that cover its own. -/
theorem anchored_covers {b' : NodeId} (hChecked : h.Checked exit w) (hInput : h.HasInput w y)
    (hRests : h.RestsIn y b) (hEntered : h.Entered w) (hLeads : h.ControlHead w b') :
    h.Covers b b' := by
  rcases hL.live_node_cases hChecked.live with ⟨hWas, hStays⟩ | hIs | ⟨c, hIs, hLiveC, hPart⟩
  · have hWasChecked : g.Checked exit w :=
      ⟨hWas, hChecked.notExit, mt (hL.isHead_iff hStays).mpr hChecked.notHead,
        mt (hL.isEnd_iff hStays).mpr hChecked.notEnd, mt (hL.isPhi_iff hStays).mpr hChecked.notPhi⟩
    have hEntered := (hL.entered_iff hStays).mp hEntered
    obtain ⟨kind, x, hEdge, rfl⟩ := (hL.hasInput_iff hStays).mp hInput
    have hTakes : g.HasInput w x := Graph.hasInput_iff_edge.mpr ⟨kind, hEdge⟩
    obtain ⟨k, hBound, hCovers⟩ := hL.bound (hWas.input hTakes) (hL.ne_exit hWas hTakes) hRests
    -- The start covers all that is live, and any other mark covers what takes what rests there.
    have hAbove : g.Covers k w := by
      rcases hBound with rfl | hAt
      · obtain ⟨b, hHead⟩ := hL.schedulable.controlHead hL.well hWas hChecked.notExit hEntered
        exact hL.schedulable.covers_start hL.well hL.acyclic hWas hHead
      · exact hL.threaded.covers_of_restsAt hL.well hL.acyclic hL.schedulable hWasChecked hEntered
          hTakes hAt
    have hLed := hL.covers hAbove
    rw [hL.fixed hStays] at hLed
    exact hCovers.trans (hLed.at_head (hL.isHead_bound hBound) hLeads)
  · exact absurd hInput (hL.not_hasInput_of_isChange hIs)
  · obtain ⟨k, hk, hHangs⟩ := hL.hangs_of_checked hPart hChecked
    exact hL.covers_of_part hIs hLiveC hk hHangs hEntered hInput hRests hLeads

/-- The marks that a floating node is bound to cover one another in a row, and so do the heads that
cover them. -/
theorem comparable_of_bound {b' : NodeId} (hLive : g.Live exit w) (hNe : w ≠ exit)
    (hFloats : g.Floats w) (hk : Bound g arms w k) (hj : Bound g arms w j)
    (hb : h.Covers b (ρ .control k)) (hb' : h.Covers b' (ρ .control j)) :
    h.Covers b b' ∨ h.Covers b' b := by
  have hStart : ∀ {j}, Bound g arms w j → g.Covers Graph.start j := by
    rintro j (rfl | ⟨y, hOn, hEntered, hMark⟩)
    · exact .self
    · obtain ⟨hLiveJ, b, -, hHead⟩ := hL.threaded.exists_controlHead hL.well hL.acyclic
        hL.schedulable hLive (hOn.below hFloats hEntered) hEntered hMark
      exact hL.schedulable.covers_start hL.well hL.acyclic hLiveJ hHead
  -- the start, the one bound that is no mark, lies above everything
  have hMarks : g.Covers k j ∨ g.Covers j k := by
    rcases id hk with rfl | hAtK
    · exact .inl (hStart hj)
    · rcases id hj with rfl | hAtJ
      · exact .inr (hStart hk)
      · exact hL.threaded.comparable hL.well hL.acyclic hL.schedulable hLive hNe hFloats hAtK hAtJ
  -- now along the images: from `b` through the upper mark to the lower
  rcases hMarks with hCovers | hCovers
  · exact (hb.trans (hL.covers hCovers)).comparable hb'
  · exact hb.comparable (hb'.trans (hL.covers hCovers))

/-- The blocks that a floating node rests in lie on one way. -/
theorem floating {b' : NodeId} (hLive : h.Live exit w) (hNe : w ≠ exit) (hFloats : h.Floats w)
    (hRests : h.RestsIn w b) (hRests' : h.RestsIn w b') : h.Covers b b' ∨ h.Covers b' b := by
  rcases hL.live_node_cases hLive with ⟨hWas, hStays⟩ | hIs | ⟨c, hIs, hLiveC, hPart⟩
  · have hLed : ∀ {b}, h.RestsIn w b → h.RestsIn (ρ .value w) b := by
      intro b hOn
      rwa [hL.fixed hStays]
    obtain ⟨k, hk, hCovers⟩ := hL.bound hWas hNe (hLed hRests)
    obtain ⟨j, hj, hCovers'⟩ := hL.bound hWas hNe (hLed hRests')
    exact hL.comparable_of_bound hWas hNe ((hL.floats_iff hStays).mp hFloats) hk hj hCovers hCovers'
  · exact absurd hRests (hL.not_restsIn_of_isChange hIs)
  · -- A join and the diamond have control; what hangs on a control rests where that is.
    cases hPart with
    | joined ha hJoined => exact absurd hFloats hJoined.step.entered.not_floats
    | forks ha hHas => exact absurd hFloats ((hL.forked ha).entered hHas).not_floats
    | @hangs k hk hHangs =>
      by_cases hPins : (site g ρ c).pins
      · exact (hL.covers_of_hangs hIs hLiveC hPins hk hHangs hRests).comparable
          (hL.covers_of_hangs hIs hLiveC hPins hk hHangs hRests')
      · -- Without a control input the nodes of the fragment rest where the change does.
        have hFree : g.Floats c := (hIs.floats_or_step hL.well).resolve_right
          fun ⟨u, hStep⟩ => hPins (.inl hStep.entered)
        have hBound : ∀ {b}, h.RestsIn w b → ∃ k, Bound g arms c k ∧ h.Covers b (ρ .control k) := by
          intro b hOn
          obtain ⟨kind, x, ⟨y, hEdge, rfl⟩, hOn⟩ :=
            (hHangs.rests hL.wellFormed hOn).resolve_left fun hPinned => hPins hPinned.1
          have hTakes : g.HasInput c y := Graph.hasInput_iff_edge.mpr ⟨kind, hEdge⟩
          obtain ⟨k, hk, hCovers⟩ := hL.bound (hLiveC.input hTakes) (hL.ne_exit hLiveC hTakes) hOn
          exact ⟨k, hk.imp_right (.of_input hFree hTakes), hCovers⟩
        obtain ⟨k, hk, hCovers⟩ := hBound hRests
        obtain ⟨j, hj, hCovers'⟩ := hBound hRests'
        exact hL.comparable_of_bound hLiveC (hL.checked hIs hLiveC).notExit hFree hk hj hCovers
          hCovers'

/-! ## Ends -/

/-- What ends a block and was there ended one. -/
theorem isEnd_of_node (hn : ∃ n, g.node? e = some n) (hEnd : h.IsEnd e) : g.IsEnd e := by
  obtain ⟨n, hn⟩ := hn
  rcases Graph.stays_or_isChange hn with hStays | hDead
  · exact (hL.isEnd_iff hStays).mp hEnd
  · exact absurd hEnd (hL.not_isEnd_of_isChange hDead)

/-- No change takes what ends a block. -/
theorem not_isEnd_of_change (hIs : g.IsChange c) (hLive : g.Live exit c) (hInput : g.HasInput c e) :
    ¬h.IsEnd e := by
  intro hEnd
  have hWas := hL.isEnd_of_node (hL.well.node_of_input hInput) hEnd
  have hChecked := hL.checked hIs hLive
  rcases hL.threaded.sealed hLive hInput hWas with hHead | hPhi | hExit
  · exact hChecked.notHead hHead
  · exact hChecked.notPhi hPhi
  · exact hChecked.notExit hExit

/-- No edge of a change, and no fragment, leads to what ends a block. -/
theorem not_isEnd_of_edge (hIs : g.IsChange c) (hLive : g.Live exit c) (hInput : g.HasInput c x) :
    ¬h.IsEnd (ρ kind x) := by
  intro hEnd
  rcases hL.edge_isEnd hEnd with hSame | ⟨b, hIsB, hDown, hTakes⟩
  · rw [hSame] at hEnd
    exact hL.not_isEnd_of_change hIs hLive hInput hEnd
  · exact hL.not_isEnd_of_change hIsB ((hLive.input hInput).trans hDown) hTakes hEnd

/-- The controls of a live fragment end no block. -/
theorem not_isEnd_of_level (hIs : g.IsChange c) (hLive : g.Live exit c)
    (hk : Level (site g ρ c) (arms c) k) : ¬h.IsEnd k := by
  rcases hk with rfl | ⟨a, ha, hArm⟩
  · rcases hIs.floats_or_step hL.well with hFloats | ⟨u, hStep⟩
    · rw [site_base_of_floats hFloats]
      exact fun hEnd => hEnd.not_isHead (.of_hasOp hL.hasOp_start rfl)
    · rw [hL.base hStep]
      exact hL.not_isEnd_of_edge hIs hLive (hStep.hasInput hL.well)
  · exact fun hEnd => hEnd.not_isHead ((hL.forked ha).isHead_arm hArm)

/-- No listed node takes what ends a block. -/
theorem not_isEnd_of_checked (hChecked : h.Checked exit w) (hInput : h.HasInput w e) :
    ¬h.IsEnd e := by
  intro hEnd
  rcases hL.live_node_cases hChecked.live with ⟨hWas, hStays⟩ | hIs | ⟨c, hIs, hLiveC, hPart⟩
  · obtain ⟨kind, x, hEdge, rfl⟩ := (hL.hasInput_iff hStays).mp hInput
    have hTakes : g.HasInput w x := Graph.hasInput_iff_edge.mpr ⟨kind, hEdge⟩
    rcases hL.edge_isEnd hEnd with hSame | ⟨c, hIs, hDown, hFurther⟩
    · rw [hSame] at hEnd
      -- Only heads, phis and the exit take the end of a block.
      rcases hL.threaded.sealed hWas hTakes
        (hL.isEnd_of_node (hL.well.node_of_input hTakes) hEnd) with hHead | hPhi | hExit
      · exact hChecked.notHead ((hL.isHead_iff hStays).mpr hHead)
      · exact hChecked.notPhi ((hL.isPhi_iff hStays).mpr hPhi)
      · exact hChecked.notExit hExit
    · exact hL.not_isEnd_of_change hIs ((hWas.input hTakes).trans hDown) hFurther hEnd
  · exact hL.not_hasInput_of_isChange hIs hInput
  · obtain ⟨k, hk, hHangs⟩ := hL.hangs_of_checked hPart hChecked
    obtain ⟨k', m, hk', hm, -, -, hEdges⟩ := hHangs.cases_node
    obtain ⟨m', hm', hy⟩ := hInput
    obtain rfl := Option.some.inj (hm.symm.trans hm')
    obtain ⟨kind, hEdge⟩ := Node.mem_inputs_iff.mp hy
    -- The input is the control itself, what the change took, or another part.
    rcases hEdges _ hEdge with hEq | ⟨x, hTaken, hEq⟩ | hNext
    · cases hEq
      exact hL.not_isEnd_of_level hIs hLiveC (hk.of_step hk') hEnd
    · have hEq : ρ kind x = e := hEq
      rw [← hEq] at hEnd
      exact hL.not_isEnd_of_edge hIs hLiveC (Graph.hasInput_iff_edge.mpr ⟨kind, hTaken⟩) hEnd
    · exact hNext.not_isEnd hEnd

/-! ## The graph behind the pass -/

/-- A graph that can be scheduled, and whose control is threaded through the changes that branch,
can be scheduled when the pass is through. -/
theorem reschedulable : h.Schedulable exit where
  start := by
    have hLive := hL.live (hL.threaded.flowsOut_of_isHead hL.well hL.acyclic hL.schedulable
      hL.schedulable.start (.of_hasOp hL.start rfl))
    rwa [hL.fixed hL.stays_start] at hLive
  lands := hL.lands
  entered := hL.entered
  ended := hL.ended
  once hLive hLive' hCloses hCloses' hHead hHead' :=
    hL.once (hL.closer hLive hCloses hHead) (hL.closer hLive' hCloses' hHead') rfl
  arms := hL.arms_unique
  arm_of := hL.arm_of
  anchored := hL.anchored_covers
  floating := hL.floating
  closed hChecked hInput hEnd _ := absurd hEnd (hL.not_isEnd_of_checked hChecked hInput)

end Spliced

end Lowering
end ArmBackend
