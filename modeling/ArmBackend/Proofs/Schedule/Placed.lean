import ArmBackend.Proofs.Schedule.Least
import ArmBackend.Proofs.Schedule.Places

/-!
# Schedules place every live node

A graph is scheduled, or turned down. The schedule has every live node but the exit once: as the
head of a block, as its end or among its nodes. A node stands in the block that its control chain
leads to or, without a control input, in the deepest block of its inputs; and what a node takes
stands before it, in its block or in one that dominates it by paths.

A block in its least order has its joins first and every other node behind its inputs. Where nodes
have been placed, what a node takes is the head of the block, a join, a node that it waits for, or
in another block.

## Results

* `orderNodes_settles` — the order of one block.
* `orderBlocks_settles` — all blocks are put into order, and nothing else is changed.
* `compute_places` — what a schedule is like, for every graph whose cycles go through joins.
-/

namespace ArmBackend

namespace Schedule

variable {g : Graph} {root id x : NodeId} {f s t : Schedule} {a b : Nat} {block : Block} {n : Node}
variable {nodes : List NodeId}

/-! ## One block -/

/-- A block with its joins first, and every other node behind its inputs in the block. -/
structure Sequenced (g : Graph) (s : Schedule) (b : Nat) (block : Block) : Prop where
  joins : ∃ phis rest, block.nodes = phis ++ rest ∧ (∀ id ∈ phis, g.IsPhi id) ∧
    ∀ id ∈ rest, ¬g.IsPhi id
  before : ∀ front id rest, block.nodes = front ++ id :: rest → ¬g.IsPhi id →
    ∀ x, g.HasInput id x → s.home x = some b → x = block.head ∨ x ∈ front

/-- What the nodes of a block are. -/
theorem Placing.contents_cases (hFramed : Framed g root f) (h : Placing g root f s)
    (hBlock : s.blocks[b]? = some block) (hx : x ∈ block.contents) :
    x = block.head ∨ (x ∈ block.nodes ∧ ¬g.IsHead x) ∨ g.IsEnd x := by
  rcases List.mem_cons.mp hx with hHead | hListed
  · exact .inl hHead
  · rcases List.mem_append.mp hListed with hNodes | hControl
    · exact .inr (.inl ⟨hNodes, (h.member b block hBlock x hNodes).2.1⟩)
    · obtain ⟨old, hOld, hBare⟩ := exists_of_frame h.frame.symm hBlock
      have hEnd : old.control = some x := by
        rw [Block.control_of_bare hBare]
        exact Option.mem_toList.mp hControl
      exact .inr (.inr ((hFramed.block b old hOld).control x hEnd).2.1)

/-- A block in its least order has what its nodes take in front of them. -/
theorem Placing.sequenced (hFramed : Framed g root f) (h : Placing g root f s)
    (hBlock : s.blocks[b]? = some block) (hOrder : LeastOrder g s b block.nodes nodes) :
    Sequenced g s b { block with nodes } := by
  refine ⟨?_, ?_⟩
  · obtain ⟨rest, hSplit, hGreedy⟩ := hOrder.split
    exact ⟨joinsOf g block.nodes, rest, hSplit, fun id hId => (mem_joinsOf.mp hId).2,
      fun id hId => (mem_othersOf.mp (hGreedy.mem hId)).2⟩
  · intro front id rest hSplit hNotPhi x hx hHome
    obtain ⟨home, hAt, hContents⟩ := (h.home x b).mp hHome
    obtain rfl : block = home := Option.some.inj (hBlock.symm.trans hAt)
    -- an input placed in this block is its head, a join, or was ready before
    obtain ⟨listed, rfl, hNext⟩ := hOrder.next hSplit hNotPhi
    rcases h.contents_cases hFramed hBlock hContents with hHead | hRest
    · exact .inl hHead
    · right
      by_cases hPhi : g.IsPhi x
      · rcases hRest with ⟨hNodes, -⟩ | hEnd
        · exact List.mem_append_left _ (mem_joinsOf.mpr ⟨hNodes, hPhi⟩)
        · exact absurd hPhi hEnd.not_isPhi
      · have hNotHead : ¬g.IsHead x := by
          rcases hRest with ⟨-, hNot⟩ | hEnd
          · exact hNot
          · exact hEnd.not_isHead
        exact List.mem_append_right _ (hNext.ready x ⟨hNotPhi, hx, hHome, hNotHead, hPhi⟩)

theorem Placing.nodup_nodes (h : Placing g root f s) (hBlock : s.blocks[b]? = some block) :
    block.nodes.Nodup :=
  ((List.nodup_cons.mp (h.nodup b block hBlock)).2).sublist (List.sublist_append_left _ _)

/-- The order of a block in which nodes have been placed is its least one. -/
theorem Placing.leastOrder (h : Placing g root f s) (hBlock : s.blocks[b]? = some block)
    (hNodes : orderNodes g s b = .ok nodes) : LeastOrder g s b block.nodes nodes :=
  orderNodesBy_leastOrder ReadyQueue.scanned_popsLeast hBlock (h.nodup_nodes hBlock) hNodes

/-- The nodes of a block can be put into order, or wait for each other. -/
theorem orderNodes_settles (hWell : g.WellFormed) (hRoot : ∃ n, g.node? root = some n)
    (hFramed : Framed g root f) (h : Placing g root f s) (hBlock : s.blocks[b]? = some block) :
    Settles (g.Rejects root) (orderNodes g s b) (Sequenced g s b { block with nodes := · }) := by
  have hRead : Readable g block.nodes := by
    intro id hId
    have hLive : g.Live root id := (h.member b block hBlock id hId).1.to_reflTransGen
    obtain ⟨n, hn⟩ := hLive.node hWell hRoot
    exact ⟨n, hn, fun _ x hx => hWell.node_of_input ⟨n, hn, hx⟩⟩
  obtain ⟨listed, -, -, hEq⟩ :=
    orderNodesBy_eq (s := s) ReadyQueue.scanned_popsLeast hBlock (h.nodup_nodes hBlock) hRead
  -- either the nodes have an order, or they are circular and the graph is rejected
  split at hEq
  · exact Settles.of_eq_ok hEq (h.sequenced hFramed hBlock (h.leastOrder hBlock hEq))
  · obtain ⟨old, hOld, hBare⟩ := exists_of_frame h.frame.symm hBlock
    obtain ⟨n, hn, -⟩ := (hFramed.block b old hOld).head
    rw [← Block.head_of_bare hBare, op_eq_opOf hn] at hEq
    show Settles _ (orderNodesBy .scanned g s b) _
    rw [hEq]
    exact .inl rfl

/-! ## All blocks -/

theorem Reordered.frame (h : Reordered g s t) : t.frame = s.frame := by
  refine Array.ext_getElem? fun i => ?_
  rw [frame_getElem?, frame_getElem?]
  cases hNew : t.blocks[i]? with
  | none =>
    have hOut : s.blocks.size ≤ i := by
      rw [← h.size]
      exact Array.getElem?_eq_none_iff.mp hNew
    rw [Array.getElem?_eq_none hOut]
  | some new =>
    obtain ⟨old, nodes, hOld, -, rfl⟩ := h.block hNew
    rw [hOld]
    rfl

/-- Changing the order of the nodes of blocks keeps every node where it is. -/
theorem Placing.reordered (h : Placing g root f s) (hOrdered : Reordered g s t) :
    Placing g root f t := by
  have hGrown : Grown (fun _ => False) s t :=
    ⟨hOrdered.frame, fun x a hx => by rw [hOrdered.home]; exact hx,
      fun x hx _ => by rw [hOrdered.home]; exact hx⟩
  -- Each block is as it was, but for the order of its nodes.
  have hSame : ∀ (c : Nat) (new : Block), t.blocks[c]? = some new →
      ∃ old, s.blocks[c]? = some old ∧ new.nodes.Perm old.nodes ∧
        new.contents.Perm old.contents := by
    intro c new hNew
    obtain ⟨old, nodes, hOld, hNodes, rfl⟩ := hOrdered.block hNew
    have hPerm := (h.leastOrder hOld hNodes).perm
    exact ⟨old, hOld, hPerm, (hPerm.append_right _).cons _⟩
  refine ⟨hGrown.frame.trans h.frame, ?_, ?_, ?_⟩
  · intro id c
    rw [hOrdered.home]
    refine (h.home id c).trans ⟨?_, ?_⟩
    · rintro ⟨old, hOld, hId⟩
      obtain ⟨new, hNew, -⟩ := exists_of_frame hGrown.frame hOld
      obtain ⟨old', hOld', -, hContents⟩ := hSame c new hNew
      obtain rfl : old = old' := Option.some.inj (hOld.symm.trans hOld')
      exact ⟨new, hNew, hContents.mem_iff.mpr hId⟩
    · rintro ⟨new, hNew, hId⟩
      obtain ⟨old, hOld, -, hContents⟩ := hSame c new hNew
      exact ⟨old, hOld, hContents.mem_iff.mp hId⟩
  · intro c new hNew
    obtain ⟨old, hOld, -, hContents⟩ := hSame c new hNew
    exact hContents.nodup_iff.mpr (h.nodup c old hOld)
  · intro c new hNew id hId
    obtain ⟨old, hOld, hNodes, -⟩ := hSame c new hNew
    obtain ⟨hBelow, hHead, hEnd, hSited⟩ := h.member c old hOld id (hNodes.mem_iff.mp hId)
    exact ⟨hBelow, hHead, hEnd, hSited.grown hGrown⟩

/-- All blocks are put into order; where nodes are and what the blocks are is kept. -/
theorem orderBlocks_settles (hWell : g.WellFormed) (hRoot : ∃ n, g.node? root = some n)
    (hFramed : Framed g root f) (h : Placing g root f s) :
    Settles (g.Rejects root) (orderBlocks g s) fun t => Placing g root f t ∧ t.home = s.home ∧
      ∀ (b : Nat) (block : Block), t.blocks[b]? = some block → Sequenced g t b block := by
  refine (orderBlocks_reordered g s).weaken ?_ ?_
  · rintro fault ⟨b, block, hBlock, hError⟩
    have hSettles := orderNodes_settles hWell hRoot hFramed h hBlock
    rw [hError] at hSettles
    exact hSettles
  · intro t hOrdered
    refine ⟨h.reordered hOrdered, hOrdered.home, ?_⟩
    intro b block hBlock
    obtain ⟨old, nodes, hOld, hNodes, rfl⟩ := hOrdered.block hBlock
    have hSequenced := (orderNodes_settles hWell hRoot hFramed h hOld).of_ok hNodes
    refine ⟨hSequenced.joins, ?_⟩
    rw [hOrdered.home]
    exact hSequenced.before

end Schedule
end ArmBackend

/-! ## Whole schedules -/

namespace ArmBackend

namespace Schedule

variable {g : Graph} {root id x : NodeId} {f s t : Schedule} {a b : Nat} {block : Block} {n : Node}

/-- What the schedule of a graph with a given exit is like. -/
structure Placed (g : Graph) (exit : NodeId) (s : Schedule) : Prop where
  /-- Every live node but the exit is in one block, once, and is placed there. -/
  once : ∀ id, g.Live exit id → id ≠ exit → ∃ (b : Nat) (block : Block),
    s.blocks[b]? = some block ∧ s.blockOf id = some b ∧ block.contents.count id = 1 ∧
      ∀ (c : Nat) (other : Block), s.blocks[c]? = some other → id ∈ other.contents → c = b
  /-- A node is where its control leads, or in the deepest block of its inputs. -/
  sited : ∀ id b, s.blockOf id = some b → Sited g s b id
  /-- The inputs of a node that is no join are there before the node. -/
  available : ∀ (b : Nat) (block : Block), s.blocks[b]? = some block →
    ∀ front id rest, block.nodes = front ++ id :: rest → ¬g.IsPhi id →
    ∀ x, g.HasInput id x → x ≠ exit → ∃ a, s.blockOf x = some a ∧ s.Dominates a b ∧
      (a = b → x = block.head ∨ x ∈ front)
  /-- Joins come first. -/
  joins : ∀ (b : Nat) (block : Block), s.blocks[b]? = some block → ∃ phis rest,
    block.nodes = phis ++ rest ∧ (∀ id ∈ phis, g.IsPhi id) ∧ ∀ id ∈ rest, ¬g.IsPhi id

/-! ## Dominance of inputs -/

/-- The check of one node: each of its inputs that has a place dominates it, unless it is a join. -/
theorem checkDominated_settles (hn : g.node? id = some n) :
    Settles (g.Rejects root) (checkDominated g s b id) fun _ => ∀ x ∈ n.inputs, ∀ a,
      s.home x = some a → ¬g.IsPhi id → s.dominates a b = true := by
  unfold checkDominated
  rw [Graph.node_eq_ok.mpr hn, ok_bind]
  refine Settles.forM fun x _ => ?_
  -- an input without a home is not checked
  cases hHome : s.home x with
  | none =>
    rw [show s.blockOf x = none from hHome]
    exact Settles.pure (by simp)
  | some a =>
    rw [show s.blockOf x = some a from hHome]
    dsimp only
    split
    · exact .inl rfl
    · next hPassed =>
      refine Settles.pure ?_
      rintro c ⟨⟩ hNotPhi
      have hPhi : n.op.isPhi = false := by
        rw [← Bool.not_eq_true]
        exact fun hIs => hNotPhi ⟨n, hn, hIs⟩
      simpa [hPhi] using hPassed

/-- The check of all nodes. -/
theorem checkAll_settles (hWell : g.WellFormed) (hRoot : ∃ n, g.node? root = some n)
    (h : Placing g root f s) :
    Settles (g.Rejects root) (s.blocks.toList.zipIdx.forM fun (block, b) =>
        block.nodes.forM fun id => checkDominated g s b id)
      fun _ => ∀ (b : Nat) (block : Block), s.blocks[b]? = some block → ∀ id ∈ block.nodes,
        ¬g.IsPhi id → ∀ x, g.HasInput id x → ∀ a, s.home x = some a → s.dominates a b = true := by
  have hMem : ∀ p : Block × Nat, p ∈ s.blocks.toList.zipIdx ↔ s.blocks[p.2]? = some p.1 := by
    intro p
    rw [List.mem_zipIdx_iff_getElem?, Array.getElem?_toList]
  refine (Settles.forM (Q := fun p : Block × Nat => ∀ id ∈ p.1.nodes, ¬g.IsPhi id →
    ∀ x, g.HasInput id x → ∀ a, s.home x = some a → s.dominates a p.2 = true) ?_).mono ?_
  · intro p hp
    refine Settles.forM fun id hId => ?_
    have hLive : g.Live root id := (h.member p.2 p.1 ((hMem p).mp hp) id hId).1.to_reflTransGen
    obtain ⟨n, hn⟩ := hLive.node hWell hRoot
    refine (checkDominated_settles hn).mono ?_
    rintro - hAll hNotPhi x ⟨m, hm, hx⟩ a ha
    obtain rfl : n = m := Option.some.inj (hn.symm.trans hm)
    exact hAll x hx a ha hNotPhi
  · intro _ hAll b block hBlock
    exact hAll (block, b) ((hMem _).mpr hBlock)

/-! ## All together -/

/-- Every node with a place is where it belongs: heads and ends as well as the nodes between. -/
theorem Placing.sited (hWell : g.WellFormed) (hFramed : Framed g root f) (h : Placing g root f s)
    (hHome : s.home id = some b) : Sited g s b id := by
  obtain ⟨block, hBlock, hContents⟩ := (h.home id b).mp hHome
  obtain ⟨old, hOld, hBare⟩ := exists_of_frame h.frame.symm hBlock
  have hFrame := hFramed.block b old hOld
  rcases List.mem_cons.mp hContents with hHead | hListed
  · rw [hHead, ← Block.head_of_bare hBare]
    obtain ⟨n, hn, hIs⟩ := hFrame.head
    refine ⟨n, hn, ?_, ?_⟩
    · intro _
      exact ⟨block, hBlock, by rw [← Block.head_of_bare hBare]; exact .self hFrame.head⟩
    · -- A head without a control input is the start, and has no inputs.
      intro hControl
      rw [hWell.inputs_of_head hn hIs hControl]
      refine ⟨fun _ => ?_, fun hNot => absurd rfl hNot, by simp⟩
      by_contra hZero
      obtain ⟨m, hm, hEntered⟩ := hFrame.entered hZero
      obtain rfl : n = m := Option.some.inj (hn.symm.trans hm)
      exact hEntered hControl
  · rcases List.mem_append.mp hListed with hNodes | hControl
    · exact (h.member b block hBlock id hNodes).2.2.2
    · have hEnds : old.control = some id := by
        rw [Block.control_of_bare hBare]
        exact Option.mem_toList.mp hControl
      obtain ⟨-, ⟨n, hn, hOp⟩, hChain⟩ := hFrame.control id hEnds
      have hOne : n.controlCount = (1 : Nat) :=
        hWell.controlCount hn (by rcases hOp with hOp | hOp <;> rw [hOp] <;> rfl)
      refine ⟨n, hn, ?_, fun hZero => by omega⟩
      intro _
      exact ⟨block, hBlock, by rw [← Block.head_of_bare hBare]; exact hChain⟩

/-- A node with a place that is neither a head nor an end is among the nodes of its block. -/
theorem Placing.mem_nodes (hFramed : Framed g root f) (h : Placing g root f s)
    (hBlock : s.blocks[b]? = some block) (hHome : s.home id = some b) (hHead : ¬g.IsHead id)
    (hEnd : ¬g.IsEnd id) : id ∈ block.nodes := by
  obtain ⟨at_, hAt, hContents⟩ := (h.home id b).mp hHome
  obtain rfl : block = at_ := Option.some.inj (hBlock.symm.trans hAt)
  rcases h.contents_cases hFramed hBlock hContents with hIs | ⟨hNodes, -⟩ | hIs
  · obtain ⟨old, hOld, hBare⟩ := exists_of_frame h.frame.symm hBlock
    have hIsHead := (hFramed.block b old hOld).head
    rw [Block.head_of_bare hBare, ← hIs] at hIsHead
    exact absurd hIsHead hHead
  · exact hNodes
  · exact absurd hIs hEnd

/-- Placing, checking and putting into order give a schedule that is as it should be. -/
theorem Placing.placed (hWell : g.WellFormed) (hFramed : Framed g root f)
    (h : Placing g root f s)
    (hAll : ∀ id, g.Live root id → id ≠ root → ∃ b, s.home id = some b)
    (hDominated : ∀ (b : Nat) (block : Block), s.blocks[b]? = some block → ∀ id ∈ block.nodes,
      ¬g.IsPhi id → ∀ x, g.HasInput id x → ∀ a, s.home x = some a → s.dominates a b = true)
    (h' : Placing g root f t) (hHome : t.home = s.home)
    (hSequenced : ∀ (b : Nat) (block : Block), t.blocks[b]? = some block →
      Sequenced g t b block) : t.Placed g root := by
  refine ⟨?_, fun id b hId => h'.sited hWell hFramed hId, ?_, fun b block hBlock =>
    (hSequenced b block hBlock).joins⟩
  · intro id hLive hNe
    obtain ⟨b, hb⟩ := hAll id hLive hNe
    rw [← hHome] at hb
    obtain ⟨block, hBlock, hContents⟩ := (h'.home id b).mp hb
    refine ⟨b, block, hBlock, hb, List.count_eq_one_of_mem (h'.nodup b block hBlock) hContents, ?_⟩
    intro c other hOther hIn
    have hc := (h'.home id c).mpr ⟨other, hOther, hIn⟩
    exact Option.some.inj (hc.symm.trans hb)
  · intro b block hBlock front id rest hSplit hNotPhi x hx hNe
    have hMem : id ∈ block.nodes := by rw [hSplit]; simp
    obtain ⟨hBelow, hHead, hEnd, -⟩ := h'.member b block hBlock id hMem
    have hAt : s.home id = some b := by
      rw [← hHome]
      exact (h'.home id b).mpr ⟨block, hBlock,
        List.mem_cons_of_mem _ (List.mem_append_left _ hMem)⟩
    obtain ⟨a, ha⟩ := hAll x (hBelow.tail hx).to_reflTransGen hNe
    -- The check was made before the nodes were put into order.
    obtain ⟨old, hOld, -⟩ := exists_of_frame (h.frame.trans h'.frame.symm) hBlock
    have hIn := h.mem_nodes hFramed hOld hAt hHead hEnd
    have hDominates := hDominated b old hOld id hIn hNotPhi x hx a ha
    rw [dominates_of_frame h.frame] at hDominates
    refine ⟨a, by rw [blockOf, hHome]; exact ha, ?_, ?_⟩
    · exact (dominates_sound hFramed.dominators hDominates).of_frame h'.frame
    · rintro rfl
      exact (hSequenced a block hBlock).before front id rest hSplit hNotPhi x hx
        (by rw [hHome]; exact ha)

/-- Scheduling ends in a schedule in which every live node is where it belongs, or in a fault that
says why there is none. -/
theorem compute_settles (hWell : g.WellFormed) (hCycles : g.CyclesJoined)
    (hExit : g.exit = some root) :
    Settles (g.Rejects root) (compute g) fun s => s.Placed g root := by
  have hRoot := hWell.exit root hExit
  unfold compute
  rw [hExit]
  refine (liveNodes_settles hWell hRoot).bind fun live hLive => ?_
  refine (buildBlocks_settles hWell hRoot hLive).bind fun f hFramed => ?_
  refine (placeNodes_settles hWell hCycles hRoot
    (fun hBelow => headOf_settles_of_step hWell hBelow.to_reflTransGen) hLive hFramed).bind ?_
  rintro ⟨_, s⟩ ⟨hPlacing, hAll⟩
  refine (checkAll_settles hWell hRoot hPlacing).bind fun _ hDominated => ?_
  refine (orderBlocks_settles hWell hRoot hFramed hPlacing).mono ?_
  rintro t ⟨hPlacing', hHome, hSequenced⟩
  exact hPlacing.placed hWell hFramed hAll hDominated hPlacing' hHome hSequenced

/-- A graph has no schedule if the control chain of a live node other than the exit goes round: the
node would have to stand in the block that its chain leads to. -/
theorem compute_ne_ok_of_loop (hWell : g.WellFormed) (hCycles : g.CyclesJoined)
    (hExit : g.exit = some root) (hLive : g.Live root id) (hNe : id ≠ root)
    (hLoop : Relation.TransGen g.ControlStep id id) : compute g ≠ .ok s := by
  intro hOk
  have hPlaced := (compute_settles hWell hCycles hExit).of_ok hOk
  obtain ⟨b, block, -, hAt, -⟩ := hPlaced.once id hLive hNe
  obtain ⟨n, hn, hControl, -⟩ := hPlaced.sited id b hAt
  obtain ⟨u, ⟨m, hm, -, hSome, -⟩, -⟩ := Relation.TransGen.head'_iff.mp hLoop
  obtain rfl : n = m := Option.some.inj (hn.symm.trans hm)
  obtain ⟨at_, -, hHead⟩ := hControl hSome
  exact hHead.not_loop hLoop

/-- A graph whose cycles go through merges and joins is scheduled or turned down, and in a schedule
every live node is where it belongs, provided that no join stands in its own control chain: the
search for the block of such a join has no end. -/
theorem compute_places (hWell : g.WellFormed) (hCycles : g.CyclesJoined)
    (hChains : ∀ exit id, g.exit = some exit → g.Live exit id → g.IsPhi id →
      ¬Relation.TransGen g.ControlStep id id) :
    match compute g with
    | .ok s => ∃ exit, g.exit = some exit ∧ s.Placed g exit
    | .error f => f.isRejection = true := by
  -- a graph without an end is refused at once
  cases hExit : g.exit with
  | none =>
    rw [compute, hExit]
    rfl
  | some exit =>
    have hSettles := compute_settles hWell hCycles hExit
    unfold Settles at hSettles
    split
    · next hOk =>
      rw [hOk] at hSettles
      exact ⟨exit, rfl, hSettles⟩
    · next hError =>
      rw [hError] at hSettles
      -- the endless walk would circle through a join's own control, which `hChains` excludes
      refine hSettles.resolve_right ?_
      rintro ⟨-, hLoops⟩
      obtain ⟨id, hLive, hPhi, hLoop⟩ := hLoops.join hWell hCycles
      exact hChains exit id hExit hLive hPhi hLoop

/-- A loop that adds one to a number until it is no longer below another. -/
def countingLoop : Graph :=
  { nodes := #[
      { op := .start },
      .parameter 0 .int32,
      .int32 0,
      .int32 1,
      .merge [0, 9],
      .phi .word32 [2, 6, 4],
      .ofArity (.int32 .add) [5, 3],
      .ofArity (.int32 .lessThan) [5, 1],
      .ofArity .branch [7, 4],
      .ofArity .ifTrue [8],
      .ofArity .ifFalse [8],
      .ofArity .ret [5, 0, 10],
      .collect [11]]
    exit := some 12 }

/-- In the counting loop the one join hangs on the merge at the head of the loop. -/
theorem countingLoop_chains (hPhi : countingLoop.IsPhi id) :
    ¬Relation.TransGen countingLoop.ControlStep id id := by
  obtain ⟨n, hn, hIs⟩ := hPhi
  obtain ⟨k, rfl, -⟩ := Graph.node?_eq_some.mp hn
  have hOnly : ∀ p ∈ countingLoop.nodes.toList.zipIdx, p.1.op.isPhi = true → p.2 = 5 := by decide
  obtain rfl : k = 5 := hOnly (n, k) (Graph.mem_zipIdx.mpr hn) hIs
  have hStep : countingLoop.ControlStep (5 : Nat) 4 :=
    ⟨.phi .word32 [2, 6, 4], rfl, rfl, by decide, rfl⟩
  exact (Graph.ControlHead.step hStep (.self ⟨.merge [0, 9], rfl, rfl⟩)).not_loop

theorem compute_places_countingLoop :
    countingLoop.WellFormed ∧ countingLoop.CyclesJoined ∧
      (∀ exit id, countingLoop.exit = some exit → countingLoop.Live exit id →
        countingLoop.IsPhi id → ¬Relation.TransGen countingLoop.ControlStep id id) ∧
      ∃ s, compute countingLoop = .ok s ∧ s.Placed countingLoop 12 := by
  have hWell : countingLoop.WellFormed :=
    .of_nodes (by decide +kernel) (by decide +kernel) (by decide +kernel)
  have hCycles : countingLoop.CyclesJoined := Graph.cyclesJoined_of_ordered (by decide +kernel)
  have hChains : ∀ exit id, countingLoop.exit = some exit → countingLoop.Live exit id →
      countingLoop.IsPhi id → ¬Relation.TransGen countingLoop.ControlStep id id :=
    fun _ _ _ _ hPhi => countingLoop_chains hPhi
  have hOk : (compute countingLoop).isOk = true := by decide +kernel
  have hPlaces := compute_places hWell hCycles hChains
  cases hCompute : compute countingLoop with
  | error f =>
    rw [hCompute] at hOk
    cases hOk
  | ok s =>
    rw [hCompute] at hPlaces
    obtain ⟨exit, hExit, hPlaced⟩ := hPlaces
    cases hExit
    exact ⟨hWell, hCycles, hChains, s, rfl, hPlaced⟩

/-- A graph whose one join hangs on itself. -/
def selfJoined : Graph :=
  { nodes := #[
      { op := .start },
      .parameter 0 .int32,
      .phi .word32 [1, 2],
      .ofArity .ret [2, 0, 0],
      .collect [3]]
    exit := some 4 }

/-- Verification accepts a join that hangs on itself, and the search for its block has no end,
however many steps it may take. -/
theorem compute_endless_selfJoined :
    selfJoined.WellFormed ∧ selfJoined.CyclesJoined ∧ compute selfJoined = .error .endless ∧
      ∀ fuel, headOf.climb selfJoined 2 fuel 2 = .error .endless := by
  have hEnds : (compute selfJoined).map (fun _ => ()) = .error .endless := by decide +kernel
  have hCompute : compute selfJoined = .error .endless := by
    cases hRun : compute selfJoined with
    | ok s =>
      rw [hRun] at hEnds
      cases hEnds
    | error f =>
      rw [hRun] at hEnds
      exact congrArg _ (Except.error.inj hEnds)
  refine ⟨.of_nodes (by decide +kernel) (by decide +kernel) (by decide +kernel),
    Graph.cyclesJoined_of_ordered (by decide +kernel), hCompute, fun fuel => ?_⟩
  exact climb_endless (.single ⟨.phi .word32 [1, 2], rfl, rfl, by decide, rfl⟩) fuel

end Schedule
end ArmBackend
