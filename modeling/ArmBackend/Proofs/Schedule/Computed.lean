import ArmBackend.Proofs.Schedule.Placed
import ArmBackend.Proofs.Schedule.Targets
import ArmBackend.Proofs.Schedule.Unplaced

/-!
# The blocks of a computed schedule

Placing the nodes and putting them into order changes nothing about the blocks but the lists of their
nodes, and every node that is listed is placed (`Adds`). So a computed schedule has the blocks of
the control chain. It lists a node once, in the block it is placed in, and behind what it waits for
in that block. This holds of any graph that can be scheduled, also of one with cycles.

## Results

* `compute_eq_placement`, `compute_stages` — what a schedule is computed from.
* `compute_wired` — a branch of a computed schedule leads to its two arms.
* `compute_isEnd`, `compute_home` — blocks end in branches and returns, and what a block lists or
  ends with is placed.
* `compute_reached`, `compute_predecessors` — a path leads to every block, and edges come from
  blocks.
* `compute_listed` — what is known of a block of a computed schedule.
-/

namespace ArmBackend

namespace Schedule

variable {g : Graph} {id : NodeId} {live : BitSet} {s t : Schedule} {b i : Nat}
variable {block : Block} {n : Node}

/-! ## Placing -/

theorem frame_append (s : Schedule) (b : Nat) (id : NodeId) : (s.append b id).frame = s.frame := by
  unfold append
  exact frame_modifyBlock fun _ => rfl

/-- Whether what a block lists or ends with is placed. -/
def Homed (s : Schedule) : Prop :=
  ∀ (b : Nat) (block : Block), s.blocks[b]? = some block → ∀ id ∈ block.listed, (s.home id).isSome

/-- Placing keeps the blocks but for their nodes, and places what it adds. -/
def Adds (s t : Schedule) : Prop :=
  t.frame = s.frame ∧ (s.Homed → t.Homed)

theorem Adds.refl (s : Schedule) : Adds s s :=
  ⟨rfl, id⟩

theorem Adds.trans {u : Schedule} (h : Adds s t) (h' : Adds t u) : Adds s u :=
  ⟨h'.1.trans h.1, h'.2 ∘ h.2⟩

theorem Adds.append (s : Schedule) (b : Nat) (id : NodeId) : Adds s (s.append b id) := by
  refine ⟨frame_append s b id, ?_⟩
  intro hHomed i block hBlock x hx
  rw [append_home]
  -- the node appended has its home now, and the others keep theirs
  by_cases hNew : x = id
  · rw [if_pos hNew]
    rfl
  · rw [if_neg hNew]
    rw [append_block] at hBlock
    split at hBlock
    · obtain ⟨old, hOld, rfl⟩ := Option.map_eq_some_iff.mp hBlock
      refine hHomed i old hOld x ?_
      have hAll : x = id ∨ x ∈ old.listed := by
        simp only [Block.listed, List.mem_append, List.mem_singleton] at hx ⊢
        tauto
      exact hAll.resolve_left hNew
    · exact hHomed i block hBlock x hx

/-- The ends of blocks are placed first. -/
theorem placeControl_homed (hNodes : ∀ (b : Nat) (block : Block), s.blocks[b]? = some block →
    block.nodes = []) : (placeControl s).Homed := by
  intro b block hBlock id hId
  rw [placeControl_blocks] at hBlock
  rw [Block.listed, hNodes b block hBlock, List.nil_append, Option.mem_toList] at hId
  exact placeControl_places hBlock (.inr hId)

/-- Placing changes only the lists of nodes. -/
theorem placeNodes_adds (g : Graph) (exit : NodeId) (live : BitSet) (s : Schedule) :
    Settles (fun _ => True) ((placeNodes g exit live).run s) fun p => Adds (placeControl s) p.2 :=
  placeNodes_keepsAll (fun t b id _ _ _ h => h.trans (Adds.append t b id)) (Adds.refl _)

/-! ## Ordering -/

/-- Putting the nodes of a block into order adds none. -/
theorem mem_orderNodes {nodes : List NodeId} (hBlock : s.blocks[b]? = some block)
    (hOrder : orderNodes g s b = .ok nodes) (hId : id ∈ nodes) : id ∈ block.nodes :=
  mem_orderNodesBy ReadyQueue.scanned_popsLeast hBlock hOrder hId

theorem orderBlocks_adds (g : Graph) (s : Schedule) :
    Settles (fun _ => True) (orderBlocks g s) (Adds s) := by
  refine (orderBlocks_reordered g s).weaken (fun _ _ => trivial) fun t hOrdered => ?_
  refine ⟨hOrdered.frame, ?_⟩
  intro hHomed b block hBlock id hId
  obtain ⟨old, nodes, hOld, hNodes, rfl⟩ := hOrdered.block hBlock
  rw [hOrdered.home]
  refine hHomed b old hOld id ?_
  -- ordering moves the nodes of a block and takes none out
  rcases List.mem_append.mp hId with hId | hId
  · exact List.mem_append_left _ (mem_orderNodes hOld hNodes hId)
  · exact List.mem_append_right _ hId

/-! ## Stages -/

/-- The schedule of a graph with its nodes placed, and not in order yet. -/
def placement (g : Graph) : Except Fault Schedule := do
  match g.exit with
  | none => throw (.invalidGraph .noEnd)
  | some exit =>
    let live ← liveNodes g exit
    let blocks ← buildBlocks g live
    let (_, placed) ← (placeNodes g exit live).run blocks
    placed.blocks.toList.zipIdx.forM fun (block, b) =>
      block.nodes.forM fun id => checkDominated g placed b id
    return placed

/-- A schedule is computed in two steps. -/
theorem compute_eq_placement (g : Graph) : compute g = placement g >>= orderBlocks g := by
  unfold compute placement
  cases g.exit with
  | none => rfl
  | some exit => simp only [bind_assoc, pure_bind]

/-- What the stages give that lead to a schedule with its nodes placed. -/
structure Stages (g : Graph) (root : NodeId) (live : BitSet) (f s : Schedule) : Prop where
  exit : g.exit = some root
  marked : liveNodes g root = .ok live
  built : buildBlocks g live = .ok f
  placed : (placeNodes g root live).run f = .ok ((), s)
  checked : (s.blocks.toList.zipIdx.forM fun (block, b) =>
    block.nodes.forM fun id => checkDominated g s b id) = .ok ()

theorem placement_stages (hPlaced : placement g = .ok s) : ∃ exit live f, Stages g exit live f s := by
  unfold placement at hPlaced
  split at hPlaced
  · cases hPlaced
  · next exit hExit =>
    obtain ⟨live, hMarked, hPlaced⟩ := bind_eq_ok.mp hPlaced
    obtain ⟨f, hBuild, hPlaced⟩ := bind_eq_ok.mp hPlaced
    obtain ⟨⟨_, placed⟩, hRun, hPlaced⟩ := bind_eq_ok.mp hPlaced
    obtain ⟨_, hChecked, hPlaced⟩ := bind_eq_ok.mp hPlaced
    cases pure_eq_ok.mp hPlaced
    exact ⟨exit, live, f, hExit, hMarked, hBuild, hRun, hChecked⟩

theorem compute_stages (hCompute : compute g = .ok s) :
    ∃ exit live f placed, Stages g exit live f placed ∧ orderBlocks g placed = .ok s := by
  rw [compute_eq_placement] at hCompute
  obtain ⟨placed, hPlaced, hOrder⟩ := bind_eq_ok.mp hCompute
  obtain ⟨exit, live, f, hStages⟩ := placement_stages hPlaced
  exact ⟨exit, live, f, placed, hStages, hOrder⟩

/-- The blocks are still those of the control chain when nodes have been placed, and what is listed
in them is placed. -/
theorem Stages.adds {exit : NodeId} {f placed : Schedule} (h : Stages g exit live f placed) :
    placed.frame = f.frame ∧ placed.Homed := by
  obtain ⟨hFrame, hHomed⟩ : Adds (placeControl f) placed := (placeNodes_adds _ _ _ f).of_ok h.placed
  refine ⟨?_, hHomed (placeControl_homed fun _ _ hBlock => (buildBlocks_bare h.built hBlock).nodes)⟩
  rw [hFrame, frame, placeControl_blocks, frame]

/-! ## Computed schedules -/

/-- A schedule that is computed has the blocks of the control chain, and what is listed in them is
placed. -/
theorem compute_adds (hCompute : compute g = .ok s) :
    ∃ live f, buildBlocks g live = .ok f ∧ s.frame = f.frame ∧ s.Homed := by
  obtain ⟨exit, live, f, placed, h, hOrder⟩ := compute_stages hCompute
  obtain ⟨hFrame, hHomed⟩ := h.adds
  have hOrdered : Adds placed s := (orderBlocks_adds g placed).of_ok hOrder
  exact ⟨live, f, h.built, hOrdered.1.trans hFrame, hOrdered.2 hHomed⟩

theorem heads_of_frame (h : t.frame = s.frame) : t.heads = s.heads := by
  have hHeads : ∀ s : Schedule, s.heads = s.frame.map Block.head := by
    intro s
    rw [heads, frame, Array.map_map]
    rfl
  rw [hHeads, hHeads, h]

/-- A block of a computed schedule that ends in a branch leads to the two arms of the branch. -/
theorem compute_wired (hCompute : compute g = .ok s) (hBlock : s.blocks[b]? = some block)
    (hKind : block.kind = .branch) : Wired g s block := by
  obtain ⟨live, f, hBuild, hFrame, -⟩ := compute_adds hCompute
  obtain ⟨old, hOld, hBare⟩ := exists_of_frame hFrame.symm hBlock
  have hKinds : old.bare.kind = block.bare.kind := congrArg Block.kind hBare
  have hSucc : old.bare.succ = block.bare.succ := congrArg Block.succ hBare
  have hWired := (buildBlocks_bare hBuild hOld).wired (hKinds.trans hKind)
  exact hWired.of_heads (heads_of_frame hFrame) (Block.control_of_bare hBare).symm hSucc.symm

/-- A block of a computed schedule ends with a branch or a return. -/
theorem compute_isEnd (hCompute : compute g = .ok s) (hBlock : s.blocks[b]? = some block)
    (hControl : block.control = some id) : g.IsEnd id := by
  obtain ⟨live, f, hBuild, hFrame, -⟩ := compute_adds hCompute
  obtain ⟨old, hOld, hBare⟩ := exists_of_frame hFrame.symm hBlock
  exact (buildBlocks_bare hBuild hOld).ends id ((Block.control_of_bare hBare).trans hControl)

/-- A path leads to every block of a computed schedule. -/
theorem compute_reached (hCompute : compute g = .ok s) (hBlock : s.blocks[b]? = some block) :
    s.Reached b := by
  obtain ⟨live, f, hBuild, hFrame, -⟩ := compute_adds hCompute
  obtain ⟨old, hOld, -⟩ := exists_of_frame hFrame.symm hBlock
  obtain ⟨path, hPath⟩ := buildBlocks_reached hBuild hOld
  refine ⟨path, ?_⟩
  unfold IsPath at *
  rw [successors_of_frame hFrame]
  exact hPath

/-- The predecessors of a block of a computed schedule are blocks. -/
theorem compute_predecessors (hCompute : compute g = .ok s) {p : Nat} (hp : p ∈ s.predecessors b) :
    ∃ block, s.blocks[p]? = some block := by
  obtain ⟨live, f, hBuild, hFrame, -⟩ := compute_adds hCompute
  rw [predecessors_of_frame hFrame] at hp
  obtain ⟨old, hOld⟩ := buildBlocks_predecessors hBuild hp
  obtain ⟨new, hNew, -⟩ := exists_of_frame hFrame hOld
  exact ⟨new, hNew⟩

/-- What a block of a computed schedule lists or ends with is placed. -/
theorem compute_home (hCompute : compute g = .ok s) (hAt : s.At b i id) :
    (s.blockOf id).isSome := by
  obtain ⟨live, f, -, -, hHomed⟩ := compute_adds hCompute
  obtain ⟨block, hBlock, hId⟩ := hAt
  exact hHomed b block hBlock id (List.mem_of_getElem? hId)

end Schedule
end ArmBackend

/-! ## What blocks list -/

namespace ArmBackend

namespace Schedule

variable {g : Graph} {id x : NodeId} {s t : Schedule} {b : Nat} {block : Block} {n : Node}

/-! ## Placing -/

/-- Whether every node is listed once, in the block it is placed in. -/
def ListsOnce (s : Schedule) : Prop :=
  ∀ (b : Nat) (block : Block), s.blocks[b]? = some block →
    block.nodes.Nodup ∧ ∀ id ∈ block.nodes, s.home id = some b

theorem ListsOnce.append (h : s.ListsOnce) (hHome : s.home id = none) (b : Nat) :
    (s.append b id).ListsOnce := by
  intro c block hBlock
  rw [append_block] at hBlock
  -- The node had no place, so no block lists it yet.
  have hOld : ∀ old : Block, s.blocks[c]? = some old →
      id ∉ old.nodes ∧ ∀ x ∈ old.nodes, (s.append b id).home x = some c := by
    intro old hOld
    have hId : id ∉ old.nodes := by
      intro hMem
      rw [(h c old hOld).2 id hMem] at hHome
      cases hHome
    refine ⟨hId, fun x hx => ?_⟩
    have hNe : x ≠ id := fun hEq => hId (hEq ▸ hx)
    rw [append_home, if_neg hNe]
    exact (h c old hOld).2 x hx
  split at hBlock
  · next hb =>
    obtain ⟨old, hAt, rfl⟩ := Option.map_eq_some_iff.mp hBlock
    obtain ⟨hId, hPlaced⟩ := hOld old hAt
    refine ⟨List.nodup_append.mpr ⟨(h c old hAt).1, List.nodup_singleton _, ?_⟩, ?_⟩
    · rintro x hx y hy rfl
      exact hId (List.mem_singleton.mp hy ▸ hx)
    · intro x hx
      rcases List.mem_append.mp hx with hx | hx
      · exact hPlaced x hx
      · rw [append_home, if_pos (List.mem_singleton.mp hx), hb]
  · exact ⟨(h c block hBlock).1, (hOld block hBlock).2⟩

theorem placeNodes_listsOnce (exit : NodeId) (live : BitSet) (h : (placeControl s).ListsOnce) :
    Settles (fun _ => True) ((placeNodes g exit live).run s) fun p => p.2.ListsOnce :=
  placeNodes_keepsAll (fun _ b _ _ _ hHome hOnce => hOnce.append hHome b) h

/-! ## Ordering -/

/-- Whether the nodes of a block come behind what they wait for there: their inputs in the block but
for heads and joins. -/
def InOrder (g : Graph) (s : Schedule) (b : Nat) (nodes : List NodeId) : Prop :=
  ∀ front id rest, nodes = front ++ id :: rest → ¬g.IsPhi id → ∀ x, g.HasInput id x →
    s.home x = some b → ¬g.IsHead x → ¬g.IsPhi x → x ∈ front

/-- The nodes of a block are put into order. -/
theorem orderNodes_before {nodes : List NodeId} (hBlock : s.blocks[b]? = some block)
    (hNodup : block.nodes.Nodup) (h : orderNodes g s b = .ok nodes) :
    nodes.Nodup ∧ (∀ id ∈ nodes, id ∈ block.nodes) ∧ InOrder g s b nodes := by
  have hOrder : LeastOrder g s b block.nodes nodes :=
    orderNodesBy_leastOrder ReadyQueue.scanned_popsLeast hBlock hNodup h
  refine ⟨hOrder.perm.nodup_iff.mpr hNodup, fun id hId => hOrder.perm.mem_iff.mp hId, ?_⟩
  intro front id rest hSplit hNotPhi x hx hHome hHead hPhi
  exact hOrder.before hSplit ⟨hNotPhi, hx, hHome, hHead, hPhi⟩

/-- What is known of a block of a computed schedule. -/
structure Listed (g : Graph) (s : Schedule) (b : Nat) (block : Block) : Prop where
  nodup : block.nodes.Nodup
  home : ∀ id ∈ block.nodes, s.home id = some b
  before : InOrder g s b block.nodes

/-- Putting the blocks into order keeps every node in its block. -/
theorem Reordered.listed (h : Reordered g s t) (hOnce : s.ListsOnce)
    (hBlock : t.blocks[b]? = some block) : Listed g t b block := by
  obtain ⟨old, nodes, hOld, hNodes, rfl⟩ := h.block hBlock
  obtain ⟨hNodup, hHome⟩ := hOnce b old hOld
  -- what the order of the block gives, at the homes from before
  obtain ⟨hOrdered, hMem, hBefore⟩ := orderNodes_before hOld hNodup hNodes
  refine ⟨hOrdered, ?_, ?_⟩
  · intro id hId
    rw [h.home]
    exact hHome id (hMem id hId)
  · unfold InOrder
    rw [h.home]
    exact hBefore

/-- A block of a computed schedule lists its nodes once and in order. -/
theorem compute_listed (hCompute : compute g = .ok s) (hBlock : s.blocks[b]? = some block) :
    Listed g s b block := by
  obtain ⟨exit, live, f, placed, h, hOrder⟩ := compute_stages hCompute
  have hStart : (placeControl f).ListsOnce := by
    intro b block hBlock
    rw [placeControl_blocks] at hBlock
    rw [(buildBlocks_bare h.built hBlock).nodes]
    exact ⟨List.nodup_nil, by simp⟩
  have hOnce : placed.ListsOnce := (placeNodes_listsOnce _ _ hStart).of_ok h.placed
  exact ((orderBlocks_reordered g placed).of_ok hOrder).listed hOnce hBlock

end Schedule
end ArmBackend
