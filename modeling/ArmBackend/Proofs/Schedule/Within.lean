import ArmBackend.Proofs.Appended
import ArmBackend.Proofs.Schedule.Computed

/-!
# Nodes of a schedule

Whatever a schedule speaks of is a node of the graph: the nodes that have a place, and in a block its
head, the nodes it executes and the live node that ends it. This holds from the first blocks on, and
each step of scheduling keeps it. Verification is all that it takes; the edge counts of the nodes do
not matter, and neither does whether the graph has cycles.

## Results

* `Within.endBlocks`, `Within.linkBranch` — what one step of building the blocks keeps.
* `Within.append`, `Within.orderBlock` — what placing a node and ordering a block keep.
* `compute_within` — a computed schedule speaks of nodes of its graph only.
-/

namespace ArmBackend.Schedule

variable {g : Graph} {root exit id : NodeId} {live : BitSet} {s t : Schedule} {b : Nat}
variable {block : Block} {n : Node}

/-- What a block says about nodes: they are nodes of the graph, and the one that ends the block is
live and of the kind that the block says. -/
structure Grounded (g : Graph) (root : NodeId) (block : Block) : Prop where
  head : g.Knows block.head
  nodes : ∀ id ∈ block.nodes, g.Knows id
  control : ∀ c, block.control = some c → g.Live root c
  ended : block.kind = .branch ∨ block.kind = .ret → ∃ c, block.control = some c
  branch : block.kind = .branch → ∀ c, block.control = some c → g.HasOp c .branch

/-- A schedule speaks of nodes of a graph only. -/
structure Within (g : Graph) (root : NodeId) (s : Schedule) : Prop where
  home : ∀ {id b}, s.home id = some b → g.Knows id
  block : ∀ {b : Nat} {block : Block}, s.blocks[b]? = some block → Grounded g root block

theorem Grounded.moved {new : Block} (h : Grounded g root block) (hMoved : Moved block new) :
    Grounded g root new := by
  obtain ⟨hKind, hHead, hNodes, hControl⟩ := hMoved
  refine ⟨?_, ?_, ?_, ?_, ?_⟩
  · rw [hHead]
    exact h.head
  · rw [hNodes]
    exact h.nodes
  · rw [hControl]
    exact h.control
  · rw [hKind, hControl]
    exact h.ended
  · rw [hKind, hControl]
    exact h.branch

theorem Grounded.listing (h : Grounded g root block) {nodes : List NodeId}
    (hNodes : ∀ id ∈ nodes, g.Knows id) : Grounded g root { block with nodes } :=
  ⟨h.head, hNodes, h.control, h.ended, h.branch⟩

namespace Within

theorem modifyBlock {change : Block → Block} (h : Within g root s)
    (hChange : ∀ block, s.blocks[b]? = some block → Grounded g root (change block)) :
    Within g root (s.modifyBlock b change) := by
  refine ⟨h.home, ?_⟩
  intro i block hBlock
  rw [getElem?_modifyBlock] at hBlock
  split at hBlock
  · next hb =>
    subst hb
    obtain ⟨old, hOld, rfl⟩ := Option.map_eq_some_iff.mp hBlock
    exact hChange old hOld
  · exact h.block hBlock

theorem link (h : Within g root s) (a b : Nat) : Within g root (s.link a b) := by
  refine ⟨h.home, ?_⟩
  intro i new hNew
  obtain ⟨old, hOld, hMoved, -⟩ := link_block hNew
  exact (h.block hOld).moved hMoved

theorem place (h : Within g root s) (hId : g.Knows id) (b : Nat) : Within g root (s.place b id) := by
  refine ⟨?_, h.block⟩
  intro x a hx
  by_cases hNew : x = id
  · rw [hNew]
    exact hId
  · have hOld : s.home x = some a := by
      rw [← hx]
      exact (if_neg hNew).symm
    exact h.home hOld

theorem append (h : Within g root s) (hId : g.Knows id) (b : Nat) :
    Within g root (s.append b id) := by
  refine (h.place hId b).modifyBlock ?_
  intro block hBlock
  have hOld : Grounded g root block := h.block hBlock
  refine hOld.listing ?_
  intro x hx
  rcases List.mem_append.mp hx with hx | hx
  · exact hOld.nodes x hx
  · rw [List.mem_singleton.mp hx]
    exact hId

/-! ## Building blocks -/

theorem endBlock {kind : BlockKind} {control : Option NodeId} (h : Within g root s)
    (hEnd : Schedule.endBlock s id b kind control = .ok t)
    (hLive : ∀ c, control = some c → g.Live root c)
    (hEnded : kind = .branch ∨ kind = .ret → ∃ c, control = some c)
    (hBranch : kind = .branch → ∀ c, control = some c → g.HasOp c .branch) : Within g root t := by
  obtain ⟨-, -, -, rfl⟩ := endBlock_eq_ok hEnd
  refine h.modifyBlock ?_
  intro block hBlock
  exact ⟨(h.block hBlock).head, (h.block hBlock).nodes, hLive, hEnded, hBranch⟩

/-- The blocks that a live node ends. -/
theorem endBlocks (h : Within g root s) (hn : g.node? id = some n) (hLive : g.Live root id) :
    Settles (fun _ => True) (Schedule.endBlocks g s id n) (Within g root) := by
  have hId : ∀ c, some id = some c → g.Live root c := by
    rintro c ⟨⟩
    exact hLive
  unfold Schedule.endBlocks
  split
  · -- A branch or a return is recorded as what ends the block; a jump records nothing.
    next hOp =>
    refine Settles.intro fun t ht => ?_
    obtain ⟨c, -, ht⟩ := bind_eq_ok.mp ht
    obtain ⟨b, -, hEnd⟩ := bind_eq_ok.mp ht
    refine h.endBlock hEnd hId (fun _ => ⟨id, rfl⟩) ?_
    rintro - c ⟨⟩
    exact ⟨n, hn, hOp⟩
  · refine Settles.intro fun t ht => ?_
    obtain ⟨c, -, ht⟩ := bind_eq_ok.mp ht
    obtain ⟨b, -, hEnd⟩ := bind_eq_ok.mp ht
    exact h.endBlock hEnd hId (fun _ => ⟨id, rfl⟩) (by simp)
  · refine Settles.bind (P := fun _ => True) (Settles.intro fun _ _ => trivial) fun target _ => ?_
    refine Settles.foldlM_mem (I := Within g root) h ?_
    intro input _ t ht
    refine Settles.intro fun u hu => ?_
    obtain ⟨b, -, hu⟩ := bind_eq_ok.mp hu
    obtain ⟨v, hEnd, hu⟩ := bind_eq_ok.mp hu
    cases pure_eq_ok.mp hu
    exact (ht.endBlock hEnd (by simp) (by simp) (by simp)).link b target
  · exact Settles.pure h

theorem linkBranch (h : Within g root s) :
    Settles (fun _ => True) (Schedule.linkBranch g live s b) (Within g root) := by
  refine Settles.intro fun t ht => ?_
  unfold Schedule.linkBranch at ht
  obtain ⟨block, -, ht⟩ := bind_eq_ok.mp ht
  split at ht
  · cases ht
  · obtain ⟨found, -, ht⟩ := bind_eq_ok.mp ht
    split at ht
    · obtain ⟨x, -, ht⟩ := bind_eq_ok.mp ht
      obtain ⟨y, -, ht⟩ := bind_eq_ok.mp ht
      cases pure_eq_ok.mp ht
      exact (h.link b x).link b y
    · cases ht
  · cases pure_eq_ok.mp ht
    exact h

/-- The blocks before any of them has an end. -/
theorem init (hRoot : g.Knows root) (hOld : ∀ id, live.contains id = true → g.Knows id) :
    Within g root { blocks := ((headsOf g live).map fun head => { head }).toArray } := by
  refine ⟨nofun, ?_⟩
  intro b block hBlock
  rw [List.getElem?_toArray, List.getElem?_map, Option.map_eq_some_iff] at hBlock
  obtain ⟨head, hHead, rfl⟩ := hBlock
  refine ⟨?_, by simp, nofun, by simp, nofun⟩
  rcases mem_headsOf.mp (List.mem_of_getElem? hHead) with rfl | ⟨-, hLive, -⟩
  · -- There is a node, so there is a first one.
    obtain ⟨n, hn⟩ := hRoot
    obtain ⟨hNonneg, hLt⟩ := Graph.node?_lt hn
    exact Graph.exists_node? (Int.le_refl 0) (Int.lt_of_le_of_lt hNonneg hLt)
  · exact hOld head hLive

theorem endAll (hLive : ∀ id, live.contains id = true → g.Live root id) (h : Within g root s) :
    Settles (fun _ => True) (g.nodes.toList.zipIdx.foldlM
      (fun s (n, id) => if live.mem id then Schedule.endBlocks g s id n else pure s) s)
      (Within g root) := by
  refine Settles.foldlM_mem (I := Within g root) h ?_
  rintro ⟨n, k⟩ hn t ht
  dsimp only
  split
  · next hMem =>
    refine ht.endBlocks (Graph.mem_zipIdx.mp hn) (hLive k ?_)
    rw [BitSet.contains_natCast]
    exact hMem
  · exact Settles.pure ht

theorem linkAll (h : Within g root s) (l : List Nat) :
    Settles (fun _ => True) (l.foldlM (Schedule.linkBranch g live) s) (Within g root) :=
  Settles.foldlM_mem (I := Within g root) h fun _ _ _ ht => ht.linkBranch

theorem inOrder (h : Within g root s) (hEdges : s.EdgesKnown) (h0 : 0 < s.blocks.size)
    (hSize : s.inOrder.blocks.size = s.blocks.size) : Within g root s.inOrder := by
  refine { home := ?home, block := ?block }
  case home =>
    intro id b hHome
    obtain ⟨a, ha, -⟩ := Option.bind_eq_some_iff.mp
      (show (s.home id).bind (fun b => s.postorder.idxOf? b) = some b from hHome)
    exact h.home ha
  case block =>
    intro i new hNew
    obtain ⟨b, block, -, hBlock, hMoved, -⟩ := hEdges.exists_old h0 hSize hNew
    exact (h.block hBlock).moved hMoved

theorem buildBlocks (hRoot : g.Knows root) (hLive : ∀ id, live.contains id = true → g.Live root id)
    (hOld : ∀ id, live.contains id = true → g.Knows id) :
    Settles (fun _ => True) (Schedule.buildBlocks g live) (Within g root) := by
  refine Settles.intro fun s hBuild => ?_
  -- That no block is lost in the order is what the check at the end is for.
  obtain ⟨linked, hLinks, hSize, rfl⟩ := buildBlocks_eq_ok.mp hBuild
  have hUnordered := linkedBlocks_unordered hLinks
  obtain ⟨ended, hEnded, hLinked⟩ := bind_eq_ok.mp hLinks
  obtain ⟨first, hFirst, -⟩ := hUnordered.first
  have hWithin : Within g root linked :=
    ((((init hRoot hOld).endAll hLive).of_ok hEnded : Within g root ended).linkAll _).of_ok hLinked
  exact hWithin.inOrder hUnordered.edges.consistent.edgesKnown
    (Array.getElem?_eq_some_iff.mp hFirst).1 hSize

/-! ## Placing nodes -/

theorem placeControl (hVerify : g.verify = .ok ()) (hRoot : g.Knows root) (h : Within g root s) :
    Within g root (Schedule.placeControl s) := by
  unfold Schedule.placeControl
  refine Settles.foldl (I := fun _ => Within g root) h ?_
  rintro front ⟨block, b⟩ rest t hSplit ht
  -- The loop goes through the blocks as they were before it, and changes none of them.
  have hMem : (block, b) ∈ s.blocks.toList.zipIdx := by
    rw [hSplit]
    simp
  have hBlock : s.blocks[b]? = some block := by
    rw [← Array.getElem?_toList]
    exact List.mem_zipIdx_iff_getElem?.mp hMem
  have hHead := ht.place (h.block hBlock).head b
  dsimp only
  cases hControl : block.control with
  | none => exact hHead
  | some c =>
    exact hHead.place (((h.block hBlock).control c hControl).node_of_verify hVerify hRoot) b

theorem placeNodes (h : Within g root (Schedule.placeControl s)) :
    Settles (fun _ => True) ((Schedule.placeNodes g exit live).run s) fun p => Within g root p.2 :=
  placeNodes_keepsAll (fun _ b _ n hn _ hWithin => hWithin.append ⟨n, hn⟩ b) h

/-- One block is put into order. -/
theorem orderBlock (h : Within g root s) (b : Nat) :
    Settles (fun _ => True) (do
      let nodes ← orderNodes g s b
      return s.modifyBlock b fun block => { block with nodes }) (Within g root) := by
  refine Settles.intro fun t ht => ?_
  obtain ⟨nodes, hNodes, ht⟩ := bind_eq_ok.mp ht
  cases pure_eq_ok.mp ht
  refine h.modifyBlock ?_
  intro block hBlock
  refine (h.block hBlock).listing ?_
  intro id hId
  exact (h.block hBlock).nodes id (mem_orderNodes hBlock hNodes hId)

theorem orderBlocks (h : Within g root s) :
    Settles (fun _ => True) (Schedule.orderBlocks g s) (Within g root) :=
  Settles.foldlM_mem (I := Within g root) h fun b _ _ ht => ht.orderBlock b

end Within

/-- A computed schedule speaks of nodes of its graph only. -/
theorem compute_within (hVerify : g.verify = .ok ()) (hCompute : compute g = .ok s) :
    ∃ exit, g.exit = some exit ∧ g.Knows exit ∧ Within g exit s := by
  obtain ⟨exit, live, f, placed, h, hOrder⟩ := compute_stages hCompute
  have hRoot : g.Knows exit := node_of_liveNodes h.marked
  have hLive := (liveNodes_of_verify (R := fun _ => True) hVerify hRoot).of_ok h.marked
  have hBuilt : Within g exit f := (Within.buildBlocks hRoot (fun id => (hLive id).mp)
    fun id hId => ((hLive id).mp hId).node_of_verify hVerify hRoot).of_ok h.built
  have hWithin : Within g exit placed :=
    (hBuilt.placeControl hVerify hRoot).placeNodes.of_ok h.placed
  exact ⟨exit, h.exit, hRoot, hWithin.orderBlocks.of_ok hOrder⟩

end ArmBackend.Schedule
