import ArmBackend.Proofs.Schedule.Chains
import ArmBackend.Proofs.Schedule.Ordered
import ArmBackend.Proofs.Uses

/-!
# The blocks of a control chain

The blocks are those of the live heads, with the start node in front. Every live branch or return
ends the block that its control chain leads to. An edge leads to a merge or to the projection of a
branch, and both have a control input, so that a head without one is not reached unless it is the
start.

## Results

* `buildBlocks_eq` — the blocks are put into order by the walks around them.
* `Outline` — what holds of the blocks while they are given their ends and edges.
* `buildBlocks_settles` — what the blocks are like when they are done (`Framed`).
-/

namespace ArmBackend

namespace Graph

/-- Whether a node is a branch or a return. -/
def IsEnd (g : Graph) (id : NodeId) : Prop :=
  ∃ n, g.node? id = some n ∧ (n.op = .branch ∨ n.op = .ret)

/-- Whether a node has a control input. -/
def Entered (g : Graph) (id : NodeId) : Prop :=
  ∃ n, g.node? id = some n ∧ n.controlCount ≠ 0

/-- What ends a block starts none. -/
theorem IsEnd.not_isHead {g : Graph} {id : NodeId} (h : g.IsEnd id) : ¬g.IsHead id := by
  rintro ⟨n, hn, hHead⟩
  obtain ⟨m, hm, hEnd⟩ := h
  obtain rfl : n = m := Option.some.inj (hn.symm.trans hm)
  rcases hEnd with hOp | hOp <;> rw [hOp] at hHead <;> cases hHead

/-- What ends a block is no phi. -/
theorem IsEnd.not_isPhi {g : Graph} {id : NodeId} (h : g.IsEnd id) : ¬g.IsPhi id := by
  rintro ⟨n, hn, hPhi⟩
  obtain ⟨m, hm, hEnd⟩ := h
  obtain rfl : n = m := Option.some.inj (hn.symm.trans hm)
  rcases hEnd with hOp | hOp <;> rw [hOp] at hPhi <;> cases hPhi

end Graph

namespace Schedule

variable {g : Graph} {root id h : NodeId} {live : BitSet} {s t : Schedule} {b i : Nat}
variable {block : Block} {n : Node}

/-! ## Heads -/

/-- The heads are the start and the live nodes that start a block. -/
theorem mem_headsOf : h ∈ headsOf g live ↔
    h = 0 ∨ (h ≠ 0 ∧ live.contains h = true ∧ g.IsHead h) := by
  unfold headsOf
  rw [List.mem_cons, List.mem_filterMap]
  refine or_congr Iff.rfl ?_
  simp only [Prod.exists, Graph.mem_zipIdx, Option.ite_none_right_eq_some, Bool.and_eq_true,
    decide_eq_true_eq, Option.some.injEq]
  constructor
  · rintro ⟨n, k, hn, ⟨⟨hMem, hk⟩, hHead⟩, rfl⟩
    exact ⟨by exact_mod_cast hk, by rw [BitSet.contains_natCast]; exact hMem, n, hn, hHead⟩
  · rintro ⟨hk, hMem, n, hn, hHead⟩
    obtain ⟨k, rfl, -⟩ := Graph.node?_eq_some.mp hn
    rw [BitSet.contains_natCast] at hMem
    exact ⟨n, k, hn, ⟨⟨hMem, by exact_mod_cast hk⟩, hHead⟩, rfl⟩

/-- A live node that starts a block is one of the heads. -/
theorem mem_headsOf_of_isHead (hLive : live.contains h = true) (hHead : g.IsHead h) :
    h ∈ headsOf g live := by
  by_cases hZero : h = 0
  · exact mem_headsOf.mpr (.inl hZero)
  · exact mem_headsOf.mpr (.inr ⟨hZero, hLive, hHead⟩)

/-- No head is listed twice. -/
theorem headsOf_nodup : (headsOf g live).Nodup := by
  unfold headsOf
  refine List.nodup_cons.mpr ⟨?_, ?_⟩
  · intro hMem
    obtain ⟨⟨n, k⟩, -, hSome⟩ := List.mem_filterMap.mp hMem
    rw [Option.ite_none_right_eq_some] at hSome
    obtain ⟨hCond, hk⟩ := hSome
    have hZero : k = 0 := Int.ofNat_inj.mp (Option.some.inj hk)
    simp [hZero] at hCond
  · have hIndices : (g.nodes.toList.zipIdx.map Prod.snd).Nodup := by
      rw [List.zipIdx_map_snd]
      exact List.nodup_range' _
    refine List.pairwise_filterMap.mpr ((List.pairwise_map.mp hIndices).imp ?_)
    rintro ⟨n, k⟩ ⟨m, j⟩ hNe x hx y hy rfl
    rw [Option.ite_none_right_eq_some] at hx hy
    have hSame : (k : NodeId) = j := (Option.some.inj hx.2).trans (Option.some.inj hy.2).symm
    exact hNe (Int.ofNat_inj.mp hSame)

/-- The look-up of a head finds a block that starts with it. -/
theorem blockAt_eq_ok (hBlock : s.blocks[i]? = some block) (hHead : block.head = h) :
    ∃ b found, s.blockAt h = .ok b ∧ s.blocks[b]? = some found ∧ found.head = h := by
  unfold blockAt
  cases hFind : s.blocks.findIdx? fun block => decide (block.head = h) with
  | none =>
    have hNot := Array.findIdx?_eq_none_iff.mp hFind block (Array.mem_of_getElem? hBlock)
    rw [hHead, decide_eq_false_iff_not] at hNot
    exact absurd rfl hNot
  | some b =>
    obtain ⟨hLt, hIs, -⟩ := Array.findIdx?_eq_some_iff_getElem.mp hFind
    exact ⟨b, s.blocks[b], rfl, Array.getElem?_eq_getElem hLt, of_decide_eq_true hIs⟩

/-- The look-up of a head finds nothing else. -/
theorem lt_of_blockAt (hAt : s.blockAt h = .ok b) :
    ∃ block, s.blocks[b]? = some block ∧ block.head = h := by
  unfold blockAt at hAt
  split at hAt
  · next i hFind =>
    cases hAt
    obtain ⟨hLt, hIs, -⟩ := Array.findIdx?_eq_some_iff_getElem.mp hFind
    exact ⟨_, Array.getElem?_eq_getElem hLt, of_decide_eq_true hIs⟩
  · cases hAt

/-- Where every live head has a block, the control chain of a live node leads to a block. -/
theorem blockOfControl_settles {R : Fault → Prop} (hWell : g.WellFormed)
    (hHeads : ∀ h, g.Live root h → g.IsHead h →
      ∃ (b : Nat) (block : Block), s.blocks[b]? = some block ∧ block.head = h)
    (hId : g.Live root id) (hClimb : Settles R (headOf g id) (g.ControlHead id)) :
    Settles R (blockOfControl g s id) fun b =>
      ∃ block, s.blocks[b]? = some block ∧ g.ControlHead id block.head := by
  unfold Schedule.blockOfControl
  refine hClimb.bind ?_
  intro head hChain
  obtain ⟨i, old, hOld, hIs⟩ := hHeads head (hChain.live hWell hId) hChain.2
  obtain ⟨b, block, hAt, hBlock, rfl⟩ := blockAt_eq_ok hOld hIs
  exact Settles.of_eq_ok hAt ⟨block, hBlock, hChain⟩

/-! ## Changing one block -/

/-- How the blocks change while they are given ends and edges: they keep their heads, and a block
that has ended keeps its end. -/
def Progress (s t : Schedule) : Prop :=
  ∀ (i : Nat) (block : Block), s.blocks[i]? = some block →
    ∃ new, t.blocks[i]? = some new ∧ new.head = block.head ∧
      (block.kind ≠ .none → new.kind = block.kind ∧ new.control = block.control)

/-- Nothing was changed. -/
theorem Progress.refl (s : Schedule) : Progress s s :=
  fun _ block hBlock => ⟨block, hBlock, rfl, fun _ => ⟨rfl, rfl⟩⟩

/-- Two changes, one after the other. -/
theorem Progress.trans {u : Schedule} (h : Progress s t) (h' : Progress t u) : Progress s u := by
  intro i block hBlock
  obtain ⟨mid, hMid, hHead, hKeep⟩ := h i block hBlock
  obtain ⟨new, hNew, hHead', hKeep'⟩ := h' i mid hMid
  refine ⟨new, hNew, hHead'.trans hHead, ?_⟩
  intro hKind
  obtain ⟨hSame, hControl⟩ := hKeep hKind
  obtain ⟨hSame', hControl'⟩ := hKeep' (by rw [hSame]; exact hKind)
  exact ⟨hSame'.trans hSame, hControl'.trans hControl⟩

/-- A change of one block that keeps its head, and its end if it has one. -/
theorem Progress.modifyBlock {f : Block → Block} (hHead : ∀ block, (f block).head = block.head)
    (hKeep : ∀ block, s.blocks[b]? = some block → block.kind ≠ .none →
      (f block).kind = block.kind ∧ (f block).control = block.control) :
    Progress s (s.modifyBlock b f) := by
  intro i block hBlock
  rw [getElem?_modifyBlock]
  by_cases hb : b = i
  · subst hb
    rw [if_pos rfl, hBlock]
    exact ⟨f block, rfl, hHead block, hKeep block hBlock⟩
  · rw [if_neg hb]
    exact ⟨block, hBlock, rfl, fun _ => ⟨rfl, rfl⟩⟩

/-! ## Blocks that can be put into order -/

/-- A node that has a place is in a block that there is. -/
theorem blockAt_lt (h : s.blockAt id = .ok b) : b < s.blocks.size := by
  obtain ⟨block, hBlock, -⟩ := lt_of_blockAt h
  exact (Array.getElem?_eq_some_iff.mp hBlock).1

/-- A block that is found is one that there is. -/
theorem block_lt (h : s.block b = .ok block) : b < s.blocks.size := by
  unfold Schedule.block at h
  split at h
  · next hBlock => exact (Array.getElem?_eq_some_iff.mp hBlock).1
  · cases h

/-- A block gets its end, and keeps its edges and its depth. -/
theorem Unordered.endBlock {kind : BlockKind} {control : Option NodeId} (h : s.Unordered)
    (hEnd : Schedule.endBlock s id b kind control = .ok t) :
    t.Unordered ∧ t.blocks.size = s.blocks.size ∧ b < s.blocks.size := by
  unfold Schedule.endBlock at hEnd
  obtain ⟨block, hBlock, hEnd⟩ := bind_eq_ok.mp hEnd
  obtain ⟨-, hEnd⟩ := check_eq_ok.mp hEnd
  cases pure_eq_ok.mp hEnd
  refine ⟨⟨fun x y => ?_, ?_⟩, size_modifyBlock .., block_lt hBlock⟩
  · rw [successors_modifyBlock, predecessors_modifyBlock]
    · exact h.edges x y
    · exact fun _ => rfl
    · exact fun _ => rfl
  · obtain ⟨first, hAt, hDepth⟩ := h.first
    rw [getElem?_modifyBlock, hAt]
    split
    · exact ⟨_, rfl, hDepth⟩
    · exact ⟨first, rfl, hDepth⟩

/-- Ending the blocks of a node keeps them fit for an order. -/
theorem Unordered.endBlocks (h : s.Unordered) :
    Settles (fun _ => True) (endBlocks g s id n) Unordered := by
  have hEndAt : ∀ {kind control}, Settles (fun _ => True)
      (do Schedule.endBlock s id (← blockOfControl g s (← n.controlIn)) kind control) Unordered := by
    intro kind control
    refine Settles.intro fun t hEnd => ?_
    obtain ⟨u, -, hEnd⟩ := bind_eq_ok.mp hEnd
    obtain ⟨b, -, hEnd⟩ := bind_eq_ok.mp hEnd
    exact (h.endBlock hEnd).1
  unfold Schedule.endBlocks
  split
  · exact hEndAt
  · exact hEndAt
  · -- a merge ends the block of each of its inputs and links it to its own
    refine Settles.bind (P := fun target => target < s.blocks.size)
      (Settles.intro fun b hb => blockAt_lt hb) fun target hTarget => ?_
    refine Settles.mono (Settles.foldlM_mem (I := fun t => t.Unordered ∧ target < t.blocks.size)
      ⟨h, hTarget⟩ fun input _ t ht => Settles.intro fun v hv => ?_) fun t ht => ht.1
    obtain ⟨b, -, hv⟩ := bind_eq_ok.mp hv
    obtain ⟨u, hu, hv⟩ := bind_eq_ok.mp hv
    cases pure_eq_ok.mp hv
    obtain ⟨hUnordered, hSize, hb⟩ := ht.1.endBlock hu
    rw [size_link, hSize]
    exact ⟨hUnordered.link (hSize ▸ hb) (hSize ▸ ht.2), ht.2⟩
  · exact Settles.pure h

/-- Linking the arms of a branch keeps them so. -/
theorem Unordered.linkBranch (h : s.Unordered) :
    Settles (fun _ => True) (linkBranch g live s b) Unordered := by
  unfold Schedule.linkBranch
  refine Settles.bind (P := fun _ => b < s.blocks.size)
    (Settles.intro fun block hBlock => block_lt hBlock) fun block hb => ?_
  split
  · exact trivial
  · refine Settles.bind (P := fun _ => True) (Settles.intro fun _ _ => trivial) fun pair _ => ?_
    split
    · refine Settles.intro fun t ht => ?_
      obtain ⟨x, hx, ht⟩ := bind_eq_ok.mp ht
      obtain ⟨y, hy, ht⟩ := bind_eq_ok.mp ht
      cases pure_eq_ok.mp ht
      have hLinked := h.link hb (blockAt_lt hx)
      exact hLinked.link (by rw [size_link]; exact hb) (by rw [size_link]; exact blockAt_lt hy)
    · exact trivial
  · exact Settles.pure h

/-- The blocks of the heads, when every live node has ended its blocks. -/
theorem Unordered.endAll (h : s.Unordered) :
    Settles (fun _ => True) (g.nodes.toList.zipIdx.foldlM
      (fun s (n, id) => if live.mem id then Schedule.endBlocks g s id n else pure s) s) Unordered := by
  refine Settles.foldlM_mem (I := Unordered) h ?_
  rintro ⟨n, k⟩ - u hu
  dsimp only
  split
  · exact hu.endBlocks
  · exact Settles.pure hu

/-- So does linking all branches. -/
theorem Unordered.linkAll (h : s.Unordered) :
    Settles (fun _ => True) ((List.range s.blocks.size).foldlM (Schedule.linkBranch g live) s)
      Unordered :=
  Settles.foldlM_mem (I := Unordered) h fun _ _ _ hu => hu.linkBranch

/-- The blocks of the heads with their ends and edges, not in order yet. -/
def linkedBlocks (g : Graph) (live : BitSet) : Except Fault Schedule := do
  let s : Schedule := { blocks := ((headsOf g live).map fun head => { head }).toArray }
  let s ← g.nodes.toList.zipIdx.foldlM
    (fun s (n, id) => if live.mem id then endBlocks g s id n else pure s) s
  (List.range s.blocks.size).foldlM (linkBranch g live) s

/-- The linked blocks can be put into order. -/
theorem linkedBlocks_unordered (h : linkedBlocks g live = .ok s) : s.Unordered := by
  obtain ⟨ended, hEnded, hLinked⟩ := bind_eq_ok.mp h
  have hUnordered : ended.Unordered := (Unordered.endAll (.ofHeads _ _ _)).of_ok hEnded
  exact hUnordered.linkAll.of_ok hLinked

/-- Building the blocks, with the order of the walks. -/
theorem buildBlocks_eq (g : Graph) (live : BitSet) :
    buildBlocks g live = (do
      let s ← linkedBlocks g live
      if s.inOrder.blocks.size ≠ s.blocks.size then throw (.floatingControl .unreachable)
      return s.inOrder) := by
  -- the pass refuses a graph when the order has lost a block
  have hOrder : buildBlocks g live = (do
      let r ← (← linkedBlocks g live).order
      if !r.2 then throw (.floatingControl .unreachable)
      return r.1) := by
    unfold buildBlocks linkedBlocks
    rw [bind_assoc]
  rw [hOrder]
  refine bind_congr_ok fun s hs => ?_
  have hLinked := linkedBlocks_unordered hs
  unfold order
  rw [ordered_eq hLinked.edges.consistent hLinked.first, ok_bind, pure_bind]
  dsimp only
  by_cases hSize : s.inOrder.blocks.size = s.blocks.size
  · rw [decide_eq_true hSize, if_neg (not_not_intro hSize)]
    rfl
  · rw [decide_eq_false hSize, if_pos hSize]
    rfl

/-- Blocks are built when all of them can be put into order. -/
theorem buildBlocks_eq_ok : buildBlocks g live = .ok s ↔ ∃ linked, linkedBlocks g live = .ok linked ∧
    linked.inOrder.blocks.size = linked.blocks.size ∧ s = linked.inOrder := by
  rw [buildBlocks_eq]
  constructor
  · intro h
    obtain ⟨linked, hLinked, h⟩ := bind_eq_ok.mp h
    obtain ⟨hSize, h⟩ := check_eq_ok.mp h
    exact ⟨linked, hLinked, of_not_not hSize, (pure_eq_ok.mp h).symm⟩
  · rintro ⟨linked, hLinked, hSize, rfl⟩
    rw [hLinked, ok_bind]
    exact check_eq_ok.mpr ⟨not_not_intro hSize, rfl⟩

/-! ## Outlines -/

/-- A block that may still be without an end and without edges. -/
structure Sketch (g : Graph) (root : NodeId) (live : BitSet) (block : Block) : Prop where
  nodes : block.nodes = []
  unended : block.kind = .none → block.control = none
  head : block.kind ≠ .none → g.IsHead block.head
  control : ∀ c, block.control = some c →
    g.Live root c ∧ g.IsEnd c ∧ g.ControlHead c block.head
  succ : ∀ t ∈ block.succ, ∃ h, (headsOf g live)[t]? = some h ∧ g.Entered h

/-- The blocks of the live heads. -/
structure Outline (g : Graph) (root : NodeId) (live : BitSet) (s : Schedule) : Prop where
  heads : s.blocks.toList.map Block.head = headsOf g live
  home : ∀ id, s.home id = none
  sketch : ∀ (b : Nat) (block : Block), s.blocks[b]? = some block → Sketch g root live block

namespace Outline

/-- The blocks come in the order of the heads. -/
theorem headsOf_getElem? (h : Outline g root live s) (hBlock : s.blocks[b]? = some block) :
    (headsOf g live)[b]? = some block.head := by
  rw [← h.heads, List.getElem?_map, Array.getElem?_toList, hBlock]
  rfl

/-- There is a block for each head. -/
theorem size (h : Outline g root live s) : s.blocks.size = (headsOf g live).length := by
  rw [← h.heads, List.length_map, Array.length_toList]

/-- A live head has a block. -/
theorem blockAt (h : Outline g root live s) (hMem : id ∈ headsOf g live) :
    ∃ b block, s.blockAt id = .ok b ∧ s.blocks[b]? = some block ∧ block.head = id := by
  obtain ⟨i, hi⟩ := List.mem_iff_getElem?.mp hMem
  rw [← h.heads, List.getElem?_map, Array.getElem?_toList, Option.map_eq_some_iff] at hi
  obtain ⟨block, hBlock, hHead⟩ := hi
  exact blockAt_eq_ok hBlock hHead

/-- A change of one block that keeps its head and leaves a sketch. -/
theorem modifyBlock {f : Block → Block} (h : Outline g root live s)
    (hHead : ∀ block, (f block).head = block.head)
    (hSketch : ∀ block, s.blocks[b]? = some block → Sketch g root live block →
      Sketch g root live (f block)) : Outline g root live (s.modifyBlock b f) := by
  refine ⟨?_, h.home, ?_⟩
  · rw [← h.heads]
    refine List.ext_getElem? fun i => ?_
    rw [List.getElem?_map, List.getElem?_map, Array.getElem?_toList, Array.getElem?_toList,
      getElem?_modifyBlock]
    split
    · cases s.blocks[i]? with
      | none => rfl
      | some block => exact congrArg some (hHead block)
    · rfl
  · -- the other blocks are sketched as before
    intro i block hBlock
    rw [getElem?_modifyBlock] at hBlock
    split at hBlock
    · next hb =>
      subst hb
      obtain ⟨old, hOld, rfl⟩ := Option.map_eq_some_iff.mp hBlock
      exact hSketch old hOld (h.sketch b old hOld)
    · exact h.sketch i block hBlock

/-- A block gets its end. -/
theorem endBlock {kind : BlockKind} {control : Option NodeId} (h : Outline g root live s)
    (hBlock : s.blocks[b]? = some block) (hKind : kind ≠ .none) (hHead : g.IsHead block.head)
    (hControl : ∀ c, control = some c →
      g.Live root c ∧ g.IsEnd c ∧ g.ControlHead c block.head) :
    Settles (g.Rejects root) (endBlock s id b kind control) fun t =>
      Outline g root live t ∧ Progress s t ∧
        ∃ new, t.blocks[b]? = some new ∧ new.control = control := by
  unfold Schedule.endBlock Schedule.block
  rw [hBlock, ok_bind]
  -- a second end for one block is refused
  by_cases hOpen : block.kind = .none
  · rw [if_neg (by simpa using hOpen)]
    refine Settles.pure ⟨h.modifyBlock (fun _ => rfl) ?_, Progress.modifyBlock (fun _ => rfl) ?_, ?_⟩
    · intro old hOld hSketch
      obtain rfl : block = old := Option.some.inj (hBlock.symm.trans hOld)
      exact ⟨hSketch.nodes, fun hNone => absurd hNone hKind, fun _ => hHead, hControl, hSketch.succ⟩
    · intro old hOld hEnded
      obtain rfl : block = old := Option.some.inj (hBlock.symm.trans hOld)
      exact absurd hOpen hEnded
    · rw [getElem?_modifyBlock, if_pos rfl, hBlock]
      exact ⟨_, rfl, rfl⟩
  · rw [if_pos (by simpa using hOpen)]
    exact .inl rfl

/-- An edge is added to a block whose head has a control input. -/
theorem link {target : Nat} (h : Outline g root live s) (hTarget : s.blocks[target]? = some block)
    (hEntered : g.Entered block.head) :
    Outline g root live (s.link b target) ∧ Progress s (s.link b target) := by
  have hHeads := h.headsOf_getElem? hTarget
  refine ⟨?_, ?_⟩
  · refine Outline.modifyBlock (Outline.modifyBlock h (fun _ => rfl) ?_) (fun _ => rfl) ?_
    · -- the block left gains one successor
      intro old _ hSketch
      refine ⟨hSketch.nodes, hSketch.unended, hSketch.head, hSketch.control, ?_⟩
      intro t ht
      rcases List.mem_append.mp ht with hOld | hNew
      · exact hSketch.succ t hOld
      · rw [List.mem_singleton.mp hNew]
        exact ⟨block.head, hHeads, hEntered⟩
    · intro old _ hSketch
      exact ⟨hSketch.nodes, hSketch.unended, hSketch.head, hSketch.control, hSketch.succ⟩
  · unfold Schedule.link
    refine Progress.trans (Progress.modifyBlock ?_ ?_) (Progress.modifyBlock ?_ ?_)
    · exact fun _ => rfl
    · exact fun _ _ _ => ⟨rfl, rfl⟩
    · exact fun _ => rfl
    · exact fun _ _ _ => ⟨rfl, rfl⟩

end Outline

/-! ## Ends -/

/-- Whether a node ends a block. -/
def EndsBlock (s : Schedule) (id : NodeId) : Prop :=
  ∃ (b : Nat) (block : Block), s.blocks[b]? = some block ∧ block.control = some id

/-- A node that ends a block goes on doing so. -/
theorem EndsBlock.progress (h : Outline g root live s) (hEnds : s.EndsBlock id)
    (hProgress : Progress s t) : t.EndsBlock id := by
  obtain ⟨b, block, hBlock, hControl⟩ := hEnds
  obtain ⟨new, hNew, -, hKeep⟩ := hProgress b block hBlock
  have hKind : block.kind ≠ .none := by
    intro hNone
    rw [(h.sketch b block hBlock).unended hNone] at hControl
    cases hControl
  exact ⟨b, new, hNew, (hKeep hKind).2.trans hControl⟩

namespace Outline

section Build

variable (hWell : g.WellFormed) (hRoot : ∃ n, g.node? root = some n)
  (hLive : ∀ id, live.contains id = true ↔ g.Live root id)
include hWell hRoot hLive

/-- The control chain of a live node leads to a block. -/
theorem blockOfControl (h : Outline g root live s) (hId : g.Live root id) :
    Settles (g.Rejects root) (blockOfControl g s id) fun b =>
      ∃ block, s.blocks[b]? = some block ∧ g.ControlHead id block.head := by
  obtain ⟨n, hn⟩ := hId.node hWell hRoot
  refine blockOfControl_settles hWell ?_ hId (headOf_settles hWell hn hId)
  intro head hHeadLive hHead
  obtain ⟨b, block, -, hBlock, hIs⟩ :=
    h.blockAt (mem_headsOf_of_isHead ((hLive head).mpr hHeadLive) hHead)
  exact ⟨b, block, hBlock, hIs⟩

/-- A branch or a return ends the block of its control. -/
theorem endAt {kind : BlockKind} (h : Outline g root live s) (hn : g.node? id = some n)
    (hId : g.Live root id) (hEnd : n.op = .branch ∨ n.op = .ret) (hKind : kind ≠ .none) :
    Settles (g.Rejects root)
      (do Schedule.endBlock s id (← Schedule.blockOfControl g s (← n.controlIn)) kind (some id))
      fun t => Outline g root live t ∧ Progress s t ∧ t.EndsBlock id := by
  have hControl : n.controlCount = (1 : Nat) :=
    hWell.controlCount hn (by rcases hEnd with hOp | hOp <;> rw [hOp] <;> rfl)
  have hHead : n.op.isHead = false := by rcases hEnd with hOp | hOp <;> rw [hOp] <;> rfl
  have hNonzero : n.controlCount ≠ 0 := by omega
  -- its one control input leads to the head of the block that it ends
  obtain ⟨u, hu, hInput⟩ := hWell.controlIn hn hNonzero
  rw [hu, ok_bind]
  refine (h.blockOfControl hWell hRoot hLive (hId.input hInput)).bind ?_
  rintro b ⟨block, hBlock, hChain⟩
  refine (h.endBlock hBlock hKind hChain.2 ?_).mono ?_
  · rintro c ⟨⟩
    exact ⟨hId, ⟨n, hn, hEnd⟩, hChain.step ⟨n, hn, hHead, hNonzero, hu⟩⟩
  · rintro t ⟨hOutline, hProgress, new, hNew, hEnds⟩
    exact ⟨hOutline, hProgress, b, new, hNew, hEnds⟩

/-- A merge ends the blocks that lead to it. -/
theorem mergeAt (h : Outline g root live s) (hn : g.node? id = some n) (hId : g.Live root id)
    (hMerge : n.op = .merge) :
    Settles (g.Rejects root) (endBlocks g s id n) fun t => Outline g root live t ∧ Progress s t := by
  have hHead : g.IsHead id := ⟨n, hn, by rw [hMerge]; rfl⟩
  have hMem : id ∈ headsOf g live := mem_headsOf_of_isHead ((hLive id).mpr hId) hHead
  obtain ⟨target, block, hAt, hBlock, hIs⟩ := h.blockAt hMem
  unfold endBlocks
  rw [hMerge]
  dsimp only
  rw [hAt, ok_bind]
  refine Settles.foldlM_mem (I := fun t => Outline g root live t ∧ Progress s t)
    ⟨h, Progress.refl s⟩ ?_
  rintro input hInput t ⟨hOutline, hProgress⟩
  -- A merge with an input has a control input, for it has no others.
  have hEntered : g.Entered id := by
    have hPos := List.length_pos_of_mem hInput
    have hCount := hWell.controlCount_merge hn hMerge
    exact ⟨n, hn, by omega⟩
  refine (hOutline.blockOfControl hWell hRoot hLive (hId.input ⟨n, hn, hInput⟩)).bind ?_
  rintro b ⟨old, hOld, hChain⟩
  refine (hOutline.endBlock hOld (by decide) hChain.2 (by simp)).bind ?_
  rintro u ⟨hOutline', hProgress', -⟩
  obtain ⟨new, hNew, hSame, -⟩ := (hProgress.trans hProgress') target block hBlock
  obtain ⟨hLinked, hKept⟩ := hOutline'.link (b := b) hNew (by rw [hSame, hIs]; exact hEntered)
  exact Settles.pure ⟨hLinked, (hProgress.trans hProgress').trans hKept⟩

/-- The blocks that one live node ends. -/
theorem endBlocks (h : Outline g root live s) (hn : g.node? id = some n) (hId : g.Live root id) :
    Settles (g.Rejects root) (endBlocks g s id n) fun t =>
      Outline g root live t ∧ Progress s t ∧ (g.IsEnd id → t.EndsBlock id) := by
  -- Branches and returns end one block, a merge those that jump to it, other nodes none.
  by_cases hEnd : n.op = .branch ∨ n.op = .ret
  · have hAt : ∀ kind, kind ≠ .none → Settles (g.Rejects root)
        (do Schedule.endBlock s id (← Schedule.blockOfControl g s (← n.controlIn)) kind (some id))
        fun t => Outline g root live t ∧ Progress s t ∧ (g.IsEnd id → t.EndsBlock id) := by
      intro kind hKind
      refine (h.endAt hWell hRoot hLive hn hId hEnd hKind).mono ?_
      rintro t ⟨hOutline, hProgress, hEnds⟩
      exact ⟨hOutline, hProgress, fun _ => hEnds⟩
    unfold Schedule.endBlocks
    rcases hEnd with hOp | hOp
    · rw [hOp]
      exact hAt .branch (by decide)
    · rw [hOp]
      exact hAt .ret (by decide)
  · have hNot : ¬g.IsEnd id := by
      rintro ⟨m, hm, hOp⟩
      obtain rfl : n = m := Option.some.inj (hn.symm.trans hm)
      exact hEnd hOp
    by_cases hMerge : n.op = .merge
    · refine (h.mergeAt hWell hRoot hLive hn hId hMerge).mono ?_
      rintro t ⟨hOutline, hProgress⟩
      exact ⟨hOutline, hProgress, fun hIs => absurd hIs hNot⟩
    · unfold Schedule.endBlocks
      split
      · next hOp => exact absurd (.inl hOp) hEnd
      · next hOp => exact absurd (.inr hOp) hEnd
      · next hOp => exact absurd hOp hMerge
      · exact Settles.pure ⟨h, Progress.refl s, fun hIs => absurd hIs hNot⟩

/-! ## Edges of branches -/

omit hRoot hLive in
/-- The projections of a branch that are found are live heads with a control input. -/
theorem projections {R : Fault → Prop} (hn : g.node? id = some n) :
    Settles R (projections g live id) fun p =>
      ∀ x, p.1 = some x ∨ p.2 = some x → x ∈ headsOf g live ∧ g.Entered x := by
  unfold Schedule.projections
  rw [hWell.uses hn, ok_bind]
  refine Settles.pure ?_
  -- Whichever of the two it is, it is the last user with a given operator.
  have hLast : ∀ op x, (((((g.edgesTo id).filterMap fun u =>
      if live.contains u.user then (g.node? u.user).map fun n => (u.user, n.op) else none).filter
        fun p => p.2 = op).getLast?).map (·.1)) = some x →
      live.contains x = true ∧ ∃ n, g.node? x = some n ∧ n.op = op := by
    intro op x hx
    obtain ⟨⟨user, o⟩, hGet, rfl⟩ := Option.map_eq_some_iff.mp hx
    obtain ⟨hUser, hOp⟩ := List.mem_filter.mp (List.mem_of_getLast? hGet)
    obtain ⟨u, -, hu⟩ := List.mem_filterMap.mp hUser
    rw [Option.ite_none_right_eq_some] at hu
    obtain ⟨m, hm, hPair⟩ := Option.map_eq_some_iff.mp hu.2
    cases hPair
    exact ⟨hu.1, m, hm, of_decide_eq_true hOp⟩
  intro x hx
  obtain ⟨op, hOp, hx⟩ : ∃ op, (op = .ifTrue ∨ op = .ifFalse) ∧
      live.contains x = true ∧ ∃ n, g.node? x = some n ∧ n.op = op := by
    rcases hx with hx | hx
    · exact ⟨.ifTrue, .inl rfl, hLast _ x hx⟩
    · exact ⟨.ifFalse, .inr rfl, hLast _ x hx⟩
  obtain ⟨hMem, m, hm, rfl⟩ := hx
  have hHead : m.op.isHead = true := by rcases hOp with hOp | hOp <;> rw [hOp] <;> rfl
  have hControl : m.controlCount = (1 : Nat) :=
    hWell.controlCount hm (by rcases hOp with hOp | hOp <;> rw [hOp] <;> rfl)
  exact ⟨mem_headsOf_of_isHead hMem ⟨m, hm, hHead⟩, m, hm, by omega⟩

omit hRoot hLive in
/-- A block that ends in a branch gets its edges. -/
theorem linkBranch (h : Outline g root live s) (hBlock : s.blocks[b]? = some block) :
    Settles (g.Rejects root) (linkBranch g live s b) fun t =>
      Outline g root live t ∧ Progress s t ∧ block.kind ≠ .none := by
  unfold Schedule.linkBranch Schedule.block
  rw [hBlock, ok_bind]
  split
  · exact .inl rfl
  · next branch hKind hControl =>
    obtain ⟨-, ⟨n, hn, -⟩, -⟩ := (h.sketch b block hBlock).control branch hControl
    refine (projections hWell hn).bind ?_
    intro p hFound
    split
    · next x y =>
      obtain ⟨hx, hEnteredX⟩ := hFound x (.inl rfl)
      obtain ⟨hy, hEnteredY⟩ := hFound y (.inr rfl)
      obtain ⟨i, atX, hAtX, hBlockX, rfl⟩ := h.blockAt hx
      obtain ⟨j, atY, hAtY, hBlockY, rfl⟩ := h.blockAt hy
      rw [hAtX, ok_bind, hAtY, ok_bind]
      -- the two arms are linked one after the other
      obtain ⟨hFirst, hKept⟩ := h.link (b := b) hBlockX hEnteredX
      obtain ⟨mid, hMid, hSame, -⟩ := hKept j atY hBlockY
      obtain ⟨hSecond, hKept'⟩ := hFirst.link (b := b) hMid (by rw [hSame]; exact hEnteredY)
      exact Settles.pure ⟨hSecond, hKept.trans hKept', by rw [hKind]; decide⟩
    · exact .inl rfl
  · next hNone _ => exact Settles.pure ⟨h, Progress.refl s, hNone⟩

/-! ## All blocks -/

omit hWell hRoot hLive in
/-- The blocks before any of them has an end. -/
theorem init : Outline g root live
    { blocks := ((headsOf g live).map fun head => { head }).toArray } := by
  refine ⟨by simp [Function.comp_def], fun _ => rfl, ?_⟩
  intro b block hBlock
  rw [List.getElem?_toArray, List.getElem?_map, Option.map_eq_some_iff] at hBlock
  obtain ⟨head, -, rfl⟩ := hBlock
  exact ⟨rfl, fun _ => rfl, fun hKind => absurd rfl hKind, by simp, by simp⟩

/-- Every live node is given the chance to end blocks. -/
theorem endAll (h : Outline g root live s) :
    Settles (g.Rejects root) (g.nodes.toList.zipIdx.foldlM
        (fun s (n, id) => if live.mem id then Schedule.endBlocks g s id n else pure s) s)
      fun t => Outline g root live t ∧ ∀ id, g.Live root id → g.IsEnd id → t.EndsBlock id := by
  -- The ends that were gone through have ended their blocks, and later steps do not undo that.
  refine (Settles.foldlM (I := fun front t => Outline g root live t ∧
    ∀ p ∈ front, live.mem p.2 = true → g.IsEnd p.2 → t.EndsBlock p.2) ⟨h, by simp⟩ ?_).mono ?_
  · rintro front ⟨n, k⟩ rest t hSplit ⟨hOutline, hDone⟩
    have hn : g.node? k = some n := Graph.mem_zipIdx.mp (by rw [hSplit]; simp)
    by_cases hMem : live.mem k = true
    · have hId : g.Live root k := (hLive k).mp (by rw [BitSet.contains_natCast]; exact hMem)
      simp only [hMem, if_true]
      refine (hOutline.endBlocks hWell hRoot hLive hn hId).mono ?_
      rintro u ⟨hOutline', hProgress, hEnds⟩
      refine ⟨hOutline', ?_⟩
      intro p hp hpMem hpEnd
      rcases List.mem_append.mp hp with hOld | hNew
      · exact (hDone p hOld hpMem hpEnd).progress hOutline hProgress
      · rw [List.mem_singleton.mp hNew] at hpEnd ⊢
        exact hEnds hpEnd
    · simp only [hMem]
      refine Settles.pure ⟨hOutline, ?_⟩
      intro p hp hpMem
      rcases List.mem_append.mp hp with hOld | hNew
      · exact hDone p hOld hpMem
      · rw [List.mem_singleton.mp hNew] at hpMem
        exact absurd hpMem hMem
  · rintro t ⟨hOutline, hDone⟩
    refine ⟨hOutline, ?_⟩
    intro id hId hEnd
    obtain ⟨n, hn⟩ := hId.node hWell hRoot
    obtain ⟨k, rfl, -⟩ := Graph.node?_eq_some.mp hn
    have hMem := (hLive k).mpr hId
    rw [BitSet.contains_natCast] at hMem
    exact hDone (n, k) (Graph.mem_zipIdx.mpr hn) hMem hEnd

omit hRoot hLive in
/-- Every block gets its edges, and has an end then. -/
theorem linkAll (h : Outline g root live s) :
    Settles (g.Rejects root) ((List.range s.blocks.size).foldlM (Schedule.linkBranch g live) s)
      fun t => Outline g root live t ∧ Progress s t ∧
        ∀ (b : Nat) (block : Block), t.blocks[b]? = some block → block.kind ≠ .none := by
  refine (Settles.foldlM (I := fun front t => Outline g root live t ∧ Progress s t ∧
    ∀ b ∈ front, ∃ block : Block, t.blocks[b]? = some block ∧ block.kind ≠ .none)
    ⟨h, Progress.refl s, by simp⟩ ?_).mono ?_
  · rintro front b rest t hSplit ⟨hOutline, hProgress, hDone⟩
    have hb : b < s.blocks.size := List.mem_range.mp (by rw [hSplit]; simp)
    obtain ⟨block, hBlock, -⟩ := hProgress b s.blocks[b] (Array.getElem?_eq_getElem hb)
    refine (hOutline.linkBranch hWell hBlock).mono ?_
    rintro u ⟨hOutline', hProgress', hKind⟩
    refine ⟨hOutline', hProgress.trans hProgress', ?_⟩
    intro i hi
    -- A block that has been looked at had an end, and keeps it.
    obtain ⟨old, hOld, hEnded⟩ : ∃ old : Block, t.blocks[i]? = some old ∧ old.kind ≠ .none := by
      rcases List.mem_append.mp hi with hFront | hLast
      · exact hDone i hFront
      · rw [List.mem_singleton.mp hLast]
        exact ⟨block, hBlock, hKind⟩
    obtain ⟨new, hNew, -, hKeep⟩ := hProgress' i old hOld
    exact ⟨new, hNew, by rw [(hKeep hEnded).1]; exact hEnded⟩
  · rintro t ⟨hOutline, hProgress, hDone⟩
    refine ⟨hOutline, hProgress, ?_⟩
    intro b block hBlock
    have hb : b < s.blocks.size := by
      rw [h.size, ← hOutline.size]
      exact (Array.getElem?_eq_some_iff.mp hBlock).1
    obtain ⟨same, hSame, hKind⟩ := hDone b (List.mem_range.mpr hb)
    obtain rfl : block = same := Option.some.inj (hBlock.symm.trans hSame)
    exact hKind

end Build

end Outline

/-! ## Blocks in order -/

/-- A block in its place, with its end and before any node is placed in it. -/
structure FrameBlock (g : Graph) (root : NodeId) (b : Nat) (block : Block) : Prop where
  nodes : block.nodes = []
  head : g.IsHead block.head
  entered : b ≠ 0 → g.Entered block.head
  depth : block.depth = 0 ↔ b = 0
  control : ∀ c, block.control = some c →
    g.Live root c ∧ g.IsEnd c ∧ g.ControlHead c block.head

/-- The blocks of the control chain, in order. -/
structure Framed (g : Graph) (root : NodeId) (s : Schedule) : Prop where
  first : ∃ block, s.blocks[0]? = some block
  home : ∀ id, s.home id = none
  block : ∀ (b : Nat) (block : Block), s.blocks[b]? = some block → FrameBlock g root b block
  distinct : ∀ (b c : Nat) (block other : Block), s.blocks[b]? = some block →
    s.blocks[c]? = some other → block.head = other.head → b = c
  heads : ∀ h, g.Live root h → g.IsHead h →
    ∃ (b : Nat) (block : Block), s.blocks[b]? = some block ∧ block.head = h
  ends : ∀ id, g.Live root id → g.IsEnd id → s.EndsBlock id
  dominators : ∀ (b : Nat) (block : Block) (d : Nat), s.blocks[b]? = some block →
    block.dom = some d → s.Dominates d b

namespace Outline

/-- The edges of the blocks lead to blocks that there are. -/
theorem edgesKnown (h : Outline g root live s) : s.EdgesKnown := by
  intro b x hx
  unfold successors at hx
  cases hBlock : s.blocks[b]? with
  | none =>
    rw [hBlock] at hx
    cases hx
  | some block =>
    rw [hBlock] at hx
    obtain ⟨head, hHead, -⟩ := (h.sketch b block hBlock).succ x hx
    rw [h.size]
    exact (List.getElem?_eq_some_iff.mp hHead).1

/-- The blocks that can be reached, but for the first, have heads with a control input. -/
theorem entered (h : Outline g root live s) (hb : b ∈ s.postorder) (hZero : b ≠ 0)
    (hBlock : s.blocks[b]? = some block) : g.Entered block.head := by
  have hReached : b = 0 ∨ ∃ head, (headsOf g live)[b]? = some head ∧ g.Entered head := by
    -- induction along the search: every block but the first is found as a successor
    refine of_mem_reversePostorder (P := fun b => b = 0 ∨
      ∃ head, (headsOf g live)[b]? = some head ∧ g.Entered head) ?_ (.inl rfl) hb
    intro a x _ hx
    unfold successors at hx
    cases hFrom : s.blocks[a]? with
    | none =>
      rw [hFrom] at hx
      cases hx
    | some source =>
      rw [hFrom] at hx
      exact .inr ((h.sketch a source hFrom).succ x hx)
  obtain ⟨head, hHead, hEntered⟩ := hReached.resolve_left hZero
  rw [h.headsOf_getElem? hBlock, Option.some.injEq] at hHead
  rw [hHead]
  exact hEntered

/-- Putting the blocks into order keeps what is known about them. -/
theorem framed (h : Outline g root live s)
    (hLive : ∀ id, live.contains id = true ↔ g.Live root id)
    (hEnds : ∀ id, g.Live root id → g.IsEnd id → s.EndsBlock id)
    (hKinds : ∀ (b : Nat) (block : Block), s.blocks[b]? = some block → block.kind ≠ .none)
    (hSize : s.inOrder.blocks.size = s.blocks.size) : Framed g root s.inOrder := by
  have hEdges := h.edgesKnown
  have h0 : 0 < s.blocks.size := by
    rw [h.size]
    exact List.length_pos_of_mem (mem_headsOf.mpr (.inl rfl))
  refine ⟨?_, ?_, ?_, ?_, ?_, ?_, fun _ _ _ => hEdges.dominates_of_dom h0 hSize⟩
  · exact ⟨_, Array.getElem?_eq_getElem (hSize ▸ h0)⟩
  · intro id
    show (s.home id).bind _ = none
    rw [h.home id]
    rfl
  · -- A block in its place is a linked block that was moved.
    intro i new hNew
    obtain ⟨b, block, hb, hBlock, hMoved, hDepth⟩ := hEdges.exists_old h0 hSize hNew
    have hSketch := h.sketch b block hBlock
    refine ⟨hMoved.nodes.trans hSketch.nodes, ?_, ?_, hDepth, ?_⟩
    · rw [hMoved.head]
      exact hSketch.head (hKinds b block hBlock)
    · intro hi
      rw [hMoved.head]
      refine h.entered (List.mem_of_getElem? hb) ?_ hBlock
      rintro rfl
      exact hi (postorder_inj hb reversePostorder_head)
    · intro c hc
      rw [hMoved.control] at hc
      rw [hMoved.head]
      exact hSketch.control c hc
  · intro i j new other hNew hOther hSame
    obtain ⟨b, block, hb, hBlock, hMoved, -⟩ := hEdges.exists_old h0 hSize hNew
    obtain ⟨c, block', hc, hBlock', hMoved', -⟩ := hEdges.exists_old h0 hSize hOther
    rw [hMoved.head, hMoved'.head] at hSame
    have hHead := h.headsOf_getElem? hBlock
    have hHead' := h.headsOf_getElem? hBlock'
    rw [← hSame, ← hHead] at hHead'
    obtain rfl : c = b := (List.getElem?_inj
      (by rw [← h.size]; exact (Array.getElem?_eq_some_iff.mp hBlock').1) headsOf_nodup).mp hHead'
    exact postorder_inj hb hc
  · -- Every live head has a block, which has a place in the order.
    intro head hId hHead
    have hMem := mem_headsOf_of_isHead ((hLive head).mpr hId) hHead
    obtain ⟨b, block, -, hBlock, rfl⟩ := h.blockAt hMem
    obtain ⟨i, new, -, hNew, hMoved⟩ := hEdges.exists_new h0 hSize hBlock
    exact ⟨i, new, hNew, hMoved.head⟩
  · intro id hId hEnd
    obtain ⟨b, block, hBlock, hControl⟩ := hEnds id hId hEnd
    obtain ⟨i, new, -, hNew, hMoved⟩ := hEdges.exists_new h0 hSize hBlock
    exact ⟨i, new, hNew, hMoved.control.trans hControl⟩

end Outline

/-- The blocks get their ends and edges, or the graph is rejected. -/
theorem linkedBlocks_settles (hWell : g.WellFormed) (hRoot : ∃ n, g.node? root = some n)
    (hLive : ∀ id, live.contains id = true ↔ g.Live root id) :
    Settles (g.Rejects root) (linkedBlocks g live) fun s => Outline g root live s ∧
      (∀ id, g.Live root id → g.IsEnd id → s.EndsBlock id) ∧
      ∀ (b : Nat) (block : Block), s.blocks[b]? = some block → block.kind ≠ .none := by
  refine (Outline.endAll hWell hRoot hLive Outline.init).bind ?_
  rintro s ⟨hOutline, hEnds⟩
  refine (hOutline.linkAll hWell).mono ?_
  rintro t ⟨hOutline', hProgress, hKinds⟩
  exact ⟨hOutline', fun id hId hEnd => (hEnds id hId hEnd).progress hOutline hProgress, hKinds⟩

/-- The blocks of the control chain are found, or the graph is rejected. -/
theorem buildBlocks_settles (hWell : g.WellFormed) (hRoot : ∃ n, g.node? root = some n)
    (hLive : ∀ id, live.contains id = true ↔ g.Live root id) :
    Settles (g.Rejects root) (buildBlocks g live) (Framed g root) := by
  rw [buildBlocks_eq]
  refine (linkedBlocks_settles hWell hRoot hLive).bind ?_
  rintro s ⟨hOutline, hEnds, hKinds⟩
  by_cases hSize : s.inOrder.blocks.size = s.blocks.size
  · rw [if_neg (not_not_intro hSize)]
    exact Settles.pure (hOutline.framed hLive hEnds hKinds hSize)
  · rw [if_pos hSize]
    exact .inl rfl

end Schedule
end ArmBackend
