import ArmBackend.Proofs.Schedule.Postorder

/-!
# Blocks that are numbered along their edges

Where every edge goes to a higher number and every block but the first is entered, putting the
blocks into order drops none of them, and the edges still go to higher numbers. The numbers may
change: `Renumbered` says how a schedule follows from another one by new numbers for its blocks.

## Results

* `Forward.placeOf_lt` — a walk along such edges puts every block before its successors.
* `Forward.ordered` — the ordered schedule has all blocks, each at a place of its own.
* `Forward.acyclic` — no way along edges leads back.
-/

namespace ArmBackend

namespace Schedule

variable {s t : Schedule} {position : Nat → Nat} {a b i j x : Nat}

/-! ## New numbers -/

/-- The nodes of the block at a position. -/
def nodesOf (s : Schedule) (b : Nat) : List NodeId :=
  s.blocks[b]?.elim [] Block.nodes

/-- The head of the block at a position. -/
def headOf? (s : Schedule) (b : Nat) : Option NodeId :=
  s.blocks[b]?.map Block.head

/-- Every block of a schedule has a position of its own in another one, with the same contents and
with the edges between the positions. -/
structure Renumbered (position : Nat → Nat) (s t : Schedule) : Prop where
  size : t.blocks.size = s.blocks.size
  lt : ∀ b < s.blocks.size, position b < s.blocks.size
  injective : ∀ a < s.blocks.size, ∀ b < s.blocks.size, position a = position b → a = b
  surjective : ∀ i < t.blocks.size, ∃ b < s.blocks.size, position b = i
  first : position 0 = 0
  heads : ∀ b < s.blocks.size, t.headOf? (position b) = s.headOf? b
  nodes : ∀ b < s.blocks.size, t.nodesOf (position b) = s.nodesOf b
  successors : ∀ b < s.blocks.size, t.successors (position b) = (s.successors b).map position
  predecessors : ∀ b < s.blocks.size, t.predecessors (position b) = (s.predecessors b).map position
  /-- A node is placed where its block has gone. -/
  home : ∀ (x : NodeId), ∀ b < s.blocks.size, s.home x = some b → t.home x = some (position b)

theorem successors_of_le (h : s.blocks.size ≤ b) : s.successors b = [] := by
  unfold successors
  rw [Array.getElem?_eq_none h]
  rfl

theorem predecessors_of_le (h : s.blocks.size ≤ b) : s.predecessors b = [] := by
  unfold predecessors
  rw [Array.getElem?_eq_none h]
  rfl

theorem nodesOf_of_le (h : s.blocks.size ≤ b) : s.nodesOf b = [] := by
  unfold nodesOf
  rw [Array.getElem?_eq_none h]
  rfl

theorem lt_of_mem_successors (hx : x ∈ s.successors b) : b < s.blocks.size := by
  by_contra hNot
  rw [successors_of_le (Nat.not_lt.mp hNot)] at hx
  cases hx

theorem lt_of_mem_predecessors (hx : x ∈ s.predecessors b) : b < s.blocks.size := by
  by_contra hNot
  rw [predecessors_of_le (Nat.not_lt.mp hNot)] at hx
  cases hx

theorem lt_of_mem_nodesOf {id : NodeId} (hId : id ∈ s.nodesOf b) : b < s.blocks.size := by
  by_contra hNot
  rw [nodesOf_of_le (Nat.not_lt.mp hNot)] at hId
  cases hId

/-- Both ends of an edge tell of it under the new numbers. -/
theorem Renumbered.consistent (h : Renumbered position s t) (hEdges : s.Consistent) :
    t.Consistent := by
  intro i j
  -- the same edge, read from its start and from its end
  constructor
  · intro hj
    obtain ⟨b, hb, rfl⟩ := h.surjective i (lt_of_mem_successors hj)
    rw [h.successors b hb] at hj
    obtain ⟨x, hx, rfl⟩ := List.mem_map.mp hj
    have hEdge := (hEdges b x).mp hx
    rw [h.predecessors x (hEdges.lt_size hEdge).2]
    exact List.mem_map_of_mem hEdge
  · intro hi
    obtain ⟨x, hx, rfl⟩ := h.surjective j (lt_of_mem_predecessors hi)
    rw [h.predecessors x hx] at hi
    obtain ⟨b, hb, rfl⟩ := List.mem_map.mp hi
    rw [h.successors b (hEdges.lt_size hb).1]
    exact List.mem_map_of_mem ((hEdges b x).mpr hb)

/-! ## Edges to higher numbers -/

/-- No way along edges to higher numbers leads back. -/
theorem Forward.acyclic (h : s.Forward) (b : Nat) :
    ¬Relation.TransGen (fun x y => y ∈ s.successors x) b b := by
  have hLt : ∀ x y, Relation.TransGen (fun x y => y ∈ s.successors x) x y → x < y := by
    intro x y hWay
    induction hWay with
    | single hEdge => exact (h x).1 _ hEdge
    | tail _ hEdge ih => exact ih.trans ((h _).1 _ hEdge)
  exact fun hCycle => Nat.lt_irrefl b (hLt b b hCycle)

/-- Where every block but the first is entered, a path leads to each. -/
theorem Forward.reached (h : s.Forward) (hEdges : s.Consistent)
    (hEntered : ∀ b, 0 < b → b < s.blocks.size → s.predecessors b ≠ []) (hb : b < s.blocks.size) :
    s.Reached b := by
  -- By induction on the number, for a block is entered from a lower one.
  induction b using Nat.strong_induction_on with
  | _ b ih =>
    by_cases hZero : b = 0
    · rw [hZero]
      exact ⟨[0], List.isChain_singleton 0, rfl, rfl⟩
    · obtain ⟨p, hp⟩ := List.exists_mem_of_ne_nil _ (hEntered b (by omega) hb)
      have hLt := (h b).2 p hp
      obtain ⟨path, hPath⟩ := ih p hLt (by omega)
      exact ⟨path ++ [b], hPath.concat ((hEdges p b).mpr hp)⟩

/-- The place of a block in the order of the walk. -/
def placeOf (s : Schedule) (b : Nat) : Nat :=
  s.postorder.idxOf b

section Ordered

variable (h : s.Forward) (hEdges : s.Consistent)
  (hEntered : ∀ b, 0 < b → b < s.blocks.size → s.predecessors b ≠ []) (h0 : 0 < s.blocks.size)
include h hEdges hEntered h0

theorem Forward.mem_postorder : b ∈ s.postorder ↔ b < s.blocks.size := by
  constructor
  · exact hEdges.edgesKnown.lt_of_mem h0
  · intro hb
    exact (hEdges.edgesKnown.mem_postorder h0).mpr (h.reached hEdges hEntered hb)

theorem Forward.postorder_placeOf (hb : b < s.blocks.size) :
    s.postorder[s.placeOf b]? = some b := by
  have hMem := (h.mem_postorder hEdges hEntered h0).mpr hb
  have hLt := List.idxOf_lt_length_of_mem hMem
  exact (List.getElem?_eq_getElem hLt).trans (congrArg some (List.getElem_idxOf hLt))

/-- Edges lead from listed blocks to listed blocks, so no edge is dropped. -/
theorem Forward.filterMap_postorder {l : List Nat} (hl : ∀ x ∈ l, x < s.blocks.size) :
    l.filterMap (fun x => s.postorder.idxOf? x) = l.map s.placeOf := by
  refine List.filterMap_eq_map_iff_forall_eq_some.mpr fun x hx => ?_
  exact postorder_idxOf? (h.postorder_placeOf hEdges hEntered h0 (hl x hx))

/-- Putting the blocks into order gives them new numbers and nothing else. -/
theorem Forward.renumbered_inOrder : Renumbered s.placeOf s s.inOrder := by
  have hIn : ∀ b ∈ s.postorder, b < s.blocks.size := fun b hb =>
    (h.mem_postorder hEdges hEntered h0).mp hb
  have hAt : ∀ {b}, b < s.blocks.size → s.postorder[s.placeOf b]? = some b :=
    h.postorder_placeOf hEdges hEntered h0
  have hSize : s.inOrder.blocks.size = s.blocks.size :=
    hEdges.edgesKnown.size_inOrder h0 fun b => h.reached hEdges hEntered
  have hLength : s.postorder.length = s.blocks.size := by
    rw [(hEdges.edgesKnown.postorder_perm h0 hSize).length_eq, List.length_range]
  -- A block is moved to its place, with its edges renumbered.
  have hMoved : ∀ {b : Nat} {block : Block}, s.blocks[b]? = some block →
      ∃ dom depth, s.inOrder.blocks[s.placeOf b]? = some
        { block with
          succ := block.succ.filterMap fun b => s.postorder.idxOf? b
          pred := block.pred.filterMap fun b => s.postorder.idxOf? b
          dom, depth } := by
    intro b block hBlock
    have hb := (Array.getElem?_eq_some_iff.mp hBlock).1
    exact ⟨_, _, setDominators_getElem? (renumber_getElem? hIn (hAt hb) hBlock)⟩
  refine { size := hSize, lt := ?lt, injective := ?injective, surjective := ?surjective,
           first := ?first, heads := ?heads, nodes := ?nodes, successors := ?successors,
           predecessors := ?predecessors, home := ?home }
  case lt =>
    intro b hb
    rw [← hLength]
    exact (List.getElem?_eq_some_iff.mp (hAt hb)).1
  case injective =>
    intro a ha b hb hSame
    have hEq := hAt ha
    rw [hSame, hAt hb] at hEq
    exact (Option.some.inj hEq).symm
  case surjective =>
    intro i hi
    have hi' : i < s.postorder.length := by omega
    have hGet := List.getElem?_eq_getElem hi'
    have hb := hIn _ (List.mem_of_getElem? hGet)
    exact ⟨_, hb, postorder_inj (hAt hb) hGet⟩
  case first => exact postorder_inj (hAt h0) reversePostorder_head
  case heads =>
    intro b hb
    obtain ⟨dom, depth, hNew⟩ := hMoved (Array.getElem?_eq_getElem hb)
    unfold headOf?
    rw [hNew, Array.getElem?_eq_getElem hb]
    rfl
  case nodes =>
    intro b hb
    obtain ⟨dom, depth, hNew⟩ := hMoved (Array.getElem?_eq_getElem hb)
    unfold nodesOf
    rw [hNew, Array.getElem?_eq_getElem hb]
    rfl
  case successors =>
    intro b hb
    obtain ⟨dom, depth, hNew⟩ := hMoved (Array.getElem?_eq_getElem hb)
    have hKnown : ∀ x ∈ s.successors b, x < s.blocks.size := hEdges.edgesKnown b
    rw [← h.filterMap_postorder hEdges hEntered h0 hKnown]
    unfold Schedule.successors
    rw [hNew, Array.getElem?_eq_getElem hb]
    rfl
  case predecessors =>
    intro b hb
    obtain ⟨dom, depth, hNew⟩ := hMoved (Array.getElem?_eq_getElem hb)
    have hKnown : ∀ x ∈ s.predecessors b, x < s.blocks.size := fun x hx => by
      have := (h b).2 x hx
      omega
    rw [← h.filterMap_postorder hEdges hEntered h0 hKnown]
    unfold Schedule.predecessors
    rw [hNew, Array.getElem?_eq_getElem hb]
    rfl
  case home =>
    intro x b hb hx
    show (s.home x).bind (fun b => s.postorder.idxOf? b) = _
    rw [hx, Option.bind_some]
    exact postorder_idxOf? (hAt hb)

/-- Along an edge the place in the order grows, for no way leads back. -/
theorem Forward.placeOf_lt (hEdge : x ∈ s.successors b) : s.placeOf b < s.placeOf x := by
  have hAt := h.postorder_placeOf hEdges hEntered h0 (lt_of_mem_successors hEdge)
  have hAt' := h.postorder_placeOf hEdges hEntered h0 (hEdges.edgesKnown b x hEdge)
  by_contra hNot
  have hLeads := leads_of_le hEdges.edgesKnown h0 hEdge hAt hAt' (Nat.not_lt.mp hNot)
  exact h.acyclic b (.head' hEdge hLeads)

/-- In the ordered schedule the edges go to higher numbers again. -/
theorem Forward.inOrder : s.inOrder.Forward := by
  have hNew := h.renumbered_inOrder hEdges hEntered h0
  intro i
  -- behind the last block there are no edges
  by_cases hi : i < s.inOrder.blocks.size
  · obtain ⟨b, hb, rfl⟩ := hNew.surjective i hi
    rw [hNew.successors b hb, hNew.predecessors b hb]
    constructor
    · intro j hj
      obtain ⟨x, hx, rfl⟩ := List.mem_map.mp hj
      exact h.placeOf_lt hEdges hEntered h0 hx
    · intro j hj
      obtain ⟨x, hx, rfl⟩ := List.mem_map.mp hj
      exact h.placeOf_lt hEdges hEntered h0 ((hEdges x b).mpr hx)
  · rw [successors_of_le (Nat.not_lt.mp hi), predecessors_of_le (Nat.not_lt.mp hi)]
    simp

end Ordered

/-- Putting blocks that are numbered along their edges into order keeps all of them, and numbers
them along their edges again. -/
theorem Forward.ordered (h : s.Forward) (hBlocks : s.Unordered)
    (hEntered : ∀ b, 0 < b → b < s.blocks.size → s.predecessors b ≠ []) :
    ∃ t, s.ordered = .ok t ∧ Renumbered s.placeOf s t ∧ t.Forward := by
  have hEdges := hBlocks.edges.consistent
  have h0 : 0 < s.blocks.size := by
    obtain ⟨first, hAt, -⟩ := hBlocks.first
    exact (Array.getElem?_eq_some_iff.mp hAt).1
  exact ⟨s.inOrder, ordered_eq hEdges hBlocks.first, h.renumbered_inOrder hEdges hEntered h0,
    h.inOrder hEdges hEntered h0⟩

end Schedule
end ArmBackend
