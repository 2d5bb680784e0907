import ArmBackend.Proofs.Schedule.Upward

/-!
# Building a schedule block by block

What the three ways to change a schedule under construction do to the heads, the nodes and the edges
of its blocks: appending a node to a block, ending a block, and opening a new block that is entered
from blocks that are there. Whatever is not named stays as it was.
-/

namespace ArmBackend.Schedule

variable {s : Schedule} {b x : Nat} {id head : NodeId} {f : Block → Block} {sources : List Nat}

/-- A change that keeps the nodes of a block keeps those of all. -/
theorem nodesOf_modifyBlock (hNodes : ∀ block, (f block).nodes = block.nodes) (x : Nat) :
    (s.modifyBlock b f).nodesOf x = s.nodesOf x := by
  unfold nodesOf
  rw [getElem?_modifyBlock]
  split
  · cases s.blocks[x]? with
    | none => rfl
    | some block => exact hNodes block
  · rfl

/-- A change that keeps the head of a block keeps those of all. -/
theorem headOf?_modifyBlock (hHead : ∀ block, (f block).head = block.head) (x : Nat) :
    (s.modifyBlock b f).headOf? x = s.headOf? x := by
  unfold headOf?
  rw [getElem?_modifyBlock]
  split
  · cases s.blocks[x]? with
    | none => rfl
    | some block => exact congrArg some (hHead block)
  · rfl

/-- Only a block that there is has a head. -/
theorem headOf?_lt (h : s.headOf? x = some head) : x < s.blocks.size := by
  obtain ⟨block, hBlock, -⟩ := Option.map_eq_some_iff.mp h
  exact (Array.getElem?_eq_some_iff.mp hBlock).1

/-- Changing a block in a way that keeps its edges and its depth keeps what the order needs. -/
theorem Unordered.modifyBlock (h : s.Unordered) (hSucc : ∀ block, (f block).succ = block.succ)
    (hPred : ∀ block, (f block).pred = block.pred)
    (hDepth : ∀ block, (f block).depth = block.depth) : (s.modifyBlock b f).Unordered := by
  refine ⟨fun x y => ?_, ?_⟩
  · rw [successors_modifyBlock hSucc, predecessors_modifyBlock hPred]
    exact h.edges x y
  · obtain ⟨first, hFirst, hZero⟩ := h.first
    rw [getElem?_modifyBlock, hFirst]
    split
    · exact ⟨f first, rfl, (hDepth first).trans hZero⟩
    · exact ⟨first, rfl, hZero⟩

/-! ## Appending a node -/

/-- Appending a node adds no block. -/
theorem size_append : (s.append b id).blocks.size = s.blocks.size :=
  size_modifyBlock (s.place b id) b _

/-- Appending a node keeps the heads. -/
theorem headOf?_append : (s.append b id).headOf? x = s.headOf? x := by
  unfold append
  refine headOf?_modifyBlock ?_ x
  exact fun _ => rfl

/-- Appending a node keeps the edges. -/
theorem predecessors_append : (s.append b id).predecessors x = s.predecessors x := by
  unfold append
  refine predecessors_modifyBlock ?_ x
  exact fun _ => rfl

/-- The node comes behind the others of its block. -/
theorem nodesOf_append (hb : b < s.blocks.size) :
    (s.append b id).nodesOf x = if x = b then s.nodesOf x ++ [id] else s.nodesOf x := by
  unfold nodesOf append
  rw [getElem?_modifyBlock]
  show Option.elim (if b = x then s.blocks[x]?.map _ else s.blocks[x]?) _ _ = _
  by_cases hx : x = b
  · subst hx
    rw [if_pos rfl, if_pos rfl, Array.getElem?_eq_getElem hb]
    rfl
  · rw [if_neg (Ne.symm hx), if_neg hx]

/-- A node of a block is an old one or the one that was appended there. -/
theorem mem_nodesOf_append (hb : b < s.blocks.size) {y : NodeId} :
    y ∈ (s.append b id).nodesOf x ↔ y ∈ s.nodesOf x ∨ (x = b ∧ y = id) := by
  rw [nodesOf_append hb]
  by_cases hx : x = b <;> simp [hx]

/-- The blocks can still be put into order. -/
theorem Unordered.append (h : s.Unordered) : (s.append b id).Unordered := by
  have hPlaced : (s.place b id).Unordered := ⟨h.edges, h.first⟩
  unfold Schedule.append
  refine hPlaced.modifyBlock ?_ ?_ ?_ <;> exact fun _ => rfl

/-! ## Ending a block -/

/-- The schedule with a block ended in some way. -/
def ended (s : Schedule) (b : Nat) (kind : BlockKind) (control : Option NodeId) : Schedule :=
  Schedule.modifyBlock (control.elim s (s.place b)) b fun block => { block with kind, control }

section Ended

variable {kind : BlockKind} {control : Option NodeId}

/-- Ending a block adds none. -/
theorem size_ended : (s.ended b kind control).blocks.size = s.blocks.size := by
  unfold ended
  refine (size_modifyBlock _ b _).trans ?_
  cases control <;> rfl

/-- Ending a block keeps the heads. -/
theorem headOf?_ended : (s.ended b kind control).headOf? x = s.headOf? x := by
  unfold ended
  refine (headOf?_modifyBlock ?_ x).trans ?_
  · exact fun _ => rfl
  · cases control <;> rfl

/-- Ending a block keeps the nodes. -/
theorem nodesOf_ended : (s.ended b kind control).nodesOf x = s.nodesOf x := by
  unfold ended
  refine (nodesOf_modifyBlock ?_ x).trans ?_
  · exact fun _ => rfl
  · cases control <;> rfl

/-- Ending a block keeps the edges. -/
theorem predecessors_ended : (s.ended b kind control).predecessors x = s.predecessors x := by
  unfold ended
  refine (predecessors_modifyBlock ?_ x).trans ?_
  · exact fun _ => rfl
  · cases control <;> rfl

/-- The blocks can still be put into order. -/
theorem Unordered.ended (h : s.Unordered) : (s.ended b kind control).Unordered := by
  -- Placing the node that ends the block changes none of the blocks.
  have hPlaced : Unordered (control.elim s (s.place b)) := by
    cases control with
    | none => exact h
    | some id => exact ⟨h.edges, h.first⟩
  unfold Schedule.ended
  refine hPlaced.modifyBlock ?_ ?_ ?_ <;> exact fun _ => rfl

end Ended

/-! ## Opening a block -/

/-- The schedule with one more block, which is entered from the given ones. -/
def opened (s : Schedule) (head : NodeId) (sources : List Nat) : Schedule :=
  sources.foldl (fun t p => t.link p s.blocks.size)
    ((s.newBlock head).1.place s.blocks.size head)

/-- Edges to one block, added one after the other. -/
theorem foldl_link_getElem? (s : Schedule) (sources : List Nat) (b x : Nat) :
    (sources.foldl (fun t p => t.link p b) s).blocks[x]? = s.blocks[x]?.map fun block =>
      { block with
        succ := block.succ ++ List.replicate (sources.count x) b
        pred := block.pred ++ if x = b then sources else [] } := by
  induction sources generalizing s with
  | nil =>
    rw [List.foldl_nil]
    cases s.blocks[x]? with
    | none => rfl
    | some block => simp
  | cons p sources ih =>
    rw [List.foldl_cons, ih, link_getElem?, Option.map_map]
    refine congrArg (fun g => Option.map g _) (funext fun block => ?_)
    -- a source counted twice is linked twice
    have hCount : (if x = p then [b] else []) ++ List.replicate (sources.count x) b =
        List.replicate ((p :: sources).count x) b := by
      by_cases hx : x = p
      · rw [if_pos hx, hx, List.count_cons_self, List.replicate_succ]
        rfl
      · rw [if_neg hx, List.count_cons_of_ne (Ne.symm hx)]
        rfl
    simp only [Function.comp_apply, List.append_assoc, hCount]
    by_cases hb : x = b <;> simp [hb]

/-- The new block comes last, and its sources get it as a successor. -/
theorem opened_getElem? (s : Schedule) (head : NodeId) (sources : List Nat) (x : Nat) :
    (s.opened head sources).blocks[x]? =
      (s.blocks.push { head })[x]?.map fun block =>
        { block with
          succ := block.succ ++ List.replicate (sources.count x) s.blocks.size
          pred := block.pred ++ if x = s.blocks.size then sources else [] } :=
  foldl_link_getElem? ((s.newBlock head).1.place s.blocks.size head) sources s.blocks.size x

/-- There is one block more. -/
theorem size_opened : (s.opened head sources).blocks.size = s.blocks.size + 1 := by
  have hFold : ∀ t : Schedule, (sources.foldl (fun t p => t.link p s.blocks.size) t).blocks.size =
      t.blocks.size := by
    induction sources with
    | nil => exact fun _ => rfl
    | cons p sources ih => exact fun t => (ih _).trans (size_link t p _)
  exact (hFold _).trans (Array.size_push _)

/-- The new block has the given head, the others keep theirs. -/
theorem headOf?_opened : (s.opened head sources).headOf? x =
    if x = s.blocks.size then some head else s.headOf? x := by
  unfold headOf?
  rw [opened_getElem?, Option.map_map, Array.getElem?_push]
  split <;> rfl

/-- A new block has no nodes, like a position without a block. -/
theorem nodesOf_opened : (s.opened head sources).nodesOf x = s.nodesOf x := by
  unfold nodesOf
  rw [opened_getElem?, Array.getElem?_push]
  split
  · next hx =>
    rw [hx, Array.getElem?_eq_none (Nat.le_refl _)]
    rfl
  · cases s.blocks[x]? <;> rfl

/-- The new block has the given sources as its predecessors. -/
theorem predecessors_opened : (s.opened head sources).predecessors x =
    if x = s.blocks.size then sources else s.predecessors x := by
  unfold predecessors
  rw [opened_getElem?, Array.getElem?_push]
  split
  · rfl
  · cases s.blocks[x]? with
    | none => rfl
    | some block => exact List.append_nil _

/-- A block without edges can be put into order. -/
theorem Unordered.newBlock (h : s.Unordered) : Unordered (s.newBlock head).1 := by
  -- the new block has no edges, and the old ones keep theirs
  have hViews : ∀ x, (s.newBlock head).1.successors x = s.successors x ∧
      (s.newBlock head).1.predecessors x = s.predecessors x := by
    intro x
    unfold successors predecessors Schedule.newBlock
    dsimp only
    rw [Array.getElem?_push]
    split
    · next hx =>
      rw [hx, Array.getElem?_eq_none (Nat.le_refl _)]
      exact ⟨rfl, rfl⟩
    · exact ⟨rfl, rfl⟩
  refine ⟨fun x y => ?_, ?_⟩
  · rw [(hViews x).1, (hViews y).2]
    exact h.edges x y
  · obtain ⟨first, hFirst, hZero⟩ := h.first
    have hLt := (Array.getElem?_eq_some_iff.mp hFirst).1
    refine ⟨first, ?_, hZero⟩
    show (s.blocks.push { head })[0]? = some first
    rw [Array.getElem?_push, if_neg (by omega)]
    exact hFirst

/-- The blocks can still be put into order. -/
theorem Unordered.opened (h : s.Unordered) (hSources : ∀ p ∈ sources, p < s.blocks.size) :
    (s.opened head sources).Unordered := by
  have hFold : ∀ t : Schedule, t.Unordered → t.blocks.size = s.blocks.size + 1 →
      (sources.foldl (fun t p => t.link p s.blocks.size) t).Unordered := by
    induction sources with
    | nil => exact fun t ht _ => ht
    | cons p sources ih =>
      intro t ht hSize
      have hp := hSources p List.mem_cons_self
      exact ih (fun q hq => hSources q (List.mem_cons_of_mem _ hq)) _
        (ht.link (by omega) (by omega)) ((size_link t p _).trans hSize)
  have hNew : (s.newBlock head).1.Unordered := h.newBlock
  exact hFold _ ⟨hNew.edges, hNew.first⟩ (Array.size_push _)

end ArmBackend.Schedule
