import ArmBackend.Proofs.Dominance
import ArmBackend.Proofs.Schedule.Walk
import Mathlib.Data.List.Nodup
import Mathlib.Data.List.Perm.Subperm
import Mathlib.Data.List.Range

/-!
# The order of blocks

When the walk leaves as many blocks as there are, putting the blocks into its order only moves them.
`inOrder` sets the dominators by walks around each block instead of by sweeps. They are dominators by
paths, and those that the sweeps find.

## Results

* `EdgesKnown.exists_new`, `EdgesKnown.exists_old` — the blocks of the ordered schedule are the old
  ones, each at its place in the order; only the first is dominated by no other.
* `EdgesKnown.dominates_of_dom` — a stored immediate dominator dominates by paths.
-/

namespace ArmBackend

namespace Schedule

variable {s : Schedule} {order : List Nat} {b i : Nat} {block : Block} {id : NodeId}

/-! ## Moving the blocks -/

/-- Whether a block has the contents of another; the edges may be different. -/
structure Moved (old new : Block) : Prop where
  kind : new.kind = old.kind
  head : new.head = old.head
  nodes : new.nodes = old.nodes
  control : new.control = old.control

theorem Moved.trans {a b c : Block} (h : Moved a b) (h' : Moved b c) : Moved a c :=
  ⟨h'.kind.trans h.kind, h'.head.trans h.head, h'.nodes.trans h.nodes, h'.control.trans h.control⟩

/-- The block at a place of the order, with its edges renumbered. -/
theorem renumber_getElem? (hOrder : ∀ b ∈ order, b < s.blocks.size) (hb : order[i]? = some b)
    (hBlock : s.blocks[b]? = some block) :
    (s.renumber order).blocks[i]? = some
      { block with
        succ := block.succ.filterMap fun b => order.idxOf? b
        pred := block.pred.filterMap fun b => order.idxOf? b } := by
  -- with every number in range the filter drops nothing, so the renumbering is a map
  let moved (b : Nat) : Block :=
    let block := s.blocks[b]?.getD { head := 0 }
    { block with
      succ := block.succ.filterMap fun b => order.idxOf? b
      pred := block.pred.filterMap fun b => order.idxOf? b }
  have hMap : (s.renumber order).blocks = (order.map moved).toArray := by
    unfold renumber
    show List.toArray _ = _
    refine congrArg List.toArray ?_
    refine List.filterMap_eq_map_iff_forall_eq_some.mpr ?_
    intro a ha
    rw [Array.getElem?_eq_getElem (hOrder a ha)]
    simp only [Option.map_some, moved, Array.getElem?_eq_getElem (hOrder a ha), Option.getD_some]
  rw [hMap, List.getElem?_toArray, List.getElem?_map, hb]
  simp only [Option.map_some, moved, hBlock, Option.getD_some]

/-- Every place in the order is that of the block it names. -/
theorem renumber_block (hOrder : ∀ b ∈ order, b < s.blocks.size) (hb : order[i]? = some b)
    (hBlock : s.blocks[b]? = some block) :
    ∃ new, (s.renumber order).blocks[i]? = some new ∧ Moved block new ∧
      new.succ = block.succ.filterMap fun b => order.idxOf? b :=
  ⟨_, renumber_getElem? hOrder hb hBlock, ⟨rfl, rfl, rfl, rfl⟩, rfl⟩

theorem size_renumber (hOrder : ∀ b ∈ order, b < s.blocks.size) :
    (s.renumber order).blocks.size = order.length := by
  unfold renumber
  rw [List.size_toArray, List.length_filterMap_eq_countP, List.countP_eq_length]
  intro b hb
  rw [Array.getElem?_eq_getElem (hOrder b hb)]
  rfl

/-! ## Dominators by walks -/

/-- The blocks other than `b` that every path from the first block to `b` goes through. -/
def strictDominators (without : Array (List Nat)) (b : Nat) : List Nat :=
  (List.range without.size).filter fun a => a ≠ b && without[a]?.any fun reached => b ∉ reached

/-- Sets the immediate dominator and the depth of every block. -/
def setDominators (s : Schedule) : Schedule :=
  let count := s.blocks.size
  let without := ((List.range count).map (reachedWithout s.successors count)).toArray
  { s with blocks := s.blocks.mapIdx fun b block =>
      let dominators := strictDominators without b
      { block with dom := dominators.getLast?, depth := dominators.length } }

/-- The schedule with its blocks in reverse post-order and their dominators set. -/
def inOrder (s : Schedule) : Schedule :=
  (s.renumber (reversePostorder s.successors s.blocks.size)).setDominators

/-- The first block dominates every other one. -/
theorem zero_mem_strictDominators (succ : Nat → List Nat) {count : Nat} (hCount : 0 < count)
    (hb : b ≠ 0) :
    0 ∈ strictDominators ((List.range count).map (reachedWithout succ count)).toArray b := by
  unfold strictDominators
  have hSize : ((List.range count).map (reachedWithout succ count)).toArray.size = count := by simp
  have hFirst : ((List.range count).map (reachedWithout succ count)).toArray[0]? = some [] := by
    rw [List.getElem?_toArray, List.getElem?_map, List.getElem?_range hCount, Option.map_some,
      reachedWithout_zero]
  rw [List.mem_filter, List.mem_range, hSize, hFirst]
  simp [hCount, hb.symm]

/-- The first block is dominated by no other, for the walk begins with it. -/
theorem strictDominators_zero (succ : Nat → List Nat) (count : Nat) :
    strictDominators ((List.range count).map (reachedWithout succ count)).toArray 0 = [] := by
  unfold strictDominators
  refine List.filter_eq_nil_iff.mpr ?_
  intro a ha hDominates
  rw [Bool.and_eq_true, decide_eq_true_eq] at hDominates
  obtain ⟨hNe, hReached⟩ := hDominates
  have hCount : a < count := by simpa using ha
  rw [List.getElem?_toArray, List.getElem?_map, List.getElem?_range hCount] at hReached
  have hNot : 0 ∉ reachedWithout succ count a := by simpa using hReached
  refine hNot ?_
  unfold reachedWithout Walk.visit
  rw [if_neg (by simpa using Ne.symm hNe)]
  exact List.mem_cons_self

theorem setDominators_block (hBlock : s.blocks[i]? = some block) :
    ∃ new, s.setDominators.blocks[i]? = some new ∧ Moved block new ∧ (new.depth = 0 ↔ i = 0) := by
  unfold setDominators
  dsimp only
  rw [Array.getElem?_mapIdx, hBlock]
  refine ⟨_, rfl, ⟨rfl, rfl, rfl, rfl⟩, ?_, ?_⟩
  · intro hDepth
    by_contra hi
    have hLt := (Array.getElem?_eq_some_iff.mp hBlock).1
    have hMem := zero_mem_strictDominators s.successors (Nat.zero_lt_of_lt hLt) hi
    rw [List.length_eq_zero_iff.mp hDepth] at hMem
    cases hMem
  · rintro rfl
    exact congrArg List.length (strictDominators_zero s.successors s.blocks.size)

/-! ## The ordered schedule -/

/-- The order of the walk over the blocks. -/
def postorder (s : Schedule) : List Nat :=
  reversePostorder s.successors s.blocks.size

/-- Whether every edge leads to a block. -/
def EdgesKnown (s : Schedule) : Prop :=
  ∀ b x, x ∈ s.successors b → x < s.blocks.size

theorem EdgesKnown.lt_of_mem (h : s.EdgesKnown) (h0 : 0 < s.blocks.size) (hb : b ∈ s.postorder) :
    b < s.blocks.size :=
  of_mem_reversePostorder (P := fun b => b < s.blocks.size) (fun a x _ hx => h a x hx) h0 hb

/-- When no block is dropped the order has every block once. -/
theorem EdgesKnown.postorder_perm (h : s.EdgesKnown) (h0 : 0 < s.blocks.size)
    (hSize : s.inOrder.blocks.size = s.blocks.size) :
    s.postorder.Perm (List.range s.blocks.size) := by
  have hLength : s.postorder.length = s.blocks.size := by
    rw [← hSize, inOrder, setDominators, Array.size_mapIdx]
    exact (size_renumber fun b hb => h.lt_of_mem h0 hb).symm
  refine (List.subperm_of_subset reversePostorder_nodup ?_).perm_of_length_le ?_
  · intro b hb
    exact List.mem_range.mpr (h.lt_of_mem h0 hb)
  · rw [List.length_range]
    exact hLength.ge

/-- The block at a place of the order is moved to that place. -/
theorem EdgesKnown.inOrder_block (h : s.EdgesKnown) (h0 : 0 < s.blocks.size)
    (hb : s.postorder[i]? = some b) (hBlock : s.blocks[b]? = some block) :
    ∃ new, s.inOrder.blocks[i]? = some new ∧ Moved block new ∧ (new.depth = 0 ↔ i = 0) := by
  obtain ⟨mid, hMid, hMoved, -⟩ := renumber_block (fun b hb => h.lt_of_mem h0 hb) hb hBlock
  obtain ⟨new, hNew, hMoved', hDepth⟩ := setDominators_block hMid
  exact ⟨new, hNew, hMoved.trans hMoved', hDepth⟩

/-- Every block has a place in the order. -/
theorem EdgesKnown.exists_new (h : s.EdgesKnown) (h0 : 0 < s.blocks.size)
    (hSize : s.inOrder.blocks.size = s.blocks.size) (hBlock : s.blocks[b]? = some block) :
    ∃ (i : Nat) (new : Block), s.postorder[i]? = some b ∧ s.inOrder.blocks[i]? = some new ∧
      Moved block new := by
  have hLt := (Array.getElem?_eq_some_iff.mp hBlock).1
  have hMem := (h.postorder_perm h0 hSize).mem_iff.mpr (List.mem_range.mpr hLt)
  obtain ⟨i, hi⟩ := List.mem_iff_getElem?.mp hMem
  obtain ⟨new, hNew, hMoved, -⟩ := h.inOrder_block h0 hi hBlock
  exact ⟨i, new, hi, hNew, hMoved⟩

/-- Every place in the order is that of a block. -/
theorem EdgesKnown.exists_old {new : Block} (h : s.EdgesKnown) (h0 : 0 < s.blocks.size)
    (hSize : s.inOrder.blocks.size = s.blocks.size) (hNew : s.inOrder.blocks[i]? = some new) :
    ∃ (b : Nat) (block : Block), s.postorder[i]? = some b ∧ s.blocks[b]? = some block ∧
      Moved block new ∧ (new.depth = 0 ↔ i = 0) := by
  have hPerm := h.postorder_perm h0 hSize
  have hLt : i < s.postorder.length := by
    rw [hPerm.length_eq, List.length_range, ← hSize]
    exact (Array.getElem?_eq_some_iff.mp hNew).1
  have hi := List.getElem?_eq_getElem hLt
  have hb := h.lt_of_mem h0 (List.mem_of_getElem? hi)
  have hBlock := Array.getElem?_eq_getElem hb
  obtain ⟨new', hNew', hMoved, hDepth⟩ := h.inOrder_block h0 hi hBlock
  obtain rfl : new = new' := Option.some.inj (hNew.symm.trans hNew')
  exact ⟨_, _, hi, hBlock, hMoved, hDepth⟩

theorem postorder_inj {j : Nat} (hi : s.postorder[i]? = some b) (hj : s.postorder[j]? = some b) :
    i = j :=
  (List.getElem?_inj (List.getElem?_eq_some_iff.mp hi).1 reversePostorder_nodup).mp
    (hi.trans hj.symm)

/-! ## Dominators by paths -/

theorem setDominators_successors (s : Schedule) : s.setDominators.successors = s.successors := by
  funext b
  unfold successors setDominators
  dsimp only
  rw [Array.getElem?_mapIdx]
  cases s.blocks[b]? <;> rfl

theorem setDominators_predecessors (s : Schedule) :
    s.setDominators.predecessors = s.predecessors := by
  funext b
  unfold predecessors setDominators
  dsimp only
  rw [Array.getElem?_mapIdx]
  cases s.blocks[b]? <;> rfl

/-- A block that is stored as a dominator is on every path. -/
theorem EdgesKnown.mem_path_of_dom {d : Nat} {path : List Nat} (h : s.EdgesKnown)
    (hBlock : s.setDominators.blocks[b]? = some block) (hDom : block.dom = some d)
    (hPath : s.IsPath path b) : d ∈ path := by
  unfold setDominators at hBlock
  dsimp only at hBlock
  rw [Array.getElem?_mapIdx] at hBlock
  obtain ⟨old, hOld, rfl⟩ := Option.map_eq_some_iff.mp hBlock
  have hLt := (Array.getElem?_eq_some_iff.mp hOld).1
  have hMem := List.mem_of_getLast? hDom
  unfold strictDominators at hMem
  rw [List.mem_filter, Bool.and_eq_true] at hMem
  obtain ⟨hRange, -, hReached⟩ := hMem
  have hd : d < s.blocks.size := by simpa using hRange
  rw [List.getElem?_toArray, List.getElem?_map, List.getElem?_range hd] at hReached
  have hNot : b ∉ reachedWithout s.successors s.blocks.size d := by simpa using hReached
  -- a path around `d` would be found by the search that leaves `d` out
  by_contra hAvoids
  obtain ⟨hChain, hHead, hLast⟩ := hPath
  exact hNot (mem_reachedWithout (fun a x hx => h a x hx) (Nat.zero_lt_of_lt hLt) hChain hHead
    hAvoids (List.mem_of_getLast? hLast))

/-- The block at a place of the order has the successors of the old block, at their places. -/
theorem EdgesKnown.successors_renumber (h : s.EdgesKnown) (h0 : 0 < s.blocks.size)
    (hb : s.postorder[i]? = some b) :
    (s.renumber s.postorder).successors i =
      (s.successors b).filterMap fun x => s.postorder.idxOf? x := by
  have hLt := h.lt_of_mem h0 (List.mem_of_getElem? hb)
  have hBlock := Array.getElem?_eq_getElem hLt
  obtain ⟨new, hNew, -, hSucc⟩ := renumber_block (fun b hb => h.lt_of_mem h0 hb) hb hBlock
  unfold successors
  rw [hNew, hBlock]
  exact hSucc

theorem EdgesKnown.predecessors_renumber (h : s.EdgesKnown) (h0 : 0 < s.blocks.size)
    (hb : s.postorder[i]? = some b) :
    (s.renumber s.postorder).predecessors i =
      (s.predecessors b).filterMap fun x => s.postorder.idxOf? x := by
  have hLt := h.lt_of_mem h0 (List.mem_of_getElem? hb)
  have hBlock := Array.getElem?_eq_getElem hLt
  unfold predecessors
  rw [renumber_getElem? (fun b hb => h.lt_of_mem h0 hb) hb hBlock, hBlock]
  rfl

theorem EdgesKnown.renumber (h : s.EdgesKnown) (h0 : 0 < s.blocks.size) :
    (s.renumber s.postorder).EdgesKnown := by
  intro i x hx
  have hSize := size_renumber fun b hb => h.lt_of_mem h0 hb
  cases hb : s.postorder[i]? with
  | none =>
    unfold successors at hx
    rw [Array.getElem?_eq_none (by rw [hSize]; exact List.getElem?_eq_none_iff.mp hb)] at hx
    cases hx
  | some b =>
    rw [h.successors_renumber h0 hb] at hx
    obtain ⟨y, -, hy⟩ := List.mem_filterMap.mp hx
    rw [hSize]
    exact (List.idxOf?_eq_some_iff.mp hy).1

theorem postorder_idxOf? (hi : s.postorder[i]? = some b) : s.postorder.idxOf? b = some i := by
  have hMem := List.mem_of_getElem? hi
  cases hFind : s.postorder.idxOf? b with
  | none => exact absurd hMem (List.idxOf?_eq_none_iff.mp hFind)
  | some j =>
    obtain ⟨hj, hAt, -⟩ := List.idxOf?_eq_some_iff.mp hFind
    rw [postorder_inj hi (List.getElem?_eq_some_iff.mpr ⟨hj, hAt⟩)]

/-- Every block that is kept can be reached. -/
theorem EdgesKnown.reached (h : s.EdgesKnown) (h0 : 0 < s.blocks.size)
    (hSize : s.inOrder.blocks.size = s.blocks.size) (hi : s.postorder[i]? = some b) :
    (s.renumber s.postorder).Reached i := by
  have hAll : ∀ j, s.postorder[j]? = some b → (s.renumber s.postorder).Reached j := by
    refine of_mem_reversePostorder (P := fun b => ∀ j : Nat, s.postorder[j]? = some b →
      (s.renumber s.postorder).Reached j) ?_ ?_ (List.mem_of_getElem? hi)
    · intro a x ha hx j hj
      -- The walk came to the block along an edge from a block with a place of its own.
      have hKnown : a < s.blocks.size := by
        by_contra hNot
        unfold successors at hx
        rw [Array.getElem?_eq_none (Nat.not_lt.mp hNot)] at hx
        cases hx
      obtain ⟨k, hk⟩ := List.mem_iff_getElem?.mp
        ((h.postorder_perm h0 hSize).mem_iff.mpr (List.mem_range.mpr hKnown))
      obtain ⟨path, hPath⟩ := ha k hk
      refine ⟨path ++ [j], hPath.concat ?_⟩
      rw [h.successors_renumber h0 hk]
      exact List.mem_filterMap.mpr ⟨x, hx, postorder_idxOf? hj⟩
    · intro j hj
      rw [postorder_inj hj reversePostorder_head]
      exact ⟨[0], List.isChain_singleton 0, rfl, rfl⟩
  exact hAll i hi

/-- A stored immediate dominator dominates by paths. -/
theorem EdgesKnown.dominates_of_dom {d : Nat} (h : s.EdgesKnown) (h0 : 0 < s.blocks.size)
    (hSize : s.inOrder.blocks.size = s.blocks.size) (hBlock : s.inOrder.blocks[i]? = some block)
    (hDom : block.dom = some d) : s.inOrder.Dominates d i := by
  obtain ⟨b, -, hb, -⟩ := h.exists_old h0 hSize hBlock
  have hPaths : ∀ path, s.inOrder.IsPath path i ↔ (s.renumber s.postorder).IsPath path i := by
    intro path
    unfold IsPath inOrder
    rw [setDominators_successors]
    rfl
  refine .inr ⟨?_, ?_⟩
  · obtain ⟨path, hPath⟩ := h.reached h0 hSize hb
    exact ⟨path, (hPaths path).mpr hPath⟩
  · intro path hPath
    exact (h.renumber h0).mem_path_of_dom hBlock hDom ((hPaths path).mp hPath)

/-- The dominators that the stored ones lead to dominate by paths. -/
theorem dominates_sound {a : Nat} (hDom : ∀ (b : Nat) (block : Block) (d : Nat),
      s.blocks[b]? = some block → block.dom = some d → s.Dominates d b)
    (h : s.dominates a b = true) : s.Dominates a b := by
  -- induction on the fuel: each step goes up to a dominator
  have hClimb : ∀ fuel b, dominates.climb s a fuel b = true → s.Dominates a b := by
    intro fuel
    induction fuel with
    | zero =>
      intro b h
      cases h
    | succ fuel ih =>
      intro b h
      unfold dominates.climb at h
      split at h
      · next hEq => exact .inl hEq
      · split at h
        · next d hd =>
          obtain ⟨block, hBlock, hIs⟩ := Option.bind_eq_some_iff.mp hd
          exact (ih d h).trans (hDom b block d hBlock hIs)
        · cases h
  exact hClimb _ b h

end Schedule
end ArmBackend
