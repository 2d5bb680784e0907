import ArmBackend.Proofs.Schedule.Dominators
import ArmBackend.Proofs.Schedule.Order
import Mathlib.Data.List.Sort

/-!
# Blocks in order, with their dominators

Reverse post-order numbers the blocks so that the sweeps find the dominators: every block but the
first comes after one of its predecessors, the block that the walk came to it from. Renumbering the
blocks keeps the paths, so dominance in the ordered schedule is dominance in the old one.

The dominators that the sweeps find are those that walks around each block find, and a block is as
deep as it has dominators besides itself. `ordered_eq` says so for the schedule as a whole; proofs
about the order of blocks use `inOrder`.

## Results

* `Consistent.numbered` — the numbering that the sweeps need.
* `onEveryPath_renumber` — renumbering keeps dominance.
* `ordered_eq` — ordering by sweeps and ordering by walks give the same schedule.
* `ordered_dominators` — in the ordered schedule dominance, immediate dominators and depths are those
  of the paths.
-/

namespace ArmBackend.Schedule

open Dominators

variable {s : Schedule} {table : Array (Option Nat)} {a b d i j : Nat} {block : Block}

/-! ## Reverse post-order -/

/-- In a consistent schedule the edges lead to blocks that there are. -/
theorem Consistent.edgesKnown (h : s.Consistent) : s.EdgesKnown :=
  fun b x hx => (h.lt_size ((h b x).mp hx)).2

/-- The new numbers of some blocks are their places in the order. -/
theorem mem_filterMap_postorder {l : List Nat} :
    j ∈ l.filterMap (fun x => s.postorder.idxOf? x) ↔ ∃ b ∈ l, s.postorder[j]? = some b := by
  rw [List.mem_filterMap]
  refine exists_congr fun b => and_congr_right fun _ => ?_
  constructor
  · intro h
    obtain ⟨hj, hAt, -⟩ := List.idxOf?_eq_some_iff.mp h
    exact List.getElem?_eq_some_iff.mpr ⟨hj, hAt⟩
  · exact postorder_idxOf?

section Renumber

variable (h : s.EdgesKnown) (h0 : 0 < s.blocks.size)
include h h0

/-- Where the order has ended there is no block. -/
theorem renumber_getElem?_eq_none (hi : s.postorder[i]? = none) :
    (s.renumber s.postorder).blocks[i]? = none := by
  refine Array.getElem?_eq_none ?_
  rw [size_renumber fun b hb => h.lt_of_mem h0 hb]
  exact List.getElem?_eq_none_iff.mp hi

/-- An edge of the new blocks is one between the blocks at its places. -/
theorem mem_successors_renumber : j ∈ (s.renumber s.postorder).successors i ↔
    ∃ a b, s.postorder[i]? = some a ∧ s.postorder[j]? = some b ∧ b ∈ s.successors a := by
  cases hi : s.postorder[i]? with
  | none =>
    unfold successors
    rw [renumber_getElem?_eq_none h h0 hi]
    simp
  | some a =>
    rw [h.successors_renumber h0 hi, mem_filterMap_postorder]
    constructor
    · rintro ⟨b, hb, hj⟩
      exact ⟨a, b, rfl, hj, hb⟩
    · rintro ⟨a', b, ha, hj, hb⟩
      exact ⟨b, Option.some.inj ha ▸ hb, hj⟩

/-- The edges backwards are renumbered alike. -/
theorem mem_predecessors_renumber : i ∈ (s.renumber s.postorder).predecessors j ↔
    ∃ a b, s.postorder[i]? = some a ∧ s.postorder[j]? = some b ∧ a ∈ s.predecessors b := by
  cases hj : s.postorder[j]? with
  | none =>
    unfold predecessors
    rw [renumber_getElem?_eq_none h h0 hj]
    simp
  | some b =>
    rw [h.predecessors_renumber h0 hj, mem_filterMap_postorder]
    constructor
    · rintro ⟨a, ha, hi⟩
      exact ⟨a, b, hi, rfl, ha⟩
    · rintro ⟨a, b', hi, hb, ha⟩
      exact ⟨a, Option.some.inj hb ▸ ha, hi⟩

end Renumber

/-- In reverse post-order the blocks are numbered as the sweeps need it. -/
theorem Consistent.numbered (h : s.Consistent) (h0 : 0 < s.blocks.size) :
    (s.renumber s.postorder).Numbered := by
  refine { edges := ?edges, earlier := ?earlier }
  case edges =>
    intro i j
    rw [mem_successors_renumber h.edgesKnown h0, mem_predecessors_renumber h.edgesKnown h0]
    refine exists_congr fun a => exists_congr fun b => ?_
    rw [h a b]
  case earlier =>
    -- The walk came to the block along an edge, from a block that it left later.
    intro j hj hSize
    rw [size_renumber fun b hb => h.edgesKnown.lt_of_mem h0 hb] at hSize
    have hb := List.getElem?_eq_getElem hSize
    obtain ⟨i, hi, a, ha, hEdge⟩ := reversePostorder_led hj hb
    exact ⟨i, (mem_predecessors_renumber h.edgesKnown h0).mpr ⟨a, _, ha, hb, (h a _).mp hEdge⟩, hi⟩

/-! ## Paths -/

/-- The blocks in the order are those that a path leads to. -/
theorem EdgesKnown.mem_postorder (h : s.EdgesKnown) (h0 : 0 < s.blocks.size) :
    b ∈ s.postorder ↔ s.Reached b := by
  constructor
  · refine of_mem_reversePostorder (P := s.Reached) ?_ ⟨[0], List.isChain_singleton 0, rfl, rfl⟩
    rintro a x ⟨path, hPath⟩ hx
    exact ⟨path ++ [x], hPath.concat hx⟩
  · rintro ⟨path, hChain, hHead, hLast⟩
    exact mem_reversePostorder h h0 hChain hHead (List.mem_of_getLast? hLast)

/-- No block is dropped where a path leads to each. -/
theorem EdgesKnown.size_inOrder (h : s.EdgesKnown) (h0 : 0 < s.blocks.size)
    (hReached : ∀ b, b < s.blocks.size → s.Reached b) :
    s.inOrder.blocks.size = s.blocks.size := by
  have hPerm : s.postorder.Perm (List.range s.blocks.size) := by
    refine (List.perm_ext_iff_of_nodup reversePostorder_nodup List.nodup_range).mpr fun b => ?_
    rw [List.mem_range]
    exact ⟨h.lt_of_mem h0, fun hb => (h.mem_postorder h0).mpr (hReached b hb)⟩
  rw [inOrder, setDominators, Array.size_mapIdx]
  exact (size_renumber fun b hb => h.lt_of_mem h0 hb).trans (hPerm.length_eq.trans List.length_range)

/-- Renumbering the blocks keeps what lies on every path. -/
theorem onEveryPath_renumber (h : s.EdgesKnown) (h0 : 0 < s.blocks.size)
    (hi : s.postorder[i]? = some a) (hj : s.postorder[j]? = some b) :
    (s.renumber s.postorder).OnEveryPath i j ↔ s.OnEveryPath a b := by
  constructor
  · -- A path of the old blocks goes through blocks with a place in the order.
    rintro hAll path ⟨hChain, hHead, hLast⟩
    have hPlace : ∀ x ∈ path, ∃ k, s.postorder.idxOf? x = some k ∧ s.postorder[k]? = some x := by
      intro x hx
      obtain ⟨k, hk⟩ := List.mem_iff_getElem?.mp (mem_reversePostorder h h0 hChain hHead hx)
      exact ⟨k, postorder_idxOf? hk, hk⟩
    have hMem := hAll (path.map fun x => (s.postorder.idxOf? x).getD 0) ⟨?_, ?_, ?_⟩
    · obtain ⟨x, hx, hEq⟩ := List.mem_map.mp hMem
      obtain ⟨k, hk, hAt⟩ := hPlace x hx
      rw [hk, Option.getD_some] at hEq
      subst hEq
      rw [hi, Option.some.injEq] at hAt
      exact hAt ▸ hx
    · refine (List.isChain_map _).mpr (hChain.imp_of_mem_imp fun x y hx hy hEdge => ?_)
      obtain ⟨k, hk, hAt⟩ := hPlace x hx
      obtain ⟨l, hl, hAt'⟩ := hPlace y hy
      rw [hk, hl]
      exact (mem_successors_renumber h h0).mpr ⟨x, y, hAt, hAt', hEdge⟩
    · -- The first block is first in the order too.
      rw [List.head?_map, hHead, Option.map_some, postorder_idxOf? (i := 0) reversePostorder_head]
      rfl
    · rw [List.getLast?_map, hLast, Option.map_some, postorder_idxOf? hj]
      rfl
  · -- Conversely an edge of the new blocks is one between the blocks at its two places.
    intro hAll path hPath
    -- A position on a path is reached by an edge, unless it is the first, so it has a block.
    have hMem := hAll (path.map fun k => s.postorder.getD k 0) ⟨?_, ?_, ?_⟩
    · obtain ⟨k, hk, hEq⟩ := List.mem_map.mp hMem
      obtain ⟨x, hx⟩ : ∃ x, s.postorder[k]? = some x := by
        obtain ⟨front, hFront, -⟩ := hPath.upTo hk
        rcases hFront.last_edge with ⟨rfl, -⟩ | ⟨-, p, -, -, hEdge⟩
        · exact ⟨0, reversePostorder_head⟩
        · obtain ⟨-, x, -, hx, -⟩ := (mem_successors_renumber h h0).mp hEdge
          exact ⟨x, hx⟩
      rw [List.getD_eq_getElem?_getD, hx, Option.getD_some] at hEq
      rw [postorder_inj hi (hEq ▸ hx)]
      exact hk
    · refine (List.isChain_map _).mpr (hPath.1.imp fun k l hEdge => ?_)
      obtain ⟨x, y, hx, hy, hEdge⟩ := (mem_successors_renumber h h0).mp hEdge
      rw [List.getD_eq_getElem?_getD, List.getD_eq_getElem?_getD, hx, hy]
      exact hEdge
    · rw [List.head?_map, hPath.2.1]
      rfl
    · rw [List.getLast?_map, hPath.2.2, Option.map_some, List.getD_eq_getElem?_getD, hj]
      rfl

/-! ## Dominators by walks and by sweeps -/

/-- What the walk around a block leaves is reached by a path around it. -/
theorem exists_path_of_mem_reachedWithout
    (hb : b ∈ reachedWithout s.successors s.blocks.size a) : ∃ path, s.IsPath path b ∧ a ∉ path := by
  by_cases ha : a = 0
  · rw [ha, reachedWithout_zero] at hb
    cases hb
  · -- The walk comes to `a` as well, but only to turn back: nothing is entered from there.
    have hWalk : Walk.Extends (fun b => b = a ∨ ∃ path, s.IsPath path b ∧ a ∉ path)
        { seen := [a] } (Walk.visit s.successors (s.blocks.size + 1) { seen := [a] } 0) := by
      refine Walk.visit_extends_around [a] ?_ (by simp)
        (.inr ⟨[0], ⟨List.isChain_singleton 0, rfl, rfl⟩, by simpa using ha⟩)
      intro b x hAround hb hx
      obtain ⟨path, hPath, hNot⟩ := hb.resolve_left (by simpa using hAround)
      by_cases hxa : x = a
      · exact .inl hxa
      · exact .inr ⟨path ++ [x], hPath.concat hx, by simp [hNot, Ne.symm hxa]⟩
    obtain ⟨new, hLeft, -, hNew⟩ := hWalk.left
    unfold reachedWithout at hb
    rw [hLeft, List.append_nil] at hb
    obtain ⟨-, hOut, hPath⟩ := hNew b hb
    exact hPath.resolve_left (by simpa using hOut)

/-- The blocks that dominate a block by walks. -/
def dominatorsOf (s : Schedule) (b : Nat) : List Nat :=
  strictDominators ((List.range s.blocks.size).map
    (reachedWithout s.successors s.blocks.size)).toArray b

/-- The reference stores the last dominator and the number of dominators. -/
theorem setDominators_getElem? (hBlock : s.blocks[b]? = some block) :
    s.setDominators.blocks[b]? = some
      { block with dom := (s.dominatorsOf b).getLast?, depth := (s.dominatorsOf b).length } := by
  unfold setDominators
  rw [Array.getElem?_mapIdx, hBlock]
  rfl

/-- The list of dominators has those that are on every path. -/
theorem mem_dominatorsOf (h : s.EdgesKnown) (hb : b < s.blocks.size) :
    a ∈ s.dominatorsOf b ↔ a < s.blocks.size ∧ a ≠ b ∧ s.OnEveryPath a b := by
  unfold dominatorsOf strictDominators
  rw [List.mem_filter, List.mem_range, List.size_toArray, List.length_map, List.length_range]
  refine and_congr_right fun ha => ?_
  rw [Bool.and_eq_true, decide_eq_true_eq, List.getElem?_toArray, List.getElem?_map,
    List.getElem?_range ha, Option.map_some, Option.any_some, decide_eq_true_eq]
  refine and_congr_right fun _ => ?_
  constructor
  · rintro hNot path ⟨hChain, hHead, hLast⟩
    by_contra hAvoids
    exact hNot (mem_reachedWithout h (Nat.zero_lt_of_lt hb) hChain hHead hAvoids
      (List.mem_of_getLast? hLast))
  · intro hAll hIn
    obtain ⟨path, hPath, hAvoids⟩ := exists_path_of_mem_reachedWithout hIn
    exact hAvoids (hAll path hPath)

/-- The list of dominators goes up. -/
theorem dominatorsOf_sorted (s : Schedule) (b : Nat) : (s.dominatorsOf b).Pairwise (· < ·) :=
  (List.pairwise_lt_range).filter _

/-- A block has all the dominators that a dominator of it has, and that one too. -/
theorem length_dominatorsOf_lt (h : s.EdgesKnown) (ha : a < s.blocks.size) (hb : b < s.blocks.size)
    (hReached : s.Reached b) (hPath : s.OnEveryPath a b) (hNe : a ≠ b) :
    (s.dominatorsOf a).length < (s.dominatorsOf b).length := by
  -- `a` and its dominators are among those of `b`, and `a` is not one of its own
  have hNodup : (a :: s.dominatorsOf a).Nodup :=
    List.nodup_cons.mpr ⟨fun hSelf => ((mem_dominatorsOf h ha).mp hSelf).2.1 rfl,
      (dominatorsOf_sorted s a).imp fun hLt => Nat.ne_of_lt hLt⟩
  have hSubset : a :: s.dominatorsOf a ⊆ s.dominatorsOf b := by
    intro c hc
    rcases List.mem_cons.mp hc with rfl | hc
    · exact (mem_dominatorsOf h hb).mpr ⟨ha, hNe, hPath⟩
    · obtain ⟨hLt, -, hAbove⟩ := (mem_dominatorsOf h ha).mp hc
      refine (mem_dominatorsOf h hb).mpr ⟨hLt, ?_, ?_⟩
      · rintro rfl
        exact hNe (hPath.antisymm hAbove hReached)
      · intro path hTo
        obtain ⟨front, hFront, hPrefix⟩ := hTo.upTo (hPath path hTo)
        exact hPrefix.subset (hAbove front hFront)
  exact (List.subperm_of_subset hNodup hSubset).length_le

/-- The table that the sweeps end with has the dominators by paths on the ways up. -/
structure Exact (s : Schedule) (table : Array (Option Nat)) : Prop extends Rooted table where
  known : ∀ b < s.blocks.size, Known table b
  up : ∀ b < s.blocks.size, ∀ a, Up table a b ↔ s.OnEveryPath a b

/-- The dominators of a block are its immediate dominator and the dominators of that. -/
theorem Exact.dominatorsOf_step (h : Exact s table) (hs : s.Numbered) (h0 : 0 < b)
    (hb : b < s.blocks.size) (hd : entry table b = some d) :
    s.dominatorsOf b = s.dominatorsOf d ++ [d] := by
  have hLower := h.lower b d h0 hd
  have hMem := @mem_dominatorsOf s
  -- Both lists are sorted, so it is enough that they have the same members.
  refine List.Pairwise.eq_of_mem_iff (dominatorsOf_sorted s b) ?_ fun a => ?_
  · refine List.pairwise_append.mpr ⟨dominatorsOf_sorted s d, List.pairwise_singleton _ _, ?_⟩
    intro x hx y hy
    obtain ⟨-, hNe, hAll⟩ := (hMem hs.edges.edgesKnown (by omega)).mp hx
    have hLe := h.up_le ((h.up d (by omega) x).mpr hAll)
    rw [List.mem_singleton.mp hy]
    omega
  · rw [List.mem_append, List.mem_singleton, hMem hs.edges.edgesKnown hb,
      hMem hs.edges.edgesKnown (by omega), ← h.up b hb, ← h.up d (by omega)]
    constructor
    · rintro ⟨ha, hNe, hUp⟩
      obtain ⟨e, he, hUp⟩ := hUp.strict hNe
      rw [hd, Option.some.injEq] at he
      subst he
      by_cases hEq : a = d
      · exact .inr hEq
      · exact .inl ⟨ha, hEq, hUp⟩
    · rintro (⟨ha, -, hUp⟩ | rfl)
      · have := h.up_le hUp
        exact ⟨ha, by omega, .step hd hUp⟩
      · exact ⟨by omega, by omega, .step hd (.refl _)⟩

/-- The last dominator is what the sweeps have found. -/
theorem Exact.getLast?_dominatorsOf (h : Exact s table) (hs : s.Numbered)
    (hb : b < s.blocks.size) :
    (s.dominatorsOf b).getLast? = if b = 0 then none else entry table b := by
  split
  · next hZero =>
    subst hZero
    rw [dominatorsOf, strictDominators_zero, List.getLast?_nil]
  · obtain ⟨d, hd⟩ := h.known b hb
    rw [h.dominatorsOf_step hs (by omega) hb hd, List.getLast?_concat, hd]

/-! ## Depths -/

/-- Depths move no node. -/
theorem home_foldl_setDepth (s : Schedule) (l : List Nat) : (l.foldl setDepth s).home = s.home := by
  induction l generalizing s with
  | nil => rfl
  | cons b l ih =>
    rw [List.foldl_cons, ih]
    rfl

/-- Going through the blocks in order, the depth of an immediate dominator is known in time. -/
theorem foldl_setDepth (depth : Nat → Nat) {count : Nat} (hCount : count ≤ s.blocks.size)
    (hFirst : ∀ block, s.blocks[0]? = some block → block.dom = none ∧ block.depth = depth 0)
    (hStep : ∀ (b : Nat) (block : Block), 0 < b → s.blocks[b]? = some block →
      ∃ d, block.dom = some d ∧ d < b ∧ depth b = depth d + 1) (x : Nat) :
    ((List.range count).foldl setDepth s).blocks[x]? = s.blocks[x]?.map fun block =>
      if x < count then { block with depth := depth x } else block := by
  induction count generalizing x with
  | zero => simp
  | succ count ih =>
    have ih := ih (by omega)
    rw [List.range_succ, List.foldl_append, List.foldl_cons, List.foldl_nil, setDepth, modifyBlock,
      Array.getElem?_modify, ih]
    by_cases hx : count = x
    · subst hx
      obtain ⟨block, hBlock⟩ : ∃ block, s.blocks[count]? = some block :=
        ⟨_, Array.getElem?_eq_getElem (by omega)⟩
      rw [if_pos rfl, hBlock]
      simp only [Option.map_some, Nat.lt_irrefl, if_false, Nat.lt_succ_self, if_true,
        Option.some.injEq]
      -- The first block has no dominator, and the depth it began with is left as it is.
      by_cases hZero : count = 0
      · subst hZero
        obtain ⟨hDom, hDepth⟩ := hFirst block hBlock
        cases block
        subst hDom hDepth
        rfl
      · obtain ⟨d, hDom, hLt, hEq⟩ := hStep count block (by omega) hBlock
        have hOther := Array.getElem?_eq_getElem (show d < s.blocks.size by omega)
        simp only [hDom, ih d, hOther, Option.map_some, if_pos hLt, Option.elim_some, hEq]
    · rw [if_neg hx]
      refine congrArg (fun f => Option.map f _) (funext fun block => ?_)
      by_cases hLt : x < count
      · rw [if_pos hLt, if_pos (by omega)]
      · rw [if_neg hLt, if_neg (by omega)]

/-! ## The ordered schedule -/

/-- A block is given the dominator in the table. -/
theorem storeDominators_getElem? (hBlock : s.blocks[b]? = some block) :
    (s.storeDominators table).blocks[b]? =
      some { block with dom := if b = 0 then none else entry table b } := by
  unfold storeDominators
  rw [Array.getElem?_mapIdx, hBlock]
  rfl

/-- No block is added. -/
theorem size_storeDominators : (s.storeDominators table).blocks.size = s.blocks.size :=
  Array.size_mapIdx

/-- The sweeps and the depths give what walks around each block give. -/
theorem Exact.foldl_setDepth_eq (h : Exact s table) (hs : s.Numbered)
    (hFirst : ∃ first, s.blocks[0]? = some first ∧ first.depth = 0) :
    (List.range s.blocks.size).foldl setDepth (s.storeDominators table) = s.setDominators := by
  refine Schedule.mk.injEq .. |>.mpr ⟨Array.ext_getElem? fun x => ?_, ?_⟩
  · have hDepths := foldl_setDepth (s := s.storeDominators table)
      (fun b => (s.dominatorsOf b).length) size_storeDominators.ge ?_ ?_ x
    · rw [hDepths]
      cases hBlock : s.blocks[x]? with
      | none =>
        have hOut := Array.getElem?_eq_none_iff.mp hBlock
        rw [Array.getElem?_eq_none (size_storeDominators.trans_le hOut), Option.map_none,
          Array.getElem?_mapIdx, hBlock, Option.map_none]
      | some block =>
        have hLt := (Array.getElem?_eq_some_iff.mp hBlock).1
        rw [storeDominators_getElem? hBlock, Option.map_some, if_pos hLt,
          ← h.getLast?_dominatorsOf hs hLt]
        exact (setDominators_getElem? hBlock).symm
    · intro block hBlock
      obtain ⟨first, hAt, hDepth⟩ := hFirst
      rw [storeDominators_getElem? hAt, Option.some.injEq] at hBlock
      subst hBlock
      refine ⟨rfl, hDepth.trans ?_⟩
      rw [dominatorsOf, strictDominators_zero, List.length_nil]
    · -- A block is one deeper than its dominator.
      intro b block h0 hBlock
      have hLt := (Array.getElem?_eq_some_iff.mp hBlock).1
      rw [size_storeDominators] at hLt
      rw [storeDominators_getElem? (Array.getElem?_eq_getElem hLt), Option.some.injEq] at hBlock
      subst hBlock
      obtain ⟨d, hd⟩ := h.known b hLt
      refine ⟨d, ?_, h.lower b d h0 hd, ?_⟩
      · dsimp only
        rw [if_neg (by omega)]
        exact hd
      · rw [h.dominatorsOf_step hs h0 hLt hd, List.length_append, List.length_singleton]
  · exact home_foldl_setDepth _ _

/-- Sweeps over blocks in a good order end, and store what walks around each block find. -/
theorem Numbered.dominators_eq (hs : s.Numbered)
    (hFirst : ∃ first, s.blocks[0]? = some first ∧ first.depth = 0) :
    s.dominators = .ok s.setDominators ∧ ∃ table, Exact s table ∧ ∀ b < s.blocks.size,
      s.setDominators.blocks[b]?.bind Block.dom = if b = 0 then none else entry table b := by
  have h0 : 0 < s.blocks.size := by
    obtain ⟨first, hAt, -⟩ := hFirst
    exact (Array.getElem?_eq_some_iff.mp hAt).1
  obtain ⟨table, hOk, hRooted, hTable⟩ := settle_spec hs h0
  have hExact : Exact s table :=
    { hRooted with
      known := fun b hb => (hTable b hb).1
      up := fun b hb => (hTable b hb).2 }
  refine ⟨?_, table, hExact, ?_⟩
  · unfold dominators
    dsimp only
    rw [hOk, ok_bind, hExact.foldl_setDepth_eq hs hFirst]
    rfl
  · intro b hb
    rw [setDominators_getElem? (Array.getElem?_eq_getElem hb)]
    exact hExact.getLast?_dominatorsOf hs hb

/-- Ordering the blocks by sweeps and ordering them by walks give the same schedule. -/
theorem ordered_eq (hEdges : s.Consistent)
    (hFirst : ∃ first, s.blocks[0]? = some first ∧ first.depth = 0) :
    s.ordered = .ok s.inOrder := by
  obtain ⟨first, hAt, hDepth⟩ := hFirst
  have h0 := (Array.getElem?_eq_some_iff.mp hAt).1
  have hNew := renumber_getElem? (fun b hb => hEdges.edgesKnown.lt_of_mem h0 hb)
    (reversePostorder_head : s.postorder[0]? = some 0) hAt
  exact ((hEdges.numbered h0).dominators_eq ⟨_, hNew, hDepth⟩).1

/-! ## What the stored dominators say -/

/-- Storing dominators leaves the paths. -/
theorem setDominators_isPath {path : List Nat} :
    s.setDominators.IsPath path b ↔ s.IsPath path b := by
  unfold IsPath
  rw [setDominators_successors]

/-- Storing dominators leaves what dominates by walks. -/
theorem setDominators_dominates : s.setDominators.Dominates a b ↔ s.Dominates a b := by
  unfold Dominates Reached
  simp only [setDominators_isPath]

/-- To dominate by walks is to be on every path. -/
theorem Numbered.dominates_iff (hs : s.Numbered) (hb : b < s.blocks.size) :
    s.Dominates a b ↔ s.OnEveryPath a b := by
  constructor
  · rintro (rfl | ⟨-, hAll⟩)
    · exact fun path hPath => List.mem_of_getLast? hPath.2.2
    · exact hAll
  · exact fun hAll => .inr ⟨hs.reached hb, hAll⟩

/-- The walk along stored dominators goes the way up of the table. -/
theorem climb_iff (h : Rooted table) (hKnown : Known table b)
    (hDom : ∀ x ≤ b, s.blocks[x]?.bind Block.dom = if x = 0 then none else entry table x)
    {fuel : Nat} (hFuel : b < fuel) : dominates.climb s a fuel b = true ↔ Up table a b := by
  induction fuel generalizing b with
  | zero => omega
  | succ fuel ih =>
    unfold dominates.climb
    by_cases hEq : a = b
    · rw [if_pos hEq]
      exact iff_of_true rfl (hEq ▸ .refl _)
    · rw [if_neg hEq, hDom b (Nat.le_refl b)]
      have hStrict : Up table a b ↔ ∃ c, entry table b = some c ∧ Up table a c := by
        refine ⟨fun hUp => hUp.strict hEq, ?_⟩
        rintro ⟨c, hc, hUp⟩
        exact .step hc hUp
      -- The climb stops at the first block, whose entry in the table is the block itself.
      by_cases hZero : b = 0
      · subst hZero
        rw [if_pos rfl]
        refine iff_of_false (by simp) fun hUp => ?_
        have := h.up_le hUp
        omega
      · obtain ⟨d, hd⟩ := hKnown
        have hLower := h.lower b d (by omega) hd
        rw [if_neg hZero, hStrict, hd]
        simp only [Option.some.injEq, exists_eq_left']
        exact ih (h.filled b ⟨d, hd⟩ d hLower) (fun x hx => hDom x (by omega)) (by omega)

/-- What the blocks of a schedule are like when they have been put in order. Position `i` of the new
schedule has the block that is named at place `i` of the order. -/
structure OrderedFrom (s t : Schedule) : Prop where
  size : t.blocks.size = s.postorder.length
  /-- The blocks that can be reached are kept. -/
  kept : ∀ b, b ∈ s.postorder ↔ s.Reached b
  moved : ∀ (i b : Nat), s.postorder[i]? = some b → ∃ old new, s.blocks[b]? = some old ∧
    t.blocks[i]? = some new ∧ Moved old new ∧
      new.succ = old.succ.filterMap fun x => s.postorder.idxOf? x
  paths : ∀ (i j a b : Nat), s.postorder[i]? = some a → s.postorder[j]? = some b →
    ((∀ path, t.IsPath path j → i ∈ path) ↔ ∀ path, s.IsPath path b → a ∈ path)
  dominates : ∀ i j, i < t.blocks.size → j < t.blocks.size →
    (t.dominates i j = true ↔ ∀ path, t.IsPath path j → i ∈ path)
  first : ∀ (j : Nat) (block : Block), t.blocks[j]? = some block → (block.dom = none ↔ j = 0)
  dom : ∀ (j : Nat) (block : Block), t.blocks[j]? = some block →
    ∀ i, block.dom = some i → t.ImmediatelyDominates i j
  /-- A block is as deep as there are steps along immediate dominators to the first block. -/
  depth : ∀ (j : Nat) (block : Block), t.blocks[j]? = some block → ∃ up : List Nat,
    up.length = block.depth ∧
      (j :: up).IsChain (fun x y => t.blocks[x]?.bind Block.dom = some y) ∧
      (j :: up).getLast? = some 0

section Stored

variable (h : Exact s table) (hs : s.Numbered) (hDom : ∀ b < s.blocks.size,
  s.setDominators.blocks[b]?.bind Block.dom = if b = 0 then none else entry table b)
include h hs hDom

omit hs in
/-- To dominate by the stored dominators is to be on every path. -/
theorem Exact.dominates_iff (hb : b < s.blocks.size) :
    s.setDominators.dominates a b = true ↔ s.OnEveryPath a b := by
  have hSize : s.setDominators.blocks.size = s.blocks.size := Array.size_mapIdx
  rw [← h.up b hb]
  exact climb_iff h.toRooted (h.known b hb) (fun x hx => hDom x (by omega)) (by omega)

/-- The stored dominator is the nearest one. -/
theorem Exact.immediatelyDominates (hb : b < s.blocks.size)
    (hd : s.setDominators.blocks[b]?.bind Block.dom = some d) :
    s.setDominators.ImmediatelyDominates d b := by
  rw [hDom b hb] at hd
  split at hd
  · cases hd
  · have hLower := h.lower b d (by omega) hd
    have hDominates : ∀ {a x}, x < s.blocks.size →
        (s.setDominators.Dominates a x ↔ Up table a x) := fun hx =>
      setDominators_dominates.trans ((hs.dominates_iff hx).trans (h.up _ hx _).symm)
    refine ⟨⟨(hDominates hb).mpr (.step hd (.refl d)), by omega⟩, ?_⟩
    rintro c ⟨hc, hNe⟩
    obtain ⟨e, he, hUp⟩ := ((hDominates hb).mp hc).strict hNe
    rw [hd, Option.some.injEq] at he
    exact (hDominates (by omega)).mpr (he ▸ hUp)

/-- The depth counts the steps along stored dominators. -/
theorem Exact.exists_chain (hb : b < s.blocks.size) : ∃ up : List Nat,
    up.length = (s.dominatorsOf b).length ∧
      (b :: up).IsChain (fun x y => s.setDominators.blocks[x]?.bind Block.dom = some y) ∧
      (b :: up).getLast? = some 0 := by
  -- dominators have lower numbers, which carries the induction
  induction b using Nat.strong_induction_on with
  | _ b ih =>
    by_cases hZero : b = 0
    · subst hZero
      refine ⟨[], ?_, List.isChain_singleton 0, rfl⟩
      rw [dominatorsOf, strictDominators_zero]
    · obtain ⟨d, hd⟩ := h.known b hb
      have hLower := h.lower b d (by omega) hd
      obtain ⟨up, hLength, hChain, hLast⟩ := ih d hLower (by omega)
      refine ⟨d :: up, ?_, List.isChain_cons_cons.mpr ⟨?_, hChain⟩, ?_⟩
      · rw [h.dominatorsOf_step hs (by omega) hb hd, List.length_append, List.length_cons, hLength,
          List.length_singleton]
      · rw [hDom b hb, if_neg hZero]
        exact hd
      · rw [List.getLast?_cons_cons]
        exact hLast

end Stored

/-- With the blocks in order, dominance, immediate dominators and depths are those of the paths. -/
theorem orderedFrom_inOrder (hEdges : s.Consistent)
    (hFirst : ∃ first, s.blocks[0]? = some first ∧ first.depth = 0) : OrderedFrom s s.inOrder := by
  obtain ⟨first, hAt, hDepth⟩ := hFirst
  have hKnown := hEdges.edgesKnown
  have h0 := (Array.getElem?_eq_some_iff.mp hAt).1
  have hIn : ∀ b ∈ s.postorder, b < s.blocks.size := fun b hb => hKnown.lt_of_mem h0 hb
  have hs := hEdges.numbered h0
  obtain ⟨-, table, hExact, hDom⟩ := hs.dominators_eq
    ⟨_, renumber_getElem? hIn (reversePostorder_head : s.postorder[0]? = some 0) hAt, hDepth⟩
  -- `inOrder` stores dominators in the renumbered blocks and leaves the rest of them alone.
  have hSize : s.inOrder.blocks.size = (s.renumber s.postorder).blocks.size := Array.size_mapIdx
  have hLt : ∀ {j : Nat} {block : Block}, s.inOrder.blocks[j]? = some block →
      j < (s.renumber s.postorder).blocks.size := fun hBlock =>
    hSize ▸ (Array.getElem?_eq_some_iff.mp hBlock).1
  have hStored : ∀ {j : Nat} {block : Block}, s.inOrder.blocks[j]? = some block →
      block.dom = if j = 0 then none else entry table j := by
    intro j block hBlock
    have hBind := hDom j (hLt hBlock)
    exact (congrArg (fun o => Option.bind o Block.dom) hBlock).symm.trans hBind
  refine { size := hSize.trans (size_renumber hIn), kept := fun b => hKnown.mem_postorder h0,
           moved := ?moved, paths := ?paths, dominates := ?dominates, first := ?first,
           dom := ?dom, depth := ?depth }
  case moved =>
    intro i b hi
    have hBlock := Array.getElem?_eq_getElem (hIn b (List.mem_of_getElem? hi))
    exact ⟨_, _, hBlock, setDominators_getElem? (renumber_getElem? hIn hi hBlock),
      ⟨rfl, rfl, rfl, rfl⟩, rfl⟩
  case paths =>
    intro i j a b hi hj
    refine Iff.trans ?_ (onEveryPath_renumber hKnown h0 hi hj)
    exact forall_congr' fun path => imp_congr_left setDominators_isPath
  case dominates =>
    intro i j _ hj
    refine (hExact.dominates_iff hDom (hSize ▸ hj)).trans ?_
    exact forall_congr' fun path => imp_congr_left setDominators_isPath.symm
  case first =>
    intro j block hBlock
    rw [hStored hBlock]
    by_cases hZero : j = 0
    · simp [hZero]
    · obtain ⟨d, hd⟩ := hExact.known j (hLt hBlock)
      simp [hZero, hd]
  case dom =>
    intro j block hBlock i hi
    refine hExact.immediatelyDominates hs hDom (hLt hBlock) ?_
    exact (congrArg (fun o => Option.bind o Block.dom) hBlock).trans hi
  case depth =>
    intro j block hBlock
    obtain ⟨up, hLength, hChain⟩ := hExact.exists_chain hs hDom (hLt hBlock)
    refine ⟨up, hLength.trans ?_, hChain⟩
    have hNew := setDominators_getElem? (Array.getElem?_eq_getElem (hLt hBlock))
    exact (congrArg Block.depth (Option.some.inj (hNew.symm.trans hBlock)))

/-- Putting blocks in order ends, and in the ordered schedule dominance, immediate dominators and
depths are those of the paths, whatever the edges are. -/
theorem ordered_dominators (hEdges : s.Consistent)
    (hFirst : ∃ first, s.blocks[0]? = some first ∧ first.depth = 0) :
    ∃ t, s.ordered = .ok t ∧ OrderedFrom s t :=
  ⟨s.inOrder, ordered_eq hEdges hFirst, orderedFrom_inOrder hEdges hFirst⟩

/-! ## Adding edges -/

/-- Changing one block leaves the others. -/
theorem getElem?_modifyBlock (s : Schedule) (b i : Nat) (f : Block → Block) :
    (s.modifyBlock b f).blocks[i]? = if b = i then s.blocks[i]?.map f else s.blocks[i]? := by
  unfold modifyBlock
  exact Array.getElem?_modify

/-- Changing a block adds none. -/
theorem size_modifyBlock (s : Schedule) (b : Nat) (f : Block → Block) :
    (s.modifyBlock b f).blocks.size = s.blocks.size :=
  Array.size_modify

/-- A change that keeps the successors of a block keeps those of all. -/
theorem successors_modifyBlock {f : Block → Block} (hSucc : ∀ block, (f block).succ = block.succ)
    (x : Nat) : (s.modifyBlock b f).successors x = s.successors x := by
  unfold successors
  rw [getElem?_modifyBlock]
  split
  · cases s.blocks[x]? with
    | none => rfl
    | some block => exact hSucc block
  · rfl

/-- A change that keeps the predecessors of a block keeps those of all. -/
theorem predecessors_modifyBlock {f : Block → Block} (hPred : ∀ block, (f block).pred = block.pred)
    (x : Nat) : (s.modifyBlock b f).predecessors x = s.predecessors x := by
  unfold predecessors
  rw [getElem?_modifyBlock]
  split
  · cases s.blocks[x]? with
    | none => rfl
    | some block => exact hPred block
  · rfl

/-- An edge is added at both of its ends. -/
theorem link_getElem? (s : Schedule) (a b x : Nat) :
    (s.link a b).blocks[x]? = s.blocks[x]?.map fun block =>
      { block with
        succ := block.succ ++ if x = a then [b] else []
        pred := block.pred ++ if x = b then [a] else [] } := by
  unfold link
  rw [getElem?_modifyBlock, getElem?_modifyBlock]
  cases s.blocks[x]? with
  | none => split <;> split <;> rfl
  | some block => by_cases ha : a = x <;> by_cases hb : b = x <;> simp [ha, hb, eq_comm]

/-- An edge adds no block. -/
theorem size_link (s : Schedule) (a b : Nat) : (s.link a b).blocks.size = s.blocks.size := by
  unfold link
  rw [size_modifyBlock, size_modifyBlock]

/-- An edge adds one successor. -/
theorem successors_link (ha : a < s.blocks.size) (x : Nat) :
    (s.link a b).successors x = s.successors x ++ if x = a then [b] else [] := by
  unfold successors
  rw [link_getElem?]
  cases hx : s.blocks[x]? with
  | none =>
    have := Array.getElem?_eq_none_iff.mp hx
    rw [if_neg (show x ≠ a by omega)]
    rfl
  | some block => rfl

/-- An edge adds one predecessor. -/
theorem predecessors_link (hb : b < s.blocks.size) (x : Nat) :
    (s.link a b).predecessors x = s.predecessors x ++ if x = b then [a] else [] := by
  unfold predecessors
  rw [link_getElem?]
  cases hx : s.blocks[x]? with
  | none =>
    have := Array.getElem?_eq_none_iff.mp hx
    rw [if_neg (show x ≠ b by omega)]
    rfl
  | some block => rfl

/-- A block has another among its successors as often as it is among the predecessors of that. -/
def Balanced (s : Schedule) : Prop :=
  ∀ a b, (s.successors a).count b = (s.predecessors b).count a

/-- Blocks that are balanced are consistent. -/
theorem Balanced.consistent (h : s.Balanced) : s.Consistent := by
  intro a b
  rw [← List.count_pos_iff, ← List.count_pos_iff, h a b]

/-- Edges that are added one by one are told by both ends. -/
theorem Balanced.link (h : s.Balanced) (ha : a < s.blocks.size) (hb : b < s.blocks.size) :
    (s.link a b).Balanced := by
  intro x y
  rw [successors_link ha, predecessors_link hb, List.count_append, List.count_append, h x y]
  by_cases hx : x = a <;> by_cases hy : y = b <;> simp [hx, hy, Ne.symm]

/-- Blocks that can be put into order. -/
structure Unordered (s : Schedule) : Prop where
  edges : s.Balanced
  first : ∃ first, s.blocks[0]? = some first ∧ first.depth = 0

/-- Blocks can still be put into order after one more edge. -/
theorem Unordered.link (h : s.Unordered) (ha : a < s.blocks.size) (hb : b < s.blocks.size) :
    (s.link a b).Unordered := by
  obtain ⟨first, hAt, hDepth⟩ := h.first
  have hNew := link_getElem? s a b 0
  rw [hAt] at hNew
  exact ⟨h.edges.link ha hb, _, hNew, hDepth⟩

/-- Blocks with heads only. -/
theorem Unordered.ofHeads (head : NodeId) (heads : List NodeId) (home : NodeId → Option Nat) :
    Unordered { blocks := ((head :: heads).map fun head => { head }).toArray, home } := by
  refine ⟨fun a b => ?_, _, rfl, rfl⟩
  unfold successors predecessors
  rw [List.getElem?_toArray, List.getElem?_toArray, List.getElem?_map, List.getElem?_map]
  cases (head :: heads)[a]? <;> cases (head :: heads)[b]? <;> simp

/-- Two blocks that lead to each other and are both entered from the first one, with a block that
cannot be reached. -/
def crossing : Schedule :=
  [(0, 1), (0, 2), (0, 2), (1, 2), (2, 1), (3, 1)].foldl (fun s edge => s.link edge.1 edge.2)
    { blocks := ([0, 1, 2, 3].map fun head => { head }).toArray }

/-- The blocks of the example are added by edges, so they can be put into order. -/
theorem crossing_unordered : crossing.Unordered := by
  have hStart := Unordered.ofHeads 0 [1, 2, 3] fun _ => none
  exact (((((hStart.link (a := 0) (b := 1) (by decide) (by decide)).link (a := 0) (b := 2)
    (by decide) (by decide)).link (a := 0) (b := 2) (by decide) (by decide)).link (a := 1) (b := 2)
    (by decide) (by decide)).link (a := 2) (b := 1) (by decide) (by decide)).link (a := 3) (b := 1)
    (by decide) (by decide)

/-- Their order ends, though neither of the two blocks dominates the other. -/
theorem ordered_dominators_crossing :
    ∃ t, crossing.ordered = .ok t ∧ OrderedFrom crossing t :=
  ordered_dominators crossing_unordered.edges.consistent crossing_unordered.first

end ArmBackend.Schedule
