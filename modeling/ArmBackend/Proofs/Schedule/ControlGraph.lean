import ArmBackend.Proofs.Schedule.Flow
import Mathlib.Data.List.Forall2

/-!
# The blocks are the control graph

The blocks of a computed schedule stand one for one for the start node and for the live projections
and merges, and the edges between them are the steps of control: from a branch to its two arms, and
from the block that the control of a merge's input leads to into the merge. Blocks are linked in
three passes; a predecessor is added together with its successor (`Balanced`), and the inputs of a
merge are linked in their order (`Aligned`), so that the predecessors of a merge stand in the order
of the inputs of its joins.

## Results

* `endBlocks_entered` — the predecessors that a node adds.
* `compute_controlGraph` — the block graph of a computed schedule is the control graph.
-/

namespace ArmBackend

namespace Graph

variable {g : Graph} {exit id : NodeId}

/-- Whether a node starts a block of its own: the start node, and the live arms of branches and
merges. -/
def StartsBlock (g : Graph) (exit id : NodeId) : Prop :=
  id = Graph.start ∨
    (g.Live exit id ∧ (g.HasOp id .ifTrue ∨ g.HasOp id .ifFalse ∨ g.HasOp id .merge))

/-- Whether `q` is a live arm of a branch. -/
def IsArm (g : Graph) (exit branch : NodeId) (op : Operator) (q : NodeId) : Prop :=
  g.Live exit q ∧ g.HasOp q op ∧ g.HasInput q branch

/-- Whether `x` is input `i` of the live merge `m`. -/
def MergeInput (g : Graph) (exit m : NodeId) (i : Nat) (x : NodeId) : Prop :=
  g.Live exit m ∧ ∃ n, g.node? m = some n ∧ n.op = .merge ∧ n.inputs[i]? = some x

end Graph

namespace Schedule

variable {g : Graph} {root id x : NodeId} {live : BitSet} {s t u : Schedule} {b i j target : Nat}
  {block new : Block} {n : Node}

/-! ## Predecessors of merges -/

/-- The blocks in a row are those that the control of the inputs leads to, one for each. -/
def Aligned (g : Graph) (s : Schedule) (inputs : List NodeId) (row : List Nat) : Prop :=
  List.Forall₂ (fun x p => ∃ h, s.heads[p]? = some h ∧ g.ControlHead x h) inputs row

theorem Aligned.of_heads {inputs : List NodeId} {row : List Nat} (h : Aligned g s inputs row)
    (hHeads : t.heads = s.heads) : Aligned g t inputs row := by
  unfold Aligned
  rw [hHeads]
  exact h

/-- What a node adds to the predecessors: a merge those that its inputs come from, and no other node
any. -/
theorem endBlocks_entered (hWell : g.WellFormed) (hn : g.node? id = some n)
    (hEnds : endBlocks g s id n = .ok t) : t.heads = s.heads ∧
      ((n.op ≠ .merge ∧ t.predecessors = s.predecessors) ∨
        (n.op = .merge ∧ ∃ target row, s.blockAt id = .ok target ∧ Aligned g s n.inputs row ∧
          ∀ i, t.predecessors i = s.predecessors i ++ if i = target then row else [])) := by
  have hEndAt : ∀ {s t : Schedule} {b : Nat} {kind : BlockKind} {control : Option NodeId},
      endBlock s id b kind control = .ok t → t.heads = s.heads ∧ t.predecessors = s.predecessors ∧
        t.blocks.size = s.blocks.size := by
    intro s t b kind control hEnd
    obtain ⟨block, -, -, rfl⟩ := endBlock_eq_ok hEnd
    refine ⟨heads_modifyBlock fun _ => rfl, funext fun x => predecessors_modifyBlock ?_ x,
      size_modifyBlock ..⟩
    exact fun _ => rfl
  unfold endBlocks at hEnds
  split at hEnds
  · -- A branch ends a block and has no edges yet.
    next hOp =>
    obtain ⟨u, -, hEnds⟩ := bind_eq_ok.mp hEnds
    obtain ⟨b, -, hEnd⟩ := bind_eq_ok.mp hEnds
    exact ⟨(hEndAt hEnd).1, .inl ⟨by rw [hOp]; decide, (hEndAt hEnd).2.1⟩⟩
  · -- A return has none at all.
    next hOp =>
    obtain ⟨u, -, hEnds⟩ := bind_eq_ok.mp hEnds
    obtain ⟨b, -, hEnd⟩ := bind_eq_ok.mp hEnds
    exact ⟨(hEndAt hEnd).1, .inl ⟨by rw [hOp]; decide, (hEndAt hEnd).2.1⟩⟩
  · next hOp =>
    obtain ⟨target, hTarget, hEnds⟩ := bind_eq_ok.mp hEnds
    -- The inputs that had their turn have added the blocks they come from, in order.
    have hAll : t.heads = s.heads ∧ ∃ row, Aligned g s n.inputs row ∧
        ∀ i, t.predecessors i = s.predecessors i ++ if i = target then row else [] := by
      refine Settles.of_ok (Settles.foldlM (R := fun _ => True)
        (I := fun front t => t.heads = s.heads ∧ ∃ row, Aligned g s front row ∧
          ∀ i, t.predecessors i = s.predecessors i ++ if i = target then row else [])
        ⟨rfl, [], .nil, by simp⟩ ?_) hEnds
      rintro front x rest u hSplit ⟨hHeads, row, hRow, hPred⟩
      refine Settles.intro fun v hv => ?_
      obtain ⟨b, hb, hv⟩ := bind_eq_ok.mp hv
      obtain ⟨w, hEnd, hv⟩ := bind_eq_ok.mp hv
      cases pure_eq_ok.mp hv
      have hx : x ∈ n.inputs := by rw [hSplit]; simp
      obtain ⟨block, hBlock, hChain⟩ :=
        blockOfControl_eq_ok hWell (hWell.node_of_input ⟨n, hn, hx⟩) hb
      obtain ⟨hSame, hKeep, hSize⟩ := hEndAt hEnd
      have hLt : target < w.blocks.size := by
        rw [hSize, ← size_heads, hHeads, size_heads]
        exact blockAt_lt hTarget
      refine ⟨(heads_link w b target).trans (hSame.trans hHeads), row ++ [b], ?_, fun i => ?_⟩
      · refine List.rel_append hRow (.cons ⟨block.head, ?_, hChain⟩ .nil)
        rw [← hHeads, heads_getElem?, hBlock]
        rfl
      · rw [predecessors_link hLt, hKeep, hPred]
        split <;> simp
    obtain ⟨hHeads, row, hRow, hPred⟩ := hAll
    exact ⟨hHeads, .inr ⟨hOp, target, row, hTarget, hRow, hPred⟩⟩
  · next hOp =>
    cases pure_eq_ok.mp hEnds
    exact ⟨rfl, .inl ⟨hOp, rfl⟩⟩

/-- No two blocks start with the same head. -/
theorem heads_inj (hHeads : s.heads = (headsOf g live).toArray) (hi : s.heads[i]? = some id)
    (hj : s.heads[j]? = some id) : i = j := by
  rw [hHeads, List.getElem?_toArray] at hi hj
  exact (List.getElem?_inj (List.getElem?_eq_some_iff.mp hi).1 headsOf_nodup).mp (hi.trans hj.symm)

/-- The predecessors of merges when the listed nodes have had their turn. -/
structure Entering (g : Graph) (live : BitSet) (done : List (Node × Nat)) (s : Schedule) : Prop where
  heads : s.heads = (headsOf g live).toArray
  aligned : ∀ (i k : Nat) (n : Node), s.heads[i]? = some (k : NodeId) → (n, k) ∈ done →
    live.mem k = true → n.op = .merge → Aligned g s n.inputs (s.predecessors i)
  waiting : ∀ (i k : Nat) (n : Node), s.heads[i]? = some (k : NodeId) → (n, k) ∉ done →
    g.node? k = some n → n.op = .merge → s.predecessors i = []

/-- Every live merge gets the predecessors that its inputs come from. -/
theorem Entering.endAll (hWell : g.WellFormed) (h : Entering g live [] s) :
    Settles (fun _ => True) (g.nodes.toList.zipIdx.foldlM
        (fun s (n, id) => if live.mem id then endBlocks g s id n else pure s) s)
      (Entering g live g.nodes.toList.zipIdx) := by
  refine Settles.foldlM (I := Entering g live) h ?_
  rintro front ⟨n, k⟩ rest t hSplit ht
  have hn : g.node? k = some n := Graph.mem_zipIdx.mp (by rw [hSplit]; simp)
  -- Nodes may be alike, but each has an id of its own.
  have hNew : (n, k) ∉ front := by
    have hNodup : (front ++ (n, k) :: rest).Nodup := by
      rw [← hSplit]
      refine List.Nodup.of_map Prod.snd ?_
      rw [List.zipIdx_map_snd]
      exact List.nodup_range' _
    intro hMem
    exact (List.nodup_append.mp hNodup).2.2 _ hMem _ List.mem_cons_self rfl
  by_cases hMem : live.mem k = true
  · simp only [hMem, if_true]
    refine Settles.intro fun v hv => ?_
    obtain ⟨hHeads, hCases⟩ := endBlocks_entered hWell hn hv
    rcases hCases with ⟨hOp, hPred⟩ | ⟨hOp, target, row, hTarget, hRow, hPred⟩
    · refine ⟨hHeads.trans ht.heads, ?_, ?_⟩
      · intro i l m hi hDone hLive hMerge
        rcases List.mem_append.mp hDone with hDone | hDone
        · rw [hPred]
          exact (ht.aligned i l m (hHeads ▸ hi) hDone hLive hMerge).of_heads hHeads
        · cases List.mem_singleton.mp hDone
          exact absurd hMerge hOp
      · intro i l m hi hDone hm hMerge
        rw [hPred]
        exact ht.waiting i l m (hHeads ▸ hi) (fun hIn => hDone (List.mem_append_left _ hIn)) hm hMerge
    · -- The merge had no predecessors before, and no other block starts with it.
      obtain ⟨block, hBlock, hHead⟩ := lt_of_blockAt hTarget
      have hAt : t.heads[target]? = some (k : NodeId) := by
        rw [heads_getElem?, hBlock, ← hHead]
        rfl
      have hEmpty := ht.waiting target k n hAt hNew hn hOp
      have hOther : ∀ (i l : Nat), v.heads[i]? = some (l : NodeId) → l ≠ k →
          v.predecessors i = t.predecessors i := by
        intro i l hi hl
        rw [hPred, if_neg, List.append_nil]
        rintro rfl
        rw [hHeads, hAt, Option.some.injEq] at hi
        exact hl (Int.ofNat_inj.mp hi).symm
      refine ⟨hHeads.trans ht.heads, ?_, ?_⟩
      · intro i l m hi hDone hLive hMerge
        rcases List.mem_append.mp hDone with hFront | hDone
        · have hl : l ≠ k := by
            rintro rfl
            have hm := Graph.mem_zipIdx.mp (show (m, l) ∈ g.nodes.toList.zipIdx by
              rw [hSplit]
              exact List.mem_append_left _ hFront)
            obtain rfl : n = m := Option.some.inj (hn.symm.trans hm)
            exact hNew hFront
          rw [hOther i l hi hl]
          exact (ht.aligned i l m (hHeads ▸ hi) hFront hLive hMerge).of_heads hHeads
        · cases List.mem_singleton.mp hDone
          obtain rfl := heads_inj (hHeads.trans ht.heads) hi (hHeads ▸ hAt)
          rw [hPred, if_pos rfl, hEmpty, List.nil_append]
          exact hRow.of_heads hHeads
      · intro i l m hi hDone hm hMerge
        have hl : l ≠ k := by
          rintro rfl
          obtain rfl : n = m := Option.some.inj (hn.symm.trans hm)
          exact hDone (List.mem_append_right _ List.mem_cons_self)
        rw [hOther i l hi hl]
        exact ht.waiting i l m (hHeads ▸ hi) (fun hIn => hDone (List.mem_append_left _ hIn)) hm hMerge
  · simp only [hMem]
    refine Settles.pure ⟨ht.heads, ?_, ?_⟩
    · intro i l m hi hDone hLive hMerge
      rcases List.mem_append.mp hDone with hDone | hDone
      · exact ht.aligned i l m hi hDone hLive hMerge
      · cases List.mem_singleton.mp hDone
        exact absurd hLive hMem
    · intro i l m hi hDone hm hMerge
      exact ht.waiting i l m hi (fun hIn => hDone (List.mem_append_left _ hIn)) hm hMerge

/-- A branch adds no predecessor to a merge. -/
theorem linkBranch_entered (hLink : linkBranch g live s b = .ok t) : t.heads = s.heads ∧
    ∀ (i : Nat) (m : NodeId), s.heads[i]? = some m → g.HasOp m .merge →
      t.predecessors i = s.predecessors i := by
  unfold linkBranch at hLink
  obtain ⟨block, hBlock, hLink⟩ := bind_eq_ok.mp hLink
  split at hLink
  · cases hLink
  · obtain ⟨pair, hFound, hLink⟩ := bind_eq_ok.mp hLink
    split at hLink
    · next x y =>
      obtain ⟨p, hp, hLink⟩ := bind_eq_ok.mp hLink
      obtain ⟨q, hq, hLink⟩ := bind_eq_ok.mp hLink
      cases pure_eq_ok.mp hLink
      refine ⟨(heads_link _ b q).trans (heads_link s b p), fun i m hi hMerge => ?_⟩
      obtain ⟨⟨n, hn, hnOp, -⟩, k, hk, hkOp, -⟩ := projections_eq_ok hFound
      -- The blocks of the arms start with projections.
      have hNot : ∀ {r z o}, s.blockAt z = .ok r → g.HasOp z o → o ≠ .merge → i ≠ r := by
        rintro r z o hr hOp hNe rfl
        obtain ⟨found, hFoundAt, rfl⟩ := lt_of_blockAt hr
        rw [heads_getElem?, hFoundAt, Option.map_some, Option.some.injEq] at hi
        exact hNe (hOp.unique (hi ▸ hMerge))
      have hp' := hNot hp ⟨n, hn, hnOp⟩ (by decide)
      have hq' := hNot hq ⟨k, hk, hkOp⟩ (by decide)
      rw [predecessors_link (by rw [size_link]; exact blockAt_lt hq), if_neg hq', List.append_nil,
        predecessors_link (blockAt_lt hp), if_neg hp', List.append_nil]
    · cases hLink
  · cases pure_eq_ok.mp hLink
    exact ⟨rfl, fun _ _ _ _ => rfl⟩

/-- The edges of the blocks of a control chain before they are put into order. -/
structure Linked (g : Graph) (live : BitSet) (s : Schedule) : Prop where
  heads : s.heads = (headsOf g live).toArray
  balanced : s.Balanced
  aligned : ∀ (i : Nat) (m : NodeId) (n : Node), s.heads[i]? = some m → live.contains m = true →
    g.node? m = some n → n.op = .merge → Aligned g s n.inputs (s.predecessors i)

theorem buildBlocks_linked (hWell : g.WellFormed) (hBuild : buildBlocks g live = .ok s) :
    ∃ linked, s = linked.inOrder ∧ linked.inOrder.blocks.size = linked.blocks.size ∧
      Linked g live linked := by
  obtain ⟨linked, hLinks, hSize, rfl⟩ := buildBlocks_eq_ok.mp hBuild
  obtain ⟨ended, hEnded, hLinked⟩ := bind_eq_ok.mp hLinks
  have hInit : Entering g live []
      { blocks := ((headsOf g live).map fun head => { head }).toArray } := by
    refine ⟨by simp [Schedule.heads, Function.comp_def], by simp, fun i k n _ _ _ _ => ?_⟩
    unfold predecessors
    rw [List.getElem?_toArray, List.getElem?_map]
    cases (headsOf g live)[i]? <;> rfl
  -- The ends of blocks come first, and the branches that follow leave the merges alone.
  have hEntering := (Entering.endAll hWell hInit).of_ok hEnded
  have hBranches : linked.heads = ended.heads ∧ ∀ (i : Nat) (m : NodeId), ended.heads[i]? = some m →
      g.HasOp m .merge → linked.predecessors i = ended.predecessors i := by
    refine Settles.of_ok (Settles.foldlM_mem (R := fun _ => True)
      (I := fun t => t.heads = ended.heads ∧ ∀ (i : Nat) (m : NodeId), ended.heads[i]? = some m →
        g.HasOp m .merge → t.predecessors i = ended.predecessors i) ⟨rfl, fun _ _ _ _ => rfl⟩ ?_)
      hLinked
    rintro b - t ⟨hHeads, hPred⟩
    refine Settles.intro fun v hv => ?_
    obtain ⟨hHeads', hPred'⟩ := linkBranch_entered hv
    refine ⟨hHeads'.trans hHeads, fun i m hi hMerge => ?_⟩
    exact (hPred' i m (hHeads ▸ hi) hMerge).trans (hPred i m hi hMerge)
  refine ⟨linked, rfl, hSize, hBranches.1.trans hEntering.heads,
    (linkedBlocks_unordered hLinks).edges, ?_⟩
  intro i m n hi hLive hn hOp
  obtain ⟨k, rfl, -⟩ := Graph.node?_eq_some.mp hn
  rw [BitSet.contains_natCast] at hLive
  rw [hBranches.1] at hi
  rw [hBranches.2 i k hi ⟨n, hn, hOp⟩]
  exact (hEntering.aligned i k n hi (Graph.mem_zipIdx.mpr hn) hLive hOp).of_heads hBranches.1

/-! ## Edges in order -/

theorem count_filterMap_postorder (hj : s.postorder[j]? = some b) (l : List Nat) :
    (l.filterMap fun x => s.postorder.idxOf? x).count j = l.count b := by
  induction l with
  | nil => rfl
  | cons x l ih =>
    rw [List.filterMap_cons, List.count_cons, ← ih]
    cases hx : s.postorder.idxOf? x with
    | none =>
      have hNe : x ≠ b := by
        rintro rfl
        rw [postorder_idxOf? hj] at hx
        cases hx
      simp [hNe]
    | some k =>
      obtain ⟨hk, hAt, -⟩ := List.idxOf?_eq_some_iff.mp hx
      -- numbering is injective on the blocks that are reached
      have hIff : k = j ↔ x = b := by
        constructor
        · rintro rfl
          exact Option.some.inj ((List.getElem?_eq_some_iff.mpr ⟨hk, hAt⟩).symm.trans hj)
        · rintro rfl
          exact Option.some.inj (hx.symm.trans (postorder_idxOf? hj))
      rw [List.count_cons]
      simp [hIff]

/-- Putting the blocks into order moves both ends of every edge. -/
theorem Balanced.inOrder (h : s.Balanced) (h0 : 0 < s.blocks.size) : s.inOrder.Balanced := by
  have hKnown := h.consistent.edgesKnown
  have hOut : ∀ {i : Nat}, s.postorder[i]? = none →
      (s.renumber s.postorder).successors i = [] ∧ (s.renumber s.postorder).predecessors i = [] := by
    intro i hi
    unfold successors predecessors
    rw [renumber_getElem?_eq_none hKnown h0 hi]
    exact ⟨rfl, rfl⟩
  have hNever : ∀ {i : Nat} (l : List Nat), s.postorder[i]? = none →
      (l.filterMap fun x => s.postorder.idxOf? x).count i = 0 := by
    intro i l hi
    rw [List.count_eq_zero, mem_filterMap_postorder]
    rintro ⟨b, -, hb⟩
    rw [hi] at hb
    cases hb
  intro i j
  unfold Schedule.inOrder
  rw [setDominators_successors, setDominators_predecessors]
  show ((s.renumber s.postorder).successors i).count j =
    ((s.renumber s.postorder).predecessors j).count i
  -- Both sides count the edges between the old blocks at two places, if there are any.
  cases hi : s.postorder[i]? with
  | none =>
    rw [(hOut hi).1, List.count_nil]
    cases hj : s.postorder[j]? with
    | none => rw [(hOut hj).2, List.count_nil]
    | some b => rw [hKnown.predecessors_renumber h0 hj, hNever _ hi]
  | some a =>
    rw [hKnown.successors_renumber h0 hi]
    cases hj : s.postorder[j]? with
    | none => rw [hNever _ hj, (hOut hj).2, List.count_nil]
    | some b =>
      rw [hKnown.predecessors_renumber h0 hj, count_filterMap_postorder hj,
        count_filterMap_postorder hi, h a b]

/-- The blocks of a row keep their order when they get their places. -/
theorem Aligned.inOrder {inputs : List NodeId} {row : List Nat} (h : Aligned g s inputs row)
    (hKnown : s.EdgesKnown) (h0 : 0 < s.blocks.size)
    (hSize : s.inOrder.blocks.size = s.blocks.size) :
    Aligned g s.inOrder inputs (row.filterMap fun x => s.postorder.idxOf? x) := by
  induction h with
  | nil => exact .nil
  | cons hHead _ ih =>
    obtain ⟨head, hAt, hChain⟩ := hHead
    obtain ⟨j, hj, hAt'⟩ := hKnown.heads_inOrder h0 hSize hAt
    rw [List.filterMap_cons, hj]
    exact .cons ⟨head, hAt', hChain⟩ ih

/-! ## Arms -/

theorem successors_eq (hBlock : s.blocks[b]? = some block) : s.successors b = block.succ := by
  unfold successors
  rw [hBlock]
  rfl

theorem predecessors_eq (hBlock : s.blocks[b]? = some block) : s.predecessors b = block.pred := by
  unfold predecessors
  rw [hBlock]
  rfl

section Arms

variable {c q : NodeId} {op : Operator} {before : Block}
variable (hFlow : Flow g root s) (hWell : g.WellFormed)
include hFlow

/-- An edge to an arm comes from the block that its branch ends, and it is the only one from there. -/
theorem Flow.edge_to_arm (hHead : s.heads[i]? = some q) (hOp : g.HasOp q op)
    (hArm : op = .ifTrue ∨ op = .ifFalse) (hBefore : s.blocks[b]? = some before)
    (hEdge : i ∈ before.succ) :
    ∃ c, before.control = some c ∧ g.HasOp c .branch ∧ g.HasInput q c ∧ before.succ.count i = 1 := by
  have hOf : ∀ {k c o}, s.StartsWith g k c o → s.heads[k]? = some q → o = op ∧ g.HasInput q c := by
    intro k c o hStarts hk
    obtain ⟨h, n, hAt, hn, hnOp, hc⟩ := startsWith_iff.mp hStarts
    obtain rfl : h = q := Option.some.inj (hAt.symm.trans hk)
    exact ⟨Graph.HasOp.unique ⟨n, hn, hnOp⟩ hOp, n, hn, hc⟩
  cases hFlow.leaves hBefore with
  | goto t _ _ hSucc hJoins =>
    -- A jump leads to a merge.
    rw [hSucc, List.mem_singleton] at hEdge
    subst hEdge
    obtain ⟨m, n, x, hAt, hn, hMerge, -⟩ := hJoins
    obtain rfl : q = m := Option.some.inj (hHead.symm.trans hAt)
    have hIs := hOp.unique ⟨n, hn, hMerge⟩
    rcases hArm with rfl | rfl <;> cases hIs
  | branch c t f _ hControl hBranch hSucc hTrue hFalse =>
    -- The two arms are different operators, so the other edge leads to another block.
    rw [hSucc] at hEdge ⊢
    obtain rfl | rfl : i = t ∨ i = f := by simpa using hEdge
    · obtain ⟨rfl, hInput⟩ := hOf hTrue hHead
      have hNe : f ≠ i := by
        rintro rfl
        exact absurd (hOf hFalse hHead).1 (by decide)
      exact ⟨c, hControl, hBranch, hInput, by simp [hNe]⟩
    · obtain ⟨rfl, hInput⟩ := hOf hFalse hHead
      have hNe : t ≠ i := by
        rintro rfl
        exact absurd (hOf hTrue hHead).1 (by decide)
      exact ⟨c, hControl, hBranch, hInput, by simp [hNe]⟩
  | ret c _ _ _ hSucc =>
    rw [hSucc] at hEdge
    cases hEdge

/-- No node ends two blocks. -/
theorem Flow.eq_of_control {other : Block} (hBlock : s.blocks[b]? = some block)
    (hControl : block.control = some c) (hOther : s.blocks[i]? = some other)
    (hControl' : other.control = some c) : b = i :=
  hFlow.distinct hBlock hOther
    ((hFlow.control hBlock hControl).2.unique (hFlow.control hOther hControl').2)

include hWell

/-- The branch that an arm is of. -/
theorem Flow.branch_of_arm (hStart : g.HasOp Graph.start .start) (hBlock : s.blocks[i]? = some block)
    (hOp : g.HasOp block.head op) (hArm : op = .ifTrue ∨ op = .ifFalse) :
    ∃ (p : Nat) (before : Block) (c : NodeId), s.blocks[p]? = some before ∧ before.control = some c ∧
      g.HasOp c .branch ∧ g.HasInput block.head c ∧ (∀ y, g.HasInput block.head y → y = c) ∧
      i ∈ before.succ ∧
      ∀ (a : Nat) (from' : Block), s.blocks[a]? = some from' → i ∈ from'.succ → a = p := by
  have hHead : s.heads[i]? = some block.head := by
    rw [heads_getElem?, hBlock]
    rfl
  have hi : i ≠ 0 := by
    rintro rfl
    obtain ⟨first, hFirst, hIs⟩ := hFlow.first
    obtain rfl : first = block := Option.some.inj (hFirst.symm.trans hBlock)
    have hSame := hOp.unique (hIs ▸ hStart)
    rcases hArm with rfl | rfl <;> cases hSame
  obtain ⟨p, before, hBefore, hEdge⟩ := hFlow.entered hBlock hi
  obtain ⟨c, hControl, hBranch, hInput, -⟩ := hFlow.edge_to_arm hHead hOp hArm hBefore hEdge
  -- An arm has one input only.
  have hOnly : ∀ y, g.HasInput block.head y → y = c := by
    rintro y ⟨n, hn, hy⟩
    obtain ⟨m, hm, hc⟩ := hInput
    obtain rfl : n = m := Option.some.inj (hn.symm.trans hm)
    obtain ⟨k, hk, hkOp⟩ := hOp
    obtain rfl : n = k := Option.some.inj (hn.symm.trans hk)
    exact input_of_arm hWell hn (hkOp ▸ hArm) hc hy
  refine ⟨p, before, c, hBefore, hControl, hBranch, hInput, hOnly, hEdge, ?_⟩
  intro a other hOther hEdge'
  obtain ⟨c', hControl', -, hInput', -⟩ := hFlow.edge_to_arm hHead hOp hArm hOther hEdge'
  exact hFlow.eq_of_control hOther (hOnly c' hInput' ▸ hControl') hBefore hControl

end Arms

/-! ## The control graph -/

/-- The blocks of a schedule are the control graph of what the exit depends on. -/
structure IsControlGraph (g : Graph) (exit : NodeId) (s : Schedule) : Prop where
  first : ∃ block, s.blocks[0]? = some block ∧ block.head = Graph.start
  head : ∀ (b : Nat) (block : Block), s.blocks[b]? = some block → g.StartsBlock exit block.head
  /-- Every node that starts a block has one, and no other. -/
  block : ∀ id, g.StartsBlock exit id →
    ∃! b : Nat, ∃ block : Block, s.blocks[b]? = some block ∧ block.head = id
  ended : ∀ (b : Nat) (block : Block), s.blocks[b]? = some block → block.kind ≠ .none
  /-- A branch leads to its one live true arm and to its one live false arm. -/
  branch : ∀ (b : Nat) (block : Block), s.blocks[b]? = some block → block.kind = .branch →
    ∃ c t f p q, block.control = some c ∧ g.HasOp c .branch ∧ g.ControlHead c block.head ∧
      block.succ = [t, f] ∧ s.heads[t]? = some p ∧ s.heads[f]? = some q ∧
      (∀ id, g.IsArm exit c .ifTrue id ↔ id = p) ∧ ∀ id, g.IsArm exit c .ifFalse id ↔ id = q
  /-- A jump leads to the merge that it is the only way into from here. -/
  goto : ∀ (b : Nat) (block : Block), s.blocks[b]? = some block → block.kind = .goto →
    ∃ t m i x, block.succ = [t] ∧ s.heads[t]? = some m ∧ g.MergeInput exit m i x ∧
      g.ControlHead x block.head ∧
      ∀ m' i' x', g.MergeInput exit m' i' x' → g.ControlHead x' block.head → m' = m ∧ i' = i
  ret : ∀ (b : Nat) (block : Block), s.blocks[b]? = some block → block.kind = .ret →
    block.succ = [] ∧ ∃ c, block.control = some c ∧ g.HasOp c .ret ∧ g.ControlHead c block.head
  /-- An arm is entered from the block that its branch ends. -/
  arm : ∀ (b : Nat) (block : Block), s.blocks[b]? = some block →
    g.HasOp block.head .ifTrue ∨ g.HasOp block.head .ifFalse →
    ∃ (p : Nat) (before : Block) (c : NodeId), block.pred = [p] ∧ s.blocks[p]? = some before ∧
      before.control = some c ∧ g.HasOp c .branch ∧ ∀ y, g.HasInput block.head y ↔ y = c
  /-- A merge has one predecessor for each input, in the order of the inputs. -/
  merge : ∀ (b : Nat) (block : Block) (n : Node), s.blocks[b]? = some block →
    g.node? block.head = some n → n.op = .merge →
    List.Forall₂ (fun x p => ∃ before, s.blocks[p]? = some before ∧ g.ControlHead x before.head)
      n.inputs block.pred
  entry : s.predecessors 0 = []
  balanced : ∀ u v, (s.successors u).count v = (s.predecessors v).count u

section Assembled

variable {exit : NodeId} (hFlow : Flow g exit s) (hWell : g.WellFormed)
  (hStart : g.HasOp Graph.start .start)
  (hHeads : ∀ h, g.Live exit h → g.IsHead h →
    ∃ (b : Nat) (block : Block), s.blocks[b]? = some block ∧ block.head = h)
include hFlow hWell hStart

omit hWell hStart in
/-- A block but the first starts with an arm or a merge, for the start node is not entered. -/
theorem Flow.startsBlock (hBlock : s.blocks[b]? = some block) : g.StartsBlock exit block.head := by
  -- The first block starts with the start, the others with what leads to them.
  by_cases hb : b = 0
  · subst hb
    obtain ⟨first, hFirst, hHead⟩ := hFlow.first
    obtain rfl : first = block := Option.some.inj (hFirst.symm.trans hBlock)
    exact .inl hHead
  · refine .inr ⟨hFlow.live hBlock hb, ?_⟩
    obtain ⟨a, before, hBefore, hEdge⟩ := hFlow.entered hBlock hb
    have hOf : ∀ {h}, s.heads[b]? = some h → h = block.head := by
      intro h hAt
      rw [heads_getElem?, hBlock] at hAt
      exact (Option.some.inj hAt).symm
    -- A jump leads to a merge, a branch to its arms, and a return to nothing.
    cases hFlow.leaves hBefore with
    | goto t _ _ hSucc hJoins =>
      rw [hSucc, List.mem_singleton] at hEdge
      obtain ⟨m, n, x, hAt, hn, hOp, -⟩ := hJoins
      exact .inr (.inr ⟨n, hOf (hEdge ▸ hAt) ▸ hn, hOp⟩)
    | branch c t f _ _ _ hSucc hTrue hFalse =>
      rw [hSucc] at hEdge
      obtain rfl | rfl : b = t ∨ b = f := by simpa using hEdge
      · obtain ⟨h, n, hAt, hn, hOp, -⟩ := startsWith_iff.mp hTrue
        exact .inl ⟨n, hOf hAt ▸ hn, hOp⟩
      · obtain ⟨h, n, hAt, hn, hOp, -⟩ := startsWith_iff.mp hFalse
        exact .inr (.inl ⟨n, hOf hAt ▸ hn, hOp⟩)
    | ret c _ _ _ hSucc =>
      rw [hSucc] at hEdge
      cases hEdge

include hHeads

/-- The arm that a branch leads to is its only one. -/
theorem Flow.isArm_iff {c p : NodeId} {k : Nat} {op : Operator}
    (hBlock : s.blocks[b]? = some block) (hControl : block.control = some c)
    (hArm : op = .ifTrue ∨ op = .ifFalse) (hAt : s.heads[k]? = some p) (hOp : g.HasOp p op)
    (hInput : g.HasInput p c)
    (hOnly : ∀ i ∈ block.succ, ∀ q, s.heads[i]? = some q → g.HasOp q op → i = k) (id : NodeId) :
    g.IsArm exit c op id ↔ id = p := by
  constructor
  · rintro ⟨hLive, hIdOp, hIdInput⟩
    have hHead : g.IsHead id := by
      obtain ⟨n, hn, hnOp⟩ := hIdOp
      exact ⟨n, hn, by rcases hArm with rfl | rfl <;> rw [hnOp] <;> rfl⟩
    -- A live arm has a block, which is entered from the block that the branch ends: this one.
    obtain ⟨i, armBlock, hArmBlock, rfl⟩ := hHeads id hLive hHead
    obtain ⟨a, before, c', hBefore, hControl', -, -, hOne, hEdge, -⟩ :=
      hFlow.branch_of_arm hWell hStart hArmBlock hIdOp hArm
    obtain rfl : c = c' := hOne c hIdInput
    obtain rfl := hFlow.eq_of_control hBefore hControl' hBlock hControl
    obtain rfl : before = block := Option.some.inj (hBefore.symm.trans hBlock)
    have hi : s.heads[i]? = some armBlock.head := by
      rw [heads_getElem?, hArmBlock]
      rfl
    obtain rfl := hOnly i hEdge _ hi hIdOp
    exact Option.some.inj (hi.symm.trans hAt)
  · rintro rfl
    rw [heads_getElem?] at hAt
    obtain ⟨armBlock, hArmBlock, rfl⟩ := Option.map_eq_some_iff.mp hAt
    exact ⟨hFlow.head_live hWell hStart hArmBlock, hOp, hInput⟩

omit hWell hStart hHeads in
/-- Control leads from a block into at most one input of a merge. -/
theorem Flow.mergeInput_unique {m m' x x' : NodeId} (hBlock : s.blocks[b]? = some block)
    (hm : g.MergeInput exit m i x) (hChain : g.ControlHead x block.head)
    (hm' : g.MergeInput exit m' j x') (hChain' : g.ControlHead x' block.head) : m' = m ∧ j = i := by
  obtain ⟨hLive, n, hn, hOp, hx⟩ := hm
  obtain ⟨hLive', n', hn', hOp', hx'⟩ := hm'
  -- The block jumps to the merge that control leads into, and it jumps to one merge only.
  have hJumps : ∀ {m n x}, g.Live exit m → g.node? m = some n → n.op = .merge → x ∈ n.inputs →
      g.ControlHead x block.head → ∃ t, block.succ = [t] ∧ s.heads[t]? = some m := by
    intro m n x hLive hn hOp hx hChain
    obtain ⟨c, other, hOther, hOtherChain, -, t, hSucc, hAt⟩ := (hFlow.merged hLive hn hOp).1 x hx
    obtain rfl := hFlow.distinct hOther hBlock (hOtherChain.unique hChain)
    obtain rfl : other = block := Option.some.inj (hOther.symm.trans hBlock)
    exact ⟨t, hSucc, hAt⟩
  obtain ⟨t, hSucc, hAt⟩ := hJumps hLive hn hOp (List.mem_of_getElem? hx) hChain
  obtain ⟨t', hSucc', hAt'⟩ := hJumps hLive' hn' hOp' (List.mem_of_getElem? hx') hChain'
  obtain rfl : t' = t := by simpa using hSucc'.symm.trans hSucc
  obtain rfl : m' = m := Option.some.inj (hAt'.symm.trans hAt)
  obtain rfl : n' = n := Option.some.inj (hn'.symm.trans hn)
  refine ⟨rfl, ?_⟩
  -- No two inputs of a merge come from the same head.
  have hApart := (hFlow.merged hLive hn hOp).2
  have hLess : ∀ {i j : Nat} {x y : NodeId}, n'.inputs[i]? = some x → n'.inputs[j]? = some y →
      g.ControlHead x block.head → g.ControlHead y block.head → ¬i < j := by
    intro i j x y hx hy hxChain hyChain hLt
    obtain ⟨hi, rfl⟩ := List.getElem?_eq_some_iff.mp hx
    obtain ⟨hj, rfl⟩ := List.getElem?_eq_some_iff.mp hy
    exact List.pairwise_iff_getElem.mp hApart i j hi hj hLt _ hxChain hyChain
  have h1 := hLess hx hx' hChain hChain'
  have h2 := hLess hx' hx hChain' hChain
  omega

/-- A branch leads to its only live arms. -/
theorem Flow.branch_arms (hBlock : s.blocks[b]? = some block) (hKind : block.kind = .branch) :
    ∃ c t f p q, block.control = some c ∧ g.HasOp c .branch ∧ g.ControlHead c block.head ∧
      block.succ = [t, f] ∧ s.heads[t]? = some p ∧ s.heads[f]? = some q ∧
      (∀ id, g.IsArm exit c .ifTrue id ↔ id = p) ∧ ∀ id, g.IsArm exit c .ifFalse id ↔ id = q := by
  -- Only a branch leaves the block like one.
  cases hFlow.leaves hBlock with
  | goto _ hIs | ret _ hIs =>
    rw [hKind] at hIs
    cases hIs
  | branch c t f _ hControl hOp hSucc hTrue hFalse =>
    obtain ⟨p, n, hp, hn, hnOp, hnIn⟩ := startsWith_iff.mp hTrue
    obtain ⟨q, m, hq, hm, hmOp, hmIn⟩ := startsWith_iff.mp hFalse
    refine ⟨c, t, f, p, q, hControl, hOp, (hFlow.control hBlock hControl).2, hSucc, hp, hq, ?_, ?_⟩
    · refine hFlow.isArm_iff hWell hStart hHeads hBlock hControl (.inl rfl) hp ⟨n, hn, hnOp⟩
        ⟨n, hn, hnIn⟩ ?_
      intro i hi r hr hrOp
      rw [hSucc] at hi
      refine (show i = t ∨ i = f by simpa using hi).resolve_right ?_
      rintro rfl
      obtain rfl : r = q := Option.some.inj (hr.symm.trans hq)
      cases hrOp.unique ⟨m, hm, hmOp⟩
    · refine hFlow.isArm_iff hWell hStart hHeads hBlock hControl (.inr rfl) hq ⟨m, hm, hmOp⟩
        ⟨m, hm, hmIn⟩ ?_
      intro i hi r hr hrOp
      rw [hSucc] at hi
      refine (show i = t ∨ i = f by simpa using hi).resolve_left ?_
      rintro rfl
      obtain rfl : r = p := Option.some.inj (hr.symm.trans hp)
      cases hrOp.unique ⟨n, hn, hnOp⟩

omit hHeads in
/-- A jump leads to the merge that control leads into. -/
theorem Flow.goto_merge (hBlock : s.blocks[b]? = some block) (hKind : block.kind = .goto) :
    ∃ t m i x, block.succ = [t] ∧ s.heads[t]? = some m ∧ g.MergeInput exit m i x ∧
      g.ControlHead x block.head ∧
      ∀ m' i' x', g.MergeInput exit m' i' x' → g.ControlHead x' block.head → m' = m ∧ i' = i := by
  -- a block that jumps is left by no end, so it must join
  cases hFlow.leaves hBlock with
  | branch _ _ _ hIs | ret _ hIs =>
    rw [hKind] at hIs
    cases hIs
  | goto t _ _ hSucc hJoins =>
    obtain ⟨m, n, x, hAt, hn, hOp, hx, hChain⟩ := hJoins
    have hLive : g.Live exit m := by
      rw [heads_getElem?] at hAt
      obtain ⟨next, hNext, rfl⟩ := Option.map_eq_some_iff.mp hAt
      exact hFlow.head_live hWell hStart hNext
    obtain ⟨i, hi⟩ := List.mem_iff_getElem?.mp hx
    refine ⟨t, m, i, x, hSucc, hAt, ⟨hLive, n, hn, hOp, hi⟩, hChain, ?_⟩
    intro m' i' x' hm' hChain'
    exact hFlow.mergeInput_unique hBlock ⟨hLive, n, hn, hOp, hi⟩ hChain hm' hChain'

omit hHeads in
/-- An arm is entered from the block of its branch only, and once. -/
theorem Flow.arm_entered (hBalanced : s.Balanced) (hBlock : s.blocks[b]? = some block)
    (hArm : g.HasOp block.head .ifTrue ∨ g.HasOp block.head .ifFalse) :
    ∃ (p : Nat) (before : Block) (c : NodeId), block.pred = [p] ∧ s.blocks[p]? = some before ∧
      before.control = some c ∧ g.HasOp c .branch ∧ ∀ y, g.HasInput block.head y ↔ y = c := by
  obtain ⟨op, hOp, hIs⟩ : ∃ op, g.HasOp block.head op ∧ (op = .ifTrue ∨ op = .ifFalse) :=
    hArm.elim (fun h => ⟨_, h, .inl rfl⟩) fun h => ⟨_, h, .inr rfl⟩
  obtain ⟨p, before, c, hBefore, hControl, hBranch, hInput, hOne, hEdge, hFrom⟩ :=
    hFlow.branch_of_arm hWell hStart hBlock hOp hIs
  refine ⟨p, before, c, ?_, hBefore, hControl, hBranch, fun y => ⟨hOne y, ?_⟩⟩
  · -- The predecessors are counted by the edges that lead here from each block.
    refine List.perm_singleton.mp (List.perm_iff_count.mpr fun a => ?_)
    rw [← predecessors_eq hBlock, ← hBalanced a b]
    by_cases ha : a = p
    · subst ha
      have hHead : s.heads[b]? = some block.head := by
        rw [heads_getElem?, hBlock]
        rfl
      obtain ⟨-, -, -, -, hOnce⟩ := hFlow.edge_to_arm hHead hOp hIs hBefore hEdge
      rw [successors_eq hBefore, hOnce]
      simp
    · rw [List.count_singleton, if_neg (by simpa using Ne.symm ha), List.count_eq_zero]
      intro hIn
      unfold successors at hIn
      cases hOther : s.blocks[a]? with
      | none =>
        rw [hOther] at hIn
        cases hIn
      | some other =>
        rw [hOther] at hIn
        exact ha (hFrom a other hOther hIn)
  · rintro rfl
    exact hInput

omit hHeads hWell in
/-- Nothing leads to the first block. -/
theorem Flow.entry_open (hBalanced : s.Balanced) : s.predecessors 0 = [] := by
  refine List.eq_nil_iff_forall_not_mem.mpr fun a ha => ?_
  have hIn : 0 ∈ s.successors a := (hBalanced.consistent a 0).mpr ha
  unfold successors at hIn
  cases hOther : s.blocks[a]? with
  | none =>
    rw [hOther] at hIn
    cases hIn
  | some other =>
    rw [hOther] at hIn
    exact (hFlow.edge hStart hOther hIn).1 rfl

end Assembled

/-- The predecessors of a merge in the order of its inputs. -/
theorem Linked.merge_entered (h : Linked g live s) (h0 : 0 < s.blocks.size)
    (hSize : s.inOrder.blocks.size = s.blocks.size) (hAt : s.inOrder.heads[b]? = some id)
    (hLive : live.contains id = true) (hn : g.node? id = some n) (hOp : n.op = .merge) :
    Aligned g s.inOrder n.inputs (s.inOrder.predecessors b) := by
  have hKnown := h.balanced.consistent.edgesKnown
  rw [heads_getElem?] at hAt
  obtain ⟨new, hNew, rfl⟩ := Option.map_eq_some_iff.mp hAt
  obtain ⟨i, old, hi, hOld, hMoved, -⟩ := hKnown.exists_old h0 hSize hNew
  have hHead : s.heads[i]? = some new.head := by
    rw [heads_getElem?, hOld, hMoved.head]
    rfl
  -- the inputs are aligned before the blocks are numbered anew, and stay so
  have hPred : s.inOrder.predecessors b =
      (s.predecessors i).filterMap fun x => s.postorder.idxOf? x := by
    unfold Schedule.inOrder
    rw [setDominators_predecessors]
    exact hKnown.predecessors_renumber h0 hi
  rw [hPred]
  exact (h.aligned i new.head n hHead hLive hn hOp).inOrder hKnown h0 hSize

/-- The blocks that are built are those of the control graph, whatever nodes are put into them. -/
theorem buildBlocks_controlGraph (hWell : g.WellFormed) (hStart : g.HasOp Graph.start .start)
    (hRoot : ∃ n, g.node? exit = some n)
    (hLive : ∀ id, live.contains id = true ↔ g.Live exit id)
    (hBuild : buildBlocks g live = .ok f) (hFrame : s.frame = f.frame) :
    IsControlGraph g exit s := by
  have hFlow : Flow g exit s := (buildBlocks_flow hWell hRoot hLive hBuild).of_frame hFrame
  have hFramed := (buildBlocks_settles hWell hRoot hLive).of_ok hBuild
  obtain ⟨linked, rfl, hSize, hLinked⟩ := buildBlocks_linked hWell hBuild
  have h0 : 0 < linked.blocks.size := by
    rw [← size_heads, hLinked.heads]
    exact List.length_pos_of_mem (mem_headsOf.mpr (.inl rfl))
  have hBalanced : s.Balanced := by
    unfold Balanced
    rw [successors_of_frame hFrame, predecessors_of_frame hFrame]
    exact hLinked.balanced.inOrder h0
  have hHeads : ∀ h, g.Live exit h → g.IsHead h →
      ∃ (b : Nat) (block : Block), s.blocks[b]? = some block ∧ block.head = h :=
    fun _ => hFramed.heads_of_frame hFrame
  refine
    { first := hFlow.first
      head := fun b block => hFlow.startsBlock
      block := ?block
      ended := ?ended
      branch := fun b block => hFlow.branch_arms hWell hStart hHeads
      goto := fun b block => hFlow.goto_merge hWell hStart
      ret := ?ret
      arm := fun b block => hFlow.arm_entered hWell hStart hBalanced
      merge := ?merge
      entry := hFlow.entry_open hStart hBalanced
      balanced := hBalanced }
  case block =>
    intro id hId
    obtain ⟨b, block, hBlock, hHead⟩ : ∃ (b : Nat) (block : Block), s.blocks[b]? = some block ∧
        block.head = id := by
      rcases hId with rfl | ⟨hIs, hOp⟩
      · obtain ⟨block, hBlock, hHead⟩ := hFlow.first
        exact ⟨0, block, hBlock, hHead⟩
      · refine hHeads id hIs ?_
        rcases hOp with ⟨n, hn, hOp⟩ | ⟨n, hn, hOp⟩ | ⟨n, hn, hOp⟩ <;>
          exact ⟨n, hn, by rw [hOp]; rfl⟩
    refine ⟨b, ⟨block, hBlock, hHead⟩, ?_⟩
    rintro c ⟨other, hOther, hSame⟩
    exact hFlow.distinct hOther hBlock (hSame.trans hHead.symm)
  case ended =>
    intro b block hBlock
    cases hFlow.leaves hBlock with
    | goto _ hKind | branch _ _ _ hKind | ret _ hKind =>
      rw [hKind]
      decide
  case ret =>
    intro b block hBlock hKind
    cases hFlow.leaves hBlock with
    | goto _ hIs | branch _ _ _ hIs =>
      rw [hKind] at hIs
      cases hIs
    | ret c _ hControl hOp hSucc => exact ⟨hSucc, c, hControl, hOp, (hFlow.control hBlock hControl).2⟩
  case merge =>
    -- Placing the nodes changes neither heads nor edges, so the row is the one of the built blocks.
    intro b block n hBlock hn hOp
    have hIs := (hLive _).mpr (hFlow.head_live hWell hStart hBlock)
    have hAt : linked.inOrder.heads[b]? = some block.head := by
      rw [← heads_of_frame hFrame, heads_getElem?, hBlock]
      rfl
    have hAligned := hLinked.merge_entered h0 hSize hAt hIs hn hOp
    rw [← predecessors_of_frame hFrame, predecessors_eq hBlock] at hAligned
    refine List.Forall₂.imp ?_ (hAligned.of_heads (heads_of_frame hFrame))
    rintro x p ⟨h, hp, hChain⟩
    rw [heads_getElem?] at hp
    obtain ⟨before, hBefore, rfl⟩ := Option.map_eq_some_iff.mp hp
    exact ⟨before, hBefore, hChain⟩

end Schedule
end ArmBackend
