import ArmBackend.Proofs.Schedule.Computed
import Mathlib.Order.WellFounded
import Mathlib.Data.Set.Finite.Basic

/-!
# Blocks that can be put into order

When nodes have been placed, a block has its head, its end and the nodes it lists, and nothing else
is placed in it (`Filled`). So a node of the block that no order can list waits for another such node
or for the end of the block: the block has an order unless some node waits, in the end, for itself or
for the node that ends the block. This holds of any graph whose nodes can be placed, well formed or
not.

## Results

* `Filled.order_or_circular` — a block has a least order, or some node of it waits for itself.
* `Filled.orderNodesBy_eq_orderNodes` — all queues that pop a least node give the same order.
* `placement_filled` — what blocks are like before they are put into order.
* `orderNodesBy_least` — the order of one block, for any queue that pops a least node.
* `compute_least` — the order of all blocks.
-/

namespace ArmBackend.Schedule

variable {σ : Type} {queue : ReadyQueue σ} {Holds : σ → Multiset NodeId → Prop}
variable {g : Graph} {s t : Schedule} {b : Nat} {block : Block} {live : BitSet} {id x : NodeId}
variable {nodes front rest : List NodeId}

/-- What a block is like when nodes have been placed and are not in order yet. -/
structure Filled (g : Graph) (s : Schedule) (b : Nat) (block : Block) : Prop where
  stored : s.blocks[b]? = some block
  head : g.IsHead block.head
  nodup : block.nodes.Nodup
  readable : Readable g block.nodes
  /-- What is placed in the block is its head, its end or one of its nodes. -/
  placed : ∀ id, s.blockOf id = some b → id ∈ block.contents
  control : ∀ c, block.control = some c → c ∉ block.nodes

/-- Whether some node of a block waits, directly or through others, for itself or for the node that
ends the block. -/
def Circular (g : Graph) (s : Schedule) (b : Nat) (block : Block) : Prop :=
  ∃ id ∈ block.nodes, ∃ x, Relation.TransGen (Awaits g s b) id x ∧
    (x = id ∨ block.control = some x)

/-! ## Cycles -/

/-- A way that never leaves a finite set comes back to where it was. -/
theorem exists_transGen_self {α : Type} {r : α → α → Prop} {l : List α} (hNonempty : l ≠ [])
    (hStep : ∀ x ∈ l, ∃ y ∈ l, r x y) : ∃ x ∈ l, Relation.TransGen r x x := by
  by_contra hNone
  push Not at hNone
  have hFinite : Finite { x // x ∈ l } := l.finite_toSet
  have hTrans : IsTrans { x // x ∈ l } fun y x => Relation.TransGen r x.1 y.1 :=
    ⟨fun _ _ _ hxy hyz => hyz.trans hxy⟩
  have hIrrefl : Std.Irrefl fun y x : { x // x ∈ l } => Relation.TransGen r x.1 y.1 :=
    ⟨fun x => hNone x.1 x.2⟩
  -- Were there no way back, some member would have nowhere to go on to.
  have hWf := Finite.wellFounded_of_trans_of_irrefl
    fun y x : { x // x ∈ l } => Relation.TransGen r x.1 y.1
  obtain ⟨first, hFirst⟩ := List.exists_mem_of_ne_nil l hNonempty
  obtain ⟨least, -, hLeast⟩ := hWf.has_min Set.univ ⟨⟨first, hFirst⟩, trivial⟩
  obtain ⟨y, hy, hr⟩ := hStep least.1 least.2
  exact hLeast ⟨y, hy⟩ trivial (.single hr)

/-- In a least order a node stands behind all that it waits for, directly or not. -/
theorem LeastOrder.before_of_transGen {old new : List NodeId} (h : LeastOrder g s b old new)
    (hWaits : Relation.TransGen (Awaits g s b) id x) (hSplit : new = front ++ id :: rest) :
    x ∈ front := by
  induction hWaits using Relation.TransGen.head_induction_on generalizing front rest with
  | single hLast => exact h.before hSplit hLast
  | head hFirst _ ih =>
    obtain ⟨front', rest', rfl⟩ := List.append_of_mem (h.before hSplit hFirst)
    rw [List.append_assoc] at hSplit
    exact List.mem_append_left _ (ih hSplit)

namespace Filled

/-- A block stays filled while other blocks are put into order. -/
theorem kept (h : Filled g s b block) (hHome : t.home = s.home)
    (hBlock : t.blocks[b]? = some block) : Filled g t b block := by
  refine ⟨hBlock, h.head, h.nodup, h.readable, ?_, h.control⟩
  unfold blockOf
  rw [hHome]
  exact h.placed

/-- What a node of the block waits for is another node of it, or its end. -/
theorem awaits_cases (h : Filled g s b block) (hAwaits : Awaits g s b id x) :
    x ∈ othersOf g block.nodes ∨ block.control = some x := by
  obtain ⟨-, -, hHome, hHead, hPhi⟩ := hAwaits
  rcases List.mem_cons.mp (h.placed x hHome) with rfl | hListed
  · exact absurd h.head hHead
  · rcases List.mem_append.mp hListed with hNodes | hControl
    · exact .inl (mem_othersOf.mpr ⟨hNodes, hPhi⟩)
    · exact .inr (Option.mem_toList.mp hControl)

/-- Where nodes are left that all wait for something that is not listed, some of them wait in a
circle. -/
theorem circular (h : Filled g s b block) {listed : List NodeId}
    (hStuck : ∀ id ∈ othersOf g block.nodes, id ∉ listed → ∃ x, Awaits g s b id x ∧ x ∉ listed)
    (hLeft : ∃ id ∈ othersOf g block.nodes, id ∉ listed) : Circular g s b block := by
  have hNode : ∀ id ∈ othersOf g block.nodes, id ∈ block.nodes := fun id hId =>
    (mem_othersOf.mp hId).1
  by_contra hNot
  have hNonempty : (othersOf g block.nodes).filter (· ∉ listed) ≠ [] := by
    obtain ⟨first, hFirst, hOut⟩ := hLeft
    exact List.ne_nil_of_mem (List.mem_filter.mpr ⟨hFirst, decide_eq_true hOut⟩)
  -- What one of them waits for is another of them, for it is not the end of the block.
  have hStep : ∀ id ∈ (othersOf g block.nodes).filter (· ∉ listed),
      ∃ x ∈ (othersOf g block.nodes).filter (· ∉ listed), Awaits g s b id x := by
    intro id hId
    obtain ⟨hOther, hOut⟩ := List.mem_filter.mp hId
    obtain ⟨x, hAwaits, hNotListed⟩ := hStuck id hOther (of_decide_eq_true hOut)
    refine ⟨x, List.mem_filter.mpr ⟨?_, decide_eq_true hNotListed⟩, hAwaits⟩
    refine (h.awaits_cases hAwaits).resolve_right fun hControl => hNot ?_
    exact ⟨id, hNode id hOther, x, .single hAwaits, .inr hControl⟩
  obtain ⟨id, hId, hCycle⟩ := exists_transGen_self hNonempty hStep
  exact hNot ⟨id, hNode id (List.mem_of_mem_filter hId), id, hCycle, .inl rfl⟩

/-- Where there is a least order no node waits for itself or for the end. -/
theorem not_circular (h : Filled g s b block) (hOrder : LeastOrder g s b block.nodes nodes) :
    ¬Circular g s b block := by
  rintro ⟨id, hId, x, hWaits, hEnd⟩
  obtain ⟨front, rest, hSplit⟩ := List.append_of_mem (hOrder.perm.mem_iff.mpr hId)
  have hFront : x ∈ front := hOrder.before_of_transGen hWaits hSplit
  rcases hEnd with rfl | hControl
  · have hNodup := hOrder.perm.nodup_iff.mpr h.nodup
    rw [hSplit] at hNodup
    exact (List.nodup_append.mp hNodup).2.2 x hFront x List.mem_cons_self rfl
  · refine h.control x hControl (hOrder.perm.mem_iff.mp ?_)
    rw [hSplit]
    exact List.mem_append_left _ hFront

/-- A block has a least order, which the pass gives, or some node waits for itself or for the end. -/
theorem order_or_circular (hQueue : queue.PopsLeast Holds) (h : Filled g s b block) :
    (∃ nodes, orderNodesBy queue g s b = .ok nodes ∧ LeastOrder g s b block.nodes nodes ∧
      ¬Circular g s b block) ∨
    ∃ op, g.HasOp block.head op ∧ Circular g s b block ∧
      orderNodesBy queue g s b = .error (.malformed block.head op (.cycle b)) := by
  obtain ⟨listed, hGreedy, hStuck, hEq⟩ := orderNodesBy_eq hQueue h.stored h.nodup h.readable
  by_cases hLength : listed.length = (othersOf g block.nodes).length
  · rw [if_pos hLength] at hEq
    have hOrder := orderNodesBy_leastOrder hQueue h.stored h.nodup hEq
    exact .inl ⟨_, hEq, hOrder, h.not_circular hOrder⟩
  · rw [if_neg hLength] at hEq
    obtain ⟨n, hn, -⟩ := h.head
    rw [Graph.op_eq_ok.mpr ⟨n, hn, rfl⟩] at hEq
    refine .inr ⟨n.op, ⟨n, hn, rfl⟩, h.circular hStuck ?_, hEq⟩
    -- Fewer are listed than there are, so some are left.
    by_contra hAll
    push Not at hAll
    refine hLength (Nat.le_antisymm hGreedy.length_le ?_)
    exact (List.subperm_of_subset (h.nodup.filter _) hAll).length_le

/-- How a queue finds the least node that is ready makes no difference. -/
theorem orderNodesBy_eq_orderNodes (hQueue : queue.PopsLeast Holds) (h : Filled g s b block) :
    orderNodesBy queue g s b = orderNodes g s b := by
  unfold orderNodes
  rcases h.order_or_circular hQueue with ⟨nodes, hRun, hOrder, hNot⟩ | ⟨op, hOp, hCircular, hRun⟩ <;>
  rcases h.order_or_circular ReadyQueue.scanned_popsLeast with
    ⟨nodes', hRun', hOrder', hNot'⟩ | ⟨op', hOp', hCircular', hRun'⟩
  · rw [hRun, hRun', hOrder.unique hOrder']
  · exact absurd hCircular' hNot
  · exact absurd hCircular hNot'
  · obtain ⟨n, hn, rfl⟩ := hOp
    obtain ⟨n', hn', rfl⟩ := hOp'
    obtain rfl : n = n' := Option.some.inj (hn.symm.trans hn')
    rw [hRun, hRun']

end Filled

/-! ## Before the nodes are put into order -/

/-- What holds of the blocks while nodes are placed. -/
structure Filling (g : Graph) (live : BitSet) (s : Schedule) : Prop where
  head : ∀ (b : Nat) (block : Block), s.blocks[b]? = some block → g.IsHead block.head
  live : ∀ (b : Nat) (block : Block), s.blocks[b]? = some block →
    ∀ id ∈ block.nodes, live.contains id = true
  lists : s.ListsOnce
  placed : ∀ (b : Nat) (block : Block), s.blocks[b]? = some block →
    ∀ id, s.home id = some b → id ∈ block.contents
  control : ∀ (b : Nat) (block : Block), s.blocks[b]? = some block →
    ∀ c, block.control = some c → (s.home c).isSome ∧ c ∉ block.nodes

/-- Nothing is in the blocks but what starts and ends them. -/
theorem placeControl_filling (hBuild : buildBlocks g live = .ok s) :
    Filling g live (placeControl s) := by
  -- placing control changes homes alone, so the blocks are still bare
  have hStored : ∀ {b : Nat} {block : Block}, (placeControl s).blocks[b]? = some block →
      s.blocks[b]? = some block := by
    intro b block hBlock
    rwa [placeControl_blocks] at hBlock
  have hBare : ∀ {b : Nat} {block : Block}, (placeControl s).blocks[b]? = some block →
      Bare g s block := fun hBlock => buildBlocks_bare hBuild (hStored hBlock)
  refine ⟨fun _ _ hBlock => (hBare hBlock).head, ?_, ?_, ?_, ?_⟩
  · intro b block hBlock
    simp [(hBare hBlock).nodes]
  · intro b block hBlock
    simp [(hBare hBlock).nodes]
  · intro b block hBlock id hId
    obtain ⟨found, hFound, hPinned⟩ := placeControl_pinned (fun _ => buildBlocks_home hBuild) hId
    obtain rfl : block = found := Option.some.inj ((hStored hBlock).symm.trans hFound)
    rcases hPinned with rfl | hControl
    · exact List.mem_cons_self
    · exact List.mem_cons_of_mem _ (List.mem_append_right _ (Option.mem_toList.mpr hControl))
  · intro b block hBlock c hControl
    refine ⟨placeControl_places (hStored hBlock) (.inr hControl), ?_⟩
    simp [(hBare hBlock).nodes]

/-- A live node without a place is put into a block. -/
theorem Filling.append (h : Filling g live s) (hLive : live.contains id = true)
    (hHome : s.home id = none) (b : Nat) : Filling g live (s.append b id) := by
  -- Every block is as it was, or has the node at the end.
  have hOld : ∀ (c : Nat) (block : Block), (s.append b id).blocks[c]? = some block →
      ∃ old, s.blocks[c]? = some old ∧
        ((c ≠ b ∧ block = old) ∨ (c = b ∧ block = { old with nodes := old.nodes ++ [id] })) := by
    intro c block hBlock
    rw [append_block] at hBlock
    split at hBlock
    · next hb =>
      obtain ⟨old, hOld, rfl⟩ := Option.map_eq_some_iff.mp hBlock
      exact ⟨old, hOld, .inr ⟨hb.symm, rfl⟩⟩
    · next hb => exact ⟨block, hBlock, .inl ⟨Ne.symm hb, rfl⟩⟩
  refine ⟨?_, ?_, h.lists.append hHome b, ?_, ?_⟩
  · intro c block hBlock
    obtain ⟨old, hAt, hCases⟩ := hOld c block hBlock
    rcases hCases with ⟨-, rfl⟩ | ⟨-, rfl⟩
    · exact h.head c block hAt
    · exact h.head c old hAt
  · intro c block hBlock x hx
    obtain ⟨old, hAt, ⟨-, rfl⟩ | ⟨-, rfl⟩⟩ := hOld c block hBlock
    · exact h.live c block hAt x hx
    · rcases List.mem_append.mp hx with hx | hx
      · exact h.live c old hAt x hx
      · rw [List.mem_singleton.mp hx]
        exact hLive
  · intro c block hBlock x hx
    rw [append_home] at hx
    obtain ⟨old, hAt, ⟨hNe, rfl⟩ | ⟨-, rfl⟩⟩ := hOld c block hBlock
    · split at hx
      · exact absurd (Option.some.inj hx).symm hNe
      · exact h.placed c block hAt x hx
    · refine (contents_append old id x).mpr ?_
      split at hx
      · next hEq => exact .inl hEq
      · exact .inr (h.placed c old hAt x hx)
  · intro c block hBlock x hControl
    obtain ⟨old, hAt, hCases⟩ := hOld c block hBlock
    have hOldControl : old.control = some x := by
      rcases hCases with ⟨-, rfl⟩ | ⟨-, rfl⟩ <;> exact hControl
    obtain ⟨hSome, hNot⟩ := h.control c old hAt x hOldControl
    have hNe : x ≠ id := by
      rintro rfl
      rw [hHome] at hSome
      cases hSome
    rw [append_home, if_neg hNe]
    refine ⟨hSome, ?_⟩
    rcases hCases with ⟨-, rfl⟩ | ⟨-, rfl⟩
    · exact hNot
    · rw [List.mem_append, List.mem_singleton, not_or]
      exact ⟨hNot, hNe⟩

/-- What blocks are like before they are put into order. -/
theorem placement_filled (hPlaced : placement g = .ok s) (hBlock : s.blocks[b]? = some block) :
    Filled g s b block := by
  obtain ⟨exit, live, f, h⟩ := placement_stages hPlaced
  have hNode : ∀ id, live.contains id = true →
      ∃ n, g.node? id = some n ∧ ∀ x ∈ n.inputs, live.contains x = true :=
    fun id hId => inputs_of_liveNodes h.marked hId
  -- placing a node keeps the lists filled: it enters the list of the block it is given
  have hFilling : Filling g live s := by
    refine (placeNodes_keeps (L := fun id => live.contains id = true) ?_ ?_ ?_
      (placeControl_filling h.built)).of_ok h.placed
    · intro id n hId hn
      obtain ⟨m, hm, hInputs⟩ := hNode id hId
      obtain rfl : n = m := Option.some.inj (hn.symm.trans hm)
      exact hInputs
    · intro t b id _ hId _ hHome hKept
      exact hKept.append hId hHome b
    · intro k hk
      rw [BitSet.contains_natCast]
      exact hk
  refine ⟨hBlock, hFilling.head b block hBlock, (hFilling.lists b block hBlock).1, ?_,
    hFilling.placed b block hBlock, fun c hc => (hFilling.control b block hBlock c hc).2⟩
  intro id hId
  obtain ⟨n, hn, hInputs⟩ := hNode id (hFilling.live b block hBlock id hId)
  refine ⟨n, hn, fun _ x hx => ?_⟩
  obtain ⟨m, hm, -⟩ := hNode x (hInputs x hx)
  exact ⟨m, hm⟩

/-! ## The order of blocks -/

/-- The pass over a block gives its least order, or fails because some node waits, in the end, for
itself or for the node that ends the block. So it is with every block when nodes have been placed,
also when other blocks have been put into order already. -/
theorem orderNodesBy_least (hQueue : queue.PopsLeast Holds) :
    (∀ (g : Graph) (s : Schedule) (b : Nat) (block : Block), Filled g s b block →
      match orderNodesBy queue g s b with
      | .ok nodes => LeastOrder g s b block.nodes nodes ∧ ¬Circular g s b block
      | .error f => Circular g s b block ∧
          ∃ op, g.HasOp block.head op ∧ f = .malformed block.head op (.cycle b)) ∧
    ∀ (g : Graph) (s t : Schedule), placement g = .ok s → t.home = s.home →
      ∀ (b : Nat) (block : Block), s.blocks[b]? = some block → t.blocks[b]? = some block →
        Filled g t b block := by
  refine ⟨?_, fun g s t hPlaced hHome b block hBlock hKept =>
    (placement_filled hPlaced hBlock).kept hHome hKept⟩
  intro g s b block h
  rcases h.order_or_circular hQueue with ⟨nodes, hRun, hOrder, hNot⟩ | ⟨op, hOp, hCircular, hRun⟩
  · rw [hRun]
    exact ⟨hOrder, hNot⟩
  · rw [hRun]
    exact ⟨hCircular, op, hOp, rfl⟩

/-- The square of a sum, each node in front of its inputs. -/
def squaredSum : Graph :=
  { nodes := #[
      { op := .start },
      .ofArity (.int32 .mul) [2, 2],
      .ofArity (.int32 .add) [4, 3],
      .parameter 0 .int32,
      .int32 6,
      .ofArity .ret [1, 0, 0],
      .collect [5]]
    exit := some 6 }

/-- A load that takes the effect of the return of its value. -/
def loadAfterReturn : Graph :=
  { nodes := #[
      { op := .start },
      .parameter 0 .int32,
      .load .word32 1 1 3 0,
      .ofArity .ret [2, 0, 0],
      .collect [3]]
    exit := some 4 }

theorem orderNodesBy_least_squaredSum :
    (∃ s block, placement squaredSum = .ok s ∧ s.blocks[0]? = some block ∧
      block.nodes = [4, 3, 2, 1] ∧ orderNodesBy .scanned squaredSum s 0 = .ok [3, 4, 2, 1] ∧
      LeastOrder squaredSum s 0 block.nodes [3, 4, 2, 1]) ∧
    ∃ s block op, placement loadAfterReturn = .ok s ∧ s.blocks[0]? = some block ∧
      Circular loadAfterReturn s 0 block ∧ orderNodesBy .scanned loadAfterReturn s 0 =
        .error (.malformed block.head op (.cycle 0)) := by
  obtain ⟨hOutcome, hFilled⟩ := orderNodesBy_least ReadyQueue.scanned_popsLeast
  refine ⟨?_, ?_⟩
  · -- The outcome is computed once; what it is worth is told by the theorem.
    have hRun : ((placement squaredSum).toOption.bind fun s => s.blocks[0]?.bind fun block =>
        (orderNodesBy .scanned squaredSum s 0).toOption.map fun nodes => (block.nodes, nodes)) =
        some ([4, 3, 2, 1], [3, 4, 2, 1]) := by
      decide +kernel
    obtain ⟨s, hPlaced, hRun⟩ := Option.bind_eq_some_iff.mp hRun
    obtain ⟨block, hBlock, hRun⟩ := Option.bind_eq_some_iff.mp hRun
    obtain ⟨nodes, hNodes, hPair⟩ := Option.map_eq_some_iff.mp hRun
    obtain ⟨hOld, rfl⟩ := Prod.mk.inj hPair
    rw [toOption_eq_some] at hPlaced hNodes
    have hLeast := hOutcome _ s 0 block (hFilled _ s s hPlaced rfl 0 block hBlock hBlock)
    rw [hNodes] at hLeast
    exact ⟨s, block, hPlaced, hBlock, hOld, hNodes, hLeast.1⟩
  · have hRun : ((placement loadAfterReturn).toOption.bind fun s => s.blocks[0]?.map fun _ =>
        (orderNodesBy .scanned loadAfterReturn s 0).toOption) = some none := by
      decide +kernel
    obtain ⟨s, hPlaced, hRun⟩ := Option.bind_eq_some_iff.mp hRun
    obtain ⟨block, hBlock, hNone⟩ := Option.map_eq_some_iff.mp hRun
    rw [toOption_eq_some] at hPlaced
    have hLeast := hOutcome _ s 0 block (hFilled _ s s hPlaced rfl 0 block hBlock hBlock)
    cases hNodes : orderNodesBy .scanned loadAfterReturn s 0 with
    | ok nodes =>
      rw [hNodes] at hNone
      cases hNone
    | error f =>
      rw [hNodes] at hLeast
      obtain ⟨hCircular, op, -, rfl⟩ := hLeast
      exact ⟨s, block, op, hPlaced, hBlock, hCircular, hNodes⟩

/-- A schedule is what placing the nodes gives, with every block in its least order; where there is
none though nodes have been placed, some node waits for itself or for the end of its block. -/
theorem compute_least (hPlaced : placement g = .ok s) :
    Settles (fun f => ∃ b block op, s.blocks[b]? = some block ∧ Circular g s b block ∧
        g.HasOp block.head op ∧ f = .malformed block.head op (.cycle b))
      (compute g) fun t => t.home = s.home ∧ t.blocks.size = s.blocks.size ∧
        ∀ (b : Nat) (block : Block), t.blocks[b]? = some block →
          ∃ old nodes, s.blocks[b]? = some old ∧ block = { old with nodes } ∧
            LeastOrder g s b old.nodes nodes ∧ ¬Circular g s b old := by
  have hQueue := ReadyQueue.scanned_popsLeast
  rw [compute_eq_placement, hPlaced, ok_bind]
  refine (orderBlocks_reordered g s).weaken ?_ ?_
  · rintro f ⟨b, block, hBlock, hError⟩
    -- the order fails just when the block is circular
    rcases (placement_filled hPlaced hBlock).order_or_circular hQueue with
      ⟨nodes, hRun, -⟩ | ⟨op, hOp, hCircular, hRun⟩
    · cases hRun.symm.trans hError
    · cases hRun.symm.trans hError
      exact ⟨b, block, op, hBlock, hCircular, hOp, rfl⟩
  · intro t hOrdered
    refine ⟨hOrdered.home, hOrdered.size, ?_⟩
    intro b block hBlock
    obtain ⟨old, nodes, hOld, hNodes, rfl⟩ := hOrdered.block hBlock
    rcases (placement_filled hPlaced hOld).order_or_circular hQueue with
      ⟨nodes', hRun, hOrder, hNot⟩ | ⟨op, -, -, hRun⟩
    · cases hRun.symm.trans hNodes
      exact ⟨old, nodes, hOld, rfl, hOrder, hNot⟩
    · cases hRun.symm.trans hNodes

end ArmBackend.Schedule
