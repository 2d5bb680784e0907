import ArmBackend.Proofs.Schedule.Chains
import ArmBackend.Proofs.Schedule.Ordered
import ArmBackend.Proofs.Schedule.Ready

/-!
# The least order of a block

The order of a block is determined by its nodes: joins stand first, in the order in which they were
placed, and behind them each place has the least node that waits for nothing but nodes in front of
it. No two lists are like that (`LeastOrder.unique`), so no two queues give different orders.

## Results

* `LeastOrder.unique` — a block has one least order.
* `LeastOrder.eq_or_lex` — it is the least of the orders that a block can have.
* `orderNodesBy_eq` — what the pass over a block gives, for any queue that pops a least node.
* `orderNodesBy_leastOrder` — where it gives an order, that is the least one.
* `orderBlocks_reordered` — all blocks are put into order, each as if it were the only one.
-/

namespace ArmBackend.Schedule

variable {σ : Type} {queue : ReadyQueue σ} {Holds : σ → Multiset NodeId → Prop} {a : Agenda σ}
variable {g : Graph} {s t : Schedule} {b : Nat} {block : Block} {n : Node} {id x : NodeId}
variable {nodes old new front rest : List NodeId}

/-! ## Operators and inputs -/

/-- The operator of a node, for nodes that there are. -/
def opOf (g : Graph) (id : NodeId) : Operator :=
  (g.node? id).elim .invalid Node.op

theorem op_eq_opOf (hn : g.node? id = some n) : g.op id = .ok (opOf g id) := by
  rw [Graph.op_eq_ok]
  exact ⟨n, hn, by rw [opOf, hn]; rfl⟩

theorem isPhi_opOf : (opOf g id).isPhi = true ↔ g.IsPhi id := by
  unfold opOf Graph.IsPhi
  cases g.node? id with
  | none => simp [Operator.isPhi]
  | some n => simp

theorem isHead_opOf : (opOf g id).isHead = true ↔ g.IsHead id := by
  unfold opOf Graph.IsHead
  cases g.node? id with
  | none => simp [Operator.isHead]
  | some n => simp

/-- The inputs of a node that have to come before it in a block. -/
def awaited (g : Graph) (s : Schedule) (b : Nat) (id : NodeId) : List NodeId :=
  ((g.node? id).elim [] Node.inputs).filter fun x =>
    decide (s.blockOf x = some b) && !(opOf g x).isHead && !(opOf g x).isPhi

/-- Whether a node has to wait for another in a block: it takes the other, which is placed there and
is neither a head nor a join. A join waits for nothing. -/
def Awaits (g : Graph) (s : Schedule) (b : Nat) (id x : NodeId) : Prop :=
  ¬g.IsPhi id ∧ g.HasInput id x ∧ s.blockOf x = some b ∧ ¬g.IsHead x ∧ ¬g.IsPhi x

theorem mem_awaited (hPhi : ¬g.IsPhi id) : x ∈ awaited g s b id ↔ Awaits g s b id x := by
  unfold awaited Awaits Graph.HasInput
  rw [List.mem_filter, ← isHead_opOf, ← @isPhi_opOf g x]
  cases g.node? id with
  | none => simp
  | some n => simp [hPhi, and_assoc]

/-- Whether a pass can read the nodes of a list: they are nodes, and so are the inputs of those that
are no joins. -/
def Readable (g : Graph) (nodes : List NodeId) : Prop :=
  ∀ id ∈ nodes, ∃ n, g.node? id = some n ∧
    (n.op.isPhi = false → ∀ x ∈ n.inputs, ∃ m, g.node? x = some m)

theorem dependencies_eq_ok (hn : g.node? id = some n)
    (hInputs : ∀ x ∈ n.inputs, ∃ m, g.node? x = some m) :
    dependencies g s b n = .ok (awaited g s b id) := by
  unfold dependencies awaited
  rw [hn]
  refine filterM_eq_ok ?_
  intro x hx
  obtain ⟨m, hm⟩ := hInputs x hx
  rw [op_eq_opOf hm, ok_bind]
  rfl

/-- The inputs of a node whose dependencies are found are nodes. -/
theorem node_of_dependencies {inputs : List NodeId} (h : dependencies g s b n = .ok inputs)
    (hx : x ∈ n.inputs) : ∃ m, g.node? x = some m := by
  obtain ⟨p, hp, -⟩ := filterM_inv h
  obtain ⟨op, hOp, -⟩ := bind_eq_ok.mp (hp x hx)
  obtain ⟨m, hm, -⟩ := Graph.op_eq_ok.mp hOp
  exact ⟨m, hm⟩

/-! ## Least orders -/

/-- The joins of a list of nodes. -/
def joinsOf (g : Graph) (nodes : List NodeId) : List NodeId :=
  nodes.filter fun id => (opOf g id).isPhi

/-- The nodes of a list that are no joins. -/
def othersOf (g : Graph) (nodes : List NodeId) : List NodeId :=
  nodes.filter fun id => !(opOf g id).isPhi

theorem mem_joinsOf : id ∈ joinsOf g nodes ↔ id ∈ nodes ∧ g.IsPhi id := by
  rw [joinsOf, List.mem_filter, isPhi_opOf]

theorem mem_othersOf : id ∈ othersOf g nodes ↔ id ∈ nodes ∧ ¬g.IsPhi id := by
  rw [othersOf, List.mem_filter, Bool.not_eq_true', ← Bool.not_eq_true, isPhi_opOf]

/-- Whether a list of nodes is the least order of another: the joins come first, in the order in
which they were, and then each node is the least of those that are not listed yet and wait for
nothing but listed nodes. -/
structure LeastOrder (g : Graph) (s : Schedule) (b : Nat) (old new : List NodeId) : Prop where
  perm : new.Perm old
  split : ∃ rest, new = joinsOf g old ++ rest ∧ Greedy (Awaits g s b) (othersOf g old) rest

/-- A list of nodes has one least order. -/
theorem LeastOrder.unique {new' : List NodeId} (h : LeastOrder g s b old new)
    (h' : LeastOrder g s b old new') : new = new' := by
  obtain ⟨rest, rfl, hGreedy⟩ := h.split
  obtain ⟨rest', rfl, hGreedy'⟩ := h'.split
  have hLength := (h.perm.trans h'.perm.symm).length_eq
  rw [List.length_append, List.length_append, Nat.add_left_cancel_iff] at hLength
  rw [hGreedy.eq_of_length_eq hGreedy' hLength]

/-- Where a node that is no join stands, the joins are in front of it and it is the next one. -/
theorem LeastOrder.next (h : LeastOrder g s b old new) (hSplit : new = front ++ id :: rest)
    (hPhi : ¬g.IsPhi id) : ∃ listed, front = joinsOf g old ++ listed ∧
      IsNext (Awaits g s b) (othersOf g old) listed id := by
  obtain ⟨out, rfl, hGreedy⟩ := h.split
  rcases List.append_eq_append_iff.mp hSplit with ⟨listed, rfl, hOut⟩ | ⟨last, hJoins, hRest⟩
  · exact ⟨listed, rfl, hGreedy listed id rest hOut⟩
  · cases last with
    | nil =>
      rw [List.append_nil] at hJoins
      exact ⟨[], by rw [hJoins, List.append_nil], hGreedy [] id rest hRest.symm⟩
    | cons y last =>
      obtain ⟨rfl, -⟩ := List.cons.inj hRest
      have hMem : id ∈ joinsOf g old := by
        rw [hJoins]
        simp
      exact absurd (mem_joinsOf.mp hMem).2 hPhi

/-- What a node waits for stands in front of it. -/
theorem LeastOrder.before (h : LeastOrder g s b old new) (hSplit : new = front ++ id :: rest)
    (hAwaits : Awaits g s b id x) : x ∈ front := by
  obtain ⟨listed, rfl, hNext⟩ := h.next hSplit hAwaits.1
  exact List.mem_append_right _ (hNext.ready x hAwaits)

/-- The least order is the least one, list by list, of all orders that have the joins first and each
other node behind what it waits for. -/
theorem LeastOrder.eq_or_lex (h : LeastOrder g s b old new)
    (hPerm : (joinsOf g old ++ rest).Perm old)
    (hBefore : ∀ front id tail, rest = front ++ id :: tail → ∀ x, Awaits g s b id x → x ∈ front) :
    new = joinsOf g old ++ rest ∨ List.Lex (· < ·) new (joinsOf g old ++ rest) := by
  obtain ⟨least, rfl, hGreedy⟩ := h.split
  have hOld : (joinsOf g old ++ othersOf g old).Perm old := List.filter_append_perm _ _
  have hOthers : ∀ {l}, (joinsOf g old ++ l).Perm old → l.Perm (othersOf g old) := fun hl =>
    (List.perm_append_left_iff _).mp (hl.trans hOld.symm)
  have hNodup : (othersOf g old).Nodup := (hOthers h.perm).nodup_iff.mp hGreedy.nodup
  rw [← List.nil_append least] at hGreedy
  rcases hGreedy.eq_or_lex_of_closed (hOthers hPerm) hNodup hBefore with rfl | hLess
  · exact .inl rfl
  · exact .inr (hLess.append_left _ _)

/-! ## The pass over a block -/

/-- A node is taken into the pass. -/
theorem enter_eq_ok (hn : g.node? id = some n)
    (hInputs : n.op.isPhi = false → ∀ x ∈ n.inputs, ∃ m, g.node? x = some m) (a : Agenda σ) :
    a.enter queue g s b id = .ok (if (opOf g id).isPhi then a.list id
      else ((awaited g s b id).foldl (Agenda.await id) a).offer queue id) := by
  have hOp : opOf g id = n.op := by
    rw [opOf, hn]
    rfl
  unfold Agenda.enter
  rw [Graph.node_eq_ok.mpr hn, ok_bind, hOp]
  cases hPhi : n.op.isPhi with
  | true => rfl
  | false =>
    show dependencies g s b n >>= _ = _
    rw [dependencies_eq_ok hn (hInputs hPhi)]
    rfl

/-- All nodes of a block are taken into the pass. -/
theorem enterAll (hQueue : queue.PopsLeast Holds) (hNodup : nodes.Nodup) (hRead : Readable g nodes) :
    ∃ a, nodes.foldlM (Agenda.enter queue g s b) { ready := queue.empty } = .ok a ∧
      a.Tracks Holds (awaited g s b) (othersOf g nodes) [] [] ∧ a.nodes = joinsOf g nodes := by
  refine Settles.exists_ok (Settles.foldlM (I := fun front (a : Agenda σ) =>
    a.Tracks Holds (awaited g s b) (othersOf g front) [] [] ∧ a.nodes = joinsOf g front) ?_ ?_)
  · exact ⟨⟨by simp [othersOf], by simp, by simp [othersOf], hQueue.empty, by simp⟩, rfl⟩
  · rintro front id rest a hSplit ⟨hTracks, hNodes⟩
    obtain ⟨n, hn, hInputs⟩ := hRead id (by rw [hSplit]; simp)
    rw [enter_eq_ok hn hInputs]
    have hFront : (front ++ [id]).Nodup := by
      rw [hSplit, List.append_cons] at hNodup
      exact hNodup.sublist (List.sublist_append_left _ _)
    unfold othersOf joinsOf at *
    rw [List.filter_append, List.filter_append]
    -- A phi is listed at once; any other node waits for its inputs in the block.
    cases hPhi : (opOf g id).isPhi with
    | true =>
      refine Settles.pure ⟨?_, ?_⟩
      · simpa [hPhi] using ⟨hTracks.wait, hTracks.idle, hTracks.users, hTracks.ready, hTracks.due⟩
      · simp [Agenda.list, hNodes, hPhi]
    | false =>
      have hOthers : [id].filter (fun id => !(opOf g id).isPhi) = [id] := by simp [hPhi]
      rw [hOthers]
      refine Settles.pure ⟨hTracks.enter hQueue ?_, ?_⟩
      · rw [← hOthers, ← List.filter_append]
        exact hFront.filter _
      · simp [hNodes, hPhi]

/-- A list of nodes that are all taken into a pass can be read. -/
theorem readable_of_enterAll {start : Agenda σ}
    (h : nodes.foldlM (Agenda.enter queue g s b) start = .ok a) : Readable g nodes := by
  refine Settles.of_ok (Settles.foldlM (R := fun _ => True)
    (I := fun front (_ : Agenda σ) => Readable g front) ?_ ?_) h
  · intro id hId
    cases hId
  · rintro front id rest a - hFront
    refine Settles.intro fun a' hEnter => ?_
    -- entering a node reads it, and its dependencies too unless it is a phi
    unfold Agenda.enter at hEnter
    obtain ⟨n, hn, hEnter⟩ := bind_eq_ok.mp hEnter
    intro y hy
    rcases List.mem_append.mp hy with hy | hy
    · exact hFront y hy
    · rw [List.mem_singleton.mp hy]
      refine ⟨n, Graph.node_eq_ok.mp hn, ?_⟩
      intro hPhi x hx
      rw [hPhi] at hEnter
      obtain ⟨inputs, hInputs, -⟩ := bind_eq_ok.mp hEnter
      exact node_of_dependencies hInputs hx

/-- The pass over a block lists nodes of the block only. -/
theorem mem_orderNodesBy (hQueue : queue.PopsLeast Holds) (hBlock : s.blocks[b]? = some block)
    (h : orderNodesBy queue g s b = .ok nodes) (hId : id ∈ nodes) : id ∈ block.nodes := by
  unfold orderNodesBy Schedule.block at h
  rw [hBlock, ok_bind] at h
  obtain ⟨entered, hEnter, h⟩ := bind_eq_ok.mp h
  obtain ⟨final, hDrain, h⟩ := bind_eq_ok.mp h
  -- What enters is in the block, and so is all that the queue ever holds.
  have hEntered : entered.Confined Holds block.nodes := by
    refine Settles.of_ok (Settles.foldlM_mem (R := fun _ => True)
      (I := fun a : Agenda σ => a.Confined Holds block.nodes) ?_ ?_) hEnter
    · exact ⟨by simp, ⟨0, hQueue.empty, by simp⟩, by simp⟩
    · intro x hx a ha
      refine Settles.intro fun a' ha' => ?_
      unfold Agenda.enter at ha'
      obtain ⟨n, -, ha'⟩ := bind_eq_ok.mp ha'
      split at ha'
      · cases pure_eq_ok.mp ha'
        exact ha.list hx
      · obtain ⟨inputs, -, ha'⟩ := bind_eq_ok.mp ha'
        cases pure_eq_ok.mp ha'
        exact ha.enter hQueue hx inputs
  dsimp only at h
  split at h
  · obtain ⟨op, -, h⟩ := bind_eq_ok.mp h
    cases h
  · cases pure_eq_ok.mp h
    exact (hEntered.drain hQueue hDrain).nodes id hId

/-- What the pass over a block gives: nodes are listed greedily until none of those that are left can
be, and the block has an order if none is left. -/
theorem orderNodesBy_eq (hQueue : queue.PopsLeast Holds) (hBlock : s.blocks[b]? = some block)
    (hNodup : block.nodes.Nodup) (hRead : Readable g block.nodes) :
    ∃ listed, Greedy (Awaits g s b) (othersOf g block.nodes) listed ∧
      (∀ id ∈ othersOf g block.nodes, id ∉ listed → ∃ x, Awaits g s b id x ∧ x ∉ listed) ∧
      orderNodesBy queue g s b =
        if listed.length = (othersOf g block.nodes).length then .ok (joinsOf g block.nodes ++ listed)
        else g.op block.head >>= fun op => throw (.malformed block.head op (.cycle b)) := by
  obtain ⟨a, hEnter, hTracks, hNodes⟩ := enterAll (s := s) (b := b) hQueue hNodup hRead
  have hPerm : (joinsOf g block.nodes ++ othersOf g block.nodes).Perm block.nodes :=
    List.filter_append_perm _ _
  have hLength := hPerm.length_eq
  rw [List.length_append] at hLength
  have hOthers : (othersOf g block.nodes).Nodup := hNodup.filter _
  obtain ⟨final, listed, hDrain, hFinal, hGreedy, hStuck⟩ := hTracks.drain hQueue hOthers Greedy.nil
    (show _ < [].length + (block.nodes.length + 1) by rw [List.length_nil]; omega)
  rw [List.nil_append] at hGreedy
  simp only [List.nil_append] at hStuck
  -- What a node waits for is what it takes from its own block.
  have hSame : ∀ id ∈ othersOf g block.nodes, ∀ x,
      x ∈ awaited g s b id ↔ Awaits g s b id x := fun id hId _ => mem_awaited (mem_othersOf.mp hId).2
  refine ⟨listed, hGreedy.congr hSame, ?_, ?_⟩
  · intro id hId hOut
    obtain ⟨x, hx, hNot⟩ := hStuck id hId hOut
    exact ⟨x, (hSame id hId x).mp hx, hNot⟩
  · unfold orderNodesBy Schedule.block
    rw [hBlock, ok_bind, hEnter, ok_bind, hDrain, ok_bind, hFinal, hNodes, List.length_append]
    -- All are listed, or some wait for one another and the fault names the head.
    by_cases hAll : listed.length = (othersOf g block.nodes).length
    · rw [if_neg (by omega), if_pos hAll]
      rfl
    · rw [if_pos (by omega), if_neg hAll]
      cases g.op block.head <;> rfl

/-- Where the pass gives an order, that is the least one. -/
theorem orderNodesBy_leastOrder (hQueue : queue.PopsLeast Holds)
    (hBlock : s.blocks[b]? = some block) (hNodup : block.nodes.Nodup)
    (h : orderNodesBy queue g s b = .ok nodes) : LeastOrder g s b block.nodes nodes := by
  have hRead : Readable g block.nodes := by
    unfold orderNodesBy Schedule.block at h
    rw [hBlock, ok_bind] at h
    obtain ⟨a, hEnter, -⟩ := bind_eq_ok.mp h
    exact readable_of_enterAll hEnter
  obtain ⟨listed, hGreedy, -, hEq⟩ := orderNodesBy_eq (s := s) hQueue hBlock hNodup hRead
  rw [hEq] at h
  split at h
  · next hLength =>
    cases h
    refine ⟨?_, listed, rfl, hGreedy⟩
    exact ((hGreedy.perm hLength).append_left _).trans (List.filter_append_perm _ _)
  · obtain ⟨op, -, h⟩ := bind_eq_ok.mp h
    cases h

/-! ## All blocks -/

/-- The order of a block is a matter of its nodes and of what is placed in it. -/
theorem orderNodesBy_congr (hHome : t.home = s.home) (hBlock : t.blocks[b]? = s.blocks[b]?) :
    orderNodesBy queue g t b = orderNodesBy queue g s b := by
  have hEnter : Agenda.enter queue g t b = Agenda.enter queue g s b := by
    funext a id
    unfold Agenda.enter dependencies blockOf
    rw [hHome]
  unfold orderNodesBy Schedule.block
  rw [hBlock, hEnter]

/-- Whether a schedule is another one with the blocks put into order. -/
structure Reordered (g : Graph) (s t : Schedule) : Prop where
  home : t.home = s.home
  size : t.blocks.size = s.blocks.size
  block : ∀ {b : Nat} {block : Block}, t.blocks[b]? = some block →
    ∃ old nodes, s.blocks[b]? = some old ∧ orderNodes g s b = .ok nodes ∧ block = { old with nodes }

/-- Every block is put into order as it was given, or one of them cannot be. -/
theorem orderBlocks_reordered (g : Graph) (s : Schedule) :
    Settles (fun f => ∃ b block, s.blocks[b]? = some block ∧ orderNodes g s b = .error f)
      (orderBlocks g s) (Reordered g s) := by
  unfold orderBlocks
  -- The blocks that are still to come are those of the schedule that was given.
  refine (Settles.foldlM (I := fun (front : List Nat) (t : Schedule) => t.home = s.home ∧
    t.blocks.size = s.blocks.size ∧ (∀ b, b ∉ front → t.blocks[b]? = s.blocks[b]?) ∧
      ∀ b ∈ front, ∀ block, t.blocks[b]? = some block → ∃ old nodes, s.blocks[b]? = some old ∧
        orderNodes g s b = .ok nodes ∧ block = { old with nodes })
    ⟨rfl, rfl, fun _ _ => rfl, by simp⟩ ?_).mono ?_
  · rintro front b rest t hSplit ⟨hHome, hSize, hAhead, hDone⟩
    have hNodup : (front ++ b :: rest).Nodup := hSplit ▸ List.nodup_range
    have hFresh : b ∉ front := fun hMem =>
      (List.nodup_append.mp hNodup).2.2 b hMem b List.mem_cons_self rfl
    have hb : b < s.blocks.size := List.mem_range.mp (by rw [hSplit]; simp)
    have hOld := Array.getElem?_eq_getElem hb
    have hSame : orderNodes g t b = orderNodes g s b := orderNodesBy_congr hHome (hAhead b hFresh)
    rw [hSame]
    cases hNodes : orderNodes g s b with
    | error f => exact ⟨b, _, hOld, hNodes⟩
    | ok nodes =>
      refine ⟨hHome, (size_modifyBlock _ _ _).trans hSize, ?_, ?_⟩
      · intro c hc
        rw [List.mem_append, List.mem_singleton, not_or] at hc
        rw [getElem?_modifyBlock, if_neg (Ne.symm hc.2)]
        exact hAhead c hc.1
      · intro c hc block hBlock
        rw [getElem?_modifyBlock] at hBlock
        split at hBlock
        · next hEq =>
          subst hEq
          rw [hAhead b hFresh, hOld] at hBlock
          cases hBlock
          exact ⟨_, nodes, hOld, hNodes, rfl⟩
        · next hNe =>
          rcases List.mem_append.mp hc with hFront | hLast
          · exact hDone c hFront block hBlock
          · exact absurd (List.mem_singleton.mp hLast).symm hNe
  · rintro t ⟨hHome, hSize, -, hDone⟩
    refine ⟨hHome, hSize, ?_⟩
    intro b block hBlock
    have hLt : b < s.blocks.size := hSize ▸ (Array.getElem?_eq_some_iff.mp hBlock).1
    exact hDone b (List.mem_range.mpr hLt) block hBlock

end ArmBackend.Schedule
