import ArmBackend.Proofs.Assembler.Nodes

/-!
# Where a program places its nodes

A new node has a higher number than all others and goes behind the nodes of the current block. So
the nodes of a block are in increasing order and no node is in two blocks. A join is placed only in
a block whose predecessors it has as many inputs as.

## Results

* `Laid.step` — the nodes of the blocks are in order, and in one block each.
* `Held.step` — what an operation added stays in the block that was current.
* `Joined.step` — merges and joins have an input for each predecessor of their block.
-/

namespace ArmBackend.Assembler

variable {past : List Event} {a a' : Assembler} {op : Operation} {result : Option NodeId}
  {label : String} {b c : Nat} {n : Node} {x id head effect : NodeId} {hs : List Node}

theorem nodesOf_left (a : Assembler) (b : Nat) (kind : BlockKind) (control : Option NodeId)
    (ns : List Node) (js : List (String × Jump)) (rs : List NodeId) (c : Nat) :
    (a.left b kind control ns js rs).schedule.nodesOf c = a.schedule.nodesOf c :=
  Schedule.nodesOf_ended

theorem nodesOf_entered (a : Assembler) (hs : List Node) (label : String) (head effect : NodeId)
    (c : Nat) : ((a.grown hs).entered label head effect).schedule.nodesOf c =
      a.schedule.nodesOf c :=
  Schedule.nodesOf_opened

theorem size_entered (a : Assembler) (hs : List Node) (label : String) (head effect : NodeId) :
    ((a.grown hs).entered label head effect).schedule.blocks.size = a.schedule.blocks.size + 1 :=
  Schedule.size_opened

/-! ## Order of the nodes -/

/-- The nodes of a block are in increasing order, and no node is in two blocks. -/
structure Laid (s : Schedule) : Prop where
  sorted : ∀ b, (s.nodesOf b).Pairwise (· < ·)
  once : ∀ b c, ∀ x ∈ s.nodesOf b, x ∈ s.nodesOf c → b = c

theorem Laid.congr {s t : Schedule} (h : Laid s) (hNodes : ∀ b, t.nodesOf b = s.nodesOf b) :
    Laid t := by
  refine ⟨fun b => ?_, fun b c x hb hc => ?_⟩
  · rw [hNodes]
    exact h.sorted b
  · rw [hNodes] at hb hc
    exact h.once b c x hb hc

/-- The new node is above all that are placed. -/
theorem Laid.placed (h : Laid a.schedule) (hGrounded : Grounded past a)
    (hb : b < a.schedule.blocks.size) : Laid (a.schedule.append b a.graph.size) := by
  have hBelow : ∀ c, ∀ x ∈ a.schedule.nodesOf c, x < a.graph.size := fun c x hx =>
    (hGrounded.mentions x (.node hx)).lt
  refine ⟨fun c => ?_, fun c d x hc hd => ?_⟩
  · rw [Schedule.nodesOf_append hb]
    split
    · refine List.pairwise_append.mpr ⟨h.sorted c, List.pairwise_singleton _ _, ?_⟩
      intro x hx y hy
      rw [List.mem_singleton.mp hy]
      exact hBelow c x hx
    · exact h.sorted c
  · -- If one of them is the new node, the other is too, for it is above all older ones.
    rcases (Schedule.mem_nodesOf_append hb).mp hc with hOld | ⟨rfl, rfl⟩
    · rcases (Schedule.mem_nodesOf_append hb).mp hd with hOld' | ⟨rfl, rfl⟩
      · exact h.once c d x hOld hOld'
      · exact absurd (hBelow c _ hOld) (Int.lt_irrefl _)
    · rcases (Schedule.mem_nodesOf_append hb).mp hd with hOld | ⟨rfl, -⟩
      · exact absurd (hBelow d _ hOld) (Int.lt_irrefl _)
      · rfl

theorem Laid.step (h : Laid a.schedule) (hGrounded : Grounded past a) (hFlow : Flow past a)
    (hStep : Step a op result a') : Laid a'.schedule := by
  cases hStep with
  | look => exact h
  | place hAdds hOpen => exact h.placed hGrounded (hFlow.open_lt hOpen)
  | chain hAdds hOpen => exact h.placed hGrounded (hFlow.open_lt hOpen)
  | leave => exact h.congr fun c => nodesOf_left ..
  | enter => exact h.congr fun c => nodesOf_entered ..
  | @join label first rest hs head hJumps hHead =>
    have hEnter : Laid ((a.grown hs).entered label head first.effect).schedule :=
      h.congr fun c => nodesOf_entered ..
    refine hEnter.placed (hGrounded.enter hJumps hHead) ?_
    rw [size_entered]
    exact Nat.lt_succ_self _

/-! ## What an operation added -/

/-- No operation takes a node out of a block. -/
theorem Step.nodesOf_subset (hStep : Step a op result a') (hFlow : Flow past a)
    (hx : x ∈ a.schedule.nodesOf c) : x ∈ a'.schedule.nodesOf c := by
  cases hStep with
  | look => exact hx
  | place hAdds hOpen => exact (Schedule.mem_nodesOf_append (hFlow.open_lt hOpen)).mpr (.inl hx)
  | chain hAdds hOpen => exact (Schedule.mem_nodesOf_append (hFlow.open_lt hOpen)).mpr (.inl hx)
  | leave =>
    rw [nodesOf_left]
    exact hx
  | enter =>
    rw [nodesOf_entered]
    exact hx
  | @join label first rest hs head =>
    refine (Schedule.mem_nodesOf_append ?_).mpr (.inl ?_)
    · rw [size_entered]
      exact Nat.lt_succ_self _
    · rw [nodesOf_entered]
      exact hx

/-- Every value, memory and phi operation added one node, which it returned, and the node is in the
block that was current. -/
def Held (past : List Event) (s : Schedule) : Prop :=
  ∀ e ∈ past, e.op.adds = true → e.result = some (e.before.graph.size : Int) ∧
    e.after.graph.size = e.before.graph.size + 1 ∧
    ∃ c, e.before.current = some c ∧ (e.before.graph.size : Int) ∈ s.nodesOf c

theorem Held.step (h : Held past a.schedule) (hFlow : Flow past a)
    (hStep : Step a op result a') : Held (⟨op, result, a, a'⟩ :: past) a'.schedule := by
  intro e he hAdds
  rcases List.mem_cons.mp he with rfl | he
  · dsimp only at hAdds ⊢
    have hPlaced : ∀ {b n}, a.current = some b → (a.placed b n).graph.size = a.graph.size + 1 ∧
        ∃ c, a.current = some c ∧ (a.graph.size : Int) ∈ (a.placed b n).schedule.nodesOf c :=
      fun {b n} hOpen => ⟨Graph.size_append [n], b, hOpen,
        (Schedule.mem_nodesOf_append (hFlow.open_lt hOpen)).mpr (.inr ⟨rfl, rfl⟩)⟩
    -- the event just performed adds a node only by placing it in the open block
    cases hStep with
    | place _ hOpen => exact ⟨rfl, hPlaced hOpen⟩
    | @chain _ b n _ hOpen => exact ⟨rfl, hPlaced (n := n) hOpen⟩
    | leave hCloses =>
      rw [(Operation.of_closes hCloses).2] at hAdds
      cases hAdds
    | look => cases hAdds
    | enter => cases hAdds
    | join => cases hAdds
  · obtain ⟨hResult, hSize, c, hOpen, hMem⟩ := h e he hAdds
    exact ⟨hResult, hSize, c, hOpen, hStep.nodesOf_subset hFlow hMem⟩

/-! ## Joins -/

/-- A merge that starts a block has as many inputs as the block has predecessors, and so have the
joins that are placed in a block. -/
structure Joined (g : Graph) (s : Schedule) : Prop where
  merges : ∀ (b : Nat) (h : NodeId) (n : Node), s.headOf? b = some h → g.node? h = some n →
    n.op = .merge → n.inputs.length = (s.predecessors b).length
  phis : ∀ (b : Nat) (n : Node), ∀ id ∈ s.nodesOf b, g.node? id = some n →
    n.op = .phi → n.valueCount = (s.predecessors b).length
  effectPhis : ∀ (b : Nat) (n : Node), ∀ id ∈ s.nodesOf b, g.node? id = some n →
    n.op = .effectPhi → n.effectCount = (s.predecessors b).length

/-- More nodes in the graph change nothing about those that are placed. -/
theorem Joined.grow (h : Joined a.graph a.schedule) (hGrounded : Grounded past a)
    (ns : List Node) :
    Joined (a.graph.append ns) a.schedule := by
  have hSame : ∀ {x}, a.Mentions x → (a.graph.append ns).node? x = a.graph.node? x := fun hx =>
    (hGrounded.mentions _ hx).node?_append
  refine ⟨fun b x n hx hn => ?_, fun b n id hId hn => ?_, fun b n id hId hn => ?_⟩
  · rw [hSame (.head hx)] at hn
    exact h.merges b x n hx hn
  · rw [hSame (.node hId)] at hn
    exact h.phis b n id hId hn
  · rw [hSame (.node hId)] at hn
    exact h.effectPhis b n id hId hn

theorem Joined.congr {g : Graph} {s t : Schedule} (h : Joined g s)
    (hHeads : ∀ b, t.headOf? b = s.headOf? b) (hNodes : ∀ b, t.nodesOf b = s.nodesOf b)
    (hPred : ∀ b, t.predecessors b = s.predecessors b) : Joined g t := by
  refine ⟨fun b x n hx => ?_, fun b n id hId => ?_, fun b n id hId => ?_⟩
  · rw [hPred]
    exact h.merges b x n (hHeads b ▸ hx)
  · rw [hPred]
    exact h.phis b n id (hNodes b ▸ hId)
  · rw [hPred]
    exact h.effectPhis b n id (hNodes b ▸ hId)

theorem Joined.placed (h : Joined a.graph a.schedule) (hGrounded : Grounded past a)
    (hb : b < a.schedule.blocks.size)
    (hPhi : n.op = .phi → n.valueCount = (a.schedule.predecessors b).length)
    (hEffectPhi : n.op = .effectPhi → n.effectCount = (a.schedule.predecessors b).length) :
    Joined (a.placed b n).graph (a.placed b n).schedule := by
  have hGrow := h.grow hGrounded [n]
  have hNew : (a.graph.append [n]).node? a.graph.size = some n := a.graph.node?_push n
  have hPred : ∀ c, (a.placed b n).schedule.predecessors c = a.schedule.predecessors c :=
    fun c => Schedule.predecessors_append
  refine ⟨fun c x m hx hm => ?_, fun c m id hId hm hOp => ?_, fun c m id hId hm hOp => ?_⟩
  · rw [hPred]
    exact hGrow.merges c x m (Schedule.headOf?_append.symm.trans hx) hm
  · rw [hPred]
    -- a phi counts the predecessors of its block, whether it stood there or is the node just placed
    rcases (Schedule.mem_nodesOf_append hb).mp hId with hId | ⟨rfl, rfl⟩
    · exact hGrow.phis c m id hId hm hOp
    · obtain rfl : n = m := Option.some.inj (hNew.symm.trans hm)
      exact hPhi hOp
  · rw [hPred]
    rcases (Schedule.mem_nodesOf_append hb).mp hId with hId | ⟨rfl, rfl⟩
    · exact hGrow.effectPhis c m id hId hm hOp
    · obtain rfl : n = m := Option.some.inj (hNew.symm.trans hm)
      exact hEffectPhi hOp

/-- A new block has a merge of its jumps for a head, or the projection of the only jump. -/
theorem Joined.enter {first : Jump} {rest : List Jump} (h : Joined a.graph a.schedule)
    (hGrounded : Grounded past a) (hJumps : (a.labels label).jumps = first :: rest)
    (hHead : Heads a (first :: rest) hs head) (effect : NodeId) :
    Joined (a.graph.append hs) ((a.grown hs).entered label head effect).schedule := by
  have hGrow := h.grow hGrounded hs
  have hPred : ∀ c, ((a.grown hs).entered label head effect).schedule.predecessors c =
      if c = a.schedule.blocks.size then (first :: rest).map Jump.block
      else a.schedule.predecessors c := fun c => hJumps ▸ Schedule.predecessors_opened
  have hOf : ∀ c, ((a.grown hs).entered label head effect).schedule.headOf? c =
      if c = a.schedule.blocks.size then some head else a.schedule.headOf? c :=
    fun c => Schedule.headOf?_opened
  -- The new block has no nodes yet.
  have hOld : ∀ c, ∀ x ∈ a.schedule.nodesOf c, c ≠ a.schedule.blocks.size := fun c x hx =>
    Nat.ne_of_lt (Schedule.lt_of_mem_nodesOf hx)
  refine ⟨fun c x n hx hn hOp => ?_, fun c n id hId hn hOp => ?_, fun c n id hId hn hOp => ?_⟩
  · rw [hOf] at hx
    rw [hPred]
    split at hx
    · next hc =>
      cases hx
      rw [if_pos hc, List.length_map]
      generalize first :: rest = jumps at hHead
      cases hHead with
      | @shared j op hOp' hIf =>
        -- The projection of a branch is no merge.
        obtain ⟨m, hm, rfl⟩ := hOp'
        rw [Graph.node?_append hm] at hn
        cases hn
        rw [hOp] at hIf
        rcases hIf with hIf | hIf <;> cases hIf
      | merge =>
        rw [a.graph.node?_push _] at hn
        cases hn
        exact List.length_map _
    · next hc =>
      rw [if_neg hc]
      exact hGrow.merges c x n hx hn hOp
  · rw [nodesOf_entered] at hId
    rw [hPred, if_neg (hOld c id hId)]
    exact hGrow.phis c n id hId hn hOp
  · rw [nodesOf_entered] at hId
    rw [hPred, if_neg (hOld c id hId)]
    exact hGrow.effectPhis c n id hId hn hOp

theorem Joined.step (h : Joined a.graph a.schedule) (hGrounded : Grounded past a)
    (hFlow : Flow past a) (hStep : Step a op result a') : Joined a'.graph a'.schedule := by
  have hSuited : ∀ {b n}, a.current = some b → Suits a op b n →
      Joined (a.placed b n).graph (a.placed b n).schedule := by
    intro b n hOpen hSuits
    -- A join fits the merge at the head of the block, and the merge fits the predecessors.
    refine h.placed hGrounded (hFlow.open_lt hOpen) (fun hPhi => ?_) fun hPhi =>
      absurd hPhi hSuits.effectPhi
    obtain ⟨x, m, hx, hm, hMerge, hCount⟩ := hSuits.phi hPhi
    rw [hCount, h.merges b x m hx hm hMerge]
  cases hStep with
  | look => exact h
  | place hAdds hOpen hSuits => exact hSuited hOpen hSuits
  | chain hAdds hOpen hSuits => exact hSuited hOpen hSuits
  | leave =>
    exact (h.grow hGrounded _).congr (fun c => Schedule.headOf?_ended) (fun c => nodesOf_left ..)
      fun c => Schedule.predecessors_ended
  | enter hJumps hHead => exact h.enter hGrounded hJumps hHead _
  | @join label first rest hs head hJumps hHead =>
    have hEnter := h.enter hGrounded hJumps hHead first.effect
    refine Joined.placed (a := (a.grown hs).entered label head first.effect) hEnter
      (hGrounded.enter hJumps hHead) ?_ nofun fun _ => ?_
    · rw [size_entered]
      exact Nat.lt_succ_self _
    · -- Behind the effects of the jumps the join has the head for its control.
      have hPred : ((a.grown hs).entered label head first.effect).schedule.predecessors
          a.schedule.blocks.size = (first :: rest).map Jump.block := by
        rw [← hJumps]
        exact Schedule.predecessors_opened.trans (if_pos rfl)
      rw [hPred]
      show (((first :: rest).map Jump.effect ++ [head]).length : Int) - 1 = _
      rw [List.length_append, List.length_map, List.length_map, List.length_singleton]
      omega

end ArmBackend.Assembler
