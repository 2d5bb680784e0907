import ArmBackend.Proofs.Assembler.Placing

/-!
# Effects of a program

In each block the loads, stores, calls and representation changes form a chain: each hangs on the
one before it, and the first on the effect that the block is entered with. That is the effect that
all jumps to the block carry, or the join of their effects where they differ. A jump carries the
last effect of its block, which stays the last one because the block is closed.

## Results

* `Threaded` — what the effect inputs of a schedule are like.
* `Effects.step` — an operation keeps the effects threaded.
-/

namespace ArmBackend

/-! ## Chains of effects -/

section Threaded

/-- The loads, stores, calls and changes of a block, in order. -/
def accesses (g : Graph) (s : Schedule) (b : Nat) : List NodeId :=
  (s.nodesOf b).filter fun id => (g.node? id).any fun n => n.op.isAccess

/-- The effect that a block leaves: its last access, or the effect it is entered with. -/
def leavingEffect (g : Graph) (s : Schedule) (entry : Nat → NodeId) (b : Nat) : NodeId :=
  (accesses g s b).getLastD (entry b)

/-- How a block comes to the effect it is entered with. -/
inductive Arrives (g : Graph) (s : Schedule) (entry : Nat → NodeId) (b : Nat) : Prop
  | agreed (hAll : ∀ p ∈ s.predecessors b, leavingEffect g s entry p = entry b)
  | joined {head : NodeId} (hDiffer : ∃ p ∈ s.predecessors b, ∃ q ∈ s.predecessors b,
        leavingEffect g s entry p ≠ leavingEffect g s entry q)
      (hMem : entry b ∈ s.nodesOf b) (hHead : s.headOf? b = some head)
      (hJoin : g.node? (entry b) = some
        (.effectPhi ((s.predecessors b).map (leavingEffect g s entry) ++ [head])))

/-- Every access hangs on the access before it in its block, and the first one on the effect that
the block is entered with. -/
structure Threaded (g : Graph) (s : Schedule) (entry : Nat → NodeId) : Prop where
  start : entry 0 = Graph.start
  chain : ∀ b < s.blocks.size,
    (entry b :: accesses g s b).IsChain fun x y => g.effectIn y = .ok x
  arrives : ∀ b, 0 < b → b < s.blocks.size → Arrives g s entry b

/-- Whether a block has kept what it had, and may have got more nodes. -/
structure Keeps (g : Graph) (s : Schedule) (g' : Graph) (s' : Schedule) (b : Nat) : Prop where
  predecessors : s'.predecessors b = s.predecessors b
  head : s'.headOf? b = s.headOf? b
  nodes : ∀ x ∈ s.nodesOf b, x ∈ s'.nodesOf b ∧ g'.node? x = g.node? x

/-- Whether a block has kept what it had, and its accesses are the same. -/
structure SameBlock (g : Graph) (s : Schedule) (g' : Graph) (s' : Schedule) (b : Nat) : Prop
    extends Keeps g s g' s' b where
  accesses : accesses g' s' b = accesses g s b

variable {g g' : Graph} {s s' : Schedule} {entry entry' : Nat → NodeId} {b c : Nat}

theorem mem_nodesOf_of_access {x : NodeId} (h : x ∈ accesses g s b) : x ∈ s.nodesOf b :=
  List.mem_of_mem_filter h

theorem SameBlock.leavingEffect (h : SameBlock g s g' s' b) (hEntry : entry' b = entry b) :
    leavingEffect g' s' entry' b = leavingEffect g s entry b := by
  unfold ArmBackend.leavingEffect
  rw [h.accesses, hEntry]

theorem SameBlock.trans {g'' : Graph} {s'' : Schedule} (h : SameBlock g s g' s' b)
    (h' : SameBlock g' s' g'' s'' b) : SameBlock g s g'' s'' b where
  accesses := h'.accesses.trans h.accesses
  predecessors := h'.predecessors.trans h.predecessors
  head := h'.head.trans h.head
  nodes x hx := by
    obtain ⟨hMem, hNode⟩ := h.nodes x hx
    obtain ⟨hMem', hNode'⟩ := h'.nodes x hMem
    exact ⟨hMem', hNode'.trans hNode⟩

/-- The chain of a block that has kept its nodes is still one. -/
theorem Keeps.chain (h : Keeps g s g' s' b)
    (hChain : (entry b :: accesses g s b).IsChain fun x y => g.effectIn y = .ok x) :
    (entry b :: accesses g s b).IsChain fun x y => g'.effectIn y = .ok x := by
  refine hChain.imp_of_mem_tail_imp fun x y _ hy hEffect => ?_
  have hNode := (h.nodes y (mem_nodesOf_of_access hy)).2
  unfold Graph.effectIn Graph.node at *
  rw [hNode]
  exact hEffect

theorem Arrives.congr (h : Arrives g s entry b) (hSame : Keeps g s g' s' b)
    (hEntry : entry' b = entry b) (hLeaving : ∀ p ∈ s.predecessors b,
      leavingEffect g' s' entry' p = leavingEffect g s entry p) : Arrives g' s' entry' b := by
  cases h with
  -- one effect arrives, or several that the block's phi joins
  | agreed hAll =>
    refine .agreed fun p hp => ?_
    rw [hSame.predecessors] at hp
    rw [hLeaving p hp, hEntry]
    exact hAll p hp
  | joined hDiffer hMem hHead hJoin =>
    obtain ⟨hMem', hNode⟩ := hSame.nodes _ hMem
    refine .joined ?_ (hEntry ▸ hMem') (hSame.head.trans hHead) ?_
    · obtain ⟨p, hp, q, hq, hNe⟩ := hDiffer
      refine ⟨p, hSame.predecessors ▸ hp, q, hSame.predecessors ▸ hq, ?_⟩
      rw [hLeaving p hp, hLeaving q hq]
      exact hNe
    · rw [hEntry, hNode, hSame.predecessors, List.map_congr_left hLeaving]
      exact hJoin

/-- When all blocks are seen alike, the effects stay threaded. -/
theorem Threaded.congr (h : Threaded g s entry) (hSize : s'.blocks.size = s.blocks.size)
    (hSame : ∀ c, SameBlock g s g' s' c) : Threaded g' s' entry := by
  refine ⟨h.start, fun c hc => ?_, fun c h0 hc => ?_⟩
  · rw [(hSame c).accesses]
    exact (hSame c).chain (h.chain c (hSize ▸ hc))
  · exact (h.arrives c h0 (hSize ▸ hc)).congr (hSame c).toKeeps rfl fun p _ =>
      (hSame p).leavingEffect rfl

/-- When one block is new or has changed, and no other one is entered from it, the effects of the
others stay threaded. -/
theorem Threaded.update (h : Threaded g s entry) (hStart : entry' 0 = Graph.start)
    (hSame : ∀ c < s.blocks.size, c ≠ b → SameBlock g s g' s' c ∧ entry' c = entry c)
    (hSize : ∀ c < s'.blocks.size, c = b ∨ c < s.blocks.size)
    (hEdges : ∀ c < s.blocks.size, ∀ p ∈ s.predecessors c, p < s.blocks.size ∧ p ≠ b)
    (hChain : b < s'.blocks.size →
      (entry' b :: accesses g' s' b).IsChain fun x y => g'.effectIn y = .ok x)
    (hArrives : 0 < b → b < s'.blocks.size → Arrives g' s' entry' b) :
    Threaded g' s' entry' := by
  -- the chain in each block, then what arrives at it; in both only block `b` is new
  refine ⟨hStart, fun c hc => ?_, fun c h0 hc => ?_⟩
  · by_cases hIs : c = b
    · exact hIs ▸ hChain (hIs ▸ hc)
    · have hOld := (hSize c hc).resolve_left hIs
      obtain ⟨hBlock, hEntry⟩ := hSame c hOld hIs
      rw [hBlock.accesses, hEntry]
      exact hBlock.chain (h.chain c hOld)
  · by_cases hIs : c = b
    · exact hIs ▸ hArrives (hIs ▸ h0) (hIs ▸ hc)
    · have hOld := (hSize c hc).resolve_left hIs
      refine (h.arrives c h0 hOld).congr (hSame c hOld hIs).1.toKeeps (hSame c hOld hIs).2
        fun p hp => ?_
      obtain ⟨hLt, hNe⟩ := hEdges c hOld p hp
      exact (hSame p hLt hNe).1.leavingEffect (hSame p hLt hNe).2

end Threaded

namespace Assembler

variable {past : List Event} {a a' : Assembler} {op : Operation} {result : Option NodeId}
  {label : String} {b c : Nat} {n : Node} {entry : Nat → NodeId} {ns : List Node}

/-- The effects of the schedule under construction are threaded, the current effect is the one that
the current block leaves, and a jump carries the effect that its block leaves. -/
structure Effects (entry : Nat → NodeId) (a : Assembler) : Prop where
  threaded : Threaded a.graph a.schedule entry
  current : ∀ b, a.current = some b → a.effect = leavingEffect a.graph a.schedule entry b
  jumps : ∀ label, ∀ j ∈ (a.labels label).jumps,
    j.effect = leavingEffect a.graph a.schedule entry j.block

/-- The effect that a chain ends with. -/
theorem getLast?_chain (x : NodeId) (l : List NodeId) :
    (x :: l).getLast? = some (l.getLastD x) := by
  rw [List.getLast?_cons, List.getLastD_eq_getLast?]

/-- More nodes in the graph change nothing about a block whose nodes stay as they are. -/
theorem Grounded.sameBlock {s : Schedule} (h : Grounded past a)
    (hNodes : s.nodesOf c = a.schedule.nodesOf c)
    (hPred : s.predecessors c = a.schedule.predecessors c)
    (hHead : s.headOf? c = a.schedule.headOf? c) :
    SameBlock a.graph a.schedule (a.graph.append ns) s c := by
  have hOld : ∀ x ∈ a.schedule.nodesOf c, (a.graph.append ns).node? x = a.graph.node? x :=
    fun x hx => (h.mentions x (.node hx)).node?_append
  refine ⟨⟨hPred, hHead, fun x hx => ⟨hNodes ▸ hx, hOld x hx⟩⟩, ?_⟩
  unfold accesses
  rw [hNodes]
  exact List.filter_congr fun x hx => by rw [hOld x hx]

/-- What a placed node does to the accesses of the blocks. -/
theorem Grounded.accesses_placed (h : Grounded past a) (hb : b < a.schedule.blocks.size) (c : Nat) :
    accesses (a.placed b n).graph (a.placed b n).schedule c =
      accesses a.graph a.schedule c ++
        if c = b ∧ n.op.isAccess = true then [(a.graph.size : Int)] else [] := by
  -- the nodes listed before were in the graph before, so they are read as they were
  have hOld : ∀ x ∈ a.schedule.nodesOf c, (a.graph.append [n]).node? x = a.graph.node? x :=
    fun x hx => (h.mentions x (.node hx)).node?_append
  have hFilter : (a.schedule.nodesOf c).filter (fun id =>
      ((a.graph.append [n]).node? id).any fun m => m.op.isAccess) =
        accesses a.graph a.schedule c :=
    List.filter_congr fun x hx => by rw [hOld x hx]
  have hNodes : (a.placed b n).schedule.nodesOf c =
      if c = b then a.schedule.nodesOf c ++ [(a.graph.size : Int)] else a.schedule.nodesOf c :=
    Schedule.nodesOf_append hb
  unfold accesses at *
  rw [hNodes]
  show List.filter (fun id => ((a.graph.append [n]).node? id).any fun m => m.op.isAccess) _ = _
  by_cases hc : c = b
  · rw [if_pos hc, List.filter_append, hFilter, List.filter_singleton, a.graph.node?_push n]
    simp [hc]
  · rw [if_neg hc, hFilter]
    simp [hc]

/-- A block has kept what it had when a node is placed. -/
theorem Grounded.keeps_placed (h : Grounded past a) (hb : b < a.schedule.blocks.size) (c : Nat) :
    Keeps a.graph a.schedule (a.placed b n).graph (a.placed b n).schedule c :=
  ⟨Schedule.predecessors_append, Schedule.headOf?_append, fun x hx =>
    ⟨(Schedule.mem_nodesOf_append hb).mpr (.inl hx), (h.mentions x (.node hx)).node?_append⟩⟩

theorem Grounded.sameBlock_placed (h : Grounded past a) (hb : b < a.schedule.blocks.size)
    (hOther : ¬(c = b ∧ n.op.isAccess = true)) :
    SameBlock a.graph a.schedule (a.placed b n).graph (a.placed b n).schedule c := by
  refine ⟨h.keeps_placed hb c, ?_⟩
  rw [h.accesses_placed hb, if_neg hOther, List.append_nil]

/-- No block is entered from the current one, which is the last. -/
theorem Flow.edges_before (h : Flow past a) (hOpen : a.current = some b) :
    ∀ c < a.schedule.blocks.size, ∀ p ∈ a.schedule.predecessors c,
      p < a.schedule.blocks.size ∧ p ≠ b := by
  intro c hc p hp
  have hEarlier := h.earlier c p hp
  have hLast := h.current b hOpen
  omega

/-- A node that is no access is not seen in the effects. -/
theorem Effects.placed (h : Effects entry a) (hGrounded : Grounded past a) (hFlow : Flow past a)
    (hOpen : a.current = some b) (hPlain : n.op.isAccess = false) :
    Effects entry (a.placed b n) := by
  have hb := hFlow.open_lt hOpen
  have hSame : ∀ c,
      SameBlock a.graph a.schedule (a.placed b n).graph (a.placed b n).schedule c := by
    refine fun c => hGrounded.sameBlock_placed hb fun hIs => ?_
    rw [hPlain] at hIs
    cases hIs.2
  have hLeaving : ∀ c, leavingEffect (a.placed b n).graph (a.placed b n).schedule entry c =
      leavingEffect a.graph a.schedule entry c := fun c => (hSame c).leavingEffect rfl
  refine ⟨h.threaded.congr Schedule.size_append hSame, fun c hc => ?_, fun label j hj => ?_⟩
  · rw [hLeaving]
    exact h.current c hc
  · rw [hLeaving]
    exact h.jumps label j hj

/-- An access that hangs on the current effect goes on with the chain of the current block. -/
theorem Effects.chained (h : Effects entry a) (hGrounded : Grounded past a) (hFlow : Flow past a)
    (hOpen : a.current = some b) (hAccess : n.op.isAccess = true)
    (hEffect : n.effectIn = .ok a.effect) : Effects entry (a.chained b n) := by
  have hb := hFlow.open_lt hOpen
  -- The other blocks are as before, and none of them is entered from the current one.
  have hSame : ∀ c, c ≠ b → SameBlock a.graph a.schedule (a.placed b n).graph
      (a.placed b n).schedule c :=
    fun c hc => hGrounded.sameBlock_placed hb fun hIs => hc hIs.1
  have hLeaving : ∀ c, c ≠ b → leavingEffect (a.placed b n).graph (a.placed b n).schedule entry c =
      leavingEffect a.graph a.schedule entry c := fun c hc => (hSame c hc).leavingEffect rfl
  have hSize : (a.placed b n).schedule.blocks.size = a.schedule.blocks.size :=
    Schedule.size_append
  have hAll : accesses (a.placed b n).graph (a.placed b n).schedule b =
      accesses a.graph a.schedule b ++ [(a.graph.size : Int)] := by
    rw [hGrounded.accesses_placed hb, if_pos ⟨rfl, hAccess⟩]
  refine ⟨h.threaded.update (b := b) h.threaded.start (fun c _ hc => ⟨hSame c hc, rfl⟩)
    (fun c hc => .inr (hSize ▸ hc)) (hFlow.edges_before hOpen) (fun _ => ?_) fun h0 _ => ?_,
    fun c hc => ?_, fun label j hj => ?_⟩
  · have hOld := (hGrounded.keeps_placed (n := n) hb b).chain (h.threaded.chain b hb)
    show (entry b :: accesses (a.placed b n).graph (a.placed b n).schedule b).IsChain _
    rw [hAll, ← List.cons_append]
    refine hOld.append (List.isChain_singleton _) ?_
    -- The last effect of the block so far is the current one.
    intro x hx y hy
    rw [getLast?_chain] at hx
    cases hx
    cases hy
    have hNew : (a.placed b n).graph.node a.graph.size = .ok n :=
      Graph.node_eq_ok.mpr (a.graph.node?_push n)
    unfold Graph.effectIn
    rw [hNew]
    exact hEffect.trans (congrArg Except.ok (h.current b hOpen))
  · exact (h.threaded.arrives b h0 hb).congr (hGrounded.keeps_placed hb b) rfl fun p hp =>
      hLeaving p (hFlow.edges_before hOpen b hb p hp).2
  · obtain rfl : b = c := Option.some.inj (hOpen.symm.trans hc)
    show (a.graph.size : Int) = leavingEffect (a.placed b n).graph (a.placed b n).schedule entry b
    unfold leavingEffect
    rw [hAll, List.getLastD_concat]
  · -- A jump has left its block, so its block is not the current one.
    have hNe : j.block ≠ b := fun hIs => (hFlow.left label j hj).2 (hIs ▸ hOpen)
    exact (h.jumps label j hj).trans (hLeaving _ hNe).symm

/-- The jumps that close a block carry the effect that it leaves. -/
theorem Effects.leave {kind : BlockKind} {control : Option NodeId} {js : List (String × Jump)}
    {rs : List NodeId} (h : Effects entry a) (hGrounded : Grounded past a)
    (hOpen : a.current = some b)
    (hJumps : ∀ p ∈ js, p.2.block = b ∧ p.2.effect = a.effect) :
    Effects entry (a.left b kind control ns js rs) := by
  have hSame : ∀ c, SameBlock a.graph a.schedule (a.left b kind control ns js rs).graph
      (a.left b kind control ns js rs).schedule c := fun c =>
    hGrounded.sameBlock (nodesOf_left ..) Schedule.predecessors_ended Schedule.headOf?_ended
  have hLeaving : ∀ c, leavingEffect (a.left b kind control ns js rs).graph
      (a.left b kind control ns js rs).schedule entry c =
        leavingEffect a.graph a.schedule entry c := fun c => (hSame c).leavingEffect rfl
  refine ⟨h.threaded.congr Schedule.size_ended hSame, nofun, fun label j hj => ?_⟩
  · rw [hLeaving]
    rw [show ((a.left b kind control ns js rs).labels label).jumps = _ from
      congrArg Label.jumps (foldl_recorded a.labels js label)] at hj
    rcases List.mem_append.mp hj with hj | hj
    · exact h.jumps label j hj
    · -- A new jump carries the current effect, which is the one that the block leaves.
      obtain ⟨p, hp, rfl⟩ := List.mem_map.mp hj
      obtain ⟨hBlock, hEffect⟩ := hJumps p (List.mem_of_mem_filter hp)
      rw [hBlock, hEffect]
      exact h.current b hOpen

/-! ## A new block -/

section Enter

variable {first : Jump} {rest : List Jump} {hs : List Node} {head effect : NodeId}

theorem predecessors_entered (hJumps : (a.labels label).jumps = first :: rest) (c : Nat) :
    ((a.grown hs).entered label head effect).schedule.predecessors c =
      if c = a.schedule.blocks.size then (first :: rest).map Jump.block
      else a.schedule.predecessors c := by
  rw [← hJumps]
  exact Schedule.predecessors_opened

/-- A new block has no accesses yet. -/
theorem accesses_entered (g : Graph) :
    accesses g ((a.grown hs).entered label head effect).schedule a.schedule.blocks.size = [] := by
  unfold accesses
  rw [nodesOf_entered, Schedule.nodesOf_of_le (Nat.le_refl _), List.filter_nil]

/-- Opening a block changes nothing about those that are there. -/
theorem Grounded.sameBlock_entered (h : Grounded past a)
    (hJumps : (a.labels label).jumps = first :: rest) (hc : c < a.schedule.blocks.size) :
    SameBlock a.graph a.schedule (a.graph.append hs)
      ((a.grown hs).entered label head effect).schedule c := by
  refine h.sameBlock (nodesOf_entered ..) ?_
    (Schedule.headOf?_opened.trans (if_neg (Nat.ne_of_lt hc)))
  rw [predecessors_entered hJumps, if_neg (by omega)]

/-- A new block that is entered with an effect in an allowed way, and has no accesses yet. -/
theorem Effects.opened {g : Graph} {s : Schedule} (h : Effects entry a) (hFlow : Flow past a)
    (effect : NodeId)
    (hOld : ∀ c < a.schedule.blocks.size, SameBlock a.graph a.schedule g s c)
    (hSize : s.blocks.size = a.schedule.blocks.size + 1)
    (hNone : accesses g s a.schedule.blocks.size = [])
    (hArrives : (∀ c < a.schedule.blocks.size,
        leavingEffect g s (Function.update entry a.schedule.blocks.size effect) c =
          leavingEffect a.graph a.schedule entry c) →
      Arrives g s (Function.update entry a.schedule.blocks.size effect) a.schedule.blocks.size) :
    Threaded g s (Function.update entry a.schedule.blocks.size effect) ∧
      (∀ label, ∀ j ∈ (a.labels label).jumps, j.effect =
        leavingEffect g s (Function.update entry a.schedule.blocks.size effect) j.block) ∧
      effect =
        leavingEffect g s (Function.update entry a.schedule.blocks.size effect)
          a.schedule.blocks.size := by
  -- The blocks that were there keep their effects, on entry and behind their nodes.
  have hEntry : ∀ c < a.schedule.blocks.size,
      Function.update entry a.schedule.blocks.size effect c = entry c :=
    fun c hc => Function.update_of_ne (by omega) _ _
  have hLeaving : ∀ c < a.schedule.blocks.size,
      leavingEffect g s (Function.update entry a.schedule.blocks.size effect) c =
        leavingEffect a.graph a.schedule entry c :=
    fun c hc => (hOld c hc).leavingEffect (hEntry c hc)
  have h0 : 0 < a.schedule.blocks.size := by
    obtain ⟨_, hFirst, -⟩ := hFlow.unordered.first
    exact (Array.getElem?_eq_some_iff.mp hFirst).1
  refine ⟨h.threaded.update (b := a.schedule.blocks.size) ?_
    (fun c hc _ => ⟨hOld c hc, hEntry c hc⟩) (fun c hc => by omega) (fun c hc p hp => ?_)
    (fun _ => ?_) fun _ _ => hArrives hLeaving, fun label j hj => ?_, ?_⟩
  · rw [hEntry 0 h0]
    exact h.threaded.start
  · have := hFlow.earlier c p hp
    omega
  · -- The new block has no access yet, so what enters it also leaves it.
    rw [hNone]
    exact List.isChain_singleton _
  · rw [hLeaving _ (hFlow.left label j hj).1]
    exact h.jumps label j hj
  · unfold leavingEffect
    rw [hNone, Function.update_self]
    rfl

/-- Where all jumps carry one effect, the new block is entered with it. -/
theorem Effects.enter (h : Effects entry a) (hGrounded : Grounded past a) (hFlow : Flow past a)
    (hJumps : (a.labels label).jumps = first :: rest)
    (hSame : ∀ j ∈ rest, j.effect = first.effect) :
    Effects (Function.update entry a.schedule.blocks.size first.effect)
      ((a.grown hs).entered label head first.effect) := by
  have hNone : accesses (a.graph.append hs)
      ((a.grown hs).entered label head first.effect).schedule a.schedule.blocks.size = [] :=
    accesses_entered _
  obtain ⟨hThreaded, hLeft, hCurrent⟩ := h.opened hFlow first.effect
    (fun c hc => hGrounded.sameBlock_entered hJumps hc) (size_entered ..) hNone fun hLeaving => by
      refine .agreed fun p hp => ?_
      rw [predecessors_entered hJumps, if_pos rfl] at hp
      obtain ⟨j, hj, rfl⟩ := List.mem_map.mp hp
      -- every jump left its own block with the effect it was filed with
      rw [hLeaving _ (hFlow.left label j (hJumps ▸ hj)).1, ← h.jumps label j (hJumps ▸ hj),
        Function.update_self]
      rcases List.mem_cons.mp hj with rfl | hj
      · rfl
      · exact hSame j hj
  refine ⟨hThreaded, ?_, fun name j hj => ?_⟩
  · rintro c ⟨⟩
    exact hCurrent
  · rw [entered_jumps] at hj
    exact hLeft name j hj

/-- Where the jumps carry different effects, the new block is entered with their join. -/
theorem Effects.join (h : Effects entry a) (hGrounded : Grounded past a) (hFlow : Flow past a)
    (hJumps : (a.labels label).jumps = first :: rest) (hHead : Heads a (first :: rest) hs head)
    (hDiffer : ∃ j ∈ rest, j.effect ≠ first.effect) :
    Effects (Function.update entry a.schedule.blocks.size ((a.graph.append hs).size : Int))
      (((a.grown hs).entered label head first.effect).chained a.schedule.blocks.size
        (.effectPhi ((first :: rest).map Jump.effect ++ [head]))) := by
  let m := (a.grown hs).entered label head first.effect
  let n : Node := .effectPhi ((first :: rest).map Jump.effect ++ [head])
  have hEnter : Grounded past m := hGrounded.enter hJumps hHead
  have hSize : m.schedule.blocks.size = a.schedule.blocks.size + 1 := size_entered ..
  have hb : a.schedule.blocks.size < m.schedule.blocks.size := by omega
  -- The phi of effects is no access.
  have hNone : accesses (m.placed a.schedule.blocks.size n).graph
      (m.placed a.schedule.blocks.size n).schedule a.schedule.blocks.size = [] := by
    rw [hEnter.accesses_placed hb, if_neg (fun hIs => nomatch hIs.2), List.append_nil]
    exact accesses_entered _
  have hPred : (m.placed a.schedule.blocks.size n).schedule.predecessors a.schedule.blocks.size =
      (first :: rest).map Jump.block :=
    Schedule.predecessors_append.trans ((predecessors_entered hJumps _).trans (if_pos rfl))
  have hCarried : ∀ j ∈ first :: rest, j.block < a.schedule.blocks.size ∧
      j.effect = leavingEffect a.graph a.schedule entry j.block := fun j hj =>
    ⟨(hFlow.left label j (hJumps ▸ hj)).1, h.jumps label j (hJumps ▸ hj)⟩
  obtain ⟨hThreaded, hLeft, hCurrent⟩ := h.opened hFlow ((a.graph.append hs).size : Int)
    (g := (m.placed a.schedule.blocks.size n).graph)
    (s := (m.placed a.schedule.blocks.size n).schedule)
    (fun c hc => (hGrounded.sameBlock_entered hJumps hc).trans
      (hEnter.sameBlock_placed hb fun hIs => nomatch hIs.2))
    (Schedule.size_append.trans hSize) hNone fun hLeaving => by
      -- What the jumps carried is what their blocks leave behind.
      have hMap : ((first :: rest).map Jump.block).map (leavingEffect
          (m.placed a.schedule.blocks.size n).graph (m.placed a.schedule.blocks.size n).schedule
          (Function.update entry a.schedule.blocks.size ((a.graph.append hs).size : Int))) =
            (first :: rest).map Jump.effect := by
        rw [List.map_map]
        refine List.map_congr_left fun j hj => ?_
        obtain ⟨hLt, hEffect⟩ := hCarried j hj
        exact (hLeaving _ hLt).trans hEffect.symm
      have hOf : (m.placed a.schedule.blocks.size n).schedule.headOf? a.schedule.blocks.size =
          some head :=
        Schedule.headOf?_append.trans (Schedule.headOf?_opened.trans (if_pos rfl))
      refine .joined ?_ ?_ hOf ?_
      · -- Two predecessors leave different effects, so a phi is needed, and here it is.
        obtain ⟨j, hj, hNe⟩ := hDiffer
        have hj' : j ∈ first :: rest := List.mem_cons_of_mem _ hj
        refine ⟨j.block, ?_, first.block, ?_, ?_⟩
        · rw [hPred]
          exact List.mem_map_of_mem hj'
        · rw [hPred]
          exact List.mem_map_of_mem List.mem_cons_self
        · obtain ⟨hLt, hEffect⟩ := hCarried j hj'
          obtain ⟨hLt', hEffect'⟩ := hCarried first List.mem_cons_self
          rw [hLeaving _ hLt, hLeaving _ hLt', ← hEffect, ← hEffect']
          exact hNe
      · rw [Function.update_self]
        exact (Schedule.mem_nodesOf_append hb).mpr (.inr ⟨rfl, rfl⟩)
      · rw [Function.update_self, hPred, hMap]
        exact (a.graph.append hs).node?_push n
  refine ⟨hThreaded, ?_, fun name j hj => ?_⟩
  · rintro c ⟨⟩
    exact hCurrent
  · exact hLeft name j (entered_jumps (a.grown hs) label head first.effect name ▸ hj)

end Enter

/-- An operation keeps the effects threaded. -/
theorem Effects.step (h : Effects entry a) (hGrounded : Grounded past a) (hFlow : Flow past a)
    (hStep : Step a op result a') : ∃ entry', Effects entry' a' := by
  cases hStep with
  | look => exact ⟨entry, h⟩
  | place _ hOpen _ hPlain => exact ⟨entry, h.placed hGrounded hFlow hOpen hPlain⟩
  | chain _ hOpen _ hAccess hEffect =>
    have hNonneg := (Graph.knows_iff.mp (hGrounded.mentions _ .effect)).1
    exact ⟨entry, h.chained hGrounded hFlow hOpen hAccess (hEffect hNonneg)⟩
  | leave _ hOpen _ _ hJumps =>
    exact ⟨entry, h.leave hGrounded hOpen fun p hp => ⟨(hJumps p hp).1, (hJumps p hp).2.1⟩⟩
  | enter hJumps _ hSame => exact ⟨_, h.enter hGrounded hFlow hJumps hSame⟩
  | join hJumps hHead hDiffer => exact ⟨_, h.join hGrounded hFlow hJumps hHead hDiffer⟩

end Assembler
end ArmBackend
