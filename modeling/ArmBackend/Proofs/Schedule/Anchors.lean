import ArmBackend.Proofs.Schedule.Computed
import ArmBackend.Proofs.Schedule.Placed

/-!
# The operands of ends and joins

A node with a control input is anchored: it stands in the block that its control leads to. Any other
node floats to the deepest block among those of its inputs, so in the end some anchored node decides
where it stands. That the inputs of a node stand in dominating blocks is checked for the nodes that
blocks list, joins excepted. It is checked neither for the node that ends a block nor for what a join
takes from a predecessor, and a value that is anchored on one arm of a branch may be returned behind
the arms (`compute_accepts_oneArm`).

For any block that a path leads to, the block of a node dominates it exactly when the blocks of all
the anchored nodes that the node rests on do. So the operands of ends and joins are there in time
exactly when what they rest on is.

## Results

* `Settled.dominates_iff` — the blocks of which nodes decide whether that of a node dominates.
* `compute_operands` — this decides whether the operands of ends and joins are there in time.
-/

namespace ArmBackend

namespace Graph

/-- Whether a node has no control input, so that its inputs decide where it stands. -/
def Floats (g : Graph) (id : NodeId) : Prop :=
  ∃ n, g.node? id = some n ∧ n.controlCount = 0

/-- Whether the place of a node depends on that of another: a node rests on itself, and if it floats
on what its inputs rest on. -/
def RestsOn (g : Graph) : NodeId → NodeId → Prop :=
  Relation.ReflTransGen fun w u => g.Floats w ∧ g.HasInput w u

end Graph

namespace Schedule

variable {g : Graph} {exit id x y : NodeId} {s : Schedule} {a b t : Nat} {block : Block} {n : Node}

/-- Whether the blocks of all the anchored nodes that a node rests on dominate a block. -/
def AnchorsDominate (g : Graph) (s : Schedule) (x : NodeId) (b : Nat) : Prop :=
  ∀ y a, g.RestsOn x y → g.Entered y → s.blockOf y = some a → s.Dominates a b

/-! ## Where nodes float -/

/-- What is known of the nodes of a computed schedule. -/
structure Settled (g : Graph) (exit : NodeId) (s : Schedule) : Prop where
  /-- A node is where its control leads, or in the deepest block of its inputs. -/
  sited : ∀ id b, s.blockOf id = some b → Sited g s b id
  /-- The inputs of a node that floats stand in blocks that dominate its block. -/
  dominated : ∀ id b x a, s.blockOf id = some b → g.Floats id → g.HasInput id x →
    s.blockOf x = some a → s.Dominates a b
  /-- Only live nodes are listed or end a block. -/
  live : ∀ b i id, s.At b i id → g.Live exit id
  /-- Every live node but the exit has a place. -/
  placed : ∀ id, g.Live exit id → id ≠ exit → ∃ b, s.blockOf id = some b

/-- A node that floats depends on its inputs: it is neither a join nor a merge. -/
theorem depends_of_floats (hWell : g.WellFormed) (hFloats : g.Floats id) (hInput : g.HasInput id x) :
    g.Depends id x := by
  obtain ⟨n, hn, hControl⟩ := hFloats
  obtain ⟨m, hm, hx⟩ := hInput
  obtain rfl : n = m := Option.some.inj (hn.symm.trans hm)
  refine ⟨n, hn, ?_, ?_, hx⟩
  · intro hMerge
    have hNone : n.inputs = [] := hWell.inputs_of_head hn (by rw [hMerge]; rfl) hControl
    rw [hNone] at hx
    cases hx
  · rw [← Bool.not_eq_true]
    intro hPhi
    have hOne : n.controlCount = (1 : Nat) := by
      refine hWell.controlCount hn ?_
      cases hOp : n.op <;> rw [hOp] at hPhi <;> cases hPhi <;> rfl
    omega

/-- The first block dominates every block that a path leads to. -/
theorem dominates_first (ht : s.Reached t) : s.Dominates 0 t := by
  refine .inr ⟨ht, ?_⟩
  rintro path ⟨-, hHead, -⟩
  exact List.mem_of_mem_head? hHead

namespace Settled

/-- Where the anchored nodes dominate a block, so does what rests on them. -/
theorem dominates_of_anchors (hWell : g.WellFormed) (hCycles : g.CyclesJoined)
    (h : Settled g exit s) (ht : s.Reached t) (hx : s.blockOf x = some a)
    (hAnchors : s.AnchorsDominate g x t) : s.Dominates a t := by
  -- The induction is on what can be reached from the node, which is less for an input.
  induction hRank : g.rank g.Depends x using Nat.strong_induction_on generalizing x a with
  | _ rank ih =>
    obtain ⟨n, hn, -, hDeepest⟩ := h.sited x a hx
    by_cases hControl : n.controlCount = 0
    · have hFloats : g.Floats x := ⟨n, hn, hControl⟩
      by_cases hInputs : n.inputs = []
      · rw [(hDeepest hControl).first hInputs]
        exact dominates_first ht
      · obtain ⟨y, hy, hHome⟩ := (hDeepest hControl).among hInputs
        have hInput : g.HasInput x y := ⟨n, hn, hy⟩
        have hLess : g.rank g.Depends y < rank := by
          rw [← hRank]
          exact Graph.rank_lt hWell.verify hCycles hInput (depends_of_floats hWell hFloats hInput)
        refine ih _ hLess hHome ?_ rfl
        intro z c hz
        exact hAnchors z c (.head ⟨hFloats, hInput⟩ hz)
    · exact hAnchors x a .refl ⟨n, hn, hControl⟩ hx

/-- What a node rests on stands in a block that dominates its own. -/
theorem dominates_of_restsOn (h : Settled g exit s) (hRests : g.RestsOn x y)
    (hx : s.blockOf x = some a) : ∃ c, s.blockOf y = some c ∧ s.Dominates c a := by
  induction hRests with
  | refl => exact ⟨a, hx, .refl a⟩
  | @tail y z _ hStep ih =>
    obtain ⟨c, hc, hDominates⟩ := ih
    obtain ⟨⟨n, hn, hControl⟩, hInput⟩ := hStep
    obtain ⟨m, hm, -, hDeepest⟩ := h.sited y c hc
    obtain rfl : n = m := Option.some.inj (hn.symm.trans hm)
    obtain ⟨m, hm, hz⟩ := id hInput
    obtain rfl : n = m := Option.some.inj (hn.symm.trans hm)
    obtain ⟨d, hd, -⟩ := (hDeepest hControl).below z hz
    exact ⟨d, hd, (h.dominated y c z d hc ⟨n, hn, hControl⟩ hInput hd).trans hDominates⟩

/-- The block of a node dominates another exactly when those of its anchors do. -/
theorem dominates_iff (hWell : g.WellFormed) (hCycles : g.CyclesJoined) (h : Settled g exit s)
    (ht : s.Reached t) (hx : s.blockOf x = some a) :
    s.Dominates a t ↔ s.AnchorsDominate g x t := by
  refine ⟨?_, h.dominates_of_anchors hWell hCycles ht hx⟩
  intro hDominates y c hRests _ hy
  obtain ⟨c', hc', hAbove⟩ := h.dominates_of_restsOn hRests hx
  obtain rfl : c = c' := Option.some.inj (hy.symm.trans hc')
  exact hAbove.trans hDominates

end Settled

/-! ## Computed schedules -/

/-- What passes the check when nodes have been placed is settled, and stays so when nodes are put into
order. -/
theorem Placing.settled {f t : Schedule} (hWell : g.WellFormed) (hFramed : Framed g exit f)
    (h : Placing g exit f s)
    (hAll : ∀ id, g.Live exit id → id ≠ exit → ∃ b, s.home id = some b)
    (hDominated : ∀ (b : Nat) (block : Block), s.blocks[b]? = some block → ∀ id ∈ block.nodes,
      ¬g.IsPhi id → ∀ x, g.HasInput id x → ∀ a, s.home x = some a → s.dominates a b = true)
    (h' : Placing g exit f t) (hHome : t.home = s.home) : Settled g exit t := by
  refine ⟨?_, ?_, ?_, ?_⟩
  · exact fun id b hId => h'.sited hWell hFramed hId
  · intro id b x a hId hFloats hInput hx
    have hId' : s.home id = some b := by
      rw [← hHome]
      exact hId
    have hx' : s.home x = some a := by
      rw [← hHome]
      exact hx
    have ⟨n, hn, hControl⟩ := hFloats
    -- A node that floats and has inputs is no head, no end and no join, so it was checked.
    obtain ⟨block, hBlock, -⟩ := (h.home id b).mp hId'
    have hDepends := depends_of_floats hWell hFloats hInput
    have hHead : ¬g.IsHead id := by
      rintro ⟨m, hm, hIs⟩
      obtain rfl : n = m := Option.some.inj (hn.symm.trans hm)
      obtain ⟨m, hm, hMem⟩ := hInput
      obtain rfl : n = m := Option.some.inj (hn.symm.trans hm)
      rw [hWell.inputs_of_head hn hIs hControl] at hMem
      cases hMem
    have hEnd : ¬g.IsEnd id := by
      rintro ⟨m, hm, hIs⟩
      obtain rfl : n = m := Option.some.inj (hn.symm.trans hm)
      have hOne : n.controlCount = (1 : Nat) :=
        hWell.controlCount hn (by rcases hIs with hOp | hOp <;> rw [hOp] <;> rfl)
      omega
    have hPhi : ¬g.IsPhi id := by
      rintro ⟨m, hm, hIs⟩
      obtain ⟨m', hm', -, hNot, -⟩ := hDepends
      obtain rfl : m = m' := Option.some.inj (hm.symm.trans hm')
      rw [hNot] at hIs
      cases hIs
    have hMem := h.mem_nodes hFramed hBlock hId' hHead hEnd
    have hStored := hDominated b block hBlock id hMem hPhi x hInput a hx'
    rw [dominates_of_frame h.frame] at hStored
    exact (dominates_sound hFramed.dominators hStored).of_frame h'.frame
  · intro b i id hAt
    rcases hAt.kinds with ⟨block, hBlock, hGet⟩ | ⟨block, hBlock, hControl, -⟩
    · exact (h'.member b block hBlock id (List.mem_of_getElem? hGet)).1.to_reflTransGen
    · obtain ⟨old, hOld, hBare⟩ := exists_of_frame h'.frame.symm hBlock
      rw [← Block.control_of_bare hBare] at hControl
      exact ((hFramed.block b old hOld).control id hControl).1
  · intro id hId hNe
    obtain ⟨b, hb⟩ := hAll id hId hNe
    refine ⟨b, ?_⟩
    rw [blockOf, hHome]
    exact hb

/-- A computed schedule is settled. -/
theorem compute_settled (hWell : g.WellFormed) (hCycles : g.CyclesJoined)
    (hCompute : compute g = .ok s) : ∃ exit, g.exit = some exit ∧ Settled g exit s := by
  obtain ⟨exit, live, f, p, h, hOrder⟩ := compute_stages hCompute
  have hRoot := hWell.exit exit h.exit
  have hLive := (liveNodes_settles (R := g.Rejects exit) hWell hRoot).of_ok h.marked
  have hFramed := (buildBlocks_settles hWell hRoot hLive).of_ok h.built
  obtain ⟨hPlacing, hAll⟩ := (placeNodes_settles hWell hCycles hRoot
    (fun hBelow => headOf_settles_of_step hWell hBelow.to_reflTransGen) hLive hFramed).of_ok h.placed
  have hDominated := (checkAll_settles hWell hRoot hPlacing).of_ok h.checked
  obtain ⟨hPlacing', hHome, -⟩ :=
    (orderBlocks_settles hWell hRoot hFramed hPlacing).of_ok hOrder
  exact ⟨exit, h.exit, hPlacing.settled hWell hFramed hAll hDominated hPlacing' hHome⟩

/-- In a computed schedule the inputs of the node that ends a block stand in blocks that dominate it,
and what a join takes from a predecessor stands in a block that dominates the predecessor, exactly
when the anchored nodes that they rest on do. -/
theorem compute_operands (hWell : g.WellFormed) (hCycles : g.CyclesJoined)
    (hCompute : compute g = .ok s) :
    (∀ (b : Nat) (block : Block) (c x : NodeId), s.blocks[b]? = some block →
      block.control = some c → g.HasInput c x → g.exit ≠ some x →
      ∃ a, s.blockOf x = some a ∧ (s.Dominates a b ↔ s.AnchorsDominate g x b)) ∧
    ∀ (b i : Nat) (w : NodeId) (n : Node) (k : Nat) (x : NodeId) (p : Nat), s.Lists b i w →
      g.node? w = some n → n.op = .phi → n.values[k]? = some x →
      (s.predecessors b)[k]? = some p → g.exit ≠ some x →
      ∃ a, s.blockOf x = some a ∧ (s.Dominates a p ↔ s.AnchorsDominate g x p) := by
  obtain ⟨exit, hExit, hSettled⟩ := compute_settled hWell hCycles hCompute
  -- An input of a node that has a place is live, and has a place unless it is the exit.
  have hPlace : ∀ {b i w x}, s.At b i w → g.HasInput w x → g.exit ≠ some x →
      ∃ a, s.blockOf x = some a := by
    intro b i w x hAt hInput hNe
    have hLive : g.Live exit x := (hSettled.live b i w hAt).input hInput
    refine hSettled.placed x hLive ?_
    rintro rfl
    exact hNe hExit
  refine ⟨?_, ?_⟩
  · intro b block c x hBlock hControl hInput hNe
    obtain ⟨a, ha⟩ := hPlace (at_control hBlock hControl) hInput hNe
    exact ⟨a, ha, hSettled.dominates_iff hWell hCycles (compute_reached hCompute hBlock) ha⟩
  · intro b i w n k x p hLists hn _ hx hp hNe
    have hInput : g.HasInput w x := ⟨n, hn, List.mem_of_mem_take (List.mem_of_getElem? hx)⟩
    obtain ⟨a, ha⟩ := hPlace hLists.at hInput hNe
    obtain ⟨block, hBlock⟩ := compute_predecessors hCompute (List.mem_of_getElem? hp)
    exact ⟨a, ha, hSettled.dominates_iff hWell hCycles (compute_reached hCompute hBlock) ha⟩

/-- A branch with a load on each arm, and a join of what is loaded. -/
def twoArms : Graph where
  nodes := #[{ op := .start }, .parameter 0 .int32, .int32 0, .ofArity .branch [1, 0],
    .ofArity .ifTrue [3], .ofArity .ifFalse [3], .load .word32 1 2 0 4, .load .word32 1 1 0 5,
    .merge [4, 5], .phi .word32 [6, 7, 8], .ofArity .ret [9, 0, 8], .collect [10]]
  exit := some 11

theorem compute_operands_twoArms : twoArms.WellFormed ∧ twoArms.CyclesJoined ∧
    ∃ s, compute twoArms = .ok s ∧ ∃ block a, s.blocks[3]? = some block ∧
      block.control = some 10 ∧ s.blockOf 9 = some a ∧ s.Dominates a 3 := by
  have hWell : twoArms.WellFormed :=
    .of_nodes (by decide +kernel) (by decide +kernel) (by decide +kernel)
  have hCycles : twoArms.CyclesJoined := Graph.cyclesJoined_of_ordered (by decide +kernel)
  have hRun : (compute twoArms).toOption.bind (fun s =>
      s.blocks[3]?.map fun block => (block.control, s.blockOf 9)) = some (some 10, some 3) := by
    decide +kernel
  obtain ⟨s, hSchedule, hRun⟩ := Option.bind_eq_some_iff.mp hRun
  obtain ⟨block, hBlock, hRun⟩ := Option.map_eq_some_iff.mp hRun
  obtain ⟨hControl, hHome⟩ := Prod.mk.inj hRun
  have hCompute := toOption_eq_some.mp hSchedule
  have hInput : twoArms.HasInput 10 9 := ⟨_, rfl, List.mem_cons_self⟩
  obtain ⟨a, ha, hIff⟩ :=
    (compute_operands hWell hCycles hCompute).1 3 block 10 9 hBlock hControl hInput (by decide)
  refine ⟨hWell, hCycles, s, hCompute, block, a, hBlock, hControl, ha, hIff.mpr ?_⟩
  -- The join is anchored at the merge, so it rests on nothing else.
  intro y c hRests _ hy
  rcases Relation.ReflTransGen.cases_head hRests with rfl | ⟨z, ⟨⟨n, hn, hControl⟩, -⟩, -⟩
  · obtain rfl : 3 = c := Option.some.inj (hHome.symm.trans hy)
    exact .refl 3
  · cases hn
    cases hControl

/-- A value that is loaded on one arm of a branch. Behind the arms another branch tests it, and a join
takes it from the other arm. -/
def oneArm : Graph where
  nodes := #[{ op := .start }, .parameter 0 .int32, .int32 0, .ofArity .branch [1, 0],
    .ofArity .ifTrue [3], .ofArity .ifFalse [3], .load .word32 1 2 0 4, .merge [4, 5],
    .phi .word32 [1, 6, 7], .ofArity .branch [6, 7], .ofArity .ifTrue [9], .ofArity .ifFalse [9],
    .ofArity .ret [8, 0, 10], .ofArity .ret [1, 0, 11], .collect [12, 13]]
  exit := some 14

/-- A schedule is computed in which the condition of a branch stands in a block that does not dominate
that of the branch, and what a join takes from a predecessor in one that does not dominate the
predecessor. -/
theorem compute_accepts_oneArm : oneArm.WellFormed ∧ oneArm.CyclesJoined ∧
    ∃ s, compute oneArm = .ok s ∧
      (∃ block a, s.blocks[3]? = some block ∧ block.control = some 9 ∧ oneArm.Feeds 9 6 ∧
        s.blockOf 6 = some a ∧ ¬s.Dominates a 3) ∧
      ∃ n p a, s.Lists 3 0 8 ∧ oneArm.node? 8 = some n ∧ n.op = .phi ∧ n.values[1]? = some 6 ∧
        (s.predecessors 3)[1]? = some p ∧ s.blockOf 6 = some a ∧ ¬s.Dominates a p := by
  have hWell : oneArm.WellFormed :=
    .of_nodes (by decide +kernel) (by decide +kernel) (by decide +kernel)
  have hCycles : oneArm.CyclesJoined := Graph.cyclesJoined_of_ordered (by decide +kernel)
  have hRun : (compute oneArm).toOption.bind (fun s => s.blocks[3]?.map fun block =>
      (block.control, block.nodes, block.pred)) = some (some 9, [8], [1, 2]) := by
    decide +kernel
  have hEdges : (compute oneArm).toOption.map (fun s =>
      (s.blockOf 6, s.successors 0, s.successors 2)) = some (some 1, [1, 2], [3]) := by
    decide +kernel
  obtain ⟨s, hSchedule, hRun⟩ := Option.bind_eq_some_iff.mp hRun
  obtain ⟨block, hBlock, hRun⟩ := Option.map_eq_some_iff.mp hRun
  rw [hSchedule, Option.map_some, Option.some.injEq] at hEdges
  simp only [Prod.mk.injEq] at hRun hEdges
  obtain ⟨hControl, hNodes, hPred⟩ := hRun
  obtain ⟨hHome, hFirst, hSecond⟩ := hEdges
  -- A path along the other arm leads to both blocks.
  have hTwo : s.IsPath [0, 2] 2 := ⟨by simp [hFirst], rfl, rfl⟩
  have hThree : s.IsPath [0, 2, 3] 3 := ⟨by simp [hFirst, hSecond], rfl, rfl⟩
  have hAvoids : ∀ {path b}, s.IsPath path b → 1 ∉ path → 1 ≠ b → ¬s.Dominates 1 b := by
    rintro path b hPath hNot hNe (hEq | ⟨-, hAll⟩)
    · exact hNe hEq
    · exact hNot (hAll path hPath)
  refine ⟨hWell, hCycles, s, toOption_eq_some.mp hSchedule, ?_, ?_⟩
  · refine ⟨block, 1, hBlock, hControl, ⟨_, rfl, List.mem_cons_self⟩, hHome, ?_⟩
    exact hAvoids hThree (by decide) (by decide)
  · have hLists : s.Lists 3 0 8 := ⟨block, hBlock, by rw [hNodes]; rfl⟩
    have hEdge : (s.predecessors 3)[1]? = some 2 := by
      unfold predecessors
      rw [hBlock]
      show block.pred[1]? = some 2
      rw [hPred]
      rfl
    exact ⟨_, 2, 1, hLists, rfl, rfl, rfl, hEdge, hHome, hAvoids hTwo (by decide) (by decide)⟩

end Schedule
end ArmBackend
