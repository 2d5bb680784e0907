import ArmBackend.Assembler
import ArmBackend.Proofs.Lowering.Rescheduled
import ArmBackend.Proofs.Schedule.Accepted

/-!
# Scheduling a lowered graph

A change whose fragment branches ends the block that it is anchored in. Whatever comes behind the
change in that block has to hang on the change, or the block ends twice; and a box that is put at
the start of the graph must not need anything that comes later. Where control is threaded so, the
graph can be scheduled when it is lowered. The check of the anchors does not ask for that: it is
content with a control input on every change that branches.

## Results

* `lowering_keeps_schedulable` — a threaded graph that can be scheduled still can be when it is
  lowered.
* `Assembler.lowered_bitGraph_ends_twice` — an assembled program that is not threaded.
-/

namespace ArmBackend

namespace Lowering

/-- Whether a node is a change whose fragment branches. -/
def SplitsBlock (word : Int) (g : Graph) (c : NodeId) : Prop :=
  branches (.ofWord word) g c = .ok true

/-- Where the check of the anchors passes, the changes that branch hang on a control. -/
theorem entered_of_checkAnchored {g : Graph} {word : Int} {c : NodeId}
    (hWord : word = 32 ∨ word = 64) (hChecked : checkAnchored g word = .ok ())
    (hSplits : SplitsBlock word g c) : g.Entered c := by
  -- the check passed over every node, so none that splits its block has control input -1
  have hAll : Settles (fun _ => True) (checkAnchored g word) fun _ =>
      ∀ p ∈ g.nodes.toList.zipIdx, SplitsBlock word g p.2 → p.1.controlIn ≠ .ok (-1) := by
    unfold checkAnchored
    rw [layoutFor_eq hWord, ok_bind]
    refine Settles.forM ?_
    rintro ⟨n, i⟩ -
    refine Settles.intro ?_
    intro _ hStep hTrue hNone
    dsimp only at hStep hTrue hNone
    rw [show branches (.ofWord word) g i = .ok true from hTrue, ok_bind, if_pos rfl, hNone, ok_bind,
      if_pos (by decide)] at hStep
    cases hStep
  obtain ⟨n, hn, -⟩ := bind_eq_ok.mp hSplits
  have hNode := Graph.node_eq_ok.mp hn
  refine ⟨n, hNode, fun hNone => ?_⟩
  obtain ⟨i, rfl, -⟩ := Graph.node?_eq_some.mp hNode
  exact hAll.of_ok hChecked (n, i) (Graph.mem_zipIdx.mpr hNode) hSplits (if_pos hNone)

end Lowering

/-- Lowering keeps a graph schedulable. The check of the anchors has to pass, and each change to be
anchored at both ends or at none, as the check takes for granted (`hWhole`). Two things are asked
beyond that. Control is threaded through the changes that branch (`hThreaded`): what closes the
block of such a change comes behind it, and so does what takes it there. And a number that is boxed
without an anchor rests on nothing but the start (`hBoxes`), for its box is made there. -/
theorem lowering_keeps_schedulable {g : Graph} {word : Int} {exit : NodeId} (hWell : g.WellFormed)
    (hStart : g.HasOp Graph.start .start) (hAcyclic : ∀ id, ¬Relation.TransGen g.HasInput id id)
    (hWord : word = 32 ∨ word = 64) (hExit : g.exit = some exit)
    (hWhole : ∀ n ∈ g.nodes.toList, n.op.isChange = true → ¬n.HalfAnchored)
    (hChecked : Lowering.checkAnchored g word = .ok ())
    (hSchedule : ∃ s, Schedule.compute g = .ok s)
    (hThreaded : g.Threaded exit (Lowering.SplitsBlock word g))
    (hBoxes : ∀ {c k}, g.Live exit c → g.HasOp c (.change .float64ToTagged) → g.Floats c →
      g.RestsAt (Lowering.SplitsBlock word g) c k → k = Graph.start) :
    (Lowering.run g word).fault = none ∧
      ∃ s, Schedule.compute (Lowering.run g word).graph = .ok s := by
  have hSchedulable : g.Schedulable exit :=
    (Schedule.compute_ok_iff_schedulable hWell hStart hAcyclic hExit).mp hSchedule
  have hWholeAt : ∀ {c n}, g.node? c = some n → n.op.isChange = true → ¬n.HalfAnchored := by
    intro c n hn
    obtain ⟨i, -, hi⟩ := Graph.node?_eq_some.mp hn
    exact hWhole n (Array.mem_toList_iff.mpr (Array.mem_of_getElem? hi))
  have hEntered : ∀ c, Lowering.SplitsBlock word g c → g.Entered c := fun _ =>
    Lowering.entered_of_checkAnchored hWord hChecked
  obtain ⟨h, ρ, arms, hKept, hGrafted⟩ := Lowering.lowerNodes_grafted hWell hStart hAcyclic
    (l := .ofWord word) hWord hWholeAt hEntered (Nat.le_refl g.size)
  -- Only what the check takes for a change that branches has a fragment that does.
  have hLess : ∀ c, Lowering.Splits arms c → Lowering.SplitsBlock word g c := by
    intro c hSplits
    obtain ⟨a, ha⟩ := Option.isSome_iff_exists.mp hSplits
    obtain ⟨hIs, hLt⟩ := hGrafted.done ha
    exact (hGrafted.graft hIs hLt).branches hSplits
  -- The fragments cut blocks at no more places than the check sees, so the mark that a box rests
  -- at lies down the control chain of the start, which is the start alone.
  have hBoxesThen : ∀ {c k}, g.Live exit c → g.HasOp c (.change .float64ToTagged) → g.Floats c →
      g.RestsAt (Lowering.Splits arms) c k → k = Graph.start := by
    rintro c k hLive hOp hFloats ⟨y, hRests, hEnter, hMark⟩
    obtain ⟨j, hFirst, hChain⟩ := hMark.mono hLess
    obtain rfl := hBoxes hLive hOp hFloats ⟨y, hRests, hEnter, hFirst⟩
    rcases Relation.ReflTransGen.cases_head hChain with hSame | ⟨u, hStep, -⟩
    · exact hSame.symm
    · exact absurd (.of_hasOp hStart rfl) hStep.not_isHead
  have hL : Lowering.Spliced (.ofWord word) g h exit ρ arms :=
    { well := hWell
      start := hStart
      acyclic := hAcyclic
      schedulable := hSchedulable
      threaded := hThreaded.mono hLess
      boxes := hBoxesThen
      kept := hKept
      grafted := hGrafted
      anchored := fun hSplits => hEntered _ (hLess _ hSplits) }
  have hRun : Lowering.run g word = { graph := h, changed := Lowering.changesBelow g g.size } :=
    (Lowering.run_eq hWell.verify hWord).trans hKept.run
  rw [hRun]
  exact ⟨rfl, Schedule.compute_of_schedulable hL.wellFormed hL.hasOp_start hL.noCycles
    hL.reschedulable (hKept.exit.trans hExit)⟩

/-- A graph that returns a bit as a boolean object, and hangs the return on the change. -/
def threadedBit : Graph where
  nodes := #[{ op := .start }, .parameter 0 .bool, .change (.change .bitToBool) 1 0 0,
    .ofArity .ret [2, 2, 2], .collect [3]]
  exit := some 4

theorem threadedBit_cases {w : NodeId} {n : Node} (hn : threadedBit.node? w = some n) :
    w = 0 ∨ w = 1 ∨ w = 2 ∨ w = 3 ∨ w = 4 := by
  obtain ⟨i, rfl, hi⟩ := Graph.node?_eq_some.mp hn
  have hLt : i < 5 := (Array.getElem?_eq_some_iff.mp hi).1
  show (i : Int) = 0 ∨ (i : Int) = 1 ∨ (i : Int) = 2 ∨ (i : Int) = 3 ∨ (i : Int) = 4
  omega

theorem threadedBit_splits {c : NodeId} (hSplits : Lowering.SplitsBlock 32 threadedBit c) :
    c = 2 := by
  obtain ⟨n, hn, -⟩ := bind_eq_ok.mp hSplits
  rcases threadedBit_cases (Graph.node_eq_ok.mp hn) with rfl | rfl | rfl | rfl | rfl
  · cases hSplits
  · cases hSplits
  · rfl
  · cases hSplits
  · cases hSplits

theorem threadedBit_step : threadedBit.ControlStep 3 2 :=
  ⟨_, rfl, rfl, by decide, rfl⟩

theorem threadedBit_isEnd {e : NodeId} (hEnd : threadedBit.IsEnd e) : e = 3 := by
  obtain ⟨n, hn, hOp⟩ := hEnd
  rcases threadedBit_cases hn with rfl | rfl | rfl | rfl | rfl
  case inr.inr.inr.inl => rfl
  all_goals
    cases hn
    rcases hOp with hOp | hOp <;> cases hOp

theorem threadedBit_parameter : ¬Relation.TransGen threadedBit.HasInput 1 2 := by
  intro hDown
  obtain ⟨u, ⟨n, hn, hMem⟩, hRest⟩ := Relation.TransGen.head'_iff.mp hDown
  cases hn
  obtain rfl := List.mem_singleton.mp hMem
  obtain hSame | ⟨v, ⟨m, hm, hNone⟩, -⟩ := Relation.ReflTransGen.cases_head hRest
  · cases hSame
  · cases hm
    cases hNone

theorem threadedBit_threaded : threadedBit.Threaded 4 (Lowering.SplitsBlock 32 threadedBit) where
  isExit := ⟨_, rfl, rfl⟩
  returns _ hOp := by
    obtain rfl := threadedBit_isEnd (.of_hasOp hOp (.inr rfl))
    exact ⟨_, rfl, List.mem_singleton_self _⟩
  sealed _ hInput hEnd := by
    obtain rfl := threadedBit_isEnd hEnd
    obtain ⟨n, hn, hMem⟩ := hInput
    rcases threadedBit_cases hn with rfl | rfl | rfl | rfl | rfl
    case inr.inr.inr.inr => exact .inr (.inr rfl)
    all_goals
      cases hn
      exact absurd hMem (by decide)
  -- The one change stands in front of the one return.
  last _ hSplits _ _ hCloses _ := by
    obtain rfl := threadedBit_splits hSplits
    cases hCloses with
    | ends hEnd =>
      obtain rfl := threadedBit_isEnd hEnd
      exact .single threadedBit_step
    | jumps hn hOp _ =>
      rcases threadedBit_cases hn with rfl | rfl | rfl | rfl | rfl <;> cases hn <;> cases hOp
  ahead _ hSplits _ hChecked hEntered _ hDown := by
    obtain rfl := threadedBit_splits hSplits
    obtain ⟨n, hn, hControl⟩ := hEntered
    rcases threadedBit_cases hn with rfl | rfl | rfl | rfl | rfl
    · cases hn
      exact absurd rfl hControl
    · exact absurd hDown threadedBit_parameter
    · exact .refl
    · exact .single threadedBit_step
    · exact absurd rfl hChecked.notExit

theorem lowering_keeps_schedulable_threadedBit :
    (∃ s, Schedule.compute threadedBit = .ok s) ∧
      threadedBit.Threaded 4 (Lowering.SplitsBlock 32 threadedBit) ∧
      (Lowering.run threadedBit 32).fault = none ∧
      ∃ s, Schedule.compute (Lowering.run threadedBit 32).graph = .ok s := by
  have hWell : threadedBit.WellFormed :=
    .of_nodes (by decide +kernel) (by decide +kernel) (by decide +kernel)
  have hOk : (Schedule.compute threadedBit).isOk = true := by decide +kernel
  have hSchedule : ∃ s, Schedule.compute threadedBit = .ok s := by
    cases hCompute : Schedule.compute threadedBit with
    | error f =>
      rw [hCompute] at hOk
      cases hOk
    | ok s => exact ⟨s, rfl⟩
  refine ⟨hSchedule, threadedBit_threaded, ?_⟩
  refine lowering_keeps_schedulable hWell ⟨_, rfl, rfl⟩
    (Graph.acyclic_of_rank id (by decide +kernel)) (.inl rfl) rfl (by decide +kernel)
    (by decide +kernel) hSchedule threadedBit_threaded ?_
  -- Nothing is boxed.
  rintro c k - ⟨n, hn, hOp⟩
  rcases threadedBit_cases hn with rfl | rfl | rfl | rfl | rfl <;> cases hn <;> cases hOp

/-- A graph that boxes, without an anchor, a number that is called for behind a branch. -/
def lateBox : Graph where
  nodes := #[{ op := .start }, .parameter 0 .bool, .ofArity .branch [1, 0], .ofArity .ifTrue [2],
    .ofArity .ifFalse [2], .merge [3, 4], .heap "number", .call 6 [] 0 5,
    .change (.change .float64ToTagged) 7 (-1) (-1), .ofArity .ret [8, 7, 7], .collect [9]]
  exit := some 10

-- The box is made at the start, where there is no number yet.
example : lateBox.verify = .ok () ∧ Lowering.checkAnchored lateBox 32 = .ok () ∧
    (Schedule.compute lateBox).isOk = true ∧ (Lowering.run lateBox 32).fault = none ∧
    (Schedule.compute (Lowering.run lateBox 32).graph).isOk = false := by
  decide +kernel

namespace Assembler

/-- A program that returns a bit as a boolean object. -/
def returnBit : Assemble Unit := do
  let x ← change (.change .bitToBool) 1
  ret x
  finish

/-- The graph of `returnBit`. -/
def bitGraph : Graph where
  nodes := #[{ op := .start }, .parameter 0 .bool, .change (.change .bitToBool) 1 0 0,
    .ofArity .ret [2, 2, 0], .collect [3]]
  exit := some 4

/-- The program is assembled, and the change in it is anchored; but the return hangs on the control
in front of the change, where the fragment of the change branches. -/
theorem lowered_bitGraph_ends_twice :
    (returnBit.run.run (new [.bool])).1.isOk = true ∧
    (returnBit.run.run (new [.bool])).2.graph.nodes = bitGraph.nodes ∧
    (returnBit.run.run (new [.bool])).2.graph.exit = bitGraph.exit ∧
    bitGraph.WellFormed ∧ (∀ id, ¬Relation.TransGen bitGraph.HasInput id id) ∧
    Lowering.checkAnchored bitGraph 32 = .ok () ∧
    (∀ n ∈ bitGraph.nodes.toList, n.op.isChange = true → n.effectCount = 1 ∧ n.controlCount = 1) ∧
    (Schedule.compute bitGraph).isOk = true ∧ (Lowering.run bitGraph 32).fault = none ∧
    (Schedule.compute (Lowering.run bitGraph 32).graph).isOk = false := by
  refine ⟨by decide +kernel, by decide +kernel, by decide +kernel,
    .of_nodes (by decide +kernel) (by decide +kernel) (by decide +kernel),
    Graph.acyclic_of_rank id (by decide +kernel), by decide +kernel, by decide +kernel,
    by decide +kernel, by decide +kernel, by decide +kernel⟩

end Assembler

end ArmBackend
