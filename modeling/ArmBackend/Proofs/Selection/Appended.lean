import ArmBackend.Proofs.Schedule.Appended
import ArmBackend.Proofs.Selection.Rules.Alike

/-!
# Selection over graphs with more nodes

A node that is appended to a graph has no place in the schedule. Where selection looks at the uses of
a node it counts those with a place, so a new user keeps no node from being covered; and a projection
that only the new nodes have is as good as none, for nobody with a place uses it.

Two looks at the graph go without a place. Every parameter is given its location and its register,
whether it is live or not: where an argument is depends on the arguments before it, used or not. And
the targets of a branch are looked for through all of its projections. Appended nodes of these two
kinds are left out here.

## Results

* `twin_append` — over a graph with more nodes, selection is told the same.
* `select_append` — appended nodes change neither the schedule nor the code.
* `select_append_sees` — a parameter and a projection of a branch that do.
-/

namespace ArmBackend

/-- Whether no appended node is an arm of a branch that the exit depends on. -/
def Graph.ArmsKept (g : Graph) (ns : List Node) : Prop :=
  ∀ n ∈ ns, n.op = .ifTrue ∨ n.op = .ifFalse → ∀ exit ∈ g.exit, ∀ c ∈ n.inputs,
    g.HasOp c .branch → ¬g.Live exit c

namespace Selection

variable {g : Graph} {ns : List Node} {id exit c : NodeId} {schedule : Schedule} {features : Features}
variable {block : Block} {b : Nat}

/-! ## Parameters -/

theorem parameters_append (hParameters : ∀ n ∈ ns, n.op ≠ .parameter) :
    parameters (g.append ns) = parameters g := by
  unfold parameters
  rw [Graph.zipIdx_append, List.filterMap_append]
  refine congrArg (List.mergeSort · _) ?_
  rw [List.append_right_eq_self, List.filterMap_eq_nil_iff]
  intro p hp
  exact if_neg (hParameters p.1 (List.fst_mem_of_mem_zipIdx hp))

theorem knows_of_parameter {p : NodeId × Node} (hp : p ∈ parameters g) : g.Knows p.1 := by
  unfold parameters at hp
  obtain ⟨⟨n, k⟩, hn, hSome⟩ := List.mem_filterMap.mp (List.mem_mergeSort.mp hp)
  rw [Option.ite_none_right_eq_some] at hSome
  cases hSome.2
  exact ⟨n, Graph.mem_zipIdx.mp hn⟩

/-! ## Uses -/

theorem blockOf_new (hWithin : Schedule.Within g exit schedule) (hNew : (g.size : Int) ≤ id) :
    schedule.blockOf id = none := by
  cases hHome : schedule.blockOf id with
  | none => rfl
  | some b => exact absurd hNew (Int.not_le.mpr (hWithin.home hHome).lt)

/-- The uses with a place are those by old nodes. -/
theorem placedUses_append (hWithin : Schedule.Within g exit schedule) :
    placedUses schedule ((g.append ns).edgesTo id) = placedUses schedule (g.edgesTo id) := by
  have hNew : placedUses schedule (g.newEdges ns id) = [] := by
    unfold placedUses
    rw [List.filter_eq_nil_iff]
    intro u hu
    rw [blockOf_new hWithin (Graph.mem_newEdges hu).1]
    decide
  unfold placedUses at *
  rw [Graph.edgesTo_append, List.filter_append, hNew, List.append_nil]

/-- A projection that is new has no place, and nor have its users. -/
theorem unplaced_of_newEdge (hVerify : g.verify = .ok ()) (hVerify' : (g.append ns).verify = .ok ())
    (hWithin : Schedule.Within g exit schedule) {u : Use} (hu : u ∈ g.newEdges ns id) :
    0 ≤ u.user ∧ schedule.blockOf u.user = none ∧ ∃ uses, (g.append ns).uses u.user = .ok uses ∧
      ∀ w ∈ uses, schedule.blockOf w.user = none := by
  obtain ⟨hLe, n, -, hn, -⟩ := Graph.mem_newEdges hu
  refine ⟨(Graph.node?_lt hn).1, blockOf_new hWithin hLe, _, Graph.uses_of_verify hVerify' hn, ?_⟩
  intro w hw
  rw [Graph.edgesTo_append, Graph.edgesTo_of_new hVerify hLe, List.nil_append] at hw
  exact blockOf_new hWithin (Graph.mem_newEdges hw).1

/-! ## Targets of a branch -/

theorem targetOf?_append (hWithin : Schedule.Within g exit schedule) (projection : NodeId)
    (succ : List Nat) :
    targetOf? (g.append ns) schedule projection succ = targetOf? g schedule projection succ := by
  induction succ with
  | nil => rfl
  | cons x rest ih =>
    unfold targetOf? Schedule.block
    cases hBlock : schedule.blocks[x]? with
    | none => rfl
    | some block =>
      rw [ok_bind, ok_bind, Graph.node_append (.inl (hWithin.block hBlock).head), ih]

/-- What one use of a branch says about its targets. -/
def readArm (g : Graph) (s : Schedule) (block : Block) (targets : Option Nat × Option Nat) (u : Use) :
    Except Fault (Option Nat × Option Nat) := do
  match ← g.op u.user with
  | .ifTrue => return (← targetOf? g s u.user block.succ, targets.2)
  | .ifFalse => return (targets.1, ← targetOf? g s u.user block.succ)
  | _ => return targets

theorem branchTargets_eq (g : Graph) (s : Schedule) (block : Block) (branch : NodeId) :
    branchTargets g s block branch = (do
      let targets ← (← g.uses branch).foldlM (readArm g s block) (none, none)
      match targets with
      | (some t, some f) => return (t, f)
      | _ => throw (.malformed branch .branch .noBranchTargets)) := by
  unfold branchTargets
  refine bind_congr_ok fun uses _ => bind_congr_ok fun targets _ => ?_
  obtain ⟨_ | t, _ | f⟩ := targets <;> rfl

/-- Where no new node is an arm of a branch, its targets are found as before. -/
theorem branchTargets_append (hVerify : g.verify = .ok ()) (hVerify' : (g.append ns).verify = .ok ())
    (hWithin : Schedule.Within g exit schedule) (hId : g.Knows id)
    (hArms : ∀ n ∈ ns, n.op = .ifTrue ∨ n.op = .ifFalse → id ∉ n.inputs) (block : Block) :
    branchTargets (g.append ns) schedule block id = branchTargets g schedule block id := by
  obtain ⟨n, hn⟩ := hId
  have hOld : ∀ targets, (g.edgesTo id).foldlM (readArm (g.append ns) schedule block) targets =
      (g.edgesTo id).foldlM (readArm g schedule block) targets := by
    refine foldlM_congr ?_
    intro u hu targets
    unfold readArm
    rw [Graph.op_append (.inl (Graph.knows_of_edge hu)), targetOf?_append hWithin]
  -- The new users are read last, and each of them is something else than an arm.
  have hNew : ∀ targets, (g.newEdges ns id).foldlM (readArm (g.append ns) schedule block) targets =
      .ok targets := by
    refine foldlM_skip ?_
    intro u hu targets
    obtain ⟨-, m, hm, hAt, hInput⟩ := Graph.mem_newEdges hu
    unfold readArm
    rw [Graph.op_eq_ok.mpr ⟨m, hAt, rfl⟩, ok_bind]
    split
    · next hOp => exact absurd hInput (hArms m hm (.inl hOp))
    · next hOp => exact absurd hInput (hArms m hm (.inr hOp))
    · rfl
  rw [branchTargets_eq, branchTargets_eq, Graph.uses_of_verify hVerify hn,
    Graph.uses_of_verify hVerify' (Graph.node?_append hn), ok_bind, ok_bind, Graph.edgesTo_append,
    List.foldlM_append, hOld]
  simp only [hNew]
  rw [show (fun targets => Except.ok targets) = pure from rfl, bind_pure]

/-! ## The whole run -/

/-- Over a graph with more nodes selection is told the same. -/
theorem twin_append (hVerify : g.verify = .ok ()) (hVerify' : (g.append ns).verify = .ok ())
    (hParameters : ∀ n ∈ ns, n.op ≠ .parameter) (hArms : g.ArmsKept ns)
    (hCompute : Schedule.compute g = .ok schedule) (features : Features) :
    Twin g.Knows (fun _ => True) { graph := g, schedule, features } (g.append ns) := by
  obtain ⟨exit, hExit, hRoot, hWithin⟩ := Schedule.compute_within hVerify hCompute
  have hControl : ∀ {b : Nat} {block : Block} {c}, schedule.blocks[b]? = some block →
      block.control = some c → g.Knows c := fun hBlock hIs =>
    ((hWithin.block hBlock).control _ hIs).node_of_verify hVerify hRoot
  constructor
  case size =>
    rw [Graph.size_append]
    exact Nat.le_add_right _ _
  case node? => exact fun hId => hId.node?_append
  case input => exact fun _ hn hx => .input hVerify ⟨_, hn, hx⟩
  -- A run starts at no node; the rules set the place before they look at it.
  case here => exact fun hNode => absurd hNode (show ¬(0 : Int) ≤ -1 by decide)
  case head => exact fun hBlock => (hWithin.block hBlock).head
  case listed => exact fun hBlock hId => (hWithin.block hBlock).nodes _ hId
  case control =>
    intro b block hBlock hNonneg
    cases hIs : block.control with
    | none =>
      rw [hIs] at hNonneg
      exact absurd hNonneg (by decide)
    | some c => exact hControl hBlock hIs
  case ended =>
    intro b block hBlock hKind
    obtain ⟨c, hIs⟩ := (hWithin.block hBlock).ended hKind
    rw [hIs]
    exact hControl hBlock hIs
  case uses =>
    rintro id ⟨n, hn⟩
    rw [Graph.uses_of_verify hVerify hn, Graph.uses_of_verify hVerify' (Graph.node?_append hn)]
    exact congrArg Except.ok (placedUses_append hWithin)
  case projection =>
    intro id index hId
    rcases Graph.findProjection_append hVerify hVerify' hId index with hSame | ⟨u, hu, hNone, hFound⟩
    · exact .inl hSame
    · obtain ⟨hNonneg, hPlace, uses, hUses, hIdle⟩ :=
        unplaced_of_newEdge hVerify hVerify' hWithin hu
      exact .inr ⟨u.user, uses, hNone, hFound, hNonneg, hPlace, hUses, hIdle⟩
  case targets =>
    intro b block hBlock hKind
    obtain ⟨c, hIs⟩ := (hWithin.block hBlock).ended (.inl hKind)
    rw [hIs]
    refine branchTargets_append hVerify hVerify' hWithin (hControl hBlock hIs) ?_ block
    intro n hn hArm hInput
    exact hArms n hn hArm exit hExit c hInput ((hWithin.block hBlock).branch hKind c hIs)
      ((hWithin.block hBlock).control c hIs)
  case parameters => exact parameters_append hParameters
  case parameter => exact knows_of_parameter
  case stable => exact fun _ _ _ _ => trivial
  case vreg => exact fun _ _ _ _ => trivial

end Selection

/-- Dead nodes that are appended to a graph change neither its schedule nor the code that is selected
for it, unless one is a parameter or an arm of a branch that the exit depends on. -/
theorem select_append {g : Graph} {ns : List Node} (hVerify : g.verify = .ok ())
    (hVerify' : (g.append ns).verify = .ok ())
    (hDead : ∀ exit ∈ g.exit, ∀ id, (g.append ns).Live exit id → id < g.size) :
    (Schedule.compute (g.append ns)).toOption = (Schedule.compute g).toOption ∧
    ((∀ n ∈ ns, n.op ≠ .parameter) → g.ArmsKept ns →
      ∀ schedule, Schedule.compute g = .ok schedule → ∀ features,
        select (g.append ns) schedule features = select g schedule features) := by
  refine ⟨Schedule.compute_append hVerify hVerify' hDead, ?_⟩
  intro hParameters hArms schedule hCompute features
  have hTwin := Selection.twin_append hVerify hVerify' hParameters hArms hCompute features
  unfold select
  refine congrArg (· >>= _) ?_
  exact (hTwin.coverAll_steady {} trivial).1

/-- Twice the argument, or zero where that overflows. -/
def checkedDouble : Graph :=
  { nodes := #[
      { op := .start },
      .parameter 0 .int32,
      .ofArity (.int32 .addWithOverflow) [1, 1],
      .projection 1 2,
      .ofArity .branch [3, 0],
      .ofArity .ifTrue [4],
      .ofArity .ifFalse [4],
      .projection 0 2,
      .int32 0,
      .ofArity .ret [8, 0, 5],
      .ofArity .ret [7, 0, 6],
      .collect [9, 10]]
    exit := some 11 }

/-- Nodes that use the sum, its overflow and each other. -/
def spareNodes : List Node :=
  [.projection 0 2, .ofArity (.word32 .xor) [7, 1], .ofArity .branch [3, 0], .ofArity .ifTrue [14],
    .ofArity .ifFalse [14]]

theorem checkedDouble_verify : checkedDouble.verify = .ok () := by
  decide +kernel

/-- The exit of the graph is a node, so that what is appended is dead. -/
theorem checkedDouble_dead (ns : List Node) : ∀ exit ∈ checkedDouble.exit, ∀ id,
    (checkedDouble.append ns).Live exit id → id < checkedDouble.size := by
  rintro _ ⟨⟩ id hLive
  exact Graph.lt_of_live_append checkedDouble_verify ⟨_, rfl⟩ hLive

/-- The spare nodes keep neither the sum from being fused into the branch nor the branch from finding
its targets. -/
theorem select_append_spareNodes :
    (∃ schedule stream, Schedule.compute checkedDouble = .ok schedule ∧
      select checkedDouble schedule ⟨0⟩ = .ok stream ∧
      stream.code.map Instr.op = [.nop, .add, .ret, .ret] ∧
      (Schedule.compute (checkedDouble.append spareNodes)).toOption = some schedule ∧
      select (checkedDouble.append spareNodes) schedule ⟨0⟩ = .ok stream) ∧
    ∀ schedule, Schedule.compute checkedDouble = .ok schedule → ∀ features,
      select (checkedDouble.append spareNodes) schedule features =
        select checkedDouble schedule features := by
  have hRun : ((Schedule.compute checkedDouble).toOption.bind fun schedule =>
      (select checkedDouble schedule ⟨0⟩).toOption.map fun stream => stream.code.map Instr.op) =
      some [.nop, .add, .ret, .ret] := by
    decide +kernel
  have hParameters : ∀ n ∈ spareNodes, n.op ≠ .parameter := by decide
  -- The arms among the spare nodes are those of the spare branch.
  have hNew : ∀ n ∈ spareNodes, n.op = .ifTrue ∨ n.op = .ifFalse → ∀ c ∈ n.inputs,
      checkedDouble.node? c = none := by
    decide
  have hArms : checkedDouble.ArmsKept spareNodes := by
    rintro n hn hArm exit - c hc ⟨m, hm, -⟩
    rw [hNew n hn hArm c hc] at hm
    cases hm
  obtain ⟨hSchedule, hCode⟩ := select_append checkedDouble_verify (by decide +kernel)
    (checkedDouble_dead spareNodes)
  have hSelect := hCode hParameters hArms
  refine ⟨?_, hSelect⟩
  obtain ⟨schedule, hCompute, hRun⟩ := Option.bind_eq_some_iff.mp hRun
  obtain ⟨stream, hStream, hOps⟩ := Option.map_eq_some_iff.mp hRun
  have hOk := toOption_eq_some.mp hCompute
  exact ⟨schedule, stream, hOk, toOption_eq_some.mp hStream, hOps, hSchedule.trans hCompute,
    (hSelect schedule hOk ⟨0⟩).trans (toOption_eq_some.mp hStream)⟩

/-- The second of two arguments, in a graph that does not have the first. -/
def secondArgument : Graph :=
  { nodes := #[{ op := .start }, .parameter 1 .int32, .ofArity .ret [1, 0, 0], .collect [2]]
    exit := some 3 }

/-- The first argument. -/
def firstArgument : Node :=
  .parameter 0 .int32

/-- One more projection of the branch. -/
def spareArm : Node :=
  .ofArity .ifTrue [4]

theorem parameters_secondArgument :
    Selection.parameters (secondArgument.append [firstArgument]) =
      [(4, firstArgument), (1, .parameter 1 .int32)] := by
  have hFound : Selection.parameters (secondArgument.append [firstArgument]) =
      [(1, .parameter 1 .int32), (4, firstArgument)].mergeSort
        fun a b => decide (a.2.int ≤ b.2.int) := by
    refine congrArg (List.mergeSort · _) ?_
    decide
  rw [hFound, List.mergeSort]
  -- Two lists of one member each are merged, and the second member comes first.
  show List.merge ([(1, .parameter 1 .int32)].mergeSort _) ([(4, firstArgument)].mergeSort _) _ = _
  rw [List.mergeSort_singleton, List.mergeSort_singleton, List.cons_merge_cons,
    if_neg (by decide), List.merge_right]

/-- Selection goes by the parameters in the order of their indices. -/
theorem select_of_parameters {g : Graph} {ps : List (NodeId × Node)}
    (h : Selection.parameters g = ps) (schedule : Schedule) (features : Features) :
    select g schedule features = (do
      let run : Select (List Selection.Covered) := do
        Selection.assignParameters {} ps
        Selection.coverBlocks schedule.blocks.toList.zipIdx.reverse []
      let (covered, s) ← (run.run { graph := g, schedule, features }).run {}
      return covered.foldl Selection.appendBlock s.stream) := by
  subst h
  rfl

/-- Appended nodes that are dead and are seen: the first argument takes the register of the second
one, and a branch is not covered once it has one more arm. -/
theorem select_append_sees :
    (secondArgument.verify = .ok () ∧ (secondArgument.append [firstArgument]).verify = .ok () ∧
      (∀ exit ∈ secondArgument.exit, ∀ id,
        (secondArgument.append [firstArgument]).Live exit id → id < secondArgument.size) ∧
      ∃ schedule stream stream', Schedule.compute secondArgument = .ok schedule ∧
        Schedule.compute (secondArgument.append [firstArgument]) = .ok schedule ∧
        select secondArgument schedule ⟨0⟩ = .ok stream ∧
        select (secondArgument.append [firstArgument]) schedule ⟨0⟩ = .ok stream' ∧
        stream.code ≠ stream'.code) ∧
    (checkedDouble.verify = .ok () ∧ (checkedDouble.append [spareArm]).verify = .ok () ∧
      (∀ exit ∈ checkedDouble.exit, ∀ id,
        (checkedDouble.append [spareArm]).Live exit id → id < checkedDouble.size) ∧
      ∃ schedule stream fault, Schedule.compute checkedDouble = .ok schedule ∧
        Schedule.compute (checkedDouble.append [spareArm]) = .ok schedule ∧
        select checkedDouble schedule ⟨0⟩ = .ok stream ∧
        select (checkedDouble.append [spareArm]) schedule ⟨0⟩ = .error fault) := by
  have hVerify : secondArgument.verify = .ok () := by decide +kernel
  have hFirst : (secondArgument.append [firstArgument]).verify = .ok () := by decide +kernel
  have hArm : (checkedDouble.append [spareArm]).verify = .ok () := by decide +kernel
  have hDead : ∀ exit ∈ secondArgument.exit, ∀ id,
      (secondArgument.append [firstArgument]).Live exit id → id < secondArgument.size := by
    rintro _ ⟨⟩ id hLive
    exact Graph.lt_of_live_append hVerify ⟨_, rfl⟩ hLive
  refine ⟨⟨hVerify, hFirst, hDead, ?_⟩, checkedDouble_verify, hArm, checkedDouble_dead _, ?_⟩
  · have hRun : ((Schedule.compute secondArgument).toOption.bind fun schedule =>
        (select secondArgument schedule ⟨0⟩).toOption.bind fun stream =>
          (select (secondArgument.append [firstArgument]) schedule ⟨0⟩).toOption.map fun stream' =>
            decide (stream.code = stream'.code)) = some false := by
      -- Sorting does not evaluate, so the sorted parameters are put in its place.
      simp only [select_of_parameters parameters_secondArgument]
      decide +kernel
    obtain ⟨schedule, hCompute, hRun⟩ := Option.bind_eq_some_iff.mp hRun
    obtain ⟨stream, hStream, hRun⟩ := Option.bind_eq_some_iff.mp hRun
    obtain ⟨stream', hStream', hDiffer⟩ := Option.map_eq_some_iff.mp hRun
    have hSame := (Schedule.compute_append hVerify hFirst hDead).trans hCompute
    exact ⟨schedule, stream, stream', toOption_eq_some.mp hCompute, toOption_eq_some.mp hSame,
      toOption_eq_some.mp hStream, toOption_eq_some.mp hStream', of_decide_eq_false hDiffer⟩
  · have hRun : ((Schedule.compute checkedDouble).toOption.bind fun schedule =>
        (select checkedDouble schedule ⟨0⟩).toOption.map fun _ =>
          (select (checkedDouble.append [spareArm]) schedule ⟨0⟩).toOption.isSome) = some false := by
      decide +kernel
    obtain ⟨schedule, hCompute, hRun⟩ := Option.bind_eq_some_iff.mp hRun
    obtain ⟨stream, hStream, hFails⟩ := Option.map_eq_some_iff.mp hRun
    have hSame := (Schedule.compute_append checkedDouble_verify hArm
      (checkedDouble_dead _)).trans hCompute
    cases hSelect : select (checkedDouble.append [spareArm]) schedule ⟨0⟩ with
    | ok other =>
      rw [hSelect] at hFails
      cases hFails
    | error fault =>
      exact ⟨schedule, stream, fault, toOption_eq_some.mp hCompute, toOption_eq_some.mp hSame,
        toOption_eq_some.mp hStream, hSelect⟩

end ArmBackend
