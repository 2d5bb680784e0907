import ArmBackend.Proofs.Schedule.Live

/-!
# Control chains

Following the first control input from node to node leads to the node that starts a block, or to a
node without a control input. The walk ends unless the chain goes round: then it goes on for ever,
and no number of steps is enough for it. That is the one failure of scheduling besides a graph that
is turned down.

## Results

* `Graph.ControlHead.unique` — a control chain leads to one node only.
* `climb_endless` — a walk along a chain that goes round has no end.
* `headOf_settles` — any other walk finds the node that the control chain leads to.
-/

namespace ArmBackend

/-- Whether a fault is about the graph, and not a failure of the program. -/
def Fault.isRejection (f : Fault) : Bool :=
  match f.cause with
  | .malformed _ _ _ | .invalidGraph _ | .floatingControl _ => true
  | _ => false

namespace Graph

variable {g : Graph} {root id u v w h h' : NodeId} {n : Node}

/-- One step of a control chain: the first control input of a node that starts no block. -/
def ControlStep (g : Graph) (w u : NodeId) : Prop :=
  ∃ n, g.node? w = some n ∧ n.op.isHead = false ∧ n.controlCount ≠ 0 ∧ n.controlIn = .ok u

/-- Whether the control chain of some live node goes round. -/
def ControlLoops (g : Graph) (root : NodeId) : Prop :=
  ∃ id, g.Live root id ∧ Relation.TransGen g.ControlStep id id

/-- Whether a node starts a block. -/
def IsHead (g : Graph) (id : NodeId) : Prop :=
  ∃ n, g.node? id = some n ∧ n.op.isHead = true

/-- Whether a node is a join of values or of effects. -/
def IsPhi (g : Graph) (id : NodeId) : Prop :=
  ∃ n, g.node? id = some n ∧ n.op.isPhi = true

/-- Whether the control chain of a node leads to the head `h`. -/
def ControlHead (g : Graph) (id h : NodeId) : Prop :=
  Relation.ReflTransGen g.ControlStep id h ∧ g.IsHead h

/-- Whether scheduling may fail with a fault: it rejects the graph, or the control chain of a live
node goes round. -/
def Rejects (g : Graph) (root : NodeId) (f : Fault) : Prop :=
  f.isRejection = true ∨ (f = .endless ∧ g.ControlLoops root)

/-- A node hangs on one node only. -/
theorem ControlStep.unique (hu : g.ControlStep w u) (hv : g.ControlStep w v) : u = v := by
  obtain ⟨n, hn, -, -, hu⟩ := hu
  obtain ⟨m, hm, -, -, hv⟩ := hv
  obtain rfl : n = m := Option.some.inj (hn.symm.trans hm)
  exact Except.ok.inj (hu.symm.trans hv)

/-- A control chain ends at the first head. -/
theorem IsHead.not_step (h : g.IsHead w) : ¬g.ControlStep w u := by
  rintro ⟨n, hn, hHead, -⟩
  obtain ⟨m, hm, hIs⟩ := h
  obtain rfl : n = m := Option.some.inj (hn.symm.trans hm)
  rw [hIs] at hHead
  cases hHead

/-- A control chain leads to one node only. -/
theorem ControlHead.unique (ha : g.ControlHead id h) (hb : g.ControlHead id h') : h = h' := by
  obtain ⟨hChain, hHead⟩ := ha
  induction hChain using Relation.ReflTransGen.head_induction_on with
  | refl =>
    rcases Relation.ReflTransGen.cases_head hb.1 with hEq | ⟨c, hStep, -⟩
    · exact hEq
    · exact absurd hStep hHead.not_step
  | head hStep _ ih =>
    rcases Relation.ReflTransGen.cases_head hb.1 with rfl | ⟨c, hStep', hChain'⟩
    · exact absurd hStep hb.2.not_step
    · obtain rfl := hStep.unique hStep'
      exact ih ⟨hChain', hb.2⟩

/-- The chain of a head leads to that head. -/
theorem ControlHead.self (hHead : g.IsHead h) : g.ControlHead h h :=
  ⟨.refl, hHead⟩

/-- A node's chain leads where the chain of the node it hangs on leads. -/
theorem ControlHead.step (hStep : g.ControlStep w u) (h : g.ControlHead u h') :
    g.ControlHead w h' :=
  ⟨.head hStep h.1, h.2⟩

/-- What a node hangs on is one of its inputs. -/
theorem ControlStep.hasInput (hWell : g.WellFormed) (h : g.ControlStep w u) : g.HasInput w u := by
  obtain ⟨n, hn, -, hControl, hu⟩ := h
  obtain ⟨v, hv, hInput⟩ := hWell.controlIn hn hControl
  obtain rfl := Except.ok.inj (hu.symm.trans hv)
  exact hInput

/-- All of a live node's control chain is live. -/
theorem Live.chain (hWell : g.WellFormed) (hLive : g.Live root id)
    (hChain : Relation.ReflTransGen g.ControlStep id w) : g.Live root w := by
  induction hChain with
  | refl => exact hLive
  | tail _ hStep ih => exact ih.input (hStep.hasInput hWell)

/-- The head that the chain of a live node leads to is live. -/
theorem ControlHead.live (hWell : g.WellFormed) (hHead : g.ControlHead id h)
    (hLive : g.Live root id) : g.Live root h :=
  hLive.chain hWell hHead.1

/-- A chain that leads to a head does not go round. -/
theorem ControlHead.not_loop (hHead : g.ControlHead id h) :
    ¬Relation.TransGen g.ControlStep id id := by
  obtain ⟨hChain, hIs⟩ := hHead
  induction hChain using Relation.ReflTransGen.head_induction_on with
  | refl =>
    intro hLoop
    obtain ⟨u, hStep, -⟩ := Relation.TransGen.head'_iff.mp hLoop
    exact hIs.not_step hStep
  | head hStep _ ih =>
    -- The step out of the node is the first step of the loop, which goes on to come back to it.
    intro hLoop
    obtain ⟨u, hFirst, hBack⟩ := Relation.TransGen.head'_iff.mp hLoop
    obtain rfl := hStep.unique hFirst
    exact ih (Relation.TransGen.tail' hBack hStep)

/-- A control chain that goes round goes through a join, since no other cycle does without one. -/
theorem ControlLoops.join (hWell : g.WellFormed) (hCycles : g.CyclesJoined)
    (h : g.ControlLoops root) :
    ∃ id, g.Live root id ∧ g.IsPhi id ∧ Relation.TransGen g.ControlStep id id := by
  obtain ⟨id, hLive, hLoop⟩ := h
  have hStep : ∀ {w u}, g.ControlStep w u → g.IsPhi w ∨ g.Depends w u := by
    intro w u hStep
    obtain ⟨m, hm, hu⟩ := hStep.hasInput hWell
    obtain ⟨n, hn, hHead, -⟩ := hStep
    obtain rfl : n = m := Option.some.inj (hn.symm.trans hm)
    by_cases hPhi : n.op.isPhi = true
    · exact .inl ⟨n, hn, hPhi⟩
    · refine .inr ⟨n, hn, ?_, Bool.eq_false_iff.mpr hPhi, hu⟩
      intro hMerge
      rw [hMerge] at hHead
      cases hHead
  -- Along a chain there is a join, or nothing but dependence.
  have hChain : ∀ {u}, Relation.TransGen g.ControlStep id u → Relation.TransGen g.Depends id u ∨
      ∃ w, g.IsPhi w ∧ Relation.ReflTransGen g.ControlStep id w ∧
        Relation.TransGen g.ControlStep w u := by
    intro u hChain
    induction hChain with
    | single hFirst =>
      rcases hStep hFirst with hPhi | hDepends
      · exact .inr ⟨id, hPhi, .refl, .single hFirst⟩
      · exact .inl (.single hDepends)
    | tail hFront hLast ih =>
      rcases ih with hDepends | ⟨w, hPhi, hTo, hFrom⟩
      · rcases hStep hLast with hPhi | hNext
        · exact .inr ⟨_, hPhi, hFront.to_reflTransGen, .single hLast⟩
        · exact .inl (hDepends.tail hNext)
      · exact .inr ⟨w, hPhi, hTo, hFrom.tail hLast⟩
  rcases hChain hLoop with hDepends | ⟨w, hPhi, hTo, hFrom⟩
  · exact absurd hDepends (hCycles id)
  · exact ⟨w, hLive.chain hWell hTo, hPhi, hFrom.trans_left hTo⟩

/-- Where no chain of a live node goes round, no chain does among the live nodes. -/
theorem not_loop_of_live (hLoops : ¬g.ControlLoops root) (id : NodeId) :
    ¬Relation.TransGen (fun w u => g.Live root w ∧ g.ControlStep w u) id id := by
  intro hLoop
  obtain ⟨u, ⟨hLive, -⟩, -⟩ := Relation.TransGen.head'_iff.mp hLoop
  exact hLoops ⟨id, hLive, Relation.TransGen.mono (fun _ _ => And.right) _ _ hLoop⟩

end Graph

namespace Schedule

variable {g : Graph} {root id x : NodeId} {n m : Node}

/-- A walk that has come to no node turns the graph down. -/
theorem climb_negative (hn : g.node? id = some n) (hx : x < 0) {fuel : Nat} :
    ∃ f, headOf.climb g id (fuel + 1) x = .error f ∧ f.isRejection = true := by
  unfold headOf.climb
  rw [if_pos hx, Graph.op_eq_ok.mpr ⟨n, hn, rfl⟩]
  exact ⟨_, rfl, rfl⟩

/-- From a node that hangs on another the walk goes on to that one. -/
theorem climb_step {u : NodeId} (hStep : g.ControlStep x u) (fuel : Nat) :
    headOf.climb g id (fuel + 1) x = headOf.climb g id fuel u := by
  obtain ⟨m, hm, hHead, -, hu⟩ := hStep
  rw [headOf.climb, if_neg (Int.not_lt.mpr (Graph.node?_lt hm).1), Graph.op_eq_ok.mpr ⟨m, hm, rfl⟩,
    ok_bind, if_neg (by simp [hHead]), Graph.controlIn, Graph.node_eq_ok.mpr hm, ok_bind, hu, ok_bind]

/-- A walk along a chain that goes round has no end: every number of steps runs out. -/
theorem climb_endless (hLoop : Relation.TransGen g.ControlStep x x) (fuel : Nat) :
    headOf.climb g id fuel x = .error .endless := by
  induction fuel generalizing x with
  | zero => rfl
  | succ fuel ih =>
    obtain ⟨u, hStep, hBack⟩ := Relation.TransGen.head'_iff.mp hLoop
    rw [climb_step hStep]
    exact ih (Relation.TransGen.tail' hBack hStep)

/-- The walk from a live node of the chain. Where no chain goes round each step leaves less to go,
and where one does the walk may run for ever. -/
theorem climb_settles (hWell : g.WellFormed) (hn : g.node? id = some n) {fuel : Nat}
    (hm : g.node? x = some m) (hLive : g.Live root x)
    (hFuel : g.ControlLoops root ∨
      g.rank (fun w u => g.Live root w ∧ g.ControlStep w u) x + 1 < fuel) :
    Settles (g.Rejects root) (headOf.climb g id fuel x) (g.ControlHead x) := by
  induction fuel generalizing x m with
  | zero =>
    rcases hFuel with hLoops | hLt
    · exact .inr ⟨rfl, hLoops⟩
    · omega
  | succ fuel ih =>
    by_cases hHead : m.op.isHead = true
    · unfold headOf.climb
      rw [if_neg (Int.not_lt.mpr (Graph.node?_lt hm).1), Graph.op_eq_ok.mpr ⟨m, hm, rfl⟩, ok_bind,
        if_pos hHead]
      exact Settles.pure (.self ⟨m, hm, hHead⟩)
    by_cases hControl : m.controlCount = 0
    · -- The chain ends before it comes to a head, and the next round tells.
      unfold headOf.climb
      rw [if_neg (Int.not_lt.mpr (Graph.node?_lt hm).1), Graph.op_eq_ok.mpr ⟨m, hm, rfl⟩, ok_bind,
        if_neg hHead, Graph.controlIn, Graph.node_eq_ok.mpr hm, ok_bind, Node.controlIn,
        if_pos hControl, ok_bind]
      cases fuel with
      | zero =>
        rcases hFuel with hLoops | hLt
        · exact .inr ⟨rfl, hLoops⟩
        · omega
      | succ fuel =>
        obtain ⟨f, hf, hRejection⟩ := climb_negative hn (show (-1 : NodeId) < 0 by decide)
        rw [hf]
        exact .inl hRejection
    · obtain ⟨u, hu, hInput⟩ := hWell.controlIn hm hControl
      obtain ⟨k, hk⟩ := hWell.node_of_input hInput
      have hStep : g.ControlStep x u := ⟨m, hm, Bool.eq_false_iff.mpr hHead, hControl, hu⟩
      rw [climb_step hStep]
      refine (ih hk (hLive.input hInput) ?_).mono fun h hChain => hChain.step hStep
      by_cases hLoops : g.ControlLoops root
      · exact .inl hLoops
      · have hLess := Graph.rank_lt hWell.verify (Graph.not_loop_of_live hLoops) hInput
          ⟨hLive, hStep⟩
        have hLt := hFuel.resolve_left hLoops
        exact .inr (by omega)

/-- The walk from a live node finds the node that the control chain leads to. -/
theorem headOf_settles (hWell : g.WellFormed) (hn : g.node? id = some n)
    (hLive : g.Live root id) :
    Settles (g.Rejects root) (headOf g id) (g.ControlHead id) := by
  unfold headOf
  refine climb_settles hWell hn hn hLive ?_
  by_cases hLoops : g.ControlLoops root
  · exact .inl hLoops
  · have hLess := Graph.rank_lt_size hn (Graph.not_loop_of_live hLoops id)
    exact .inr (by omega)

/-- So does the walk from the control that a live node hangs on. -/
theorem headOf_settles_of_step (hWell : g.WellFormed) {w u : NodeId} (hLive : g.Live root w)
    (hStep : g.ControlStep w u) :
    Settles (g.Rejects root) (headOf g u) (g.ControlHead u) := by
  have hInput := hStep.hasInput hWell
  obtain ⟨n, hn⟩ := hWell.node_of_input hInput
  exact headOf_settles hWell hn (hLive.input hInput)

end Schedule
end ArmBackend
