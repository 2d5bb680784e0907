import ArmBackend.Proofs.Evaluation.Answers
import ArmBackend.Proofs.Schedule.Live
import ArmBackend.Proofs.Uses

/-!
# What a run remembers

A question is answered once, and the answer stays true: where no node depends on itself, a question
is never put again while it is being answered, so nothing that is remembered is written over.
`Remembered g s` says of every answer in `s` that it follows from other answers in `s`, as `Decides`
tells. `Within rank r s s'` says that what was remembered still is and that only nodes of rank below
`r` were asked about; it is what keeps an open question from being answered behind its back.

Besides, an evaluation ends. It fails only with a defect of the graph, never for want of depth.

## Results

* `Truthful.respond` — a question that is answered with the help of true answers is answered truly.
* `answer_truthful` — every question about a live node is answered truly.
* `evaluate_ends` — a run finds a return that is reached, or all of them are not.
-/

namespace ArmBackend

/-- Whether a fault is a defect of the graph or its arguments that an evaluation came across. -/
def Fault.isDefect (f : Fault) : Bool :=
  match f.cause with
  | .malformed _ _ _ | .outOfRange => true
  | _ => false

namespace Machine

/-! ## How steps end -/

/-- `x` ends from `s` with a result and a state as `Q` says, or with a fault and a state as `E`
says. -/
def Ends {α : Type} (x : Eval α) (s : State) (E : Fault → State → Prop) (Q : α → State → Prop) :
    Prop :=
  match x.run.run s with
  | (.ok a, s') => Q a s'
  | (.error f, s') => E f s'

/-- `x` gives a result as `Q` says, unless it comes across a defect. -/
def Gives {α : Type} (x : Eval α) (s : State) (Q : α → State → Prop) : Prop :=
  Ends x s (fun f _ => f.isDefect = true) Q

/-- Whether a look-up fails with a defect only. -/
def Sane {α : Type} (y : Except Fault α) : Prop :=
  ∀ f, y = .error f → f.isDefect = true

section

variable {α β : Type} {x : Eval α} {f : α → Eval β} {s s' : State} {a : α}
  {E E' : Fault → State → Prop} {P Q : α → State → Prop} {y : Except Fault α}

/-- What is known of how a step ends may be weakened. -/
theorem Ends.mono (h : Ends x s E P) (hQ : ∀ a s', P a s' → Q a s')
    (hE : ∀ f s', E f s' → E' f s') : Ends x s E' Q := by
  unfold Ends at *
  split at h
  · exact hQ _ _ h
  · exact hE _ _ h

/-- A sequence ends as its second step does, or early with the fault of its first. -/
theorem Ends.bind {Q : β → State → Prop} (hx : Ends x s E P)
    (hf : ∀ a s', P a s' → Ends (f a) s' E Q) : Ends (x >>= f) s E Q := by
  unfold Ends at hx
  unfold Ends
  simp only [ExceptT.run_bind, StateT.run_bind]
  split at hx
  · next a s' hRun =>
    rw [hRun]
    exact hf a s' hx
  · next fault s' hRun =>
    rw [hRun]
    exact hx

/-- A step that runs through ends with a result. -/
theorem Ends.of_runs (h : Ends x s E Q) (hRuns : Runs x s a s') : Q a s' := by
  unfold Ends at h
  rw [hRuns] at h
  exact h

/-- A look-up ends in the state that it started from. -/
theorem Ends.lift (hError : ∀ f, y = .error f → E f s) (hOk : ∀ a, y = .ok a → Q a s) :
    Ends (liftM y : Eval α) s E Q := by
  cases y with
  | ok a => exact hOk a rfl
  | error f => exact hError f rfl

theorem Ends.pure (h : Q a s) : Ends (Pure.pure a : Eval α) s E Q :=
  h

/-- A check either fails or lets the rest go on. -/
theorem Ends.unless {Q : β → State → Prop} {c : Prop} [Decidable c] {fault : Fault}
    {f : PUnit → Eval β} (hFail : c → E fault s) (hf : ¬c → Ends (f ⟨⟩) s E Q) :
    Ends (if c then MonadExcept.throw fault >>= f else f ⟨⟩) s E Q := by
  split
  · next hc => exact hFail hc
  · next hc => exact hf hc

/-- What is known of a result may be weakened. -/
theorem Gives.mono (h : Gives x s P) (hQ : ∀ a s', P a s' → Q a s') : Gives x s Q :=
  Ends.mono h hQ fun _ _ => id

/-- A sequence gives what its second step gives of the result of the first. -/
theorem Gives.bind {Q : β → State → Prop} (hx : Gives x s P)
    (hf : ∀ a s', P a s' → Gives (f a) s' Q) : Gives (x >>= f) s Q :=
  Ends.bind hx hf

/-- A look-up leaves the state alone. -/
theorem Gives.look {Q : β → State → Prop} (hSane : Sane y)
    (hf : ∀ a, y = .ok a → Gives (f a) s Q) : Gives (liftM y >>= f) s Q :=
  Ends.bind (P := fun a s' => y = .ok a ∧ s' = s)
    (Ends.lift hSane fun _ hy => ⟨hy, rfl⟩) fun a _ ⟨hy, hs⟩ => hs ▸ hf a hy

theorem Gives.get {f : State → Eval β} {Q : β → State → Prop} (h : Gives (f s) s Q) :
    Gives (MonadState.get >>= f) s Q :=
  h

theorem Gives.throw {fault : Fault} (h : fault.isDefect = true) :
    Gives (MonadExcept.throw fault : Eval α) s Q :=
  h

end

section

variable {g : Graph} {id : NodeId} {n : Node}

/-- Looking up a node fails only out of range. -/
theorem sane_node : Sane (g.node id) := by
  intro f hf
  unfold Graph.node at hf
  split at hf <;> cases hf
  rfl

/-- Looking up an input fails only out of range. -/
theorem sane_input {i : Int} : Sane (n.input i) := by
  intro f hf
  unfold Node.input at hf
  split at hf
  · cases hf
    rfl
  · split at hf <;> cases hf
    rfl

/-- Looking up a stretch of inputs fails only out of range. -/
theorem sane_inputsBetween {i j : Int} : Sane (n.inputsBetween i j) := by
  intro f hf
  unfold Node.inputsBetween at hf
  split at hf <;> cases hf
  rfl

/-- A missing control input is no fault. -/
theorem sane_controlIn : Sane n.controlIn := by
  intro f hf
  unfold Node.controlIn at hf
  split at hf
  · cases hf
  · exact sane_input f hf

/-- A missing effect input is no fault. -/
theorem sane_effectIn : Sane n.effectIn := by
  intro f hf
  unfold Node.effectIn at hf
  split at hf
  · cases hf
  · exact sane_input f hf

/-- Look-ups in sequence fail with a defect only if each of them does. -/
theorem Sane.bind {α β : Type} {y : Except Fault α} {f : α → Except Fault β} (hy : Sane y)
    (hf : ∀ a, Sane (f a)) : Sane (y >>= f) := by
  cases y with
  | ok a => exact hf a
  | error fault =>
    rintro _ ⟨⟩
    exact hy fault rfl

theorem sane_graph_controlIn : Sane (g.controlIn id) :=
  sane_node.bind fun _ => sane_controlIn

/-- A missing value input is a malformed node. -/
theorem sane_valueIn {i : Int} : Sane (g.valueIn id i) := by
  refine sane_node.bind fun n => ?_
  split
  · intro f hf
    cases hf
    rfl
  · exact sane_input

/-! ## Inputs -/

/-- The effect input is no node or one of the inputs. -/
theorem mem_of_effectIn {x : NodeId} (h : n.effectIn = .ok x) : x < 0 ∨ x ∈ n.inputs := by
  unfold Node.effectIn at h
  split at h
  · cases h
    exact .inl (by decide)
  · exact .inr (Node.mem_inputs h)

/-- A stretch of inputs consists of inputs. -/
theorem mem_of_inputsBetween {i j : Int} {l : List NodeId} (h : n.inputsBetween i j = .ok l) :
    ∀ x ∈ l, x ∈ n.inputs := by
  intro x hx
  unfold Node.inputsBetween at h
  split at h
  · cases h
    exact List.mem_of_mem_take (List.mem_of_mem_drop hx)
  · cases h

/-- The control input in the graph is that of the node. -/
theorem controlIn_eq_ok {x : NodeId} (h : g.controlIn id = .ok x) :
    ∃ n, g.node? id = some n ∧ n.controlIn = .ok x := by
  obtain ⟨n, hn, hx⟩ := bind_eq_ok.mp h
  exact ⟨n, Graph.node_eq_ok.mp hn, hx⟩

/-- A value input is an input. -/
theorem hasInput_of_valueIn {i : Int} {x : NodeId} (h : g.valueIn id i = .ok x) :
    g.HasInput id x := by
  obtain ⟨n, hn, hx⟩ := bind_eq_ok.mp h
  refine ⟨n, Graph.node_eq_ok.mp hn, ?_⟩
  split at hx
  · cases hx
  · exact Node.mem_inputs hx

end

/-! ## Answers that follow from others -/

/-- How an answer to whether a node is reached follows from what is remembered. -/
inductive Decides (g : Graph) (s : State) (id : NodeId) : Bool → Prop
  | start (hOp : g.HasOp id .start) : Decides g s id true
  | merge {n : Node} {x : NodeId} (hn : g.node? id = some n) (hOp : n.op = .merge)
      (hx : x ∈ n.inputs) (hReached : s.reached x = some true) : Decides g s id true
  | unmerged {n : Node} (hn : g.node? id = some n) (hOp : n.op = .merge)
      (hAll : ∀ x ∈ n.inputs, s.reached x = some false) : Decides g s id false
  | arm {n : Node} {branch control condition : NodeId} {v : BitVec 64} (hn : g.node? id = some n)
      (hOp : n.op = .ifTrue ∨ n.op = .ifFalse) (hBranch : n.input 0 = .ok branch)
      (hControl : g.controlIn branch = .ok control) (hReached : s.reached control = some true)
      (hCondition : g.valueIn branch 0 = .ok condition) (hv : s.values condition = some v) :
      Decides g s id ((v != 0) == (n.op == .ifTrue))
  | unbranched {n : Node} {branch control : NodeId} (hn : g.node? id = some n)
      (hOp : n.op = .ifTrue ∨ n.op = .ifFalse) (hBranch : n.input 0 = .ok branch)
      (hControl : g.controlIn branch = .ok control) (hReached : s.reached control = some false) :
      Decides g s id false
  | passes {n : Node} {control : NodeId} {b : Bool} (hn : g.node? id = some n)
      (hHead : n.op.isHead = false) (hControl : n.controlIn = .ok control)
      (hReached : s.reached control = some b) : Decides g s id b

/-- Whether every answer that is remembered follows from others that are. -/
def Remembered (g : Graph) (s : State) : Prop :=
  ∀ id b, s.reached id = some b → Decides g s id b

/-- Whether what is remembered in `s` is remembered in `s'`. -/
structure Recalled (s s' : State) : Prop where
  reached : ∀ {id b}, s.reached id = some b → s'.reached id = some b
  values : ∀ {id v}, s.values id = some v → s'.values id = some v

/-- Whether the evaluation went on from `s` to `s'` and asked about ranks below `r` only. -/
structure Within (rank : NodeId → Nat) (r : Nat) (s s' : State) : Prop where
  recalled : Recalled s s'
  reached : ∀ {id}, r ≤ rank id → s'.reached id = s.reached id
  values : ∀ {id}, r ≤ rank id → s'.values id = s.values id

section

variable {g : Graph} {rank : NodeId → Nat} {r r' : Nat} {s s' s'' : State} {id : NodeId} {b : Bool}

/-- An answer that follows from others still follows when more is remembered. -/
theorem Decides.mono (h : Decides g s id b) (hs : Recalled s s') : Decides g s' id b := by
  cases h with
  | start hOp => exact .start hOp
  | merge hn hOp hx hReached => exact .merge hn hOp hx (hs.reached hReached)
  | unmerged hn hOp hAll => exact .unmerged hn hOp fun x hx => hs.reached (hAll x hx)
  | arm hn hOp hBranch hControl hReached hCondition hv =>
    exact .arm hn hOp hBranch hControl (hs.reached hReached) hCondition (hs.values hv)
  | unbranched hn hOp hBranch hControl hReached =>
    exact .unbranched hn hOp hBranch hControl (hs.reached hReached)
  | passes hn hHead hControl hReached => exact .passes hn hHead hControl (hs.reached hReached)

theorem Recalled.refl (s : State) : Recalled s s :=
  ⟨fun h => h, fun h => h⟩

theorem Recalled.trans (h : Recalled s s') (h' : Recalled s' s'') : Recalled s s'' :=
  ⟨fun hb => h'.reached (h.reached hb), fun hv => h'.values (h.values hv)⟩

theorem Within.refl (s : State) : Within rank r s s :=
  ⟨.refl s, fun _ => rfl, fun _ => rfl⟩

/-- Stretches of a run that keep to low ranks do so together. -/
theorem Within.trans (h : Within rank r s s') (h' : Within rank r s' s'') :
    Within rank r s s'' :=
  ⟨h.recalled.trans h'.recalled, fun hr => (h'.reached hr).trans (h.reached hr),
    fun hr => (h'.values hr).trans (h.values hr)⟩

theorem Within.mono (h : Within rank r s s') (hr : r ≤ r') : Within rank r' s s' :=
  ⟨h.recalled, fun hLe => h.reached (hr.trans hLe), fun hLe => h.values (hr.trans hLe)⟩

/-- The heap and the effects are not among the answers. -/
theorem Remembered.of_same (h : Remembered g s) (hReached : s'.reached = s.reached)
    (hValues : s'.values = s.values) : Remembered g s' ∧ Within rank r s s' := by
  have hWithin : Within rank r s s' :=
    ⟨⟨fun hb => by rw [hReached]; exact hb, fun hv => by rw [hValues]; exact hv⟩,
      fun _ => by rw [hReached], fun _ => by rw [hValues]⟩
  exact ⟨fun id b hb => (h id b (by rw [← hReached]; exact hb)).mono hWithin.recalled, hWithin⟩

/-- A new answer may be remembered when it follows from the others. -/
theorem Remembered.learn_reached (h : Remembered g s) (rank : NodeId → Nat)
    (hNone : s.reached id = none) (hDecides : Decides g s id b) :
    Remembered g { s with reached := fun x => if x = id then some b else s.reached x } ∧
      Within rank (rank id + 1) s
        { s with reached := fun x => if x = id then some b else s.reached x } := by
  have hOther : ∀ {x}, x ≠ id →
      (if x = id then some b else s.reached x) = s.reached x := fun hx => if_neg hx
  have hWithin : Within rank (rank id + 1) s
      { s with reached := fun x => if x = id then some b else s.reached x } := by
    refine ⟨⟨fun {x c} hc => ?_, fun hv => hv⟩, fun {x} hr => hOther ?_, fun _ => rfl⟩
    · refine (hOther ?_).trans hc
      rintro rfl
      rw [hNone] at hc
      cases hc
    · rintro rfl
      omega
  -- The new answer follows as was said, and the others as they did before.
  refine ⟨fun x c hc => ?_, hWithin⟩
  by_cases hx : x = id
  · subst hx
    obtain rfl : b = c := by simpa using hc
    exact hDecides.mono hWithin.recalled
  · exact (h x c ((hOther hx).symm.trans hc)).mono hWithin.recalled

/-- A new value may be remembered: no answer on control follows from a value that was not there. -/
theorem Remembered.learn_value (h : Remembered g s) (rank : NodeId → Nat) (v : BitVec 64)
    (hNone : s.values id = none) :
    Remembered g { s with values := fun x => if x = id then some v else s.values x } ∧
      Within rank (rank id + 1) s
        { s with values := fun x => if x = id then some v else s.values x } := by
  have hOther : ∀ {x}, x ≠ id →
      (if x = id then some v else s.values x) = s.values x := fun hx => if_neg hx
  have hWithin : Within rank (rank id + 1) s
      { s with values := fun x => if x = id then some v else s.values x } := by
    refine ⟨⟨fun hb => hb, fun {x w} hw => ?_⟩, fun _ => rfl, fun {x} hr => hOther ?_⟩
    · -- what was remembered is of another node
      refine (hOther ?_).trans hw
      rintro rfl
      rw [hNone] at hw
      cases hw
    · rintro rfl
      omega
  exact ⟨fun x c hc => (h x c hc).mono hWithin.recalled, hWithin⟩

end

/-! ## Asking below a rank -/

/-- Whether live nodes exist and `rank` goes down from each to its inputs. -/
structure Ranked (g : Graph) (root : NodeId) (rank : NodeId → Nat) : Prop where
  node : ∀ {id}, g.Live root id → ∃ n, g.node? id = some n
  lt : ∀ {w u}, g.Live root w → g.HasInput w u → rank u < rank w

/-- Where no node that `root` depends on depends on itself, ranks go down from node to input. -/
theorem exists_ranked {g : Graph} {root : NodeId} (hVerify : g.verify = .ok ())
    (hRoot : ∃ n, g.node? root = some n)
    (hAcyclic : ∀ id, g.Live root id → ¬Relation.TransGen g.HasInput id id) :
    ∃ rank, Ranked g root rank ∧ ∀ id, g.Live root id → rank id < g.size := by
  have hNode : ∀ {id}, g.Live root id → ∃ n, g.node? id = some n := fun hLive =>
    hLive.node_of_verify hVerify hRoot
  have hNone : ∀ id, ¬Relation.TransGen (fun w u => g.Live root w ∧ g.HasInput w u) id id := by
    intro id hCycle
    obtain ⟨u, ⟨hLive, -⟩, -⟩ := Relation.TransGen.head'_iff.mp hCycle
    exact hAcyclic id hLive (Relation.TransGen.mono (fun _ _ => And.right) _ _ hCycle)
  refine ⟨g.rank fun w u => g.Live root w ∧ g.HasInput w u, ⟨hNode, fun hLive hInput =>
    Graph.rank_lt hVerify hNone hInput ⟨hLive, hInput⟩⟩, fun id hLive => ?_⟩
  obtain ⟨n, hn⟩ := hNode hLive
  exact Graph.rank_lt_size hn (hNone id)

/-- Whether a question may be put that must not go above rank `r`: it is about a live node below, or
about no node. -/
def Below (g : Graph) (root : NodeId) (rank : NodeId → Nat) (r : Nat) (id : NodeId) : Prop :=
  id < 0 ∨ (g.Live root id ∧ rank id < r)

/-- Whether `x` keeps to ranks below `r` and leaves answers that follow from each other. -/
def Quiet {α : Type} (g : Graph) (rank : NodeId → Nat) (r : Nat) (x : Eval α) : Prop :=
  ∀ s, Remembered g s → Gives x s fun _ s' => Remembered g s' ∧ Within rank r s s'

/-- `ask` answers questions truly, as far as depth `d` goes. An effect needs one step more than a
value, as it asks for the value of its own node. -/
structure Truthful (g : Graph) (root : NodeId) (rank : NodeId → Nat) (ask : Ask) (d : Nat) :
    Prop where
  reached : ∀ {r id s}, Below g root rank r id → 2 * r ≤ d → 0 < d → Remembered g s →
    Gives (ask (.reached id)) s fun b s' =>
      Remembered g s' ∧ Within rank r s s' ∧ s'.reached id = some b
  value : ∀ {r id s}, Below g root rank r id → 2 * r ≤ d → 0 < d → Remembered g s →
    Gives (ask (.value id)) s fun v s' =>
      Remembered g s' ∧ Within rank r s s' ∧ s'.values id = some v
  effect : ∀ {r id}, Below g root rank r id → 2 * r + 1 ≤ d → Quiet g rank r (ask (.effect id))

section

variable {α β : Type} {g : Graph} {rank : NodeId → Nat} {r r' : Nat} {x : Eval α} {f : α → Eval β}

theorem Quiet.pure (a : α) : Quiet g rank r (Pure.pure a : Eval α) :=
  fun s hs => ⟨hs, .refl s⟩

/-- Steps that keep to low ranks do so in sequence. -/
theorem Quiet.bind (hx : Quiet g rank r x) (hf : ∀ a, Quiet g rank r (f a)) :
    Quiet g rank r (x >>= f) := by
  intro s hs
  refine (hx s hs).bind fun a s' ⟨hs', hWithin⟩ => ?_
  exact (hf a s' hs').mono fun _ _ ⟨hs'', hWithin'⟩ => ⟨hs'', hWithin.trans hWithin'⟩

/-- A look-up asks nothing. -/
theorem Quiet.look {y : Except Fault α} (hSane : Sane y)
    (hf : ∀ a, y = .ok a → Quiet g rank r (f a)) : Quiet g rank r (liftM y >>= f) :=
  fun s hs => Gives.look hSane fun a ha => hf a ha s hs

theorem Quiet.throw {fault : Fault} (h : fault.isDefect = true) :
    Quiet g rank r (MonadExcept.throw fault : Eval α) :=
  fun _ _ => Gives.throw h

/-- A check that fails with a defect. -/
theorem Quiet.unless {c : Prop} [Decidable c] {fault : Fault} {f : PUnit → Eval β}
    (h : fault.isDefect = true) (hf : Quiet g rank r (f ⟨⟩)) :
    Quiet g rank r (if c then MonadExcept.throw fault >>= f else f ⟨⟩) :=
  fun s hs => Ends.unless (fun _ => h) fun _ => hf s hs

/-- An access touches the heap and the journal, which are not among the answers. -/
theorem Quiet.access (id : NodeId) (act : Heap → Heap × BitVec 64) :
    Quiet g rank r (Machine.access id act) :=
  fun _ hs => hs.of_same rfl rfl

/-- A step for each of a list keeps to low ranks if each step does. -/
theorem Quiet.forM {l : List NodeId} {step : NodeId → Eval Unit}
    (h : ∀ x ∈ l, Quiet g rank r (step x)) : Quiet g rank r (l.forM step) := by
  induction l with
  | nil => exact .pure _
  | cons a rest ih =>
    exact (h a List.mem_cons_self).bind fun _ => ih fun x hx => h x (List.mem_cons_of_mem _ hx)

end

section

variable {env : Env} {root : NodeId} {rank : NodeId → Nat} {ask : Ask} {d r : Nat} {s : State}
  {id x : NodeId} {n : Node}

/-- What may be asked of a node may be asked of its inputs, which have lower ranks. -/
theorem Below.input (hRanked : Ranked env.graph root rank) (hn : env.graph.node? id = some n)
    (hBelow : Below env.graph root rank r id) (hx : x ∈ n.inputs) :
    Below env.graph root rank r x := by
  rcases hBelow with hNeg | ⟨hLive, hLt⟩
  · exact absurd hNeg (Int.not_lt.mpr (Graph.node?_lt hn).1)
  · have hInput : env.graph.HasInput id x := ⟨n, hn, hx⟩
    exact .inr ⟨hLive.input hInput, (hRanked.lt hLive hInput).trans hLt⟩

/-- A node may ask about its inputs, and about no node. -/
theorem below_of_input (hRanked : Ranked env.graph root rank) (hLive : env.graph.Live root id)
    (hn : env.graph.node? id = some n) (hx : x < 0 ∨ x ∈ n.inputs) :
    Below env.graph root rank (rank id) x := by
  rcases hx with hNeg | hx
  · exact .inl hNeg
  · have hInput : env.graph.HasInput id x := ⟨n, hn, hx⟩
    exact .inr ⟨hLive.input hInput, hRanked.lt hLive hInput⟩

/-! ### Parameters and constants -/

/-- An external name gets an object in the table, but none on the heap is allocated for it. -/
theorem allocs_external (h : Heap) (name : String) : (h.external name).1.allocs = h.allocs := by
  unfold Heap.external
  dsimp only
  split <;> rfl

/-- An argument is looked up without a trace. There is none for an index that is too high, and for
one below zero the look-up is out of range. -/
theorem argument_ends : Ends (argument env id n) s
    (fun f s' => s' = s ∧ (f = .malformed id n.op (.noArgument n.int) ∨
      n.int < 0 ∧ f = .outOfRange)) fun _ s' => s' = s := by
  unfold argument
  refine Ends.unless (fun _ => ⟨rfl, .inl rfl⟩) fun _ => ?_
  refine Ends.unless (fun hIndex => ⟨rfl, .inr ⟨hIndex, rfl⟩⟩) fun _ => ?_
  dsimp only
  split <;> exact Eq.refl s

/-- A constant is looked up without a trace but on the heap, where the object of an external name may
be new to the table. No object is allocated for it. -/
theorem constant_ends (kind : ConstantKind) : Ends (constantValue id n kind) s
    (fun f s' => s' = s ∧ f = .malformed id n.op (.unknownHeapConstant n.name))
    fun _ s' => ∃ heap : Heap, s' = { s with heap } ∧ heap.allocs = s.heap.allocs := by
  have hSame : ∃ heap : Heap, s = { s with heap } ∧ heap.allocs = s.heap.allocs :=
    ⟨s.heap, rfl, rfl⟩
  cases kind with
  | int32 | int64 | float64 => exact Ends.pure hSame
  | external => exact ⟨_, rfl, allocs_external s.heap n.name⟩
  | heap =>
    unfold constantValue
    dsimp only
    split
    · exact hSame
    · split
      · exact hSame
      · exact ⟨rfl, rfl⟩

/-- Looking up an argument asks nothing. -/
theorem quiet_argument : Quiet env.graph rank r (argument env id n) := by
  refine fun s hs => argument_ends.mono ?_ ?_
  · rintro _ _ rfl
    exact ⟨hs, .refl _⟩
  · rintro _ _ ⟨-, rfl | ⟨-, rfl⟩⟩ <;> rfl

/-- Looking up a constant asks nothing. -/
theorem quiet_constant (kind : ConstantKind) :
    Quiet env.graph rank r (constantValue id n kind) := by
  refine fun s hs => (constant_ends kind).mono ?_ ?_
  · rintro _ _ ⟨heap, rfl, -⟩
    exact hs.of_same rfl rfl
  · rintro _ _ ⟨-, rfl⟩
    rfl

namespace Truthful

/-- Asking for the value of a node below keeps to low ranks. -/
theorem quiet_value (hAsk : Truthful env.graph root rank ask d) (hd : 2 * r + 1 ≤ d)
    (hBelow : Below env.graph root rank r x) : Quiet env.graph rank r (ask (.value x)) :=
  fun _ hs => (hAsk.value hBelow (by omega) (by omega) hs).mono
    fun _ _ ⟨hs', hWithin, _⟩ => ⟨hs', hWithin⟩

/-- The first of the listed control nodes that is reached. -/
theorem firstReached (hAsk : Truthful env.graph root rank ask d) (hd : 2 * r ≤ d) (hPos : 0 < d)
    {xs : List NodeId} (hBelow : ∀ x ∈ xs, Below env.graph root rank r x) {i : Nat}
    (hs : Remembered env.graph s) :
    Gives (Machine.firstReached ask i xs) s fun index s' =>
      Remembered env.graph s' ∧ Within rank r s s' ∧ match index with
        | some k => ∃ j x, k = i + j ∧ xs[j]? = some x ∧ s'.reached x = some true
        | none => ∀ x ∈ xs, s'.reached x = some false := by
  -- The induction is on the list, with the position of its head in the whole list.
  induction xs generalizing i s with
  | nil => exact ⟨hs, .refl s, nofun⟩
  | cons y rest ih =>
    refine (hAsk.reached (hBelow y List.mem_cons_self) hd hPos hs).bind ?_
    rintro b s' ⟨hs', hWithin, hy⟩
    cases b with
    | true => exact ⟨hs', hWithin, 0, y, rfl, rfl, hy⟩
    | false =>
      refine (ih (fun x hx => hBelow x (List.mem_cons_of_mem _ hx)) hs').mono ?_
      rintro index s'' ⟨hs'', hWithin', hIndex⟩
      refine ⟨hs'', hWithin.trans hWithin', ?_⟩
      cases index with
      | some k =>
        obtain ⟨j, x, hk, hx, hReached⟩ := hIndex
        exact ⟨j + 1, x, by omega, hx, hReached⟩
      | none =>
        intro x hx
        -- The head was not reached when it was asked for, and that lasts.
        rcases List.mem_cons.mp hx with rfl | hRest
        · exact hWithin'.recalled.reached hy
        · exact hIndex x hRest

/-- The index of the input of a merge that is taken. -/
theorem takenInput (hAsk : Truthful env.graph root rank ask d) (hRanked : Ranked env.graph root rank)
    (hd : 2 * r ≤ d) (hPos : 0 < d) (hBelow : Below env.graph root rank r id)
    (hs : Remembered env.graph s) :
    Gives (Machine.takenInput env ask id) s fun k s' =>
      Remembered env.graph s' ∧ Within rank r s s' ∧ ∃ n x, env.graph.node? id = some n ∧
        n.inputs[k]? = some x ∧ s'.reached x = some true := by
  unfold Machine.takenInput
  refine Gives.look sane_node fun n hn => ?_
  have hn' := Graph.node_eq_ok.mp hn
  refine (hAsk.firstReached hd hPos (fun x hx => hBelow.input hRanked hn' hx) hs).bind ?_
  rintro index s' ⟨hs', hWithin, hIndex⟩
  cases index with
  | none => exact Gives.throw rfl
  | some k =>
    obtain ⟨j, x, rfl, hx, hReached⟩ := hIndex
    refine ⟨hs', hWithin, n, x, hn', ?_, hReached⟩
    rw [Nat.zero_add]
    exact hx

/-- The input of a join that is taken is an input. -/
theorem takenValue (hAsk : Truthful env.graph root rank ask d) (hRanked : Ranked env.graph root rank)
    (hLive : env.graph.Live root id) (hn : env.graph.node? id = some n) (hd : 2 * rank id + 1 ≤ d)
    {α : Type} {f : NodeId → Eval α} (hf : ∀ x ∈ n.inputs, Quiet env.graph rank (rank id) (f x)) :
    Quiet env.graph rank (rank id) (Machine.takenValue env ask n >>= f) := by
  unfold Machine.takenValue
  rw [bind_assoc]
  refine Quiet.look sane_controlIn fun merge hMerge => ?_
  rw [bind_assoc]
  refine Quiet.bind (fun s hs => ?_) fun index =>
    Quiet.look sane_input fun x hx => hf x (Node.mem_inputs hx)
  exact (hAsk.takenInput hRanked (by omega) (by omega)
    (below_of_input hRanked hLive hn (Node.mem_of_controlIn hMerge)) hs).mono
      fun _ _ ⟨hs', hWithin, _⟩ => ⟨hs', hWithin⟩

/-! ## Values -/

section

variable (hAsk : Truthful env.graph root rank ask d) (hRanked : Ranked env.graph root rank)
  (hLive : env.graph.Live root id) (hn : env.graph.node? id = some n) (hd : 2 * rank id + 1 ≤ d)

include hAsk hRanked hLive hn hd

/-- Asking for the value of an input keeps below the node. -/
theorem quiet_inputValue (i : Int) : Quiet env.graph rank (rank id) (inputValue ask n i) :=
  Quiet.look sane_input fun _ hx =>
    hAsk.quiet_value hd (below_of_input hRanked hLive hn (.inr (Node.mem_inputs hx)))

/-- Asking for the effect input first keeps below the node. -/
theorem quiet_effectIn {α : Type} {f : Unit → Eval α}
    (hf : ∀ u, Quiet env.graph rank (rank id) (f u)) :
    Quiet env.graph rank (rank id) (do let e ← n.effectIn; ask (.effect e) >>= f) :=
  Quiet.look sane_effectIn fun _ he =>
    (hAsk.effect (below_of_input hRanked hLive hn (mem_of_effectIn he)) hd).bind hf

/-- A projection looks past the operation at its inputs. -/
theorem quiet_projection : Quiet env.graph rank (rank id) (projectionValue env ask id n) := by
  unfold projectionValue
  refine Quiet.look sane_input fun x hx => Quiet.look sane_node fun operation hOperation => ?_
  have hBelow := below_of_input hRanked hLive hn (.inr (Node.mem_inputs hx))
  have hInput : ∀ i, Quiet env.graph rank (rank id) (inputValue ask operation i) := fun i =>
    Quiet.look sane_input fun y hy => hAsk.quiet_value hd
      (hBelow.input hRanked (Graph.node_eq_ok.mp hOperation) (Node.mem_inputs hy))
  split
  · exact hAsk.quiet_value hd hBelow
  · refine (hInput 0).bind fun left => (hInput 1).bind fun right => ?_
    dsimp only
    split
    · exact .pure _
    · exact .throw rfl

/-- A call asks for its effect input and its size, and looks at its target. -/
theorem quiet_call : Quiet env.graph rank (rank id) (callValue env ask id n) := by
  unfold callValue
  refine quiet_effectIn hAsk hRanked hLive hn hd fun _ => ?_
  refine Quiet.look sane_input fun _ _ => Quiet.look sane_node fun _ _ => ?_
  exact Quiet.unless rfl
    ((quiet_inputValue hAsk hRanked hLive hn hd 1).bind fun _ => .access _ _)

/-- The value of a node is computed from answers about its inputs, or those of its operation. -/
theorem quiet_compute : Quiet env.graph rank (rank id) (compute env ask id) := by
  have hInput := quiet_inputValue hAsk hRanked hLive hn hd
  have hWords : ∀ f : BitVec 64 → BitVec 64 → BitVec 64, Quiet env.graph rank (rank id) (do
      let x ← inputValue ask n 0
      let y ← inputValue ask n 1
      return f x y) := fun f =>
    (hInput 0).bind fun _ => (hInput 1).bind fun _ => .pure _
  unfold compute
  refine Quiet.look sane_node fun m hm => ?_
  obtain rfl : n = m := Option.some.inj (hn.symm.trans (Graph.node_eq_ok.mp hm))
  dsimp only
  split
  · -- a parameter
    exact quiet_argument
  · -- a constant
    exact quiet_constant _
  · -- a join asks for the input of the way that was taken
    refine hAsk.takenValue hRanked hLive hn hd fun x hx => ?_
    exact hAsk.quiet_value hd (below_of_input hRanked hLive hn (.inr hx))
  · -- a projection
    exact quiet_projection hAsk hRanked hLive hn hd
  · -- the end of a region asks for its effect before its value
    refine Quiet.look sane_input fun x hx => ?_
    exact (hAsk.effect (below_of_input hRanked hLive hn (.inr (Node.mem_inputs hx))) hd).bind
      fun _ => hInput 0
  · -- a call
    exact quiet_call hAsk hRanked hLive hn hd
  · -- a load
    exact quiet_effectIn hAsk hRanked hLive hn hd fun _ =>
      (hInput 0).bind fun _ => (hInput 1).bind fun _ => .access _ _
  · -- a store
    exact quiet_effectIn hAsk hRanked hLive hn hd fun _ => (hInput 0).bind fun _ =>
      (hInput 1).bind fun _ => (hInput 2).bind fun _ => .access _ _
  · -- operators on two words, but for the one conversion among them
    exact hWords _
  · exact hWords _
  · exact hWords _
  · exact (hInput 0).bind fun _ => .pure _
  · exact hWords _
  · -- a change
    exact quiet_effectIn hAsk hRanked hLive hn hd fun _ => (hInput 0).bind fun _ => .access _ _
  · exact .throw rfl

/-! ## Effects -/

/-- Running an effect asks for the value of its own node too. -/
theorem quiet_runEffect (hd' : 2 * rank id + 2 ≤ d) :
    Quiet env.graph rank (rank id + 1) (runEffect env ask id) := by
  have hBelow : ∀ {x}, x < 0 ∨ x ∈ n.inputs → Below env.graph root rank (rank id) x :=
    fun hx => below_of_input hRanked hLive hn hx
  have hRaise : ∀ {α : Type} {x : Eval α}, Quiet env.graph rank (rank id) x →
      Quiet env.graph rank (rank id + 1) x := fun h s hs =>
    (h s hs).mono fun _ _ ⟨hs', hWithin⟩ => ⟨hs', hWithin.mono (Nat.le_succ _)⟩
  unfold runEffect
  refine Quiet.look sane_node fun m hm => ?_
  obtain rfl : n = m := Option.some.inj (hn.symm.trans (Graph.node_eq_ok.mp hm))
  split
  · exact .pure _
  · exact .pure _
  · exact .pure _
  · -- a join of effects runs those of the way that was taken
    exact hRaise (hAsk.takenValue hRanked hLive hn hd fun x hx => hAsk.effect (hBelow (.inr hx)) hd)
  · -- any other effect runs those that come in, and then asks for its own value
    refine Quiet.look sane_inputsBetween fun l hl => ?_
    refine Quiet.bind (hRaise (.forM fun x hx => ?_)) fun _ => ?_
    · exact hAsk.effect (hBelow (.inr (mem_of_inputsBetween hl x hx))) hd
    · split
      all_goals first
        | exact .pure _
        | exact Quiet.bind (fun s hs => (hAsk.value (.inr ⟨hLive, Nat.lt_succ_self _⟩)
            (by omega) (by omega) hs).mono fun _ _ ⟨hs', hWithin, _⟩ => ⟨hs', hWithin⟩)
            fun _ => .pure _

/-! ## Control -/

/-- Whether a node is reached is decided from answers about its control inputs, by the rule of its
operator. -/
theorem decideReached (hs : Remembered env.graph s) :
    Gives (Machine.decideReached env ask id) s fun b s' =>
      Remembered env.graph s' ∧ Within rank (rank id) s s' ∧ Decides env.graph s' id b := by
  have hBelow : ∀ {x}, x < 0 ∨ x ∈ n.inputs → Below env.graph root rank (rank id) x :=
    fun hx => below_of_input hRanked hLive hn hx
  unfold Machine.decideReached
  refine Gives.look sane_node fun m hm => ?_
  obtain rfl : n = m := Option.some.inj (hn.symm.trans (Graph.node_eq_ok.mp hm))
  -- The arms of a branch are asked for in the same way, but for the sense of the condition.
  have hArm : n.op = .ifTrue ∨ n.op = .ifFalse → Gives (do
      let branch ← n.input 0
      if ← ask (.reached (← env.graph.controlIn branch)) then
        let condition ← ask (.value (← env.graph.valueIn branch 0))
        return (condition != 0) == (n.op == .ifTrue)
      return false) s fun b s' =>
        Remembered env.graph s' ∧ Within rank (rank id) s s' ∧ Decides env.graph s' id b := by
    intro hOp
    refine Gives.look sane_input fun branch hBranch => ?_
    refine Gives.look sane_graph_controlIn fun control hControl => ?_
    have hIn := hBelow (.inr (Node.mem_inputs hBranch))
    obtain ⟨bn, hbn, hControl'⟩ := controlIn_eq_ok hControl
    have hControlBelow : Below env.graph root rank (rank id) control := by
      rcases Node.mem_of_controlIn hControl' with hNeg | hMem
      · exact .inl hNeg
      · exact hIn.input hRanked hbn hMem
    refine (hAsk.reached hControlBelow (by omega) (by omega) hs).bind ?_
    rintro b s' ⟨hs', hWithin, hReached⟩
    cases b with
    | false => exact ⟨hs', hWithin, .unbranched hn hOp hBranch hControl hReached⟩
    | true =>
      refine Gives.look sane_valueIn fun condition hCondition => ?_
      obtain ⟨bn', hbn', hMem⟩ := hasInput_of_valueIn hCondition
      refine (hAsk.value (hIn.input hRanked hbn' hMem) (by omega) (by omega) hs').bind ?_
      rintro v s'' ⟨hs'', hWithin', hv⟩
      exact ⟨hs'', hWithin.trans hWithin', .arm hn hOp hBranch hControl
        (hWithin'.recalled.reached hReached) hCondition hv⟩
  split
  · next hOp => exact ⟨hs, .refl s, .start ⟨n, hn, hOp⟩⟩
  · next hOp =>
    refine (hAsk.firstReached (by omega) (by omega) (fun x hx => hBelow (.inr hx)) hs).bind ?_
    rintro index s' ⟨hs', hWithin, hIndex⟩
    refine ⟨hs', hWithin, ?_⟩
    cases index with
    | some k =>
      obtain ⟨j, x, -, hx, hReached⟩ := hIndex
      exact .merge hn hOp (List.mem_of_getElem? hx) hReached
    | none => exact .unmerged hn hOp hIndex
  · next hOp => exact hArm (.inl hOp)
  · next hOp => exact hArm (.inr hOp)
  · next hStart hMerge hTrue hFalse =>
    refine Gives.look sane_controlIn fun control hControl => ?_
    have hHead : n.op.isHead = false := by
      cases hOp : n.op <;> simp_all [Operator.isHead]
    dsimp only
    split
    · exact Gives.throw rfl
    · refine (hAsk.reached (hBelow (Node.mem_of_controlIn hControl)) (by omega) (by omega) hs).mono ?_
      rintro b s' ⟨hs', hWithin, hReached⟩
      exact ⟨hs', hWithin, .passes hn hHead hControl hReached⟩

end

/-! ## Questions -/

/-- An answer to whether a node is reached is remembered. -/
theorem responds_reached (hAsk : Truthful env.graph root rank ask d)
    (hRanked : Ranked env.graph root rank) (hd : 2 * r ≤ d + 1)
    (hBelow : Below env.graph root rank r id) (hs : Remembered env.graph s) :
    Gives (respond env ask (.reached id)) s fun b s' =>
      Remembered env.graph s' ∧ Within rank r s s' ∧ s'.reached id = some b := by
  unfold Machine.respond
  refine Gives.get ?_
  cases hMemo : s.reached id with
  | some b => exact ⟨hs, .refl s, hMemo⟩
  | none =>
    rcases hBelow with hNeg | ⟨hLive, hLt⟩
    · refine Gives.bind (P := fun _ _ => False) (Gives.look sane_node fun n hn => ?_) nofun
      exact absurd hNeg (Int.not_lt.mpr (Graph.node?_lt (Graph.node_eq_ok.mp hn)).1)
    · obtain ⟨n, hn⟩ := hRanked.node hLive
      refine (hAsk.decideReached hRanked hLive hn (by omega) hs).bind ?_
      rintro b s' ⟨hs', hWithin, hDecides⟩
      -- The question was open all the while, so its answer is the first.
      have hOpen : s'.reached id = none := (hWithin.reached (Nat.le_refl _)).trans hMemo
      obtain ⟨hs'', hWithin'⟩ := hs'.learn_reached rank hOpen hDecides
      exact ⟨hs'', (hWithin.mono (Nat.le_of_lt hLt)).trans (hWithin'.mono hLt), if_pos rfl⟩

/-- A value is remembered. -/
theorem responds_value (hAsk : Truthful env.graph root rank ask d)
    (hRanked : Ranked env.graph root rank) (hd : 2 * r ≤ d + 1)
    (hBelow : Below env.graph root rank r id) (hs : Remembered env.graph s) :
    Gives (respond env ask (.value id)) s fun v s' =>
      Remembered env.graph s' ∧ Within rank r s s' ∧ s'.values id = some v := by
  unfold Machine.respond
  refine Gives.get ?_
  cases hMemo : s.values id with
  | some v => exact ⟨hs, .refl s, hMemo⟩
  | none =>
    rcases hBelow with hNeg | ⟨hLive, hLt⟩
    · refine Gives.bind (P := fun _ _ => False) (Gives.look sane_node fun n hn => ?_) nofun
      exact absurd hNeg (Int.not_lt.mpr (Graph.node?_lt (Graph.node_eq_ok.mp hn)).1)
    · obtain ⟨n, hn⟩ := hRanked.node hLive
      refine (hAsk.quiet_compute hRanked hLive hn (by omega) s hs).bind ?_
      rintro v s' ⟨hs', hWithin⟩
      -- what the computation asked for lies below `id`, so its own value is still open
      have hOpen : s'.values id = none := (hWithin.values (Nat.le_refl _)).trans hMemo
      obtain ⟨hs'', hWithin'⟩ := hs'.learn_value rank v hOpen
      exact ⟨hs'', (hWithin.mono (Nat.le_of_lt hLt)).trans (hWithin'.mono hLt), if_pos rfl⟩

/-- An effect is marked before it is run, and the mark is not among the answers. -/
theorem responds_effect (hAsk : Truthful env.graph root rank ask d)
    (hRanked : Ranked env.graph root rank) (hd : 2 * r ≤ d)
    (hBelow : Below env.graph root rank r id) :
    Quiet env.graph rank r (respond env ask (.effect id)) := by
  intro s hs
  show Gives (if (id < 0 || s.effects id) = true then Pure.pure ⟨⟩ else do
    modify fun s => { s with effects := fun x => x = id || s.effects x }
    runEffect env ask id) s _
  split
  · -- no node, or an effect that has been started
    exact ⟨hs, .refl s⟩
  · next hNew =>
    rcases hBelow with hNeg | ⟨hLive, hLt⟩
    · exact absurd (by simp [hNeg]) hNew
    · obtain ⟨n, hn⟩ := hRanked.node hLive
      -- The effect is marked first.
      have hMarked : Remembered env.graph { s with effects := fun x => x = id || s.effects x } ∧
          Within rank r s { s with effects := fun x => x = id || s.effects x } :=
        hs.of_same rfl rfl
      refine Gives.bind (P := fun _ s' => Remembered env.graph s' ∧ Within rank r s s') hMarked ?_
      rintro _ s' ⟨hs', hWithin⟩
      refine (hAsk.quiet_runEffect hRanked hLive hn (by omega) (by omega) s' hs').mono ?_
      rintro _ s'' ⟨hs'', hWithin'⟩
      exact ⟨hs'', hWithin.trans (hWithin'.mono hLt)⟩

/-- A question that is answered with the help of true answers is answered truly. -/
theorem respond (hAsk : Truthful env.graph root rank ask d) (hRanked : Ranked env.graph root rank) :
    Truthful env.graph root rank (Machine.respond env ask) (d + 1) where
  reached hBelow hd _ hs := hAsk.responds_reached hRanked hd hBelow hs
  value hBelow hd _ hs := hAsk.responds_value hRanked hd hBelow hs
  effect hBelow hd := hAsk.responds_effect hRanked (by omega) hBelow

end Truthful

/-- Every question is answered truly. -/
theorem answer_truthful (hRanked : Ranked env.graph root rank) (d : Nat) :
    Truthful env.graph root rank (answer env d) d := by
  induction d with
  | zero => exact ⟨fun _ _ h => absurd h (Nat.lt_irrefl 0), fun _ _ h => absurd h (Nat.lt_irrefl 0),
      fun _ h => absurd h (Nat.not_succ_le_zero _)⟩
  | succ d ih => exact ih.respond hRanked

end

/-! ## Runs -/

section

variable {env : Env} {root : NodeId} {rank : NodeId → Nat} {ask : Ask} {d r : Nat}

/-- Whether a run found a return among those listed that is reached, and gave its value. -/
def Returned (g : Graph) (returns : List NodeId) (v : BitVec 64) (s : State) : Prop :=
  ∃ id ∈ returns, g.HasOp id .ret ∧ s.reached id = some true ∧
    ∃ x, g.valueIn id 0 = .ok x ∧ s.values x = some v

/-- The depth of a run suffices for ranks up to the size of the graph. -/
theorem le_depthFor (g : Graph) : 2 * g.size + 1 ≤ depthFor g := by
  have hSquare : 4 * (g.size + 2) ≤ depthFor g := Nat.le_mul_of_pos_right _ (Nat.succ_pos _)
  omega

end
end Machine
end ArmBackend
