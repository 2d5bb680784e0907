import ArmBackend.Proofs.Evaluation.Remembered

/-!
# Runs that do not break off

Verification counts the inputs of each node, but it does not look at which nodes they are. The
evaluator guards most of what it takes for granted beyond that, with a fault that names the node.
`Graph.Connected` lists the four places where it does not: a parameter with a negative index, the
overflow of a node with fewer than two inputs, an arm of a node without a control input, and a join
with fewer inputs than its merge. Where every node that the exit depends on is connected, a run ends
with a value, a malformed node or no return at all.

That holds whatever is remembered, so `Safe` speaks of all states. What keeps a run from going on
for ever is the rank of the nodes: `Careful` ties it to the depth.

## Results

* `Careful.respond` — a question is answered safely when those it puts are.
* `answer_careful` — every question about a live node is answered safely.
* `run_safe` — a run of a connected graph does not break off.
* `run_breaks_unguarded` — each of the four conditions is needed.
-/

namespace ArmBackend

/-- What the evaluator takes for granted of how a node is connected. -/
structure Graph.Connected (g : Graph) (n : Node) : Prop where
  parameter : n.op = .parameter → 0 ≤ n.int
  projection : n.op = .projection → n.int ≠ 0 →
    ∀ x ∈ n.inputs, ∀ m ∈ g.node? x, 2 ≤ m.inputs.length
  arm : n.op = .ifTrue ∨ n.op = .ifFalse → ∀ x ∈ n.inputs, ∀ m ∈ g.node? x, m.controlCount ≠ 0
  join : n.op.isPhi = true → ∀ x ∈ n.controlIn.toOption, ∀ m ∈ g.node? x,
    m.inputs.length ≤ n.inputs.length

instance (g : Graph) (n : Node) : Decidable (g.Connected n) :=
  decidable_of_iff ((n.op = .parameter → 0 ≤ n.int) ∧
      (n.op = .projection → n.int ≠ 0 →
        ∀ x ∈ n.inputs, ∀ m ∈ g.node? x, 2 ≤ m.inputs.length) ∧
      (n.op = .ifTrue ∨ n.op = .ifFalse → ∀ x ∈ n.inputs, ∀ m ∈ g.node? x, m.controlCount ≠ 0) ∧
      (n.op.isPhi = true → ∀ x ∈ n.controlIn.toOption, ∀ m ∈ g.node? x,
        m.inputs.length ≤ n.inputs.length))
    ⟨fun ⟨hParameter, hProjection, hArm, hJoin⟩ => ⟨hParameter, hProjection, hArm, hJoin⟩,
      fun h => ⟨h.parameter, h.projection, h.arm, h.join⟩⟩

/-! ## Look-ups that succeed -/

namespace Node

variable {n : Node}

/-- An input that there is can be asked for. -/
theorem input_of_lt {i : Nat} (h : i < n.inputs.length) :
    ∃ x ∈ n.inputs, n.input i = .ok x := by
  have hGet := List.getElem?_eq_getElem h
  refine ⟨n.inputs[i], List.mem_of_getElem? hGet, ?_⟩
  unfold Node.input
  rw [if_neg (by omega), Int.toNat_natCast, hGet]

namespace Counted

/-- A node with the right counts has a first effect, or none. -/
theorem effectIn (h : n.Counted) : ∃ e, n.effectIn = .ok e ∧ (e < 0 ∨ e ∈ n.inputs) := by
  unfold Node.effectIn
  split
  · exact ⟨-1, rfl, .inl (by decide)⟩
  · next hSome =>
    obtain ⟨hValue, hEffect, hControl, hSum⟩ := h
    obtain ⟨x, hMem, hx⟩ := input_of_lt (n := n) (i := n.valueCount.toNat) (by omega)
    rw [Int.toNat_of_nonneg hValue] at hx
    exact ⟨x, hx, .inr hMem⟩

/-- The effects of such a node are inputs. -/
theorem effectInputs (h : n.Counted) : ∃ l, n.effectInputs = .ok l ∧ ∀ e ∈ l, e ∈ n.inputs := by
  obtain ⟨hValue, hEffect, hControl, hSum⟩ := h
  refine ⟨_, if_pos (by omega), fun e he => ?_⟩
  exact List.mem_of_mem_take (List.mem_of_mem_drop he)

/-- The controls of such a node are inputs. -/
theorem controlInputs (h : n.Counted) : ∃ l, n.controlInputs = .ok l ∧ ∀ c ∈ l, c ∈ n.inputs := by
  obtain ⟨hValue, hEffect, hControl, hSum⟩ := h
  refine ⟨_, if_pos (by omega), fun c hc => ?_⟩
  exact List.mem_of_mem_take (List.mem_of_mem_drop hc)

end Counted
end Node

namespace Machine

/-! ## Safe steps -/

/-- Whatever is remembered, `x` gives a result as `Q` says, or comes across a malformed node. -/
def Safe {α : Type} (x : Eval α) (Q : α → Prop) : Prop :=
  ∀ s, Ends x s (fun f _ => f.isMalformed = true) fun a _ => Q a

section

variable {α β : Type} {x : Eval α} {f : α → Eval β} {a : α} {P Q : α → Prop} {R : β → Prop}

/-- A weaker statement about the result. -/
theorem Safe.mono (h : Safe x P) (hQ : ∀ a, P a → Q a) : Safe x Q :=
  fun s => (h s).mono (fun a _ => hQ a) fun _ _ => id

/-- A result is given. -/
theorem Safe.pure (h : Q a) : Safe (Pure.pure a) Q :=
  fun _ => h

/-- Two safe steps, one after the other. -/
theorem Safe.bind (hx : Safe x P) (hf : ∀ a, P a → Safe (f a) R) : Safe (x >>= f) R :=
  fun s => (hx s).bind fun a s' ha => hf a ha s'

/-- A look-up that succeeds. -/
theorem Safe.look {y : Except Fault α} (hy : y = .ok a) (hf : Safe (f a) R) :
    Safe (liftM y >>= f) R := by
  rw [hy]
  exact hf

/-- What follows a look at the state. -/
theorem Safe.get {f : State → Eval β} (hf : ∀ s, Safe (f s) R) : Safe (MonadState.get >>= f) R :=
  fun s => hf s s

/-- What follows a change of the state. -/
theorem Safe.modify (change : State → State) {f : Unit → Eval β} (hf : Safe (f ()) R) :
    Safe (modify change >>= f) R :=
  fun s => hf (change s)

/-- A malformed node may be reported. -/
theorem Safe.throw {fault : Fault} (h : fault.isMalformed = true) :
    Safe (MonadExcept.throw fault : Eval α) Q :=
  fun _ => h

/-- A check that finds a malformed node. -/
theorem Safe.unless {c : Prop} [Decidable c] {fault : Fault} {f : PUnit → Eval β}
    (h : fault.isMalformed = true) (hf : ¬c → Safe (f ⟨⟩) R) :
    Safe (if c then MonadExcept.throw fault >>= f else f ⟨⟩) R :=
  fun s => Ends.unless (fun _ => h) fun hc => hf hc s

/-- Work on the heap always gives a word. -/
theorem Safe.access (id : NodeId) (act : Heap → Heap × BitVec 64) :
    Safe (Machine.access id act) fun _ => True :=
  fun _ => trivial

/-- A list is gone through. -/
theorem Safe.forM {l : List NodeId} {step : NodeId → Eval Unit}
    (h : ∀ x ∈ l, Safe (step x) fun _ => True) : Safe (l.forM step) fun _ => True := by
  induction l with
  | nil => exact .pure trivial
  | cons a rest ih =>
    show Safe (step a >>= fun _ => rest.forM step) _
    exact (h a List.mem_cons_self).bind fun _ _ => ih fun x hx => h x (List.mem_cons_of_mem _ hx)

end

/-- `ask` answers questions about live nodes safely, as far as depth `d` goes. The evaluator may ask
for the effect of no node, but for nothing else of it. -/
structure Careful (g : Graph) (root : NodeId) (rank : NodeId → Nat) (ask : Ask) (d : Nat) :
    Prop where
  reached : ∀ {id}, g.Live root id → 2 * rank id + 2 ≤ d → Safe (ask (.reached id)) fun _ => True
  value : ∀ {id}, g.Live root id → 2 * rank id + 2 ≤ d → Safe (ask (.value id)) fun _ => True
  effect : ∀ {r id}, Below g root rank r id → 2 * r + 1 ≤ d → Safe (ask (.effect id)) fun _ => True

section

variable {env : Env} {root : NodeId} {rank : NodeId → Nat} {ask : Ask} {d : Nat} {id : NodeId}
  {n : Node}

/-- A parameter whose index is no negative number. -/
theorem safe_argument (hIndex : 0 ≤ n.int) : Safe (argument env id n) fun _ => True := by
  refine fun s => argument_ends.mono (fun _ _ _ => trivial) ?_
  rintro _ _ ⟨-, rfl | ⟨hNeg, -⟩⟩
  · rfl
  · exact absurd hNeg (Int.not_lt.mpr hIndex)

/-- A constant of any kind. -/
theorem safe_constant (kind : ConstantKind) : Safe (constantValue id n kind) fun _ => True := by
  refine fun s => (constant_ends kind).mono (fun _ _ _ => trivial) ?_
  rintro _ _ ⟨-, rfl⟩
  rfl

/-- The first of the listed inputs that is reached has its position in the list. -/
theorem safe_firstReached {xs : List NodeId} (hxs : ∀ x ∈ xs, Safe (ask (.reached x)) fun _ => True)
    {i : Nat} : Safe (firstReached ask i xs) fun index => ∀ k ∈ index, k < i + xs.length := by
  induction xs generalizing i with
  | nil => exact .pure nofun
  | cons x rest ih =>
    show Safe (ask (.reached x) >>= fun b =>
      if b = true then Pure.pure (some i) else firstReached ask (i + 1) rest) _
    refine (hxs x List.mem_cons_self).bind fun b _ => ?_
    split
    · refine .pure fun k hk => ?_
      cases hk
      simp
    · refine (ih fun y hy => hxs y (List.mem_cons_of_mem _ hy)).mono fun index hIndex k hk => ?_
      have hLt := hIndex k hk
      rw [List.length_cons]
      omega

namespace Careful

section

variable (hAsk : Careful env.graph root rank ask d) (hWell : env.graph.WellFormed)
  (hRanked : Ranked env.graph root rank) (hLive : env.graph.Live root id)
  (hn : env.graph.node? id = some n) (hConnected : env.graph.Connected n)
  (hd : 2 * rank id + 1 ≤ d)

include hAsk hRanked hLive hn hd

/-! ## Inputs -/

/-- The control of an input lies low enough. -/
theorem input_reached {x : NodeId} (hx : x ∈ n.inputs) :
    Safe (ask (.reached x)) fun _ => True := by
  have hInput : env.graph.HasInput id x := ⟨n, hn, hx⟩
  have hLt := hRanked.lt hLive hInput
  exact hAsk.reached (hLive.input hInput) (by omega)

/-- The value of an input lies low enough. -/
theorem input_value {x : NodeId} (hx : x ∈ n.inputs) : Safe (ask (.value x)) fun _ => True := by
  have hInput : env.graph.HasInput id x := ⟨n, hn, hx⟩
  have hLt := hRanked.lt hLive hInput
  exact hAsk.value (hLive.input hInput) (by omega)

/-- The effect of an input lies low enough, and no effect is none. -/
theorem input_effect {x : NodeId} (hx : x < 0 ∨ x ∈ n.inputs) :
    Safe (ask (.effect x)) fun _ => True :=
  hAsk.effect (below_of_input hRanked hLive hn hx) hd

/-- The value of an input that there is. -/
theorem safe_inputValue {i : Nat} (hi : i < n.inputs.length) :
    Safe (inputValue ask n i) fun _ => True := by
  obtain ⟨x, hMem, hx⟩ := Node.input_of_lt hi
  exact Safe.look hx (input_value hAsk hRanked hLive hn hd hMem)

include hWell

/-- The effect of a node is run first. -/
theorem safe_effectIn {α : Type} {f : Unit → Eval α} {Q : α → Prop} (hf : Safe (f ()) Q) :
    Safe (do let e ← n.effectIn; ask (.effect e) >>= f) Q := by
  obtain ⟨e, he, hMem⟩ := (hWell.counted hn).effectIn
  exact Safe.look he ((input_effect hAsk hRanked hLive hn hd hMem).bind fun _ _ => hf)

/-- A node without a value input is told apart by the look-up itself. -/
theorem safe_valueIn : Safe (do ask (.value (← env.graph.valueIn id 0))) fun _ => True := by
  have hIn : env.graph.valueIn id 0 = if n.valueCount ≤ 0 then
      .error (.malformed id n.op (.noValueInput 0)) else n.input 0 := by
    unfold Graph.valueIn
    rw [Graph.node_eq_ok.mpr hn, ok_bind]
    split <;> rfl
  rw [hIn]
  split
  · exact Safe.throw rfl
  · obtain ⟨hValue, hEffect, hControl, hSum⟩ := hWell.counted hn
    obtain ⟨x, hMem, hx⟩ := Node.input_of_lt (n := n) (i := 0) (by omega)
    exact Safe.look hx (input_value hAsk hRanked hLive hn hd hMem)

include hConnected

/-- The input of a join that is taken is there: the merge has no more inputs than the join. -/
theorem safe_takenValue (hPhi : n.op.isPhi = true) :
    Safe (takenValue env ask n) fun x => x ∈ n.inputs := by
  -- A phi takes one control input, its merge.
  have hCount : n.controlCount = (1 : Nat) := by
    refine hWell.controlCount hn ?_
    cases hOp : n.op <;> rw [hOp] at hPhi <;> cases hPhi <;> rfl
  obtain ⟨merge, hMerge, hInput⟩ := hWell.controlIn hn (by omega)
  obtain ⟨m, hm⟩ := hWell.node_of_input hInput
  have hFits := hConnected.join hPhi merge (toOption_eq_some.mpr hMerge) m hm
  have hMergeLive := hLive.input hInput
  have hLt := hRanked.lt hLive hInput
  unfold takenValue
  refine Safe.look hMerge ?_
  unfold takenInput
  rw [bind_assoc]
  refine Safe.look (Graph.node_eq_ok.mpr hm) ?_
  have hInputs : ∀ x ∈ m.inputs, Safe (ask (.reached x)) fun _ => True :=
    fun x hx => input_reached hAsk hRanked hMergeLive hm (by omega) hx
  rw [bind_assoc]
  refine (safe_firstReached hInputs).bind fun index hIndex => ?_
  -- Without an arm that is reached the phi has no value, which is reported.
  cases index with
  | none => exact Safe.throw rfl
  | some k =>
    have hk : k < 0 + m.inputs.length := hIndex k rfl
    obtain ⟨x, hMem, hx⟩ := Node.input_of_lt (n := n) (i := k) (by omega)
    show Safe (liftM (n.input k)) _
    rw [hx]
    exact .pure hMem

/-! ## Values -/

/-- A projection of an operation that has it. -/
theorem safe_projection (hOp : n.op = .projection) :
    Safe (projectionValue env ask id n) fun _ => True := by
  obtain ⟨x, hMem, hx⟩ := Node.input_of_lt (n := n) (i := 0)
    (hWell.le_inputs hn (by rw [hOp]; rfl))
  have hInput : env.graph.HasInput id x := ⟨n, hn, hMem⟩
  obtain ⟨operation, hOperation⟩ := hWell.node_of_input hInput
  unfold projectionValue
  refine Safe.look hx (Safe.look (Graph.node_eq_ok.mpr hOperation) ?_)
  split
  · exact input_value hAsk hRanked hLive hn hd hMem
  · next hIndex =>
    -- The operands are read before the operation is looked at.
    have hTwo := hConnected.projection hOp hIndex x hMem operation hOperation
    have hLt := hRanked.lt hLive hInput
    have hOperand : ∀ {i : Nat}, i < operation.inputs.length →
        Safe (inputValue ask operation i) fun _ => True := fun hi =>
      safe_inputValue hAsk hRanked (hLive.input hInput) hOperation (by omega) hi
    refine (hOperand (i := 0) (by omega)).bind fun left _ => ?_
    refine (hOperand (i := 1) (by omega)).bind fun right _ => ?_
    dsimp only
    split
    · exact .pure trivial
    · exact .throw rfl

omit hConnected in
/-- A call, supported or not. -/
theorem safe_call (hOp : n.op = .call) : Safe (callValue env ask id n) fun _ => True := by
  have hCounted := hWell.counted hn
  have hControl : n.controlCount = (1 : Nat) := hWell.controlCount hn (by rw [hOp]; rfl)
  have hSum := hCounted.sum
  have hValue := hCounted.value
  have hEffect := hCounted.effect
  obtain ⟨x, hMem, hx⟩ := Node.input_of_lt (n := n) (i := 0) (by omega)
  obtain ⟨target, hTarget⟩ := hWell.node_of_input (w := id) ⟨n, hn, hMem⟩
  unfold callValue
  refine safe_effectIn hAsk hWell hRanked hLive hn hd ?_
  refine Safe.look hx (Safe.look (Graph.node_eq_ok.mpr hTarget) ?_)
  refine Safe.unless rfl fun hSupported => ?_
  -- A call that gets here has two value inputs.
  have hTwo : n.valueCount = 2 := by
    by_contra hOther
    simp [hOther] at hSupported
  exact (safe_inputValue hAsk hRanked hLive hn hd (i := 1) (by omega)).bind
    fun _ _ => .access _ _

/-- The value of a node that is connected as the evaluator takes for granted. -/
theorem safe_compute : Safe (compute env ask id) fun _ => True := by
  -- Verification has counted the value inputs that an operator takes.
  have hInput : ∀ {k i : Nat}, n.op.arity?.bind Arity.value = some k → i < k →
      Safe (inputValue ask n i) fun _ => True := fun hk hi =>
    safe_inputValue hAsk hRanked hLive hn hd (Nat.lt_of_lt_of_le hi (hWell.le_inputs hn hk))
  have hWords : n.op.arity?.bind Arity.value = some 2 → ∀ f : BitVec 64 → BitVec 64 → BitVec 64,
      Safe (do
        let x ← inputValue ask n 0
        let y ← inputValue ask n 1
        return f x y) fun _ => True := fun hk f =>
    (hInput hk (i := 0) (by decide)).bind fun _ _ =>
      (hInput hk (i := 1) (by decide)).bind fun _ _ => .pure trivial
  unfold compute
  refine Safe.look (Graph.node_eq_ok.mpr hn) ?_
  dsimp only
  split
  · next hOp => exact safe_argument (hConnected.parameter hOp)
  · next kind _ => exact safe_constant kind
  · next hOp =>
    refine (safe_takenValue hAsk hWell hRanked hLive hn hConnected hd (by rw [hOp]; rfl)).bind ?_
    exact fun x hx => input_value hAsk hRanked hLive hn hd hx
  · next hOp => exact safe_projection hAsk hWell hRanked hLive hn hConnected hd hOp
  · next hOp =>
    have hLength : n.inputs.length = 2 := hWell.length_inputs hn (by rw [hOp]; rfl)
    obtain ⟨e, hMem, he⟩ := Node.input_of_lt (n := n) (i := 1) (by omega)
    refine Safe.look he ((input_effect hAsk hRanked hLive hn hd (.inr hMem)).bind fun _ _ => ?_)
    exact safe_inputValue hAsk hRanked hLive hn hd (i := 0) (by omega)
  · next hOp => exact safe_call hAsk hWell hRanked hLive hn hd hOp
  · next hOp =>
    refine safe_effectIn hAsk hWell hRanked hLive hn hd ?_
    refine (hInput (k := 2) (i := 0) (by rw [hOp]; rfl) (by decide)).bind fun _ _ => ?_
    exact (hInput (k := 2) (i := 1) (by rw [hOp]; rfl) (by decide)).bind fun _ _ => .access _ _
  · next hOp =>
    refine safe_effectIn hAsk hWell hRanked hLive hn hd ?_
    refine (hInput (k := 3) (i := 0) (by rw [hOp]; rfl) (by decide)).bind fun _ _ => ?_
    refine (hInput (k := 3) (i := 1) (by rw [hOp]; rfl) (by decide)).bind fun _ _ => ?_
    exact (hInput (k := 3) (i := 2) (by rw [hOp]; rfl) (by decide)).bind fun _ _ => .access _ _
  · next hOp => exact hWords (by rw [hOp]; rfl) _
  · next hOp => exact hWords (by rw [hOp]; rfl) _
  · next hOp => exact hWords (by rw [hOp]; rfl) _
  · next hOp =>
    exact (hInput (k := 1) (i := 0) (by rw [hOp]; rfl) (by decide)).bind fun _ _ => .pure trivial
  · next hOp => exact hWords (by rw [hOp]; rfl) _
  · next hOp =>
    refine safe_effectIn hAsk hWell hRanked hLive hn hd ?_
    exact (hInput (k := 1) (i := 0) (by rw [hOp]; rfl) (by decide)).bind fun _ _ => .access _ _
  · exact .throw rfl

/-! ## Effects -/

/-- Running an effect asks for the value of its own node too. -/
theorem safe_runEffect (hd' : 2 * rank id + 2 ≤ d) :
    Safe (runEffect env ask id) fun _ => True := by
  unfold runEffect
  refine Safe.look (Graph.node_eq_ok.mpr hn) ?_
  split
  · exact .pure trivial
  · exact .pure trivial
  · exact .pure trivial
  · next hOp =>
    refine (safe_takenValue hAsk hWell hRanked hLive hn hConnected hd (by rw [hOp]; rfl)).bind ?_
    exact fun x hx => input_effect hAsk hRanked hLive hn hd (.inr hx)
  · -- the effects before it run first, then the node itself
    obtain ⟨l, hl, hMem⟩ := (hWell.counted hn).effectInputs
    refine Safe.look hl ((Safe.forM fun e he => ?_).bind fun _ _ => ?_)
    · exact input_effect hAsk hRanked hLive hn hd (.inr (hMem e he))
    · split
      all_goals first
        | exact .pure trivial
        | exact (hAsk.value hLive hd').bind fun _ _ => .pure trivial

/-! ## Control -/

/-- Whether a control node is reached. -/
theorem safe_decideReached : Safe (decideReached env ask id) fun _ => True := by
  -- The arms of a branch are asked for in the same way, but for the sense of the condition.
  have hArm : n.op = .ifTrue ∨ n.op = .ifFalse → Safe (do
      let branch ← n.input 0
      if ← ask (.reached (← env.graph.controlIn branch)) then
        let condition ← ask (.value (← env.graph.valueIn branch 0))
        return (condition != 0) == (n.op == .ifTrue)
      return false) fun _ => True := by
    intro hOp
    have hLength : n.inputs.length = 1 := hWell.length_inputs hn (v := 0) (e := 0) (c := 1)
      (by rcases hOp with hOp | hOp <;> rw [hOp] <;> rfl)
    obtain ⟨branch, hMem, hBranch⟩ := Node.input_of_lt (n := n) (i := 0) (by omega)
    have hInput : env.graph.HasInput id branch := ⟨n, hn, hMem⟩
    obtain ⟨m, hm⟩ := hWell.node_of_input hInput
    have hLt := hRanked.lt hLive hInput
    have hBranchLive := hLive.input hInput
    obtain ⟨control, hControl, k, hk, hControlMem⟩ :=
      hWell.controlIn hm (hConnected.arm hOp branch hMem m hm)
    obtain rfl := Option.some.inj (hm.symm.trans hk)
    have hIn : env.graph.controlIn branch = .ok control := by
      unfold Graph.controlIn
      rw [Graph.node_eq_ok.mpr hm, ok_bind, hControl]
    refine Safe.look hBranch (Safe.look hIn ?_)
    refine (input_reached hAsk hRanked hBranchLive hm (by omega) hControlMem).bind fun b _ => ?_
    split
    · rw [← bind_assoc]
      exact (safe_valueIn hAsk hWell hRanked hBranchLive hm (by omega)).bind
        fun _ _ => .pure trivial
    · exact .pure trivial
  unfold decideReached
  refine Safe.look (Graph.node_eq_ok.mpr hn) ?_
  split
  · exact .pure trivial
  · refine (safe_firstReached fun x hx => ?_).bind fun _ _ => .pure trivial
    exact input_reached hAsk hRanked hLive hn hd hx
  · next hOp => exact hArm (.inl hOp)
  · next hOp => exact hArm (.inr hOp)
  · -- A node that has no control input is told apart by the look-up.
    by_cases hNone : n.controlCount = 0
    · refine Safe.look (if_pos hNone) ?_
      exact Safe.throw rfl
    · obtain ⟨control, hControl, k, hk, hMem⟩ := hWell.controlIn hn hNone
      obtain rfl := Option.some.inj (hn.symm.trans hk)
      refine Safe.look hControl (Safe.unless rfl fun _ => ?_)
      exact input_reached hAsk hRanked hLive hn hd hMem

end

/-! ## Questions -/

/-- A question is answered safely when those that it puts are. -/
theorem respond (hAsk : Careful env.graph root rank ask d) (hWell : env.graph.WellFormed)
    (hRanked : Ranked env.graph root rank)
    (hConnected : ∀ {id n}, env.graph.Live root id → env.graph.node? id = some n →
      env.graph.Connected n) :
    Careful env.graph root rank (Machine.respond env ask) (d + 1) where
  reached := by
    intro id hLive hd
    obtain ⟨n, hn⟩ := hRanked.node hLive
    unfold Machine.respond
    refine Safe.get fun s => ?_
    -- What is remembered is given; otherwise the question is answered one level deeper.
    split
    · exact .pure trivial
    · have hDecide :=
        safe_decideReached hAsk hWell hRanked hLive hn (hConnected hLive hn) (by omega)
      refine hDecide.bind ?_
      exact fun _ _ => .modify _ (.pure trivial)
  value := by
    intro id hLive hd
    obtain ⟨n, hn⟩ := hRanked.node hLive
    unfold Machine.respond
    refine Safe.get fun s => ?_
    split
    · exact .pure trivial
    · refine (safe_compute hAsk hWell hRanked hLive hn (hConnected hLive hn) (by omega)).bind ?_
      exact fun _ _ => .modify _ (.pure trivial)
  effect := by
    intro r id hBelow hd s
    show Ends (if (id < 0 || s.effects id) = true then Pure.pure ⟨⟩ else do
      modify fun s => { s with effects := fun x => x = id || s.effects x }
      runEffect env ask id) s _ _
    split
    · exact trivial
    · next hNew =>
      -- No effect is none to run.
      rcases hBelow with hNeg | ⟨hLive, hLt⟩
      · exact absurd (by simp [hNeg]) hNew
      · obtain ⟨n, hn⟩ := hRanked.node hLive
        exact Safe.modify _ (safe_runEffect hAsk hWell hRanked hLive hn (hConnected hLive hn)
          (by omega) (by omega)) s

end Careful

/-- Every question about a live node is answered safely. -/
theorem answer_careful (env : Env) (hWell : env.graph.WellFormed)
    (hRanked : Ranked env.graph root rank)
    (hConnected : ∀ {id n}, env.graph.Live root id → env.graph.node? id = some n →
      env.graph.Connected n) (d : Nat) : Careful env.graph root rank (answer env d) d := by
  induction d with
  | zero => exact ⟨fun _ h => absurd h (Nat.not_succ_le_zero _),
      fun _ h => absurd h (Nat.not_succ_le_zero _), fun _ h => absurd h (Nat.not_succ_le_zero _)⟩
  | succ d ih => exact ih.respond hWell hRanked hConnected

/-! ## Runs -/

/-- Whether a fault is one that a run may end with: a malformed node, or no return that is
reached. -/
def Ordinary (f : Fault) : Prop :=
  f.isMalformed = true ∨ ∃ noEnd, f.cause = .noReturn noEnd

/-- The search for the return that is reached ends as a run may. -/
theorem firstReturn_ordinary (env : Env) (hAsk : Careful env.graph root rank ask d)
    (hWell : env.graph.WellFormed) (hRanked : Ranked env.graph root rank)
    (hRank : ∀ id, env.graph.Live root id → 2 * rank id + 2 ≤ d) {returns : List NodeId}
    (hLive : ∀ id ∈ returns, env.graph.Live root id) (s : State) :
    Ends (firstReturn env ask returns) s (fun f _ => Ordinary f) fun _ _ => True := by
  have hSafe : ∀ {α : Type} {x : Eval α} {Q : α → Prop}, Safe x Q → ∀ s,
      Ends x s (fun f _ => Ordinary f) fun a _ => Q a := fun h s =>
    (h s).mono (fun _ _ => id) fun _ _ => .inl
  induction returns generalizing s with
  | nil => exact .inr ⟨false, rfl⟩
  | cons id rest ih =>
    have hId := hLive id List.mem_cons_self
    have hd := hRank id hId
    have hLater := ih fun x hx => hLive x (List.mem_cons_of_mem _ hx)
    obtain ⟨n, hn⟩ := hRanked.node hId
    unfold firstReturn
    rw [Graph.node_eq_ok.mpr hn]
    show Ends (if n.op ≠ .ret then firstReturn env ask rest else do
      if ← ask (.reached id) then
        ask (.effect (← n.effectIn))
        ask (.value (← env.graph.valueIn id 0))
      else firstReturn env ask rest) s _ _
    split
    · exact hLater s
    · -- Each return is live, and so is all that it asks for.
      refine (hSafe (hAsk.reached hId hd) s).bind fun b s' _ => ?_
      split
      · refine hSafe (Careful.safe_effectIn hAsk hWell hRanked hId hn (by omega) ?_) s'
        exact Careful.safe_valueIn hAsk hWell hRanked hId hn (by omega)
      · exact hLater s'

/-- A run of a connected graph without cycles does not break off: it ends with a value, a malformed
node or no return. -/
theorem run_safe {g : Graph} (hWell : g.WellFormed)
    (hAcyclic : ∀ id, ¬Relation.TransGen g.HasInput id id)
    (hConnected : ∀ root id n, g.exit = some root → g.Live root id → g.node? id = some n →
      g.Connected n) (m : Machine) (arguments : List (BitVec 64)) :
    ∀ f, (m.run g arguments).1 = .error f → Ordinary f := by
  have hEnds : Ends (evaluate ⟨g, arguments⟩) { heap := m.heap } (fun f _ => Ordinary f)
      fun _ _ => True := by
    unfold evaluate
    cases hExit : g.exit with
    | none => exact .inr ⟨true, rfl⟩
    | some root =>
      obtain ⟨n, hn⟩ := hWell.exit root hExit
      -- Without cycles the live nodes have ranks, and the depth of a run is enough for them.
      obtain ⟨rank, hRanked, hRank⟩ :=
        exists_ranked hWell.verify ⟨n, hn⟩ fun id _ => hAcyclic id
      obtain ⟨returns, hReturns, hMem⟩ := (hWell.counted hn).controlInputs
      dsimp only
      rw [Graph.node_eq_ok.mpr hn]
      show Ends (liftM n.controlInputs >>= firstReturn _ _) _ _ _
      rw [hReturns]
      have hDepth := le_depthFor g
      have hAsk : Careful g root rank (answer ⟨g, arguments⟩ (depthFor g)) (depthFor g) :=
        answer_careful ⟨g, arguments⟩ hWell hRanked
          (fun hLive hn => hConnected root _ _ hExit hLive hn) _
      refine firstReturn_ordinary ⟨g, arguments⟩ hAsk hWell hRanked ?_ ?_ _
      · intro id hLive
        have hLt := hRank id hLive
        show 2 * rank id + 2 ≤ depthFor g
        omega
      · exact fun id hId => .tail .refl ⟨n, hn, hMem id hId⟩
  intro f hf
  unfold Ends at hEnds
  unfold run at hf
  -- A fault of the run is one of the evaluation.
  cases hRun : (evaluate ⟨g, arguments⟩).run.run { heap := m.heap } with
  | mk result t =>
    rw [hRun] at hEnds hf
    cases result with
    | ok a => cases hf
    | error fault =>
      obtain rfl : fault = f := Except.error.inj hf
      exact hEnds

/-- The sum of two parameters, or zero where it overflows. -/
def saturating : Graph where
  nodes := #[{ op := .start }, .parameter 0 .int32, .parameter 1 .int32,
    .ofArity (.int32 .addWithOverflow) [1, 2], .projection 0 3, .projection 1 3,
    .ofArity .branch [5, 0], .ofArity .ifTrue [6], .ofArity .ifFalse [6], .merge [7, 8], .int32 0,
    .phi .word32 [10, 4, 9], .ofArity .ret [11, 0, 9], .collect [12]]
  exit := some 13

/-- The overflow of a sum is a projection that there is, so runs of the example never break off. -/
theorem run_safe_saturating : saturating.WellFormed ∧
    (∀ n ∈ saturating.nodes.toList, saturating.Connected n) ∧
    (run ⟨.new (.ofWord 32)⟩ saturating [40, 2]).1 = .ok 42 ∧
    ∀ m arguments f, (run m saturating arguments).1 = .error f → Ordinary f := by
  have hWell : saturating.WellFormed :=
    .of_nodes (by decide +kernel) (by decide +kernel) (by decide +kernel)
  have hAcyclic := Graph.acyclic_of_rank (g := saturating) id (by decide +kernel)
  have hConnected : ∀ n ∈ saturating.nodes.toList, saturating.Connected n := by decide +kernel
  have hSum : (run ⟨.new (.ofWord 32)⟩ saturating [40, 2]).1.toOption = some 42 := by
    decide +kernel
  refine ⟨hWell, hConnected, toOption_eq_some.mp hSum, run_safe hWell hAcyclic ?_⟩
  intro _ id n _ _ hn
  obtain ⟨i, -, hi⟩ := Graph.node?_eq_some.mp hn
  exact hConnected n (Array.mem_toList_iff.mpr (Array.mem_of_getElem? hi))

/-- The parameter in front of the first. -/
def negativeParameter : Graph where
  nodes := #[{ op := .start }, .parameter (-1) .int32, .ofArity .ret [1, 0, 0], .collect [2]]
  exit := some 3

/-- The overflow of a constant. -/
def constantOverflow : Graph where
  nodes := #[{ op := .start }, .int32 7, .projection 1 1, .ofArity .ret [2, 0, 0], .collect [3]]
  exit := some 4

/-- An arm of the start. -/
def armOfStart : Graph where
  nodes := #[{ op := .start }, .ofArity .ifTrue [0], .int32 7, .ofArity .ret [2, 0, 1],
    .collect [3]]
  exit := some 4

/-- A join of one value at a merge of three arms. -/
def shortJoin : Graph where
  nodes := #[{ op := .start }, .parameter 0 .int32, .ofArity .branch [1, 0], .ofArity .ifTrue [2],
    .ofArity .ifTrue [2], .ofArity .ifFalse [2], .merge [3, 4, 5], .phi .word32 [1, 6],
    .ofArity .ret [7, 0, 6], .collect [8]]
  exit := some 9

/-- A graph that verifies and has no cycle, and still breaks a run off. -/
structure BreaksOff (g : Graph) (arguments : List (BitVec 64)) : Prop where
  wellFormed : g.WellFormed
  acyclic : ∀ id, ¬Relation.TransGen g.HasInput id id
  breaks : (run ⟨.new (.ofWord 32)⟩ g arguments).1 = .error .outOfRange

/-- Inputs that come before their nodes form no cycle. -/
theorem breaksOff_of_nodes {g : Graph} {arguments : List (BitVec 64)} (hVerify : g.verify = .ok ())
    (hCounted : ∀ n ∈ g.nodes.toList, n.Counted) (hExit : ∀ id ∈ g.exit, (g.node? id).isSome = true)
    (hOrder : ∀ p ∈ g.nodes.toList.zipIdx, ∀ x ∈ p.1.inputs, x.toNat < p.2)
    (hRun : (run ⟨.new (.ofWord 32)⟩ g arguments).1 = .error .outOfRange) :
    BreaksOff g arguments :=
  ⟨.of_nodes hVerify hCounted hExit, Graph.acyclic_of_rank id hOrder, hRun⟩

/-- Each of the four conditions is needed. -/
theorem run_breaks_unguarded :
    BreaksOff negativeParameter [5] ∧ BreaksOff constantOverflow [] ∧ BreaksOff armOfStart [] ∧
      BreaksOff shortJoin [0] := by
  refine ⟨breaksOff_of_nodes rfl ?_ ?_ ?_ rfl, breaksOff_of_nodes rfl ?_ ?_ ?_ rfl,
    breaksOff_of_nodes rfl ?_ ?_ ?_ rfl, breaksOff_of_nodes rfl ?_ ?_ ?_ rfl⟩
  all_goals decide +kernel

end
end Machine
end ArmBackend
