import ArmBackend.Proofs.Evaluation.Grown
import Mathlib.Logic.Relation

/-!
# What an evaluation asks for first

Whatever is evaluated on demand begins somewhere. Where the value of a node opens with the value of
another, and nothing else is done in front of that, it makes no difference whether that value was
asked for before: the evaluation goes on as if it had been.

## Results

* `Leads.ahead` — a question that leads to a value is answered as if the value were known.
-/

namespace ArmBackend.Machine

/-- An evaluation that ends with an answer. -/
def Evaluates {α : Type} (env : Env) (q : Query α) (s : State) (a : α) (s' : State) : Prop :=
  ∃ d, Runs (answer env d q) s a s'

/-- An evaluation that ends with a value and leaves a heap. -/
def Yields (env : Env) (s : State) (id : NodeId) (r : Heap × BitVec 64) : Prop :=
  ∃ s', Evaluates env (.value id) s r.2 s' ∧ s'.heap = r.1

/-- What is answered in `s₁` is answered in `s`, and leaves the same. -/
def Ahead {α : Type} (env : Env) (s s₁ : State) (q : Query α) : Prop :=
  ∀ a s', Evaluates env q s₁ a s' → Evaluates env q s a s'

section

variable {α β : Type} {env : Env} {s s₁ s' s'' : State} {a a' : α} {q : Query α} {q₀ : Query β}
  {x : Eval α} {k : β → Eval α} {id control : NodeId} {n : Node} {new : NodeId → Prop}

theorem Runs.unique (h : Runs x s a s') (h' : Runs x s a' s'') : a = a' ∧ s' = s'' := by
  have hSame := h.symm.trans h'
  cases hSame
  exact ⟨rfl, rfl⟩

theorem run_bind_congr {x y : Eval β} {r : State} (h : x.run.run r = y.run.run r)
    (f : β → Eval α) : (x >>= f).run.run r = (y >>= f).run.run r := by
  rw [ExceptT.run_bind, ExceptT.run_bind, StateT.run_bind, StateT.run_bind, h]

theorem look_ok {a : β} {y : Except Fault β} (hy : y = .ok a) (f : β → Eval α) :
    (liftM y : Eval β) >>= f = f a := by
  rw [hy]
  rfl

theorem run_get (f : State → Eval α) (r : State) : (get >>= f).run.run r = (f r).run.run r :=
  rfl

/-- A question that begins with another one. -/
theorem Ahead.of_begins {k : Ask → β → Eval α} (h : Ahead env s s₁ q₀)
    (hBegins : ∀ d r, r = s ∨ r = s₁ → (answer env (d + 1) q).run.run r =
      (answer env d q₀ >>= k (answer env d)).run.run r) :
    Ahead env s s₁ q := by
  rintro a s' ⟨d, hRuns⟩
  cases d with
  | zero => cases hRuns
  | succ e =>
    have hFirst : Runs (answer env e q₀ >>= k (answer env e)) s₁ a s' :=
      (hBegins e s₁ (.inr rfl)).symm.trans hRuns
    obtain ⟨v, s₂, hAsked, -⟩ := hFirst.of_bind
    obtain ⟨d', hAhead⟩ := h v s₂ ⟨e, hAsked⟩
    -- both evaluations go on to the same depth
    let D := max e d'
    have hDeep : Runs (answer env (D + 1) q) s₁ a s' :=
      answer_deeper hRuns (Nat.succ_le_succ (Nat.le_max_left e d'))
    have hSecond : Runs (answer env D q₀ >>= k (answer env D)) s₁ a s' :=
      (hBegins D s₁ (.inr rfl)).symm.trans hDeep
    obtain ⟨v', s₂', hAsked', hRest⟩ := hSecond.of_bind
    obtain ⟨rfl, rfl⟩ := hAsked'.unique (answer_deeper hAsked (Nat.le_max_left e d'))
    have hHere : Runs (answer env D q₀ >>= k (answer env D)) s a s' :=
      (answer_deeper hAhead (Nat.le_max_right e d')).bind hRest
    exact ⟨D + 1, (hBegins D s (.inl rfl)).trans hHere⟩

/-- A value that is not remembered begins as its node does. -/
theorem Ahead.value {k : Ask → β → Eval (BitVec 64)} (h : Ahead env s s₁ q₀)
    (hs : s.values id = none) (hs₁ : s₁.values id = none)
    (hBegins : ∀ ask : Ask, compute env ask id = ask q₀ >>= k ask) :
    Ahead env s s₁ (.value id) := by
  refine h.of_begins (k := fun ask b => do
    let v ← k ask b
    modify fun s => { s with values := fun x => if x = id then some v else s.values x }
    return v) fun d r hr => ?_
  have hNone : r.values id = none := by
    obtain rfl | rfl := hr
    · exact hs
    · exact hs₁
  rw [← bind_assoc, ← hBegins (answer env d)]
  refine (run_get _ r).trans ?_
  simp only [hNone]

/-- What is remembered is answered at once. -/
theorem answer_reached {d : Nat} {r : State} {b : Bool} (h : r.reached id = some b) :
    Runs (answer env (d + 1) (.reached id)) r b r := by
  refine Runs.bind (Runs.get r) ?_
  simp only [h]
  exact Runs.pure _ _

theorem answer_value {d : Nat} {r : State} {v : BitVec 64} (h : r.values id = some v) :
    Runs (answer env (d + 1) (.value id)) r v r := by
  refine Runs.bind (Runs.get r) ?_
  simp only [h]
  exact Runs.pure _ _

/-- A value that is not remembered is computed, and remembered from then on. -/
theorem answer_computes {d : Nat} {v : BitVec 64} (hs : s.values id = none)
    (h : Runs (compute env (answer env d) id) s v s') :
    Runs (answer env (d + 1) (.value id)) s v (s'.learn id (s'.heap, v)) := by
  refine Runs.bind (Runs.get s) ?_
  simp only [hs]
  exact Runs.bind h (Runs.bind (Runs.modifies _ _) (Runs.pure _ _))

/-- What is yielded is what an evaluation to any depth ends with. -/
theorem Yields.value {r : Heap × BitVec 64} {d : Nat} {v : BitVec 64} (h : Yields env s id r)
    (hRuns : Runs (answer env d (.value id)) s v s') : r.2 = v := by
  obtain ⟨s₁, ⟨d', h⟩, -⟩ := h
  exact ((answer_deeper h (Nat.le_max_left d' d)).unique
    (answer_deeper hRuns (Nat.le_max_right d' d))).1

/-- An arm that is not remembered begins with the condition of its branch, where it is remembered
that the branch is reached. -/
theorem Ahead.arm {branch x : NodeId} (h : Ahead env s s₁ (.value x))
    (hs : s.reached id = none) (hs₁ : s₁.reached id = none)
    (hControl : s.reached control = some true) (hControl₁ : s₁.reached control = some true)
    (hn : env.graph.node id = .ok n) (hOp : n.op = .ifTrue) (hb : n.input 0 = .ok branch)
    (hc : env.graph.controlIn branch = .ok control) (hx : env.graph.valueIn branch 0 = .ok x) :
    Ahead env s s₁ (.reached id) := by
  -- Deciding about the arm begins with the condition, since its branch is known to be reached.
  refine h.of_begins (k := fun _ v => do
    modify fun s => { s with
      reached := fun x => if x = id then some ((v != 0) == true) else s.reached x }
    return (v != 0) == true) fun d r hr => ?_
  obtain ⟨hNone, hTrue⟩ : r.reached id = none ∧ r.reached control = some true := by
    obtain rfl | rfl := hr
    · exact ⟨hs, hControl⟩
    · exact ⟨hs₁, hControl₁⟩
  have hDecide : (decideReached env (answer env d) id).run.run r = (do
      let v ← answer env d (.value x)
      return (v != 0) == true : Eval Bool).run.run r := by
    unfold decideReached
    simp only [look_ok hn, hOp, look_ok hb, look_ok hc, look_ok hx]
    cases d with
    | zero => rfl
    | succ d =>
      have hControl : (answer env (d + 1) (.reached control)).run.run r = (.ok true, r) :=
        answer_reached hTrue
      simp only [ExceptT.run_bind, StateT.run_bind, hControl]
      rfl
  refine (run_get _ r).trans ?_
  simp only [hNone]
  refine (run_bind_congr hDecide _).trans ?_
  rw [bind_assoc]
  rfl

/-- How the evaluation of a node that is not remembered begins: with the value of another one. A
join begins with the condition of the branch behind its first arm; the branch hangs on `control`. -/
inductive Opens (g : Graph) (new : NodeId → Prop) (control : NodeId) : NodeId → NodeId → Prop
  | words {id x : NodeId} {n : Node} {f : BitVec 64 → BitVec 64 → BitVec 64} (hNew : new id)
      (hn : g.node? id = some n) (hOp : n.op.onWords? = some f) (hx : n.input 0 = .ok x) :
      Opens g new control id x
  | convert {id x : NodeId} {n : Node} {f : Conversion} (hNew : new id)
      (hn : g.node? id = some n) (hOp : n.op = .convert f) (hx : n.input 0 = .ok x) :
      Opens g new control id x
  | overflow {id x y : NodeId} {n m : Node} (hNew : new id) (hn : g.node? id = some n)
      (hOp : n.op = .projection) (hInt : n.int ≠ 0) (hx : n.input 0 = .ok x)
      (hm : g.node? x = some m) (hy : m.input 0 = .ok y) : Opens g new control id y
  -- a diamond's phi asks for its condition first
  | join {id merge arm branch x : NodeId} {n m a : Node} {rest : List NodeId} (hNew : new id)
      (hn : g.node? id = some n) (hOp : n.op = .phi) (hMerge : n.controlIn = .ok merge)
      (hm : g.node? merge = some m) (hArms : m.inputs = arm :: rest) (hNewArm : new arm)
      (ha : g.node? arm = some a) (hArm : a.op = .ifTrue) (hb : a.input 0 = .ok branch)
      (hc : g.controlIn branch = .ok control) (hx : g.valueIn branch 0 = .ok x) :
      Opens g new control id x

/-- Nothing is remembered of the new nodes. -/
def State.Unasked (s : State) (new : NodeId → Prop) : Prop :=
  ∀ id, new id → s.values id = none ∧ s.effects id = false ∧ s.reached id = none

/-- What is left of the overflow of an operation once the first operand is there. -/
def restOfOverflow (id : NodeId) (n m : Node) (ask : Ask) (v : BitVec 64) : Eval (BitVec 64) := do
  let w ← inputValue ask m 1
  match (match m.op with
    | .int32 op => op.overflows? (v.setWidth 32) (w.setWidth 32)
    | _ => none) with
  | some b => return truth b
  | none => throw (.malformed id .projection (.overflowOf n.int m.op))

/-- What is left of a join once it is known whether the first arm is reached. -/
def restOfJoin (merge : NodeId) (n m : Node) (rest : List NodeId) (ask : Ask) (b : Bool) :
    Eval (BitVec 64) := do
  let index? ← (if b then return some 0 else firstReached ask 1 rest)
  let index ← (match index? with
    | some index => return index
    | none => throw (.malformed merge m.op .mergeNotReached) : Eval Nat)
  ask (.value (← n.input index))

theorem Opens.ahead {id x : NodeId} (h : Opens env.graph new control id x)
    (hs : s.Unasked new) (hs₁ : s₁.Unasked new) (hControl : s.reached control = some true)
    (hControl₁ : s₁.reached control = some true) (hx : Ahead env s s₁ (.value x)) :
    Ahead env s s₁ (.value id) := by
  cases h with
  -- An operator that takes the node first asks for it first.
  | @words _ n f hNew hn hOp hInput =>
    refine hx.value (hs id hNew).1 (hs₁ id hNew).1 (k := fun ask v => do
      let w ← inputValue ask n 1
      return f v w) fun ask => ?_
    unfold compute
    rw [look_ok (Graph.node_eq_ok.mpr hn)]
    have hFirst : inputValue ask n 0 = ask (.value x) := look_ok hInput _
    rw [← hFirst]
    unfold Operator.onWords? at hOp
    split at hOp <;> cases hOp <;> simp only [*]
  | @convert _ n f hNew hn hOp hInput =>
    refine hx.value (hs id hNew).1 (hs₁ id hNew).1 (k := fun _ v => return f.eval v) fun ask => ?_
    have hFirst : inputValue ask n 0 = ask (.value x) := look_ok hInput _
    unfold compute
    rw [look_ok (Graph.node_eq_ok.mpr hn), ← hFirst]
    simp only [hOp]
  | @overflow y _ n m hNew hn hOp hInt hy hm hInput =>
    refine hx.value (hs id hNew).1 (hs₁ id hNew).1 (k := restOfOverflow id n m) fun ask => ?_
    have hFirst : inputValue ask m 0 = ask (.value x) := look_ok hInput _
    unfold compute
    rw [look_ok (Graph.node_eq_ok.mpr hn), ← hFirst]
    simp only [hOp]
    unfold projectionValue
    simp only [hOp]
    -- The overflow looks its operation up, and then asks for the first operand.
    exact (look_ok hy _).trans ((look_ok (Graph.node_eq_ok.mpr hm) _).trans (if_neg hInt))
  -- A join asks for its first arm, and that begins with the condition.
  | @join merge arm branch _ n m a rest hNew hn hOp hMerge hm hArms hNewArm ha hArm hb hc hv =>
    have hArmAhead : Ahead env s s₁ (.reached arm) :=
      hx.arm (hs arm hNewArm).2.2 (hs₁ arm hNewArm).2.2 hControl hControl₁
        (Graph.node_eq_ok.mpr ha) hArm hb hc hv
    refine hArmAhead.value (hs id hNew).1 (hs₁ id hNew).1 (k := restOfJoin merge n m rest)
      fun ask => ?_
    unfold compute
    rw [look_ok (Graph.node_eq_ok.mpr hn)]
    simp only [hOp]
    unfold takenValue takenInput
    rw [look_ok hMerge, look_ok (Graph.node_eq_ok.mpr hm), hArms, firstReached]
    exact (bind_assoc _ _ _).trans ((bind_assoc _ _ _).trans (bind_assoc (ask (.reached arm)) _ _))

/-- A value that was evaluated is remembered. -/
theorem answer_remembers {d : Nat} {v : BitVec 64} (h : Runs (answer env d (.value id)) s v s') :
    s'.values id = some v := by
  cases d with
  | zero => cases h
  | succ d =>
    obtain ⟨s₁, s₂, hGet, hRest⟩ := h.of_bind
    cases hGet
    cases hKnown : s.values id with
    | some w =>
      simp only [hKnown] at hRest
      obtain ⟨rfl, rfl⟩ := hRest.of_pure
      exact hKnown
    | none =>
      simp only [hKnown] at hRest
      obtain ⟨w, s₁, -, hLearn⟩ := hRest.of_bind
      cases hLearn
      exact if_pos rfl

/-- Whether the evaluation of a node comes to the value of another before anything else. -/
def Leads (g : Graph) (new : NodeId → Prop) (control : NodeId) : NodeId → NodeId → Prop :=
  Relation.ReflTransGen (Opens g new control)

/-- Once a value was evaluated, what leads to it goes on as if it had been evaluated for that. -/
theorem Leads.ahead {id x : NodeId} {v : BitVec 64} (h : Leads env.graph new control id x)
    (hs : s.Unasked new) (hs₁ : s₁.Unasked new) (hControl : s.reached control = some true)
    (hx : Evaluates env (.value x) s v s₁) : Ahead env s s₁ (.value id) := by
  obtain ⟨d, hRuns⟩ := hx
  have hControl₁ : s₁.reached control = some true :=
    (answer_itself hRuns (Nat.le_refl d)).2.arrived hControl
  induction h using Relation.ReflTransGen.head_induction_on with
  | refl =>
    rintro w s' ⟨d', hAgain⟩
    cases d' with
    | zero => cases hAgain
    | succ d' =>
      obtain ⟨rfl, rfl⟩ := hAgain.unique (answer_value (answer_remembers hRuns))
      exact ⟨d, hRuns⟩
  | head hFirst _ ih => exact hFirst.ahead hs hs₁ hControl hControl₁ ih

end
end ArmBackend.Machine
