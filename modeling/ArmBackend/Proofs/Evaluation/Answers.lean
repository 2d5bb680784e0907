import ArmBackend.Proofs.Evaluation.Plan

/-!
# Answers follow the plan

Every question that a valid plan speaks of is answered as planned, from every state in which the
plan holds, and the plan holds afterwards. `Plan.Holds p o k s` is the invariant: what is remembered
in `s` agrees with `p`, and the events that have happened are the first `k`. The effects `o` are
those that were entered and have not returned yet.

The depth of an evaluation is bounded by the ranks of the plan.

## Results

* `Plan.Valid.answered` — questions are answered as planned.
* `Plan.Valid.evaluates` — a graph whose only return is planned gives the planned value.
-/

namespace ArmBackend.Machine

/-! ## Successful steps -/

/-- `x` succeeds in `s` with `a` and leaves `s'`. -/
def Runs {α : Type} (x : Eval α) (s : State) (a : α) (s' : State) : Prop :=
  x.run.run s = (.ok a, s')

section

variable {α β : Type} {s s' s'' : State} {a : α} {b : β} {x : Eval α} {f : α → Eval β}

/-- An answer is given without more ado. -/
theorem Runs.pure (a : α) (s : State) : Runs (Pure.pure a) s a s :=
  rfl

/-- Two steps that succeed, one after the other. -/
theorem Runs.bind (hx : Runs x s a s') (hf : Runs (f a) s' b s'') : Runs (x >>= f) s b s'' := by
  unfold Runs at *
  simp only [ExceptT.run_bind, StateT.run_bind, hx]
  exact hf

/-- A look-up that succeeds leaves the state. -/
theorem Runs.lift {y : Except Fault α} (h : y = .ok a) (s : State) :
    Runs (liftM y : Eval α) s a s := by
  rw [h]
  rfl

/-- The state is read. -/
theorem Runs.get (s : State) : Runs (MonadState.get : Eval State) s s s :=
  rfl

/-- The state is changed. -/
theorem Runs.modifies (g : State → State) (s : State) : Runs (modify g : Eval Unit) s () (g s) :=
  rfl

/-- The state after a node is noted in the journal. -/
def State.noted (s : State) (id : NodeId) : State :=
  { s with journal := s.journal ++ [id] }

/-- Work on the heap notes the node in the journal. -/
theorem Runs.access (id : NodeId) (g : Heap → Heap × BitVec 64) (s : State) :
    Runs (Machine.access id g) s (g s.heap).2 { s.noted id with heap := (g s.heap).1 } :=
  rfl

end

/-- A change of representation keeps the fixed places of the heap. -/
theorem changeOn_like (f : Change) (v : BitVec 64) (h : Heap) : h.Like (changeOn f v h).1 := by
  have hInteger : ∀ (x : Int) (small : Bool),
      h.Like (if small = true then (h, h.tag x) else h.box (.ofInt x)).1 := by
    rintro x (_ | _)
    · exact ⟨rfl, rfl, rfl⟩
    · exact ⟨rfl, rfl, rfl⟩
  cases f with
  | int32ToTagged | uint32ToTagged => exact hInteger _ _
  | _ => exact ⟨rfl, rfl, rfl⟩

namespace Plan

variable {c : Setting} {p : Plan c} {env : Env} {ask : Ask} {o : NodeId → Prop}
  {d k k' k'' r r' : Nat} {s s' s'' : State} {id x : NodeId} {e : Entry} {l : Label} {n : Node}

/-! ## The invariant -/

/-- What is given is remembered. -/
structure Supplied (p : Plan c) (s : State) : Prop where
  value : ∀ {id e l}, c.given id = true → p.entry id = some e → e.value = some l →
    (s.values id).isSome
  reached : ∀ {id e b}, c.given id = true → p.entry id = some e → e.reached = some b →
    (s.reached id).isSome
  effect : ∀ {id e t}, c.given id = true → p.entry id = some e → e.effect = some t →
    s.effects id = true

/-- What is given stays remembered as long as nothing is forgotten. -/
theorem Supplied.mono (h : p.Supplied s) (hValues : s'.Recalls s)
    (hReached : ∀ id, (s.reached id).isSome → (s'.reached id).isSome)
    (hEffects : ∀ id, s.effects id = true → s'.effects id = true) : p.Supplied s' where
  value hGiven he hl := by
    obtain ⟨v, hv⟩ := Option.isSome_iff_exists.mp (h.value hGiven he hl)
    exact Option.isSome_iff_exists.mpr ⟨v, hValues _ v hv⟩
  reached hGiven he hb := hReached _ (h.reached hGiven he hb)
  effect hGiven he ht := hEffects _ (h.effect hGiven he ht)

/-- Remembering one more control node forgets nothing. -/
theorem Supplied.learn_reached {b : Bool} (h : p.Supplied s) :
    p.Supplied { s with reached := fun x => if x = id then some b else s.reached x } := by
  refine h.mono (fun _ _ hv => hv) (fun x hx => ?_) (fun _ ht => ht)
  show (if x = id then some b else s.reached x).isSome
  split
  · rfl
  · exact hx

/-- What is remembered agrees with the plan, and the first `k` events have happened. -/
structure Holds (p : Plan c) (o : NodeId → Prop) (k : Nat) (s : State) : Prop where
  like : c.heap.Like s.heap
  value : ∀ {id e l v}, p.entry id = some e → e.value = some l → s.values id = some v →
    l.meaning.Of s v ∧ l.stamp ≤ k
  -- a node that acts was computed just when its time has come
  event : ∀ {id e l}, p.entry id = some e → e.value = some l → e.event = true →
    ((s.values id).isSome ↔ l.stamp ≤ k)
  reached : ∀ {id e b b'}, p.entry id = some e → e.reached = some b → s.reached id = some b' →
    b' = b
  effect : ∀ {id e t}, p.entry id = some e → e.effect = some t → s.effects id = true →
    o id ∨ t ≤ k
  -- what the plan knows at the time reached holds of the state
  known : ∀ {K}, p.known k = some K → K.Holds s
  supplied : p.Supplied s
  le : k ≤ p.time

/-- A node about which something planned is not remembered is not given. -/
theorem Holds.value_given (h : p.Holds o k s) (he : p.entry id = some e) (hl : e.value = some l)
    (hNone : s.values id = none) : c.given id = false := by
  cases hGiven : c.given id with
  | false => rfl
  | true =>
    have hSome := h.supplied.value hGiven he hl
    rw [hNone] at hSome
    cases hSome

/-- A control node of which nothing is remembered was not given. -/
theorem Holds.reached_given {b : Bool} (h : p.Holds o k s) (he : p.entry id = some e)
    (hb : e.reached = some b) (hNone : s.reached id = none) : c.given id = false := by
  cases hGiven : c.given id with
  | false => rfl
  | true =>
    have hSome := h.supplied.reached hGiven he hb
    rw [hNone] at hSome
    cases hSome

/-- An effect that is not marked was not given. -/
theorem Holds.effect_given {t : Nat} (h : p.Holds o k s) (he : p.entry id = some e)
    (ht : e.effect = some t) (hMark : s.effects id = false) : c.given id = false := by
  cases hGiven : c.given id with
  | false => rfl
  | true =>
    have hMarked := h.supplied.effect hGiven he ht
    rw [hMark] at hMarked
    cases hMarked

/-- Values are only added, and to nodes of rank below `r`. -/
structure Extends (p : Plan c) (r : Nat) (s s' : State) : Prop where
  recalls : s'.Recalls s
  frame : ∀ {id e}, p.entry id = some e → r ≤ e.rank → s'.values id = s.values id

/-- The evaluation went on from `s` to `s'` within ranks below `r`. -/
structure Moves (p : Plan c) (r : Nat) (o : NodeId → Prop) (k : Nat) (s : State) (k' : Nat)
    (s' : State) : Prop where
  holds : p.Holds o k' s'
  grows : p.Extends r s s'
  le : k ≤ k'

/-- The evaluation has not moved. -/
theorem Moves.refl (h : p.Holds o k s) : p.Moves r o k s k s :=
  ⟨h, ⟨fun _ _ hv => hv, fun _ _ => rfl⟩, Nat.le_refl _⟩

/-- The evaluation has moved twice. -/
theorem Moves.trans (h : p.Moves r o k s k' s') (h' : p.Moves r o k' s' k'' s'') :
    p.Moves r o k s k'' s'' where
  holds := h'.holds
  grows :=
    ⟨fun id v hv => h'.grows.recalls id v (h.grows.recalls id v hv),
      fun he hr => (h'.grows.frame he hr).trans (h.grows.frame he hr)⟩
  le := Nat.le_trans h.le h'.le

/-- Moves below a rank are moves below a greater one. -/
theorem Moves.mono (h : p.Moves r o k s k' s') (hr : r ≤ r') : p.Moves r' o k s k' s' :=
  ⟨h.holds, ⟨h.grows.recalls, fun he hLe => h.grows.frame he (Nat.le_trans hr hLe)⟩, h.le⟩

/-- The journal is not part of the plan. -/
theorem Moves.noted (h : p.Moves r o k s k' s') : p.Moves r o k s k' (s'.noted id) where
  holds :=
    { like := h.holds.like
      value := fun he hl hv =>
        have ⟨hOf, hLe⟩ := h.holds.value he hl hv
        ⟨hOf.mono fun _ _ hw => hw, hLe⟩
      event := h.holds.event
      reached := h.holds.reached
      effect := h.holds.effect
      known := fun {K} hK =>
        K.stable _ _ (h.holds.known hK) (fun _ _ hw => hw) (c.harmless_refl _)
      supplied := h.holds.supplied.mono (fun _ _ hw => hw) (fun _ hb => hb) (fun _ ht => ht)
      le := h.holds.le }
  grows := ⟨h.grows.recalls, h.grows.frame⟩
  le := h.le

/-- No effect of rank below `r` is still being run. -/
def Clear (p : Plan c) (o : NodeId → Prop) (r : Nat) : Prop :=
  ∀ id e, p.entry id = some e → e.rank < r → ¬o id

/-- If no effect below a rank is being run, none is below a smaller one. -/
theorem Clear.mono (h : p.Clear o r') (hr : r ≤ r') : p.Clear o r :=
  fun id e he hLt => h id e he (Nat.lt_of_lt_of_le hLt hr)

/-- `ask` answers what is planned, as far as the ranks allow with depth `d`. -/
structure Answered (p : Plan c) (ask : Ask) (d : Nat) : Prop where
  value : ∀ {id e l o k s}, p.entry id = some e → e.value = some l → 2 * e.rank + 1 ≤ d →
    p.Clear o e.rank → p.Holds o k s →
    ∃ v k' s', Runs (ask (.value id)) s v s' ∧ p.Moves (e.rank + 1) o k s k' s' ∧
      s'.values id = some v
  reached : ∀ {id e b o k s}, p.entry id = some e → e.reached = some b → 2 * e.rank + 1 ≤ d →
    p.Clear o e.rank → p.Holds o k s →
    ∃ k' s', Runs (ask (.reached id)) s b s' ∧ p.Moves (e.rank + 1) o k s k' s'
  effect : ∀ {id e t o k s}, p.entry id = some e → e.effect = some t → 2 * e.rank + 2 ≤ d →
    p.Clear o (e.rank + 1) → p.Holds o k s →
    ∃ k' s', Runs (ask (.effect id)) s () s' ∧ p.Moves (e.rank + 1) o k s k' s' ∧ t ≤ k'
  nothing : ∀ {id s}, id < 0 → 1 ≤ d → Runs (ask (.effect id)) s () s

/-! ## Asking below a rank -/

/-- A value that is planned below a rank can be asked for. -/
theorem Answered.asksValue (hAsk : p.Answered ask d) (hd : 2 * r ≤ d) (hClear : p.Clear o r)
    (hHolds : p.Holds o k s) (h : p.Value r x l) :
    ∃ v k' s', Runs (ask (.value x)) s v s' ∧ p.Moves r o k s k' s' ∧ s'.values x = some v := by
  obtain ⟨e, he, hRank, hl⟩ := h
  obtain ⟨v, k', s', hRuns, hMoves, hv⟩ :=
    hAsk.value he hl (by omega) (hClear.mono (Nat.le_of_lt hRank)) hHolds
  exact ⟨v, k', s', hRuns, hMoves.mono hRank, hv⟩

/-- A control node that is planned below a rank can be asked about. -/
theorem Answered.asksReached {b : Bool} (hAsk : p.Answered ask d) (hd : 2 * r ≤ d)
    (hClear : p.Clear o r) (hHolds : p.Holds o k s) (h : p.Reached r x b) :
    ∃ k' s', Runs (ask (.reached x)) s b s' ∧ p.Moves r o k s k' s' := by
  obtain ⟨e, he, hRank, hb⟩ := h
  obtain ⟨k', s', hRuns, hMoves⟩ :=
    hAsk.reached he hb (by omega) (hClear.mono (Nat.le_of_lt hRank)) hHolds
  exact ⟨k', s', hRuns, hMoves.mono hRank⟩

/-- An effect that is planned below a rank can be asked for. -/
theorem Answered.asksEffect {t : Nat} (hAsk : p.Answered ask d) (hd : 2 * r ≤ d)
    (hClear : p.Clear o r) (hHolds : p.Holds o k s) (h : p.Effect r x t) :
    ∃ k' s', Runs (ask (.effect x)) s () s' ∧ p.Moves r o k s k' s' ∧ t ≤ k' := by
  obtain ⟨e, he, hRank, ht⟩ := h
  obtain ⟨k', s', hRuns, hMoves, hLe⟩ :=
    hAsk.effect he ht (by omega) (hClear.mono hRank) hHolds
  exact ⟨k', s', hRuns, hMoves.mono hRank, hLe⟩

/-- The value of an input. -/
theorem Answered.asksInput {i : Int} (hAsk : p.Answered ask d) (hd : 2 * r ≤ d)
    (hClear : p.Clear o r) (hHolds : p.Holds o k s) (hx : n.input i = .ok x)
    (h : p.Value r x l) :
    ∃ v k' s', Runs (inputValue ask n i) s v s' ∧ p.Moves r o k s k' s' ∧
      s'.values x = some v := by
  obtain ⟨v, k', s', hRuns, hMoves, hv⟩ := hAsk.asksValue hd hClear hHolds h
  exact ⟨v, k', s', Runs.bind (Runs.lift hx s) hRuns, hMoves, hv⟩

/-- The first control node that is reached. -/
theorem Answered.asksFirst {xs : List NodeId} {j i : Nat} (hAsk : p.Answered ask d)
    (hd : 2 * r ≤ d) (hClear : p.Clear o r) (h : p.FirstReached r xs j) (hHolds : p.Holds o k s) :
    ∃ k' s', Runs (firstReached ask i xs) s (some (i + j)) s' ∧ p.Moves r o k s k' s' := by
  induction h generalizing i k s with
  | here h =>
    obtain ⟨k', s', hRuns, hMoves⟩ := hAsk.asksReached hd hClear hHolds h
    exact ⟨k', s', Runs.bind hRuns (Runs.pure _ _), hMoves⟩
  | @later x rest j h _ ih =>
    obtain ⟨k₁, s₁, hRuns, hMoves⟩ := hAsk.asksReached hd hClear hHolds h
    obtain ⟨k', s', hRest, hMoves'⟩ := @ih k₁ s₁ (i + 1) hMoves.holds
    have hIndex : i + 1 + j = i + (j + 1) := by omega
    rw [hIndex] at hRest
    exact ⟨k', s', Runs.bind hRuns hRest, hMoves.trans hMoves'⟩

/-- The input of a join that is taken. -/
theorem Answered.asksTaken {merge : NodeId} {j : Nat} (hAsk : p.Answered ask d)
    (hFits : p.Fits env.graph) (hd : 2 * r ≤ d) (hClear : p.Clear o r) (hHolds : p.Holds o k s)
    (hMerge : n.controlIn = .ok merge) (hTaken : p.Taken r merge j) (hx : n.input j = .ok x) :
    ∃ k' s', Runs (takenValue env ask n) s x s' ∧ p.Moves r o k s k' s' := by
  obtain ⟨m, ⟨e, he, rfl⟩, hFirst⟩ := hTaken
  obtain ⟨k', s', hRuns, hMoves⟩ := hAsk.asksFirst (i := 0) hd hClear hFirst hHolds
  rw [Nat.zero_add] at hRuns
  have hNode : env.graph.node merge = .ok e.node := Graph.node_eq_ok.mpr (hFits merge e he)
  have hIndex : Runs (takenInput env ask merge) s j s' :=
    Runs.bind (Runs.lift hNode s) (Runs.bind hRuns (Runs.pure _ _))
  exact ⟨k', s', Runs.bind (Runs.lift hMerge s) (Runs.bind hIndex (Runs.lift hx s')), hMoves⟩

/-- The effect input of a node, if it has one. -/
theorem Answered.asksAnchor {t : Nat} (hAsk : p.Answered ask d) (hd : 2 * r ≤ d) (hr : 0 < r)
    (hClear : p.Clear o r) (hHolds : p.Holds o k s) (h : p.Anchored r n t) :
    ∃ y k' s', n.effectIn = .ok y ∧ Runs (ask (.effect y)) s () s' ∧
      p.Moves r o k s k' s' ∧ t ≤ k' := by
  obtain ⟨y, hy, ⟨hNeg, rfl⟩ | hEffect⟩ := h
  · exact ⟨y, k, s, hy, hAsk.nothing hNeg (by omega), Moves.refl hHolds, Nat.zero_le _⟩
  · obtain ⟨k', s', hRuns, hMoves, ht⟩ := hAsk.asksEffect hd hClear hHolds hEffect
    exact ⟨y, k', s', hy, hRuns, hMoves, ht⟩

/-! ## Computing a node -/

/-- An argument is the word that was given, as its type has it. -/
theorem argument_runs {i : Nat} {a : BitVec 64} (hInt : n.int = i)
    (ha : env.arguments[i]? = some a) :
    Runs (argument env id n) s (argumentWord s.heap n.mach a) s := by
  have hLt : i < env.arguments.length := (List.getElem?_eq_some_iff.mp ha).1
  unfold argument
  rw [hInt, if_neg (by omega), if_neg (by omega), Int.toNat_natCast, ha]
  cases n.mach <;> rfl

/-- A constant whose word is known is computed without the graph. -/
theorem constant_runs {kind : ConstantKind} {f : Heap → BitVec 64}
    (hf : constantWord? n kind = some f) : Runs (constantValue id n kind) s (f s.heap) s := by
  unfold constantWord? at hf
  cases kind with
  | int32 | int64 | float64 =>
    cases hf
    rfl
  -- an external name may allocate its object, so it has no word ahead of the run
  | external => cases hf
  | heap =>
    simp only at hf
    unfold constantValue
    split at hf
    · next hTrue =>
      cases hf
      simp only [hTrue, if_true]
      rfl
    · next hTrue =>
      split at hf
      · next hFalse =>
        cases hf
        simp only [hFalse, if_true]
        rfl
      · cases hf

/-- The value of a node is what is remembered of it. -/
theorem value_eq {v : BitVec 64} (h : s.values x = some v) : s.value x = v := by
  unfold State.value
  rw [h]
  rfl

/-- A node that looks at values only gives what the rule says. -/
theorem Computes.runs {xs : List NodeId} {f : Heap → (NodeId → BitVec 64) → BitVec 64}
    {labels : NodeId → Label} (h : p.Computes n xs f) (hAsk : p.Answered ask d)
    (hFits : p.Fits env.graph) (hArgs : env.arguments = c.arguments)
    (hn : env.graph.node? id = some n) (hd : 2 * r ≤ d) (hClear : p.Clear o r)
    (hHolds : p.Holds o k s) (hLabels : ∀ x ∈ xs, p.Value r x (labels x)) :
    ∃ k' s', Runs (compute env ask id) s (f s'.heap s'.value) s' ∧ p.Moves r o k s k' s' ∧
      ∀ x ∈ xs, (s'.values x).isSome := by
  have hNode : env.graph.node id = .ok n := Graph.node_eq_ok.mpr hn
  -- One case for each way in which the plan may have the value computed.
  cases h with
  | @argument i a hOp hInt ha =>
    refine ⟨k, s, Runs.bind (Runs.lift hNode s) ?_, Moves.refl hHolds, by simp⟩
    simp only [hOp]
    exact argument_runs hInt (hArgs ▸ ha)
  | constant hOp hf =>
    refine ⟨k, s, Runs.bind (Runs.lift hNode s) ?_, Moves.refl hHolds, by simp⟩
    simp only [hOp]
    exact constant_runs hf
  | @words f x y hOp hx hy =>
    obtain ⟨v, k₁, s₁, hRuns₁, hMoves₁, hv⟩ :=
      hAsk.asksInput hd hClear hHolds hx (hLabels x (by simp))
    obtain ⟨w, k₂, s₂, hRuns₂, hMoves₂, hw⟩ :=
      hAsk.asksInput hd hClear hMoves₁.holds hy (hLabels y (by simp))
    have hv₂ : s₂.values x = some v := hMoves₂.grows.recalls x v hv
    -- The operator says what to do with the two words, and which one it is does not matter here.
    have hWords : Runs (do
        let x ← inputValue ask n 0
        let y ← inputValue ask n 1
        return f x y) s (f v w) s₂ := Runs.bind hRuns₁ (Runs.bind hRuns₂ (Runs.pure _ _))
    refine ⟨k₂, s₂, ?_, hMoves₁.trans hMoves₂, by simp [hv₂, hw]⟩
    show Runs _ s (f (s₂.value x) (s₂.value y)) s₂
    rw [value_eq hv₂, value_eq hw]
    refine Runs.bind (Runs.lift hNode s) ?_
    unfold Operator.onWords? at hOp
    split at hOp <;> cases hOp <;> simp only [*]
  | @convert f x hOp hx =>
    obtain ⟨v, k₁, s₁, hRuns, hMoves, hv⟩ :=
      hAsk.asksInput hd hClear hHolds hx (hLabels x (by simp))
    refine ⟨k₁, s₁, ?_, hMoves, by simp [hv]⟩
    show Runs _ s (f.eval (s₁.value x)) s₁
    rw [value_eq hv]
    refine Runs.bind (Runs.lift hNode s) ?_
    simp only [hOp]
    exact Runs.bind hRuns (Runs.pure _ _)
  | @result x m hOp hInt hx hm =>
    obtain ⟨e, he, rfl⟩ := hm
    have hOperation : env.graph.node x = .ok e.node := Graph.node_eq_ok.mpr (hFits x e he)
    obtain ⟨v, k₁, s₁, hRuns, hMoves, hv⟩ := hAsk.asksValue hd hClear hHolds (hLabels x (by simp))
    refine ⟨k₁, s₁, ?_, hMoves, by simp [hv]⟩
    show Runs _ s (s₁.value x) s₁
    rw [value_eq hv]
    refine Runs.bind (Runs.lift hNode s) ?_
    simp only [hOp]
    refine Runs.bind (Runs.lift hx s) (Runs.bind (Runs.lift hOperation s) ?_)
    -- The first projection is the value of the operation itself.
    rw [if_pos hInt]
    exact hRuns
  | @overflow x y z m hOp hInt hx hm hAdd hy hz =>
    obtain ⟨e, he, rfl⟩ := hm
    have hOperation : env.graph.node x = .ok e.node := Graph.node_eq_ok.mpr (hFits x e he)
    obtain ⟨v, k₁, s₁, hRuns₁, hMoves₁, hv⟩ :=
      hAsk.asksInput hd hClear hHolds hy (hLabels y (by simp))
    obtain ⟨w, k₂, s₂, hRuns₂, hMoves₂, hw⟩ :=
      hAsk.asksInput hd hClear hMoves₁.holds hz (hLabels z (by simp))
    have hv₂ : s₂.values y = some v := hMoves₂.grows.recalls y v hv
    refine ⟨k₂, s₂, ?_, hMoves₁.trans hMoves₂, by simp [hv₂, hw]⟩
    simp only [value_eq hv₂, value_eq hw]
    refine Runs.bind (Runs.lift hNode s) ?_
    simp only [hOp]
    refine Runs.bind (Runs.lift hx s) (Runs.bind (Runs.lift hOperation s) ?_)
    -- The second one computes the overflow from the operands again.
    rw [if_neg (by rw [hInt]; decide)]
    refine Runs.bind hRuns₁ (Runs.bind hRuns₂ ?_)
    simp only [hAdd, Int32Op.overflows?]
    exact Runs.pure _ _

/-- A node that works on the heap does what the rule says, once its effect input is over and the
values it looks at are known. -/
theorem Accesses.runs {xs : List NodeId} {act : (NodeId → BitVec 64) → Heap → Heap × BitVec 64}
    {labels : NodeId → Label} {t : Nat} (h : p.Accesses n xs act) (hAsk : p.Answered ask d)
    (hFits : p.Fits env.graph) (hn : env.graph.node? id = some n) (hd : 2 * r ≤ d)
    (hClear : p.Clear o r) (hHolds : p.Holds o k s)
    (hLabels : ∀ x ∈ xs, p.Value r x (labels x)) (hAnchored : p.Anchored r n t) :
    ∃ k' s', Runs (compute env ask id) s (act s'.value s'.heap).2
        { s' with heap := (act s'.value s'.heap).1 } ∧ p.Moves r o k s k' s' ∧
      (∀ x ∈ xs, (s'.values x).isSome) ∧ t ≤ k' := by
  have hNode : env.graph.node id = .ok n := Graph.node_eq_ok.mpr hn
  -- every access asks for some value, so there are ranks below
  have hr : 0 < r := by
    obtain ⟨x, hx⟩ : ∃ x, x ∈ xs := by cases h <;> exact ⟨_, List.mem_cons_self ..⟩
    obtain ⟨e, -, hRank, -⟩ := hLabels x hx
    exact Nat.zero_lt_of_lt hRank
  obtain ⟨y, k₀, s₀, hy, hRuns₀, hMoves₀, ht⟩ := hAsk.asksAnchor hd hr hClear hHolds hAnchored
  cases h with
  | @call x z m hOp hx hm hName hCount hz =>
    obtain ⟨e, he, rfl⟩ := hm
    have hTarget : env.graph.node x = .ok e.node := Graph.node_eq_ok.mpr (hFits x e he)
    obtain ⟨v, k₁, s₁, hRuns₁, hMoves₁, hv⟩ :=
      hAsk.asksInput hd hClear hMoves₀.holds hz (hLabels z (by simp))
    have hv : (s₁.noted id).values z = some v := hv
    refine ⟨k₁, s₁.noted id, ?_, (hMoves₀.trans hMoves₁).noted, by simp [hv],
      Nat.le_trans ht hMoves₁.le⟩
    simp only [value_eq hv]
    refine Runs.bind (Runs.lift hNode s) ?_
    simp only [hOp]
    refine Runs.bind (Runs.lift hy s) (Runs.bind hRuns₀ (Runs.bind (Runs.lift hx s₀)
      (Runs.bind (Runs.lift hTarget s₀) ?_)))
    rw [if_neg (by simp [hName, hCount])]
    exact Runs.bind hRuns₁ (Runs.access id _ s₁)
  | @load x z hOp hx hz =>
    obtain ⟨v, k₁, s₁, hRuns₁, hMoves₁, hv⟩ :=
      hAsk.asksInput hd hClear hMoves₀.holds hx (hLabels x (by simp))
    obtain ⟨w, k₂, s₂, hRuns₂, hMoves₂, hw⟩ :=
      hAsk.asksInput hd hClear hMoves₁.holds hz (hLabels z (by simp))
    have hv₂ : (s₂.noted id).values x = some v := hMoves₂.grows.recalls x v hv
    have hw : (s₂.noted id).values z = some w := hw
    have ht₂ : t ≤ k₂ := Nat.le_trans ht (Nat.le_trans hMoves₁.le hMoves₂.le)
    refine ⟨k₂, s₂.noted id, ?_, (hMoves₀.trans (hMoves₁.trans hMoves₂)).noted,
      by simp [hv₂, hw], ht₂⟩
    simp only [value_eq hv₂, value_eq hw]
    refine Runs.bind (Runs.lift hNode s) ?_
    simp only [hOp]
    exact Runs.bind (Runs.lift hy s) (Runs.bind hRuns₀ (Runs.bind hRuns₁ (Runs.bind hRuns₂
      (Runs.access id _ s₂))))
  | @store x z u hOp hx hz hu =>
    obtain ⟨v, k₁, s₁, hRuns₁, hMoves₁, hv⟩ :=
      hAsk.asksInput hd hClear hMoves₀.holds hx (hLabels x (by simp))
    obtain ⟨w, k₂, s₂, hRuns₂, hMoves₂, hw⟩ :=
      hAsk.asksInput hd hClear hMoves₁.holds hz (hLabels z (by simp))
    obtain ⟨q, k₃, s₃, hRuns₃, hMoves₃, hq⟩ :=
      hAsk.asksInput hd hClear hMoves₂.holds hu (hLabels u (by simp))
    have hv₃ : (s₃.noted id).values x = some v :=
      hMoves₃.grows.recalls x v (hMoves₂.grows.recalls x v hv)
    have hw₃ : (s₃.noted id).values z = some w := hMoves₃.grows.recalls z w hw
    have hq : (s₃.noted id).values u = some q := hq
    have ht₃ : t ≤ k₃ :=
      Nat.le_trans ht (Nat.le_trans hMoves₁.le (Nat.le_trans hMoves₂.le hMoves₃.le))
    refine ⟨k₃, s₃.noted id, ?_, (hMoves₀.trans (hMoves₁.trans (hMoves₂.trans hMoves₃))).noted,
      by simp [hv₃, hw₃, hq], ht₃⟩
    simp only [value_eq hv₃, value_eq hw₃, value_eq hq]
    refine Runs.bind (Runs.lift hNode s) ?_
    simp only [hOp]
    exact Runs.bind (Runs.lift hy s) (Runs.bind hRuns₀ (Runs.bind hRuns₁ (Runs.bind hRuns₂
      (Runs.bind hRuns₃ (Runs.access id _ s₃)))))
  | @change f x hOp hx =>
    obtain ⟨v, k₁, s₁, hRuns₁, hMoves₁, hv⟩ :=
      hAsk.asksInput hd hClear hMoves₀.holds hx (hLabels x (by simp))
    have hv : (s₁.noted id).values x = some v := hv
    refine ⟨k₁, s₁.noted id, ?_, (hMoves₀.trans hMoves₁).noted, by simp [hv],
      Nat.le_trans ht hMoves₁.le⟩
    simp only [value_eq hv]
    refine Runs.bind (Runs.lift hNode s) ?_
    simp only [hOp]
    exact Runs.bind (Runs.lift hy s) (Runs.bind hRuns₀ (Runs.bind hRuns₁ (Runs.access id _ s₁)))

/-- No access moves the fixed places of the heap. -/
theorem Accesses.like {xs : List NodeId} {act : (NodeId → BitVec 64) → Heap → Heap × BitVec 64}
    (h : p.Accesses n xs act) (v : NodeId → BitVec 64) (heap : Heap) :
    heap.Like (act v heap).1 := by
  cases h with
  | call | load | store => exact ⟨rfl, rfl, rfl⟩
  | @change f x => exact changeOn_like f (v x) heap

/-! ## Remembering a value -/

/-- Remembering a value forgets none. -/
theorem learn_recalls {q : Heap × BitVec 64} (hNone : s.values id = none) :
    (s.learn id q).Recalls s := by
  intro x v hv
  have hNe : x ≠ id := by
    rintro rfl
    rw [hNone] at hv
    cases hv
  show (if x = id then some q.2 else s.values x) = some v
  rw [if_neg hNe]
  exact hv

/-- What was learned is remembered. -/
theorem learn_values {q : Heap × BitVec 64} : (s.learn id q).values id = some q.2 :=
  if_pos rfl

/-- The other values are remembered as they were. -/
theorem learn_values_of_ne {q : Heap × BitVec 64} (h : x ≠ id) :
    (s.learn id q).values x = s.values x :=
  if_neg h

/-- A value that is learned is one of those that were missing. -/
theorem grows_learn {q : Heap × BitVec 64} (he : p.entry id = some e)
    (hNone : s.values id = none) : p.Extends (e.rank + 1) s (s.learn id q) where
  recalls := learn_recalls hNone
  frame := by
    intro x e' he' hr
    refine learn_values_of_ne ?_
    rintro rfl
    rw [he] at he'
    cases he'
    omega

/-- A new value agrees with the plan when it is what its label says. -/
theorem Holds.learn_value {q : Heap × BitVec 64} (h : p.Holds o k s) (he : p.entry id = some e)
    (hl : e.value = some l) (hNone : s.values id = none)
    (hMeans : l.meaning.Of (s.learn id q) q.2) (hStamp : l.stamp ≤ k') (hk : k ≤ k') :
    ∀ {x e' l' v}, p.entry x = some e' → e'.value = some l' → (s.learn id q).values x = some v →
      l'.meaning.Of (s.learn id q) v ∧ l'.stamp ≤ k' := by
  intro x e' l' v he' hl' hv
  by_cases hx : x = id
  · subst hx
    rw [learn_values] at hv
    rw [he] at he'
    cases he'
    rw [hl] at hl'
    cases hl'
    cases hv
    exact ⟨hMeans, hStamp⟩
  · rw [learn_values_of_ne hx] at hv
    obtain ⟨hOf, hLe⟩ := h.value he' hl' hv
    exact ⟨hOf.mono (learn_recalls hNone), Nat.le_trans hLe hk⟩

/-- A node that is no event leaves everything as it was. -/
theorem Holds.learn_still {q : Heap × BitVec 64} (h : p.Holds o k s) (he : p.entry id = some e)
    (hl : e.value = some l) (hEvent : e.event = false) (hNone : s.values id = none)
    (hHarmless : c.Harmless s.heap q.1) (hMeans : l.meaning.Of (s.learn id q) q.2)
    (hStamp : l.stamp ≤ k) : p.Holds o k (s.learn id q) where
  like := h.like.trans (c.harmless_like _ _ hHarmless)
  value := h.learn_value he hl hNone hMeans hStamp (Nat.le_refl _)
  event := by
    intro x e' l' he' hl' hEvent'
    -- `id` is no event, so no clock moves
    have hNe : x ≠ id := by
      rintro rfl
      rw [he] at he'
      cases he'
      rw [hEvent] at hEvent'
      cases hEvent'
    rw [learn_values_of_ne hNe]
    exact h.event he' hl' hEvent'
  reached := h.reached
  effect := h.effect
  known := fun hK => Knowledge.stable _ _ _ (h.known hK) (learn_recalls hNone) hHarmless
  supplied := h.supplied.mono (learn_recalls hNone) (fun _ hb => hb) (fun _ ht => ht)
  le := h.le

/-- An event happens right after the one before it. -/
theorem Holds.learn_event {q : Heap × BitVec 64} {after : Knowledge c} (hv : p.Valid)
    (h : p.Holds o k s) (he : p.entry id = some e) (hl : e.value = some l)
    (hEvent : e.event = true) (hNone : s.values id = none) (hLike : s.heap.Like q.1)
    (hMeans : l.meaning.Of (s.learn id q) q.2) (hStamp : l.stamp - 1 ≤ k) (hPos : 0 < l.stamp)
    (hAfter : p.known l.stamp = some after) (hHolds : after.Holds (s.learn id q)) :
    p.Holds o l.stamp (s.learn id q) ∧ k ≤ l.stamp := by
  -- it has not happened yet, so exactly the events before it have
  have hk : k + 1 = l.stamp := by
    have hNot : ¬l.stamp ≤ k := by
      intro hLe
      have hSome := (h.event he hl hEvent).mpr hLe
      rw [hNone] at hSome
      cases hSome
    omega
  have hLe : k ≤ l.stamp := by omega
  refine ⟨?_, hLe⟩
  constructor
  case like => exact h.like.trans hLike
  case value => exact h.learn_value he hl hNone hMeans (Nat.le_refl _) hLe
  case event =>
    intro x e' l' he' hl' hEvent'
    by_cases hx : x = id
    · subst hx
      rw [he] at he'
      cases he'
      rw [hl] at hl'
      cases hl'
      rw [learn_values]
      simp
    · rw [learn_values_of_ne hx, h.event he' hl' hEvent']
      have hOther : l'.stamp ≠ l.stamp := by
        intro hEq
        exact hx (hv.once he' hl' hEvent' he hl hEvent hEq)
      omega
  case reached => exact h.reached
  case effect =>
    intro x e' t he' ht hMark
    obtain hOpen | hDone := h.effect he' ht hMark
    · exact .inl hOpen
    · exact .inr (Nat.le_trans hDone hLe)
  case known =>
    intro K hK
    rw [hAfter] at hK
    cases hK
    exact hHolds
  case supplied => exact h.supplied.mono (learn_recalls hNone) (fun _ hb => hb) (fun _ ht => ht)
  case le => exact hv.stamp_le he hl

/-! ## Answering a question -/

/-- What stamps say once the nodes asked for are known. -/
theorem Backs.le {xs : List NodeId} {labels : NodeId → Label} {t stamp : Nat}
    (h : Backs xs labels t stamp) (hHolds : p.Holds o k s) (ht : t ≤ k)
    (hLabels : ∀ x ∈ xs, p.Value r x (labels x)) (hSome : ∀ x ∈ xs, (s.values x).isSome) :
    stamp ≤ k := by
  obtain hLe | ⟨x, hx, hLe⟩ := h
  · exact Nat.le_trans hLe ht
  · obtain ⟨e, he, -, hl⟩ := hLabels x hx
    obtain ⟨v, hv⟩ := Option.isSome_iff_exists.mp (hSome x hx)
    exact Nat.le_trans hLe (hHolds.value he hl hv).2

/-- What is remembered of some nodes means what was planned. -/
theorem Holds.means {xs : List NodeId} {labels : NodeId → Label} (hHolds : p.Holds o k s)
    (hLabels : ∀ x ∈ xs, p.Value r x (labels x)) (hSome : ∀ x ∈ xs, (s.values x).isSome) :
    ∀ x ∈ xs, (labels x).meaning.Of s (s.value x) := by
  intro x hx
  obtain ⟨e, he, -, hl⟩ := hLabels x hx
  obtain ⟨v, hv⟩ := Option.isSome_iff_exists.mp (hSome x hx)
  rw [value_eq hv]
  exact (hHolds.value he hl hv).1

/-- Computing a node whose value is planned. -/
theorem Valid.computes (hv : p.Valid) (hFits : p.Fits env.graph)
    (hArgs : env.arguments = c.arguments) (hAsk : p.Answered ask d) (he : p.entry id = some e)
    (hl : e.value = some l) (hd : 2 * e.rank ≤ d) (hClear : p.Clear o e.rank)
    (hHolds : p.Holds o k s) (hNone : s.values id = none) :
    ∃ (k' : Nat) (s' : State) (q : Heap × BitVec 64),
      Runs (compute env ask id) s q.2 { s' with heap := q.1 } ∧
      p.Moves (e.rank + 1) o k s k' (s'.learn id q) := by
  have hn : env.graph.node? id = some e.node := hFits id e he
  -- nodes of lower rank leave this one alone
  have hFresh : ∀ {k' s'}, p.Moves e.rank o k s k' s' → s'.values id = none := by
    intro k' s' hMoves
    rw [hMoves.grows.frame he (Nat.le_refl _)]
    exact hNone
  have hLearn : ∀ {k' k'' s' q}, p.Moves e.rank o k s k' s' → p.Holds o k'' (s'.learn id q) →
      k' ≤ k'' → p.Moves (e.rank + 1) o k s k'' (s'.learn id q) := by
    intro k' k'' s' q hMoves hHolds' hLe
    exact (hMoves.mono (Nat.le_succ _)).trans
      ⟨hHolds', grows_learn he (hFresh hMoves), hLe⟩
  have hGrants := hv.value (hHolds.value_given he hl hNone) he hl
  generalize hEvent : e.event = event at hGrants
  cases hGrants with
  | compute hComputes hLabels hStamp hMeans =>
    obtain ⟨k', s', hRuns, hMoves, hSome⟩ :=
      hComputes.runs hAsk hFits hArgs hn hd hClear hHolds hLabels
    have hOf := hMeans s' hMoves.holds.like (hMoves.holds.means hLabels hSome)
    have hLe := hStamp.le hMoves.holds (Nat.zero_le _) hLabels hSome
    refine ⟨k', s', (s'.heap, _), hRuns, hLearn hMoves ?_ (Nat.le_refl _)⟩
    exact hMoves.holds.learn_still he hl hEvent (hFresh hMoves) (c.harmless_refl _)
      (hOf.mono (learn_recalls (hFresh hMoves))) hLe
  | @phi merge x j l hOp hMerge hTaken hx hValue =>
    obtain ⟨k₁, s₁, hRuns₁, hMoves₁⟩ :=
      hAsk.asksTaken hFits hd hClear hHolds hMerge hTaken hx
    obtain ⟨w, k₂, s₂, hRuns₂, hMoves₂, hw⟩ := hAsk.asksValue hd hClear hMoves₁.holds hValue
    have hMoves := hMoves₁.trans hMoves₂
    obtain ⟨e', he', -, hl'⟩ := hValue
    obtain ⟨hOf, hLe⟩ := hMoves₂.holds.value he' hl' hw
    have hRuns : Runs (compute env ask id) s w s₂ := by
      refine Runs.bind (Runs.lift (Graph.node_eq_ok.mpr hn) s) ?_
      simp only [hOp]
      exact Runs.bind hRuns₁ hRuns₂
    refine ⟨k₂, s₂, (s₂.heap, w), hRuns, hLearn hMoves ?_ (Nat.le_refl _)⟩
    exact hMoves.holds.learn_still he hl hEvent (hFresh hMoves) (c.harmless_refl _)
      (hOf.mono (learn_recalls (hFresh hMoves))) hLe
  | @finish x effect t l l' hOp hx hEffect hValue hFlow hMeaning hStamp =>
    obtain ⟨k₁, s₁, hRuns₁, hMoves₁, ht⟩ := hAsk.asksEffect hd hClear hHolds hFlow
    obtain ⟨w, k₂, s₂, hRuns₂, hMoves₂, hw⟩ :=
      hAsk.asksInput hd hClear hMoves₁.holds hx hValue
    have hMoves := hMoves₁.trans hMoves₂
    obtain ⟨e', he', -, hl'⟩ := hValue
    obtain ⟨hOf, -⟩ := hMoves₂.holds.value he' hl' hw
    rw [← hMeaning] at hOf
    have hRuns : Runs (compute env ask id) s w s₂ := by
      refine Runs.bind (Runs.lift (Graph.node_eq_ok.mpr hn) s) ?_
      simp only [hOp]
      exact Runs.bind (Runs.lift hEffect s) (Runs.bind hRuns₁ hRuns₂)
    refine ⟨k₂, s₂, (s₂.heap, w), hRuns, hLearn hMoves ?_ (Nat.le_refl _)⟩
    exact hMoves.holds.learn_still he hl hEvent (hFresh hMoves) (c.harmless_refl _)
      (hOf.mono (learn_recalls (hFresh hMoves)))
      (Nat.le_trans hStamp (Nat.le_trans ht hMoves₂.le))
  | still hAccesses hLabels hAnchored hStamp hMeans =>
    obtain ⟨k', s', hRuns, hMoves, hSome, ht⟩ :=
      hAccesses.runs hAsk hFits hn hd hClear hHolds hLabels hAnchored
    obtain ⟨hHarmless, hOf⟩ :=
      hMeans s' hMoves.holds.like (hFresh hMoves) (hMoves.holds.means hLabels hSome)
    have hLe := hStamp.le hMoves.holds ht hLabels hSome
    refine ⟨k', s', _, hRuns, hLearn hMoves ?_ (Nat.le_refl _)⟩
    exact hMoves.holds.learn_still he hl hEvent (hFresh hMoves) hHarmless hOf hLe
  | event hAccesses hLabels hAnchored hPos hStamp hBefore hAfter hMeans =>
    obtain ⟨k', s', hRuns, hMoves, hSome, ht⟩ :=
      hAccesses.runs hAsk hFits hn hd hClear hHolds hLabels hAnchored
    have hLe := hStamp.le hMoves.holds ht hLabels hSome
    have hNow : k' = l.stamp - 1 := by
      have hNot : ¬l.stamp ≤ k' := by
        intro h
        have hIs := (hMoves.holds.event he hl hEvent).mpr h
        rw [hFresh hMoves] at hIs
        cases hIs
      omega
    have hKnown := hMoves.holds.known (hNow ▸ hBefore)
    obtain ⟨hHolds', hOf⟩ :=
      hMeans s' hMoves.holds.like (hFresh hMoves) (hMoves.holds.means hLabels hSome) hKnown
    obtain ⟨hNew, hLe'⟩ := hMoves.holds.learn_event hv he hl hEvent (hFresh hMoves)
      (hAccesses.like _ _) hOf hLe hPos hAfter hHolds'
    exact ⟨l.stamp, s', _, hRuns, hLearn hMoves hNew hLe'⟩

/-- A value is answered as planned. -/
theorem Valid.respondsValue (hv : p.Valid) (hFits : p.Fits env.graph)
    (hArgs : env.arguments = c.arguments) (hAsk : p.Answered ask d) (he : p.entry id = some e)
    (hl : e.value = some l) (hd : 2 * e.rank ≤ d) (hClear : p.Clear o e.rank)
    (hHolds : p.Holds o k s) :
    ∃ v k' s', Runs (respond env ask (.value id)) s v s' ∧
      p.Moves (e.rank + 1) o k s k' s' ∧ s'.values id = some v := by
  cases hKnown : s.values id with
  -- a value that was computed before is remembered
  | some v =>
    refine ⟨v, k, s, ?_, Moves.refl hHolds, hKnown⟩
    refine Runs.bind (Runs.get s) ?_
    simp only [hKnown]
    exact Runs.pure _ _
  | none =>
    obtain ⟨k', s', q, hRuns, hMoves⟩ :=
      hv.computes hFits hArgs hAsk he hl hd hClear hHolds hKnown
    refine ⟨q.2, k', s'.learn id q, ?_, hMoves, learn_values⟩
    refine Runs.bind (Runs.get s) ?_
    simp only [hKnown]
    exact Runs.bind hRuns (Runs.bind (Runs.modifies _ _) (Runs.pure _ _))

/-- Deciding a control node that is planned. -/
theorem Valid.decides {b : Bool} (hv : p.Valid) (hFits : p.Fits env.graph)
    (hAsk : p.Answered ask d) (he : p.entry id = some e) (hb : e.reached = some b)
    (hd : 2 * e.rank ≤ d) (hClear : p.Clear o e.rank) (hHolds : p.Holds o k s)
    (hGiven : c.given id = false) :
    ∃ k' s', Runs (decideReached env ask id) s b s' ∧ p.Moves e.rank o k s k' s' := by
  have hNode : env.graph.node id = .ok e.node := Graph.node_eq_ok.mpr (hFits id e he)
  have hArrives := hv.reached hGiven he hb
  generalize e.rank = r at *
  generalize e.node = n at *
  -- One case for each way in which control may arrive.
  cases hArrives with
  | start hOp =>
    refine ⟨k, s, Runs.bind (Runs.lift hNode s) ?_, Moves.refl hHolds⟩
    simp only [hOp]
    exact Runs.pure _ _
  | merge hOp hFirst =>
    obtain ⟨k', s', hRuns, hMoves⟩ := hAsk.asksFirst (i := 0) hd hClear hFirst hHolds
    refine ⟨k', s', Runs.bind (Runs.lift hNode s) ?_, hMoves⟩
    simp only [hOp]
    exact Runs.bind hRuns (Runs.pure _ _)
  | @branch b control x m v t hOp hInput hm hControl hReached hCount hx hValue =>
    obtain ⟨e', he', rfl⟩ := hm
    have hBranch : env.graph.node b = .ok e'.node := Graph.node_eq_ok.mpr (hFits b e' he')
    have hControlIn : env.graph.controlIn b = .ok control := by
      unfold Graph.controlIn
      rw [hBranch]
      exact hControl
    have hValueIn : env.graph.valueIn b 0 = .ok x := by
      unfold Graph.valueIn
      rw [hBranch]
      show (if e'.node.valueCount ≤ 0 then _ else e'.node.input 0) = _
      rw [if_neg (by omega)]
      exact hx
    obtain ⟨k₁, s₁, hRuns₁, hMoves₁⟩ := hAsk.asksReached hd hClear hHolds hReached
    obtain ⟨w, k₂, s₂, hRuns₂, hMoves₂, hw⟩ := hAsk.asksValue hd hClear hMoves₁.holds hValue
    obtain ⟨ex, hex, -, hlx⟩ := hValue
    -- The condition has the word that was planned, since it is remembered.
    have hwv : w = v := (hMoves₂.holds.value hex hlx hw).1
    subst hwv
    refine ⟨k₂, s₂, Runs.bind (Runs.lift hNode s) ?_, hMoves₁.trans hMoves₂⟩
    obtain hOp | hOp := hOp <;> simp only [hOp]
    all_goals
      exact Runs.bind (Runs.lift hInput s) (Runs.bind (Runs.lift hControlIn s) (Runs.bind hRuns₁
        (Runs.bind (Runs.lift hValueIn s₁) (Runs.bind hRuns₂ (Runs.pure _ _)))))
  | @through control b hOp hControl hNonneg hReached =>
    obtain ⟨k', s', hRuns, hMoves⟩ := hAsk.asksReached hd hClear hHolds hReached
    have hPass : Runs (do
        let control ← n.controlIn
        if control < 0 then throw (.malformed id n.op .notControl)
        ask (.reached control)) s b s' := by
      refine Runs.bind (Runs.lift hControl s) ?_
      rw [if_neg (Int.not_lt.mpr hNonneg)]
      exact hRuns
    refine ⟨k', s', Runs.bind (Runs.lift hNode s) ?_, hMoves⟩
    cases hn : n.op <;> rw [hn] at hOp <;> cases hOp
    all_goals
      simp only [hn] at hPass ⊢
      exact hPass

/-- Whether a control node is reached is answered as planned. -/
theorem Valid.respondsReached {b : Bool} (hv : p.Valid) (hFits : p.Fits env.graph)
    (hAsk : p.Answered ask d) (he : p.entry id = some e) (hb : e.reached = some b)
    (hd : 2 * e.rank ≤ d) (hClear : p.Clear o e.rank) (hHolds : p.Holds o k s) :
    ∃ k' s', Runs (respond env ask (.reached id)) s b s' ∧
      p.Moves (e.rank + 1) o k s k' s' := by
  -- What is remembered is answered; otherwise it is decided now.
  cases hKnown : s.reached id with
  | some b' =>
    obtain rfl : b' = b := hHolds.reached he hb hKnown
    refine ⟨k, s, Runs.bind (Runs.get s) ?_, Moves.refl hHolds⟩
    simp only [hKnown]
    exact Runs.pure _ _
  | none =>
    obtain ⟨k', s', hRuns, hMoves⟩ := hv.decides hFits hAsk he hb hd hClear hHolds
      (hHolds.reached_given he hb hKnown)
    have h := hMoves.holds
    refine ⟨k', { s' with reached := fun x => if x = id then some b else s'.reached x },
      Runs.bind (Runs.get s) ?_, ?_⟩
    · simp only [hKnown]
      exact Runs.bind hRuns (Runs.bind (Runs.modifies _ _) (Runs.pure _ _))
    · refine ⟨⟨h.like, ?_, h.event, ?_, h.effect, ?_, h.supplied.learn_reached, h.le⟩,
        ⟨hMoves.grows.recalls, fun he' hr => hMoves.grows.frame he' (by omega)⟩, hMoves.le⟩
      · intro x e' l v he' hl' hv'
        obtain ⟨hOf, hLe⟩ := h.value he' hl' hv'
        exact ⟨hOf.mono fun _ _ hw => hw, hLe⟩
      · intro x e' a a' he' ha ha'
        simp only at ha'
        -- The node itself is remembered as planned, the others as before.
        split at ha'
        · next hx =>
          subst hx
          rw [he] at he'
          cases he'
          rw [hb] at ha
          exact (Option.some.inj ha').symm.trans (Option.some.inj ha)
        · exact h.reached he' ha ha'
      · intro K hK
        exact K.stable _ _ (h.known hK) (fun _ _ hw => hw) (c.harmless_refl _)

/-- Running the effects up to a node whose effect is planned and which was just marked as run. -/
theorem Valid.flows {t : Nat} (hv : p.Valid) (hFits : p.Fits env.graph)
    (hAsk : p.Answered ask d) (he : p.entry id = some e) (ht : e.effect = some t)
    (hd : 2 * e.rank + 1 ≤ d) (hClear : p.Clear o e.rank) (hHolds : p.Holds o k s)
    (hGiven : c.given id = false) :
    ∃ k' s', Runs (runEffect env ask id) s () s' ∧ p.Moves (e.rank + 1) o k s k' s' ∧ t ≤ k' := by
  have hNode : env.graph.node id = .ok e.node := Graph.node_eq_ok.mpr (hFits id e he)
  have hd' : 2 * e.rank ≤ d := by omega
  have hFlows := hv.effect hGiven he ht
  generalize hn : e.node = n at *
  cases hFlows with
  | quiet hOp =>
    refine ⟨k, s, Runs.bind (Runs.lift hNode s) ?_, Moves.refl hHolds, Nat.zero_le _⟩
    obtain hOp | hOp | hOp := hOp <;> simp only [hOp] <;> exact Runs.pure _ _
  | join hOp hMerge hTaken hx hEffect =>
    obtain ⟨k₁, s₁, hRuns₁, hMoves₁⟩ := hAsk.asksTaken hFits hd' hClear hHolds hMerge hTaken hx
    obtain ⟨k₂, s₂, hRuns₂, hMoves₂, hLe⟩ := hAsk.asksEffect hd' hClear hMoves₁.holds hEffect
    refine ⟨k₂, s₂, Runs.bind (Runs.lift hNode s) ?_,
      (hMoves₁.trans hMoves₂).mono (Nat.le_succ _), hLe⟩
    simp only [hOp]
    exact Runs.bind hRuns₁ hRuns₂
  | @finish x t hOp hInputs hEffect =>
    obtain ⟨k₁, s₁, hRuns₁, hMoves₁, hLe⟩ := hAsk.asksEffect hd' hClear hHolds hEffect
    refine ⟨k₁, s₁, Runs.bind (Runs.lift hNode s) ?_, hMoves₁.mono (Nat.le_succ _), hLe⟩
    simp only [hOp]
    have hInputs' : Runs ([x].forM fun y => ask (.effect y)) s () s₁ :=
      Runs.bind hRuns₁ (Runs.pure _ _)
    exact Runs.bind (Runs.lift hInputs s) (Runs.bind hInputs' (Runs.pure _ _))
  | @access xs l hOp hInputs hEffects hValue =>
    -- first the effect inputs, then the value for its effect
    have hAll : ∀ (ys : List NodeId), (∀ y ∈ ys, ∃ t, p.Effect e.rank y t) → ∀ {k s},
        p.Holds o k s → ∃ k' s', Runs (ys.forM fun y => ask (.effect y)) s () s' ∧
          p.Moves e.rank o k s k' s' := by
      intro ys
      induction ys with
      | nil => exact fun _ {k s} h => ⟨k, s, Runs.pure _ _, Moves.refl h⟩
      | cons y ys ih =>
        intro hys k s h
        obtain ⟨t, hy⟩ := hys y (by simp)
        obtain ⟨k₁, s₁, hRuns₁, hMoves₁, -⟩ := hAsk.asksEffect hd' hClear h hy
        obtain ⟨k₂, s₂, hRuns₂, hMoves₂⟩ := ih (fun z hz => hys z (by simp [hz])) hMoves₁.holds
        exact ⟨k₂, s₂, Runs.bind hRuns₁ hRuns₂, hMoves₁.trans hMoves₂⟩
    obtain ⟨k₁, s₁, hRuns₁, hMoves₁⟩ := hAll xs hEffects hHolds
    obtain ⟨v, k₂, s₂, hRuns₂, hMoves₂, hw⟩ := hAsk.value he hValue hd hClear hMoves₁.holds
    refine ⟨k₂, s₂, Runs.bind (Runs.lift hNode s) ?_,
      (hMoves₁.mono (Nat.le_succ _)).trans hMoves₂, (hMoves₂.holds.value he hValue hw).2⟩
    cases hCase : n.op <;> rw [hCase] at hOp <;> cases hOp
    all_goals
      exact Runs.bind (Runs.lift hInputs s) (Runs.bind hRuns₁ (Runs.bind hRuns₂ (Runs.pure _ _)))

/-- An effect is run up to the event that is planned. -/
theorem Valid.respondsEffect {t : Nat} (hv : p.Valid) (hFits : p.Fits env.graph)
    (hAsk : p.Answered ask d) (he : p.entry id = some e) (ht : e.effect = some t)
    (hd : 2 * e.rank + 1 ≤ d) (hClear : p.Clear o (e.rank + 1)) (hHolds : p.Holds o k s) :
    ∃ k' s', Runs (respond env ask (.effect id)) s () s' ∧
      p.Moves (e.rank + 1) o k s k' s' ∧ t ≤ k' := by
  have hNonneg : ¬id < 0 := Int.not_lt.mpr (Graph.node?_lt (hFits id e he)).1
  cases hMark : s.effects id with
  | true =>
    have hDone : t ≤ k := by
      obtain hOpen | hLe := hHolds.effect he ht hMark
      · exact absurd hOpen (hClear id e he (Nat.lt_succ_self _))
      · exact hLe
    refine ⟨k, s, Runs.bind (Runs.get s) ?_, Moves.refl hHolds, hDone⟩
    rw [if_pos (by simp [hMark])]
    exact Runs.pure _ _
  | false =>
    -- while it runs, the effect counts as open
    let marked : State := { s with effects := fun x => x = id || s.effects x }
    have hOpen : p.Holds (fun x => o x ∨ x = id) k marked := by
      refine ⟨hHolds.like, ?_, hHolds.event, hHolds.reached, ?_, ?_,
        hHolds.supplied.mono (fun _ _ hw => hw) (fun _ hb => hb) (by simp +contextual [marked]),
        hHolds.le⟩
      · intro x e' l v he' hl' hv'
        obtain ⟨hOf, hLe⟩ := hHolds.value he' hl' hv'
        exact ⟨hOf.mono fun _ _ hw => hw, hLe⟩
      · intro x e' t' he' ht' hMarked
        by_cases hx : x = id
        · exact .inl (.inr hx)
        · have hOld : s.effects x = true := by simpa [marked, hx] using hMarked
          obtain hOpen | hLe := hHolds.effect he' ht' hOld
          · exact .inl (.inl hOpen)
          · exact .inr hLe
      · intro K hK
        exact K.stable _ _ (hHolds.known hK) (fun _ _ hw => hw) (c.harmless_refl _)
    have hClear' : p.Clear (fun x => o x ∨ x = id) e.rank := by
      intro x e' he' hLt hx
      obtain hx | rfl := hx
      · exact hClear x e' he' (by omega) hx
      · rw [he] at he'
        cases he'
        omega
    obtain ⟨k', s', hRuns, hMoves, hLe⟩ := hv.flows hFits hAsk he ht hd hClear' hOpen
      (hHolds.effect_given he ht hMark)
    have h := hMoves.holds
    refine ⟨k', s', Runs.bind (Runs.get s) ?_, ⟨⟨h.like, h.value, h.event, h.reached, ?_, h.known,
      h.supplied, h.le⟩, ⟨hMoves.grows.recalls, hMoves.grows.frame⟩, hMoves.le⟩, hLe⟩
    · rw [if_neg (by simp [hMark, hNonneg])]
      exact Runs.bind (Runs.modifies _ s) hRuns
    · intro x e' t' he' ht' hMarked
      obtain (hOpen | rfl) | hDone := h.effect he' ht' hMarked
      · exact .inl hOpen
      · rw [he] at he'
        cases he'
        rw [ht] at ht'
        cases ht'
        exact .inr hLe
      · exact .inr hDone

/-- Every question is answered as planned, to the depth that the ranks ask for. -/
theorem Valid.answered (hv : p.Valid) (hFits : p.Fits env.graph)
    (hArgs : env.arguments = c.arguments) (d : Nat) : p.Answered (answer env d) d := by
  induction d with
  -- at depth zero nothing may be asked
  | zero =>
    constructor
    all_goals intros
    all_goals omega
  | succ d ih =>
    constructor
    case value =>
      intro id e l o k s he hl hd hClear hHolds
      exact hv.respondsValue hFits hArgs ih he hl (by omega) hClear hHolds
    case reached =>
      intro id e b o k s he hb hd hClear hHolds
      exact hv.respondsReached hFits ih he hb (by omega) hClear hHolds
    case effect =>
      intro id e t o k s he ht hd hClear hHolds
      exact hv.respondsEffect hFits ih he ht (by omega) hClear hHolds
    case nothing =>
      intro id s hNeg _
      refine Runs.bind (Runs.get s) ?_
      rw [if_pos (by simp [hNeg])]
      exact Runs.pure _ _

/-! ## A whole run -/

/-- At the start of a run nothing has happened. -/
theorem Valid.holds_start (hv : p.Valid) (hPlain : ∀ id, c.given id = false)
    (hStart : ∀ K, p.known 0 = some K → K.Holds { heap := c.heap }) :
    p.Holds (fun _ => False) 0 { heap := c.heap } where
  like := Heap.Like.refl _
  value := by
    intro id e l v _ _ hNone
    cases hNone
  -- No event has happened, and what an event gives has a positive stamp.
  event := by
    intro id e l he hl hEvent
    have hPos : 0 < l.stamp := by
      have hGrants := hv.value (hPlain id) he hl
      rw [hEvent] at hGrants
      cases hGrants with
      | event _ _ _ hPos => exact hPos
    simp only [Option.isSome_none, Bool.false_eq_true, false_iff]
    omega
  reached := by
    intro id e b b' _ _ hNone
    cases hNone
  effect := by
    intro id e t _ _ hMark
    cases hMark
  known := hStart _
  -- A plan without given nodes supplies nothing.
  supplied := by
    constructor
    all_goals
      intro id e _ hGiven
      rw [hPlain id] at hGiven
      cases hGiven
  le := Nat.zero_le _

/-- A graph with one return, whose value, effect and control are planned, gives the value, and the
plan holds of the state that is left. -/
theorem Valid.evaluates (hv : p.Valid) (hPlain : ∀ id, c.given id = false) {g : Graph}
    (hFits : p.Fits g) {exit ret x y z : NodeId}
    {last rn : Node} {t : Nat} (hExit : g.exit = some exit) (hLast : g.node? exit = some last)
    (hReturns : last.controlInputs = .ok [ret]) (hRet : g.node? ret = some rn)
    (hOp : rn.op = .ret) (hOut : p.entry ret = none) (hValueIn : g.valueIn ret 0 = .ok x)
    (hEffectIn : rn.effectIn = .ok y) (hControlIn : rn.controlIn = .ok z)
    (hValue : p.Value p.count x l) (hEffect : p.Effect p.count y t)
    (hReached : p.Reached p.count z true) (hCount : p.count ≤ g.size)
    (hStart : ∀ K, p.known 0 = some K → K.Holds { heap := c.heap }) :
    ∃ v k s', run ⟨c.heap⟩ g c.arguments = (.ok v, ⟨s'.heap⟩) ∧
      p.Holds (fun _ => False) k s' ∧ s'.values x = some v ∧ t ≤ k := by
  let env : Env := ⟨g, c.arguments⟩
  have hNonneg : ¬z < 0 := by
    obtain ⟨e, he, -, -⟩ := hReached
    exact Int.not_lt.mpr (Graph.node?_lt (hFits z e he)).1
  have hClear : p.Clear (fun _ => False) p.count := fun _ _ _ _ h => h
  -- one level of the depth is for the return, the others are for the plan
  obtain ⟨d, hDepth, hd⟩ : ∃ d, depthFor g = d + 1 ∧ 2 * p.count ≤ d := by
    have hSquare : 4 * (g.size + 2) ≤ depthFor g :=
      Nat.le_mul_of_pos_right _ (Nat.succ_pos _)
    exact ⟨depthFor g - 1, by omega, by omega⟩
  have hAnswered : p.Answered (answer env d) d := hv.answered hFits rfl d
  have hAnswered' : p.Answered (answer env (d + 1)) (d + 1) := hv.answered hFits rfl (d + 1)
  have hNode : env.graph.node ret = .ok rn := Graph.node_eq_ok.mpr hRet
  obtain ⟨k₁, s₁, hRuns₁, hMoves₁⟩ :=
    hAnswered.asksReached hd hClear (hv.holds_start hPlain hStart) hReached
  let s₂ : State := { s₁ with reached := fun w => if w = ret then some true else s₁.reached w }
  have hReturn : Runs (answer env (d + 1) (.reached ret)) { heap := c.heap } true s₂ := by
    refine Runs.bind (Runs.get _) (Runs.bind ?_ (Runs.bind (Runs.modifies _ s₁) (Runs.pure _ _)))
    refine Runs.bind (Runs.lift hNode _) ?_
    simp only [hOp]
    refine Runs.bind (Runs.lift hControlIn _) ?_
    rw [if_neg hNonneg]
    exact hRuns₁
  have hHolds₂ : p.Holds (fun _ => False) k₁ s₂ := by
    have h := hMoves₁.holds
    refine ⟨h.like, ?_, h.event, ?_, h.effect, ?_,
      h.supplied.learn_reached, h.le⟩
    · intro w e l v he hl hw
      obtain ⟨hOf, hLe⟩ := h.value he hl hw
      exact ⟨hOf.mono fun _ _ hu => hu, hLe⟩
    · intro w e b b' he hb hw
      have hNe : w ≠ ret := by
        rintro rfl
        rw [hOut] at he
        cases he
      have hOld : s₁.reached w = some b' := by simpa [s₂, hNe] using hw
      exact h.reached he hb hOld
    · intro K hK
      exact K.stable _ _ (h.known hK) (fun _ _ hu => hu) (c.harmless_refl _)
  obtain ⟨k₃, s₃, hRuns₃, hMoves₃, ht⟩ :=
    hAnswered'.asksEffect (Nat.le_succ_of_le hd) hClear hHolds₂ hEffect
  obtain ⟨v, k₄, s₄, hRuns₄, hMoves₄, hv₄⟩ :=
    hAnswered'.asksValue (Nat.le_succ_of_le hd) hClear hMoves₃.holds hValue
  refine ⟨v, k₄, s₄, ?_, hMoves₄.holds, hv₄, Nat.le_trans ht hMoves₄.le⟩
  have hFirst : Runs (firstReturn env (answer env (d + 1)) [ret]) { heap := c.heap } v s₄ := by
    refine Runs.bind (Runs.lift hNode _) ?_
    rw [if_neg (by simp [hOp])]
    exact Runs.bind hReturn (Runs.bind (Runs.lift hEffectIn _) (Runs.bind hRuns₃
      (Runs.bind (Runs.lift hValueIn _) hRuns₄)))
  have hEvaluate : Runs (evaluate env) { heap := c.heap } v s₄ := by
    unfold evaluate
    simp only [show env.graph.exit = some exit from hExit]
    refine Runs.bind (Runs.lift (Graph.node_eq_ok.mpr hLast) _) ?_
    refine Runs.bind (Runs.lift hReturns _) ?_
    rw [show depthFor env.graph = d + 1 from hDepth]
    exact hFirst
  unfold run
  rw [show (evaluate env).run.run { heap := c.heap } = (.ok v, s₄) from hEvaluate]

end Plan
end ArmBackend.Machine
