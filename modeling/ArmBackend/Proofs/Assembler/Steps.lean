import ArmBackend.Proofs.Assembler.Operations

/-!
# Operations as steps

Reads off each operation of an assembler what it does when it succeeds. A row of steps that succeeds
is taken apart at its binds; the state that is left is then one of those that `Step` names.

## Results

* `runs_branch`, `runs_goto`, `runs_ret`, `runs_bindLabel` — what the operations leave that end a
  block or open one.
* `perform_step` — every operation that succeeds is a `Step`.
-/

namespace ArmBackend

/-- Whether a node is one of the two projections of a branch. -/
def Graph.IsWay (g : Graph) (x : NodeId) : Prop :=
  g.HasOp x .ifTrue ∨ g.HasOp x .ifFalse

namespace Assembler

section Runs

variable {α β : Type} {x : Assemble α} {f : α → Assemble β} {a a' : Assembler} {r : β} {n : Node}
  {id : NodeId}

/-- A row of steps succeeds by a state in the middle. -/
theorem runs_bind : Runs (x >>= f) a r a' ↔ ∃ v m, Runs x a v m ∧ Runs (f v) m r a' := by
  unfold Runs
  simp only [ExceptT.run_bind, StateT.run_bind]
  cases hx : StateT.run x.run a with
  | mk outcome m =>
    cases outcome with
    | error fault =>
      refine iff_of_false (fun h => ?_) ?_
      · cases h
      · rintro ⟨v, m', hEq, -⟩
        cases hEq
    | ok v =>
      constructor
      · exact fun h => ⟨v, m, rfl, h⟩
      · rintro ⟨v', m', hEq, h⟩
        cases hEq
        exact h

/-- An answer leaves the assembler. -/
theorem runs_pure {v w : α} : Runs (pure v) a w a' ↔ v = w ∧ a = a' := by
  constructor
  · intro h
    cases h
    exact ⟨rfl, rfl⟩
  · rintro ⟨rfl, rfl⟩
    rfl

/-- Reading the assembler leaves it. -/
theorem runs_get {v : Assembler} : Runs get a v a' ↔ a = v ∧ a = a' := by
  constructor
  · intro h
    cases h
    exact ⟨rfl, rfl⟩
  · rintro ⟨rfl, rfl⟩
    rfl

/-- A change of the assembler always succeeds. -/
theorem runs_modify {g : Assembler → Assembler} : Runs (modify g) a () a' ↔ g a = a' := by
  constructor
  · intro h
    cases h
    rfl
  · rintro rfl
    rfl

/-- A fault is no success. -/
theorem not_runs_throw {fault : Fault} {v : α} : ¬Runs (throw fault) a v a' := by
  intro h
  cases h

/-- A look-up leaves the assembler. -/
theorem runs_lift {y : Except Fault α} {v : α} (h : Runs (liftM y) a v a') :
    y = .ok v ∧ a = a' := by
  cases y with
  | error fault => cases h
  | ok w =>
    cases h
    exact ⟨rfl, rfl⟩

/-! ## Adding a node -/

/-- A node that is added gets the next number. -/
theorem runs_push : Runs (push n) a id a' ↔ id = a.graph.size ∧ a' = a.grown [n] := by
  have hPush : (push n).run.run a =
      (.ok (a.graph.push n).2, { a with graph := (a.graph.push n).1 }) := rfl
  unfold Runs
  rw [hPush, a.graph.push_eq n]
  constructor
  · intro h
    cases h
    exact ⟨rfl, rfl⟩
  · rintro ⟨rfl, rfl⟩
    rfl

/-- A node is appended to the block that is open. -/
theorem runs_append {v : NodeId} (h : Runs (append id) a v a') :
    ∃ b, a.current = some b ∧ v = id ∧ a' = { a with schedule := a.schedule.append b id } := by
  unfold Assembler.append at h
  obtain ⟨_, _, hGet, h⟩ := runs_bind.mp h
  obtain ⟨rfl, rfl⟩ := runs_get.mp hGet
  cases hOpen : a.current with
  | some b =>
    rw [hOpen] at h
    cases h
    exact ⟨b, rfl, rfl, rfl⟩
  | none =>
    rw [hOpen] at h
    obtain ⟨_, _, -, h⟩ := runs_bind.mp h
    cases h

/-- A node is emitted into the block that is open. -/
theorem runs_emit (h : Runs (emit n) a id a') :
    ∃ b, a.current = some b ∧ id = a.graph.size ∧ a' = a.placed b n := by
  obtain ⟨_, _, hPush, h⟩ := runs_bind.mp h
  obtain ⟨rfl, rfl⟩ := runs_push.mp hPush
  obtain ⟨b, hOpen, rfl, rfl⟩ := runs_append h
  exact ⟨b, hOpen, rfl, rfl⟩

/-- What a graph takes is added like any other node. -/
theorem runs_tryEmit {add : Graph → Except Fault (Graph × NodeId)} {P : Node → Prop}
    (hAdd : ∀ g p, add g = .ok p → ∃ n, P n ∧ p = g.push n) (h : Runs (tryEmit add) a id a') :
    ∃ b n, a.current = some b ∧ P n ∧ id = a.graph.size ∧ a' = a.placed b n := by
  obtain ⟨v, m, hPush, h⟩ := runs_bind.mp h
  obtain ⟨_, _, hGet, hPush⟩ := runs_bind.mp hPush
  obtain ⟨rfl, rfl⟩ := runs_get.mp hGet
  cases hTake : add a.graph with
  | error fault =>
    rw [hTake] at hPush
    cases hPush
  | ok p =>
    obtain ⟨n, hn, rfl⟩ := hAdd _ _ hTake
    rw [hTake, a.graph.push_eq n] at hPush
    cases hPush
    obtain ⟨b, hOpen, rfl, rfl⟩ := runs_append h
    exact ⟨b, n, hOpen, hn, rfl, rfl⟩

/-- The effect goes on with the node. -/
theorem runs_threaded {v : NodeId} (h : Runs (threaded id) a v a') :
    v = id ∧ a' = { a with effect := id } := by
  cases h
  exact ⟨rfl, rfl⟩

/-! ## Closing a block -/

/-- There is a block that is open. -/
theorem runs_openBlock {b : Nat} (h : Runs openBlock a b a') : a.current = some b ∧ a = a' := by
  unfold openBlock at h
  obtain ⟨_, _, hGet, h⟩ := runs_bind.mp h
  obtain ⟨rfl, rfl⟩ := runs_get.mp hGet
  cases hOpen : a.current with
  | some c =>
    rw [hOpen] at h
    obtain ⟨rfl, rfl⟩ := runs_pure.mp h
    exact ⟨rfl, rfl⟩
  | none =>
    rw [hOpen] at h
    exact absurd h not_runs_throw

/-- The block is ended and none is open. -/
theorem runs_close {b : Nat} {kind : BlockKind} {control : Option NodeId}
    (h : Runs (close b kind control) a () a') :
    a' = { a with schedule := a.schedule.ended b kind control, current := none } :=
  (runs_modify.mp h).symm

/-- The jump is recorded under its label. -/
theorem runs_jump {label : String} {j : Jump} (h : Runs (jump label j) a () a') :
    a' = { a with labels := recorded a.labels label j } :=
  (runs_modify.mp h).symm

/-! ## Adding a node that fits -/

variable {b : Nat} {o : Operation}

/-- A node of an operator that fixes the number of its inputs is no access and no join. -/
theorem suits_ofArity {op : Operator} {inputs : List NodeId} {v e c : Nat}
    (hArity : op.arity? = some ⟨some v, some e, some c⟩) (hLength : v + e + c = inputs.length)
    (hSome : inputs ≠ []) (hInputs : ∀ x ∈ inputs, x ∈ o.arguments) :
    Suits a o b (.ofArity op inputs) ∧ (Node.ofArity op inputs).op.isAccess = false := by
  have hOp : (Node.ofArity op inputs).op = op := rfl
  have hPositive : 0 < v + e + c := by
    rw [hLength]
    exact List.length_pos_of_ne_nil hSome
  -- an operator of fixed arity is no access, change or join
  have hPlain : op ≠ .invalid ∧ op.isChange = false ∧ op.isAccess = false ∧ op ≠ .phi ∧
      op ≠ .effectPhi := by
    cases op <;> cases hArity <;> simp_all [Operator.isChange, Operator.isAccess]
  obtain ⟨hInvalid, hChange, hAccess, hPhi, hEffectPhi⟩ := hPlain
  refine ⟨?_, hOp.symm ▸ hAccess⟩
  exact {
    fits := Lowering.fitsArity_ofArity hArity hInvalid hChange
    inputs := fun x hx => .inl (hInputs x hx)
    phi := fun hIs => absurd hIs hPhi
    effectPhi := hEffectPhi }

/-- A node is added by its operator if it gets as many inputs as that takes. -/
theorem addNode_eq_ok {g : Graph} {op : Operator} {inputs : List NodeId} {p : Graph × NodeId}
    (h : g.addNode op inputs = .ok p) : ∃ v e c, op.arity? = some ⟨some v, some e, some c⟩ ∧
      v + e + c = inputs.length ∧ p = g.push (.ofArity op inputs) := by
  unfold Graph.addNode at h
  split at h
  · cases h
  · next v e c hArity =>
    split at h
    · next hLength =>
      cases h
      exact ⟨v, e, c, hArity, hLength, rfl⟩
    · cases h
  · cases h

/-- An operator that is added takes only what the operation names. -/
theorem operator_step {op : Operator} {inputs : List NodeId} (hAdds : o.adds = true)
    (hSome : inputs ≠ []) (hInputs : ∀ x ∈ inputs, x ∈ o.arguments)
    (h : Runs (operator op inputs) a id a') : Step a o (some id) a' := by
  obtain ⟨b, n, hOpen, ⟨hSuits, hPlain⟩, rfl, rfl⟩ := runs_tryEmit
    (P := fun n => (∀ b, Suits a o b n) ∧ n.op.isAccess = false) (fun g p hp => by
      obtain ⟨v, e, c, hArity, hLength, rfl⟩ := addNode_eq_ok hp
      have hAll := fun b => suits_ofArity (a := a) (b := b) hArity hLength hSome hInputs
      exact ⟨_, ⟨fun b => (hAll b).1, (hAll 0).2⟩, rfl⟩) h
  exact .place hAdds hOpen (hSuits b) hPlain

/-- A node of its own kind that takes only what the operation names. -/
theorem emit_step (hAdds : o.adds = true) (hFits : n.fitsArity = true)
    (hInputs : ∀ x ∈ n.inputs, x ∈ o.arguments) (hPlain : n.op.isAccess = false)
    (hJoin : n.op.isPhi = false) (h : Runs (emit n) a id a') : Step a o (some id) a' := by
  obtain ⟨b, hOpen, rfl, rfl⟩ := runs_emit h
  refine .place hAdds hOpen ⟨hFits, fun x hx => .inl (hInputs x hx), fun hPhi => ?_, fun hPhi => ?_⟩
    hPlain
  · rw [hPhi] at hJoin
    cases hJoin
  · rw [hPhi] at hJoin
    cases hJoin

/-- A node that is made the current effect. -/
theorem runs_access {node : Assembler → Node}
    (h : Runs (do let a ← get; threaded (← emit (node a))) a id a') :
    ∃ b, a.current = some b ∧ id = a.graph.size ∧ a' = a.chained b (node a) := by
  obtain ⟨_, _, hGet, h⟩ := runs_bind.mp h
  obtain ⟨rfl, rfl⟩ := runs_get.mp hGet
  obtain ⟨_, _, hAdd, h⟩ := runs_bind.mp h
  obtain ⟨rfl, rfl⟩ := runs_threaded h
  obtain ⟨b, hOpen, rfl, rfl⟩ := runs_emit hAdd
  -- `chained` is by definition what placing the node and moving on to it leaves.
  exact ⟨b, hOpen, rfl, rfl⟩

/-- An access hangs on the current effect and control, and becomes the current effect. -/
theorem access_step (hAdds : o.adds = true) (hFits : n.fitsArity = true)
    (hInputs : ∀ x ∈ n.inputs, x ∈ o.arguments ∨ x = a.effect ∨ x = a.control)
    (hAccess : n.op.isAccess = true) (hEffect : 0 ≤ a.effect → n.effectIn = .ok a.effect)
    (hOpen : a.current = some b) : Step a o (some a.graph.size) (a.chained b n) := by
  refine .chain hAdds hOpen ⟨hFits, fun x hx => ?_, fun hPhi => ?_, fun hPhi => ?_⟩ hAccess hEffect
  · rcases hInputs x hx with hIs | hIs | hIs
    · exact .inl hIs
    · exact .inr (.inl hIs)
    · exact .inr (.inr (.inl hIs))
  · rw [hPhi] at hAccess
    cases hAccess
  · rw [hPhi] at hAccess
    cases hAccess

/-- An anchor is the control itself. -/
theorem mem_anchors {x y : NodeId} (h : x ∈ Node.anchors y) : x = y := by
  unfold Node.anchors at h
  split at h
  · exact List.mem_singleton.mp h
  · cases h

/-- A change hangs on the effect and on the control where it stands. -/
theorem change_step {op : Operator} {x : NodeId} (h : Runs (change op x) a id a') :
    Step a (.change op x) (some id) a' := by
  unfold change at h
  obtain ⟨_, _, hGet, h⟩ := runs_bind.mp h
  obtain ⟨rfl, rfl⟩ := runs_get.mp hGet
  obtain ⟨v, m, hAdd, h⟩ := runs_bind.mp h
  obtain ⟨rfl, rfl⟩ := runs_threaded h
  -- Only a change of representation is emitted.
  obtain ⟨b, n, hOpen, ⟨f, rfl⟩, rfl, rfl⟩ := runs_tryEmit
    (P := fun n => ∃ f, n = .change (.change f) x a.effect a.control) (fun g p hp => by
      unfold Graph.addChange at hp
      split at hp
      · next hIs =>
        cases hp
        cases op <;> cases hIs
        exact ⟨_, ⟨_, rfl⟩, rfl⟩
      · cases hp) hAdd
  refine access_step rfl (Node.fitsArity_change f x a.effect a.control) (fun y hy => ?_) rfl
    (fun hEffect => ?_) hOpen
  · rcases List.mem_cons.mp hy with rfl | hy
    · exact .inl List.mem_cons_self
    · exact .inr ((List.mem_append.mp hy).imp mem_anchors mem_anchors)
  · unfold Node.change Node.anchors
    rw [if_pos hEffect]
    rfl

/-- A load comes behind the current effect, and is the next one. -/
theorem load_step {rep : Rep} {base index : NodeId} (h : Runs (load rep base index) a id a') :
    Step a (.load rep base index) (some id) a' := by
  obtain ⟨b, hOpen, rfl, rfl⟩ := runs_access h
  refine access_step rfl rfl (fun y hy => ?_) rfl (fun _ => rfl) hOpen
  rcases List.mem_append.mp hy with hy | hy
  · show y ∈ [base, index] ∨ _
    grind
  · exact .inr (.inr (mem_anchors hy))

/-- A store comes behind the current effect, and is the next one. -/
theorem store_step {rep : Rep} {barrier : WriteBarrier} {base index value : NodeId}
    (h : Runs (store rep barrier base index value) a id a') :
    Step a (.store rep barrier base index value) (some id) a' := by
  obtain ⟨b, hOpen, rfl, rfl⟩ := runs_access h
  refine access_step rfl rfl (fun y hy => ?_) rfl (fun _ => rfl) hOpen
  rcases List.mem_append.mp hy with hy | hy
  · show y ∈ [base, index, value] ∨ _
    grind
  · exact .inr (.inr (mem_anchors hy))

/-- A call comes behind the current effect, and is the next one. -/
theorem call_step {target : NodeId} {arguments : List NodeId}
    (h : Runs (call target arguments) a id a') :
    Step a (.call target arguments) (some id) a' := by
  obtain ⟨b, hOpen, rfl, rfl⟩ := runs_access h
  refine access_step rfl rfl (fun y hy => ?_) rfl (fun _ => ?_) hOpen
  · rcases List.mem_append.mp hy with hy | hy
    · exact .inl hy
    · simp only [List.mem_cons, List.not_mem_nil, or_false] at hy
      exact .inr hy
  · have hIndex : (1 + (arguments.length : Int)).toNat = (target :: arguments).length := by
      rw [List.length_cons]
      omega
    unfold Node.effectIn Node.input Node.call
    dsimp only
    rw [if_neg (by decide), if_neg (by omega), hIndex, List.getElem?_append_right (Nat.le_refl _),
      Nat.sub_self]
    rfl

/-- A phi has one value for each input of the merge that starts its block. -/
theorem phi_step {rep : Rep} {values : List NodeId} (h : Runs (phi rep values) a id a') :
    Step a (.phi rep values) (some id) a' := by
  unfold phi at h
  obtain ⟨_, _, hGet, h⟩ := runs_bind.mp h
  obtain ⟨rfl, rfl⟩ := runs_get.mp hGet
  cases hOpen : a.current with
  | none =>
    rw [hOpen] at h
    exact absurd h not_runs_throw
  | some b =>
    rw [hOpen] at h
    obtain ⟨block, _, hLook, h⟩ := runs_bind.mp h
    obtain ⟨hBlock, rfl⟩ := runs_lift hLook
    obtain ⟨head, _, hLook, h⟩ := runs_bind.mp h
    obtain ⟨hHead, rfl⟩ := runs_lift hLook
    dsimp only at h
    split at h
    · obtain ⟨_, _, hThrow, -⟩ := runs_bind.mp h
      exact absurd hThrow not_runs_throw
    · next hFits =>
      -- What was checked is that the block starts at a merge with an input for each value.
      have hMerge : head.op = .merge ∧ head.inputs.length = values.length := by
        simpa using hFits
      obtain ⟨c, n, hCurrent, rfl, rfl, rfl⟩ := runs_tryEmit
        (P := fun n => n = .phi rep (values ++ [block.head])) (fun g p hp => by
          unfold Graph.addPhi at hp
          split at hp
          · cases hp
          · cases hp
            exact ⟨_, rfl, rfl⟩) h
      obtain rfl : b = c := Option.some.inj (hOpen.symm.trans hCurrent)
      have hOf : a.schedule.headOf? b = some block.head := by
        unfold Schedule.block at hBlock
        unfold Schedule.headOf?
        split at hBlock
        · next hAt =>
          cases hBlock
          rw [hAt]
          rfl
        · cases hBlock
      refine .place rfl hOpen ?suits rfl
      refine { fits := rfl, inputs := ?inputs, phi := ?phi, effectPhi := ?other }
      case inputs =>
        intro x hx
        rcases List.mem_append.mp hx with hx | hx
        · exact .inl hx
        · exact .inr (.inr (.inr (List.mem_singleton.mp hx ▸ hOf)))
      case phi =>
        refine fun _ => ⟨_, head, hOf, Graph.node_eq_ok.mp hHead, hMerge.1, ?_⟩
        show ((values ++ [block.head]).length : Int) - 1 = head.inputs.length
        rw [List.length_append, List.length_singleton, hMerge.2]
        omega
      case other => exact Operator.noConfusion

/-! ## Ending and opening blocks -/

/-- An assembler is told by its fields. -/
theorem eq_of_fields (hGraph : a.graph = a'.graph) (hSchedule : a.schedule = a'.schedule)
    (hCurrent : a.current = a'.current) (hControl : a.control = a'.control)
    (hEffect : a.effect = a'.effect) (hParams : a.params = a'.params)
    (hReturns : a.returns = a'.returns) (hLabels : a.labels = a'.labels) : a = a' := by
  cases a
  cases a'
  simp_all

/-- The nodes of a branch: the branch, and the two projections that hang on it. -/
def branchNodes (a : Assembler) (condition : NodeId) : List Node :=
  [.ofArity .branch [condition, a.control], .ofArity .ifTrue [a.graph.size],
    .ofArity .ifFalse [a.graph.size]]

/-- The jumps of a branch out of a block. -/
def branchJumps (a : Assembler) (b : Nat) (ifTrue ifFalse : String) : List (String × Jump) :=
  [(ifTrue, ⟨b, (a.graph.size + 1 : Nat), a.effect⟩),
    (ifFalse, ⟨b, (a.graph.size + 2 : Nat), a.effect⟩)]

/-- A branch ends the block and hands its projections over. -/
theorem runs_branch {condition : NodeId} {ifTrue ifFalse : String}
    (h : Runs (branch condition ifTrue ifFalse) a () a') : ∃ b, a.current = some b ∧
      a' = a.left b .branch (some (a.graph.size : Int)) (a.branchNodes condition)
        (a.branchJumps b ifTrue ifFalse) [] := by
  unfold branch at h
  obtain ⟨_, _, hGet, h⟩ := runs_bind.mp h
  obtain ⟨rfl, rfl⟩ := runs_get.mp hGet
  obtain ⟨_, _, hPush, h⟩ := runs_bind.mp h
  obtain ⟨rfl, rfl⟩ := runs_push.mp hPush
  obtain ⟨b, _, hBlock, h⟩ := runs_bind.mp h
  obtain ⟨hOpen, rfl⟩ := runs_openBlock hBlock
  obtain ⟨⟨⟩, _, hClose, h⟩ := runs_bind.mp h
  obtain rfl := runs_close hClose
  obtain ⟨_, _, hPush, h⟩ := runs_bind.mp h
  obtain ⟨rfl, rfl⟩ := runs_push.mp hPush
  obtain ⟨⟨⟩, _, hJump, h⟩ := runs_bind.mp h
  obtain rfl := runs_jump hJump
  obtain ⟨_, _, hPush, h⟩ := runs_bind.mp h
  obtain ⟨rfl, rfl⟩ := runs_push.mp hPush
  obtain rfl := runs_jump h
  -- The three nodes are added one by one, which comes to adding them at once.
  refine ⟨b, hOpen, eq_of_fields ?_ rfl rfl rfl rfl rfl (List.append_nil _).symm ?_⟩
  · show ((a.graph.append _).append _).append _ = _
    rw [Graph.append_append, Graph.append_append]
    rfl
  · have hFirst : (a.graph.append [Node.ofArity .branch [condition, a.control]]).size =
        a.graph.size + 1 := Graph.size_append _
    have hSecond : ((a.graph.append [Node.ofArity .branch [condition, a.control]]).append
        [.ofArity .ifTrue [a.graph.size]]).size = a.graph.size + 2 := by
      rw [Graph.size_append, hFirst]
      rfl
    show recorded (recorded a.labels _ _) _ _ = recorded (recorded a.labels _ _) _ _
    rw [← hFirst, ← hSecond]
    rfl

/-- A branch is one of the steps that leave a block. -/
theorem branch_step {condition : NodeId} {ifTrue ifFalse : String}
    (h : Runs (branch condition ifTrue ifFalse) a () a') :
    Step a (.branch condition ifTrue ifFalse) none a' := by
  obtain ⟨b, hOpen, rfl⟩ := runs_branch h
  have hKnows : ∀ i < 3,
      (a.graph.append (a.branchNodes condition)).Knows (a.graph.size + i : Nat) := by
    intro i hi
    have hSize : (a.graph.append (a.branchNodes condition)).size = a.graph.size + 3 :=
      Graph.size_append _
    exact Graph.knows_iff.mpr ⟨Int.natCast_nonneg _, Int.ofNat_lt.mpr (by omega)⟩
  refine .leave rfl hOpen (fun n hn => ?_) rfl (fun p hp => ?_) (by simp)
  · simp only [branchNodes, List.mem_cons, List.not_mem_nil, or_false] at hn
    -- The branch takes the condition and the current control, the projections take the branch.
    rcases hn with rfl | rfl | rfl
    · refine ⟨rfl, fun x hx => ?_⟩
      rcases List.mem_cons.mp hx with rfl | hx
      · exact .inl List.mem_cons_self
      · exact .inr (.inr (.inl (List.mem_singleton.mp hx)))
    · refine ⟨rfl, fun x hx => .inr (.inr (.inr ?_))⟩
      rw [List.mem_singleton.mp hx]
      exact hKnows 0 (by decide)
    · refine ⟨rfl, fun x hx => .inr (.inr (.inr ?_))⟩
      rw [List.mem_singleton.mp hx]
      exact hKnows 0 (by decide)
  · simp only [branchJumps, List.mem_cons, List.not_mem_nil, or_false] at hp
    rcases hp with rfl | rfl
    · exact ⟨rfl, rfl, .inr (hKnows 1 (by decide))⟩
    · exact ⟨rfl, rfl, .inr (hKnows 2 (by decide))⟩

/-- A jump ends the block and hands over the current control. -/
theorem runs_goto {label : String} (h : Runs (goto label) a () a') :
    ∃ b, a.current = some b ∧
      a' = a.left b .goto none [] [(label, ⟨b, a.control, a.effect⟩)] [] := by
  unfold goto at h
  obtain ⟨_, _, hGet, h⟩ := runs_bind.mp h
  obtain ⟨rfl, rfl⟩ := runs_get.mp hGet
  obtain ⟨b, _, hBlock, h⟩ := runs_bind.mp h
  obtain ⟨hOpen, rfl⟩ := runs_openBlock hBlock
  obtain ⟨⟨⟩, _, hClose, h⟩ := runs_bind.mp h
  obtain rfl := runs_close hClose
  obtain rfl := runs_jump h
  exact ⟨b, hOpen, eq_of_fields Graph.append_nil.symm rfl rfl rfl rfl rfl (List.append_nil _).symm
    rfl⟩

/-- A jump is one of the steps that leave a block. -/
theorem goto_step {label : String} (h : Runs (goto label) a () a') :
    Step a (.goto label) none a' := by
  obtain ⟨b, hOpen, rfl⟩ := runs_goto h
  exact .leave rfl hOpen (by simp) rfl (by simp) (by simp)

/-- A return ends the block and is kept for the exit. -/
theorem runs_ret {value : NodeId} (h : Runs (ret value) a () a') :
    ∃ b, a.current = some b ∧ a' = a.left b .ret (some (a.graph.size : Int))
      [.ofArity .ret [value, a.effect, a.control]] [] [(a.graph.size : Int)] := by
  unfold ret at h
  obtain ⟨_, _, hGet, h⟩ := runs_bind.mp h
  obtain ⟨rfl, rfl⟩ := runs_get.mp hGet
  obtain ⟨_, _, hPush, h⟩ := runs_bind.mp h
  obtain ⟨rfl, rfl⟩ := runs_push.mp hPush
  obtain ⟨b, _, hBlock, h⟩ := runs_bind.mp h
  obtain ⟨hOpen, rfl⟩ := runs_openBlock hBlock
  obtain ⟨⟨⟩, _, hClose, h⟩ := runs_bind.mp h
  obtain rfl := runs_close hClose
  obtain rfl := runs_modify.mp h
  exact ⟨b, hOpen, rfl⟩

/-- A return is one of the steps that leave a block. -/
theorem ret_step {value : NodeId} (h : Runs (ret value) a () a') :
    Step a (.ret value) none a' := by
  obtain ⟨b, hOpen, rfl⟩ := runs_ret h
  refine .leave rfl hOpen (fun n hn => ?_) rfl (by simp) (fun x hx => ?_)
  · rw [List.mem_singleton.mp hn]
    refine ⟨rfl, fun x hx => ?_⟩
    show x ∈ [value] ∨ _
    have hx : x ∈ [value, a.effect, a.control] := hx
    grind
  · rw [List.mem_singleton.mp hx]
    exact ⟨_, a.graph.node?_push _⟩

/-- A single jump that hands over a projection of a branch shares it; otherwise there is a merge. -/
theorem runs_headFor {jumps : List Jump} (h : Runs (headFor jumps) a id a') :
    (∃ j, jumps = [j] ∧ a.graph.IsWay j.control ∧ id = j.control ∧ a' = a) ∨
      ((∀ j, jumps = [j] → ¬a.graph.IsWay j.control) ∧ id = a.graph.size ∧
        a' = a.grown [.merge (jumps.map Jump.control)]) := by
  unfold headFor at h
  split at h
  · -- A single jump hands its control over if that is a projection of a branch.
    next j =>
    obtain ⟨_, _, hGet, h⟩ := runs_bind.mp h
    obtain ⟨rfl, rfl⟩ := runs_get.mp hGet
    obtain ⟨op, _, hLook, h⟩ := runs_bind.mp h
    obtain ⟨hOp, rfl⟩ := runs_lift hLook
    have hHas := Graph.op_eq_ok.mp hOp
    split at h
    · next hIf =>
      obtain ⟨rfl, rfl⟩ := runs_pure.mp h
      refine .inl ⟨j, rfl, ?_, rfl, rfl⟩
      rcases (show op = .ifTrue ∨ op = .ifFalse by simpa using hIf) with rfl | rfl
      · exact .inl hHas
      · exact .inr hHas
    · next hIf =>
      obtain ⟨rfl, rfl⟩ := runs_push.mp h
      refine .inr ⟨?_, rfl, rfl⟩
      rintro _ ⟨⟩ (hWay | hWay)
      · exact hIf (by rw [hHas.unique hWay]; rfl)
      · exact hIf (by rw [hHas.unique hWay]; rfl)
  · -- Several jumps, or none, meet in a merge.
    next hMany =>
    obtain ⟨rfl, rfl⟩ := runs_push.mp h
    exact .inr ⟨fun j hj => absurd hj (hMany j), rfl, rfl⟩

/-- The head of a block follows from the jumps to it. -/
theorem headFor_heads {jumps : List Jump} (h : Runs (headFor jumps) a id a') :
    ∃ hs, Heads a jumps hs id ∧ a' = a.grown hs := by
  have hNone : a.grown [] = a := eq_of_fields Graph.append_nil rfl rfl rfl rfl rfl rfl rfl
  rcases runs_headFor h with ⟨j, rfl, hOp | hOp, rfl, hSame⟩ | ⟨-, rfl, rfl⟩
  · exact ⟨[], .shared hOp (.inl rfl), hSame.trans hNone.symm⟩
  · exact ⟨[], .shared hOp (.inr rfl), hSame.trans hNone.symm⟩
  · exact ⟨_, .merge jumps, rfl⟩

/-- A label that has jumps and no block yet gets a block with a head, and a join of the effects if
they differ. -/
theorem runs_bindLabel {label : String} (h : Runs (bind label) a () a') :
    ∃ first rest head m, (a.labels label).block = none ∧ (a.labels label).jumps = first :: rest ∧
      Runs (headFor (first :: rest)) a head m ∧
      ((∀ j ∈ rest, j.effect = first.effect) ∧ a' = m.entered label head first.effect ∨
        (∃ j ∈ rest, j.effect ≠ first.effect) ∧
          a' = (m.entered label head first.effect).chained m.schedule.blocks.size
            (.effectPhi ((first :: rest).map Jump.effect ++ [head]))) := by
  unfold bind at h
  obtain ⟨_, _, hGet, h⟩ := runs_bind.mp h
  obtain ⟨rfl, rfl⟩ := runs_get.mp hGet
  dsimp only at h
  split at h
  · next first rest hUnbound hJumps =>
    obtain ⟨head, _, hFor, h⟩ := runs_bind.mp h
    obtain ⟨hs, -, rfl⟩ := headFor_heads hFor
    obtain ⟨⟨⟩, m, hModify, h⟩ := runs_bind.mp h
    have hEntered : (a.grown hs).entered label head first.effect = m := by
      rw [← runs_modify.mp hModify]
      unfold entered Schedule.opened
      rw [List.foldl_map]
      rfl
    subst hEntered
    refine ⟨first, rest, head, a.grown hs, hUnbound, hJumps, hFor, ?_⟩
    obtain ⟨effect, _, hJoin, h⟩ := runs_bind.mp h
    obtain rfl := runs_modify.mp h
    unfold joinEffects at hJoin
    rw [hJumps] at hJoin
    split at hJoin
    · next hAll =>
      obtain ⟨rfl, rfl⟩ := runs_pure.mp hJoin
      refine .inl ⟨fun j hj => ?_, rfl⟩
      simpa using List.all_eq_true.mp hAll j (List.mem_cons_of_mem _ hj)
    · next hNot =>
      -- The join of the effects is the first node of the new block.
      obtain ⟨b, n, hOpen, rfl, rfl, rfl⟩ := runs_tryEmit
        (P := fun n => n = .effectPhi ((first :: rest).map Jump.effect ++ [head]))
        (fun g p hp => by
          unfold Graph.addEffectPhi at hp
          split at hp
          · cases hp
          · cases hp
            exact ⟨_, rfl, rfl⟩) hJoin
      cases hOpen
      exact .inr ⟨by simpa using hNot, rfl⟩
  · exact absurd h not_runs_throw

/-- Binding a label enters its block. -/
theorem bind_step {label : String} (h : Runs (bind label) a () a') :
    Step a (.bind label) none a' := by
  obtain ⟨first, rest, head, m, -, hJumps, hFor, hAfter⟩ := runs_bindLabel h
  obtain ⟨hs, hHead, rfl⟩ := headFor_heads hFor
  rcases hAfter with ⟨hSame, rfl⟩ | ⟨hDiffer, rfl⟩
  · exact .enter hJumps hHead hSame
  · exact .join hJumps hHead hDiffer

/-- An operation that answers with a node. -/
theorem runs_some {x : Assemble NodeId} {result : Option NodeId}
    (h : Runs (do return some (← x)) a result a') : ∃ id, result = some id ∧ Runs x a id a' := by
  obtain ⟨id, _, hx, h⟩ := runs_bind.mp h
  obtain ⟨rfl, rfl⟩ := runs_pure.mp h
  exact ⟨id, rfl, hx⟩

/-- An operation that answers with nothing. -/
theorem runs_none {x : Assemble Unit} {result : Option NodeId}
    (h : Runs (do x; return none) a result a') : result = none ∧ Runs x a () a' := by
  obtain ⟨⟨⟩, _, hx, h⟩ := runs_bind.mp h
  obtain ⟨rfl, rfl⟩ := runs_pure.mp h
  exact ⟨rfl, hx⟩

/-- A parameter is looked up among those that were added at the start. -/
theorem param_step {index : Int} (h : Runs (param index) a id a') :
    Step a (.param index) (some id) a' := by
  unfold param at h
  split at h
  · obtain ⟨_, _, hThrow, -⟩ := runs_bind.mp h
    exact absurd hThrow not_runs_throw
  · obtain ⟨_, _, hGet, h⟩ := runs_bind.mp h
    obtain ⟨rfl, rfl⟩ := runs_get.mp hGet
    split at h
    · next id' hAt =>
      obtain ⟨rfl, rfl⟩ := runs_pure.mp h
      exact .look (List.mem_of_getElem? hAt)
    · exact absurd h not_runs_throw

/-- Every operation that succeeds is a step. -/
theorem perform_step {op : Operation} {result : Option NodeId} (h : Runs (perform op) a result a') :
    Step a op result a' := by
  -- One case for each operation, which refers to the lemma about it.
  cases op with
  | param index =>
    obtain ⟨id, rfl, hRuns⟩ := runs_some h
    exact param_step hRuns
  | literal l =>
    obtain ⟨id, rfl, hRuns⟩ := runs_some h
    have hLeaf : l.node.fitsArity = true ∧ l.node.inputs = [] ∧ l.node.op.isAccess = false ∧
        l.node.op.isPhi = false := by
      cases l <;> exact ⟨rfl, rfl, rfl, rfl⟩
    obtain ⟨hFits, hInputs, hAccess, hJoin⟩ := hLeaf
    exact emit_step rfl hFits (by simp [hInputs]) hAccess hJoin hRuns
  | unary op x =>
    obtain ⟨id, rfl, hRuns⟩ := runs_some h
    exact operator_step rfl (List.cons_ne_nil _ _) (fun _ hx => hx) hRuns
  | binary op left right =>
    obtain ⟨id, rfl, hRuns⟩ := runs_some h
    exact operator_step rfl (List.cons_ne_nil _ _) (fun _ hx => hx) hRuns
  | projection index x =>
    obtain ⟨id, rfl, hRuns⟩ := runs_some h
    exact emit_step rfl rfl (fun _ hx => hx) rfl rfl hRuns
  | change op x =>
    obtain ⟨id, rfl, hRuns⟩ := runs_some h
    exact change_step hRuns
  | load rep base index =>
    obtain ⟨id, rfl, hRuns⟩ := runs_some h
    exact load_step hRuns
  | store rep barrier base index value =>
    obtain ⟨id, rfl, hRuns⟩ := runs_some h
    exact store_step hRuns
  | call target arguments =>
    obtain ⟨id, rfl, hRuns⟩ := runs_some h
    exact call_step hRuns
  | phi rep values =>
    obtain ⟨id, rfl, hRuns⟩ := runs_some h
    exact phi_step hRuns
  | branch condition ifTrue ifFalse =>
    obtain ⟨rfl, hRuns⟩ := runs_none h
    exact branch_step hRuns
  | goto label =>
    obtain ⟨rfl, hRuns⟩ := runs_none h
    exact goto_step hRuns
  | bind label =>
    obtain ⟨rfl, hRuns⟩ := runs_none h
    exact bind_step hRuns
  | ret value =>
    obtain ⟨rfl, hRuns⟩ := runs_none h
    exact ret_step hRuns

end Runs

/-- A complement is a program of two operations, the constant and the exclusive or. -/
theorem complement_assembled {params : List MachineType} {past : List Event} {a a' : Assembler}
    {x id : NodeId} (run : Assembled params past a) (hx : ∃ e ∈ past, e.result = some x)
    (h : Runs (complement x) a id a') :
    ∃ ones between, Assembled params
      (⟨.binary (.word32 .xor) x ones, some id, between, a'⟩ ::
        ⟨.literal (.int32 (-1)), some ones, a, between⟩ :: past) a' := by
  obtain ⟨ones, between, hOnes, hXor⟩ := runs_bind.mp h
  have hFirst : Runs (perform (Operation.literal (.int32 (-1)))) a (some ones) between :=
    runs_bind.mpr ⟨ones, between, hOnes, runs_pure.mpr ⟨rfl, rfl⟩⟩
  have hSecond : Runs (perform (Operation.binary (.word32 .xor) x ones)) between (some id) a' :=
    runs_bind.mpr ⟨id, a', hXor, runs_pure.mpr ⟨rfl, rfl⟩⟩
  refine ⟨ones, between, (run.perform (by simp [Operation.arguments]) hFirst).perform ?_ hSecond⟩
  intro y hy
  rcases List.mem_cons.mp hy with rfl | hy
  · obtain ⟨e, he, hIs⟩ := hx
    exact ⟨e, List.mem_cons_of_mem _ he, hIs⟩
  · exact ⟨_, List.mem_cons_self, congrArg some (List.mem_singleton.mp hy).symm⟩

end Assembler
end ArmBackend
