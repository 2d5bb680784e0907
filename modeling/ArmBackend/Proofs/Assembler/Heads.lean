import ArmBackend.Proofs.Assembler.Finished

/-!
# Heads of the blocks

A label that one jump leads to starts with what the jump hands over if that is a projection of a
branch, and with a merge otherwise. A branch hands over projections that nothing else has. But a
block that starts with a projection and ends with `goto` hands over its own head, and if no other
jump leads to the label the two blocks share the head. Without such a label every block owns its
head, whatever the operations are and whatever their arguments name.

## Results

* `Traced.perform` — the head of every block follows from the jumps that lead to it.
* `Owned.perform` — no block takes the head of another one, as long as no `goto` hands one over.
* `ownsHeads_iff` — in a finished program every block owns its head and starts as its jumps ask if
  and only if no label is reached by a single `goto` out of a block that starts with a projection.
-/

namespace ArmBackend

open Schedule

namespace Graph

variable {g : Graph} {x : NodeId} {ns : List Node}

/-- A node whose operator is known is in the graph. -/
theorem HasOp.knows {op : Operator} (h : g.HasOp x op) : g.Knows x := by
  obtain ⟨n, hn, -⟩ := h
  exact ⟨n, hn⟩

/-- A merge is no projection of a branch. -/
theorem HasOp.not_isWay (h : g.HasOp x .merge) : ¬g.IsWay x := by
  rintro (hWay | hWay)
  · cases h.unique hWay
  · cases h.unique hWay

/-- A projection of a branch is in the graph. -/
theorem IsWay.knows (h : g.IsWay x) : g.Knows x :=
  h.elim HasOp.knows HasOp.knows

/-- Nodes that are added leave the operators of the others. -/
theorem Knows.hasOp_append {op : Operator} (h : g.Knows x) :
    (g.append ns).HasOp x op ↔ g.HasOp x op := by
  unfold HasOp
  rw [h.node?_append]

/-- Nodes that are added leave the projections of branches that there are. -/
theorem Knows.isWay_append (h : g.Knows x) : (g.append ns).IsWay x ↔ g.IsWay x :=
  or_congr h.hasOp_append h.hasOp_append

end Graph

namespace Assembler

variable {params : List MachineType} {past : List Event} {a a' : Assembler} {op : Operation}
  {result : Option NodeId} {label : String} {b : Nat} {n : Node} {x : NodeId}

/-! ## What was done -/

/-- The operations over the given parameters that run without failure, the last one first, and the
assembler that they leave. The node arguments may be any numbers. -/
inductive Performed (params : List MachineType) : List Event → Assembler → Prop
  | new : Performed params [] (new params)
  | perform {past : List Event} {a a' : Assembler} {op : Operation} {r : Option NodeId}
      (run : Performed params past a) (succeeds : Runs (perform op) a r a') :
      Performed params (⟨op, r, a, a'⟩ :: past) a'

/-- A program that was assembled was performed. -/
theorem Assembled.performed (run : Assembled params past a) : Performed params past a := by
  induction run with
  | new => exact .new
  | perform _ _ hSucceeds ih => exact ih.perform hSucceeds

/-- Whether an operation ends the current block with a branch. -/
def Operation.isBranch : Operation → Bool
  | .branch .. => true
  | _ => false

/-- The labels that an operation jumps to, with the control it hands over. A branch hands over its
projections, which come right behind it; a `goto` hands over the control of its block. -/
def Event.jumps (e : Event) : List (String × NodeId) :=
  match e.op with
  | .branch _ ifTrue ifFalse =>
    [(ifTrue, (e.before.graph.size + 1 : Nat)), (ifFalse, (e.before.graph.size + 2 : Nat))]
  | .goto label => [(label, e.before.control)]
  | _ => []

/-- A jump that was made, with the control that it handed over. -/
structure Arrival where
  jump : Event
  control : NodeId

/-- The jumps to a label, in order. -/
def jumpsTo (label : String) : List Event → List Arrival
  | [] => []
  | e :: past =>
    jumpsTo label past ++ (e.jumps.filter (·.1 = label)).map fun p => ⟨e, p.2⟩

/-- The labels that were bound, in order, with the jumps that lead to their blocks: those that were
made before the label was bound. -/
def opened : List Event → List (String × List Arrival)
  | [] => []
  | e :: past =>
    match e.op with
    | .bind label => opened past ++ [(label, jumpsTo label past)]
    | _ => opened past

/-- Whether a jump is a `goto` out of a block that starts with a projection of a branch. -/
def Arrival.PassesOn (j : Arrival) : Prop :=
  j.jump.op.isBranch = false ∧ ∃ b x, j.jump.before.current = some b ∧
    j.jump.before.schedule.headOf? b = some x ∧ j.jump.before.graph.IsWay x

/-- Whether a label was bound that a single jump led to, a `goto` out of a block that starts with a
projection of a branch. -/
def PassesOn (past : List Event) : Prop :=
  ∃ label j, (label, [j]) ∈ opened past ∧ j.PassesOn

/-- Whether a block starts as it should: with a projection of a branch if its single jump is the
branch that created the projection, and with a merge otherwise. -/
def StartsRight (g : Graph) (js : List Arrival) (x : NodeId) : Prop :=
  (∃ j, js = [j] ∧ j.jump.op.isBranch = true ∧ x = j.control ∧ g.IsWay x) ∨
    (∀ j, js = [j] → j.jump.op.isBranch = false) ∧ g.HasOp x .merge

/-- Whether every block owns its head: no two blocks share one, and it is placed in its block. The
first block starts with the start node, and every other one is that of a label, which starts as the
jumps ask that lead to it. -/
structure OwnsHeads (past : List Event) (a : Assembler) : Prop where
  distinct : ∀ b c x, a.schedule.headOf? b = some x → a.schedule.headOf? c = some x → b = c
  blockOf : ∀ b x, a.schedule.headOf? b = some x → a.schedule.blockOf x = some b
  first : a.schedule.headOf? 0 = some Graph.start
  labelled : ∀ b, 0 < b → b < a.schedule.blocks.size →
    ∃ label js, (label, js) ∈ opened past ∧ (a.labels label).block = some b
  starts : ∀ label js, (label, js) ∈ opened past → ∃ b x, (a.labels label).block = some b ∧
    a.schedule.headOf? b = some x ∧ StartsRight a.graph js x

/-! ## Steps that add to the history -/

/-- One more operation adds the jumps it makes, behind the earlier ones. -/
theorem jumpsTo_cons (e : Event) (label : String) : jumpsTo label (e :: past) =
    jumpsTo label past ++ (e.jumps.filter (·.1 = label)).map fun p => ⟨e, p.2⟩ :=
  rfl

/-- An operation that jumps nowhere adds no jump. -/
theorem jumpsTo_quiet {e : Event} (h : e.jumps = []) (label : String) :
    jumpsTo label (e :: past) = jumpsTo label past := by
  rw [jumpsTo_cons, h, List.filter_nil, List.map_nil, List.append_nil]

/-- An operation that binds no label opens no block. -/
theorem opened_cons (h : op.opens = false) (result : Option NodeId) (a a' : Assembler) :
    opened (⟨op, result, a, a'⟩ :: past) = opened past := by
  cases op <;> first | rfl | cases h

/-- A label that was bound stays so. -/
theorem mem_opened_cons {e : Event} {p : String × List Arrival} (h : p ∈ opened past) :
    p ∈ opened (e :: past) := by
  obtain ⟨op, result, a, a'⟩ := e
  cases op <;> first | exact h | exact List.mem_append_left _ h

/-- A head that was handed on stays so, whatever is done next. -/
theorem PassesOn.cons (h : PassesOn past) (e : Event) : PassesOn (e :: past) := by
  obtain ⟨label, j, hMem, hPasses⟩ := h
  exact ⟨label, j, mem_opened_cons hMem, hPasses⟩

/-- A jump to a label is an earlier one or one that the last operation made. -/
theorem mem_jumpsTo_cons {e : Event} {j : Arrival} : j ∈ jumpsTo label (e :: past) ↔
    j ∈ jumpsTo label past ∨ j.jump = e ∧ (label, j.control) ∈ e.jumps := by
  rw [jumpsTo_cons, List.mem_append]
  refine or_congr_right ?_
  constructor
  · intro h
    obtain ⟨⟨name, x⟩, hMem, rfl⟩ := List.mem_map.mp h
    obtain ⟨hJump, hName⟩ := List.mem_filter.mp hMem
    obtain rfl : name = label := of_decide_eq_true hName
    exact ⟨rfl, hJump⟩
  · rintro ⟨rfl, hMem⟩
    exact List.mem_map.mpr ⟨(label, j.control), List.mem_filter.mpr ⟨hMem, decide_eq_true rfl⟩, rfl⟩

/-- Whether no two branches hand over the same projection to different labels. -/
def Apart (past : List Event) : Prop :=
  ∀ label label' j j', j ∈ jumpsTo label past → j' ∈ jumpsTo label' past →
    j.jump.op.isBranch = true → j'.jump.op.isBranch = true → j.control = j'.control →
    label = label'

/-- A branch keeps the projections apart if its own are new and go to different labels. -/
theorem Apart.cons {e : Event} (h : Apart past)
    (hNew : e.op.isBranch = true →
      ∀ p ∈ e.jumps, ∀ name, ∀ j ∈ jumpsTo name past, j.control ≠ p.2)
    (hOnce : e.op.isBranch = true → ∀ p ∈ e.jumps, ∀ q ∈ e.jumps, p.2 = q.2 → p.1 = q.1) :
    Apart (e :: past) := by
  intro label label' j j' hj hj' hIs hIs' hSame
  rcases mem_jumpsTo_cons.mp hj with hOld | ⟨rfl, hMem⟩
  · rcases mem_jumpsTo_cons.mp hj' with hOld' | ⟨rfl, hMem'⟩
    · exact h label label' j j' hOld hOld' hIs hIs' hSame
    · exact absurd hSame (hNew hIs' _ hMem' label j hOld)
  · rcases mem_jumpsTo_cons.mp hj' with hOld' | ⟨-, hMem'⟩
    · exact absurd hSame.symm (hNew hIs _ hMem label' j' hOld')
    · exact hOnce hIs _ hMem _ hMem' hSame

/-- An operation that jumps nowhere keeps the projections apart. -/
theorem Apart.quiet {e : Event} (h : Apart past) (hJumps : e.jumps = []) : Apart (e :: past) := by
  refine h.cons (fun _ p hp => ?_) fun _ p hp => ?_
  · rw [hJumps] at hp
    cases hp
  · rw [hJumps] at hp
    cases hp

/-- Every label that was bound has a block, and the first block has none. -/
theorem created_length : (created past).length = (opened past).length + 1 := by
  induction past with
  | nil => rfl
  | cons e past ih =>
    obtain ⟨op, result, a, a'⟩ := e
    cases op with
    | bind label =>
      show (created past ++ [_]).length = (opened past ++ [_]).length + 1
      rw [List.length_append, List.length_append, ih]
      rfl
    | _ => exact ih

/-- The first block starts with the start node. -/
theorem created_head (past : List Event) :
    ((created past)[0]?).map Created.head = some Graph.start := by
  induction past with
  | nil => rfl
  | cons e past ih =>
    obtain ⟨op, result, a, a'⟩ := e
    cases op with
    | bind label =>
      show ((created past ++ [_])[0]?).map Created.head = _
      rw [List.getElem?_append_left (by rw [created_length]; omega)]
      exact ih
    | _ => exact ih

/-! ## Where the heads come from -/

/-- How an assembler goes on: nodes come behind the old ones, blocks keep their heads, and labels
their blocks. -/
structure Extends (a a' : Assembler) : Prop where
  graph : ∃ ns, a'.graph = a.graph.append ns
  size : a.schedule.blocks.size ≤ a'.schedule.blocks.size
  heads : ∀ b x, a.schedule.headOf? b = some x → a'.schedule.headOf? b = some x
  labels : ∀ name b, (a.labels name).block = some b → (a'.labels name).block = some b

namespace Extends

/-- Going on twice. -/
theorem trans {m : Assembler} (h : Extends a m) (h' : Extends m a') : Extends a a' := by
  obtain ⟨ns, hGraph⟩ := h.graph
  obtain ⟨ms, hGraph'⟩ := h'.graph
  refine ⟨⟨ns ++ ms, ?_⟩, h.size.trans h'.size, fun b x hx => h'.heads b x (h.heads b x hx),
    fun name b hb => h'.labels name b (h.labels name b hb)⟩
  rw [hGraph', hGraph, Graph.append_append]

/-- Nodes stay in the graph. -/
theorem knows (h : Extends a a') (hx : a.graph.Knows x) : a'.graph.Knows x := by
  obtain ⟨ns, hGraph⟩ := h.graph
  rw [hGraph]
  exact hx.append

/-- An old node is a projection of a branch exactly if it was one. -/
theorem isWay (h : Extends a a') (hx : a.graph.Knows x) :
    a'.graph.IsWay x ↔ a.graph.IsWay x := by
  obtain ⟨ns, hGraph⟩ := h.graph
  rw [hGraph, hx.isWay_append]

/-- Old nodes keep their operators. -/
theorem hasOp {o : Operator} (h : Extends a a') (hx : a.graph.HasOp x o) :
    a'.graph.HasOp x o := by
  obtain ⟨ns, hGraph⟩ := h.graph
  rw [hGraph]
  exact hx.knows.hasOp_append.mpr hx

end Extends

/-- Adding nodes goes on from where it was. -/
theorem extends_grown (a : Assembler) (ns : List Node) : Extends a (a.grown ns) :=
  ⟨⟨ns, rfl⟩, Nat.le_refl _, fun _ _ hx => hx, fun _ _ hb => hb⟩

/-- Adding a node to a block goes on from where it was. -/
theorem extends_placed (a : Assembler) (b : Nat) (n : Node) (effect : NodeId)
    (params : List NodeId) : Extends a { a.placed b n with effect, params } :=
  ⟨⟨[n], rfl⟩, size_append.ge, fun _ _ hx => headOf?_append.trans hx, fun _ _ hb => hb⟩

/-- Leaving a block goes on from where it was. -/
theorem extends_left (a : Assembler) (b : Nat) (kind : BlockKind) (control : Option NodeId)
    (ns : List Node) (js : List (String × Jump)) (rs : List NodeId) :
    Extends a (a.left b kind control ns js rs) := by
  refine ⟨⟨ns, rfl⟩, size_ended.ge, fun _ _ hx => headOf?_ended.trans hx, fun name c hc => ?_⟩
  show (js.foldl _ a.labels name).block = some c
  rw [foldl_recorded]
  exact hc

/-- Entering a block gives the new block its head. -/
theorem headOf?_entered (a : Assembler) (label : String) (head effect : NodeId) (b : Nat) :
    (a.entered label head effect).schedule.headOf? b =
      if b = a.schedule.blocks.size then some head else a.schedule.headOf? b :=
  headOf?_opened

/-- Entering a block gives the label its block. -/
theorem entered_block (a : Assembler) (label : String) (head effect : NodeId) (name : String) :
    ((a.entered label head effect).labels name).block =
      if name = label then some a.schedule.blocks.size else (a.labels name).block := by
  show (if name = label then _ else a.labels name : Label).block = _
  split <;> rfl

/-- Entering the block of an unbound label goes on from where it was. -/
theorem extends_entered (hUnbound : (a.labels label).block = none) (head effect : NodeId) :
    Extends a (a.entered label head effect) := by
  refine ⟨⟨[], Graph.append_nil.symm⟩, ?_, fun b x hx => ?_, fun name b hb => ?_⟩
  · exact (Nat.le_succ _).trans (Schedule.size_opened (s := a.schedule)).ge
  · rw [headOf?_entered, if_neg (headOf?_lt hx).ne]
    exact hx
  · rw [entered_block, if_neg]
    · exact hb
    · rintro rfl
      cases hUnbound.symm.trans hb

/-- What is known of a jump: a branch has handed over a projection, and a `goto` the head of the
block that was current. -/
structure Handed (a : Assembler) (j : Arrival) : Prop where
  current : ∃ b, j.jump.before.current = some b ∧ b < a.schedule.blocks.size
  branch : j.jump.op.isBranch = true → a.graph.IsWay j.control
  goto : j.jump.op.isBranch = false → ∃ b, j.jump.before.current = some b ∧
    j.jump.before.schedule.headOf? b = some j.control ∧ a.schedule.headOf? b = some j.control ∧
    a.graph.Knows j.control ∧ (j.jump.before.graph.IsWay j.control ↔ a.graph.IsWay j.control)

/-- What a jump hands over is in the graph. -/
theorem Handed.knows {j : Arrival} (h : Handed a j) : a.graph.Knows j.control := by
  cases hBranch : j.jump.op.isBranch with
  | true => exact (h.branch hBranch).knows
  | false =>
    obtain ⟨b, -, -, -, hKnown, -⟩ := h.goto hBranch
    exact hKnown

/-- What a jump handed over stays what it was. -/
theorem Handed.extend {j : Arrival} (h : Handed a j) (hExtends : Extends a a') : Handed a' j := by
  refine ⟨?_, fun hBranch => (hExtends.isWay h.knows).mpr (h.branch hBranch), fun hGoto => ?_⟩
  · obtain ⟨b, hOpen, hLt⟩ := h.current
    exact ⟨b, hOpen, Nat.lt_of_lt_of_le hLt hExtends.size⟩
  · obtain ⟨b, hOpen, hHead, hStays, hKnown, hWay⟩ := h.goto hGoto
    exact ⟨b, hOpen, hHead, hExtends.heads b _ hStays, hExtends.knows hKnown,
      hWay.trans (hExtends.isWay hKnown).symm⟩

/-- A `goto` hands on a projection if its block starts with one. -/
theorem Handed.passesOn_iff {j : Arrival} (h : Handed a j) (hGoto : j.jump.op.isBranch = false) :
    j.PassesOn ↔ a.graph.IsWay j.control := by
  obtain ⟨b, hOpen, hHead, -, -, hWay⟩ := h.goto hGoto
  rw [← hWay]
  constructor
  · rintro ⟨-, c, x, hOpen', hHead', hIs⟩
    obtain rfl := Option.some.inj (hOpen.symm.trans hOpen')
    obtain rfl := Option.some.inj (hHead.symm.trans hHead')
    exact hIs
  · exact fun hIs => ⟨hGoto, b, _, hOpen, hHead, hIs⟩

/-- What comes of some jumps: a single one shares a projection, whatever hands it over. -/
def StartsBy (g : Graph) (js : List Arrival) (x : NodeId) : Prop :=
  (∃ j, js = [j] ∧ g.IsWay j.control ∧ x = j.control) ∨
    (∀ j, js = [j] → ¬g.IsWay j.control) ∧ g.HasOp x .merge

/-- What comes of some jumps does not change later. -/
theorem StartsBy.extend {js : List Arrival} (h : StartsBy a.graph js x)
    (hExtends : Extends a a') (hKnown : ∀ j ∈ js, a.graph.Knows j.control) :
    StartsBy a'.graph js x := by
  rcases h with ⟨j, rfl, hWay, rfl⟩ | ⟨hNot, hMerge⟩
  · exact .inl ⟨j, rfl, (hExtends.isWay hWay.knows).mpr hWay, rfl⟩
  · refine .inr ⟨?_, hExtends.hasOp hMerge⟩
    rintro j rfl hWay
    exact hNot j rfl ((hExtends.isWay (hKnown j List.mem_cons_self)).mp hWay)

/-- What is known of the label that was bound to the block with number `k + 1`, which the given
jumps lead to. -/
structure Bound (a : Assembler) (k : Nat) (label : String) (js : List Arrival) : Prop where
  block : (a.labels label).block = some (k + 1)
  head : ∃ x, a.schedule.headOf? (k + 1) = some x ∧ StartsBy a.graph js x
  handed : ∀ j ∈ js, Handed a j
  earlier : ∀ j ∈ js, ∀ b, j.jump.before.current = some b → b ≤ k

/-- A bound label keeps its block and what leads there. -/
theorem Bound.extend {k : Nat} {js : List Arrival} (h : Bound a k label js)
    (hExtends : Extends a a') : Bound a' k label js := by
  obtain ⟨x, hHead, hStarts⟩ := h.head
  exact {
    block := hExtends.labels label _ h.block
    head := ⟨x, hExtends.heads _ x hHead, hStarts.extend hExtends fun j hj => (h.handed j hj).knows⟩
    handed := fun j hj => (h.handed j hj).extend hExtends
    earlier := h.earlier }

/-- Whether the labels and the heads of an assembler follow from what was done. -/
structure Traced (past : List Event) (a : Assembler) : Prop where
  flow : Flow past a
  control : ∀ b, a.current = some b → a.schedule.headOf? b = some a.control
  heads : ∀ b x, a.schedule.headOf? b = some x → a.graph.Knows x
  jumps : ∀ label,
    (a.labels label).jumps.map Jump.control = (jumpsTo label past).map Arrival.control
  handed : ∀ label, ∀ j ∈ jumpsTo label past, Handed a j
  apart : Apart past
  bound : ∀ k label js, (opened past)[k]? = some (label, js) → Bound a k label js

/-- Nothing of this depends on the nodes of the blocks. -/
theorem Traced.placed (h : Traced past a) (b : Nat) (n : Node) (effect : NodeId)
    (params : List NodeId) : Traced past { a.placed b n with effect, params } := by
  have hExtends := extends_placed a b n effect params
  exact {
    flow := (h.flow.placed.withEffect effect).withParams params
    control := fun c hc => hExtends.heads c _ (h.control c hc)
    heads := fun c x hx => hExtends.knows (h.heads c x (headOf?_append.symm.trans hx))
    jumps := h.jumps
    handed := fun name j hj => (h.handed name j hj).extend hExtends
    apart := h.apart
    bound := fun k name js hk => (h.bound k name js hk).extend hExtends }

/-- An operation that neither jumps nor opens a block is not seen in the history. -/
theorem Traced.cons (h : Traced past a') (hOpens : op.opens = false) (hTargets : op.targets = [])
    (hJumps : Event.jumps ⟨op, result, a, a'⟩ = []) :
    Traced (⟨op, result, a, a'⟩ :: past) a' := by
  refine { h with flow := h.flow.cons hOpens hTargets, jumps := fun name => ?_,
                  handed := fun name => ?_, apart := h.apart.quiet hJumps, bound := ?_ }
  · rw [jumpsTo_quiet hJumps]
    exact h.jumps name
  · rw [jumpsTo_quiet hJumps]
    exact h.handed name
  · rw [opened_cons hOpens]
    exact h.bound

/-- A jump that is made now hands over a projection, or the head of the current block. -/
theorem Traced.hands {j : Arrival} (h : Traced past j.jump.before)
    (hOpen : j.jump.before.current = some b) (hExtends : Extends j.jump.before a')
    (hBranch : j.jump.op.isBranch = true → a'.graph.IsWay j.control)
    (hGoto : j.jump.op.isBranch = false → j.control = j.jump.before.control) : Handed a' j := by
  have hHead := h.control b hOpen
  have hKnown := h.heads b _ hHead
  refine ⟨?_, hBranch, fun hIs => ?_⟩
  · exact ⟨b, hOpen, Nat.lt_of_lt_of_le (h.flow.open_lt hOpen) hExtends.size⟩
  · rw [hGoto hIs]
    exact ⟨b, hOpen, hHead, hExtends.heads b _ hHead, hExtends.knows hKnown,
      (hExtends.isWay hKnown).symm⟩

/-- The end of a block, with its jumps: the controls that a branch hands over are new. -/
theorem Traced.leave {e : Event} {kind : BlockKind} {control : Option NodeId} {ns : List Node}
    {js : List (String × Jump)} {rs : List NodeId} (h : Traced past e.before)
    (hFlow : Flow (e :: past) (e.before.left b kind control ns js rs))
    (hOpens : e.op.opens = false) (hOpen : e.before.current = some b)
    (hJumps : e.jumps = js.map fun p => (p.1, p.2.control))
    (hBranch : e.op.isBranch = true → ∀ p ∈ e.jumps,
      (e.before.graph.append ns).IsWay p.2 ∧ (e.before.graph.size : Int) ≤ p.2)
    (hGoto : e.op.isBranch = false → ∀ p ∈ e.jumps, p.2 = e.before.control)
    (hOnce : e.op.isBranch = true → ∀ p ∈ e.jumps, ∀ q ∈ e.jumps, p.2 = q.2 → p.1 = q.1) :
    Traced (e :: past) (e.before.left b kind control ns js rs) := by
  have hExtends := extends_left e.before b kind control ns js rs
  refine { flow := hFlow, control := nofun, heads := fun c x hx => ?_, jumps := fun name => ?_,
           handed := fun name j hj => ?_, apart := ?_, bound := fun k name js hk => ?_ }
  · exact hExtends.knows (h.heads c x (headOf?_ended.symm.trans hx))
  · show (js.foldl _ e.before.labels name).jumps.map _ = _
    rw [foldl_recorded, List.map_append, h.jumps, jumpsTo_cons, List.map_append, hJumps,
      List.filter_map, List.map_map, List.map_map, List.map_map]
    rfl
  · rcases mem_jumpsTo_cons.mp hj with hOld | ⟨rfl, hMem⟩
    · exact (h.handed name j hOld).extend hExtends
    · exact h.hands hOpen hExtends (fun hIs => (hBranch hIs _ hMem).1) fun hIs => hGoto hIs _ hMem
  · -- What a branch hands over now is a new node, and what was handed over before is not.
    refine h.apart.cons (fun hIs p hp name j hj hSame => ?_) hOnce
    have hOld := (h.handed name j hj).knows.lt
    rw [hSame] at hOld
    exact Int.not_lt.mpr (hBranch hIs p hp).2 hOld
  · rw [opened_cons hOpens] at hk
    exact (h.bound k name js hk).extend hExtends

/-- The head of the new block of a label, in the graph that has it. -/
theorem Traced.startsBy {jumps : List Jump} {head : NodeId} {m : Assembler} (h : Traced past a)
    (hJumps : (a.labels label).jumps = jumps) (hFor : Runs (headFor jumps) a head m) :
    StartsBy m.graph (jumpsTo label past) head := by
  have hControls := h.jumps label
  rw [hJumps] at hControls
  rcases runs_headFor hFor with ⟨j, rfl, hWay, rfl, rfl⟩ | ⟨hNot, rfl, rfl⟩
  · obtain ⟨i, hEq, hControl⟩ := List.map_eq_singleton_iff.mp hControls.symm
    exact .inl ⟨i, hEq, hControl ▸ hWay, hControl.symm⟩
  · refine .inr ⟨fun i hi hWay => ?_, ⟨_, a.graph.node?_push _, rfl⟩⟩
    rw [hi] at hControls
    obtain ⟨j, rfl, hControl⟩ := List.map_eq_singleton_iff.mp hControls
    have hKnown := (h.handed label i (hi ▸ List.mem_cons_self)).knows
    refine hNot j rfl ?_
    rw [hControl]
    exact ((extends_grown a _).isWay hKnown).mp hWay

/-- The block of a label starts as its jumps so far make it. -/
theorem Traced.enter {first : Jump} {rest : List Jump} {head effect : NodeId} {m after : Assembler}
    (h : Traced past a) (hUnbound : (a.labels label).block = none)
    (hJumps : (a.labels label).jumps = first :: rest)
    (hFor : Runs (headFor (first :: rest)) a head m) (hControl : after.control = head) :
    Traced (⟨.bind label, result, a, after⟩ :: past) (m.entered label head effect) := by
  obtain ⟨hs, -, rfl⟩ := headFor_heads hFor
  have hStarts := h.startsBy hJumps hFor
  have hEnter : Extends (a.grown hs) ((a.grown hs).entered label head effect) :=
    extends_entered (a := a.grown hs) hUnbound head effect
  have hExtends := (extends_grown a hs).trans hEnter
  have hQuiet : Event.jumps ⟨.bind label, result, a, after⟩ = [] := rfl
  have hFlow : Flow (⟨.bind label, result, a, after⟩ :: past)
      ((a.grown hs).entered label head effect) :=
    h.flow.enter (by rw [hJumps]; exact List.cons_ne_nil first rest) hControl
  have hKnown : (a.grown hs).graph.Knows head := by
    rcases hStarts with ⟨j, -, hWay, rfl⟩ | ⟨-, hMerge⟩
    · exact hWay.knows
    · exact hMerge.knows
  refine { flow := hFlow, control := ?control, heads := ?heads, jumps := fun name => ?jumps,
           handed := fun name j hj => ?handed, apart := h.apart.quiet hQuiet,
           bound := fun k name js hk => ?bound }
  case control =>
    rintro c ⟨⟩
    exact (headOf?_entered (a.grown hs) label head effect _).trans (if_pos rfl)
  case heads =>
    intro c x hx
    rw [headOf?_entered] at hx
    split at hx
    · cases hx
      exact hEnter.knows hKnown
    · exact hExtends.knows (h.heads c x hx)
  case jumps =>
    rw [jumpsTo_quiet hQuiet, entered_jumps]
    exact h.jumps name
  case handed =>
    rw [jumpsTo_quiet hQuiet] at hj
    exact (h.handed name j hj).extend hExtends
  case bound =>
    have hSize : a.schedule.blocks.size = (opened past).length + 1 :=
      h.flow.size.trans created_length
    replace hk : (opened past ++ [(label, jumpsTo label past)])[k]? = some (name, js) := hk
    -- The block is either one of those before, or the new one.
    by_cases hLt : k < (opened past).length
    · rw [List.getElem?_append_left hLt] at hk
      exact (h.bound k name js hk).extend hExtends
    · rw [List.getElem?_append_right (Nat.not_lt.mp hLt), List.getElem?_singleton] at hk
      split at hk
      · next hZero =>
        cases hk
        have hNew : k + 1 = (a.grown hs).schedule.blocks.size := by
          show k + 1 = a.schedule.blocks.size
          omega
        refine { block := ?_, head := ⟨head, ?_, hStarts⟩,
                 handed := fun j hj => (h.handed label j hj).extend hExtends,
                 earlier := fun j hj c hc => ?_ }
        · rw [entered_block, if_pos rfl, hNew]
        · rw [headOf?_entered, if_pos hNew]
        · obtain ⟨d, hd, hLess⟩ := (h.handed label j hj).current
          obtain rfl := Option.some.inj (hc.symm.trans hd)
          omega
      · cases hk

/-- An operation that keeps the current block open adds a node to it, or nothing. -/
theorem Step.stays (hStep : Step a op result a') (hOpens : op.opens = false)
    (hCloses : op.closes = false) :
    a' = a ∨ ∃ b n effect, a.current = some b ∧ a' = { a.placed b n with effect } := by
  cases hStep with
  | look => exact .inl rfl
  | place hAdds hOpen => exact .inr ⟨_, _, _, hOpen, rfl⟩
  | chain hAdds hOpen => exact .inr ⟨_, _, _, hOpen, rfl⟩
  | leave hClosing =>
    rw [hClosing] at hCloses
    cases hCloses
  | enter => cases hOpens
  | join => cases hOpens

/-- The projections of a branch come right behind it. -/
theorem isWay_branchNodes (a : Assembler) (condition : NodeId) :
    (a.graph.append (a.branchNodes condition)).IsWay (a.graph.size + 1 : Nat) ∧
      (a.graph.append (a.branchNodes condition)).IsWay (a.graph.size + 2 : Nat) := by
  have hAt : ∀ {i : Nat} {m : Node}, (a.branchNodes condition)[i]? = some m →
      (a.graph.append (a.branchNodes condition)).node? (a.graph.size + i : Nat) = some m := by
    intro i m hm
    refine Graph.node?_eq_some.mpr ⟨_, rfl, ?_⟩
    show (a.graph.nodes ++ (a.branchNodes condition).toArray)[a.graph.nodes.size + i]? = some m
    rw [Array.getElem?_append_right (Nat.le_add_right _ _), Nat.add_sub_cancel_left,
      List.getElem?_toArray]
    exact hm
  exact ⟨.inl ⟨_, hAt (i := 1) rfl, rfl⟩, .inr ⟨_, hAt (i := 2) rfl, rfl⟩⟩

/-- The head of every block follows from the jumps that lead to it. -/
theorem Traced.perform (h : Traced past a) (hRuns : Runs (perform op) a result a') :
    Traced (⟨op, result, a, a'⟩ :: past) a' := by
  have hStep := perform_step hRuns
  have hFlow := h.flow.step hStep
  -- One case for each operation that jumps or opens a block, and one for all others.
  have hQuiet (hOpens : op.opens = false) (hCloses : op.closes = false)
      (hTargets : op.targets = []) (hJumps : Event.jumps ⟨op, result, a, a'⟩ = []) :
      Traced (⟨op, result, a, a'⟩ :: past) a' := by
    rcases hStep.stays hOpens hCloses with rfl | ⟨b, n, effect, -, rfl⟩
    · exact h.cons hOpens hTargets hJumps
    · exact (h.placed b n effect a.params).cons hOpens hTargets hJumps
  cases op with
  | branch condition ifTrue ifFalse =>
    obtain ⟨-, hBranch⟩ := runs_none hRuns
    obtain ⟨b, hOpen, rfl⟩ := runs_branch hBranch
    obtain ⟨hTrue, hFalse⟩ := a.isWay_branchNodes condition
    refine h.leave hFlow rfl hOpen rfl (fun _ p hp => ?_)
      (fun hIs => absurd hIs.symm Bool.false_ne_true) (fun _ p hp q hq hSame => ?_)
    · rcases List.mem_pair.mp hp with rfl | rfl
      · exact ⟨hTrue, Int.ofNat_le.mpr (Nat.le_add_right _ _)⟩
      · exact ⟨hFalse, Int.ofNat_le.mpr (Nat.le_add_right _ _)⟩
    · rcases List.mem_pair.mp hp with rfl | rfl <;> rcases List.mem_pair.mp hq with rfl | rfl
      · rfl
      · exact absurd (Int.ofNat_inj.mp hSame) (by omega)
      · exact absurd (Int.ofNat_inj.mp hSame) (by omega)
      · rfl
  | goto label =>
    obtain ⟨-, hGoto⟩ := runs_none hRuns
    obtain ⟨b, hOpen, rfl⟩ := runs_goto hGoto
    refine h.leave hFlow rfl hOpen rfl (fun hIs => absurd hIs Bool.false_ne_true)
      (fun _ p hp => ?_) (fun hIs => absurd hIs Bool.false_ne_true)
    rw [List.mem_singleton.mp hp]
  | ret value =>
    obtain ⟨-, hRet⟩ := runs_none hRuns
    obtain ⟨b, hOpen, rfl⟩ := runs_ret hRet
    exact h.leave hFlow rfl hOpen rfl (fun hIs => absurd hIs Bool.false_ne_true)
      (fun _ p hp => absurd hp List.not_mem_nil) (fun hIs => absurd hIs Bool.false_ne_true)
  | bind label =>
    obtain ⟨-, hBind⟩ := runs_none hRuns
    obtain ⟨first, rest, head, m, hUnbound, hJumps, hFor, ⟨-, rfl⟩ | ⟨-, rfl⟩⟩ :=
      runs_bindLabel hBind
    · exact h.enter hUnbound hJumps hFor rfl
    · exact (h.enter hUnbound hJumps hFor rfl).placed _ _ _ _
  | _ => exact hQuiet rfl rfl rfl rfl

/-! ## No head is taken -/

/-- Whether every block owns its head: the head is placed there, and a projection of a branch is the
head of a block only where the branch has jumped to the label of the block. -/
structure Owned (past : List Event) (a : Assembler) : Prop where
  home : ∀ b x, a.schedule.headOf? b = some x → a.schedule.home x = some b
  source : ∀ b x, a.schedule.headOf? b = some x → a.graph.IsWay x →
    ∃ label c, (a.labels label).block = some c ∧
      ∃ j ∈ jumpsTo label past, j.jump.op.isBranch = true ∧ j.control = x

/-- A node placed in a block is new, so it is the head of none. -/
theorem Owned.placed (h : Owned past a) (hTraced : Traced past a) (b : Nat) (n : Node)
    (effect : NodeId) (params : List NodeId) :
    Owned past { a.placed b n with effect, params } := by
  have hExtends := extends_placed a b n effect params
  have hHeads : ∀ c x, (a.placed b n).schedule.headOf? c = some x →
      a.schedule.headOf? c = some x := fun c x hx => headOf?_append.symm.trans hx
  refine ⟨fun c x hx => ?_, fun c x hx hWay => ?_⟩
  · -- The new node is above all heads.
    have hNe : x ≠ a.graph.size := ((hTraced.heads c x (hHeads c x hx)).lt).ne
    exact (if_neg hNe).trans (h.home c x (hHeads c x hx))
  · exact h.source c x (hHeads c x hx)
      ((hExtends.isWay (hTraced.heads c x (hHeads c x hx))).mp hWay)

/-- Ending a block moves only the node that ends it. -/
theorem home_ended (s : Schedule) (b : Nat) (kind : BlockKind) (control : Option NodeId)
    (hx : control ≠ some x) : (s.ended b kind control).home x = s.home x := by
  cases control with
  | none => rfl
  | some y => exact if_neg fun hEq => hx (congrArg some hEq.symm)

/-- Leaving a block takes no head: what ends the block is a new node. -/
theorem Owned.leave {kind : BlockKind} {control : Option NodeId} {ns : List Node}
    {js : List (String × Jump)} {rs : List NodeId} {after : Assembler} (h : Owned past a)
    (hTraced : Traced past a) (hFresh : ∀ x, control = some x → ¬a.graph.Knows x) :
    Owned (⟨op, result, a, after⟩ :: past) (a.left b kind control ns js rs) := by
  have hExtends := extends_left a b kind control ns js rs
  have hHeads : ∀ c x, (a.left b kind control ns js rs).schedule.headOf? c = some x →
      a.schedule.headOf? c = some x := fun c x hx => headOf?_ended.symm.trans hx
  refine ⟨fun c x hx => ?_, fun c x hx hWay => ?_⟩
  · -- The heads are old nodes, and what ends the block is not.
    have hKnown := hTraced.heads c x (hHeads c x hx)
    refine (home_ended a.schedule b kind control fun hEq => ?_).trans (h.home c x (hHeads c x hx))
    exact hFresh x hEq hKnown
  · -- A branch that is a source stays one, with a jump more.
    have hKnown := hTraced.heads c x (hHeads c x hx)
    obtain ⟨name, d, hBound, j, hj, hIs⟩ :=
      h.source c x (hHeads c x hx) ((hExtends.isWay hKnown).mp hWay)
    exact ⟨name, d, hExtends.labels name d hBound, j, mem_jumpsTo_cons.mpr (.inl hj), hIs⟩

/-- Opening a block places its head there, and no other node. -/
theorem home_opened (s : Schedule) (head : NodeId) (sources : List Nat) (x : NodeId) :
    (s.opened head sources).home x = if x = head then some s.blocks.size else s.home x := by
  have hFold : ∀ t : Schedule,
      (sources.foldl (fun t p => t.link p s.blocks.size) t).home = t.home := by
    induction sources with
    | nil => exact fun _ => rfl
    | cons p sources ih => exact fun t => ih _
  exact congrFun (hFold _) x

/-- The head of the new block of a label starts no other block, unless a `goto` hands it on. -/
theorem Owned.untaken {jumps : List Jump} {head : NodeId} {m : Assembler} (h : Owned past a)
    (hTraced : Traced past a) (hPasses : ∀ j, jumpsTo label past = [j] → ¬j.PassesOn)
    (hUnbound : (a.labels label).block = none) (hJumps : (a.labels label).jumps = jumps)
    (hFor : Runs (headFor jumps) a head m) :
    (∀ b, a.schedule.headOf? b ≠ some head) ∧ (m.graph.IsWay head →
      ∃ j ∈ jumpsTo label past, j.jump.op.isBranch = true ∧ j.control = head) := by
  have hStarts := hTraced.startsBy hJumps hFor
  rcases runs_headFor hFor with ⟨j, rfl, hWay, rfl, rfl⟩ | ⟨-, rfl, rfl⟩
  · rcases hStarts with ⟨i, hEq, -, hControl⟩ | ⟨-, hMerge⟩
    · have hi : i ∈ jumpsTo label past := hEq ▸ List.mem_cons_self
      rw [hControl] at hWay ⊢
      cases hBranch : i.jump.op.isBranch with
      | false =>
        have hIff := (hTraced.handed label i hi).passesOn_iff hBranch
        exact absurd (hIff.mpr hWay) (hPasses i hEq)
      | true =>
        refine ⟨fun b hb => ?_, fun _ => ⟨i, hi, hBranch, rfl⟩⟩
        -- A block with this head is that of the same label, which has no block yet.
        obtain ⟨name, c, hBound, j, hj, hBranch', hSame⟩ := h.source b _ hb hWay
        obtain rfl := hTraced.apart label name i j hi hj hBranch hBranch' hSame.symm
        cases hUnbound.symm.trans hBound
    · exact absurd hWay hMerge.not_isWay
  · have hNew : (a.grown [.merge (jumps.map Jump.control)]).graph.HasOp a.graph.size .merge :=
      ⟨_, a.graph.node?_push _, rfl⟩
    refine ⟨fun b hb => ?_, fun hWay => absurd hWay hNew.not_isWay⟩
    exact Int.lt_irrefl _ (hTraced.heads b _ hb).lt

/-- The new block of a label owns its head, unless a `goto` hands it on. -/
theorem Owned.enter {first : Jump} {rest : List Jump} {head effect : NodeId} {m after : Assembler}
    (h : Owned past a) (hTraced : Traced past a)
    (hPasses : ∀ j, jumpsTo label past = [j] → ¬j.PassesOn)
    (hUnbound : (a.labels label).block = none) (hJumps : (a.labels label).jumps = first :: rest)
    (hFor : Runs (headFor (first :: rest)) a head m) :
    Owned (⟨.bind label, result, a, after⟩ :: past) (m.entered label head effect) := by
  obtain ⟨hUntaken, hFrom⟩ := h.untaken hTraced hPasses hUnbound hJumps hFor
  obtain ⟨hs, -, rfl⟩ := headFor_heads hFor
  have hEnter : Extends (a.grown hs) ((a.grown hs).entered label head effect) :=
    extends_entered (a := a.grown hs) hUnbound head effect
  have hQuiet : ∀ name, jumpsTo name (⟨.bind label, result, a, after⟩ :: past) =
      jumpsTo name past := jumpsTo_quiet rfl
  refine ⟨fun c x hx => ?_, fun c x hx hWay => ?_⟩
  · rw [headOf?_entered] at hx
    refine (home_opened a.schedule head _ x).trans ?_
    split at hx
    · -- The new block: its head is placed there now.
      next hNew =>
      cases hx
      rw [if_pos rfl, hNew]
      rfl
    · rw [if_neg fun hEq : x = head => hUntaken c (hEq ▸ hx)]
      exact h.home c x hx
  · rw [headOf?_entered] at hx
    split at hx
    · -- The new block owns its projection, since the branch has jumped to this label.
      cases hx
      exact ⟨label, _, (entered_block ..).trans (if_pos rfl), hQuiet label ▸ hFrom hWay⟩
    · have hOld := ((extends_grown a hs).isWay (hTraced.heads c x hx)).mp hWay
      obtain ⟨name, d, hBound, hJump⟩ := h.source c x hx hOld
      exact ⟨name, d, hEnter.labels name d hBound, hQuiet name ▸ hJump⟩

/-- A longer history changes nothing about the blocks. -/
theorem Owned.cons (h : Owned past a') (e : Event) : Owned (e :: past) a' := by
  refine ⟨h.home, fun c x hx hWay => ?_⟩
  obtain ⟨name, d, hBound, j, hj, hIs⟩ := h.source c x hx hWay
  exact ⟨name, d, hBound, j, mem_jumpsTo_cons.mpr (.inl hj), hIs⟩

/-- No block takes the head of another one, as long as no `goto` hands one on. -/
theorem Owned.perform (h : Owned past a) (hTraced : Traced past a)
    (hRuns : Runs (perform op) a result a') (hPasses : ¬PassesOn (⟨op, result, a, a'⟩ :: past)) :
    Owned (⟨op, result, a, a'⟩ :: past) a' := by
  have hNew : ∀ {x : NodeId}, some (a.graph.size : Int) = some x → ¬a.graph.Knows x := by
    rintro x ⟨⟩ hKnown
    exact Int.lt_irrefl _ hKnown.lt
  have hQuiet (hOpens : op.opens = false) (hCloses : op.closes = false) :
      Owned (⟨op, result, a, a'⟩ :: past) a' := by
    rcases (perform_step hRuns).stays hOpens hCloses with rfl | ⟨b, n, effect, -, rfl⟩
    · exact h.cons _
    · exact (h.placed hTraced b n effect a.params).cons _
  -- Three operations leave a block, one enters one; the others only add nodes.
  cases op with
  | branch condition ifTrue ifFalse =>
    obtain ⟨-, hBranch⟩ := runs_none hRuns
    obtain ⟨b, -, rfl⟩ := runs_branch hBranch
    exact h.leave hTraced fun _ => hNew
  | goto label =>
    obtain ⟨-, hGoto⟩ := runs_none hRuns
    obtain ⟨b, -, rfl⟩ := runs_goto hGoto
    exact h.leave hTraced nofun
  | ret value =>
    obtain ⟨-, hRet⟩ := runs_none hRuns
    obtain ⟨b, -, rfl⟩ := runs_ret hRet
    exact h.leave hTraced fun _ => hNew
  | bind label =>
    obtain ⟨-, hBind⟩ := runs_none hRuns
    obtain ⟨first, rest, head, m, hUnbound, hJumps, hFor, hAfter⟩ := runs_bindLabel hBind
    -- A single jump to the label would be the one that passes a head on.
    have hSingle : ∀ j, jumpsTo label past = [j] → ¬j.PassesOn := by
      intro j hj hIs
      refine hPasses ⟨label, j, ?_, hIs⟩
      show (label, [j]) ∈ opened past ++ [(label, jumpsTo label past)]
      rw [hj]
      exact List.mem_append_right _ List.mem_cons_self
    have hEnter : Owned (⟨.bind label, result, a, a'⟩ :: past)
        (m.entered label head first.effect) := h.enter hTraced hSingle hUnbound hJumps hFor
    rcases hAfter with ⟨-, rfl⟩ | ⟨-, rfl⟩
    · exact hEnter
    · exact hEnter.placed (hTraced.enter hUnbound hJumps hFor rfl) _ _ _ _
  | _ => exact hQuiet rfl rfl

/-! ## Every program -/

/-- At first there is one block, with the start node as its head. -/
theorem initial_headOf? (h : initial.schedule.headOf? b = some x) : b = 0 ∧ x = Graph.start := by
  cases b with
  | zero => exact ⟨rfl, (Option.some.inj h).symm⟩
  | succ b => cases h

/-- The empty history accounts for the initial assembler. -/
theorem initial_traced : Traced [] initial := by
  refine { flow := initial_sound.flow, control := ?_, heads := fun b x hx => ?_,
           jumps := fun _ => rfl, handed := fun _ j hj => absurd hj List.not_mem_nil,
           apart := fun _ _ j _ hj => absurd hj List.not_mem_nil, bound := nofun }
  · rintro b ⟨⟩
    rfl
  · rw [(initial_headOf? hx).2]
    exact ⟨{ op := .start }, rfl⟩

/-- The first block owns its head. -/
theorem initial_owned : Owned [] initial := by
  refine ⟨fun b x hx => ?_, fun b x hx hWay => ?_⟩
  · obtain ⟨rfl, rfl⟩ := initial_headOf? hx
    rfl
  · rw [(initial_headOf? hx).2] at hWay
    rcases hWay with ⟨n, hn, hOp⟩ | ⟨n, hn, hOp⟩ <;> · cases hn; cases hOp

/-- So it is once the parameters are added. -/
theorem new_traced_owned (params : List MachineType) :
    Traced [] (new params) ∧ Owned [] (new params) :=
  new_induct (P := fun a => Traced [] a ∧ Owned [] a) ⟨initial_traced, initial_owned⟩
    (fun _ b index type h _ => ⟨h.1.placed b (.parameter index type) _ _,
      h.2.placed h.1 b (.parameter index type) _ _⟩) params

/-- Whatever was performed accounts for the labels and the heads. -/
theorem Performed.traced (run : Performed params past a) : Traced past a := by
  induction run with
  | new => exact (new_traced_owned params).1
  | perform _ hSucceeds ih => exact ih.perform hSucceeds

/-- Every block owns its head if no head was handed on. -/
theorem Performed.owned (run : Performed params past a) (hPasses : ¬PassesOn past) :
    Owned past a := by
  induction run with
  | new => exact (new_traced_owned params).2
  | perform run hSucceeds ih =>
    exact (ih fun hEarlier => hPasses (hEarlier.cons _)).perform run.traced hSucceeds hPasses

/-! ## Finished programs -/

/-- Where no jump passes a projection on, a single jump that shares one is the branch itself. -/
theorem Bound.startsRight {k : Nat} {js : List Arrival} (h : Bound a k label js)
    (hPasses : ∀ j, js = [j] → ¬j.PassesOn) :
    ∃ x, a.schedule.headOf? (k + 1) = some x ∧ StartsRight a.graph js x := by
  obtain ⟨x, hHead, ⟨j, rfl, hWay, rfl⟩ | ⟨hNot, hMerge⟩⟩ := h.head
  · have hHanded := h.handed j List.mem_cons_self
    cases hBranch : j.jump.op.isBranch with
    | true => exact ⟨_, hHead, .inl ⟨j, rfl, hBranch, rfl, hWay⟩⟩
    | false => exact absurd ((hHanded.passesOn_iff hBranch).mpr hWay) (hPasses j rfl)
  · refine ⟨x, hHead, .inr ⟨?_, hMerge⟩⟩
    rintro j rfl
    -- A branch would have handed over a projection.
    refine Bool.eq_false_iff.mpr fun hBranch => hNot j rfl ?_
    exact (h.handed j List.mem_cons_self).branch hBranch

/-- What the end of a program does: the exit is added, and the blocks and labels find positions. -/
structure Finishes (position : Nat → Nat) (a a' : Assembler) : Prop where
  graph : a'.graph = (a.graph.setExit a.returns).1
  renumbered : Renumbered position a.schedule a'.schedule
  labels : ∀ name, ∀ b < a.schedule.blocks.size, (a.labels name).block = some b →
    (a'.labels name).block = some (position b)

/-- The end of a program adds the exit and puts the blocks in order. -/
theorem Flow.finish (h : Flow past a) (hRuns : Runs finish a () a') :
    ∃ position, Finishes position a a' := by
  obtain ⟨s, hOrdered, hRenumbered, -⟩ := h.forward.ordered h.unordered h.entered
  obtain ⟨-, t, hOk, rfl⟩ := runs_finish_eq hRuns
  obtain rfl : s = t := Except.ok.inj (hOrdered.symm.trans hOk)
  refine ⟨a.schedule.placeOf, rfl, hRenumbered, fun name b hb hBlock => ?_⟩
  show (a.labels name).block.bind (fun b => a.schedule.postorder.idxOf? b) = _
  rw [hBlock, Option.bind_some]
  have h0 := Nat.lt_of_le_of_lt (Nat.zero_le b) hb
  exact postorder_idxOf?
    (h.forward.postorder_placeOf h.unordered.edges.consistent h.entered h0 hb)

namespace Finishes

variable {position : Nat → Nat} {i : Nat}

/-- A head in the order is the head of the block that was put there. -/
theorem exists_head (h : Finishes position a a') (hx : a'.schedule.headOf? i = some x) :
    ∃ b < a.schedule.blocks.size, position b = i ∧ a.schedule.headOf? b = some x := by
  obtain ⟨b, hb, rfl⟩ := h.renumbered.surjective i (headOf?_lt hx)
  exact ⟨b, hb, rfl, h.renumbered.heads b hb ▸ hx⟩

/-- A block keeps its head in its position. -/
theorem head (h : Finishes position a a') (hx : a.schedule.headOf? b = some x) :
    a'.schedule.headOf? (position b) = some x :=
  (h.renumbered.heads b (headOf?_lt hx)).trans hx

/-- The exit is added behind the other nodes. -/
theorem hasOp {o : Operator} (h : Finishes position a a') (hx : a.graph.HasOp x o) :
    a'.graph.HasOp x o := by
  rw [h.graph, setExit_eq]
  exact hx.knows.hasOp_append.mpr hx

/-- A block that starts as it should still does. -/
theorem startsRight {js : List Arrival} (h : Finishes position a a')
    (hStarts : StartsRight a.graph js x) : StartsRight a'.graph js x := by
  rcases hStarts with ⟨j, hEq, hBranch, hControl, hWay⟩ | ⟨hNot, hMerge⟩
  · exact .inl ⟨j, hEq, hBranch, hControl, hWay.imp h.hasOp h.hasOp⟩
  · exact .inr ⟨hNot, h.hasOp hMerge⟩

end Finishes

/-- The blocks own their heads where none took that of another one. -/
theorem Owned.ownsHeads {position : Nat → Nat} (h : Owned past a) (hTraced : Traced past a)
    (hPasses : ¬PassesOn past) (hFinishes : Finishes position a a') : OwnsHeads past a' := by
  have hHome : ∀ i x, a'.schedule.headOf? i = some x → a'.schedule.home x = some i := by
    intro i x hx
    obtain ⟨b, hb, rfl, hHead⟩ := hFinishes.exists_head hx
    exact hFinishes.renumbered.home x b hb (h.home b x hHead)
  have hSize : a.schedule.blocks.size = (opened past).length + 1 :=
    hTraced.flow.size.trans created_length
  have hLabel : ∀ {k label js}, Bound a k label js →
      (a'.labels label).block = some (position (k + 1)) := by
    intro k label js hBound
    obtain ⟨x, hHead, -⟩ := hBound.head
    exact hFinishes.labels label _ (headOf?_lt hHead) hBound.block
  refine { distinct := fun b c x hb hc => ?_, blockOf := hHome, first := ?_,
           labelled := fun i h0 hi => ?_, starts := fun label js hMem => ?_ }
  · exact Option.some.inj ((hHome b x hb).symm.trans (hHome c x hc))
  · obtain ⟨c, hCreated, hIs⟩ := Option.map_eq_some_iff.mp (created_head past)
    rw [← hFinishes.renumbered.first, ← hIs]
    exact hFinishes.head (hTraced.flow.blocks 0 c hCreated).1
  · obtain ⟨b, hb, rfl⟩ := hFinishes.renumbered.surjective i hi
    -- Only the first block is at the first position.
    have hNonzero : b ≠ 0 := by
      rintro rfl
      rw [hFinishes.renumbered.first] at h0
      exact Nat.lt_irrefl 0 h0
    obtain ⟨k, rfl⟩ := Nat.exists_eq_succ_of_ne_zero hNonzero
    have hLt : k < (opened past).length := by omega
    have hAt := List.getElem?_eq_getElem hLt
    exact ⟨_, _, List.mem_of_getElem? hAt, hLabel (hTraced.bound k _ _ hAt)⟩
  · obtain ⟨k, hk⟩ := List.mem_iff_getElem?.mp hMem
    have hBound := hTraced.bound k label js hk
    obtain ⟨x, hHead, hStarts⟩ := hBound.startsRight fun j hEq hIs =>
      hPasses ⟨label, j, hEq ▸ hMem, hIs⟩
    exact ⟨_, x, hLabel hBound, hFinishes.head hHead, hFinishes.startsRight hStarts⟩

/-- A `goto` that passes a projection on leads to a second block with that head. -/
theorem Traced.shared (h : Traced past a) (hPasses : PassesOn past) :
    ∃ b c x, b < c ∧ a.schedule.headOf? b = some x ∧ a.schedule.headOf? c = some x := by
  obtain ⟨label, j, hMem, hIs⟩ := hPasses
  obtain ⟨k, hk⟩ := List.mem_iff_getElem?.mp hMem
  have hBound := h.bound k label [j] hk
  have hHanded := hBound.handed j List.mem_cons_self
  obtain ⟨b, hOpen, -, hHead, -⟩ := hHanded.goto hIs.1
  refine ⟨b, k + 1, j.control, ?_, hHead, ?_⟩
  · exact Nat.lt_succ_of_le (hBound.earlier j List.mem_cons_self b hOpen)
  · obtain ⟨x, hHead', ⟨_, ⟨⟩, -, rfl⟩ | ⟨hNot, -⟩⟩ := hBound.head
    · exact hHead'
    · exact absurd ((hHanded.passesOn_iff hIs.1).mp hIs) (hNot j rfl)

/-- A run that gives an answer, as the relation has it. -/
theorem runs_of_isOk {x : Assemble Unit} {a : Assembler} (h : (x.run.run a).1.isOk = true) :
    Runs x a () (x.run.run a).2 := by
  unfold Runs
  generalize x.run.run a = p at h ⊢
  obtain ⟨_ | ⟨⟨⟩⟩, a'⟩ := p
  · cases h
  · rfl

/-- In a finished program every block owns its head, and starts as the jumps ask that lead to it, if
and only if no label was bound that is reached by a single `goto` out of a block that starts with a
projection of a branch. -/
theorem ownsHeads_iff (run : Performed params past a) (h : Runs finish a () a') :
    OwnsHeads past a' ↔ ¬PassesOn past := by
  have hTraced := run.traced
  obtain ⟨position, hFinishes⟩ := hTraced.flow.finish h
  refine ⟨fun hOwns hPasses => ?_, fun hPasses => ?_⟩
  · obtain ⟨b, c, x, hLt, hb, hc⟩ := hTraced.shared hPasses
    have hSame := hOwns.distinct _ _ x (hFinishes.head hb) (hFinishes.head hc)
    have hEq := hFinishes.renumbered.injective b (headOf?_lt hb) c (headOf?_lt hc) hSame
    exact hLt.ne hEq
  · exact (run.owned hPasses).ownsHeads hTraced hPasses hFinishes

theorem ownsHeads_meeting : ∃ past a a', execute [.tagged, .int32] meeting = some (past, a) ∧
    Performed [.tagged, .int32] past a ∧ Runs finish a () a' ∧ OwnsHeads past a' := by
  have hRuns : (execute [.tagged, .int32] meeting).map (fun r => ((finish.run.run r.2).1.isOk,
      (opened r.1).all fun p => p.2.length != 1 || p.2.all (·.jump.op.isBranch))) =
      some (true, true) := by
    decide +kernel
  obtain ⟨⟨past, a⟩, hExecute, hIs⟩ := Option.map_eq_some_iff.mp hRuns
  simp only [Prod.mk.injEq] at hIs
  obtain ⟨hOk, hAll⟩ := hIs
  have run := (execute_assembled hExecute).performed
  have hFinish := runs_of_isOk hOk
  refine ⟨past, a, _, hExecute, run, hFinish, (ownsHeads_iff run hFinish).mpr ?_⟩
  -- The labels that a single jump leads to are reached by a branch.
  rintro ⟨label, j, hMem, hGoto, -⟩
  have hBranch := List.all_eq_true.mp hAll _ hMem
  simp [hGoto] at hBranch

/-- A program with a block that is reached by a single `goto` out of a block that starts with a
projection. -/
def passing : List Operation :=
  [.param 0, .literal (.int32 7), .branch 1 "then" "else", .bind "then", .goto "next",
    .bind "next", .ret 2, .bind "else", .ret 2]

theorem not_ownsHeads_passing : ∃ past a a', execute [.bool] passing = some (past, a) ∧
    Runs finish a () a' ∧ a'.schedule.headOf? 1 = some 4 ∧ a'.schedule.headOf? 2 = some 4 ∧
      a'.schedule.blockOf 4 = some 2 ∧ ¬OwnsHeads past a' := by
  have hRuns : (execute [.bool] passing).map (fun r =>
      ((finish.run.run r.2).1.isOk, (finish.run.run r.2).2.schedule.headOf? 1,
        (finish.run.run r.2).2.schedule.headOf? 2, (finish.run.run r.2).2.schedule.blockOf 4)) =
      some (true, some 4, some 4, some 2) := by
    decide +kernel
  obtain ⟨⟨past, a⟩, hExecute, hIs⟩ := Option.map_eq_some_iff.mp hRuns
  simp only [Prod.mk.injEq] at hIs
  obtain ⟨hOk, hFirst, hSecond, hBlock⟩ := hIs
  refine ⟨past, a, _, hExecute, runs_of_isOk hOk, hFirst, hSecond, hBlock, fun hOwns => ?_⟩
  exact absurd (hOwns.distinct 1 2 4 hFirst hSecond) (by decide)

end Assembler
end ArmBackend
