import ArmBackend.Proofs.Lowering.Grafted
import ArmBackend.Proofs.Schedule.Marks

/-!
# A graph with its fragments

The pass leaves a graph in which control goes where it went, through the branches and merges of the
fragments on its way (`Spliced.controlHead`, `Spliced.back`), and what was on every way back along
control still is (`Spliced.covers`). What is live in it was live, or is a part of the fragment of a
change that was; and of that, all that control goes on from to a return is live still.

## Results

* `Spliced.live_cases` — what is live when the pass is through.
* `Spliced.covers` — what covers what when the pass is through.
-/

namespace ArmBackend

/-- Whether `w` is a node, and no change. -/
def Graph.Stays (g : Graph) (w : NodeId) : Prop :=
  ∃ n, g.node? w = some n ∧ n.op.isChange = false

/-- A node stays or is a change. -/
theorem Graph.stays_or_isChange {g : Graph} {w : NodeId} {n : Node} (hn : g.node? w = some n) :
    g.Stays w ∨ g.IsChange w := by
  cases hOp : n.op.isChange with
  | true => exact .inr ⟨n, hn, hOp⟩
  | false => exact .inl ⟨n, hn, hOp⟩

/-- Nodes whose operator is not that of a change stay. -/
theorem Graph.stays_of_op {g : Graph} {w : NodeId} {P : Operator → Prop}
    (h : ∃ n, g.node? w = some n ∧ P n.op) (hP : ∀ f, ¬P (.change f)) : g.Stays w := by
  obtain ⟨n, hn, hIs⟩ := h
  refine ⟨n, hn, Bool.eq_false_iff.mpr fun hChange => ?_⟩
  obtain ⟨f, hf⟩ := Operator.isChange_iff.mp hChange
  exact hP f (hf ▸ hIs)

/-- Heads of blocks stay. -/
theorem Graph.IsHead.stays {g : Graph} {w : NodeId} (h : g.IsHead w) : g.Stays w :=
  stays_of_op (P := fun op => op.isHead = true) h nofun

/-- Ends of blocks stay. -/
theorem Graph.IsEnd.stays {g : Graph} {w : NodeId} (h : g.IsEnd w) : g.Stays w :=
  stays_of_op (P := fun op => op = .branch ∨ op = .ret) h nofun

/-- The edges of what starts a block are control edges. -/
theorem Graph.IsHead.edge {g : Graph} {w x : NodeId} {kind : EdgeKind} (hWell : g.WellFormed)
    (hHead : g.IsHead w) (hEdge : g.HasEdge w kind x) : kind = .control := by
  obtain ⟨n, hn, hIs⟩ := hHead
  obtain ⟨m, hm, hx⟩ := hEdge
  obtain rfl := Option.some.inj (hn.symm.trans hm)
  obtain ⟨arity, hArity, -, hValue, hEffect, -⟩ := arity_of_verify hWell.verify hn
  -- by their arity, heads take neither values nor effects
  obtain ⟨hNoValue, hNoEffect⟩ : arity.value = some 0 ∧ arity.effect = some 0 := by
    cases hOp : n.op <;> rw [hOp] at hIs hArity <;> cases hIs <;> cases hArity <;> exact ⟨rfl, rfl⟩
  rw [hNoValue] at hValue
  rw [hNoEffect] at hEffect
  have hZero : n.valueCount = 0 := Arity.eq_of_admits hValue
  have hZero' : n.effectCount = 0 := Arity.eq_of_admits hEffect
  obtain ⟨i, hi, hEq⟩ := List.mem_mapIdx.mp hx
  have hKind : n.edgeKind i = .control := by
    unfold Node.edgeKind
    rw [if_neg (by omega), if_neg (by omega)]
  rw [hKind] at hEq
  cases hEq
  rfl

/-- Rewiring a node rewires each of its edges. -/
theorem Node.edges_rewire_mem {n : Node} {ρ : EdgeKind → NodeId → NodeId} {kind : EdgeKind}
    {x : NodeId} (h : (kind, x) ∈ n.edges) : (kind, ρ kind x) ∈ (n.rewire ρ).edges := by
  obtain ⟨i, hi, hEq⟩ := List.mem_mapIdx.mp h
  cases hEq
  refine List.mem_mapIdx.mpr ⟨i, by simpa [Node.rewire] using hi, ?_⟩
  simp only [Node.rewire, List.getElem_mapIdx]
  rfl

namespace Lowering

variable {l : Layout} {g h : Graph} {exit : NodeId} {n m : Node}
  {ρ : EdgeKind → NodeId → NodeId} {arms : NodeId → Option Arms} {a : Arms} {op : Operator}
  {b c e k u w x y z : NodeId} {kind : EdgeKind} {i : Nat}

/-! ## Fragments -/

section Fragments

variable {s : Site} {forks : Option Arms}

/-- A plain operator ends no block. -/
theorem Operator.not_isEnd_of_isPlain {op : Operator} (h : op.isPlain = true) :
    ¬(op = .branch ∨ op = .ret) := by
  rintro (rfl | rfl) <;> cases h

/-- What a fragment answers with is a part of it. -/
theorem Answers.part (hAnswers : Answers h s forks w) : Part h s forks w := by
  cases forks with
  | some a => exact .joined rfl hAnswers
  | none => exact .hangs (.inl rfl) hAnswers

/-- What a fragment answers with ends no block. -/
theorem Answers.not_isEnd (hAnswers : Answers h s forks w) : ¬h.IsEnd w := by
  rintro ⟨m', hm', hEnd⟩
  cases forks with
  | some a =>
    obtain ⟨m, hm, hPhi, -⟩ := hAnswers
    obtain rfl := Option.some.inj (hm.symm.trans hm')
    rcases hEnd with hEnd | hEnd <;> rw [hEnd] at hPhi <;> cases hPhi
  | none =>
    obtain ⟨m, hm, hPlain⟩ := Hangs.exists_node hAnswers
    obtain rfl := Option.some.inj (hm.symm.trans hm')
    exact Operator.not_isEnd_of_isPlain hPlain hEnd

/-- The merge of a fragment ends no block. -/
theorem Branched.merge_not_isEnd (hForked : Branched h s a) : ¬h.IsEnd a.merge := by
  rintro ⟨m, hm, hEnd⟩
  obtain rfl := Option.some.inj (hForked.merge.symm.trans hm)
  rcases hEnd with hEnd | hEnd <;> cases hEnd

/-! ### Branches -/

/-- The branch of a fragment takes its condition and the control of the site. -/
theorem Branched.input_branch (hForked : Branched h s a) (hInput : h.HasInput a.branch y) :
    Feeds h s s.base .value y ∨ y = s.base := by
  obtain ⟨condition, hm, hFeeds⟩ := hForked.branch
  obtain ⟨m, hm', hy⟩ := hInput
  obtain rfl := Option.some.inj (hm.symm.trans hm')
  rcases List.mem_cons.mp hy with rfl | hy
  · exact .inl hFeeds
  · exact .inr (List.mem_singleton.mp hy)

/-- An arm takes the branch alone. -/
theorem Branched.input_arm (hForked : Branched h s a) (hArm : a.IsArm k) :
    h.HasInput k y ↔ y = a.branch := by
  obtain ⟨op, hm⟩ : ∃ op, h.node? k = some (.ofArity op [a.branch]) := by
    rcases hArm with rfl | rfl
    · exact ⟨_, hForked.ifTrue⟩
    · exact ⟨_, hForked.ifFalse⟩
  constructor
  · rintro ⟨m, hm', hy⟩
    obtain rfl := Option.some.inj (hm.symm.trans hm')
    exact List.mem_singleton.mp hy
  · rintro rfl
    exact ⟨_, hm, List.mem_singleton.mpr rfl⟩

/-- The merge takes the two arms alone. -/
theorem Branched.input_merge (hForked : Branched h s a) : h.HasInput a.merge y ↔ a.IsArm y := by
  constructor
  · rintro ⟨m, hm', hy⟩
    obtain rfl := Option.some.inj (hForked.merge.symm.trans hm')
    exact (List.mem_cons.mp hy).imp_right List.mem_singleton.mp
  · intro hArm
    exact ⟨_, hForked.merge, List.mem_cons.mpr (hArm.imp_right List.mem_singleton.mpr)⟩

/-- The branch of a fragment is one. -/
theorem Branched.hasOp_branch (hForked : Branched h s a) : h.HasOp a.branch .branch := by
  obtain ⟨condition, hm, -⟩ := hForked.branch
  exact ⟨_, hm, rfl⟩

/-- Control comes to the branch from the site. -/
theorem Branched.step (hForked : Branched h s a) : h.ControlStep a.branch s.base := by
  obtain ⟨condition, hm, -⟩ := hForked.branch
  exact ⟨_, hm, rfl, show (1 : Int) ≠ 0 by decide, rfl⟩

/-- An arm is the head of a block. -/
theorem Branched.isHead_arm (hForked : Branched h s a) (hArm : a.IsArm k) : h.IsHead k := by
  rcases hArm with rfl | rfl
  · exact ⟨_, hForked.ifTrue, rfl⟩
  · exact ⟨_, hForked.ifFalse, rfl⟩

/-- The merge is the head of a block. -/
theorem Branched.isHead_merge (hForked : Branched h s a) : h.IsHead a.merge :=
  ⟨_, hForked.merge, rfl⟩

/-- What covers the control where a fragment starts covers its arms. -/
theorem Branched.covers_arm (hForked : Branched h s a) (hArm : a.IsArm k)
    (hCovers : h.Covers z s.base) : h.Covers z k := by
  refine .step ⟨a.branch, .inr ⟨hForked.isHead_arm hArm, (hForked.input_arm hArm).mpr rfl⟩⟩ ?_
  intro u hBack
  obtain rfl := (hForked.input_arm hArm).mp (hBack.hasInput_of_isHead (hForked.isHead_arm hArm))
  exact hCovers.of_step hForked.step

/-- What covers the control where a fragment starts covers its merge. -/
theorem Branched.covers_merge (hForked : Branched h s a) (hCovers : h.Covers z s.base) :
    h.Covers z a.merge := by
  refine .step ⟨a.ifTrue, .inr ⟨hForked.isHead_merge, hForked.input_merge.mpr (.inl rfl)⟩⟩ ?_
  intro u hBack
  exact hForked.covers_arm
    (hForked.input_merge.mp (hBack.hasInput_of_isHead hForked.isHead_merge)) hCovers

/-- Control comes to the merge of a fragment from where the fragment starts. -/
theorem Branched.back (hForked : Branched h s a) :
    Relation.ReflTransGen h.ControlBack a.merge s.base :=
  (hForked.covers_merge .self).reaches

/-! ### Parts -/

/-- What a part of a fragment takes: where the fragment starts, what the change takes, or another
part. -/
theorem Part.input_cases (hForked : ∀ a, forks = some a → Branched h s a) (hPart : Part h s forks w)
    (hInput : h.HasInput w y) :
    y = s.base ∨ (∃ kind, s.takes kind y) ∨ Part h s forks y := by
  have hFeeds : ∀ {k kind}, Level s forks k → Feeds h s k kind y →
      y = s.base ∨ (∃ kind, s.takes kind y) ∨ Part h s forks y := by
    rintro k kind hk (hTaken | hHangs)
    · exact .inr (.inl ⟨kind, hTaken⟩)
    · exact .inr (.inr (.hangs hk hHangs))
  have hLevel : ∀ {k}, Level s forks k → k = s.base ∨ Part h s forks k := by
    rintro k (hBase | ⟨a, ha, hArm⟩)
    · exact .inl hBase
    · exact .inr (.forks ha hArm.has)
  obtain ⟨m', hm', hy⟩ := id hInput
  -- An edge of the part is known with its kind.
  obtain ⟨kind, hEdge⟩ := Node.mem_inputs_iff.mp hy
  -- What hangs on a level, what branches, and what joins the arms.
  cases hPart with
  | @hangs k hk hHangs =>
    obtain ⟨k', m, hk', hm, -, -, hEdges⟩ := hHangs.cases_node
    obtain rfl := Option.some.inj (hm.symm.trans hm')
    have hAt : Level s forks k' := by
      rcases hk' with rfl | rfl
      · exact hk
      · exact .inl rfl
    rcases hEdges _ hEdge with hEq | hIs
    · cases hEq
      exact (hLevel hAt).imp_right .inr
    · exact hFeeds hAt hIs
  | @forks a ha hHas =>
    have hArm : a.IsArm w → y = a.branch := fun hArm => ((hForked a ha).input_arm hArm).mp hInput
    -- The branch, its two arms and the merge.
    rcases hHas with rfl | rfl | rfl | rfl
    · rcases (hForked a ha).input_branch hInput with hIs | hBase
      · exact hFeeds (.inl rfl) hIs
      · exact .inl hBase
    · exact .inr (.inr (.forks ha (.inl (hArm (.inl rfl)))))
    · exact .inr (.inr (.forks ha (.inl (hArm (.inr rfl)))))
    · exact .inr (.inr (.forks ha ((hForked a ha).input_merge.mp hInput).has))
  | @joined a ha hJoined =>
    obtain ⟨m, hm, -, -, -, hEdges⟩ := hJoined
    obtain rfl := Option.some.inj (hm.symm.trans hm')
    rcases hEdges _ hEdge with hEq | ⟨k, hArm, hIs⟩
    · cases hEq
      exact .inr (.inr (.forks ha (.inr (.inr (.inr rfl)))))
    · exact hFeeds (.inr ⟨a, ha, hArm⟩) hIs

end Fragments

/-- Whether the fragment of a change branches. -/
def Splits (arms : NodeId → Option Arms) (c : NodeId) : Prop :=
  (arms c).isSome = true

/-- What the pass leaves of a graph that can be scheduled and whose control is threaded through the
changes that branch. -/
structure Spliced (l : Layout) (g h : Graph) (exit : NodeId) (ρ : EdgeKind → NodeId → NodeId)
    (arms : NodeId → Option Arms) : Prop where
  well : g.WellFormed
  start : g.HasOp Graph.start .start
  acyclic : ∀ id, ¬Relation.TransGen g.HasInput id id
  schedulable : g.Schedulable exit
  threaded : g.Threaded exit (Splits arms)
  /-- What is boxed without a control input is there at the start. -/
  boxes : ∀ {c k}, g.Live exit c → g.HasOp c (.change .float64ToTagged) → g.Floats c →
    g.RestsAt (Splits arms) c k → k = Graph.start
  kept : Kept l g g.size h ρ
  grafted : Grafted l g h g.size ρ arms
  anchored : ∀ {c}, Splits arms c → g.Entered c

/-- Whether a change that `x` leads to takes `y`, or has it in its fragment and it ends no block. -/
def Relayed (g h : Graph) (ρ : EdgeKind → NodeId → NodeId) (arms : NodeId → Option Arms)
    (x y : NodeId) : Prop :=
  ∃ c, g.IsChange c ∧ Relation.ReflTransGen g.HasInput x c ∧
    (g.HasInput c y ∨ Part h (site g ρ c) (arms c) y ∧ ¬h.IsEnd y)

namespace Spliced

variable (hL : Spliced l g h exit ρ arms)
include hL

/-! ## Nodes -/

/-- The fragment of a change is grafted on its site. -/
theorem graft (hIs : g.IsChange c) : Graft l g h ρ c (arms c) := by
  refine hL.grafted.graft hIs ?_
  obtain ⟨n, hn, -⟩ := hIs
  exact (Graph.node?_lt hn).2

/-- Only a change is split. -/
theorem isChange (hSplits : Splits arms c) : g.IsChange c := by
  obtain ⟨a, ha⟩ := Option.isSome_iff_exists.mp hSplits
  exact (hL.grafted.done ha).1

/-- The fragment of a change that is split has a branch at its site. -/
theorem forked (ha : arms c = some a) : Branched h (site g ρ c) a :=
  (hL.graft (hL.grafted.done ha).1).forked a ha

/-- A node that stays is only rewired. -/
theorem node (hn : g.node? w = some n) (hOp : n.op.isChange = false) :
    h.node? w = some (n.rewire ρ) :=
  hL.kept.kept hn fun hIs => by
    rw [hOp] at hIs
    cases hIs

/-- A change is dead afterwards. -/
theorem dead (hIs : g.IsChange c) : h.node? c = some { op := .dead } := by
  obtain ⟨n, hn, -⟩ := id hIs
  obtain ⟨j, rfl, -⟩ := Graph.node?_eq_some.mp hn
  have hLt : (g.size : Int) > (j : Int) := (Graph.node?_lt hn).2
  exact hL.kept.killed (by omega) hIs

/-- Of a change only a dead node is left. -/
theorem of_isChange (hIs : g.IsChange c) {P : Node → Prop} (hNode : ∃ m, h.node? c = some m ∧ P m) :
    P { op := .dead } := by
  obtain ⟨m, hm, hP⟩ := hNode
  obtain rfl := Option.some.inj ((hL.dead hIs).symm.trans hm)
  exact hP

/-- A change that is dead is no head of a block. -/
theorem not_isHead_of_isChange (hIs : g.IsChange c) : ¬h.IsHead c := by
  intro hHead
  have hDead := hL.of_isChange hIs (P := fun n => n.op.isHead = true) hHead
  cases hDead

/-- A change that is dead ends no block. -/
theorem not_isEnd_of_isChange (hIs : g.IsChange c) : ¬h.IsEnd c := by
  intro hEnd
  have hDead := hL.of_isChange hIs (P := fun n => n.op = .branch ∨ n.op = .ret) hEnd
  rcases hDead with hOp | hOp <;> cases hOp

/-- Edges to a node that is no change stay. -/
theorem fixed (hStays : g.Stays w) : ρ kind w = w := by
  by_contra hNe
  obtain ⟨n, hn, hOp⟩ := hStays
  exact not_isChange_of hn hOp (hL.kept.fixed hNe).1

/-- A node of the result stays, is a dead change, or belongs to a fragment. -/
theorem cases_node (hm : h.node? w = some m) : g.Stays w ∨ g.IsChange w ∨
    ∃ c, g.IsChange c ∧ Part h (site g ρ c) (arms c) w := by
  by_cases hw : (g.size : Int) ≤ w
  · obtain ⟨c, hIs, -, hPart⟩ := hL.grafted.parts hw hm
    exact .inr (.inr ⟨c, hIs, hPart⟩)
  · obtain ⟨n, hn⟩ := Graph.exists_node? (Graph.node?_lt hm).1 (Int.not_le.mp hw)
    exact (Graph.stays_or_isChange hn).imp_right .inl

/-- What the edges do not enter into is as it was. -/
theorem exists_iff (hStays : g.Stays w) {P : Node → Prop} (hP : ∀ n, P (n.rewire ρ) ↔ P n) :
    (∃ m, h.node? w = some m ∧ P m) ↔ ∃ n, g.node? w = some n ∧ P n := by
  obtain ⟨n, hn, hOp⟩ := hStays
  have hNow := hL.node hn hOp
  constructor
  · rintro ⟨m, hm, hIs⟩
    obtain rfl := Option.some.inj (hNow.symm.trans hm)
    exact ⟨n, hn, (hP n).mp hIs⟩
  · rintro ⟨m, hm, hIs⟩
    obtain rfl := Option.some.inj (hn.symm.trans hm)
    exact ⟨_, hNow, (hP _).mpr hIs⟩

/-- What stays keeps its operator. -/
theorem hasOp_iff (hStays : g.Stays w) : h.HasOp w op ↔ g.HasOp w op :=
  hL.exists_iff hStays (P := fun n => n.op = op) fun _ => Iff.rfl

/-- What stays is a head exactly if it was one. -/
theorem isHead_iff (hStays : g.Stays w) : h.IsHead w ↔ g.IsHead w :=
  hL.exists_iff hStays (P := fun n => n.op.isHead = true) fun _ => Iff.rfl

/-- What stays is a phi exactly if it was one. -/
theorem isPhi_iff (hStays : g.Stays w) : h.IsPhi w ↔ g.IsPhi w :=
  hL.exists_iff hStays (P := fun n => n.op.isPhi = true) fun _ => Iff.rfl

/-- What stays ends a block exactly if it did. -/
theorem isEnd_iff (hStays : g.Stays w) : h.IsEnd w ↔ g.IsEnd w :=
  hL.exists_iff hStays (P := fun n => n.op = .branch ∨ n.op = .ret) fun _ => Iff.rfl

/-- What stays is entered by control exactly if it was. -/
theorem entered_iff (hStays : g.Stays w) : h.Entered w ↔ g.Entered w :=
  hL.exists_iff hStays (P := fun n => n.controlCount ≠ 0) fun _ => Iff.rfl

/-- What stays floats exactly if it did. -/
theorem floats_iff (hStays : g.Stays w) : h.Floats w ↔ g.Floats w :=
  hL.exists_iff hStays (P := fun n => n.controlCount = 0) fun _ => Iff.rfl

/-- The control where the fragment of an anchored change starts. -/
theorem base (hStep : g.ControlStep c u) : (site g ρ c).base = ρ .control u :=
  site_base hL.well hStep

/-! ## Edges -/

/-- The inputs of what stays are the old ones, rewired. -/
theorem hasInput_iff (hStays : g.Stays w) :
    h.HasInput w y ↔ ∃ kind x, g.HasEdge w kind x ∧ ρ kind x = y := by
  obtain ⟨n, hn, hOp⟩ := hStays
  have hNow := hL.node hn hOp
  constructor
  · rintro ⟨m, hm, hy⟩
    obtain rfl := Option.some.inj (hNow.symm.trans hm)
    obtain ⟨kind, hEdge⟩ := Node.mem_inputs_iff.mp hy
    obtain ⟨x, hx, rfl⟩ := Node.mem_edges_rewire hEdge
    exact ⟨kind, x, ⟨n, hn, hx⟩, rfl⟩
  · rintro ⟨kind, x, ⟨m, hm, hx⟩, rfl⟩
    obtain rfl := Option.some.inj (hn.symm.trans hm)
    exact ⟨_, hNow, Node.mem_inputs_iff.mpr ⟨kind, Node.edges_rewire_mem hx⟩⟩

/-- A change that is dead has no inputs. -/
theorem not_hasInput_of_isChange (hIs : g.IsChange c) : ¬h.HasInput c y := by
  intro hInput
  have hDead := hL.of_isChange hIs (P := fun n => y ∈ n.inputs) hInput
  cases hDead

/-- Control comes to what stays from where it came, rewired. -/
theorem controlStep_iff (hStays : g.Stays w) :
    h.ControlStep w y ↔ ∃ u, g.ControlStep w u ∧ ρ .control u = y := by
  obtain ⟨n, hn, hOp⟩ := hStays
  have hNow := hL.node hn hOp
  have hCounted := hL.well.counted hn
  constructor
  · rintro ⟨m, hm, hHead, hSome, hControl⟩
    obtain rfl := Option.some.inj (hNow.symm.trans hm)
    have hSome : n.controlCount ≠ 0 := hSome
    obtain ⟨u, hu, -⟩ := hL.well.controlIn hn hSome
    rw [Node.controlIn_rewire hCounted hu, if_neg hSome] at hControl
    exact ⟨u, ⟨n, hn, hHead, hSome, hu⟩, Except.ok.inj hControl⟩
  · rintro ⟨u, ⟨m, hm, hHead, hSome, hu⟩, rfl⟩
    obtain rfl := Option.some.inj (hn.symm.trans hm)
    exact ⟨_, hNow, hHead, hSome, by rw [Node.controlIn_rewire hCounted hu, if_neg hSome]⟩

/-- An edge leads where it led, or where a change on its way relays it. -/
theorem edge_cases (kind : EdgeKind) (x : NodeId) :
    ρ kind x = x ∨ Relayed g h ρ arms x (ρ kind x) := by
  -- By induction along inputs: where an edge of the change leads, another change may lead it on.
  refine hL.well.inputs_induction hL.acyclic (P := fun x => ∀ kind,
    ρ kind x = x ∨ Relayed g h ρ arms x (ρ kind x)) ?_ x kind
  intro x ih kind
  by_cases hSame : ρ kind x = x
  · exact .inl hSame
  refine .inr ?_
  have hIs := (hL.kept.fixed hSame).1
  have hGraft := hL.graft hIs
  have hAnswers : Answers h (site g ρ x) (arms x) (ρ kind x) → Relayed g h ρ arms x (ρ kind x) :=
    fun hAnswers => ⟨x, hIs, .refl, .inr ⟨hAnswers.part, hAnswers.not_isEnd⟩⟩
  -- The edges are led to where an edge of the change is.
  have hOn : ∀ {kind' y}, g.HasEdge x kind' y → ρ kind x = ρ kind' y →
      Relayed g h ρ arms x (ρ kind x) := by
    intro kind' y hEdge hEq
    have hInput : g.HasInput x y := Graph.hasInput_iff_edge.mpr ⟨_, hEdge⟩
    rw [hEq]
    rcases ih y (.single hInput) kind' with hSame | ⟨c, hChange, hDown, hCases⟩
    · exact ⟨x, hIs, .refl, .inl (hSame.symm ▸ hInput)⟩
    · exact ⟨c, hChange, .head hInput hDown, hCases⟩
  cases kind with
  | value => exact hAnswers hGraft.value
  | effect =>
    rcases hGraft.effect with hEffect | ⟨y, hEdge, hEq⟩ | ⟨-, hStays⟩
    · exact hAnswers hEffect
    · exact hOn hEdge hEq
    · exact absurd hStays hSame
  | control =>
    cases hArms : arms x with
    | some a =>
      refine ⟨x, hIs, .refl, .inr ?_⟩
      rw [hArms, hGraft.merges a hArms]
      exact ⟨.forks rfl (.inr (.inr (.inr rfl))), (hL.forked hArms).merge_not_isEnd⟩
    | none =>
      rcases hIs.floats_or_step hL.well with hFloats | ⟨u, hStep⟩
      · exact absurd (hGraft.stays hArms hFloats) hSame
      · exact hOn (hStep.edge hL.well)
          ((hGraft.passes hArms hStep.entered).trans (hL.base hStep))

/-- No edge is led to what ends a block but those that lead there anyway. -/
theorem edge_isEnd (hEnd : h.IsEnd (ρ kind x)) : ρ kind x = x ∨
    ∃ c, g.IsChange c ∧ Relation.ReflTransGen g.HasInput x c ∧ g.HasInput c (ρ kind x) := by
  refine (hL.edge_cases kind x).imp_right ?_
  rintro ⟨c, hIs, hDown, hInput | ⟨-, hNot⟩⟩
  · exact ⟨c, hIs, hDown, hInput⟩
  · exact absurd hEnd hNot

/-! ## What is live -/

/-- What an edge of a live node leads to was live, or is a part of the fragment of a live change. -/
theorem live_edge (hLive : g.Live exit x) : g.Live exit (ρ kind x) ∨
    ∃ c, g.IsChange c ∧ g.Live exit c ∧ Part h (site g ρ c) (arms c) (ρ kind x) := by
  rcases hL.edge_cases kind x with hSame | ⟨c, hIs, hDown, hInput | ⟨hPart, -⟩⟩
  · exact .inl (hSame.symm ▸ hLive)
  · exact .inl ((hLive.trans hDown).tail hInput)
  · exact .inr ⟨c, hIs, hLive.trans hDown, hPart⟩

theorem live_cases (hLive : h.Live exit w) : g.Live exit w ∨
    ∃ c, g.IsChange c ∧ g.Live exit c ∧ Part h (site g ρ c) (arms c) w := by
  -- Along the way from the exit: a node that stays takes what its edges were led to, and a part of
  -- a fragment takes another part or what the change takes.
  induction hLive with
  | refl => exact .inl .refl
  | @tail w y _ hInput ih =>
    rcases ih with hLive | ⟨c, hIs, hLive, hPart⟩
    · obtain ⟨n, hn⟩ := hLive.node hL.well (by
        obtain ⟨n, hn, -⟩ := hL.threaded.isExit
        exact ⟨n, hn⟩)
      rcases Graph.stays_or_isChange hn with hStays | hIs
      · obtain ⟨kind, x, hEdge, rfl⟩ := (hL.hasInput_iff hStays).mp hInput
        exact hL.live_edge (hLive.input (Graph.hasInput_iff_edge.mpr ⟨kind, hEdge⟩))
      · exact absurd hInput (hL.not_hasInput_of_isChange hIs)
    · rcases hPart.input_cases (fun a ha => hL.forked ha) hInput with rfl | ⟨kind, x, hEdge, rfl⟩ |
        hNext
      · rcases hIs.floats_or_step hL.well with hFloats | ⟨u, hStep⟩
        · rw [site_base_of_floats hFloats]
          exact .inl hL.schedulable.start
        · rw [hL.base hStep]
          exact hL.live_edge (hLive.input (hStep.hasInput hL.well))
      · exact hL.live_edge (hLive.input (Graph.hasInput_iff_edge.mpr ⟨kind, hEdge⟩))
      · exact .inr ⟨c, hIs, hLive, hNext⟩

/-! ## Control -/

/-- A graph with its fragments is well formed. -/
theorem wellFormed : h.WellFormed where
  verify := hL.kept.verify
  counted hn := (hL.kept.sound hn).2
  exit id hExit := by
    rw [hL.kept.exit] at hExit
    obtain ⟨n, hn⟩ := hL.well.exit id hExit
    rcases Graph.stays_or_isChange hn with ⟨m, hm, hOp⟩ | hIs
    · exact ⟨_, hL.node hm hOp⟩
    · exact ⟨_, hL.dead hIs⟩

/-- A step along control stays one, but for the changes: the pass leads it past those that do not
branch, and over the fragment where one does. -/
theorem step (hStep : g.ControlStep x u) (hNot : ¬Splits arms x) :
    Relation.ReflTransGen h.ControlStep (ρ .control x) (ρ .control u) := by
  obtain ⟨n, hn, -⟩ := id hStep
  rcases Graph.stays_or_isChange hn with hStays | hIs
  · rw [hL.fixed hStays]
    exact .single ((hL.controlStep_iff hStays).mpr ⟨u, hStep, rfl⟩)
  · rw [(hL.graft hIs).passes (Option.not_isSome_iff_eq_none.mp hNot) hStep.entered,
      hL.base hStep]

/-- The first mark of a control chain is the head that the chain leads to then. -/
theorem controlHead (hMark : g.FirstMark (Splits arms) x k) :
    h.ControlHead (ρ .control x) (ρ .control k) := by
  induction hMark with
  | @head x hHead =>
    rw [hL.fixed hHead.stays]
    exact .self ((hL.isHead_iff hHead.stays).mpr hHead)
  | @splits x hSplits =>
    obtain ⟨a, ha⟩ := Option.isSome_iff_exists.mp hSplits
    rw [(hL.graft (hL.isChange hSplits)).merges a ha]
    exact .self (hL.forked ha).isHead_merge
  | step hStep hNot _ ih => exact ⟨(hL.step hStep hNot).trans ih.1, ih.2⟩

/-- Control goes back as it did. -/
theorem back (hBack : g.ControlBack w u) :
    Relation.ReflTransGen h.ControlBack (ρ .control w) (ρ .control u) := by
  rcases hBack with hStep | ⟨hHead, hInput⟩
  · by_cases hSplits : Splits arms w
    · obtain ⟨a, ha⟩ := Option.isSome_iff_exists.mp hSplits
      rw [(hL.graft (hL.isChange hSplits)).merges a ha, ← hL.base hStep]
      exact (hL.forked ha).back
    · exact Relation.ReflTransGen.mono (fun _ _ => .inl) _ _ (hL.step hStep hSplits)
  · obtain ⟨kind, hEdge⟩ := Graph.hasInput_iff_edge.mp hInput
    obtain rfl := hHead.edge hL.well hEdge
    rw [hL.fixed hHead.stays]
    exact .single (.inr ⟨(hL.isHead_iff hHead.stays).mpr hHead,
      (hL.hasInput_iff hHead.stays).mpr ⟨_, _, hEdge, rfl⟩⟩)

/-- What control goes on from to a return stays live. -/
theorem live (hFlows : g.FlowsOut exit x) : h.Live exit (ρ .control x) := by
  obtain ⟨e, hInput, hOp, hBack⟩ := hFlows
  have hExit : g.Stays exit :=
    Graph.stays_of_op (P := fun op => op = .exit) hL.threaded.isExit nofun
  have hRet : g.Stays e := Graph.stays_of_op (P := fun op => op = .ret) hOp nofun
  obtain ⟨kind, hEdge⟩ := Graph.hasInput_iff_edge.mp hInput
  have hTakes : h.HasInput exit e := (hL.hasInput_iff hExit).mpr ⟨kind, e, hEdge, hL.fixed hRet⟩
  have hWay : Relation.ReflTransGen h.ControlBack e (ρ .control x) := by
    have hFixed : ρ .control e = e := hL.fixed hRet
    rw [← hFixed]
    exact hBack.lift' (ρ .control) fun _ _ => hL.back
  exact .head hTakes
    (Relation.ReflTransGen.mono (fun _ _ hBack => hBack.hasInput hL.wellFormed) _ _ hWay)

/-- What covered a node covers it. -/
theorem covers (hCovers : g.Covers b y) : h.Covers (ρ .control b) (ρ .control y) := by
  induction hCovers with
  | self => exact .self
  | @step y hBack _ ih =>
    obtain ⟨v, hv⟩ := hBack
    by_cases hHead : g.IsHead y
    · rw [hL.fixed hHead.stays]
      have hIs := (hL.isHead_iff hHead.stays).mpr hHead
      obtain ⟨kind, hEdge⟩ := Graph.hasInput_iff_edge.mp (hv.hasInput_of_isHead hHead)
      refine .step ⟨_, .inr ⟨hIs, (hL.hasInput_iff hHead.stays).mpr ⟨_, _, hEdge, rfl⟩⟩⟩ ?_
      intro w hw
      obtain ⟨kind, x, hx, rfl⟩ := (hL.hasInput_iff hHead.stays).mp (hw.hasInput_of_isHead hIs)
      obtain rfl := hHead.edge hL.well hx
      exact ih x (.inr ⟨hHead, Graph.hasInput_iff_edge.mpr ⟨_, hx⟩⟩)
    · have hStep := hv.step hHead
      -- The way back from a change that branches goes through both arms of its fragment.
      by_cases hSplits : Splits arms y
      · obtain ⟨a, ha⟩ := Option.isSome_iff_exists.mp hSplits
        rw [(hL.graft (hL.isChange hSplits)).merges a ha]
        refine (hL.forked ha).covers_merge ?_
        rw [hL.base hStep]
        exact ih v hv
      · exact (ih v hv).trans (.of_chain (hL.step hStep hSplits))

end Spliced

end Lowering
end ArmBackend
