import ArmBackend.Proofs.Lowering.Hanging
import ArmBackend.Proofs.Lowering.Kept
import ArmBackend.Proofs.Schedule.Schedulable

/-!
# Fragments in the graph

The pass puts one fragment after another into the graph, and each round leads the edges elsewhere
that led to its change, those of the fragments of before among them. What a fragment looked like
when it was built it looks like ever after, but for where the edges to changes lead now: a node
hangs where it hung, on a control that goes by the name that the rounds have given it
(`Hangs.rewires`).

`Graft` is what the fragment of a change is in the graph; `Grafted` says that of all changes that
the pass has gone through, and that the nodes that it added are those of the fragments.

## Results

* `Grafted.step` — what one round leaves.
* `lowerNodes_grafted` — what the pass leaves of a graph where the changes that branch are anchored.
-/

namespace ArmBackend

/-- Whether an edge of a kind leads from `w` to `x`. -/
def Graph.HasEdge (g : Graph) (w : NodeId) (kind : EdgeKind) (x : NodeId) : Prop :=
  ∃ n, g.node? w = some n ∧ (kind, x) ∈ n.edges

/-- An input is where an edge of some kind leads. -/
theorem Graph.hasInput_iff_edge {g : Graph} {w x : NodeId} :
    g.HasInput w x ↔ ∃ kind, g.HasEdge w kind x := by
  constructor
  · rintro ⟨n, hn, hx⟩
    obtain ⟨kind, hEdge⟩ := Node.mem_inputs_iff.mp hx
    exact ⟨kind, n, hn, hEdge⟩
  · rintro ⟨kind, n, hn, hEdge⟩
    exact ⟨n, hn, Node.mem_inputs_iff.mpr ⟨kind, hEdge⟩⟩

/-- A step along control is one along a control edge. -/
theorem Graph.ControlStep.edge {g : Graph} {w u : NodeId} (hWell : g.WellFormed)
    (hStep : g.ControlStep w u) : g.HasEdge w .control u := by
  obtain ⟨n, hn, -, hSome, hControl⟩ := hStep
  exact ⟨n, hn, (hWell.counted hn).control_edge hSome hControl⟩

/-- A change has no anchors, or it hangs on a control. -/
theorem Graph.IsChange.floats_or_step {g : Graph} {c : NodeId} (hWell : g.WellFormed)
    (hIs : g.IsChange c) : g.Floats c ∨ ∃ u, g.ControlStep c u := by
  obtain ⟨n, hn, hOp⟩ := hIs
  by_cases hNone : n.controlCount = 0
  · exact .inl ⟨n, hn, hNone⟩
  · obtain ⟨u, hu, -⟩ := hWell.controlIn hn hNone
    obtain ⟨f, hf⟩ := Operator.isChange_iff.mp hOp
    exact .inr ⟨u, n, hn, by rw [hf]; rfl, hNone, hu⟩

/-- A plain operator changes no representation. -/
theorem Operator.isChange_of_isPlain {op : Operator} (h : op.isPlain = true) :
    op.isChange = false := by
  unfold isPlain at h
  simp only [Bool.and_eq_true, Bool.not_eq_true'] at h
  exact h.1.1.2

/-- A phi changes no representation. -/
theorem Operator.isChange_of_isPhi {op : Operator} (h : op.isPhi = true) : op.isChange = false := by
  cases op with
  | phi | effectPhi => rfl
  | _ => cases h

namespace Lowering

variable {l : Layout} {g h h₁ h' : Graph} {i : Nat} {f : Change} {n m : Node} {e : Entry}
  {small : Bool} {ns : List Node} {r : Graph.Replacement} {ρ σ : EdgeKind → NodeId → NodeId}
  {s s' : Site} {a a' : Arms} {arms : Option Arms} {allArms : NodeId → Option Arms}
  {c c' k u w x y : NodeId} {kind : EdgeKind}

/-! ## Edges led elsewhere -/

/-- A graph with its edges led elsewhere: none of them but those to changes. -/
structure Rewires (σ : EdgeKind → NodeId → NodeId) (h h' : Graph) : Prop where
  node : ∀ {w m}, h.node? w = some m → m.op.isChange = false → h'.node? w = some (m.rewire σ)
  fixed : ∀ {kind w m}, h.node? w = some m → m.op.isChange = false → σ kind w = w
  counted : ∀ {w m}, h.node? w = some m → m.Counted

/-- A site with the edges led elsewhere. -/
structure Site.Moves (σ : EdgeKind → NodeId → NodeId) (s s' : Site) : Prop where
  takes : ∀ {kind x}, s.takes kind x → s'.takes kind (σ kind x)
  base : s'.base = σ .control s.base
  pins : s.pins → s'.pins

/-- A node that hangs on a control is no change. -/
theorem Hangs.exists_node (h : Hangs g s k w) : ∃ m, g.node? w = some m ∧ m.op.isPlain = true := by
  obtain ⟨-, m, -, hm, hPlain, -⟩ := h.cases_node
  exact ⟨m, hm, hPlain⟩

/-- What a fragment answers with is no change. -/
theorem Answers.exists_node (hAnswers : Answers h s arms w) :
    ∃ m, h.node? w = some m ∧ m.op.isChange = false := by
  cases arms with
  | some a =>
    obtain ⟨m, hm, hPhi, -⟩ := hAnswers
    exact ⟨m, hm, Operator.isChange_of_isPhi hPhi⟩
  | none =>
    obtain ⟨m, hm, hPlain⟩ := Hangs.exists_node hAnswers
    exact ⟨m, hm, Operator.isChange_of_isPlain hPlain⟩

/-- The nodes of the diamond are there, and are no changes. -/
theorem Branched.exists_node (hForked : Branched h s a) (hHas : a.Has w) :
    ∃ m, h.node? w = some m ∧ m.op.isChange = false := by
  obtain ⟨condition, hBranch, -⟩ := hForked.branch
  rcases hHas with rfl | rfl | rfl | rfl
  · exact ⟨_, hBranch, rfl⟩
  · exact ⟨_, hForked.ifTrue, rfl⟩
  · exact ⟨_, hForked.ifFalse, rfl⟩
  · exact ⟨_, hForked.merge, rfl⟩

section Rewires

variable (hRewires : Rewires σ h h') (hMoves : s.Moves σ s')
include hRewires

/-- Edges to nodes that hang on a control stay, since these are no changes. -/
theorem Rewires.fixes_hangs (hHangs : Hangs h s k w) : σ kind w = w := by
  obtain ⟨m, hm, hPlain⟩ := hHangs.exists_node
  exact hRewires.fixed hm (Operator.isChange_of_isPlain hPlain)

/-- The control of a node is led elsewhere with its edge. -/
theorem Rewires.controlIn (hm : h.node? w = some m) (hSome : m.controlCount ≠ 0)
    (hx : m.controlIn = .ok x) : (m.rewire σ).controlIn = .ok (σ .control x) := by
  rw [Node.controlIn_rewire (hRewires.counted hm) hx, if_neg hSome]

include hMoves

/-- A node hangs where it hung. -/
theorem Hangs.rewires (hHangs : Hangs h s k w) : Hangs h' s' (σ .control k) w := by
  induction hHangs with
  | @node k w m hm hPlain hControl hEdges ih =>
    refine .node (hRewires.node hm (Operator.isChange_of_isPlain hPlain)) hPlain ?_ ?_
    · intro hSome
      obtain ⟨hPins, hIn⟩ := hControl hSome
      exact ⟨hMoves.pins hPins, hRewires.controlIn hm hSome hIn⟩
    · rintro ⟨kind, y⟩ hy hNotControl hNotTaken
      obtain ⟨x, hx, rfl⟩ := Node.mem_edges_rewire hy
      have hOld : (kind, x) ≠ (.control, k) := by
        rintro hEq
        cases hEq
        exact hNotControl rfl
      -- an edge that is free after the move was free before
      have hFree : ¬s.takes kind x := fun hTaken => hNotTaken (hMoves.takes hTaken)
      show Hangs h' s' (σ .control k) (σ kind x)
      rw [hRewires.fixes_hangs (hEdges _ hx hOld hFree)]
      exact ih _ hx hOld hFree
  | lift _ ih =>
    rw [← hMoves.base] at ih
    exact .lift ih

/-- What a node may take is led elsewhere with its edges. -/
theorem Feeds.rewires (hFeeds : Feeds h s k kind x) :
    Feeds h' s' (σ .control k) kind (σ kind x) := by
  rcases hFeeds with hTaken | hHangs
  · exact .inl (hMoves.takes hTaken)
  · rw [hRewires.fixes_hangs hHangs]
    exact .inr (hHangs.rewires hRewires hMoves)

omit hMoves in
/-- Edges to the diamond stay. -/
theorem Branched.fixes (hForked : Branched h s a) (hHas : a.Has w) : σ kind w = w := by
  obtain ⟨m, hm, hIs⟩ := hForked.exists_node hHas
  exact hRewires.fixed hm hIs

/-- The diamond stays, on the control where its site is led. -/
theorem Branched.rewires (hForked : Branched h s a) : Branched h' s' a := by
  -- Edges among the four nodes stay; only the condition and the base are led elsewhere.
  have hFixed : ∀ {w}, a.Has w → σ .control w = w := fun hHas => hForked.fixes hRewires hHas
  obtain ⟨condition, hBranch, hFeeds⟩ := hForked.branch
  have hBranch' := hRewires.node hBranch rfl
  have hTrue := hRewires.node hForked.ifTrue rfl
  have hFalse := hRewires.node hForked.ifFalse rfl
  have hMerge := hRewires.node hForked.merge rfl
  constructor
  case branch =>
    refine ⟨σ .value condition, ?_, ?_⟩
    · rw [hBranch', hMoves.base]
      rfl
    · rw [hMoves.base]
      exact hFeeds.rewires hRewires hMoves
  case ifTrue =>
    rw [hTrue]
    show some (Node.ofArity .ifTrue [σ .control a.branch]) = _
    rw [hFixed (.inl rfl)]
  case ifFalse =>
    rw [hFalse]
    show some (Node.ofArity .ifFalse [σ .control a.branch]) = _
    rw [hFixed (.inl rfl)]
  case merge =>
    rw [hMerge]
    show some (Node.merge [σ .control a.ifTrue, σ .control a.ifFalse]) = _
    rw [hFixed (.inr (.inl rfl)), hFixed (.inr (.inr (.inl rfl)))]

/-- A join joins what is led to the arms. -/
theorem Joined.rewires (hForked : Branched h s a) (hJoined : Joined h s a w) :
    Joined h' s' a w := by
  obtain ⟨m, hm, hPhi, hCount, hControl, hEdges⟩ := hJoined
  have hMerge : σ .control a.merge = a.merge := hForked.fixes hRewires (.inr (.inr (.inr rfl)))
  refine ⟨m.rewire σ, hRewires.node hm (Operator.isChange_of_isPhi hPhi), hPhi, hCount, ?_, ?_⟩
  · rw [hRewires.controlIn hm hCount hControl, hMerge]
  · rintro ⟨kind, y⟩ hy
    obtain ⟨x, hx, rfl⟩ := Node.mem_edges_rewire hy
    rcases hEdges _ hx with hEq | ⟨k, hArm, hFeeds⟩
    · cases hEq
      exact .inl (by rw [hMerge])
    · have hFixed : σ .control k = k := hForked.fixes hRewires hArm.has
      have hNow := hFeeds.rewires hRewires hMoves
      rw [hFixed] at hNow
      exact .inr ⟨k, hArm, hNow⟩

/-- The parts of a fragment stay its parts. -/
theorem Part.rewires (hForked : ∀ a, arms = some a → Branched h s a) (hPart : Part h s arms w) :
    Part h' s' arms w := by
  cases hPart with
  | @hangs k hk hHangs =>
    refine .hangs ?_ (hHangs.rewires hRewires hMoves)
    rcases hk with rfl | ⟨a, ha, hArm⟩
    · exact .inl hMoves.base.symm
    · rw [(hForked a ha).fixes hRewires hArm.has]
      exact .inr ⟨a, ha, hArm⟩
  | forks ha hHas => exact .forks ha hHas
  | joined ha hJoined => exact .joined ha (hJoined.rewires hRewires hMoves (hForked _ ha))

omit hMoves in
/-- Edges to what a fragment answers with stay. -/
theorem Answers.fixes (hAnswers : Answers h s arms w) : σ kind w = w := by
  obtain ⟨m, hm, hIs⟩ := hAnswers.exists_node
  exact hRewires.fixed hm hIs

/-- A fragment still answers with the same nodes. -/
theorem Answers.rewires (hForked : ∀ a, arms = some a → Branched h s a)
    (hAnswers : Answers h s arms w) : Answers h' s' arms w := by
  cases arms with
  | some a => exact Joined.rewires hRewires hMoves (hForked a rfl) hAnswers
  | none =>
    have hNow := Hangs.rewires hRewires hMoves hAnswers
    rwa [← hMoves.base] at hNow

end Rewires

/-! ## The fragment of a change -/

/-- Where the fragment of a change starts when edges to changes are led elsewhere. -/
def site (g : Graph) (ρ : EdgeKind → NodeId → NodeId) (c : NodeId) : Site where
  takes kind x := ∃ y, g.HasEdge c kind y ∧ ρ kind y = x
  base := match g.controlIn c with
    | .ok control => if control < 0 then Graph.start else ρ .control control
    | .error _ => Graph.start
  pins := g.Entered c ∨ g.HasOp c (.change .float64ToTagged)

/-- What the fragment of a change is in the graph. -/
structure Graft (l : Layout) (g h : Graph) (ρ : EdgeKind → NodeId → NodeId) (c : NodeId)
    (arms : Option Arms) : Prop where
  branches : arms.isSome = true → branches l g c = .ok true
  forked : ∀ a, arms = some a → Branched h (site g ρ c) a
  value : Answers h (site g ρ c) arms (ρ .value c)
  /-- Effect edges lead to where they led before the change when the fragment has no effect, and
  stay when there is none. -/
  effect : Answers h (site g ρ c) arms (ρ .effect c) ∨
    (∃ y, g.HasEdge c .effect y ∧ ρ .effect c = ρ .effect y) ∨ (g.Floats c ∧ ρ .effect c = c)
  merges : ∀ a, arms = some a → ρ .control c = a.merge
  passes : arms = none → g.Entered c → ρ .control c = (site g ρ c).base
  stays : arms = none → g.Floats c → ρ .control c = c

/-- The site of a fragment moves with the edges of its change. -/
theorem site_moves (hStart : σ .control Graph.start = Graph.start) :
    (site g ρ c).Moves σ (site g (fun kind x => σ kind (ρ kind x)) c) where
  takes := by
    rintro kind x ⟨y, hEdge, rfl⟩
    exact ⟨y, hEdge, rfl⟩
  base := by
    unfold site
    dsimp only
    split
    · split
      · exact hStart.symm
      · rfl
    · exact hStart.symm
  pins := id

/-- A fragment still answers with its nodes when others are added. -/
theorem Answers.grows (hAnswers : Answers h s arms w) (hGrows : Grows h h₁) :
    Answers h₁ s arms w := by
  cases arms with
  | some a => exact Joined.grows hAnswers hGrows
  | none => exact Hangs.grows hAnswers hGrows

/-- A fragment stays in the graph when nodes are added. -/
theorem Graft.grows (hGraft : Graft l g h ρ c arms) (hGrows : Grows h h₁) :
    Graft l g h₁ ρ c arms :=
  { hGraft with
    forked := fun a ha => (hGraft.forked a ha).grows hGrows
    value := hGraft.value.grows hGrows
    effect := hGraft.effect.imp_left fun hAnswers => hAnswers.grows hGrows }

section Graft

variable (hRewires : Rewires σ h h') (hStart : σ .control Graph.start = Graph.start)
include hRewires hStart

/-- A round at another change keeps a fragment. -/
theorem Graft.rewires (hFixed : ∀ kind, σ kind c = c) (hGraft : Graft l g h ρ c arms) :
    Graft l g h' (fun kind x => σ kind (ρ kind x)) c arms where
  branches := hGraft.branches
  forked a ha := (hGraft.forked a ha).rewires hRewires (site_moves hStart)
  value := by
    show Answers _ _ _ (σ .value (ρ .value c))
    rw [hGraft.value.fixes hRewires]
    exact hGraft.value.rewires hRewires (site_moves hStart) hGraft.forked
  effect := by
    -- The effect is the fragment's, or one that the change took, or nothing leads to it.
    rcases hGraft.effect with hAnswers | ⟨y, hEdge, hSame⟩ | ⟨hFloats, hStays⟩
    · refine .inl ?_
      show Answers _ _ _ (σ .effect (ρ .effect c))
      rw [hAnswers.fixes hRewires]
      exact hAnswers.rewires hRewires (site_moves hStart) hGraft.forked
    · exact .inr (.inl ⟨y, hEdge, congrArg (σ .effect) hSame⟩)
    · refine .inr (.inr ⟨hFloats, ?_⟩)
      show σ .effect (ρ .effect c) = c
      rw [hStays, hFixed]
  merges a ha := by
    show σ .control (ρ .control c) = a.merge
    rw [hGraft.merges a ha, (hGraft.forked a ha).fixes hRewires (.inr (.inr (.inr rfl)))]
  passes hNone hEntered := by
    show σ .control (ρ .control c) = _
    rw [hGraft.passes hNone hEntered, (site_moves hStart).base]
  stays hNone hFloats := by
    show σ .control (ρ .control c) = c
    rw [hGraft.stays hNone hFloats, hFixed]

end Graft

/-! ## All fragments -/

/-- A node with another operator is no change. -/
theorem not_isChange_of (hm : h.node? w = some m) (hOp : m.op.isChange = false) :
    ¬h.IsChange w := by
  rintro ⟨m', hm', hIs⟩
  obtain rfl : m = m' := Option.some.inj (hm.symm.trans hm')
  rw [hOp] at hIs
  cases hIs

/-- No fragment answers with a change. -/
theorem Answers.not_isChange (hAnswers : Answers h s arms w) : ¬h.IsChange w := by
  obtain ⟨m, hm, hIs⟩ := hAnswers.exists_node
  exact not_isChange_of hm hIs

/-- Where the fragment of an anchored change starts. -/
theorem site_base (hWell : g.WellFormed) (hStep : g.ControlStep c u) :
    (site g ρ c).base = ρ .control u := by
  have hNonneg : 0 ≤ u := by
    obtain ⟨n, hn, hu⟩ := hStep.hasInput hWell
    exact (Graph.input_of_verify hWell.verify hn hu).1
  obtain ⟨n, hn, -, -, hControl⟩ := hStep
  have hIn : g.controlIn c = .ok u := by
    unfold Graph.controlIn
    rw [Graph.node_eq_ok.mpr hn]
    exact hControl
  unfold site
  rw [hIn]
  exact if_neg (Int.not_lt.mpr hNonneg)

/-- The fragment of a change without anchors starts at the start of the graph. -/
theorem site_base_of_floats (hFloats : g.Floats c) : (site g ρ c).base = Graph.start := by
  obtain ⟨n, hn, hNone⟩ := hFloats
  have hIn : g.controlIn c = .ok (-1) := by
    unfold Graph.controlIn
    rw [Graph.node_eq_ok.mpr hn]
    exact if_pos hNone
  unfold site
  rw [hIn]
  rfl

/-- What the pass has put into a graph when it has gone through the first `i` nodes. -/
structure Grafted (l : Layout) (g h : Graph) (i : Nat) (ρ : EdgeKind → NodeId → NodeId)
    (arms : NodeId → Option Arms) : Prop where
  graft : ∀ {c}, g.IsChange c → (i : Int) > c → Graft l g h ρ c (arms c)
  done : ∀ {c a}, arms c = some a → g.IsChange c ∧ (i : Int) > c
  parts : ∀ {w m}, (g.size : Int) ≤ w → h.node? w = some m →
    ∃ c, g.IsChange c ∧ (i : Int) > c ∧ Part h (site g ρ c) (arms c) w
  fresh : ∀ {c a w}, arms c = some a → a.Has w → (g.size : Int) ≤ w
  apart : ∀ {c c' a a' w}, arms c = some a → arms c' = some a' → a.Has w → a'.Has w → c = c'

/-- Nothing was put into the graph yet. -/
theorem grafted_start : Grafted l g g 0 (fun _ x => x) fun _ => none where
  graft hIs hLt := by
    obtain ⟨n, hn, -⟩ := hIs
    exact absurd (Graph.node?_lt hn).1 (Int.not_le.mpr hLt)
  done := nofun
  parts hw hm := absurd (Graph.node?_lt hm).2 (Int.not_lt.mpr hw)
  fresh := nofun
  apart := nofun

/-- A node that the pass has not gone through yet, or that is no change, goes by its own name. -/
theorem Kept.fixed_of_isChange (hKept : Kept l g i h ρ) (hIs : h.IsChange x) (kind : EdgeKind) :
    ρ kind x = x := by
  by_contra hNe
  obtain ⟨hChange, hLt⟩ := hKept.fixed hNe
  obtain ⟨n, hn, -⟩ := id hChange
  obtain ⟨j, rfl, -⟩ := Graph.node?_eq_some.mp hn
  obtain ⟨m, hm, hOp⟩ := hIs
  rw [hKept.killed (by omega) hChange] at hm
  cases hm
  cases hOp

namespace Grafted

/-- A node that is no change is passed by. -/
theorem skip (hG : Grafted l g h i ρ allArms) (hNot : ¬g.IsChange i) :
    Grafted l g h (i + 1) ρ allArms := by
  -- `i` is no change, so the changes before `i + 1` are those before `i`
  have hBefore : ∀ {c}, g.IsChange c → ((i + 1 : Nat) : Int) > c → (i : Int) > c := by
    intro c hIs hLt
    refine lt_of_le_of_ne (show (i : Int) ≥ c by omega) ?_
    rintro rfl
    exact hNot hIs
  constructor
  case graft => exact fun hIs hLt => hG.graft hIs (hBefore hIs hLt)
  case done =>
    intro c a ha
    obtain ⟨hIs, hLt⟩ := hG.done ha
    exact ⟨hIs, by omega⟩
  case parts =>
    intro w m hw hm
    obtain ⟨c, hIs, hLt, hPart⟩ := hG.parts hw hm
    exact ⟨c, hIs, by omega, hPart⟩
  case fresh => exact hG.fresh
  case apart => exact hG.apart

/-- A change that an edge has been led to is reached from where the edge led. -/
theorem descends (hG : Grafted l g h i ρ allArms) (hKept : Kept l g i h ρ) (hWell : g.WellFormed)
    (hAcyclic : ∀ id, ¬Relation.TransGen g.HasInput id id) (hIs : h.IsChange (ρ kind x)) :
    Relation.ReflTransGen g.HasInput x (ρ kind x) := by
  refine hWell.inputs_induction hAcyclic (P := fun x => ∀ kind, h.IsChange (ρ kind x) →
    Relation.ReflTransGen g.HasInput x (ρ kind x)) ?_ x kind hIs
  intro x ih kind hIs
  by_cases hSame : ρ kind x = x
  · rw [hSame]
  obtain ⟨hChange, hLt⟩ := hKept.fixed hSame
  have hGraft := hG.graft hChange hLt
  -- The edges are led to where an edge of the change is.
  have hOn : ∀ {kind' y}, g.HasEdge x kind' y → ρ kind x = ρ kind' y →
      Relation.ReflTransGen g.HasInput x (ρ kind x) := by
    intro kind' y hEdge hEq
    have hInput : g.HasInput x y := Graph.hasInput_iff_edge.mpr ⟨_, hEdge⟩
    rw [hEq] at hIs ⊢
    exact .head hInput (ih y (.single hInput) kind' hIs)
  cases kind with
  | value => exact absurd hIs hGraft.value.not_isChange
  | effect =>
    rcases hGraft.effect with hAnswers | ⟨y, hEdge, hEq⟩ | ⟨-, hStays⟩
    · exact absurd hIs hAnswers.not_isChange
    · exact hOn hEdge hEq
    · exact absurd hStays hSame
  | control =>
    cases hArms : allArms x with
    | some a =>
      rw [hGraft.merges a hArms] at hIs
      exact absurd hIs (not_isChange_of (hGraft.forked a hArms).merge rfl)
    | none =>
      rcases hChange.floats_or_step hWell with hFloats | ⟨u, hStep⟩
      · exact absurd (hGraft.stays hArms hFloats) hSame
      · exact hOn (hStep.edge hWell)
          ((hGraft.passes hArms hStep.entered).trans (site_base hWell hStep))

end Grafted

/-! ## One round -/

section Round

variable (hG : Grafted l g h i ρ allArms) (hKept : Kept l g i h ρ) (hWell : g.WellFormed)
  (hStart : g.HasOp Graph.start .start) (hAcyclic : ∀ id, ¬Relation.TransGen g.HasInput id id)
  (hn : g.node? i = some n) (hOp : n.op = .change f)
  (hRound : Round l h i (n.rewire ρ) f small e ns r)

include hn hRound in
/-- The fragment of a change is anchored when the change hangs on a control. -/
theorem entered_iff_anchored : g.Entered i ↔ e.anchored = true := by
  refine ⟨?_, fun hIs => ⟨n, hn, hRound.enters.anchored.mp hIs⟩⟩
  rintro ⟨m, hm, hSome⟩
  obtain rfl : n = m := Option.some.inj (hn.symm.trans hm)
  exact hRound.enters.anchored.mpr hSome

include hStart hn hOp in
/-- The start is no change. -/
theorem start_ne_change : Graph.start ≠ (i : NodeId) := by
  intro hEq
  cases hStart.unique ⟨n, hEq ▸ hn, hOp⟩

section Kept

include hKept hn hOp

/-- The change is still there. -/
theorem Kept.isChange_now : h.IsChange i :=
  ⟨_, hKept.kept hn fun _ => Int.le_refl _, Operator.isChange_iff.mpr ⟨f, hOp⟩⟩

include hRound

/-- The nodes of before and those of the fragment stay, with the edges to the change led away. -/
theorem Kept.rewires : Rewires (r.move i) (h.append ns) ((h.append ns).replace i r) := by
  -- a node of the fragment is not the change itself
  have hNe : ∀ {w m}, (h.append ns).node? w = some m → m.op.isChange = false → w ≠ i := by
    rintro w m hm hIs rfl
    obtain ⟨m', hm', hIs'⟩ := hKept.isChange_now hn hOp
    rw [Graph.node?_append hm'] at hm
    cases hm
    rw [hIs] at hIs'
    cases hIs'
  constructor
  case node =>
    intro w m hm hIs
    rw [Graph.node?_replace_of_ne (hNe hm hIs), hm]
    rfl
  case fixed => exact fun hm hIs => if_neg (hNe hm hIs)
  case counted =>
    intro w m hm
    rcases Graph.node?_append_cases hm with hOld | ⟨j, -, hj⟩
    · exact (hKept.sound hOld).2
    · exact (hRound.suits j m hj).counted

include hWell

omit hKept hOp in
/-- The fragment starts where the site of the change is. -/
theorem startsAt : e.StartsAt (site g ρ i) := by
  have hTakes : ∀ {kind x}, (kind, x) ∈ (n.rewire ρ).edges → (site g ρ i).takes kind x := by
    intro kind x hEdge
    obtain ⟨y, hy, hEq⟩ := Node.mem_edges_rewire hEdge
    exact ⟨y, ⟨n, hn, hy⟩, hEq⟩
  constructor
  case value => exact hTakes hRound.enters.value
  case effect =>
    exact fun hEffect => hTakes (hRound.enters.effect (hRound.enters.valid.effect.mpr hEffect))
  case base =>
    obtain ⟨control, hIn, hControl⟩ :=
      Kept.entry_control hWell.verify (hWell.counted hn) hn hRound.enters
    rw [hControl]
    unfold site
    rw [hIn]

end Kept

include hG hKept hWell hAcyclic hn hOp

/-- No edge of a change has been led to the change. -/
theorem Grafted.ne_of_edge (hEdge : g.HasEdge i kind y) : ρ kind y ≠ i := by
  intro hEq
  have hDown := hG.descends hKept hWell hAcyclic (hEq ▸ hKept.isChange_now hn hOp)
  rw [hEq] at hDown
  exact hAcyclic i (.head' (Graph.hasInput_iff_edge.mpr ⟨_, hEdge⟩) hDown)

include hStart hRound

/-- What the edges to a change are led to is what the fragment of the change answers with. -/
theorem Grafted.graft_of_stands {forks : Option Arms}
    (hForks : forks.isSome = true → branches l g i = .ok true)
    (hStands : Stands (h.append ns) (site g ρ i) forks e r) :
    Graft l g ((h.append ns).replace i r) (fun kind x => r.move i kind (ρ kind x)) i forks := by
  have hEntered := entered_iff_anchored hn hRound
  have hChange : g.IsChange i := ⟨n, hn, Operator.isChange_iff.mpr ⟨f, hOp⟩⟩
  have hRewires := hKept.rewires hn hOp hRound
  have hMoves : (site g ρ i).Moves (r.move i) (site g (fun kind x => r.move i kind (ρ kind x)) i) :=
    site_moves (if_neg (start_ne_change hStart hn hOp))
  -- The edges to the change are led to what the fragment answers with, and its own stay.
  have hTarget : ∀ kind, r.move i kind (ρ kind i) = r.target i kind := fun kind => by
    rw [hKept.fixed_of_isChange (hKept.isChange_now hn hOp)]
    exact if_pos rfl
  have hOther : ∀ {kind y}, g.HasEdge i kind y → r.move i kind (ρ kind y) = ρ kind y := fun hEdge =>
    if_neg (hG.ne_of_edge hKept hWell hAcyclic hn hOp hEdge)
  constructor
  case branches => exact hForks
  case forked => exact fun a ha => (hStands.forked a ha).rewires hRewires hMoves
  case value =>
    have hValue : r.target i .value = r.value := if_pos hRound.replaces.value.1.nonneg
    rw [hTarget, hValue]
    exact hStands.value.rewires hRewires hMoves hStands.forked
  case effect =>
    rw [hTarget]
    rcases hStands.effect with hAnswers | hSame
    · obtain ⟨m, hm, -⟩ := hAnswers.exists_node
      have hEffect : r.target i .effect = r.effect := if_pos (Graph.node?_lt hm).1
      rw [hEffect]
      exact .inl (hAnswers.rewires hRewires hMoves hStands.forked)
    · refine .inr ?_
      by_cases hAnchor : e.anchored = true
      · obtain ⟨y, hy, hEq⟩ := Node.mem_edges_rewire (hRound.enters.effect hAnchor)
        refine .inl ⟨y, ⟨n, hn, hy⟩, ?_⟩
        rw [hOther ⟨n, hn, hy⟩, hEq, ← hSame]
        exact if_pos (hSame ▸ hRound.enters.valid.effect.mp hAnchor)
      · refine .inr ⟨⟨n, hn, ?_⟩, if_neg ?_⟩
        · exact not_not.mp (mt hRound.enters.anchored.mpr hAnchor)
        · rw [hSame]
          exact mt hRound.enters.valid.effect.mpr hAnchor
  case merges =>
    rintro a rfl
    have hControl : r.control = a.merge := hStands.control
    rw [hTarget, ← hControl]
    exact if_pos (hControl ▸ (Graph.node?_lt (hStands.forked a rfl).merge).1)
  case passes =>
    rintro rfl hEnter
    have hControl : r.control = e.control :=
      hStands.control.trans (if_pos (hEntered.mp hEnter))
    obtain ⟨u, hStep⟩ := (hChange.floats_or_step hWell).resolve_left hEnter.not_floats
    have hBase : e.control = ρ .control u :=
      (startsAt hWell hn hRound).base.trans (site_base hWell hStep)
    rw [hTarget, site_base hWell hStep, hOther (hStep.edge hWell), ← hBase, ← hControl]
    exact if_pos (hControl ▸ hRound.enters.valid.control)
  case stays =>
    rintro rfl hFloats
    have hControl : r.control = -1 :=
      hStands.control.trans (if_neg (mt hEntered.mpr fun hEnter => hEnter.not_floats hFloats))
    rw [hTarget]
    exact if_neg (Int.not_le.mpr (hControl ▸ show (-1 : Int) < 0 by decide))

/-- The fragment that a round puts into the graph. -/
theorem Grafted.graft_new (hWord : l.word = 32 ∨ l.word = 64)
    (hAnchored : ∀ c, branches l g c = .ok true → g.Entered c) :
    ∃ arms, Parts h (h.append ns) (site g ρ i) arms ∧
      (∀ a, arms = some a → Branched (h.append ns) (site g ρ i) a) ∧
      Graft l g ((h.append ns).replace i r) (fun kind x => r.move i kind (ρ kind x)) i arms := by
  have hEntered := entered_iff_anchored hn hRound
  have hBranches : Forks l small f → branches l g i = .ok true :=
    hKept.branches_of_forks hWell.verify hWord hn hOp hRound
  obtain ⟨-, arms, hForks, hParts, hStands⟩ := fragment_stands
    (startsAt hWell hn hRound) hRound.enters.valid
    (fun hForks => hEntered.mp (hAnchored i (hBranches hForks)))
    (fun hPins => hPins.imp hEntered.mpr fun hf => ⟨n, hn, by rw [hOp, hf]⟩)
  rw [hRound.adds] at hParts hStands
  exact ⟨arms, hParts, hStands.forked, hG.graft_of_stands hKept hWell hStart hAcyclic hn hOp hRound
    (fun hSome => hBranches (hForks hSome)) hStands⟩

/-- A round at a change keeps the fragments, and puts that of the change into the graph. -/
theorem Grafted.step (hWord : l.word = 32 ∨ l.word = 64)
    (hAnchored : ∀ c, branches l g c = .ok true → g.Entered c) :
    ∃ arms, Grafted l g ((h.append ns).replace i r) (i + 1)
      (fun kind x => r.move i kind (ρ kind x)) arms := by
  obtain ⟨new, hParts, hForked, hGraft⟩ :=
    hG.graft_new hKept hWell hStart hAcyclic hn hOp hRound hWord hAnchored
  have hRewires := hKept.rewires hn hOp hRound
  have hChange : g.IsChange i := ⟨n, hn, Operator.isChange_iff.mpr ⟨f, hOp⟩⟩
  have hNotStart : Graph.start ≠ (i : NodeId) := start_ne_change hStart hn hOp
  have hMoves : ∀ {c}, (site g ρ c).Moves (r.move i)
      (site g (fun kind x => r.move i kind (ρ kind x)) c) := site_moves (if_neg hNotStart)
  have hSize := hKept.size_le
  -- The arms of the other changes have lower numbers.
  have hOld : ∀ {c a w}, allArms c = some a → a.Has w → (h.size : Int) > w := by
    intro c a w ha hHas
    obtain ⟨hIs, hLt⟩ := hG.done ha
    obtain ⟨m, hm, -⟩ := ((hG.graft hIs hLt).forked a ha).exists_node hHas
    exact (Graph.node?_lt hm).2
  refine ⟨fun c => if c = i then new else allArms c, ?_⟩
  constructor
  case graft =>
    intro c hIs hLt
    split
    · next hSame => exact hSame ▸ hGraft
    · next hNe =>
      have hBelow : (i : Int) > c := lt_of_le_of_ne (show (i : Int) ≥ c by omega) hNe
      exact ((hG.graft hIs hBelow).grows (.append h ns)).rewires hRewires (if_neg hNotStart)
        fun _ => if_neg hNe
  case done =>
    intro c a ha
    split at ha
    · next hSame =>
      subst hSame
      exact ⟨hChange, by omega⟩
    · obtain ⟨hIs, hLt⟩ := hG.done ha
      exact ⟨hIs, by omega⟩
  case parts =>
    intro w m hw hm
    have hNe : w ≠ i := by
      rintro rfl
      exact absurd (Graph.node?_lt hn).2 (Int.not_lt.mpr hw)
    rw [Graph.node?_replace_of_ne hNe] at hm
    obtain ⟨m₀, hm₀, -⟩ := Option.map_eq_some_iff.mp hm
    rcases Graph.node?_append_cases hm₀ with hOldNode | ⟨j, rfl, -⟩
    · obtain ⟨c, hIs, hLt, hPart⟩ := hG.parts hw hOldNode
      refine ⟨c, hIs, by omega, ?_⟩
      rw [if_neg (ne_of_lt hLt)]
      exact (hPart.grows (.append h ns)).rewires hRewires hMoves fun a ha =>
        ((hG.graft hIs hLt).forked a ha).grows (.append h ns)
    · refine ⟨i, hChange, by omega, ?_⟩
      rw [if_pos rfl]
      exact (hParts.part (by omega) hm₀).rewires hRewires hMoves hForked
  case fresh =>
    intro c a w ha hHas
    split at ha
    · exact Int.le_trans (Int.ofNat_le.mpr hSize) (hParts.fresh ha hHas)
    · exact hG.fresh ha hHas
  case apart =>
    intro c c' a a' w ha ha' hHas hHas'
    split at ha <;> split at ha'
    · next hSame hSame' => rw [hSame, hSame']
    · exact absurd (hOld ha' hHas') (Int.not_lt.mpr (hParts.fresh ha hHas))
    · exact absurd (hOld ha hHas) (Int.not_lt.mpr (hParts.fresh ha' hHas'))
    · exact hG.apart ha ha' hHas hHas'

end Round

/-! ## A whole run -/

/-- The pass comes to the end of a graph whose changes are anchored at both ends or at none, and at
both when they branch. -/
theorem lowerNodes_grafted (hWell : g.WellFormed) (hStart : g.HasOp Graph.start .start)
    (hAcyclic : ∀ id, ¬Relation.TransGen g.HasInput id id) (hWord : l.word = 32 ∨ l.word = 64)
    (hWhole : ∀ {c n}, g.node? c = some n → n.op.isChange = true → ¬n.HalfAnchored)
    (hAnchored : ∀ c, branches l g c = .ok true → g.Entered c) (hi : i ≤ g.size) :
    ∃ h ρ arms, Kept l g i h ρ ∧ Grafted l g h i ρ arms := by
  induction i with
  | zero => exact ⟨g, _, _, kept_start hWell.verify hWell.counted, grafted_start⟩
  | succ i ih =>
    -- One round for each node; nothing happens at a node that is no change.
    obtain ⟨h, ρ, arms, hKept, hG⟩ := ih (by omega)
    obtain ⟨n, hn⟩ : ∃ n, g.node? i = some n :=
      Graph.exists_node? (Int.natCast_nonneg i) (Int.ofNat_lt.mpr hi)
    by_cases hIs : n.op.isChange = true
    · obtain ⟨f, hOp⟩ := Operator.isChange_iff.mp hIs
      have hNow : h.node? i = some (n.rewire ρ) := hKept.kept hn fun _ => Int.le_refl _
      obtain ⟨hFits, hCounted⟩ := hKept.sound hNow
      obtain ⟨-, small, e, ns, r, hRound⟩ :=
        (lowerNode_cases (l := l) hKept.closed hNow hOp hFits hCounted).resolve_left
          fun hHalf => hWhole hn hIs hHalf.1
      obtain ⟨arms, hNext⟩ := hG.step hKept hWell hStart hAcyclic hn hOp hRound hWord hAnchored
      exact ⟨_, _, arms, hKept.step hWell.verify (hWell.counted hn) hStart hWord hn hOp
        (hWhole hn hIs) hRound, hNext⟩
    · refine ⟨h, ρ, arms, hKept.skip hn (Bool.not_eq_true _ ▸ hIs), hG.skip ?_⟩
      rintro ⟨m, hm, hWas⟩
      obtain rfl : n = m := Option.some.inj (hn.symm.trans hm)
      exact hIs hWas

end Lowering
end ArmBackend
