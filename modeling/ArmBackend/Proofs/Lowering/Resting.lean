import ArmBackend.Proofs.Lowering.Spliced

/-!
# What the nodes of fragments rest on

A node of a fragment rests where it hangs, on an arm or on the control where the fragment starts,
and where the change takes its value and its effect from (`Hangs.rests`). What took the value of the
change rests there too, or at the merge. So whatever a node rests on when the pass is through covers
a mark that it rested at before (`Spliced.bound`), and where the change has a control input the
control that its fragment starts at (`Spliced.covers_of_feeds`).

## Results

* `Spliced.noCycles` — no node leads to itself when the pass is through.
* `Spliced.bound`, `Spliced.covers_of_feeds` — where nodes rest when the pass is through.
-/

namespace ArmBackend

/-- A node without control inputs has no control edges. -/
theorem Node.Counted.no_control_edge {n : Node} {x : NodeId} (h : n.Counted)
    (hNone : n.controlCount = 0) : (.control, x) ∉ n.edges := by
  intro hEdge
  obtain ⟨i, hi, hEq⟩ := List.mem_mapIdx.mp hEdge
  obtain ⟨hValue, hEffect, -, hSum⟩ := h
  have hKind : n.edgeKind i = .control := congrArg Prod.fst hEq
  unfold Node.edgeKind at hKind
  split at hKind
  · cases hKind
  · split at hKind
    · cases hKind
    · omega

theorem Operator.isHead_of_isPhi {op : Operator} (h : op.isPhi = true) : op.isHead = false := by
  cases op with
  | phi | effectPhi => rfl
  | _ => cases h

theorem Operator.isHead_of_isPlain {op : Operator} (h : op.isPlain = true) : op.isHead = false := by
  unfold isPlain at h
  simp only [Bool.and_eq_true, Bool.not_eq_true'] at h
  exact h.1.1.1.1

namespace Graph

variable {g : Graph} {w x a b : NodeId}

/-- A node that control leads to a head from rests in no other block. -/
theorem RestsIn.eq_of_controlHead (hWell : g.WellFormed) (hRests : g.RestsIn x a)
    (hHead : g.ControlHead x b) : a = b := by
  rcases hRests.cases with ⟨-, hOwn⟩ | ⟨hFloats, y, hInput, -⟩
  · exact hOwn.unique hHead
  · rcases hHead.cases_step with ⟨-, hIs⟩ | ⟨u, hStep, -⟩
    · obtain ⟨kind, n, hn, hEdge⟩ := hasInput_iff_edge.mp hInput
      obtain rfl := hIs.edge hWell ⟨n, hn, hEdge⟩
      obtain ⟨m, hm, hNone⟩ := hFloats
      obtain rfl := Option.some.inj (hn.symm.trans hm)
      exact absurd hEdge ((hWell.counted hn).no_control_edge hNone)
    · exact absurd hFloats hStep.entered.not_floats

end Graph

namespace Lowering

variable {l : Layout} {g h : Graph} {exit : NodeId} {n m : Node}
  {ρ : EdgeKind → NodeId → NodeId} {arms : NodeId → Option Arms} {a : Arms} {op : Operator}
  {b c e j k p u w x y z : NodeId} {kind : EdgeKind} {i : Nat}

/-! ## Nothing leads to itself -/

/-- Whether the ways from a node come to an end. -/
def Founded (h : Graph) (w : NodeId) : Prop :=
  Acc (fun y w => h.HasInput w y) w

theorem Founded.not_cycle (hFounded : Founded h w) : ¬Relation.TransGen h.HasInput w w := by
  induction hFounded with
  | intro w _ ih =>
    intro hCycle
    obtain ⟨y, hInput, hRest⟩ := Relation.TransGen.head'_iff.mp hCycle
    exact ih y hInput (Relation.TransGen.tail' hRest hInput)

section Founded

variable {s : Site} {forks : Option Arms} (hTakes : ∀ {kind x}, s.takes kind x → Founded h x)
  (hBase : Founded h s.base)
include hTakes hBase

theorem Hangs.founded (hHangs : Hangs h s k w) : Founded h k → Founded h w := by
  induction hHangs with
  | @node k w m hm hPlain hControl hEdges ih =>
    refine fun hk => .intro w ?_
    rintro y ⟨m', hm', hy⟩
    obtain rfl := Option.some.inj (hm.symm.trans hm')
    obtain ⟨kind, hEdge⟩ := Node.mem_inputs_iff.mp hy
    by_cases hIs : (kind, y) = (.control, k)
    · cases hIs
      exact hk
    · by_cases hTaken : s.takes kind y
      · exact hTakes hTaken
      · exact ih _ hEdge hIs hTaken hk
  | lift _ ih => exact fun _ => ih hBase

/-- The parts of a fragment lead to one another and to where the change leads. -/
theorem Part.founded (hForked : ∀ a, forks = some a → Branched h s a) (hPart : Part h s forks w) :
    Founded h w := by
  have hFeeds : ∀ {k kind x}, Founded h k → Feeds h s k kind x → Founded h x := by
    rintro k kind x hk (hTaken | hHangs)
    · exact hTakes hTaken
    · exact hHangs.founded hTakes hBase hk
  -- The branch, the arms and the merge in this order: each leads to those in front of it.
  have hBranch : ∀ {a}, forks = some a → Founded h a.branch := by
    refine fun ha => .intro _ fun y hInput => ?_
    rcases (hForked _ ha).input_branch hInput with hIs | rfl
    · exact hFeeds hBase hIs
    · exact hBase
  have hArm : ∀ {a k}, forks = some a → a.IsArm k → Founded h k := by
    refine fun ha hArm => .intro _ fun y hInput => ?_
    rw [((hForked _ ha).input_arm hArm).mp hInput]
    exact hBranch ha
  have hMerge : ∀ {a}, forks = some a → Founded h a.merge := fun ha =>
    .intro _ fun y hInput => hArm ha ((hForked _ ha).input_merge.mp hInput)
  cases hPart with
  | hangs hk hHangs =>
    refine hHangs.founded hTakes hBase ?_
    rcases hk with rfl | ⟨a, ha, hIs⟩
    · exact hBase
    · exact hArm ha hIs
  | forks ha hHas =>
    rcases hHas with rfl | rfl | rfl | rfl
    · exact hBranch ha
    · exact hArm ha (.inl rfl)
    · exact hArm ha (.inr rfl)
    · exact hMerge ha
  | joined ha hJoined =>
    obtain ⟨m, hm, -, -, -, hEdges⟩ := hJoined
    refine .intro w ?_
    rintro y ⟨m', hm', hy⟩
    obtain rfl := Option.some.inj (hm.symm.trans hm')
    obtain ⟨kind, hEdge⟩ := Node.mem_inputs_iff.mp hy
    rcases hEdges _ hEdge with hEq | ⟨k, hIs, hFed⟩
    · cases hEq
      exact hMerge ha
    · exact hFeeds (hArm ha hIs) hFed

end Founded

/-- Whether a node rests at the mark `k`, or `k` is the start, where nodes without control may
stand. -/
def Bound (g : Graph) (arms : NodeId → Option Arms) (x k : NodeId) : Prop :=
  k = Graph.start ∨ g.RestsAt (Splits arms) x k

namespace Spliced

variable (hL : Spliced l g h exit ρ arms)
include hL

theorem stays_start : g.Stays Graph.start :=
  Graph.stays_of_op (P := fun op => op = .start) hL.start nofun

theorem hasOp_start : h.HasOp Graph.start .start :=
  (hL.hasOp_iff hL.stays_start).mpr hL.start

/-- The ways from the parts of a fragment end where those from what the change takes do. -/
theorem founded_part (hIs : g.IsChange c)
    (hBelow : ∀ kind u, Relation.TransGen g.HasInput c u → Founded h (ρ kind u))
    (hPart : Part h (site g ρ c) (arms c) w) : Founded h w := by
  refine hPart.founded ?_ ?_ fun a ha => hL.forked ha
  · rintro kind x ⟨y, hEdge, rfl⟩
    exact hBelow kind y (.single (Graph.hasInput_iff_edge.mpr ⟨kind, hEdge⟩))
  · rcases hIs.floats_or_step hL.well with hFloats | ⟨u, hStep⟩
    · rw [site_base_of_floats hFloats]
      exact .intro _ fun y hInput =>
        absurd hInput (hL.wellFormed.not_hasInput_start hL.hasOp_start)
    · rw [hL.base hStep]
      exact hBelow _ u (.single (hStep.hasInput hL.well))

/-- The ways from where an edge leads come to an end. -/
theorem founded (hn : ∃ n, g.node? x = some n) (kind : EdgeKind) : Founded h (ρ kind x) := by
  -- By induction along the inputs of before: the pass leads an edge only to what lies farther down.
  refine hL.well.inputs_induction hL.acyclic (P := fun x => (∃ n, g.node? x = some n) →
    ∀ kind, Founded h (ρ kind x)) ?_ x hn kind
  rintro x ih ⟨n, hn⟩ kind
  have hBelow : ∀ {u}, Relation.TransGen g.HasInput x u →
      (∃ m, g.node? u = some m) ∧ ∀ kind, Founded h (ρ kind u) := by
    intro u hDown
    obtain ⟨v, -, hInput⟩ := Relation.TransGen.tail'_iff.mp hDown
    have hNode := hL.well.node_of_input hInput
    exact ⟨hNode, ih u hDown hNode⟩
  rcases hL.edge_cases kind x with hSame | ⟨c, hIs, hDown, hInput | ⟨hPart, -⟩⟩
  · rw [hSame]
    refine .intro x fun y hInput => ?_
    rcases Graph.stays_or_isChange hn with hStays | hIs
    · obtain ⟨kind, z, hEdge, rfl⟩ := (hL.hasInput_iff hStays).mp hInput
      exact (hBelow (.single (Graph.hasInput_iff_edge.mpr ⟨kind, hEdge⟩))).2 kind
    · exact absurd hInput (hL.not_hasInput_of_isChange hIs)
  · -- The edge leads to what a change takes: no change, or a dead one.
    obtain ⟨⟨m, hm⟩, hEnds⟩ := hBelow (Relation.TransGen.tail' hDown hInput)
    rcases Graph.stays_or_isChange hm with hStays | hDead
    · rw [← hL.fixed hStays]
      exact hEnds .value
    · exact .intro _ fun y hTakes => absurd hTakes (hL.not_hasInput_of_isChange hDead)
  · refine hL.founded_part hIs (fun kind u hFurther => ?_) hPart
    exact (hBelow (Relation.TransGen.trans_right hDown hFurther)).2 kind

/-- No node leads to itself when the pass is through. -/
theorem noCycles (w : NodeId) : ¬Relation.TransGen h.HasInput w w := by
  intro hCycle
  obtain ⟨v, ⟨m, hm, -⟩, -⟩ := Relation.TransGen.head'_iff.mp hCycle
  rcases hL.cases_node hm with hStays | hIs | ⟨c, hIs, hPart⟩
  · obtain ⟨n, hn, -⟩ := id hStays
    have hFounded := hL.founded ⟨n, hn⟩ .value
    rw [hL.fixed hStays] at hFounded
    exact hFounded.not_cycle hCycle
  · obtain ⟨y, hInput, -⟩ := Relation.TransGen.head'_iff.mp hCycle
    exact hL.not_hasInput_of_isChange hIs hInput
  · refine (hL.founded_part hIs (fun kind u hDown => ?_) hPart).not_cycle hCycle
    obtain ⟨v, -, hInput⟩ := Relation.TransGen.tail'_iff.mp hDown
    exact hL.founded (hL.well.node_of_input hInput) kind

/-! ## Marks -/

theorem live_node (hLive : g.Live exit w) : ∃ n, g.node? w = some n := by
  obtain ⟨n, hn, -⟩ := hL.threaded.isExit
  exact hLive.node hL.well ⟨n, hn⟩

/-- A node that something live takes is not the exit. -/
theorem ne_exit (hLive : g.Live exit w) (hInput : g.HasInput w x) : x ≠ exit := by
  rintro rfl
  exact hL.acyclic x (Relation.TransGen.tail' hLive hInput)

theorem checked (hIs : g.IsChange c) (hLive : g.Live exit c) : g.Checked exit c := by
  have hNot : ∀ {P : Operator → Prop}, (∀ f, ¬P (.change f)) →
      ¬∃ n, g.node? c = some n ∧ P n.op := by
    rintro P hP ⟨n, hn, hOp⟩
    obtain ⟨m, hm, hOther⟩ := hIs
    obtain rfl := Option.some.inj (hn.symm.trans hm)
    obtain ⟨f, hf⟩ := Operator.isChange_iff.mp hOther
    exact hP f (hf ▸ hOp)
  refine ⟨hLive, ?_, hNot (P := fun op => op.isHead = true) nofun,
    hNot (P := fun op => op = .branch ∨ op = .ret) nofun,
    hNot (P := fun op => op.isPhi = true) nofun⟩
  rintro rfl
  exact hNot (P := fun op => op = .exit) nofun hL.threaded.isExit

/-- Control leads from an anchored change to a mark. -/
theorem exists_mark (hLive : g.Live exit w) (hNe : w ≠ exit) (hEntered : g.Entered w) :
    ∃ k, g.FirstMark (Splits arms) w k := by
  obtain ⟨a, hHead⟩ := hL.schedulable.controlHead hL.well hLive hNe hEntered
  exact Graph.FirstMark.exists_of_head hHead

/-- A mark that something rests at is a head when the pass is through. -/
theorem isHead_bound (hBound : Bound g arms x k) : h.IsHead (ρ .control k) := by
  rcases hBound with rfl | ⟨y, -, -, hMark⟩
  · rw [hL.fixed hL.stays_start]
    exact .of_hasOp hL.hasOp_start rfl
  · exact (hL.controlHead hMark).2

/-- What an anchored change takes is there in front of the change. -/
theorem covers_of_bound (hIs : g.IsChange c) (hLive : g.Live exit c) (hStep : g.ControlStep c u)
    (hInput : g.HasInput c y) (hBound : Bound g arms y k) : g.Covers k u := by
  have hChecked := hL.checked hIs hLive
  obtain ⟨b, hHead⟩ :=
    hL.schedulable.controlHead hL.well hLive hChecked.notExit hStep.entered
  have hCovers : g.Covers k c := by
    rcases hBound with rfl | hRests
    · exact hL.schedulable.covers_start hL.well hL.acyclic hLive hHead
    · exact hL.threaded.covers_of_restsAt hL.well hL.acyclic hL.schedulable hChecked hStep.entered
        hInput hRests
  refine hCovers.back ?_ (.inl hStep)
  rintro rfl
  rcases hBound with rfl | hRests
  · exact hChecked.notHead (.of_hasOp hL.start rfl)
  · exact hL.acyclic k (.head' hInput (hRests.inputs hL.well))

/-- What a change takes rests where the change does, or in front of it. -/
theorem bound_of_input (hIs : g.IsChange c) (hLive : g.Live exit c) (hInput : g.HasInput c y)
    (hBound : Bound g arms y k) (hCovers : h.Covers b (ρ .control k)) :
    ∃ j, Bound g arms c j ∧ h.Covers b (ρ .control j) := by
  rcases hIs.floats_or_step hL.well with hFloats | ⟨u, hStep⟩
  · exact ⟨k, hBound.imp_right (.of_input hFloats hInput), hCovers⟩
  · obtain ⟨j, hMark⟩ := hL.exists_mark hLive (hL.checked hIs hLive).notExit hStep.entered
    refine ⟨j, .inr (.of_entered hStep.entered hMark), hCovers.trans ?_⟩
    exact (hL.covers ((hL.covers_of_bound hIs hLive hStep hInput hBound).of_step hStep)).at_head
      (hL.isHead_bound hBound) (hL.controlHead hMark)

end Spliced

/-! ## What nodes rest on -/

/-- A node of a fragment rests on its control or on what the change takes. -/
theorem Hangs.rests {s : Site} (hWell : h.WellFormed) (hHangs : Hangs h s k w)
    (hRests : h.RestsIn w b) :
    (s.pins ∧ (h.ControlHead k b ∨ h.ControlHead s.base b)) ∨
      ∃ kind x, s.takes kind x ∧ h.RestsIn x b := by
  induction hHangs with
  | @node k w m hm hPlain hControl hEdges ih =>
    rcases hRests.cases with ⟨⟨m', hm', hSome⟩, hHead⟩ | ⟨⟨m', hm', hNone⟩, y, ⟨m'', hm'', hy⟩, hOn⟩
    · obtain rfl := Option.some.inj (hm.symm.trans hm')
      obtain ⟨hPins, hIn⟩ := hControl hSome
      have hNot := Operator.isHead_of_isPlain hPlain
      have hStep : h.ControlStep w k := ⟨m, hm, hNot, hSome, hIn⟩
      exact .inl ⟨hPins, .inl (hHead.of_chain (.single hStep))⟩
    · obtain rfl := Option.some.inj (hm.symm.trans hm')
      obtain rfl := Option.some.inj (hm.symm.trans hm'')
      obtain ⟨kind, hEdge⟩ := Node.mem_inputs_iff.mp hy
      -- the walk down ends at an input the site offers, or goes on inside the fragment
      by_cases hTaken : s.takes kind y
      · exact .inr ⟨kind, y, hTaken, hOn⟩
      · refine ih _ hEdge ?_ hTaken hOn
        rintro hEq
        cases hEq
        exact (hWell.counted hm).no_control_edge hNone hEdge
  | lift _ ih => exact (ih hRests).imp_left fun ⟨hPins, hHead⟩ => ⟨hPins, .inr (hHead.elim id id)⟩

/-- What covers the control where a fragment starts covers all that its nodes hang on. -/
theorem Level.covers {s : Site} {forks : Option Arms}
    (hForked : ∀ a, forks = some a → Branched h s a) (hLevel : Level s forks k)
    (hCovers : h.Covers z s.base) : h.Covers z k := by
  rcases hLevel with rfl | ⟨a, ha, hArm⟩
  · exact hCovers
  · exact (hForked a ha).covers_arm hArm hCovers

namespace Spliced

variable (hL : Spliced l g h exit ρ arms)
include hL

/-- What a change that does not branch answers with rests where the change does, or in front. -/
theorem bound_of_hangs (hIs : g.IsChange c) (hLive : g.Live exit c) (hNone : arms c = none)
    (hHangs : Hangs h (site g ρ c) (site g ρ c).base w) (hRests : h.RestsIn w b)
    (hTakes : ∀ kind y, g.HasEdge c kind y → h.RestsIn (ρ kind y) b →
      ∃ k, Bound g arms y k ∧ h.Covers b (ρ .control k)) :
    ∃ k, Bound g arms c k ∧ h.Covers b (ρ .control k) := by
  rcases hHangs.rests hL.wellFormed hRests with ⟨-, hHead⟩ | ⟨kind, x, ⟨y, hEdge, rfl⟩, hOn⟩
  · -- nothing of the fragment's inputs reaches the block: it rests where the fragment starts
    have hHead : h.ControlHead (site g ρ c).base b := hHead.elim id id
    rcases hIs.floats_or_step hL.well with hFloats | ⟨u, hStep⟩
    · rw [site_base_of_floats hFloats] at hHead
      rw [hHead.eq_self (.of_hasOp hL.hasOp_start rfl)]
      refine ⟨Graph.start, .inl rfl, ?_⟩
      rw [hL.fixed hL.stays_start]
      exact .self
    · obtain ⟨k, hMark⟩ := hL.exists_mark hLive (hL.checked hIs hLive).notExit hStep.entered
      rw [← (hL.graft hIs).passes hNone hStep.entered] at hHead
      rw [hHead.unique (hL.controlHead hMark)]
      exact ⟨k, .inr (.of_entered hStep.entered hMark), .self⟩
  · -- some input reaches it, and has its bound by induction
    obtain ⟨k, hBound, hCovers⟩ := hTakes kind y hEdge hOn
    exact hL.bound_of_input hIs hLive (Graph.hasInput_iff_edge.mpr ⟨kind, hEdge⟩) hBound hCovers

/-- What a change answers with rests where the change does, at its merge, or in front. -/
theorem bound_of_answers (hIs : g.IsChange c) (hLive : g.Live exit c)
    (hAnswers : Answers h (site g ρ c) (arms c) w) (hRests : h.RestsIn w b)
    (hTakes : ∀ kind y, g.HasEdge c kind y → h.RestsIn (ρ kind y) b →
      ∃ k, Bound g arms y k ∧ h.Covers b (ρ .control k)) :
    ∃ k, Bound g arms c k ∧ h.Covers b (ρ .control k) := by
  cases hArms : arms c with
  | none =>
    rw [hArms] at hAnswers
    exact hL.bound_of_hangs hIs hLive hArms hAnswers hRests hTakes
  | some a =>
    rw [hArms] at hAnswers
    -- a phi answers for the change, and stands at the merge: the change itself is the mark
    obtain ⟨m, hm, hPhi, hSome, hIn, -⟩ := hAnswers
    have hStep : h.ControlStep w a.merge := ⟨m, hm, Operator.isHead_of_isPhi hPhi, hSome, hIn⟩
    have hHead := (hRests.controlHead hStep.entered).of_chain (.single hStep)
    have hSplits : Splits arms c := Option.isSome_iff_exists.mpr ⟨a, hArms⟩
    refine ⟨c, .inr (.of_entered (hL.anchored hSplits) (.splits hSplits)), ?_⟩
    rw [hHead.eq_self (hL.forked hArms).isHead_merge, (hL.graft hIs).merges a hArms]
    exact .self

theorem not_restsIn_of_isChange (hIs : g.IsChange c) : ¬h.RestsIn c b := by
  intro hRests
  rcases hRests.cases with ⟨hEntered, -⟩ | ⟨-, y, hInput, -⟩
  · exact hL.of_isChange hIs (P := fun n => n.controlCount ≠ 0) hEntered rfl
  · exact hL.not_hasInput_of_isChange hIs hInput

/-- What a node that is no change rests on covers a mark that it rested at. -/
theorem bound_of_stays (hStays : g.Stays x) (hLive : g.Live exit x) (hNe : x ≠ exit)
    (hRests : h.RestsIn x b)
    (hTakes : ∀ kind y, g.HasEdge x kind y → h.RestsIn (ρ kind y) b →
      ∃ k, Bound g arms y k ∧ h.Covers b (ρ .control k)) :
    ∃ k, Bound g arms x k ∧ h.Covers b (ρ .control k) := by
  rcases hRests.cases with ⟨hEntered, hHead⟩ | ⟨hFloats, y, hInput, hOn⟩
  · have hEntered := (hL.entered_iff hStays).mp hEntered
    obtain ⟨k, hMark⟩ := hL.exists_mark hLive hNe hEntered
    have hLed := hL.controlHead hMark
    rw [hL.fixed hStays] at hLed
    rw [hHead.unique hLed]
    exact ⟨k, .inr (.of_entered hEntered hMark), .self⟩
  · obtain ⟨kind, z, hEdge, rfl⟩ := (hL.hasInput_iff hStays).mp hInput
    obtain ⟨k, hBound, hCovers⟩ := hTakes kind z hEdge hOn
    have hFloats := (hL.floats_iff hStays).mp hFloats
    exact ⟨k, hBound.imp_right
      (.of_input hFloats (Graph.hasInput_iff_edge.mpr ⟨kind, hEdge⟩)), hCovers⟩

/-- What is put in place of a change rests where the change did, or in front. -/
theorem bound_of_isChange (hIs : g.IsChange c) (hLive : g.Live exit c)
    (hRests : h.RestsIn (ρ kind c) b)
    (hTakes : ∀ kind y, g.HasEdge c kind y → h.RestsIn (ρ kind y) b →
      ∃ k, Bound g arms y k ∧ h.Covers b (ρ .control k)) :
    ∃ k, Bound g arms c k ∧ h.Covers b (ρ .control k) := by
  have hGraft := hL.graft hIs
  -- each kind of edge out of the change was replaced by its own part of the fragment
  cases kind with
  | value => exact hL.bound_of_answers hIs hLive hGraft.value hRests hTakes
  | effect =>
    rcases hGraft.effect with hEffect | ⟨y, hEdge, hEq⟩ | ⟨-, hStays⟩
    · exact hL.bound_of_answers hIs hLive hEffect hRests hTakes
    · rw [hEq] at hRests
      obtain ⟨k, hBound, hCovers⟩ := hTakes .effect y hEdge hRests
      exact hL.bound_of_input hIs hLive (Graph.hasInput_iff_edge.mpr ⟨_, hEdge⟩) hBound hCovers
    · rw [hStays] at hRests
      exact absurd hRests (hL.not_restsIn_of_isChange hIs)
  | control =>
    rcases hIs.floats_or_step hL.well with hFloats | ⟨u, hStep⟩
    · have hNone : ¬Splits arms c := fun hSplits => (hL.anchored hSplits).not_floats hFloats
      rw [hGraft.stays (Option.not_isSome_iff_eq_none.mp hNone) hFloats] at hRests
      exact absurd hRests (hL.not_restsIn_of_isChange hIs)
    · obtain ⟨k, hMark⟩ := hL.exists_mark hLive (hL.checked hIs hLive).notExit hStep.entered
      refine ⟨k, .inr (.of_entered hStep.entered hMark), ?_⟩
      rw [hRests.eq_of_controlHead hL.wellFormed (hL.controlHead hMark)]
      exact .self

/-- What a node rests on when the pass is through covers a mark that it rested at. -/
theorem bound (hLive : g.Live exit x) (hNe : x ≠ exit) (hRests : h.RestsIn (ρ kind x) b) :
    ∃ k, Bound g arms x k ∧ h.Covers b (ρ .control k) := by
  -- What a node takes comes first: a floating node rests on what its inputs rest on.
  refine hL.well.inputs_induction hL.acyclic (P := fun x => g.Live exit x → x ≠ exit →
    ∀ kind, h.RestsIn (ρ kind x) b → ∃ k, Bound g arms x k ∧ h.Covers b (ρ .control k))
    ?_ x hLive hNe kind hRests
  intro x ih hLive hNe kind hRests
  have hTakes : ∀ kind y, g.HasEdge x kind y → h.RestsIn (ρ kind y) b →
      ∃ k, Bound g arms y k ∧ h.Covers b (ρ .control k) := by
    intro kind y hEdge hOn
    have hInput : g.HasInput x y := Graph.hasInput_iff_edge.mpr ⟨kind, hEdge⟩
    exact ih y (.single hInput) (hLive.input hInput) (hL.ne_exit hLive hInput) kind hOn
  obtain ⟨n, hn⟩ := hL.live_node hLive
  rcases Graph.stays_or_isChange hn with hStays | hIs
  · rw [hL.fixed hStays] at hRests
    exact hL.bound_of_stays hStays hLive hNe hRests hTakes
  · exact hL.bound_of_isChange hIs hLive hRests hTakes

/-! ### Nodes of fragments with a control -/

section Pinned

variable (hIs : g.IsChange c) (hLive : g.Live exit c) (hPins : (site g ρ c).pins)
include hIs hLive hPins

/-- What an anchored change takes, and what is boxed, rests in front of the fragment. -/
theorem covers_of_takes (hEdge : g.HasEdge c kind y) (hRests : h.RestsIn (ρ kind y) b) :
    h.Covers b (site g ρ c).base := by
  have hInput : g.HasInput c y := Graph.hasInput_iff_edge.mpr ⟨kind, hEdge⟩
  obtain ⟨k, hBound, hCovers⟩ := hL.bound (hLive.input hInput) (hL.ne_exit hLive hInput) hRests
  rcases hIs.floats_or_step hL.well with hFloats | ⟨u, hStep⟩
  · have hBox := hPins.resolve_left fun hEntered => hEntered.not_floats hFloats
    have hZero : k = Graph.start :=
      hBound.elim id fun hAt => hL.boxes hLive hBox hFloats (.of_input hFloats hInput hAt)
    rw [hZero, hL.fixed hL.stays_start] at hCovers
    rwa [site_base_of_floats hFloats]
  · rw [hL.base hStep]
    exact hCovers.trans (hL.covers (hL.covers_of_bound hIs hLive hStep hInput hBound))

/-- What a node of a fragment rests on covers the control that the node hangs on. -/
theorem covers_of_hangs (hk : Level (site g ρ c) (arms c) k) (hHangs : Hangs h (site g ρ c) k w)
    (hRests : h.RestsIn w b) : h.Covers b k := by
  rcases hHangs.rests hL.wellFormed hRests with ⟨-, hHead | hHead⟩ | ⟨kind, x, ⟨y, hEdge, rfl⟩, hOn⟩
  · exact hHead.covers
  · exact hk.covers (fun a ha => hL.forked ha) hHead.covers
  · exact hk.covers (fun a ha => hL.forked ha) (hL.covers_of_takes hIs hLive hPins hEdge hOn)

end Pinned

end Spliced

end Lowering
end ArmBackend
