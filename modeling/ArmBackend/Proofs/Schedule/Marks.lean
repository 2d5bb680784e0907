import ArmBackend.Proofs.Schedule.Schedulable

/-!
# Blocks that are split

Putting a branch, its arms and a merge in place of a node splits the block that the node stands in:
what hangs on the node hangs on the merge then, and the block ends at the branch. A graph that is
scheduled is scheduled with its blocks split when its control is threaded through the nodes that
split them (`Threaded`): what closes the block comes behind them, and so does what takes them in the
block.

The pieces of a split block begin at its head and behind each node that splits it; the mark at which
the piece of a node begins is the first one on its control chain (`FirstMark`). What holds of the
heads of blocks in a graph that can be scheduled holds of the marks in one that is threaded.

## Results

* `Threaded.covers_of_restsAt`, `Threaded.comparable` — marks cover one another as heads do.
* `Threaded.closing` — control goes on from every block to a return that the exit collects.
-/

namespace ArmBackend
namespace Graph

variable {g : Graph} {exit a b c e h j k u w x y z : NodeId} {i : Nat} {Splits : NodeId → Prop}

/-- Whether `k` is the first node on the control chain of `x`, itself included, that starts a block
or splits one. -/
inductive FirstMark (g : Graph) (Splits : NodeId → Prop) : NodeId → NodeId → Prop
  | head {x : NodeId} (hHead : g.IsHead x) : FirstMark g Splits x x
  | splits {x : NodeId} (hSplits : Splits x) : FirstMark g Splits x x
  | step {x u k : NodeId} (hStep : g.ControlStep x u) (hNot : ¬Splits x)
      (hRest : FirstMark g Splits u k) : FirstMark g Splits x k

/-- Whether a node rests on one with a control input whose first mark is `k`. -/
def RestsAt (g : Graph) (Splits : NodeId → Prop) (x k : NodeId) : Prop :=
  ∃ y, g.RestsOn x y ∧ g.Entered y ∧ g.FirstMark Splits y k

/-- Whether the control of a graph is threaded through the nodes that split blocks. -/
structure Threaded (g : Graph) (exit : NodeId) (Splits : NodeId → Prop) : Prop where
  isExit : g.HasOp exit .exit
  /-- The exit collects every return. -/
  returns : ∀ {e}, g.Live exit e → g.HasOp e .ret → g.HasInput exit e
  /-- What takes the end of a block starts another, is a join or is the exit. -/
  sealed : ∀ {w e}, g.Live exit w → g.HasInput w e → g.IsEnd e → g.IsHead w ∨ g.IsPhi w ∨ w = exit
  /-- What closes a block hangs on all that splits it. -/
  last : ∀ {c h e i x}, g.Live exit c → Splits c → g.ControlHead c h → g.Live exit e →
    g.Closes e i x → g.ControlHead x h → Relation.ReflTransGen g.ControlStep x c
  /-- What depends on a node that splits its block, and stands in the same block, hangs on it. -/
  ahead : ∀ {c w h}, g.Live exit c → Splits c → g.ControlHead c h → g.Checked exit w →
    g.Entered w → g.ControlHead w h → Relation.TransGen g.HasInput w c →
    Relation.ReflTransGen g.ControlStep w c

/-! ## Marks -/

namespace FirstMark

theorem chain (h : g.FirstMark Splits x k) : Relation.ReflTransGen g.ControlStep x k := by
  induction h with
  | head | splits => exact .refl
  | step hStep _ _ ih => exact .head hStep ih

theorem mark (h : g.FirstMark Splits x k) : g.IsHead k ∨ Splits k := by
  induction h with
  | head hHead => exact .inl hHead
  | splits hSplits => exact .inr hSplits
  | step _ _ _ ih => exact ih

theorem controlHead (h : g.FirstMark Splits x k) (hHead : g.ControlHead x a) :
    g.ControlHead k a :=
  hHead.of_chain h.chain

/-- Every chain that leads to a head has a first mark. -/
theorem exists_of_head (hHead : g.ControlHead x a) : ∃ k, g.FirstMark Splits x k := by
  obtain ⟨hChain, hIs⟩ := hHead
  induction hChain using Relation.ReflTransGen.head_induction_on with
  | refl => exact ⟨_, .head hIs⟩
  | @head x u hStep _ ih =>
    by_cases hSplits : Splits x
    · exact ⟨x, .splits hSplits⟩
    · obtain ⟨k, hk⟩ := ih
      exact ⟨k, .step hStep hSplits hk⟩

/-- What splits the block farther down the chain comes behind the first mark. -/
theorem chain_of_splits (h : g.FirstMark Splits x k)
    (hChain : Relation.ReflTransGen g.ControlStep x c) (hSplits : Splits c) :
    Relation.ReflTransGen g.ControlStep k c := by
  induction h with
  | head | splits => exact hChain
  | step hStep hNot _ ih =>
    rcases Relation.ReflTransGen.cases_head hChain with rfl | ⟨v, hOther, hRest⟩
    · exact absurd hSplits hNot
    · exact ih (hStep.unique hOther ▸ hRest)

/-- A mark on a chain is its first one, or is the next one behind a node that splits the block. -/
theorem next (hChain : Relation.ReflTransGen g.ControlStep z k) (hMark : g.IsHead k ∨ Splits k) :
    g.FirstMark Splits z k ∨ ∃ c u, Relation.ReflTransGen g.ControlStep z c ∧ Splits c ∧
      g.ControlStep c u ∧ g.FirstMark Splits u k := by
  induction hChain using Relation.ReflTransGen.head_induction_on with
  | refl =>
    rcases hMark with hHead | hSplits
    · exact .inl (.head hHead)
    · exact .inl (.splits hSplits)
  | @head z u hStep _ ih =>
    rcases ih with hFirst | ⟨c, v, hRest, hFound⟩
    · by_cases hSplits : Splits z
      · exact .inr ⟨z, u, .refl, hSplits, hStep, hFirst⟩
      · exact .inl (.step hStep hSplits hFirst)
    · exact .inr ⟨c, v, .head hStep hRest, hFound⟩

/-- Where more nodes split blocks, the first mark lies no farther down the chain. -/
theorem mono {Fewer : NodeId → Prop} (h : g.FirstMark Fewer x k) (hLess : ∀ c, Fewer c → Splits c) :
    ∃ j, g.FirstMark Splits x j ∧ Relation.ReflTransGen g.ControlStep j k := by
  induction h with
  | head hHead => exact ⟨_, .head hHead, .refl⟩
  | splits hSplits => exact ⟨_, .splits (hLess _ hSplits), .refl⟩
  | @step x u k hStep hNot hRest ih =>
    by_cases hSplits : Splits x
    · exact ⟨x, .splits hSplits, .head hStep hRest.chain⟩
    · obtain ⟨j, hMark, hChain⟩ := ih
      exact ⟨j, .step hStep hSplits hMark, hChain⟩

end FirstMark

/-- Two nodes on one control chain come one behind the other. -/
theorem chain_total (hx : Relation.ReflTransGen g.ControlStep z x)
    (hy : Relation.ReflTransGen g.ControlStep z y) : Relation.ReflTransGen g.ControlStep x y ∨
      Relation.ReflTransGen g.ControlStep y x :=
  Relation.ReflTransGen.total_of_right_unique (fun _ _ _ hu hv => hu.unique hv) hx hy

theorem RestsAt.of_input (hFloats : g.Floats x) (hInput : g.HasInput x y)
    (h : g.RestsAt Splits y k) : g.RestsAt Splits x k := by
  obtain ⟨z, hRests, hEntered, hMark⟩ := h
  exact ⟨z, .head ⟨hFloats, hInput⟩ hRests, hEntered, hMark⟩

theorem RestsAt.of_entered (hEntered : g.Entered x) (hMark : g.FirstMark Splits x k) :
    g.RestsAt Splits x k :=
  ⟨x, .refl, hEntered, hMark⟩

theorem RestsOn.inputs (h : g.RestsOn x y) : Relation.ReflTransGen g.HasInput x y :=
  Relation.ReflTransGen.mono (fun _ _ hRests => hRests.2) _ _ h

/-- What a floating node rests on is below it. -/
theorem RestsOn.below (h : g.RestsOn x y) (hFloats : g.Floats x) (hEntered : g.Entered y) :
    Relation.TransGen g.HasInput x y := by
  rcases Relation.reflTransGen_iff_eq_or_transGen.mp h.inputs with rfl | hDown
  · exact absurd hFloats hEntered.not_floats
  · exact hDown

/-- The mark that a node rests at is among what the node leads to. -/
theorem RestsAt.inputs (hWell : g.WellFormed) (h : g.RestsAt Splits x k) :
    Relation.ReflTransGen g.HasInput x k := by
  obtain ⟨y, hRests, -, hMark⟩ := h
  exact hRests.inputs.trans
    (Relation.ReflTransGen.mono (fun _ _ hStep => hStep.hasInput hWell) _ _ hMark.chain)

/-- What leads to a mark leads to the head that the mark leads to. -/
theorem ControlHead.of_mark (hHead : g.ControlHead k a) (hMark : g.FirstMark Splits x k) :
    g.ControlHead x a :=
  ⟨hMark.chain.trans hHead.1, hHead.2⟩

/-! ## Ways along control -/

/-- A node closes a block by a node that it comes behind. -/
theorem Closes.back (h : g.Closes e i x) : Relation.ReflTransGen g.ControlBack e x := by
  cases h with
  | ends => exact .refl
  | jumps hn hOp hx =>
    exact .single (.inr ⟨⟨_, hn, by rw [hOp]; rfl⟩, _, hn, List.mem_of_getElem? hx⟩)

theorem ControlHead.back (h : g.ControlHead x a) : Relation.ReflTransGen g.ControlBack x a :=
  Relation.ReflTransGen.mono (fun _ _ => .inl) _ _ h.1

/-- Whether control goes on from a node to a return that the exit collects. -/
def FlowsOut (g : Graph) (exit x : NodeId) : Prop :=
  ∃ e, g.HasInput exit e ∧ g.HasOp e .ret ∧ Relation.ReflTransGen g.ControlBack e x

theorem FlowsOut.back (h : g.FlowsOut exit x) (hBack : Relation.ReflTransGen g.ControlBack x y) :
    g.FlowsOut exit y := by
  obtain ⟨e, hTakes, hOp, hWay⟩ := h
  exact ⟨e, hTakes, hOp, hWay.trans hBack⟩

/-! ## Graphs that can be scheduled -/

section Schedulable

variable (hWell : g.WellFormed) (hAcyclic : ∀ id, ¬Relation.TransGen g.HasInput id id)
  (hS : g.Schedulable exit)
include hWell hS

/-- The chain of a live node with a control input leads to a head. -/
theorem Schedulable.controlHead (hLive : g.Live exit x) (hNe : x ≠ exit) (hEntered : g.Entered x) :
    ∃ a, g.ControlHead x a := by
  by_cases hHead : g.IsHead x
  · exact ⟨x, .self hHead⟩
  · obtain ⟨u, hStep⟩ := hEntered.step hWell hHead
    obtain ⟨a, hRest⟩ := hS.lands hLive (fun hEq => absurd hEq hNe) (.inl hStep)
    exact ⟨a, hRest.step hStep⟩

/-- What a head takes closes a block. -/
theorem Schedulable.closes_of_back (hLive : g.Live exit h) (hHead : g.IsHead h)
    (hInput : g.HasInput h u) : ∃ e i, g.Live exit e ∧ g.Closes e i u := by
  obtain ⟨n, hn, hIs⟩ := hHead
  -- an arm of a branch: the branch itself closes the block before
  have hArm : ∀ {op}, op = .ifTrue ∨ op = .ifFalse → n.op = op →
      ∃ e i, g.Live exit e ∧ g.Closes e i u := by
    intro op hOps hOp
    have hBranch := hS.arm_of hOps ⟨hLive, ⟨n, hn, hOp⟩, hInput⟩
    exact ⟨u, 0, hLive.input hInput, .ends (.of_hasOp hBranch (.inl rfl))⟩
  cases hOp : n.op with
  | ifTrue => exact hArm (.inl rfl) hOp
  | ifFalse => exact hArm (.inr rfl) hOp
  | start => exact absurd hInput (hWell.not_hasInput_start ⟨n, hn, hOp⟩)
  | merge =>
    obtain ⟨m, hm, hu⟩ := hInput
    obtain rfl : n = m := Option.some.inj (hn.symm.trans hm)
    -- a merge: the jump into it along this input
    obtain ⟨i, hi⟩ := List.getElem?_of_mem hu
    exact ⟨h, i, hLive, .jumps hn hOp hi⟩
  | _ =>
    rw [hOp] at hIs
    cases hIs

/-- What a node closes a block by leads to the head of the block. -/
theorem Schedulable.controlHead_of_closes (hLive : g.Live exit e) (hCloses : g.Closes e i x) :
    ∃ a, g.ControlHead x a := by
  cases hCloses with
  | ends hEnd =>
    obtain ⟨u, hStep⟩ := (hEnd.entered hWell).step hWell hEnd.not_isHead
    obtain ⟨a, hHead⟩ := hS.lands hLive (fun _ => .inr hEnd) (.inl hStep)
    exact ⟨a, hHead.step hStep⟩
  | jumps hn hOp hx =>
    have hHead : g.IsHead e := ⟨_, hn, by rw [hOp]; rfl⟩
    exact hS.lands hLive (fun _ => .inl hHead) (.inr ⟨hHead, _, hn, List.mem_of_getElem? hx⟩)

include hAcyclic

/-- The start covers whatever a control chain leads to. -/
theorem Schedulable.covers_start (hLive : g.Live exit x) (hHead : g.ControlHead x a) :
    g.Covers Graph.start x := by
  refine .trans ?_ hHead.covers
  have hLiveHead := hHead.live hWell hLive
  refine hWell.inputs_induction hAcyclic (P := fun a => g.Live exit a → g.IsHead a →
    g.Covers Graph.start a) ?_ a hLiveHead hHead.2
  intro a ih hLive hIs
  by_cases hZero : a = Graph.start
  · rw [hZero]
    exact .self
  · obtain ⟨v, hInput⟩ := hS.entered hLive hIs hZero
    refine .step ⟨v, .inr ⟨hIs, hInput⟩⟩ fun u hBack => ?_
    obtain ⟨b, hRest⟩ := hS.lands hLive (fun _ => .inl hIs) hBack
    have hTakes := hBack.hasInput_of_isHead hIs
    exact (ih b (.head' hTakes (hRest.inputs hWell)) (hRest.live hWell (hLive.input hTakes))
      hRest.2).trans hRest.covers

end Schedulable

/-! ## Threaded graphs -/

namespace Threaded

variable (hWell : g.WellFormed) (hAcyclic : ∀ id, ¬Relation.TransGen g.HasInput id id)
  (hS : g.Schedulable exit)
  (hT : g.Threaded exit Splits)
include hWell hS hT

omit hWell hS in
/-- Where fewer nodes split blocks a graph is threaded through them all the more. -/
theorem mono {Splits' : NodeId → Prop} (hLess : ∀ c, Splits' c → Splits c) :
    g.Threaded exit Splits' where
  isExit := hT.isExit
  returns := hT.returns
  sealed := hT.sealed
  last hLive hSplits := hT.last hLive (hLess _ hSplits)
  ahead hLive hSplits := hT.ahead hLive (hLess _ hSplits)

/-- What the head of a split block covers outside the block comes behind all that splits it. -/
theorem covers_of_splits (hLive : g.Live exit c) (hSplits : Splits c) (hHead : g.ControlHead c a)
    (hCovers : g.Covers a y) (hLiveY : g.Live exit y) : g.ControlHead y a ∨ g.Covers c y := by
  induction hCovers with
  | self => exact .inl (.self hHead.2)
  | @step y hBack _ ih =>
    by_cases hIs : g.IsHead y
    · refine .inr (.step hBack fun u hu => ?_)
      have hTakes := hu.hasInput_of_isHead hIs
      rcases ih u hu (hLiveY.input hTakes) with hSame | hCovers
      · -- Control comes from the block, so the node closes it.
        obtain ⟨e, i, hLiveE, hCloses⟩ := hS.closes_of_back hWell hLiveY hIs hTakes
        exact .of_chain (hT.last hLive hSplits hHead hLiveE hCloses hSame)
      · exact hCovers
    · obtain ⟨u, hu⟩ := hBack
      have hStep := hu.step hIs
      exact (ih u hu (hLiveY.input (hStep.hasInput hWell))).imp (.step hStep) (.of_step hStep)

include hAcyclic

/-- What a node rests on has a chain that leads to a head, which the first mark hangs on. -/
theorem exists_controlHead (hLive : g.Live exit w) (hDown : Relation.TransGen g.HasInput w y)
    (hEntered : g.Entered y) (hMark : g.FirstMark Splits y k) : g.Live exit k ∧
      ∃ a, g.ControlHead y a ∧ g.ControlHead k a := by
  have hLiveY : g.Live exit y := hLive.trans hDown.to_reflTransGen
  have hNe : y ≠ exit := by
    rintro rfl
    exact hAcyclic y (.trans_right hLive hDown)
  obtain ⟨a, hHead⟩ := hS.controlHead hWell hLiveY hNe hEntered
  exact ⟨hLiveY.trans
    (Relation.ReflTransGen.mono (fun _ _ hStep => hStep.hasInput hWell) _ _ hMark.chain),
    a, hHead, hMark.controlHead hHead⟩

/-- What a node with a control input takes rests at marks that cover it. -/
theorem covers_of_restsAt (hChecked : g.Checked exit w) (hEntered : g.Entered w)
    (hInput : g.HasInput w x) (hRests : g.RestsAt Splits x k) : g.Covers k w := by
  have hDown := Relation.TransGen.head' hInput (hRests.inputs hWell)
  obtain ⟨y, hOn, hEnteredY, hMark⟩ := hRests
  obtain ⟨h, hHead⟩ := hS.controlHead hWell hChecked.live hChecked.notExit hEntered
  obtain ⟨hLiveK, a, hHeadY, hHeadK⟩ := hT.exists_controlHead hWell hAcyclic hS hChecked.live
    (.head' hInput hOn.inputs) hEnteredY hMark
  have hCovers : g.Covers a w :=
    .trans (hS.anchored hChecked hInput ⟨y, hOn, hEnteredY, hHeadY⟩ hEntered hHead) hHead.covers
  rcases hMark.mark with hIs | hSplits
  · rwa [← hHeadK.eq_self hIs]
  · rcases hT.covers_of_splits hWell hS hLiveK hSplits hHeadK hCovers hChecked.live with
      hSame | hLater
    · exact .of_chain (hT.ahead hLiveK hSplits hHeadK hChecked hEntered hSame hDown)
    · exact hLater

omit hAcyclic in
/-- One of two marks covers the other where the head of the block of the one covers that of the
other. -/
theorem comparable_of_covers (hLiveK : g.Live exit k) (hLiveJ : g.Live exit j)
    (hMarkK : g.IsHead k ∨ Splits k) (hMarkJ : g.IsHead j ∨ Splits j) (hHeadK : g.ControlHead k a)
    (hHeadJ : g.ControlHead j b) (hCovers : g.Covers a b) : g.Covers k j ∨ g.Covers j k := by
  have hAbove : g.Covers a j := hCovers.trans hHeadJ.covers
  rcases hMarkK with hIs | hSplits
  · rw [hHeadK.eq_self hIs] at hAbove
    exact .inl hAbove
  · rcases hT.covers_of_splits hWell hS hLiveK hSplits hHeadK hAbove hLiveJ with
      hSame | hLater
    · rcases hMarkJ with hIs | hSplitsJ
      · rw [← hSame.eq_self hIs]
        exact .inr hHeadK.covers
      · -- Both split the block, and what closes the block comes behind both.
        obtain ⟨e, i, z, hLiveE, hCloses, hHeadZ⟩ := hS.ended (hHeadK.live hWell hLiveK) hHeadK.2
        rcases chain_total (hT.last hLiveK hSplits hHeadK hLiveE hCloses hHeadZ)
          (hT.last hLiveJ hSplitsJ hSame hLiveE hCloses hHeadZ) with hChain | hChain
        · exact .inr (.of_chain hChain)
        · exact .inl (.of_chain hChain)
    · exact .inl hLater

/-- The marks that a floating node rests at cover one another in a row. -/
theorem comparable (hLive : g.Live exit w) (hNe : w ≠ exit) (hFloats : g.Floats w)
    (hk : g.RestsAt Splits w k) (hj : g.RestsAt Splits w j) : g.Covers k j ∨ g.Covers j k := by
  obtain ⟨y, hOnY, hEnteredY, hMarkY⟩ := hk
  obtain ⟨z, hOnZ, hEnteredZ, hMarkZ⟩ := hj
  obtain ⟨hLiveK, a, hHeadY, hHeadK⟩ := hT.exists_controlHead hWell hAcyclic hS hLive
    (hOnY.below hFloats hEnteredY) hEnteredY hMarkY
  obtain ⟨hLiveJ, b, hHeadZ, hHeadJ⟩ := hT.exists_controlHead hWell hAcyclic hS hLive
    (hOnZ.below hFloats hEnteredZ) hEnteredZ hMarkZ
  rcases hS.floating hLive hNe hFloats ⟨y, hOnY, hEnteredY, hHeadY⟩
    ⟨z, hOnZ, hEnteredZ, hHeadZ⟩ with
    hCovers | hCovers
  · exact hT.comparable_of_covers hWell hS hLiveK hLiveJ hMarkY.mark hMarkZ.mark
      hHeadK hHeadJ hCovers
  · exact (hT.comparable_of_covers hWell hS hLiveJ hLiveK hMarkZ.mark hMarkY.mark
      hHeadJ hHeadK hCovers).symm

/-- Control goes on from what closes a block to a return that the exit collects. -/
theorem closing (hLive : g.Live exit h) (hHead : g.IsHead h) :
    ∃ e i x, g.Live exit e ∧ g.Closes e i x ∧ g.ControlHead x h ∧ g.FlowsOut exit e := by
  refine hWell.users_induction hAcyclic (P := fun h => g.Live exit h → g.IsHead h →
    ∃ e i x, g.Live exit e ∧ g.Closes e i x ∧ g.ControlHead x h ∧ g.FlowsOut exit e)
    ?_ h hLive hHead
  intro h ih hLive hHead
  obtain ⟨e, i, x, hLiveE, hCloses, hChain⟩ := hS.ended hLive hHead
  -- A branch or a merge is followed by blocks that are closed farther on.
  have hOnward : ∀ {p}, g.Live exit p → g.IsHead p → Relation.ReflTransGen g.ControlBack p e →
      Relation.TransGen g.HasInput p h → g.FlowsOut exit e := by
    intro p hLiveP hHeadP hBack hAfter
    obtain ⟨e', i', x', -, hCloses', hChain', hFlows⟩ := ih p hAfter hLiveP hHeadP
    exact hFlows.back (hCloses'.back.trans (hChain'.back.trans hBack))
  refine ⟨e, i, x, hLiveE, hCloses, hChain, ?_⟩
  cases hCloses with
  | ends hEnd =>
    obtain ⟨n, hn, hOp | hOp⟩ := hEnd
    · obtain ⟨p, hArm, -⟩ := hS.arms hLiveE ⟨n, hn, hOp⟩ (.inl rfl)
      have hHeadP := hArm.isHead (.inl rfl)
      exact hOnward hArm.1 hHeadP (.single (.inr ⟨hHeadP, hArm.2.2⟩))
        (.head' hArm.2.2 (hChain.inputs hWell))
    · exact ⟨e, hT.returns hLiveE ⟨n, hn, hOp⟩, ⟨n, hn, hOp⟩, .refl⟩
  | jumps hn hOp hx =>
    exact hOnward hLiveE ⟨_, hn, by rw [hOp]; rfl⟩ .refl
      (.head' ⟨_, hn, List.mem_of_getElem? hx⟩ (hChain.inputs hWell))

/-- Control goes on from every head to a return that the exit collects. -/
theorem flowsOut_of_isHead (hLive : g.Live exit h) (hHead : g.IsHead h) : g.FlowsOut exit h := by
  obtain ⟨e, i, x, -, hCloses, hChain, hFlows⟩ := hT.closing hWell hAcyclic hS hLive hHead
  exact hFlows.back (hCloses.back.trans hChain.back)

/-- Control goes on from what splits a block. -/
theorem flowsOut_of_splits (hLive : g.Live exit c) (hSplits : Splits c)
    (hHead : g.ControlHead c a) : g.FlowsOut exit c := by
  obtain ⟨e, i, x, hLiveE, hCloses, hChain, hFlows⟩ := hT.closing hWell hAcyclic hS
    (hHead.live hWell hLive) hHead.2
  refine hFlows.back (hCloses.back.trans ?_)
  exact Relation.ReflTransGen.mono (fun _ _ => .inl) _ _
    (hT.last hLive hSplits hHead hLiveE hCloses hChain)

/-! ### Pieces of blocks -/

omit hS hT in
/-- What splits a block comes in front of the mark behind it. -/
theorem not_chain_of_step (hStep : g.ControlStep c u) (hMark : g.FirstMark Splits u k) :
    ¬Relation.ReflTransGen g.ControlStep k c := by
  intro hChain
  have hCycle : Relation.TransGen g.ControlStep c c := .head' hStep (hMark.chain.trans hChain)
  exact hAcyclic c (Relation.TransGen.mono (fun _ _ hNext => hNext.hasInput hWell) _ _ hCycle)

omit hS in
/-- The piece of a block that ends where the block is closed is split no further. -/
theorem not_splits_of_closes (hLiveE : g.Live exit e) (hCloses : g.Closes e i x)
    (hMarkX : g.FirstMark Splits x k) (hLive : g.Live exit c) (hSplits : Splits c)
    (hHead : g.ControlHead c a) (hStep : g.ControlStep c u) (hMark : g.FirstMark Splits u k) :
    False := by
  have hHeadX : g.ControlHead x a :=
    (hHead.of_chain (.head hStep hMark.chain)).of_mark hMarkX
  exact not_chain_of_step hWell hAcyclic hStep hMark
    (hMarkX.chain_of_splits (hT.last hLive hSplits hHead hLiveE hCloses hHeadX) hSplits)

/-- A piece of a block ends where one node splits the block. -/
theorem splits_unique (hLive : g.Live exit c) (hSplits : Splits c) (hHead : g.ControlHead c a)
    (hStep : g.ControlStep c u) (hMark : g.FirstMark Splits u k) (hLive' : g.Live exit b)
    (hSplits' : Splits b) (hStep' : g.ControlStep b w) (hMark' : g.FirstMark Splits w k) :
    c = b := by
  have hHead' : g.ControlHead b a :=
    ((hHead.of_chain (.head hStep hMark.chain)).of_mark hMark').step hStep'
  obtain ⟨e, i, x, hLiveE, hCloses, hHeadX⟩ := hS.ended (hHead.live hWell hLive) hHead.2
  -- One of the two is on the chain of the other, and then at its end or behind the mark.
  have hSame : ∀ {c u b w}, g.ControlStep c u → g.FirstMark Splits u k → Splits b →
      g.ControlStep b w → g.FirstMark Splits w k → Relation.ReflTransGen g.ControlStep c b →
      c = b := by
    intro c u b w hStep hMark hSplits' hStep' hMark' hChain
    rcases Relation.ReflTransGen.cases_head hChain with hEq | ⟨v, hOther, hRest⟩
    · exact hEq
    · rw [hOther.unique hStep] at hRest
      exact absurd (hMark.chain_of_splits hRest hSplits')
        (not_chain_of_step hWell hAcyclic hStep' hMark')
  rcases chain_total (hT.last hLive hSplits hHead hLiveE hCloses hHeadX)
    (hT.last hLive' hSplits' hHead' hLiveE hCloses hHeadX) with hChain | hChain
  · exact hSame hStep hMark hSplits' hStep' hMark' hChain
  · exact (hSame hStep' hMark' hSplits hStep hMark hChain).symm

end Threaded

end Graph
end ArmBackend
