import ArmBackend.Proofs.Schedule.Anchors
import ArmBackend.Proofs.Schedule.ControlGraph

/-!
# What scheduling asks of a graph

Going back along control leads from a node to the control that it hangs on, and from a node that
starts a block to what the block is entered from. A node covers another when every way back from
that goes through it. This is told of the graph alone, before there are blocks; where a graph
without cycles has a schedule, a head covers another exactly when the block of the one dominates the
block of the other.

Scheduling turns a graph down for many reasons, and finds them while it builds blocks and places
nodes. `Schedulable` says all of them in terms of the graph alone: each block is closed in one way,
each branch has its two arms, control leads to heads, and a node stands where all that it takes has
been computed.

## Results

* `Covers.comparable` — of two nodes that cover a third, one covers the other.
* `Flow.onEveryPath_of_covers`, `IsControlGraph.covers_of_onEveryPath` — covering is dominance of
  blocks.
* `compute_schedulable` — what scheduling asks of a graph holds when there is a schedule.
-/

namespace ArmBackend
namespace Graph

variable {g : Graph} {root u v w x y z h a : NodeId} {n : Node}

/-- One step back along control: to the control that a node hangs on, or from a node that starts a
block to what the block is entered from. -/
def ControlBack (g : Graph) (w u : NodeId) : Prop :=
  g.ControlStep w u ∨ (g.IsHead w ∧ g.HasInput w u)

/-- Whether every way back along control from a node goes through `x`. -/
inductive Covers (g : Graph) (x : NodeId) : NodeId → Prop
  | self : Covers g x x
  | step {y : NodeId} (hBack : ∃ u, g.ControlBack y u)
      (hAll : ∀ u, g.ControlBack y u → Covers g x u) : Covers g x y

/-- Whether node `e`, by its way `i`, closes the block that the control chain of `x` leads to: a
branch or a return closes the block that it stands in, and a merge the block that each of its inputs
stands in. -/
inductive Closes (g : Graph) (e : NodeId) : Nat → NodeId → Prop
  | ends (hEnd : g.IsEnd e) : Closes g e 0 e
  | jumps {i : Nat} {x : NodeId} {n : Node} (hn : g.node? e = some n) (hOp : n.op = .merge)
      (hx : n.inputs[i]? = some x) : Closes g e i x

/-- Whether a node rests on one with a control input whose chain leads to the head `h`. -/
def RestsIn (g : Graph) (x h : NodeId) : Prop :=
  ∃ y, g.RestsOn x y ∧ g.Entered y ∧ g.ControlHead y h

/-! ## Steps back -/

/-- A head of a block has no control that it hangs on. -/
theorem ControlStep.not_isHead (hStep : g.ControlStep w u) : ¬g.IsHead w :=
  fun hHead => hHead.not_step hStep

/-- A node that hangs on a control is entered by it. -/
theorem ControlStep.entered (hStep : g.ControlStep w u) : g.Entered w := by
  obtain ⟨n, hn, -, hControl, -⟩ := hStep
  exact ⟨n, hn, hControl⟩

/-- Going back along control leads to an input. -/
theorem ControlBack.hasInput (hWell : g.WellFormed) (hBack : g.ControlBack w u) :
    g.HasInput w u := by
  rcases hBack with hStep | ⟨-, hInput⟩
  · exact hStep.hasInput hWell
  · exact hInput

/-- A node that starts no block hangs on one control. -/
theorem ControlBack.eq_of_step (hStep : g.ControlStep w u) (hBack : g.ControlBack w v) : v = u := by
  rcases hBack with hOther | ⟨hHead, -⟩
  · exact hOther.unique hStep
  · exact absurd hStep hHead.not_step

/-- From a node that starts no block the only step back is along its control. -/
theorem ControlBack.step (hHead : ¬g.IsHead w) (hBack : g.ControlBack w u) : g.ControlStep w u :=
  hBack.resolve_right fun hIs => hHead hIs.1

/-- From a head every input may be what the block is entered from. -/
theorem ControlBack.hasInput_of_isHead (hHead : g.IsHead w) (hBack : g.ControlBack w u) :
    g.HasInput w u := by
  rcases hBack with hStep | ⟨-, hInput⟩
  · exact absurd hStep hHead.not_step
  · exact hInput

/-- The chain of a node that starts no block begins with a step. -/
theorem ControlHead.cases_step (hHead : g.ControlHead x h) :
    (x = h ∧ g.IsHead x) ∨ ∃ u, g.ControlStep x u ∧ g.ControlHead u h := by
  rcases Relation.ReflTransGen.cases_head hHead.1 with rfl | ⟨u, hStep, hChain⟩
  · exact .inl ⟨rfl, hHead.2⟩
  · exact .inr ⟨u, hStep, hChain, hHead.2⟩

/-- A head is its own head. -/
theorem ControlHead.eq_self (hHead : g.ControlHead x h) (hIs : g.IsHead x) : h = x :=
  hHead.unique (.self hIs)

/-- The chain of a node on the chain of another leads to the same head. -/
theorem ControlHead.of_chain (hHead : g.ControlHead x h)
    (hChain : Relation.ReflTransGen g.ControlStep x y) : g.ControlHead y h := by
  induction hChain with
  | refl => exact hHead
  | tail _ hStep ih =>
    rcases ih.cases_step with ⟨-, hIs⟩ | ⟨u, hOther, hRest⟩
    · exact absurd hStep hIs.not_step
    · rwa [hStep.unique hOther]

/-- A control chain is a way along inputs. -/
theorem ControlHead.inputs (hWell : g.WellFormed) (hHead : g.ControlHead x h) :
    Relation.ReflTransGen g.HasInput x h :=
  Relation.ReflTransGen.mono (fun _ _ hStep => hStep.hasInput hWell) _ _ hHead.1

/-! ## Covering -/

namespace Covers

/-- What covers the control of a node covers the node. -/
theorem of_step (hStep : g.ControlStep y u) (h : g.Covers x u) : g.Covers x y := by
  refine .step ⟨u, .inl hStep⟩ ?_
  intro v hBack
  rwa [hBack.eq_of_step hStep]

/-- The head of a chain covers the chain. -/
theorem of_chain (hChain : Relation.ReflTransGen g.ControlStep y x) : g.Covers x y := by
  induction hChain using Relation.ReflTransGen.head_induction_on with
  | refl => exact .self
  | head hStep _ ih => exact ih.of_step hStep

/-- What covers a node, and is another one, covers what comes before it. -/
theorem back (h : g.Covers x y) (hNe : x ≠ y) (hBack : g.ControlBack y u) : g.Covers x u := by
  cases h with
  | self => exact absurd rfl hNe
  | step _ hAll => exact hAll u hBack

/-- What covers a covering node covers what that one does. -/
theorem trans (hxy : g.Covers x y) (hyz : g.Covers y z) : g.Covers x z := by
  induction hyz with
  | self => exact hxy
  | step hBack _ ih => exact .step hBack ih

/-- Of two nodes that cover a third, one covers the other. -/
theorem comparable (hx : g.Covers x z) (hy : g.Covers y z) : g.Covers x y ∨ g.Covers y x := by
  induction hx with
  | self => exact .inr hy
  | @step z hBack hAll ih =>
    by_cases hNe : y = z
    · subst hNe
      exact .inl (.step hBack hAll)
    · obtain ⟨u, hu⟩ := hBack
      exact ih u hu (hy.back hNe hu)

/-- What covers a node of a block, and starts a block, covers the head of the block. -/
theorem at_head (h : g.Covers x y) (hIs : g.IsHead x) (hHead : g.ControlHead y a) :
    g.Covers x a := by
  obtain ⟨hChain, -⟩ := hHead
  induction hChain using Relation.ReflTransGen.head_induction_on with
  | refl => exact h
  | head hStep _ ih =>
    refine ih (h.back ?_ (.inl hStep))
    rintro rfl
    exact hStep.not_isHead hIs

/-- A way back leads to what covers a node. -/
theorem reaches (h : g.Covers x y) : Relation.ReflTransGen g.ControlBack y x := by
  induction h with
  | self => exact .refl
  | step hBack _ ih =>
    obtain ⟨u, hu⟩ := hBack
    exact .head hu (ih u hu)

/-- Without cycles no two nodes cover each other. -/
theorem antisymm (hWell : g.WellFormed) (hAcyclic : ∀ id, ¬Relation.TransGen g.HasInput id id)
    (hxy : g.Covers x y) (hyx : g.Covers y x) : x = y := by
  have hInputs : ∀ {v w}, Relation.ReflTransGen g.ControlBack v w →
      Relation.ReflTransGen g.HasInput v w := fun hWay =>
    Relation.ReflTransGen.mono (fun _ _ hBack => hBack.hasInput hWell) _ _ hWay
  rcases Relation.reflTransGen_iff_eq_or_transGen.mp (hInputs hxy.reaches) with hEq | hDown
  · exact hEq
  · exact absurd (hDown.trans_left (hInputs hyx.reaches)) (hAcyclic y)

end Covers

/-- The head that control leads to covers a node. -/
theorem ControlHead.covers (hHead : g.ControlHead y h) : g.Covers h y :=
  .of_chain hHead.1

/-! ## What nodes rest on -/

/-- A node that control enters rests in its own block. -/
theorem RestsIn.of_entered (hEntered : g.Entered x) (hHead : g.ControlHead x h) :
    g.RestsIn x h :=
  ⟨x, .refl, hEntered, hHead⟩

/-- A floating node rests where its inputs do. -/
theorem RestsIn.of_input (hFloats : g.Floats x) (hInput : g.HasInput x y) (h : g.RestsIn y a) :
    g.RestsIn x a := by
  obtain ⟨z, hRests, hEntered, hHead⟩ := h
  exact ⟨z, .head ⟨hFloats, hInput⟩ hRests, hEntered, hHead⟩

/-- A node that control enters does not float. -/
theorem Entered.not_floats (hEntered : g.Entered x) : ¬g.Floats x := by
  rintro ⟨n, hn, hNone⟩
  obtain ⟨m, hm, hSome⟩ := hEntered
  obtain rfl : n = m := Option.some.inj (hn.symm.trans hm)
  exact hSome hNone

/-- A node with a control input rests on itself only. -/
theorem RestsOn.eq_of_entered (hEntered : g.Entered x) (h : g.RestsOn x y) : y = x := by
  rcases Relation.ReflTransGen.cases_head h with rfl | ⟨u, ⟨hFloats, -⟩, -⟩
  · rfl
  · exact absurd hFloats hEntered.not_floats

/-- A node that control enters rests in no other block. -/
theorem RestsIn.controlHead (hEntered : g.Entered x) (h : g.RestsIn x a) : g.ControlHead x a := by
  obtain ⟨y, hRests, -, hHead⟩ := h
  rwa [← hRests.eq_of_entered hEntered]

/-- What a node rests on is one of its own inputs, or what one of these rests on. -/
theorem RestsIn.cases (h : g.RestsIn x a) : (g.Entered x ∧ g.ControlHead x a) ∨
    (g.Floats x ∧ ∃ y, g.HasInput x y ∧ g.RestsIn y a) := by
  obtain ⟨z, hRests, hEntered, hHead⟩ := h
  rcases Relation.ReflTransGen.cases_head hRests with rfl | ⟨y, ⟨hFloats, hInput⟩, hRests⟩
  · exact .inl ⟨hEntered, hHead⟩
  · exact .inr ⟨hFloats, y, hInput, z, hRests, hEntered, hHead⟩

end Graph

namespace Schedule

variable {g : Graph} {root x y : NodeId} {s : Schedule} {a b : Nat} {block other : Block}

/-- An edge of the block graph leaves a block that there is. -/
theorem block_of_mem_successors (hEdge : b ∈ s.successors a) :
    ∃ block, s.blocks[a]? = some block ∧ b ∈ block.succ := by
  cases hBlock : s.blocks[a]? with
  | none =>
    unfold successors at hEdge
    rw [hBlock] at hEdge
    cases hEdge
  | some block =>
    rw [successors_eq hBlock] at hEdge
    exact ⟨block, rfl, hEdge⟩

/-- The block whose head covers a node is on every path to the block of the node. -/
theorem Flow.onEveryPath_of_covers (h : Flow g root s) (hWell : g.WellFormed)
    (hStart : g.HasOp Graph.start .start) (hOther : s.blocks[a]? = some other)
    (hBlock : s.blocks[b]? = some block) (hHead : g.ControlHead y block.head)
    (hCovers : g.Covers other.head y) : s.OnEveryPath a b := by
  induction hCovers generalizing b block with
  | self =>
    obtain rfl := h.distinct hBlock hOther (hHead.eq_self (h.head hOther))
    rintro path ⟨-, -, hLast⟩
    exact List.mem_of_getLast? hLast
  | @step y hBack _ ih =>
    rcases hHead.cases_step with ⟨rfl, hIs⟩ | ⟨u, hStep, hRest⟩
    · intro path hPath
      rcases hPath.last_edge with ⟨rfl, -⟩ | ⟨front, p, rfl, hFront, hEdge⟩
      · -- Nothing leads back from the start.
        obtain ⟨first, hFirst, hZero⟩ := h.first
        obtain rfl : block = first := Option.some.inj (hBlock.symm.trans hFirst)
        obtain ⟨u, hu⟩ := hBack
        rw [hZero] at hu
        exact absurd (hu.hasInput hWell) (hWell.not_hasInput_start hStart)
      · obtain ⟨before, hBefore, hInto⟩ := block_of_mem_successors hEdge
        obtain ⟨-, next, x, hNext, hInput, hChain⟩ := h.edge hStart hBefore hInto
        obtain rfl : block = next := Option.some.inj (hBlock.symm.trans hNext)
        exact List.mem_append_left _ (ih x (.inr ⟨hIs, hInput⟩) hBefore hChain front hFront)
    · exact ih u (.inl hStep) hBlock hRest

/-- A block is entered from the block of whatever its head takes. -/
theorem IsControlGraph.edge_of_input (h : IsControlGraph g root s) (hFlow : Flow g root s)
    (hWell : g.WellFormed) (hStart : g.HasOp Graph.start .start)
    (hBlock : s.blocks[b]? = some block) (hInput : g.HasInput block.head x) :
    ∃ (p : Nat) (before : Block), s.blocks[p]? = some before ∧ g.ControlHead x before.head ∧
      b ∈ before.succ := by
  -- a head is the start, which has no input, an arm of a branch, or a merge
  rcases h.head b block hBlock with hZero | ⟨hLive, hArm | hArm | ⟨n, hn, hOp⟩⟩
  · rw [hZero] at hInput
    exact absurd hInput (hWell.not_hasInput_start hStart)
  · obtain ⟨p, before, c, hBefore, hControl, -, -, hOnly, hEdge, -⟩ :=
      hFlow.branch_of_arm hWell hStart hBlock hArm (.inl rfl)
    rw [hOnly x hInput]
    exact ⟨p, before, hBefore, (hFlow.control hBefore hControl).2, hEdge⟩
  · obtain ⟨p, before, c, hBefore, hControl, -, -, hOnly, hEdge, -⟩ :=
      hFlow.branch_of_arm hWell hStart hBlock hArm (.inr rfl)
    rw [hOnly x hInput]
    exact ⟨p, before, hBefore, (hFlow.control hBefore hControl).2, hEdge⟩
  · obtain ⟨m, hm, hx⟩ := hInput
    obtain rfl : n = m := Option.some.inj (hn.symm.trans hm)
    obtain ⟨p, before, hBefore, hChain, -, t, hSucc, hTarget⟩ := (hFlow.merged hLive hn hOp).1 x hx
    rw [heads_getElem?] at hTarget
    obtain ⟨target, hAt, hHead⟩ := Option.map_eq_some_iff.mp hTarget
    obtain rfl := hFlow.distinct hAt hBlock hHead
    exact ⟨p, before, hBefore, hChain, by rw [hSucc]; exact List.mem_singleton.mpr rfl⟩

/-- The head of a block covers that of any block that it is on every path to. -/
theorem IsControlGraph.covers_of_onEveryPath (h : IsControlGraph g root s) (hFlow : Flow g root s)
    (hWell : g.WellFormed) (hStart : g.HasOp Graph.start .start)
    (hAcyclic : ∀ id, ¬Relation.TransGen g.HasInput id id) (hOther : s.blocks[a]? = some other)
    (hBlock : s.blocks[b]? = some block) (hPath : s.OnEveryPath a b) :
    g.Covers other.head block.head := by
  refine hWell.inputs_induction hAcyclic (P := fun h => ∀ (b : Nat) (block : Block),
    s.blocks[b]? = some block → block.head = h → s.OnEveryPath a b → g.Covers other.head h) ?_
    block.head b block hBlock rfl hPath
  rintro - ih b block hBlock rfl hPath
  by_cases hSame : a = b
  · subst hSame
    obtain rfl : block = other := Option.some.inj (hBlock.symm.trans hOther)
    exact .self
  · have hIs := hFlow.head hBlock
    -- The first block is entered by the path that stays there.
    have hNe : b ≠ 0 := by
      rintro rfl
      have hMem := hPath [0] ⟨List.isChain_singleton 0, rfl, rfl⟩
      exact hSame (List.mem_singleton.mp hMem)
    obtain ⟨p, before, hBefore, hEdge⟩ := hFlow.entered hBlock hNe
    obtain ⟨-, next, x, hNext, hInput, -⟩ := hFlow.edge hStart hBefore hEdge
    obtain rfl : block = next := Option.some.inj (hBlock.symm.trans hNext)
    refine .step ⟨x, .inr ⟨hIs, hInput⟩⟩ ?_
    intro u hBack
    have hTakes := hBack.hasInput_of_isHead hIs
    obtain ⟨q, from', hFrom, hChain, hInto⟩ := h.edge_of_input hFlow hWell hStart hBlock hTakes
    have hDown : Relation.TransGen g.HasInput block.head from'.head :=
      .head' hTakes (hChain.inputs hWell)
    refine (ih _ hDown q from' hFrom rfl ?_).trans hChain.covers
    intro path hTo
    rw [← successors_eq hFrom] at hInto
    rcases List.mem_append.mp (hPath _ (hTo.concat hInto)) with hMem | hMem
    · exact hMem
    · exact absurd (List.mem_singleton.mp hMem) hSame

end Schedule
end ArmBackend

/-! ## What scheduling asks -/

namespace ArmBackend
namespace Graph

/-- Whether a node is listed in a block, where its inputs have to be there in time. -/
structure Checked (g : Graph) (exit id : NodeId) : Prop where
  live : g.Live exit id
  notExit : id ≠ exit
  notHead : ¬g.IsHead id
  notEnd : ¬g.IsEnd id
  notPhi : ¬g.IsPhi id

/-- What scheduling asks of a graph without cycles. -/
structure Schedulable (g : Graph) (exit : NodeId) : Prop where
  start : g.Live exit Graph.start
  /-- Where control is asked for it leads to a head. -/
  lands : ∀ {w u}, g.Live exit w → (w = exit → g.IsHead w ∨ g.IsEnd w) → g.ControlBack w u →
    ∃ h, g.ControlHead u h
  entered : ∀ {h}, g.Live exit h → g.IsHead h → h ≠ Graph.start → ∃ u, g.HasInput h u
  /-- Every block is closed. -/
  ended : ∀ {h}, g.Live exit h → g.IsHead h →
    ∃ e i x, g.Live exit e ∧ g.Closes e i x ∧ g.ControlHead x h
  /-- No block is closed in two ways. -/
  once : ∀ {e e' i i' x x' h}, g.Live exit e → g.Live exit e' → g.Closes e i x → g.Closes e' i' x' →
    g.ControlHead x h → g.ControlHead x' h → e = e' ∧ i = i'
  /-- A branch has one live arm of each kind. -/
  arms : ∀ {c op}, g.Live exit c → g.HasOp c .branch → op = .ifTrue ∨ op = .ifFalse →
    ∃! p, g.IsArm exit c op p
  arm_of : ∀ {p c op}, op = .ifTrue ∨ op = .ifFalse → g.IsArm exit c op p → g.HasOp c .branch
  /-- What a node with a control input takes rests on nodes whose blocks cover its own. -/
  anchored : ∀ {id x a h}, g.Checked exit id → g.HasInput id x → g.RestsIn x a → g.Entered id →
    g.ControlHead id h → g.Covers a h
  /-- The blocks that a floating node rests in cover one another in a row. -/
  floating : ∀ {id a b}, g.Live exit id → id ≠ exit → g.Floats id → g.RestsIn id a →
    g.RestsIn id b → g.Covers a b ∨ g.Covers b a
  /-- What takes the node that closes a block stands in a later block. -/
  closed : ∀ {id e h}, g.Checked exit id → g.HasInput id e → g.IsEnd e → g.ControlHead e h →
    ∃ a, g.RestsIn id a ∧ g.Covers h a ∧ a ≠ h

/-! ## Ends of blocks -/

variable {g : Graph} {exit root id e h u w x y a : NodeId} {i : Nat} {n : Node}

/-- What a node closes a block by is the node itself or one of its inputs. -/
theorem Closes.reaches (h : g.Closes e i x) : Relation.ReflTransGen g.HasInput e x := by
  cases h with
  | ends => exact .refl
  | jumps hn _ hx => exact .single ⟨_, hn, List.mem_of_getElem? hx⟩

/-- What is closed by a live end is live. -/
theorem Closes.live (h : g.Closes e i x) (hLive : g.Live root e) : g.Live root x :=
  hLive.trans h.reaches

/-- Branches and returns end blocks. -/
theorem IsEnd.of_hasOp {op : Operator} (hOp : g.HasOp e op) (hIs : op = .branch ∨ op = .ret) :
    g.IsEnd e := by
  obtain ⟨n, hn, rfl⟩ := hOp
  exact ⟨n, hn, hIs⟩

/-- Some operators start a block wherever they stand. -/
theorem IsHead.of_hasOp {op : Operator} (hOp : g.HasOp h op) (hIs : op.isHead = true) :
    g.IsHead h := by
  obtain ⟨n, hn, rfl⟩ := hOp
  exact ⟨n, hn, hIs⟩

/-- An arm of a branch starts a block. -/
theorem IsArm.isHead {c p : NodeId} {op : Operator} (hArm : op = .ifTrue ∨ op = .ifFalse)
    (h : g.IsArm exit c op p) : g.IsHead p := by
  refine .of_hasOp h.2.1 ?_
  rcases hArm with rfl | rfl <;> rfl

/-- A node that is no head, no end and no join is no merge either, so it hangs on its control. -/
theorem Entered.step (hWell : g.WellFormed) (hEntered : g.Entered w) (hHead : ¬g.IsHead w) :
    ∃ u, g.ControlStep w u := by
  obtain ⟨n, hn, hControl⟩ := hEntered
  obtain ⟨u, hu, -⟩ := hWell.controlIn hn hControl
  refine ⟨u, n, hn, ?_, hControl, hu⟩
  rw [← Bool.not_eq_true]
  exact fun hIs => hHead ⟨n, hn, hIs⟩

/-- An end has a control input. -/
theorem IsEnd.entered (hWell : g.WellFormed) (h : g.IsEnd e) : g.Entered e := by
  obtain ⟨n, hn, hOp⟩ := h
  have hOne : n.controlCount = (1 : Nat) :=
    hWell.controlCount hn (by rcases hOp with hOp | hOp <;> rw [hOp] <;> rfl)
  exact ⟨n, hn, by omega⟩

end Graph

namespace Schedule

variable {g : Graph} {exit id x y h j k : NodeId} {s : Schedule} {a b c : Nat} {block other : Block}

/-! ## Where nodes stand -/

/-- What dominates a block is on every path from the start to it. -/
theorem onEveryPath_of_dominates (hDominates : s.Dominates a b) : s.OnEveryPath a b := by
  rcases hDominates with rfl | ⟨-, hPaths⟩
  · rintro path ⟨-, -, hLast⟩
    exact List.mem_of_getLast? hLast
  · exact hPaths

/-- A node stands in the first block, or in a block that it rests in. -/
theorem restsIn_of_home (hWell : g.WellFormed) (hAcyclic : ∀ id, ¬Relation.TransGen g.HasInput id id)
    (hSited : ∀ id b, s.home id = some b → Sited g s b id) (hHome : s.home id = some b) :
    b = 0 ∨ ∃ block, s.blocks[b]? = some block ∧ g.RestsIn id block.head := by
  refine hWell.inputs_induction hAcyclic (P := fun id => ∀ b, s.home id = some b → b = 0 ∨
    ∃ block, s.blocks[b]? = some block ∧ g.RestsIn id block.head) ?_ id b hHome
  intro id ih b hHome
  obtain ⟨n, hn, hChain, hDeepest⟩ := hSited id b hHome
  by_cases hControl : n.controlCount = 0
  · by_cases hInputs : n.inputs = []
    · exact .inl ((hDeepest hControl).first hInputs)
    · obtain ⟨x, hx, hAt⟩ := (hDeepest hControl).among hInputs
      have hInput : g.HasInput id x := ⟨n, hn, hx⟩
      refine (ih x (.single hInput) b hAt).imp_right ?_
      rintro ⟨block, hBlock, hRests⟩
      exact ⟨block, hBlock, hRests.of_input ⟨n, hn, hControl⟩ hInput⟩
  · obtain ⟨block, hBlock, hHead⟩ := hChain hControl
    exact .inr ⟨block, hBlock, .of_entered ⟨n, hn, hControl⟩ hHead⟩

/-- The node that ends a block is a branch or a return. -/
theorem Flow.isEnd_of_control (hFlow : Flow g exit s) (hBlock : s.blocks[b]? = some block)
    (hControl : block.control = some id) : g.IsEnd id := by
  cases hFlow.leaves hBlock with
  | goto _ _ hNone =>
    rw [hNone] at hControl
    cases hControl
  | branch c _ _ _ hIs hOp =>
    obtain rfl := Option.some.inj (hControl.symm.trans hIs)
    exact .of_hasOp hOp (.inl rfl)
  | ret c _ hIs hOp =>
    obtain rfl := Option.some.inj (hControl.symm.trans hIs)
    exact .of_hasOp hOp (.inr rfl)

/-! ## What a schedule says about its graph -/

/-- What is known of the schedule of a graph without cycles. -/
structure Resolved (g : Graph) (exit : NodeId) (s : Schedule) : Prop where
  well : g.WellFormed
  start : g.HasOp Graph.start .start
  acyclic : ∀ id, ¬Relation.TransGen g.HasInput id id
  flow : Flow g exit s
  graph : IsControlGraph g exit s
  heads : ∀ h, g.Live exit h → g.IsHead h →
    ∃ (b : Nat) (block : Block), s.blocks[b]? = some block ∧ block.head = h
  settled : Settled g exit s
  placed : s.Placed g exit

/-- A schedule that was computed resolves the graph. -/
theorem compute_resolved (hWell : g.WellFormed) (hStart : g.HasOp Graph.start .start)
    (hAcyclic : ∀ id, ¬Relation.TransGen g.HasInput id id) (hCompute : compute g = .ok s) :
    ∃ exit, g.exit = some exit ∧ Resolved g exit s := by
  have hCycles : g.CyclesJoined := fun id hCycle =>
    hAcyclic id (Relation.TransGen.mono (fun _ _ => Graph.Depends.hasInput) _ _ hCycle)
  obtain ⟨exit, live, f, hExit, hRoot, hLive, hBuild, hFrame⟩ := compute_built hWell hCompute
  have hFramed := (buildBlocks_settles hWell hRoot hLive).of_ok hBuild
  obtain ⟨settledExit, hSettledExit, hSettled⟩ := compute_settled hWell hCycles hCompute
  obtain rfl := Option.some.inj (hExit.symm.trans hSettledExit)
  exact ⟨exit, hExit, hWell, hStart, hAcyclic,
    (buildBlocks_flow hWell hRoot hLive hBuild).of_frame hFrame,
    buildBlocks_controlGraph hWell hStart hRoot hLive hBuild hFrame,
    fun _ => hFramed.heads_of_frame hFrame, hSettled,
    (compute_settles hWell hCycles hExit).of_ok hCompute⟩

namespace Resolved

variable (r : Resolved g exit s)
include r

/-- The block that a live end closes. -/
theorem block_of_end {e : NodeId} (hLive : g.Live exit e) (hEnd : g.IsEnd e) :
    ∃ (b : Nat) (block : Block), s.blocks[b]? = some block ∧ block.control = some e ∧
      g.ControlHead e block.head := by
  obtain ⟨b, block, hBlock, hControl⟩ := r.flow.ends hLive hEnd
  exact ⟨b, block, hBlock, hControl, (r.flow.control hBlock hControl).2⟩

/-- The exit is no input of anything live. -/
theorem ne_exit_of_input (hLive : g.Live exit id) (hInput : g.HasInput id x) : x ≠ exit := by
  rintro rfl
  exact r.acyclic id (.head' hInput hLive)

/-- Going back along control from a live node comes to the head of a block. -/
theorem lands {w u : NodeId} (hLive : g.Live exit w) (hExit : w = exit → g.IsHead w ∨ g.IsEnd w)
    (hBack : g.ControlBack w u) : ∃ h, g.ControlHead u h := by
  by_cases hHead : g.IsHead w
  · obtain ⟨b, block, hBlock, rfl⟩ := r.heads w hLive hHead
    obtain ⟨p, before, -, hChain, -⟩ := r.graph.edge_of_input r.flow r.well r.start hBlock
      (hBack.hasInput_of_isHead hHead)
    exact ⟨before.head, hChain⟩
  · -- Control leads from any other node to a head, and the first step is the only one there is.
    have hStep := hBack.step hHead
    obtain ⟨h, hChain⟩ : ∃ h, g.ControlHead w h := by
      by_cases hEnd : g.IsEnd w
      · obtain ⟨b, block, -, -, hChain⟩ := r.block_of_end hLive hEnd
        exact ⟨block.head, hChain⟩
      · obtain ⟨b, hHome⟩ := r.settled.placed w hLive fun hEq => (hExit hEq).elim hHead hEnd
        obtain ⟨n, hn, hSited, -⟩ := r.settled.sited w b hHome
        obtain ⟨m, hm, hControl⟩ := hStep.entered
        obtain rfl : n = m := Option.some.inj (hn.symm.trans hm)
        obtain ⟨block, -, hChain⟩ := hSited hControl
        exact ⟨block.head, hChain⟩
    exact ⟨h, hChain.of_chain (.single hStep)⟩

/-- A live head other than the start is entered from somewhere. -/
theorem entered (hLive : g.Live exit h) (hHead : g.IsHead h) (hNe : h ≠ Graph.start) :
    ∃ u, g.HasInput h u := by
  obtain ⟨b, block, hBlock, rfl⟩ := r.heads h hLive hHead
  have hb : b ≠ 0 := by
    rintro rfl
    obtain ⟨first, hFirst, hZero⟩ := r.flow.first
    obtain rfl : block = first := Option.some.inj (hBlock.symm.trans hFirst)
    exact hNe hZero
  obtain ⟨p, before, hBefore, hEdge⟩ := r.flow.entered hBlock hb
  obtain ⟨-, next, x, hNext, hInput, -⟩ := r.flow.edge r.start hBefore hEdge
  obtain rfl : block = next := Option.some.inj (hBlock.symm.trans hNext)
  exact ⟨x, hInput⟩

/-- The block of a live head is closed by a live end. -/
theorem ended (hLive : g.Live exit h) (hHead : g.IsHead h) :
    ∃ e i x, g.Live exit e ∧ g.Closes e i x ∧ g.ControlHead x h := by
  obtain ⟨b, block, hBlock, rfl⟩ := r.heads h hLive hHead
  cases r.flow.leaves hBlock with
  | goto t _ _ hSucc hJoins =>
    obtain ⟨m, n, x, hAt, hn, hOp, hx, hChain⟩ := hJoins
    rw [heads_getElem?] at hAt
    obtain ⟨target, hTarget, rfl⟩ := Option.map_eq_some_iff.mp hAt
    obtain ⟨i, hi⟩ := List.getElem?_of_mem hx
    exact ⟨target.head, i, x, r.flow.head_live r.well r.start hTarget, .jumps hn hOp hi, hChain⟩
  | branch c _ _ _ hControl hOp =>
    obtain ⟨hIs, hChain⟩ := r.flow.control hBlock hControl
    exact ⟨c, 0, c, hIs, .ends (.of_hasOp hOp (.inl rfl)), hChain⟩
  | ret c _ hControl hOp =>
    obtain ⟨hIs, hChain⟩ := r.flow.control hBlock hControl
    exact ⟨c, 0, c, hIs, .ends (.of_hasOp hOp (.inr rfl)), hChain⟩

/-- The block that a merge closes by one of its inputs has no end of its own. -/
theorem block_of_jump {m : NodeId} {n : Node} {i : Nat} (hLive : g.Live exit m)
    (hn : g.node? m = some n) (hOp : n.op = .merge) (hx : n.inputs[i]? = some x) :
    ∃ (b : Nat) (block : Block), s.blocks[b]? = some block ∧ g.ControlHead x block.head ∧
      block.control = none := by
  obtain ⟨b, block, hBlock, hChain, hKind, -⟩ :=
    (r.flow.merged hLive hn hOp).1 x (List.mem_of_getElem? hx)
  refine ⟨b, block, hBlock, hChain, ?_⟩
  cases r.flow.leaves hBlock with
  | goto _ _ hControl => exact hControl
  | branch _ _ _ hIs | ret _ hIs =>
    rw [hKind] at hIs
    cases hIs

/-- No block is closed twice. -/
theorem once {e e' x' : NodeId} {i i' : Nat} (hLive : g.Live exit e) (hLive' : g.Live exit e')
    (hCloses : g.Closes e i x) (hCloses' : g.Closes e' i' x') (hHead : g.ControlHead x h)
    (hHead' : g.ControlHead x' h) : e = e' ∧ i = i' := by
  -- Both close the block of the same head. An end leaves a block its control and a jump leaves
  -- none, so the two are of one kind.
  cases hCloses with
  | ends hEnd =>
    obtain ⟨b, block, hBlock, hControl, hChain⟩ := r.block_of_end hLive hEnd
    obtain rfl := hChain.unique hHead
    cases hCloses' with
    | ends hEnd' =>
      obtain ⟨c, other, hOther, hControl', hChain'⟩ := r.block_of_end hLive' hEnd'
      obtain rfl := r.flow.distinct hOther hBlock (hChain'.unique hHead')
      obtain rfl : block = other := Option.some.inj (hBlock.symm.trans hOther)
      exact ⟨Option.some.inj (hControl.symm.trans hControl'), rfl⟩
    | jumps hn hOp hx =>
      obtain ⟨c, other, hOther, hChain', hNone⟩ := r.block_of_jump hLive' hn hOp hx
      obtain rfl := r.flow.distinct hOther hBlock (hChain'.unique hHead')
      obtain rfl : block = other := Option.some.inj (hBlock.symm.trans hOther)
      rw [hControl] at hNone
      cases hNone
  | jumps hn hOp hx =>
    obtain ⟨b, block, hBlock, hChain, hNone⟩ := r.block_of_jump hLive hn hOp hx
    obtain rfl := hChain.unique hHead
    cases hCloses' with
    | ends hEnd' =>
      obtain ⟨c, other, hOther, hControl', hChain'⟩ := r.block_of_end hLive' hEnd'
      obtain rfl := r.flow.distinct hOther hBlock (hChain'.unique hHead')
      obtain rfl : block = other := Option.some.inj (hBlock.symm.trans hOther)
      rw [hControl'] at hNone
      cases hNone
    | jumps hn' hOp' hx' =>
      obtain ⟨rfl, rfl⟩ := r.flow.mergeInput_unique hBlock ⟨hLive, _, hn, hOp, hx⟩ hHead
        ⟨hLive', _, hn', hOp', hx'⟩ hHead'
      exact ⟨rfl, rfl⟩

/-- A live branch has each of its arms once. -/
theorem arms {e : NodeId} {op : Operator} (hLive : g.Live exit e) (hOp : g.HasOp e .branch)
    (hArm : op = .ifTrue ∨ op = .ifFalse) : ∃! p, g.IsArm exit e op p := by
  obtain ⟨b, block, hBlock, hControl, -⟩ := r.block_of_end hLive (.of_hasOp hOp (.inl rfl))
  -- the block that the branch closes can be left in no other way
  have hKind : block.kind = .branch := by
    cases r.flow.leaves hBlock with
    | goto _ _ hNone =>
      rw [hNone] at hControl
      cases hControl
    | branch _ _ _ hKind => exact hKind
    | ret c _ hControl' hRet =>
      obtain rfl := Option.some.inj (hControl.symm.trans hControl')
      cases hOp.unique hRet
  obtain ⟨c, -, -, p, q, hControl', -, -, -, -, -, hTrue, hFalse⟩ :=
    r.graph.branch b block hBlock hKind
  obtain rfl := Option.some.inj (hControl.symm.trans hControl')
  rcases hArm with rfl | rfl
  · exact ⟨p, (hTrue p).mpr rfl, fun id => (hTrue id).mp⟩
  · exact ⟨q, (hFalse q).mpr rfl, fun id => (hFalse id).mp⟩

/-- Only a branch has arms. -/
theorem arm_of {p e : NodeId} {op : Operator} (hArm : op = .ifTrue ∨ op = .ifFalse)
    (hIs : g.IsArm exit e op p) : g.HasOp e .branch := by
  obtain ⟨b, block, hBlock, rfl⟩ := r.heads p hIs.1 (hIs.isHead hArm)
  obtain ⟨-, -, c, -, -, hOp, -, hOnly, -⟩ :=
    r.flow.branch_of_arm r.well r.start hBlock hIs.2.1 hArm
  rwa [hOnly e hIs.2.2]

/-! ### Places -/

/-- A head that dominates a block covers the head of that block. -/
theorem covers_of_dominates (hOther : s.blocks[a]? = some other) (hBlock : s.blocks[b]? = some block)
    (hDominates : s.Dominates a b) : g.Covers other.head block.head :=
  r.graph.covers_of_onEveryPath r.flow r.well r.start r.acyclic hOther hBlock
    (onEveryPath_of_dominates hDominates)

/-- The head of a block that a node rests in covers the heads of the blocks that the place of the
node dominates. -/
theorem covers_of_restsIn (hHome : s.blockOf x = some a) (hRests : g.RestsIn x h)
    (hBlock : s.blocks[b]? = some block) (hDominates : s.Dominates a b) :
    g.Covers h block.head := by
  obtain ⟨y, hOn, hEntered, hChain⟩ := hRests
  obtain ⟨c, hAt, hAbove⟩ := r.settled.dominates_of_restsOn hOn hHome
  obtain ⟨n, hn, hSited, -⟩ := r.settled.sited y c hAt
  obtain ⟨m, hm, hControl⟩ := hEntered
  obtain rfl : n = m := Option.some.inj (hn.symm.trans hm)
  obtain ⟨other, hOther, hHead⟩ := hSited hControl
  rw [hChain.unique hHead]
  exact r.covers_of_dominates hOther hBlock (hAbove.trans hDominates)

/-- The inputs of a node that is listed stand in blocks that dominate its own, and before it where
they stand in the same block. -/
theorem listed (hChecked : g.Checked exit id) : ∃ (b : Nat) (block : Block) (front rest : List NodeId),
    s.blockOf id = some b ∧ s.blocks[b]? = some block ∧ block.nodes = front ++ id :: rest ∧
      ∀ x, g.HasInput id x → ∃ a, s.blockOf x = some a ∧ s.Dominates a b ∧
        (a = b → x = block.head ∨ x ∈ front) := by
  obtain ⟨b, block, hBlock, hHome, hCount, -⟩ :=
    r.placed.once id hChecked.live hChecked.notExit
  have hMem : id ∈ block.contents := List.count_pos_iff.mp (by omega)
  have hNodes : id ∈ block.nodes := by
    rcases List.mem_cons.mp hMem with hHead | hListed
    · exact absurd (hHead ▸ r.flow.head hBlock) hChecked.notHead
    · rcases List.mem_append.mp hListed with hNodes | hControl
      · exact hNodes
      · exact absurd (r.flow.isEnd_of_control hBlock (Option.mem_toList.mp hControl)) hChecked.notEnd
  obtain ⟨front, rest, hSplit⟩ := List.append_of_mem hNodes
  refine ⟨b, block, front, rest, hHome, hBlock, hSplit, fun x hInput => ?_⟩
  exact r.placed.available b block hBlock front id rest hSplit hChecked.notPhi x hInput
    (r.ne_exit_of_input hChecked.live hInput)

/-- What a node with control takes rests on every way to it. -/
theorem anchored (hChecked : g.Checked exit id) (hInput : g.HasInput id x)
    (hRests : g.RestsIn x k) (hEntered : g.Entered id) (hHead : g.ControlHead id h) :
    g.Covers k h := by
  obtain ⟨b, block, front, rest, hHome, hBlock, -, hAvailable⟩ := r.listed hChecked
  obtain ⟨a, hAt, hDominates, -⟩ := hAvailable x hInput
  obtain ⟨n, hn, hSited, -⟩ := r.settled.sited id b hHome
  obtain ⟨m, hm, hControl⟩ := hEntered
  -- The block that the node was put in is that of its control.
  obtain rfl : n = m := Option.some.inj (hn.symm.trans hm)
  obtain ⟨own, hOwn, hChain⟩ := hSited hControl
  obtain rfl : block = own := Option.some.inj (hBlock.symm.trans hOwn)
  rw [hHead.unique hChain]
  exact r.covers_of_restsIn hAt hRests hBlock hDominates

/-- The places that a floating node rests in lie on one way. -/
theorem floating (hLive : g.Live exit id) (hNe : id ≠ exit) (hj : g.RestsIn id j)
    (hk : g.RestsIn id k) : g.Covers j k ∨ g.Covers k j := by
  obtain ⟨b, block, hBlock, hHome, -⟩ := r.placed.once id hLive hNe
  exact (r.covers_of_restsIn hHome hj hBlock (.refl b)).comparable
    (r.covers_of_restsIn hHome hk hBlock (.refl b))

/-- A node that takes an end of a block rests behind it. -/
theorem closed {e : NodeId} (hChecked : g.Checked exit id) (hInput : g.HasInput id e)
    (hEnd : g.IsEnd e) (hHead : g.ControlHead e h) :
    ∃ k, g.RestsIn id k ∧ g.Covers h k ∧ k ≠ h := by
  obtain ⟨b, block, front, rest, hHome, hBlock, hSplit, hAvailable⟩ := r.listed hChecked
  obtain ⟨a, hAt, hDominates, hSame⟩ := hAvailable e hInput
  have hLive := hChecked.live.input hInput
  obtain ⟨c, other, hOther, hControl, hChain⟩ := r.block_of_end hLive hEnd
  -- The end stands in the block that it closes, and is listed in none.
  obtain ⟨d, at_, hAtBlock, hPlace, hCount, hOnly⟩ :=
    r.placed.once e hLive (r.ne_exit_of_input hChecked.live hInput)
  obtain rfl : a = d := Option.some.inj (hAt.symm.trans hPlace)
  obtain rfl : c = a := hOnly c other hOther (by simp [Block.contents, Block.listed, hControl])
  obtain rfl : other = at_ := Option.some.inj (hOther.symm.trans hAtBlock)
  obtain rfl := hHead.unique hChain
  have hNe : c ≠ b := by
    rintro rfl
    obtain rfl : block = other := Option.some.inj (hBlock.symm.trans hOther)
    rcases hSame rfl with hIs | hFront
    · exact hEnd.not_isHead (hIs ▸ r.flow.head hBlock)
    · rw [Block.contents, Block.listed, hControl, hSplit] at hCount
      have hTwice : 0 < front.count e := List.count_pos_iff.mpr hFront
      simp [List.count_cons, List.count_append] at hCount
      omega
  rcases restsIn_of_home r.well r.acyclic r.settled.sited hHome with rfl | ⟨own, hOwn, hRests⟩
  · -- Only the first block dominates the first block.
    have hMem := onEveryPath_of_dominates hDominates [0] ⟨List.isChain_singleton 0, rfl, rfl⟩
    exact absurd (List.mem_singleton.mp hMem) hNe
  · obtain rfl : block = own := Option.some.inj (hBlock.symm.trans hOwn)
    refine ⟨block.head, hRests, r.covers_of_dominates hOther hBlock hDominates, ?_⟩
    intro hEq
    exact hNe (r.flow.distinct hOther hBlock hEq.symm)

/-- A graph with a schedule is schedulable. -/
theorem schedulable : g.Schedulable exit where
  start := by
    obtain ⟨block, hBlock, hHead⟩ := r.flow.first
    rw [← hHead]
    exact r.flow.head_live r.well r.start hBlock
  lands := r.lands
  entered := r.entered
  ended := r.ended
  once := r.once
  arms := r.arms
  arm_of := r.arm_of
  anchored := r.anchored
  floating hLive hNe _ := r.floating hLive hNe
  closed := r.closed

end Resolved

/-- A graph without cycles that has a schedule is as scheduling asks. -/
theorem compute_schedulable (hWell : g.WellFormed) (hStart : g.HasOp Graph.start .start)
    (hAcyclic : ∀ id, ¬Relation.TransGen g.HasInput id id) (hCompute : compute g = .ok s) :
    ∃ exit, g.exit = some exit ∧ g.Schedulable exit := by
  obtain ⟨exit, hExit, r⟩ := compute_resolved hWell hStart hAcyclic hCompute
  exact ⟨exit, hExit, r.schedulable⟩

end Schedule
end ArmBackend
