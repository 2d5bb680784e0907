import ArmBackend.Proofs.Dominance
import ArmBackend.Proofs.Selection.Operands
import Mathlib.Order.WellFoundedSet

/-!
# Places of nodes

A node has a place in a schedule when a block lists it, or ends with it. `Under s u w` orders nodes
by their places: `u` stands in a block that dominates the block of `w`, and before `w` when the two
blocks are the same. A schedule is valid for a graph (`Schedule.Valid`) when the value inputs of a
node stand under it, and those of a join stand in blocks that dominate the predecessors.

## Results

* `Valid.under_trans`, `Valid.under_irrefl`, `Valid.precedes` — the order of places is strict, and
  agrees with the order of the code.
* `Valid.feeds_under` — value inputs stand under their users.
* `Valid.under_wellFoundedOn` — no way up is endless.
* `valid_of_near` — a schedule whose nodes take what is near them is valid.
-/

namespace ArmBackend

/-- Whether a node of this operator has a value that others may take as an input. -/
def Operator.hasValue : Operator → Bool
  | .start | .exit | .dead | .branch | .ifTrue | .ifFalse | .merge | .effectPhi | .ret
  | .valueEffect | .controlEffect | .store => false
  | _ => true

/-- The nodes of a block in the order of execution, with the one that ends it. -/
def Block.listed (b : Block) : List NodeId :=
  b.nodes ++ b.control.toList

/-- Whether one place comes before another in the order of the code. -/
def Precedes (b i b' i' : Nat) : Prop :=
  b < b' ∨ (b = b' ∧ i < i')

namespace Schedule

variable {g : Graph} {s : Schedule} {b i b' i' a j : Nat} {u v w id : NodeId}

/-- Whether a node is listed at a place. -/
def Lists (s : Schedule) (b i : Nat) (id : NodeId) : Prop :=
  ∃ block, s.blocks[b]? = some block ∧ block.nodes[i]? = some id

/-- Whether a node is listed at a place, or ends a block there. -/
def At (s : Schedule) (b i : Nat) (id : NodeId) : Prop :=
  ∃ block, s.blocks[b]? = some block ∧ block.listed[i]? = some id

/-- Whether place `j` of block `a` is there whenever place `i` of block `b` is executed, and is
executed before it. -/
def Below (s : Schedule) (a j b i : Nat) : Prop :=
  s.Dominates a b ∧ (a = b → j < i)

/-- Whether node `u` stands below node `w`. -/
def Under (s : Schedule) (u w : NodeId) : Prop :=
  ∃ a j b i, s.At a j u ∧ s.At b i w ∧ s.Below a j b i

/-- A schedule of a graph whose blocks have no cycle: every value is there where it is needed. -/
structure Valid (s : Schedule) (g : Graph) : Prop where
  /-- Every edge goes to a block with a higher number. -/
  forward : s.Forward
  /-- No node is listed twice. -/
  unique : ∀ {b i b' i' id}, s.At b i id → s.At b' i' id → b = b' ∧ i = i'
  /-- A node that is listed is placed in the block that lists it. -/
  home : ∀ {b i id}, s.At b i id → s.blockOf id = some b
  /-- A block ends with a branch or a return. -/
  control : ∀ (b : Nat) (block : Block) (id : NodeId), s.blocks[b]? = some block →
    block.control = some id → g.HasOp id .branch ∨ g.HasOp id .ret
  /-- The value inputs of a node that is no join are listed below it. -/
  inputs : ∀ {b i w u}, s.At b i w → ¬g.HasOp w .phi → g.Feeds w u →
    ∃ a j, s.Lists a j u ∧ s.Below a j b i
  /-- Each value input of a join is listed in a block that dominates the predecessor. -/
  joins : ∀ {b i w} {n : Node}, s.Lists b i w → g.node? w = some n → n.op = .phi →
    ∀ (k : Nat) u, n.values[k]? = some u →
      ∃ p, (s.predecessors b)[k]? = some p ∧ ∃ a j, s.Lists a j u ∧ s.Dominates a p

/-- Whether every value input of a node that is listed is a node that has a value. -/
def Valued (s : Schedule) (g : Graph) : Prop :=
  ∀ {b i w u}, s.At b i w → g.Feeds w u → ∃ op, g.HasOp u op ∧ op.hasValue = true

/-! ## Places -/

theorem Lists.at (h : s.Lists b i id) : s.At b i id := by
  obtain ⟨block, hBlock, hId⟩ := h
  refine ⟨block, hBlock, ?_⟩
  rw [Block.listed, List.getElem?_append_left (List.getElem?_eq_some_iff.mp hId).1]
  exact hId

theorem At.lt (h : s.At b i id) : b < s.blocks.size := by
  obtain ⟨block, hBlock, -⟩ := h
  exact (Array.getElem?_eq_some_iff.mp hBlock).1

/-- The node that ends a block stands behind the others. -/
theorem at_control {block : Block} (hBlock : s.blocks[b]? = some block)
    (hControl : block.control = some id) : s.At b block.nodes.length id := by
  refine ⟨block, hBlock, ?_⟩
  rw [Block.listed, hControl]
  simp

/-- A node with a place is listed there or ends the block. -/
theorem At.kinds (h : s.At b i id) : s.Lists b i id ∨
    ∃ block, s.blocks[b]? = some block ∧ block.control = some id ∧ i = block.nodes.length := by
  obtain ⟨block, hBlock, hId⟩ := h
  rw [Block.listed, List.getElem?_append] at hId
  -- a place below the number of nodes is a node's, and the one after them the end's
  split at hId
  · exact .inl ⟨block, hBlock, hId⟩
  · next hLast =>
    refine .inr ⟨block, hBlock, ?_⟩
    cases hControl : block.control with
    | none =>
      rw [hControl] at hId
      cases hId
    | some c =>
      rw [hControl] at hId
      rw [Option.toList_some, List.getElem?_singleton, Option.ite_none_right_eq_some] at hId
      exact ⟨hId.2, by omega⟩

namespace Valid

variable (h : s.Valid g)
include h

/-- What is below a place comes before it. -/
theorem below_precedes (hBelow : s.Below a j b i) : Precedes a j b i := by
  have hLe := hBelow.1.le h.forward
  have hIndex := hBelow.2
  unfold Precedes
  omega

/-- Nodes stand in the order of the code. -/
theorem precedes (hUnder : s.Under u w) (hu : s.At a j u) (hw : s.At b i w) :
    Precedes a j b i := by
  obtain ⟨a', j', b', i', hu', hw', hBelow⟩ := hUnder
  obtain ⟨rfl, rfl⟩ := h.unique hu hu'
  obtain ⟨rfl, rfl⟩ := h.unique hw hw'
  exact h.below_precedes hBelow

theorem below_of_under (hUnder : s.Under u w) (hu : s.At a j u) (hw : s.At b i w) :
    s.Below a j b i := by
  obtain ⟨a', j', b', i', hu', hw', hBelow⟩ := hUnder
  obtain ⟨rfl, rfl⟩ := h.unique hu hu'
  obtain ⟨rfl, rfl⟩ := h.unique hw hw'
  exact hBelow

theorem under_irrefl : ¬s.Under u u := by
  rintro ⟨a, j, b, i, hu, hu', hBelow⟩
  obtain ⟨rfl, rfl⟩ := h.unique hu hu'
  exact Nat.lt_irrefl _ (hBelow.2 rfl)

/-- Between two places of one block there are only places of that block. -/
theorem below_trans {c k : Nat} (hBelow : s.Below a j b i) (hBelow' : s.Below b i c k) :
    s.Below a j c k := by
  refine ⟨hBelow.1.trans hBelow'.1, ?_⟩
  have hFirst := h.below_precedes hBelow
  have hSecond := h.below_precedes hBelow'
  unfold Precedes at hFirst hSecond
  omega

theorem under_trans (huv : s.Under u v) (hvw : s.Under v w) : s.Under u w := by
  obtain ⟨a, j, b, i, hu, hv, hBelow⟩ := huv
  obtain ⟨b', i', c, k, hv', hw, hBelow'⟩ := hvw
  obtain ⟨rfl, rfl⟩ := h.unique hv hv'
  exact ⟨a, j, c, k, hu, hw, h.below_trans hBelow hBelow'⟩

/-- The value inputs of a node that is no join stand under it. -/
theorem feeds_under (hw : s.At b i w) (hPhi : ¬g.HasOp w .phi) (hFeeds : g.Feeds w u) :
    s.Under u w := by
  obtain ⟨a, j, hu, hBelow⟩ := h.inputs hw hPhi hFeeds
  exact ⟨a, j, b, i, hu.at, hw, hBelow⟩

/-- The node that ends a block has no value. -/
theorem control_op {block : Block} (hBlock : s.blocks[b]? = some block)
    (hControl : block.control = some id) {op : Operator} (hOp : g.HasOp id op) :
    op.hasValue = false ∧ op ≠ .phi := by
  rcases h.control b block id hBlock hControl with hBranch | hRet
  · cases hBranch.unique hOp
    exact ⟨rfl, nofun⟩
  · cases hRet.unique hOp
    exact ⟨rfl, nofun⟩

/-- Going up from node to node comes to an end. -/
theorem under_wellFoundedOn {nodes : Set NodeId} (hFinite : nodes.Finite) :
    nodes.WellFoundedOn fun w u => s.Under u w := by
  have hStrict : IsStrictOrder NodeId fun w u => s.Under u w := {
    irrefl := fun _ => h.under_irrefl
    trans := fun _ _ _ hvw huv => h.under_trans huv hvw }
  exact hFinite.wellFoundedOn

end Valid

/-- Over a graph whose value inputs all have values every schedule does. -/
theorem valued_of_graph (h : ∀ n ∈ g.nodes.toList, ∀ u ∈ n.values,
    ∃ m ∈ g.node? u, m.op.hasValue = true) : s.Valued g := by
  rintro b i w u - ⟨n, hn, hu⟩
  obtain ⟨k, -, hk⟩ := Graph.node?_eq_some.mp hn
  obtain ⟨m, hm, hValue⟩ := h n (Array.mem_toList_iff.mpr (Array.mem_of_getElem? hk)) u hu
  exact ⟨m.op, ⟨m, hm, rfl⟩, hValue⟩

/-! ## Schedules that are seen to be valid -/

section Near

variable (hEntered : ∀ p ∈ s.blocks.toList.zipIdx, p.2 ≠ 0 →
  ∃ a ∈ List.range p.2, p.2 ∈ s.successors a)
include hEntered

/-- A block that is entered from an earlier one, as all are but the first, is reached. -/
theorem reached_of_entered (hb : b < s.blocks.size) : s.Reached b := by
  induction b using Nat.strongRecOn with
  | ind b ih =>
    by_cases hZero : b = 0
    · subst hZero
      exact ⟨[0], List.isChain_singleton 0, rfl, rfl⟩
    · have hMem : (s.blocks[b], b) ∈ s.blocks.toList.zipIdx := by
        rw [List.mem_zipIdx_iff_getElem?, Array.getElem?_toList]
        exact Array.getElem?_eq_getElem hb
      -- some edge comes from a lower number, from which induction has a path
      obtain ⟨a, ha, hEdge⟩ := hEntered _ hMem hZero
      have hLt := List.mem_range.mp ha
      obtain ⟨path, hPath⟩ := ih a hLt (Nat.lt_trans hLt hb)
      exact ⟨path ++ [b], hPath.concat hEdge⟩

/-- The first block dominates every other. -/
theorem first_dominates (hb : b < s.blocks.size) : s.Dominates 0 b :=
  .inr ⟨reached_of_entered hEntered hb, fun _ hPath => List.mem_of_head? hPath.2.1⟩

/-- A schedule is valid when its edges lead forward and a node takes only what the first block lists
or its own block lists in front of it, where a join takes what the predecessor lists. -/
theorem valid_of_near
    (hForward : ∀ p ∈ s.blocks.toList.zipIdx, (∀ t ∈ p.1.succ, p.2 < t) ∧ ∀ a ∈ p.1.pred, a < p.2)
    (hNodup : ∀ p ∈ s.blocks.toList.zipIdx, p.1.listed.Nodup)
    (hHome : ∀ p ∈ s.blocks.toList.zipIdx, ∀ id ∈ p.1.listed, s.home id = some p.2)
    (hControl : ∀ p ∈ s.blocks.toList.zipIdx, ∀ id ∈ p.1.control,
      ∃ n ∈ g.node? id, n.op = .branch ∨ n.op = .ret)
    (hInputs : ∀ p ∈ s.blocks.toList.zipIdx, ∀ q ∈ p.1.listed.zipIdx, ∀ n ∈ g.node? q.1,
      n.op ≠ .phi → ∀ u ∈ n.values, u ∈ p.1.nodes.take q.2 ∨
        (p.2 ≠ 0 ∧ ∃ first ∈ s.blocks[0]?, u ∈ first.nodes))
    (hJoins : ∀ p ∈ s.blocks.toList.zipIdx, ∀ id ∈ p.1.nodes, ∀ n ∈ g.node? id, n.op = .phi →
      ∀ q ∈ n.values.zipIdx, ∃ a ∈ p.1.pred[q.2]?, ∃ block ∈ s.blocks[a]?,
        q.1 ∈ block.nodes ∨ ∃ first ∈ s.blocks[0]?, q.1 ∈ first.nodes) :
    s.Valid g := by
  have hMem : ∀ {b : Nat} {block : Block}, s.blocks[b]? = some block →
      (block, b) ∈ s.blocks.toList.zipIdx := by
    intro b block hBlock
    rw [List.mem_zipIdx_iff_getElem?, Array.getElem?_toList]
    exact hBlock
  refine { forward := ?forward, unique := ?unique, home := ?home, control := ?control,
           inputs := ?inputs, joins := ?joins }
  case forward =>
    intro b
    unfold successors predecessors
    cases hBlock : s.blocks[b]? with
    | none => simp
    | some block => exact hForward _ (hMem hBlock)
  case home =>
    rintro b i id ⟨block, hBlock, hId⟩
    exact hHome _ (hMem hBlock) id (List.mem_of_getElem? hId)
  case unique =>
    rintro b i b' i' id ⟨block, hBlock, hId⟩ ⟨block', hBlock', hId'⟩
    -- A node has one home, and stands once in the list of its home.
    have hAt := hHome _ (hMem hBlock) id (List.mem_of_getElem? hId)
    have hAt' := hHome _ (hMem hBlock') id (List.mem_of_getElem? hId')
    obtain rfl : b = b' := Option.some.inj (hAt.symm.trans hAt')
    obtain rfl : block = block' := Option.some.inj (hBlock.symm.trans hBlock')
    have hLt := (List.getElem?_eq_some_iff.mp hId).1
    exact ⟨rfl, (List.getElem?_inj hLt (hNodup _ (hMem hBlock))).mp (hId.trans hId'.symm)⟩
  case control =>
    intro b block id hBlock hIs
    obtain ⟨n, hn, hOp⟩ := hControl _ (hMem hBlock) id hIs
    exact hOp.imp (fun h => ⟨n, hn, h⟩) fun h => ⟨n, hn, h⟩
  case inputs =>
    rintro b i w u ⟨block, hBlock, hw⟩ hPhi ⟨n, hn, hu⟩
    have hNot : n.op ≠ .phi := fun hOp => hPhi ⟨n, hn, hOp⟩
    rcases hInputs _ (hMem hBlock) (w, i) (List.mem_zipIdx_iff_getElem?.mpr hw) n hn hNot u hu with
      hFront | ⟨hZero, first, hFirst, hIn⟩
    · obtain ⟨j, hj⟩ := List.mem_iff_getElem?.mp hFront
      rw [List.getElem?_take, Option.ite_none_right_eq_some] at hj
      exact ⟨b, j, ⟨block, hBlock, hj.2⟩, .refl b, fun _ => hj.1⟩
    · obtain ⟨j, hj⟩ := List.mem_iff_getElem?.mp hIn
      have hb := (Array.getElem?_eq_some_iff.mp hBlock).1
      exact ⟨0, j, ⟨first, hFirst, hj⟩, first_dominates hEntered hb,
        fun hSame => absurd hSame.symm hZero⟩
  case joins =>
    rintro b i w n ⟨block, hBlock, hw⟩ hn hOp k u hu
    obtain ⟨a, ha, entered, hAt, hIn⟩ := hJoins _ (hMem hBlock) w (List.mem_of_getElem? hw) n hn hOp
      (u, k) (List.mem_zipIdx_iff_getElem?.mpr hu)
    refine ⟨a, by rw [predecessors, hBlock]; exact ha, ?_⟩
    rcases hIn with hIn | ⟨first, hFirst, hIn⟩
    · obtain ⟨j, hj⟩ := List.mem_iff_getElem?.mp hIn
      exact ⟨a, j, ⟨entered, hAt, hj⟩, .refl a⟩
    · obtain ⟨j, hj⟩ := List.mem_iff_getElem?.mp hIn
      exact ⟨0, j, ⟨first, hFirst, hj⟩,
        first_dominates hEntered (Array.getElem?_eq_some_iff.mp hAt).1⟩

end Near

end Schedule
end ArmBackend
