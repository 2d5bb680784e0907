import ArmBackend.Proofs.Uses
import Mathlib.Data.Finset.Card
import Mathlib.Logic.Relation

/-!
# Cycles of a graph

A graph may have cycles, but only through the inputs of a merge or of a join. The inputs of any other
node have to be there before the node.

## Results

* `WellFormed` — what the constructors of graphs and verification leave true of a graph.
* `rank_lt`, `rank_lt_size` — a relation between nodes and their inputs that has no cycle has a rank
  that goes down along it and is less than the number of nodes.
-/

namespace ArmBackend

/-- Whether the edge counts of a node are those of its inputs. -/
structure Node.Counted (n : Node) : Prop where
  value : 0 ≤ n.valueCount
  effect : 0 ≤ n.effectCount
  control : 0 ≤ n.controlCount
  sum : n.valueCount + n.effectCount + n.controlCount = n.inputs.length

instance (n : Node) : Decidable n.Counted :=
  decidable_of_iff (0 ≤ n.valueCount ∧ 0 ≤ n.effectCount ∧ 0 ≤ n.controlCount ∧
      n.valueCount + n.effectCount + n.controlCount = n.inputs.length)
    ⟨fun ⟨hValue, hEffect, hControl, hSum⟩ => ⟨hValue, hEffect, hControl, hSum⟩,
      fun h => ⟨h.value, h.effect, h.control, h.sum⟩⟩

namespace Graph

variable {g : Graph} {id u w : NodeId} {n : Node}

/-- Whether `u` is an input of `w`. -/
def HasInput (g : Graph) (w u : NodeId) : Prop :=
  ∃ n, g.node? w = some n ∧ u ∈ n.inputs

/-- Whether `u` is an input of `w`, which is no merge and no join. -/
def Depends (g : Graph) (w u : NodeId) : Prop :=
  ∃ n, g.node? w = some n ∧ n.op ≠ .merge ∧ n.op.isPhi = false ∧ u ∈ n.inputs

/-- Every cycle goes through an input of a merge or of a join. -/
def CyclesJoined (g : Graph) : Prop :=
  ∀ id, ¬Relation.TransGen g.Depends id id

/-- A verified graph whose edge counts agree with its inputs and whose exit is a node. -/
structure WellFormed (g : Graph) : Prop where
  verify : g.verify = .ok ()
  counted : ∀ {id n}, g.node? id = some n → n.Counted
  exit : ∀ id, g.exit = some id → ∃ n, g.node? id = some n

theorem Depends.hasInput (h : g.Depends w u) : g.HasInput w u := by
  obtain ⟨n, hn, -, -, hu⟩ := h
  exact ⟨n, hn, hu⟩

/-- A graph has no cycle if some number goes down from every node to its inputs. -/
theorem acyclic_of_rank (rank : Nat → Nat)
    (h : ∀ p ∈ g.nodes.toList.zipIdx, ∀ x ∈ p.1.inputs, rank x.toNat < rank p.2) (id : NodeId) :
    ¬Relation.TransGen g.HasInput id id := by
  have hStep : ∀ {w u}, g.HasInput w u → rank u.toNat < rank w.toNat := by
    rintro w u ⟨n, hn, hu⟩
    obtain ⟨k, rfl, -⟩ := node?_eq_some.mp hn
    exact h (n, k) (mem_zipIdx.mpr hn) u hu
  -- each edge goes down in rank, and so does a chain of them
  have hChain : ∀ {w u}, Relation.TransGen g.HasInput w u → rank u.toNat < rank w.toNat := by
    intro w u hChain
    induction hChain with
    | single hFirst => exact hStep hFirst
    | tail _ hLast ih => exact Nat.lt_trans (hStep hLast) ih
  exact fun hCycle => Nat.lt_irrefl _ (hChain hCycle)

/-- In a graph whose nodes take earlier nodes, but for merges and joins, every cycle goes through one
of these. -/
theorem cyclesJoined_of_ordered (h : ∀ p ∈ g.nodes.toList.zipIdx, p.1.op = .merge ∨
    p.1.op.isPhi = true ∨ ∀ x ∈ p.1.inputs, x < (p.2 : NodeId)) : g.CyclesJoined := by
  have hStep : ∀ {w u}, g.Depends w u → u < w := by
    rintro w u ⟨n, hn, hMerge, hPhi, hu⟩
    obtain ⟨k, rfl, -⟩ := node?_eq_some.mp hn
    rcases h (n, k) (mem_zipIdx.mpr hn) with hIs | hIs | hEarlier
    · exact absurd hIs hMerge
    · rw [hPhi] at hIs
      cases hIs
    · exact hEarlier u hu
  -- away from merges and joins every edge goes to an earlier node
  have hChain : ∀ {w u}, Relation.TransGen g.Depends w u → u < w := by
    intro w u hChain
    induction hChain with
    | single hFirst => exact hStep hFirst
    | tail _ hLast ih => exact Int.lt_trans (hStep hLast) ih
  exact fun id hId => Int.lt_irrefl id (hChain hId)

/-! ## Verified and well-formed graphs -/

theorem node_of_input (hVerify : g.verify = .ok ()) (hInput : g.HasInput w u) :
    ∃ n, g.node? u = some n := by
  obtain ⟨n, hn, hu⟩ := hInput
  obtain ⟨hNonneg, hLt⟩ := input_of_verify hVerify hn hu
  exact exists_node? hNonneg hLt

/-- The uses of a node can be looked up. -/
theorem uses_of_verify (hVerify : g.verify = .ok ()) (hn : g.node? id = some n) :
    g.uses id = .ok (g.edgesTo id) := by
  have hContains : g.contains id = true := decide_eq_true (node?_lt hn)
  -- verified inputs name nodes, so that the graph is closed
  have hClosed : g.isClosed = true := by
    unfold isClosed
    rw [Array.all_eq_true']
    intro m hm
    obtain ⟨i, hi⟩ := Array.mem_iff_getElem?.mp hm
    rw [List.all_eq_true]
    intro x hx
    exact decide_eq_true (input_of_verify hVerify (node?_eq_some.mpr ⟨i, rfl, hi⟩) hx)
  unfold Graph.uses
  rw [hClosed, hContains]
  rfl

namespace WellFormed

/-- The conditions on single nodes, node by node. -/
theorem of_nodes (hVerify : g.verify = .ok ()) (hCounted : ∀ n ∈ g.nodes.toList, n.Counted)
    (hExit : ∀ id ∈ g.exit, (g.node? id).isSome = true) : g.WellFormed := by
  refine ⟨hVerify, ?_, fun id hId => Option.isSome_iff_exists.mp (hExit id hId)⟩
  intro id n hn
  obtain ⟨i, -, hi⟩ := node?_eq_some.mp hn
  exact hCounted n (Array.mem_toList_iff.mpr (Array.mem_of_getElem? hi))

theorem node_of_input (h : g.WellFormed) (hInput : g.HasInput w u) : ∃ n, g.node? u = some n :=
  Graph.node_of_input h.verify hInput

/-- A node has at least the value inputs that its operator takes. -/
theorem le_inputs (h : g.WellFormed) (hn : g.node? id = some n) {k : Nat}
    (hk : n.op.arity?.bind Arity.value = some k) : k ≤ n.inputs.length := by
  have hValue := valueCount_of_verify h.verify hn hk
  have hCounted := h.counted hn
  have hSum := hCounted.sum
  have hEffect := hCounted.effect
  have hControl := hCounted.control
  omega

/-- A node whose operator takes a fixed number of inputs has that many. -/
theorem length_inputs (h : g.WellFormed) (hn : g.node? id = some n) {v e c : Nat}
    (hArity : n.op.arity? = some ⟨some v, some e, some c⟩) : n.inputs.length = v + e + c := by
  obtain ⟨arity, hSame, -, hValue, hEffect, hControl⟩ := arity_of_verify h.verify hn
  obtain rfl := Option.some.inj (hArity.symm.trans hSame)
  have hv := Arity.eq_of_admits hValue
  have he := Arity.eq_of_admits hEffect
  have hc := Arity.eq_of_admits hControl
  have hSum := (h.counted hn).sum
  omega

/-- A node with control inputs has a first one. -/
theorem controlIn (h : g.WellFormed) (hn : g.node? w = some n) (hControl : n.controlCount ≠ 0) :
    ∃ u, n.controlIn = .ok u ∧ g.HasInput w u := by
  obtain ⟨hValue, hEffect, hNonneg, hSum⟩ := h.counted hn
  have hLt : (n.valueCount + n.effectCount).toNat < n.inputs.length := by omega
  have hGet := List.getElem?_eq_getElem hLt
  refine ⟨n.inputs[(n.valueCount + n.effectCount).toNat], ?_, ⟨n, hn, List.mem_of_getElem? hGet⟩⟩
  unfold Node.controlIn Node.input
  rw [if_neg hControl, if_neg (by omega), hGet]

/-- A node has as many control inputs as its operator takes. -/
theorem controlCount (h : g.WellFormed) (hn : g.node? w = some n) {k : Nat}
    (hk : n.op.arity?.bind Arity.control = some k) : n.controlCount = k := by
  obtain ⟨arity, hArity, -, -, -, hControl⟩ := arity_of_verify h.verify hn
  rw [hArity, Option.bind_some] at hk
  rw [hk] at hControl
  exact Arity.eq_of_admits hControl

/-- A merge has control inputs only. -/
theorem controlCount_merge (h : g.WellFormed) (hn : g.node? w = some n) (hMerge : n.op = .merge) :
    n.controlCount = n.inputs.length := by
  obtain ⟨arity, hArity, -, hValue, hEffect, -⟩ := arity_of_verify h.verify hn
  rw [hMerge] at hArity
  cases hArity
  have hSum := (h.counted hn).sum
  rw [Arity.eq_of_admits hValue, Arity.eq_of_admits hEffect] at hSum
  omega

/-- A node that starts a block and has no control input has no input at all. -/
theorem inputs_of_head (h : g.WellFormed) (hn : g.node? w = some n) (hHead : n.op.isHead = true)
    (hControl : n.controlCount = 0) : n.inputs = [] := by
  obtain ⟨arity, hArity, -, hValue, hEffect, -⟩ := arity_of_verify h.verify hn
  -- by their arity heads have control inputs alone, and here not even these
  have hNone : arity.value = some 0 ∧ arity.effect = some 0 := by
    cases hOp : n.op <;> rw [hOp] at hHead hArity <;> cases hHead <;> cases hArity <;>
      exact ⟨rfl, rfl⟩
  rw [hNone.1] at hValue
  rw [hNone.2] at hEffect
  have hSum := (h.counted hn).sum
  rw [Arity.eq_of_admits hValue, Arity.eq_of_admits hEffect, hControl] at hSum
  exact List.length_eq_zero_iff.mp (by omega)

/-- A start of a verified graph has no inputs. -/
theorem not_hasInput_start (h : g.WellFormed) (hStart : g.HasOp w .start) : ¬g.HasInput w u := by
  rintro ⟨n, hn, hx⟩
  obtain ⟨m, hm, hOp⟩ := hStart
  obtain rfl : n = m := Option.some.inj (hn.symm.trans hm)
  have hNone : n.controlCount = 0 := h.controlCount hn (by rw [hOp]; rfl)
  rw [h.inputs_of_head hn (by rw [hOp]; rfl) hNone] at hx
  cases hx

theorem uses (h : g.WellFormed) (hn : g.node? id = some n) : g.uses id = .ok (g.edgesTo id) :=
  uses_of_verify h.verify hn

end WellFormed

/-! ## Ranks -/

open Classical in
/-- The number of nodes that a relation leads to. -/
noncomputable def rank (g : Graph) (r : NodeId → NodeId → Prop) (id : NodeId) : Nat :=
  ((Finset.range g.size).filter fun k : Nat => Relation.TransGen r id k).card

/-- A node that is on no cycle leads to fewer nodes than there are. -/
theorem rank_lt_size {r : NodeId → NodeId → Prop} (hn : g.node? id = some n)
    (hAcyclic : ¬Relation.TransGen r id id) : g.rank r id < g.size := by
  classical
  obtain ⟨k, rfl, hk⟩ := node?_eq_some.mp hn
  unfold rank
  refine (Finset.card_lt_card (Finset.filter_ssubset.mpr ⟨k, ?_, hAcyclic⟩)).trans_eq
    (Finset.card_range _)
  exact Finset.mem_range.mpr (Array.getElem?_eq_some_iff.mp hk).1

/-- From an input less can be reached than from its user. -/
theorem rank_lt {r : NodeId → NodeId → Prop} (hVerify : g.verify = .ok ())
    (hAcyclic : ∀ id, ¬Relation.TransGen r id id) (hInput : g.HasInput w u) (hStep : r w u) :
    g.rank r u < g.rank r w := by
  classical
  obtain ⟨n, hn⟩ := node_of_input hVerify hInput
  obtain ⟨k, rfl, hk⟩ := node?_eq_some.mp hn
  unfold rank
  -- The input itself is what its user reaches and it does not.
  refine Finset.card_lt_card (Finset.ssubset_iff_of_subset ?_ |>.mpr ⟨k, ?_, ?_⟩)
  · intro j hj
    rw [Finset.mem_filter] at hj ⊢
    exact ⟨hj.1, Relation.TransGen.head hStep hj.2⟩
  · rw [Finset.mem_filter, Finset.mem_range]
    exact ⟨(Array.getElem?_eq_some_iff.mp hk).1, .single hStep⟩
  · rw [Finset.mem_filter]
    exact fun hj => hAcyclic k hj.2

section Acyclic

variable (hWell : g.WellFormed) (hAcyclic : ∀ id, ¬Relation.TransGen g.HasInput id id)
include hWell hAcyclic

/-- What a node leads to leads to less. -/
theorem WellFormed.rank_lt_of_transGen (hDown : Relation.TransGen g.HasInput w u) :
    g.rank g.HasInput u < g.rank g.HasInput w := by
  induction hDown with
  | single hInput => exact rank_lt hWell.verify hAcyclic hInput hInput
  | tail _ hInput ih => exact (rank_lt hWell.verify hAcyclic hInput hInput).trans ih

/-- In a graph without cycles, what follows for a node once it holds of everything that the node
leads to holds of every node. -/
theorem WellFormed.inputs_induction {P : NodeId → Prop}
    (hStep : ∀ w, (∀ u, Relation.TransGen g.HasInput w u → P u) → P w) (w : NodeId) : P w := by
  induction hRank : g.rank g.HasInput w using Nat.strong_induction_on generalizing w with
  | _ rank ih =>
    refine hStep w fun u hDown => ih _ ?_ u rfl
    rw [← hRank]
    exact hWell.rank_lt_of_transGen hAcyclic hDown

/-- In a graph without cycles, what follows for a node once it holds of everything that leads to the
node holds of every node. -/
theorem WellFormed.users_induction {P : NodeId → Prop}
    (hStep : ∀ u, (∀ w, Relation.TransGen g.HasInput w u → P w) → P u) (u : NodeId) : P u := by
  induction hLeft : g.size - g.rank g.HasInput u using Nat.strong_induction_on generalizing u with
  | _ left ih =>
    refine hStep u fun w hDown => ih _ ?_ w rfl
    obtain ⟨v, ⟨n, hn, -⟩, -⟩ := Relation.TransGen.head'_iff.mp hDown
    have hLess := hWell.rank_lt_of_transGen hAcyclic hDown
    have hSize := rank_lt_size hn (hAcyclic w)
    omega

end Acyclic

end Graph
end ArmBackend
