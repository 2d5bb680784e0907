import ArmBackend.Graph.Uses
import ArmBackend.Proofs.Verified

/-!
# Edges and projections

The uses that a graph lists for a node are its edges: one for each place where the node stands among
the inputs of another. `Graph.Projects g p i x` says that `p` is projection `i` of `x`, and
`Graph.OverflowProjected` that the operations with overflow are consumed through projections only.

## Results

* `mem_edgesTo` — a use is an edge.
* `findProjection_eq_ok` — the search for a projection finds one when there is one.
-/

namespace ArmBackend

theorem Node.mem_inputs {n : Node} {k : Int} {x : NodeId} (h : n.input k = .ok x) :
    x ∈ n.inputs := by
  unfold Node.input at h
  split at h
  · cases h
  · split at h
    · next hx =>
      cases h
      exact List.mem_of_getElem? hx
    · cases h

theorem Node.mem_of_controlIn {n : Node} {x : NodeId} (h : n.controlIn = .ok x) :
    x < 0 ∨ x ∈ n.inputs := by
  unfold Node.controlIn at h
  split at h
  · cases h
    exact .inl (by decide)
  · exact .inr (Node.mem_inputs h)

namespace Graph

variable {g : Graph} {id w x : NodeId} {i : Nat}

theorem contains_iff : g.contains id = true ↔ 0 ≤ id ∧ id < g.size := by
  unfold contains
  rw [decide_eq_true_iff]
  exact Iff.rfl

theorem isClosed_iff :
    g.isClosed = true ↔ ∀ n ∈ g.nodes.toList, ∀ x ∈ n.inputs, g.contains x = true := by
  unfold isClosed
  rw [← Array.all_toList]
  simp only [List.all_eq_true]

theorem mem_edgesTo : (⟨w, i⟩ : Use) ∈ g.edgesTo id ↔
    ∃ n, g.node? w = some n ∧ n.inputs[i]? = some id := by
  unfold edgesTo
  simp only [List.mem_flatMap, List.mem_filterMap, Prod.exists, List.mem_zipIdx_iff_getElem?,
    Option.ite_none_right_eq_some, Option.some.injEq, Use.mk.injEq]
  constructor
  · rintro ⟨n, user, hn, input, index, hInput, rfl, rfl, rfl⟩
    exact ⟨n, mem_zipIdx.mp (List.mem_zipIdx_iff_getElem?.mpr hn), hInput⟩
  · -- a node that is found has a number, under which it is listed
    rintro ⟨n, hn, hInput⟩
    obtain ⟨user, rfl, -⟩ := node?_eq_some.mp hn
    exact ⟨n, user, List.mem_zipIdx_iff_getElem?.mp (mem_zipIdx.mpr hn), id, i, hInput, rfl, rfl,
      rfl⟩

theorem uses_eq_ok {uses : List Use} (h : g.uses id = .ok uses) : uses = g.edgesTo id := by
  unfold Graph.uses at h
  split at h
  · cases h
    rfl
  · cases h

/-- Whether `p` is projection `index` of `x`. -/
def Projects (g : Graph) (p : NodeId) (index : Int) (x : NodeId) : Prop :=
  ∃ n, g.node? p = some n ∧ n.op = .projection ∧ n.int = index ∧ n.input 0 = .ok x

theorem Projects.int_unique {p : NodeId} {a b : Int} {y : NodeId} (ha : g.Projects p a x)
    (hb : g.Projects p b y) : a = b := by
  obtain ⟨n, hn, -, rfl, -⟩ := ha
  obtain ⟨m, hm, -, rfl, -⟩ := hb
  rw [hn] at hm
  rw [Option.some.inj hm]

theorem Projects.mem_inputs {p : NodeId} {index : Int} (h : g.Projects p index x) :
    ∃ n, g.node? p = some n ∧ n.op = .projection ∧ n.int = index ∧ x ∈ n.inputs := by
  obtain ⟨n, hn, hOp, hInt, hx⟩ := h
  exact ⟨n, hn, hOp, hInt, Node.mem_inputs hx⟩

/-- Whether each operation with overflow is consumed through its projections 0 and 1 only, of which
there is at most one each. -/
def OverflowProjected (g : Graph) : Prop :=
  ∀ x op, g.HasOp x op → op.hasOverflow = true →
    (∀ w n, g.node? w = some n → x ∈ n.inputs →
      ∃ index, (index = 0 ∨ index = 1) ∧ g.Projects w index x) ∧
    ∀ index p q, g.Projects p index x → g.Projects q index x → p = q

/-- The operations with overflow are consumed as they should be if whatever takes one is a projection
of it, and no other projection of the same node has the same index. -/
theorem overflowProjected_of_users
    (hUsers : ∀ n ∈ g.nodes.toList, ∀ x ∈ n.inputs, ∀ m ∈ g.node? x, m.op.hasOverflow = true →
      n.op = .projection ∧ (n.int = 0 ∨ n.int = 1) ∧ n.input 0 = .ok x)
    (hUnique : ∀ p ∈ g.nodes.toList.zipIdx, ∀ q ∈ g.nodes.toList.zipIdx, p.1.op = .projection →
      q.1.op = .projection → p.1.int = q.1.int → p.1.input 0 = q.1.input 0 → p.2 = q.2) :
    g.OverflowProjected := by
  rintro x op ⟨m, hm, rfl⟩ hOverflow
  constructor
  · intro w n hn hx
    obtain ⟨i, -, hi⟩ := node?_eq_some.mp hn
    obtain ⟨hOp, hInt, hIn⟩ := hUsers n (Array.mem_toList_iff.mpr (Array.mem_of_getElem? hi)) x hx m hm
      hOverflow
    exact ⟨n.int, hInt, n, hn, hOp, rfl, hIn⟩
  · rintro index p q ⟨n, hn, hOp, hInt, hIn⟩ ⟨n', hn', hOp', hInt', hIn'⟩
    obtain ⟨i, rfl, -⟩ := node?_eq_some.mp hn
    obtain ⟨j, rfl, -⟩ := node?_eq_some.mp hn'
    exact congrArg Int.ofNat (hUnique (n, i) (mem_zipIdx.mpr hn) (n', j) (mem_zipIdx.mpr hn') hOp hOp'
      (hInt.trans hInt'.symm) (hIn.trans hIn'.symm))

/-- In particular, if there are none. -/
theorem overflowProjected_of_none (h : ∀ n ∈ g.nodes.toList, n.op.hasOverflow = false) :
    g.OverflowProjected := by
  rintro x op ⟨n, hn, rfl⟩ hOverflow
  obtain ⟨i, -, hi⟩ := node?_eq_some.mp hn
  rw [h n (Array.mem_toList_iff.mpr (Array.mem_of_getElem? hi))] at hOverflow
  cases hOverflow

/-- The search for a projection looks at every edge. -/
theorem findProjection_eq_ok {index : Int} {p : NodeId}
    (h : g.findProjection x index = .ok p) :
    (0 ≤ p → ∃ n, g.node? p = some n ∧ n.op = .projection ∧ n.int = index ∧ x ∈ n.inputs) ∧
      (p < 0 → ∀ w n, g.node? w = some n → n.op = .projection → n.int = index → x ∉ n.inputs) := by
  unfold findProjection at h
  obtain ⟨uses, hUses, h⟩ := bind_eq_ok.mp h
  rw [uses_eq_ok hUses] at h
  have hp := pure_eq_ok.mp h
  cases hFind : (g.edgesTo x).find? _ with
  | none =>
    rw [hFind] at hp
    have hNeg : p = -1 := hp.symm
    refine ⟨fun hNonneg => absurd hNonneg (by rw [hNeg]; decide), ?_⟩
    intro _ w n hn hOp hInt hMem
    -- a projection of `x` would stand on the list of edges that was searched
    obtain ⟨i, hi⟩ := List.mem_iff_getElem?.mp hMem
    have hNot := List.find?_eq_none.mp hFind ⟨w, i⟩ (mem_edgesTo.mpr ⟨n, hn, hi⟩)
    simp [hn, hOp, hInt] at hNot
  | some u =>
    rw [hFind] at hp
    have hUser : u.user = p := hp
    obtain ⟨n, hn, hi⟩ := mem_edgesTo.mp (List.mem_of_find?_eq_some hFind)
    have hIt := List.find?_some hFind
    rw [hUser] at hn
    simp only [hUser, hn, Bool.and_eq_true, decide_eq_true_eq] at hIt
    refine ⟨fun _ => ⟨n, hn, hIt.1, hIt.2, List.mem_of_getElem? hi⟩, ?_⟩
    intro hNeg
    exact absurd (node?_lt hn).1 (Int.not_le.mpr hNeg)

/-- The projection that is found is the one there is. -/
theorem OverflowProjected.findProjection (h : g.OverflowProjected) {op : Operator}
    (hOp : g.HasOp x op) (hOverflow : op.hasOverflow = true) {index : Int} {p q : NodeId}
    (hFind : g.findProjection x index = .ok p) (hq : g.Projects q index x) : p = q := by
  obtain ⟨hFound, hNone⟩ := findProjection_eq_ok hFind
  obtain ⟨hUsers, hUnique⟩ := h x op hOp hOverflow
  -- no node was found, or one whose index is asked for
  rcases Int.lt_or_le p 0 with hNeg | hNonneg
  · obtain ⟨n, hn, hProjection, hInt, hMem⟩ := hq.mem_inputs
    exact absurd hMem (hNone hNeg q n hn hProjection hInt)
  · obtain ⟨n, hn, hProjection, hInt, hMem⟩ := hFound hNonneg
    obtain ⟨i, -, hp⟩ := hUsers p n hn hMem
    have hSame : i = index := by
      obtain ⟨m, hm, -, rfl, -⟩ := hp
      rw [hn] at hm
      rw [← hInt, Option.some.inj hm]
    rw [hSame] at hp
    exact hUnique index p q hp hq

end Graph
end ArmBackend
