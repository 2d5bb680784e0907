import ArmBackend.Proofs.Cycles
import ArmBackend.Proofs.Schedule.Live
import Mathlib.Data.List.Find

/-!
# Graphs with more nodes behind their own

What is appended to a graph is not known to the nodes that were there: their inputs, and all that
the exit depends on, stay what they were. Only a look at the whole arena sees the difference, and the
uses of an old node begin with those that it had.

## Results

* `edgesTo_append` — the new edges come behind the old ones, and enter new nodes.
* `live_append` — the exit depends on what it depended on.
-/

namespace ArmBackend

/-- The graph with more nodes behind its own. -/
def Graph.append (g : Graph) (ns : List Node) : Graph :=
  { g with nodes := g.nodes ++ ns.toArray }

namespace Graph

variable {g : Graph} {ns : List Node} {n : Node} {id x : NodeId}

/-- Whether a number names a node. -/
def Knows (g : Graph) (id : NodeId) : Prop :=
  ∃ n, g.node? id = some n

theorem size_append (ns : List Node) : (g.append ns).size = g.size + ns.length := by
  simp [append, size]

theorem append_nil : g.append [] = g := by
  unfold Graph.append
  simp

theorem append_append (ns ms : List Node) : (g.append ns).append ms = g.append (ns ++ ms) := by
  unfold Graph.append
  simp [Array.append_assoc]

theorem node?_append (hn : g.node? id = some n) : (g.append ns).node? id = some n := by
  obtain ⟨i, rfl, hi⟩ := node?_eq_some.mp hn
  have hLt := (Array.getElem?_eq_some_iff.mp hi).1
  refine node?_eq_some.mpr ⟨i, rfl, ?_⟩
  show (g.nodes ++ ns.toArray)[i]? = some n
  rw [Array.getElem?_append_left hLt, hi]

/-- A node behind the first ones was added. -/
theorem node?_append_cases (h : (g.append ns).node? id = some n) :
    g.node? id = some n ∨ ∃ j : Nat, id = ((g.size + j : Nat) : Int) ∧ ns[j]? = some n := by
  obtain ⟨i, rfl, hi⟩ := node?_eq_some.mp h
  change (g.nodes ++ ns.toArray)[i]? = some n at hi
  rcases Nat.lt_or_ge i g.nodes.size with hLt | hGe
  · rw [Array.getElem?_append_left hLt] at hi
    exact .inl (node?_eq_some.mpr ⟨i, rfl, hi⟩)
  · rw [Array.getElem?_append_right hGe, List.getElem?_toArray] at hi
    refine .inr ⟨i - g.nodes.size, ?_, hi⟩
    have hSum : g.size + (i - g.nodes.size) = i := by
      show g.nodes.size + _ = i
      omega
    rw [hSum]

/-- A node that is pushed comes behind the others. -/
theorem push_eq (g : Graph) (n : Node) : g.push n = (g.append [n], (g.size : Int)) := by
  unfold push append size
  simp

theorem node?_push (g : Graph) (n : Node) : (g.append [n]).node? g.size = some n := by
  refine node?_eq_some.mpr ⟨g.size, rfl, ?_⟩
  show (g.nodes ++ #[n])[g.nodes.size]? = some n
  simp

theorem knows_iff : g.Knows id ↔ 0 ≤ id ∧ id < g.size := by
  constructor
  · rintro ⟨n, hn⟩
    exact node?_lt hn
  · rintro ⟨h0, hLt⟩
    exact exists_node? h0 hLt

/-! ## Old nodes -/

theorem Knows.node?_append (h : g.Knows id) : (g.append ns).node? id = g.node? id := by
  obtain ⟨n, hn⟩ := h
  rw [Graph.node?_append hn, hn]

theorem Knows.append (h : g.Knows id) : (g.append ns).Knows id := by
  obtain ⟨n, hn⟩ := h
  exact ⟨n, Graph.node?_append hn⟩

theorem Knows.lt (h : g.Knows id) : id < g.size := by
  obtain ⟨n, hn⟩ := h
  exact (node?_lt hn).2

theorem Knows.input (hVerify : g.verify = .ok ()) (hInput : g.HasInput id x) : g.Knows x :=
  node_of_input hVerify hInput

/-- A look at an old node, or at no node, finds what was there. -/
theorem node_append (h : g.Knows id ∨ id < 0) : (g.append ns).node id = g.node id := by
  unfold Graph.node
  rcases h with hKnown | hNegative
  · rw [hKnown.node?_append]
  · unfold Graph.node?
    rw [if_pos hNegative, if_pos hNegative]

theorem op_append (h : g.Knows id ∨ id < 0) : (g.append ns).op id = g.op id := by
  unfold Graph.op
  rcases h with hKnown | hNegative
  · rw [hKnown.node?_append]
  · unfold Graph.node?
    rw [if_pos hNegative, if_pos hNegative]

theorem zipIdx_append : (g.append ns).nodes.toList.zipIdx =
    g.nodes.toList.zipIdx ++ ns.zipIdx g.size := by
  show (g.nodes ++ ns.toArray).toList.zipIdx = _
  rw [Array.toList_append, List.zipIdx_append, Nat.zero_add, Array.length_toList]
  rfl

/-- A loop over the arena that passes over the new nodes is one over the old ones. -/
theorem foldlM_append_skip {β : Type} {f : β → Node × Nat → Except Fault β}
    (hNew : ∀ p ∈ ns.zipIdx g.size, ∀ b, f b p = .ok b) (b : β) :
    (g.append ns).nodes.toList.zipIdx.foldlM f b = g.nodes.toList.zipIdx.foldlM f b := by
  rw [zipIdx_append, List.foldlM_append]
  cases g.nodes.toList.zipIdx.foldlM f b with
  | error e => rfl
  | ok c => exact foldlM_skip hNew c

/-! ## What is live -/

theorem hasInput_append (h : g.Knows id) : (g.append ns).HasInput id x ↔ g.HasInput id x := by
  unfold HasInput
  rw [h.node?_append]

/-- What the exit depends on is old. -/
theorem live_append (hVerify : g.verify = .ok ()) {root : NodeId} (hRoot : g.Knows root) :
    (g.append ns).Live root id ↔ g.Live root id := by
  constructor
  · -- Along the way every node is one that was there, and its inputs are what they were.
    intro h
    induction h with
    | refl => exact .refl
    | tail _ hInput ih =>
      exact ih.input ((hasInput_append (ih.node_of_verify hVerify hRoot)).mp hInput)
  · intro h
    induction h with
    | refl => exact .refl
    | tail hLive hInput ih =>
      exact ih.input ((hasInput_append (Live.node_of_verify hLive hVerify hRoot)).mpr hInput)

/-- A new node is not live. -/
theorem lt_of_live_append (hVerify : g.verify = .ok ()) {root : NodeId} (hRoot : g.Knows root)
    (hLive : (g.append ns).Live root id) : id < g.size :=
  Knows.lt (Live.node_of_verify ((live_append hVerify hRoot).mp hLive) hVerify hRoot)

/-! ## Uses -/

/-- The edges from new nodes. -/
def newEdges (g : Graph) (ns : List Node) (id : NodeId) : List Use :=
  (ns.zipIdx g.size).flatMap fun (n, user) =>
    n.inputs.zipIdx.filterMap fun (input, index) =>
      if input = id then some ⟨user, index⟩ else none

/-- The new edges come behind the old ones. -/
theorem edgesTo_append : (g.append ns).edgesTo id = g.edgesTo id ++ g.newEdges ns id := by
  unfold edgesTo newEdges
  rw [zipIdx_append, List.flatMap_append]

/-- A new edge leads from a new node. -/
theorem mem_newEdges {u : Use} (hu : u ∈ g.newEdges ns id) :
    (g.size : Int) ≤ u.user ∧ ∃ n ∈ ns, (g.append ns).node? u.user = some n ∧ id ∈ n.inputs := by
  unfold newEdges at hu
  obtain ⟨⟨n, k⟩, hn, hu⟩ := List.mem_flatMap.mp hu
  obtain ⟨⟨input, index⟩, hInput, hu⟩ := List.mem_filterMap.mp hu
  dsimp only at hu
  split at hu
  · next hSame =>
    cases hu
    subst hSame
    obtain ⟨hLe, hGet⟩ := List.mem_zipIdx_iff_le_and_getElem?_sub.mp hn
    refine ⟨Int.ofNat_le.mpr hLe, n, List.mem_of_getElem? hGet, ?_,
      List.mem_of_getElem? (List.mem_zipIdx_iff_getElem?.mp hInput)⟩
    -- the nodes added come behind the old ones, with their own numbers
    have hMem : (n, k) ∈ (g.append ns).nodes.toList.zipIdx := by
      rw [zipIdx_append]
      exact List.mem_append_right _ hn
    exact mem_zipIdx.mp hMem
  · cases hu

/-- The users of an old node that were there. -/
theorem knows_of_edge {u : Use} (hu : u ∈ g.edgesTo id) : g.Knows u.user := by
  obtain ⟨n, hn, -⟩ := mem_edgesTo.mp (show (⟨u.user, u.index⟩ : Use) ∈ g.edgesTo id from hu)
  exact ⟨n, hn⟩

/-- Whether the user of an edge is the projection with an index. -/
def entersProjection (g : Graph) (index : Int) (u : Use) : Bool :=
  match g.node? u.user with
  | some n => n.op = .projection && n.int = index
  | none => false

theorem findProjection_of_verify (hVerify : g.verify = .ok ()) (hId : g.Knows id) (index : Int) :
    g.findProjection id index =
      .ok (((g.edgesTo id).find? (g.entersProjection index)).elim (-1) (·.user)) := by
  obtain ⟨n, hn⟩ := hId
  unfold Graph.findProjection
  rw [uses_of_verify hVerify hn]
  rfl

/-- The projection of an old node is found as before, or a new one where there was none. -/
theorem findProjection_append (hVerify : g.verify = .ok ())
    (hVerify' : (g.append ns).verify = .ok ()) (hId : g.Knows id) (index : Int) :
    ((g.append ns).findProjection id index = g.findProjection id index ∧
      ∀ p, g.findProjection id index = .ok p → 0 ≤ p → g.Knows p) ∨
    ∃ u ∈ g.newEdges ns id, g.findProjection id index = .ok (-1) ∧
      (g.append ns).findProjection id index = .ok u.user := by
  have hOld : (g.edgesTo id).find? ((g.append ns).entersProjection index) =
      (g.edgesTo id).find? (g.entersProjection index) := by
    refine List.find?_congr ?_
    intro u hu
    unfold entersProjection
    rw [(knows_of_edge hu).node?_append]
  rw [findProjection_of_verify hVerify hId, findProjection_of_verify hVerify' hId.append,
    edgesTo_append, List.find?_append, hOld]
  -- The search goes through the old users first, and comes to a new one only without them.
  cases hFind : (g.edgesTo id).find? (g.entersProjection index) with
  | some u =>
    refine .inl ⟨rfl, ?_⟩
    rintro p ⟨⟩ -
    exact knows_of_edge (List.mem_of_find?_eq_some hFind)
  | none =>
    rw [Option.none_or]
    cases hNew : (g.newEdges ns id).find? ((g.append ns).entersProjection index) with
    | none =>
      refine .inl ⟨rfl, ?_⟩
      rintro p ⟨⟩ hNonneg
      exact absurd hNonneg (by decide)
    | some u => exact .inr ⟨u, List.mem_of_find?_eq_some hNew, rfl, rfl⟩

/-- A new node is used by new nodes only. -/
theorem edgesTo_of_new (hVerify : g.verify = .ok ()) (hNew : (g.size : Int) ≤ id) :
    g.edgesTo id = [] := by
  rw [List.eq_nil_iff_forall_not_mem]
  rintro ⟨user, index⟩ hu
  obtain ⟨n, hn, hGet⟩ := mem_edgesTo.mp hu
  have hLt := (Knows.input hVerify ⟨n, hn, List.mem_of_getElem? hGet⟩).lt
  exact Int.not_lt.mpr hNew hLt

end Graph
end ArmBackend
