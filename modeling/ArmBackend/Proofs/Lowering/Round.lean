import ArmBackend.Proofs.Lowering.Added

/-!
# One round of the pass

A round of the pass leads the edges of the graph elsewhere: the nodes that stay are the old ones with
their edges rewired, whatever was rewired before. What the round adds and where it leads the edges
comes from the fragment, and the only reason for a round to fail is a change that has one anchor of
the two.

## Results

* `Node.rewire` — a node with its edges led elsewhere, by their kind.
* `lowerNode_cases` — a round fails at a half anchored change, or is a `Round`.
-/

namespace ArmBackend

/-! ## Rewired nodes -/

/-- A node with its edges led elsewhere. -/
def Node.rewire (n : Node) (ρ : EdgeKind → NodeId → NodeId) : Node :=
  { n with inputs := n.inputs.mapIdx fun index input => ρ (n.edgeKind index) input }

/-- Where an edge leads once a node is replaced. -/
def Graph.Replacement.move (r : Graph.Replacement) (old : NodeId) (kind : EdgeKind) (x : NodeId) :
    NodeId :=
  if x = old then r.target old kind else x

namespace Node

variable {n : Node} {ρ σ : EdgeKind → NodeId → NodeId} {kind : EdgeKind} {x y old : NodeId}
  {r : Graph.Replacement}

theorem rewire_rewire : (n.rewire ρ).rewire σ = n.rewire fun kind x => σ kind (ρ kind x) := by
  simp only [rewire, List.mapIdx_mapIdx]
  rfl

theorem mem_edges_rewire (h : (kind, y) ∈ (n.rewire ρ).edges) :
    ∃ x, (kind, x) ∈ n.edges ∧ ρ kind x = y := by
  obtain ⟨i, hi, hEq⟩ := List.mem_mapIdx.mp h
  have hLt : i < n.inputs.length := by simpa [rewire] using hi
  have hInput : (n.rewire ρ).inputs[i] = ρ (n.edgeKind i) n.inputs[i] := List.getElem_mapIdx ..
  rw [hInput] at hEq
  cases hEq
  exact ⟨n.inputs[i], List.mem_mapIdx.mpr ⟨i, hLt, rfl⟩, rfl⟩

/-- A rewiring that moves no edge of a node leaves the node as it is. -/
theorem rewire_eq_self (h : ∀ kind x, (kind, x) ∈ n.edges → ρ kind x = x) : n.rewire ρ = n := by
  have hSame : n.inputs.mapIdx (fun index input => ρ (n.edgeKind index) input) = n.inputs := by
    refine List.ext_getElem (by simp) fun i _ hi => ?_
    rw [List.getElem_mapIdx]
    exact h _ _ (List.mem_mapIdx.mpr ⟨i, hi, rfl⟩)
  unfold rewire
  rw [hSame]

theorem Counted.rewire (h : n.Counted) : (n.rewire ρ).Counted :=
  ⟨h.value, h.effect, h.control, by simpa [Node.rewire] using h.sum⟩

/-- The control input of a rewired node. -/
theorem controlIn_rewire (hCounted : n.Counted) {control : NodeId}
    (h : n.controlIn = .ok control) :
    (n.rewire ρ).controlIn = .ok (if n.controlCount = 0 then -1 else ρ .control control) := by
  obtain ⟨hValue, hEffect, hControl, hSum⟩ := hCounted
  unfold controlIn input at h ⊢
  by_cases hNone : n.controlCount = 0
  · exact (if_pos hNone).trans (by rw [if_pos hNone])
  · rw [if_neg hNone, if_neg (by omega)] at h
    have hGet : n.inputs[(n.valueCount + n.effectCount).toNat]? = some control := by
      split at h
      · next hx =>
        cases h
        exact hx
      · cases h
    -- Behind the value and effect edges come the control edges.
    have hKind : n.edgeKind (n.valueCount + n.effectCount).toNat = .control := by
      unfold edgeKind
      rw [if_neg (by omega), if_neg (by omega)]
    have hMoved : (n.rewire ρ).inputs[(n.valueCount + n.effectCount).toNat]? =
        some (ρ .control control) := by
      show (n.inputs.mapIdx _)[_]? = _
      rw [List.getElem?_mapIdx, hGet, ← hKind]
      rfl
    rw [if_neg hNone]
    refine (if_neg hNone).trans ((if_neg (show ¬n.valueCount + n.effectCount < 0 by omega)).trans ?_)
    rw [show (n.rewire ρ).inputs[((n.rewire ρ).valueCount + (n.rewire ρ).effectCount).toNat]? = _ from
      hMoved]

/-- The first value input of a rewired node. -/
theorem input_of_rewire (hValue : 0 < n.valueCount) (h : (n.rewire ρ).input 0 = .ok y) :
    ∃ x, n.input 0 = .ok x ∧ ρ .value x = y := by
  have hKind : n.edgeKind 0 = .value := if_pos hValue
  unfold input rewire at h
  cases hInputs : n.inputs with
  | nil =>
    rw [hInputs] at h
    cases h
  | cons x rest =>
    simp only [hInputs, List.mapIdx_cons, hKind] at h
    cases h
    exact ⟨x, by simp [input, hInputs], rfl⟩

/-- A node that has control inputs has a first one. -/
theorem Counted.controlIn (h : n.Counted) :
    ∃ control, n.controlIn = .ok control ∧ (n.controlCount ≠ 0 → control ∈ n.inputs) := by
  obtain ⟨hValue, hEffect, hControl, hSum⟩ := h
  by_cases hNone : n.controlCount = 0
  · exact ⟨-1, if_pos hNone, fun hHas => absurd hNone hHas⟩
  · have hLt : (n.valueCount + n.effectCount).toNat < n.inputs.length := by omega
    have hGet := List.getElem?_eq_getElem hLt
    refine ⟨_, ?_, fun _ => List.mem_of_getElem? hGet⟩
    unfold Node.controlIn input
    rw [if_neg hNone, if_neg (by omega), hGet]

/-- The control input of a node is at the end of a control edge. -/
theorem Counted.control_edge (h : n.Counted) (hHas : n.controlCount ≠ 0) {control : NodeId}
    (hControl : n.controlIn = .ok control) : (.control, control) ∈ n.edges := by
  obtain ⟨hValue, hEffect, -, -⟩ := h
  unfold Node.controlIn input at hControl
  rw [if_neg hHas, if_neg (by omega)] at hControl
  split at hControl
  · next hGet =>
    cases hControl
    obtain ⟨hLt, rfl⟩ := List.getElem?_eq_some_iff.mp hGet
    refine List.mem_mapIdx.mpr ⟨_, hLt, ?_⟩
    unfold edgeKind
    rw [if_neg (by omega), if_neg (by omega)]
  · cases hControl

/-- A branch hangs on one control. -/
theorem controlCount_branch (hFits : n.fitsArity = true) (hOp : n.op = .branch) :
    n.valueCount = 1 ∧ n.effectCount = 0 ∧ n.controlCount = 1 := by
  unfold fitsArity at hFits
  rw [hOp] at hFits
  simp only [Operator.arity?, Bool.and_eq_true] at hFits
  obtain ⟨⟨-, ⟨hValue, hEffect⟩, hControl⟩, -⟩ := hFits
  exact ⟨Arity.eq_of_admits hValue, Arity.eq_of_admits hEffect, Arity.eq_of_admits hControl⟩

/-- Whether a change has one anchor of the two. -/
def HalfAnchored (n : Node) : Prop :=
  ¬(n.effectCount = 0 ↔ n.controlCount = 0)

instance (n : Node) : Decidable n.HalfAnchored :=
  inferInstanceAs (Decidable ¬_)

end Node

theorem Operator.isChange_iff {op : Operator} : op.isChange = true ↔ ∃ f, op = .change f := by
  constructor
  · intro h
    cases op with
    | change f => exact ⟨f, rfl⟩
    | _ => cases h
  · rintro ⟨f, rfl⟩
    rfl

/-! ## Look-ups -/

namespace Graph

variable {g : Graph} {id : NodeId} {n m : Node} {old : Nat} {r : Replacement} {ns : List Node}

/-- Whether a node is a representation change. -/
def IsChange (g : Graph) (id : NodeId) : Prop :=
  ∃ n, g.node? id = some n ∧ n.op.isChange = true

theorem isClosed_of_verify (hVerify : g.verify = .ok ()) : g.isClosed = true := by
  refine isClosed_iff.mpr fun n hn x hx => ?_
  obtain ⟨i, hi⟩ := List.mem_iff_getElem?.mp hn
  have hNode : g.node? i = some n := node?_eq_some.mpr ⟨i, rfl, by simpa using hi⟩
  exact contains_iff.mpr (input_of_verify hVerify hNode hx)

theorem fitsArity_of_verify (hVerify : g.verify = .ok ()) (hn : g.node? id = some n) :
    n.fitsArity = true := by
  have hNone := violation?_eq_none hVerify hn
  unfold violation? at hNone
  unfold Node.fitsArity
  cases hArity : n.op.arity? with
  | none =>
    rw [hArity] at hNone
    cases hNone
  | some arity =>
    rw [hArity] at hNone
    simp only at hNone ⊢
    repeat' split at hNone
    all_goals try cases hNone
    next hInvalid hAdmits hAnchors _ _ =>
      simp only [Bool.not_eq_true', Bool.not_eq_false, not_and_or, not_or] at hAdmits hAnchors
      grind

/-- The numbers of a graph with more nodes. -/
theorem contains_append {x : NodeId} (hNonneg : (0 : Int) ≤ x)
    (hLt : ((g.size + ns.length : Nat) : Int) > x) : (g.append ns).contains x = true := by
  rw [contains_iff, size_append]
  exact ⟨hNonneg, hLt⟩

/-- A node of a closed graph has nodes for inputs. -/
theorem contains_input (hClosed : g.isClosed = true) (hn : g.node? id = some n) {x : NodeId}
    (hx : x ∈ n.inputs) : g.contains x = true := by
  obtain ⟨i, rfl, hi⟩ := node?_eq_some.mp hn
  exact isClosed_iff.mp hClosed n (Array.mem_toList_iff.mpr (Array.mem_of_getElem? hi)) x hx

theorem exists_node?_of_mem (hn : n ∈ g.nodes.toList) : ∃ i : Nat, g.node? i = some n := by
  obtain ⟨i, hi⟩ := List.mem_iff_getElem?.mp hn
  exact ⟨i, node?_eq_some.mpr ⟨i, rfl, by simpa using hi⟩⟩

theorem node?_replace_self (hOld : old < g.size) :
    (g.replace old r).node? old = some { op := .dead } := by
  refine node?_eq_some.mpr ⟨old, rfl, ?_⟩
  show ((g.nodes.map (·.redirect old r)).setIfInBounds old _)[old]? = _
  rw [Array.getElem?_setIfInBounds_self_of_lt]
  rw [Array.size_map]
  exact hOld

theorem node?_replace_of_ne (hNe : id ≠ old) :
    (g.replace old r).node? id = (g.node? id).map (·.rewire (r.move old)) := by
  unfold node?
  split
  · rfl
  · next hNeg =>
    have hDiffer : old ≠ id.toNat := by
      rintro rfl
      exact hNe (Int.toNat_of_nonneg (Int.not_lt.mp hNeg)).symm
    show ((g.nodes.map (·.redirect old r)).setIfInBounds old _)[id.toNat]? = _
    rw [Array.getElem?_setIfInBounds_ne hDiffer, Array.getElem?_map]
    rfl

end Graph

namespace Lowering

variable {l : Layout} {g : Graph} {i : Nat} {f : Change} {n : Node} {e : Entry}

/-! ## Where a fragment starts -/

/-- The edges of a change: one for the value, and at most one of each other kind. -/
theorem change_inputs (hOp : n.op = .change f) (hFits : n.fitsArity = true) (hCounted : n.Counted) :
    n.valueCount = 1 ∧ ((n.effectCount = 0 ∧ n.controlCount = 0 ∧ ∃ x, n.inputs = [x]) ∨
      (n.effectCount = 1 ∧ n.controlCount = 1 ∧ ∃ x y z, n.inputs = [x, y, z]) ∨
      (n.effectCount = 1 ∧ n.controlCount = 0 ∧ ∃ x y, n.inputs = [x, y]) ∨
      (n.effectCount = 0 ∧ n.controlCount = 1 ∧ ∃ x z, n.inputs = [x, z])) := by
  obtain ⟨-, hEffect, hControl, hSum⟩ := hCounted
  have hArity : n.op.arity? = some ⟨some 1, none, none⟩ := by
    rw [hOp]
    cases f <;> rfl
  unfold Node.fitsArity at hFits
  rw [hArity, hOp] at hFits
  simp only [Operator.isChange, Bool.true_and, Bool.and_eq_true, Bool.not_eq_true',
    Bool.or_eq_false_iff, decide_eq_false_iff_not, Int.not_lt] at hFits
  obtain ⟨⟨-, ⟨hAdmits, -⟩, -⟩, hEffectLe, hControlLe⟩ := hFits
  have hOne : n.valueCount = 1 := Arity.eq_of_admits hAdmits
  refine ⟨hOne, ?_⟩
  have hLength : (n.inputs.length : Int) = 1 + n.effectCount + n.controlCount := by omega
  -- By the number of inputs; with two of them the counts tell which kind the second one is.
  rcases hInputs : n.inputs with _ | ⟨x, _ | ⟨y, _ | ⟨z, _ | ⟨w, rest⟩⟩⟩⟩ <;> rw [hInputs] at hLength <;>
    simp only [List.length_cons, List.length_nil] at hLength
  · omega
  · exact .inl ⟨by omega, by omega, x, rfl⟩
  · rcases Int.lt_or_le 0 n.effectCount with hHas | hNone
    · exact .inr (.inr (.inl ⟨by omega, by omega, x, y, rfl⟩))
    · exact .inr (.inr (.inr ⟨by omega, by omega, x, y, rfl⟩))
  · exact .inr (.inl ⟨by omega, by omega, x, y, z, rfl⟩)
  · omega

/-- Where the fragment of a change starts: at the ends of its edges, or at the start of the graph
when the change is not anchored. -/
structure Enters (n : Node) (e : Entry) : Prop where
  valid : e.Valid
  value : (.value, e.value) ∈ n.edges
  input : n.input 0 = .ok e.value
  anchored : e.anchored = true ↔ n.controlCount ≠ 0
  effect : e.anchored = true → (.effect, e.effect) ∈ n.edges
  control : e.anchored = true → (.control, e.control) ∈ n.edges
  controlIn : n.controlIn = .ok (if e.anchored = true then e.control else -1)
  start : e.anchored = false → e.control = Graph.start

/-- The entry of a change whose inputs are found. -/
theorem entry_eq (hn : g.node? i = some n) (hValue : n.valueCount = 1) (hEffect : n.effectCount ≤ 1)
    (hControl : n.controlCount ≤ 1) {x y z : NodeId} (hx : n.input 0 = .ok x)
    (hy : n.effectIn = .ok y) (hz : n.controlIn = .ok z) :
    entry g i =
      if decide (y < 0) ≠ decide (z < 0) then .error (.malformed i n.op .halfAnchored)
      else .ok { value := x, effect := y, anchored := decide (0 ≤ z)
                 control := if z < 0 then Graph.start else z } := by
  have hNode : g.node i = .ok n := Graph.node_eq_ok.mpr hn
  have hCounts : ¬(n.valueCount ≠ 1 ∨ 1 < n.effectCount ∨ 1 < n.controlCount) := by omega
  unfold entry
  rw [hNode]
  simp only [ok_bind, if_neg hCounts, hx, hy, hz]
  split <;> rfl

theorem entry_cases (hn : g.node? i = some n) (hOp : n.op = .change f) (hFits : n.fitsArity = true)
    (hCounted : n.Counted) (hInputs : ∀ x ∈ n.inputs, 0 ≤ x) :
    (n.HalfAnchored ∧ entry g i = .error (.malformed i n.op .halfAnchored)) ∨
      (¬n.HalfAnchored ∧ ∃ e, entry g i = .ok e ∧ Enters n e) := by
  obtain ⟨hValue, hCases⟩ := change_inputs hOp hFits hCounted
  rcases hCases with ⟨hEffect, hControl, x, hEdges⟩ | ⟨hEffect, hControl, x, y, z, hEdges⟩ |
    ⟨hEffect, hControl, x, y, hEdges⟩ | ⟨hEffect, hControl, x, z, hEdges⟩
  · -- No anchors: the fragment starts at the start of the graph.
    have hEntry := entry_eq hn hValue (by omega) (by omega) (x := x) (y := -1) (z := -1)
      (by simp [Node.input, hEdges]) (by simp [Node.effectIn, hEffect])
      (by simp [Node.controlIn, hControl])
    have hOf : n.edges = [(.value, x)] := by
      simp [Node.edges, Node.edgeKind, hValue, hEdges]
    refine .inr ⟨by simp [Node.HalfAnchored, hEffect, hControl], _, hEntry, ?_⟩
    exact ⟨⟨Int.le_refl _, by simp⟩, by simp [hOf], by simp [Node.input, hEdges],
      by simp [hControl], by simp, by simp, by simp [Node.controlIn, hControl], fun _ => rfl⟩
  · -- Both anchors: it starts at them.
    have hy : 0 ≤ y := hInputs y (by simp [hEdges])
    have hz : 0 ≤ z := hInputs z (by simp [hEdges])
    have hEntry := entry_eq hn hValue (by omega) (by omega) (x := x) (y := y) (z := z)
      (by simp [Node.input, hEdges]) (by simp [Node.effectIn, Node.input, hValue, hEffect, hEdges])
      (by simp [Node.controlIn, Node.input, hValue, hEffect, hControl, hEdges])
    rw [if_neg (by simp [Int.not_lt.mpr hy, Int.not_lt.mpr hz]), if_neg (Int.not_lt.mpr hz),
      decide_eq_true hz] at hEntry
    have hOf : n.edges = [(.value, x), (.effect, y), (.control, z)] := by
      simp [Node.edges, Node.edgeKind, hValue, hEffect, hEdges]
    refine .inr ⟨by simp [Node.HalfAnchored, hEffect, hControl], _, hEntry, ?_⟩
    exact ⟨⟨hz, by simp [hy]⟩, by simp [hOf], by simp [Node.input, hEdges], by simp [hControl],
      by simp [hOf], by simp [hOf],
      by simp [Node.controlIn, Node.input, hValue, hEffect, hControl, hEdges],
      fun hFree => by cases hFree⟩
  · have hy : 0 ≤ y := hInputs y (by simp [hEdges])
    have hEntry := entry_eq hn hValue (by omega) (by omega) (x := x) (y := y) (z := -1)
      (by simp [Node.input, hEdges]) (by simp [Node.effectIn, Node.input, hValue, hEffect, hEdges])
      (by simp [Node.controlIn, hControl])
    rw [if_pos (by simp [hy])] at hEntry
    exact .inl ⟨by simp [Node.HalfAnchored, hEffect, hControl], hEntry⟩
  · have hz : 0 ≤ z := hInputs z (by simp [hEdges])
    have hEntry := entry_eq hn hValue (by omega) (by omega) (x := x) (y := -1) (z := z)
      (by simp [Node.input, hEdges]) (by simp [Node.effectIn, hEffect])
      (by simp [Node.controlIn, Node.input, hValue, hEffect, hControl, hEdges])
    rw [if_pos (by simp [hz])] at hEntry
    exact .inl ⟨by simp [Node.HalfAnchored, hEffect, hControl], hEntry⟩

/-! ## One round -/

/-- What a round of the pass does at a change: the nodes `ns` are added and `r` stands in place of
the change. -/
structure Round (l : Layout) (g : Graph) (i : Nat) (n : Node) (f : Change) (small : Bool)
    (e : Entry) (ns : List Node) (r : Graph.Replacement) : Prop where
  enters : Enters n e
  constant : f = .int32ToTagged → isSmallConstant l g e.value = .ok small
  adds : (fragment l f small e).run g = (r, g.append ns)
  suits : ∀ j m, ns[j]? = some m → Suits e (Forks l small f) g.size (g.size + j) m
  replaces : Replaces e g (g.append ns) r
  lowers : lowerNode l g i = .ok (some ((g.append ns).replace i r))

/-- Whether a node is a small constant depends on its operator and parameter. -/
theorem isSmallConstant_eq {x : NodeId} (hn : g.node? x = some n) :
    isSmallConstant l g x = .ok ((if n.op = .constant .int32 then some (BitVec.ofInt 32 n.int)
      else none).any fun v => l.isSmi v.toInt) := by
  have hNode : g.node x = .ok n := Graph.node_eq_ok.mpr hn
  unfold isSmallConstant Graph.int32
  rw [hNode]
  rfl

theorem Enters.contains {kind : EdgeKind} {x : NodeId} {here : Nat} {ns : List Node}
    (h : Enters n e) (hClosed : g.isClosed = true) (hn : g.node? i = some n)
    (hHere : here ≤ g.size + ns.length) (hEdge : Edge e g.size here kind x) :
    (g.append ns).contains x = true := by
  have hOld : ∀ {kind y}, (kind, y) ∈ n.edges → (g.append ns).contains y = true := by
    intro kind y hy
    have hIn := Graph.contains_input hClosed hn (Node.mem_inputs_iff.mpr ⟨kind, hy⟩)
    obtain ⟨hNonneg, hLt⟩ := Graph.contains_iff.mp hIn
    have hLt : (g.size : Int) > y := hLt
    exact Graph.contains_append hNonneg (by omega)
  -- an edge of the fragment goes to the fragment or to one of the change's own inputs
  cases hEdge with
  | added hFirst hBelow => exact Graph.contains_append (by omega) (by omega)
  | value => exact hOld h.value
  | effect hEffect => exact hOld (h.effect (h.valid.effect.mpr hEffect))
  | control =>
    cases hAnchored : e.anchored with
    | true => exact hOld (h.control hAnchored)
    | false =>
      have hLt : (g.size : Int) > (i : Int) := (Graph.node?_lt hn).2
      rw [h.start hAnchored]
      exact Graph.contains_append (Int.le_refl 0) (by show _ > (0 : Int); omega)

/-- A round fails at a change with one anchor of the two, and only there. -/
theorem lowerNode_cases (hClosed : g.isClosed = true) (hn : g.node? i = some n)
    (hOp : n.op = .change f) (hFits : n.fitsArity = true) (hCounted : n.Counted) :
    (n.HalfAnchored ∧ lowerNode l g i =
        .error ((Fault.malformed i n.op .halfAnchored).within s!"node {(i : NodeId)}")) ∨
      (¬n.HalfAnchored ∧ ∃ small e ns r, Round l g i n f small e ns r) := by
  have hInputs : ∀ x ∈ n.inputs, 0 ≤ x := fun x hx =>
    (Graph.contains_iff.mp (Graph.contains_input hClosed hn hx)).1
  rcases entry_cases hn hOp hFits hCounted hInputs with ⟨hHalf, hEntry⟩ | ⟨hWhole, e, hEntry, hEnters⟩
  · refine .inl ⟨hHalf, ?_⟩
    have hIs : g.op i = .ok (.change f) := Graph.op_eq_ok.mpr ⟨n, hn, hOp⟩
    unfold lowerNode reduce
    rw [hIs]
    simp only [ok_bind, hEntry]
    rfl
  · obtain ⟨hNonneg, hLt⟩ := Graph.contains_iff.mp
      (Graph.contains_input hClosed hn (Node.mem_inputs_iff.mpr ⟨_, hEnters.value⟩))
    obtain ⟨value, hValue⟩ := Graph.exists_node? hNonneg hLt
    obtain ⟨small, hSmall⟩ : ∃ small : Bool,
        (if f = .int32ToTagged then isSmallConstant l g e.value else pure false) = .ok small := by
      by_cases hf : f = .int32ToTagged
      · rw [if_pos hf]
        exact ⟨_, isSmallConstant_eq hValue⟩
      · rw [if_neg hf]
        exact ⟨false, rfl⟩
    obtain ⟨-, ⟨ns, hGraph, hSuits⟩, hReplaces⟩ :=
      fragment_builds (l := l) (g := g) hEnters.valid f small
    rw [hGraph] at hReplaces
    -- The nodes of the fragment lead to each other and to where the change leads.
    have hStays : (g.append ns).isClosed = true := by
      refine Graph.isClosed_iff.mpr fun m hm x hx => ?_
      obtain ⟨k, hk⟩ := Graph.exists_node?_of_mem hm
      obtain ⟨kind, hx⟩ := Node.mem_inputs_iff.mp hx
      rcases Graph.node?_append_cases hk with hOld | ⟨j, -, hj⟩
      · have hIn := Graph.contains_input hClosed hOld (Node.mem_inputs_iff.mpr ⟨kind, hx⟩)
        obtain ⟨hNonneg, hLt⟩ := Graph.contains_iff.mp hIn
        have hLt : (g.size : Int) > x := hLt
        exact Graph.contains_append hNonneg (by omega)
      · have hLt := (List.getElem?_eq_some_iff.mp hj).1
        exact hEnters.contains hClosed hn (by omega) ((hSuits j m hj).edges.mem hx)
    have hId : i < (g.append ns).size := by
      have hLt : (g.size : Int) > (i : Int) := (Graph.node?_lt hn).2
      rw [Graph.size_append]
      omega
    have hLowers := lowerNode_change hn hOp hEntry hSmall (hGraph ▸ hStays) (hGraph ▸ hId)
    rw [hGraph] at hLowers
    refine .inr ⟨hWhole, small, e, ns, _, hEnters, fun hf => ?_, Prod.ext rfl hGraph, hSuits,
      hReplaces, hLowers⟩
    rwa [if_pos hf] at hSmall

namespace Round

variable {small : Bool} {ns : List Node} {r : Graph.Replacement} {w y : NodeId} {m : Node}
  {kind : EdgeKind}

/-- The nodes after a round: the change is dead and the others are rewired. -/
theorem node?_cases (hi : i < g.size) (hm : ((g.append ns).replace i r).node? w = some m) :
    (w = i ∧ m = { op := .dead }) ∨ (w ≠ i ∧ ∃ m₀, m = m₀.rewire (r.move i) ∧
      (g.node? w = some m₀ ∨ ∃ j : Nat, w = ((g.size + j : Nat) : Int) ∧ ns[j]? = some m₀)) := by
  by_cases hw : w = i
  · have hSize : i < (g.append ns).size := by
      rw [Graph.size_append]
      omega
    rw [hw, Graph.node?_replace_self hSize] at hm
    cases hm
    exact .inl ⟨hw, rfl⟩
  · rw [Graph.node?_replace_of_ne hw] at hm
    obtain ⟨m₀, hm₀, rfl⟩ := Option.map_eq_some_iff.mp hm
    exact .inr ⟨hw, m₀, rfl, Graph.node?_append_cases hm₀⟩

/-- The edges after a round: those of before and those of the fragment, rewired. -/
theorem edge_cases (h : Round l g i n f small e ns r) (hi : i < g.size)
    (hm : ((g.append ns).replace i r).node? w = some m) (hEdge : (kind, y) ∈ m.edges) :
    ∃ x, r.move i kind x = y ∧ w ≠ i ∧ ((∃ m₀, g.node? w = some m₀ ∧ (kind, x) ∈ m₀.edges) ∨
      ∃ j : Nat, w = ((g.size + j : Nat) : Int) ∧ j < ns.length ∧
        Edge e g.size (g.size + j) kind x) := by
  rcases node?_cases hi hm with ⟨-, rfl⟩ | ⟨hw, m₀, rfl, hm₀⟩
  · cases hEdge
  · obtain ⟨x, hx, rfl⟩ := Node.mem_edges_rewire hEdge
    refine ⟨x, rfl, hw, ?_⟩
    rcases hm₀ with hOld | ⟨j, hj, hNew⟩
    · exact .inl ⟨m₀, hOld, hx⟩
    · exact .inr ⟨j, hj, (List.getElem?_eq_some_iff.mp hNew).1, (h.suits j m₀ hNew).edges.mem hx⟩

/-- Where the edges to the change lead: into the fragment or to where it starts, along an edge of
the same kind. Only effect and control edges to a change that is not anchored stay. -/
theorem target_cases (h : Round l g i n f small e ns r) (kind : EdgeKind) :
    Edge e g.size (g.append ns).size kind (r.target i kind) ∨
      (e.anchored = false ∧ kind ≠ .value ∧ r.target i kind = i) := by
  -- effect and control are led on in the same way, or are left alone where the change floats
  have hLed : ∀ {new : NodeId}, Edge e g.size (g.append ns).size kind new ∨
      (e.anchored = false ∧ new < 0) → kind ≠ .value → (if 0 ≤ new then new else (i : NodeId)) =
        r.target i kind → Edge e g.size (g.append ns).size kind (r.target i kind) ∨
      (e.anchored = false ∧ kind ≠ .value ∧ r.target i kind = i) := by
    rintro new (hEdge | ⟨hFree, hNone⟩) hKind hTarget
    · rw [if_pos (hEdge.nonneg h.enters.valid hKind)] at hTarget
      exact .inl (hTarget ▸ hEdge)
    · rw [if_neg (Int.not_le.mpr hNone)] at hTarget
      exact .inr ⟨hFree, hKind, hTarget.symm⟩
  cases kind with
  | value =>
    have hTarget : r.target i .value = r.value := if_pos h.replaces.value.1.nonneg
    rw [hTarget]
    exact .inl (h.replaces.value.1.edge (Nat.le_refl _))
  | effect => exact hLed h.replaces.effect nofun rfl
  | control => exact hLed h.replaces.control nofun rfl

theorem contains_move (h : Round l g i n f small e ns r) (kind : EdgeKind)
    (hClosed : g.isClosed = true) (hn : g.node? i = some n) {x : NodeId}
    (hx : (g.append ns).contains x = true) :
    (g.append ns).contains (r.move i kind x) = true := by
  unfold Graph.Replacement.move
  split
  · next hIs =>
    rcases h.target_cases kind with hEdge | ⟨-, -, hStays⟩
    · exact h.enters.contains hClosed hn (by rw [Graph.size_append]) hEdge
    · rw [hStays, ← hIs]
      exact hx
  · exact hx

end Round

end Lowering
end ArmBackend
