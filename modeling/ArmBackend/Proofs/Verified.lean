import ArmBackend.Graph.Verify
import ArmBackend.Proofs.Outcome

/-!
# Nodes of a verified graph

What a look-up in the arena finds, and what is known about every node once the graph verifies: an
assigned operator, as many inputs of each kind as the operator takes, and inputs that name nodes.

## Results

* `Graph.violation?_eq_none` — verification finds nothing wrong with any node.
* `Graph.arity_of_verify`, `Graph.valueCount_of_verify` — the counts are those of the operator.
* `Graph.input_of_verify` — every input names a node.
-/

namespace ArmBackend

theorem Arity.eq_of_admits {k : Nat} {count : Int} (h : Arity.admits (some k) count = true) :
    count = k := by
  have hEq : (k : Int) = count := by simpa [Arity.admits] using h
  exact hEq.symm

namespace Graph

variable {g : Graph} {id : NodeId} {n : Node}

/-- Whether a node has an operator. -/
def HasOp (g : Graph) (id : NodeId) (op : Operator) : Prop :=
  ∃ n, g.node? id = some n ∧ n.op = op

/-! ## Look-ups -/

theorem node_eq_ok : g.node id = .ok n ↔ g.node? id = some n := by
  unfold node
  split <;> simp_all

theorem op_eq_ok {op : Operator} : g.op id = .ok op ↔ g.HasOp id op := by
  unfold Graph.op HasOp
  split <;> simp_all

theorem HasOp.unique {a b : Operator} (ha : g.HasOp id a) (hb : g.HasOp id b) : a = b := by
  obtain ⟨n, hn, rfl⟩ := ha
  obtain ⟨m, hm, rfl⟩ := hb
  rw [hn] at hm
  rw [Option.some.inj hm]

/-- The nodes of the arena are those at the positions of the array. -/
theorem node?_eq_some : g.node? id = some n ↔ ∃ i : Nat, id = i ∧ g.nodes[i]? = some n := by
  unfold node?
  constructor
  · intro h
    split at h
    · cases h
    · next hNeg => exact ⟨id.toNat, (Int.toNat_of_nonneg (Int.not_lt.mp hNeg)).symm, h⟩
  · rintro ⟨i, rfl, hi⟩
    rw [if_neg (Int.not_lt.mpr (Int.natCast_nonneg i))]
    exact hi

theorem node?_lt (h : g.node? id = some n) : 0 ≤ id ∧ id < g.size := by
  obtain ⟨i, rfl, hi⟩ := node?_eq_some.mp h
  have hLt := (Array.getElem?_eq_some_iff.mp hi).1
  exact ⟨Int.natCast_nonneg i, Int.ofNat_lt.mpr hLt⟩

theorem exists_node? (h0 : 0 ≤ id) (hLt : id < g.size) : ∃ n, g.node? id = some n := by
  obtain ⟨i, rfl⟩ := Int.eq_ofNat_of_zero_le h0
  have hi : i < g.nodes.size := Int.ofNat_lt.mp hLt
  exact ⟨g.nodes[i], node?_eq_some.mpr ⟨i, rfl, Array.getElem?_eq_getElem hi⟩⟩

/-- The numbered nodes of the arena. -/
theorem mem_zipIdx {i : Nat} : (n, i) ∈ g.nodes.toList.zipIdx ↔ g.node? i = some n := by
  rw [List.mem_zipIdx_iff_getElem?, node?_eq_some]
  constructor
  · intro h
    exact ⟨i, rfl, by simpa using h⟩
  · rintro ⟨j, hj, h⟩
    obtain rfl : i = j := Int.ofNat_inj.mp hj
    simpa using h

/-! ## Verification -/

theorem violation?_eq_none (hVerify : g.verify = .ok ()) (hn : g.node? id = some n) :
    g.violation? id n = none := by
  obtain ⟨i, rfl, -⟩ := node?_eq_some.mp hn
  unfold verify at hVerify
  split at hVerify
  · cases hVerify
  · next hNone =>
    exact List.findSome?_eq_none_iff.mp hNone (n, i) (mem_zipIdx.mpr hn)

/-- The rules that a node of a verified graph keeps. -/
theorem arity_of_verify (hVerify : g.verify = .ok ()) (hn : g.node? id = some n) :
    ∃ arity, n.op.arity? = some arity ∧ n.op ≠ .invalid ∧
      Arity.admits arity.value n.valueCount ∧ Arity.admits arity.effect n.effectCount ∧
      Arity.admits arity.control n.controlCount := by
  have hNone := violation?_eq_none hVerify hn
  unfold violation? at hNone
  -- the checks one by one: an arity, a valid operator, and the three counts
  split at hNone
  · cases hNone
  · next arity hArity =>
    split at hNone
    · cases hNone
    · next hInvalid =>
      split at hNone
      · cases hNone
      · next hCounts =>
        simp only [Bool.not_eq_true', Bool.not_eq_false, Bool.and_eq_true] at hCounts
        exact ⟨arity, hArity, hInvalid, hCounts.1.1, hCounts.1.2, hCounts.2⟩

/-- A node has as many value inputs as its operator takes. -/
theorem valueCount_of_verify (hVerify : g.verify = .ok ()) (hn : g.node? id = some n) {k : Nat}
    (hk : n.op.arity?.bind Arity.value = some k) : n.valueCount = k := by
  obtain ⟨arity, hArity, -, hValue, -⟩ := arity_of_verify hVerify hn
  rw [hArity, Option.bind_some] at hk
  rw [hk] at hValue
  exact Arity.eq_of_admits hValue

theorem valueCount_of_op (hVerify : g.verify = .ok ()) {op : Operator} (hOp : g.HasOp id op)
    (hn : g.node id = .ok n) {k : Nat} (hk : op.arity?.bind Arity.value = some k) :
    n.valueCount = k := by
  have hNode := node_eq_ok.mp hn
  obtain ⟨m, hm, rfl⟩ := hOp
  rw [hm] at hNode
  cases hNode
  exact valueCount_of_verify hVerify hm hk

theorem input_of_verify (hVerify : g.verify = .ok ()) (hn : g.node? id = some n) {x : NodeId}
    (hx : x ∈ n.inputs) : 0 ≤ x ∧ x < g.size := by
  have hNone := violation?_eq_none hVerify hn
  unfold violation? at hNone
  repeat' split at hNone
  all_goals try cases hNone
  next hFind =>
    have hRange := List.find?_eq_none.mp hFind x hx
    simp only [decide_eq_true_eq, not_or, Int.not_lt, Int.not_le] at hRange
    exact hRange

/-- A graph that does not verify is malformed. -/
theorem verify_fault {f : Fault} (h : g.verify = .error f) : f.isMalformed = true := by
  unfold verify at h
  split at h <;> cases h
  rfl

end Graph
end ArmBackend
