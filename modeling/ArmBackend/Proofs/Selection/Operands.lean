import ArmBackend.Proofs.Verified
import ArmBackend.Selection.Word

/-!
# Operands of a node

What the matchers of selection hand out, said about the graph alone. `Graph.Feeds g w u` holds when
`u` is a value input of `w`; every operand that a matcher names is one. `Graph.Carries g u x` names
the node `x` whose register holds the value of `u`: the end of a region passes its value on, and
projection 0 of an operation with overflow is the operation itself.

## Results

* `binary_feeds`, `complementOf?_feeds`, `shiftedField?_feeds` — matched operands are value inputs.
* `carrier_carries`, `Carries.unique` — selection finds the carrier, and there is only one.
-/

namespace ArmBackend

/-- The value inputs of a node. -/
def Node.values (n : Node) : List NodeId :=
  n.inputs.take n.valueCount.toNat

/-- An input in front of the effects is a value input. -/
theorem Node.mem_values {n : Node} {k : Int} {u : NodeId} (h : n.input k = .ok u)
    (hk : k < n.valueCount) : u ∈ n.values := by
  unfold Node.input at h
  split at h
  · cases h
  · split at h
    · next x hx =>
      cases h
      have hTake : (n.inputs.take n.valueCount.toNat)[k.toNat]? = some u := by
        rw [List.getElem?_take_of_lt (by omega)]
        exact hx
      exact List.mem_of_getElem? hTake
    · cases h

theorem Node.valueInputs_eq_ok {n : Node} {l : List NodeId} (h : n.valueInputs = .ok l) :
    l = n.values := by
  unfold valueInputs inputsBetween at h
  split at h
  · cases h
    rfl
  · cases h

namespace Graph

variable {g : Graph} {id u x : NodeId} {n : Node}

/-- Whether `u` is a value input of `w`. -/
def Feeds (g : Graph) (w u : NodeId) : Prop :=
  ∃ n, g.node? w = some n ∧ u ∈ n.values

/-! ## Matchers -/

theorem feeds_of_input {k : Int} (hn : g.node id = .ok n) (h : n.input k = .ok u)
    (hk : k < n.valueCount) : g.Feeds id u :=
  ⟨n, node_eq_ok.mp hn, Node.mem_values h hk⟩

/-- The first input of a verified node that takes one value is a value input. -/
theorem feeds_of_verify (hVerify : g.verify = .ok ()) (hn : g.node? id = some n)
    (hOne : n.op.arity?.bind Arity.value = some 1) (hu : n.input 0 = .ok u) : g.Feeds id u := by
  refine ⟨n, hn, Node.mem_values hu ?_⟩
  rw [valueCount_of_verify hVerify hn hOne]
  decide

theorem valueIn_eq_ok {k : Int} (h : g.valueIn id k = .ok u) :
    ∃ n, g.node id = .ok n ∧ n.input k = .ok u ∧ k < n.valueCount := by
  unfold valueIn at h
  simp only [bind_eq_ok, check_eq_ok] at h
  obtain ⟨n, hn, hk, hu⟩ := h
  exact ⟨n, hn, hu, Int.not_le.mp hk⟩

theorem valueIn_feeds {k : Int} (h : g.valueIn id k = .ok u) : g.Feeds id u := by
  obtain ⟨n, hn, hu, hk⟩ := valueIn_eq_ok h
  exact feeds_of_input hn hu hk

theorem int32_eq_ok {m : Int32Match} (h : g.int32 id = .ok m) :
    m.id = id ∧ g.HasOp id m.op := by
  unfold Graph.int32 at h
  simp only [bind_eq_ok, pure_eq_ok] at h
  obtain ⟨n, hn, rfl⟩ := h
  exact ⟨rfl, n, node_eq_ok.mp hn, rfl⟩

/-- Both operands of a binary node are value inputs, each matched with its own operator. -/
theorem binary_feeds {m : BinaryMatch} (h : g.binary id = .ok m) :
    (g.Feeds id m.left.id ∧ g.HasOp m.left.id m.left.op) ∧
      (g.Feeds id m.right.id ∧ g.HasOp m.right.id m.right.op) := by
  unfold Graph.binary at h
  simp only [bind_eq_ok, check_eq_ok] at h
  obtain ⟨n, hn, hCount, a, ha, l, hl, b, hb, r, hr, -, h⟩ := h
  obtain ⟨rfl, hlOp⟩ := int32_eq_ok hl
  obtain ⟨rfl, hrOp⟩ := int32_eq_ok hr
  have hLeft := feeds_of_input hn ha (by omega)
  have hRight := feeds_of_input hn hb (by omega)
  split at h
  · cases pure_eq_ok.mp h
    exact ⟨⟨hRight, hrOp⟩, hLeft, hlOp⟩
  · cases pure_eq_ok.mp h
    exact ⟨⟨hLeft, hlOp⟩, hRight, hrOp⟩

/-- The operand of a complement is a value input of it, and a complement is an exclusive or. -/
theorem complementOf?_feeds (h : g.complementOf? id = .ok (some u)) :
    g.HasOp id (.word32 .xor) ∧ g.Feeds id u := by
  unfold complementOf? at h
  simp only [bind_eq_ok] at h
  obtain ⟨op, hOp, h⟩ := h
  split at h
  · cases pure_eq_ok.mp h
  · next hXor =>
    obtain ⟨m, hm, h⟩ := bind_eq_ok.mp h
    have hSome := pure_eq_ok.mp h
    split at hSome
    · cases hSome
      rw [Decidable.not_not.mp hXor] at hOp
      exact ⟨op_eq_ok.mp hOp, (binary_feeds hm).1.1⟩
    · cases hSome

theorem shiftedField?_feeds {lsb width : Nat}
    (h : Selection.shiftedField? g id lsb = .ok (some (u, width))) : g.Feeds id u := by
  unfold Selection.shiftedField? at h
  simp only [bind_eq_ok] at h
  obtain ⟨m, hm, h⟩ := h
  split at h
  · cases pure_eq_ok.mp h
  · have hSome := pure_eq_ok.mp h
    split at hSome
    · cases hSome
      exact (binary_feeds hm).1.1
    · cases hSome

/-! ## Carriers -/

/-- Whether the register of `x` holds the value of a node. -/
inductive Carries (g : Graph) : NodeId → NodeId → Prop
  | own {x : NodeId} {n : Node} (hn : g.node? x = some n) (hFinish : n.op ≠ .finish)
      (hProjection : n.op = .projection → n.int = 0 → ∀ y op, n.input 0 = .ok y →
        g.HasOp y op → op.hasOverflow = false) : Carries g x x
  | finish {u y x : NodeId} {n : Node} (hn : g.node? u = some n) (hOp : n.op = .finish)
      (hy : n.input 0 = .ok y) (hx : Carries g y x) : Carries g u x
  | projection {u x : NodeId} {n : Node} {op : Operator} (hn : g.node? u = some n)
      (hOp : n.op = .projection) (hInt : n.int = 0) (hx : n.input 0 = .ok x)
      (hxOp : g.HasOp x op) (hOverflow : op.hasOverflow = true) : Carries g u x

theorem Carries.unique {y : NodeId} (hx : g.Carries u x) (hy : g.Carries u y) : x = y := by
  induction hx with
  | own hn hFinish hProjection =>
    cases hy with
    | own => rfl
    | finish hn' hOp => simp_all
    | projection hn' hOp hInt hx hxOp hOverflow =>
      rw [hn] at hn'
      cases hn'
      -- an own value is no projection of an overflow operator: the two rules exclude one another
      rw [hProjection hOp hInt _ _ hx hxOp] at hOverflow
      cases hOverflow
  | finish hn hOp hIn hx ih =>
    cases hy with
    | own hn' hFinish => simp_all
    | finish hn' hOp' hIn' hy =>
      rw [hn] at hn'
      cases hn'
      rw [hIn] at hIn'
      cases hIn'
      exact ih hy
    | projection hn' hOp' => simp_all
  | projection hn hOp hInt hx hxOp hOverflow =>
    cases hy with
    | own hn' hFinish hProjection =>
      rw [hn] at hn'
      cases hn'
      rw [hProjection hOp hInt _ _ hx hxOp] at hOverflow
      cases hOverflow
    | finish hn' hOp' => simp_all
    | projection hn' hOp' hInt' hx' => simp_all

/-- A node that is not the end of a region and no projection carries its own value. -/
theorem Carries.of_op {op : Operator} (h : g.HasOp x op) (hFinish : op ≠ .finish)
    (hProjection : op ≠ .projection) : g.Carries x x := by
  obtain ⟨n, hn, rfl⟩ := h
  exact .own hn hFinish fun hOp => absurd hOp hProjection

theorem carrier_carries {fuel : Nat} (h : Selection.carrier g fuel u = .ok x) :
    g.Carries u x := by
  induction fuel generalizing u with
  | zero => cases h
  | succ fuel ih =>
    unfold Selection.carrier at h
    obtain ⟨n, hn, h⟩ := bind_eq_ok.mp h
    have hn := node_eq_ok.mp hn
    split at h
    · next hOp =>
      obtain ⟨y, hy, h⟩ := bind_eq_ok.mp h
      exact .finish hn hOp hy (ih h)
    · next hOp =>
      obtain ⟨y, hy, h⟩ := bind_eq_ok.mp h
      obtain ⟨op, hyOp, h⟩ := bind_eq_ok.mp h
      have hyOp := op_eq_ok.mp hyOp
      split at h
      · next hBoth =>
        -- projection zero of an overflow operator is that operator's value
        simp only [Bool.and_eq_true, decide_eq_true_eq] at hBoth
        cases pure_eq_ok.mp h
        exact .projection hn hOp hBoth.2 hy hyOp hBoth.1
      · next hBoth =>
        cases pure_eq_ok.mp h
        refine .own hn (by simp [hOp]) ?_
        -- any other projection stands for itself
        intro _ hInt y' op' hy' hOp'
        cases hy.symm.trans hy'
        cases hyOp.unique hOp'
        simpa [hInt] using hBoth
    · next hFinish hProjection =>
      cases pure_eq_ok.mp h
      exact .own hn hFinish fun hOp => absurd hOp hProjection

end Graph
end ArmBackend
