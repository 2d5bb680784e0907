import ArmBackend.Graph.Matching
import ArmBackend.Proofs.Cycles
import ArmBackend.Proofs.Lowering.Round

/-!
# Exchanged operands

Two graphs that differ in nothing but the order of the two operands of one commutative node. Almost
all that can be asked about a graph has the same answer in both: which operators and constants there
are, which nodes use a node, what the other nodes are made of. Only the match of the node itself may
be the other way round, and it is not when just one of the operands is a constant.

`Exchanged` is a relation between the two graphs that looks the same from both sides, so whatever is
proved of it holds for either order.

## Results

* `Exchanged.symm` — exchanging the operands again leads back.
* `Exchanged.binary_cases` — the two matches of a node.
* `Exchanged.right_value` — the constant on the right is the same.
* `Exchanged.users`, `Exchanged.findProjection` — the users of a node.
* `Exchanged.wellFormed` — the other graph is well formed too.
-/

namespace ArmBackend

namespace Graph

/-- The graph with the first two inputs of a node exchanged. -/
def exchange (g : Graph) (x : NodeId) : Graph :=
  { g with nodes := g.nodes.modify x.toNat fun n =>
      match n.inputs with
      | l :: r :: rest => { n with inputs := r :: l :: rest }
      | _ => n }

/-- Whether two graphs differ in the order of the operands of a commutative node, and in nothing
else, where not both operands are 32 bit constants. -/
structure Exchanged (g g' : Graph) (x l r : NodeId) : Prop where
  size : g'.size = g.size
  exit : g'.exit = g.exit
  other : ∀ y, y ≠ x → g'.node? y = g.node? y
  here : ∃ n rest, g.node? x = some n ∧ n.inputs = l :: r :: rest ∧ n.valueCount = 2 ∧
    n.op.isCommutative = true ∧ g'.node? x = some { n with inputs := r :: l :: rest }
  single : ¬(g.HasOp l (.constant .int32) ∧ g.HasOp r (.constant .int32))

variable {g g' : Graph} {x l r y : NodeId} {n : Node}

/-- Exchanging the operands of a node gives such a graph. -/
theorem exchanged_exchange (hn : g.node? x = some n) {rest : List NodeId}
    (hInputs : n.inputs = l :: r :: rest) (hCount : n.valueCount = 2)
    (hCommutative : n.op.isCommutative = true)
    (hSingle : ¬(g.HasOp l (.constant .int32) ∧ g.HasOp r (.constant .int32))) :
    g.Exchanged (g.exchange x) x l r := by
  obtain ⟨i, rfl, hi⟩ := node?_eq_some.mp hn
  refine ⟨Array.size_modify, rfl, ?_, ⟨n, rest, hn, hInputs, hCount, hCommutative, ?_⟩, hSingle⟩
  · intro y hy
    unfold node? exchange
    split
    · rfl
    · next hNonneg =>
      -- the other nodes are read as before
      have hApart : i ≠ y.toNat := by
        rintro rfl
        exact hy (Int.toNat_of_nonneg (Int.not_lt.mp hNonneg)).symm
      rw [Int.toNat_natCast, Array.getElem?_modify, if_neg hApart]
  · refine node?_eq_some.mpr ⟨i, rfl, ?_⟩
    show (g.nodes.modify (i : Int).toNat _)[i]? = _
    rw [Int.toNat_natCast, Array.getElem?_modify, if_pos rfl, hi, Option.map_some, hInputs]

namespace Exchanged

/-! ## Nodes -/

/-- A node has the same operator and the same parameters in both graphs, and the same inputs up to
their order. -/
theorem node? (h : g.Exchanged g' x l r) (hn : g.node? y = some n) :
    ∃ inputs, g'.node? y = some { n with inputs } ∧ inputs.Perm n.inputs := by
  -- Only the node itself is another one, and its inputs are exchanged.
  by_cases hy : y = x
  · obtain ⟨m, rest, hm, hInputs, -, -, hm'⟩ := h.here
    rw [hy, hm] at hn
    cases hn
    refine ⟨_, hy ▸ hm', ?_⟩
    rw [hInputs]
    exact List.Perm.swap l r rest
  · refine ⟨n.inputs, ?_, .refl _⟩
    rw [h.other y hy, hn]

/-- A node that is not in one of the graphs is not in the other. -/
theorem node?_none (h : g.Exchanged g' x l r) (hn : g.node? y = none) : g'.node? y = none := by
  have hy : y ≠ x := by
    rintro rfl
    obtain ⟨m, -, hm, -⟩ := h.here
    cases hn.symm.trans hm
  rw [h.other y hy, hn]

/-- The operators are the same. -/
theorem op (h : g.Exchanged g' x l r) (y : NodeId) : g'.op y = g.op y := by
  unfold Graph.op
  cases hn : g.node? y with
  | none => rw [h.node?_none hn]
  | some n =>
    obtain ⟨inputs, hn', -⟩ := h.node? hn
    rw [hn']

/-- So it is with the operator of a given node. -/
theorem hasOp (h : g.Exchanged g' x l r) {op : Operator} : g'.HasOp y op ↔ g.HasOp y op := by
  rw [← op_eq_ok, ← op_eq_ok, h.op]

/-- Exchanging the operands again leads back. -/
theorem symm (h : g.Exchanged g' x l r) : g'.Exchanged g x r l := by
  obtain ⟨n, rest, hn, hInputs, hCount, hCommutative, hn'⟩ := h.here
  refine ⟨h.size.symm, h.exit.symm, fun y hy => (h.other y hy).symm,
    ⟨_, rest, hn', rfl, hCount, hCommutative, ?_⟩, ?_⟩
  · rw [hn, ← hInputs]
  · rw [h.hasOp, h.hasOp, and_comm]
    exact h.single

/-- Constants match alike. -/
theorem int32 (h : g.Exchanged g' x l r) (y : NodeId) : g'.int32 y = g.int32 y := by
  unfold Graph.int32 Graph.node
  cases hn : g.node? y with
  | none =>
    rw [h.node?_none hn]
  | some n =>
    obtain ⟨inputs, hn', -⟩ := h.node? hn
    rw [hn']
    rfl

/-- An operator that is not commutative is not that of the node. -/
theorem ne_of_op {op : Operator} (h : g.Exchanged g' x l r) (hOp : g.HasOp y op)
    (hNot : op.isCommutative = false) : y ≠ x := by
  rintro rfl
  obtain ⟨m, -, hm, -, -, hCommutative, -⟩ := h.here
  rw [hOp.unique ⟨m, hm, rfl⟩, hCommutative] at hNot
  cases hNot

/-- The other nodes are the same. -/
theorem node (h : g.Exchanged g' x l r) (hy : y ≠ x) : g'.node y = g.node y := by
  unfold Graph.node
  rw [h.other y hy]

/-- So are their value inputs. -/
theorem valueIn (h : g.Exchanged g' x l r) (hy : y ≠ x) (k : Int) :
    g'.valueIn y k = g.valueIn y k := by
  unfold Graph.valueIn
  rw [h.node hy]

/-! ## Matches -/

/-- So are their matches as binary operations. -/
theorem binary_other (h : g.Exchanged g' x l r) (hy : y ≠ x) : g'.binary y = g.binary y := by
  unfold Graph.binary
  rw [h.node hy]
  refine bind_congr_ok fun n _ => ?_
  simp only [h.int32]

/-- The match of two operands: a constant is taken as the right one. -/
def arrange (x : NodeId) (left right : Int32Match) : BinaryMatch :=
  if left.value?.isSome && right.value?.isNone then { node := x, left := right, right := left }
  else { node := x, left, right }

/-- The match of the node puts a constant on the right, from wherever it comes. -/
theorem binary_here (h : g.Exchanged g' x l r) : g.binary x = (do
    let left ← g.int32 l
    let right ← g.int32 r
    return arrange x left right) := by
  obtain ⟨n, rest, hn, hInputs, hCount, hCommutative, -⟩ := h.here
  have hFirst : n.input 0 = .ok l := by simp [Node.input, hInputs]
  have hSecond : n.input 1 = .ok r := by simp [Node.input, hInputs]
  have hAssigned : ¬n.op.isAssigned = false := by
    intro hNone
    cases hOp : n.op <;> rw [hOp] at hNone hCommutative <;> cases hNone
    cases hCommutative
  -- The node has two value inputs and is commutative, so only the constants are left to decide.
  unfold Graph.binary arrange
  rw [node_eq_ok.mpr hn, ok_bind, if_neg (by omega), hFirst, ok_bind]
  refine bind_congr_ok fun left _ => ?_
  rw [hSecond, ok_bind]
  refine bind_congr_ok fun right _ => ?_
  rw [if_neg hAssigned, hCommutative, Bool.true_and]
  split <;> rfl

/-- The node has a match in both graphs or in neither. -/
theorem binary_ok (h : g.Exchanged g' x l r) {m : BinaryMatch} (hm : g.binary x = .ok m) :
    ∃ m', g'.binary x = .ok m' := by
  rw [h.binary_here] at hm
  obtain ⟨a, ha, hm⟩ := bind_eq_ok.mp hm
  obtain ⟨b, hb, -⟩ := bind_eq_ok.mp hm
  rw [h.symm.binary_here, h.int32, h.int32, hb, ha]
  exact ⟨_, rfl⟩

/-- A node matches in both graphs or in neither. -/
theorem binary_ok_iff (h : g.Exchanged g' x l r) :
    (∃ m, g.binary y = .ok m) ↔ ∃ m, g'.binary y = .ok m := by
  by_cases hy : y = x
  · subst hy
    constructor
    · rintro ⟨m, hm⟩
      exact h.binary_ok hm
    · rintro ⟨m, hm⟩
      exact h.symm.binary_ok hm
  · rw [h.binary_other hy]

/-- An operand with a value is a constant. -/
theorem hasOp_of_value {m : Int32Match} {v : BitVec 32} (hm : g.int32 y = .ok m)
    (hv : m.value? = some v) : g.HasOp y (.constant .int32) := by
  unfold Graph.int32 at hm
  obtain ⟨n, hn, hm⟩ := bind_eq_ok.mp hm
  cases pure_eq_ok.mp hm
  exact ⟨n, node_eq_ok.mp hn, (Option.ite_none_right_eq_some.mp hv).1⟩

/-- A node has the same match in both graphs, or it is the one whose operands are exchanged, neither
of them is a constant, and each match is the other one the other way round. -/
theorem binary_cases (h : g.Exchanged g' x l r) {m m' : BinaryMatch} (hm : g.binary y = .ok m)
    (hm' : g'.binary y = .ok m') :
    m' = m ∨ y = x ∧ m.left.value? = none ∧ m.right.value? = none ∧
      m' = { m with left := m.right, right := m.left } := by
  by_cases hy : y ≠ x
  · rw [h.binary_other hy, hm] at hm'
    exact .inl (Except.ok.inj hm').symm
  obtain rfl := Decidable.not_not.mp hy
  rw [h.binary_here] at hm
  obtain ⟨a, ha, hm⟩ := bind_eq_ok.mp hm
  obtain ⟨b, hb, hm⟩ := bind_eq_ok.mp hm
  rw [h.symm.binary_here, h.int32, h.int32, hb, ha] at hm'
  cases hm'
  cases hm
  unfold arrange
  -- One constant goes to the right from either side, and two are excluded.
  cases hLeft : a.value? with
  | none =>
    cases hRight : b.value? with
    | none => exact .inr ⟨rfl, hLeft, hRight, rfl⟩
    | some w => exact .inl rfl
  | some v =>
    cases hRight : b.value? with
    | none => exact .inl rfl
    | some w => exact absurd ⟨hasOp_of_value ha hLeft, hasOp_of_value hb hRight⟩ h.single

/-- The constant on the right is the same one, or there is none in either graph. -/
theorem right_value (h : g.Exchanged g' x l r) {m m' : BinaryMatch} (hm : g.binary y = .ok m)
    (hm' : g'.binary y = .ok m') : m'.right.value? = m.right.value? := by
  rcases h.binary_cases hm hm' with rfl | ⟨-, hLeft, hRight, rfl⟩
  · rfl
  · exact hLeft.trans hRight.symm

/-- A given constant is on the right in both graphs or in neither. -/
theorem right_isConst (h : g.Exchanged g' x l r) {m m' : BinaryMatch} (hm : g.binary y = .ok m)
    (hm' : g'.binary y = .ok m') (v : BitVec 32) : m'.right.isConst v = m.right.isConst v := by
  unfold Int32Match.isConst
  rw [h.right_value hm hm']

/-- A match with a constant on the right is the same in both graphs. -/
theorem binary_of_isConst (h : g.Exchanged g' x l r) {m m' : BinaryMatch} (hm : g.binary y = .ok m)
    (hm' : g'.binary y = .ok m') {v : BitVec 32} (hv : m.right.isConst v = true) : m' = m := by
  rcases h.binary_cases hm hm' with hSame | ⟨-, -, hRight, -⟩
  · exact hSame
  · rw [eq_of_beq hv] at hRight
    cases hRight

/-- A complement is one in both graphs, and of the same value: its all ones are on the right. -/
theorem complementOf? (h : g.Exchanged g' x l r) (y : NodeId) :
    (g'.complementOf? y).toOption = (g.complementOf? y).toOption := by
  unfold Graph.complementOf?
  rw [h.op]
  refine toOption_bind_congr rfl fun op _ => ?_
  split
  · rfl
  · cases hm : g.binary y with
    | error e =>
      -- What has no match in one graph has none in the other.
      cases hm' : g'.binary y with
      | error e' => rfl
      | ok m' =>
        obtain ⟨m, hSome⟩ := h.binary_ok_iff.mpr ⟨m', hm'⟩
        cases hm.symm.trans hSome
    | ok m =>
      obtain ⟨m', hm'⟩ := h.binary_ok_iff.mp ⟨m, hm⟩
      rw [hm', ok_bind, ok_bind, h.right_isConst hm hm']
      split
      · next hOnes => rw [h.binary_of_isConst hm hm' hOnes]
      · rfl

/-! ## Uses -/

/-- The list of the nodes has each at its number. -/
theorem getElem?_toList (g : Graph) (i : Nat) : g.nodes.toList[i]? = g.node? i := by
  unfold Graph.node?
  rw [if_neg (Int.not_lt.mpr (Int.natCast_nonneg i)), Int.toNat_natCast, Array.getElem?_toList]

/-- What does not ask for the order of the inputs has the same answers all over the arena. -/
theorem map_nodes {β : Type} {f : Node → β} (h : g.Exchanged g' x l r)
    (hf : ∀ n inputs, inputs.Perm n.inputs → f { n with inputs } = f n) :
    g'.nodes.toList.map f = g.nodes.toList.map f := by
  -- Node by node, the other graph has the same one with its inputs permuted.
  refine List.ext_getElem? fun i => ?_
  rw [List.getElem?_map, List.getElem?_map, getElem?_toList, getElem?_toList]
  cases hn : g.node? i with
  | none => rw [h.node?_none hn]
  | some n =>
    obtain ⟨inputs, hn', hPerm⟩ := h.node? hn
    rw [hn', Option.map_some, Option.map_some, hf n inputs hPerm]

/-- The edge that enters a node at a place, if it comes from a given node. -/
def edgeAt? (y user : NodeId) (p : NodeId × Nat) : Option Use :=
  if p.1 = y then some ⟨user, p.2⟩ else none

/-- A node is a user as often as it takes a value. -/
theorem users_of_node (y user : NodeId) (inputs : List NodeId) (start : Nat) :
    ((inputs.zipIdx start).filterMap (edgeAt? y user)).map Use.user =
      List.replicate (inputs.count y) user := by
  induction inputs generalizing start with
  | nil => rfl
  | cons input rest ih =>
    rw [List.zipIdx_cons, List.count_cons]
    by_cases hSame : input = y
    · have hEdge : edgeAt? y user (input, start) = some ⟨user, start⟩ := if_pos hSame
      rw [List.filterMap_cons_some hEdge, List.map_cons, ih, hSame, beq_self_eq_true]
      rfl
    · have hEdge : edgeAt? y user (input, start) = none := if_neg hSame
      rw [List.filterMap_cons_none hEdge, ih, beq_false_of_ne hSame]
      rfl

/-- A node is listed as a user once for each time it has the value among its inputs. -/
theorem users_eq (g : Graph) (y : NodeId) : (g.edgesTo y).map Use.user =
    (g.nodes.toList.map fun n => n.inputs.count y).zipIdx.flatMap fun p =>
      List.replicate p.1 ((p.2 : Nat) : Int) := by
  show (g.nodes.toList.zipIdx.flatMap fun p => p.1.inputs.zipIdx.filterMap
    (edgeAt? y ((p.2 : Nat) : Int))).map Use.user = _
  -- What is left of the edges of a node is how often it has the value, not at which places.
  rw [List.zipIdx_map, List.flatMap_map, List.map_flatMap]
  exact List.flatMap_congr fun p _ => users_of_node y _ p.1.inputs 0

/-- A node has the same users, in the same order. -/
theorem users (h : g.Exchanged g' x l r) (y : NodeId) :
    (g'.edgesTo y).map Use.user = (g.edgesTo y).map Use.user := by
  rw [users_eq, users_eq, h.map_nodes]
  intro n inputs hPerm
  exact hPerm.count_eq y

/-- The graphs have the same numbers. -/
theorem contains (h : g.Exchanged g' x l r) (y : NodeId) : g'.contains y = g.contains y := by
  have hSize : g'.nodes.size = g.nodes.size := h.size
  unfold Graph.contains
  rw [hSize]

/-- The inputs are in the graph in both or in neither. -/
theorem isClosed (h : g.Exchanged g' x l r) : g'.isClosed = g.isClosed := by
  have hContains : g'.contains = g.contains := funext h.contains
  have hAll : (g'.nodes.toList.map fun n => n.inputs.all g.contains) =
      g.nodes.toList.map fun n => n.inputs.all g.contains :=
    h.map_nodes fun n inputs hPerm => hPerm.all_eq
  unfold Graph.isClosed
  rw [hContains, ← Array.all_toList, ← Array.all_toList]
  have hIds := congrArg (fun l => l.all id) hAll
  rw [List.all_map, List.all_map] at hIds
  exact hIds

/-- The uses of a node can be asked for in both graphs or in neither. -/
theorem uses_ok_iff (h : g.Exchanged g' x l r) :
    (∃ uses, g.uses y = .ok uses) ↔ ∃ uses, g'.uses y = .ok uses := by
  unfold Graph.uses
  rw [h.isClosed, h.contains]
  split
  · exact ⟨fun _ => ⟨_, rfl⟩, fun _ => ⟨_, rfl⟩⟩
  · exact ⟨nofun, nofun⟩

/-- Whatever is asked about the users of a node has one answer. -/
theorem uses {β : Type} (h : g.Exchanged g' x l r) (y : NodeId) (f : List NodeId → Except Fault β) :
    (g'.uses y >>= fun uses => f (uses.map Use.user)) =
      g.uses y >>= fun uses => f (uses.map Use.user) := by
  unfold Graph.uses
  rw [h.isClosed, h.contains]
  split
  · rw [ok_bind, ok_bind, h.users]
  · rfl

/-- The projections of a node are the same. -/
theorem findProjection (h : g.Exchanged g' x l r) (y : NodeId) (index : Int) :
    g'.findProjection y index = g.findProjection y index := by
  -- The search looks at the users only, whose list is the same for either order.
  have hFind : ∀ k : Graph, k.findProjection y index = k.uses y >>= fun uses =>
      .ok (((uses.map Use.user).find? fun user =>
        (k.node? user).any fun n => n.op = .projection && n.int = index).getD (-1)) := by
    intro k
    unfold Graph.findProjection
    refine bind_congr_ok fun uses _ => ?_
    rw [List.find?_map]
    have hIt : k.entersProjection index = (fun user => (k.node? user).any fun n =>
        n.op = .projection && n.int = index) ∘ Use.user := by
      funext u
      show _ = (k.node? u.user).any _
      unfold entersProjection
      cases k.node? u.user <;> rfl
    rw [← hIt]
    show pure ((uses.find? (k.entersProjection index)).elim (-1) (·.user)) = _
    cases uses.find? (k.entersProjection index) <;> rfl
  have hIs : ∀ user, ((g'.node? user).any fun n => n.op = .projection && n.int = index) =
      (g.node? user).any fun n => n.op = .projection && n.int = index := by
    intro user
    cases hn : g.node? user with
    | none => rw [h.node?_none hn]
    | some n =>
      obtain ⟨inputs, hn', -⟩ := h.node? hn
      rw [hn']
      rfl
  rw [hFind, hFind]
  simp only [hIs]
  exact h.uses y fun users => .ok ((users.find? _).getD (-1))

/-! ## Well-formed graphs -/

/-- Exchanging operands leaves a graph well formed. -/
theorem wellFormed (h : g.Exchanged g' x l r) (hWell : g.WellFormed) : g'.WellFormed := by
  refine ⟨?_, ?_, ?_⟩
  · -- The edges lead to nodes as before, and how many a node has does not change.
    refine verify_of_closed (h.isClosed.trans (isClosed_of_verify hWell.verify)) ?_
    intro n' hn'
    obtain ⟨i, hi⟩ := exists_node?_of_mem hn'
    obtain ⟨inputs, hn, -⟩ := h.symm.node? hi
    have hFits := fitsArity_of_verify hWell.verify hn
    exact hFits
  · intro id n' hn'
    obtain ⟨inputs, hn, hPerm⟩ := h.symm.node? hn'
    have hCounted := hWell.counted hn
    exact ⟨hCounted.value, hCounted.effect, hCounted.control, by
      rw [← hPerm.length_eq]; exact hCounted.sum⟩
  · intro id hId
    rw [h.exit] at hId
    obtain ⟨n, hn⟩ := hWell.exit id hId
    obtain ⟨inputs, hn', -⟩ := h.node? hn
    exact ⟨_, hn'⟩

end Exchanged
end Graph
end ArmBackend
