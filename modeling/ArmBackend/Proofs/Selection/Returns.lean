import ArmBackend.Proofs.Cycles
import ArmBackend.Proofs.Selection.Alike
import ArmBackend.Proofs.Selection.Meaning

/-!
# Steps of selection that succeed

`Ensures` is about the steps that return. `Returns` says that a step does, from whatever state it
is run; the two together say what a step is sure to do. In a well-formed graph an operand can be
used as soon as some node carries its value, which is lacking only where the ends of regions pass a
value on in a circle.

## Results

* `Returns.ensures` — what a step is sure to do.
* `carrier_of_carries` — selection finds the node that carries a value.
* `useRegister_returns`, `define_returns`, `emit_returns` — the primitive steps.
-/

namespace ArmBackend

/-! ## Nodes with two operands -/

/-- Whether a node is an operator on two operands. -/
def Graph.Applies (g : Graph) (op : Operator) (id x y : NodeId) : Prop :=
  ∃ n, g.node? id = some n ∧ n.op = op ∧ n.inputs = [x, y]

/-- Whether a node is a 32 bit constant. -/
def Graph.IsInt32 (g : Graph) (id : NodeId) (v : BitVec 32) : Prop :=
  ∃ n, g.node? id = some n ∧ n.op = .constant .int32 ∧ BitVec.ofInt 32 n.int = v

/-- Whether a node combines `x` with a constant, which may stand on either side where this makes no
difference. -/
def Graph.Combines (g : Graph) (op : Operator) (id x : NodeId) (v : BitVec 32) : Prop :=
  ∃ y, g.IsInt32 y v ∧ (g.Applies op id x y ∨ op.isCommutative = true ∧ g.Applies op id y x)

/-- Whether an operator takes two values and nothing else. -/
def Operator.IsBinary (op : Operator) : Prop :=
  op.arity? = some ⟨some 2, some 0, some 0⟩

instance (op : Operator) : Decidable op.IsBinary :=
  inferInstanceAs (Decidable (_ = _))

namespace Graph

variable {g : Graph} {id x y : NodeId} {op : Operator} {v : BitVec 32} {n : Node}

/-- A node that applies an operator has it. -/
theorem Applies.hasOp (h : g.Applies op id x y) : g.HasOp id op := by
  obtain ⟨n, hn, hOp, -⟩ := h
  exact ⟨n, hn, hOp⟩

/-- A node that combines by an operator has it. -/
theorem Combines.hasOp (h : g.Combines op id x v) : g.HasOp id op := by
  obtain ⟨y, -, h | ⟨-, h⟩⟩ := h <;> exact h.hasOp

/-- A binary node has two operands. -/
theorem WellFormed.applies (h : g.WellFormed) (hOp : g.HasOp id op) (hBinary : op.IsBinary) :
    ∃ x y, g.Applies op id x y := by
  obtain ⟨n, hn, rfl⟩ := hOp
  obtain ⟨x, y, hInputs⟩ := List.length_eq_two.mp (h.length_inputs hn hBinary)
  exact ⟨x, y, n, hn, rfl, hInputs⟩

/-- A constant matches with its value. -/
theorem IsInt32.int32 (h : g.IsInt32 id v) :
    g.int32 id = .ok { id, op := .constant .int32, value? := some v } := by
  obtain ⟨n, hn, hOp, rfl⟩ := h
  unfold Graph.int32
  rw [node_eq_ok.mpr hn, ok_bind, hOp]
  rfl

/-- An operand with a value is a constant. -/
theorem isInt32_of_value {m : Int32Match} (hm : g.int32 id = .ok m) (hv : m.value? = some v) :
    g.IsInt32 m.id v := by
  unfold Graph.int32 at hm
  obtain ⟨n, hn, hm⟩ := bind_eq_ok.mp hm
  cases pure_eq_ok.mp hm
  obtain ⟨hOp, hInt⟩ := Option.ite_none_right_eq_some.mp hv
  exact ⟨n, node_eq_ok.mp hn, hOp, Option.some.inj hInt⟩

/-- What is no constant has no value. -/
theorem int32_of_not (hn : g.node? id = some n) (hNot : ∀ v, ¬g.IsInt32 id v) :
    g.int32 id = .ok { id, op := n.op, value? := none } := by
  have hOp : n.op ≠ .constant .int32 := fun hOp => hNot _ ⟨n, hn, hOp, rfl⟩
  unfold Graph.int32
  rw [node_eq_ok.mpr hn, ok_bind, if_neg hOp]
  rfl

/-- The operands of a node are inputs. -/
theorem Applies.hasInput (h : g.Applies op id x y) : g.HasInput id x ∧ g.HasInput id y := by
  obtain ⟨n, hn, -, hInputs⟩ := h
  exact ⟨⟨n, hn, by simp [hInputs]⟩, n, hn, by simp [hInputs]⟩

/-- In a well-formed graph any input can be matched as a constant or not. -/
theorem WellFormed.int32 (hWell : g.WellFormed) (h : g.HasInput id x) :
    ∃ m, g.int32 x = .ok m := by
  obtain ⟨k, hk⟩ := hWell.node_of_input h
  unfold Graph.int32
  rw [node_eq_ok.mpr hk]
  exact ⟨_, rfl⟩

/-- The operands of a binary node are matched in their order, unless the operator lets them be
exchanged and only the left one is a constant. -/
theorem Applies.binary {l r : Int32Match} (h : g.Applies op id x y) (hWell : g.WellFormed)
    (hBinary : op.IsBinary) (hl : g.int32 x = .ok l) (hr : g.int32 y = .ok r) :
    g.binary id = .ok (if op.isCommutative && l.value?.isSome && r.value?.isNone then
      { node := id, left := r, right := l } else { node := id, left := l, right := r }) := by
  obtain ⟨n, hn, rfl, hInputs⟩ := h
  have hCount : ¬n.valueCount < 2 := by
    rw [valueCount_of_verify hWell.verify hn (by rw [hBinary]; rfl)]
    decide
  -- binary operators are assigned ones
  have hAssigned : ¬n.op.isAssigned = false := by
    intro hNone
    cases hOp : n.op <;> rw [hOp] at hNone hBinary <;> cases hNone
    cases hBinary
  have hx : n.input 0 = .ok x := by simp [Node.input, hInputs]
  have hy : n.input 1 = .ok y := by simp [Node.input, hInputs]
  unfold Graph.binary
  simp only [bind_eq_ok, check_eq_ok]
  refine ⟨n, node_eq_ok.mpr hn, hCount, x, hx, l, hl, y, hy, r, hr, hAssigned, ?_⟩
  split <;> rfl

/-- A constant operand is matched on the right. -/
theorem Combines.binary (h : g.Combines op id x v) (hWell : g.WellFormed) (hBinary : op.IsBinary)
    (hx : op.isCommutative = true → ∀ w, ¬g.IsInt32 x w) :
    ∃ m, g.binary id = .ok m ∧ m.left.id = x ∧ g.HasOp x m.left.op ∧ m.right.value? = some v ∧
      g.IsInt32 m.right.id v := by
  obtain ⟨y, hy, hApplies | ⟨hSwap, hApplies⟩⟩ := h
  · obtain ⟨l, hl⟩ := hWell.int32 hApplies.hasInput.1
    have hm := hApplies.binary hWell hBinary hl hy.int32
    rw [Option.isNone_some, Bool.and_false, if_neg Bool.false_ne_true] at hm
    obtain ⟨rfl, hLeft⟩ := int32_eq_ok hl
    exact ⟨_, hm, rfl, hLeft, rfl, hy⟩
  · obtain ⟨k, hk⟩ := hWell.node_of_input hApplies.hasInput.2
    have hm := hApplies.binary hWell hBinary hy.int32 (int32_of_not hk (hx hSwap))
    rw [if_pos (by rw [hSwap]; rfl)] at hm
    exact ⟨_, hm, rfl, ⟨k, hk, rfl⟩, rfl, hy⟩

/-- The two operands of a binary node are matched. -/
theorem Applies.matches (h : g.Applies op id x y) (hWell : g.WellFormed) (hBinary : op.IsBinary) :
    ∃ m, g.binary id = .ok m ∧ (m.left.id = x ∧ m.right.id = y ∨
      op.isCommutative = true ∧ m.left.id = y ∧ m.right.id = x) := by
  obtain ⟨l, hl⟩ := hWell.int32 h.hasInput.1
  obtain ⟨r, hr⟩ := hWell.int32 h.hasInput.2
  refine ⟨_, h.binary hWell hBinary hl hr, ?_⟩
  have hLeft := (int32_eq_ok hl).1
  have hRight := (int32_eq_ok hr).1
  split
  · next hSwap =>
    simp only [Bool.and_eq_true] at hSwap
    exact .inr ⟨hSwap.1.1, hRight, hLeft⟩
  · exact .inl ⟨hLeft, hRight⟩

end Graph

namespace Selection

variable {α β : Type} {site : Site} {g : Graph} {s : State} {id u x : NodeId} {v : BitVec 32}

/-! ## Sequencing -/

/-- Whether a step succeeds, whatever state it is run from. -/
def Returns (site : Site) (m : Select α) : Prop :=
  ∀ s, ∃ a s', m site s = .ok (a, s')

namespace Returns

variable {m : Select α} {f : α → Select β}

/-- A step that succeeds does what it ensures. -/
theorem ensures {Q : α → State → Prop} (h : Returns site m) (hQ : Ensures site s m Q) :
    ∃ a s', m site s = .ok (a, s') ∧ Q a s' := by
  obtain ⟨a, s', hm⟩ := h s
  exact ⟨a, s', hm, hQ a s' hm⟩

/-- An answer is given. -/
theorem pure (a : α) : Returns site (pure a : Select α) :=
  fun s => ⟨a, s, rfl⟩

/-- The state is changed, with an answer. -/
theorem modifyGet (f : State → α × State) : Returns site (modifyGet f) :=
  fun s => ⟨(f s).1, (f s).2, rfl⟩

/-- The state is changed. -/
theorem modify (f : State → State) : Returns site (modify f) :=
  fun s => ⟨(), f s, rfl⟩

/-- A row of steps succeeds if each of them does. -/
theorem bind (hm : Returns site m) (hf : ∀ a, Returns site (f a)) : Returns site (m >>= f) := by
  intro s
  obtain ⟨a, s₁, hm⟩ := hm s
  obtain ⟨b, s₂, hf⟩ := hf a s₁
  refine ⟨b, s₂, ?_⟩
  show (m site s >>= fun p => f p.1 site p.2) = _
  rw [hm]
  exact hf

/-- The site is read. -/
theorem read {f : Site → Select β} (h : Returns site (f site)) : Returns site (read >>= f) :=
  h

/-- The state is read. -/
theorem get {f : State → Select β} (h : ∀ s, Returns site (f s)) : Returns site (get >>= f) :=
  fun s => h s s

/-- A look at the graph succeeds when the look-up does. -/
theorem look {e : Except Fault α} {a : α} (he : e = .ok a) (h : Returns site (f a)) :
    Returns site (liftM e >>= f) := by
  rw [he]
  exact h

end Returns

/-! ## Carriers -/

/-- Selection finds the node that carries a value. -/
theorem carrier_of_carries (hWell : g.WellFormed) (h : g.Carries u x) :
    carrier g (g.size + 1) u = .ok x := by
  -- With enough fuel the chain is followed to its end; and the size of the graph is enough.
  have hEnough : ∃ k, ∀ fuel, k < fuel → carrier g fuel u = .ok x := by
    induction h with
    | @own x n hn hFinish hProjection =>
      refine ⟨0, fun fuel hFuel => ?_⟩
      obtain ⟨fuel, rfl⟩ := Nat.exists_eq_succ_of_ne_zero (Nat.pos_iff_ne_zero.mp hFuel)
      rw [carrier, Graph.node_eq_ok.mpr hn, ok_bind]
      split
      · exact absurd ‹_› hFinish
      · next hOp =>
        -- A projection carries its own value unless it is the first one of an operation with
        -- overflow.
        obtain ⟨y, hInputs⟩ := List.length_eq_one_iff.mp
          (hWell.length_inputs hn (v := 1) (e := 0) (c := 0) (by rw [hOp]; rfl))
        have hy : n.input 0 = .ok y := by simp [Node.input, hInputs]
        obtain ⟨m, hm⟩ := hWell.node_of_input ⟨n, hn, (by simp [hInputs] : y ∈ n.inputs)⟩
        rw [hy, ok_bind, Graph.op_eq_ok.mpr ⟨m, hm, rfl⟩, ok_bind, if_neg ?_]
        · rfl
        · simp only [Bool.and_eq_true, decide_eq_true_eq, not_and]
          intro hOverflow hInt
          rw [hProjection hOp hInt y m.op hy ⟨m, hm, rfl⟩] at hOverflow
          cases hOverflow
      · rfl
    | finish hn hOp hy _ ih =>
      obtain ⟨k, hk⟩ := ih
      refine ⟨k + 1, fun fuel hFuel => ?_⟩
      obtain ⟨fuel, rfl⟩ := Nat.exists_eq_succ_of_ne_zero (by omega : fuel ≠ 0)
      rw [carrier, Graph.node_eq_ok.mpr hn, ok_bind, hOp]
      dsimp only
      rw [hy]
      exact hk fuel (by omega)
    | projection hn hOp hInt hx hxOp hOverflow =>
      refine ⟨0, fun fuel hFuel => ?_⟩
      obtain ⟨fuel, rfl⟩ := Nat.exists_eq_succ_of_ne_zero (Nat.pos_iff_ne_zero.mp hFuel)
      rw [carrier, Graph.node_eq_ok.mpr hn, ok_bind, hOp]
      dsimp only
      rw [hx, ok_bind, Graph.op_eq_ok.mpr hxOp, ok_bind, hOverflow, hInt]
      rfl
  obtain ⟨k, hk⟩ := hEnough
  rw [← hk (g.size + 1 + k) (by omega)]
  exact passed_fuel (carrier_follows g) (by omega) (by omega)

/-- A node that is no end of a region has a representation of its own. -/
theorem repOf_of_op {op : Operator} (hOp : g.HasOp x op) (hFinish : op ≠ .finish) (fuel : Nat) :
    ∃ rep, repOf g (fuel + 1) x = .ok rep := by
  obtain ⟨n, hn, rfl⟩ := hOp
  refine ⟨nodeRep n, ?_⟩
  rw [repOf, Graph.node_eq_ok.mpr hn, ok_bind, if_neg hFinish]
  rfl

/-- Where the chain from a node ends. -/
theorem carries_end (h : g.Carries u x) : ∃ n, g.node? x = some n ∧ n.op ≠ .finish := by
  induction h with
  | own hn hFinish => exact ⟨_, hn, hFinish⟩
  | finish _ _ _ _ ih => exact ih
  | projection _ _ _ _ hxOp hOverflow =>
    obtain ⟨m, hm, rfl⟩ := hxOp
    refine ⟨m, hm, fun hOp => ?_⟩
    rw [hOp] at hOverflow
    cases hOverflow

/-- What carries a value is a node. -/
theorem nonneg_of_carries (h : g.Carries u x) : ¬u < 0 := by
  cases h with
  | own hn | finish hn | projection hn => exact Int.not_lt.mpr (Graph.node?_lt hn).1

/-! ## Primitive steps -/

/-- A node can be marked as used. -/
theorem markUsed_returns (h : ¬u < 0) : Returns site (markUsed u) := by
  unfold markUsed
  rw [if_neg h]
  exact .modify _

/-- A node can be marked as defined. -/
theorem markDefined_returns (h : ¬id < 0) : Returns site (markDefined id) := by
  unfold markDefined
  rw [if_neg h]
  exact .modify _

/-- The class of a register is known, unless the node passes on the value of another. -/
theorem markRep_returns {op : Operator} (hOp : site.graph.HasOp x op) (hFinish : op ≠ .finish)
    (r : Nat) : Returns site (markRep x r) := by
  obtain ⟨rep, hRep⟩ := repOf_of_op hOp hFinish site.graph.size
  unfold markRep
  refine .read (.look hRep ?_)
  split
  · exact .modify _
  · exact .modify _
  · exact .pure _

/-- There is always another register. -/
theorem newVreg_returns : Returns site newVreg :=
  .modifyGet _

/-- A node whose carrier is known has a register. -/
theorem vreg_returns (hWell : site.graph.WellFormed) (h : site.graph.Carries u x) :
    Returns site (vreg u) := by
  obtain ⟨n, hn, hFinish⟩ := carries_end h
  unfold vreg
  refine .read (.look (carrier_of_carries hWell h) (.look (Graph.node_eq_ok.mpr hn) ?_))
  -- constants have registers by their value, other nodes their own
  split
  · refine .bind ?_ fun r => .bind (.modify _) fun _ => .pure _
    unfold constantVreg
    refine .get fun s => ?_
    dsimp only
    split
    · exact .pure _
    · refine newVreg_returns.bind fun r => .bind (.modify _) fun _ => ?_
      exact (markRep_returns ⟨n, hn, rfl⟩ hFinish r).bind fun _ => .pure _
  · unfold ownVreg
    refine .get fun s => ?_
    split
    · exact .pure _
    · exact newVreg_returns.bind fun r => .bind (.modify _) fun _ => .pure _

/-- The value of a node can be used when some node carries it. -/
theorem useRegister_returns (hWell : site.graph.WellFormed) (h : site.graph.Carries u x) :
    Returns site (useRegister u) := by
  unfold useRegister useAt
  refine (markUsed_returns (nonneg_of_carries h)).bind fun _ => ?_
  exact (vreg_returns hWell h).bind fun _ => .pure _

/-- Any word can be an immediate. -/
theorem immediate_returns (v : BitVec 32) : Returns site (immediate v) :=
  .modifyGet _

/-- A constant can be an immediate. -/
theorem useImmediate_returns (h : site.graph.IsInt32 u v) : Returns site (useImmediate u) := by
  unfold useImmediate
  exact .read (.look h.int32 (immediate_returns v))

/-- The number that stands for a constant is the constant. -/
theorem useImmediate_of_isInt32 (D : NodeId → Prop) (hs : s.Sound) (h : site.graph.IsInt32 u v) :
    Ensures site s (useImmediate u) fun o s' => Advances s s' [] D ∧ s'.stream.IsNumber o v := by
  refine (useImmediate_advances D hs u).mono ?_
  rintro o s' ⟨hAdvances, m, w, hm, hw, hNumber⟩
  cases h.int32.symm.trans hm
  cases hw
  exact ⟨hAdvances, hNumber⟩

/-- A node that carries its own value can be named as an output. -/
theorem defineAt_returns (hWell : site.graph.WellFormed) {op : Operator}
    (hOp : site.graph.HasOp id op) (hFinish : op ≠ .finish) (hProjection : op ≠ .projection)
    (location : Location) : Returns site (defineAt id location) := by
  have hCarries := Graph.Carries.of_op hOp hFinish hProjection
  unfold defineAt
  refine (markDefined_returns (nonneg_of_carries hCarries)).bind fun _ => ?_
  refine (vreg_returns hWell hCarries).bind fun r => ?_
  exact (markRep_returns hOp hFinish r).bind fun _ => .pure _

/-- A node that carries its own value can be defined. -/
theorem define_returns (hWell : site.graph.WellFormed) {op : Operator}
    (hOp : site.graph.HasOp id op) (hFinish : op ≠ .finish) (hProjection : op ≠ .projection) :
    Returns site (define id) :=
  defineAt_returns hWell hOp hFinish hProjection .register

/-- There is always another scratch register. -/
theorem tempRegister_returns : Returns site tempRegister :=
  newVreg_returns.bind fun _ => .pure _

/-- So there is for doubles. -/
theorem tempDouble_returns : Returns site tempDouble :=
  newVreg_returns.bind fun _ => .bind (.modify _) fun _ => .pure _

/-- An instruction can be emitted that has as many operands as it asks for. -/
theorem emit_returns {i : Instr} (h : i.check = .ok ()) : Returns site (emit i) := by
  unfold emit
  rw [h]
  exact .modify _

/-! ## Steps with a known reply -/

/-- Whether a step gives a reply and keeps the state. -/
def Replies (site : Site) (m : Select α) (a : α) : Prop :=
  ∀ s, m site s = .ok (a, s)

/-- The site is the reply. -/
theorem Replies.read : Replies site read site :=
  fun _ => rfl

/-- A look at the graph. -/
theorem Replies.look {e : Except Fault α} {a : α} (h : e = .ok a) :
    Replies site (liftM e : Select α) a := by
  rw [h]
  exact fun _ => rfl

/-- What is done after the reply is all that is done. -/
theorem Replies.bind {m : Select α} {f : α → Select β} {a : α} (h : Replies site m a) :
    (m >>= f) site = f a site := by
  funext s
  show (m site s >>= fun p => f p.1 site p.2) = _
  rw [h s]
  rfl

/-- Whether there is a feature is told by the site. -/
theorem has_replies (f : Feature) : Replies site (has f) (site.features.has f) :=
  fun _ => rfl

/-- A node of an operator on words is covered by the rule of the operator. -/
theorem coverNode_word32 {w : Word32Op} (h : site.graph.HasOp id (.word32 w)) :
    coverNode id site = coverWord32 id w site := by
  unfold coverNode
  rw [Replies.read.bind]
  rw [(Replies.look (Graph.op_eq_ok.mpr h)).bind]

/-- A node of an operator on integers is covered by the rule of the operator. -/
theorem coverNode_int32 {w : Int32Op} (h : site.graph.HasOp id (.int32 w)) :
    coverNode id site = coverInt32 id w site := by
  unfold coverNode
  rw [Replies.read.bind]
  rw [(Replies.look (Graph.op_eq_ok.mpr h)).bind]

end Selection
end ArmBackend
