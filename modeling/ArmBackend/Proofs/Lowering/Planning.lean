import ArmBackend.Lowering.Fragment
import ArmBackend.Proofs.Appended
import ArmBackend.Proofs.Evaluation.Answers

/-!
# Planning what is built

The steps that add nodes to a graph, seen as steps that extend a plan. `Plans p g m Q` says that
`p`, a plan of `g`, extends to a plan of what `m` makes of `g`, of which `Q` holds. There is one
lemma for each kind of node that fragments are made of; it plans the node from what is planned of
its inputs.
-/

namespace ArmBackend

namespace Machine

open Build

namespace Plan

variable {c : Setting} {p p' p'' : Plan c} {g g' g'' : Graph} {n : Node} {id x y : NodeId}
  {l : Label} {t : Nat}

/-! ## What is planned so far -/

/-- The value of a node is planned. -/
def Shows (p : Plan c) (id : NodeId) (l : Label) : Prop :=
  p.Value p.count id l

/-- It is planned whether a control node is reached. -/
def Enters (p : Plan c) (id : NodeId) (b : Bool) : Prop :=
  p.Reached p.count id b

/-- The effects up to a node are planned. -/
def Orders (p : Plan c) (id : NodeId) (t : Nat) : Prop :=
  p.Effect p.count id t

/-- It is planned through which input a merge is entered. -/
def Joins (p : Plan c) (merge : NodeId) (k : Nat) : Prop :=
  p.Taken p.count merge k

theorem Shows.mono (h : p.Shows id l) (hLe : p.Le p') : p'.Shows id l :=
  Value.mono h hLe hLe.count

theorem Enters.mono {b : Bool} (h : p.Enters id b) (hLe : p.Le p') : p'.Enters id b :=
  Reached.mono h hLe hLe.count

theorem Orders.mono (h : p.Orders id t) (hLe : p.Le p') : p'.Orders id t :=
  Effect.mono h hLe hLe.count

theorem Joins.mono {k : Nat} (h : p.Joins id k) (hLe : p.Le p') : p'.Joins id k :=
  Taken.mono h hLe hLe.count

/-- Whether a node is in the plan. -/
def Has (p : Plan c) (id : NodeId) : Prop :=
  (p.entry id).isSome

theorem Has.mono (h : p.Has id) (hLe : p.Le p') : p'.Has id := by
  obtain ⟨e, he⟩ := Option.isSome_iff_exists.mp h
  exact Option.isSome_iff_exists.mpr ⟨e, hLe.entry he⟩

/-- A node that is known is in the plan. -/
theorem HasNode.has (h : p.HasNode id n) : p.Has id := by
  obtain ⟨e, he, -⟩ := h
  exact Option.isSome_iff_exists.mpr ⟨e, he⟩

/-- A node whose value is planned is in the plan. -/
theorem Shows.has (h : p.Shows id l) : p.Has id := by
  obtain ⟨e, he, -⟩ := h
  exact Option.isSome_iff_exists.mpr ⟨e, he⟩

/-- A node of which control is planned is in the plan. -/
theorem Enters.has {b : Bool} (h : p.Enters id b) : p.Has id := by
  obtain ⟨e, he, -⟩ := h
  exact Option.isSome_iff_exists.mpr ⟨e, he⟩

/-- A node up to which the effects are planned is in the plan. -/
theorem Orders.has (h : p.Orders id t) : p.Has id := by
  obtain ⟨e, he, -⟩ := h
  exact Option.isSome_iff_exists.mpr ⟨e, he⟩

/-! ## Plans of graphs that grow -/

/-- A valid plan of nodes of a graph. -/
structure Good (p : Plan c) (g : Graph) : Prop where
  valid : p.Valid
  fits : p.Fits g

/-- The nodes of a plan are nodes of its graph. -/
theorem Good.nonneg (h : p.Good g) (hHas : p.Has id) : 0 ≤ id ∧ id < g.size := by
  obtain ⟨e, he⟩ := Option.isSome_iff_exists.mp hHas
  exact Graph.node?_lt (h.fits id e he)

/-- The plan `p` of `g` was extended to `p'` while nodes were added to `g`. -/
structure Grown (p : Plan c) (g : Graph) (p' : Plan c) (g' : Graph) : Prop where
  le : p.Le p'
  good : p'.Good g'
  nodes : ∃ ns, g' = g.append ns ∧ ∀ n ∈ ns, ∀ x ∈ n.inputs, p'.Has x
  old : ∀ id : NodeId, id < g.size → p'.entry id = p.entry id
  count : p'.count + g.size = p.count + g'.size

/-- Nodes are only ever added. -/
theorem Grown.size_le (h : p.Grown g p' g') : g.size ≤ g'.size := by
  obtain ⟨ns, rfl, -⟩ := h.nodes
  show g.nodes.size ≤ (g.nodes ++ ns.toArray).size
  rw [Array.size_append]
  exact Nat.le_add_right _ _

theorem Grown.refl (h : p.Good g) : p.Grown g p g :=
  ⟨Le.refl p, h, ⟨[], by simp [Graph.append], by simp⟩, fun _ _ => rfl, rfl⟩

/-- Plans are extended step by step. -/
theorem Grown.trans (h : p.Grown g p' g') (h' : p'.Grown g' p'' g'') : p.Grown g p'' g'' where
  le := h.le.trans h'.le
  good := h'.good
  nodes := by
    -- The nodes of the second step come behind those of the first, whose inputs are still planned.
    obtain ⟨ns, hns, hInputs⟩ := h.nodes
    obtain ⟨ms, hms, hInputs'⟩ := h'.nodes
    refine ⟨ns ++ ms, by rw [hms, hns, Graph.append_append], ?_⟩
    intro n hn x hx
    obtain hn | hn := List.mem_append.mp hn
    · exact (hInputs n hn x hx).mono h'.le
    · exact hInputs' n hn x hx
  old := by
    -- An old node lies below the nodes of either step.
    intro id hLt
    have hSize := h.size_le
    rw [h'.old id (Int.lt_of_lt_of_le hLt (Int.ofNat_le.mpr hSize)), h.old id hLt]
  count := by
    have h₁ := h.count
    have h₂ := h'.count
    omega

/-- The plan `p` of `g` extends to a plan of what `m` makes of `g`. -/
def Plans {α : Type} (p : Plan c) (g : Graph) (m : Build α) (Q : α → Plan c → Prop) : Prop :=
  ∃ p', p.Grown g p' (m.run g).2 ∧ Q (m.run g).1 p'

variable {α β : Type} {m : Build α} {f : α → Build β} {Q Q' : α → Plan c → Prop}
  {R : β → Plan c → Prop}

/-- Nothing built is planned as it is. -/
theorem Plans.pure {a : α} (h : p.Good g) (hQ : Q a p) : p.Plans g (Pure.pure a) Q :=
  ⟨p, Grown.refl h, hQ⟩

/-- The rest of a construction is planned from what the first step has planned. -/
theorem Plans.bind (h : p.Plans g m Q)
    (hf : ∀ a p' g', p.Grown g p' g' → Q a p' → p'.Plans g' (f a) R) :
    p.Plans g (m >>= f) R := by
  obtain ⟨p₁, hGrown, hQ⟩ := h
  obtain ⟨p₂, hGrown', hR⟩ := hf _ _ _ hGrown hQ
  exact ⟨p₂, hGrown.trans hGrown', hR⟩

/-- What holds of a planned construction may be weakened, and the plan that it started from may be
used. -/
theorem Plans.mono (h : p.Plans g m Q) (hQ : ∀ a p' g', p.Grown g p' g' → Q a p' → Q' a p') :
    p.Plans g m Q' := by
  obtain ⟨p', hGrown, hp⟩ := h
  exact ⟨p', hGrown, hQ _ _ _ hGrown hp⟩

/-! ## One node -/

variable {e : Entry} {after : Option (Knowledge c)}

/-- The new entry is in the plan, with the rank that is next. -/
theorem insert_has_entry : (p.insert id e after).entry id =
    some { e with rank := p.count, event := after.isSome } :=
  if_pos rfl

/-- The node that comes next has no entry yet. -/
theorem Good.fresh (h : p.Good g) : p.entry g.size = none := by
  cases hEntry : p.entry g.size with
  | none => rfl
  | some e =>
    have hLt := (Graph.node?_lt (h.fits _ _ hEntry)).2
    exact absurd hLt (Int.lt_irrefl _)

/-- An entry that follows the rules, for a plan that it is not in yet. -/
structure Admits (p : Plan c) (id : NodeId) (e : Entry) (after : Option (Knowledge c)) : Prop where
  fresh : p.entry id = none
  closed : ∀ x ∈ e.node.inputs, p.Has x
  value : ∀ l, e.value = some l →
    (p.insert id e after).Grants p.count id e.node after.isSome l ∧
      if after.isSome then l.stamp = p.time + 1 else l.stamp ≤ p.time
  reached : ∀ b, e.reached = some b → p.Arrives p.count e.node b
  effect : ∀ t, e.effect = some t → p.Flows p.count e.node e.value t

/-- A plan stays good when an entry that follows the rules is added for a node of the graph. -/
theorem Good.insert (h : p.Good g) (hn : g.node? id = some e.node) (hAdmits : p.Admits id e after) :
    (p.insert id e after).Good g where
  valid := h.valid.insert hAdmits.fresh hAdmits.closed hAdmits.value hAdmits.reached hAdmits.effect
  fits := by
    intro x e' he
    by_cases hx : x = id
    · subst hx
      rw [insert_has_entry] at he
      cases he
      exact hn
    · refine h.fits x e' ?_
      rw [← he]
      exact (if_neg hx).symm

/-- A plan of a graph is a plan of the graph with more nodes. -/
theorem Good.append (h : p.Good g) (ns : List Node) : p.Good (g.append ns) :=
  ⟨h.valid, fun id e he => Graph.node?_append (h.fits id e he)⟩

/-- A new node that follows the rules can be added to a plan. -/
theorem Good.push (h : p.Good g) (hNode : e.node = n) (hAdmits : p.Admits g.size e after) :
    p.Plans g (Build.push n) fun id p' => id = g.size ∧ p' = p.insert g.size e after := by
  subst hNode
  have hLe : p.Le (p.insert g.size e after) := le_insert h.valid hAdmits.fresh
  have hGraph : ((Build.push e.node).run g).2 = g.append [e.node] := by
    simp [Build.push, Graph.push, Graph.append, StateT.run]
  have hn : (g.append [e.node]).node? g.size = some e.node := by
    refine Graph.node?_eq_some.mpr ⟨g.size, rfl, ?_⟩
    show (g.nodes ++ #[e.node])[g.nodes.size]? = some e.node
    simp
  -- The plan is good for the graph with the node, the inputs of the node are planned, old entries
  -- are untouched, and there is one entry for the one node.
  refine ⟨_, ⟨hLe, ?_, ⟨[e.node], hGraph, ?_⟩, ?_, ?_⟩, rfl, rfl⟩
  · rw [hGraph]
    exact (h.append _).insert hn hAdmits
  · intro n hn x hx
    obtain rfl := List.mem_singleton.mp hn
    exact (hAdmits.closed x hx).mono hLe
  · intro x hLt
    exact if_neg (Int.ne_of_lt hLt)
  · show p.count + 1 + g.nodes.size = p.count + (g.nodes.push e.node).size
    rw [Array.size_push]
    omega

/-- The value in the new entry is planned. -/
theorem shows_insert {e : Entry} (h : e.value = some l) : (p.insert id e after).Shows id l :=
  ⟨_, insert_has_entry, Nat.lt_succ_self _, h⟩

/-- What the new entry says of control is planned. -/
theorem enters_insert {b : Bool} (h : e.reached = some b) : (p.insert id e after).Enters id b :=
  ⟨_, insert_has_entry, Nat.lt_succ_self _, h⟩

/-- What the new entry says of effects is planned. -/
theorem orders_insert (h : e.effect = some t) : (p.insert id e after).Orders id t :=
  ⟨_, insert_has_entry, Nat.lt_succ_self _, h⟩

/-- The node of the new entry is in the plan. -/
theorem hasNode_insert : (p.insert id e after).HasNode id e.node :=
  ⟨_, insert_has_entry, rfl⟩

/-! ## Nodes of each kind -/

/-- A node without answers. -/
theorem Good.adds (h : p.Good g) (hClosed : ∀ x ∈ n.inputs, p.Has x) :
    p.Plans g (Build.push n) fun id p' => p'.HasNode id n ∧ p'.time = p.time := by
  have hAdmits : p.Admits g.size { node := n, rank := 0 } none :=
    ⟨h.fresh, hClosed, nofun, nofun, nofun⟩
  refine (h.push rfl hAdmits).mono ?_
  rintro id p' g' - ⟨rfl, rfl⟩
  exact ⟨hasNode_insert, rfl⟩

/-- A node of which only the value is asked, and which is no event. -/
theorem Good.admits_value (h : p.Good g) (hFresh : p.entry id = none)
    (hClosed : ∀ x ∈ n.inputs, p.Has x) (hGrants : p.Grants p.count id n false l)
    (hStamp : l.stamp ≤ p.time) : p.Admits id { node := n, rank := 0, value := some l } none := by
  refine ⟨hFresh, hClosed, ?_, nofun, nofun⟩
  rintro l' ⟨⟩
  exact ⟨hGrants.mono (le_insert h.valid hFresh), hStamp⟩

/-- A node with a value alone is planned by a rule for values, and no event happens. -/
theorem Good.grants (h : p.Good g) (hClosed : ∀ x ∈ n.inputs, p.Has x)
    (hGrants : p.Grants p.count g.size n false l) (hStamp : l.stamp ≤ p.time) :
    p.Plans g (Build.push n) fun id p' => p'.Shows id l ∧ p'.HasNode id n ∧ p'.time = p.time := by
  refine (h.push rfl (h.admits_value h.fresh hClosed hGrants hStamp)).mono ?_
  rintro id p' g' - ⟨rfl, rfl⟩
  exact ⟨shows_insert rfl, hasNode_insert, rfl⟩

/-- The label that is planned for a node. -/
def label (p : Plan c) (x : NodeId) : Label :=
  ((p.entry x).bind Entry.value).getD ⟨.word 0, 0⟩

/-- The label that is looked up is the one that is planned. -/
theorem Shows.label (h : p.Shows x l) : p.label x = l := by
  obtain ⟨e, he, -, hl⟩ := h
  unfold Plan.label
  rw [he]
  show e.value.getD _ = l
  rw [hl]
  rfl

/-- A node shows one label. -/
theorem Shows.unique {l' : Label} (h : p.Shows x l) (h' : p.Shows x l') : l = l' :=
  h.label.symm.trans h'.label

/-- Every node whose value is planned has the label that is looked up. -/
theorem shows_label {xs : List NodeId} (h : ∀ x ∈ xs, ∃ l, p.Shows x l) :
    ∀ x ∈ xs, p.Shows x (p.label x) := by
  intro x hx
  obtain ⟨l, hl⟩ := h x hx
  rw [hl.label]
  exact hl

/-- What is planned of the nodes asked for holds in a state. -/
def Meant (p : Plan c) (xs : List NodeId) (s : State) : Prop :=
  ∀ x l, x ∈ xs → p.Shows x l → l.meaning.Of s (s.value x)

/-- It is enough that a state agrees with the labels that are looked up, as there are no others. -/
theorem meant_of_label {xs : List NodeId} {s : State}
    (h : ∀ x ∈ xs, (p.label x).meaning.Of s (s.value x)) : p.Meant xs s := by
  intro x l hx hl
  rw [← hl.label]
  exact h x hx

/-- An event that is over once the nodes asked for are known. -/
def Behind (p : Plan c) (xs : List NodeId) (t stamp : Nat) : Prop :=
  stamp ≤ t ∨ ∃ x ∈ xs, ∃ l, p.Shows x l ∧ stamp ≤ l.stamp

/-- An event that is behind the nodes asked for is backed by their labels. -/
theorem Behind.backs {xs : List NodeId} {stamp : Nat} (h : p.Behind xs t stamp) :
    Backs xs p.label t stamp := by
  obtain hLe | ⟨x, hx, l, hl, hLe⟩ := h
  · exact .inl hLe
  · refine .inr ⟨x, hx, ?_⟩
    rw [hl.label]
    exact hLe

/-- A node whose value is computed from other values. -/
theorem Good.computes (h : p.Good g) (l : Label) {xs : List NodeId}
    {f : Heap → (NodeId → BitVec 64) → BitVec 64} (hClosed : ∀ x ∈ n.inputs, p.Has x)
    (hComputes : p.Computes n xs f) (hShows : ∀ x ∈ xs, ∃ l, p.Shows x l)
    (hStamp : p.Behind xs 0 l.stamp)
    (hMeans : ∀ s : State, c.heap.Like s.heap → p.Meant xs s →
      l.meaning.Of s (f s.heap s.value)) :
    p.Plans g (Build.push n) fun id p' =>
      p'.Shows id l ∧ p'.HasNode id n ∧ p'.time = p.time := by
  have hTime : l.stamp ≤ p.time := by
    obtain hZero | ⟨x, -, l', ⟨e, he, -, hl'⟩, hLe⟩ := hStamp
    · omega
    · exact Nat.le_trans hLe (h.valid.stamp_le he hl')
  exact h.grants hClosed (.compute hComputes (shows_label hShows) hStamp.backs
    fun s hs hLabels => hMeans s hs (meant_of_label hLabels)) hTime

/-- A node whose value is computed from no others. -/
theorem Good.leaf (h : p.Good g) {f : Heap → (NodeId → BitVec 64) → BitVec 64} {v : BitVec 64}
    (hInputs : n.inputs = []) (hComputes : p.Computes n [] f)
    (hf : ∀ s : State, c.heap.Like s.heap → f s.heap s.value = v) :
    p.Plans g (Build.push n) fun id p' => p'.Shows id ⟨.word v, 0⟩ ∧ p'.time = p.time := by
  refine (h.computes ⟨.word v, 0⟩ (by simp [hInputs]) hComputes (by simp) (.inl (Nat.le_refl 0))
    fun s hs _ => hf s hs).mono ?_
  rintro id p' g' - ⟨hShows, -, hTime⟩
  exact ⟨hShows, hTime⟩

/-- A constant is planned as its word. -/
theorem Good.int32 (h : p.Good g) (v : Int) :
    p.Plans g (Build.int32 v) fun id p' =>
      p'.Shows id ⟨.word ((BitVec.ofInt 32 v).setWidth 64), 0⟩ ∧ p'.time = p.time := by
  refine h.leaf rfl (.constant rfl rfl) fun s _ => ?_
  show (BitVec.ofInt 32 (BitVec.ofInt 32 v).toInt).setWidth 64 = _
  rw [BitVec.ofInt_toInt]

/-- The constant for true is planned as the object of the heap. -/
theorem Good.trueConstant (h : p.Good g) :
    p.Plans g (Build.push (.heap trueValue)) fun id p' =>
      p'.Shows id ⟨.word c.heap.trueObject, 0⟩ ∧ p'.time = p.time := by
  have hWord : constantWord? (.heap trueValue) .heap = some fun heap => heap.trueObject := by
    simp [constantWord?, Node.heap]
  exact h.leaf rfl (.constant rfl hWord) fun _ hs => hs.trueObject

/-- The constant for false is planned as the object of the heap. -/
theorem Good.falseConstant (h : p.Good g) :
    p.Plans g (Build.push (.heap falseValue)) fun id p' =>
      p'.Shows id ⟨.word c.heap.falseObject, 0⟩ ∧ p'.time = p.time := by
  have hNe : falseValue ≠ trueValue := by decide
  have hWord : constantWord? (.heap falseValue) .heap = some fun heap => heap.falseObject := by
    simp [constantWord?, Node.heap, hNe]
  exact h.leaf rfl (.constant rfl hWord) fun _ hs => hs.falseObject

/-- A word operator; what it computes has everything behind it that its left operand has. -/
theorem Good.binary (h : p.Good g) {op : Operator} {f : BitVec 64 → BitVec 64 → BitVec 64}
    {lx ly : Label} (u : BitVec 64) (hOp : op.onWords? = some f) (hx : p.Shows x lx)
    (hy : p.Shows y ly)
    (hf : ∀ s v w, lx.meaning.Of s v → ly.meaning.Of s w → f v w = u) :
    p.Plans g (Build.node op [x, y]) fun id p' =>
      p'.Shows id ⟨.word u, lx.stamp⟩ ∧ p'.HasNode id (.ofArity op [x, y]) ∧
        p'.time = p.time := by
  -- The word takes the stamp of the first operand, which backs it.
  refine h.computes ⟨.word u, lx.stamp⟩ ?_ (.words hOp rfl rfl) ?_
    (.inr ⟨x, by simp, lx, hx, Nat.le_refl _⟩) ?_
  · intro z hz
    obtain rfl | rfl : z = x ∨ z = y := by simpa [Node.ofArity] using hz
    · exact hx.has
    · exact hy.has
  · intro z hz
    obtain rfl | rfl : z = x ∨ z = y := by simpa using hz
    · exact ⟨lx, hx⟩
    · exact ⟨ly, hy⟩
  · intro s _ hs
    exact hf s _ _ (hs x lx (by simp) hx) (hs y ly (by simp) hy)

/-- An operator on two words that are planned is planned as its word. -/
theorem Good.words (h : p.Good g) {op : Operator} {f : BitVec 64 → BitVec 64 → BitVec 64}
    {v w : BitVec 64} {t' : Nat} (hOp : op.onWords? = some f) (hx : p.Shows x ⟨.word v, t⟩)
    (hy : p.Shows y ⟨.word w, t'⟩) :
    p.Plans g (Build.node op [x, y]) fun id p' =>
      p'.Shows id ⟨.word (f v w), t⟩ ∧ p'.HasNode id (.ofArity op [x, y]) ∧ p'.time = p.time := by
  refine h.binary (f v w) hOp hx hy ?_
  rintro s _ _ rfl rfl
  rfl

/-- A conversion. -/
theorem Good.converts (h : p.Good g) {f : Conversion} {v : BitVec 64}
    (hx : p.Shows x ⟨.word v, t⟩) :
    p.Plans g (Build.node (.convert f) [x]) fun id p' =>
      p'.Shows id ⟨.word (f.eval v), t⟩ ∧ p'.time = p.time := by
  refine (h.computes ⟨.word (f.eval v), t⟩ (by simpa [Node.ofArity] using hx.has)
    (.convert rfl rfl) (by simpa using ⟨_, hx⟩) (.inr ⟨x, by simp, _, hx, Nat.le_refl t⟩) ?_).mono ?_
  · intro s _ hs
    have hsx : s.value x = v := hs x _ (by simp) hx
    show f.eval (s.value x) = f.eval v
    rw [hsx]
  · rintro id p' g' - ⟨hShows, -, hTime⟩
    exact ⟨hShows, hTime⟩

/-- The sum of an operation that reports its overflow. -/
theorem Good.sum (h : p.Good g) (hx : p.Shows x l) (hn : p.HasNode x n) :
    p.Plans g (Build.push (.projection 0 x)) fun id p' => p'.Shows id l ∧ p'.time = p.time := by
  refine (h.computes l (by simpa [Node.projection] using hx.has) (.result rfl rfl rfl hn)
    (by simpa using ⟨_, hx⟩) (.inr ⟨x, by simp, l, hx, Nat.le_refl _⟩)
    fun s _ hs => hs x l (by simp) hx).mono ?_
  rintro id p' g' - ⟨hShows, -, hTime⟩
  exact ⟨hShows, hTime⟩

/-- Whether a word added to itself overflows. -/
def doubleOverflows (v : BitVec 64) : Bool :=
  (v.setWidth 32 + v.setWidth 32 : BitVec 32).toInt !=
    (v.setWidth 32 : BitVec 32).toInt + (v.setWidth 32 : BitVec 32).toInt

/-- The overflow of a word added to itself is planned, as the fragments ask for it to see whether a
word is small enough to be tagged. -/
theorem Good.overflow (h : p.Good g) {v : BitVec 64} {z : NodeId} (hz : p.Shows z ⟨.word v, t⟩)
    (hx : p.HasNode x (.ofArity (.int32 .addWithOverflow) [z, z])) :
    p.Plans g (Build.push (.projection 1 x)) fun id p' =>
      p'.Shows id ⟨.word (truth (doubleOverflows v)), t⟩ ∧ p'.time = p.time := by
  refine (h.computes ⟨.word (truth (doubleOverflows v)), t⟩
    (by simpa [Node.projection] using hx.has) (.overflow rfl rfl rfl hx rfl rfl rfl)
    (by simpa using ⟨_, hz⟩) (.inr ⟨z, by simp, _, hz, Nat.le_refl t⟩) ?_).mono ?_
  · intro s _ hs
    have hsz : s.value z = v := hs z _ (by simp) hz
    simp only [hsz]
    exact rfl
  · rintro id p' g' - ⟨hShows, -, hTime⟩
    exact ⟨hShows, hTime⟩

/-- A join of values. -/
theorem Good.phi (h : p.Good g) {rep : Rep} {merge : NodeId} {k : Nat}
    (hInputs : ∀ z ∈ [x, y, merge], p.Has z) (hMerge : p.Joins merge k) (hk : k < 2)
    (hShows : p.Shows (if k = 0 then x else y) l) :
    p.Plans g (Build.push (.phi rep [x, y, merge])) fun id p' =>
      p'.Shows id l ∧ p'.time = p.time := by
  -- The merge is entered through one of its two inputs, so the join takes the value of that arm.
  have hTaken : (Node.phi rep [x, y, merge]).input k = .ok (if k = 0 then x else y) := by
    obtain rfl | rfl : k = 0 ∨ k = 1 := by omega
    · rfl
    · rfl
  have hStamp : l.stamp ≤ p.time := by
    obtain ⟨e, he, -, hl⟩ := hShows
    exact h.valid.stamp_le he hl
  refine (h.grants hInputs (.phi rfl rfl hMerge hTaken hShows) hStamp).mono ?_
  rintro id p' g' - ⟨hShows, -, hTime⟩
  exact ⟨hShows, hTime⟩

/-- A control node. -/
theorem Good.reaches (h : p.Good g) {b : Bool} (hClosed : ∀ x ∈ n.inputs, p.Has x)
    (hArrives : p.Arrives p.count n b) :
    p.Plans g (Build.push n) fun id p' =>
      p'.Enters id b ∧ p'.HasNode id n ∧ p'.time = p.time := by
  have hAdmits : p.Admits g.size { node := n, rank := 0, reached := some b } none := by
    refine ⟨h.fresh, hClosed, nofun, ?_, nofun⟩
    rintro b' ⟨⟩
    exact hArrives
  refine (h.push rfl hAdmits).mono ?_
  rintro id p' g' - ⟨rfl, rfl⟩
  exact ⟨enters_insert rfl, hasNode_insert, rfl⟩

/-- A node that only passes effects on. -/
theorem Good.flows (h : p.Good g) (hClosed : ∀ x ∈ n.inputs, p.Has x)
    (hFlows : p.Flows p.count n none t) :
    p.Plans g (Build.push n) fun id p' => p'.Orders id t ∧ p'.time = p.time := by
  have hAdmits : p.Admits g.size { node := n, rank := 0, effect := some t } none := by
    refine ⟨h.fresh, hClosed, nofun, nofun, ?_⟩
    rintro t' ⟨⟩
    exact hFlows
  refine (h.push rfl hAdmits).mono ?_
  rintro id p' g' - ⟨rfl, rfl⟩
  exact ⟨orders_insert rfl, rfl⟩

/-- The end of an allocation. -/
theorem Good.finish (h : p.Good g) {m : Meaning} {t' : Nat} (hx : p.Shows x ⟨m, t'⟩)
    (hy : p.Orders y t) (ht : t ≤ p.time) :
    p.Plans g (Build.node .finish [x, y]) fun id p' =>
      p'.Shows id ⟨m, t⟩ ∧ p'.Orders id t ∧ p'.time = p.time := by
  -- The value is that of the operand, and it is there once the effects have run.
  have hAdmits : p.Admits g.size
      { node := .ofArity .finish [x, y], rank := 0, value := some ⟨m, t⟩, effect := some t } none := by
    refine ⟨h.fresh, ?_, ?_, nofun, ?_⟩
    · intro z hz
      obtain rfl | rfl : z = x ∨ z = y := by simpa [Node.ofArity] using hz
      · exact hx.has
      · exact hy.has
    · rintro l ⟨⟩
      refine ⟨Grants.mono ?_ (le_insert h.valid h.fresh), ht⟩
      exact .finish rfl rfl rfl hx hy rfl (Nat.le_refl t)
    · rintro t' ⟨⟩
      exact .finish rfl rfl hy
  refine (h.push rfl hAdmits).mono ?_
  rintro id p' g' - ⟨rfl, rfl⟩
  exact ⟨shows_insert rfl, orders_insert rfl, rfl⟩

/-- What is planned of the effect inputs of a node. -/
structure Ordered (p : Plan c) (n : Node) (t : Nat) : Prop where
  isAccess : n.op.isAccess = true
  anchored : p.Anchored p.count n t
  inputs : ∃ xs, n.effectInputs = .ok xs ∧ ∀ x ∈ xs, ∃ t, p.Orders x t

/-- An access that does not count as an event. It may stand in the control chain as well. -/
def stillEntry (n : Node) (l : Label) (b? : Option Bool) : Entry :=
  { node := n, rank := 0, value := some l, reached := b?, effect := some l.stamp }

/-- An access that does not count may be planned with a label that is backed: it changes the heap
only in ways that leave what is known alone. -/
theorem Good.admits_still (h : p.Good g) (l : Label) (b? : Option Bool) {xs : List NodeId}
    {act : (NodeId → BitVec 64) → Heap → Heap × BitVec 64} (hFresh : p.entry id = none)
    (hClosed : ∀ x ∈ n.inputs, p.Has x) (hAccesses : p.Accesses n xs act)
    (hShows : ∀ x ∈ xs, ∃ l, p.Shows x l) (hOrdered : p.Ordered n t)
    (hReached : ∀ b ∈ b?, p.Arrives p.count n b) (hStamp : p.Behind xs t l.stamp)
    (hTime : l.stamp ≤ p.time)
    (hMeans : ∀ s : State, c.heap.Like s.heap → s.values id = none → p.Meant xs s →
      c.Harmless s.heap (act s.value s.heap).1 ∧
        l.meaning.Of (s.learn id (act s.value s.heap)) (act s.value s.heap).2) :
    p.Admits id (stillEntry n l b?) none := by
  obtain ⟨es, hEffects, hOrders⟩ := hOrdered.inputs
  refine ⟨hFresh, hClosed, ?_, hReached, ?_⟩
  · -- The value, by the rule for accesses that are no events.
    rintro l' ⟨⟩
    refine ⟨Grants.mono ?_ (le_insert h.valid hFresh), hTime⟩
    exact .still hAccesses (shows_label hShows) hOrdered.anchored hStamp.backs
      fun s hs hNone hLabels => hMeans s hs hNone (meant_of_label hLabels)
  · -- The effects, which are over with the access.
    rintro t' ⟨⟩
    exact .access hOrdered.isAccess hEffects hOrders rfl

/-- An access that does not count is added to the graph and the plan. -/
theorem Good.still {b? : Option Bool} (h : p.Good g)
    (hAdmits : p.Admits g.size (stillEntry n l b?) none) :
    p.Plans g (Build.push n) fun id p' =>
      p'.Shows id l ∧ p'.Orders id l.stamp ∧ (∀ b ∈ b?, p'.Enters id b) ∧ p'.time = p.time := by
  refine (h.push rfl hAdmits).mono ?_
  rintro id p' g' - ⟨rfl, rfl⟩
  exact ⟨shows_insert rfl, orders_insert rfl, fun b hb => enters_insert hb, rfl⟩

/-- The next event. It may stand in the control chain as well. -/
def eventEntry (p : Plan c) (n : Node) (m : Meaning) (b? : Option Bool) : Entry :=
  { node := n, rank := 0, value := some ⟨m, p.time + 1⟩, reached := b?, effect := some (p.time + 1) }

/-- An access may be planned as the next event: it happens after all events so far, and turns what
is known of the memory into what is known after it. -/
theorem Good.admits_event (h : p.Good g) (m : Meaning) (b? : Option Bool) {xs : List NodeId}
    {act : (NodeId → BitVec 64) → Heap → Heap × BitVec 64} {before : Knowledge c}
    (after : Knowledge c) (hFresh : p.entry id = none) (hClosed : ∀ x ∈ n.inputs, p.Has x)
    (hAccesses : p.Accesses n xs act) (hShows : ∀ x ∈ xs, ∃ l, p.Shows x l)
    (hOrdered : p.Ordered n t) (hReached : ∀ b ∈ b?, p.Arrives p.count n b)
    (hStamp : p.Behind xs t p.time) (hBefore : p.known p.time = some before)
    (hMeans : ∀ s : State, c.heap.Like s.heap → s.values id = none → p.Meant xs s →
      before.Holds s →
      after.Holds (s.learn id (act s.value s.heap)) ∧
        m.Of (s.learn id (act s.value s.heap)) (act s.value s.heap).2) :
    p.Admits id (p.eventEntry n m b?) (some after) := by
  obtain ⟨es, hEffects, hOrders⟩ := hOrdered.inputs
  have hLe : p.Le (p.insert id (p.eventEntry n m b?) (some after)) := le_insert h.valid hFresh
  refine ⟨hFresh, hClosed, ?_, hReached, ?_⟩
  · -- The value, by the rule for events.
    rintro l' ⟨⟩
    refine ⟨.event (hAccesses.mono hLe)
      (fun x hx => Value.mono (shows_label hShows x hx) hLe (Nat.le_refl _))
      (hOrdered.anchored.mono hLe (Nat.le_refl _)) (Nat.succ_pos _) hStamp.backs
      (hLe.known hBefore) (if_pos ⟨rfl, rfl⟩)
      fun s hs hNone hLabels => hMeans s hs hNone (meant_of_label hLabels), rfl⟩
  · -- The effects, which are over with the event.
    rintro t' ⟨⟩
    exact .access hOrdered.isAccess hEffects hOrders rfl

/-- The next event is added to the graph and the plan. -/
theorem Good.event {m : Meaning} {b? : Option Bool} {after : Knowledge c} (h : p.Good g)
    (hAdmits : p.Admits g.size (p.eventEntry n m b?) (some after)) :
    p.Plans g (Build.push n) fun id p' =>
      p'.Shows id ⟨m, p.time + 1⟩ ∧ p'.Orders id (p.time + 1) ∧ (∀ b ∈ b?, p'.Enters id b) ∧
        p'.time = p.time + 1 ∧ p'.known (p.time + 1) = some after := by
  refine (h.push rfl hAdmits).mono ?_
  rintro id p' g' - ⟨rfl, rfl⟩
  exact ⟨shows_insert rfl, orders_insert rfl, fun b hb => enters_insert hb, rfl, if_pos ⟨rfl, rfl⟩⟩

/-! ## Start and return -/

/-- The plan of nothing. -/
def nothing (K : Knowledge c) : Plan c where
  entry _ := none
  known t := if t = 0 then some K else none
  time := 0
  count := 0

/-- The plan of nothing fits every graph. -/
theorem nothing_good (K : Knowledge c) (g : Graph) : (nothing K).Good g where
  valid :=
    { rank_lt := nofun, closed := nofun, value := nofun, stamp_le := nofun, once := nofun
      reached := nofun, effect := nofun, known_le := fun ht => if_neg (Nat.ne_of_gt ht) }
  fits := by
    intro id e he
    cases he

/-- What is planned before anything happens. -/
structure Begins (p : Plan c) (K : Knowledge c) : Prop where
  plain : ∀ id, c.given id = false
  control : p.Enters Graph.start true
  effect : p.Orders Graph.start 0
  known : p.known 0 = some K

/-- What is planned before anything happens stays so. -/
theorem Begins.mono {K : Knowledge c} (h : p.Begins K) (hLe : p.Le p') : p'.Begins K :=
  ⟨h.plain, h.control.mono hLe, h.effect.mono hLe, hLe.known h.known⟩

/-- The start node is planned. -/
theorem exists_begins (K : Knowledge c) (hPlain : ∀ id, c.given id = false) :
    ∃ p : Plan c, p.Good .empty ∧ p.Begins K ∧ p.time = 0 ∧ p.count = 1 := by
  let e : Entry := { node := { op := .start }, rank := 0, reached := some true, effect := some 0 }
  have hAdmits : (nothing K).Admits Graph.start e none := by
    refine ⟨rfl, by simp [e], nofun, ?_, ?_⟩
    · rintro b ⟨⟩
      exact .start rfl
    · rintro t ⟨⟩
      exact .quiet (.inl rfl)
  exact ⟨_, (nothing_good K .empty).insert rfl hAdmits,
    ⟨hPlain, enters_insert rfl, orders_insert rfl, rfl⟩, rfl, rfl⟩

/-- A graph whose return is planned gives the planned value, and the plan holds of what is left. -/
theorem Good.returns (h : p.Good g) {K : Knowledge c} (hBegins : p.Begins K)
    (hK : K.Holds { heap := c.heap }) {ret exit z : NodeId}
    (hRet : g.node? ret = some (.ofArity .ret [x, y, z])) (hExit : g.exit = some exit)
    (hLast : g.node? exit = some (.collect [ret])) (hOut : p.entry ret = none)
    (hx : p.Shows x l) (hy : p.Orders y t) (hz : p.Enters z true) (hCount : p.count ≤ g.size) :
    ∃ v k s, run ⟨c.heap⟩ g c.arguments = (.ok v, ⟨s.heap⟩) ∧ p.Holds (fun _ => False) k s ∧
      l.meaning.Of s v ∧ l.stamp ≤ k ∧ t ≤ k := by
  have hValueIn : g.valueIn ret 0 = .ok x := by
    unfold Graph.valueIn
    rw [Graph.node_eq_ok.mpr hRet]
    rfl
  -- The evaluation of a valid plan gives the planned value, since all that the return asks for is
  -- planned.
  obtain ⟨v, k, s, hRun, hHolds, hv, ht⟩ :=
    h.valid.evaluates hBegins.plain h.fits hExit hLast rfl hRet rfl hOut
    hValueIn rfl rfl hx hy hz hCount (by
      intro K' hK'
      rw [hBegins.known] at hK'
      cases hK'
      exact hK)
  obtain ⟨e, he, -, hl⟩ := hx
  obtain ⟨hOf, hLe⟩ := hHolds.value he hl hv
  exact ⟨v, k, s, hRun, hHolds, hOf, hLe, ht⟩

end Plan
end Machine
end ArmBackend
