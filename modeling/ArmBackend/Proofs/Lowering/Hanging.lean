import ArmBackend.Proofs.Lowering.Added

/-!
# Where the nodes of a fragment hang

A fragment that branches has a branch on the control where it starts, two arms and a merge behind
them. Every other node of it but the joins hangs on that control or on one of the arms: it depends
on what the change takes, on nodes that hang there too, and on the control itself (`Hangs`). The
joins hang on the merge.

This is what the place of a node depends on in a schedule. `Added` is about the numbers of nodes;
here the graph that the fragment is a part of may go on to change, as long as edges of a kind are
led elsewhere together (`Hangs.rewires`).

## Results

* `fragment_stands` — where the nodes of the fragment of a change hang, and what it answers with.
-/

namespace ArmBackend

/-- Whether the operator of a node leaves it to its inputs where the node stands. -/
def Operator.isPlain (op : Operator) : Bool :=
  !op.isHead && !op.isPhi && !op.isChange && op ≠ .branch && op ≠ .ret

namespace Lowering

open Build

/-- Where a fragment stands: what the change takes, by the kind of the edge, and the control that
the fragment starts at. -/
structure Site where
  takes : EdgeKind → NodeId → Prop
  base : NodeId
  /-- Whether nodes of the fragment may have a control input. -/
  pins : Prop

/-- The branch of a fragment, its arms and the merge. -/
structure Arms where
  branch : NodeId
  ifTrue : NodeId
  ifFalse : NodeId
  merge : NodeId

variable {α β : Type} {l : Layout} {e : Entry} {base g g' : Graph} {s : Site} {arms : Option Arms}
  {a : Arms} {n : Node} {k w x y : NodeId} {kind : EdgeKind}

/-! ## Nodes that hang on a control -/

/-- Whether a node of a fragment hangs on the control `k`, or on the control that the fragment
starts at. -/
inductive Hangs (g : Graph) (s : Site) : NodeId → NodeId → Prop
  | node {k w : NodeId} {m : Node} (hm : g.node? w = some m) (hPlain : m.op.isPlain = true)
      (hControl : m.controlCount ≠ 0 → s.pins ∧ m.controlIn = .ok k)
      (hEdges : ∀ p ∈ m.edges, p ≠ (.control, k) → ¬s.takes p.1 p.2 → Hangs g s k p.2) :
      Hangs g s k w
  | lift {k w : NodeId} (h : Hangs g s s.base w) : Hangs g s k w

/-- Whether a node that hangs on `k` may take `x`. -/
def Feeds (g : Graph) (s : Site) (k : NodeId) (kind : EdgeKind) (x : NodeId) : Prop :=
  s.takes kind x ∨ Hangs g s k x

/-- A plain node hangs where its control is, if each of its values and effects does too. -/
theorem Hangs.of_edges {m : Node} (hm : g.node? w = some m) (hPlain : m.op.isPlain = true)
    (hControl : m.controlCount ≠ 0 → s.pins ∧ m.controlIn = .ok k)
    (hEdges : ∀ p ∈ m.edges, p = (.control, k) ∨ Feeds g s k p.1 p.2) : Hangs g s k w := by
  refine .node hm hPlain hControl fun p hp hNotControl hNotTaken => ?_
  exact ((hEdges p hp).resolve_left hNotControl).resolve_left hNotTaken

/-- What a node that hangs on a control is like. -/
theorem Hangs.cases_node (h : Hangs g s k w) : ∃ (k' : NodeId) (m : Node), (k' = k ∨ k' = s.base) ∧
    g.node? w = some m ∧ m.op.isPlain = true ∧
      (m.controlCount ≠ 0 → s.pins ∧ m.controlIn = .ok k') ∧
      ∀ p ∈ m.edges, p = (.control, k') ∨ Feeds g s k' p.1 p.2 := by
  induction h with
  | @node k w m hm hPlain hControl hEdges _ =>
    refine ⟨k, m, .inl rfl, hm, hPlain, hControl, fun p hp => ?_⟩
    by_cases hIs : p = (.control, k)
    · exact .inl hIs
    · by_cases hTaken : s.takes p.1 p.2
      · exact .inr (.inl hTaken)
      · exact .inr (.inr (hEdges p hp hIs hTaken))
  | lift _ ih =>
    obtain ⟨k', m, hk, hRest⟩ := ih
    exact ⟨k', m, .inr (hk.elim id id), hRest⟩

/-- A node hangs where it did when others are added. -/
theorem Hangs.grows (h : Hangs g s k w) (hGrows : Grows g g') : Hangs g' s k w := by
  induction h with
  | node hm hPlain hControl _ ih => exact .node (hGrows.node hm) hPlain hControl ih
  | lift _ ih => exact .lift ih

/-- What may be taken may still be taken when nodes are added. -/
theorem Feeds.grows (h : Feeds g s k kind x) (hGrows : Grows g g') : Feeds g' s k kind x :=
  h.imp_right fun hHangs => hHangs.grows hGrows

/-- What hangs in front of the branch may be taken on its arms. -/
theorem Feeds.lift (h : Feeds g s s.base kind x) : Feeds g s k kind x :=
  h.imp_right .lift

/-! ## Branches and joins -/

/-- The branch of a fragment, its arms and the merge in the graph. -/
structure Branched (g : Graph) (s : Site) (a : Arms) : Prop where
  branch : ∃ condition, g.node? a.branch = some (.ofArity .branch [condition, s.base]) ∧
    Feeds g s s.base .value condition
  ifTrue : g.node? a.ifTrue = some (.ofArity .ifTrue [a.branch])
  ifFalse : g.node? a.ifFalse = some (.ofArity .ifFalse [a.branch])
  merge : g.node? a.merge = some (.merge [a.ifTrue, a.ifFalse])

/-- The arms and the merge of a diamond under its branch. -/
def Diamond.under (d : Diamond) (branch : NodeId) : Arms :=
  ⟨branch, d.ifTrue, d.ifFalse, d.merge⟩

/-- Whether `k` is one of the arms. -/
def Arms.IsArm (a : Arms) (k : NodeId) : Prop :=
  k = a.ifTrue ∨ k = a.ifFalse

/-- Whether `w` is the branch, an arm or the merge. -/
def Arms.Has (a : Arms) (w : NodeId) : Prop :=
  w = a.branch ∨ w = a.ifTrue ∨ w = a.ifFalse ∨ w = a.merge

/-- An arm belongs to the branch. -/
theorem Arms.IsArm.has (h : a.IsArm k) : a.Has k := by
  rcases h with rfl | rfl
  · exact .inr (.inl rfl)
  · exact .inr (.inr (.inl rfl))

/-- Whether a node joins at the merge what hangs on the arms. -/
def Joined (g : Graph) (s : Site) (a : Arms) (w : NodeId) : Prop :=
  ∃ m, g.node? w = some m ∧ m.op.isPhi = true ∧ m.controlCount ≠ 0 ∧ m.controlIn = .ok a.merge ∧
    ∀ p ∈ m.edges, p = (.control, a.merge) ∨ ∃ k, a.IsArm k ∧ Feeds g s k p.1 p.2

/-- A control that nodes of a fragment hang on. -/
def Level (s : Site) (arms : Option Arms) (k : NodeId) : Prop :=
  k = s.base ∨ ∃ a, arms = some a ∧ a.IsArm k

/-- What the nodes of a fragment are. -/
inductive Part (g : Graph) (s : Site) (arms : Option Arms) (w : NodeId) : Prop
  | hangs {k : NodeId} (hk : Level s arms k) (h : Hangs g s k w)
  | forks {a : Arms} (ha : arms = some a) (hw : a.Has w)
  | joined {a : Arms} (ha : arms = some a) (h : Joined g s a w)

/-- A join stays one when nodes are added. -/
theorem Joined.grows (h : Joined g s a w) (hGrows : Grows g g') : Joined g' s a w := by
  obtain ⟨m, hm, hPhi, hCount, hControl, hEdges⟩ := h
  refine ⟨m, hGrows.node hm, hPhi, hCount, hControl, fun p hp => (hEdges p hp).imp_right ?_⟩
  rintro ⟨k, hk, hFeeds⟩
  exact ⟨k, hk, hFeeds.grows hGrows⟩

/-- A branch keeps its arms when nodes are added. -/
theorem Branched.grows (h : Branched g s a) (hGrows : Grows g g') : Branched g' s a := by
  obtain ⟨condition, hBranch, hFeeds⟩ := h.branch
  exact ⟨⟨condition, hGrows.node hBranch, hFeeds.grows hGrows⟩, hGrows.node h.ifTrue,
    hGrows.node h.ifFalse, hGrows.node h.merge⟩

/-- A part of a fragment stays one when nodes are added. -/
theorem Part.grows (h : Part g s arms w) (hGrows : Grows g g') : Part g' s arms w := by
  cases h with
  | hangs hk h => exact .hangs hk (h.grows hGrows)
  | forks ha hw => exact .forks ha hw
  | joined ha h => exact .joined ha (h.grows hGrows)

/-- What hangs before there is a branch is a part afterwards. -/
theorem Part.of_none (h : Part g s none w) : Part g s arms w := by
  cases h with
  | hangs hk h =>
    refine .hangs (.inl ?_) h
    rcases hk with hBase | ⟨a, ha, -⟩
    · exact hBase
    · cases ha
  | forks ha | joined ha => cases ha

/-- Whether the nodes that were added to a graph are nodes of a fragment. -/
structure Parts (base g : Graph) (s : Site) (arms : Option Arms) : Prop where
  size_le : base.size ≤ g.size
  part : ∀ {w m}, (base.size : Int) ≤ w → g.node? w = some m → Part g s arms w
  fresh : ∀ {a w}, arms = some a → a.Has w → (base.size : Int) ≤ w

namespace Parts

/-- Nothing was added yet. -/
theorem refl : Parts g g s none where
  size_le := Nat.le_refl _
  part hw hm := absurd (Graph.node?_lt hm).2 (Int.not_lt.mpr hw)
  fresh := nofun

/-- The fragment branches from here on. -/
theorem fork (h : Parts base g s none) (hNew : ∀ w, a.Has w → (g.size : Int) ≤ w) :
    Parts base g s (some a) where
  size_le := h.size_le
  part hw hm := (h.part hw hm).of_none
  fresh ha hHas := by
    cases ha
    exact Int.le_trans (Int.ofNat_le.mpr h.size_le) (hNew _ hHas)

/-- Nodes are added at the end. -/
theorem append {ns : List Node} (h : Parts base g s arms)
    (hNew : ∀ (j : Nat) m, ns[j]? = some m → Part (g.append ns) s arms ((g.size + j : Nat) : Int)) :
    Parts base (g.append ns) s arms where
  size_le := by
    have := h.size_le
    rw [Graph.size_append]
    omega
  part hw hm := by
    rcases Graph.node?_append_cases hm with hOld | ⟨j, rfl, hj⟩
    · exact (h.part hw hOld).grows (.append g ns)
    · exact hNew j _ hj
  fresh := h.fresh

end Parts

/-! ## Steps that add nodes -/

/-- One more node of a fragment. -/
theorem part_hangs (h : Parts base g s arms) (hPart : ∀ g', Grows g g' →
    g'.node? g.size = some n → Part g' s arms g.size) :
    Adds g (push n) fun id g' => Parts base g' s arms ∧ g'.node? id = some n ∧
      id = (g.size : Int) ∧ g'.size = g.size + 1 := by
  have hNode : (g.append [n]).node? g.size = some n := g.node?_push n
  have hParts : Parts base (g.append [n]) s arms := h.append fun j m hj => by
    cases j with
    | zero =>
      cases hj
      exact hPart _ (.append g [n]) hNode
    | succ j => cases hj
  constructor
  · rw [run_push]
    exact .append g [n]
  · rw [run_push]
    exact ⟨hParts, hNode, rfl, Graph.size_append [n]⟩

/-- One more node that hangs on a control. -/
theorem node_hangs (h : Parts base g s arms) (hk : Level s arms k) (hPlain : n.op.isPlain = true)
    (hControl : n.controlCount ≠ 0 → s.pins ∧ n.controlIn = .ok k)
    (hEdges : ∀ p ∈ n.edges, p = (.control, k) ∨ Feeds g s k p.1 p.2) :
    Adds g (push n) fun id g' => Parts base g' s arms ∧ Hangs g' s k id := by
  have hHangs : ∀ id g', Grows g g' → g'.node? id = some n → Hangs g' s k id := by
    intro id g' hGrows hm
    exact .of_edges hm hPlain hControl fun p hp =>
      (hEdges p hp).imp_right fun hFeeds => hFeeds.grows hGrows
  refine (part_hangs h fun g' hGrows hm => .hangs hk (hHangs _ g' hGrows hm)).mono ?_
  rintro id g' hGrows ⟨hParts, hm, -⟩
  exact ⟨hParts, hHangs id g' hGrows hm⟩

/-- A node without inputs hangs on any control. -/
theorem leaf_hangs (h : Parts base g s arms) (hPlain : n.op.isPlain = true)
    (hInputs : n.inputs = []) (hControl : n.controlCount = 0) :
    Adds g (push n) fun id g' => Parts base g' s arms ∧ ∀ k, Hangs g' s k id := by
  have hEdges : n.edges = [] := by
    unfold Node.edges
    rw [hInputs]
    rfl
  refine (node_hangs h (.inl rfl) hPlain (fun hSome => absurd hControl hSome) ?_).mono ?_
  · rw [hEdges]
    nofun
  · exact fun id g' _ hNew => ⟨hNew.1, fun _ => hNew.2.lift⟩

/-- A constant hangs anywhere. -/
theorem int32_hangs (h : Parts base g s arms) (v : Int) :
    Adds g (int32 v) fun id g' => Parts base g' s arms ∧ ∀ k, Hangs g' s k id :=
  leaf_hangs h rfl rfl rfl

/-- An operator on two words. -/
theorem binary_hangs {op : Operator} (h : Parts base g s arms) (hk : Level s arms k)
    (hArity : op.arity? = some ⟨some 2, some 0, some 0⟩) (hPlain : op.isPlain = true)
    (hx : Feeds g s k .value x) (hy : Feeds g s k .value y) :
    Adds g (node op [x, y]) fun id g' => Parts base g' s arms ∧ Hangs g' s k id := by
  have hEdges : (Node.ofArity op [x, y]).edges = [(.value, x), (.value, y)] := by
    unfold Node.edges Node.ofArity Node.edgeKind
    rw [hArity]
    rfl
  have hNone : (Node.ofArity op [x, y]).controlCount = 0 := by
    unfold Node.ofArity
    rw [hArity]
    rfl
  refine node_hangs h hk hPlain (fun hSome => absurd hNone hSome) ?_
  rw [hEdges]
  exact List.forall_mem_cons.mpr ⟨.inr hx, List.forall_mem_singleton.mpr (.inr hy)⟩

/-- An operator on one word. -/
theorem unary_hangs {op : Operator} (h : Parts base g s arms) (hk : Level s arms k)
    (hArity : op.arity? = some ⟨some 1, some 0, some 0⟩) (hPlain : op.isPlain = true)
    (hx : Feeds g s k .value x) :
    Adds g (node op [x]) fun id g' => Parts base g' s arms ∧ Hangs g' s k id := by
  have hEdges : (Node.ofArity op [x]).edges = [(.value, x)] := by
    unfold Node.edges Node.ofArity Node.edgeKind
    rw [hArity]
    rfl
  have hNone : (Node.ofArity op [x]).controlCount = 0 := by
    unfold Node.ofArity
    rw [hArity]
    rfl
  refine node_hangs h hk hPlain (fun hSome => absurd hNone hSome) ?_
  rw [hEdges]
  exact List.forall_mem_singleton.mpr (.inr hx)

/-- A projection hangs where its operation does. -/
theorem projection_hangs (h : Parts base g s arms) (hk : Level s arms k) (index : Int)
    (hx : Feeds g s k .value x) :
    Adds g (push (.projection index x)) fun id g' => Parts base g' s arms ∧ Hangs g' s k id :=
  node_hangs h hk rfl (fun hSome => absurd rfl hSome) (List.forall_mem_singleton.mpr (.inr hx))

/-! ## Pieces of fragments -/

/-- An operator for words is plain if it is for either width. -/
theorem wordOp_isPlain {op32 op64 : Operator} (h32 : op32.isPlain = true)
    (h64 : op64.isPlain = true) : (wordOp l op32 op64).isPlain = true := by
  unfold wordOp
  split
  · exact h64
  · exact h32

/-- An operator for words takes what it takes for either width. -/
theorem wordOp_arity? {op32 op64 : Operator} {arity : Option Arity} (h32 : op32.arity? = arity)
    (h64 : op64.arity? = arity) : (wordOp l op32 op64).arity? = arity := by
  unfold wordOp
  split
  · exact h64
  · exact h32

/-- The tag bit hangs where the value does. -/
theorem tagBit_hangs (h : Parts base g s arms) (hk : Level s arms k) (hx : Feeds g s k .value x) :
    Adds g (tagBit l x) fun id g' => Parts base g' s arms ∧ Hangs g' s k id := by
  unfold tagBit
  refine (int32_hangs h _).bind ?_
  rintro mask g₁ hGrows₁ ⟨h₁, hMask⟩
  exact binary_hangs h₁ hk (wordOp_arity? rfl rfl) (wordOp_isPlain rfl rfl) (hx.grows hGrows₁)
    (.inr (hMask k))

/-- The shift into a small integer hangs where the word does. -/
theorem smiTag_hangs (h : Parts base g s arms) (hk : Level s arms k) (hx : Feeds g s k .value x)
    (unsigned : Bool) :
    Adds g (smiTag l x unsigned) fun id g' => Parts base g' s arms ∧ Hangs g' s k id := by
  unfold smiTag
  refine (int32_hangs h _).bind ?_
  rintro shift g₁ hGrows₁ ⟨h₁, hShift⟩
  have hx₁ := hx.grows hGrows₁
  split
  · exact binary_hangs h₁ hk rfl rfl hx₁ (.inr (hShift k))
  · have hWiden : Operator.arity? (.convert (if unsigned then .uint32ToUint64 else .int32ToInt64)) =
        some ⟨some 1, some 0, some 0⟩ := rfl
    refine (unary_hangs h₁ hk hWiden rfl hx₁).bind ?_
    rintro wide g₂ hGrows₂ ⟨h₂, hWide⟩
    exact binary_hangs h₂ hk rfl rfl (.inr hWide) (.inr ((hShift k).grows hGrows₂))

/-- The shift out of a small integer hangs where the value does. -/
theorem smiUntag_hangs (h : Parts base g s arms) (hk : Level s arms k) (hx : Feeds g s k .value x) :
    Adds g (smiUntag l x) fun id g' => Parts base g' s arms ∧ Hangs g' s k id := by
  unfold smiUntag
  refine (int32_hangs h _).bind ?_
  rintro shift g₁ hGrows₁ ⟨h₁, hShift⟩
  have hx₁ := hx.grows hGrows₁
  split
  · exact binary_hangs h₁ hk rfl rfl hx₁ (.inr (hShift k))
  · refine (binary_hangs h₁ hk rfl rfl hx₁ (.inr (hShift k))).bind ?_
    rintro wide g₂ - ⟨h₂, hWide⟩
    exact unary_hangs h₂ hk rfl rfl (.inr hWide)

/-- The effect of an allocation is that of the change, or is made of its value. -/
theorem allocationEffect_hangs (h : Parts base g s arms) (hk : Level s arms k)
    (hValue : s.takes .value e.value) (hEffect : 0 ≤ e.effect → s.takes .effect e.effect) :
    Adds g (allocationEffect e) fun id g' => Parts base g' s arms ∧ Feeds g' s k .effect id := by
  unfold allocationEffect
  split
  · next hNonneg => exact .pure ⟨h, .inl (hEffect hNonneg)⟩
  · refine (unary_hangs h hk rfl rfl (.inl hValue)).mono ?_
    exact fun id g' _ hNew => ⟨hNew.1, .inr hNew.2⟩

/-- A box hangs on the control of its allocation. -/
theorem box_hangs (h : Parts base g s arms) (hk : Level s arms k) (hPins : s.pins)
    (hNonneg : 0 ≤ k) (hValue : Feeds g s k .value x) (hEffect : Feeds g s k .effect y) :
    Adds g (box l x y k) fun boxed g' => Parts base g' s arms ∧ Hangs g' s k boxed.value ∧
      boxed.effect = boxed.value := by
  have hAnchor : Node.anchors k = [k] := if_pos hNonneg
  unfold box
  refine (leaf_hangs h rfl rfl rfl).bind ?_
  rintro target g₁ hGrows₁ ⟨h₁, hTarget⟩
  refine (int32_hangs h₁ _).bind ?_
  rintro size g₂ hGrows₂ ⟨h₂, hSize⟩
  -- The object: its size is a constant, and it comes behind the effect.
  have hCall : ∀ p ∈ (Node.call target [size] y k).edges,
      p = (.control, k) ∨ Feeds g₂ s k p.1 p.2 := by
    have hEdges : (Node.call target [size] y k).edges =
        [(.value, target), (.value, size), (.effect, y), (.control, k)] := rfl
    rw [hEdges]
    simp only [List.forall_mem_cons]
    exact ⟨.inr (.inr ((hTarget k).grows hGrows₂)), .inr (.inr (hSize k)),
      .inr (hEffect.grows (hGrows₁.trans hGrows₂)), .inl trivial, nofun⟩
  refine (node_hangs h₂ hk rfl (fun _ => ⟨hPins, rfl⟩) hCall).bind ?_
  rintro object g₃ hGrows₃ ⟨h₃, hObject⟩
  refine (int32_hangs h₃ _).bind ?_
  rintro offset g₄ hGrows₄ ⟨h₄, hOffset⟩
  -- The value is stored in the object, right behind its allocation.
  have hStore : ∀ p ∈ (Node.store .float64 .none object offset x object k).edges,
      p = (.control, k) ∨ Feeds g₄ s k p.1 p.2 := by
    have hEdges : (Node.store .float64 .none object offset x object k).edges =
        [(.value, object), (.value, offset), (.value, x), (.effect, object), (.control, k)] := by
      unfold Node.edges Node.store
      rw [hAnchor]
      rfl
    rw [hEdges]
    simp only [List.forall_mem_cons]
    exact ⟨.inr (.inr (hObject.grows hGrows₄)), .inr (.inr (hOffset k)),
      .inr (hValue.grows (hGrows₁.trans (hGrows₂.trans (hGrows₃.trans hGrows₄)))),
      .inr (.inr (hObject.grows hGrows₄)), .inl trivial, nofun⟩
  refine (node_hangs h₄ hk rfl ?_ hStore).bind ?_
  · intro _
    refine ⟨hPins, ?_⟩
    unfold Node.store
    rw [hAnchor]
    rfl
  rintro store g₅ hGrows₅ ⟨h₅, hStored⟩
  -- What is handed out is the object behind the store.
  have hFinish : ∀ p ∈ (Node.ofArity .finish [object, store]).edges,
      p = (.control, k) ∨ Feeds g₅ s k p.1 p.2 := by
    have hEdges : (Node.ofArity .finish [object, store]).edges =
        [(.value, object), (.effect, store)] := rfl
    rw [hEdges]
    simp only [List.forall_mem_cons]
    exact ⟨.inr (.inr (hObject.grows (hGrows₄.trans hGrows₅))), .inr (.inr hStored), nofun⟩
  refine (node_hangs h₅ hk rfl (fun hSome => absurd rfl hSome) hFinish).bind ?_
  rintro finish g₆ - ⟨h₆, hFinished⟩
  exact .pure ⟨h₆, hFinished, rfl⟩

/-- A load from a box hangs on its control. -/
theorem unbox_hangs (h : Parts base g s arms) (hk : Level s arms k) (hPins : s.pins)
    (hObject : Feeds g s k .value x) :
    Adds g (unbox l x k) fun id g' => Parts base g' s arms ∧ Hangs g' s k id := by
  unfold unbox
  refine (int32_hangs h _).bind ?_
  rintro offset g₁ hGrows₁ ⟨h₁, hOffset⟩
  refine (node_hangs h₁ hk rfl (fun _ => ⟨hPins, rfl⟩)
    (List.forall_mem_singleton.mpr (.inl rfl))).bind ?_
  rintro effect g₂ hGrows₂ ⟨h₂, hEffect⟩
  have hLoad : ∀ p ∈ (Node.load .float64 x offset effect (-1)).edges,
      p = (.control, k) ∨ Feeds g₂ s k p.1 p.2 := by
    have hEdges : (Node.load .float64 x offset effect (-1)).edges =
        [(.value, x), (.value, offset), (.effect, effect)] := rfl
    rw [hEdges]
    simp only [List.forall_mem_cons]
    exact ⟨.inr (hObject.grows (hGrows₁.trans hGrows₂)), .inr (.inr ((hOffset k).grows hGrows₂)),
      .inr (.inr hEffect), nofun⟩
  exact node_hangs h₂ hk rfl (fun hSome => absurd rfl hSome) hLoad

/-- A diamond on the control where the fragment starts. -/
theorem diamond_hangs (h : Parts base g s none) (hCondition : Feeds g s s.base .value x) :
    Adds g (diamond x s.base) fun d g' => ∃ branch,
      Parts base g' s (some (d.under branch)) ∧ Branched g' s (d.under branch) := by
  -- The four nodes get the next four numbers.
  let a : Arms := ⟨g.size, (g.size + 1 : Nat), (g.size + 2 : Nat), (g.size + 3 : Nat)⟩
  have hParts : Parts base g s (some a) := by
    refine h.fork ?_
    rintro w (rfl | rfl | rfl | rfl)
    all_goals exact Int.ofNat_le.mpr (by omega)
  unfold diamond
  refine (part_hangs hParts fun _ _ _ => .forks rfl (.inl rfl)).bind ?_
  rintro branch g₁ hGrows₁ ⟨h₁, hBranch, rfl, hSize₁⟩
  refine (part_hangs h₁ fun _ _ _ => .forks rfl (.inr (.inl ?_))).bind ?_
  · rw [hSize₁]
  rintro ifTrue g₂ hGrows₂ ⟨h₂, hTrue, rfl, hSize₂⟩
  refine (part_hangs h₂ fun _ _ _ => .forks rfl (.inr (.inr (.inl ?_)))).bind ?_
  · rw [hSize₂, hSize₁]
  rintro ifFalse g₃ hGrows₃ ⟨h₃, hFalse, rfl, hSize₃⟩
  refine (part_hangs h₃ fun _ _ _ => .forks rfl (.inr (.inr (.inr ?_)))).bind ?_
  · rw [hSize₃, hSize₂, hSize₁]
  rintro merge g₄ hGrows₄ ⟨h₄, hMerge, rfl, -⟩
  rw [hSize₁, hSize₂, hSize₁, hSize₃, hSize₂, hSize₁] at *
  refine .pure ⟨g.size, h₄, ?_, ?_, ?_, hMerge⟩
  · have hGrows := hGrows₁.trans (hGrows₂.trans (hGrows₃.trans hGrows₄))
    exact ⟨x, (hGrows₂.trans (hGrows₃.trans hGrows₄)).node hBranch, hCondition.grows hGrows⟩
  · exact (hGrows₃.trans hGrows₄).node hTrue
  · exact hGrows₄.node hFalse

/-- Whether a join may take `x`. -/
def OnArm (g : Graph) (s : Site) (a : Arms) (kind : EdgeKind) (x : NodeId) : Prop :=
  ∃ k, a.IsArm k ∧ Feeds g s k kind x

/-- What hangs in front of the branch may be joined from either arm. -/
theorem OnArm.of_base (h : Feeds g s s.base kind x) : OnArm g s a kind x :=
  ⟨a.ifTrue, .inl rfl, h.lift⟩

/-- What may be joined may still be joined when nodes are added. -/
theorem OnArm.grows (h : OnArm g s a kind x) (hGrows : Grows g g') : OnArm g' s a kind x := by
  obtain ⟨k, hk, hFeeds⟩ := h
  exact ⟨k, hk, hFeeds.grows hGrows⟩

/-- One more join. -/
theorem join_hangs (h : Parts base g s (some a)) (hPhi : n.op.isPhi = true)
    (hCount : n.controlCount ≠ 0) (hControl : n.controlIn = .ok a.merge)
    (hEdges : ∀ p ∈ n.edges, p = (.control, a.merge) ∨ OnArm g s a p.1 p.2) :
    Adds g (push n) fun id g' => Parts base g' s (some a) ∧ Joined g' s a id := by
  have hJoined : ∀ id g', Grows g g' → g'.node? id = some n → Joined g' s a id :=
    fun id g' hGrows hm => ⟨n, hm, hPhi, hCount, hControl, fun p hp =>
      (hEdges p hp).imp_right fun hOn => hOn.grows hGrows⟩
  refine (part_hangs h fun g' hGrows hm => .joined rfl (hJoined _ g' hGrows hm)).mono ?_
  rintro id g' hGrows ⟨hParts, hm, -⟩
  exact ⟨hParts, hJoined id g' hGrows hm⟩

/-- A phi joins values of the two arms. -/
theorem phi_hangs (h : Parts base g s (some a)) (rep : Rep) (hx : OnArm g s a .value x)
    (hy : OnArm g s a .value y) :
    Adds g (push (.phi rep [x, y, a.merge])) fun id g' =>
      Parts base g' s (some a) ∧ Joined g' s a id := by
  refine join_hangs h rfl (show (1 : Int) ≠ 0 by decide) rfl ?_
  have hEdges : (Node.phi rep [x, y, a.merge]).edges =
      [(.value, x), (.value, y), (.control, a.merge)] := rfl
  rw [hEdges]
  simp only [List.forall_mem_cons]
  exact ⟨.inr hx, .inr hy, .inl trivial, nofun⟩

/-- The effect behind the merge of a change that is anchored. -/
theorem joinEffects_hangs (h : Parts base g s (some a)) (hAnchored : e.anchored = true)
    (hx : OnArm g s a .effect x) (hy : OnArm g s a .effect y) :
    Adds g (joinEffects e a.merge [x, y]) fun id g' =>
      Parts base g' s (some a) ∧ (Joined g' s a id ∨ id = e.effect) := by
  unfold joinEffects
  rw [if_neg (by simp [hAnchored])]
  split
  · exact .pure ⟨h, .inr rfl⟩
  · have hEdges : (Node.effectPhi ([x, y] ++ [a.merge])).edges =
        [(.effect, x), (.effect, y), (.control, a.merge)] := rfl
    refine (join_hangs h rfl (show (1 : Int) ≠ 0 by decide) rfl ?_).mono ?_
    · rw [hEdges]
      simp only [List.forall_mem_cons]
      exact ⟨.inr hx, .inr hy, .inl trivial, nofun⟩
    · exact fun id g' _ hNew => ⟨hNew.1, .inl hNew.2⟩

/-- Whether what the arms leave as effects can be joined. -/
def ArmValues.Joins (v : ArmValues) (s : Site) (a : Arms) (g : Graph) : Prop :=
  ∃ x y, v.effects = [x, y] ∧ OnArm g s a .effect x ∧ OnArm g s a .effect y

/-! ## Answers -/

/-- Whether a fragment may answer with a node: one that hangs on the control where it starts, or a
join when it branches. -/
def Answers (g : Graph) (s : Site) : Option Arms → NodeId → Prop
  | some a, w => Joined g s a w
  | none, w => Hangs g s s.base w

/-- The control behind a fragment. -/
def controlBehind (e : Entry) : Option Arms → NodeId
  | some a => a.merge
  | none => passControl e

/-- What a fragment answers with. -/
structure Stands (g : Graph) (s : Site) (arms : Option Arms) (e : Entry) (r : Graph.Replacement) :
    Prop where
  value : Answers g s arms r.value
  effect : Answers g s arms r.effect ∨ r.effect = e.effect
  control : r.control = controlBehind e arms
  forked : ∀ a, arms = some a → Branched g s a

/-- Whether a site is where a fragment starts. -/
structure Entry.StartsAt (e : Entry) (s : Site) : Prop where
  value : s.takes .value e.value
  effect : 0 ≤ e.effect → s.takes .effect e.effect
  base : e.control = s.base

/-- What a fragment leaves: its nodes hang where it branched, if it did, and it answers with some of
them. -/
def Leaves (base : Graph) (s : Site) (forks : Prop) (e : Entry) (r : Graph.Replacement)
    (g : Graph) : Prop :=
  ∃ arms, (arms.isSome = true → forks) ∧ Parts base g s arms ∧ Stands g s arms e r

section Fragments

variable {small : Bool} {forks : Prop} (hAt : e.StartsAt s) (hEntry : e.Valid)
  (hForks : forks) (hAnchored : e.anchored = true) (hPins : s.pins)
include hAt

omit hAt in
/-- A fragment that does not branch. -/
theorem leaves_straight {r : Graph.Replacement} (h : Parts base g s none)
    (hValue : Hangs g s s.base r.value) (hEffect : r.effect = e.effect)
    (hControl : r.control = passControl e) : Leaves base s forks e r g :=
  ⟨none, nofun, h, hValue, .inr hEffect, hControl, nofun⟩

/-- The comparison hangs in front. -/
theorem boolToBit_leaves : Adds g (boolToBit l e) fun r g' => Leaves g s forks e r g' := by
  have h₀ : Parts g g s none := .refl
  unfold boolToBit
  refine (leaf_hangs h₀ rfl rfl rfl).bind ?_
  rintro yes g₁ - ⟨h₁, hYes⟩
  refine (binary_hangs h₁ (.inl rfl) (wordOp_arity? rfl rfl) (wordOp_isPlain rfl rfl)
    (.inl hAt.value) (.inr (hYes _))).bind ?_
  rintro equal g₂ - ⟨h₂, hEqual⟩
  exact .pure (leaves_straight h₂ hEqual rfl rfl)

/-- The shift hangs in front. -/
theorem smallInt32ToTagged_leaves :
    Adds g (smallInt32ToTagged l e) fun r g' => Leaves g s forks e r g' := by
  have h₀ : Parts g g s none := .refl
  unfold smallInt32ToTagged
  refine (smiTag_hangs h₀ (.inl rfl) (.inl hAt.value) false).bind ?_
  rintro smi g₁ - ⟨h₁, hSmi⟩
  exact .pure (leaves_straight h₁ hSmi rfl rfl)

include hEntry hPins in
/-- The box hangs in front, since nothing branches. -/
theorem float64ToTagged_leaves :
    Adds g (float64ToTagged l e) fun r g' => Leaves g s forks e r g' := by
  have h₀ : Parts g g s none := .refl
  unfold float64ToTagged
  refine (allocationEffect_hangs h₀ (.inl rfl) hAt.value hAt.effect).bind ?_
  rintro effect g₁ - ⟨h₁, hEffect⟩
  have hNonneg := hEntry.control
  rw [hAt.base] at hNonneg ⊢
  refine (box_hangs h₁ (.inl rfl) hPins hNonneg (.inl hAt.value) hEffect).bind ?_
  rintro ⟨value, after⟩ g₂ - ⟨h₂, hValue, hAfter⟩
  refine .pure ⟨none, nofun, h₂, hValue, ?_, rfl, nofun⟩
  dsimp only at hValue hAfter ⊢
  split
  · rw [hAfter]
    exact .inl hValue
  · exact .inr rfl

include hForks

omit hAt in
/-- A fragment that branches. -/
theorem leaves_forked {r : Graph.Replacement} (h : Parts base g s (some a))
    (hForked : Branched g s a) (hValue : Joined g s a r.value)
    (hEffect : Joined g s a r.effect ∨ r.effect = e.effect) (hControl : r.control = a.merge) :
    Leaves base s forks e r g := by
  refine ⟨some a, fun _ => hForks, h, hValue, hEffect, hControl, fun b hb => ?_⟩
  cases hb
  exact hForked

/-- A fragment that branches answers with the joins behind its diamond, whatever hangs on the arms. A
test may leave more than its condition, and the arms more than their values: `Q` and `R` say what. -/
theorem branching_hangs {τ : Type} {test : Build τ} {condition : τ → NodeId} {rep : Rep}
    {onArms : τ → Diamond → Build ArmValues} {effect : Diamond → ArmValues → Build NodeId}
    {Q : τ → Graph → Prop} {R : Arms → ArmValues → Graph → Prop}
    (hTest : Adds g test fun t g' =>
      Parts g g' s none ∧ Feeds g' s s.base .value (condition t) ∧ Q t g')
    (hArms : ∀ t d branch g₁ g', Q t g₁ → Grows g₁ g' → Parts g g' s (some (d.under branch)) →
      Branched g' s (d.under branch) → Adds g' (onArms t d) fun v g'' =>
        Parts g g'' s (some (d.under branch)) ∧ OnArm g'' s (d.under branch) .value v.ifTrue ∧
          OnArm g'' s (d.under branch) .value v.ifFalse ∧ R (d.under branch) v g'')
    (hEffect : ∀ d branch v g₁ g', R (d.under branch) v g₁ → Grows g₁ g' →
      Parts g g' s (some (d.under branch)) → Adds g' (effect d v) fun id g'' =>
        Parts g g'' s (some (d.under branch)) ∧
          (Joined g'' s (d.under branch) id ∨ id = e.effect)) :
    Adds g (branching test condition e.control rep onArms effect) fun r g' =>
      Leaves g s forks e r g' := by
  rw [hAt.base]
  refine hTest.bind ?_
  rintro t g₁ - ⟨h₁, hCondition, hQ⟩
  refine (diamond_hangs h₁ hCondition).bind ?_
  rintro d g₂ hGrows₂ ⟨branch, h₂, hForked⟩
  refine (hArms t d branch g₁ g₂ hQ hGrows₂ h₂ hForked).bind ?_
  rintro v g₃ hGrows₃ ⟨h₃, hx, hy, hR⟩
  refine (phi_hangs h₃ rep hx hy).bind ?_
  rintro phi g₄ hGrows₄ ⟨h₄, hPhi⟩
  refine (hEffect d branch v g₃ g₄ hR hGrows₄ h₄).bind ?_
  rintro joined g₅ hGrows₅ ⟨h₅, hJoined⟩
  have hGrows := hGrows₃.trans (hGrows₄.trans hGrows₅)
  exact .pure (leaves_forked hForks h₅ (hForked.grows hGrows) (hPhi.grows hGrows₅) hJoined rfl)

/-- The phi joins two constants. -/
theorem bitToBool_leaves : Adds g (bitToBool e) fun r g' => Leaves g s forks e r g' := by
  rw [bitToBool_eq]
  refine branching_hangs (Q := fun _ _ => True) (R := fun _ _ _ => True) hAt hForks
    (.pure ⟨.refl, .inl hAt.value, trivial⟩) ?_ fun _ _ _ _ _ _ _ h => .pure ⟨h, .inr rfl⟩
  intro _ d branch _ g₁ _ _ h₁ _
  refine (leaf_hangs h₁ rfl rfl rfl).bind ?_
  rintro yes g₂ hGrows₂ ⟨h₂, hYes⟩
  refine (leaf_hangs h₂ rfl rfl rfl).bind ?_
  rintro no g₃ hGrows₃ ⟨h₃, hNo⟩
  have hYes₃ := (hYes s.base).grows hGrows₃
  exact .pure ⟨h₃, .of_base (.inr hYes₃), .of_base (.inr (hNo _)), trivial⟩

/-- A fragment that branches on the tag bit, and leaves the effect of the change as it was. -/
theorem untagging_leaves {rep : Rep} {onArms : Diamond → Build ArmValues}
    (hArms : ∀ d branch g', Parts g g' s (some (d.under branch)) → Adds g' (onArms d) fun v g'' =>
      Parts g g'' s (some (d.under branch)) ∧ OnArm g'' s (d.under branch) .value v.ifTrue ∧
        OnArm g'' s (d.under branch) .value v.ifFalse) :
    Adds g (branching (tagBit l e.value) (fun tag => tag) e.control rep (fun _ => onArms)
      fun _ _ => pure e.effect) fun r g' => Leaves g s forks e r g' := by
  have hTest : Adds g (tagBit l e.value) fun tag g' =>
      Parts g g' s none ∧ Feeds g' s s.base .value tag ∧ True :=
    (tagBit_hangs .refl (.inl rfl) (.inl hAt.value)).mono fun _ _ _ ⟨h, hTag⟩ =>
      ⟨h, .inr hTag, trivial⟩
  refine branching_hangs (R := fun _ _ _ => True) hAt hForks hTest ?_
    fun _ _ _ _ _ _ _ h => .pure ⟨h, .inr rfl⟩
  intro _ d branch _ g' _ _ h _
  exact (hArms d branch g' h).mono fun _ _ _ ⟨h', hx, hy⟩ => ⟨h', hx, hy, trivial⟩

include hPins

/-- The small integer is converted on one arm, and the box read on the other. -/
theorem taggedToFloat64_leaves :
    Adds g (taggedToFloat64 l e) fun r g' => Leaves g s forks e r g' := by
  rw [taggedToFloat64_eq]
  refine untagging_leaves hAt hForks fun d branch g₂ h₂ => ?_
  -- the box is loaded on the true arm
  have hTrue : Level s (some (d.under branch)) d.ifTrue := .inr ⟨_, rfl, .inl rfl⟩
  refine (unbox_hangs h₂ hTrue hPins (.inl hAt.value)).bind ?_
  rintro loaded g₃ - ⟨h₃, hLoaded⟩
  refine (smiUntag_hangs h₃ (.inl rfl) (.inl hAt.value)).bind ?_
  rintro smi g₄ hGrows₄ ⟨h₄, hSmi⟩
  refine (unary_hangs h₄ (.inl rfl) rfl rfl (.inr hSmi)).bind ?_
  rintro number g₅ hGrows₅ ⟨h₅, hNumber⟩
  exact .pure ⟨h₅, ⟨d.ifTrue, .inl rfl, .inr (hLoaded.grows (hGrows₄.trans hGrows₅))⟩,
    .of_base (.inr hNumber)⟩

/-- The small integer is shifted on one arm, and the box truncated on the other. -/
theorem taggedToInt32_leaves :
    Adds g (taggedToInt32 l e) fun r g' => Leaves g s forks e r g' := by
  rw [taggedToInt32_eq]
  refine untagging_leaves hAt hForks fun d branch g₂ h₂ => ?_
  -- the box is loaded and converted on the true arm
  have hTrue : Level s (some (d.under branch)) d.ifTrue := .inr ⟨_, rfl, .inl rfl⟩
  refine (unbox_hangs h₂ hTrue hPins (.inl hAt.value)).bind ?_
  rintro loaded g₃ - ⟨h₃, hLoaded⟩
  refine (unary_hangs h₃ hTrue rfl rfl (.inr hLoaded)).bind ?_
  rintro number g₄ - ⟨h₄, hNumber⟩
  refine (smiUntag_hangs h₄ (.inl rfl) (.inl hAt.value)).bind ?_
  rintro smi g₅ hGrows₅ ⟨h₅, hSmi⟩
  exact .pure ⟨h₅, ⟨d.ifTrue, .inl rfl, .inr (hNumber.grows hGrows₅)⟩, .of_base (.inr hSmi)⟩

include hEntry hAnchored

/-- The sum hangs in front of the branch, and the box on the arm where it overflowed. -/
theorem int32ToTagged_leaves :
    Adds g (int32ToTagged l e) fun r g' => Leaves g s forks e r g' := by
  have hValue : ∀ {g k}, Feeds g s k .value e.value := .inl hAt.value
  have hEffect : ∀ {g k}, Feeds g s k .effect e.effect :=
    .inl (hAt.effect (hEntry.effect.mp hAnchored))
  rw [int32ToTagged_eq]
  refine branching_hangs (Q := fun t g' => Hangs g' s s.base t.1)
    (R := fun a v g' => v.Joins s a g') hAt hForks ?_ ?_ ?_
  · refine (binary_hangs .refl (.inl rfl) rfl rfl hValue hValue).bind ?_
    rintro double g₁ - ⟨h₁, hDouble⟩
    refine (projection_hangs h₁ (.inl rfl) 1 (.inr hDouble)).bind ?_
    rintro overflow g₂ hGrows₂ ⟨h₂, hOverflow⟩
    exact .pure ⟨h₂, .inr hOverflow, hDouble.grows hGrows₂⟩
  · -- The box is built on the arm where the sum overflowed.
    intro t d branch g₁ g₂ hDouble hGrows₂ h₂ hForked
    have hTrue : Level s (some (d.under branch)) d.ifTrue := .inr ⟨_, rfl, .inl rfl⟩
    have hNonneg : 0 ≤ d.ifTrue := (Graph.node?_lt hForked.ifTrue).1
    refine (unary_hangs h₂ hTrue rfl rfl hValue).bind ?_
    rintro number g₃ hGrows₃ ⟨h₃, hNumber⟩
    refine (allocationEffect_hangs h₃ hTrue hAt.value hAt.effect).bind ?_
    rintro effect g₄ hGrows₄ ⟨h₄, hAllocates⟩
    refine (box_hangs h₄ hTrue hPins hNonneg (.inr (hNumber.grows hGrows₄)) hAllocates).bind ?_
    rintro ⟨value, after⟩ g₅ hGrows₅ ⟨h₅, hBoxed, hAfter⟩
    dsimp only at hBoxed hAfter
    subst hAfter
    have hDouble₅ := hDouble.grows (hGrows₂.trans (hGrows₃.trans (hGrows₄.trans hGrows₅)))
    refine (projection_hangs h₅ (.inl rfl) 0 (.inr hDouble₅)).bind ?_
    rintro smi g₆ hGrows₆ ⟨h₆, hSmi⟩
    have hOnArm : ∀ kind, OnArm g₆ s (d.under branch) kind after := fun _ =>
      ⟨d.ifTrue, .inl rfl, .inr (hBoxed.grows hGrows₆)⟩
    exact .pure ⟨h₆, hOnArm _, .of_base (.inr hSmi), _, _, rfl, hOnArm _, .of_base hEffect⟩
  · rintro d branch ⟨_, _, _⟩ g₁ g₂ ⟨x, y, rfl, hx, hy⟩ hGrows₂ h₂
    exact joinEffects_hangs h₂ hAnchored (hx.grows hGrows₂) (hy.grows hGrows₂)

/-- The comparison hangs in front of the branch, and the box on the arm for large words. -/
theorem uint32ToTagged_leaves :
    Adds g (uint32ToTagged l e) fun r g' => Leaves g s forks e r g' := by
  have hValue : ∀ {g k}, Feeds g s k .value e.value := .inl hAt.value
  have hEffect : ∀ {g k}, Feeds g s k .effect e.effect :=
    .inl (hAt.effect (hEntry.effect.mp hAnchored))
  rw [uint32ToTagged_eq]
  refine branching_hangs (Q := fun _ _ => True) (R := fun a v g' => v.Joins s a g') hAt hForks
    ?_ ?_ ?_
  · have h₀ : Parts g g s none := .refl
    refine (int32_hangs h₀ _).bind ?_
    rintro greatest g₁ - ⟨h₁, hGreatest⟩
    refine (binary_hangs h₁ (.inl rfl) rfl rfl hValue (.inr (hGreatest _))).mono ?_
    exact fun small g₂ _ ⟨h₂, hSmall⟩ => ⟨h₂, .inr hSmall, trivial⟩
  · -- The box is built on the arm where the word is large.
    intro _ d branch _ g₂ _ _ h₂ hForked
    have hFalse : Level s (some (d.under branch)) d.ifFalse := .inr ⟨_, rfl, .inr rfl⟩
    have hNonneg : 0 ≤ d.ifFalse := (Graph.node?_lt hForked.ifFalse).1
    refine (smiTag_hangs h₂ (.inl rfl) hValue true).bind ?_
    rintro smi g₃ - ⟨h₃, hSmi⟩
    refine (unary_hangs h₃ hFalse rfl rfl hValue).bind ?_
    rintro number g₄ hGrows₄ ⟨h₄, hNumber⟩
    refine (allocationEffect_hangs h₄ hFalse hAt.value hAt.effect).bind ?_
    rintro effect g₅ hGrows₅ ⟨h₅, hAllocates⟩
    refine (box_hangs h₅ hFalse hPins hNonneg (.inr (hNumber.grows hGrows₅)) hAllocates).bind ?_
    rintro ⟨value, after⟩ g₆ hGrows₆ ⟨h₆, hBoxed, hAfter⟩
    dsimp only at hBoxed hAfter
    subst hAfter
    have hSmi₆ := hSmi.grows (hGrows₄.trans (hGrows₅.trans hGrows₆))
    have hOnArm : ∀ kind, OnArm g₆ s (d.under branch) kind after := fun _ =>
      ⟨d.ifFalse, .inr rfl, .inr hBoxed⟩
    exact .pure ⟨h₆, .of_base (.inr hSmi₆), hOnArm _, _, _, rfl, .of_base hEffect, hOnArm _⟩
  · rintro d branch ⟨_, _, _⟩ g₁ g₂ ⟨x, y, rfl, hx, hy⟩ hGrows₂ h₂
    exact joinEffects_hangs h₂ hAnchored (hx.grows hGrows₂) (hy.grows hGrows₂)

end Fragments

/-- Where the nodes of the fragment of a change hang, and what it answers with. -/
theorem fragment_stands {small : Bool} {f : Change} (hAt : e.StartsAt s) (hEntry : e.Valid)
    (hAnchored : Forks l small f → e.anchored = true)
    (hPins : e.anchored = true ∨ f = .float64ToTagged → s.pins) :
    Adds g (fragment l f small e) fun r g' => Leaves g s (Forks l small f) e r g' := by
  have hForked : ∀ hForks : Forks l small f, e.anchored = true ∧ s.pins := fun hForks =>
    ⟨hAnchored hForks, hPins (.inl (hAnchored hForks))⟩
  cases f with
  | bitToBool => exact bitToBool_leaves hAt trivial
  | boolToBit => exact boolToBit_leaves hAt
  | float64ToTagged => exact float64ToTagged_leaves hAt hEntry (hPins (.inr rfl))
  | int32ToTagged =>
    show Adds g (if l.word = 64 || small then _ else _) _
    -- only a word that may be no small integer needs the branch
    cases hSmall : (l.word = 64 || small : Bool) with
    | true => exact smallInt32ToTagged_leaves hAt
    | false =>
      obtain ⟨hAnchor, hPin⟩ := hForked hSmall
      exact int32ToTagged_leaves hAt hEntry hSmall hAnchor hPin
  | uint32ToTagged =>
    obtain ⟨hAnchor, hPin⟩ := hForked trivial
    exact uint32ToTagged_leaves hAt hEntry trivial hAnchor hPin
  | taggedToFloat64 => exact taggedToFloat64_leaves hAt trivial (hForked trivial).2
  | taggedToInt32 | taggedToUint32 => exact taggedToInt32_leaves hAt trivial (hForked trivial).2

end Lowering
end ArmBackend
