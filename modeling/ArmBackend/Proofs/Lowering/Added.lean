import ArmBackend.Proofs.Cycles
import ArmBackend.Proofs.Lowering.Rewiring

/-!
# What a fragment adds

A fragment only adds nodes. Each has the edges that its operator takes, and every edge leads to a
node that the fragment added before or, along an edge of its own kind, to what the change hung on:
value edges to the changed value, effect edges to the effect and control edges to the control where
the fragment starts. A branch hangs on the control itself.

`Builds` says this of a step that adds nodes, whatever was added before it; there is one lemma for
each piece that fragments are made of.

The five fragments that branch have one shape (`branching`): a test, a diamond on what it finds, and
a phi behind it. They differ in the test and in what stands on the arms, and what is said of them is
said of the shape first.

## Results

* `fragment_builds` — what the fragment of a change adds, and what it answers with.
-/

namespace ArmBackend

/-- The edges of a node, each with its kind. -/
def Node.edges (n : Node) : List (EdgeKind × NodeId) :=
  n.inputs.mapIdx fun index input => (n.edgeKind index, input)

/-- The inputs of a node are where its edges lead. -/
theorem Node.mem_inputs_iff {n : Node} {x : NodeId} :
    x ∈ n.inputs ↔ ∃ kind, (kind, x) ∈ n.edges := by
  unfold edges
  constructor
  · intro hx
    obtain ⟨i, hi, rfl⟩ := List.mem_iff_getElem.mp hx
    exact ⟨_, List.mem_mapIdx.mpr ⟨i, hi, rfl⟩⟩
  · rintro ⟨kind, hMem⟩
    obtain ⟨i, hi, hEq⟩ := List.mem_mapIdx.mp hMem
    cases hEq
    exact List.getElem_mem hi

namespace Lowering

open Build

variable {α β : Type} {l : Layout} {e : Entry} {forks : Prop} {base g g' : Graph} {n : Node}
  {x y : NodeId} {kind : EdgeKind}

/-! ## Nodes of a fragment -/

/-- Where an edge of a fragment may lead. The nodes from `first` up to `here` are those that the
fragment has added. -/
inductive Edge (e : Entry) (first here : Nat) : EdgeKind → NodeId → Prop
  | added {kind : EdgeKind} {x : NodeId} (hFirst : (first : Int) ≤ x) (hHere : (here : Int) > x) :
      Edge e first here kind x
  | value : Edge e first here .value e.value
  | effect (hEffect : 0 ≤ e.effect) : Edge e first here .effect e.effect
  | control : Edge e first here .control e.control

/-- An edge may still lead where it did once more nodes are there. -/
theorem Edge.mono {first here here' : Nat} (h : Edge e first here kind x) (hLe : here ≤ here') :
    Edge e first here' kind x := by
  cases h with
  | added hFirst hHere => exact .added hFirst (by omega)
  | value => exact .value
  | effect hEffect => exact .effect hEffect
  | control => exact .control

/-- Where the edges of a node of a fragment may lead. -/
inductive Edges (e : Entry) (first here : Nat) : List (EdgeKind × NodeId) → Prop
  | nil : Edges e first here []
  | cons {p : EdgeKind × NodeId} {rest : List (EdgeKind × NodeId)}
      (hHead : Edge e first here p.1 p.2) (hRest : Edges e first here rest) :
      Edges e first here (p :: rest)

/-- Each edge of a node of a fragment leads where it may. -/
theorem Edges.mem {first here : Nat} {es : List (EdgeKind × NodeId)} (h : Edges e first here es)
    (hp : (kind, x) ∈ es) : Edge e first here kind x := by
  induction h with
  | nil => cases hp
  | cons hHead _ ih =>
    rcases List.mem_cons.mp hp with rfl | hp
    · exact hHead
    · exact ih hp

/-- A node that a fragment may add at number `here`. It branches only if `forks` says so. -/
structure Suits (e : Entry) (forks : Prop) (first here : Nat) (n : Node) : Prop where
  arity : n.fitsArity = true
  counted : n.Counted
  plain : n.op.isChange = false
  edges : Edges e first here n.edges
  branch : n.op = .branch → forks ∧ ∃ condition, n.inputs = [condition, e.control]

/-- A graph that a fragment has grown out of `base`. -/
def Sprouts (e : Entry) (forks : Prop) (base g : Graph) : Prop :=
  ∃ ns : List Node, g = base.append ns ∧
    ∀ j n, ns[j]? = some n → Suits e forks base.size (base.size + j) n

/-- A fragment that has added nothing. -/
theorem Sprouts.refl : Sprouts e forks g g :=
  ⟨[], by simp [Graph.append], by simp⟩

/-- A fragment takes no node away. -/
theorem Sprouts.size_le (h : Sprouts e forks base g) : base.size ≤ g.size := by
  obtain ⟨ns, rfl, -⟩ := h
  rw [Graph.size_append]
  omega

/-- Whether a graph has all nodes of another one. -/
structure Grows (g g' : Graph) : Prop where
  size_le : g.size ≤ g'.size
  node : ∀ {id : NodeId} {n : Node}, g.node? id = some n → g'.node? id = some n

/-- Every graph has its own nodes. -/
theorem Grows.refl (g : Graph) : Grows g g :=
  ⟨Nat.le_refl _, fun h => h⟩

/-- Growing twice. -/
theorem Grows.trans {g'' : Graph} (h : Grows g g') (h' : Grows g' g'') : Grows g g'' :=
  ⟨Nat.le_trans h.size_le h'.size_le, fun hn => h'.node (h.node hn)⟩

/-- Nodes that are added come behind the others. -/
theorem Grows.append (g : Graph) (ns : List Node) : Grows g (g.append ns) :=
  ⟨by rw [Graph.size_append]; omega, fun hn => Graph.node?_append hn⟩

/-! ## Steps that add nodes -/

/-- What a step leaves: a graph with more nodes, and an answer. -/
structure Adds (g : Graph) (m : Build α) (Q : α → Graph → Prop) : Prop where
  grows : Grows g (m.run g).2
  holds : Q (m.run g).1 (m.run g).2

/-- An answer without a step leaves the graph as it is. -/
theorem Adds.pure {Q : α → Graph → Prop} {a : α} (hQ : Q a g) : Adds g (pure a) Q :=
  ⟨.refl g, hQ⟩

/-- A step after another adds its nodes to those that are there. -/
theorem Adds.bind {m : Build α} {f : α → Build β} {Q : α → Graph → Prop} {R : β → Graph → Prop}
    (hm : Adds g m Q) (hf : ∀ a g', Grows g g' → Q a g' → Adds g' (f a) R) :
    Adds g (m >>= f) R := by
  obtain ⟨hGrows, hR⟩ := hf _ _ hm.grows hm.holds
  exact ⟨hm.grows.trans hGrows, hR⟩

/-- What an answer says may be put more weakly. -/
theorem Adds.mono {m : Build α} {Q R : α → Graph → Prop} (h : Adds g m Q)
    (hQR : ∀ a g', Grows g g' → Q a g' → R a g') : Adds g m R :=
  ⟨h.grows, hQR _ _ h.grows h.holds⟩

/-- A step whose answer does not matter. -/
theorem Adds.any {m : Build α} {Q : α → Graph → Prop} (h : Adds g m Q) :
    Adds g m fun _ _ => True :=
  ⟨h.grows, trivial⟩

/-- What a step of a fragment leaves: a graph that the fragment has grown, and an answer. -/
def Builds (e : Entry) (forks : Prop) (base g : Graph) (m : Build α) (Q : α → Graph → Prop) : Prop :=
  Adds g m fun a g' => Sprouts e forks base g' ∧ Q a g'

/-- Pieces of a fragment, one after the other. -/
theorem Builds.bind {m : Build α} {f : α → Build β} {Q : α → Graph → Prop} {R : β → Graph → Prop}
    (hm : Builds e forks base g m Q)
    (hf : ∀ a g', Sprouts e forks base g' → Grows g g' → Q a g' →
      Builds e forks base g' (f a) R) : Builds e forks base g (m >>= f) R :=
  Adds.bind hm fun a g' hGrows hGrown => hf a g' hGrown.1 hGrows hGrown.2

/-- A fragment ends with its answer. -/
theorem Builds.pure {Q : α → Graph → Prop} {a : α} (h : Sprouts e forks base g) (hQ : Q a g) :
    Builds e forks base g (pure a) Q :=
  Adds.pure ⟨h, hQ⟩

/-- A weaker statement about the answer. -/
theorem Builds.mono {m : Build α} {Q R : α → Graph → Prop} (h : Builds e forks base g m Q)
    (hQR : ∀ a g', Q a g' → R a g') : Builds e forks base g m R :=
  Adds.mono h fun a g' _ hGrown => hGrown.imp_right (hQR a g')

/-- One new node stands behind all others. -/
theorem run_push (n : Node) (g : Graph) : (push n).run g = ((g.size : Int), g.append [n]) := by
  simp [push, Graph.push, Graph.append, Graph.size, StateT.run]

/-- One more node: it gets the next number. -/
theorem push_builds (h : Sprouts e forks base g) (hSuits : Suits e forks base.size g.size n) :
    Builds e forks base g (push n) fun id g' =>
      id = (g.size : Int) ∧ g'.size = g.size + 1 ∧ g'.node? id = some n := by
  have hSprouts : Sprouts e forks base (g.append [n]) := by
    obtain ⟨ns, rfl, hNodes⟩ := h
    refine ⟨ns ++ [n], by simp [Graph.append], ?_⟩
    intro j m hj
    -- The node is the last of those that the fragment has added.
    rcases Nat.lt_or_ge j ns.length with hLt | hGe
    · rw [List.getElem?_append_left hLt] at hj
      exact hNodes j m hj
    · rw [List.getElem?_append_right hGe, List.getElem?_singleton] at hj
      split at hj
      · next hZero =>
        cases hj
        rw [Graph.size_append] at hSuits
        obtain rfl : j = ns.length := by omega
        exact hSuits
      · cases hj
  constructor
  · rw [run_push]
    exact .append g [n]
  · rw [run_push]
    exact ⟨hSprouts, rfl, Graph.size_append [n], g.node?_push n⟩

/-- A node with as many inputs as its operator takes counts them right. -/
theorem counted_ofArity {op : Operator} {inputs : List NodeId} {v f c : Nat}
    (hArity : op.arity? = some ⟨some v, some f, some c⟩) (hLength : inputs.length = v + f + c) :
    (Node.ofArity op inputs).Counted := by
  unfold Node.ofArity
  rw [hArity]
  refine ⟨Int.natCast_nonneg v, Int.natCast_nonneg f, Int.natCast_nonneg c, ?_⟩
  show (v : Int) + f + c = inputs.length
  omega

/-- Such a node fits its operator. -/
theorem fitsArity_ofArity {op : Operator} {inputs : List NodeId} {v f c : Nat}
    (hArity : op.arity? = some ⟨some v, some f, some c⟩) (hInvalid : op ≠ .invalid)
    (hPlain : op.isChange = false) : (Node.ofArity op inputs).fitsArity = true := by
  unfold Node.ofArity Node.fitsArity
  simp [hArity, Arity.admits, hInvalid, hPlain]

/-- A node that is no branch. -/
theorem add_builds (h : Sprouts e forks base g) {es : List (EdgeKind × NodeId)}
    (hAll : Edges e base.size g.size es) (hFits : n.fitsArity = true) (hCounted : n.Counted)
    (hOp : n.op.isChange = false ∧ n.op ≠ .branch) (hEdges : n.edges = es) :
    Builds e forks base g (push n) fun id g' =>
      id = (g.size : Int) ∧ g'.size = g.size + 1 ∧ g'.node? id = some n :=
  push_builds h ⟨hFits, hCounted, hOp.1, hEdges ▸ hAll, fun hIs => absurd hIs hOp.2⟩

/-- A node whose operator fixes the number of its inputs. -/
theorem node_builds (h : Sprouts e forks base g) {op : Operator} {inputs : List NodeId}
    {v f c : Nat} {es : List (EdgeKind × NodeId)} (hAll : Edges e base.size g.size es)
    (hArity : op.arity? = some ⟨some v, some f, some c⟩) (hLength : inputs.length = v + f + c)
    (hOp : op.isChange = false ∧ op ≠ .invalid ∧ op ≠ .branch)
    (hEdges : (Node.ofArity op inputs).edges = es) :
    Builds e forks base g (node op inputs) fun id g' =>
      id = (g.size : Int) ∧ g'.size = g.size + 1 ∧ g'.node? id = some (.ofArity op inputs) :=
  add_builds h hAll (fitsArity_ofArity hArity hOp.2.1 hOp.1) (counted_ofArity hArity hLength)
    ⟨hOp.1, hOp.2.2⟩ hEdges

/-- A node without inputs. -/
theorem leaf_builds (h : Sprouts e forks base g) (hFits : n.fitsArity = true)
    (hCounted : n.Counted) (hOp : n.op.isChange = false ∧ n.op ≠ .branch) (hInputs : n.inputs = []) :
    Builds e forks base g (push n) fun id g' => id = (g.size : Int) ∧ g'.size = g.size + 1 := by
  have hEdges : n.edges = [] := by
    unfold Node.edges
    rw [hInputs]
    rfl
  refine (add_builds h .nil hFits hCounted hOp hEdges).mono ?_
  rintro id g' ⟨hId, hSize, -⟩
  exact ⟨hId, hSize⟩

/-- A constant takes nothing. -/
theorem int32_builds (h : Sprouts e forks base g) (v : Int) :
    Builds e forks base g (int32 v) fun id g' => id = (g.size : Int) ∧ g'.size = g.size + 1 :=
  leaf_builds h rfl ⟨Int.le_refl _, Int.le_refl _, Int.le_refl _, rfl⟩ ⟨rfl, nofun⟩ rfl

/-- A heap constant takes nothing. -/
theorem heap_builds (h : Sprouts e forks base g) (name : String) :
    Builds e forks base g (push (.heap name)) fun id g' =>
      id = (g.size : Int) ∧ g'.size = g.size + 1 :=
  leaf_builds h rfl ⟨Int.le_refl _, Int.le_refl _, Int.le_refl _, rfl⟩ ⟨rfl, nofun⟩ rfl

/-! ## Pieces of fragments -/

/-- Whether a number was given out by the fragment. -/
def Fresh (base g : Graph) (x : NodeId) : Prop :=
  (base.size : Int) ≤ x ∧ (g.size : Int) > x

/-- Any edge may lead to a node that the fragment added. -/
theorem Fresh.edge {here : Nat} (h : Fresh base g x) (hLe : g.size ≤ here) :
    Edge e base.size here kind x := by
  obtain ⟨hFirst, hHere⟩ := h
  exact .added hFirst (by omega)

/-- What the fragment added stays when more nodes are added. -/
theorem Fresh.mono (h : Fresh base g x) (hGrows : Grows g g') : Fresh base g' x := by
  have hLe := hGrows.size_le
  exact ⟨h.1, by have := h.2; omega⟩

/-- The control of an arm is a node. -/
theorem Fresh.nonneg (h : Fresh base g x) : 0 ≤ x :=
  Int.le_trans (Int.natCast_nonneg _) h.1

/-- What a fragment answers with in place of the value: a node that it added and that is no
constant. -/
def Result (base g : Graph) (x : NodeId) : Prop :=
  Fresh base g x ∧ ∃ n, g.node? x = some n ∧ n.op ≠ .constant .int32

/-- An answer stays one when more nodes are added. -/
theorem Result.mono (h : Result base g x) (hGrows : Grows g g') : Result base g' x := by
  obtain ⟨⟨hFirst, hHere⟩, n, hn, hOp⟩ := h
  have hLe := hGrows.size_le
  exact ⟨⟨hFirst, by omega⟩, n, hGrows.node hn, hOp⟩

/-- A diamond: a branch on the condition, its arms and their merge. -/
theorem diamond_builds (h : Sprouts e forks base g) (hForks : forks) {condition : NodeId}
    (hCondition : Edge e base.size g.size .value condition) :
    Builds e forks base g (diamond condition e.control) fun d g' =>
      Fresh base g' d.ifTrue ∧ Fresh base g' d.ifFalse ∧ Fresh base g' d.merge := by
  have hLe := h.size_le
  have hBranch : Suits e forks base.size g.size (.ofArity .branch [condition, e.control]) :=
    ⟨rfl, counted_ofArity rfl rfl, rfl, .cons hCondition (.cons .control .nil),
      fun _ => ⟨hForks, condition, rfl⟩⟩
  unfold diamond
  refine Builds.bind (push_builds h hBranch) ?_
  rintro branch g₁ h₁ - ⟨rfl, hSize₁, -⟩
  -- Both arms hang on the branch, and the merge on the arms.
  have hTrue : Edges e base.size g₁.size [(.control, (g.size : Int))] :=
    .cons (.added (by omega) (by omega)) .nil
  refine Builds.bind (node_builds h₁ hTrue rfl rfl ⟨rfl, nofun, nofun⟩ rfl) ?_
  rintro ifTrue g₂ h₂ - ⟨rfl, hSize₂, -⟩
  have hFalse : Edges e base.size g₂.size [(.control, (g.size : Int))] :=
    .cons (.added (by omega) (by omega)) .nil
  refine Builds.bind (node_builds h₂ hFalse rfl rfl ⟨rfl, nofun, nofun⟩ rfl) ?_
  rintro ifFalse g₃ h₃ - ⟨rfl, hSize₃, -⟩
  have hArms : Edges e base.size g₃.size [(.control, (g₁.size : Int)), (.control, (g₂.size : Int))] :=
    .cons (.added (by omega) (by omega)) (.cons (.added (by omega) (by omega)) .nil)
  refine Builds.bind (add_builds h₃ hArms rfl
    ⟨Int.le_refl _, Int.le_refl _, Int.natCast_nonneg 2, rfl⟩ ⟨rfl, nofun⟩ rfl) ?_
  rintro merge g₄ h₄ - ⟨rfl, hSize₄, -⟩
  refine .pure h₄ ⟨⟨?_, ?_⟩, ⟨?_, ?_⟩, ?_, ?_⟩ <;> dsimp only <;> omega

/-- A box for a double: it is allocated, filled, and only then handed out. -/
theorem box_builds (h : Sprouts e forks base g) {value effect control : NodeId}
    (hValue : Edge e base.size g.size .value value)
    (hEffect : Edge e base.size g.size .effect effect)
    (hControl : Edge e base.size g.size .control control) (hNonneg : 0 ≤ control) :
    Builds e forks base g (box l value effect control) fun boxed g' =>
      Result base g' boxed.value ∧ boxed.effect = boxed.value := by
  have hLe := h.size_le
  have hAnchor : Node.anchors control = [control] := if_pos hNonneg
  unfold box
  refine Builds.bind (leaf_builds h rfl ⟨Int.le_refl _, Int.le_refl _, Int.le_refl _, rfl⟩
    ⟨rfl, nofun⟩ rfl) ?_
  rintro target g₁ h₁ - ⟨rfl, hSize₁⟩
  refine Builds.bind (int32_builds h₁ _) ?_
  rintro size g₂ h₂ - ⟨rfl, hSize₂⟩
  have hCall : Edges e base.size g₂.size [(.value, (g.size : Int)), (.value, (g₁.size : Int)),
      (.effect, effect), (.control, control)] :=
    .cons (.added (by omega) (by omega)) (.cons (.added (by omega) (by omega))
      (.cons (hEffect.mono (by omega)) (.cons (hControl.mono (by omega)) .nil)))
  refine Builds.bind (add_builds h₂ hCall rfl
    ⟨Int.natCast_nonneg 2, Int.natCast_nonneg 1, Int.natCast_nonneg 1, rfl⟩ ⟨rfl, nofun⟩ rfl) ?_
  rintro object g₃ h₃ - ⟨rfl, hSize₃, -⟩
  refine Builds.bind (int32_builds h₃ _) ?_
  rintro offset g₄ h₄ - ⟨rfl, hSize₄⟩
  -- The store hangs on the call, and on the same control.
  have hStore : Edges e base.size g₄.size [(.value, (g₂.size : Int)), (.value, (g₃.size : Int)),
      (.value, value), (.effect, (g₂.size : Int)), (.control, control)] :=
    .cons (.added (by omega) (by omega)) (.cons (.added (by omega) (by omega))
      (.cons (hValue.mono (by omega)) (.cons (.added (by omega) (by omega))
        (.cons (hControl.mono (by omega)) .nil))))
  refine Builds.bind (add_builds h₄ hStore ?_ ?_ ⟨rfl, nofun⟩ ?_) ?_
  · unfold Node.store
    rw [hAnchor]
    rfl
  · unfold Node.store
    rw [hAnchor]
    exact ⟨Int.natCast_nonneg 3, Int.natCast_nonneg 1, Int.natCast_nonneg 1, rfl⟩
  · unfold Node.edges Node.store
    rw [hAnchor]
    rfl
  rintro store g₅ h₅ - ⟨rfl, hSize₅, -⟩
  have hFinish : Edges e base.size g₅.size [(.value, (g₂.size : Int)), (.effect, (g₄.size : Int))] :=
    .cons (.added (by omega) (by omega)) (.cons (.added (by omega) (by omega)) .nil)
  refine Builds.bind (node_builds h₅ hFinish rfl rfl ⟨rfl, nofun, nofun⟩ rfl) ?_
  rintro finish g₆ h₆ - ⟨rfl, hSize₆, hNode⟩
  have hFresh : Fresh base g₆ (g₅.size : Int) := ⟨by omega, by omega⟩
  exact .pure h₆ ⟨⟨hFresh, _, hNode, nofun⟩, rfl⟩

/-- The double in a box is loaded behind the control. -/
theorem unbox_builds (h : Sprouts e forks base g) {object control : NodeId}
    (hObject : Edge e base.size g.size .value object)
    (hControl : Edge e base.size g.size .control control) :
    Builds e forks base g (unbox l object control) fun id g' => Fresh base g' id := by
  have hLe := h.size_le
  unfold unbox
  refine Builds.bind (int32_builds h _) ?_
  rintro offset g₁ h₁ - ⟨rfl, hSize₁⟩
  have hEntry : Edges e base.size g₁.size [(.control, control)] :=
    .cons (hControl.mono (by omega)) .nil
  refine Builds.bind (node_builds h₁ hEntry rfl rfl ⟨rfl, nofun, nofun⟩ rfl) ?_
  rintro effect g₂ h₂ - ⟨rfl, hSize₂, -⟩
  -- the load reads the number at its offset, behind an effect that hangs on the arm
  have hLoad : Edges e base.size g₂.size [(.value, object), (.value, (g.size : Int)),
      (.effect, (g₁.size : Int))] :=
    .cons (hObject.mono (by omega)) (.cons (.added (by omega) (by omega))
      (.cons (.added (by omega) (by omega)) .nil))
  refine Builds.mono (add_builds h₂ hLoad rfl
    ⟨Int.natCast_nonneg 2, Int.natCast_nonneg 1, Int.le_refl _, rfl⟩ ⟨rfl, nofun⟩ rfl) ?_
  rintro load g₃ ⟨rfl, hSize₃, -⟩
  exact ⟨by omega, by omega⟩

/-- An operator on two words. -/
theorem binary_builds (h : Sprouts e forks base g) {op : Operator}
    (hArity : op.arity? = some ⟨some 2, some 0, some 0⟩)
    (hOp : op.isChange = false ∧ op ≠ .invalid ∧ op ≠ .branch)
    (hx : Edge e base.size g.size .value x) (hy : Edge e base.size g.size .value y) :
    Builds e forks base g (node op [x, y]) fun id g' =>
      id = (g.size : Int) ∧ g'.size = g.size + 1 ∧ ∃ n, g'.node? id = some n ∧ n.op = op := by
  -- the arity says that both inputs are values
  have hEdges : (Node.ofArity op [x, y]).edges = [(.value, x), (.value, y)] := by
    unfold Node.edges Node.ofArity Node.edgeKind
    rw [hArity]
    rfl
  refine Builds.mono (node_builds h (.cons hx (.cons hy .nil)) hArity rfl hOp hEdges) ?_
  rintro id g' ⟨hId, hSize, hNode⟩
  exact ⟨hId, hSize, _, hNode, rfl⟩

/-- An operator on one word. -/
theorem unary_builds (h : Sprouts e forks base g) {op : Operator}
    (hArity : op.arity? = some ⟨some 1, some 0, some 0⟩)
    (hOp : op.isChange = false ∧ op ≠ .invalid ∧ op ≠ .branch)
    (hx : Edge e base.size g.size .value x) :
    Builds e forks base g (node op [x]) fun id g' =>
      id = (g.size : Int) ∧ g'.size = g.size + 1 ∧ ∃ n, g'.node? id = some n ∧ n.op = op := by
  have hEdges : (Node.ofArity op [x]).edges = [(.value, x)] := by
    unfold Node.edges Node.ofArity Node.edgeKind
    rw [hArity]
    rfl
  refine Builds.mono (node_builds h (.cons hx .nil) hArity rfl hOp hEdges) ?_
  rintro id g' ⟨hId, hSize, hNode⟩
  exact ⟨hId, hSize, _, hNode, rfl⟩

/-- The tag bit of a value. -/
theorem tagBit_builds (h : Sprouts e forks base g) :
    Builds e forks base g (tagBit l e.value) fun id g' => Fresh base g' id := by
  have hLe := h.size_le
  -- the same of the operator on narrow words and on wide ones
  have hKind : (wordOp l (.word32 .and) (.word64 .and)).arity? = some ⟨some 2, some 0, some 0⟩ ∧
      (wordOp l (.word32 .and) (.word64 .and)).isChange = false ∧
      wordOp l (.word32 .and) (.word64 .and) ≠ .invalid ∧
      wordOp l (.word32 .and) (.word64 .and) ≠ .branch := by
    unfold wordOp
    split <;> exact ⟨rfl, rfl, nofun, nofun⟩
  unfold tagBit
  refine Builds.bind (int32_builds h _) ?_
  rintro mask g₁ h₁ - ⟨rfl, hSize₁⟩
  refine Builds.mono (binary_builds h₁ hKind.1 hKind.2 .value (.added (by omega) (by omega))) ?_
  rintro id g₂ ⟨rfl, hSize₂, -⟩
  exact ⟨by omega, by omega⟩

/-- The shift that makes a small integer of a word. -/
theorem smiTag_builds (h : Sprouts e forks base g) (unsigned : Bool) :
    Builds e forks base g (smiTag l e.value unsigned) fun id g' => Result base g' id := by
  have hLe := h.size_le
  unfold smiTag
  refine Builds.bind (int32_builds h _) ?_
  rintro shift g₁ h₁ - ⟨rfl, hSize₁⟩
  -- one shift on narrow words, a widening before it on wide ones
  split
  · refine Builds.mono
      (binary_builds h₁ rfl ⟨rfl, nofun, nofun⟩ .value (.added (by omega) (by omega))) ?_
    rintro id g₂ ⟨rfl, hSize₂, n, hNode, hOp⟩
    exact ⟨⟨by omega, by omega⟩, n, hNode, by rw [hOp]; nofun⟩
  · refine Builds.bind (unary_builds h₁ rfl ⟨rfl, nofun, nofun⟩ .value) ?_
    rintro wide g₂ h₂ - ⟨rfl, hSize₂, -⟩
    refine Builds.mono (binary_builds h₂ rfl ⟨rfl, nofun, nofun⟩ (.added (by omega) (by omega))
      (.added (by omega) (by omega))) ?_
    rintro id g₃ ⟨rfl, hSize₃, n, hNode, hOp⟩
    exact ⟨⟨by omega, by omega⟩, n, hNode, by rw [hOp]; nofun⟩

/-- The shift that takes the word out of a small integer. -/
theorem smiUntag_builds (h : Sprouts e forks base g) :
    Builds e forks base g (smiUntag l e.value) fun id g' => Fresh base g' id := by
  have hLe := h.size_le
  unfold smiUntag
  refine Builds.bind (int32_builds h _) ?_
  rintro shift g₁ h₁ - ⟨rfl, hSize₁⟩
  -- one shift on narrow words, a narrowing behind it on wide ones
  split
  · refine Builds.mono
      (binary_builds h₁ rfl ⟨rfl, nofun, nofun⟩ .value (.added (by omega) (by omega))) ?_
    rintro id g₂ ⟨rfl, hSize₂, -⟩
    exact ⟨by omega, by omega⟩
  · refine Builds.bind (binary_builds h₁ rfl ⟨rfl, nofun, nofun⟩ .value
      (.added (by omega) (by omega))) ?_
    rintro wide g₂ h₂ - ⟨rfl, hSize₂, -⟩
    refine Builds.mono (unary_builds h₂ rfl ⟨rfl, nofun, nofun⟩ (.added (by omega) (by omega))) ?_
    rintro id g₃ ⟨rfl, hSize₃, -⟩
    exact ⟨by omega, by omega⟩

/-- The effect of an allocation is that of the change, or is made of its value. -/
theorem allocationEffect_builds (h : Sprouts e forks base g) :
    Builds e forks base g (allocationEffect e) fun id g' =>
      Edge e base.size g'.size .effect id := by
  have hLe := h.size_le
  unfold allocationEffect
  split
  · next hEffect => exact .pure h (.effect hEffect)
  · refine Builds.mono (unary_builds h rfl ⟨rfl, nofun, nofun⟩ .value) ?_
    rintro id g₁ ⟨rfl, hSize₁, -⟩
    exact .added (by omega) (by omega)

/-- What a join of values answers with. -/
theorem phi_builds (h : Sprouts e forks base g) (rep : Rep) {merge : NodeId}
    (hx : Edge e base.size g.size .value x) (hy : Edge e base.size g.size .value y)
    (hMerge : Edge e base.size g.size .control merge) :
    Builds e forks base g (push (.phi rep [x, y, merge])) fun id g' => Result base g' id := by
  have hLe := h.size_le
  refine Builds.mono (add_builds h (.cons hx (.cons hy (.cons hMerge .nil))) rfl
    ⟨Int.natCast_nonneg 2, Int.le_refl _, Int.natCast_nonneg 1, rfl⟩ ⟨rfl, nofun⟩ rfl) ?_
  rintro id g₁ ⟨rfl, hSize₁, hNode⟩
  exact ⟨⟨by omega, by omega⟩, _, hNode, nofun⟩

/-! ## Answers -/

/-- What stands in place of a change: a new node for its value, and behind an anchored change an
effect and a control that are new or those it hung on. A change that is not anchored leaves no
effect behind. -/
structure Replaces (e : Entry) (base g : Graph) (r : Graph.Replacement) : Prop where
  value : Result base g r.value
  effect : Edge e base.size g.size .effect r.effect ∨ (e.anchored = false ∧ r.effect < 0)
  control : Edge e base.size g.size .control r.control ∨ (e.anchored = false ∧ r.control < 0)

/-- What a fragment takes for granted of its entry: control is a node, and the effect is one when
the change is anchored. -/
structure Entry.Valid (e : Entry) : Prop where
  control : 0 ≤ e.control
  effect : e.anchored = true ↔ 0 ≤ e.effect

/-- Effect and control edges of a fragment lead to nodes. -/
theorem Edge.nonneg {first here : Nat} (h : Edge e first here kind x) (hEntry : e.Valid)
    (hKind : kind ≠ .value) : 0 ≤ x := by
  cases h with
  | added hFirst _ => exact Int.le_trans (Int.natCast_nonneg _) hFirst
  | value => exact absurd rfl hKind
  | effect hEffect => exact hEffect
  | control => exact hEntry.control

/-- An effect is there, or the change is not anchored and has none. -/
theorem Entry.Valid.effect_edge (hEntry : e.Valid) {first here : Nat} :
    Edge e first here .effect e.effect ∨ (e.anchored = false ∧ e.effect < 0) := by
  cases hAnchored : e.anchored with
  | true => exact .inl (.effect (hEntry.effect.mp hAnchored))
  | false =>
    refine .inr ⟨rfl, Int.not_le.mp fun hEffect => ?_⟩
    rw [hEntry.effect.mpr hEffect] at hAnchored
    cases hAnchored

/-- The control behind a fragment without a branch is that in front of it. -/
theorem passControl_edge {first here : Nat} :
    Edge e first here .control (passControl e) ∨ (e.anchored = false ∧ passControl e < 0) := by
  unfold passControl
  cases e.anchored with
  | true => exact .inl .control
  | false => exact .inr ⟨rfl, by simp⟩

/-- The effects of the two arms are joined, if the change is anchored. -/
theorem joinEffects_builds (h : Sprouts e forks base g) (hEntry : e.Valid) {merge : NodeId}
    (hMerge : Fresh base g merge) {boxed : NodeId} (hBoxed : Fresh base g boxed)
    {effects : List NodeId} (hEffects : effects = [boxed, e.effect] ∨ effects = [e.effect, boxed]) :
    Builds e forks base g (joinEffects e merge effects) fun id g' =>
      Edge e base.size g'.size .effect id ∨ (e.anchored = false ∧ id < 0) := by
  have hLe := h.size_le
  unfold joinEffects
  cases hAnchored : e.anchored with
  | false => exact .pure h (.inr ⟨rfl, by decide⟩)
  | true =>
    have hEffect : Edge e base.size g.size .effect e.effect := .effect (hEntry.effect.mp hAnchored)
    rw [if_neg (by simp)]
    split
    · exact .pure h (.inl hEffect)
    · have hControl : Edge e base.size g.size .control merge := hMerge.edge (Nat.le_refl _)
      have hNew : Edge e base.size g.size .effect boxed := hBoxed.edge (Nat.le_refl _)
      -- an effect phi takes the two effects in the order of the arms
      rcases hEffects with rfl | rfl
      · refine Builds.mono (add_builds h (.cons hNew (.cons hEffect (.cons hControl .nil))) rfl
          ⟨Int.le_refl _, Int.natCast_nonneg 2, Int.natCast_nonneg 1, rfl⟩ ⟨rfl, nofun⟩ rfl) ?_
        rintro id g₁ ⟨rfl, hSize₁, -⟩
        exact .inl (.added (by omega) (by omega))
      · refine Builds.mono (add_builds h (.cons hEffect (.cons hNew (.cons hControl .nil))) rfl
          ⟨Int.le_refl _, Int.natCast_nonneg 2, Int.natCast_nonneg 1, rfl⟩ ⟨rfl, nofun⟩ rfl) ?_
        rintro id g₁ ⟨rfl, hSize₁, -⟩
        exact .inl (.added (by omega) (by omega))

/-! ## One fragment per change -/

/-- Whether the fragment of a change has a branch. -/
def Forks (l : Layout) (small : Bool) : Change → Prop
  | .bitToBool | .uint32ToTagged | .taggedToFloat64 | .taggedToInt32 | .taggedToUint32 => True
  | .int32ToTagged => (l.word = 64 || small) = false
  | .boolToBit | .float64ToTagged => False

/-- What the arms of a diamond come to. -/
structure ArmValues where
  ifTrue : NodeId
  ifFalse : NodeId
  effects : List NodeId := []

/-- A diamond on what a test finds, and behind it a join of what the arms come to. -/
def branching {τ : Type} (test : Build τ) (condition : τ → NodeId) (control : NodeId) (rep : Rep)
    (arms : τ → Diamond → Build ArmValues) (effect : Diamond → ArmValues → Build NodeId) :
    Build Graph.Replacement := do
  let t ← test
  let d ← diamond (condition t) control
  let a ← arms t d
  let phi ← push (.phi rep [a.ifTrue, a.ifFalse, d.merge])
  let effect ← effect d a
  return { value := phi, effect, control := d.merge }

/-- The two booleans. -/
def booleans : Build ArmValues := do
  let yes ← push (.heap trueValue)
  let no ← push (.heap falseValue)
  return { ifTrue := yes, ifFalse := no }

/-- The sum of a word with itself, and whether it overflows. -/
def doubled (e : Entry) : Build (NodeId × NodeId) := do
  let double ← node (.int32 .addWithOverflow) [e.value, e.value]
  let overflow ← push (.projection 1 double)
  return (double, overflow)

/-- A box where the sum overflows, and the sum where it does not. -/
def boxedOrDoubled (l : Layout) (e : Entry) (t : NodeId × NodeId) (d : Diamond) :
    Build ArmValues := do
  let number ← node (.convert .int32ToFloat64) [e.value]
  let effect ← allocationEffect e
  let boxed ← box l number effect d.ifTrue
  let smi ← push (.projection 0 t.1)
  return { ifTrue := boxed.value, ifFalse := smi, effects := [boxed.effect, e.effect] }

/-- Whether an unsigned word is at most the greatest small integer. -/
def comparedWord (l : Layout) (e : Entry) : Build NodeId := do
  let greatest ← int32 l.smiMax
  node (.int32 .unsignedLessThanOrEqual) [e.value, greatest]

/-- The shifted word where it is small, and a box where it is not. -/
def shiftedOrBoxed (l : Layout) (e : Entry) (d : Diamond) : Build ArmValues := do
  let smi ← smiTag l e.value true
  let number ← node (.convert .uint32ToFloat64) [e.value]
  let effect ← allocationEffect e
  let boxed ← box l number effect d.ifFalse
  return { ifTrue := smi, ifFalse := boxed.value, effects := [e.effect, boxed.effect] }

/-- The double of a box, or the small integer converted. -/
def loadedOrConverted (l : Layout) (e : Entry) (d : Diamond) : Build ArmValues := do
  let loaded ← unbox l e.value d.ifTrue
  let smi ← smiUntag l e.value
  let number ← node (.convert .int32ToFloat64) [smi]
  return { ifTrue := loaded, ifFalse := number }

/-- The double of a box truncated, or the small integer. -/
def truncatedOrUntagged (l : Layout) (e : Entry) (d : Diamond) : Build ArmValues := do
  let loaded ← unbox l e.value d.ifTrue
  let number ← node (.convert .truncateFloat64ToInt32) [loaded]
  let smi ← smiUntag l e.value
  return { ifTrue := number, ifFalse := smi }

/-- The bit decides which of the two objects is the answer. -/
theorem bitToBool_eq : bitToBool e = branching (pure e.value) (fun value => value) e.control .tagged
    (fun _ _ => booleans) fun _ _ => pure e.effect := by
  simp only [bitToBool, branching, booleans, bind_assoc, pure_bind]

/-- Whether the doubled word overflows decides if it is boxed. -/
theorem int32ToTagged_eq : int32ToTagged l e = branching (doubled e) (fun t => t.2) e.control .tagged
    (boxedOrDoubled l e) fun d a => joinEffects e d.merge a.effects := by
  simp only [int32ToTagged, branching, doubled, boxedOrDoubled, bind_assoc, pure_bind]

/-- Whether the word is at most the greatest small integer decides if it is boxed. -/
theorem uint32ToTagged_eq : uint32ToTagged l e = branching (comparedWord l e) (fun small => small)
    e.control .tagged (fun _ => shiftedOrBoxed l e) fun d a => joinEffects e d.merge a.effects := by
  simp only [uint32ToTagged, branching, comparedWord, shiftedOrBoxed, bind_assoc, pure_bind]

/-- The tag bit decides if the double is read from a box. -/
theorem taggedToFloat64_eq : taggedToFloat64 l e = branching (tagBit l e.value) (fun tag => tag)
    e.control .float64 (fun _ => loadedOrConverted l e) fun _ _ => pure e.effect := by
  simp only [taggedToFloat64, branching, loadedOrConverted, bind_assoc, pure_bind]

/-- The tag bit decides if a boxed double is truncated. -/
theorem taggedToInt32_eq : taggedToInt32 l e = branching (tagBit l e.value) (fun tag => tag)
    e.control .word32 (fun _ => truncatedOrUntagged l e) fun _ _ => pure e.effect := by
  simp only [taggedToInt32, branching, truncatedOrUntagged, bind_assoc, pure_bind]

/-- A fragment that branches answers with the phi behind its diamond, whatever stands on the arms. A
test may leave more than its condition, and the arms more than their values: `Q` and `R` say what. -/
theorem branching_builds {τ : Type} {test : Build τ} {condition : τ → NodeId} {rep : Rep}
    {arms : τ → Diamond → Build ArmValues} {effect : Diamond → ArmValues → Build NodeId}
    {Q : τ → Graph → Prop} {R : ArmValues → Graph → Prop} (hForks : forks)
    (hTest : Builds e forks base g test fun t g' =>
      Edge e base.size g'.size .value (condition t) ∧ Q t g')
    (hArms : ∀ t d g₁ g', Q t g₁ → Grows g₁ g' → Sprouts e forks base g' →
      Fresh base g' d.ifTrue → Fresh base g' d.ifFalse →
        Builds e forks base g' (arms t d) fun a g'' => Edge e base.size g''.size .value a.ifTrue ∧
          Edge e base.size g''.size .value a.ifFalse ∧ R a g'')
    (hEffect : ∀ d a g₁ g', R a g₁ → Grows g₁ g' → Sprouts e forks base g' →
      Fresh base g' d.merge → Builds e forks base g' (effect d a) fun id g'' =>
        Edge e base.size g''.size .effect id ∨ (e.anchored = false ∧ id < 0)) :
    Builds e forks base g (branching test condition e.control rep arms effect) fun r g' =>
      Replaces e base g' r := by
  refine Builds.bind hTest ?_
  rintro t g₁ h₁ - ⟨hCondition, hQ⟩
  refine Builds.bind (diamond_builds h₁ hForks hCondition) ?_
  rintro d g₂ h₂ hGrows₂ ⟨hTrue, hFalse, hMerge⟩
  refine Builds.bind (hArms t d g₁ g₂ hQ hGrows₂ h₂ hTrue hFalse) ?_
  -- both arms are there: the phi joins their values, and then the effect
  rintro a g₃ h₃ hGrows₃ ⟨hx, hy, hR⟩
  have hMerge₃ := hMerge.mono hGrows₃
  refine Builds.bind (phi_builds h₃ rep hx hy (hMerge₃.edge (Nat.le_refl _))) ?_
  rintro phi g₄ h₄ hGrows₄ hResult
  have hMerge₄ := hMerge₃.mono hGrows₄
  refine Builds.bind (hEffect d a g₃ g₄ hR hGrows₄ h₄ hMerge₄) ?_
  rintro joined g₅ h₅ hGrows₅ hJoined
  exact .pure h₅ ⟨hResult.mono hGrows₅, hJoined, .inl (hMerge₄.edge hGrows₅.size_le)⟩

/-- Whether one arm leaves the effect of a box behind, and the other one that of the change. -/
def ArmValues.Boxes (e : Entry) (base : Graph) (a : ArmValues) (g : Graph) : Prop :=
  ∃ boxed, Fresh base g boxed ∧ (a.effects = [boxed, e.effect] ∨ a.effects = [e.effect, boxed])

/-- A bit picks one of the two booleans. -/
theorem bitToBool_builds (h : Sprouts e forks base g) (hForks : forks) (hEntry : e.Valid) :
    Builds e forks base g (bitToBool e) fun r g' => Replaces e base g' r := by
  rw [bitToBool_eq]
  refine branching_builds (Q := fun _ _ => True) (R := fun _ _ => True) hForks
    (.pure h ⟨.value, trivial⟩) ?_ fun _ _ _ _ _ _ h' _ => .pure h' hEntry.effect_edge
  -- the arms are the two constants
  intro _ _ _ g₁ _ _ h₁ _ _
  have hLe := h₁.size_le
  refine Builds.bind (heap_builds h₁ _) ?_
  rintro yes g₂ h₂ - ⟨rfl, hSize₂⟩
  refine Builds.bind (heap_builds h₂ _) ?_
  rintro no g₃ h₃ - ⟨rfl, hSize₃⟩
  have hYes : Edge e base.size g₃.size .value g₁.size := .added (by omega) (by omega)
  have hNo : Edge e base.size g₃.size .value g₂.size := .added (by omega) (by omega)
  exact .pure h₃ ⟨hYes, hNo, trivial⟩

/-- A boolean is compared with the true object. -/
theorem boolToBit_builds (h : Sprouts e forks base g) (hEntry : e.Valid) :
    Builds e forks base g (boolToBit l e) fun r g' => Replaces e base g' r := by
  have hLe := h.size_le
  -- narrow or wide, the operator is a plain comparison
  have hKind : (wordOp l (.word32 .equal) (.word64 .equal)).arity? =
        some ⟨some 2, some 0, some 0⟩ ∧
      (wordOp l (.word32 .equal) (.word64 .equal)).isChange = false ∧
      wordOp l (.word32 .equal) (.word64 .equal) ≠ .invalid ∧
      wordOp l (.word32 .equal) (.word64 .equal) ≠ .branch ∧
      wordOp l (.word32 .equal) (.word64 .equal) ≠ .constant .int32 := by
    unfold wordOp
    split <;> exact ⟨rfl, rfl, nofun, nofun, nofun⟩
  obtain ⟨hArity, hChange, hInvalid, hBranch, hConstant⟩ := hKind
  unfold boolToBit
  refine Builds.bind (heap_builds h _) ?_
  rintro yes g₁ h₁ - ⟨rfl, hSize₁⟩
  refine Builds.bind (binary_builds h₁ hArity ⟨hChange, hInvalid, hBranch⟩ .value
    (.added (by omega) (by omega))) ?_
  rintro equal g₂ h₂ - ⟨rfl, hSize₂, n, hNode, hOp⟩
  have hFresh : Fresh base g₂ (g₁.size : Int) := ⟨by omega, by omega⟩
  exact .pure h₂ ⟨⟨hFresh, n, hNode, by rw [hOp]; exact hConstant⟩, hEntry.effect_edge,
    passControl_edge⟩

/-- A double is boxed. -/
theorem float64ToTagged_builds (h : Sprouts e forks base g) (hEntry : e.Valid) :
    Builds e forks base g (float64ToTagged l e) fun r g' => Replaces e base g' r := by
  unfold float64ToTagged
  refine Builds.bind (allocationEffect_builds h) ?_
  rintro effect g₁ h₁ - hEffect
  refine Builds.bind (box_builds h₁ .value hEffect .control hEntry.control) ?_
  rintro ⟨value, after⟩ g₂ h₂ - ⟨hValue, hAfter⟩
  dsimp only at hValue hAfter
  -- the effect goes on behind the box where the change is threaded, and is left alone else
  refine .pure h₂ ⟨hValue, ?_, passControl_edge⟩
  dsimp only
  split
  · rw [hAfter]
    exact .inl (hValue.1.edge (Nat.le_refl _))
  · exact hEntry.effect_edge

/-- In a large word an integer is shifted. -/
theorem smallInt32ToTagged_builds (h : Sprouts e forks base g) (hEntry : e.Valid) :
    Builds e forks base g (smallInt32ToTagged l e) fun r g' => Replaces e base g' r := by
  unfold smallInt32ToTagged
  refine Builds.bind (smiTag_builds h false) ?_
  rintro smi g₁ h₁ - hResult
  exact .pure h₁ ⟨hResult, hEntry.effect_edge, passControl_edge⟩

/-- A projection takes its operation. -/
theorem projection_builds (h : Sprouts e forks base g) (index : Int)
    (hx : Edge e base.size g.size .value x) :
    Builds e forks base g (push (.projection index x)) fun id g' =>
      id = (g.size : Int) ∧ g'.size = g.size + 1 ∧ g'.node? id = some (.projection index x) :=
  add_builds h (.cons hx .nil) rfl ⟨Int.natCast_nonneg 1, Int.le_refl _, Int.le_refl _, rfl⟩
    ⟨rfl, nofun⟩ rfl

/-- In a small word an integer is doubled, and boxed if that overflows. -/
theorem int32ToTagged_builds (h : Sprouts e forks base g) (hForks : forks) (hEntry : e.Valid) :
    Builds e forks base g (int32ToTagged l e) fun r g' => Replaces e base g' r := by
  rw [int32ToTagged_eq]
  refine branching_builds (Q := fun t g' => Edge e base.size g'.size .value t.1)
    (R := ArmValues.Boxes e base) hForks ?_ ?_ ?_
  · have hLe := h.size_le
    refine Builds.bind (binary_builds h rfl ⟨rfl, nofun, nofun⟩ .value .value) ?_
    rintro double g₁ h₁ - ⟨rfl, hSize₁, -⟩
    refine Builds.bind (projection_builds h₁ 1 (.added (by omega) (by omega))) ?_
    rintro overflow g₂ h₂ - ⟨rfl, hSize₂, -⟩
    exact .pure h₂ ⟨.added (by omega) (by omega), .added (by omega) (by omega)⟩
  · -- The box is built on the arm where the sum overflowed.
    intro t d g₁ g₂ hDouble hGrows₂ h₂ hTrue _
    have hLe := h₂.size_le
    refine Builds.bind (unary_builds h₂ rfl ⟨rfl, nofun, nofun⟩ .value) ?_
    rintro number g₃ h₃ hGrows₃ ⟨rfl, hSize₃, -⟩
    refine Builds.bind (allocationEffect_builds h₃) ?_
    rintro effect g₄ h₄ hGrows₄ hEffect
    have hArm := (hTrue.mono hGrows₃).mono hGrows₄
    refine Builds.bind (box_builds h₄ (.added (by omega) (by have := hGrows₄.size_le; omega)) hEffect
      (hArm.edge (Nat.le_refl _)) hArm.nonneg) ?_
    rintro ⟨value, after⟩ g₅ h₅ hGrows₅ ⟨⟨hValue, -⟩, hAfter⟩
    dsimp only at hValue hAfter
    subst hAfter
    have hGrows := hGrows₂.trans (hGrows₃.trans (hGrows₄.trans hGrows₅))
    refine Builds.bind (projection_builds h₅ 0 (hDouble.mono hGrows.size_le)) ?_
    rintro smi g₆ h₆ hGrows₆ ⟨rfl, hSize₆, -⟩
    have hBoxed := hValue.mono hGrows₆
    have hLe₅ := h₅.size_le
    have hSum : Edge e base.size g₆.size .value g₅.size := .added (by omega) (by omega)
    exact .pure h₆ ⟨hBoxed.edge (Nat.le_refl _), hSum, _, hBoxed, .inl rfl⟩
  · rintro d a g₁ g₂ ⟨boxed, hBoxed, hEffects⟩ hGrows₂ h₂ hMerge
    exact joinEffects_builds h₂ hEntry hMerge (hBoxed.mono hGrows₂) hEffects

/-- An unsigned word is compared with the greatest small integer. -/
theorem uint32ToTagged_builds (h : Sprouts e forks base g) (hForks : forks) (hEntry : e.Valid) :
    Builds e forks base g (uint32ToTagged l e) fun r g' => Replaces e base g' r := by
  rw [uint32ToTagged_eq]
  refine branching_builds (Q := fun _ _ => True) (R := ArmValues.Boxes e base) hForks ?_ ?_ ?_
  · have hLe := h.size_le
    refine Builds.bind (int32_builds h _) ?_
    rintro greatest g₁ h₁ - ⟨rfl, hSize₁⟩
    refine Builds.mono (binary_builds h₁ rfl ⟨rfl, nofun, nofun⟩ .value
      (.added (by omega) (by omega))) ?_
    rintro small g₂ ⟨rfl, hSize₂, -⟩
    exact ⟨.added (by omega) (by omega), trivial⟩
  · -- One arm tags the word, the other one boxes it.
    intro _ d g₁ g₂ _ _ h₂ _ hFalse
    refine Builds.bind (smiTag_builds h₂ true) ?_
    rintro smi g₃ h₃ hGrows₃ ⟨hSmi, -⟩
    have hLe := h₃.size_le
    refine Builds.bind (unary_builds h₃ rfl ⟨rfl, nofun, nofun⟩ .value) ?_
    rintro number g₄ h₄ hGrows₄ ⟨rfl, hSize₄, -⟩
    refine Builds.bind (allocationEffect_builds h₄) ?_
    rintro effect g₅ h₅ hGrows₅ hEffect
    have hArm := ((hFalse.mono hGrows₃).mono hGrows₄).mono hGrows₅
    refine Builds.bind (box_builds h₅ (.added (by omega) (by have := hGrows₅.size_le; omega)) hEffect
      (hArm.edge (Nat.le_refl _)) hArm.nonneg) ?_
    rintro ⟨value, after⟩ g₆ h₆ hGrows₆ ⟨⟨hValue, -⟩, hAfter⟩
    dsimp only at hValue hAfter
    subst hAfter
    have hTagged := hSmi.mono (hGrows₄.trans (hGrows₅.trans hGrows₆))
    exact .pure h₆ ⟨hTagged.edge (Nat.le_refl _), hValue.edge (Nat.le_refl _), _, hValue, .inr rfl⟩
  · rintro d a g₁ g₂ ⟨boxed, hBoxed, hEffects⟩ hGrows₂ h₂ hMerge
    exact joinEffects_builds h₂ hEntry hMerge (hBoxed.mono hGrows₂) hEffects

/-- A tagged value branches on its tag bit, and the effect stays that of the change. -/
theorem untagging_builds {rep : Rep} {arms : Diamond → Build ArmValues}
    (h : Sprouts e forks base g) (hForks : forks) (hEntry : e.Valid)
    (hArms : ∀ d g', Sprouts e forks base g' → Fresh base g' d.ifTrue →
      Builds e forks base g' (arms d) fun a g'' => Edge e base.size g''.size .value a.ifTrue ∧
        Edge e base.size g''.size .value a.ifFalse) :
    Builds e forks base g (branching (tagBit l e.value) (fun tag => tag) e.control rep
      (fun _ => arms) fun _ _ => pure e.effect) fun r g' => Replaces e base g' r := by
  refine branching_builds (Q := fun _ _ => True) (R := fun _ _ => True) hForks
    ((tagBit_builds h).mono fun _ _ hTag => ⟨hTag.edge (Nat.le_refl _), trivial⟩) ?_
    fun _ _ _ _ _ _ h' _ => .pure h' hEntry.effect_edge
  intro _ d _ g' _ _ h' hTrue _
  exact (hArms d g' h' hTrue).mono fun _ _ hBoth => ⟨hBoth.1, hBoth.2, trivial⟩

/-- A tagged value is a small integer that is converted, or a box that is read. -/
theorem taggedToFloat64_builds (h : Sprouts e forks base g) (hForks : forks) (hEntry : e.Valid) :
    Builds e forks base g (taggedToFloat64 l e) fun r g' => Replaces e base g' r := by
  rw [taggedToFloat64_eq]
  refine untagging_builds h hForks hEntry fun d g₂ h₂ hTrue => ?_
  refine Builds.bind (unbox_builds h₂ .value (hTrue.edge (Nat.le_refl _))) ?_
  rintro loaded g₃ h₃ - hLoaded
  refine Builds.bind (smiUntag_builds h₃) ?_
  rintro smi g₄ h₄ hGrows₄ hSmi
  refine Builds.bind (unary_builds h₄ rfl ⟨rfl, nofun, nofun⟩ (hSmi.edge (Nat.le_refl _))) ?_
  rintro number g₅ h₅ hGrows₅ ⟨rfl, hSize₅, -⟩
  have hLe := h₄.size_le
  have hNumber : Edge e base.size g₅.size .value g₄.size := .added (by omega) (by omega)
  exact .pure h₅ ⟨hLoaded.edge (hGrows₄.trans hGrows₅).size_le, hNumber⟩

/-- A tagged value is a small integer, or a box that is read and truncated. -/
theorem taggedToInt32_builds (h : Sprouts e forks base g) (hForks : forks) (hEntry : e.Valid) :
    Builds e forks base g (taggedToInt32 l e) fun r g' => Replaces e base g' r := by
  rw [taggedToInt32_eq]
  refine untagging_builds h hForks hEntry fun d g₂ h₂ hTrue => ?_
  refine Builds.bind (unbox_builds h₂ .value (hTrue.edge (Nat.le_refl _))) ?_
  rintro loaded g₃ h₃ - hLoaded
  have hLe := h₃.size_le
  refine Builds.bind (unary_builds h₃ rfl ⟨rfl, nofun, nofun⟩ (hLoaded.edge (Nat.le_refl _))) ?_
  rintro number g₄ h₄ - ⟨rfl, hSize₄, -⟩
  refine Builds.bind (smiUntag_builds h₄) ?_
  rintro smi g₅ h₅ hGrows₅ hSmi
  have hLe₅ := hGrows₅.size_le
  have hNumber : Edge e base.size g₅.size .value g₃.size := .added (by omega) (by omega)
  exact .pure h₅ ⟨hNumber, hSmi.edge (Nat.le_refl _)⟩

/-- The fragment of a change grows out of the graph and answers with what stands in its place. -/
theorem fragment_builds (hEntry : e.Valid) (f : Change) (small : Bool) :
    Builds e (Forks l small f) g g (fragment l f small e) fun r g' => Replaces e g g' r := by
  have h : Sprouts e (Forks l small f) g g := .refl
  cases f with
  | bitToBool => exact bitToBool_builds h trivial hEntry
  | boolToBit => exact boolToBit_builds h hEntry
  | float64ToTagged => exact float64ToTagged_builds h hEntry
  | int32ToTagged =>
    show Builds _ _ _ _ (if l.word = 64 || small then _ else _) _
    cases hSmall : (l.word = 64 || small : Bool) with
    | true => exact smallInt32ToTagged_builds h hEntry
    | false => exact int32ToTagged_builds h hSmall hEntry
  | uint32ToTagged => exact uint32ToTagged_builds h trivial hEntry
  | taggedToFloat64 => exact taggedToFloat64_builds h trivial hEntry
  | taggedToInt32 => exact taggedToInt32_builds h trivial hEntry
  | taggedToUint32 => exact taggedToInt32_builds h trivial hEntry

end Lowering
end ArmBackend
