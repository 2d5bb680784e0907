import ArmBackend.Lowering.Pass
import ArmBackend.Proofs.Lowering.Planning
import ArmBackend.Proofs.Outcome

/-!
# Putting fragments in place

What one round of the pass does to a graph: behind the nodes come those of the fragment, the uses of
the change are redirected and the change is killed. A plan in which the change does not occur is not
touched by that, because the nodes of a plan refer to nodes of the plan only.

## Results

* `lowerNode_change`, `lowerNode_other` — one round of the pass.
* `Plan.Good.replace` — a plan survives the replacement of a node that is not in it.
-/

namespace ArmBackend

open Lowering

/-- A node that does not take the old one stays. -/
theorem Node.redirect_of_notMem {n : Node} {old : NodeId} {r : Graph.Replacement}
    (h : old ∉ n.inputs) : n.redirect old r = n := by
  have hSame : n.inputs.mapIdx (fun index input =>
      if input = old then r.target old (n.edgeKind index) else input) = n.inputs := by
    refine List.ext_getElem (by simp) fun i _ hi => ?_
    have hNe : n.inputs[i] ≠ old := fun hEq => h (hEq ▸ List.getElem_mem hi)
    rw [List.getElem_mapIdx, if_neg hNe]
  unfold Node.redirect
  rw [hSame]

/-- So it is with several nodes. -/
theorem Node.map_redirect_of_notMem {ms : List Node} {old : NodeId} {r : Graph.Replacement}
    (h : ∀ m ∈ ms, old ∉ m.inputs) : ms.map (·.redirect old r) = ms := by
  rw [List.map_congr_left fun m hm => Node.redirect_of_notMem (h m hm)]
  exact List.map_id _

namespace Graph

variable {g : Graph} {old : Nat} {r : Replacement} {pre rest post : List Node}

/-- The graph with a node replaced on all edges to it, and dead. -/
def replace (g : Graph) (old : Nat) (r : Replacement) : Graph :=
  { g with nodes := (g.nodes.map (·.redirect old r)).setIfInBounds old { op := .dead } }

/-- Replacing adds no node. -/
@[simp]
theorem size_replace : (g.replace old r).size = g.size := by
  simp [replace, size]

/-- Replacing keeps the exit. -/
@[simp]
theorem exit_replace : (g.replace old r).exit = g.exit :=
  rfl

/-- Replacing the uses of a node in a closed graph, and killing it, succeeds. -/
theorem replaceUses_kill (hClosed : g.isClosed = true) (hOld : old < g.size) :
    (do (← g.replaceUses old r).kill old) = .ok (g.replace old r) := by
  have hUses : g.uses old = .ok (g.edgesTo old) := by
    have hContains : g.contains old = true :=
      contains_iff.mpr ⟨Int.natCast_nonneg _, Int.ofNat_lt.mpr hOld⟩
    unfold uses
    rw [hClosed, hContains]
    rfl
  let rewired : Graph := { g with nodes := g.nodes.map (·.redirect old r) }
  have hRewired : g.replaceUses old r = .ok rewired := by
    unfold replaceUses
    rw [hUses]
    rfl
  -- rewiring drops no node, so `old` is still there to be killed
  obtain ⟨n, hn⟩ : ∃ n, rewired.node? old = some n := by
    refine exists_node? (Int.natCast_nonneg _) (Int.ofNat_lt.mpr ?_)
    show old < (g.nodes.map _).size
    rw [Array.size_map]
    exact hOld
  rw [hRewired]
  show rewired.kill old = _
  unfold kill
  rw [hn]
  rfl

/-- A node that does not take the old one stays where it was. -/
theorem node?_replace {id : NodeId} {n : Node} (hn : g.node? id = some n) (hId : id ≠ old)
    (hOld : (old : NodeId) ∉ n.inputs) : (g.replace old r).node? id = some n := by
  obtain ⟨i, rfl, hi⟩ := node?_eq_some.mp hn
  have hNe : old ≠ i := fun hEq => hId (by rw [hEq])
  refine node?_eq_some.mpr ⟨i, rfl, ?_⟩
  show ((g.nodes.map (·.redirect old r)).setIfInBounds old _)[i]? = some n
  rw [Array.getElem?_setIfInBounds_ne hNe, Array.getElem?_map, hi]
  exact congrArg some (Node.redirect_of_notMem hOld)

/-- Only the nodes behind the replaced one refer to it. -/
theorem toList_replace {n : Node} (h : g.nodes.toList = pre ++ n :: rest ++ post)
    (hOld : pre.length = old) (hPre : ∀ m ∈ pre, (old : NodeId) ∉ m.inputs)
    (hPost : ∀ m ∈ post, (old : NodeId) ∉ m.inputs) :
    (g.replace old r).nodes.toList =
      pre ++ { op := .dead } :: rest.map (·.redirect old r) ++ post := by
  have hMap : (g.nodes.map (·.redirect old r)).toList =
      pre ++ n.redirect old r :: (rest.map (·.redirect old r) ++ post) := by
    rw [Array.toList_map, h]
    simp [Node.map_redirect_of_notMem hPre, Node.map_redirect_of_notMem hPost]
  show ((g.nodes.map (·.redirect old r)).setIfInBounds old { op := .dead }).toList = _
  rw [Array.toList_setIfInBounds, hMap, ← hOld, List.set_append_right _ _ (Nat.le_refl _)]
  simp

end Graph

/-! ## Verification -/

/-- Whether a node has as many inputs of each kind as its operator takes. -/
def Node.fitsArity (n : Node) : Bool :=
  match n.op.arity? with
  | none => false
  | some arity =>
    n.op ≠ .invalid && (Arity.admits arity.value n.valueCount &&
      Arity.admits arity.effect n.effectCount && Arity.admits arity.control n.controlCount) &&
      !(n.op.isChange && (1 < n.effectCount || 1 < n.controlCount))

/-- A change takes as many inputs as its operator asks for. -/
theorem Node.fitsArity_change (f : Change) (x effect control : NodeId) :
    (Node.change (.change f) x effect control).fitsArity = true := by
  unfold Node.change Node.anchors
  by_cases he : 0 ≤ effect <;> by_cases hc : 0 ≤ control <;> simp only [he, hc] <;> rfl

/-- A graph verifies when its edges lead to nodes and its nodes have the edges they should have. -/
theorem Graph.verify_of_closed {g : Graph} (hClosed : g.isClosed = true)
    (hArity : ∀ n ∈ g.nodes.toList, n.fitsArity = true) : g.verify = .ok () := by
  have hNone : ∀ n id, (n, id) ∈ g.nodes.toList.zipIdx → g.violation? id n = none := by
    intro n id hMem
    have hn : n ∈ g.nodes.toList := (List.mem_zipIdx' hMem).2 ▸ List.getElem_mem _
    -- No input lies outside, since the graph is closed.
    have hInputs : (n.inputs.find? fun input =>
        decide (input < 0 ∨ (g.nodes.size : Int) ≤ input)) = none := by
      refine List.find?_eq_none.mpr fun x hx => ?_
      obtain ⟨hNonneg, hLt⟩ := contains_iff.mp (isClosed_iff.mp hClosed n hn x hx)
      rw [decide_eq_true_iff]
      rintro (hNeg | hGe)
      · exact absurd hNonneg (Int.not_le.mpr hNeg)
      · exact absurd hLt (Int.not_lt.mpr hGe)
    have hFits := hArity n hn
    unfold violation?
    unfold Node.fitsArity at hFits
    cases hOp : n.op.arity? with
    | none =>
      rw [hOp] at hFits
      cases hFits
    | some arity =>
      rw [hOp] at hFits
      simp only [hInputs]
      simp only [Bool.and_eq_true, decide_eq_true_eq, Bool.not_eq_true', Bool.and_eq_false_iff,
        Bool.or_eq_false_iff, decide_eq_false_iff_not] at hFits
      grind
  unfold verify
  rw [List.findSome?_eq_none_iff.mpr fun p hp => hNone p.1 p.2 hp]

/-! ## One round -/

namespace Lowering

variable {l : Layout} {g : Graph} {id : Nat} {n : Node}

/-- A node that is no change is left alone. -/
theorem lowerNode_other (hn : g.node? id = some n) (hOp : ∀ f, n.op ≠ .change f) :
    lowerNode l g id = .ok none := by
  have hReduce : reduce l g id = .ok none := by
    unfold reduce
    have : g.op id = .ok n.op := by
      unfold Graph.op
      rw [hn]
    rw [this, ok_bind]
    split
    · exact absurd ‹_› (hOp _)
    · rfl
  unfold lowerNode
  rw [hReduce]
  rfl

/-- A change is replaced by what its fragment answers with. -/
theorem lowerNode_change {f : Change} {e : Entry} {small : Bool} (hn : g.node? id = some n)
    (hOp : n.op = .change f) (hEntry : entry g id = .ok e)
    (hSmall : (if f = .int32ToTagged then isSmallConstant l g e.value else pure false) = .ok small)
    (hClosed : ((fragment l f small e).run g).2.isClosed = true)
    (hId : id < ((fragment l f small e).run g).2.size) :
    lowerNode l g id =
      .ok (some (((fragment l f small e).run g).2.replace id ((fragment l f small e).run g).1)) := by
  -- The fragment is chosen; whether a constant is small is asked for one change alone.
  have hReduce : reduce l g id =
      .ok (some (((fragment l f small e).run g).2, ((fragment l f small e).run g).1)) := by
    unfold reduce
    have hIs : g.op id = .ok (.change f) := by
      unfold Graph.op
      rw [hn, ← hOp]
    rw [hIs]
    simp only [ok_bind, hEntry]
    by_cases hf : f = .int32ToTagged
    · rw [if_pos hf] at hSmall ⊢
      rw [hSmall]
      rfl
    · rw [if_neg hf] at hSmall ⊢
      cases hSmall
      rfl
  have hReplace := Graph.replaceUses_kill (r := ((fragment l f small e).run g).1) hClosed hId
  unfold lowerNode
  rw [hReduce]
  show (do
    let rewired ← ((fragment l f small e).run g).2.replaceUses id ((fragment l f small e).run g).1
    return some (← rewired.kill id)) = _
  -- Replacing the uses succeeds, and so does killing the change.
  generalize ((fragment l f small e).run g).2.replaceUses id _ = rewired at hReplace ⊢
  cases rewired with
  | error fault => cases hReplace
  | ok rewired =>
    change rewired.kill id = _ at hReplace
    show (do return some (← rewired.kill id)) = _
    rw [hReplace]
    rfl

/-- A row of nodes that are no changes is left alone. -/
theorem lowerNodes_skip {ids rest : List Nat} {k : Nat}
    (h : ∀ id ∈ ids, ∃ n, g.node? id = some n ∧ ∀ f, n.op ≠ .change f) :
    lowerNodes l (ids ++ rest) g k = lowerNodes l rest g k := by
  induction ids with
  | nil => rfl
  | cons id ids ih =>
    obtain ⟨n, hn, hOp⟩ := h id (.head _)
    rw [List.cons_append, lowerNodes, lowerNode_other hn hOp]
    exact ih fun i hi => h i (.tail _ hi)

/-- The two word widths have a layout. -/
theorem layoutFor_eq {word : Int} (hWord : word = 32 ∨ word = 64) :
    layoutFor word = .ok (.ofWord word) := by
  obtain rfl | rfl := hWord
  · rfl
  · rfl

/-- The pass goes through all nodes. -/
theorem run_eq {word : Int} (hVerify : g.verify = .ok ()) (hWord : word = 32 ∨ word = 64) :
    run g word = lowerNodes (.ofWord word) (List.range g.size) g 0 := by
  unfold run
  rw [hVerify, layoutFor_eq hWord]
  rfl

/-- The pass starts at the first change. -/
theorem run_skip {word : Int} {k m : Nat} (hVerify : g.verify = .ok ())
    (hWord : word = 32 ∨ word = 64) (hSize : g.size = k + m)
    (hSkip : ∀ i < k, ∃ n, g.node? i = some n ∧ ∀ f, n.op ≠ .change f) :
    run g word = lowerNodes (.ofWord word) (List.range' k m) g 0 := by
  have hRange : List.range g.size = List.range' 0 k ++ List.range' k m := by
    rw [hSize, List.range_eq_range', ← List.range'_append_1, Nat.zero_add]
  rw [run_eq hVerify hWord, hRange]
  refine lowerNodes_skip fun id hId => hSkip id ?_
  have := List.mem_range'_1.mp hId
  omega

/-- Where the fragment of an anchored or unanchored change starts. -/
theorem entry_change {f : Change} {x effect control : NodeId}
    (hn : g.node? id = some (.change (.change f) x effect control))
    (hAnchors : 0 ≤ effect ↔ 0 ≤ control) :
    entry g id = .ok
      { value := x, effect := if 0 ≤ effect then effect else -1, anchored := decide (0 ≤ control)
        control := if 0 ≤ control then control else Graph.start } := by
  have hNode : g.node id = .ok (.change (.change f) x effect control) := Graph.node_eq_ok.mpr hn
  unfold entry
  rw [hNode]
  -- both anchors are there or both are missing
  by_cases hc : 0 ≤ control
  · have he := hAnchors.mpr hc
    have hNot : ¬control < 0 := Int.not_lt.mpr hc
    have hNot' : ¬effect < 0 := Int.not_lt.mpr he
    simp [Node.change, Node.anchors, Node.input, Node.effectIn, Node.controlIn, hc, he, hNot,
      ok_bind, pure, Except.pure]
  · have he : ¬0 ≤ effect := fun he => hc (hAnchors.mp he)
    simp [Node.change, Node.anchors, Node.input, Node.effectIn, Node.controlIn, hc, he, ok_bind,
      pure, Except.pure]

end Lowering

/-! ## Plans -/

namespace Machine.Plan

variable {c : Setting} {p p' : Plan c} {g g' : Graph} {old : Nat} {r : Graph.Replacement}

/-- A plan survives the replacement of a node that is not in it. -/
theorem Good.replace (h : p.Good g) (hPlain : ∀ id, c.given id = false)
    (hOld : p.entry old = none) : p.Good (g.replace old r) where
  valid := h.valid
  fits := by
    intro id e he
    refine Graph.node?_replace (h.fits id e he) ?_ ?_
    · rintro rfl
      rw [hOld] at he
      cases he
    · intro hMem
      have hHas := h.valid.closed (hPlain id) he old hMem
      rw [hOld] at hHas
      cases hHas

/-- What a plan speaks of is in its graph. -/
theorem Good.contains {id : NodeId} (h : p.Good g) (hHas : p.Has id) : g.contains id = true :=
  Graph.contains_iff.mpr (h.nonneg hHas)

/-- A constant operand is planned as what it is. -/
theorem Good.constant_word (h : p.Good g) (hPlain : ∀ id, c.given id = false) {x : NodeId}
    {n : Node} {v : BitVec 64} {a : Nat}
    (hx : p.Shows x ⟨.word v, a⟩) (hn : g.node? x = some n) (hOp : n.op = .constant .int32) :
    v = (BitVec.ofInt 32 n.int).setWidth 64 := by
  obtain ⟨e, he, -, hl⟩ := hx
  obtain rfl : e.node = n := Option.some.inj ((h.fits x e he).symm.trans hn)
  have hGrants := h.valid.value (hPlain x) he hl
  generalize e.event = event at hGrants
  -- Of all ways to plan a value only that of a constant fits its operator.
  cases hGrants with
  | phi hPhi => rw [hOp] at hPhi; cases hPhi
  | finish hFinish => rw [hOp] at hFinish; cases hFinish
  | still hAccesses | event hAccesses =>
    cases hAccesses with
    | call hCall | load hCall | store hCall | change hCall => rw [hOp] at hCall; cases hCall
  | compute hComputes _ _ hMeans =>
    cases hComputes with
    | argument hOther | convert hOther | result hOther | overflow hOther =>
      rw [hOp] at hOther
      cases hOther
    | words hOther =>
      rw [hOp] at hOther
      cases hOther
    | constant hKind hf =>
      rw [hOp] at hKind
      cases hKind
      cases hf
      exact (hMeans { heap := c.heap } (Heap.Like.refl _) (by simp)).symm

/-- A planned operand that is a constant small integer is planned as one. -/
theorem Good.isSmallConstant (h : p.Good g) (hPlain : ∀ id, c.given id = false) {l : Layout}
    {x : NodeId} (hx : p.Has x) :
    ∃ small, Lowering.isSmallConstant l g x = .ok small ∧ ∀ v a, p.Shows x ⟨.word v, a⟩ →
      small = true → l.isSmi (v.setWidth 32).toInt = true := by
  obtain ⟨e, he⟩ := Option.isSome_iff_exists.mp hx
  have hn := h.fits x e he
  have hNode : g.node x = .ok e.node := Graph.node_eq_ok.mpr hn
  unfold Lowering.isSmallConstant Graph.int32
  rw [hNode]
  refine ⟨_, rfl, fun v a hShows hSmall => ?_⟩
  by_cases hOp : e.node.op = .constant .int32
  · have hv := h.constant_word hPlain hShows hn hOp
    simp only [if_pos hOp, Option.any_some] at hSmall
    rw [hv, BitVec.setWidth_setWidth_of_le _ (by decide), BitVec.setWidth_eq]
    exact hSmall
  · simp [if_neg hOp] at hSmall

/-- What a fragment adds refers to what is planned, so the graph stays closed. -/
theorem Grown.isClosed (h : p.Grown g p' g') (hClosed : g.isClosed = true) :
    g'.isClosed = true := by
  obtain ⟨ns, hg', hInputs⟩ := h.nodes
  have hSize := h.size_le
  refine Graph.isClosed_iff.mpr ?_
  intro n hn x hx
  have hMem : n ∈ g.nodes.toList ∨ n ∈ ns := by
    rw [hg'] at hn
    simpa [Graph.append] using hn
  obtain hn | hn := hMem
  · obtain ⟨hNonneg, hLt⟩ := Graph.contains_iff.mp (Graph.isClosed_iff.mp hClosed n hn x hx)
    exact Graph.contains_iff.mpr
      ⟨hNonneg, Int.lt_of_lt_of_le hLt (Int.ofNat_le.mpr hSize)⟩
  · exact h.good.contains (hInputs n hn x hx)

/-! ## Going through a graph -/

/-- A graph that was gone through up to a node. The plan is about what is behind and about what was
added; `rest` is what is ahead, up to the exit. -/
structure Laid (p : Plan c) (g : Graph) (rest : List Node) (pos : Nat) : Prop where
  good : p.Good g
  nodes : ∃ pre post, g.nodes.toList = pre ++ rest ++ post ∧ pre.length = pos ∧
    ∀ n ∈ pre ++ post, ∀ z ∈ n.inputs, p.Has z
  ahead : ∀ i : Nat, pos ≤ i → i < pos + rest.length → p.entry i = none
  exit : ∃ last : Nat, g.exit = some (last : NodeId) ∧ last + 1 = pos + rest.length
  count : p.count + rest.length ≤ g.size

namespace Laid

variable {n : Node} {rest : List Node} {pos : Nat}

/-- What is left to go through lies in the graph. -/
theorem le_size (h : p.Laid g rest pos) : pos + rest.length ≤ g.size := by
  obtain ⟨pre, post, hNodes, hPre, -⟩ := h.nodes
  show _ ≤ g.nodes.toList.length
  rw [hNodes, List.length_append, List.length_append]
  omega

/-- A node that is left to go through is where it was. -/
theorem node? (h : p.Laid g rest pos) {i : Nat} (hi : i < rest.length) :
    g.node? (pos + i : Nat) = rest[i]? := by
  obtain ⟨pre, post, hNodes, hPre, -⟩ := h.nodes
  show (if ((pos + i : Nat) : Int) < 0 then none else g.nodes[pos + i]?) = _
  rw [if_neg (Int.not_lt.mpr (Int.natCast_nonneg _)), ← Array.getElem?_toList, hNodes,
    List.getElem?_append_left (by rw [List.length_append]; omega),
    List.getElem?_append_right (by omega)]
  congr 1
  omega

/-- The next node. -/
theorem head (h : p.Laid g (n :: rest) pos) : g.node? pos = some n :=
  h.node? (Nat.succ_pos _)

/-- The plan says nothing of the next node. -/
theorem fresh (h : p.Laid g (n :: rest) pos) : p.entry pos = none :=
  h.ahead pos (Nat.le_refl _) (Nat.lt_add_of_pos_right (Nat.succ_pos _))

/-- The node behind the next one. -/
theorem second {m : Node} (h : p.Laid g (n :: m :: rest) pos) :
    g.node? (pos + 1 : Nat) = some m :=
  h.node? (Nat.succ_lt_succ (Nat.succ_pos _))

/-- The last node is the exit. -/
theorem exit_second {m : Node} (h : p.Laid g [n, m] pos) :
    g.exit = some ((pos + 1 : Nat) : NodeId) := by
  obtain ⟨last, hExit, hLast⟩ := h.exit
  have hLast : last + 1 = pos + 2 := hLast
  rw [hExit, show last = pos + 1 by omega]

/-- Only what is ahead can refer to something that is not planned. -/
theorem isClosed (h : p.Laid g rest pos)
    (hRest : ∀ n ∈ rest, ∀ z ∈ n.inputs, p.Has z ∨ ∃ i : Nat, z = i ∧ i < pos + rest.length) :
    g.isClosed = true := by
  obtain ⟨pre, post, hNodes, -, hInputs⟩ := h.nodes
  have hSize := h.le_size
  refine Graph.isClosed_iff.mpr fun n hn z hz => ?_
  rw [hNodes] at hn
  obtain hn | hn | hn : n ∈ pre ∨ n ∈ rest ∨ n ∈ post := by simpa [or_assoc] using hn
  · exact h.good.contains (hInputs n (by simp [hn]) z hz)
  · obtain hHas | ⟨i, rfl, hLt⟩ := hRest n hn z hz
    · exact h.good.contains hHas
    · exact Graph.contains_iff.mpr ⟨Int.natCast_nonneg _, Int.ofNat_lt.mpr (by omega)⟩
  · exact h.good.contains (hInputs n (by simp [hn]) z hz)

/-- A node is planned as it stands. -/
theorem take (h : p.Laid g (n :: rest) pos) {e : Entry} {after : Option (Knowledge c)}
    (hNode : e.node = n) (hAdmits : p.Admits pos e after) :
    (p.insert pos e after).Laid g rest (pos + 1) where
  good := h.good.insert (by rw [hNode]; exact h.head) hAdmits
  nodes := by
    obtain ⟨pre, post, hNodes, hPre, hInputs⟩ := h.nodes
    have hLe : p.Le (p.insert pos e after) := le_insert h.good.valid hAdmits.fresh
    refine ⟨pre ++ [n], post, by simp [hNodes], by simp [hPre], ?_⟩
    intro m hm z hz
    obtain hm | rfl : m ∈ pre ++ post ∨ m = n := by
      simp only [List.mem_append, List.mem_singleton] at hm ⊢
      grind
    · exact (hInputs m hm z hz).mono hLe
    · exact (hAdmits.closed z (hNode ▸ hz)).mono hLe
  -- The plan now speaks of the node as well, and of none behind it.
  ahead := by
    intro i hLe hLt
    have hNe : (i : NodeId) ≠ pos := fun hEq => by
      have : (i : Int) = pos := hEq
      omega
    show (if (i : NodeId) = pos then _ else p.entry i) = none
    rw [if_neg hNe]
    refine h.ahead i (by omega) ?_
    rw [List.length_cons]
    omega
  exit := by
    obtain ⟨last, hExit, hLast⟩ := h.exit
    refine ⟨last, hExit, ?_⟩
    rw [hLast, List.length_cons]
    omega
  count := by
    have hCount := h.count
    rw [List.length_cons] at hCount
    show p.count + 1 + rest.length ≤ g.size
    omega

/-- A node is replaced by what was added for it. -/
theorem replace (h : p.Laid g (n :: rest) pos) (hPlain : ∀ id, c.given id = false)
    (hGrown : p.Grown g p' g') :
    p'.Laid (g'.replace pos r) (rest.map (·.redirect pos r)) (pos + 1) := by
  obtain ⟨pre, post, hNodes, hPre, hInputs⟩ := h.nodes
  obtain ⟨ns, hg', hNew⟩ := hGrown.nodes
  have hSize := h.le_size
  have hAhead : ∀ i : Nat, pos ≤ i → i < pos + (n :: rest).length → p'.entry i = none := by
    intro i hLe hLt
    rw [hGrown.old i (Int.ofNat_lt.mpr (by omega))]
    exact h.ahead i hLe hLt
  have hGone : p'.entry pos = none :=
    hAhead pos (Nat.le_refl _) (Nat.lt_add_of_pos_right (Nat.succ_pos _))
  -- what is planned does not refer to the node that goes
  have hNot : ∀ m : Node, (∀ z ∈ m.inputs, p'.Has z) → (pos : NodeId) ∉ m.inputs := by
    intro m hm hMem
    have hHas := hm pos hMem
    unfold Plan.Has at hHas
    rw [hGone] at hHas
    cases hHas
  have hOld : ∀ m ∈ pre ++ post, ∀ z ∈ m.inputs, p'.Has z := fun m hm z hz =>
    (hInputs m hm z hz).mono hGrown.le
  have hAdded : ∀ m ∈ post ++ ns, ∀ z ∈ m.inputs, p'.Has z := by
    intro m hm z hz
    obtain hm | hm := List.mem_append.mp hm
    · exact hOld m (by simp [hm]) z hz
    · exact hNew m hm z hz
  constructor
  case good => exact hGrown.good.replace hPlain hGone
  case nodes =>
    have hList : g'.nodes.toList = pre ++ n :: rest ++ (post ++ ns) := by
      rw [hg']
      show (g.nodes ++ ns.toArray).toList = _
      rw [Array.toList_append, hNodes]
      simp
    refine ⟨pre ++ [{ op := .dead }], post ++ ns, ?_, by simp [hPre], ?_⟩
    · rw [Graph.toList_replace hList hPre (fun m hm => hNot m (hOld m (by simp [hm])))
        (fun m hm => hNot m (hAdded m hm))]
      simp
    · intro m hm z hz
      obtain hm | rfl | hm : m ∈ pre ∨ m = { op := .dead } ∨ m ∈ post ++ ns := by
        simpa [or_assoc] using hm
      · exact hOld m (by simp [hm]) z hz
      · cases hz
      · exact hAdded m hm z hz
  case ahead =>
    intro i hLe hLt
    rw [List.length_map] at hLt
    refine hAhead i (by omega) ?_
    rw [List.length_cons]
    omega
  case exit =>
    obtain ⟨last, hExit, hLast⟩ := h.exit
    refine ⟨last, ?_, ?_⟩
    · rw [Graph.exit_replace, hg']
      exact hExit
    · rw [hLast, List.length_map, List.length_cons]
      omega
  case count =>
    have hCount := hGrown.count
    have hCount' := h.count
    rw [List.length_cons] at hCount'
    rw [Graph.size_replace, List.length_map]
    omega

end Laid

/-- The round of the pass at a change whose fragment is planned. -/
theorem Laid.lowers {n : Node} {rest : List Node} {pos : Nat} {f : Change} {e : Lowering.Entry}
    {l : Layout} {Q : Graph.Replacement → Plan c → Prop} (h : p.Laid g (n :: rest) pos)
    (hPlain : ∀ id, c.given id = false) (hOp : n.op = .change f)
    (hEntry : Lowering.entry g pos = .ok e) (hValue : p.Has e.value) (hClosed : g.isClosed = true)
    (hPlans : ∀ small : Bool, (∀ v a, p.Shows e.value ⟨.word v, a⟩ → small = true →
      l.isSmi (v.setWidth 32).toInt = true) → p.Plans g (Lowering.fragment l f small e) Q) :
    ∃ (p' : Plan c) (g' : Graph) (r : Graph.Replacement), Lowering.lowerNode l g pos = .ok (some g') ∧
      p.Le p' ∧ p'.Laid g' (rest.map (·.redirect pos r)) (pos + 1) ∧ Q r p' := by
  obtain ⟨small, hSmall, hIsSmall⟩ : ∃ small : Bool,
      (if f = .int32ToTagged then Lowering.isSmallConstant l g e.value else pure false) =
        .ok small ∧
      ∀ v a, p.Shows e.value ⟨.word v, a⟩ → small = true →
        l.isSmi (v.setWidth 32).toInt = true := by
    -- Only one change asks whether its operand is a small constant.
    by_cases hf : f = .int32ToTagged
    · rw [if_pos hf]
      exact h.good.isSmallConstant hPlain hValue
    · rw [if_neg hf]
      exact ⟨false, rfl, fun _ _ _ hNo => Bool.noConfusion hNo⟩
  have hPos : pos < g.size := by
    have hSize := h.le_size
    rw [List.length_cons] at hSize
    omega
  obtain ⟨p', hGrown, hQ⟩ := hPlans small hIsSmall
  have hLower := Lowering.lowerNode_change h.head hOp hEntry hSmall (hGrown.isClosed hClosed)
    (Nat.lt_of_lt_of_le hPos hGrown.size_le)
  exact ⟨p', _, _, hLower, hGrown.le, h.replace hPlain hGrown, hQ⟩

/-- The pass has nothing to do at the return and behind it. -/
theorem Laid.ends {n m : Node} {pos : Nat} {l : Layout} (h : p.Laid g [n, m] pos)
    (hn : ∀ f, n.op ≠ .change f) (hm : ∀ f, m.op ≠ .change f) (k : Nat) :
    Lowering.lowerNodes l (List.range' pos 2) g k = { graph := g, changed := k } := by
  have hFirst := Lowering.lowerNode_other (l := l) h.head hn
  have hSecond := Lowering.lowerNode_other (l := l) h.second hm
  show Lowering.lowerNodes l [pos, pos + 1] g k = _
  simp only [Lowering.lowerNodes, hFirst, hSecond]

end Machine.Plan
end ArmBackend
