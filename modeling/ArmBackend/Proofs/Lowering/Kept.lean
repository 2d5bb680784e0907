import ArmBackend.Proofs.Lowering.Round

/-!
# What the pass keeps

The pass goes through the nodes in order. When it has gone through the first `i` of them, the changes
among these are dead and every other node is what it was, with the edges that led to these changes
led elsewhere. `Kept` says so; one round keeps it, so every run does.

In a graph without cycles whose effect and control edges lead to anchored changes only, the dead
changes have no users left: what stands in place of a change comes before the change, and no round
brings an edge to a dead node back. `Clean` carries this from round to round.

## Results

* `Kept.step`, `Clean.step` — what one round leaves.
* `lowerNodes_kept` — what the pass leaves of a graph, also when it stops at a change.
-/

namespace ArmBackend.Lowering

variable {l : Layout} {g h : Graph} {i c : Nat} {f : Change} {n m : Node} {e : Entry} {small : Bool}
  {ns : List Node} {r : Graph.Replacement} {ρ : EdgeKind → NodeId → NodeId} {w x y : NodeId}
  {kind : EdgeKind}

/-! ## The walk over the nodes -/

theorem lowerNodes_append {ids rest : List Nat} {k k' : Nat}
    (hRun : lowerNodes l ids g k = { graph := h, changed := k' }) :
    lowerNodes l (ids ++ rest) g k = lowerNodes l rest h k' := by
  induction ids generalizing g k with
  | nil =>
    cases hRun
    rfl
  | cons id ids ih =>
    rw [lowerNodes] at hRun
    rw [List.cons_append, lowerNodes]
    generalize lowerNode l g id = lowered at hRun ⊢
    rcases lowered with fault | _ | next
    · cases hRun
    · exact ih hRun
    · exact ih hRun

theorem lowerNodes_append_fault {ids rest : List Nat} {k k' : Nat} {fault : Fault}
    (hRun : lowerNodes l ids g k = { graph := h, changed := k', fault := some fault }) :
    lowerNodes l (ids ++ rest) g k = { graph := h, changed := k', fault := some fault } := by
  induction ids generalizing g k with
  | nil => cases hRun
  | cons id ids ih =>
    rw [lowerNodes] at hRun
    rw [List.cons_append, lowerNodes]
    generalize lowerNode l g id = lowered at hRun ⊢
    rcases lowered with fault | _ | next
    · exact hRun
    · exact ih hRun
    · exact ih hRun

/-- The number of changes among the first nodes of a graph. -/
def changesBelow (g : Graph) (i : Nat) : Nat :=
  (g.nodes.toList.take i).countP (·.op.isChange)

theorem changesBelow_succ (hn : g.node? i = some n) :
    changesBelow g (i + 1) = changesBelow g i + if n.op.isChange then 1 else 0 := by
  obtain ⟨j, hj, hGet⟩ := Graph.node?_eq_some.mp hn
  obtain rfl : i = j := Int.ofNat_inj.mp hj
  have hAt : g.nodes.toList[i]? = some n := by simpa using hGet
  unfold changesBelow
  rw [List.take_add_one, hAt, List.countP_append]
  simp [List.countP_cons]

/-! ## The invariant -/

/-- Whether a branch that the pass added stems from a change: it was added in the round of the
change, which branches, and hangs on the control of the change, or on the start of the graph when
the change has none. -/
structure Stems (l : Layout) (g : Graph) (ρ : EdgeKind → NodeId → NodeId) (c : Nat) (w : NodeId)
    (m : Node) : Prop where
  branches : branches l g c = .ok true
  first : ((lowerNodes l (List.range c) g 0).graph.size : Int) ≤ w
  last : ((lowerNodes l (List.range (c + 1)) g 0).graph.size : Int) > w
  control : ∃ control, g.controlIn c = .ok control ∧
    m.controlIn = .ok (if control < 0 then Graph.start else ρ .control control)

/-- What the pass has made of a graph when it has gone through the first `i` nodes; `ρ` tells where
the edges lead that led to changes. -/
structure Kept (l : Layout) (g : Graph) (i : Nat) (h : Graph) (ρ : EdgeKind → NodeId → NodeId) :
    Prop where
  run : lowerNodes l (List.range i) g 0 = { graph := h, changed := changesBelow g i }
  exit : h.exit = g.exit
  size_le : g.size ≤ h.size
  closed : h.isClosed = true
  sound : ∀ {w m}, h.node? w = some m → m.fitsArity = true ∧ m.Counted
  -- the changes below `i` are lowered, the rest of the graph is as it was but for its edges
  killed : ∀ {c : Nat}, c < i → g.IsChange c → h.node? c = some { op := .dead }
  kept : ∀ {w n}, g.node? w = some n → (n.op.isChange = true → (i : Int) ≤ w) →
    h.node? w = some (n.rewire ρ)
  fixed : ∀ {kind x}, ρ kind x ≠ x → g.IsChange x ∧ (i : Int) > x
  added : ∀ {w m}, (g.size : Int) ≤ w → h.node? w = some m → m.op.isChange = false
  -- a branch that was added comes from one change's fragment
  stems : ∀ {w m}, (g.size : Int) ≤ w → h.node? w = some m → m.op = .branch →
    ∃ c < i, Stems l g ρ c w m
  whole : ∀ {c : Nat} {n}, c < i → g.node? c = some n → n.op.isChange = true → ¬n.HalfAnchored

theorem kept_start (hVerify : g.verify = .ok ())
    (hCounted : ∀ {id n}, g.node? id = some n → n.Counted) :
    Kept l g 0 g fun _ x => x where
  run := rfl
  exit := rfl
  size_le := Nat.le_refl _
  closed := Graph.isClosed_of_verify hVerify
  sound hn := ⟨Graph.fitsArity_of_verify hVerify hn, hCounted hn⟩
  killed hc := absurd hc (Nat.not_lt_zero _)
  kept hn _ := by rw [hn, Node.rewire_eq_self fun _ _ _ => rfl]
  fixed hNe := absurd rfl hNe
  added hw hm := absurd (Graph.node?_lt hm).2 (Int.not_lt.mpr hw)
  stems hw hm := absurd (Graph.node?_lt hm).2 (Int.not_lt.mpr hw)
  whole hc := absurd hc (Nat.not_lt_zero _)

namespace Kept

/-- Nothing happens at a node that is no change. -/
theorem skip (hKept : Kept l g i h ρ) (hn : g.node? i = some n) (hOp : n.op.isChange = false) :
    Kept l g (i + 1) h ρ := by
  have hOther : ∀ f, n.op ≠ .change f := by
    intro f hf
    rw [hf] at hOp
    cases hOp
  have hNow : h.node? i = some (n.rewire ρ) := hKept.kept hn (by simp [hOp])
  have hNot : ¬g.IsChange i := by
    rintro ⟨m, hm, hIs⟩
    rw [hn] at hm
    cases hm
    rw [hOp] at hIs
    cases hIs
  constructor
  case run =>
    rw [List.range_succ, lowerNodes_append hKept.run, changesBelow_succ hn, hOp]
    unfold lowerNodes
    rw [lowerNode_other hNow hOther]
    rfl
  case exit => exact hKept.exit
  case size_le => exact hKept.size_le
  case closed => exact hKept.closed
  case sound => exact hKept.sound
  -- The node is no change, so the changes below the next number are those below this one.
  case killed =>
    intro c hc hIs
    rcases Nat.lt_succ_iff_lt_or_eq.mp hc with hLt | rfl
    · exact hKept.killed hLt hIs
    · exact absurd hIs hNot
  case kept =>
    intro w m hm hLe
    refine hKept.kept hm fun hIs => ?_
    have := hLe hIs
    omega
  case fixed =>
    intro kind x hNe
    obtain ⟨hIs, hLt⟩ := hKept.fixed hNe
    exact ⟨hIs, by omega⟩
  case added => exact hKept.added
  case stems =>
    intro w m hw hm hOp
    obtain ⟨c, hc, hStems⟩ := hKept.stems hw hm hOp
    exact ⟨c, Nat.lt_succ_of_lt hc, hStems⟩
  case whole =>
    intro c m hc hm hIs
    rcases Nat.lt_succ_iff_lt_or_eq.mp hc with hLt | rfl
    · exact hKept.whole hLt hm hIs
    · exact absurd ⟨m, hm, hIs⟩ hNot

/-- What a change branches on in the graph as it is now it branched on before. -/
theorem branches_of_forks (hKept : Kept l g i h ρ) (hVerify : g.verify = .ok ())
    (hWord : l.word = 32 ∨ l.word = 64)
    (hn : g.node? i = some n) (hOp : n.op = .change f)
    (hRound : Round l h i (n.rewire ρ) f small e ns r) (hForks : Forks l small f) :
    branches l g i = .ok true := by
  have hNode : g.node i = .ok n := Graph.node_eq_ok.mpr hn
  have hIs : (n.rewire ρ).op = .change f := hOp
  unfold branches
  rw [hNode, ok_bind, hOp]
  cases f with
  | bitToBool | uint32ToTagged | taggedToFloat64 | taggedToInt32 | taggedToUint32 => rfl
  | boolToBit | float64ToTagged => cases hForks
  | int32ToTagged =>
    have hNarrow : l.word = 32 ∧ small = false := by
      unfold Forks at hForks
      simp only [Bool.or_eq_false_iff, decide_eq_false_iff_not] at hForks
      exact ⟨hWord.resolve_right hForks.1, hForks.2⟩
    obtain ⟨hFits, hCounted⟩ := hKept.sound (hKept.kept hn fun _ => Int.le_refl _)
    have hValue : n.valueCount = 1 := (change_inputs hIs hFits hCounted).1
    obtain ⟨x, hx, hMoved⟩ := Node.input_of_rewire (by omega) hRound.enters.input
    obtain ⟨hNonneg, hLt⟩ := Graph.input_of_verify hVerify hn (Node.mem_inputs hx)
    obtain ⟨m, hm⟩ := Graph.exists_node? hNonneg hLt
    -- A constant is no change, so it is still there and the edge still leads to it.
    have hSmall : isSmallConstant l g x = .ok false := by
      rw [isSmallConstant_eq hm]
      by_cases hConstant : m.op = .constant .int32
      · have hStays : ρ .value x = x := by
          by_contra hNe
          obtain ⟨⟨m', hm', hChange⟩, -⟩ := hKept.fixed hNe
          rw [hm] at hm'
          cases hm'
          rw [hConstant] at hChange
          cases hChange
        have hNow : h.node? x = some (m.rewire ρ) :=
          hKept.kept hm (by simp [hConstant, Operator.isChange])
        have hIt := hRound.constant rfl
        rw [← hMoved, hStays, isSmallConstant_eq hNow, hNarrow.2] at hIt
        exact hIt
      · rw [if_neg hConstant]
        rfl
    simp only [hValue, hx, ok_bind, hSmall, hNarrow.1]
    rfl

/-- The control that the fragment of a change starts at. -/
theorem entry_control (hVerify : g.verify = .ok ()) (hCounted : n.Counted) (hn : g.node? i = some n)
    (hEnters : Enters (n.rewire ρ) e) :
    ∃ control, g.controlIn i = .ok control ∧
      e.control = if control < 0 then Graph.start else ρ .control control := by
  obtain ⟨control, hControl, hMem⟩ := hCounted.controlIn
  have hIn : g.controlIn i = .ok control := by
    unfold Graph.controlIn
    rw [Graph.node_eq_ok.mpr hn]
    exact hControl
  refine ⟨control, hIn, ?_⟩
  have hNow := hEnters.controlIn
  rw [Node.controlIn_rewire hCounted hControl] at hNow
  -- Without a control input the fragment starts at the start.
  cases hAnchored : e.anchored with
  | false =>
    have hNone : n.controlCount = 0 := by
      by_contra hHas
      rw [hEnters.anchored.mpr hHas] at hAnchored
      cases hAnchored
    have hNegative : control = -1 := by
      unfold Node.controlIn at hControl
      rw [if_pos hNone] at hControl
      exact (Except.ok.inj hControl).symm
    rw [hNegative, if_pos (by decide)]
    exact hEnters.start hAnchored
  | true =>
    have hHas : n.controlCount ≠ 0 := hEnters.anchored.mp hAnchored
    have hNonneg := (Graph.input_of_verify hVerify hn (hMem hHas)).1
    rw [hAnchored, if_pos rfl, if_neg hHas] at hNow
    rw [if_neg (Int.not_lt.mpr hNonneg)]
    exact (Except.ok.inj hNow).symm

/-- The control of a branch after one more round. -/
theorem controlIn_branch (hKept : Kept l g i h ρ) {σ : EdgeKind → NodeId → NodeId}
    (hm : h.node? w = some m) (hOp : m.op = .branch) (hx : m.controlIn = .ok x) :
    (m.rewire σ).controlIn = .ok (σ .control x) := by
  obtain ⟨hFits, hCounted⟩ := hKept.sound hm
  obtain ⟨-, -, hOne⟩ := Node.controlCount_branch hFits hOp
  rw [Node.controlIn_rewire hCounted hx, if_neg (by omega)]

/-! ### A round at a change

The change at `i` is replaced by its fragment, which `Round` describes. What holds of the pass is
looked at part by part. -/

theorem lt_size (hKept : Kept l g i h ρ) (hn : g.node? i = some n) : i < h.size := by
  have hLt : (g.size : Int) > (i : Int) := (Graph.node?_lt hn).2
  have hSize := hKept.size_le
  omega

section

variable (hKept : Kept l g i h ρ) (hn : g.node? i = some n)

include hKept hn

theorem run_round (hOp : n.op = .change f) (hRound : Round l h i (n.rewire ρ) f small e ns r) :
    lowerNodes l (List.range (i + 1)) g 0 =
      { graph := (h.append ns).replace i r, changed := changesBelow g (i + 1) } := by
  rw [List.range_succ, lowerNodes_append hKept.run, changesBelow_succ hn,
    Operator.isChange_iff.mpr ⟨f, hOp⟩, lowerNodes, hRound.lowers]
  rfl

/-- Every edge of the new graph leads to a node: it led to one before, or the fragment has made it,
and the change that it may have led to has a replacement. -/
theorem closed_round (hRound : Round l h i (n.rewire ρ) f small e ns r) :
    ((h.append ns).replace i r).isClosed = true := by
  have hi := hKept.lt_size hn
  have hNow : h.node? i = some (n.rewire ρ) := hKept.kept hn fun _ => Int.le_refl _
  refine Graph.isClosed_iff.mpr fun m hm y hy => ?_
  obtain ⟨k, hk⟩ := Graph.exists_node?_of_mem hm
  obtain ⟨kind, hy⟩ := Node.mem_inputs_iff.mp hy
  obtain ⟨x, rfl, -, hx⟩ := hRound.edge_cases hi hk hy
  -- an edge of the new graph leads where one of the old graph or of the fragment led
  have hContains : (h.append ns).contains x = true := by
    rcases hx with ⟨m₀, hm₀, hx⟩ | ⟨j, -, hj, hEdge⟩
    · obtain ⟨hNonneg, hBelow⟩ := Graph.contains_iff.mp
        (Graph.contains_input hKept.closed hm₀ (Node.mem_inputs_iff.mpr ⟨kind, hx⟩))
      have hBelow : (h.size : Int) > x := hBelow
      exact Graph.contains_append hNonneg (by omega)
    · exact hRound.enters.contains hKept.closed hNow (by omega) hEdge
  have hMoved := hRound.contains_move kind hKept.closed hNow hContains
  rw [Graph.contains_iff] at hMoved ⊢
  rwa [Graph.size_replace]

/-- A node of the new graph is dead, or an old one, or one of the fragment, and each is sound. -/
theorem sound_round (hRound : Round l h i (n.rewire ρ) f small e ns r) {m : Node}
    (hm : ((h.append ns).replace i r).node? w = some m) : m.fitsArity = true ∧ m.Counted := by
  rcases Round.node?_cases (hKept.lt_size hn) hm with ⟨-, rfl⟩ | ⟨-, m₀, rfl, hOld | ⟨j, -, hNew⟩⟩
  · exact ⟨rfl, by decide⟩
  · obtain ⟨hFits, hCount⟩ := hKept.sound hOld
    exact ⟨hFits, hCount.rewire⟩
  · have hSuits := hRound.suits j m₀ hNew
    exact ⟨hSuits.arity, hSuits.counted.rewire⟩

/-- The changes before are dead still, and now the one at `i` is too. -/
theorem killed_round {c : Nat} (hc : c < i + 1) (hDead : g.IsChange c) :
    ((h.append ns).replace i r).node? c = some { op := .dead } := by
  have hi := hKept.lt_size hn
  rcases Nat.lt_succ_iff_lt_or_eq.mp hc with hBefore | rfl
  · have hNe : (c : NodeId) ≠ i := fun hEq => by
      have : (c : Int) = i := hEq
      omega
    rw [Graph.node?_replace_of_ne hNe, Graph.node?_append (hKept.killed hBefore hDead)]
    rfl
  · exact Graph.node?_replace_self (by rw [Graph.size_append]; omega)

/-- Every other node of the graph is still there, with its edges moved once more. -/
theorem kept_round (hOp : n.op = .change f) {n' : Node} (hn' : g.node? w = some n')
    (hLe : n'.op.isChange = true → ((i + 1 : Nat) : Int) ≤ w) :
    ((h.append ns).replace i r).node? w =
      some (n'.rewire fun kind x => r.move i kind (ρ kind x)) := by
  have hNe : w ≠ i := by
    rintro rfl
    rw [hn] at hn'
    cases hn'
    have hLe : ((i + 1 : Nat) : Int) ≤ i := hLe (Operator.isChange_iff.mpr ⟨f, hOp⟩)
    omega
  have hOld : h.node? w = some (n'.rewire ρ) := hKept.kept hn' fun hIs' => by
    have hLe : ((i + 1 : Nat) : Int) ≤ w := hLe hIs'
    omega
  rw [Graph.node?_replace_of_ne hNe, Graph.node?_append hOld, Option.map_some,
    Node.rewire_rewire]

/-- An edge that has moved led to a change before, or leads to the one at `i`. -/
theorem fixed_round (hOp : n.op = .change f) {kind : EdgeKind} {x : NodeId}
    (hNe : r.move i kind (ρ kind x) ≠ x) : g.IsChange x ∧ ((i + 1 : Nat) : Int) > x := by
  by_cases hSame : ρ kind x = x
  · rw [hSame] at hNe
    have hx : x = i := by
      by_contra hOther
      exact hNe (if_neg hOther)
    rw [hx]
    exact ⟨⟨n, hn, Operator.isChange_iff.mpr ⟨f, hOp⟩⟩, by omega⟩
  · obtain ⟨hWas, hBelow⟩ := hKept.fixed hSame
    exact ⟨hWas, by omega⟩

theorem added_round (hRound : Round l h i (n.rewire ρ) f small e ns r) {m : Node}
    (hw : (g.size : Int) ≤ w) (hm : ((h.append ns).replace i r).node? w = some m) :
    m.op.isChange = false := by
  rcases Round.node?_cases (hKept.lt_size hn) hm with ⟨-, rfl⟩ | ⟨-, m₀, rfl, hOld | ⟨j, -, hNew⟩⟩
  · rfl
  · have hPlain := hKept.added hw hOld
    exact hPlain
  · exact (hRound.suits j m₀ hNew).plain

end

/-- A branch that was there before stems from the change that it stemmed from: its control moves
like that of the change, and none moves to the start of the graph. -/
theorem stems_old (hKept : Kept l g i h ρ) (hNotStart : Graph.start ≠ (i : NodeId)) {c : Nat}
    {m : Node} (hStems : Stems l g ρ c w m) (hm : h.node? w = some m) (hBranch : m.op = .branch) :
    Stems l g (fun kind x => r.move i kind (ρ kind x)) c w (m.rewire (r.move i)) := by
  obtain ⟨control, hIn, hControl⟩ := hStems.control
  refine ⟨hStems.branches, hStems.first, hStems.last, control, hIn, ?_⟩
  rw [hKept.controlIn_branch hm hBranch hControl]
  split
  · exact congrArg Except.ok (if_neg hNotStart)
  · rfl

/-- A branch of the fragment stems from the change at `i`. -/
theorem stems_new (hKept : Kept l g i h ρ) (hVerify : g.verify = .ok ()) (hCounted : n.Counted)
    (hNotStart : Graph.start ≠ (i : NodeId)) (hWord : l.word = 32 ∨ l.word = 64)
    (hn : g.node? i = some n) (hOp : n.op = .change f)
    (hRound : Round l h i (n.rewire ρ) f small e ns r) {j : Nat} {m : Node} (hj : w = h.size + j)
    (hm : ns[j]? = some m) (hBranch : m.op = .branch) :
    Stems l g (fun kind x => r.move i kind (ρ kind x)) i w (m.rewire (r.move i)) := by
  have hSuits := hRound.suits j m hm
  obtain ⟨hForks, condition, hInputs⟩ := hSuits.branch hBranch
  obtain ⟨hValue, hEffect, hOne⟩ := Node.controlCount_branch hSuits.arity hBranch
  obtain ⟨control, hIn, hEntry⟩ := entry_control hVerify hCounted hn hRound.enters
  -- a branch of the fragment has its control from the entry, which the rewiring may move
  have hControl : m.controlIn = .ok e.control := by
    simp [Node.controlIn, Node.input, hValue, hEffect, hOne, hInputs]
  have hBelow := (List.getElem?_eq_some_iff.mp hm).1
  refine ⟨hKept.branches_of_forks hVerify hWord hn hOp hRound hForks, ?_, ?_, control, hIn, ?_⟩
  · rw [hKept.run, hj]
    dsimp only
    omega
  · rw [hKept.run_round hn hOp hRound, hj]
    show ((((h.append ns).replace i r).size : Nat) : Int) > _
    rw [Graph.size_replace, Graph.size_append]
    omega
  · rw [Node.controlIn_rewire hSuits.counted hControl, if_neg (by omega), hEntry]
    split
    · exact congrArg Except.ok (if_neg hNotStart)
    · rfl

/-- A round at a change keeps the rest of the graph. -/
theorem step (hKept : Kept l g i h ρ) (hVerify : g.verify = .ok ()) (hCounted : n.Counted)
    (hStart : g.HasOp Graph.start .start) (hWord : l.word = 32 ∨ l.word = 64)
    (hn : g.node? i = some n) (hOp : n.op = .change f) (hWhole : ¬n.HalfAnchored)
    (hRound : Round l h i (n.rewire ρ) f small e ns r) :
    Kept l g (i + 1) ((h.append ns).replace i r) fun kind x => r.move i kind (ρ kind x) where
  run := hKept.run_round hn hOp hRound
  exit := hKept.exit
  size_le := by
    rw [Graph.size_replace, Graph.size_append]
    exact Nat.le_add_right_of_le hKept.size_le
  closed := hKept.closed_round hn hRound
  sound := hKept.sound_round hn hRound
  killed := hKept.killed_round hn
  kept := hKept.kept_round hn hOp
  fixed := hKept.fixed_round hn hOp
  added := hKept.added_round hn hRound
  stems := by
    intro w m hw hm hBranch
    -- The pass adds nothing at the start of the graph and moves no edge to it.
    have hNotStart : Graph.start ≠ (i : NodeId) := by
      intro hEq
      have hClash := hStart.unique ⟨n, hEq ▸ hn, hOp⟩
      cases hClash
    rcases Round.node?_cases (hKept.lt_size hn) hm with
      ⟨-, rfl⟩ | ⟨-, m₀, rfl, hOld | ⟨j, hj, hNew⟩⟩
    · cases hBranch
    · obtain ⟨c, hc, hStems⟩ := hKept.stems hw hOld hBranch
      exact ⟨c, Nat.lt_succ_of_lt hc, hKept.stems_old hNotStart hStems hOld hBranch⟩
    · exact ⟨i, Nat.lt_succ_self i,
        hKept.stems_new hVerify hCounted hNotStart hWord hn hOp hRound hj hNew hBranch⟩
  whole := by
    intro c n' hc hn' hIs'
    rcases Nat.lt_succ_iff_lt_or_eq.mp hc with hBefore | rfl
    · exact hKept.whole hBefore hn' hIs'
    · rw [hn] at hn'
      cases hn'
      exact hWhole

theorem verify (hKept : Kept l g i h ρ) : h.verify = .ok () := by
  refine Graph.verify_of_closed hKept.closed fun m hm => ?_
  obtain ⟨k, hk⟩ := Graph.exists_node?_of_mem hm
  exact (hKept.sound hk).1

/-- The start of the graph has no edges that could be moved. -/
theorem node?_start (hKept : Kept l g i h ρ) (hWell : g.WellFormed)
    (hStart : g.HasOp Graph.start .start) : h.node? Graph.start = g.node? Graph.start := by
  obtain ⟨n, hn, hOp⟩ := hStart
  have hNone : n.rewire ρ = n := Node.rewire_eq_self fun kind x hx =>
    absurd ⟨n, hn, Node.mem_inputs_iff.mpr ⟨kind, hx⟩⟩ (hWell.not_hasInput_start ⟨n, hn, hOp⟩)
  rw [hKept.kept hn (by simp [hOp, Operator.isChange]), hn, hNone]

/-- When the pass is through, no change is left. -/
theorem not_isChange (hKept : Kept l g g.size h ρ) : ¬h.IsChange w := by
  rintro ⟨m, hm, hIs⟩
  rcases Int.lt_or_le w g.size with hLt | hGe
  · obtain ⟨n, hn⟩ := Graph.exists_node? (Graph.node?_lt hm).1 hLt
    by_cases hWas : n.op.isChange = true
    · obtain ⟨c, rfl, -⟩ := Graph.node?_eq_some.mp hn
      rw [hKept.killed (Int.ofNat_lt.mp hLt) ⟨n, hn, hWas⟩] at hm
      cases hm
      cases hIs
    · rw [hKept.kept hn fun hIs' => absurd hIs' hWas] at hm
      cases hm
      exact hWas hIs
  · rw [hKept.added hGe hm] at hIs
    cases hIs

end Kept

/-! ## Dead changes have no users -/

/-- Whether effect and control edges lead to changes only when these are anchored. -/
def EdgesAnchored (g h : Graph) : Prop :=
  ∀ {w m kind x n}, h.node? w = some m → (kind, x) ∈ m.edges → kind ≠ .value →
    g.node? x = some n → n.op.isChange = true → n.controlCount ≠ 0

/-- A graph in which the changes below `i` of another graph have no users and the others are in
order: no node leads to itself. -/
structure Clean (g : Graph) (i : Nat) (h : Graph) : Prop where
  ranked : ∃ rank : NodeId → Nat, rank Graph.start = 0 ∧ ∀ {w x}, h.HasInput w x → rank x < rank w
  alive : ∀ {w x}, h.HasInput w x → g.IsChange x → (i : Int) ≤ x
  anchored : EdgesAnchored g h

theorem hasInput_of_edge (hm : h.node? w = some m) (hEdge : (kind, x) ∈ m.edges) : h.HasInput w x :=
  ⟨m, hm, Node.mem_inputs_iff.mpr ⟨kind, hEdge⟩⟩

theorem clean_start (hWell : g.WellFormed) (hStart : g.HasOp Graph.start .start)
    (hAcyclic : ∀ id, ¬Relation.TransGen g.HasInput id id) (hAnchored : EdgesAnchored g g) :
    Clean g 0 g where
  ranked := by
    classical
    refine ⟨g.rank g.HasInput, ?_, fun hInput => Graph.rank_lt hWell.verify hAcyclic hInput hInput⟩
    unfold Graph.rank
    rw [Finset.card_eq_zero, Finset.filter_eq_empty_iff]
    intro k _ hChain
    obtain ⟨x, hFirst, -⟩ := Relation.TransGen.head'_iff.mp hChain
    exact hWell.not_hasInput_start hStart hFirst
  alive := by
    rintro w x - ⟨n, hn, -⟩
    exact (Graph.node?_lt hn).1
  anchored := hAnchored

namespace Clean

theorem skip (hClean : Clean g i h) (hNot : ¬g.IsChange i) : Clean g (i + 1) h where
  ranked := hClean.ranked
  alive := by
    intro w x hInput hIs
    have hLe := hClean.alive hInput hIs
    have hNe : x ≠ i := fun hEq => hNot (hEq ▸ hIs)
    have hLt : (i : Int) < x := lt_of_le_of_ne hLe fun hEq => hNe hEq.symm
    omega
  anchored := hClean.anchored

/-- Where an edge of a fragment leads: into the fragment, to where the change leads or to the start
of the graph. -/
theorem edge_low {here : Nat} (hEnters : Enters n e) (hEdge : Edge e h.size here kind y) :
    ((h.size : Int) ≤ y ∧ (here : Int) > y) ∨ (kind, y) ∈ n.edges ∨ y = Graph.start := by
  cases hEdge with
  | added hFirst hHere => exact .inl ⟨hFirst, hHere⟩
  | value => exact .inr (.inl hEnters.value)
  | effect hEffect => exact .inr (.inl (hEnters.effect (hEnters.valid.effect.mpr hEffect)))
  | control =>
    cases hAnchored : e.anchored with
    | true => exact .inr (.inl (hEnters.control hAnchored))
    | false => exact .inr (.inr (hEnters.start hAnchored))

/-- The edges after a round: an edge that led to the change leads into the fragment or to where it
starts. -/
theorem edge_cases (hClean : Clean g i h) (hChange : g.node? i = some n)
    (hIs : n.op.isChange = true) (hNow : h.node? i = some (n.rewire ρ)) (hi : i < h.size)
    (hRound : Round l h i (n.rewire ρ) f small e ns r)
    (hm : ((h.append ns).replace i r).node? w = some m) (hEdge : (kind, y) ∈ m.edges) :
    (∃ m₀, h.node? w = some m₀ ∧ (kind, y) ∈ m₀.edges ∧ y ≠ i) ∨
      ∃ here : Nat, Edge e h.size here kind y ∧
        ((h.HasInput w i ∧ here = h.size + ns.length) ∨
          (∃ j < ns.length, w = ((h.size + j : Nat) : Int) ∧ here = h.size + j)) := by
  obtain ⟨rank, hStart, hRank⟩ := hClean.ranked
  obtain ⟨x, rfl, -, hx⟩ := hRound.edge_cases hi hm hEdge
  have hMove : x ≠ i → r.move i kind x = x := fun hNe => if_neg hNe
  rcases hx with ⟨m₀, hm₀, hx⟩ | ⟨j, hj, hLt, hNew⟩
  · by_cases hTo : x = i
    · -- The edge is led elsewhere: the change is anchored if it is no value edge.
      rw [hTo] at hx
      have hMoved : r.move i kind x = r.target i kind := if_pos hTo
      rw [hMoved]
      rcases hRound.target_cases kind with hTarget | ⟨hFree, hKind, -⟩
      · refine .inr ⟨_, hTarget, .inl ⟨hasInput_of_edge hm₀ hx, ?_⟩⟩
        rw [Graph.size_append]
      · have hHas : n.controlCount ≠ 0 := hClean.anchored hm₀ hx hKind hChange hIs
        rw [hRound.enters.anchored.mpr hHas] at hFree
        cases hFree
    · rw [hMove hTo]
      exact .inl ⟨m₀, hm₀, hx, hTo⟩
  · -- An edge of the fragment does not lead to the change, which comes after what it leads to.
    have hNe : x ≠ i := by
      rintro rfl
      rcases edge_low hRound.enters hNew with ⟨hFirst, -⟩ | hOwn | hZero
      · omega
      · exact Nat.lt_irrefl _ (hRank (hasInput_of_edge hNow hOwn))
      · have hBelow := hRank (hasInput_of_edge hNow hRound.enters.value)
        rw [hZero, hStart] at hBelow
        omega
    rw [hMove hNe]
    exact .inr ⟨_, hNew, .inr ⟨j, hLt, hj, rfl⟩⟩

/-- Ranks after a round: those of before are stretched, and the nodes of the fragment come between
the change and what it leads to. -/
theorem ranked_step (hClean : Clean g i h) (hClosed : h.isClosed = true)
    (hChange : g.node? i = some n) (hIs : n.op.isChange = true)
    (hNow : h.node? i = some (n.rewire ρ)) (hi : i < h.size)
    (hRound : Round l h i (n.rewire ρ) f small e ns r) :
    ∃ rank : NodeId → Nat, rank Graph.start = 0 ∧
      ∀ {w x}, ((h.append ns).replace i r).HasInput w x → rank x < rank w := by
  obtain ⟨rank, hStart, hRank⟩ := hClean.ranked
  have hPositive : 0 < rank i :=
    Nat.lt_of_le_of_lt (Nat.zero_le _) (hRank (hasInput_of_edge hNow hRound.enters.value))
  -- A step of the old ranks leaves room for the whole fragment.
  have hStretch : ∀ {a b : Nat}, a < b →
      (ns.length + 1) * a + (ns.length + 1) ≤ (ns.length + 1) * b := fun hLt =>
    Nat.mul_le_mul_left (ns.length + 1) hLt
  have hRoom : (ns.length + 1) * (rank i - 1) + (ns.length + 1) ≤ (ns.length + 1) * rank i :=
    hStretch (by omega)
  let stretched (w : NodeId) : Nat :=
    if (h.size : Int) > w then (ns.length + 1) * rank w
    else (ns.length + 1) * (rank i - 1) + 1 + (w.toNat - h.size)
  have hOld : ∀ {x : NodeId}, (h.size : Int) > x → stretched x = (ns.length + 1) * rank x :=
    fun hx => if_pos hx
  have hNew : ∀ {x : NodeId}, (h.size : Int) ≤ x → stretched x =
      (ns.length + 1) * (rank i - 1) + 1 + (x.toNat - h.size) :=
    fun hx => if_neg (Int.not_lt.mpr hx)
  have hBelow : ∀ {w x}, h.HasInput w x → (h.size : Int) > w ∧ (h.size : Int) > x := by
    rintro w x ⟨m, hm, hx⟩
    exact ⟨(Graph.node?_lt hm).2, (Graph.contains_iff.mp (Graph.contains_input hClosed hm hx)).2⟩
  have hZero : (h.size : Int) > Graph.start := by
    show _ > (0 : Int)
    omega
  -- What the fragment leads to comes before the change.
  have hLow : ∀ {here : Nat} {kind y}, Edge e h.size here kind y →
      ((h.size : Int) ≤ y ∧ (here : Int) > y) ∨ ((h.size : Int) > y ∧ rank y < rank i) := by
    intro here kind y hEdge
    rcases edge_low hRound.enters hEdge with hInside | hOwn | rfl
    · exact .inl hInside
    · have hInput := hasInput_of_edge hNow hOwn
      exact .inr ⟨(hBelow hInput).2, hRank hInput⟩
    · exact .inr ⟨hZero, hStart ▸ hPositive⟩
  refine ⟨stretched, by rw [hOld hZero, hStart, Nat.mul_zero], ?_⟩
  rintro w y ⟨m, hm, hy⟩
  obtain ⟨kind, hy⟩ := Node.mem_inputs_iff.mp hy
  rcases hClean.edge_cases hChange hIs hNow hi hRound hm hy with
    ⟨m₀, hm₀, hKeep, -⟩ | ⟨here, hEdge, ⟨hUser, rfl⟩ | ⟨j, hj, rfl, rfl⟩⟩
  · have hInput := hasInput_of_edge hm₀ hKeep
    obtain ⟨hw, hx⟩ := hBelow hInput
    rw [hOld hw, hOld hx]
    have := hStretch (hRank hInput)
    omega
  · have hAfter := hStretch (hRank hUser)
    rw [hOld (hBelow hUser).1]
    rcases hLow hEdge with ⟨hFirst, hLast⟩ | ⟨hx, hLess⟩
    · rw [hNew hFirst]
      omega
    · rw [hOld hx]
      have := hStretch hLess
      omega
  · rw [hNew (by omega : (h.size : Int) ≤ ((h.size + j : Nat) : Int))]
    rcases hLow hEdge with ⟨hFirst, hLast⟩ | ⟨hx, hLess⟩
    · rw [hNew hFirst]
      omega
    · rw [hOld hx]
      have := Nat.mul_le_mul_left (ns.length + 1) (Nat.le_sub_one_of_lt hLess)
      omega

/-- A round leaves no edge to the change that it kills. -/
theorem step (hClean : Clean g i h) (hKept : Kept l g i h ρ) (hStart : g.HasOp Graph.start .start)
    (hChange : g.node? i = some n) (hIs : n.op.isChange = true)
    (hRound : Round l h i (n.rewire ρ) f small e ns r) :
    Clean g (i + 1) ((h.append ns).replace i r) := by
  have hNow : h.node? i = some (n.rewire ρ) := hKept.kept hChange fun _ => Int.le_refl _
  have hLt : (g.size : Int) > (i : Int) := (Graph.node?_lt hChange).2
  have hSize := hKept.size_le
  have hi : i < h.size := by omega
  have hNotStart : ¬g.IsChange Graph.start := by
    rintro ⟨m, hm, hIs⟩
    obtain ⟨f, hOp⟩ := Operator.isChange_iff.mp hIs
    cases hStart.unique ⟨m, hm, hOp⟩
  -- An edge that leads to a change is one of before, or one of the change that is replaced.
  have hFrom : ∀ {w m kind y}, ((h.append ns).replace i r).node? w = some m → (kind, y) ∈ m.edges →
      g.IsChange y → y ≠ i ∧ ∃ w₀ m₀, h.node? w₀ = some m₀ ∧ (kind, y) ∈ m₀.edges := by
    intro w m kind y hm hy hWas
    obtain ⟨rank, -, hRank⟩ := hClean.ranked
    rcases hClean.edge_cases hChange hIs hNow hi hRound hm hy with
      ⟨m₀, hm₀, hKeep, hNe⟩ | ⟨here, hEdge, -⟩
    · exact ⟨hNe, w, m₀, hm₀, hKeep⟩
    · rcases edge_low hRound.enters hEdge with ⟨hFirst, -⟩ | hOwn | rfl
      · obtain ⟨n', hn', -⟩ := hWas
        have hBelow : (g.size : Int) > y := (Graph.node?_lt hn').2
        omega
      · refine ⟨?_, i, _, hNow, hOwn⟩
        rintro rfl
        exact Nat.lt_irrefl _ (hRank (hasInput_of_edge hNow hOwn))
      · exact absurd hWas hNotStart
  constructor
  case ranked => exact hClean.ranked_step hKept.closed hChange hIs hNow hi hRound
  case alive =>
    rintro w y ⟨m, hm, hy⟩ hWas
    obtain ⟨kind, hy⟩ := Node.mem_inputs_iff.mp hy
    obtain ⟨hNe, w₀, m₀, hm₀, hy₀⟩ := hFrom hm hy hWas
    have hLe := hClean.alive (hasInput_of_edge hm₀ hy₀) hWas
    have hBefore : (i : Int) < y := lt_of_le_of_ne hLe fun hEq => hNe hEq.symm
    omega
  case anchored =>
    intro w m kind y n' hm hy hKind hn' hIs'
    obtain ⟨-, w₀, m₀, hm₀, hy₀⟩ := hFrom hm hy ⟨n', hn', hIs'⟩
    exact hClean.anchored hm₀ hy₀ hKind hn' hIs'

end Clean

/-! ## A whole run -/

/-- What a run of the pass without a fault leaves of a graph. -/
structure Completes (l : Layout) (g : Graph) (out : Lowered) (ρ : EdgeKind → NodeId → NodeId) :
    Prop where
  kept : Kept l g g.size out.graph ρ
  verify : out.graph.verify = .ok ()
  lowered : ∀ w, ¬out.graph.IsChange w
  changed : out.changed = g.nodes.toList.countP (·.op.isChange)
  start : out.graph.node? Graph.start = g.node? Graph.start
  clean : EdgesAnchored g g → ∀ {w x}, out.graph.HasInput w x → ¬g.IsChange x

/-- What a run of the pass that stops at a change leaves of a graph: what the rounds before it made,
and nothing of the change. -/
structure StopsAt (l : Layout) (g : Graph) (c : Nat) (out : Lowered)
    (ρ : EdgeKind → NodeId → NodeId) : Prop where
  kept : Kept l g c out.graph ρ
  verify : out.graph.verify = .ok ()
  changed : out.changed = changesBelow g c
  half : ∃ n, g.node? c = some n ∧ n.op.isChange = true ∧ n.HalfAnchored ∧
    out.fault = some ((Fault.malformed c n.op .halfAnchored).within s!"node {(c : NodeId)}")

/-- The pass comes to the end of a graph, or stops at a change that is half anchored. -/
theorem lowerNodes_kept (hWell : g.WellFormed) (hStart : g.HasOp Graph.start .start)
    (hAcyclic : ∀ id, ¬Relation.TransGen g.HasInput id id) (hWord : l.word = 32 ∨ l.word = 64)
    (hi : i ≤ g.size) :
    (∃ h ρ, Kept l g i h ρ ∧ (EdgesAnchored g g → Clean g i h)) ∨
      ∃ c < i, ∃ ρ, StopsAt l g c (lowerNodes l (List.range i) g 0) ρ := by
  induction i with
  | zero =>
    exact .inl ⟨g, _, kept_start hWell.verify hWell.counted, clean_start hWell hStart hAcyclic⟩
  | succ i ih =>
    rcases ih (by omega) with ⟨h, ρ, hKept, hClean⟩ | ⟨c, hc, ρ, hStops⟩
    · obtain ⟨n, hn⟩ : ∃ n, g.node? i = some n :=
        Graph.exists_node? (Int.natCast_nonneg i) (Int.ofNat_lt.mpr hi)
      by_cases hIs : n.op.isChange = true
      · obtain ⟨f, hOp⟩ := Operator.isChange_iff.mp hIs
        have hNow : h.node? i = some (n.rewire ρ) := hKept.kept hn fun _ => Int.le_refl _
        obtain ⟨hFits, hCounted⟩ := hKept.sound hNow
        rcases lowerNode_cases (l := l) hKept.closed hNow hOp hFits hCounted with
          ⟨hHalf, hFault⟩ | ⟨hWhole, small, e, ns, r, hRound⟩
        · rw [List.range_succ, lowerNodes_append hKept.run, lowerNodes, hFault]
          exact .inr ⟨i, Nat.lt_succ_self i, ρ, hKept, hKept.verify, rfl, n, hn, hIs, hHalf, rfl⟩
        · exact .inl ⟨_, _, hKept.step hWell.verify (hWell.counted hn) hStart hWord hn hOp hWhole
            hRound, fun hEdges => (hClean hEdges).step hKept hStart hn hIs hRound⟩
      · have hNot : ¬g.IsChange i := by
          rintro ⟨m, hm, hWas⟩
          rw [hn] at hm
          cases hm
          exact hIs hWas
        exact .inl ⟨h, ρ, hKept.skip hn (Bool.not_eq_true _ ▸ hIs), fun hEdges =>
          (hClean hEdges).skip hNot⟩
    · -- The pass has stopped, and the nodes behind do not matter.
      have hSame : lowerNodes l (List.range (i + 1)) g 0 = lowerNodes l (List.range i) g 0 := by
        obtain ⟨n, -, -, -, hFault⟩ := hStops.half
        rw [List.range_succ]
        generalize hRun : lowerNodes l (List.range i) g 0 = out at hFault
        obtain ⟨graph, changed, fault⟩ := out
        cases hFault
        exact lowerNodes_append_fault hRun
      rw [hSame]
      exact .inr ⟨c, Nat.lt_succ_of_lt hc, ρ, hStops⟩

end ArmBackend.Lowering

namespace ArmBackend

/-- The pass comes to its end without a fault, or stops at a change with one. -/
theorem Lowering.run_kept {g : Graph} {word : Int} (hWell : g.WellFormed)
    (hStart : g.HasOp Graph.start .start) (hAcyclic : ∀ id, ¬Relation.TransGen g.HasInput id id)
    (hWord : word = 32 ∨ word = 64) :
    ((run g word).fault = none ∧ ∃ ρ, Completes (.ofWord word) g (run g word) ρ) ∨
      ∃ c ρ, StopsAt (.ofWord word) g c (run g word) ρ := by
  have hRun := run_eq hWell.verify hWord
  rcases lowerNodes_kept (l := .ofWord word) hWell hStart hAcyclic hWord (Nat.le_refl _) with
    ⟨h, ρ, hKept, hClean⟩ | ⟨c, -, ρ, hStops⟩
  · rw [hRun, hKept.run]
    refine .inl ⟨rfl, ρ, hKept, hKept.verify, fun w => hKept.not_isChange, ?_,
      hKept.node?_start hWell hStart, ?_⟩
    · show changesBelow g g.size = _
      unfold changesBelow
      rw [List.take_of_length_le (by simp [Graph.size])]
    · -- an edge to a killed change could only have gone to one lowered later
      intro hEdges w x hInput hIs
      have hLe := (hClean hEdges).alive hInput hIs
      obtain ⟨n, hn, -⟩ := hIs
      exact absurd (Graph.node?_lt hn).2 (Int.not_lt.mpr hLe)
  · rw [← hRun] at hStops
    exact .inr ⟨c, ρ, hStops⟩

/-- Lowering keeps a graph valid and touches nothing but the changes and the edges to them. When it
stops, it leaves what it made of the nodes before a change that is half anchored; it does not stop
when there is none. -/
theorem lowering_keeps_graph {g : Graph} {word : Int} (hWell : g.WellFormed)
    (hStart : g.HasOp Graph.start .start) (hAcyclic : ∀ id, ¬Relation.TransGen g.HasInput id id)
    (hWord : word = 32 ∨ word = 64) :
    ((Lowering.run g word).fault = none →
      ∃ ρ, Lowering.Completes (.ofWord word) g (Lowering.run g word) ρ) ∧
    (∀ fault, (Lowering.run g word).fault = some fault →
      ∃ c ρ, Lowering.StopsAt (.ofWord word) g c (Lowering.run g word) ρ) ∧
    ((Lowering.run g word).fault = none ↔
      ∀ n ∈ g.nodes.toList, n.op.isChange = true → ¬n.HalfAnchored) := by
  rcases Lowering.run_kept hWell hStart hAcyclic hWord with ⟨hNone, ρ, hDone⟩ | ⟨c, ρ, hStops⟩
  · refine ⟨fun _ => ⟨ρ, hDone⟩, fun fault hFault => ?_, fun _ n hn hIs => ?_, fun _ => hNone⟩
    · rw [hNone] at hFault
      cases hFault
    · obtain ⟨i, hi⟩ := Graph.exists_node?_of_mem hn
      exact hDone.kept.whole (Int.ofNat_lt.mp (Graph.node?_lt hi).2) hi hIs
  · -- the pass stopped, so some change is anchored by half
    obtain ⟨n, hn, hIs, hHalf, hFault⟩ := hStops.half
    rw [hFault]
    refine ⟨nofun, fun _ _ => ⟨c, ρ, hStops⟩, nofun, fun hWhole => ?_⟩
    obtain ⟨i, -, hi⟩ := Graph.node?_eq_some.mp hn
    have hMem : n ∈ g.nodes.toList := Array.mem_toList_iff.mpr (Array.mem_of_getElem? hi)
    exact absurd hHalf (hWhole n hMem hIs)

/-- A change that hangs on a change behind it, and one that hangs on nothing. -/
def relay : Graph where
  nodes := #[{ op := .start }, .parameter 0 .tagged, .change (.change .boolToBit) 3 3 3,
    .change (.change .taggedToInt32) 1 0 0, .change (.change .int32ToTagged) 5 (-1) (-1), .int32 7,
    .ofArity .ret [4, 2, 2], .collect [6]]
  exit := some 7

theorem lowering_keeps_graph_relay :
    (Lowering.run relay 32).fault = none ∧ (Lowering.run relay 32).changed = 3 ∧
      Lowering.EdgesAnchored relay relay ∧
      ∃ ρ, Lowering.Completes (.ofWord 32) relay (Lowering.run relay 32) ρ := by
  have hWell : relay.WellFormed :=
    .of_nodes (by decide +kernel) (by decide +kernel) (by decide +kernel)
  have hStart : relay.HasOp Graph.start .start := ⟨_, rfl, rfl⟩
  have hAcyclic := Graph.acyclic_of_rank (g := relay) ([0, 1, 3, 2, 1, 0, 4, 5].getD · 0)
    (by decide +kernel)
  have hNone : (Lowering.run relay 32).fault = none := by decide +kernel
  have hEdges : Lowering.EdgesAnchored relay relay := by
    have hAll : ∀ m ∈ relay.nodes.toList, ∀ p ∈ m.edges, p.1 = .value ∨
        (relay.node? p.2).all (fun n => !n.op.isChange || n.controlCount != 0) = true := by
      decide +kernel
    intro w m kind x n hm hEdge hKind hn hIs
    obtain ⟨i, -, hi⟩ := Graph.node?_eq_some.mp hm
    have hMem : m ∈ relay.nodes.toList := Array.mem_toList_iff.mpr (Array.mem_of_getElem? hi)
    rcases hAll m hMem (kind, x) hEdge with hValue | hHas
    · exact absurd hValue hKind
    · simpa [hn, hIs] using hHas
  exact ⟨hNone, by decide +kernel, hEdges,
    (lowering_keeps_graph hWell hStart hAcyclic (.inl rfl)).1 hNone⟩

end ArmBackend
