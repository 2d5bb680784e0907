import ArmBackend.Proofs.Lowering.Operands

/-!
# A box that is allocated before its number is known

The fragment that boxes a double asks for its object first, and for the double when it comes to the
store. If the evaluation of the double allocates nothing, that is the same as boxing it afterwards.

## Definitions

* `BoxNodes` — the nodes that box a double.

## Results

* `BoxNodes.In.boxes` — they give what boxing the double gives.
-/

namespace ArmBackend

namespace Lowering

open Build

/-- The nodes that box a double, in the order in which they are added. -/
structure BoxNodes where
  effect : Int
  target : Int
  size : Int
  object : Int
  offset : Int
  store : Int
  finish : Int

variable {l : Layout} {e : Entry} {g g' : Graph} {first : Nat} {id : NodeId}

/-- The allocation hangs on the effect of the change, if it has one. -/
structure BoxNodes.In (b : BoxNodes) (g : Graph) (first : Nat) (l : Layout) (e : Entry) : Prop where
  effect : 0 ≤ e.effect ∧ b.effect = e.effect ∨ Behind first b.effect ∧ b.effect < b.target ∧
    g.node? b.effect = some (.ofArity .valueEffect [e.value])
  target : g.node? b.target = some (.external allocateHeapNumber)
  size : g.node? b.size = some (.int32 (BitVec.ofInt 32 l.heapNumberSize))
  object : g.node? b.object = some (.call b.target [b.size] b.effect e.control)
  offset : g.node? b.offset = some (.int32 (BitVec.ofInt 32 l.heapNumberOffset))
  store : g.node? b.store =
    some (.store .float64 .none b.object b.offset e.value b.object e.control)
  finish : g.node? b.finish = some (.ofArity .finish [b.object, b.store])
  ordered : Behind first b.target ∧ b.target < b.size ∧ b.size < b.object ∧
    b.object < b.offset ∧ b.offset < b.store ∧ b.store < b.finish

theorem allocationEffect_behind (hFirst : first ≤ g.size) :
    Adds g (allocationEffect e) fun effect g' => 0 ≤ e.effect ∧ effect = e.effect ∨
      Behind first effect ∧ effect < g'.size ∧
        g'.node? effect = some (.ofArity .valueEffect [e.value]) := by
  unfold allocationEffect
  split
  next hNonneg => exact .pure (.inl ⟨hNonneg, rfl⟩)
  next =>
    refine (push_adds _).mono ?_
    rintro effect g' - ⟨rfl, hn⟩
    exact .inr ⟨behind_size hFirst, (Graph.node?_lt hn).2, hn⟩

theorem float64ToTagged_boxes (hFirst : first ≤ g.size) :
    Adds g (float64ToTagged l e) fun r g' =>
      ∃ b : BoxNodes, b.finish = r.value ∧ b.In g' first l e := by
  refine (allocationEffect_behind hFirst).bind ?_
  rintro effect g₀ h₀ hEffect
  refine Adds.bind (Q := fun boxed g' =>
      ∃ b : BoxNodes, b.finish = boxed.value ∧ b.In g' first l e) ?_ ?_
  · refine (push_adds _).bind ?_
    rintro target g₁ h₁ ⟨rfl, hTarget⟩
    refine (push_adds _).bind ?_
    rintro size g₂ h₂ ⟨rfl, hSize⟩
    refine (push_adds _).bind ?_
    rintro object g₃ h₃ ⟨rfl, hObject⟩
    refine (push_adds _).bind ?_
    rintro offset g₄ h₄ ⟨rfl, hOffset⟩
    refine (push_adds _).bind ?_
    rintro store g₅ h₅ ⟨rfl, hStore⟩
    refine (push_adds _).bind ?_
    rintro finish g₆ h₆ ⟨rfl, hFinish⟩
    -- Each node is still there when the box is finished.
    have h₅₆ := h₅.trans h₆
    have h₄₆ := h₄.trans h₅₆
    have h₃₆ := h₃.trans h₄₆
    have h₂₆ := h₂.trans h₃₆
    refine .pure ⟨⟨effect, g₀.size, g₁.size, g₂.size, g₃.size, g₄.size, g₅.size⟩, rfl, ?_⟩
    exact {
      effect := hEffect.imp_right fun ⟨hNew, hLt, hn⟩ => ⟨hNew, hLt, (h₁.trans h₂₆).node hn⟩
      target := h₂₆.node hTarget
      size := h₃₆.node hSize
      object := h₄₆.node hObject
      offset := h₅₆.node hOffset
      store := h₆.node hStore
      finish := hFinish
      ordered := ⟨behind_size (hFirst.trans h₀.size_le), (Graph.node?_lt hTarget).2,
        (Graph.node?_lt hSize).2, (Graph.node?_lt hObject).2, (Graph.node?_lt hOffset).2,
        (Graph.node?_lt hStore).2⟩ }
  · rintro boxed g₆ - ⟨b, hFinish, hIn⟩
    exact .pure ⟨b, hFinish, hIn⟩

end Lowering

namespace Machine

open Lowering (Behind BoxNodes)

section

variable {env : Env} {s s' : State} {id : NodeId} {v : BitVec 64} {d : Nat} {n : Node}

/-- The state in which an effect counts as run. -/
def State.mark (s : State) (id : NodeId) : State :=
  { s with effects := fun x => x = id || s.effects x }

theorem answer_ran (h : id < 0 ∨ s.effects id = true) :
    Runs (answer env (d + 1) (.effect id)) s () s := by
  refine Runs.bind (Runs.get s) ?_
  rw [if_pos (by simpa using h)]
  exact Runs.pure _ _

theorem answer_enters (hId : 0 ≤ id) (hs : s.effects id = false)
    (h : Runs (runEffect env (answer env d) id) (s.mark id) () s') :
    Runs (answer env (d + 1) (.effect id)) s () s' := by
  refine Runs.bind (Runs.get s) ?_
  rw [if_neg (by simp [hs, hId])]
  exact Runs.bind (Runs.modifies _ _) h

theorem answer_int32 {w : BitVec 32} (hn : env.graph.node? id = some (.int32 w))
    (hs : s.values id = none) :
    Runs (answer env (d + 1) (.value id)) s (w.setWidth 64)
      (s.learn id (s.heap, w.setWidth 64)) := by
  refine answer_computes hs (Runs.bind (Runs.lift (Graph.node_eq_ok.mpr hn) s) ?_)
  have hWord : BitVec.ofInt 32 (Node.int32 w).int = w := BitVec.ofInt_toInt
  show Runs (Pure.pure ((BitVec.ofInt 32 (Node.int32 w).int).setWidth 64)) s _ s
  rw [hWord]
  exact Runs.pure _ _

end

end Machine

/-- A box whose object was allocated while nothing else was. -/
theorem Heap.Grew.boxed_ahead {h h' : Heap} {l : Layout} {v : BitVec 64} (hGrew : h.Grew h')
    (hl : l = .ofWord 32 ∨ l = .ofWord 64) (hLayout : h.layout = l)
    (hAllocs : h'.allocs = h.allocs) :
    let size : BitVec 64 := (BitVec.ofInt 32 l.heapNumberSize).setWidth 64
    let address := (h.allocate size).2 + (BitVec.ofInt 32 l.heapNumberOffset).setWidth 64
    Machine.changeOn .float64ToTagged v h' =
      ((h'.allocate size).1.store address v, (h.allocate size).2) := by
  intro size address
  have hNext : h'.next = h.next := hGrew.next (Nat.le_of_eq hAllocs)
  have hl' : h'.layout = l := hGrew.like.layout.trans hLayout
  -- no box was allocated in between, so the next one has the address it would have had
  have hPointer : (h'.allocate size).2 = (h.allocate size).2 := by
    show h'.toWord (h'.next ||| _) = h.toWord (h.next ||| _)
    rw [hGrew.like.toWord, hNext]
  have hSize : BitVec.ofInt 64 l.heapNumberSize = size := by
    obtain rfl | rfl := hl <;> rfl
  have hAddress : (h'.allocate size).1.payload (h.allocate size).2 = address := by
    show (h.allocate size).2 + BitVec.ofInt 64 h'.layout.heapNumberOffset = _
    rw [hl']
    obtain rfl | rfl := hl <;> rfl
  unfold Machine.changeOn Heap.box
  dsimp only
  rw [hl', hSize, hPointer, hAddress]

namespace Lowering.BoxNodes.In

open Machine

variable {d : Nat} {s s₁ : State} {v : BitVec 64} {b : BoxNodes}

/-- What the allocation depends on has run, or counts as run from the first look on. -/
theorem depends (h : b.In g first l e) (arguments : List (BitVec 64))
    (hEffect : 0 ≤ e.effect → s.effects e.effect = true)
    (hNew : Behind first b.effect → b.effect < b.target → s.effects b.effect = false) :
    ∃ t, (∀ d, Runs (answer ⟨g, arguments⟩ (d + 2) (.effect b.effect)) s () t) ∧
      t.effects b.effect = true ∧
      (t = s ∨ Behind first b.effect ∧ b.effect < b.target ∧ t = s.mark b.effect) := by
  obtain ⟨hNonneg, hOld⟩ | ⟨hBehind, hLt, hn⟩ := h.effect
  · rw [hOld]
    exact ⟨s, fun d => answer_ran (.inr (hEffect hNonneg)), hEffect hNonneg, .inl rfl⟩
  · refine ⟨s.mark b.effect, fun d => answer_enters ?_ (hNew hBehind hLt) ?_, by simp [State.mark],
      .inr ⟨hBehind, hLt, rfl⟩⟩
    · exact Int.le_trans (Int.natCast_nonneg _) hBehind
    · exact Runs.bind (Runs.lift (Graph.node_eq_ok.mpr hn) _) (Runs.pure _ _)

/-- The object is allocated first. Of the other nodes nothing is learnt. -/
theorem allocates (h : b.In g first l e) (arguments : List (BitVec 64))
    (hEffect : 0 ≤ e.effect → s.effects e.effect = true)
    (hUnasked : s.Unasked fun id => Behind first id ∧ id ≠ b.store) :
    let size := (BitVec.ofInt 32 l.heapNumberSize).setWidth 64
    ∃ t, (∀ d, Runs (answer ⟨g, arguments⟩ (d + 4) (.effect b.object)) s () t) ∧
      t.heap = (s.heap.allocate size).1 ∧ t.reached = s.reached ∧
      t.values b.object = some (s.heap.allocate size).2 ∧ t.effects b.object = true ∧
      (∀ id, ¬Behind first id ∨ b.object < id → t.values id = s.values id) ∧
      ∀ id, ¬Behind first id → t.effects id = s.effects id := by
  intro size
  obtain ⟨hFirst, hTarget, hSize, hObject, hOffset, hStore⟩ := h.ordered
  have hBehind : Behind first b.size ∧ Behind first b.object := by
    unfold Behind at hFirst ⊢
    omega
  have hUnmarked : ∀ {id : Int}, Behind first id → id < b.store → s.effects id = false :=
    fun hNew hLt => (hUnasked _ ⟨hNew, Int.ne_of_lt hLt⟩).2.1
  have hUnknown : ∀ {id : Int}, Behind first id → id < b.store → s.values id = none :=
    fun hNew hLt => (hUnasked _ ⟨hNew, Int.ne_of_lt hLt⟩).1
  -- The effect in front runs first, and leaves the heap as it was.
  obtain ⟨s₁, hDepends, hRan, hCases⟩ := h.depends arguments (s := s.mark b.object)
    (fun hNonneg => by simp [State.mark, hEffect hNonneg]) fun hNew hLt => by
      have hNe : b.effect ≠ b.object := by omega
      simp [State.mark, hNe, hUnmarked hNew (by omega)]
  obtain ⟨hHeap, hReached, hValues⟩ :
      s₁.heap = s.heap ∧ s₁.reached = s.reached ∧ s₁.values = s.values := by
    obtain rfl | ⟨-, -, rfl⟩ := hCases <;> exact ⟨rfl, rfl, rfl⟩
  let s₂ := s₁.learn b.size (s₁.heap, size)
  let s₃ := (s₂.noted b.object).learn b.object (s₂.heap.allocate size)
  -- The call asks for the size, and allocates.
  have hCall : ∀ d, Runs (compute ⟨g, arguments⟩ (answer ⟨g, arguments⟩ (d + 2)) b.object) s₁
      (s₁.heap.allocate size).2 { s₂.noted b.object with heap := (s₁.heap.allocate size).1 } := by
    intro d
    refine Runs.bind (Runs.lift (Graph.node_eq_ok.mpr h.object) s₁) ?_
    refine Runs.bind (Runs.lift rfl s₁) (Runs.bind (answer_ran (.inr hRan)) ?_)
    refine Runs.bind (Runs.lift rfl s₁) ?_
    refine Runs.bind (Runs.lift (Graph.node_eq_ok.mpr h.target) s₁) ?_
    refine Runs.bind (Runs.bind (Runs.lift rfl s₁) (answer_int32 h.size ?_)) ?_
    · rw [hValues]
      exact hUnknown hBehind.1 (by omega)
    · exact Runs.access b.object _ s₂
  refine ⟨s₃, fun d => ?_, congrArg (fun h : Heap => (h.allocate size).1) hHeap, hReached, ?_, ?_,
    fun id hId => ?_, fun id hOld => ?_⟩
  · -- The object is asked for as an effect, which computes it.
    have hNonneg : 0 ≤ b.object := Int.le_trans (Int.natCast_nonneg _) hBehind.2
    refine answer_enters hNonneg (hUnmarked hBehind.2 (by omega)) ?_
    refine Runs.bind (Runs.lift (Graph.node_eq_ok.mpr h.object) _) ?_
    have hInputs : (Node.call b.target [b.size] b.effect e.control).effectInputs = .ok [b.effect] :=
      rfl
    refine Runs.bind (Runs.lift hInputs _) ?_
    refine Runs.bind (a := ()) (Runs.bind (hDepends (d + 1)) (Runs.pure _ s₁)) ?_
    refine Runs.bind (answer_computes (d := d + 2) ?_ (hCall d)) (Runs.pure _ _)
    rw [hValues]
    exact hUnknown hBehind.2 (by omega)
  · rw [← hHeap]
    exact if_pos rfl
  · show s₁.effects b.object = true
    obtain rfl | ⟨-, -, rfl⟩ := hCases <;> simp [State.mark]
  · have hNe : ∀ x, Behind first x → ¬b.object < x → id ≠ x := by
      rintro x hNew hLe rfl
      exact hId.elim (fun hOld => hOld hNew) hLe
    show (if id = b.object then _ else if id = b.size then _ else s₁.values id) = _
    rw [if_neg (hNe _ hBehind.2 (by omega)), if_neg (hNe _ hBehind.1 (by omega)), hValues]
  · have hNe : ∀ x, Behind first x → id ≠ x := by
      rintro x hNew rfl
      exact hOld hNew
    show s₁.effects id = s.effects id
    obtain rfl | ⟨hNew, -, rfl⟩ := hCases
    · simp [State.mark, hNe _ hBehind.2]
    · simp [State.mark, hNe _ hBehind.2, hNe _ hNew]

/-- What boxes a double gives what boxing it gives, if its evaluation allocates nothing. -/
theorem boxes {g' : Graph} {arguments : List (BitVec 64)} (h : b.In g' g.size l e) (hGrows : Grows g g')
    (hl : l = .ofWord 32 ∨ l = .ofWord 64) (hLayout : s.heap.layout = l)
    (hUnasked : s.Unasked (Behind g.size)) (hEffect : 0 ≤ e.effect → s.effects e.effect = true)
    (hx : Evaluates ⟨g, arguments⟩ (.value e.value) s v s₁)
    (hAllocs : s₁.heap.allocs = s.heap.allocs) :
    Yields ⟨g', arguments⟩ s b.finish (changeOn .float64ToTagged v s₁.heap) := by
  obtain ⟨d, hRuns⟩ := hx
  obtain ⟨hFirst, hTarget, hSize, hObject, hOffset, hStore⟩ := h.ordered
  have hBehind : Behind g.size b.object ∧ Behind g.size b.offset ∧ Behind g.size b.store ∧
      Behind g.size b.finish := by
    unfold Behind at hFirst ⊢
    omega
  have hNe : b.object ≠ b.store ∧ b.object ≠ b.offset := by omega
  have hOld : ∀ {x id}, Behind g.size x → ¬Behind g.size id → id ≠ x := by
    rintro x id hNew hOld rfl
    exact hOld hNew
  let s₀ := s.mark b.store
  obtain ⟨t, hAllocates, hHeap, hReached, hObjectValue, hObjectRan, hValues, hEffects⟩ :=
    h.allocates arguments (s := s₀)
      (fun hNonneg => by simp [s₀, State.mark, hEffect hNonneg]) fun id ⟨hNew, hNotStore⟩ => by
        obtain ⟨hNone, hUnmarked, hUnreached⟩ := hUnasked id hNew
        exact ⟨hNone, by simp [s₀, State.mark, hNotStore, hUnmarked], hUnreached⟩
  let size : BitVec 64 := (BitVec.ofInt 32 l.heapNumberSize).setWidth 64
  let offset : BitVec 64 := (BitVec.ofInt 32 l.heapNumberOffset).setWidth 64
  let t₁ := t.learn b.offset (t.heap, offset)
  -- the operand is evaluated with the object already there
  have hAlike : Alike (some size) (Behind g.size) (fun _ => False) s t₁ s t₁ := by
    refine ⟨hHeap, nofun, fun {id} hId => ?_, fun hId => ?_, fun _ => .inl ?_, hUnasked _,
      fun _ => ⟨rfl, rfl, rfl⟩, id, id, .refl _⟩
    · show (if id = b.offset then _ else t.values id) = _
      rw [if_neg (hOld hBehind.2.1 hId), hValues id (.inl hId)]
      rfl
    · refine (hEffects _ hId).trans ?_
      simp [s₀, State.mark, hOld hBehind.2.2.1 hId]
    · exact congrFun hReached _
  have hEnv : Enlarges (Behind g.size) (fun _ => False) ⟨g, arguments⟩ ⟨g', arguments⟩ :=
    ⟨rfl, hGrows, behind_new, nofun⟩
  obtain ⟨t₂, hOperand, hAlike₂⟩ := (answer_mimics hEnv (Nat.le_add_right d 3) _).runs hAlike hRuns
    (.inr (Nat.le_of_eq hAllocs))
  have hHeap₂ : t₂.heap = (s₁.heap.allocate size).1 := hAlike₂.heap
  have hGrew : s.heap.Grew s₁.heap := hAlike₂.grew
  have hKept : ∀ {id}, Behind g.size id → t₂.values id = t₁.values id := fun hNew =>
    (hAlike₂.kept hNew).1
  have hObject₁ : t₁.values b.object = some (s.heap.allocate size).2 :=
    (if_neg hNe.2).trans hObjectValue
  -- and stored behind it
  let address := (s.heap.allocate size).2 + offset
  let t₃ := ({ t₂.noted b.store with heap := t₂.heap.store address v }).learn b.store
    (t₂.heap.store address v, 0)
  have hStored : Runs (answer ⟨g', arguments⟩ (d + 4) (.value b.store)) t 0 t₃ := by
    refine answer_computes ?_ (Runs.bind (Runs.lift (Graph.node_eq_ok.mpr h.store) t) ?_)
    · rw [hValues _ (.inr (by omega))]
      exact (hUnasked _ hBehind.2.2.1).1
    refine Runs.bind (Runs.lift rfl t) (Runs.bind (answer_ran (.inr hObjectRan)) ?_)
    refine Runs.bind (Runs.bind (Runs.lift rfl t) (answer_value hObjectValue)) ?_
    refine Runs.bind (Runs.bind (Runs.lift rfl t) (answer_int32 h.offset ?_)) ?_
    · rw [hValues _ (.inr hObject)]
      exact (hUnasked _ hBehind.2.1).1
    exact Runs.bind (Runs.bind (Runs.lift rfl t₁) hOperand) (Runs.access b.store _ t₂)
  have hRan : Runs (answer ⟨g', arguments⟩ (d + 5) (.effect b.store)) s () t₃ := by
    refine answer_enters ?_ (hUnasked _ hBehind.2.2.1).2.1 ?_
    · exact Int.le_trans (Int.natCast_nonneg _) hBehind.2.2.1
    refine Runs.bind (Runs.lift (Graph.node_eq_ok.mpr h.store) _) ?_
    have hInputs : (Node.store .float64 .none b.object b.offset e.value b.object
        e.control).effectInputs = .ok [b.object] := by
      unfold Node.store Node.anchors
      split <;> rfl
    refine Runs.bind (Runs.lift hInputs _) ?_
    refine Runs.bind (a := ()) (Runs.bind (hAllocates d) (Runs.pure _ t)) ?_
    exact Runs.bind hStored (Runs.pure _ _)
  have hFinish : Runs (compute ⟨g', arguments⟩ (answer ⟨g', arguments⟩ (d + 5)) b.finish) s
      (s.heap.allocate size).2 t₃ := by
    refine Runs.bind (Runs.lift (Graph.node_eq_ok.mpr h.finish) s) ?_
    refine Runs.bind (Runs.lift rfl s) (Runs.bind hRan ?_)
    refine Runs.bind (Runs.lift rfl t₃) (answer_value ?_)
    show (if b.object = b.store then _ else t₂.values b.object) = _
    rw [if_neg hNe.1, hKept hBehind.1, hObject₁]
  rw [hGrew.boxed_ahead hl hLayout hAllocs]
  exact ⟨_, ⟨d + 6, answer_computes (hUnasked _ hBehind.2.2.2).1 hFinish⟩,
    congrArg (fun h : Heap => h.store address v) hHeap₂⟩

end Lowering.BoxNodes.In

end ArmBackend
