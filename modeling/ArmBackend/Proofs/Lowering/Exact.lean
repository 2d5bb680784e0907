import ArmBackend.Proofs.Lowering.Changes

/-!
# Heaps to the bit

A setting in which every change of the heap counts. All that happens to it is ordered by the
effects, so each event says what the heap is afterwards, to the bit, and pointers are words like
others.

## Results

* `Plan.exactBoxing` — boxes are planned in two events, the allocation and the store.
* `Plan.Good.exactFragment` — the fragment of a change that is given no box to read leaves the value
  and the heap that the change leaves.
* `Plan.Good.admits_access` — so does any access as it stands.
* `Plan.Good.boxes_exactly`, `Plan.Good.unboxes_exactly` — the fragments of all changes, where nothing
  else happens.
-/

namespace ArmBackend.Machine

open Plan

/-- The setting in which every change of the heap counts. -/
def Setting.exact (arguments : List (BitVec 64)) (heap : Heap)
    (given : NodeId → Bool := fun _ => false) : Setting where
  arguments
  heap
  given
  Harmless h h' := h' = h
  harmless_refl _ := rfl
  harmless_like h _ hEq := hEq ▸ Heap.Like.refl h

variable {arguments : List (BitVec 64)} {heap H : Heap} {given : NodeId → Bool}

/-- The heap is this one. -/
def exactly (arguments : List (BitVec 64)) (heap H : Heap) :
    Knowledge (.exact arguments heap given) where
  Holds s := s.heap = H
  stable _ _ h _ hSame := Eq.trans hSame h

theorem Plan.Accesses.congr {c : Setting} {p : Plan c} {n : Node} {xs : List NodeId}
    {act : (NodeId → BitVec 64) → Heap → Heap × BitVec 64} {v w : NodeId → BitVec 64}
    (h : p.Accesses n xs act) (hvw : ∀ x ∈ xs, v x = w x) : act v = act w := by
  funext heap
  cases h with
  | call => simp only [hvw _ (.head _)]
  | load => simp only [hvw _ (.head _), hvw _ (.tail _ (.head _))]
  | store =>
    simp only [hvw _ (.head _), hvw _ (.tail _ (.head _)), hvw _ (.tail _ (.tail _ (.head _)))]
  | change => simp only [hvw _ (.head _)]

namespace Plan

variable {p : Plan (.exact arguments heap given)} {g : Graph} {n : Node} {id effect control : NodeId}
  {a t : Nat} {v d : BitVec 64} {xs : List NodeId}
  {act : (NodeId → BitVec 64) → Heap → Heap × BitVec 64}

/-- The word that is planned for a node. -/
def word (p : Plan (.exact arguments heap given)) (x : NodeId) : BitVec 64 :=
  match (p.label x).meaning with
  | .word v => v
  | .pointer _ => 0

theorem Shows.word (h : p.Shows id ⟨.word v, a⟩) : p.word id = v := by
  unfold Plan.word
  rw [h.label]

/-- An access behind everything that happened so far. -/
theorem Good.admits_access (h : p.Good g) (b? : Option Bool) (hFresh : p.entry id = none)
    (hClosed : ∀ x ∈ n.inputs, p.Has x) (hAccesses : p.Accesses n xs act)
    (hShows : ∀ x ∈ xs, ∃ v a, p.Shows x ⟨.word v, a⟩) (hOrdered : p.Ordered n p.time)
    (hReached : ∀ b ∈ b?, p.Arrives p.count n b)
    (hKnown : p.known p.time = some (exactly arguments heap H)) :
    p.Admits id (p.eventEntry n (.word (act p.word H).2) b?)
      (some (exactly arguments heap (act p.word H).1)) := by
  refine h.admits_event _ b? _ hFresh hClosed hAccesses ?_ hOrdered hReached
    (.inl (Nat.le_refl _)) hKnown ?_
  · intro x hx
    obtain ⟨v, a, hv⟩ := hShows x hx
    exact ⟨_, hv⟩
  · intro s _ _ hMeant hHeap
    -- the access reads its operands only, and these are known words
    have hValues : act s.value = act p.word := by
      refine hAccesses.congr fun x hx => ?_
      obtain ⟨v, a, hv⟩ := hShows x hx
      rw [hv.word]
      exact hMeant x _ hx hv
    have hHeap : s.heap = H := hHeap
    rw [hValues, hHeap]
    exact ⟨rfl, rfl⟩

/-- A box is allocated, then filled. -/
theorem plans_exactBox (hl : heap.layout = .ofWord 32 ∨ heap.layout = .ofWord 64)
    (hLike : heap.Like H) (h : p.Good g) {value : NodeId} (hValue : p.Shows value ⟨.word d, a⟩)
    (hEffect : p.Orders effect p.time) (hControl : p.Has control)
    (hKnown : p.known p.time = some (exactly arguments heap H)) :
    p.Plans g (Lowering.box heap.layout value effect control) fun b p' =>
      p'.Shows b.value ⟨.word (H.box ⟨d⟩).2, p'.time⟩ ∧ p'.Orders b.effect p'.time ∧
        p'.known p'.time = some (exactly arguments heap (H.box ⟨d⟩).1) := by
  refine (h.adds (n := .external allocateHeapNumber) (by simp [Node.external])).bind ?_
  rintro target p₁ g₁ h₁ ⟨hTarget, hTime₁⟩
  refine (h₁.good.int32 heap.layout.heapNumberSize).bind ?_
  rintro size p₂ g₂ h₂ ⟨hSize, hTime₂⟩
  rw [Heap.setWidth_heapNumberSize hl] at hSize
  have hLe₂ := h₁.le.trans h₂.le
  have hNow₂ : p₂.time = p.time := by omega
  have hEffect₂ : p₂.Orders effect p₂.time := hNow₂ ▸ hEffect.mono hLe₂
  have hKnown₂ : p₂.known p₂.time = some (exactly arguments heap H) := hNow₂ ▸ hLe₂.known hKnown
  -- the call leaves the pointer and a longer heap
  refine (h₂.good.event (h₂.good.admits_access (n := .call target [size] effect control)
    none h₂.good.fresh ?_ (.call rfl rfl (hTarget.mono h₂.le) rfl rfl rfl)
    (by simpa using ⟨_, _, hSize⟩)
    ⟨rfl, ⟨effect, rfl, .inr hEffect₂⟩, [effect], rfl, by simpa using ⟨_, hEffect₂⟩⟩
    (fun _ h => by cases h) hKnown₂)).bind ?_
  · intro z hz
    obtain rfl | rfl | rfl | rfl := mem_call_inputs hz
    · exact hTarget.has.mono h₂.le
    · exact hSize.has
    · exact hEffect₂.has
    · exact hControl.mono hLe₂
  rintro object p₃ g₃ h₃ ⟨hObject, hOrders, -, hTime₃, hKnown₃⟩
  have hAllocate : H.allocate (p₂.word size) =
      H.allocate (BitVec.ofInt 64 H.layout.heapNumberSize) := by
    rw [hSize.word, hLike.layout]
  rw [hAllocate] at hObject hKnown₃
  refine (h₃.good.int32 heap.layout.heapNumberOffset).bind ?_
  rintro offset p₄ g₄ h₄ ⟨hOffset, hTime₄⟩
  rw [Heap.setWidth_heapNumberOffset hl] at hOffset
  have hLe₄ := hLe₂.trans (h₃.le.trans h₄.le)
  have hNow₄ : p₂.time + 1 = p₄.time := by omega
  have hObject₄ := hObject.mono h₄.le
  have hOrders₄ := hOrders.mono h₄.le
  have hKnown₄ := h₄.le.known hKnown₃
  have hValue₄ := hValue.mono hLe₄
  rw [hNow₄] at hOrders₄ hKnown₄
  -- the store puts the double where the payload of the pointer is
  refine (h₄.good.event (h₄.good.admits_access
    (n := .store .float64 .none object offset value object control) none h₄.good.fresh ?_
    (.store rfl rfl rfl rfl) ?_
    ⟨rfl, ⟨object, rfl, .inr hOrders₄⟩, [object], store_effectInputs, by simpa using ⟨_, hOrders₄⟩⟩
    (fun _ h => by cases h) hKnown₄)).bind ?_
  · intro z hz
    obtain rfl | rfl | rfl | rfl | rfl := mem_store_inputs hz
    · exact hObject₄.has
    · exact hOffset.has
    · exact hValue₄.has
    · exact hObject₄.has
    · exact hControl.mono hLe₄
  · intro z hz
    obtain rfl | rfl | rfl : z = object ∨ z = offset ∨ z = value := by simpa using hz
    · exact ⟨_, _, hObject₄⟩
    · exact ⟨_, _, hOffset⟩
    · exact ⟨_, _, hValue₄⟩
  rintro store p₅ g₅ h₅ ⟨-, hOrders₅, -, hTime₅, hKnown₅⟩
  rw [hObject₄.word, hOffset.word, hValue₄.word, ← hLike.layout] at hKnown₅
  refine (h₅.good.finish (hObject₄.mono h₅.le) hOrders₅ (by omega)).bind ?_
  rintro finish p₆ g₆ h₆ ⟨hFinish, hOrders₆, hTime₆⟩
  have hNow₆ : p₄.time + 1 = p₆.time := by omega
  have hKnown₆ := h₆.le.known hKnown₅
  rw [hNow₆] at hFinish hOrders₆ hKnown₆
  exact Plans.pure h₆.good ⟨hFinish, hOrders₆, hKnown₆⟩

/-- Boxes are planned where the heap puts them. -/
def exactBoxing (hl : heap.layout = .ofWord 32 ∨ heap.layout = .ofWord 64) (hLike : heap.Like H) :
    Boxing (.exact arguments heap given) where
  Ready p _ t := t = p.time ∧ p.known p.time = some (exactly arguments heap H)
  Boxed p l d := l = ⟨.word (H.box ⟨d⟩).2, p.time⟩ ∧
    p.known p.time = some (exactly arguments heap (H.box ⟨d⟩).1)
  ready_mono := by
    rintro p p' a t hLe hTime ⟨rfl, hK⟩
    rw [hTime]
    exact ⟨rfl, hLe.known hK⟩
  boxed_mono := by
    rintro p p' l d hLe hTime ⟨rfl, hK⟩
    rw [hTime]
    exact ⟨rfl, hLe.known hK⟩
  plans := by
    rintro p g value effect control d a t h hValue hEffect hControl ⟨rfl, hK⟩
    refine (plans_exactBox hl hLike h hValue hEffect hControl hK).mono ?_
    rintro b p' g' - ⟨hShows, hOrders, hKnown⟩
    exact ⟨⟨_, hShows, rfl, hKnown⟩, hOrders⟩

/-- The fragment of a change that is given no box to read leaves what the change leaves. -/
theorem Good.exactFragment {e : Lowering.Entry} {f : Change} (h : p.Good g)
    (hl : heap.layout = .ofWord 32 ∨ heap.layout = .ofWord 64)
    (hTrue : heap.toWord heap.trueObject = heap.trueObject) (small : Bool)
    (hSmi : f.unboxes = true → Heap.isSmi v = true)
    (hSmall : small = true → heap.layout.isSmi (v.setWidth 32).toInt = true)
    (hBit : f = .bitToBool → v.setWidth 32 = 0 → v = 0) (hAnchored : e.anchored = true)
    (hStart : p.Starts e p.time) (hx : p.Shows e.value ⟨.word v, a⟩) (hLike : heap.Like H)
    (hKnown : p.known p.time = some (exactly arguments heap H)) :
    p.Plans g (Lowering.fragment heap.layout f small e) fun r p' =>
      (∃ a, p'.Shows r.value ⟨.word (changeOn f v H).2, a⟩) ∧ p'.Enters r.control true ∧
        p'.Orders r.effect p'.time ∧
        p'.known p'.time = some (exactly arguments heap (changeOn f v H).1) := by
  -- A change that unboxes gets a small integer here, so it reads no box; another one may box.
  cases hf : f.unboxes with
  | true =>
    refine (h.unboxes_small hl f small hf hStart hx (hSmi hf)).mono ?_
    rintro r p' g' hGrown ⟨w, hOn, hShows, hExits, hTime⟩
    obtain ⟨hControl, hOrders⟩ := hExits hAnchored
    rw [changeOn_word hLike hSmi hOn]
    refine ⟨⟨_, hShows⟩, hControl, ?_, ?_⟩
    · rw [hTime]
      exact hOrders
    · rw [hTime]
      exact hGrown.le.known hKnown
  | false =>
    let B : Boxing (.exact arguments heap given) := exactBoxing hl hLike
    have hReady : B.Ready p a (allocationStamp e p.time) := by
      unfold allocationStamp
      rw [if_pos hAnchored]
      exact ⟨rfl, hKnown⟩
    refine (B.fragment h hl hTrue f small hf hSmall hBit hStart hx hReady).mono ?_
    rintro r p' g' hGrown ⟨hGives, t', hExits, hEnd⟩
    obtain ⟨hControl, hOrders⟩ := hExits hAnchored
    rw [hEnd rfl] at hOrders
    change B.Gives p p' _ r.value (f.onWord heap v) at hGives
    -- What it gives is a word, with the heap as it was, or a new box.
    cases hOn : f.onWord heap v with
    | word w =>
      rw [hOn] at hGives
      rw [changeOn_word hLike hSmi hOn]
      obtain ⟨hShows, hTime⟩ := hGives
      refine ⟨⟨_, hShows⟩, hControl, hOrders, ?_⟩
      rw [hTime]
      exact hGrown.le.known hKnown
    | boxed d =>
      rw [hOn] at hGives
      rw [changeOn_fresh hLike hOn]
      obtain ⟨l, hShows, rfl, hKnown'⟩ := hGives
      exact ⟨⟨_, hShows⟩, hControl, hOrders, hKnown'⟩

/-! ## Fragments on their own -/

variable {e : Lowering.Entry} {f : Change}

/-- The value of a node is planned, and the heap behind it. -/
structure Leaves (p : Plan (.exact arguments heap given)) (id : NodeId) (r : Heap × BitVec 64) :
    Prop where
  value : p.Shows id ⟨.word r.2, p.time⟩
  heap : p.known p.time = some (exactly arguments heap r.1)

/-- The fragment of a change that starts from no tagged number, where nothing has happened yet. -/
theorem Good.boxes_exactly (h : p.Good g)
    (hl : heap.layout = .ofWord 32 ∨ heap.layout = .ofWord 64)
    (hTrue : heap.toWord heap.trueObject = heap.trueObject) (hf : f.unboxes = false) (small : Bool)
    (hSmall : small = true → heap.layout.isSmi (v.setWidth 32).toInt = true)
    (hBit : f = .bitToBool → v.setWidth 32 = 0 → v = 0) (hStart : p.Starts e 0)
    (hTime : p.time = 0) (hx : p.Leaves e.value (heap, v)) :
    p.Plans g (Lowering.fragment heap.layout f small e) fun r p' =>
      p'.Has r.value ∧ (∃ t, p'.Exits e r t) ∧ p'.Leaves r.value (changeOn f v heap) := by
  have hStamp : allocationStamp e 0 = p.time := by
    unfold allocationStamp
    rw [ite_self, hTime]
  have hReady : (exactBoxing hl (Heap.Like.refl heap)).Ready p p.time (allocationStamp e 0) :=
    ⟨hStamp, hx.heap⟩
  refine ((exactBoxing hl (Heap.Like.refl heap)).fragment h hl hTrue f small hf hSmall hBit hStart
    hx.value hReady).mono ?_
  rintro r p' g' hGrown ⟨hGives, t, hExits, -⟩
  rw [hTime, ite_self, ← hTime] at hGives
  change (exactBoxing hl _).Gives p p' p.time r.value (f.onWord heap v) at hGives
  have hUnboxes : f.unboxes = true → Heap.isSmi v = true := by
    rw [hf]
    nofun
  -- What it gives is a word, with the heap as it was, or a new box.
  cases hOn : f.onWord heap v with
  | word w =>
    rw [hOn] at hGives
    obtain ⟨hShows, hTime'⟩ := hGives
    rw [changeOn_word (Heap.Like.refl heap) hUnboxes hOn]
    refine ⟨hShows.has, ⟨t, hExits⟩, ?_, ?_⟩
    · rw [hTime']
      exact hShows
    · rw [hTime']
      exact hGrown.le.known hx.heap
  | boxed d =>
    rw [hOn] at hGives
    obtain ⟨l, hShows, rfl, hKnown⟩ := hGives
    rw [changeOn_fresh (Heap.Like.refl heap) hOn]
    exact ⟨hShows.has, ⟨t, hExits⟩, hShows, hKnown⟩

/-- The fragment of a conversion from a tagged number. -/
theorem Good.unboxes_exactly (h : p.Good g)
    (hl : heap.layout = .ofWord 32 ∨ heap.layout = .ofWord 64) (hf : f.unboxes = true)
    (small : Bool) (hStart : p.Starts e t) (hLike : heap.Like H) (hx : p.Leaves e.value (H, v)) :
    p.Plans g (Lowering.fragment heap.layout f small e) fun r p' =>
      p'.Has r.value ∧ (∃ t, p'.Exits e r t) ∧ p'.Leaves r.value (changeOn f v H) := by
  -- A small integer takes one arm, a box the other one.
  cases hSmi : Heap.isSmi v with
  | true =>
    refine (h.unboxes_small hl f small hf hStart hx.value hSmi).mono ?_
    rintro r p' g' hGrown ⟨w, hOn, hShows, hExits, hTime⟩
    rw [changeOn_word hLike (fun _ => hSmi) hOn]
    refine ⟨hShows.has, ⟨t, hExits⟩, ?_, ?_⟩
    · rw [hTime]
      exact hShows
    · rw [hTime]
      exact hGrown.le.known hx.heap
  | false =>
    have hTag : ∀ s w, (Meaning.word v).Of s w → Heap.isSmi w = false := by
      rintro s w rfl
      exact hSmi
    have hRead : ∀ s w, heap.Like s.heap → (Meaning.word v).Of s w →
        (exactly arguments heap H : Knowledge (.exact arguments heap given)).Holds s →
        s.heap.memory (s.heap.toWord (s.heap.payload w)) = H.memory (H.toWord (H.payload v)) := by
      rintro s w - rfl hHeap
      have hHeap : s.heap = H := hHeap
      rw [hHeap]
    refine (h.unboxes_boxed hl f small hf hStart hx.value hTag hx.heap hRead).mono ?_
    rintro r p' g' - ⟨hShows, hExits, hTime, hKnown⟩
    rw [changeOn_box hf hSmi rfl]
    rw [← hTime] at hShows hKnown
    exact ⟨hShows.has, ⟨t, hExits⟩, hShows, hKnown⟩

end Plan
end ArmBackend.Machine
