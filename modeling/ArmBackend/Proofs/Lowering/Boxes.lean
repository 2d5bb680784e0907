import ArmBackend.Proofs.Lowering.Fragments

/-!
# Boxes wherever they are

A setting in which the memory counts but not where the next object goes, and how boxes are planned
in it: the store into the fresh object is the event, and afterwards the box is known to hold its
double. The allocation may happen at any time, also before the double is asked for.
-/

namespace ArmBackend

/-- Whether two heaps differ in their bookkeeping only. -/
structure Heap.SameMemory (h h' : Heap) : Prop where
  like : h.Like h'
  memory : h'.memory = h.memory

namespace Machine

open Plan

/-- The setting in which only the memory counts. -/
def Setting.loose (arguments : List (BitVec 64)) (heap : Heap) : Setting where
  arguments
  heap
  Harmless := Heap.SameMemory
  harmless_refl h := ⟨Heap.Like.refl h, rfl⟩
  harmless_like _ _ h := h.like

variable {arguments : List (BitVec 64)} {heap : Heap}

/-- The memory is what it was at the start. -/
def untouched (arguments : List (BitVec 64)) (heap : Heap) : Knowledge (.loose arguments heap) where
  Holds s := s.heap.memory = heap.memory
  stable _ _ h _ hHarmless := hHarmless.memory.trans h

/-- The word behind a pointer. -/
def State.content (s : State) (v : BitVec 64) : BitVec 64 :=
  s.heap.memory (s.heap.toWord (s.heap.payload v))

theorem content_of_sameMemory {s s' : State} (h : s.heap.SameMemory s'.heap) (v : BitVec 64) :
    s'.content v = s.content v := by
  unfold State.content
  rw [h.memory, h.like.payload, h.like.toWord]

/-- A box holds a double. -/
def filled (arguments : List (BitVec 64)) (heap : Heap) (m : Meaning) (d : BitVec 64) :
    Knowledge (.loose arguments heap) where
  Holds s := ∃ v, m.Of s v ∧ s.content v = d
  stable := by
    rintro s s' ⟨v, hv, rfl⟩ hRecalls hHarmless
    exact ⟨v, hv.mono hRecalls, content_of_sameMemory hHarmless v⟩

/-- A label of a box that is known to hold a double now. -/
structure Full (p : Plan (.loose arguments heap)) (l : Label) (d : BitVec 64) : Prop where
  now : l.stamp = p.time
  tagged : ∀ s v, l.meaning.Of s v → Heap.isSmi v = false
  known : ∃ K, p.known p.time = some K ∧
    ∀ s v, heap.Like s.heap → l.meaning.Of s v → K.Holds s → s.content v = d

theorem store_effectInputs {rep : Rep} {barrier : WriteBarrier}
    {base index value effect control : NodeId} :
    (Node.store rep barrier base index value effect control).effectInputs = .ok [effect] := by
  unfold Node.effectInputs Node.inputsBetween
  -- the fourth input is the effect, whatever anchors come behind it
  rw [if_pos]
  · rfl
  · refine ⟨show (0 : Int) ≤ 3 by decide, show (3 : Int) ≤ 3 + 1 by decide, ?_⟩
    show (4 : Int) ≤ (([base, index, value, effect] ++ Node.anchors control).length : Int)
    rw [List.length_append]
    show (4 : Int) ≤ ((4 + (Node.anchors control).length : Nat) : Int)
    omega

/-- A box is filled behind the value that goes into it. -/
theorem plans_box (hl : heap.layout = .ofWord 32 ∨ heap.layout = .ofWord 64)
    {p : Plan (.loose arguments heap)} {g : Graph} {value effect control : NodeId}
    {d : BitVec 64} {t : Nat} {K : Knowledge (.loose arguments heap)} (h : p.Good g)
    (hValue : p.Shows value ⟨.word d, p.time⟩) (hEffect : p.Orders effect t)
    (hControl : p.Has control) (hKnown : p.known p.time = some K) :
    p.Plans g (Lowering.box heap.layout value effect control) fun b p' =>
      (∃ l, p'.Shows b.value l ∧ Full p' l d) ∧ p'.Orders b.effect p'.time := by
  refine (h.adds (n := .external allocateHeapNumber) (by simp [Node.external])).bind ?_
  rintro target p₁ g₁ h₁ ⟨hTarget, hTime₁⟩
  refine (h₁.good.int32 heap.layout.heapNumberSize).bind ?_
  rintro size p₂ g₂ h₂ ⟨hSize, hTime₂⟩
  have hLe₂ := h₁.le.trans h₂.le
  have hEffect₂ := hEffect.mono hLe₂
  -- the pointer is only known as what the call gives
  let pointer : Meaning := .pointer g₂.size
  refine (h₂.good.still (h₂.good.admits_still (n := .call target [size] effect control)
    ⟨pointer, 0⟩ none h₂.good.fresh ?_
    (.call rfl rfl (hTarget.mono h₂.le) rfl rfl rfl) (by simpa using ⟨_, hSize⟩)
    ⟨rfl, ⟨effect, rfl, .inr hEffect₂⟩, [effect], rfl, by simpa using ⟨t, hEffect₂⟩⟩ (by simp)
    (.inl (Nat.zero_le _)) (Nat.zero_le _) ?_)).bind ?_
  · intro z hz
    obtain rfl | rfl | rfl | rfl := mem_call_inputs hz
    · exact hTarget.has.mono h₂.le
    · exact hSize.has
    · exact hEffect₂.has
    · exact hControl.mono hLe₂
  · intro s hs _ _
    refine ⟨⟨⟨rfl, rfl, rfl⟩, rfl⟩, learn_values, ?_⟩
    exact Heap.isSmi_allocate (by rw [hs.layout]; exact hl) _
  rintro object p₃ g₃ h₃ ⟨hObject, hOrders, -, hTime₃⟩
  refine (h₃.good.int32 heap.layout.heapNumberOffset).bind ?_
  rintro offset p₄ g₄ h₄ ⟨hOffset, hTime₄⟩
  have hLe₄ := hLe₂.trans (h₃.le.trans h₄.le)
  have hTime : p₄.time = p.time := by omega
  have hObject₄ := hObject.mono h₄.le
  have hOrders₄ := hOrders.mono h₄.le
  have hValue₄ := hValue.mono hLe₄
  refine (h₄.good.event (h₄.good.admits_event
    (n := .store .float64 .none object offset value object control) (.word 0) none
    (filled arguments heap pointer d) h₄.good.fresh ?_ (.store rfl rfl rfl rfl) ?_
    ⟨rfl, ⟨object, rfl, .inr hOrders₄⟩, [object], store_effectInputs,
      by simpa using ⟨0, hOrders₄⟩⟩ (by simp)
    (.inr ⟨value, by simp, _, hValue₄, Nat.le_of_eq hTime⟩)
    (by rw [hTime]; exact hLe₄.known hKnown) ?_)).bind ?_
  · intro z hz
    obtain rfl | rfl | rfl | rfl | rfl := mem_store_inputs hz
    · exact hObject₄.has
    · exact hOffset.has
    · exact hValue₄.has
    · exact hObject₄.has
    · exact hControl.mono hLe₄
  · intro z hz
    obtain rfl | rfl | rfl : z = object ∨ z = offset ∨ z = value := by simpa using hz
    · exact ⟨_, hObject₄⟩
    · exact ⟨_, hOffset⟩
    · exact ⟨_, hValue₄⟩
  · intro s hs hNone hMeant _
    refine ⟨⟨s.value object, (hMeant object _ (by simp) hObject₄).mono (learn_recalls hNone), ?_⟩,
      rfl⟩
    have hIndex : s.value offset = BitVec.ofInt 64 heap.layout.heapNumberOffset := by
      rw [← Heap.setWidth_heapNumberOffset hl]
      exact hMeant offset _ (by simp) hOffset
    have hPayload : s.heap.payload (s.value object) = s.value object + s.value offset := by
      rw [hIndex]
      unfold Heap.payload
      rw [hs.layout]
      rfl
    have hd : s.value value = d := hMeant value _ (by simp) hValue₄
    show (if s.heap.toWord (s.heap.payload (s.value object)) =
      s.heap.toWord (s.value object + s.value offset) then s.value value else _) = d
    rw [hPayload, if_pos rfl, hd]
  rintro store p₅ g₅ h₅ ⟨-, hOrders₅, -, hTime₅, hKnown₅⟩
  refine (h₅.good.finish (hObject₄.mono h₅.le) hOrders₅ (by omega)).bind ?_
  rintro finish p₆ g₆ h₆ ⟨hFinish, hOrders₆, hTime₆⟩
  have hNow : p₆.time = p₄.time + 1 := by omega
  refine Plans.pure h₆.good ⟨⟨_, hFinish, hNow.symm, fun s v hv => hv.2, ?_⟩, ?_⟩
  · refine ⟨filled arguments heap pointer d, ?_, ?_⟩
    · rw [hNow]
      exact h₆.le.known hKnown₅
    · rintro s v - hv ⟨w, hw, rfl⟩
      rw [hv.unique hw]
  · rw [hNow]
    exact hOrders₆

/-- Boxes are planned by what they are known to hold. -/
def looseBoxing (hl : heap.layout = .ofWord 32 ∨ heap.layout = .ofWord 64) :
    Boxing (.loose arguments heap) where
  Ready p a _ := a = p.time ∧ ∃ K, p.known p.time = some K
  Boxed p l d := Full p l d
  ready_mono := by
    rintro p p' a t hLe hTime ⟨rfl, K, hK⟩
    rw [hTime]
    exact ⟨rfl, K, hLe.known hK⟩
  boxed_mono := by
    rintro p p' l d hLe hTime ⟨hNow, hTagged, K, hK, hRead⟩
    refine ⟨hNow.trans hTime.symm, hTagged, K, ?_, hRead⟩
    rw [hTime]
    exact hLe.known hK
  plans := by
    rintro p g value effect control d a t h hValue hEffect hControl ⟨rfl, K, hK⟩
    exact plans_box hl h hValue hEffect hControl hK

end Machine
end ArmBackend
