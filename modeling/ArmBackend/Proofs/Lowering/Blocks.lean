import ArmBackend.Proofs.Lowering.Planning
import ArmBackend.Proofs.Lowering.Words

/-!
# Planning the parts of fragments

The diamond, the tag of a word, the payload of a small integer, the box and what reads it: what each
of them is planned to give. A part that stands on the path that is not taken is planned without
answers.
-/

namespace ArmBackend.Machine.Plan

open Lowering

variable {c : Setting} {p : Plan c} {g : Graph} {x : NodeId} {t : Nat} {v : BitVec 64}

/-! ## Control -/

/-- A diamond is entered on the side that the condition says. -/
theorem Good.diamond (h : p.Good g) {condition control : NodeId}
    (hCondition : p.Shows condition ⟨.word v, t⟩) (hControl : p.Enters control true) :
    p.Plans g (Lowering.diamond condition control) fun d p' =>
      p'.Has d.ifTrue ∧ p'.Has d.ifFalse ∧ p'.Enters d.merge true ∧
        p'.Joins d.merge (if v = 0 then 1 else 0) ∧ p'.time = p.time := by
  have hBranch := h.adds (n := .ofArity .branch [condition, control]) (by
    intro z hz
    obtain rfl | rfl : z = condition ∨ z = control := by simpa [Node.ofArity] using hz
    · exact hCondition.has
    · exact hControl.has)
  refine hBranch.bind ?_
  rintro branch p₁ g₁ h₁ ⟨hNode, hTime₁⟩
  -- both sides look at the condition in the same way
  have hSide : ∀ {p' g'}, p₁.Le p' → p'.Good g' → ∀ op, op = Operator.ifTrue ∨ op = .ifFalse →
      p'.Plans g' (Build.push (.ofArity op [branch])) fun id p'' =>
        p''.Enters id ((v != 0) == (op == .ifTrue)) ∧
          p''.HasNode id (.ofArity op [branch]) ∧ p''.time = p'.time := by
    intro p' g' hLe hGood op hOp
    refine hGood.reaches (by simpa [Node.ofArity] using (hNode.mono hLe).has) ?_
    exact .branch hOp rfl (hNode.mono hLe) rfl (hControl.mono (h₁.le.trans hLe))
      Int.one_pos rfl (hCondition.mono (h₁.le.trans hLe))
  refine (hSide (Le.refl _) h₁.good .ifTrue (.inl rfl)).bind ?_
  rintro ifTrue p₂ g₂ h₂ ⟨hTrue, -, hTime₂⟩
  refine (hSide h₂.le h₂.good .ifFalse (.inr rfl)).bind ?_
  rintro ifFalse p₃ g₃ h₃ ⟨hFalse, -, hTime₃⟩
  have hTrue₃ := hTrue.mono h₃.le
  have hFirst : p₃.FirstReached p₃.count [ifTrue, ifFalse] (if v = 0 then 1 else 0) := by
    by_cases hv : v = 0
    · rw [if_pos hv]
      subst hv
      exact .later hTrue₃ (.here hFalse)
    · rw [if_neg hv]
      have hNe : (v != 0) = true := bne_iff_ne.mpr hv
      rw [hNe] at hTrue₃
      exact .here hTrue₃
  have hMerge := h₃.good.reaches (n := .merge [ifTrue, ifFalse]) (by
    intro z hz
    obtain rfl | rfl : z = ifTrue ∨ z = ifFalse := by simpa [Node.merge] using hz
    · exact hTrue₃.has
    · exact hFalse.has) (.merge rfl hFirst)
  refine hMerge.bind ?_
  rintro merge p₄ g₄ h₄ ⟨hReached, hMergeNode, hTime₄⟩
  refine Plans.pure h₄.good ⟨(hTrue₃.mono h₄.le).has, (hFalse.mono h₄.le).has, hReached, ?_,
    by omega⟩
  exact ⟨_, hMergeNode, hFirst.mono h₄.le h₄.le.count⟩

/-! ## Words -/

/-- The tag bit of a word tells what kind of tagged value it is. -/
theorem Good.tagBit (h : p.Good g) (hl : c.heap.layout = .ofWord 32 ∨ c.heap.layout = .ofWord 64)
    {m : Meaning} {b : Bool} (hx : p.Shows x ⟨m, t⟩) (hTag : ∀ s v, m.Of s v → Heap.isSmi v = b) :
    p.Plans g (Lowering.tagBit c.heap.layout x) fun id p' =>
      p'.Shows id ⟨.word (if b then 0 else 1), t⟩ ∧ p'.time = p.time := by
  refine (h.int32 1).bind ?_
  rintro mask p₁ g₁ h₁ ⟨hMask, hTime₁⟩
  obtain ⟨f, hf, hAnd⟩ : ∃ f, (wordOp c.heap.layout (.word32 .and) (.word64 .and)).onWords? = some f ∧
      ∀ v, f v 1 = if Heap.isSmi v then 0 else 1 := by
    obtain hl | hl := hl <;> rw [hl]
    · exact ⟨_, rfl, setWidth_and_one⟩
    · exact ⟨_, rfl, and_one⟩
  refine (h₁.good.binary (if b then 0 else 1) hf (hx.mono h₁.le) hMask ?_).mono ?_
  · rintro s v w hv rfl
    have hOne : (BitVec.ofInt 32 1).setWidth 64 = (1 : BitVec 64) := by decide
    rw [hOne, hAnd, hTag s v hv]
  · rintro id p' g' - ⟨hShows, -, hTime⟩
    exact ⟨hShows, by omega⟩

/-- A word is tagged by a shift. -/
theorem Good.smiTag (h : p.Good g) (hl : c.heap.layout = .ofWord 32 ∨ c.heap.layout = .ofWord 64)
    (unsigned : Bool) (hx : p.Shows x ⟨.word v, t⟩) :
    p.Plans g (Lowering.smiTag c.heap.layout x unsigned) fun id p' =>
      p'.Shows id ⟨.word (c.heap.tag (if unsigned then ((v.setWidth 32).toNat : Int)
        else (v.setWidth 32).toInt)), t⟩ ∧ p'.time = p.time := by
  refine (h.int32 c.heap.layout.smiShift).bind ?_
  rintro shift p₁ g₁ h₁ ⟨hShift, hTime₁⟩
  -- hl := hl | In a small word the shift is the tag; in a large one the word is widened first.
  obtain hl | hl := hl
  · rw [if_pos (by rw [hl]; rfl)]
    refine (h₁.good.words rfl (hx.mono h₁.le) hShift).mono ?_
    rintro id p' g' - ⟨hShows, -, hTime⟩
    have hTag : c.heap.tag (if unsigned then ((v.setWidth 32).toNat : Int)
        else (v.setWidth 32).toInt) = (v.setWidth 32 <<< 1).setWidth 64 := by
      rw [Heap.tag_narrow hl]
      cases unsigned
      · rw [if_neg Bool.false_ne_true, BitVec.ofInt_toInt]
      · rw [if_pos rfl, ofInt_toNat]
    rw [hTag]
    rw [hl] at hShows
    exact ⟨hShows, by omega⟩
  · rw [if_neg (by rw [hl]; decide)]
    refine (h₁.good.converts (hx.mono h₁.le)).bind ?_
    rintro wide p₂ g₂ h₂ ⟨hWide, hTime₂⟩
    refine (h₂.good.words rfl hWide (hShift.mono h₂.le)).mono ?_
    rintro id p' g' - ⟨hShows, -, hTime⟩
    have hTag : c.heap.tag (if unsigned then ((v.setWidth 32).toNat : Int)
        else (v.setWidth 32).toInt) =
        (if unsigned then Conversion.uint32ToUint64 else .int32ToInt64).eval v <<< 32 := by
      rw [Heap.tag_wide hl]
      cases unsigned
      · rfl
      · simp only [if_true]
        congr 1
        apply BitVec.eq_of_toNat_eq
        have := (v.setWidth 32).isLt
        simp only [Conversion.eval, BitVec.toNat_ofInt, BitVec.toNat_setWidth] at *
        omega
    rw [hTag]
    rw [hl] at hShows
    exact ⟨hShows, by omega⟩

/-- The payload of a small integer is found by a shift. -/
theorem Good.smiUntag (h : p.Good g)
    (hl : c.heap.layout = .ofWord 32 ∨ c.heap.layout = .ofWord 64)
    (hx : p.Shows x ⟨.word v, t⟩) :
    p.Plans g (Lowering.smiUntag c.heap.layout x) fun id p' =>
      p'.Shows id ⟨.word ((BitVec.ofInt 32 (c.heap.untag v)).setWidth 64), t⟩ ∧
        p'.time = p.time := by
  refine (h.int32 c.heap.layout.smiShift).bind ?_
  rintro shift p₁ g₁ h₁ ⟨hShift, hTime₁⟩
  obtain hl | hl := hl
  · -- narrow: the shift is the number
    rw [if_pos (by rw [hl]; rfl)]
    refine (h₁.good.words rfl (hx.mono h₁.le) hShift).mono ?_
    rintro id p' g' - ⟨hShows, -, hTime⟩
    rw [Heap.untag_narrow hl, BitVec.ofInt_toInt]
    rw [hl] at hShows
    exact ⟨hShows, by omega⟩
  · -- wide: the number is the shifted word's low half
    rw [if_neg (by rw [hl]; decide)]
    refine (h₁.good.words rfl (hx.mono h₁.le) hShift).bind ?_
    rintro wide p₂ g₂ h₂ ⟨hWide, -, hTime₂⟩
    refine (h₂.good.converts hWide).mono ?_
    rintro id p' g' - ⟨hShows, hTime⟩
    rw [Heap.untag_wide hl, ← setWidth_toInt]
    rw [hl] at hShows
    exact ⟨hShows, by omega⟩

/-- The same when the word is a pointer, of which nothing is asked. -/
theorem Good.smiUntag_aside (h : p.Good g) {l : Layout} (hx : p.Has x) :
    p.Plans g (Lowering.smiUntag l x) fun id p' => p'.Has id ∧ p'.time = p.time := by
  refine (h.int32 l.smiShift).bind ?_
  rintro shift p₁ g₁ h₁ ⟨hShift, hTime₁⟩
  have hInputs : ∀ op, ∀ z ∈ (Node.ofArity op [x, shift]).inputs, p₁.Has z := by
    intro op z hz
    obtain rfl | rfl : z = x ∨ z = shift := by simpa [Node.ofArity] using hz
    · exact hx.mono h₁.le
    · exact hShift.has
  split
  · refine (h₁.good.adds (hInputs _)).mono ?_
    rintro id p' g' - ⟨hNode, hTime⟩
    exact ⟨hNode.has, by omega⟩
  · refine (h₁.good.adds (hInputs _)).bind ?_
    rintro wide p₂ g₂ h₂ ⟨hWide, hTime₂⟩
    refine (h₂.good.adds (by simpa [Node.ofArity] using hWide.has)).mono ?_
    rintro id p' g' - ⟨hNode, hTime⟩
    exact ⟨hNode.has, by omega⟩

/-! ## Boxes -/

/-- Reading a box is an event; the memory stays what it is. -/
theorem Good.unbox (h : p.Good g) {object control : NodeId} {m : Meaning} {d : BitVec 64}
    {K : Knowledge c} (hl : c.heap.layout = .ofWord 32 ∨ c.heap.layout = .ofWord 64)
    (hObject : p.Shows object ⟨m, p.time⟩) (hControl : p.Has control)
    (hKnown : p.known p.time = some K)
    (hRead : ∀ s v, c.heap.Like s.heap → m.Of s v → K.Holds s →
      s.heap.memory (s.heap.toWord (s.heap.payload v)) = d) :
    p.Plans g (Lowering.unbox c.heap.layout object control) fun id p' =>
      p'.Shows id ⟨.word d, p.time + 1⟩ ∧ p'.time = p.time + 1 ∧
        p'.known (p.time + 1) = some K := by
  refine (h.int32 c.heap.layout.heapNumberOffset).bind ?_
  rintro offset p₁ g₁ h₁ ⟨hOffset, hTime₁⟩
  refine (h₁.good.flows (n := .ofArity .controlEffect [control])
    (by simpa [Node.ofArity] using hControl.mono h₁.le) (.quiet (.inr (.inr rfl)))).bind ?_
  rintro effect p₂ g₂ h₂ ⟨hEffect, hTime₂⟩
  have hObject₂ := hObject.mono (h₁.le.trans h₂.le)
  have hOffset₂ := hOffset.mono h₂.le
  have hTime : p₂.time = p.time := by omega
  -- The load is an event behind the box, so it sees what is known of the heap there.
  refine (h₂.good.event (h₂.good.admits_event (.word d) none K h₂.good.fresh ?_ (.load rfl rfl rfl)
    ?_ ⟨rfl, ⟨effect, rfl, .inr hEffect⟩, [effect], rfl, by simpa using ⟨0, hEffect⟩⟩ (by simp)
    (.inr ⟨object, by simp, _, hObject₂, Nat.le_of_eq hTime⟩)
    (by rw [hTime]; exact (h₁.le.trans h₂.le).known hKnown) ?_)).mono ?_
  · intro z hz
    obtain rfl | rfl | rfl : z = object ∨ z = offset ∨ z = effect := by
      simpa [Node.load, Node.anchors] using hz
    · exact hObject₂.has
    · exact hOffset₂.has
    · exact hEffect.has
  · intro z hz
    obtain rfl | rfl : z = object ∨ z = offset := by simpa using hz
    · exact ⟨_, hObject₂⟩
    · exact ⟨_, hOffset₂⟩
  · -- The address is the payload of the box, with the offset of the number.
    intro s hs hNone hMeant hK
    have hOf := hMeant object _ (by simp) hObject₂
    have hIndex : s.value offset = BitVec.ofInt 64 c.heap.layout.heapNumberOffset := by
      rw [← Heap.setWidth_heapNumberOffset hl]
      exact hMeant offset _ (by simp) hOffset₂
    refine ⟨K.stable s _ hK (learn_recalls hNone) (c.harmless_refl _), ?_⟩
    show s.heap.memory (s.heap.toWord (s.value object + s.value offset)) = d
    rw [hIndex, ← hs.layout]
    exact hRead s _ hs hOf hK
  · rintro id p' g' - ⟨hShows, -, -, hTime', hKnown'⟩
    rw [hTime] at hShows hTime' hKnown'
    exact ⟨hShows, hTime', hKnown'⟩

/-- The same when nothing is asked of it. -/
theorem Good.unbox_aside (h : p.Good g) {l : Layout} {object control : NodeId}
    (hObject : p.Has object) (hControl : p.Has control) :
    p.Plans g (Lowering.unbox l object control) fun id p' => p'.Has id ∧ p'.time = p.time := by
  refine (h.int32 l.heapNumberOffset).bind ?_
  rintro offset p₁ g₁ h₁ ⟨hOffset, hTime₁⟩
  refine (h₁.good.adds (n := .ofArity .controlEffect [control])
    (by simpa [Node.ofArity] using hControl.mono h₁.le)).bind ?_
  rintro effect p₂ g₂ h₂ ⟨hEffect, hTime₂⟩
  refine (h₂.good.adds ?_).mono ?_
  · intro z hz
    obtain rfl | rfl | rfl : z = object ∨ z = offset ∨ z = effect := by
      simpa [Node.load, Node.anchors] using hz
    · exact hObject.mono (h₁.le.trans h₂.le)
    · exact hOffset.has.mono h₂.le
    · exact hEffect.has
  · rintro id p' g' - ⟨hNode, hTime⟩
    exact ⟨hNode.has, by omega⟩

theorem mem_call_inputs {target size effect control z : NodeId}
    (hz : z ∈ (Node.call target [size] effect control).inputs) :
    z = target ∨ z = size ∨ z = effect ∨ z = control := by
  simpa [Node.call] using hz

theorem mem_store_inputs {rep : Rep} {barrier : WriteBarrier}
    {base index value effect control z : NodeId}
    (hz : z ∈ (Node.store rep barrier base index value effect control).inputs) :
    z = base ∨ z = index ∨ z = value ∨ z = effect ∨ z = control := by
  unfold Node.store Node.anchors at hz
  split at hz <;> simp at hz <;> grind

/-- A box of which nothing is asked. -/
theorem Good.box_aside (h : p.Good g) {l : Layout} {value effect control : NodeId}
    (hValue : p.Has value) (hEffect : p.Has effect) (hControl : p.Has control) :
    p.Plans g (Lowering.box l value effect control) fun b p' =>
      p'.Has b.value ∧ p'.Has b.effect ∧ p'.time = p.time := by
  refine (h.adds (n := .external allocateHeapNumber) (by simp [Node.external])).bind ?_
  rintro target p₁ g₁ h₁ ⟨hTarget, hTime₁⟩
  refine (h₁.good.int32 l.heapNumberSize).bind ?_
  rintro size p₂ g₂ h₂ ⟨hSize, hTime₂⟩
  have hLe₂ := h₁.le.trans h₂.le
  -- Nothing is planned of the allocation, so its inputs need only be there.
  refine (h₂.good.adds (n := .call target [size] effect control) ?_).bind ?_
  · intro z hz
    obtain rfl | rfl | rfl | rfl := mem_call_inputs hz
    · exact hTarget.has.mono h₂.le
    · exact hSize.has
    · exact hEffect.mono hLe₂
    · exact hControl.mono hLe₂
  rintro object p₃ g₃ h₃ ⟨hObject, hTime₃⟩
  refine (h₃.good.int32 l.heapNumberOffset).bind ?_
  rintro offset p₄ g₄ h₄ ⟨hOffset, hTime₄⟩
  have hLe₄ := hLe₂.trans (h₃.le.trans h₄.le)
  refine (h₄.good.adds (n := .store .float64 .none object offset value object control) ?_).bind ?_
  · intro z hz
    obtain rfl | rfl | rfl | rfl | rfl := mem_store_inputs hz
    · exact hObject.has.mono h₄.le
    · exact hOffset.has
    · exact hValue.mono hLe₄
    · exact hObject.has.mono h₄.le
    · exact hControl.mono hLe₄
  rintro store p₅ g₅ h₅ ⟨hStore, hTime₅⟩
  refine (h₅.good.adds (n := .ofArity .finish [object, store]) ?_).bind ?_
  · intro z hz
    obtain rfl | rfl : z = object ∨ z = store := by simpa [Node.ofArity] using hz
    · exact hObject.has.mono (h₄.le.trans h₅.le)
    · exact hStore.has
  rintro finish p₆ g₆ h₆ ⟨hFinish, hTime₆⟩
  exact Plans.pure h₆.good ⟨hFinish.has, hFinish.has, by omega⟩

end ArmBackend.Machine.Plan
