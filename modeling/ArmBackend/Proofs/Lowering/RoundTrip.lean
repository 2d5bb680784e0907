import ArmBackend.Proofs.Conversions
import ArmBackend.Proofs.Lowering.Exact
import ArmBackend.Proofs.Lowering.Preserved

/-!
# There and back

A conversion to a tagged number and one back again. The heap is followed to the bit: the fragment of
the first conversion leaves the heap that the conversion leaves, with a box more when the number is
no small integer, and the fragment of the second reads it.

## Results

* `Heap.untag_tag` — a small integer holds the integer that was tagged.
* `Machine.run_lowered_pair` — the lowered graph of two conversions does what the conversions do.
* `lowering_round_trips` — integers and doubles come back, and what does not fit is boxed once.
-/

namespace ArmBackend

/-! ## Heaps -/

namespace Heap

variable {h : Heap}

/-- A small integer holds the integer that was tagged. -/
theorem untag_tag (hl : h.layout = .ofWord 32 ∨ h.layout = .ofWord 64) {x : Int}
    (hx : h.layout.isSmi x = true) : h.untag (h.tag x) = x := by
  unfold Layout.isSmi at hx
  -- shifting left loses nothing of 31 bits in 32, nor of 32 in 64
  obtain hl | hl := hl
  · rw [hl, show (Layout.ofWord 32).smiMin = -1073741824 by decide,
      show (Layout.ofWord 32).smiMax = 1073741823 by decide, decide_eq_true_eq] at hx
    have hShifted : (BitVec.ofInt 32 x <<< 1).toInt = x * 2 := by
      rw [BitVec.toInt_shiftLeft, BitVec.toNat_ofInt, Nat.shiftLeft_eq, Int.bmod_def]
      omega
    rw [untag_narrow hl, tag_narrow hl, setWidth_setWidth, BitVec.toInt_sshiftRight, hShifted,
      Int.shiftRight_eq_div_pow]
    omega
  · rw [hl, show (Layout.ofWord 64).smiMin = -2147483648 by decide,
      show (Layout.ofWord 64).smiMax = 2147483647 by decide, decide_eq_true_eq] at hx
    have hShifted : (BitVec.ofInt 64 x <<< 32).toInt = x * 4294967296 := by
      rw [BitVec.toInt_shiftLeft, BitVec.toNat_ofInt, Nat.shiftLeft_eq, Int.bmod_def]
      omega
    rw [untag_wide hl, tag_wide hl, BitVec.toInt_sshiftRight, hShifted, Int.shiftRight_eq_div_pow]
    omega

/-- A box holds the double that was put into it. -/
theorem number_box (hl : h.layout = .ofWord 32 ∨ h.layout = .ofWord 64) (d : Double) :
    isSmi (h.box d).2 = false ∧ (h.box d).1.number (h.box d).2 = d := by
  have hTag : isSmi (h.box d).2 = false :=
    isSmi_allocate hl (BitVec.ofInt 64 h.layout.heapNumberSize)
  refine ⟨hTag, ?_⟩
  unfold number
  rw [if_neg (by rw [hTag]; decide)]
  exact congrArg Double.mk (if_pos rfl)

end Heap

namespace Machine

variable {h : Heap} {v : BitVec 64} {x : Int} {small : Bool}

/-! ## There and back on a heap -/

/-- An integer as a tagged value of the heap, boxed unless it is to be small. -/
def integerOn (x : Int) (small : Bool) (h : Heap) : Heap × BitVec 64 :=
  if small then (h, h.tag x) else h.box (.ofInt x)

theorem number_integerOn (hl : h.layout = .ofWord 32 ∨ h.layout = .ofWord 64)
    (hSmall : small = true → h.layout.isSmi x = true) :
    Heap.isSmi (integerOn x small h).2 = small ∧
      (integerOn x small h).1.number (integerOn x small h).2 = .ofInt x ∧
      (small = true → (integerOn x small h).1.untag (integerOn x small h).2 = x) := by
  cases small with
  | true =>
    have hSmi : Heap.isSmi (h.tag x) = true := Heap.isSmi_tag hl x
    have hUntag : h.untag (h.tag x) = x := Heap.untag_tag hl (hSmall rfl)
    refine ⟨hSmi, ?_, fun _ => hUntag⟩
    show h.number (h.tag x) = _
    unfold Heap.number
    rw [if_pos hSmi, hUntag]
  | false =>
    obtain ⟨hSmi, hNumber⟩ := Heap.number_box hl (Double.ofInt x)
    exact ⟨hSmi, hNumber, nofun⟩

theorem allocs_integerOn :
    (integerOn x small h).1.allocs = h.allocs + if small then 0 else 1 := by
  cases small <;> rfl

/-- Back to a word, a tagged integer is cut to its low 32 bits. -/
theorem taggedToInt32_integerOn (hl : h.layout = .ofWord 32 ∨ h.layout = .ofWord 64)
    (hSmall : small = true → h.layout.isSmi x = true) (hx : x.natAbs < 2 ^ 53) :
    changeOn .taggedToInt32 (integerOn x small h).2 (integerOn x small h).1 =
      ((integerOn x small h).1, (BitVec.ofInt 32 x).setWidth 64) := by
  obtain ⟨hSmi, hNumber, hUntag⟩ := number_integerOn hl hSmall
  unfold changeOn
  cases small with
  | true => simp only [hSmi, hUntag rfl, if_true]
  | false => simp only [hSmi, hNumber, Bool.false_eq_true, if_false, Double.wrapInt32_ofInt hx]

/-- Back to a double, a tagged integer is the double nearest to it. -/
theorem taggedToFloat64_integerOn (hl : h.layout = .ofWord 32 ∨ h.layout = .ofWord 64)
    (hSmall : small = true → h.layout.isSmi x = true) :
    changeOn .taggedToFloat64 (integerOn x small h).2 (integerOn x small h).1 =
      ((integerOn x small h).1, (Double.ofInt x).bits) := by
  obtain ⟨-, hNumber, -⟩ := number_integerOn hl hSmall
  unfold changeOn
  rw [hNumber]

/-- Back from its box, a double is what it was. -/
theorem taggedToFloat64_float64 (hl : h.layout = .ofWord 32 ∨ h.layout = .ofWord 64) :
    changeOn .taggedToFloat64 (changeOn .float64ToTagged v h).2 (changeOn .float64ToTagged v h).1 =
      ((changeOn .float64ToTagged v h).1, v) := by
  have hNumber : (h.box ⟨v⟩).1.number (h.box ⟨v⟩).2 = ⟨v⟩ := (Heap.number_box hl ⟨v⟩).2
  show ((h.box ⟨v⟩).1, ((h.box ⟨v⟩).1.number (h.box ⟨v⟩).2).bits) = _
  rw [hNumber]
  rfl

/-! ## There and back in a lowered graph -/

open Plan

/-- The lowered graph of a conversion to a tagged number and one back does to the heap what the
conversions do, and gives what they give. -/
theorem run_lowered_pair {word : Int} {m : Machine} (hm : m.Ready word) {f₁ f₂ : Change}
    (h₁ : f₁.target = .tagged) (h₂ : f₂.unboxes = true) (anchored : Bool) (a : BitVec 64) :
    let lowered := Lowering.run (chain f₁.source anchored [f₁, f₂]) word
    let there := changeOn f₁ (argumentWord m.heap f₁.source.mach a) m.heap
    let back := changeOn f₂ there.2 there.1
    lowered.fault = none ∧ lowered.changed = 2 ∧
      m.run lowered.graph [a] = (.ok back.2, ⟨back.1⟩) := by
  intro lowered there back
  have hl := hm.layouts
  have hBoxes : f₁.unboxes = false ∧ f₁ ≠ .bitToBool := by
    cases f₁ <;> first | exact ⟨rfl, by decide⟩ | cases h₁
  obtain ⟨p₀, hGood, hBegins, hShows, hTime, hCount⟩ :=
    begins_argument (exactly [a] m.heap m.heap) (fun _ => rfl) f₁.source rfl
  have hPauses₀ := hGood.pauses_chain anchored [f₁, f₂] hBegins hShows.has hCount
  have hx₀ : p₀.Leaves 1 (m.heap, argumentWord m.heap f₁.source.mach a) := by
    constructor
    · rw [hTime]
      exact hShows
    · rw [hTime]
      exact hBegins.known
  -- there
  obtain ⟨e₁, hEntry₁, hValue₁, hAnchored₁, hStarts₁⟩ := hPauses₀.starts
  have hx₁ : p₀.Leaves e₁.value (m.heap, argumentWord m.heap f₁.source.mach a) := hValue₁ ▸ hx₀
  obtain ⟨p₁, g₁, r₁, hLower₁, hPauses₁, hThere⟩ :=
    hPauses₀.lowers hEntry₁ hValue₁ hAnchored₁ fun small hSmall =>
      hPauses₀.laid.good.boxes_exactly hl hm.trueObject hBoxes.1 small (hSmall _ _ hx₁.value)
        (fun h => absurd h hBoxes.2) (hStarts₁ 0 fun _ => hBegins.effect) hTime hx₁
  -- and back
  obtain ⟨e₂, hEntry₂, hValue₂, hAnchored₂, hStarts₂⟩ := hPauses₁.starts
  have hLike : m.heap.Like there.1 := changeOn_like f₁ _ m.heap
  obtain ⟨t, hEffect⟩ : ∃ t, anchored = true → p₁.Orders r₁.effect t := by
    cases anchored with
    | false => exact ⟨0, fun h => absurd h (by decide)⟩
    | true =>
      obtain ⟨t, ht⟩ := hPauses₁.effect rfl
      exact ⟨t, fun _ => ht⟩
  have hx₂ : p₁.Leaves e₂.value there := hValue₂ ▸ hThere
  obtain ⟨p₂, g₂, r₂, hLower₂, hPauses₂, hBack⟩ :=
    hPauses₁.lowers hEntry₂ hValue₂ hAnchored₂ fun small _ =>
      hPauses₁.laid.good.unboxes_exactly hl h₂ small (hStarts₂ t hEffect) hLike hx₂
  have hLowered : lowered = { graph := g₂, changed := 2 } := by
    have hRun := run_chain f₁.source anchored [f₁, f₂] hm.width
    rw [← hm.layout] at hRun
    show Lowering.run _ word = _
    rw [hRun]
    show Lowering.lowerNodes m.heap.layout (List.range' 2 4) _ 0 = _
    rw [List.range'_succ, Lowering.lowerNodes, hLower₁]
    show Lowering.lowerNodes m.heap.layout (List.range' 3 3) g₁ 1 = _
    rw [List.range'_succ, Lowering.lowerNodes, hLower₂]
    exact hPauses₂.laid.ends (fun _ h => by cases h) (fun _ h => by cases h) 2
  obtain ⟨v, k, s, hRun, hHolds, rfl, hLe⟩ := hPauses₂.returns rfl hBack.value
  -- the value has everything behind it, so the heap is the last that is known
  have hEnd : k = p₂.time := Nat.le_antisymm hHolds.le hLe
  have hHeap : s.heap = back.1 := by
    have hKnown := hBack.heap
    rw [← hEnd] at hKnown
    exact hHolds.known hKnown
  rw [hLowered, ← hHeap]
  exact ⟨rfl, rfl, hRun⟩

/-- What the lowered graph of a chain does: it gives a value and allocates so many boxes. -/
structure RunsLowered (m : Machine) (word : Int) (t : ValueType) (anchored : Bool)
    (fs : List Change) (a v : BitVec 64) (boxes : Nat) : Prop where
  lowers : (Lowering.run (chain t anchored fs) word).fault = none
  changed : (Lowering.run (chain t anchored fs) word).changed = fs.length
  gives : ∃ m', m.run (Lowering.run (chain t anchored fs) word).graph [a] = (.ok v, m') ∧
    m'.heap.allocs = m.heap.allocs + boxes

/-- A pair of conversions that ends where a number was put into the heap. -/
theorem Ready.runsLowered {word : Int} {m : Machine} (hm : m.Ready word) (f₁ f₂ : Change)
    (h₁ : f₁.target = .tagged) (h₂ : f₂.unboxes = true) (anchored : Bool) (a : BitVec 64)
    {there : Heap × BitVec 64} {u : BitVec 64} {boxes : Nat}
    (hThere : changeOn f₁ (argumentWord m.heap f₁.source.mach a) m.heap = there)
    (hBack : changeOn f₂ there.2 there.1 = (there.1, u))
    (hBoxes : there.1.allocs = m.heap.allocs + boxes) :
    m.RunsLowered word f₁.source anchored [f₁, f₂] a u boxes := by
  obtain ⟨hFault, hChanged, hRun⟩ := run_lowered_pair hm h₁ h₂ anchored a
  rw [hThere, hBack] at hRun
  exact ⟨hFault, hChanged, _, hRun, hBoxes⟩

end Machine

open Machine in
/-- Integers and doubles come back from a lowered conversion to a tagged number, for both word
widths, anchored or not. A box is allocated when the number is no small integer. -/
theorem lowering_round_trips {word : Int} {m : Machine} (hm : m.Ready word) (anchored : Bool)
    (a : BitVec 64) :
    let l := Layout.ofWord word
    let x := a.setWidth 32
    let boxes := if l.smiMin ≤ x.toInt ∧ x.toInt ≤ l.smiMax then 0 else 1
    m.RunsLowered word .int32 anchored [.int32ToTagged, .taggedToInt32] a (x.setWidth 64) boxes ∧
      m.RunsLowered word .uint32 anchored [.uint32ToTagged, .taggedToUint32] a (x.setWidth 64)
        (if (x.toNat : Int) ≤ l.smiMax then 0 else 1) ∧
      m.RunsLowered word .float64 anchored [.float64ToTagged, .taggedToFloat64] a a 1 ∧
      ∃ d : Double, d.toInt? = some x.toInt ∧ d = .ofInt x.toInt ∧
        m.RunsLowered word .int32 anchored [.int32ToTagged, .taggedToFloat64] a d.bits boxes := by
  intro l x boxes
  have hl := hm.layouts
  have hLayout : m.heap.layout = l := hm.layout
  have hUpper := BitVec.toInt_lt (x := x)
  have hLower := BitVec.le_toInt (x := x)
  -- Words of 32 bits are doubles without rounding.
  have hSigned : x.toInt.natAbs < 2 ^ 53 := by omega
  have hUnsigned : (x.toNat : Int).natAbs < 2 ^ 53 := by
    have := x.isLt
    omega
  have hx : (argumentWord m.heap .int32 a).setWidth 32 = x := setWidth_setWidth x
  -- Both trips that start from a signed word tag it alike.
  have hInt : changeOn .int32ToTagged (argumentWord m.heap .int32 a) m.heap =
      integerOn x.toInt (l.isSmi x.toInt) m.heap := by
    unfold changeOn integerOn
    rw [hx, hLayout]
  have hIsSmi : l.isSmi x.toInt = true → m.heap.layout.isSmi x.toInt = true := by
    rw [hLayout]
    exact id
  have hBoxes : (integerOn x.toInt (l.isSmi x.toInt) m.heap).1.allocs = m.heap.allocs + boxes := by
    rw [allocs_integerOn]
    unfold Layout.isSmi boxes
    simp only [decide_eq_true_eq]
  refine ⟨?_, ?_, ?_, .ofInt x.toInt, Double.toInt?_ofInt hSigned, rfl, ?_⟩
  · refine hm.runsLowered .int32ToTagged .taggedToInt32 rfl rfl anchored a hInt ?_ hBoxes
    rw [taggedToInt32_integerOn hl hIsSmi hSigned, BitVec.ofInt_toInt]
  · have hUint : changeOn .uint32ToTagged (argumentWord m.heap .uint32 a) m.heap =
        integerOn x.toNat (decide ((x.toNat : Int) ≤ l.smiMax)) m.heap := by
      unfold changeOn integerOn
      rw [show (argumentWord m.heap .uint32 a).setWidth 32 = x from setWidth_setWidth x, hLayout]
    refine hm.runsLowered .uint32ToTagged .taggedToUint32 rfl rfl anchored a hUint ?_ ?_
    · have hSmall : decide ((x.toNat : Int) ≤ l.smiMax) = true →
          m.heap.layout.isSmi x.toNat = true := by
        intro hLe
        have hMin : l.smiMin ≤ 0 := by
          obtain rfl | rfl := hm.width <;> decide
        rw [hLayout]
        unfold Layout.isSmi
        rw [decide_eq_true_eq] at hLe ⊢
        omega
      have hBack := taggedToInt32_integerOn hl hSmall hUnsigned
      rw [ofInt_toNat] at hBack
      exact hBack
    · rw [allocs_integerOn]
      simp only [decide_eq_true_eq]
  · exact hm.runsLowered .float64ToTagged .taggedToFloat64 rfl rfl anchored a rfl
      (taggedToFloat64_float64 hl) rfl
  · exact hm.runsLowered .int32ToTagged .taggedToFloat64 rfl rfl anchored a hInt
      (taggedToFloat64_integerOn hl hIsSmi) hBoxes

open Machine in
/-- The least positive integer that is no small integer on 32 bit words. -/
theorem lowering_round_trips_leastBoxed :
    let m : Machine := ⟨.new (.ofWord 32)⟩
    m.Ready 32 ∧
      m.RunsLowered 32 .int32 true [.int32ToTagged, .taggedToInt32] 0x40000000 0x40000000 1 ∧
      m.RunsLowered 32 .uint32 true [.uint32ToTagged, .taggedToUint32] 0x40000000 0x40000000 1 ∧
      m.RunsLowered 32 .float64 true [.float64ToTagged, .taggedToFloat64] 0x40000000 0x40000000 1 ∧
      m.RunsLowered 32 .int32 true [.int32ToTagged, .taggedToFloat64] 0x40000000
        (Double.ofInt 0x40000000).bits 1 := by
  have hm : Machine.Ready ⟨.new (.ofWord 32)⟩ 32 := ready_new rfl
  obtain ⟨hInt, hUint, hFloat, d, -, rfl, hWide⟩ := lowering_round_trips hm true 0x40000000
  exact ⟨hm, hInt, hUint, hFloat, hWide⟩

end ArmBackend
