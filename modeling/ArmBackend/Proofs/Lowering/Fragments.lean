import ArmBackend.Proofs.Lowering.Blocks

/-!
# Planning fragments

What each fragment is planned to give for a value that is planned. A `Datum` is what a change makes
of a word: a word, or a box with a double in it. How boxes are planned is left open: a `Boxing` is
any way to do so.

## Results

* `Boxing.fragment` — the fragment of a change from a word gives what the change gives.
* `Good.taggedToFloat64_boxed`, `Good.taggedToInt32_boxed` — the fragments that read a box.
-/

namespace ArmBackend

/-- A value apart from where it is kept: a word, or a double in a box. -/
inductive Datum
  | word (v : BitVec 64)
  | boxed (d : BitVec 64)
  deriving DecidableEq, Repr

/-- An integer as a tagged value. -/
def Datum.ofInteger (h : Heap) (x : Int) (small : Bool) : Datum :=
  if small then .word (h.tag x) else .boxed (Double.ofInt x).bits

/-- What a change makes of a word; a tagged word is taken for a small integer. -/
def Change.onWord (h : Heap) (v : BitVec 64) : Change → Datum
  | .bitToBool => .word (if v.setWidth 32 ≠ 0 then h.trueObject else h.falseObject)
  | .boolToBit => .word (truth (h.toWord v == h.trueObject))
  | .int32ToTagged =>
    .ofInteger h (v.setWidth 32).toInt (h.layout.isSmi (v.setWidth 32).toInt)
  | .uint32ToTagged =>
    .ofInteger h (v.setWidth 32).toNat (decide (((v.setWidth 32).toNat : Int) ≤ h.layout.smiMax))
  | .float64ToTagged => .boxed v
  | .taggedToInt32 | .taggedToUint32 => .word ((BitVec.ofInt 32 (h.untag v)).setWidth 64)
  | .taggedToFloat64 => .word (Double.ofInt (h.untag v)).bits

/-- What a change makes of a double in a box, for the changes that start from tagged numbers. -/
def Change.onBox (d : BitVec 64) : Change → BitVec 64
  | .taggedToInt32 | .taggedToUint32 => (Double.wrapInt32 ⟨d⟩).setWidth 64
  | _ => d

/-- Whether a change starts from tagged numbers. -/
def Change.unboxes : Change → Bool
  | .taggedToInt32 | .taggedToUint32 | .taggedToFloat64 => true
  | _ => false

namespace Machine

open Lowering

/-- A way to plan boxes. -/
structure Boxing (c : Setting) where
  /-- Whether a box can be planned for a value and behind an effect with the given stamps. -/
  Ready : Plan c → Nat → Nat → Prop
  /-- Whether a label is that of a box with a double. -/
  Boxed : Plan c → Label → BitVec 64 → Prop
  ready_mono : ∀ {p p' a t}, Plan.Le p p' → p'.time = p.time → Ready p a t → Ready p' a t
  boxed_mono : ∀ {p p' l d}, Plan.Le p p' → p'.time = p.time → Boxed p l d → Boxed p' l d
  plans : ∀ {p : Plan c} {g value effect control d a t}, p.Good g →
    p.Shows value ⟨.word d, a⟩ → p.Orders effect t → p.Has control → Ready p a t →
    p.Plans g (box c.heap.layout value effect control) fun b p' =>
      (∃ l, p'.Shows b.value l ∧ Boxed p' l d) ∧ p'.Orders b.effect p'.time

namespace Plan

variable {c : Setting} {p p' : Plan c} {g : Graph} {e : Lowering.Entry} {a t : Nat}
  {v : BitVec 64}

/-! ## Entry and exit -/

/-- What is planned where a fragment starts. -/
structure Starts (p : Plan c) (e : Lowering.Entry) (t : Nat) : Prop where
  control : p.Enters e.control true
  anchored : e.anchored = true → 0 ≤ e.effect ∧ p.Orders e.effect t
  floating : e.anchored = false → e.effect < 0

/-- What is planned where a fragment ends. -/
def Exits (p : Plan c) (e : Lowering.Entry) (r : Graph.Replacement) (t : Nat) : Prop :=
  e.anchored = true → p.Enters r.control true ∧ p.Orders r.effect t

theorem Starts.mono (h : p.Starts e t) (hLe : p.Le p') : p'.Starts e t :=
  ⟨h.control.mono hLe, fun ha => ⟨(h.anchored ha).1, (h.anchored ha).2.mono hLe⟩, h.floating⟩

theorem Starts.exits {r : Graph.Replacement} (h : p.Starts e t) (hControl : p.Enters r.control true)
    (hEffect : r.effect = e.effect) : p.Exits e r t := by
  intro ha
  rw [hEffect]
  exact ⟨hControl, (h.anchored ha).2⟩

theorem Starts.passes {r : Graph.Replacement} (h : p.Starts e t)
    (hControl : r.control = passControl e) (hEffect : r.effect = e.effect) : p.Exits e r t := by
  intro ha
  refine h.exits ?_ hEffect ha
  rw [hControl]
  unfold passControl
  rw [if_pos ha]
  exact h.control

/-- The stamp of the effect that an allocation depends on. -/
def allocationStamp (e : Lowering.Entry) (t : Nat) : Nat :=
  if e.anchored then t else 0

theorem Good.allocationEffect (h : p.Good g) (hStart : p.Starts e t) (hValue : p.Has e.value) :
    p.Plans g (Lowering.allocationEffect e) fun id p' =>
      p'.Orders id (allocationStamp e t) ∧ p'.time = p.time := by
  unfold Lowering.allocationEffect allocationStamp
  cases ha : e.anchored with
  | true =>
    obtain ⟨hNonneg, hOrders⟩ := hStart.anchored ha
    rw [if_pos hNonneg]
    exact Plans.pure h ⟨hOrders, rfl⟩
  | false =>
    rw [if_neg (Int.not_le.mpr (hStart.floating ha))]
    exact h.flows (by simpa [Node.ofArity] using hValue) (.quiet (.inr (.inl rfl)))

/-- The effect behind a merge of two paths, one of which left the effect as it was. -/
theorem Good.joinEffects (h : p.Good g) {merge x y : NodeId} {k : Nat} (hMerge : p.Joins merge k)
    (hk : k < 2) (hHas : e.anchored = true → p.Has x ∧ p.Has y ∧ p.Has merge)
    (hOrders : e.anchored = true → p.Orders (if k = 0 then x else y) t) :
    p.Plans g (Lowering.joinEffects e merge [x, y]) fun id p' =>
      (e.anchored = true → p'.Orders id t) ∧ p'.time = p.time := by
  unfold Lowering.joinEffects
  cases ha : e.anchored with
  | false => exact Plans.pure h ⟨fun hNo => Bool.noConfusion hNo, rfl⟩
  | true =>
    obtain ⟨hx, hy, hm⟩ := hHas ha
    have hOrders := hOrders ha
    rw [if_neg (by decide)]
    by_cases hAll : ([x, y].all fun z => decide (z = e.effect)) = true
    · -- both paths end in the effect they started from
      rw [if_pos hAll]
      obtain ⟨rfl, rfl⟩ : x = e.effect ∧ y = e.effect := by simpa using hAll
      rw [ite_self] at hOrders
      exact Plans.pure h ⟨fun _ => hOrders, rfl⟩
    · rw [if_neg hAll]
      have hTaken : (Node.effectPhi [x, y, merge]).input k = .ok (if k = 0 then x else y) := by
        obtain rfl | rfl : k = 0 ∨ k = 1 := by omega
        · rfl
        · rfl
      refine (h.flows (n := .effectPhi [x, y, merge]) ?_ (.join rfl rfl hMerge hTaken hOrders)).mono ?_
      · intro z hz
        obtain rfl | rfl | rfl : z = x ∨ z = y ∨ z = merge := by simpa [Node.effectPhi] using hz
        · exact hx
        · exact hy
        · exact hm
      · rintro id p' g' - ⟨hOrders, hTime⟩
        exact ⟨fun _ => hOrders, hTime⟩

/-! ## Fragments without memory -/

theorem Good.bitToBool (h : p.Good g) (hStart : p.Starts e t)
    (hx : p.Shows e.value ⟨.word v, a⟩) :
    p.Plans g (Lowering.bitToBool e) fun r p' =>
      p'.Shows r.value ⟨.word (if v = 0 then c.heap.falseObject else c.heap.trueObject), 0⟩ ∧
        p'.Exits e r t ∧ p'.time = p.time := by
  refine (h.diamond hx hStart.control).bind ?_
  rintro d p₁ g₁ h₁ ⟨-, -, hMerge, hJoins, hTime₁⟩
  refine h₁.good.trueConstant.bind ?_
  rintro yes p₂ g₂ h₂ ⟨hYes, hTime₂⟩
  refine h₂.good.falseConstant.bind ?_
  rintro no p₃ g₃ h₃ ⟨hNo, hTime₃⟩
  have hMerge₃ := hMerge.mono (h₂.le.trans h₃.le)
  refine (h₃.good.phi (l := ⟨.word (if v = 0 then c.heap.falseObject else c.heap.trueObject), 0⟩)
    ?_ (hJoins.mono (h₂.le.trans h₃.le)) (by split <;> decide) ?_).bind ?_
  · intro z hz
    obtain rfl | rfl | rfl : z = yes ∨ z = no ∨ z = d.merge := by simpa using hz
    · exact hYes.has.mono h₃.le
    · exact hNo.has
    · exact hMerge₃.has
  · -- The arm that is taken is told by the bit.
    by_cases hv : v = 0
    · simpa only [hv, if_true, if_neg Nat.one_ne_zero] using hNo
    · simpa only [hv, if_true, if_false] using hYes.mono h₃.le
  · rintro phi p₄ g₄ h₄ ⟨hPhi, hTime₄⟩
    have hLe := h₁.le.trans (h₂.le.trans (h₃.le.trans h₄.le))
    exact Plans.pure h₄.good
      ⟨hPhi, (hStart.mono hLe).exits (hMerge₃.mono h₄.le) rfl, by omega⟩

theorem Good.boolToBit (h : p.Good g)
    (hl : c.heap.layout = .ofWord 32 ∨ c.heap.layout = .ofWord 64)
    (hTrue : c.heap.toWord c.heap.trueObject = c.heap.trueObject) (hStart : p.Starts e t)
    (hx : p.Shows e.value ⟨.word v, a⟩) :
    p.Plans g (Lowering.boolToBit c.heap.layout e) fun r p' =>
      p'.Shows r.value ⟨.word (truth (c.heap.toWord v == c.heap.trueObject)), a⟩ ∧
        p'.Exits e r t ∧ p'.time = p.time := by
  refine h.trueConstant.bind ?_
  rintro yes p₁ g₁ h₁ ⟨hYes, hTime₁⟩
  obtain ⟨f, hf, hEqual⟩ : ∃ f,
      (wordOp c.heap.layout (.word32 .equal) (.word64 .equal)).onWords? = some f ∧
        f v c.heap.trueObject = truth (c.heap.toWord v == c.heap.trueObject) := by
    obtain hl | hl := hl
    · rw [hl]
      refine ⟨_, rfl, ?_⟩
      show (truth (v.setWidth 32 == c.heap.trueObject.setWidth 32) : BitVec 32).setWidth 64 = _
      rw [truth_setWidth]
      rw [Heap.toWord_narrow hl] at hTrue ⊢
      congr 1
      -- a word of 32 bits is told by its low half
      rw [Bool.eq_iff_iff, beq_iff_eq, beq_iff_eq]
      constructor
      · intro hSame
        rw [hSame]
        exact hTrue
      · intro hSame
        rw [← hSame, setWidth_setWidth]
    · rw [hl]
      refine ⟨_, rfl, ?_⟩
      rw [Heap.toWord_wide hl]
      rfl
  refine (h₁.good.words hf (hx.mono h₁.le) hYes).bind ?_
  rintro equal p₂ g₂ h₂ ⟨hShows, -, hTime₂⟩
  rw [hEqual] at hShows
  exact Plans.pure h₂.good
    ⟨hShows, (hStart.mono (h₁.le.trans h₂.le)).passes rfl rfl, by omega⟩

theorem Good.smallInt32ToTagged (h : p.Good g)
    (hl : c.heap.layout = .ofWord 32 ∨ c.heap.layout = .ofWord 64) (hStart : p.Starts e t)
    (hx : p.Shows e.value ⟨.word v, a⟩) :
    p.Plans g (Lowering.smallInt32ToTagged c.heap.layout e) fun r p' =>
      p'.Shows r.value ⟨.word (c.heap.tag (v.setWidth 32).toInt), a⟩ ∧
        p'.Exits e r t ∧ p'.time = p.time := by
  refine (h.smiTag hl false hx).bind ?_
  rintro smi p₁ g₁ h₁ ⟨hShows, hTime₁⟩
  exact Plans.pure h₁.good ⟨hShows, (hStart.mono h₁.le).passes rfl rfl, hTime₁⟩

/-! ## Fragments that unbox -/

/-- The fragment of a change from a tagged number, for a small integer. -/
theorem Good.unboxes_small (h : p.Good g)
    (hl : c.heap.layout = .ofWord 32 ∨ c.heap.layout = .ofWord 64) (f : Change) (small : Bool)
    (hf : f.unboxes = true) (hStart : p.Starts e t) (hx : p.Shows e.value ⟨.word v, a⟩)
    (hSmi : Heap.isSmi v = true) :
    p.Plans g (Lowering.fragment c.heap.layout f small e) fun r p' => ∃ w,
      f.onWord c.heap v = .word w ∧ p'.Shows r.value ⟨.word w, a⟩ ∧ p'.Exits e r t ∧
        p'.time = p.time := by
  have hTag : ∀ s w, (Meaning.word v).Of s w → Heap.isSmi w = true := by
    rintro s w rfl
    exact hSmi
  -- The two changes to words have one fragment, which takes the arm without a load.
  have hInt32 : p.Plans g (Lowering.taggedToInt32 c.heap.layout e) fun r p' =>
      p'.Shows r.value ⟨.word ((BitVec.ofInt 32 (c.heap.untag v)).setWidth 64), a⟩ ∧
        p'.Exits e r t ∧ p'.time = p.time := by
    refine (h.tagBit hl hx hTag).bind ?_
    rintro tag p₁ g₁ h₁ ⟨hBit, hTime₁⟩
    refine (h₁.good.diamond hBit (hStart.control.mono h₁.le)).bind ?_
    rintro d p₂ g₂ h₂ ⟨hIfTrue, -, hMerge, hJoins, hTime₂⟩
    have hLe₂ := h₁.le.trans h₂.le
    refine (h₂.good.unbox_aside (hx.mono hLe₂).has hIfTrue).bind ?_
    rintro loaded p₃ g₃ h₃ ⟨hLoaded, hTime₃⟩
    refine (h₃.good.adds (by simpa [Node.ofArity] using hLoaded)).bind ?_
    rintro number p₄ g₄ h₄ ⟨hNumber, hTime₄⟩
    have hLe₄ := hLe₂.trans (h₃.le.trans h₄.le)
    refine (h₄.good.smiUntag hl (hx.mono hLe₄)).bind ?_
    rintro smi p₅ g₅ h₅ ⟨hShows, hTime₅⟩
    have hFrom₂ := h₃.le.trans (h₄.le.trans h₅.le)
    refine (h₅.good.phi ?_ (hJoins.mono hFrom₂) (by decide) hShows).bind ?_
    · intro z hz
      obtain rfl | rfl | rfl : z = number ∨ z = smi ∨ z = d.merge := by simpa using hz
      · exact hNumber.has.mono h₅.le
      · exact hShows.has
      · exact (hMerge.mono hFrom₂).has
    rintro phi p₆ g₆ h₆ ⟨hPhi, hTime₆⟩
    exact Plans.pure h₆.good ⟨hPhi, (hStart.mono (hLe₄.trans (h₅.le.trans h₆.le))).exits
      (hMerge.mono (hFrom₂.trans h₆.le)) rfl, by omega⟩
  cases f with
  | bitToBool | boolToBit | int32ToTagged | uint32ToTagged | float64ToTagged => cases hf
  | taggedToInt32 | taggedToUint32 =>
    refine hInt32.mono ?_
    rintro r p' g' - ⟨hShows, hExits, hTime⟩
    exact ⟨_, rfl, hShows, hExits, hTime⟩
  -- The change to a double has the same diamond, but converts what it untags.
  | taggedToFloat64 =>
    refine (h.tagBit hl hx hTag).bind ?_
    rintro tag p₁ g₁ h₁ ⟨hBit, hTime₁⟩
    refine (h₁.good.diamond hBit (hStart.control.mono h₁.le)).bind ?_
    rintro d p₂ g₂ h₂ ⟨hIfTrue, -, hMerge, hJoins, hTime₂⟩
    have hLe₂ := h₁.le.trans h₂.le
    refine (h₂.good.unbox_aside (hx.mono hLe₂).has hIfTrue).bind ?_
    rintro loaded p₃ g₃ h₃ ⟨hLoaded, hTime₃⟩
    have hLe₃ := hLe₂.trans h₃.le
    refine (h₃.good.smiUntag hl (hx.mono hLe₃)).bind ?_
    rintro smi p₄ g₄ h₄ ⟨hUntag, hTime₄⟩
    refine (h₄.good.converts (f := .int32ToFloat64) hUntag).bind ?_
    rintro number p₅ g₅ h₅ ⟨hShows, hTime₅⟩
    have hFrom₂ := h₃.le.trans (h₄.le.trans h₅.le)
    refine (h₅.good.phi ?_ (hJoins.mono hFrom₂) (by decide) hShows).bind ?_
    · intro z hz
      obtain rfl | rfl | rfl : z = loaded ∨ z = number ∨ z = d.merge := by simpa using hz
      · exact hLoaded.mono (h₄.le.trans h₅.le)
      · exact hShows.has
      · exact (hMerge.mono hFrom₂).has
    rintro phi p₆ g₆ h₆ ⟨hPhi, hTime₆⟩
    have hNumber : (Double.ofInt (c.heap.untag v)).bits =
        Conversion.int32ToFloat64.eval ((BitVec.ofInt 32 (c.heap.untag v)).setWidth 64) := by
      unfold Conversion.eval
      rw [setWidth_setWidth, Heap.toInt_untag hl]
    refine Plans.pure h₆.good ⟨_, rfl, ?_, (hStart.mono (hLe₂.trans (hFrom₂.trans h₆.le))).exits
      (hMerge.mono (hFrom₂.trans h₆.le)) rfl, by omega⟩
    rw [hNumber]
    exact hPhi

/-- The fragment of a change from a tagged number, for a box whose double is known. -/
theorem Good.unboxes_boxed (h : p.Good g)
    (hl : c.heap.layout = .ofWord 32 ∨ c.heap.layout = .ofWord 64) (f : Change) (small : Bool)
    (hf : f.unboxes = true) (hStart : p.Starts e t) {m : Meaning} {K : Knowledge c}
    {d : BitVec 64} (hx : p.Shows e.value ⟨m, p.time⟩)
    (hTag : ∀ s v, m.Of s v → Heap.isSmi v = false) (hKnown : p.known p.time = some K)
    (hRead : ∀ s v, c.heap.Like s.heap → m.Of s v → K.Holds s →
      s.heap.memory (s.heap.toWord (s.heap.payload v)) = d) :
    p.Plans g (Lowering.fragment c.heap.layout f small e) fun r p' =>
      p'.Shows r.value ⟨.word (f.onBox d), p.time + 1⟩ ∧ p'.Exits e r t ∧
        p'.time = p.time + 1 ∧ p'.known (p.time + 1) = some K := by
  -- The two changes to words have one fragment, which takes the arm with the load.
  have hInt32 : p.Plans g (Lowering.taggedToInt32 c.heap.layout e) fun r p' =>
      p'.Shows r.value ⟨.word ((Double.wrapInt32 ⟨d⟩).setWidth 64), p.time + 1⟩ ∧
        p'.Exits e r t ∧ p'.time = p.time + 1 ∧ p'.known (p.time + 1) = some K := by
    refine (h.tagBit hl hx hTag).bind ?_
    rintro tag p₁ g₁ h₁ ⟨hBit, hTime₁⟩
    refine (h₁.good.diamond hBit (hStart.control.mono h₁.le)).bind ?_
    rintro fork p₂ g₂ h₂ ⟨hIfTrue, -, hMerge, hJoins, hTime₂⟩
    have hLe₂ := h₁.le.trans h₂.le
    have hx₂ := hx.mono hLe₂
    have hTime : p₂.time = p.time := by omega
    rw [← hTime] at hx₂ hKnown
    refine (h₂.good.unbox hl hx₂ hIfTrue (hLe₂.known hKnown) hRead).bind ?_
    rintro loaded p₃ g₃ h₃ ⟨hLoaded, hTime₃, hKnown₃⟩
    refine (h₃.good.converts (f := .truncateFloat64ToInt32) hLoaded).bind ?_
    rintro number p₄ g₄ h₄ ⟨hNumber, hTime₄⟩
    have hLe₄ := hLe₂.trans (h₃.le.trans h₄.le)
    refine (h₄.good.smiUntag_aside (hx.mono hLe₄).has).bind ?_
    rintro smi p₅ g₅ h₅ ⟨hSmi, hTime₅⟩
    have hFrom₂ := h₃.le.trans (h₄.le.trans h₅.le)
    refine (h₅.good.phi ?_ (hJoins.mono hFrom₂) (by decide) (hNumber.mono h₅.le)).bind ?_
    · intro z hz
      obtain rfl | rfl | rfl : z = number ∨ z = smi ∨ z = fork.merge := by simpa using hz
      · exact hNumber.has.mono h₅.le
      · exact hSmi
      · exact (hMerge.mono hFrom₂).has
    rintro phi p₆ g₆ h₆ ⟨hPhi, hTime₆⟩
    rw [hTime] at hPhi hKnown₃
    exact Plans.pure h₆.good ⟨hPhi, (hStart.mono (hLe₄.trans (h₅.le.trans h₆.le))).exits
      (hMerge.mono (hFrom₂.trans h₆.le)) rfl, by omega,
      (h₄.le.trans (h₅.le.trans h₆.le)).known hKnown₃⟩
  cases f with
  | bitToBool | boolToBit | int32ToTagged | uint32ToTagged | float64ToTagged => cases hf
  | taggedToInt32 | taggedToUint32 => exact hInt32
  | taggedToFloat64 =>
    refine (h.tagBit hl hx hTag).bind ?_
    rintro tag p₁ g₁ h₁ ⟨hBit, hTime₁⟩
    refine (h₁.good.diamond hBit (hStart.control.mono h₁.le)).bind ?_
    rintro fork p₂ g₂ h₂ ⟨hIfTrue, -, hMerge, hJoins, hTime₂⟩
    have hLe₂ := h₁.le.trans h₂.le
    have hx₂ := hx.mono hLe₂
    have hTime : p₂.time = p.time := by omega
    rw [← hTime] at hx₂ hKnown
    refine (h₂.good.unbox hl hx₂ hIfTrue (hLe₂.known hKnown) hRead).bind ?_
    rintro loaded p₃ g₃ h₃ ⟨hLoaded, hTime₃, hKnown₃⟩
    refine (h₃.good.smiUntag_aside (hx₂.mono h₃.le).has).bind ?_
    rintro smi p₄ g₄ h₄ ⟨hSmi, hTime₄⟩
    refine (h₄.good.adds (by simpa [Node.ofArity] using hSmi)).bind ?_
    rintro number p₅ g₅ h₅ ⟨hNumber, hTime₅⟩
    have hFrom₂ := h₃.le.trans (h₄.le.trans h₅.le)
    refine (h₅.good.phi ?_ (hJoins.mono hFrom₂) (by decide)
      (hLoaded.mono (h₄.le.trans h₅.le))).bind ?_
    · intro z hz
      obtain rfl | rfl | rfl : z = loaded ∨ z = number ∨ z = fork.merge := by simpa using hz
      · exact hLoaded.has.mono (h₄.le.trans h₅.le)
      · exact hNumber.has
      · exact (hMerge.mono hFrom₂).has
    rintro phi p₆ g₆ h₆ ⟨hPhi, hTime₆⟩
    rw [hTime] at hPhi hKnown₃
    exact Plans.pure h₆.good ⟨hPhi, (hStart.mono (hLe₂.trans (hFrom₂.trans h₆.le))).exits
      (hMerge.mono (hFrom₂.trans h₆.le)) rfl, by omega,
      (h₄.le.trans (h₅.le.trans h₆.le)).known hKnown₃⟩

end Plan

/-! ## Fragments that box -/

open Plan

variable {c : Setting} (B : Boxing c) {p p' : Plan c} {g : Graph} {e : Lowering.Entry}
  {a t : Nat} {v : BitVec 64}

/-- A datum is planned as the value of a node. A word leaves the memory alone. -/
def Boxing.Gives (p p' : Plan c) (a : Nat) (id : NodeId) : Datum → Prop
  | .word w => p'.Shows id ⟨.word w, a⟩ ∧ p'.time = p.time
  | .boxed d => ∃ l, p'.Shows id l ∧ B.Boxed p' l d

/-- What a fragment for a change from a word is planned to do. Behind effects that had everything
behind them, its own effect has everything behind it. -/
structure Boxing.Does (p p' : Plan c) (e : Lowering.Entry) (a t : Nat) (r : Graph.Replacement)
    (x : Datum) : Prop where
  gives : B.Gives p p' a r.value x
  exits : ∃ t', p'.Exits e r t' ∧ (t = p.time → t' = p'.time)

/-- A box that is asked for or not. -/
theorem Boxing.plansIf (need : Bool) (h : p.Good g) {value effect control : NodeId} {d : BitVec 64}
    (hValue : p.Shows value ⟨.word d, a⟩) (hEffect : p.Orders effect t) (hControl : p.Has control)
    (hReady : B.Ready p a t) :
    p.Plans g (box c.heap.layout value effect control) fun b p' =>
      p'.Has b.value ∧ p'.Has b.effect ∧
        (need = true → (∃ l, p'.Shows b.value l ∧ B.Boxed p' l d) ∧ p'.Orders b.effect p'.time) ∧
        (need = false → p'.time = p.time) := by
  cases need with
  | true =>
    refine (B.plans h hValue hEffect hControl hReady).mono ?_
    rintro b p' g' - ⟨⟨l, hShows, hBoxed⟩, hOrders⟩
    exact ⟨hShows.has, hOrders.has, fun _ => ⟨⟨l, hShows, hBoxed⟩, hOrders⟩,
      fun hNo => Bool.noConfusion hNo⟩
  | false =>
    refine (h.box_aside hValue.has hEffect.has hControl).mono ?_
    rintro b p' g' - ⟨hHas, hHas', hTime⟩
    exact ⟨hHas, hHas', fun hNo => Bool.noConfusion hNo, fun _ => hTime⟩

theorem Boxing.float64ToTagged (h : p.Good g) (hStart : p.Starts e t)
    (hx : p.Shows e.value ⟨.word v, a⟩) (hReady : B.Ready p a (allocationStamp e t)) :
    p.Plans g (Lowering.float64ToTagged c.heap.layout e) fun r p' =>
      B.Does p p' e a t r (.boxed v) := by
  refine (h.allocationEffect hStart hx.has).bind ?_
  rintro effect p₁ g₁ h₁ ⟨hEffect, hTime₁⟩
  refine (B.plans h₁.good (hx.mono h₁.le) hEffect (hStart.control.mono h₁.le).has
    (B.ready_mono h₁.le hTime₁ hReady)).bind ?_
  rintro boxed p₂ g₂ h₂ ⟨hBoxed, hOrders⟩
  refine Plans.pure h₂.good ⟨hBoxed, p₂.time, ?_, fun _ => rfl⟩
  intro ha
  -- an anchored change passes its control on and leaves the effect of the box
  refine ⟨?_, ?_⟩
  · show p₂.Enters (passControl e) true
    unfold passControl
    rw [if_pos ha]
    exact hStart.control.mono (h₁.le.trans h₂.le)
  · show p₂.Orders (if e.anchored then boxed.effect else e.effect) p₂.time
    rw [if_pos ha]
    exact hOrders

theorem Boxing.boxed_if_mono {need : Bool} {boxed effect : NodeId} {d : BitVec 64} (hLe : p.Le p')
    (hTime : p'.time = p.time)
    (h : need = true → (∃ l, p.Shows boxed l ∧ B.Boxed p l d) ∧ p.Orders effect p.time) :
    need = true → (∃ l, p'.Shows boxed l ∧ B.Boxed p' l d) ∧ p'.Orders effect p'.time := by
  intro hNeed
  obtain ⟨⟨l, hShows, hB⟩, hOrders⟩ := h hNeed
  rw [hTime]
  exact ⟨⟨l, hShows.mono hLe, B.boxed_mono hLe hTime hB⟩, hOrders.mono hLe⟩

/-- The end of a fragment with two paths, of which one boxes: the value and the effect are those of
the path that is taken. `first` tells whether the path that boxes is the first one. -/
theorem Boxing.joins (first need : Bool) (h : p'.Good g) {merge boxed boxedEffect smi : NodeId}
    {w d : BitVec 64} (hStart : p'.Starts e t) (hMerge : p'.Enters merge true)
    (hJoins : p'.Joins merge (if need = first then 0 else 1)) (hHas : p'.Has boxed)
    (hHasEffect : p'.Has boxedEffect)
    (hBoxed : need = true → (∃ l, p'.Shows boxed l ∧ B.Boxed p' l d) ∧
      p'.Orders boxedEffect p'.time)
    (hSmall : need = false → p'.time = p.time) (hSmi : p'.Shows smi ⟨.word w, a⟩) :
    p'.Plans g (do
        let phi ← Build.push (.phi .tagged [cond first boxed smi, cond first smi boxed, merge])
        let effect ← Lowering.joinEffects e merge
          [cond first boxedEffect e.effect, cond first e.effect boxedEffect]
        return { value := phi, effect, control := merge }) fun r p'' =>
      B.Does p p'' e a t r (if need then .boxed d else .word w) := by
  have hTwo : (if need = first then 0 else 1) < 2 := by split <;> decide
  -- what is taken of two things, one for each path
  have hTaken : ∀ u u' : NodeId, (if (if need = first then 0 else 1) = 0 then cond first u u'
      else cond first u' u) = if need then u else u' := by
    intro u u'
    cases need <;> cases first <;> rfl
  obtain ⟨l, hShows, hIsBox, hIsWord⟩ : ∃ l, p'.Shows (if need then boxed else smi) l ∧
      (need = true → B.Boxed p' l d) ∧ (need = false → l = ⟨.word w, a⟩) := by
    cases need with
    | true =>
      obtain ⟨l, hShows, hB⟩ := (hBoxed rfl).1
      exact ⟨l, hShows, fun _ => hB, fun hNo => Bool.noConfusion hNo⟩
    | false => exact ⟨_, hSmi, fun hNo => Bool.noConfusion hNo, fun _ => rfl⟩
  rw [← hTaken] at hShows
  refine (h.phi ?_ hJoins hTwo hShows).bind ?_
  · intro z hz
    have hz : z = boxed ∨ z = smi ∨ z = merge := by
      cases first <;> simp only [List.mem_cons, List.not_mem_nil, cond] at hz <;> grind
    obtain rfl | rfl | rfl := hz
    · exact hHas
    · exact hSmi.has
    · exact hMerge.has
  rintro phi p₁ g₁ h₁ ⟨hPhi, hTime₁⟩
  have hOrders : e.anchored = true →
      p₁.Orders (if (if need = first then 0 else 1) = 0 then cond first boxedEffect e.effect
        else cond first e.effect boxedEffect) (if need then p'.time else t) := by
    intro ha
    rw [hTaken]
    cases need with
    | true => exact (hBoxed rfl).2.mono h₁.le
    | false => exact (hStart.anchored ha).2.mono h₁.le
  have hEffectHas : e.anchored = true → p₁.Has (cond first boxedEffect e.effect) ∧
      p₁.Has (cond first e.effect boxedEffect) ∧ p₁.Has merge := by
    intro ha
    have hOld := ((hStart.anchored ha).2.mono h₁.le).has
    have hNew := hHasEffect.mono h₁.le
    cases first with
    | true => exact ⟨hNew, hOld, (hMerge.mono h₁.le).has⟩
    | false => exact ⟨hOld, hNew, (hMerge.mono h₁.le).has⟩
  refine (h₁.good.joinEffects (hJoins.mono h₁.le) hTwo hEffectHas hOrders).bind ?_
  rintro effect p₂ g₂ h₂ ⟨hEffect, hTime₂⟩
  refine Plans.pure h₂.good ⟨?_, if need then p'.time else t, ?_, ?_⟩
  · cases need with
    | true => exact ⟨l, hPhi.mono h₂.le, B.boxed_mono (h₁.le.trans h₂.le) (by omega) (hIsBox rfl)⟩
    | false =>
      have hWord := hPhi.mono h₂.le
      rw [hIsWord rfl] at hWord
      exact ⟨hWord, by have := hSmall rfl; omega⟩
  · intro ha
    exact ⟨hMerge.mono (h₁.le.trans h₂.le), hEffect ha⟩
  · intro ht
    cases need with
    | true =>
      show p'.time = p₂.time
      omega
    | false =>
      have := hSmall rfl
      show t = p₂.time
      omega

theorem Boxing.int32ToTagged (h : p.Good g) (hl : c.heap.layout = .ofWord 32)
    (hStart : p.Starts e t) (hx : p.Shows e.value ⟨.word v, a⟩)
    (hReady : B.Ready p a (allocationStamp e t)) :
    p.Plans g (Lowering.int32ToTagged c.heap.layout e) fun r p' =>
      B.Does p p' e a t r (Change.onWord c.heap v .int32ToTagged) := by
  -- the sum of the word with itself is the tag, and it overflows just when the word is no small
  -- integer
  refine (h.words rfl hx hx).bind ?_
  rintro double p₁ g₁ h₁ ⟨hDouble, hNode, hTime₁⟩
  refine (h₁.good.overflow (hx.mono h₁.le) hNode).bind ?_
  rintro overflow p₂ g₂ h₂ ⟨hOverflow, hTime₂⟩
  have hLe₂ := h₁.le.trans h₂.le
  refine (h₂.good.diamond hOverflow (hStart.control.mono hLe₂)).bind ?_
  rintro d p₃ g₃ h₃ ⟨hIfTrue, -, hMerge, hJoins, hTime₃⟩
  have hLe₃ := hLe₂.trans h₃.le
  refine (h₃.good.converts (f := .int32ToFloat64) (hx.mono hLe₃)).bind ?_
  rintro number p₄ g₄ h₄ ⟨hNumber, hTime₄⟩
  have hLe₄ := hLe₃.trans h₄.le
  refine (h₄.good.allocationEffect (hStart.mono hLe₄) (hx.mono hLe₄).has).bind ?_
  rintro effect p₅ g₅ h₅ ⟨hEffect, hTime₅⟩
  have hLe₅ := hLe₄.trans h₅.le
  refine (B.plansIf (doubleOverflows v) h₅.good (hNumber.mono h₅.le) hEffect
    (hIfTrue.mono (h₄.le.trans h₅.le)) (B.ready_mono hLe₅ (by omega) hReady)).bind ?_
  rintro boxed p₆ g₆ h₆ ⟨hHas, hHasEffect, hBoxed, hSmall⟩
  -- the tag is the sum's projection, planned after the box: what was planned before still stands
  have hFrom₁ := h₂.le.trans (h₃.le.trans (h₄.le.trans (h₅.le.trans h₆.le)))
  refine (h₆.good.sum (hDouble.mono hFrom₁) (hNode.mono hFrom₁)).bind ?_
  rintro smi p₇ g₇ h₇ ⟨hSmi, hTime₇⟩
  have hFrom₃ := h₄.le.trans (h₅.le.trans (h₆.le.trans h₇.le))
  have hTake : (if (truth (doubleOverflows v) : BitVec 64) = 0 then 1 else 0) =
      if doubleOverflows v = true then 0 else 1 := by
    cases doubleOverflows v <;> rfl
  rw [hTake] at hJoins
  have hBoxed₇ := B.boxed_if_mono h₇.le hTime₇ hBoxed
  have hSmall₇ : doubleOverflows v = false → p₇.time = p.time := by
    intro hNo
    have := hSmall hNo
    omega
  refine (B.joins true (doubleOverflows v) h₇.good
    (hStart.mono (hLe₅.trans (h₆.le.trans h₇.le))) (hMerge.mono hFrom₃) (hJoins.mono hFrom₃)
    (hHas.mono h₇.le) (hHasEffect.mono h₇.le) hBoxed₇ hSmall₇ hSmi).mono ?_
  intro r p' g' _ hDoes
  -- the branch asks for overflow where the heap asks for the range of small integers
  have hSmallIs : doubleOverflows v = !c.heap.layout.isSmi (v.setWidth 32).toInt := by
    rw [hl]
    exact Heap.isSmi_narrow (v.setWidth 32)
  rw [hSmallIs] at hDoes
  show B.Does p p' e a t r (Datum.ofInteger _ _ _)
  unfold Datum.ofInteger
  rw [Heap.tag_double hl]
  cases hs : c.heap.layout.isSmi (v.setWidth 32).toInt <;> rw [hs] at hDoes <;> exact hDoes

theorem Boxing.uint32ToTagged (h : p.Good g)
    (hl : c.heap.layout = .ofWord 32 ∨ c.heap.layout = .ofWord 64)
    (hStart : p.Starts e t) (hx : p.Shows e.value ⟨.word v, a⟩)
    (hReady : B.Ready p a (allocationStamp e t)) :
    p.Plans g (Lowering.uint32ToTagged c.heap.layout e) fun r p' =>
      B.Does p p' e a t r (Change.onWord c.heap v .uint32ToTagged) := by
  let isSmall : Bool := decide (((v.setWidth 32).toNat : Int) ≤ c.heap.layout.smiMax)
  refine (h.int32 c.heap.layout.smiMax).bind ?_
  rintro greatest p₁ g₁ h₁ ⟨hGreatest, hTime₁⟩
  refine (h₁.good.words rfl (hx.mono h₁.le) hGreatest).bind ?_
  rintro small p₂ g₂ h₂ ⟨hSmallShows, -, hTime₂⟩
  -- the comparison's word is the bit that decides: the bound is at most `2 ^ 31 - 1`, so reading it
  -- unsigned changes nothing
  have hCompare : ((Int32Op.unsignedLessThanOrEqual.eval (v.setWidth 32)
      (((BitVec.ofInt 32 c.heap.layout.smiMax).setWidth 64).setWidth 32)).setWidth 64 : BitVec 64) =
      truth isSmall := by
    rw [setWidth_setWidth]
    show (truth ((v.setWidth 32).ule (BitVec.ofInt 32 c.heap.layout.smiMax)) :
      BitVec 32).setWidth 64 = _
    rw [truth_setWidth, Heap.ule_smiMax hl]
  rw [hCompare] at hSmallShows
  have hLe₂ := h₁.le.trans h₂.le
  refine (h₂.good.diamond hSmallShows (hStart.control.mono hLe₂)).bind ?_
  rintro d p₃ g₃ h₃ ⟨-, hIfFalse, hMerge, hJoins, hTime₃⟩
  have hLe₃ := hLe₂.trans h₃.le
  refine (h₃.good.smiTag hl true (hx.mono hLe₃)).bind ?_
  rintro smi p₄ g₄ h₄ ⟨hSmi, hTime₄⟩
  have hLe₄ := hLe₃.trans h₄.le
  refine (h₄.good.converts (f := .uint32ToFloat64) (hx.mono hLe₄)).bind ?_
  rintro number p₅ g₅ h₅ ⟨hNumber, hTime₅⟩
  have hLe₅ := hLe₄.trans h₅.le
  refine (h₅.good.allocationEffect (hStart.mono hLe₅) (hx.mono hLe₅).has).bind ?_
  rintro effect p₆ g₆ h₆ ⟨hEffect, hTime₆⟩
  have hLe₆ := hLe₅.trans h₆.le
  have hFrom₃ := h₄.le.trans (h₅.le.trans h₆.le)
  refine (B.plansIf (!isSmall) h₆.good (hNumber.mono h₆.le) hEffect (hIfFalse.mono hFrom₃)
    (B.ready_mono hLe₆ (by omega) hReady)).bind ?_
  rintro boxed p₇ g₇ h₇ ⟨hHas, hHasEffect, hBoxed, hSmall⟩
  -- here the true branch is the small one, so it is the negated bit that boxes
  have hTake : (if (truth isSmall : BitVec 64) = 0 then 1 else 0) =
      if (!isSmall) = false then 0 else 1 := by
    cases isSmall <;> rfl
  rw [hTake] at hJoins
  have hSmall₇ : (!isSmall) = false → p₇.time = p.time := by
    intro hNo
    have := hSmall hNo
    omega
  refine (B.joins false (!isSmall) h₇.good (hStart.mono (hLe₆.trans h₇.le))
    (hMerge.mono (hFrom₃.trans h₇.le)) (hJoins.mono (hFrom₃.trans h₇.le)) hHas hHasEffect hBoxed
    hSmall₇ (hSmi.mono (h₅.le.trans (h₆.le.trans h₇.le)))).mono ?_
  intro r p' g' _ hDoes
  show B.Does p p' e a t r (Datum.ofInteger _ _ isSmall)
  unfold Datum.ofInteger
  cases hs : isSmall <;> rw [hs] at hDoes <;> exact hDoes

/-- The fragment of a change from a word gives what the change gives. The two booleans have nothing
behind them. -/
theorem Boxing.fragment (h : p.Good g)
    (hl : c.heap.layout = .ofWord 32 ∨ c.heap.layout = .ofWord 64)
    (hTrue : c.heap.toWord c.heap.trueObject = c.heap.trueObject) (f : Change) (small : Bool)
    (hf : f.unboxes = false)
    (hSmall : small = true → c.heap.layout.isSmi (v.setWidth 32).toInt = true)
    (hBit : f = .bitToBool → v.setWidth 32 = 0 → v = 0) (hStart : p.Starts e t)
    (hx : p.Shows e.value ⟨.word v, a⟩) (hReady : B.Ready p a (allocationStamp e t)) :
    p.Plans g (Lowering.fragment c.heap.layout f small e) fun r p' =>
      B.Does p p' e (if f = .bitToBool then 0 else a) t r (f.onWord c.heap v) := by
  cases f with
  | taggedToInt32 | taggedToUint32 | taggedToFloat64 => cases hf
  | bitToBool =>
    refine (h.bitToBool hStart hx).mono ?_
    rintro r p' g' - ⟨hShows, hExits, hTime⟩
    refine ⟨⟨?_, hTime⟩, t, hExits, fun ht => by omega⟩
    -- `hBit` is used here only: a bit whose low half is zero has to be zero
    by_cases hZero : v = 0
    · simpa [hZero] using hShows
    · have hLow : v.setWidth 32 ≠ 0 := fun hLow => hZero (hBit rfl hLow)
      simp only [if_neg hZero] at hShows
      simpa only [hLow, ne_eq, not_false_eq_true, if_true] using hShows
  | boolToBit =>
    refine (h.boolToBit hl hTrue hStart hx).mono ?_
    rintro r p' g' - ⟨hShows, hExits, hTime⟩
    exact ⟨⟨hShows, hTime⟩, t, hExits, fun ht => by omega⟩
  | float64ToTagged => exact B.float64ToTagged h hStart hx hReady
  | uint32ToTagged => exact B.uint32ToTagged h hl hStart hx hReady
  | int32ToTagged =>
    -- only a narrow word that is not known to be small takes the path through the branch
    by_cases hNarrow : c.heap.layout = .ofWord 32 ∧ small = false
    · obtain ⟨hNarrow, rfl⟩ := hNarrow
      have hIf : (c.heap.layout.word = 64 || false) = false := by
        rw [hNarrow]
        rfl
      show p.Plans g (if (c.heap.layout.word = 64 || false) = true then _ else _) _
      rw [hIf]
      exact B.int32ToTagged h hNarrow hStart hx hReady
    · have hIf : (c.heap.layout.word = 64 || small) = true := by
        obtain hl | hl := hl
        · cases small
          · exact absurd ⟨hl, rfl⟩ hNarrow
          · simp
        · rw [hl]
          rfl
      have hIs : c.heap.layout.isSmi (v.setWidth 32).toInt = true := by
        obtain hl | hl := hl
        · cases small
          · exact absurd ⟨hl, rfl⟩ hNarrow
          · exact hSmall rfl
        · rw [hl]
          exact Heap.isSmi_wide _
      show p.Plans g (if (c.heap.layout.word = 64 || small) = true then _ else _) _
      rw [if_pos hIf]
      refine (h.smallInt32ToTagged hl hStart hx).mono ?_
      rintro r p' g' - ⟨hShows, hExits, hTime⟩
      refine ⟨?_, t, hExits, fun ht => by omega⟩
      show B.Gives p p' a r.value (Datum.ofInteger _ _ _)
      rw [hIs]
      exact ⟨hShows, hTime⟩

end Machine
end ArmBackend
