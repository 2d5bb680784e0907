import ArmBackend.Proofs.Lowering.Boxes

/-!
# One change, twice

What a representation change makes of a typed datum, and two plans for it: one for the change node
itself and one for its fragment. Both give the same datum, wherever its box is.

## Results

* `changeOn_word`, `changeOn_fresh`, `changeOn_box` — what a change node does to the heap.
* `Plan.Good.change` — a change node gives what the change gives.
* `Plan.Good.fragment` — so does its fragment.
-/

namespace ArmBackend

/-! ## Types -/

/-- What the values between changes are. -/
inductive ValueType
  | bit
  | bool
  | int32
  | uint32
  | float64
  | tagged
  deriving DecidableEq, Repr

namespace ValueType

/-- The machine type of a parameter. -/
def mach : ValueType → MachineType
  | .bit => .bool
  | .bool | .tagged => .tagged
  | .int32 => .int32
  | .uint32 => .uint32
  | .float64 => .float64

/-- Whether a type is one of the two that stand for truth. -/
def isTruth : ValueType → Bool
  | .bit | .bool => true
  | _ => false

/-- Whether a datum is of a type. A bit is a word without an upper half, and only numbers are
boxed. -/
def Admits : ValueType → Datum → Prop
  | .tagged, .word v => Heap.isSmi v = true
  | .bit, .word v => v.setWidth 32 = 0 → v = 0
  | _, .word _ => True
  | t, .boxed _ => t = .tagged

/-- Only tagged values are boxed. -/
theorem Admits.tagged {t : ValueType} {d : BitVec 64} (h : t.Admits (.boxed d)) : t = .tagged := by
  cases t <;> exact h

end ValueType

namespace Change

/-- The type that a change starts from. -/
def source : Change → ValueType
  | .bitToBool => .bit
  | .boolToBit => .bool
  | .int32ToTagged => .int32
  | .uint32ToTagged => .uint32
  | .float64ToTagged => .float64
  | .taggedToInt32 | .taggedToUint32 | .taggedToFloat64 => .tagged

/-- The type that a change gives. -/
def target : Change → ValueType
  | .bitToBool => .bool
  | .boolToBit => .bit
  | .int32ToTagged | .uint32ToTagged | .float64ToTagged => .tagged
  | .taggedToInt32 => .int32
  | .taggedToUint32 => .uint32
  | .taggedToFloat64 => .float64

/-- What a change makes of a datum. -/
def on (h : Heap) (f : Change) : Datum → Datum
  | .word v => f.onWord h v
  | .boxed d => .word (f.onBox d)

variable {f : Change} {h : Heap} {x : Datum} {v w d : BitVec 64}

/-- The changes that unbox are those that start from a tagged value. -/
theorem unboxes_iff : f.unboxes = true ↔ f.source = .tagged := by
  cases f <;> decide

/-- Changes keep to their types. -/
theorem on_admits (hl : h.layout = .ofWord 32 ∨ h.layout = .ofWord 64) (hx : f.source.Admits x) :
    f.target.Admits (f.on h x) := by
  cases x with
  | boxed d =>
    have hTagged := hx.tagged
    cases f with
    | bitToBool | boolToBit | int32ToTagged | uint32ToTagged | float64ToTagged => cases hTagged
    | taggedToInt32 | taggedToUint32 | taggedToFloat64 => trivial
  | word v =>
    -- an integer is boxed or tagged, and either way it is a tagged value
    have hInteger : ∀ (x : Int) (small : Bool),
        ValueType.tagged.Admits (.ofInteger h x small) := by
      rintro x (_ | _)
      · rfl
      · exact Heap.isSmi_tag hl x
    cases f with
    | bitToBool | taggedToInt32 | taggedToUint32 | taggedToFloat64 => trivial
    | boolToBit =>
      -- a truth value whose low half is zero is zero
      show (truth _ : BitVec 64).setWidth 32 = 0 → truth _ = 0
      cases h.toWord v == h.trueObject <;> decide
    | int32ToTagged | uint32ToTagged => exact hInteger _ _
    | float64ToTagged => rfl

end Change

namespace Machine

/-! ## Machines -/

/-- A machine that graphs for a word width can be evaluated on: what a new one is, and what it stays
whatever is allocated. -/
structure Ready (m : Machine) (word : Int) : Prop where
  width : word = 32 ∨ word = 64
  layout : m.heap.layout = .ofWord word
  trueObject : m.heap.toWord m.heap.trueObject = m.heap.trueObject

/-- A new machine is ready. -/
theorem ready_new {m : Machine} {word : Int} (h : Machine.new word = .ok m) : m.Ready word := by
  unfold Machine.new isWordWidth at h
  split at h
  · rename_i hWidth
    cases h
    obtain rfl | rfl : word = 32 ∨ word = 64 := by simpa using hWidth
    · exact ⟨.inl rfl, rfl, by decide⟩
    · exact ⟨.inr rfl, rfl, by decide⟩
  · cases h

/-- A machine is ready after one more box. -/
theorem Ready.box {m : Machine} {word : Int} (h : m.Ready word) (x : Double) :
    Ready ⟨(m.heap.box x).1⟩ word :=
  ⟨h.width, h.layout, h.trueObject⟩

/-- There are two layouts. -/
theorem Ready.layouts {m : Machine} {word : Int} (h : m.Ready word) :
    m.heap.layout = .ofWord 32 ∨ m.heap.layout = .ofWord 64 := by
  obtain rfl | rfl := h.width
  · exact .inl h.layout
  · exact .inr h.layout

/-! ## What a change node does to the heap -/

variable {f : Change} {h h' : Heap} {v w d : BitVec 64}

/-- A change that gives a word leaves the heap. -/
theorem changeOn_word (hLike : h.Like h') (hSmi : f.unboxes = true → Heap.isSmi v = true)
    (hw : f.onWord h v = .word w) : changeOn f v h' = (h', w) := by
  obtain ⟨hLayout, hTrue, hFalse⟩ := hLike
  have hUntag : h'.untag v = h.untag v := by
    unfold Heap.untag
    rw [hLayout]
  -- A small integer is tagged without a look at the heap.
  have hInteger : ∀ (x : Int) (small : Bool), Datum.ofInteger h x small = .word w →
      (if small = true then (h', h'.tag x) else h'.box (.ofInt x)) = (h', w) := by
    intro x small hx
    cases small with
    | false => cases hx
    | true =>
      cases hx
      rw [if_pos rfl]
      unfold Heap.tag Heap.toWord
      rw [hLayout]
  cases f with
  | bitToBool =>
    cases hw
    unfold changeOn
    rw [hTrue, hFalse]
  | boolToBit =>
    cases hw
    unfold changeOn Heap.toWord
    rw [hTrue, hLayout]
  | int32ToTagged =>
    unfold changeOn
    rw [hLayout]
    exact hInteger _ _ hw
  | uint32ToTagged =>
    unfold changeOn
    rw [hLayout]
    exact hInteger _ _ hw
  | float64ToTagged => cases hw
  | taggedToInt32 | taggedToUint32 =>
    cases hw
    unfold changeOn
    simp only [if_pos (hSmi rfl), hUntag]
  | taggedToFloat64 =>
    cases hw
    unfold changeOn Heap.number
    simp only [if_pos (hSmi rfl), hUntag]

/-- A change that gives a box allocates it. -/
theorem changeOn_fresh (hLike : h.Like h') (hd : f.onWord h v = .boxed d) :
    changeOn f v h' = h'.box ⟨d⟩ := by
  have hLayout := hLike.layout
  -- an integer that was boxed in `h` is too large in every heap like it
  have hInteger : ∀ (x : Int) (small : Bool), Datum.ofInteger h x small = .boxed d →
      (if small = true then (h', h'.tag x) else h'.box (.ofInt x)) = h'.box ⟨d⟩ := by
    intro x small hx
    cases small with
    | true => cases hx
    | false =>
      cases hx
      rw [if_neg (by decide)]
  cases f with
  | bitToBool | boolToBit | taggedToInt32 | taggedToUint32 | taggedToFloat64 => cases hd
  | int32ToTagged | uint32ToTagged =>
    unfold changeOn
    rw [hLayout]
    exact hInteger _ _ hd
  | float64ToTagged =>
    cases hd
    rfl

/-- A change that opens a box leaves the heap. -/
theorem changeOn_box (hf : f.unboxes = true) (hSmi : Heap.isSmi v = false)
    (hd : h.memory (h.toWord (h.payload v)) = d) : changeOn f v h = (h, f.onBox d) := by
  have hNumber : h.number v = ⟨d⟩ := by
    unfold Heap.number
    rw [if_neg (by rw [hSmi]; decide)]
    exact congrArg Double.mk hd
  cases f with
  | bitToBool | boolToBit | int32ToTagged | uint32ToTagged | float64ToTagged => cases hf
  | taggedToInt32 | taggedToUint32 =>
    unfold changeOn
    simp only [hSmi, hNumber]
    rfl
  | taggedToFloat64 =>
    unfold changeOn
    rw [hNumber]
    rfl

/-! ## Plans -/

/-- A change takes its effect, if it has one. -/
theorem change_effectInputs {op : Operator} {x effect control : NodeId} :
    (Node.change op x effect control).effectInputs = .ok (Node.anchors effect) := by
  unfold Node.effectInputs Node.inputsBetween Node.change Node.anchors
  by_cases he : 0 ≤ effect <;> by_cases hc : 0 ≤ control <;> simp [he, hc]

/-- The effect of a change, or none. -/
theorem change_effectIn {op : Operator} {x effect control : NodeId} :
    (Node.change op x effect control).effectIn = .ok (if 0 ≤ effect then effect else -1) := by
  unfold Node.effectIn Node.change Node.anchors Node.input
  by_cases he : 0 ≤ effect <;> simp [he]

/-- An anchor is a node that is given. -/
theorem mem_anchors {x z : NodeId} : z ∈ Node.anchors x ↔ 0 ≤ x ∧ z = x := by
  unfold Node.anchors
  by_cases hx : 0 ≤ x <;> simp [hx]

/-- The inputs of a change are its operand and its anchors. -/
theorem mem_change_inputs {op : Operator} {x effect control z : NodeId}
    (hz : z ∈ (Node.change op x effect control).inputs) :
    z = x ∨ (0 ≤ effect ∧ z = effect) ∨ (0 ≤ control ∧ z = control) := by
  simpa [Node.change, mem_anchors] using hz

namespace Plan

variable {arguments : List (BitVec 64)} {heap : Heap} {p p' : Plan (.loose arguments heap)}
  {g : Graph} {id effect control : NodeId} {t : Nat} {x : Datum} {f : Change}

/-- A datum is planned as the value of a node, with all events behind it. -/
def Carries (p : Plan (.loose arguments heap)) (id : NodeId) : Datum → Prop
  | .word v => p.Shows id ⟨.word v, p.time⟩ ∧ ∃ K, p.known p.time = some K
  | .boxed d => ∃ l, p.Shows id l ∧ Full p l d

theorem Carries.shows (h : p.Carries id x) : ∃ l, p.Shows id l ∧ l.stamp = p.time := by
  cases x with
  | word v => exact ⟨_, h.1, rfl⟩
  | boxed d =>
    obtain ⟨l, hShows, hFull⟩ := h
    exact ⟨l, hShows, hFull.now⟩

/-- The fragment of a change gives what the change gives. -/
theorem Good.fragment {e : Lowering.Entry} (h : p.Good g)
    (hl : heap.layout = .ofWord 32 ∨ heap.layout = .ofWord 64)
    (hTrue : heap.toWord heap.trueObject = heap.trueObject) (small : Bool)
    (hx : f.source.Admits x) (hTruth : f.source.isTruth = true → p.time = 0)
    (hSmall : ∀ v, x = .word v → small = true → heap.layout.isSmi (v.setWidth 32).toInt = true)
    (hStart : p.Starts e t) (hCarries : p.Carries e.value x) :
    p.Plans g (Lowering.fragment heap.layout f small e) fun r p' =>
      p'.Carries r.value (f.on heap x) ∧ (∃ t', p'.Exits e r t') ∧
        (f.source.isTruth = true → p'.time = 0) := by
  cases hf : f.unboxes with
  | true =>
    have hTagged := Change.unboxes_iff.mp hf
    have hNot : f.source.isTruth ≠ true := by rw [hTagged]; decide
    cases x with
    | word v =>
      obtain ⟨hShows, K, hK⟩ := hCarries
      rw [hTagged] at hx
      refine (h.unboxes_small hl f small hf hStart hShows hx).mono ?_
      rintro r p' g' hGrown ⟨w, hw, hShows', hExits, hTime⟩
      refine ⟨?_, ⟨t, hExits⟩, fun hIs => absurd hIs hNot⟩
      change f.onWord heap v = .word w at hw
      show p'.Carries r.value (f.onWord heap v)
      rw [hw]
      refine ⟨?_, K, ?_⟩
      · rw [hTime]
        exact hShows'
      · rw [hTime]
        exact hGrown.le.known hK
    | boxed d =>
      obtain ⟨⟨m, a⟩, hShows, hNow, hTag, K, hK, hRead⟩ := hCarries
      obtain rfl : a = p.time := hNow
      refine (h.unboxes_boxed hl f small hf hStart hShows hTag hK hRead).mono ?_
      rintro r p' g' - ⟨hShows', hExits, hTime, hKnown⟩
      rw [← hTime] at hShows' hKnown
      exact ⟨⟨hShows', K, hKnown⟩, ⟨t, hExits⟩, fun hIs => absurd hIs hNot⟩
  | false =>
    have hNotTagged : f.source ≠ .tagged := by
      intro hTagged
      rw [Change.unboxes_iff.mpr hTagged] at hf
      cases hf
    cases x with
    | boxed d => exact absurd hx.tagged hNotTagged
    | word v =>
      obtain ⟨hShows, K, hK⟩ := hCarries
      have hBit : f = .bitToBool → v.setWidth 32 = 0 → v = 0 := by
        rintro rfl
        exact hx
      refine ((looseBoxing hl).fragment h hl hTrue f small hf (hSmall v rfl) hBit hStart hShows
        ⟨rfl, K, hK⟩).mono ?_
      rintro r p' g' hGrown ⟨hGives, t', hExits, -⟩
      have hStamp : (if f = .bitToBool then 0 else p.time) = p.time := by
        split
        · rename_i hf
          exact (hTruth (by rw [hf]; rfl)).symm
        · rfl
      rw [hStamp] at hGives
      change (looseBoxing hl).Gives p p' p.time r.value (f.onWord heap v) at hGives
      -- booleans stay words, so nothing happens between them
      have hTime : f.source.isTruth = true → p'.time = p.time := by
        intro hIs
        cases f with
        | bitToBool | boolToBit => exact hGives.2
        | _ => cases hIs
      refine ⟨?_, ⟨t', hExits⟩, fun hIs => (hTime hIs).trans (hTruth hIs)⟩
      show p'.Carries r.value (f.onWord heap v)
      cases hOn : f.onWord heap v with
      | word w =>
        rw [hOn] at hGives
        obtain ⟨hShows', hTime'⟩ := hGives
        refine ⟨?_, K, ?_⟩
        · rw [hTime']
          exact hShows'
        · rw [hTime']
          exact hGrown.le.known hK
      | boxed d =>
        rw [hOn] at hGives
        exact hGives

/-- What is planned of control at a node: it arrives at one that is in the control chain. -/
def arrival (control : NodeId) : Option Bool :=
  if 0 ≤ control then some true else none

/-- Where a change is anchored: in both chains or in none. -/
structure Anchors (p : Plan (.loose arguments heap)) (effect control : NodeId) : Prop where
  both : 0 ≤ effect ↔ 0 ≤ control
  effect : 0 ≤ effect → ∃ t, p.Orders effect t
  control : 0 ≤ control → p.Enters control true

theorem Anchors.ordered (h : p.Anchors effect control) :
    ∃ t, p.Ordered (.change (.change f) id effect control) t := by
  by_cases he : 0 ≤ effect
  · obtain ⟨t, ht⟩ := h.effect he
    refine ⟨t, rfl, ⟨effect, ?_, .inr ht⟩, [effect], ?_, by simpa using ⟨t, ht⟩⟩
    · rw [change_effectIn, if_pos he]
    · rw [change_effectInputs]
      unfold Node.anchors
      rw [if_pos he]
  · refine ⟨0, rfl, ⟨-1, ?_, .inl ⟨by decide, rfl⟩⟩, [], ?_, by simp⟩
    · rw [change_effectIn, if_neg he]
    · rw [change_effectInputs]
      unfold Node.anchors
      rw [if_neg he]

theorem Anchors.arrives (h : p.Anchors effect control) :
    ∀ b ∈ arrival control, p.Arrives p.count (.change (.change f) id effect control) b := by
  intro b hb
  unfold arrival at hb
  by_cases hc : 0 ≤ control
  · rw [if_pos hc] at hb
    cases hb
    refine .through rfl ?_ hc (h.control hc)
    unfold Node.controlIn Node.change Node.anchors Node.input
    simp [hc, h.both.mpr hc]
  · rw [if_neg hc] at hb
    cases hb

/-! ### A change node

A change node is planned by what its operand carries: it reads a box, or leaves the memory alone, or
allocates a box. Where it stands in the chains is the same for all of them. -/

theorem Anchors.closed (hAnchors : p.Anchors effect control) (hHas : p.Has id) :
    ∀ z ∈ (Node.change (.change f) id effect control).inputs, p.Has z := by
  intro z hz
  obtain rfl | ⟨he, rfl⟩ | ⟨hc, rfl⟩ := mem_change_inputs hz
  · exact hHas
  · obtain ⟨t, ht⟩ := hAnchors.effect he
    exact ht.has
  · exact (hAnchors.control hc).has

section

variable {l : Label} {before : Knowledge (.loose arguments heap)} (hGood : p.Good g)
  (hAnchors : p.Anchors effect control) (hShows : p.Shows id l) (hStamp : l.stamp = p.time)

include hGood hAnchors hShows hStamp

/-- A change may be planned as an event: what it asks about is planned already. -/
theorem Anchors.admits_event (m : Meaning) (after : Knowledge (.loose arguments heap))
    (hBefore : p.known p.time = some before)
    (hMeans : ∀ s : State, heap.Like s.heap → s.values g.size = none → p.Meant [id] s →
      before.Holds s →
      after.Holds (s.learn g.size (changeOn f (s.value id) s.heap)) ∧
        m.Of (s.learn g.size (changeOn f (s.value id) s.heap)) (changeOn f (s.value id) s.heap).2) :
    p.Admits g.size
      (p.eventEntry (.change (.change f) id effect control) m (arrival control)) (some after) := by
  obtain ⟨t, hOrdered⟩ : ∃ t, p.Ordered (.change (.change f) id effect control) t :=
    hAnchors.ordered
  exact hGood.admits_event m (arrival control) after hGood.fresh (hAnchors.closed hShows.has)
    (.change rfl rfl) (by simpa using ⟨l, hShows⟩) hOrdered hAnchors.arrives
    (.inr ⟨id, by simp, l, hShows, Nat.le_of_eq hStamp.symm⟩) hBefore hMeans

/-- A change that leaves the memory alone may be planned without an event. -/
theorem Anchors.admits_still (m : Meaning)
    (hMeans : ∀ s : State, heap.Like s.heap → s.values g.size = none → p.Meant [id] s →
      (Setting.loose arguments heap).Harmless s.heap (changeOn f (s.value id) s.heap).1 ∧
        m.Of (s.learn g.size (changeOn f (s.value id) s.heap)) (changeOn f (s.value id) s.heap).2) :
    p.Admits g.size
      (stillEntry (.change (.change f) id effect control) ⟨m, p.time⟩ (arrival control)) none := by
  obtain ⟨t, hOrdered⟩ : ∃ t, p.Ordered (.change (.change f) id effect control) t :=
    hAnchors.ordered
  exact hGood.admits_still ⟨m, p.time⟩ (arrival control) hGood.fresh (hAnchors.closed hShows.has)
    (.change rfl rfl) (by simpa using ⟨l, hShows⟩) hOrdered hAnchors.arrives
    (.inr ⟨id, by simp, l, hShows, Nat.le_of_eq hStamp.symm⟩) (Nat.le_refl _) hMeans

end

/-- Where a change is planned in the control chain it is planned in the effect chain too. -/
theorem enters_of_arrival {r : NodeId} (hEnters : ∀ b ∈ arrival control, p'.Enters r b)
    (hOrders : p'.Orders r t) (hc : 0 ≤ control) : p'.Enters r true ∧ ∃ t, p'.Orders r t :=
  ⟨hEnters true (by simp [arrival, hc]), t, hOrders⟩

/-- What a change node gives, in the plan that it is added to. -/
def Delivers (p' : Plan (.loose arguments heap)) (f : Change) (control r : NodeId) (x : Datum) :
    Prop :=
  p'.Carries r x ∧ (0 ≤ control → p'.Enters r true ∧ ∃ t, p'.Orders r t) ∧
    (f.source.isTruth = true → p'.time = 0)

/-- The change of a box reads the box. -/
theorem Good.change_reads {d : BitVec 64} (h : p.Good g) (hx : f.source.Admits (.boxed d))
    (hAnchors : p.Anchors effect control) (hCarries : p.Carries id (.boxed d)) :
    p.Plans g (Build.push (.change (.change f) id effect control)) fun r p' =>
      p'.Delivers f control r (.word (f.onBox d)) := by
  obtain ⟨⟨m, a⟩, hShows, hNow, hTag, K, hK, hRead⟩ := hCarries
  have hTagged := hx.tagged
  refine (h.event (hAnchors.admits_event h hShows hNow (.word (f.onBox d)) K hK ?_)).mono ?_
  · intro s hs hNone hMeant hHolds
    have hOf := hMeant id _ (by simp) hShows
    -- the number is read from the box, and the heap stays as it is
    have hDoes : changeOn f (s.value id) s.heap = (s.heap, f.onBox d) :=
      changeOn_box (Change.unboxes_iff.mpr hTagged) (hTag s _ hOf) (hRead s _ hs hOf hHolds)
    rw [hDoes]
    exact ⟨K.stable s _ hHolds (learn_recalls hNone) (Setting.harmless_refl _ _), rfl⟩
  · rintro r p' g' - ⟨hShows', hOrders, hEnters, hTime, hKnown⟩
    rw [← hTime] at hShows' hKnown
    refine ⟨⟨hShows', K, hKnown⟩, enters_of_arrival hEnters hOrders, fun hIs => ?_⟩
    rw [hTagged] at hIs
    cases hIs

/-- The change of a word to a word leaves the memory alone. -/
theorem Good.change_stays {v w : BitVec 64} (h : p.Good g) (hx : f.source.Admits (.word v))
    (hTruth : f.source.isTruth = true → p.time = 0) (hAnchors : p.Anchors effect control)
    (hCarries : p.Carries id (.word v)) (hOn : f.onWord heap v = .word w) :
    p.Plans g (Build.push (.change (.change f) id effect control)) fun r p' =>
      p'.Delivers f control r (.word w) := by
  obtain ⟨hShows, K, hK⟩ := hCarries
  -- unboxing leaves the heap alone when the value is a small integer
  have hSmi : f.unboxes = true → Heap.isSmi v = true := by
    intro hf
    rw [Change.unboxes_iff.mp hf] at hx
    exact hx
  refine (h.still (hAnchors.admits_still h hShows rfl (.word w) ?_)).mono ?_
  · intro s hs hNone hMeant
    have hValue : s.value id = v := hMeant id _ (by simp) hShows
    have hDoes : changeOn f (s.value id) s.heap = (s.heap, w) := by
      rw [hValue]
      exact changeOn_word hs hSmi hOn
    rw [hDoes]
    exact ⟨Setting.harmless_refl _ _, rfl⟩
  · rintro r p' g' hGrown ⟨hShows', hOrders, hEnters, hTime⟩
    rw [← hTime] at hShows'
    have hKnown : p'.known p'.time = some K := by
      rw [hTime]
      exact hGrown.le.known hK
    exact ⟨⟨hShows', K, hKnown⟩, enters_of_arrival hEnters hOrders,
      fun hIs => hTime.trans (hTruth hIs)⟩

/-- The change of a word to a number in a box allocates the box and fills it at once. -/
theorem Good.change_boxes {v d : BitVec 64} (h : p.Good g)
    (hl : heap.layout = .ofWord 32 ∨ heap.layout = .ofWord 64)
    (hAnchors : p.Anchors effect control) (hCarries : p.Carries id (.word v))
    (hOn : f.onWord heap v = .boxed d) :
    p.Plans g (Build.push (.change (.change f) id effect control)) fun r p' =>
      p'.Delivers f control r (.boxed d) := by
  obtain ⟨hShows, K, hK⟩ := hCarries
  refine (h.event (hAnchors.admits_event h hShows rfl (.pointer g.size)
    (filled arguments heap (.pointer g.size) d) hK ?_)).mono ?_
  · intro s hs hNone hMeant _
    have hValue : s.value id = v := hMeant id _ (by simp) hShows
    have hDoes : changeOn f (s.value id) s.heap = s.heap.box ⟨d⟩ := by
      rw [hValue]
      exact changeOn_fresh hs hOn
    rw [hDoes]
    have hOf : (Meaning.pointer g.size).Of (s.learn g.size (s.heap.box ⟨d⟩))
        (s.heap.box ⟨d⟩).2 :=
      ⟨learn_values, Heap.isSmi_allocate (by rw [hs.layout]; exact hl)
        (BitVec.ofInt 64 s.heap.layout.heapNumberSize)⟩
    exact ⟨⟨_, hOf, if_pos rfl⟩, hOf⟩
  · rintro r p' g' - ⟨hShows', hOrders, hEnters, hTime, hKnown⟩
    rw [← hTime] at hShows' hKnown
    refine ⟨⟨_, hShows', rfl, fun s v hv => hv.2, _, hKnown, ?_⟩,
      enters_of_arrival hEnters hOrders, fun hIs => ?_⟩
    · rintro s v - hv ⟨w, hw, rfl⟩
      rw [hv.unique hw]
    · -- Truth is never boxed.
      cases f with
      | bitToBool | boolToBit => cases hOn
      | _ => cases hIs

/-- A change node gives what the change gives. -/
theorem Good.change (h : p.Good g) (hl : heap.layout = .ofWord 32 ∨ heap.layout = .ofWord 64)
    (hx : f.source.Admits x) (hTruth : f.source.isTruth = true → p.time = 0)
    (hAnchors : p.Anchors effect control) (hCarries : p.Carries id x) :
    p.Plans g (Build.push (.change (.change f) id effect control)) fun r p' =>
      p'.Carries r (f.on heap x) ∧
        (0 ≤ control → p'.Enters r true ∧ ∃ t, p'.Orders r t) ∧
        (f.source.isTruth = true → p'.time = 0) := by
  cases x with
  | boxed d => exact h.change_reads hx hAnchors hCarries
  | word v =>
    show p.Plans g _ fun r p' => p'.Delivers f control r (f.onWord heap v)
    cases hOn : f.onWord heap v with
    | word w => exact h.change_stays hx hTruth hAnchors hCarries hOn
    | boxed d => exact h.change_boxes hl hAnchors hCarries hOn

end Plan
end Machine
end ArmBackend
