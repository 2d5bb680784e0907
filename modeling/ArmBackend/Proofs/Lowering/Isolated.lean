import ArmBackend.Proofs.Lowering.Ahead
import ArmBackend.Proofs.Lowering.Chains
import ArmBackend.Proofs.Lowering.Exact
import ArmBackend.Proofs.Lowering.Round
import ArmBackend.Proofs.Outcome
import Mathlib.Algebra.Group.Nat.Defs

/-!
# A fragment in the middle of an evaluation

The fragment of a change computes what the change computes, from any heap and whatever is remembered
of the nodes around it. Its operand may still have to be evaluated, and that may work on the heap:
all fragments but one begin with it. The fragment that boxes a double allocates the box first, so
the double must not take an allocation.

## Results

* `Plan.Good.resumes` — a plan that starts from what is remembered is answered.
* `reduce_computes` — the fragment of a change gives what the change gives and leaves the same heap.
-/

namespace ArmBackend

namespace Lowering

/-- What a change hangs on where its fragment starts. -/
theorem of_entry {g : Graph} {i : NodeId} {e : Entry} (h : entry g i = .ok e) :
    ∃ n, g.node i = .ok n ∧ n.input 0 = .ok e.value ∧ n.effectIn = .ok e.effect ∧
      (e.anchored = true → 0 ≤ e.effect) ∧ (e.anchored = false → e.effect < 0) := by
  unfold entry at h
  obtain ⟨n, hn, h⟩ := bind_eq_ok.mp h
  obtain ⟨-, h⟩ := check_eq_ok.mp h
  obtain ⟨x, hx, h⟩ := bind_eq_ok.mp h
  obtain ⟨y, hy, h⟩ := bind_eq_ok.mp h
  obtain ⟨z, hz, h⟩ := bind_eq_ok.mp h
  obtain ⟨hHalf, h⟩ := check_eq_ok.mp h
  obtain rfl := pure_eq_ok.mp h
  have hBoth : y < 0 ↔ z < 0 := by simpa using hHalf
  refine ⟨n, hn, hx, hy, fun hAnchored => ?_, fun hFree => ?_⟩
  · have hz : 0 ≤ z := of_decide_eq_true hAnchored
    exact Int.not_lt.mp fun hy => Int.not_lt.mpr hz (hBoth.mp hy)
  · have hz : ¬0 ≤ z := of_decide_eq_false hFree
    exact hBoth.mpr (Int.not_le.mp hz)

end Lowering

namespace Machine

open Lowering (Behind behind_new)

/-- Whether a control node is known to be reached: it is remembered, or it is the start. -/
def State.Arrived (s : State) (g : Graph) (control : NodeId) : Prop :=
  s.reached control = some true ∨
    s.reached control = none ∧ ∃ n, g.node? control = some n ∧ n.op = .start

/-- What holds when the value of a change is asked for: nothing is remembered of the change nor of
nodes that are not there, its control is reached and its effects have run. -/
structure State.Awaits (s : State) (g : Graph) (c : NodeId) (f : Change) (e : Lowering.Entry) :
    Prop where
  op : g.op c = .ok (.change f)
  entry : Lowering.entry g c = .ok e
  value : g.Knows e.value
  known : g.Knows e.control ∧ (e.anchored = true → g.Knows e.effect)
  -- the run stands at the change: what comes after it was not asked for
  unasked : s.Unasked (Behind g.size)
  fresh : s.values c = none
  control : s.Arrived g e.control
  -- an anchored change waits for the effect before it
  effect : e.anchored = true → s.effects e.effect = true
  constant : ∀ n v, g.node? e.value = some n → n.op = .constant .int32 →
    s.values e.value = some v → v = (BitVec.ofInt 32 n.int).setWidth 64

section

variable {g g' : Graph} {arguments : List (BitVec 64)} {s s₁ : State} {c : NodeId} {f : Change}
  {e : Lowering.Entry} {v : BitVec 64} {env : Env}

/-- The change itself: its operand is evaluated, and then the heap is worked on. -/
theorem State.Awaits.changes (h : s.Awaits g c f e)
    (hx : Evaluates ⟨g, arguments⟩ (.value e.value) s v s₁) :
    Yields ⟨g, arguments⟩ s c (changeOn f v s₁.heap) := by
  obtain ⟨n, hn, hInput, hEffect, hAnchored, hFree⟩ := Lowering.of_entry h.entry
  obtain ⟨d, hRuns⟩ := hx
  have hOp : n.op = .change f := by
    have hOp := h.op
    unfold Graph.op at hOp
    rw [Graph.node_eq_ok.mp hn] at hOp
    exact Except.ok.inj hOp
  -- The effect in front has run already, so asking for it changes nothing.
  have hRan : Runs (answer ⟨g, arguments⟩ (d + 1) (.effect e.effect)) s () s := by
    refine Runs.bind (Runs.get s) ?_
    rw [if_pos ?_]
    · exact Runs.pure _ _
    · cases hs : e.anchored with
      | true => rw [h.effect hs, Bool.or_true]
      | false => rw [decide_eq_true (hFree hs), Bool.true_or]
  have hOperand : Runs (answer ⟨g, arguments⟩ (d + 1) (.value e.value)) s v s₁ :=
    answer_deeper hRuns (Nat.le_succ d)
  -- The change asks for its operand and then works on the heap.
  have hCompute : Runs (compute ⟨g, arguments⟩ (answer ⟨g, arguments⟩ (d + 1)) c) s
      (changeOn f v s₁.heap).2 { s₁.noted c with heap := (changeOn f v s₁.heap).1 } := by
    refine Runs.bind (Runs.lift hn s) ?_
    simp only [hOp]
    refine Runs.bind (Runs.lift hEffect s) (Runs.bind hRan ?_)
    exact Runs.bind (Runs.bind (Runs.lift hInput s) hOperand) (Runs.access c _ s₁)
  exact ⟨_, ⟨d + 2, answer_computes h.fresh hCompute⟩, rfl⟩

/-! ## Where an evaluation stands -/

/-- A state in which it is remembered that a control node is reached. -/
def State.arrive (s : State) (control : NodeId) : State :=
  { s with reached := fun x => if x = control then some true else s.reached x }

theorem arrive_reached (s : State) (control : NodeId) :
    (s.arrive control).reached control = some true :=
  if_pos rfl

/-- Whether a node is a control node that starts the graph. -/
def IsStart (g : Graph) (control id : NodeId) : Prop :=
  id = control ∧ ∃ n, g.node? id = some n ∧ n.op = .start

/-- Of a control node that is reached it is remembered, unless it is the start. -/
theorem State.Arrived.cases {control : NodeId} (h : s.Arrived g control) (id : NodeId) :
    (s.arrive control).reached id = s.reached id ∨
      IsStart g control id ∧ s.reached id ≠ some false ∧
        (s.arrive control).reached id ≠ some false := by
  by_cases hId : id = control
  · subst hId
    have hNow := arrive_reached s id
    obtain hTrue | ⟨hNone, hStart⟩ := h
    · exact .inl (hNow.trans hTrue.symm)
    · refine .inr ⟨⟨rfl, hStart⟩, ?_, ?_⟩
      · rw [hNone]
        nofun
      · rw [hNow]
        nofun
  · exact .inl (if_neg hId)

end

/-! ## Plans that start from what is remembered -/

namespace Plan

variable {g g' : Graph} {e : Lowering.Entry} {f : Change} {arguments : List (BitVec 64)}
  {heap : Heap} {v : BitVec 64} {s : State} {id : NodeId} {r : Heap × BitVec 64}

/-- What a fragment is given: its operand, its control and its effects. -/
def givenBy (e : Lowering.Entry) (id : NodeId) : Bool :=
  decide (id = e.value) || decide (id = e.control) || (e.anchored && decide (id = e.effect))

/-- What is remembered where a fragment starts. -/
structure Resumes (s : State) (e : Lowering.Entry) (r : Heap × BitVec 64) : Prop where
  value : s.values e.value = some r.2
  control : s.reached e.control = some true
  effect : e.anchored = true → s.effects e.effect = true
  heap : s.heap = r.1

/-- The plan of what is remembered where a fragment starts. -/
def resumed (g : Graph) (e : Lowering.Entry) (arguments : List (BitVec 64)) (heap : Heap)
    (v : BitVec 64) : Plan (.exact arguments heap (givenBy e)) where
  entry id := if givenBy e id = true then (g.node? id).map fun n =>
    { node := n, rank := 0
      value := if id = e.value then some ⟨.word v, 0⟩ else none
      reached := if id = e.control then some true else none
      effect := if e.anchored = true ∧ id = e.effect then some 0 else none }
    else none
  known t := if t = 0 then some (exactly arguments heap heap) else none
  time := 0
  count := 1

theorem resumed_entry {e' : Entry} (h : (resumed g e arguments heap v).entry id = some e') :
    givenBy e id = true ∧ ∃ n, g.node? id = some n ∧ e' =
      { node := n, rank := 0
        value := if id = e.value then some ⟨.word v, 0⟩ else none
        reached := if id = e.control then some true else none
        effect := if e.anchored = true ∧ id = e.effect then some 0 else none } := by
  change (if givenBy e id = true then _ else none) = some e' at h
  split at h
  · next hGiven =>
    obtain ⟨n, hn, rfl⟩ := Option.map_eq_some_iff.mp h
    exact ⟨hGiven, n, hn, rfl⟩
  · cases h

section

variable {e' : Entry} (h : (resumed g e arguments heap v).entry id = some e')

include h

/-- Only the operand has a value. -/
theorem resumed_value {l : Label} (hl : e'.value = some l) :
    id = e.value ∧ l = ⟨.word v, 0⟩ := by
  obtain ⟨-, n, -, rfl⟩ := resumed_entry h
  obtain ⟨hId, hSome⟩ := Option.ite_none_right_eq_some.mp hl
  exact ⟨hId, (Option.some.inj hSome).symm⟩

/-- Only the control is known to be reached. -/
theorem resumed_reached {b : Bool} (hb : e'.reached = some b) : id = e.control ∧ b = true := by
  obtain ⟨-, n, -, rfl⟩ := resumed_entry h
  obtain ⟨hId, hSome⟩ := Option.ite_none_right_eq_some.mp hb
  exact ⟨hId, (Option.some.inj hSome).symm⟩

/-- Only the effects that an anchored fragment comes after have run. -/
theorem resumed_effect {t : Nat} (ht : e'.effect = some t) :
    (e.anchored = true ∧ id = e.effect) ∧ t = 0 := by
  obtain ⟨-, n, -, rfl⟩ := resumed_entry h
  obtain ⟨hId, hSome⟩ := Option.ite_none_right_eq_some.mp ht
  exact ⟨hId, (Option.some.inj hSome).symm⟩

end

theorem resumed_good : (resumed g e arguments heap v).Good g where
  valid := by
    -- Every entry was given, so nothing is left to be justified.
    have hGiven : ∀ {id e'}, (resumed g e arguments heap v).entry id = some e' →
        (Setting.exact arguments heap (givenBy e)).given id = false → False := by
      intro id e' he hNot
      rw [show (Setting.exact arguments heap (givenBy e)).given id = givenBy e id from rfl,
        (resumed_entry he).1] at hNot
      cases hNot
    constructor
    case rank_lt =>
      intro id e' he
      obtain ⟨-, n, -, rfl⟩ := resumed_entry he
      exact Nat.zero_lt_one
    case closed => exact fun hNot he => (hGiven he hNot).elim
    case value => exact fun hNot he => (hGiven he hNot).elim
    case stamp_le =>
      intro id e' l he hl
      obtain ⟨-, n, -, rfl⟩ := resumed_entry he
      dsimp only at hl
      split at hl <;> cases hl
      exact Nat.le_refl 0
    case once =>
      intro id id' e₁ e₂ l l' he hl hEvent
      obtain ⟨-, n, -, rfl⟩ := resumed_entry he
      cases hEvent
    case reached => exact fun hNot he => (hGiven he hNot).elim
    case effect => exact fun hNot he => (hGiven he hNot).elim
    case known_le =>
      intro t ht
      exact if_neg (Nat.ne_of_gt ht)
  fits := by
    intro id e' he
    obtain ⟨-, n, hn, rfl⟩ := resumed_entry he
    exact hn

theorem resumed_has {n : Node} (hGiven : givenBy e id = true) (hn : g.node? id = some n) :
    (resumed g e arguments heap v).entry id = some
      { node := n, rank := 0
        value := if id = e.value then some ⟨.word v, 0⟩ else none
        reached := if id = e.control then some true else none
        effect := if e.anchored = true ∧ id = e.effect then some 0 else none } := by
  show (if givenBy e id = true then _ else none) = _
  rw [if_pos hGiven, hn]
  rfl

theorem resumed_leaves (h : g.Knows e.value) :
    (resumed g e arguments heap v).Leaves e.value (heap, v) := by
  obtain ⟨n, hn⟩ := h
  exact ⟨⟨_, resumed_has (by simp [givenBy]) hn, Nat.zero_lt_one, if_pos rfl⟩, rfl⟩

theorem resumed_starts (hControl : g.Knows e.control) (hNonneg : e.anchored = true → 0 ≤ e.effect)
    (hEffect : e.anchored = true → g.Knows e.effect)
    (hFree : e.anchored = false → e.effect < 0) :
    (resumed g e arguments heap v).Starts e 0 := by
  obtain ⟨n, hn⟩ := hControl
  refine ⟨⟨_, resumed_has (by simp [givenBy]) hn, Nat.zero_lt_one, if_pos rfl⟩, fun ha => ?_, hFree⟩
  obtain ⟨m, hm⟩ := hEffect ha
  exact ⟨hNonneg ha, _, resumed_has (by simp [givenBy, ha]) hm, Nat.zero_lt_one, if_pos ⟨ha, rfl⟩⟩

/-- What nothing was asked about is not given, for of what is given something is remembered. -/
theorem Resumes.givenBy_eq_false (hs : Resumes s e r) (hUnasked : s.Unasked (Lowering.Behind g.size))
    (hNew : Lowering.Behind g.size id) : givenBy e id = false := by
  obtain ⟨hValue, hEffect, hReached⟩ := hUnasked id hNew
  -- what was given has been asked for, and a new node has not
  have hNotValue : id ≠ e.value := by
    rintro rfl
    rw [hs.value] at hValue
    cases hValue
  have hNotControl : id ≠ e.control := by
    rintro rfl
    rw [hs.control] at hReached
    cases hReached
  have hNotEffect : e.anchored = true → id ≠ e.effect := by
    rintro ha rfl
    rw [hs.effect ha] at hEffect
    cases hEffect
  unfold givenBy
  cases ha : e.anchored with
  | false => simp [hNotValue, hNotControl]
  | true => simp [hNotValue, hNotControl, hNotEffect ha]

section

variable {p : Plan (.exact arguments heap (givenBy e))} {e' : Entry}

theorem Grown.old_or_new (h : (resumed g e arguments heap v).Grown g p g')
    (he : p.entry id = some e') :
    (resumed g e arguments heap v).entry id = some e' ∨ Lowering.Behind g.size id := by
  by_cases hLt : id < g.size
  · rw [h.old id hLt] at he
    exact .inl he
  · exact .inr (Int.not_lt.mp hLt)

/-- What is given is remembered, as it says. -/
theorem Grown.supplied (h : (resumed g e arguments heap v).Grown g p g')
    (hs : Resumes s e (heap, v)) (hUnasked : s.Unasked (Lowering.Behind g.size)) :
    p.Supplied s := by
  -- what is given by the run was in the plan before the fragment was added
  have hOld : ∀ {id e'}, givenBy e id = true → p.entry id = some e' →
      (resumed g e arguments heap v).entry id = some e' := by
    intro id e' hGiven he
    refine (h.old_or_new he).resolve_right fun hNew => ?_
    rw [hs.givenBy_eq_false hUnasked hNew] at hGiven
    cases hGiven
  constructor
  case value =>
    intro id e' l hGiven he hl
    rw [(resumed_value (hOld hGiven he) hl).1, hs.value]
    rfl
  case reached =>
    intro id e' b hGiven he hb
    rw [(resumed_reached (hOld hGiven he) hb).1, hs.control]
    rfl
  case effect =>
    intro id e' t hGiven he ht
    obtain ⟨⟨ha, rfl⟩, -⟩ := resumed_effect (hOld hGiven he) ht
    exact hs.effect ha

/-- What grew out of the plan holds where nothing was asked about what was added. -/
theorem Grown.holds (h : (resumed g e arguments heap v).Grown g p g')
    (hs : Resumes s e (heap, v)) (hUnasked : s.Unasked (Lowering.Behind g.size)) :
    p.Holds (fun _ => False) 0 s := by
  constructor
  case like => rw [hs.heap]; exact .refl _
  case value =>
    intro id e' l w he hl hw
    rcases h.old_or_new he with hOld | hNew
    · obtain ⟨rfl, rfl⟩ := resumed_value hOld hl
      rw [hs.value] at hw
      cases hw
      exact ⟨rfl, Nat.le_refl 0⟩
    · rw [(hUnasked id hNew).1] at hw
      cases hw
  case event =>
    intro id e' l he hl hEvent
    rcases h.old_or_new he with hOld | hNew
    · obtain ⟨-, n, -, rfl⟩ := resumed_entry hOld
      cases hEvent
    · -- An event that was added lies ahead, and it is not remembered.
      have hGrants := h.good.valid.value (hs.givenBy_eq_false hUnasked hNew) he hl
      rw [hEvent] at hGrants
      rw [(hUnasked id hNew).1]
      cases hGrants with
      | event _ _ _ hPos =>
        simp only [Option.isSome_none, Bool.false_eq_true, false_iff]
        omega
  case reached =>
    intro id e' b b' he hb hb'
    rcases h.old_or_new he with hOld | hNew
    · obtain ⟨rfl, rfl⟩ := resumed_reached hOld hb
      rw [hs.control] at hb'
      exact (Option.some.inj hb').symm
    · rw [(hUnasked id hNew).2.2] at hb'
      cases hb'
  case effect =>
    intro id e' t he ht hMark
    rcases h.old_or_new he with hOld | hNew
    · obtain ⟨-, rfl⟩ := resumed_effect hOld ht
      exact .inr (Nat.le_refl 0)
    · rw [(hUnasked id hNew).2.1] at hMark
      cases hMark
  case known =>
    intro K hK
    have hFirst : (resumed g e arguments heap v).known 0 = some (exactly arguments heap heap) := rfl
    rw [h.le.known hFirst] at hK
    cases hK
    exact hs.heap
  case supplied => exact h.supplied hs hUnasked
  case le => exact Nat.zero_le _

end

/-- What is planned as the last value is answered, and the heap is what is known then. -/
theorem Good.resumes {given : NodeId → Bool} {p : Plan (.exact arguments heap given)}
    (h : p.Good g) (hHolds : p.Holds (fun _ => False) 0 s) (hr : p.Leaves id r) :
    Yields ⟨g, arguments⟩ s id r := by
  let d := 2 * p.count + 1
  have hAnswered : p.Answered (answer ⟨g, arguments⟩ d) d := h.valid.answered h.fits rfl d
  obtain ⟨w, k, s', hRuns, hMoves, hw⟩ :=
    hAnswered.asksValue (r := p.count) (by omega) (fun _ _ _ _ hNo => hNo) hHolds hr.value
  obtain ⟨e, he, -, hl⟩ := hr.value
  obtain ⟨hOf, hLe⟩ := hMoves.holds.value he hl hw
  obtain rfl : w = r.2 := hOf
  -- everything is behind the value, so the heap is the last that is known
  have hEnd : k = p.time := Nat.le_antisymm hMoves.holds.le hLe
  have hKnown := hr.heap
  rw [← hEnd] at hKnown
  exact ⟨s', ⟨d, hRuns⟩, hMoves.holds.known hKnown⟩

end Plan

section

variable {g g' : Graph} {arguments : List (BitVec 64)} {s s₁ t t₁ : State} {c : NodeId} {f : Change}
  {e : Lowering.Entry} {v : BitVec 64} {word : Int} {n : Node} {r : Graph.Replacement}

/-- A constant gives its word, remembered or not. -/
theorem State.Awaits.constant_word (h : s.Awaits g c f e) (hn : g.node? e.value = some n)
    (hOp : n.op = .constant .int32)
    (hx : Evaluates ⟨g, arguments⟩ (.value e.value) s v s₁) :
    v = (BitVec.ofInt 32 n.int).setWidth 64 := by
  obtain ⟨d, hRuns⟩ := hx
  cases d with
  | zero => cases hRuns
  | succ d =>
    cases hKnown : s.values e.value with
    | some w =>
      obtain ⟨rfl, -⟩ := hRuns.unique (answer_value hKnown)
      exact h.constant n v hn hOp hKnown
    -- asked for now, the constant gives its word without any step
    | none =>
      let w : BitVec 64 := (BitVec.ofInt 32 n.int).setWidth 64
      have hCompute : Runs (compute ⟨g, arguments⟩ (answer ⟨g, arguments⟩ d) e.value) s w s := by
        refine Runs.bind (Runs.lift (Graph.node_eq_ok.mpr hn) s) ?_
        simp only [hOp]
        exact Runs.pure _ s
      exact (hRuns.unique (answer_computes hKnown hCompute)).1

/-- A change whose operand is a node can be lowered. -/
theorem State.Awaits.reduces (h : s.Awaits g c f e) (l : Layout) :
    ∃ small, Lowering.reduce l g c =
        .ok (some (((Lowering.fragment l f small e).run g).2,
          ((Lowering.fragment l f small e).run g).1)) ∧
      ∀ {arguments v s₁}, Evaluates ⟨g, arguments⟩ (.value e.value) s v s₁ → small = true →
        l.isSmi (v.setWidth 32).toInt = true := by
  obtain ⟨n, hn⟩ := h.value
  by_cases hf : f = .int32ToTagged
  · obtain ⟨small, hIs⟩ : ∃ small, Lowering.isSmallConstant l g e.value = .ok small :=
      ⟨_, Lowering.isSmallConstant_eq hn⟩
    refine ⟨small, ?_, fun {arguments v s₁} hx hSmall => ?_⟩
    · unfold Lowering.reduce
      rw [h.op, ok_bind]
      simp only [h.entry, ok_bind, if_pos hf, hIs]
      rfl
    · rw [Lowering.isSmallConstant_eq hn, hSmall] at hIs
      -- the value is small when it is a constant in range, which is then the word that was
      -- evaluated
      by_cases hOp : n.op = .constant .int32
      · rw [h.constant_word hn hOp hx, setWidth_setWidth]
        simpa [hOp] using hIs
      · simp [hOp] at hIs
  · -- the other changes do not ask whether the value is small
    refine ⟨false, ?_, fun _ hNo => by cases hNo⟩
    unfold Lowering.reduce
    rw [h.op, ok_bind]
    simp only [h.entry, ok_bind, if_neg hf]
    rfl

/-- What is planned of a fragment once its operand was evaluated. -/
theorem State.Awaits.plans {small : Bool} (h : s.Awaits g c f e)
    (arguments : List (BitVec 64)) (hm : Ready ⟨s.heap⟩ word)
    (hLike : s.heap.Like s₁.heap)
    (hSmall : small = true → (Layout.ofWord word).isSmi (v.setWidth 32).toInt = true)
    (hBit : f = .bitToBool → v.toNat < 2 ^ 32) :
    (Plan.resumed g e arguments s₁.heap v).Plans g
      (Lowering.fragment s₁.heap.layout f small e) fun r p =>
        p.Leaves r.value (changeOn f v s₁.heap) := by
  obtain ⟨n, -, -, -, hAnchored, hFree⟩ := Lowering.of_entry h.entry
  have hm₁ : Ready ⟨s₁.heap⟩ word := by
    refine ⟨hm.width, hLike.layout.trans hm.layout, ?_⟩
    show s₁.heap.toWord s₁.heap.trueObject = s₁.heap.trueObject
    rw [hLike.toWord, hLike.trueObject]
    exact hm.trueObject
  have hStart : (Plan.resumed g e arguments s₁.heap v).Starts e 0 :=
    Plan.resumed_starts h.known.1 hAnchored h.known.2 hFree
  have hValue : (Plan.resumed g e arguments s₁.heap v).Leaves e.value (s₁.heap, v) :=
    Plan.resumed_leaves h.value
  -- A change that unboxes may read the heap as it is; another one may allocate on it.
  cases hf : f.unboxes with
  | true =>
    refine (Plan.resumed_good.unboxes_exactly hm₁.layouts hf small hStart (.refl _) hValue).mono ?_
    rintro r p g' - ⟨-, -, hLeaves⟩
    exact hLeaves
  | false =>
    have hIsSmi : small = true → s₁.heap.layout.isSmi (v.setWidth 32).toInt = true := by
      rw [show s₁.heap.layout = .ofWord word from hm₁.layout]
      exact hSmall
    have hZero : f = .bitToBool → v.setWidth 32 = 0 → v = 0 := by
      intro hIs hLow
      have hToNat : v.toNat % 2 ^ 32 = 0 := by
        rw [← BitVec.toNat_setWidth, hLow]
        rfl
      rw [Nat.mod_eq_of_lt (hBit hIs)] at hToNat
      exact BitVec.eq_of_toNat_eq hToNat
    refine (Plan.resumed_good.boxes_exactly hm₁.layouts hm₁.trueObject hf small hIsSmi hZero hStart
      rfl hValue).mono ?_
    rintro r p g' - ⟨-, -, hLeaves⟩
    exact hLeaves

/-- A fragment that begins with its operand gives what the change gives. -/
theorem State.Awaits.led {small : Bool} (h : s.Awaits g c f e) (hm : Ready ⟨s.heap⟩ word)
    (hx : Evaluates ⟨g, arguments⟩ (.value e.value) s v s₁)
    (hSmall : small = true → (Layout.ofWord word).isSmi (v.setWidth 32).toInt = true)
    (hBit : f = .bitToBool → v.toNat < 2 ^ 32)
    (hBuilt : (Lowering.fragment (.ofWord word) f small e).run g = (r, g'))
    (hGrows : Lowering.Grows g g') (hLeads : Leads g' (Behind g.size) e.control r.value e.value) :
    Yields ⟨g', arguments⟩ s r.value (changeOn f v s₁.heap) := by
  obtain ⟨d, hRuns⟩ := hx
  -- the operand is evaluated in the larger graph, with the control remembered
  let t := s.arrive e.control
  have hEnv : Enlarges (Behind g.size) (IsStart g e.control) ⟨g, arguments⟩ ⟨g', arguments⟩ :=
    ⟨rfl, hGrows, behind_new, fun hStart => hStart.2⟩
  have hAlike : Alike none (Behind g.size) (IsStart g e.control) s t s t :=
    ⟨rfl, fun _ => rfl, fun _ => rfl, fun _ => rfl, fun _ => h.control.cases _,
      fun hNew => h.unasked _ hNew, fun _ => ⟨rfl, rfl, rfl⟩, id, id, .refl _⟩
  obtain ⟨t₁, hRuns₁, hAlike₁⟩ :=
    (answer_mimics hEnv (Nat.le_refl d) _).runs hAlike hRuns (.inl rfl)
  have hItself := (answer_itself hRuns₁ (Nat.le_refl d)).2
  have hUnasked : t.Unasked (Behind g.size) := by
    intro id hNew
    have hNe : id ≠ e.control := by
      rintro rfl
      exact absurd h.known.1.lt (Int.not_lt.mpr hNew)
    obtain ⟨hValues, hEffects, hReached⟩ := h.unasked id hNew
    exact ⟨hValues, hEffects, (if_neg hNe).trans hReached⟩
  have hUnasked₁ : t₁.Unasked (Behind g.size) := by
    intro id hNew
    obtain ⟨hValues, hEffects, hReached⟩ := hAlike₁.kept hNew
    rw [hValues, hEffects, hReached]
    exact hUnasked id hNew
  have hResumes : Plan.Resumes t₁ e (s₁.heap, v) :=
    ⟨answer_remembers hRuns₁, hItself.arrived (arrive_reached s e.control),
      fun ha => hItself.ran (h.effect ha), hAlike₁.heap⟩
  -- from there on, everything goes as planned
  have hLike : s.heap.Like s₁.heap := hAlike₁.grew.like
  have hl : s₁.heap.layout = .ofWord word := hLike.layout.trans hm.layout
  have hFragment := h.plans arguments hm hLike hSmall hBit
  rw [hl] at hFragment
  obtain ⟨p, hGrown, hLeaves⟩ := hFragment
  rw [hBuilt] at hGrown hLeaves
  obtain ⟨t₂, hYields, hHeap⟩ := hGrown.good.resumes (hGrown.holds hResumes hUnasked₁) hLeaves
  -- and it goes the same way where nothing was evaluated yet
  obtain ⟨d', hRuns₂⟩ :=
    hLeads.ahead hUnasked hUnasked₁ (arrive_reached s e.control) ⟨d, hRuns₁⟩ _ _ hYields
  have hEnv' : Enlarges (fun _ => False) (IsStart g e.control) ⟨g', arguments⟩ ⟨g', arguments⟩ :=
    ⟨rfl, .refl g', nofun, fun ⟨_, n, hn, hOp⟩ => ⟨n, hGrows.node hn, hOp⟩⟩
  have hAlike' : Alike none (fun _ => False) (IsStart g e.control) t s t s :=
    ⟨rfl, fun _ => rfl, fun _ => rfl, fun _ => rfl,
      fun _ => (h.control.cases _).imp Eq.symm fun ⟨hStart, hs, ht⟩ => ⟨hStart, ht, hs⟩,
      nofun, nofun, id, id, .refl _⟩
  obtain ⟨s₂, hRuns₃, hAlike₂⟩ :=
    (answer_mimics hEnv' (Nat.le_refl d') _).runs hAlike' hRuns₂ (.inl rfl)
  exact ⟨s₂, ⟨d', hRuns₃⟩, hAlike₂.heap.trans hHeap⟩

/-- The fragment of a change gives what the change gives, and leaves the heap as the change does.
Where a double is boxed, its evaluation must not allocate. -/
theorem reduce_computes (hm : Ready ⟨s.heap⟩ word) (h : s.Awaits g c f e)
    (hx : Evaluates ⟨g, arguments⟩ (.value e.value) s v s₁)
    (hBit : f = .bitToBool → v.toNat < 2 ^ 32)
    (hBox : f = .float64ToTagged → s₁.heap.allocs = s.heap.allocs) :
    Yields ⟨g, arguments⟩ s c (changeOn f v s₁.heap) ∧
      ∃ g' r, Lowering.reduce (.ofWord word) g c = .ok (some (g', r)) ∧
        Yields ⟨g', arguments⟩ s r.value (changeOn f v s₁.heap) := by
  refine ⟨h.changes hx, ?_⟩
  obtain ⟨small, hReduce, hSmall⟩ := h.reduces (.ofWord word)
  generalize hBuilt : (Lowering.fragment (.ofWord word) f small e).run g = built at hReduce
  obtain ⟨r, g'⟩ := built
  refine ⟨g', r, hReduce, ?_⟩
  have hAdds := Lowering.fragment_leads (l := .ofWord word) (e := e) (g := g) f small
  have hGrows := hAdds.grows
  have hLeads := hAdds.holds
  rw [hBuilt] at hGrows hLeads
  -- A fragment that only boxes allocates before it asks for the operand; the others ask first.
  by_cases hf : f = .float64ToTagged
  · subst hf
    obtain ⟨-, -, -, -, -, hFree⟩ := Lowering.of_entry h.entry
    have hEffect : 0 ≤ e.effect → s.effects e.effect = true := by
      intro hNonneg
      cases ha : e.anchored with
      | true => exact h.effect ha
      | false => exact absurd hNonneg (Int.not_le.mpr (hFree ha))
    have hBoxes := (Lowering.float64ToTagged_boxes (l := .ofWord word) (e := e)
      (Nat.le_refl g.size)).holds
    rw [show (Lowering.float64ToTagged (.ofWord word) e).run g = (r, g') from hBuilt] at hBoxes
    obtain ⟨b, hFinish, hIn⟩ := hBoxes
    have hl : Layout.ofWord word = .ofWord 32 ∨ Layout.ofWord word = .ofWord 64 :=
      hm.width.imp (congrArg _) (congrArg _)
    rw [← hFinish]
    exact hIn.boxes hGrows hl hm.layout h.unasked hEffect hx (hBox rfl)
  · exact h.led hm hx (hSmall hx) hBit hBuilt hGrows (hLeads hf)

/-- Nothing is remembered before an evaluation, so a change at the start can be asked for. -/
theorem State.Awaits.new {heap : Heap} (hOp : g.op c = .ok (.change f))
    (hEntry : Lowering.entry g c = .ok e) (hValue : g.Knows e.value)
    (hStart : ∃ n, g.node? e.control = some n ∧ n.op = .start) (hFree : e.anchored = false) :
    ({ heap } : State).Awaits g c f e where
  op := hOp
  entry := hEntry
  value := hValue
  known := ⟨hStart.imp fun _ h => h.1, fun h => by cases hFree.symm.trans h⟩
  unasked := fun _ _ => ⟨rfl, rfl, rfl⟩
  fresh := rfl
  control := .inr ⟨rfl, hStart⟩
  effect := fun h => by cases hFree.symm.trans h
  constant := fun _ _ _ _ h => nomatch h

/-- The least positive integer that is no small integer on 32 bit words. -/
theorem reduce_computes_leastBoxed :
    let s : State := { heap := .new (.ofWord 32) }
    let g := chain .int32 false [.int32ToTagged]
    Ready ⟨s.heap⟩ 32 ∧ s.Awaits g 2 .int32ToTagged ⟨1, -1, 0, false⟩ ∧
      (∃ s₁, Evaluates ⟨g, [0x40000000]⟩ (.value 1) s 0x40000000 s₁ ∧ s₁.heap = s.heap) ∧
      ∃ g' r, Lowering.reduce (.ofWord 32) g 2 = .ok (some (g', r)) ∧
        Yields ⟨g', [0x40000000]⟩ s r.value (changeOn .int32ToTagged 0x40000000 s.heap) := by
  intro s g
  have hReady : Ready ⟨s.heap⟩ 32 := ready_new rfl
  have hAwaits : s.Awaits g 2 .int32ToTagged ⟨1, -1, 0, false⟩ :=
    .new rfl rfl ⟨_, rfl⟩ ⟨_, rfl, rfl⟩ rfl
  have hx : Evaluates ⟨g, [0x40000000]⟩ (.value 1) s 0x40000000 (s.learn 1 (s.heap, 0x40000000)) :=
    ⟨1, rfl⟩
  exact ⟨hReady, hAwaits, ⟨_, hx, rfl⟩,
    (reduce_computes hReady hAwaits hx (fun h => nomatch h) (fun h => nomatch h)).2⟩

/-- A double is boxed, read and boxed again. The fragment of the last change allocates its object
before the first one allocates its own, so the box is not where the change puts it. -/
theorem reduce_allocates_first :
    let s : State := { heap := .new (.ofWord 32) }
    let env : Env := ⟨chain .float64 false [.float64ToTagged, .taggedToFloat64, .float64ToTagged],
      [0x3ff8000000000000]⟩
    s.Awaits env.graph 4 .float64ToTagged ⟨3, -1, 0, false⟩ ∧
      ∃ v s₁, Evaluates env (.value 3) s v s₁ ∧
        Yields env s 4 (changeOn .float64ToTagged v s₁.heap) ∧
        ¬∃ g' r, Lowering.reduce (.ofWord 32) env.graph 4 = .ok (some (g', r)) ∧
          Yields ⟨g', env.arguments⟩ s r.value (changeOn .float64ToTagged v s₁.heap) := by
  intro s env
  have hAwaits : s.Awaits env.graph 4 .float64ToTagged ⟨3, -1, 0, false⟩ :=
    .new rfl rfl ⟨_, rfl⟩ ⟨_, rfl, rfl⟩ rfl
  obtain ⟨s₁, hx⟩ : ∃ s₁, Runs (answer env 20 (.value 3)) s 0x3ff8000000000000 s₁ := by
    dsimp only [env, s]
    exact ⟨_, rfl⟩
  obtain ⟨s₂, hChange⟩ : ∃ s₂, Runs (answer env 20 (.value 4)) s 0x1021 s₂ := by
    dsimp only [env, s]
    exact ⟨_, rfl⟩
  have hYields := hAwaits.changes ⟨20, hx⟩
  refine ⟨hAwaits, _, s₁, ⟨20, hx⟩, hYields, ?_⟩
  rintro ⟨g', r, hReduce, hLowered⟩
  -- the nodes that the fragment adds
  let lowered := env.graph.append [.ofArity .valueEffect [3], .external allocateHeapNumber,
    .int32 12, .call 8 [9] 7 0, .int32 3, .store .float64 .none 10 11 3 10 0,
    .ofArity .finish [10, 12]]
  have hReduce' : Lowering.reduce (.ofWord 32) env.graph 4 =
      .ok (some (lowered, ⟨13, -1, -1⟩)) := rfl
  obtain ⟨s₃, hFragment⟩ :
      ∃ s₃, Runs (answer ⟨lowered, env.arguments⟩ 20 (.value 13)) s 0x1011 s₃ := by
    dsimp only [lowered, env, s]
    exact ⟨_, rfl⟩
  obtain ⟨rfl, rfl⟩ : lowered = g' ∧ ⟨13, -1, -1⟩ = r := by simpa using hReduce'.symm.trans hReduce
  exact absurd ((hYields.value hChange).symm.trans (hLowered.value hFragment)) (by decide)

end

end Machine
end ArmBackend
