import ArmBackend.Proofs.Verified
import ArmBackend.Selection.Run
import Mathlib.Data.List.Forall2

/-!
# What a step of selection ensures

`Ensures site s m Q` says that whenever the step `m`, run at `site` from state `s`, succeeds, its
answer and the state it leaves satisfy `Q`. A step that fails ensures anything: every law of
selection is about the streams it returns.

The lemmas here take a `do` block apart: one for each way of sequencing or of touching the state.
Each is an equivalence, so `simp only [ensures_bind, …]` turns a block into the facts of its steps.

Selectors and loops that many properties go through are walked once, with the property as a
parameter.

## Results

* `ensures_tryShift`, `ensures_tryOperand2` — the ways in which a node is taken in.
* `ensures_assignParameters`, `ensures_coverNodes`, `ensures_coverBlocks` — what each step of a loop
  keeps, the loop keeps.
* `ensures_coverBlocks_each` — what each block has when it is covered, and keeps from then on.
-/

namespace ArmBackend.Selection

variable {α β : Type} {site : Site} {s : State}

/-- If the step succeeds, its answer and the state it leaves satisfy `Q`. -/
def Ensures (site : Site) (s : State) (m : Select α) (Q : α → State → Prop) : Prop :=
  ∀ a s', m site s = .ok (a, s') → Q a s'

/-- What a step ensures may be weakened. -/
theorem Ensures.mono {m : Select α} {P Q : α → State → Prop} (h : Ensures site s m P)
    (hPQ : ∀ a s', P a s' → Q a s') : Ensures site s m Q :=
  fun a s' hm => hPQ a s' (h a s' hm)

/-- A step ensures what it ensures together. -/
theorem Ensures.and {m : Select α} {P Q : α → State → Prop} (h : Ensures site s m P)
    (h' : Ensures site s m Q) : Ensures site s m fun a s' => P a s' ∧ Q a s' :=
  fun a s' hm => ⟨h a s' hm, h' a s' hm⟩

/-! ## Sequencing -/

/-- Doing nothing ensures what holds already. -/
theorem ensures_pure (a : α) (Q : α → State → Prop) :
    Ensures site s (pure a) Q ↔ Q a s := by
  constructor
  · intro h
    exact h a s rfl
  · rintro h a' s' ⟨⟩
    exact h

/-- A sequence ensures what its second step ensures after the first. -/
theorem ensures_bind (m : Select α) (f : α → Select β) (Q : β → State → Prop) :
    Ensures site s (m >>= f) Q ↔
      Ensures site s m fun a s' => Ensures site s' (f a) Q := by
  constructor
  · intro h a s' hm b s'' hf
    apply h
    show (m site s >>= fun p => f p.1 site p.2) = _
    rw [hm]
    exact hf
  · intro h b s'' hb
    change (m site s >>= fun p => f p.1 site p.2) = _ at hb
    -- without a result of `m` there is none of the whole, and nothing to show
    cases hm : m site s with
    | error e =>
      rw [hm] at hb
      cases hb
    | ok p =>
      rw [hm] at hb
      exact h p.1 p.2 hm b s'' hb

/-- A failure ensures everything. -/
theorem ensures_throw (f : Fault) (Q : α → State → Prop) :
    Ensures site s (throw f) Q ↔ True := by
  refine ⟨fun _ => trivial, fun _ a s' h => ?_⟩
  cases h

/-! ## Site and state -/

/-- The site is what it is. -/
theorem ensures_read (Q : Site → State → Prop) : Ensures site s read Q ↔ Q site s := by
  constructor
  · intro h
    exact h site s rfl
  · rintro h a s' ⟨⟩
    exact h

/-- The state that is read is the one there is. -/
theorem ensures_get (Q : State → State → Prop) : Ensures site s get Q ↔ Q s s := by
  constructor
  · intro h
    exact h s s rfl
  · rintro h a s' ⟨⟩
    exact h

/-- A change of the state ensures what holds after it. -/
theorem ensures_modify (f : State → State) (Q : PUnit → State → Prop) :
    Ensures site s (modify f) Q ↔ Q ⟨⟩ (f s) := by
  constructor
  · intro h
    exact h _ _ rfl
  · rintro h a s' ⟨⟩
    exact h

/-- A change of the state that answers ensures what holds of the answer after it. -/
theorem ensures_modifyGet (f : State → α × State) (Q : α → State → Prop) :
    Ensures site s (modifyGet f) Q ↔ Q (f s).1 (f s).2 := by
  constructor
  · intro h
    exact h _ _ rfl
  · intro h a s' hm
    have hPair : f s = (a, s') := Except.ok.inj hm
    rw [hPair] at h
    exact h

/-- A look at the graph keeps the state; it succeeds when the look-up does. -/
theorem ensures_lift (e : Except Fault α) (Q : α → State → Prop) :
    Ensures site s (liftM e : Select α) Q ↔ ∀ a, e = .ok a → Q a s := by
  constructor
  · rintro h a rfl
    exact h a s rfl
  · intro h a s' hm
    cases he : e with
    | error f =>
      rw [he] at hm
      cases hm
    | ok b =>
      rw [he] at hm
      cases hm
      exact h _ he

/-- A step at another place of the schedule. -/
theorem ensures_withReader (f : Site → Site) (m : Select α) (Q : α → State → Prop) :
    Ensures site s (withReader f m) Q ↔ Ensures (f site) s m Q :=
  Iff.rfl

/-! ## Marks and instructions -/

/-- A mark of use is the only change; there is none on no node. -/
theorem ensures_markUsed {u : NodeId} {Q : Unit → State → Prop}
    (h : Q () { s with used := s.used.insert u }) : Ensures site s (markUsed u) Q := by
  unfold markUsed
  split
  · exact (ensures_bind _ _ _).mpr ((ensures_throw _ _).mpr trivial)
  · exact (ensures_modify _ _).mpr h

/-- A mark of definition is the only change; there is none on no node. -/
theorem ensures_markDefined {u : NodeId} {Q : Unit → State → Prop}
    (h : Q () { s with defined := s.defined.insert u }) : Ensures site s (markDefined u) Q := by
  unfold markDefined
  split
  · exact (ensures_bind _ _ _).mpr ((ensures_throw _ _).mpr trivial)
  · exact (ensures_modify _ _).mpr h

/-- An instruction that has the form of its opcode goes to the end of the segment. -/
theorem ensures_emit {i : Instr} {Q : Unit → State → Prop}
    (h : i.check = .ok () → Q () { s with segment := s.segment ++ [i] }) :
    Ensures site s (emit i) Q := by
  unfold emit
  split
  · next hCheck => exact (ensures_modify _ _).mpr (h hCheck)
  · simp only [ensures_bind, ensures_read]
    split
    · simp only [ensures_bind, ensures_lift, ensures_throw]
      exact fun _ _ => trivial
    · simp only [ensures_bind, ensures_pure, ensures_throw]

/-! ## Nodes that are taken in -/

/-- A node is taken in as a shifted register if there is a rule for its operator. Its operand comes
from a register, and its amount is a number where the rule has room for it. -/
theorem ensures_tryShift {id : NodeId} {Q : Option Operand2 → State → Prop}
    (hNone : ∀ op, site.graph.HasOp id op → shiftRule? op = none → Q none s)
    (hShift : ∀ op rule m, site.graph.HasOp id op → shiftRule? op = some rule →
      site.graph.binary id = .ok m →
      Ensures site s (useRegister m.left.id) fun x t =>
        (m.right.isInRange rule.least rule.greatest = true →
          Ensures site t (useImmediate m.right.id) fun amount =>
            Q (some ⟨.shiftImmediate rule.kind, [x, amount]⟩)) ∧
        Ensures site t (useRegister m.right.id) fun amount =>
          Q (some ⟨.shiftRegister rule.kind, [x, amount]⟩)) :
    Ensures site s (tryShift id) Q := by
  unfold tryShift
  simp only [ensures_bind, ensures_read, ensures_lift]
  intro op hOp
  have hIs := Graph.op_eq_ok.mp hOp
  split
  · exact (ensures_bind _ _ _).mpr ((ensures_throw _ _).mpr trivial)
  · split
    · next hRule => exact (ensures_pure _ _).mpr (hNone op hIs hRule)
    · next rule hRule =>
      simp only [ensures_bind, ensures_lift]
      intro m hm
      refine (hShift op rule m hIs hRule hm).mono ?_
      rintro x t ⟨hNumber, hRegister⟩
      split
      · next hRange =>
        simp only [ensures_bind, ensures_pure]
        exact hNumber hRange
      · simp only [ensures_bind, ensures_pure]
        exact hRegister

/-- The flexible operand is a number where the instruction encodes it, and else a shift or none. -/
theorem ensures_tryOperand2 {op : Opcode} {id : NodeId} {Q : Option Operand2 → State → Prop}
    (hNumber : ∀ m, site.graph.int32 id = .ok m → m.value?.any op.canBeImmediate = true →
      Ensures site s (useImmediate id) fun v => Q (some ⟨.immediate, [v]⟩))
    (hShift : ∀ m, site.graph.int32 id = .ok m → m.value?.any op.canBeImmediate = false →
      Ensures site s (tryShift id) Q) :
    Ensures site s (tryOperand2 op id) Q := by
  unfold tryOperand2
  simp only [ensures_bind, ensures_read, ensures_lift]
  intro m hm
  split
  · next hFits =>
    simp only [ensures_bind, ensures_pure]
    exact hNumber m hm hFits
  · next hNot => exact hShift m hm (eq_false_of_ne_true hNot)

/-! ## Loops -/

/-- What holds at first, and still does when a parameter has its register and its location, holds
when all have theirs. -/
theorem ensures_assignParameters {I : State → Prop} {l : List (NodeId × Node)} (linkage : Linkage)
    (h : I s)
    (hStep : ∀ p ∈ l, ∀ (t : State) location, I t → Ensures site t (vreg p.1) fun v t' =>
      I { t' with params := (p.1, .vreg v location) :: t'.params }) :
    Ensures site s (assignParameters linkage l) fun _ s' => I s' := by
  induction l generalizing linkage s with
  | nil =>
    unfold assignParameters
    exact (ensures_pure _ _).mpr h
  | cons p rest ih =>
    obtain ⟨id, n⟩ := p
    unfold assignParameters
    simp only [ensures_bind, ensures_modify]
    refine (hStep _ List.mem_cons_self s (linkage.next (n.mach == .float64)).2 h).mono ?_
    intro v s₁ h₁
    exact ih _ h₁ fun p hp => hStep p (List.mem_cons_of_mem _ hp)

/-- Whether a node is used: its operator is not pure, or it is marked. -/
theorem isUsed_ensures (id : NodeId) :
    Ensures site s (isUsed id) fun used s' => s' = s ∧ ∃ op, site.graph.HasOp id op ∧
      used = (!op.isPure || s.used.contains id) := by
  unfold isUsed
  simp only [ensures_bind, ensures_read, ensures_lift]
  intro op hOp
  split
  · simp only [ensures_bind, ensures_throw]
  · simp only [ensures_bind, ensures_get, ensures_pure]
    exact ⟨trivial, op, Graph.op_eq_ok.mp hOp, rfl⟩

/-- Nodes are covered from the last to the first, and each piece of code goes in front of what is
there. Those that are not used, or computed already, are passed over. -/
theorem ensures_coverNodes {I : List NodeId → List Instr → State → Prop} {b : Nat}
    {l : List NodeId} {code : List Instr} (h : I l code s)
    (hNode : ∀ x rest code t, I (x :: rest) code t →
      (∃ op, site.graph.HasOp x op ∧ op.isPure = false) ∨ x ∈ t.used → x ∉ t.defined →
      Ensures site t (segmentOf b x (coverNode x)) fun piece => I rest (piece ++ code))
    (hSkip : ∀ x rest code t, I (x :: rest) code t →
      (∃ op, site.graph.HasOp x op ∧ op.isPure = true ∧ x ∉ t.used) ∨ x ∈ t.defined →
      I rest code t) :
    Ensures site s (coverNodes b l code) fun all s' => I [] all s' := by
  induction l generalizing s code with
  | nil =>
    unfold coverNodes
    exact (ensures_pure _ _).mpr h
  | cons x rest ih =>
    unfold coverNodes
    simp only [ensures_bind, ensures_get]
    refine (isUsed_ensures x).mono ?_
    rintro used s' ⟨hSame, op, hOp, hUsed⟩
    rw [hSame]
    split
    · next hVisit =>
      simp only [hUsed, Bool.and_eq_true, Bool.or_eq_true, Bool.not_eq_true', List.contains_eq_mem,
        decide_eq_true_eq, decide_eq_false_iff_not] at hVisit
      simp only [ensures_bind]
      refine (hNode x rest code s h (hVisit.1.imp (fun hImpure => ⟨op, hOp, hImpure⟩) id)
        hVisit.2).mono ?_
      intro piece s₁ h₁
      exact ih h₁
    · next hPassed =>
      refine ih (hSkip x rest code s h ?_)
      by_cases hDefined : x ∈ s.defined
      · exact .inr hDefined
      · refine .inl ⟨op, hOp, ?_⟩
        simpa [hUsed, hDefined] using hPassed

/-- Blocks are covered from the last to the first. -/
theorem ensures_coverBlocks {I : List (Block × Nat) → List Covered → State → Prop}
    {l : List (Block × Nat)} {done : List Covered} (h : I l done s)
    (hBlock : ∀ block b rest done t, I ((block, b) :: rest) done t →
      Ensures site t (coverBlock b block) fun c => I rest (c :: done)) :
    Ensures site s (coverBlocks l done) fun all s' => I [] all s' := by
  induction l generalizing s done with
  | nil =>
    unfold coverBlocks
    exact (ensures_pure _ _).mpr h
  | cons p rest ih =>
    obtain ⟨block, b⟩ := p
    unfold coverBlocks
    simp only [ensures_bind]
    refine (hBlock block b rest done s h).mono ?_
    intro c s₁ h₁
    exact ih h₁

/-- What a block has when it is covered, and keeps while others are, all blocks have in the end. -/
theorem ensures_coverBlocks_each {I : List (Block × Nat) → List Covered → State → Prop}
    {P : Covered → Block × Nat → State → Prop} {l : List (Block × Nat)} (h : I l.reverse [] s)
    (hBlock : ∀ block b rest done t, I ((block, b) :: rest) done t →
      Ensures site t (coverBlock b block) fun c t' => I rest (c :: done) t' ∧ P c (block, b) t' ∧
        ∀ c' p, P c' p t → P c' p t') :
    Ensures site s (coverBlocks l.reverse []) fun all s' =>
      I [] all s' ∧ List.Forall₂ (fun c p => P c p s') all l := by
  -- the blocks covered so far are the last ones of the list
  refine Ensures.mono (ensures_coverBlocks (I := fun rest done t => I rest done t ∧
    ∃ tail, l = rest.reverse ++ tail ∧ List.Forall₂ (fun c p => P c p t) done tail)
    ⟨h, [], by simp, .nil⟩ ?_) ?_
  · rintro block b rest done t ⟨hI, tail, hSplit, hAll⟩
    refine (hBlock block b rest done t hI).mono ?_
    rintro c t' ⟨hI', hP, hKeep⟩
    refine ⟨hI', (block, b) :: tail, by simpa using hSplit, ?_⟩
    exact .cons hP (hAll.imp hKeep)
  · rintro all s' ⟨hI, tail, rfl, hAll⟩
    exact ⟨hI, hAll⟩

/-! ## Properties that hold of a sequence

A selector of operands only puts steps together. What holds of a sequence whenever it holds of the
steps therefore holds of the selector, as soon as it holds of the uses of nodes.
-/

/-- A property of steps that doing nothing has, and a sequence of steps that have it. Nothing is run
after a failure, so a sequence that starts with one has it as well. -/
structure Composes (site : Site) (M : ∀ {α : Type}, Select α → Prop) : Prop where
  pure : ∀ {α : Type} (a : α), M (pure a : Select α)
  throw : ∀ {α : Type} (e : Fault), M (throw e : Select α)
  fail : ∀ {α β : Type} (e : Fault) (f : α → Select β), M (MonadExcept.throw e >>= f)
  bind : ∀ {α β : Type} {m : Select α} {f : α → Select β}, M m → (∀ a, M (f a)) → M (m >>= f)
  read : ∀ {β : Type} {f : Site → Select β}, M (f site) → M (read >>= f)
  look : ∀ {α β : Type} {e : Except Fault α} {f : α → Select β}, (∀ a, M (f a)) →
    M (liftM e >>= f)

namespace Composes

variable {M : ∀ {α : Type}, Select α → Prop}

/-- A constant that is taken as a number has the property if entering a number has it. -/
theorem useImmediate (h : Composes site M) (hImmediate : ∀ v, M (immediate v)) (u : NodeId) :
    M (useImmediate u) := by
  unfold Selection.useImmediate
  refine h.read (h.look fun m => ?_)
  split
  · exact hImmediate _
  · exact h.throw _

/-- A shift takes its value from a register, and its amount from a number or a register. -/
theorem tryShift (h : Composes site M) (hUse : ∀ u, M (useRegister u))
    (hImmediate : ∀ u, M (Selection.useImmediate u)) (u : NodeId) : M (tryShift u) := by
  unfold Selection.tryShift
  refine h.read (h.look fun op => ?_)
  dsimp only
  split
  · exact h.fail _ _
  · split
    · exact h.pure _
    · refine h.look fun m => h.bind (hUse _) fun value => ?_
      split
      · exact h.bind (hImmediate _) fun _ => h.pure _
      · exact h.bind (hUse _) fun _ => h.pure _

/-- A flexible operand is a number or a shift. -/
theorem tryOperand2 (h : Composes site M) (hUse : ∀ u, M (useRegister u))
    (hImmediate : ∀ u, M (Selection.useImmediate u)) (op : Opcode) (u : NodeId) :
    M (tryOperand2 op u) := by
  unfold Selection.tryOperand2
  refine h.read (h.look fun m => ?_)
  split
  · exact h.bind (hImmediate _) fun _ => h.pure _
  · exact h.tryShift hUse hImmediate u

end Composes
end ArmBackend.Selection
