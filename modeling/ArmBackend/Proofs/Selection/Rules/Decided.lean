import ArmBackend.Proofs.Selection.Rules.Exact
import ArmBackend.Proofs.Selection.Rules.Nodes

/-!
# Rules that decide a condition

A word that is compared with zero is reached through equalities with zero, each of which turns the
condition round. What is found at their end may set the flags: a comparison by its own condition,
an overflow by emitting the operation, arithmetic by an instruction that computes the word or that
only tests it. Whatever is found, the condition of the one instruction says of the first word what
the continuation asks.

A continuation *asks* of a word whether it is zero, or whether it is not; this is kept down the
equalities (`Reduces`), and `Decides` says that the flags of an instruction give the answer.

## Results

* `coverCompareZero_means` — the answer to a comparison with zero.
* `coverComparison_exact`, `coverEqual_exact`, `coverOverflow_exact` — the flags of nodes.
* `coverBranch_exact` — where a branch goes.
-/

namespace ArmBackend

theorem truth_eq_one (b : Bool) : ((truth b : BitVec 32) == 1) = b := by
  cases b <;> rfl

/-- What a comparison of words is worth, by its matched operands. -/
theorem Graph.Consistent.comparison {g : Graph} {val : NodeId → BitVec 32} {id : NodeId}
    {m : BinaryMatch} {op : Operator} {c : Cond} (h : g.Consistent val) (hOp : g.HasOp id op)
    (hm : g.binary id = .ok m) (hComparison : Selection.comparison? op = some (.words c)) :
    ∃ b, c.compare? (val m.left.id) (val m.right.id) = some b ∧ val id = truth b := by
  unfold Selection.comparison? at hComparison
  split at hComparison <;> cases hComparison
  · exact ⟨_, rfl, h.binary_word32 hOp hm⟩
  all_goals exact ⟨_, rfl, h.binary_int32 hOp hm⟩

namespace Selection

variable {site : Site} {g : Graph} {s s' : State} {id u v w x : NodeId} {r : Nat}
  {val : NodeId → BitVec 32} {ρ : Reading} {k k' : Continuation} {op : Opcode} {c : Cond}
  {b : (NodeId → BitVec 32) → Bool} {flag : Bool} {i : Instr} {values : List NodeId}
  {Q : (NodeId → BitVec 32) → Reading → BitVec 32 × Flags → Prop}

/-! ## Questions -/

namespace Continuation

/-- What a continuation asks of a word: whether it is zero, or whether it is not. -/
def asks (k : Continuation) (w : BitVec 32) : Bool :=
  if k.cond = .eq then w == 0 else w != 0

theorem asks_truth (k : Continuation) (b : Bool) :
    k.asks (truth b) = if k.cond = .eq then !b else b := by
  unfold asks
  split <;> cases b <;> rfl

/-- Whether a continuation asks for zero. -/
def TestsZero (k : Continuation) : Prop :=
  k.cond = .eq ∨ k.cond = .ne

theorem TestsZero.negate (h : k.TestsZero) : k.negate.TestsZero := by
  unfold TestsZero Continuation.negate
  rcases h with h | h <;> simp [h, Cond.negate]

/-- The opposite question about a word is the question about its equality with zero. -/
theorem TestsZero.asks_negate (h : k.TestsZero) (w : BitVec 32) :
    k.negate.asks w = k.asks (truth (w == 0)) := by
  rw [asks_truth]
  unfold asks Continuation.negate
  rcases h with h | h <;> simp [h, Cond.negate, bne]

/-- Exchanged operands change nothing. -/
theorem TestsZero.cond_commute (h : k.TestsZero) : k.commute.cond = k.cond := by
  unfold Continuation.commute
  rcases h with h | h <;> simp [h, Cond.commute]

/-- The zero flag answers. -/
theorem TestsZero.holds? (h : k.TestsZero) {f : Flags} {w : BitVec 32} (hz : f.z = (w == 0)) :
    k.cond.holds? f = some (k.asks w) := by
  unfold asks
  rcases h with h | h <;> simp [h, Cond.holds?, hz, bne]

/-- A condition in place of a comparison with zero: what is asked of its truth. -/
theorem holds?_overwrite (k : Continuation) {f : Flags} (h : c.holds? f = some flag) :
    (k.overwrite c).cond.holds? f = some (k.asks (truth flag)) := by
  rw [asks_truth]
  unfold overwrite
  split
  · rw [Cond.holds?_negate, h]
    rfl
  · exact h

theorem compare?_overwrite (k : Continuation) {x y : BitVec 32}
    (h : c.compare? x y = some flag) :
    (k.overwrite c).cond.compare? x y = some (k.asks (truth flag)) := by
  rw [asks_truth]
  unfold overwrite
  split
  · rw [Cond.compare?_negate, h]
    rfl
  · exact h

end Continuation

/-- Whether `k'` asks of `w` what `k` asks of `v`, with nothing but equalities with zero between
them. -/
structure Reduces (g : Graph) (k k' : Continuation) (v w : NodeId) : Prop where
  use : k'.use = k.use
  tests : k'.TestsZero
  chain : Relation.ReflTransGen g.Negates v w
  asks : ∀ val, g.Consistent val → k'.asks (val w) = k.asks (val v)

theorem Reduces.refl (hk : k.TestsZero) (v : NodeId) : Reduces g k k v v :=
  ⟨rfl, hk, .refl, fun _ _ => rfl⟩

/-- An equality with zero turns the question round. -/
theorem Reduces.step {m : BinaryMatch} (hk : k.TestsZero) (hOp : g.HasOp v (.word32 .equal))
    (hm : g.binary v = .ok m) (hZero : m.right.isConst 0 = true)
    (h : Reduces g k.negate k' m.left.id w) : Reduces g k k' v w where
  use := h.use
  tests := h.tests
  chain := .head ⟨hOp, m, hm, hZero, rfl⟩ h.chain
  asks := by
    intro val hVal
    have hRight := hVal.value (Graph.binary_inputs hm).1.2 (eq_of_beq hZero)
    have hEqual : val v = truth (val m.left.id == 0) := by
      rw [← hRight]
      exact hVal.binary_word32 hOp hm
    rw [h.asks val hVal, hk.asks_negate, hEqual]

theorem stripNegations_means {fuel : Nat} (hk : k.TestsZero) :
    Ensures site s (stripNegations fuel u v k) fun r s' => s' = s ∧
      Reduces site.graph k r.2.2 v r.2.1 := by
  -- Along the recursion the question is turned round once for each equality that is stripped.
  induction fuel generalizing u v k with
  | zero => exact (ensures_throw _ _).mpr trivial
  | succ fuel ih =>
    have hDone : Ensures site s (pure (u, v, k)) fun r s' => s' = s ∧
        Reduces site.graph k r.2.2 v r.2.1 := (ensures_pure _ _).mpr ⟨rfl, .refl hk v⟩
    unfold stripNegations
    simp only [ensures_bind]
    refine (canCover_ensures u v).mono ?_
    rintro covered _ ⟨rfl, -⟩
    split
    · exact hDone
    · simp only [ensures_bind, ensures_read, ensures_lift]
      intro operator hOp
      split
      · exact hDone
      · next hEqual =>
        simp only [ensures_bind, ensures_lift]
        intro m hm
        split
        · exact hDone
        · next hZero =>
          rw [Decidable.not_not.mp hEqual] at hOp
          refine (ih hk.negate).mono ?_
          rintro r _ ⟨rfl, hReduces⟩
          exact ⟨rfl, .step hk (Graph.op_eq_ok.mp hOp) hm (by simpa using hZero) hReduces⟩

/-! ## Answers -/

/-- What an instruction adds whose flags answer `b`, for the use that `k` makes of them: beside it
writes the nodes in `values`. Where doubles decide about `v` the flags are not those of words. -/
structure Decides (site : Site) (v : NodeId) (k : Continuation) (b : (NodeId → BitVec 32) → Bool)
    (s s' : State) (values : List NodeId) (i : Instr) : Prop where
  advances : Advances s s' [i] (· ∈ values ++ k.nodes)
  output : ∃ out, Flagging site k out s' i ∧ List.Forall₂ (Serves site s' i) values out
  holds : (i.op = .vcmp ∧ site.graph.AsksDoubles v) ∨
    Always site.graph s' fun val ρ => i.holds? ρ = some (b val)

theorem Flagging.of_use {out : List Operand} (h : Flagging site k' out s i)
    (hUse : k'.use = k.use) : Flagging site k out s i := by
  unfold Flagging at h ⊢
  rw [← hUse]
  exact h

theorem nodes_of_use (hUse : k'.use = k.use) : k'.nodes = k.nodes := by
  unfold Continuation.nodes Continuation.target?
  rw [hUse]

/-- The condition of an instruction is decided by its outcome. -/
theorem Always.holds? (hCond : i.cond = k'.cond)
    (h : Always g s fun val ρ => ∃ p, i.outcome? ρ = some p ∧ Q val ρ p)
    (hQ : ∀ val ρ p, g.Consistent val → Q val ρ p → k'.cond.holds? p.2 = some (b val)) :
    Always g s fun val ρ => i.holds? ρ = some (b val) := by
  refine h.mono ?_
  rintro val ρ hVal ⟨p, hp, hHolds⟩
  unfold Instr.holds?
  rw [hp, hCond]
  exact hQ val ρ p hVal hHolds

/-- An instruction that computes a word beside the flags. -/
theorem Outcome.decides {operator : Operator} (h : Outcome site id k' (· ∈ id :: k'.nodes) Q s s' i)
    (hUse : k'.use = k.use) (hOp : site.graph.HasOp id operator)
    (hProcessing : operator.isProcessing = true)
    (hQ : ∀ val ρ p, site.graph.Consistent val → Q val ρ p →
      p.1 = val id ∧ k'.cond.holds? p.2 = some (b val)) :
    Decides site v k b s s' [id] i := by
  obtain ⟨r, hStands, hFlagging⟩ := h.output
  refine ⟨?_, ⟨_, hFlagging.of_use hUse, .cons ⟨r, rfl, ?_, ?_⟩ .nil⟩, .inr ?_⟩
  · rw [← nodes_of_use hUse]
    exact h.advances
  · exact hStands.own (isProcessing_owns hOp hProcessing)
  · refine .of_word hOp hProcessing (.inr (h.outcome.mono ?_))
    rintro val ρ hVal ⟨p, hp, hHolds⟩
    rw [result?_of_outcome hp, (hQ val ρ p hVal hHolds).1]
  · exact h.outcome.holds? h.cond fun val ρ p hVal hp => (hQ val ρ p hVal hp).2

/-- An instruction with two operands that only sets the flags. -/
theorem emitTest_means {o : Operand} {f : Operand2} {t : State} (ht : Advances s t [] (· ∈ k.nodes))
    (hUse : k'.use = k.use)
    (ho : Always site.graph t fun val ρ => ρ.register? o = some (val x))
    (hf : f.Reads site.graph t u)
    (hQ : ∀ val ρ, site.graph.Consistent val →
      ∃ p, op.process? ρ (val x) (val u) = some p ∧ k'.cond.holds? p.2 = some (b val)) :
    Ensures site t (emitFlags op f.mode k' [] (o :: f.operands)) fun _ s' =>
      ∃ i, Decides site v k b s s' [] i := by
  refine (emitProcess_means (D := (· ∈ k.nodes)) ht.sound ?_ [] ho hf hQ).mono ?_
  · intro node hn
    exact nodes_of_use hUse ▸ hn
  · rintro _ s' ⟨i, h, -, hCond, hFlagging, hOutcome⟩
    exact ⟨i, ht.trans h, ⟨[], hFlagging.of_use hUse, .nil⟩,
      .inr (hOutcome.holds? hCond fun _ _ _ _ hp => hp)⟩

/-- A comparison, of the operands in their order or, with the condition for exchanged operands, the
other way round. -/
theorem coverCompare_means (hs : s.Sound) (commutative : Bool)
    (hDirect : ∀ m, site.graph.binary v = .ok m → ∀ val ρ, site.graph.Consistent val →
      ∃ p, op.process? ρ (val m.left.id) (val m.right.id) = some p ∧
        k.cond.holds? p.2 = some (b val))
    (hTurned : ∀ m, site.graph.binary v = .ok m → ∀ val ρ, site.graph.Consistent val →
      ∃ p, op.process? ρ (val m.right.id) (val m.left.id) = some p ∧
        (if commutative then k else k.commute).cond.holds? p.2 = some (b val)) :
    Ensures site s (coverCompare v op k commutative) fun _ s' =>
      ∃ i, Decides site v k b s s' [] i := by
  unfold coverCompare
  simp only [ensures_bind, ensures_read, ensures_lift]
  intro m hm
  -- The right operand is taken in if it can be, else the left one with the operands exchanged.
  refine (tryOperand2_means (· ∈ k.nodes) hs op m.right.id).mono ?_
  rintro right s₁ ⟨h₁, hRight⟩
  split
  · next f =>
    simp only [ensures_bind]
    refine (useRegister_means (· ∈ k.nodes) h₁.sound m.left.id).mono ?_
    rintro x s₂ ⟨h₂, hx⟩
    exact emitTest_means (h₁.trans h₂) rfl hx ((hRight f rfl).grown h₂.toGrown) (hDirect m hm)
  · simp only [ensures_bind]
    refine (tryOperand2_means (· ∈ k.nodes) h₁.sound op m.left.id).mono ?_
    rintro left s₂ ⟨h₂, hLeft⟩
    have h₁₂ := h₁.trans h₂
    split
    · next f =>
      simp only [ensures_bind]
      refine (useRegister_means (· ∈ k.nodes) h₂.sound m.right.id).mono ?_
      rintro y s₃ ⟨h₃, hy⟩
      refine emitTest_means (h₁₂.trans h₃) ?_ hy ((hLeft f rfl).grown h₃.toGrown) (hTurned m hm)
      cases commutative <;> rfl
    · simp only [ensures_bind]
      refine (useRegister_means (· ∈ k.nodes) h₂.sound m.left.id).mono ?_
      rintro x s₃ ⟨h₃, hx⟩
      refine (useRegister_means (· ∈ k.nodes) h₃.sound m.right.id).mono ?_
      rintro y s₄ ⟨h₄, hy⟩
      exact emitTest_means ((h₁₂.trans h₃).trans h₄) rfl (hx.grown h₄.toGrown) (.of_register hy)
        (hDirect m hm)

/-- A word is tested against itself. -/
theorem coverTest_means (hs : s.Sound) (hk : k.TestsZero) (v : NodeId) :
    Ensures site s (coverTest v k) fun _ s' =>
      ∃ i, Decides site v k (fun val => k.asks (val v)) s s' [] i := by
  unfold coverTest
  simp only [ensures_bind]
  refine (useRegister_means (· ∈ k.nodes) hs v).mono ?_
  rintro o s₁ ⟨h₁, ho⟩
  refine emitTest_means h₁ rfl ho (.of_register ho) fun val ρ _ => ⟨_, rfl, hk.holds? ?_⟩
  show (val v &&& val v == 0) = (val v == 0)
  rw [BitVec.and_self]

/-- A comparison is decided by a condition of its own, or by doubles. -/
theorem emitComparison_means {operator : Operator} {comparison : Comparison} (hs : s.Sound)
    (hOp : site.graph.HasOp v operator) (hComparison : comparison? operator = some comparison)
    (hAsks : ∀ val, site.graph.Consistent val → ∀ x y flag,
      comparison.cond.compare? x y = some flag → val v = truth flag →
      k.cond.compare? x y = some (b val)) :
    Ensures site s (emitComparison comparison v k) fun _ s' =>
      ∃ i, Decides site v k b s s' [] i := by
  cases comparison with
  | words cond =>
    have hCompare : ∀ m, site.graph.binary v = .ok m → ∀ val, site.graph.Consistent val →
        k.cond.compare? (val m.left.id) (val m.right.id) = some (b val) := by
      intro m hm val hVal
      obtain ⟨flag, hFlag, hv⟩ := hVal.comparison hOp hm hComparison
      exact hAsks val hVal _ _ flag hFlag hv
    -- with the operands swapped the condition is commuted, so the same answer is read
    refine coverCompare_means hs false ?_ ?_
    · intro m hm val ρ hVal
      exact ⟨_, rfl, Cond.holds?_cmp (hCompare m hm val hVal)⟩
    · intro m hm val ρ hVal
      exact ⟨_, rfl, Cond.holds?_cmp ((Cond.compare?_commute _ _ _).trans (hCompare m hm val hVal))⟩
  | doubles cond =>
    show Ensures site s (coverDoubleCompare v k) _
    unfold coverDoubleCompare
    simp only [ensures_bind, ensures_read, ensures_lift]
    intro n _ l _
    refine (useRegister_means (· ∈ k.nodes) hs l).mono ?_
    rintro left s₁ ⟨h₁, -⟩ m _
    refine (useRegister_means (· ∈ k.nodes) h₁.sound m).mono ?_
    rintro right s₂ ⟨h₂, -⟩
    refine (emitFlags_means (P := fun _ _ _ => True) h₂.sound (fun _ hn => hn) _ _
      fun _ _ _ _ _ _ _ _ => trivial).mono ?_
    rintro _ s₃ ⟨i, h₃, hVcmp, -, hFlagging, -⟩
    -- a comparison of doubles is only reported as such: its flags are not read as words
    exact ⟨i, (h₁.trans h₂).trans h₃, ⟨[], hFlagging, .nil⟩,
      .inl ⟨hVcmp, v, operator, cond, .refl, hOp, hComparison⟩⟩

/-- The opcodes of an operation with overflow compute its word and its overflow. -/
theorem overflowOps?_process {operator : Operator} {direct reverse : Opcode}
    (h : overflowOps? operator = some (direct, reverse)) :
    ∃ n, operator = .int32 n ∧ operator.isProcessing = true ∧ operator.hasOverflow = true ∧
      ∀ ρ x y, ∃ flag, n.overflows? x y = some flag ∧
        (∃ p, direct.process? ρ x y = some p ∧ p.1 = n.eval x y ∧ p.2.v = flag) ∧
          ∃ p, reverse.process? ρ y x = some p ∧ p.1 = n.eval x y ∧ p.2.v = flag := by
  unfold overflowOps? at h
  split at h <;> cases h
  · refine ⟨_, rfl, rfl, rfl, fun ρ x y => ⟨_, rfl, ⟨_, rfl, add_fst x y, add_v x y⟩, _, rfl, ?_⟩⟩
    rw [addWithCarry_comm]
    exact ⟨add_fst x y, add_v x y⟩
  · refine ⟨_, rfl, rfl, rfl, fun ρ x y => ⟨_, rfl, ⟨_, rfl, sub_fst x y, sub_v x y⟩, _, rfl, ?_⟩⟩
    rw [addWithCarry_comm]
    exact ⟨sub_fst x y, sub_v x y⟩

/-- The operations with overflow leave the flag of a projection in the overflow flag. -/
theorem coverBinary_overflow {operator : Operator} {direct reverse : Opcode} {p : NodeId}
    (hs : s.Sound) (hOp : site.graph.HasOp id operator)
    (hOps : overflowOps? operator = some (direct, reverse)) :
    Ensures site s (coverBinary id direct reverse k) fun _ s' =>
      ∃ i, Outcome site id k (· ∈ id :: k.nodes) (fun val _ out => out.1 = val id ∧
        (site.graph.Projects p 1 id → val p = truth out.2.v)) s s' i := by
  obtain ⟨n, rfl, -, -, hProcess⟩ := overflowOps?_process hOps
  refine coverBinary_means hs (fun _ hn => hn) ?_
  intro m hm val ρ hVal
  -- both orders of the operands, each with its word and its flag
  obtain ⟨flag, hFlag, ⟨q, hq, hWord, hv⟩, q', hq', hWord', hv'⟩ :=
    hProcess ρ (val m.left.id) (val m.right.id)
  have hEval := hVal.binary_int32 hOp hm
  refine ⟨⟨q, hq, hWord.trans hEval.symm, fun hp => ?_⟩,
    q', hq', hWord'.trans hEval.symm, fun hp => ?_⟩
  · rw [hv]
    exact hVal.binary_overflow hp hOp hm hFlag
  · rw [hv']
    exact hVal.binary_overflow hp hOp hm hFlag

/-- The instruction that sets the flags as an operator would, in either order of its operands. -/
theorem testOp?_process {operator : Operator} {m : BinaryMatch} (h : testOp? operator = some op)
    (hOp : site.graph.HasOp v operator) (hm : site.graph.binary v = .ok m)
    (hVal : site.graph.Consistent val) (ρ : Reading) :
    (∃ p, op.process? ρ (val m.left.id) (val m.right.id) = some p ∧ p.2.z = (val v == 0)) ∧
      ∃ p, op.process? ρ (val m.right.id) (val m.left.id) = some p ∧ p.2.z = (val v == 0) := by
  unfold testOp? at h
  split at h <;> cases h
  · rw [hVal.binary_word32 hOp hm]
    refine ⟨⟨_, rfl, rfl⟩, _, rfl, ?_⟩
    rw [process?_z (show Opcode.tst.process? ρ _ _ = some _ from rfl)]
    exact congrArg (· == 0) (BitVec.and_comm ..)
  · rw [hVal.binary_word32 hOp hm]
    refine ⟨⟨_, rfl, rfl⟩, _, rfl, ?_⟩
    exact congrArg (· == 0) (BitVec.xor_comm ..)
  · rw [hVal.binary_int32 hOp hm]
    refine ⟨⟨_, rfl, add_z _ _⟩, _, rfl, ?_⟩
    rw [addWithCarry_comm]
    exact add_z _ _
  · -- A difference is zero when the operands are equal, in either order.
    have hZero : (val v == 0) = (val m.left.id == val m.right.id) := by
      rw [hVal.binary_int32 hOp hm]
      exact sub_beq_zero _ _
    rw [hZero]
    exact ⟨⟨_, rfl, sub_z _ _⟩, _, rfl, (sub_z _ _).trans (Bool.beq_comm ..)⟩

/-! ## Comparisons with zero -/

/-- What is found at the end of the equalities answers by the instruction that fits it. -/
theorem coverFlags_means (hs : s.Sound) (hk : k.TestsZero) (v : NodeId) :
    Ensures site s (coverFlags v k) fun _ s' =>
      ∃ values i, Decides site v k (fun val => k.asks (val v)) s s' values i := by
  have hTest : Ensures site s (coverTest v k) fun _ s' =>
      ∃ values i, Decides site v k (fun val => k.asks (val v)) s s' values i :=
    (coverTest_means hs hk v).mono fun _ _ h => ⟨[], h⟩
  unfold coverFlags
  simp only [ensures_bind, ensures_read, ensures_lift]
  intro operator hOperator
  have hOp := Graph.op_eq_ok.mp hOperator
  -- A comparison decides by a condition of its own. Everything else decides by whether its word is
  -- zero: by the flags of the instruction that computes the word, or by a test of the word.
  split
  · next comparison hComparison =>
    refine (emitComparison_means (b := fun val => k.asks (val v)) hs hOp hComparison ?_).mono ?_
    · intro val _ x y flag hFlag hv
      rw [hv]
      exact k.compare?_overwrite hFlag
    · rintro _ s' ⟨i, h⟩
      exact ⟨[], i, h.advances, h.output, h.holds⟩
  · split
    · next test hTestOp =>
      refine (coverCompare_means (b := fun val => k.asks (val v)) hs _ ?_ ?_).mono ?_
      · intro m hm val ρ hVal
        obtain ⟨⟨p, hp, hz⟩, -⟩ := testOp?_process hTestOp hOp hm hVal ρ
        exact ⟨p, hp, hk.holds? hz⟩
      · intro m hm val ρ hVal
        obtain ⟨-, p, hp, hz⟩ := testOp?_process hTestOp hOp hm hVal ρ
        refine ⟨p, hp, ?_⟩
        split
        · exact hk.holds? hz
        · rw [hk.cond_commute]
          exact hk.holds? hz
      · rintro _ s' ⟨i, h⟩
        exact ⟨[], i, h⟩
    · have hShift : ∀ {word : Word32Op}, operator = .word32 word → word ≠ .equal →
          Ensures site s (coverShift v k) fun _ s' =>
            ∃ values i, Decides site v k (fun val => k.asks (val v)) s s' values i := by
        rintro word rfl hEqual
        refine (coverShift_means (D := (· ∈ v :: k.nodes)) hs fun _ hn => hn).mono ?_
        rintro _ s' ⟨i, h⟩
        refine ⟨[v], i, h.decides rfl hOp (decide_eq_true hEqual) ?_⟩
        rintro val ρ _ - rfl
        exact ⟨rfl, hk.holds? rfl⟩
      split
      · simp only [ensures_bind]
        refine (fusedOverflow?_ops v k).mono ?_
        rintro r _ ⟨rfl, hr⟩
        split
        · next x direct reverse =>
          obtain ⟨hProjects, xOp, hx, hOps⟩ := hr x direct reverse rfl
          -- The flag is the overflow itself, so that takes the place of the comparison with zero.
          obtain ⟨-, -, hProcessing, -⟩ := overflowOps?_process hOps
          refine (coverBinary_overflow (k := k.overwrite .vs) (p := v) hs hx hOps).mono ?_
          rintro _ s' ⟨i, h⟩
          refine ⟨[x], i, h.decides rfl hx hProcessing ?_⟩
          rintro val ρ p _ ⟨hWord, hFlag⟩
          refine ⟨hWord, ?_⟩
          rw [hFlag (hProjects hOp)]
          exact k.holds?_overwrite rfl
        · exact hTest
      · refine (coverBinary_means (D := (· ∈ v :: k.nodes))
          (Q := fun val _ p => p.1 = val v ∧ p.2.z = (val v == 0)) hs (fun _ hn => hn) ?_).mono ?_
        · intro m hm val ρ hVal
          rw [hVal.binary_word32 hOp hm]
          refine ⟨⟨_, rfl, rfl, rfl⟩, _, rfl, BitVec.or_comm .., ?_⟩
          exact congrArg (· == 0) (BitVec.or_comm ..)
        · rintro _ s' ⟨i, h⟩
          exact ⟨[v], i, h.decides rfl hOp rfl fun val ρ p _ hp => ⟨hp.1, hk.holds? hp.2⟩⟩
      · exact hShift rfl nofun
      · exact hShift rfl nofun
      · exact hShift rfl nofun
      · exact hShift rfl nofun
      · exact hTest

/-- The answer at the end of the equalities answers the question at their start. -/
theorem Decides.reduces (h : Decides site w k' (fun val => k'.asks (val w)) s s' values i)
    (hReduces : Reduces site.graph k k' v w) :
    Decides site v k (fun val => k.asks (val v)) s s' values i where
  advances := nodes_of_use hReduces.use ▸ h.advances
  output := by
    obtain ⟨out, hFlagging, hServes⟩ := h.output
    exact ⟨out, hFlagging.of_use hReduces.use, hServes⟩
  holds := by
    refine h.holds.imp ?_ ?_
    · rintro ⟨hVcmp, w', operator, c, hChain, hDoubles⟩
      exact ⟨hVcmp, w', operator, c, hReduces.chain.trans hChain, hDoubles⟩
    · intro hHolds
      refine hHolds.mono fun val ρ hVal hAnswer => ?_
      rw [hAnswer, hReduces.asks val hVal]

theorem coverCompareZero_means (hs : s.Sound) (hk : k.TestsZero) (u v : NodeId) :
    Ensures site s (coverCompareZero u v k) fun _ s' =>
      ∃ values i, Decides site v k (fun val => k.asks (val v)) s s' values i := by
  unfold coverCompareZero
  simp only [ensures_bind, ensures_read]
  refine (stripNegations_means hk).mono ?_
  rintro ⟨user, value, k'⟩ _ ⟨rfl, hReduces⟩
  dsimp only at hReduces ⊢
  refine (canCover_ensures user value).mono ?_
  rintro covered _ ⟨rfl, -⟩
  split
  · refine (coverFlags_means hs hReduces.tests value).mono ?_
    rintro _ s' ⟨values, i, h⟩
    exact ⟨values, i, h.reduces hReduces⟩
  · refine (coverTest_means hs hReduces.tests value).mono ?_
    rintro _ s' ⟨i, h⟩
    exact ⟨[], i, h.reduces hReduces⟩

/-! ## Flags of nodes -/

theorem isComparison_owns {operator : Operator} (hOp : g.HasOp id operator)
    (h : operator.isComparison = true) : operator.isProcessing = false ∧ Owns g id := by
  cases operator with
  | word32 w => cases w <;> first | exact ⟨rfl, .of_op hOp nofun nofun rfl⟩ | cases h
  | int32 w => cases w <;> first | exact ⟨rfl, .of_op hOp nofun nofun rfl⟩ | cases h
  | _ => cases h

/-- The flag of a comparison is delivered when the answer is its truth. -/
theorem Decides.emitted {operator : Operator}
    (h : Decides site v (.result c id) b s s' values i) (hOp : site.graph.HasOp id operator)
    (hComparison : operator.isComparison = true)
    (hb : ∀ val, site.graph.Consistent val → b val = (val id == 1))
    (hDoubles : site.graph.AsksDoubles v → site.graph.AsksDoubles id) :
    Emitted site s s' (values ++ [id]) i := by
  obtain ⟨hProcessing, hOwns⟩ := isComparison_owns hOp hComparison
  obtain ⟨out, ⟨hSet, r, hOut, hStands⟩, hServes⟩ := h.output
  refine ⟨h.advances, ?_⟩
  have hFlag : Delivers site s' i id r := by
    refine .of_flag hOp hProcessing fun _ => ?_
    rcases h.holds with ⟨hVcmp, hAsks⟩ | hHolds
    · exact .inl ⟨hVcmp, hDoubles hAsks⟩
    · refine .inr ⟨hSet, by rw [hOut, List.getLast?_concat], hHolds.mono fun val ρ hVal hAnswer => ?_⟩
      rw [hAnswer, hb val hVal]
  rw [hOut]
  exact List.rel_append hServes (.cons ⟨r, rfl, hStands.own hOwns, hFlag⟩ .nil)

theorem coverComparison_exact {operator : Operator} (hs : s.Sound)
    (hOp : site.graph.HasOp id operator) (hIs : operator.isComparison = true)
    (hComparison : comparison? operator = some (.words c)) :
    Ensures site s (coverComparison id (.words c)) fun _ s' => ∃ i, Emitted site s s' [id] i := by
  refine (emitComparison_means (b := fun val => val id == 1) hs hOp hComparison ?_).mono ?_
  · intro val _ x y flag hFlag hv
    rw [hv, truth_eq_one]
    exact hFlag
  · rintro _ s' ⟨i, h⟩
    exact ⟨i, h.emitted hOp hIs (fun _ _ => rfl) fun hDoubles => hDoubles⟩

theorem coverEqual_exact (hs : s.Sound) (hOp : site.graph.HasOp id (.word32 .equal)) :
    Ensures site s (coverEqual id) fun _ s' => ∃ nodes i, Emitted site s s' nodes i := by
  unfold coverEqual
  simp only [ensures_bind, ensures_read, ensures_lift]
  intro m hm
  have hEqual : ∀ val, site.graph.Consistent val →
      val id = truth (val m.left.id == val m.right.id) := fun val hVal => hVal.binary_word32 hOp hm
  split
  · next hZero =>
    -- comparing with zero may go on into the comparison that is tested
    refine (coverCompareZero_means (k := .result .eq id) hs (.inl rfl) id m.left.id).mono ?_
    rintro _ s' ⟨values, i, h⟩
    refine ⟨values ++ [id], i, h.emitted hOp rfl ?_ ?_⟩
    · intro val hVal
      rw [hEqual val hVal, truth_eq_one, hVal.value (Graph.binary_inputs hm).1.2 (eq_of_beq hZero)]
      rfl
    · rintro ⟨w, operator, c, hChain, hDoubles⟩
      exact ⟨w, operator, c, .head ⟨hOp, m, hm, hZero, rfl⟩ hChain, hDoubles⟩
  · refine (coverComparison_exact hs hOp rfl rfl).mono ?_
    rintro _ s' ⟨i, h⟩
    exact ⟨[id], i, h⟩

/-- The projection that is found is a flag of the operation, if it is a flag at all. -/
theorem projects_of_found {p : NodeId} {n : Node} (hn : g.node? p = some n)
    (hProjection : n.op = .projection) (hInt : n.int = 1) (hMem : x ∈ n.inputs)
    (hFlag : g.IsFlag p) : g.Projects p 1 x := by
  obtain ⟨m, hm, hIs⟩ := hFlag
  cases hn.symm.trans hm
  rcases hIs with hComparison | ⟨-, -, y, -, hInputs, -⟩
  · rw [hProjection] at hComparison
    cases hComparison
  · rw [hInputs, List.mem_singleton] at hMem
    refine ⟨n, hn, hProjection, hInt, ?_⟩
    rw [hMem]
    unfold Node.input
    simp [hInputs]

/-- An operation with overflow computes its word, and its flag where this is placed. -/
theorem coverOverflow_exact {operator : Operator} {direct reverse : Opcode} (hs : s.Sound)
    (hOp : site.graph.HasOp id operator) (hOps : overflowOps? operator = some (direct, reverse)) :
    Ensures site s (coverOverflow id direct reverse) fun _ s' =>
      ∃ nodes i, Emitted site s s' nodes i := by
  obtain ⟨-, -, hProcessing, -⟩ := overflowOps?_process hOps
  unfold coverOverflow
  simp only [ensures_bind, ensures_read, ensures_lift]
  intro flag hFound
  split
  · next hPlaced =>
    -- The instruction has two outputs: the word of the operation, and its overflow.
    obtain ⟨n, hn, hProjection, hInt, hMem⟩ := (Graph.findProjection_eq_ok hFound).1 hPlaced.1
    have hOwns : Owns site.graph flag := by
      refine ⟨_, ⟨n, hn, hProjection⟩, .own hn (by rw [hProjection]; nofun) ?_, rfl⟩
      rintro - hZero
      exact absurd (hInt.symm.trans hZero) (by decide)
    refine (coverBinary_overflow (p := flag) hs hOp hOps).mono ?_
    rintro _ s' ⟨i, h⟩
    obtain ⟨r, hStands, hSet, r', hOut, hStands'⟩ := h.output
    refine ⟨[id, flag], i, h.advances, ?_⟩
    rw [hOut]
    refine .cons ⟨r, rfl, hStands.own (isProcessing_owns hOp hProcessing), ?_⟩
      (.cons ⟨r', rfl, hStands'.own hOwns, ?_⟩ .nil)
    · refine .of_word hOp hProcessing (.inr (h.outcome.mono ?_))
      rintro val ρ _ ⟨p, hp, hWord, -⟩
      rw [result?_of_outcome hp, hWord]
    · refine .of_flag ⟨n, hn, hProjection⟩ rfl fun hFlag => .inr ⟨hSet, by rw [hOut]; rfl, ?_⟩
      refine h.outcome.holds? h.cond ?_
      rintro val ρ p _ ⟨-, hv⟩
      rw [hv (projects_of_found hn hProjection hInt hMem hFlag), truth_eq_one]
      rfl
  · refine (coverBinary_overflow (p := flag) hs hOp hOps).mono ?_
    rintro _ s' ⟨i, h⟩
    exact ⟨[id], i, h.emitted (fun _ hx => List.mem_singleton.mp hx) hOp hProcessing
      fun _ _ _ _ hp => hp.1⟩

/-! ## Branches -/

/-- Whether a branch goes to its first label when the word of `c` is not zero, and to the second
when it is. -/
structure Chooses (site : Site) (s : State) (i : Instr) (c : NodeId) (t f : Nat) : Prop where
  branches : i.Branches t f
  target : (i.op = .vcmp ∧ site.graph.AsksDoubles c) ∨
    Always site.graph s fun val ρ => i.target? ρ = some (if val c ≠ 0 then (t : Int) else f)

theorem coverBranch_exact (hs : s.Sound) (t f : Nat) :
    Ensures site s (coverBranch id t f) fun _ s' => ∃ c nodes i,
      site.graph.valueIn id 0 = .ok c ∧ Emitted site s s' nodes i ∧ Chooses site s' i c t f := by
  unfold coverBranch
  simp only [ensures_bind, ensures_read, ensures_lift]
  intro c hc
  refine (coverCompareZero_means (k := .branch .ne t f) hs (.inr rfl) id c).mono ?_
  rintro _ s' ⟨values, i, h⟩
  obtain ⟨out, ⟨hOut, hBranches⟩, hServes⟩ := h.output
  refine ⟨c, values, i, hc, ⟨?_, hOut ▸ hServes⟩, hBranches, h.holds.imp_right ?_⟩
  · exact h.advances.mono fun x hx => by simpa [Continuation.nodes, Continuation.branch,
      Continuation.target?] using hx
  · intro hHolds
    refine hHolds.mono fun val ρ _ hAnswer => ?_
    obtain ⟨-, front, hInputs⟩ := hBranches
    unfold Instr.target?
    simp only [hInputs, List.reverse_append, List.reverse_cons, List.reverse_nil, List.nil_append,
      List.cons_append, hAnswer, Option.map_some]
    congr 1
    simp [Continuation.asks, Continuation.branch]

end Selection
end ArmBackend
