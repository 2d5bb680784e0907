import ArmBackend.Proofs.BitRuns
import ArmBackend.Proofs.Processor
import ArmBackend.Proofs.Quotients
import ArmBackend.Proofs.Selection.Returns
import ArmBackend.Proofs.Selection.Rules.Exact
import ArmBackend.Proofs.Selection.Rules.Words

/-!
# Products, quotients and remainders

A product with a constant next to a power of two is a sum or a difference of the other operand and
the same one shifted; every other product is a multiplication. A quotient is one instruction where
the processor divides, and goes through doubles elsewhere; a remainder takes the product of quotient
and divisor off the dividend, by one instruction or by two.

## Results

* `shiftedSum?_mul` — the constants next to a power of two.
* `emitDivision_runs`, `coverRemainder_runs` — what the code of a division leaves, by either way.
* `coverNode_arithmetic` — the interpreter's product, quotient and remainder.
-/

namespace ArmBackend

namespace Selection

variable {site : Site} {start s s' : State} {id u w x y : NodeId} {i : Instr} {m : BinaryMatch}
  {f : BitVec 32 → BitVec 32 → BitVec 32} {ops : DivisionOps} {op : Opcode} {k : Nat}

/-! ## Products -/

/-- A positive word that has no bit in common with the word below it is a power of two, and less
than the sign. -/
theorem twoPow_of_positive {v : BitVec 32} (hPos : 0 < v.toInt) (hAnd : v &&& (v - 1) = 0) :
    trailingZeros v ≤ 30 ∧ v = BitVec.twoPow 32 (trailingZeros v) := by
  have hNonzero : v ≠ 0 := by
    rintro rfl
    exact absurd hPos (by decide)
  have hTwo := eq_twoPow_of_and hNonzero hAnd
  refine ⟨?_, hTwo⟩
  by_contra hHigh
  have hLast : trailingZeros v = 31 := by
    have := trailingZeros_lt hNonzero
    omega
  rw [hTwo, hLast] at hPos
  exact absurd hPos (by decide)

/-- The constants next to a power of two: a product with one is a sum or a difference. -/
theorem shiftedSum?_mul {v : BitVec 32} (h : shiftedSum? v = some (op, k)) :
    k ≤ 30 ∧ (op = .add ∧ (∀ x : BitVec 32, x + x <<< k = x * v) ∨
      op = .rsb ∧ ∀ x : BitVec 32, x <<< k - x = x * v) := by
  unfold shiftedSum? at h
  simp only [Bool.and_eq_true, decide_eq_true_eq, beq_iff_eq] at h
  split at h
  · cases h
  · split at h
    · next hAbove =>
      obtain ⟨hFew, hTwo⟩ := twoPow_of_positive hAbove.1 hAbove.2
      cases h
      refine ⟨hFew, .inl ⟨rfl, fun x => ?_⟩⟩
      -- one above a power of two: the product is a shift and a sum
      have hv : BitVec.twoPow 32 (trailingZeros (v - 1)) + 1#32 = v := by
        rw [← hTwo]
        exact BitVec.sub_add_cancel v 1
      calc x + x <<< trailingZeros (v - 1)
        _ = x * BitVec.twoPow 32 (trailingZeros (v - 1)) + x * 1#32 := by
          rw [BitVec.mul_twoPow_eq_shiftLeft, BitVec.mul_one, BitVec.add_comm]
        _ = x * v := by rw [← BitVec.mul_add, hv]
    · split at h
      · next hBelow =>
        obtain ⟨hFew, hTwo⟩ := twoPow_of_positive hBelow.2.1 hBelow.2.2
        cases h
        refine ⟨hFew, .inr ⟨rfl, fun x => ?_⟩⟩
        -- one below it: a shift and a reversed difference
        have hv : BitVec.twoPow 32 (trailingZeros (v + 1)) - 1#32 = v := by
          rw [← hTwo]
          exact BitVec.add_sub_cancel v 1
        calc x <<< trailingZeros (v + 1) - x
          _ = x * BitVec.twoPow 32 (trailingZeros (v + 1)) - x * 1#32 := by
            rw [BitVec.mul_twoPow_eq_shiftLeft, BitVec.mul_one]
          _ = x * v := by rw [← BitVec.mul_sub, hv]
      · cases h

/-- What a step adds that covers a product of two nodes by one instruction: a sum or a difference of
the left one and itself shifted, or a multiplication. -/
structure AddsProduct (site : Site) (start s : State) (id left right : NodeId) (i : Instr) :
    Prop where
  segment : s.segment = start.segment ++ [i]
  output : ∃ r : Nat, i.out = [.vreg r .register] ∧ Stands site.graph s.vregs s.stream id r
  form : (∃ (q q' k : Nat) (amount : Operand), (i.op = .add ∨ i.op = .rsb) ∧
      i.mode = .shiftImmediate .lsl ∧ i.inputs = [.vreg q .register, .vreg q' .register, amount] ∧
      Stands site.graph s.vregs s.stream left q ∧ Stands site.graph s.vregs s.stream left q' ∧
      s.stream.IsNumber amount (.ofNat 32 k) ∧ k ≤ 30) ∨
    ∃ q q' : Nat, i.op = .mul ∧ i.inputs = [.vreg q .register, .vreg q' .register] ∧
      Stands site.graph s.vregs s.stream left q ∧ Stands site.graph s.vregs s.stream right q'

/-- Whether an instruction computes the product of what two nodes hold, where a constant holds its
value. -/
def Multiplies (g : Graph) (s : State) (left right : NodeId) (i : Instr) : Prop :=
  ∀ (ρ : Reading) x y, s.stream.immediates <+: ρ.stream.immediates → Holding ρ g s left x →
    Holding ρ g s right y → (∀ v, g.IsInt32 right v → y = v) → i.result? ρ = some (x * y)

/-- A shifted operand of an instruction. -/
theorem flexible?_lsl {ρ : Reading} {q : Nat} {amount : Operand} {v : BitVec 32}
    (hk : k ≤ 30) (hWord : ρ.registers q = v) (hAmount : ρ.number? amount = some (.ofNat 32 k)) :
    ρ.flexible? (.shiftImmediate .lsl) [.vreg q .register, amount] = some (v <<< k) := by
  have hInt := toInt_ofNat (n := k) (by omega)
  have hAllows : ShiftKind.lsl.Allows (BitVec.ofNat 32 k) := by
    show 0 ≤ (BitVec.ofNat 32 k).toInt ∧ (BitVec.ofNat 32 k).toInt ≤ 31
    omega
  have hNat : (BitVec.ofNat 32 k).toNat = k := by
    rw [BitVec.toNat_ofNat]
    omega
  unfold Reading.flexible?
  simp only [Reading.register?, hWord, hAmount, bind, Option.bind_some, if_pos hAllows, hNat]
  rfl

/-- A sum or a difference with a shifted register is the product with the constant it stands for. -/
theorem multiplies_shifted {g : Graph} {left right : NodeId} {q q' : Nat} {amount : Operand}
    {v : BitVec 32} (hConstant : g.IsInt32 right v) (hShifted : shiftedSum? v = some (i.op, k))
    (hMode : i.mode = .shiftImmediate .lsl)
    (hInputs : i.inputs = [.vreg q .register, .vreg q' .register, amount])
    (hq : Stands g s.vregs s.stream left q) (hq' : Stands g s.vregs s.stream left q')
    (hNumber : s.stream.IsNumber amount (.ofNat 32 k)) : Multiplies g s left right i := by
  intro ρ x y hTable hx _ hy
  obtain ⟨hFew, hMul⟩ := shiftedSum?_mul hShifted
  have hLeft : ρ.register? (.vreg q .register) = some x := congrArg some (hx q hq)
  have hRight := flexible?_lsl hFew (hx q' hq') (number?_of_isNumber hNumber hTable)
  rw [hy v hConstant]
  rcases hMul with ⟨hOp, hMul⟩ | ⟨hOp, hMul⟩
  · rw [← hMul x, ← add_fst]
    exact result?_of_outcome (outcome?_process hOp hMode hInputs hLeft hRight rfl)
  · rw [← hMul x, ← rsb_fst]
    exact result?_of_outcome (outcome?_process hOp hMode hInputs hLeft hRight rfl)

theorem multiplies_factors {g : Graph} {left right : NodeId} {q q' : Nat} (hOp : i.op = .mul)
    (hInputs : i.inputs = [.vreg q .register, .vreg q' .register])
    (hq : Stands g s.vregs s.stream left q) (hq' : Stands g s.vregs s.stream right q') :
    Multiplies g s left right i := by
  intro ρ x y _ hx hy _
  unfold Instr.result?
  rw [hOp, hInputs]
  simp [Reading.register?, hx q hq, hy q' hq']

theorem coverMul_product (hs : s.Sound) (hm : site.graph.binary id = .ok m) :
    Ensures site s (coverMul id) fun _ s' => ∃ i, AddsProduct site s s' id m.left.id m.right.id i ∧
      Multiplies site.graph s' m.left.id m.right.id i := by
  unfold coverMul
  simp only [ensures_bind, ensures_read, ensures_lift]
  intro m' hm'
  cases hm.symm.trans hm'
  -- The left operand of a sum is asked for twice, and both registers that are handed out hold it.
  split
  · next op k hSum =>
    obtain ⟨v, hv, hShifted⟩ := Option.bind_eq_some_iff.mp hSum
    obtain ⟨hFew, hOps⟩ := shiftedSum?_mul hShifted
    simp only [ensures_bind]
    refine (define_advances (D := fun _ => True) hs trivial).mono ?_
    rintro _ s₁ ⟨h₁, r, rfl, hr⟩
    refine (useAt_advances (fun _ => True) h₁.sound m.left.id .register).mono ?_
    rintro _ s₂ ⟨h₂, q, rfl, hq⟩
    refine (useAt_advances (fun _ => True) h₂.sound m.left.id .register).mono ?_
    rintro _ s₃ ⟨h₃, q', rfl, hq'⟩
    refine (immediate_advances (fun _ => True) h₃.sound _).mono ?_
    rintro amount s₄ ⟨h₄, hNumber⟩
    refine (emit_advances (fun _ => True) h₄.sound _).mono ?_
    intro _ s₅ h₅
    have hLast := h₄.trans h₅
    have hRest := (h₂.trans h₃).trans hLast
    have hq := hq.mono (h₃.trans hLast).toGrown
    have hq' := hq'.mono hLast.toGrown
    have hNumber := isNumber_mono hNumber h₅.toGrown
    refine ⟨_, ⟨(h₁.trans hRest).segment, ⟨r, rfl, hr.mono hRest.toGrown⟩, .inl ?_⟩, ?_⟩
    · exact ⟨q, q', k, amount, hOps.imp And.left And.left, rfl, rfl, hq, hq', hNumber, hFew⟩
    · have hConstant := Graph.isInt32_of_value (Graph.binary_inputs hm).1.2 hv
      exact multiplies_shifted hConstant hShifted rfl rfl hq hq' hNumber
  · simp only [ensures_bind]
    refine (define_advances (D := fun _ => True) hs trivial).mono ?_
    rintro _ s₁ ⟨h₁, r, rfl, hr⟩
    refine (useAt_advances (fun _ => True) h₁.sound m.left.id .register).mono ?_
    rintro _ s₂ ⟨h₂, q, rfl, hq⟩
    refine (useAt_advances (fun _ => True) h₂.sound m.right.id .register).mono ?_
    rintro _ s₃ ⟨h₃, q', rfl, hq'⟩
    refine (emit_advances (fun _ => True) h₃.sound _).mono ?_
    intro _ s₄ h₄
    have hRest := (h₂.trans h₃).trans h₄
    have hq := hq.mono (h₃.trans h₄).toGrown
    have hq' := hq'.mono h₄.toGrown
    refine ⟨_, ⟨(h₁.trans hRest).segment, ⟨r, rfl, hr.mono hRest.toGrown⟩, .inr ?_⟩, ?_⟩
    · exact ⟨q, q', rfl, rfl, hq, hq'⟩
    · exact multiplies_factors rfl rfl hq hq'

/-! ## Division -/

/-- What the code of a division computes, with the instruction or without. -/
inductive DivisionOps.Computes (features : Features) :
    DivisionOps → (BitVec 32 → BitVec 32 → BitVec 32) → Prop
  | signed (h : features.has .sudiv = true) : Computes features .signed signedQuotient
  | unsigned (h : features.has .sudiv = true) : Computes features .unsigned unsignedQuotient
  | signedDoubles (h : features.has .sudiv = false) : Computes features .signed signedThroughDoubles
  | unsignedDoubles (h : features.has .sudiv = false) :
    Computes features .unsigned unsignedThroughDoubles

/-- Two words are converted, divided and converted back. -/
theorem execute?_throughDoubles {toDouble fromDouble : Opcode} {o l r dl dr dq : Nat}
    (hApart : (dl : Int) ≠ dr) (c : BitVec 32 → Double) (t : Double → BitVec 32)
    (hTo : ∀ (b : Bank) (d r : Nat), Instr.step?
      { op := toDouble, out := [.vreg d .register], inputs := [.vreg r .register] } b =
        some (b.setDouble d (c (b.registers r))))
    (hFrom : ∀ (b : Bank) (r d : Nat), Instr.step?
      { op := fromDouble, out := [.vreg r .register], inputs := [.vreg d .register] } b =
        some (b.setWord r (t (b.doubles d)))) (b : Bank) :
    ∃ b', execute? [
        { op := toDouble, out := [.vreg dl .register], inputs := [.vreg l .register] },
        { op := toDouble, out := [.vreg dr .register], inputs := [.vreg r .register] },
        { op := .vdiv, out := [.vreg dq .register]
          inputs := [.vreg dl .register, .vreg dr .register] },
        { op := fromDouble, out := [.vreg o .register], inputs := [.vreg dq .register] }] b =
          some b' ∧
      b'.registers o = t ((c (b.registers l)).div (c (b.registers r))) ∧
        ∀ q : Int, q ≠ o → b'.registers q = b.registers q := by
  have hDivide : ∀ b : Bank, Instr.step?
      { op := .vdiv, out := [.vreg dq .register]
        inputs := [.vreg dl .register, .vreg dr .register] } b =
          some (b.setDouble dq ((b.doubles dl).div (b.doubles dr))) := fun _ => rfl
  simp only [execute?_cons, execute?_nil, hTo, hFrom, hDivide, Option.bind_some]
  -- the second conversion leaves the first double alone, as their registers differ
  simp only [Bank.setDouble_doubles, Bank.setDouble_doubles_of_ne _ _ hApart,
    Bank.setDouble_toReading]
  exact ⟨_, rfl, Bank.setWord_registers .., fun q hq => Bank.setWord_registers_of_ne _ _ hq⟩

/-- A division leaves the quotient in its output, and the other registers for words as they were. -/
theorem emitDivision_runs (hs : s.Sound) (hOps : ops.Computes site.features f) (o l r : Nat) :
    Ensures site s (emitDivision ops (.vreg o .register) (.vreg l .register) (.vreg r .register))
      fun _ s' => ∃ code, Advances s s' code (fun _ => True) ∧
        ∀ b : Bank, ∃ b', execute? code b = some b' ∧
          b'.registers o = f (b.registers l) (b.registers r) ∧
            ∀ q : Int, q ≠ o → b'.registers q = b.registers q := by
  unfold emitDivision
  simp only [ensures_bind]
  refine (has_means .sudiv).mono ?_
  rintro sudiv _ ⟨rfl, hHas⟩
  -- Which code there is depends on the feature, and so does what it computes.
  split
  · next hTrue =>
    refine (emit_advances (fun _ => True) hs _).mono ?_
    intro _ s' h'
    refine ⟨_, h', fun b =>
      ⟨b.setWord o (f (b.registers l) (b.registers r)), ?_, b.setWord_registers o _,
        fun q hq => b.setWord_registers_of_ne _ hq⟩⟩
    rw [execute?_singleton]
    cases hOps with
    | signed | unsigned => rfl
    | signedDoubles h | unsignedDoubles h =>
      rw [hHas, h] at hTrue
      cases hTrue
  · next hFalse =>
    simp only [ensures_bind]
    refine (tempDouble_advances (fun _ => True) hs).mono ?_
    rintro _ s₁ ⟨h₁, dl, rfl, -, hl⟩
    refine (tempDouble_advances (fun _ => True) h₁.sound).mono ?_
    rintro _ s₂ ⟨h₂, dr, rfl, hNew, -⟩
    refine (tempDouble_advances (fun _ => True) h₂.sound).mono ?_
    rintro _ s₃ ⟨h₃, dq, rfl, -, -⟩
    refine (emit_advances (fun _ => True) h₃.sound _).mono ?_
    intro _ s₄ h₄
    refine (emit_advances (fun _ => True) h₄.sound _).mono ?_
    intro _ s₅ h₅
    refine (emit_advances (fun _ => True) h₅.sound _).mono ?_
    intro _ s₆ h₆
    refine (emit_advances (fun _ => True) h₆.sound _).mono ?_
    intro _ s₇ h₇
    -- The second conversion leaves the first double alone.
    have hApart : (dl : Int) ≠ dr := by
      have := hl.lt
      omega
    refine ⟨_, (((((h₁.trans h₂).trans h₃).trans h₄).trans h₅).trans h₆).trans h₇, fun b => ?_⟩
    cases hOps with
    | signed h | unsigned h => exact absurd (hHas.trans h) hFalse
    | signedDoubles =>
      exact execute?_throughDoubles hApart (fun x => .ofInt x.toInt) Double.saturateInt32
        (fun _ _ _ => rfl) (fun _ _ _ => rfl) b
    | unsignedDoubles =>
      exact execute?_throughDoubles hApart (fun x => .ofInt x.toNat) Double.saturateUint32
        (fun _ _ _ => rfl) (fun _ _ _ => rfl) b

/-- Whether a step adds code that leaves `f` of what two nodes hold in the register of a node. -/
def AddsResult (site : Site) (start s : State) (id left right : NodeId)
    (f : BitVec 32 → BitVec 32 → BitVec 32) : Prop :=
  ∃ (code : List Instr) (r : Nat), s.segment = start.segment ++ code ∧
    Stands site.graph s.vregs s.stream id r ∧
      ∀ (b : Bank) x y, Holding b.toReading site.graph s left x →
        Holding b.toReading site.graph s right y →
          ∃ b', execute? code b = some b' ∧ b'.registers r = f x y

theorem coverDivision_runs (hs : s.Sound) (hOps : ops.Computes site.features f)
    (hm : site.graph.binary id = .ok m) :
    Ensures site s (coverDivision id ops) fun _ s' =>
      AddsResult site s s' id m.left.id m.right.id f := by
  unfold coverDivision
  simp only [ensures_bind, ensures_read, ensures_lift]
  intro m' hm'
  cases hm.symm.trans hm'
  refine (define_advances (D := fun _ => True) hs trivial).mono ?_
  rintro _ s₁ ⟨h₁, o, rfl, ho⟩
  refine (useAt_advances (fun _ => True) h₁.sound m.left.id .register).mono ?_
  rintro _ s₂ ⟨h₂, l, rfl, hl⟩
  refine (useAt_advances (fun _ => True) h₂.sound m.right.id .register).mono ?_
  rintro _ s₃ ⟨h₃, r, rfl, hr⟩
  refine (emitDivision_runs h₃.sound hOps o l r).mono ?_
  rintro _ s₄ ⟨code, h₄, hRuns⟩
  have hRest := (h₂.trans h₃).trans h₄
  -- the code computes on the registers, and these hold the two operands
  refine ⟨code, o, by simpa using (h₁.trans hRest).segment, ho.mono hRest.toGrown,
    fun b x y hx hy => ?_⟩
  obtain ⟨b', hRun, hQuotient, -⟩ := hRuns b
  refine ⟨b', hRun, ?_⟩
  rw [hQuotient, hx l (hl.mono (h₃.trans h₄).toGrown), hy r (hr.mono h₄.toGrown)]

/-- A product is taken off by one instruction. -/
theorem execute?_mls (b : Bank) (o l r q : Nat) :
    execute? [{ op := .mls, out := [.vreg o .register]
                inputs := [.vreg q .register, .vreg r .register, .vreg l .register] }] b =
      some (b.setWord o (b.registers l - b.registers q * b.registers r)) :=
  rfl

/-- A product is taken off by a multiplication and a difference. -/
theorem execute?_mul_sub (b : Bank) {o l r q p : Nat} (hApart : (l : Int) ≠ p) :
    ∃ b', execute? [
        { op := .mul, out := [.vreg p .register]
          inputs := [.vreg q .register, .vreg r .register] },
        { op := .sub, mode := .register, out := [.vreg o .register]
          inputs := [.vreg l .register, .vreg p .register] }] b = some b' ∧
      b'.registers o = b.registers l - b.registers q * b.registers r := by
  refine ⟨(b.setWord p (b.registers q * b.registers r)).setWord o
    (addWithCarry ((b.setWord p (b.registers q * b.registers r)).registers l)
      (~~~(b.setWord p (b.registers q * b.registers r)).registers p) true).1, rfl, ?_⟩
  rw [Bank.setWord_registers, sub_fst, Bank.setWord_registers,
    Bank.setWord_registers_of_ne _ _ hApart]

theorem coverRemainder_runs (hs : s.Sound) (hOps : ops.Computes site.features f)
    (hm : site.graph.binary id = .ok m) :
    Ensures site s (coverRemainder id ops) fun _ s' =>
      AddsResult site s s' id m.left.id m.right.id fun x y => x - f x y * y := by
  unfold coverRemainder
  simp only [ensures_bind, ensures_read, ensures_lift]
  intro m' hm'
  cases hm.symm.trans hm'
  refine (define_advances (D := fun _ => True) hs trivial).mono ?_
  rintro _ s₁ ⟨h₁, o, rfl, ho⟩
  refine (useAt_advances (fun _ => True) h₁.sound m.left.id .register).mono ?_
  rintro _ s₂ ⟨h₂, l, rfl, hl⟩
  refine (useAt_advances (fun _ => True) h₂.sound m.right.id .register).mono ?_
  rintro _ s₃ ⟨h₃, r, rfl, hr⟩
  refine (tempRegister_advances (fun _ => True) h₃.sound).mono ?_
  rintro _ s₄ ⟨h₄, q, rfl, hNew, -⟩
  refine (emitDivision_runs h₄.sound hOps q l r).mono ?_
  rintro _ s₅ ⟨code, h₅, hRuns⟩
  have hFront := (((h₁.trans h₂).trans h₃).trans h₄).trans h₅
  -- The quotient is in a new register, so dividend and divisor are still there.
  have hLeft : l < s₃.stream.nextVreg := (hl.mono h₃.toGrown).lt h₃.sound
  have hRight : r < s₃.stream.nextVreg := hr.lt h₃.sound
  have hQuotient : ∀ {s₆ : State} {tail : List Instr}, Advances s₅ s₆ tail (fun _ => True) →
      ∀ (b : Bank) x y, Holding b.toReading site.graph s₆ m.left.id x →
        Holding b.toReading site.graph s₆ m.right.id y → ∃ b₁, execute? code b = some b₁ ∧
          b₁.registers l - b₁.registers q * b₁.registers r = x - f x y * y := by
    intro s₆ tail h₆ b x y hx hy
    obtain ⟨b₁, hRun, hOut, hKept⟩ := hRuns b
    refine ⟨b₁, hRun, ?_⟩
    rw [hKept l (by omega), hKept r (by omega), hOut,
      hx l (hl.mono (((h₃.trans h₄).trans h₅).trans h₆).toGrown),
      hy r (hr.mono ((h₄.trans h₅).trans h₆).toGrown)]
  refine (has_means .mls).mono ?_
  rintro mls _ ⟨rfl, -⟩
  split
  · refine (emit_advances (fun _ => True) h₅.sound _).mono ?_
    intro _ s₆ h₆
    refine ⟨_, o, (hFront.trans h₆).segment,
      ho.mono ((((h₂.trans h₃).trans h₄).trans h₅).trans h₆).toGrown, fun b x y hx hy => ?_⟩
    obtain ⟨b₁, hRun, hResult⟩ := hQuotient h₆ b x y hx hy
    refine ⟨_, (execute?_append hRun).trans (execute?_mls b₁ o l r q), ?_⟩
    rw [Bank.setWord_registers, hResult]
  · simp only [ensures_bind]
    refine (tempRegister_advances (fun _ => True) h₅.sound).mono ?_
    rintro _ s₆ ⟨h₆, p, rfl, hNewer, -⟩
    -- The product is in a new register too, so it does not overwrite the dividend.
    have hApart : (l : Int) ≠ p := by
      have := h₄.grows.next_le
      have := h₅.grows.next_le
      omega
    refine (emit_advances (fun _ => True) h₆.sound _).mono ?_
    intro _ s₇ h₇
    refine (emit_advances (fun _ => True) h₇.sound _).mono ?_
    intro _ s₈ h₈
    have hTail := (h₆.trans h₇).trans h₈
    refine ⟨_, o, (hFront.trans hTail).segment,
      ho.mono ((((h₂.trans h₃).trans h₄).trans h₅).trans hTail).toGrown, fun b x y hx hy => ?_⟩
    obtain ⟨b₁, hRun, hResult⟩ := hQuotient hTail b x y hx hy
    obtain ⟨b₂, hRun', hOut⟩ := execute?_mul_sub b₁ (o := o) (r := r) (q := q) hApart
    exact ⟨b₂, (execute?_append hRun).trans hRun', hOut.trans hResult⟩

/-! ## Nodes -/

section
variable (hWell : site.graph.WellFormed) {n : Int32Op} (hOp : site.graph.HasOp id (.int32 n))
  (hm : site.graph.binary id = .ok m) (hLeft : site.graph.Carries m.left.id u)
  (hRight : site.graph.Carries m.right.id w)
include hWell hOp hm hLeft hRight

theorem coverMul_returns : Returns site (coverMul id) := by
  unfold coverMul
  refine .read (.look hm ?_)
  split
  · next op k hSum =>
    obtain ⟨v, -, hv⟩ := Option.bind_eq_some_iff.mp hSum
    refine (define_returns hWell hOp nofun nofun).bind fun out => ?_
    refine (useRegister_returns hWell hLeft).bind fun x => ?_
    refine (useRegister_returns hWell hLeft).bind fun y => (immediate_returns _).bind fun z => ?_
    refine emit_returns ?_
    rcases (shiftedSum?_mul hv).2 with ⟨rfl, -⟩ | ⟨rfl, -⟩ <;> rfl
  · refine (define_returns hWell hOp nofun nofun).bind fun out => ?_
    refine (useRegister_returns hWell hLeft).bind fun x => ?_
    exact (useRegister_returns hWell hRight).bind fun y => emit_returns rfl

omit hWell hOp hm hLeft hRight in
theorem emitDivision_returns (hOps : ops.Computes site.features f) (out left right : Operand) :
    Returns site (emitDivision ops out left right) := by
  have hCheck : ops = .signed ∨ ops = .unsigned := by
    cases hOps <;> first | exact .inl rfl | exact .inr rfl
  unfold emitDivision
  refine Returns.bind (.read (.pure _)) fun sudiv => ?_
  split
  · refine emit_returns ?_
    rcases hCheck with rfl | rfl <;> rfl
  · refine tempDouble_returns.bind fun l => tempDouble_returns.bind fun r => ?_
    refine tempDouble_returns.bind fun q => .bind (emit_returns ?_) fun _ => ?_
    · rcases hCheck with rfl | rfl <;> rfl
    refine .bind (emit_returns ?_) fun _ => (emit_returns rfl).bind fun _ => emit_returns ?_
    · rcases hCheck with rfl | rfl <;> rfl
    · rcases hCheck with rfl | rfl <;> rfl

theorem coverDivision_returns (hOps : ops.Computes site.features f) :
    Returns site (coverDivision id ops) := by
  unfold coverDivision
  refine .read (.look hm ((define_returns hWell hOp nofun nofun).bind fun out => ?_))
  refine (useRegister_returns hWell hLeft).bind fun x => ?_
  exact (useRegister_returns hWell hRight).bind fun y => emitDivision_returns hOps _ _ _

theorem coverRemainder_returns (hOps : ops.Computes site.features f) :
    Returns site (coverRemainder id ops) := by
  unfold coverRemainder
  refine .read (.look hm ((define_returns hWell hOp nofun nofun).bind fun out => ?_))
  refine (useRegister_returns hWell hLeft).bind fun x => ?_
  refine (useRegister_returns hWell hRight).bind fun y => tempRegister_returns.bind fun q => ?_
  refine (emitDivision_returns hOps _ _ _).bind fun _ => ?_
  refine Returns.bind (.read (.pure _)) fun mls => ?_
  split
  · exact emit_returns rfl
  · refine tempRegister_returns.bind fun p => (emit_returns rfl).bind fun _ => emit_returns rfl

end

/-- What the code of a quotient or a remainder computes. -/
inductive Divides (features : Features) : Int32Op → (BitVec 32 → BitVec 32 → BitVec 32) → Prop
  | div {q : BitVec 32 → BitVec 32 → BitVec 32} (h : DivisionOps.signed.Computes features q) :
    Divides features .div q
  | udiv {q : BitVec 32 → BitVec 32 → BitVec 32} (h : DivisionOps.unsigned.Computes features q) :
    Divides features .udiv q
  | mod {q : BitVec 32 → BitVec 32 → BitVec 32} (h : DivisionOps.signed.Computes features q) :
    Divides features .mod fun x y => x - q x y * y
  | umod {q : BitVec 32 → BitVec 32 → BitVec 32} (h : DivisionOps.unsigned.Computes features q) :
    Divides features .umod fun x y => x - q x y * y

/-- A quotient or a remainder is covered by code that computes it. -/
theorem coverNode_divides (hWell : site.graph.WellFormed) (hs : s.Sound) {n : Int32Op}
    (hNode : site.graph.Applies (.int32 n) id x y) (hx : site.graph.Carries x u)
    (hy : site.graph.Carries y w) (h : Divides site.features n f) :
    ∃ s', coverNode id site s = .ok ((), s') ∧ AddsResult site s s' id x y f := by
  have hOp := hNode.hasOp
  have hBinary : (Operator.int32 n).IsBinary ∧ (Operator.int32 n).isCommutative = false := by
    cases h <;> exact ⟨rfl, rfl⟩
  -- The operands are matched in their order.
  obtain ⟨m, hm, hOperands⟩ := hNode.matches hWell hBinary.1
  have hOrder : m.left.id = x ∧ m.right.id = y := by
    rcases hOperands with hOrder | ⟨hSwap, -⟩
    · exact hOrder
    · rw [hBinary.2] at hSwap
      cases hSwap
  obtain ⟨rfl, rfl⟩ := hOrder
  rw [coverNode_int32 hOp]
  have hRun : ∃ a s', coverInt32 id n site s = .ok (a, s') ∧
      AddsResult site s s' id m.left.id m.right.id f := by
    cases h with
    | div hOps | udiv hOps =>
      exact (coverDivision_returns hWell hOp hm hx hy hOps).ensures (coverDivision_runs hs hOps hm)
    | mod hOps | umod hOps =>
      exact (coverRemainder_returns hWell hOp hm hx hy hOps).ensures
        (coverRemainder_runs hs hOps hm)
  obtain ⟨_, s', hRun, hAdds⟩ := hRun
  exact ⟨s', hRun, hAdds⟩

/-- A product of any two nodes, be they constants or not, is covered by one instruction that
computes it. Where the processor divides, a quotient or a remainder is covered by code that computes
what the interpreter does, divisors of zero and the least integer divided by minus one included. -/
theorem coverNode_arithmetic (hWell : site.graph.WellFormed) (hs : s.Sound) {n : Int32Op}
    (hNode : site.graph.Applies (.int32 n) id x y) (hx : site.graph.Carries x u)
    (hy : site.graph.Carries y w) :
    (n = .mul → ∃ s' i left right, coverNode id site s = .ok ((), s') ∧
      (left = x ∧ right = y ∨ left = y ∧ right = x) ∧
        AddsProduct site s s' id left right i ∧ Multiplies site.graph s' left right i) ∧
      (n ∈ [Int32Op.div, .udiv, .mod, .umod] → site.features.has .sudiv = true →
        ∃ s', coverNode id site s = .ok ((), s') ∧ AddsResult site s s' id x y n.eval) := by
  constructor
  · rintro rfl
    obtain ⟨m, hm, hOperands⟩ := hNode.matches hWell rfl
    -- A product is matched in either order.
    have hCarried : ∃ u w, site.graph.Carries m.left.id u ∧ site.graph.Carries m.right.id w := by
      rcases hOperands with ⟨rfl, rfl⟩ | ⟨-, rfl, rfl⟩
      · exact ⟨u, w, hx, hy⟩
      · exact ⟨w, u, hy, hx⟩
    obtain ⟨u', w', hLeft, hRight⟩ := hCarried
    obtain ⟨_, s', hRun, i, hAdds, hMultiplies⟩ :=
      (coverMul_returns hWell hNode.hasOp hm hLeft hRight).ensures (coverMul_product hs hm)
    refine ⟨s', i, m.left.id, m.right.id, ?_, hOperands.imp_right And.right, hAdds, hMultiplies⟩
    rw [coverNode_int32 hNode.hasOp]
    exact hRun
  · intro hDivides hSudiv
    refine coverNode_divides hWell hs hNode hx hy ?_
    simp only [List.mem_cons, List.not_mem_nil, or_false] at hDivides
    rcases hDivides with rfl | rfl | rfl | rfl
    · exact .div (.signed hSudiv)
    · exact .udiv (.unsigned hSudiv)
    · exact .mod (.signed hSudiv)
    · exact .umod (.unsigned hSudiv)

/-- Seven times a parameter, and the remainder of that by another one, where the processor
divides. -/
def sevenfold : Site where
  graph := {
    nodes := #[{ op := .start }, .parameter 0 .int32, .parameter 1 .int32, .int32 7,
      .ofArity (.int32 .mul) [3, 1], .ofArity (.int32 .mod) [4, 2], .ofArity .ret [5, 0, 0],
      .collect [6]]
    exit := some 7 }
  schedule := .single [1, 2, 3, 4, 5] 6
  features := .ofCodes [Feature.sudiv.code]

theorem coverNode_arithmetic_sevenfold :
    (∃ s' i left right, coverNode 4 sevenfold {} = .ok ((), s') ∧
      (left = 3 ∧ right = 1 ∨ left = 1 ∧ right = 3) ∧
        Multiplies sevenfold.graph s' left right i) ∧
      ∃ s', coverNode 5 sevenfold {} = .ok ((), s') ∧
        AddsResult sevenfold {} s' 5 4 2 Int32Op.mod.eval := by
  have hWell : sevenfold.graph.WellFormed :=
    .of_nodes (by decide +kernel) (by decide +kernel) (by decide +kernel)
  have hMul : sevenfold.graph.Applies (.int32 .mul) 4 3 1 := ⟨_, rfl, rfl, rfl⟩
  have hMod : sevenfold.graph.Applies (.int32 .mod) 5 4 2 := ⟨_, rfl, rfl, rfl⟩
  have hConstant : sevenfold.graph.HasOp 3 (.constant .int32) := ⟨_, rfl, rfl⟩
  have hFirst : sevenfold.graph.HasOp 1 .parameter := ⟨_, rfl, rfl⟩
  have hSecond : sevenfold.graph.HasOp 2 .parameter := ⟨_, rfl, rfl⟩
  obtain ⟨s', i, left, right, hRun, hOperands, -, hMultiplies⟩ :=
    (coverNode_arithmetic hWell .empty hMul (.of_op hConstant nofun nofun)
      (.of_op hFirst nofun nofun)).1 rfl
  refine ⟨⟨s', i, left, right, hRun, hOperands, hMultiplies⟩, ?_⟩
  exact (coverNode_arithmetic hWell .empty hMod (.of_op hMul.hasOp nofun nofun)
    (.of_op hSecond nofun nofun)).2 (by decide) (by decide)

end Selection
end ArmBackend
