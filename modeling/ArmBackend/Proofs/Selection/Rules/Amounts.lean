import ArmBackend.Proofs.Selection.Returns

/-!
# Shifts by a constant

A shift by a constant is taken in as a shift by a number where the instruction has room for it, and
as a shift by a register that holds the constant elsewhere. Either way the processor shifts by the
low byte of the constant, while the operator counts the amount modulo the width. The two agree as
long as the low byte is below the width; a rotation goes round in any case, and an arithmetic shift
leaves nothing but the sign from 31 on.

## Results

* `shift_eq_eval_iff` — where a shift by the low byte is the operator.
* `tryShift_amount` — what the operand that is chosen for a shift by a constant reads.
-/

namespace ArmBackend

/-! ## Amounts -/

/-- An arithmetic shift by 31 or more leaves the sign. -/
theorem sshiftRight_of_le {v : BitVec 32} {n : Nat} (hn : 31 ≤ n) :
    v.sshiftRight n = v.sshiftRight 31 := by
  ext i hi
  rw [BitVec.getElem_sshiftRight, BitVec.getElem_sshiftRight]
  by_cases hZero : n + i < 32
  · obtain rfl : n = 31 := by omega
    rfl
  · rw [dif_neg hZero]
    by_cases hFirst : 31 + i < 32
    · obtain rfl : i = 0 := by omega
      rw [dif_pos hFirst]
      exact BitVec.msb_eq_getLsbD_last v
    · rw [dif_neg hFirst]

/-- Which shifts go by their amount modulo the width: those by less than the width, rotations, and
arithmetic shifts that leave the sign alone. -/
theorem ShiftKind.shift_mod_iff (kind : ShiftKind) (n : Nat) :
    (∀ v, kind.shift v n = kind.shift v (n % 32)) ↔
      n < 32 ∨ kind = .ror ∨ kind = .asr ∧ n % 32 = 31 := by
  by_cases hn : n < 32
  · rw [Nat.mod_eq_of_lt hn]
    exact ⟨fun _ => .inl hn, fun _ _ => rfl⟩
  · -- Some word tells an amount beyond the width from what is left of it.
    have hLt : n % 32 < 32 := Nat.mod_lt _ (by decide)
    cases kind with
    | asr =>
      refine ⟨fun h => .inr (.inr ⟨rfl, ?_⟩), fun h => ?_⟩
      · have hSign : (0x80000000#32).sshiftRight (n % 32) = (0x80000000#32).sshiftRight 31 :=
          (h 0x80000000).symm.trans (sshiftRight_of_le (by omega))
        have hEach : ∀ m < 32, (0x80000000#32).sshiftRight m = (0x80000000#32).sshiftRight 31 →
            m = 31 := by
          decide
        exact hEach _ hLt hSign
      · intro v
        rcases h with hSmall | hRor | ⟨-, hLast⟩
        · exact absurd hSmall hn
        · cases hRor
        · rw [hLast]
          exact sshiftRight_of_le (by omega)
    | lsl =>
      refine ⟨fun h => ?_, by simp [hn]⟩
      have hZero : 1#32 <<< (n % 32) = 0 :=
        (h 1).symm.trans (BitVec.shiftLeft_eq_zero (Nat.not_lt.mp hn))
      have hEach : ∀ m < 32, 1#32 <<< m ≠ 0 := by decide
      exact absurd hZero (hEach _ hLt)
    | lsr =>
      refine ⟨fun h => ?_, by simp [hn]⟩
      have hZero : (-1#32) >>> (n % 32) = 0 :=
        (h (-1)).symm.trans (BitVec.ushiftRight_eq_zero (Nat.not_lt.mp hn))
      have hEach : ∀ m < 32, (-1#32) >>> m ≠ 0 := by decide
      exact absurd hZero (hEach _ hLt)
    | ror =>
      exact ⟨fun _ => .inr (.inl rfl), fun _ v => BitVec.rotateRight_mod_eq_rotateRight.symm⟩

namespace Selection

/-- The operator of a rule is its shift, by the amount modulo the width. -/
theorem shiftRule?_mod {w : Word32Op} {rule : ShiftRule} (h : shiftRule? (.word32 w) = some rule)
    (x y : BitVec 32) : w.eval x y = rule.kind.shift x (y.toNat % 32) := by
  cases w <;> cases h <;> rfl

/-- A shift by the low byte of an amount is the operator exactly where the low byte is below the
width, for a rotation, and for an arithmetic shift by 31 modulo the width. -/
theorem shift_eq_eval_iff {w : Word32Op} {rule : ShiftRule} {c : BitVec 32}
    (hRule : shiftRule? (.word32 w) = some rule) :
    (∀ v, rule.kind.shift v (c.toNat % 256) = w.eval v c) ↔
      c.toNat % 256 < 32 ∨ w = .ror ∨ w = .sar ∧ c.toNat % 32 = 31 := by
  have hMod : c.toNat % 32 = c.toNat % 256 % 32 := by omega
  simp only [shiftRule?_mod hRule, hMod, ShiftKind.shift_mod_iff]
  cases w <;> cases hRule <;> simp

/-! ## The chosen operand -/

variable {site : Site} {s : State} {id x : NodeId} {w : Word32Op} {rule : ShiftRule} {c : BitVec 32}

/-- What the operand for a shift by a constant reads: the shift by the low byte of the constant. -/
def ReadsShift (g : Graph) (s : State) (x : NodeId) (c : BitVec 32) (kind : ShiftKind)
    (f : Operand2) : Prop :=
  ∀ ρ v, s.stream.immediates <+: ρ.stream.immediates → Holding ρ g s x v →
    (∀ y, g.IsInt32 y c → Holding ρ g s y c) →
    ρ.flexible? f.mode f.operands = some (kind.shift v (c.toNat % 256))

theorem isBinary_of_shiftRule? (h : shiftRule? (.word32 w) = some rule) :
    (Operator.word32 w).IsBinary ∧ (Operator.word32 w).isCommutative = false := by
  cases w <;> cases h <;> exact ⟨rfl, rfl⟩

/-- An amount that the instruction has room for is its own low byte. -/
theorem shiftRule?_room (h : shiftRule? (.word32 w) = some rule) (hLeast : rule.least ≤ c.toInt)
    (hGreatest : c.toInt ≤ rule.greatest) : rule.kind.Allows c ∧ c.toNat % 256 = c.toNat := by
  have hAllows : rule.kind.Allows c := by
    cases w <;> cases h <;> exact ⟨hLeast, hGreatest⟩
  refine ⟨hAllows, Nat.mod_eq_of_lt ?_⟩
  have hRange : 0 ≤ c.toInt ∧ c.toInt ≤ 32 := by
    cases w <;> cases h <;> simp only at hLeast hGreatest <;> omega
  rw [BitVec.toInt_eq_toNat_cond] at hRange
  split at hRange <;> omega

theorem tryShift_reads (hWell : site.graph.WellFormed) (hs : s.Sound)
    (hRule : shiftRule? (.word32 w) = some rule)
    (hNode : site.graph.Combines (.word32 w) id x c) :
    Ensures site s (tryShift id) fun f? s' =>
      ∃ f, f? = some f ∧ ReadsShift site.graph s' x c rule.kind f := by
  obtain ⟨hBinary, hCommutative⟩ := isBinary_of_shiftRule? hRule
  obtain ⟨m, hm, rfl, -, hv, hConstant⟩ := hNode.binary hWell hBinary (by simp [hCommutative])
  refine ensures_tryShift (fun _ hIs hNone => ?_) fun _ rule' m' hIs hRule' hm' => ?_
  · cases hNode.hasOp.unique hIs
    cases hRule.symm.trans hNone
  cases hNode.hasOp.unique hIs
  cases hRule.symm.trans hRule'
  cases hm.symm.trans hm'
  refine (useAt_advances (fun _ => True) hs m.left.id .register).mono ?_
  rintro _ s₁ ⟨h₁, a, rfl, ha⟩
  refine ⟨fun hRoom => ?_, ?_⟩
  · refine (useImmediate_of_isInt32 (fun _ => True) h₁.sound hConstant).mono ?_
    rintro o s₂ ⟨h₂, hNumber⟩
    refine ⟨_, rfl, fun ρ v hTable hLeft _ => ?_⟩
    unfold Int32Match.isInRange at hRoom
    rw [hv, Option.any_some, decide_eq_true_eq] at hRoom
    -- a constant in the rule's range is encoded as it is, so the amount read is `c`
    obtain ⟨hAllows, hByte⟩ := shiftRule?_room hRule hRoom.1 hRoom.2
    have hAmount : ρ.number? o = some c := number?_of_isNumber hNumber hTable
    have hWord : ρ.registers a = v := hLeft a (ha.mono h₂.toGrown)
    simp [Reading.flexible?, Reading.register?, hAmount, hAllows, hByte, hWord]
  · -- outside the range it is the register's low byte that shifts
    refine (useAt_advances (fun _ => True) h₁.sound m.right.id .register).mono ?_
    rintro _ s₂ ⟨h₂, b, rfl, hb⟩
    refine ⟨_, rfl, fun ρ v hTable hLeft hRight => ?_⟩
    have hWord : ρ.registers a = v := hLeft a (ha.mono h₂.toGrown)
    have hAmount : ρ.registers b = c := hRight _ hConstant b hb
    simp [Reading.flexible?, Reading.register?, hWord, hAmount]

theorem tryShift_returns (hWell : site.graph.WellFormed)
    (hRule : shiftRule? (.word32 w) = some rule)
    (hNode : site.graph.Combines (.word32 w) id x c) {y : NodeId} (hx : site.graph.Carries x y) :
    Returns site (tryShift id) := by
  obtain ⟨hBinary, hCommutative⟩ := isBinary_of_shiftRule? hRule
  obtain ⟨m, hm, rfl, -, hv, hConstant⟩ := hNode.binary hWell hBinary (by simp [hCommutative])
  have hRight : site.graph.Carries m.right.id m.right.id := by
    obtain ⟨n, hn, hIs, -⟩ := hConstant
    exact .of_op ⟨n, hn, hIs⟩ nofun nofun
  unfold tryShift
  refine .read (.look (Graph.op_eq_ok.mpr hNode.hasOp) ?_)
  rw [hRule]
  refine .look hm ((useRegister_returns hWell hx).bind fun value => ?_)
  split
  · exact (useImmediate_returns hConstant).bind fun _ => .pure _
  · exact (useRegister_returns hWell hRight).bind fun _ => .pure _

/-- A shift by a constant is always taken in, and what is taken in shifts by the low byte of the
constant. This is what the operator computes, for every word, exactly when the low byte is below the
width, for a rotation, and for an arithmetic shift by 31 modulo the width. -/
theorem tryShift_amount (hWell : site.graph.WellFormed) (hs : s.Sound)
    (hRule : shiftRule? (.word32 w) = some rule)
    (hNode : site.graph.Combines (.word32 w) id x c) {y : NodeId} (hx : site.graph.Carries x y) :
    (∃ f s', tryShift id site s = .ok (some f, s') ∧ ReadsShift site.graph s' x c rule.kind f) ∧
      ((∀ v, rule.kind.shift v (c.toNat % 256) = w.eval v c) ↔
        c.toNat % 256 < 32 ∨ w = .ror ∨ w = .sar ∧ c.toNat % 32 = 31) := by
  refine ⟨?_, shift_eq_eval_iff hRule⟩
  obtain ⟨_, s', hRun, f, rfl, hReads⟩ :=
    (tryShift_returns hWell hRule hNode hx).ensures (tryShift_reads hWell hs hRule hNode)
  exact ⟨f, s', hRun, hReads⟩

/-- An arithmetic shift by 63, which is 31 modulo the width. -/
def signShift : Site where
  graph := {
    nodes := #[{ op := .start }, .parameter 0 .int32, .int32 63, .ofArity (.word32 .sar) [1, 2],
      .ofArity .ret [3, 0, 0], .collect [4]]
    exit := some 5 }
  schedule := .single [1, 2, 3] 4
  features := .none

theorem tryShift_amount_signShift :
    ∃ f s', tryShift 3 signShift {} = .ok (some f, s') ∧
      ReadsShift signShift.graph s' 1 63 .asr f ∧
      ∀ v, ShiftKind.asr.shift v 63 = Word32Op.sar.eval v 63 := by
  have hWell : signShift.graph.WellFormed :=
    .of_nodes (by decide +kernel) (by decide +kernel) (by decide +kernel)
  have hRule : shiftRule? (.word32 .sar) = some ⟨.asr, 1, 32⟩ := rfl
  have hNode : signShift.graph.Combines (.word32 .sar) 3 1 63 :=
    ⟨2, ⟨_, rfl, rfl, by decide⟩, .inl ⟨_, rfl, rfl, rfl⟩⟩
  have hParameter : signShift.graph.HasOp 1 .parameter := ⟨_, rfl, rfl⟩
  obtain ⟨⟨f, s', hRun, hReads⟩, hAgrees⟩ :=
    tryShift_amount hWell .empty hRule hNode (.of_op hParameter nofun nofun)
  exact ⟨f, s', hRun, hReads, hAgrees.mpr (.inr (.inr ⟨rfl, by decide⟩))⟩

/-- A logical shift by the width. -/
def wholeShift : Site where
  graph := {
    nodes := #[{ op := .start }, .parameter 0 .int32, .int32 32, .ofArity (.word32 .shr) [1, 2],
      .ofArity .ret [3, 0, 0], .collect [4]]
    exit := some 5 }
  schedule := .single [1, 2, 3] 4
  features := .none

/-- The instruction shifts everything out, where the operator shifts by nothing. -/
theorem tryShift_misses_wholeShift :
    ∃ f s', tryShift 3 wholeShift {} = .ok (some f, s') ∧
      s'.vregs = [(1, 0)] ∧ (∀ ρ : Reading, s'.stream.immediates <+: ρ.stream.immediates →
        ρ.registers 0 = 5 → ρ.flexible? f.mode f.operands = some 0) ∧
      Word32Op.shr.eval 5 32 = 5 := by
  have hRun : (tryShift 3 wholeShift {}).toOption.map
      (fun p => (p.1, p.2.vregs, p.2.stream.immediates)) =
        some (some ⟨.shiftImmediate .lsr, [.vreg 0 .register, .immediate 0]⟩, [(1, 0)],
          [.ofInt32 32]) := by
    decide +kernel
  obtain ⟨⟨f?, s'⟩, hState, hRun⟩ := Option.map_eq_some_iff.mp hRun
  simp only [Prod.mk.injEq] at hRun
  obtain ⟨rfl, hRegs, hTable⟩ := hRun
  refine ⟨_, s', toOption_eq_some.mp hState, hRegs, fun ρ hLonger hWord => ?_, by decide⟩
  -- the amount is the immediate 32, which the shifter takes as it stands
  have hNumber : ρ.number? (.immediate 0) = some 32 := by
    refine number?_of_isNumber ?_ hLonger
    refine Stream.isNumber_iff.mpr ⟨0, .ofInt32 32, rfl, ?_, by decide⟩
    rw [hTable]
    rfl
  simp [Reading.flexible?, Reading.register?, hNumber, hWord]
  decide

end Selection
end ArmBackend
