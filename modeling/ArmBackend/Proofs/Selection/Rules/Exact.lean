import ArmBackend.Proofs.Selection.Meaning

/-!
# Rules that fold an operand

An operator on words is covered by one data processing instruction, whose flexible operand takes in
a constant or a shift, on the right or, with the operands exchanged, on the left; or by one that
takes in a complement or a product. Whatever is taken in, the instruction computes the word of its
node.

`Emitted` says of one instruction which nodes it writes and that it `Delivers` what they stand for:
the word of an operator, or the flag of a comparison or an overflow.

## Results

* `emitFlags_means` — what becomes of an instruction and its flags.
* `coverBinary_means` — a fold on either side, for any pair of opcodes that mirror each other.
* `coverAnd_exact`, `coverXor_exact`, `coverShr_exact`, `coverAdd_exact`, `coverSub_exact` and the
  other rules of words.
-/

namespace ArmBackend

/-- Whether an operator is covered by one data processing instruction. -/
def Operator.isProcessing : Operator → Bool
  | .word32 op => op ≠ .equal
  | .int32 op => op = .add || op = .addWithOverflow || op = .sub || op = .subWithOverflow
  | _ => false

/-- Whether an operator compares integers. -/
def Operator.isComparison : Operator → Bool
  | .word32 op => op = .equal
  | .int32 op =>
    op = .lessThan || op = .lessThanOrEqual || op = .unsignedLessThan ||
      op = .unsignedLessThanOrEqual
  | _ => false

/-- Whether the value of a node is a flag: it compares integers, or is the overflow of its operand. -/
def Graph.IsFlag (g : Graph) (id : NodeId) : Prop :=
  ∃ n, g.node? id = some n ∧ (n.op.isComparison = true ∨
    n.op = .projection ∧ n.int = 1 ∧ ∃ x op, n.inputs = [x] ∧ g.HasOp x op ∧ op.hasOverflow = true)

/-- Whether a node is an equality with zero, and `w` is what it compares. -/
def Graph.Negates (g : Graph) (v w : NodeId) : Prop :=
  g.HasOp v (.word32 .equal) ∧
    ∃ m, g.binary v = .ok m ∧ m.right.isConst 0 = true ∧ m.left.id = w

/-- Whether a node is a comparison of doubles under any number of equalities with zero. -/
def Graph.AsksDoubles (g : Graph) (id : NodeId) : Prop :=
  ∃ w op c, Relation.ReflTransGen g.Negates id w ∧ g.HasOp w op ∧
    Selection.comparison? op = some (.doubles c)

/-- Whether an instruction extracts or clears a bit field, where a target has such instructions. -/
def Instr.Extracts (i : Instr) (features : Features) (op : Operator) : Prop :=
  i.op.IsField ∧ features.has .armv7 = true ∧ (op = .word32 .and ∨ op = .word32 .shr)

namespace Selection

variable {site : Site} {g : Graph} {start s s' s'' : State} {id u x : NodeId} {r : Nat}
  {D : NodeId → Prop} {val : NodeId → BitVec 32} {ρ : Reading} {k : Continuation}
  {op reverse : Opcode} {mode : AddrMode} {o : Operand} {i : Instr} {code : List Instr}

/-! ## What an instruction delivers -/

/-- Whether an instruction gives a node that it writes what the node stands for. The flag of a
comparison of doubles is not a matter of words. -/
structure Delivers (site : Site) (s : State) (i : Instr) (id : NodeId) (r : Nat) : Prop where
  word : ∀ op, site.graph.HasOp id op → op.isProcessing = true →
    i.Extracts site.features op ∨ Always site.graph s fun val ρ => i.result? ρ = some (val id)
  flag : site.graph.IsFlag id → (i.op = .vcmp ∧ site.graph.AsksDoubles id) ∨
    (i.flags = .set ∧ i.out.getLast? = some (.vreg r .register) ∧
      Always site.graph s fun val ρ => i.holds? ρ = some (val id == 1))

/-- What an instruction delivers it still delivers when the stream has grown. -/
theorem Delivers.grown (h : Delivers site s i id r) (hGrown : Grown s s' D) :
    Delivers site s' i id r where
  word := fun op hOp hProcessing => (h.word op hOp hProcessing).imp_right (·.grown hGrown)
  flag := fun hFlag => (h.flag hFlag).imp_right fun ⟨hSet, hLast, hHolds⟩ =>
    ⟨hSet, hLast, hHolds.grown hGrown⟩

/-- No operator is both kinds of values. -/
theorem not_isFlag {op : Operator} (hOp : g.HasOp id op) (hComparison : op.isComparison = false)
    (hProjection : op ≠ .projection) : ¬g.IsFlag id := by
  rintro ⟨n, hn, hIs | ⟨hIs, -⟩⟩
  · cases hOp.unique ⟨n, hn, rfl⟩
    rw [hComparison] at hIs
    cases hIs
  · exact hProjection (hOp.unique ⟨n, hn, hIs⟩)

/-- What processes data compares nothing. -/
theorem not_isComparison {op : Operator} (h : op.isProcessing = true) :
    op.isComparison = false ∧ op ≠ .projection := by
  cases op with
  | word32 w => cases w <;> first | exact ⟨rfl, nofun⟩ | cases h
  | int32 w => cases w <;> first | exact ⟨rfl, nofun⟩ | cases h
  | _ => cases h

/-- The word of an operator. -/
theorem Delivers.of_word {op : Operator} (hOp : site.graph.HasOp id op)
    (hProcessing : op.isProcessing = true)
    (h : i.Extracts site.features op ∨
      Always site.graph s fun val ρ => i.result? ρ = some (val id)) :
    Delivers site s i id r where
  word := by
    intro op' hOp' _
    cases hOp.unique hOp'
    exact h
  flag := by
    obtain ⟨hComparison, hProjection⟩ := not_isComparison hProcessing
    exact fun hFlag => absurd hFlag (not_isFlag hOp hComparison hProjection)

/-- The flag of a node that is no operator on words. -/
theorem Delivers.of_flag {op : Operator} (hOp : site.graph.HasOp id op)
    (hProcessing : op.isProcessing = false)
    (h : site.graph.IsFlag id → (i.op = .vcmp ∧ site.graph.AsksDoubles id) ∨
      (i.flags = .set ∧ i.out.getLast? = some (.vreg r .register) ∧
        Always site.graph s fun val ρ => i.holds? ρ = some (val id == 1))) :
    Delivers site s i id r where
  word := by
    intro op' hOp' hIs
    cases hOp.unique hOp'
    rw [hProcessing] at hIs
    cases hIs
  flag := h

/-- Whether an output is the register of a node, and the instruction delivers the node. -/
def Serves (site : Site) (s : State) (i : Instr) (x : NodeId) (o : Operand) : Prop :=
  ∃ r : Nat, o.register? = some (r : Int) ∧ (x, r) ∈ s.vregs ∧ Delivers site s i x r

/-- What one instruction adds: it writes the registers of some nodes, and delivers each of them. -/
structure Emitted (site : Site) (start s : State) (nodes : List NodeId) (i : Instr) : Prop where
  advances : Advances start s [i] (· ∈ nodes)
  serves : List.Forall₂ (Serves site s i) nodes i.out

/-- A node with a register of its own owns the one that stands for it. -/
theorem Stands.own {regs : List (NodeId × Nat)} {stream : Stream} (h : Stands g regs stream id r)
    (hOwns : Owns g id) : (id, r) ∈ regs := by
  obtain ⟨x, n, hx, hn, hTable⟩ := h
  obtain ⟨op, hOp, hCarries, hConstant⟩ := hOwns
  cases hx.unique hCarries
  cases hOp.unique ⟨n, hn, rfl⟩
  have hNone := constantOf?_isSome n
  rw [hConstant, Option.isSome_eq_false_iff, Option.isNone_iff_eq_none] at hNone
  rw [hNone] at hTable
  exact hTable

/-- What processes data has a register of its own. -/
theorem isProcessing_owns {op : Operator} (hOp : g.HasOp id op) (h : op.isProcessing = true) :
    Owns g id := by
  obtain ⟨-, hProjection⟩ := not_isComparison h
  refine .of_op hOp ?_ hProjection ?_
  · rintro rfl
    cases h
  · cases op <;> first | rfl | cases h

/-- The node of a rule for a word is all that its instruction writes. -/
theorem Emitted.of_word {op : Operator} {location : Location} (hOp : site.graph.HasOp id op)
    (hProcessing : op.isProcessing = true) (h : Advances start s [i] (· = id))
    (hOut : i.out = [.vreg r location]) (hStands : Stands site.graph s.vregs s.stream id r)
    (hWord : i.Extracts site.features op ∨
      Always site.graph s fun val ρ => i.result? ρ = some (val id)) :
    Emitted site start s [id] i where
  advances := h.mono fun x hx => List.mem_singleton.mpr hx
  serves := by
    rw [hOut]
    exact .cons ⟨r, rfl, hStands.own (isProcessing_owns hOp hProcessing),
      .of_word hOp hProcessing hWord⟩ .nil

/-! ## Results of instructions -/

/-- A data processing instruction gives the word of its outcome. -/
theorem result?_of_outcome {p : BitVec 32 × Flags} (h : i.outcome? ρ = some p) :
    i.result? ρ = some p.1 := by
  -- The opcodes with a result of their own have no outcome.
  have hWord : i.result? ρ = (i.outcome? ρ).map Prod.fst := by
    obtain ⟨op, mode, flags, cond, out, inputs, temp⟩ := i
    unfold Instr.outcome? at h
    cases op with
    | mul | mla | mls | sdiv | udiv | ubfx | bfc =>
      cases inputs with
      | nil => cases h
      | cons o rest =>
        simp only [bind, Option.bind_eq_some_iff] at h
        obtain ⟨a, -, b, -, hProcess⟩ := h
        cases hProcess
    | _ => rfl
  rw [hWord, h]
  rfl

/-- An instruction with two operands processes what they read. -/
theorem outcome?_process {rest : List Operand} {a b : BitVec 32} {p : BitVec 32 × Flags}
    (hIs : i.op = op) (hMode : i.mode = mode) (hInputs : i.inputs = o :: rest)
    (ha : ρ.register? o = some a) (hb : ρ.flexible? mode rest = some b)
    (hp : op.process? ρ a b = some p) : i.outcome? ρ = some p := by
  unfold Instr.outcome?
  rw [hIs, hInputs]
  cases op with
  | mov | mvn => cases hp
  | _ => simp [ha, hMode, hb, hp]

/-- The zero flag tells whether the word of an outcome is zero. -/
theorem process?_z {a b : BitVec 32} {p : BitVec 32 × Flags} (h : op.process? ρ a b = some p) :
    p.2.z = (p.1 == 0) := by
  unfold Opcode.process? at h
  split at h <;> cases h <;> rfl

/-! ## Flags -/

/-- What becomes of the flags of an instruction beside its outputs. -/
def Flagging (site : Site) (k : Continuation) (out : List Operand) (s : State) (i : Instr) : Prop :=
  match k.use with
  | .unused => i.out = out
  | .result node => i.flags = .set ∧ ∃ r : Nat, i.out = out ++ [.vreg r .register] ∧
      Stands site.graph s.vregs s.stream node r
  | .branch t f => i.out = out ∧ i.Branches t f

/-- The nodes whose flags a continuation makes. -/
def Continuation.nodes (k : Continuation) : List NodeId :=
  k.target?.toList

variable {P : (NodeId → BitVec 32) → Reading → Option (BitVec 32 × Flags) → Prop}
  {Q : (NodeId → BitVec 32) → Reading → BitVec 32 × Flags → Prop}

/-- An instruction is emitted with the operands and the condition that it is given; the labels of a
branch come behind its operands. -/
theorem emitFlags_means (hs : s.Sound) (hD : ∀ node ∈ k.nodes, D node) (out inputs : List Operand)
    (h : Always site.graph s fun val ρ => ∀ i : Instr, i.op = op → i.mode = mode →
      (∃ tail, i.inputs = inputs ++ tail) → P val ρ (i.outcome? ρ)) :
    Ensures site s (emitFlags op mode k out inputs) fun _ s' => ∃ i, Advances s s' [i] D ∧
      i.op = op ∧ i.cond = k.cond ∧ Flagging site k out s' i ∧
      Always site.graph s' fun val ρ => P val ρ (i.outcome? ρ) := by
  unfold emitFlags Flagging
  -- Whatever becomes of the flags, the instruction has the given operands in front.
  cases hUse : k.use with
  | unused =>
    refine (emit_advances D hs _).mono ?_
    intro _ s' h'
    refine ⟨_, h', rfl, rfl, rfl, (h.grown h'.toGrown).mono fun val ρ _ hi => ?_⟩
    exact hi _ rfl rfl ⟨[], (List.append_nil _).symm⟩
  | result node =>
    have hNode : D node := hD node (by simp [Continuation.nodes, Continuation.target?, hUse])
    simp only [ensures_bind]
    refine (define_advances hs hNode).mono ?_
    rintro _ s₁ ⟨h₁, r, rfl, hStands⟩
    refine (emit_advances D h₁.sound _).mono ?_
    intro _ s₂ h₂
    have hBoth := h₁.trans h₂
    refine ⟨_, hBoth, rfl, rfl, ⟨rfl, r, rfl, hStands.mono h₂.toGrown⟩,
      (h.grown hBoth.toGrown).mono fun val ρ _ hi => ?_⟩
    exact hi _ rfl rfl ⟨[], (List.append_nil _).symm⟩
  | branch t f =>
    refine (emit_advances D hs _).mono ?_
    intro _ s' h'
    refine ⟨_, h', rfl, rfl, ⟨rfl, rfl, inputs, rfl⟩,
      (h.grown h'.toGrown).mono fun val ρ _ hi => ?_⟩
    exact hi _ rfl rfl ⟨_, rfl⟩

/-- An instruction with two operands, of which the second is flexible. -/
theorem emitProcess_means {f : Operand2} (hs : s.Sound) (hD : ∀ node ∈ k.nodes, D node)
    (out : List Operand)
    (ho : Always site.graph s fun val ρ => ρ.register? o = some (val x))
    (hf : f.Reads site.graph s u)
    (hQ : ∀ val ρ, site.graph.Consistent val →
      ∃ p, op.process? ρ (val x) (val u) = some p ∧ Q val ρ p) :
    Ensures site s (emitFlags op f.mode k out (o :: f.operands)) fun _ s' =>
      ∃ i, Advances s s' [i] D ∧ i.op = op ∧ i.cond = k.cond ∧ Flagging site k out s' i ∧
        Always site.graph s' fun val ρ => ∃ p, i.outcome? ρ = some p ∧ Q val ρ p := by
  refine emitFlags_means (P := fun val ρ outcome => ∃ p, outcome = some p ∧ Q val ρ p) hs hD out _ ?_
  rintro val ρ hVal hAgrees i hOp hMode ⟨tail, hInputs⟩
  obtain ⟨p, hp, hHolds⟩ := hQ val ρ hVal
  exact ⟨p, outcome?_process hOp hMode hInputs (ho val ρ hVal hAgrees)
    (hf val ρ hVal hAgrees tail) hp, hHolds⟩

/-- A plain register as the flexible operand. -/
theorem Operand2.Reads.of_register (h : Always g s fun val ρ => ρ.register? o = some (val u)) :
    Operand2.Reads ⟨.register, [o]⟩ g s u :=
  h.mono fun _ _ _ ho _ => ho

/-! ## Binary operators -/

/-- What a rule adds that computes a node by one data processing instruction: it writes the register
of the node, puts the flags to use, and `Q` holds of its outcome. -/
structure Outcome (site : Site) (id : NodeId) (k : Continuation) (D : NodeId → Prop)
    (Q : (NodeId → BitVec 32) → Reading → BitVec 32 × Flags → Prop) (s s' : State) (i : Instr) :
    Prop where
  advances : Advances s s' [i] D
  cond : i.cond = k.cond
  output : ∃ r : Nat, Stands site.graph s'.vregs s'.stream id r ∧
    Flagging site k [.vreg r .register] s' i
  outcome : Always site.graph s' fun val ρ => ∃ p, i.outcome? ρ = some p ∧ Q val ρ p

/-- Covers a binary node: the operands are those of the node, in its order or, with the opcode for
exchanged operands, the other way round. -/
theorem coverBinary_means (hs : s.Sound) (hD : ∀ node ∈ id :: k.nodes, D node)
    (hQ : ∀ m, site.graph.binary id = .ok m → ∀ val ρ, site.graph.Consistent val →
      (∃ p, op.process? ρ (val m.left.id) (val m.right.id) = some p ∧ Q val ρ p) ∧
        ∃ p, reverse.process? ρ (val m.right.id) (val m.left.id) = some p ∧ Q val ρ p) :
    Ensures site s (coverBinary id op reverse k) fun _ s' => ∃ i, Outcome site id k D Q s s' i := by
  have hId : D id := hD id List.mem_cons_self
  have hFlags : ∀ node ∈ k.nodes, D node := fun node hn => hD node (List.mem_cons_of_mem _ hn)
  -- The output is named and the instruction emitted once both operands are there.
  have hEmit : ∀ {op : Opcode} {x y : NodeId} {o : Operand} {f : Operand2} {t : State},
      Advances s t [] D → (Always site.graph t fun val ρ => ρ.register? o = some (val x)) →
      f.Reads site.graph t y →
      (∀ val ρ, site.graph.Consistent val →
        ∃ p, op.process? ρ (val x) (val y) = some p ∧ Q val ρ p) →
      Ensures site t (define id) fun out t' =>
        Ensures site t' (emitFlags op f.mode k [out] (o :: f.operands)) fun _ s' =>
          ∃ i, Outcome site id k D Q s s' i := by
    intro op x y o f t ht ho hf hQ
    refine (define_advances ht.sound hId).mono ?_
    rintro _ t₁ ⟨h₁, r, rfl, hStands⟩
    refine (emitProcess_means h₁.sound hFlags _ (ho.grown h₁.toGrown)
      (hf.grown h₁.toGrown) hQ).mono ?_
    rintro _ t₂ ⟨i, h₂, -, hCond, hFlagging, hOutcome⟩
    exact ⟨i, (ht.trans h₁).trans h₂, hCond, ⟨r, hStands.mono h₂.toGrown, hFlagging⟩, hOutcome⟩
  unfold coverBinary
  simp only [ensures_bind, ensures_read, ensures_lift]
  intro m hm
  have hDirect := fun val ρ hVal => (hQ m hm val ρ hVal).1
  have hReverse := fun val ρ hVal => (hQ m hm val ρ hVal).2
  split
  · next hSame =>
    rw [← hSame] at hDirect
    simp only [ensures_bind]
    refine (useRegister_means D hs m.left.id).mono ?_
    rintro x s₁ ⟨h₁, hx⟩
    exact hEmit h₁ hx (.of_register hx) hDirect
  · simp only [ensures_bind]
    refine (tryOperand2_means D hs op m.right.id).mono ?_
    rintro right s₁ ⟨h₁, hRight⟩
    split
    · next f =>
      simp only [ensures_bind]
      refine (useRegister_means D h₁.sound m.left.id).mono ?_
      rintro x s₂ ⟨h₂, hx⟩
      exact hEmit (h₁.trans h₂) hx ((hRight f rfl).grown h₂.toGrown) hDirect
    · simp only [ensures_bind]
      refine (tryOperand2_means D h₁.sound reverse m.left.id).mono ?_
      rintro left s₂ ⟨h₂, hLeft⟩
      have h₁₂ := h₁.trans h₂
      split
      · next f =>
        simp only [ensures_bind]
        refine (useRegister_means D h₂.sound m.right.id).mono ?_
        rintro y s₃ ⟨h₃, hy⟩
        exact hEmit (h₁₂.trans h₃) hy ((hLeft f rfl).grown h₃.toGrown) hReverse
      · simp only [ensures_bind]
        refine (useRegister_means D h₂.sound m.left.id).mono ?_
        rintro x s₃ ⟨h₃, hx⟩
        refine (useRegister_means D h₃.sound m.right.id).mono ?_
        rintro y s₄ ⟨h₄, hy⟩
        exact hEmit ((h₁₂.trans h₃).trans h₄) (hx.grown h₄.toGrown) (.of_register hy) hDirect

/-- Covers a shift. -/
theorem coverShift_means (hs : s.Sound) (hD : ∀ node ∈ id :: k.nodes, D node) :
    Ensures site s (coverShift id k) fun _ s' =>
      ∃ i, Outcome site id k D (fun val ρ p => p = ρ.logical (val id)) s s' i := by
  unfold coverShift
  simp only [ensures_bind]
  refine (tryShift_means D hs id).mono ?_
  rintro f? s₁ ⟨h₁, hReads⟩
  split
  · next f =>
    simp only [ensures_bind]
    refine (define_advances h₁.sound (hD id List.mem_cons_self)).mono ?_
    rintro _ s₂ ⟨h₂, r, rfl, hStands⟩
    -- A shift is moved: its flexible operand is all there is.
    have hMoved : Always site.graph s₂ fun val ρ => ∀ i : Instr, i.op = .mov → i.mode = f.mode →
        (∃ tail, i.inputs = f.operands ++ tail) →
        ∃ p, i.outcome? ρ = some p ∧ p = ρ.logical (val id) := by
      rintro val ρ hVal hAgrees i hOp hMode ⟨tail, hInputs⟩
      have hFlexible := ((hReads f rfl).grown h₂.toGrown) val ρ hVal hAgrees tail
      refine ⟨_, ?_, rfl⟩
      unfold Instr.outcome?
      rw [hOp, hMode, hInputs]
      simp [hFlexible]
    refine (emitFlags_means (P := fun val ρ outcome => ∃ p, outcome = some p ∧
      p = ρ.logical (val id)) h₂.sound (fun node hn => hD node (List.mem_cons_of_mem _ hn))
      _ _ hMoved).mono ?_
    rintro _ s₃ ⟨i, h₃, -, hCond, hFlagging, hOutcome⟩
    exact ⟨i, (h₁.trans h₂).trans h₃, hCond, ⟨r, hStands.mono h₃.toGrown, hFlagging⟩, hOutcome⟩
  · simp only [ensures_bind, ensures_read, ensures_lift, ensures_throw]
    exact fun _ _ => trivial

/-- An instruction without use of its flags delivers the word of its outcome. -/
theorem Outcome.emitted {operator : Operator} (h : Outcome site id {} D Q s s' i)
    (hD : ∀ x, D x → x = id) (hOp : site.graph.HasOp id operator)
    (hProcessing : operator.isProcessing = true)
    (hQ : ∀ val ρ p, site.graph.Consistent val → Q val ρ p → p.1 = val id) :
    Emitted site s s' [id] i := by
  obtain ⟨r, hStands, hOut⟩ := h.output
  refine .of_word hOp hProcessing (h.advances.mono hD) hOut hStands (.inr (h.outcome.mono ?_))
  rintro val ρ hVal ⟨p, hp, hHolds⟩
  rw [result?_of_outcome hp, hQ val ρ p hVal hHolds]

/-- Whether two opcodes compute `f`, the second one of exchanged operands. -/
def Mirrors (op reverse : Opcode) (f : BitVec 32 → BitVec 32 → BitVec 32) : Prop :=
  ∀ ρ x y, (∃ p, op.process? ρ x y = some p ∧ p.1 = f x y) ∧
    ∃ p, reverse.process? ρ y x = some p ∧ p.1 = f x y

/-- A conjunction does not depend on the order. -/
theorem mirrors_and : Mirrors .and .and (· &&& ·) :=
  fun _ x y => ⟨⟨_, rfl, rfl⟩, _, rfl, BitVec.and_comm y x⟩

/-- Neither does a disjunction. -/
theorem mirrors_or : Mirrors .orr .orr (· ||| ·) :=
  fun _ x y => ⟨⟨_, rfl, rfl⟩, _, rfl, BitVec.or_comm y x⟩

/-- Neither does an exclusive or. -/
theorem mirrors_xor : Mirrors .eor .eor (· ^^^ ·) :=
  fun _ x y => ⟨⟨_, rfl, rfl⟩, _, rfl, BitVec.xor_comm y x⟩

/-- Neither does a sum. -/
theorem mirrors_add : Mirrors .add .add (· + ·) :=
  fun _ x y => ⟨⟨_, rfl, add_fst x y⟩, _, rfl, (add_fst y x).trans (BitVec.add_comm y x)⟩

/-- A difference with exchanged operands is a reverse difference. -/
theorem mirrors_sub : Mirrors .sub .rsb (· - ·) :=
  fun _ x y => ⟨⟨_, rfl, sub_fst x y⟩, _, rfl, rsb_fst y x⟩

/-- A binary rule delivers the word of its node, with either operand folded. -/
theorem coverBinary_exact {operator : Operator} {f : BitVec 32 → BitVec 32 → BitVec 32}
    (hs : s.Sound) (hOp : site.graph.HasOp id operator)
    (hProcessing : operator.isProcessing = true) (hMirrors : Mirrors op reverse f)
    (hEval : ∀ m, site.graph.binary id = .ok m → ∀ val, site.graph.Consistent val →
      val id = f (val m.left.id) (val m.right.id)) :
    Ensures site s (coverBinary id op reverse {}) fun _ s' => ∃ i, Emitted site s s' [id] i := by
  refine (coverBinary_means (D := (· = id)) (Q := fun val _ p => p.1 = val id) hs ?_ ?_).mono ?_
  · intro node hn
    exact List.mem_singleton.mp hn
  · intro m hm val ρ hVal
    rw [hEval m hm val hVal]
    exact hMirrors ρ _ _
  · rintro _ s' ⟨i, h⟩
    exact ⟨i, h.emitted (fun _ hx => hx) hOp hProcessing fun _ _ _ _ hp => hp⟩

/-- Covers an operator on words without a pattern of its own. -/
theorem coverWord_exact {w : Word32Op} (hs : s.Sound) (hOp : site.graph.HasOp id (.word32 w))
    (hProcessing : (Operator.word32 w).isProcessing = true)
    (hMirrors : Mirrors op reverse w.eval) :
    Ensures site s (coverBinary id op reverse {}) fun _ s' => ∃ i, Emitted site s s' [id] i :=
  coverBinary_exact hs hOp hProcessing hMirrors fun _ hm _ hVal => hVal.binary_word32 hOp hm

/-- So it is with sums and differences of integers. -/
theorem coverArithmetic_exact {n : Int32Op} (hs : s.Sound)
    (hOp : site.graph.HasOp id (.int32 n)) (hProcessing : (Operator.int32 n).isProcessing = true)
    (hMirrors : Mirrors op reverse n.eval) :
    Ensures site s (coverBinary id op reverse {}) fun _ s' => ∃ i, Emitted site s s' [id] i :=
  coverBinary_exact hs hOp hProcessing hMirrors fun _ hm _ hVal => hVal.binary_int32 hOp hm

/-- The move of a shifted register delivers the shift. -/
theorem coverShift_exact {w : Word32Op} (hs : s.Sound) (hOp : site.graph.HasOp id (.word32 w))
    (hProcessing : (Operator.word32 w).isProcessing = true) :
    Ensures site s (coverShift id {}) fun _ s' => ∃ i, Emitted site s s' [id] i := by
  refine (coverShift_means (D := (· = id)) hs ?_).mono ?_
  · intro node hn
    exact List.mem_singleton.mp hn
  · rintro _ s' ⟨i, h⟩
    refine ⟨i, h.emitted (fun _ hx => hx) hOp hProcessing ?_⟩
    rintro val ρ _ - rfl
    rfl

/-! ## Complements -/

/-- The word of a complement. -/
theorem complementOf?_word (h : site.graph.complementOf? u = .ok (some x))
    (hVal : site.graph.Consistent val) : val u = ~~~val x := by
  unfold Graph.complementOf? at h
  obtain ⟨op, hOp, h⟩ := bind_eq_ok.mp h
  split at h
  · cases pure_eq_ok.mp h
  · next hXor =>
    obtain ⟨m, hm, h⟩ := bind_eq_ok.mp h
    obtain ⟨hOnes, hx⟩ := Option.ite_none_right_eq_some.mp (pure_eq_ok.mp h)
    cases hx
    rw [Decidable.not_not.mp hXor] at hOp
    have hRight := hVal.value (Graph.binary_inputs hm).1.2 (eq_of_beq hOnes)
    rw [hVal.binary_word32 (Graph.op_eq_ok.mp hOp) hm, hRight]
    exact BitVec.xor_allOnes

/-- A node whose complement is taken in is the complement of what it gives. -/
theorem coveredComplement?_word (user u : NodeId) :
    Ensures site s (coveredComplement? user u) fun x? s' => s' = s ∧
      ∀ x, x? = some x → ∀ val, site.graph.Consistent val → val u = ~~~val x := by
  unfold coveredComplement?
  simp only [ensures_bind, ensures_read, ensures_lift]
  intro x? hx
  split
  · next x =>
    simp only [ensures_bind, ensures_pure]
    refine (canCover_ensures user u).mono ?_
    rintro b s' ⟨rfl, -⟩
    refine ⟨rfl, ?_⟩
    intro y hy val hVal
    obtain ⟨-, hEq⟩ := Option.ite_none_right_eq_some.mp hy
    cases hEq
    exact complementOf?_word hx hVal
  · exact (ensures_pure _ _).mpr ⟨rfl, nofun⟩

/-- Covers a word without the bits of another. -/
theorem coverClear_exact {y : NodeId} {w : Word32Op} (hs : s.Sound)
    (hOp : site.graph.HasOp id (.word32 w))
    (hProcessing : (Operator.word32 w).isProcessing = true)
    (hEval : ∀ val, site.graph.Consistent val → val id = val x &&& ~~~val y) :
    Ensures site s (coverClear id x y) fun _ s' => ∃ i, Emitted site s s' [id] i := by
  -- The instruction clears what its flexible operand stands for.
  have hClears : ∀ {t : State} {r : Nat} {o : Operand} {f : Operand2}, Advances s t [] (· = id) →
      Stands site.graph t.vregs t.stream id r →
      (Always site.graph t fun val ρ => ρ.register? o = some (val x)) → f.Reads site.graph t y →
      Ensures site t (emit { op := .bic, mode := f.mode, out := [.vreg r .register],
                             inputs := o :: f.operands }) fun _ s' =>
        ∃ i, Emitted site s s' [id] i := by
    intro t r o f ht hStands ho hf
    refine (emit_advances (· = id) ht.sound _).mono ?_
    intro _ s' h'
    refine ⟨_, .of_word hOp hProcessing (ht.trans h') rfl (hStands.mono h'.toGrown) (.inr ?_)⟩
    intro val ρ hVal hAgrees
    have hLeft := (ho.grown h'.toGrown) val ρ hVal hAgrees
    have hRight := (hf.grown h'.toGrown) val ρ hVal hAgrees []
    rw [List.append_nil] at hRight
    rw [hEval val hVal]
    refine result?_of_outcome (p := ρ.logical (val x &&& ~~~val y)) ?_
    exact outcome?_process rfl rfl rfl hLeft hRight rfl
  unfold coverClear
  simp only [ensures_bind]
  refine (define_advances (D := (· = id)) hs rfl).mono ?_
  rintro _ s₁ ⟨h₁, r, rfl, hStands⟩
  refine (tryShift_means (· = id) h₁.sound y).mono ?_
  rintro f? s₂ ⟨h₂, hReads⟩
  have h₁₂ := h₁.trans h₂
  split
  · next f =>
    simp only [ensures_bind]
    refine (useRegister_means (· = id) h₂.sound x).mono ?_
    rintro o s₃ ⟨h₃, ho⟩
    exact hClears (h₁₂.trans h₃) (hStands.mono (h₂.trans h₃).toGrown) ho
      ((hReads f rfl).grown h₃.toGrown)
  · simp only [ensures_bind]
    refine (useRegister_means (· = id) h₂.sound x).mono ?_
    rintro o s₃ ⟨h₃, ho⟩
    refine (useRegister_means (· = id) h₃.sound y).mono ?_
    rintro o' s₄ ⟨h₄, ho'⟩
    exact hClears (f := ⟨.register, [o']⟩) ((h₁₂.trans h₃).trans h₄)
      (hStands.mono ((h₂.trans h₃).trans h₄).toGrown) (ho.grown h₄.toGrown) (.of_register ho')

/-! ## Bit fields -/

/-- Whether there is a feature is told by the site. -/
theorem has_means (f : Feature) :
    Ensures site s (has f) fun b s' => s' = s ∧ b = site.features.has f := by
  unfold has
  simp only [ensures_bind, ensures_read, ensures_pure]
  exact ⟨trivial, trivial⟩

/-- Whether a node may be covered by a bit field instruction. -/
structure Fields (site : Site) (id : NodeId) (operator : Operator) : Prop where
  op : site.graph.HasOp id operator
  kind : operator = .word32 .and ∨ operator = .word32 .shr
  feature : site.features.has .armv7 = true

/-- A bit field instruction writes the register of its node. -/
theorem Fields.emitted {operator : Operator} {location : Location}
    (h : Fields site id operator) (hAdvances : Advances start s [i] (· = id))
    (hOut : i.out = [.vreg r location]) (hStands : Stands site.graph s.vregs s.stream id r)
    (hField : i.op.IsField) : Emitted site start s [id] i := by
  refine .of_word h.op ?_ hAdvances hOut hStands (.inl ⟨hField, h.feature, h.kind⟩)
  rcases h.kind with rfl | rfl <;> rfl

/-- The extraction of a bit field writes the register of its node. -/
theorem coverExtract_exact {operator : Operator} (hs : s.Sound) (h : Fields site id operator)
    (base : NodeId) {lsb : Select Operand} (hLsb : ∀ t : State, t.Sound →
      Ensures site t lsb fun _ s' => Advances t s' [] (· = id)) (width : Nat) :
    Ensures site s (coverExtract id base lsb width) fun _ s' => ∃ i, Emitted site s s' [id] i := by
  unfold coverExtract
  simp only [ensures_bind]
  refine (define_advances (D := (· = id)) hs rfl).mono ?_
  rintro _ s₁ ⟨h₁, r, rfl, hStands⟩
  refine (useRegister_means (· = id) h₁.sound base).mono ?_
  rintro x s₂ ⟨h₂, -⟩
  refine (hLsb s₂ h₂.sound).mono ?_
  intro low s₃ h₃
  refine (immediate_means (· = id) h₃.sound _).mono ?_
  rintro count s₄ ⟨h₄, -⟩
  refine (emit_advances (· = id) h₄.sound _).mono ?_
  intro _ s₅ h₅
  have hRest := ((h₂.trans h₃).trans h₄).trans h₅
  exact ⟨_, h.emitted (h₁.trans hRest) rfl (hStands.mono hRest.toGrown) (.inl rfl)⟩

/-- So does that of low bits. -/
theorem coverLowMask_exact {operator : Operator} (hs : s.Sound) (h : Fields site id operator)
    (left : Int32Match) (width : Nat) :
    Ensures site s (coverLowMask id left width) fun _ s' => ∃ i, Emitted site s s' [id] i := by
  have hWhole : Ensures site s (coverExtract id left.id (immediate 0) width) fun _ s' =>
      ∃ i, Emitted site s s' [id] i :=
    coverExtract_exact hs h _ (fun t ht => (immediate_means (· = id) ht 0).mono fun _ _ h => h.1) width
  unfold coverLowMask
  simp only [ensures_bind, ensures_read]
  split
  · simp only [ensures_bind, ensures_lift]
    intro shifted _
    split
    · simp only [ensures_bind, ensures_pure]
      exact coverExtract_exact hs h _
        (fun t ht => (useImmediate_means (· = id) ht _).mono fun _ _ h => h.1) _
    · exact hWhole
  · exact hWhole

/-- A mask is covered by a bit field instruction, or nothing is done. -/
theorem coverMask_exact {operator : Operator} (hs : s.Sound) (h : Fields site id operator)
    (left : Int32Match) (mask : BitVec 32) :
    Ensures site s (coverMask id left mask) fun done s' =>
      if done then ∃ i, Emitted site s s' [id] i else s' = s := by
  unfold coverMask
  dsimp only
  -- ones below are extracted, a field of zeros is cleared, and other masks are left
  split
  · simp only [ensures_bind, ensures_pure]
    exact coverLowMask_exact hs h left _
  · split
    · simp only [ensures_bind, ensures_pure]
      refine (defineAt_advances (D := (· = id)) hs rfl _).mono ?_
      rintro _ s₁ ⟨h₁, r, rfl, hStands⟩
      refine (useRegister_means (· = id) h₁.sound _).mono ?_
      rintro x s₂ ⟨h₂, -⟩
      refine (immediate_means (· = id) h₂.sound _).mono ?_
      rintro low s₃ ⟨h₃, -⟩
      refine (immediate_means (· = id) h₃.sound _).mono ?_
      rintro count s₄ ⟨h₄, -⟩
      refine (emit_advances (· = id) h₄.sound _).mono ?_
      intro _ s₅ h₅
      have hRest := ((h₂.trans h₃).trans h₄).trans h₅
      exact ⟨_, h.emitted (h₁.trans hRest) rfl (hStands.mono hRest.toGrown) (.inr rfl)⟩
    · exact (ensures_pure _ _).mpr rfl

/-! ## Words -/

/-- A conjunction is delivered in each of its forms. -/
theorem coverAnd_exact (hs : s.Sound) (hOp : site.graph.HasOp id (.word32 .and)) :
    Ensures site s (coverAnd id) fun _ s' => ∃ i, Emitted site s s' [id] i := by
  have hPlain : Ensures site s (coverBinary id .and .and {}) fun _ s' =>
      ∃ i, Emitted site s s' [id] i := coverWord_exact hs hOp rfl mirrors_and
  unfold coverAnd
  simp only [ensures_bind, ensures_read, ensures_lift]
  intro m hm
  have hEval : ∀ val, site.graph.Consistent val →
      val id = val m.left.id &&& val m.right.id := fun val hVal => hVal.binary_word32 hOp hm
  -- A complement on either side is cleared from the other one; a mask may be a bit field.
  refine (coveredComplement?_word id m.left.id).mono ?_
  rintro x? _ ⟨rfl, hLeft⟩
  split
  · next x =>
    refine coverClear_exact hs hOp rfl fun val hVal => ?_
    rw [hEval val hVal, hLeft x rfl val hVal, BitVec.and_comm]
  · simp only [ensures_bind]
    refine (coveredComplement?_word id m.right.id).mono ?_
    rintro y? _ ⟨rfl, hRight⟩
    split
    · next y =>
      refine coverClear_exact hs hOp rfl fun val hVal => ?_
      rw [hEval val hVal, hRight y rfl val hVal]
    · simp only [ensures_bind]
      refine (has_means .armv7).mono ?_
      rintro armv7 _ ⟨rfl, hHas⟩
      split
      · next hTrue =>
        split
        · simp only [ensures_bind]
          refine (coverMask_exact hs ⟨hOp, .inl rfl, hHas ▸ hTrue⟩ _ _).mono ?_
          intro done s' hDone
          cases done with
          | true => exact (ensures_pure _ _).mpr hDone
          | false =>
            have hSame : s' = _ := hDone
            rw [hSame]
            exact hPlain
        · exact hPlain
      · exact hPlain

/-- An exclusive or is delivered, as a complement or by itself. -/
theorem coverXor_exact (hs : s.Sound) (hOp : site.graph.HasOp id (.word32 .xor)) :
    Ensures site s (coverXor id) fun _ s' => ∃ i, Emitted site s s' [id] i := by
  unfold coverXor
  simp only [ensures_bind, ensures_read, ensures_lift]
  intro m hm
  split
  · exact coverWord_exact hs hOp rfl mirrors_xor
  · next hOnes =>
    have hEval : ∀ val, site.graph.Consistent val → val id = ~~~val m.left.id := by
      intro val hVal
      have hOnes : m.right.isConst (-1) = true := by simpa using hOnes
      have hRight := hVal.value (Graph.binary_inputs hm).1.2 (eq_of_beq hOnes)
      rw [hVal.binary_word32 hOp hm, hRight]
      exact BitVec.xor_allOnes
    -- The instruction moves the complement of what its flexible operand stands for.
    have hMoves : ∀ {t : State} {r : Nat} {f : Operand2}, Advances s t [] (· = id) →
        Stands site.graph t.vregs t.stream id r → f.Reads site.graph t m.left.id →
        Ensures site t (emit { op := .mvn, mode := f.mode, out := [.vreg r .register],
                               inputs := f.operands }) fun _ s' =>
          ∃ i, Emitted site s s' [id] i := by
      intro t r f ht hStands hf
      refine (emit_advances (· = id) ht.sound _).mono ?_
      intro _ s' h'
      refine ⟨_, .of_word hOp rfl (ht.trans h') rfl (hStands.mono h'.toGrown) (.inr ?_)⟩
      intro val ρ hVal hAgrees
      have hFlexible := (hf.grown h'.toGrown) val ρ hVal hAgrees []
      rw [List.append_nil] at hFlexible
      rw [hEval val hVal]
      refine result?_of_outcome (p := ρ.logical (~~~val m.left.id)) ?_
      simp [Instr.outcome?, hFlexible]
    simp only [ensures_bind]
    refine (define_advances (D := (· = id)) hs rfl).mono ?_
    rintro _ s₁ ⟨h₁, r, rfl, hStands⟩
    refine (tryShift_means (· = id) h₁.sound _).mono ?_
    rintro f? s₂ ⟨h₂, hReads⟩
    split
    · next f => exact hMoves (h₁.trans h₂) (hStands.mono h₂.toGrown) (hReads f rfl)
    · simp only [ensures_bind]
      refine (useRegister_means (· = id) h₂.sound _).mono ?_
      rintro o s₃ ⟨h₃, ho⟩
      exact hMoves (f := ⟨.register, [o]⟩) ((h₁.trans h₂).trans h₃)
        (hStands.mono (h₂.trans h₃).toGrown) (.of_register ho)

/-- A logical shift is delivered, or covered by a bit field instruction. -/
theorem coverShr_exact (hs : s.Sound) (hOp : site.graph.HasOp id (.word32 .shr)) :
    Ensures site s (coverShr id) fun _ s' => ∃ i, Emitted site s s' [id] i := by
  have hPlain : Ensures site s (coverShift id {}) fun _ s' => ∃ i, Emitted site s s' [id] i :=
    coverShift_exact hs hOp rfl
  unfold coverShr
  simp only [ensures_bind, ensures_read, ensures_lift]
  intro m _
  refine (has_means .armv7).mono ?_
  rintro armv7 _ ⟨rfl, hHas⟩
  -- a field only where the core has the instruction and the operand is a mask
  split
  · next hGuard =>
    simp only [Bool.and_eq_true] at hGuard
    simp only [ensures_bind, ensures_lift]
    intro field _
    split
    · simp only [ensures_bind, ensures_pure]
      exact coverExtract_exact hs ⟨hOp, .inr rfl, hHas ▸ hGuard.1.1⟩ _
        (fun t ht => (useImmediate_means (· = id) ht _).mono fun _ _ h => h.1) _
    · exact hPlain
  · exact hPlain

/-! ## Sums and products -/

/-- The word of a product combined with a third one. -/
theorem emitMultiply_exact {product addend : NodeId} {n : Int32Op} (hs : s.Sound)
    (hOp : site.graph.HasOp id (.int32 n)) (hProcessing : (Operator.int32 n).isProcessing = true)
    (hProduct : site.graph.HasOp product (.int32 .mul))
    (hEval : ∀ val, site.graph.Consistent val →
      op = .mla ∧ val id = val product + val addend ∨
        op = .mls ∧ val id = val addend - val product) :
    Ensures site s (emitMultiply op id product addend) fun _ s' =>
      ∃ i, Emitted site s s' [id] i := by
  unfold emitMultiply
  simp only [ensures_bind, ensures_read, ensures_lift]
  intro m hm
  refine (define_advances (D := (· = id)) hs rfl).mono ?_
  rintro _ s₁ ⟨h₁, r, rfl, hStands⟩
  refine (useRegister_means (· = id) h₁.sound m.left.id).mono ?_
  rintro x s₂ ⟨h₂, hx⟩
  refine (useRegister_means (· = id) h₂.sound m.right.id).mono ?_
  rintro y s₃ ⟨h₃, hy⟩
  refine (useRegister_means (· = id) h₃.sound addend).mono ?_
  rintro z s₄ ⟨h₄, hz⟩
  refine (emit_advances (· = id) h₄.sound _).mono ?_
  intro _ s₅ h₅
  have hRest := ((h₂.trans h₃).trans h₄).trans h₅
  refine ⟨_, .of_word hOp hProcessing (h₁.trans hRest) rfl (hStands.mono hRest.toGrown) (.inr ?_)⟩
  intro val ρ hVal hAgrees
  have hLeft := (hx.grown ((h₃.trans h₄).trans h₅).toGrown) val ρ hVal hAgrees
  have hRight := (hy.grown (h₄.trans h₅).toGrown) val ρ hVal hAgrees
  have hThird := (hz.grown h₅.toGrown) val ρ hVal hAgrees
  -- The factors are those of the product that is taken in, not operands of the node itself.
  have hMul : val product = val m.left.id * val m.right.id := hVal.binary_int32 hProduct hm
  rcases hEval val hVal with ⟨rfl, hSum⟩ | ⟨rfl, hDifference⟩
  · rw [hSum, hMul]
    simp [Instr.result?, hLeft, hRight, hThird]
  · rw [hDifference, hMul]
    simp [Instr.result?, hLeft, hRight, hThird]

/-- A sum is delivered, by itself or with a product taken in. -/
theorem coverAdd_exact (hs : s.Sound) (hOp : site.graph.HasOp id (.int32 .add)) :
    Ensures site s (coverAdd id) fun _ s' => ∃ i, Emitted site s s' [id] i := by
  unfold coverAdd
  simp only [ensures_bind, ensures_read, ensures_lift]
  intro m hm
  obtain ⟨⟨-, hLeftOp⟩, -, hRightOp⟩ := Graph.binary_feeds hm
  have hEval : ∀ val, site.graph.Consistent val →
      val id = val m.left.id + val m.right.id := fun val hVal => hVal.binary_int32 hOp hm
  refine (isCoveredProduct_ensures _ _ _).mono ?_
  rintro left _ ⟨rfl, hLeft⟩
  split
  · next hCovered =>
    rw [hLeft hCovered] at hLeftOp
    exact emitMultiply_exact hs hOp rfl hLeftOp fun val hVal => .inl ⟨rfl, hEval val hVal⟩
  · simp only [ensures_bind]
    refine (isCoveredProduct_ensures _ _ _).mono ?_
    rintro right _ ⟨rfl, hRight⟩
    split
    · next hCovered =>
      rw [hRight hCovered] at hRightOp
      refine emitMultiply_exact hs hOp rfl hRightOp fun val hVal => .inl ⟨rfl, ?_⟩
      -- the product is on the right, and the sum is turned round
      rw [hEval val hVal, BitVec.add_comm]
    · exact coverArithmetic_exact hs hOp rfl mirrors_add

/-- A difference is delivered, by itself or with a product taken in. -/
theorem coverSub_exact (hs : s.Sound) (hOp : site.graph.HasOp id (.int32 .sub)) :
    Ensures site s (coverSub id) fun _ s' => ∃ i, Emitted site s s' [id] i := by
  -- without `mls`, or without a product on the right, it is a subtraction
  have hPlain : Ensures site s (coverBinary id .sub .rsb {}) fun _ s' =>
      ∃ i, Emitted site s s' [id] i := coverArithmetic_exact hs hOp rfl mirrors_sub
  unfold coverSub
  simp only [ensures_bind, ensures_read, ensures_lift]
  intro m hm
  obtain ⟨-, -, hRightOp⟩ := Graph.binary_feeds hm
  refine (has_means .mls).mono ?_
  rintro mls _ ⟨rfl, -⟩
  split
  · simp only [ensures_bind]
    refine (isCoveredProduct_ensures _ _ _).mono ?_
    rintro right _ ⟨rfl, hRight⟩
    split
    · next hCovered =>
      rw [hRight hCovered] at hRightOp
      simp only [ensures_bind, ensures_pure]
      exact emitMultiply_exact hs hOp rfl hRightOp fun val hVal =>
        .inr ⟨rfl, hVal.binary_int32 hOp hm⟩
    · exact hPlain
  · exact hPlain

end Selection
end ArmBackend
