import ArmBackend.Proofs.Selection.Quiet
import ArmBackend.Proofs.Structure

/-!
# The outline of what is emitted

An outline is an instruction without its operands: the opcode, what the flags are for and the
condition. The registers and the numbers of a segment depend on all that was selected before. Its
outlines do not: they follow from the graph, so two runs of a rule that look at the graph alike emit
the same ones, whatever states they start from.

`Writes` says which outlines a step appends, if it succeeds. It composes along a row of steps, of
which the quiet ones append nothing, so the outlines of a rule are read off its pattern.

## Results

* `emit_writes`, `emitFlags_writes` — the primitive steps.
* `tryShift_shifts`, `tryOperand2_fits` — when the flexible operand takes a node in.
* `coverBinary_writes`, `coverCompare_writes` — the outlines of the rules.
-/

namespace ArmBackend

/-- An instruction without its operands. -/
structure Outline where
  op : Opcode
  flags : FlagsMode := .none
  cond : Cond := .eq
  deriving DecidableEq, Repr

/-- The outline of an instruction. -/
def Instr.outline (i : Instr) : Outline :=
  { op := i.op, flags := i.flags, cond := i.cond }

namespace Selection

variable {α β : Type} {site : Site} {s t : State} {id u x y : NodeId} {k : Continuation}
  {op reverse : Opcode} {L : List Outline} {m : BinaryMatch}

/-- What the flags of an instruction are set for. -/
def Continuation.flags (k : Continuation) : FlagsMode :=
  match k.use with
  | .unused => .none
  | .result _ => .set
  | .branch _ _ => .branch

/-- The outline of an instruction whose flags a continuation puts to use. -/
def Continuation.outline (k : Continuation) (op : Opcode) : Outline :=
  { op, flags := k.flags, cond := k.cond }

/-- The outlines of the segment. -/
def State.outlines (s : State) : List Outline :=
  s.segment.map Instr.outline

/-- Where the segment stays, so do its outlines. -/
theorem Unmoved.outlines (h : Unmoved s t) : t.outlines = s.outlines := by
  unfold State.outlines
  rw [h.segment]

/-- Whether a step that succeeds appends these outlines to the segment. -/
def Writes (site : Site) (m : Select α) (L : List Outline) : Prop :=
  ∀ s, Ensures site s m fun _ t => t.outlines = s.outlines ++ L

/-! ## Sequencing -/

namespace Writes

variable {m : Select α} {f : α → Select β}

theorem throw (e : Fault) : Writes site (throw e : Select α) L :=
  fun _ => (ensures_throw _ _).mpr trivial

theorem read {f : Site → Select β} (h : Writes site (f site) L) : Writes site (read >>= f) L :=
  h

/-- A look at the graph. -/
theorem look {e : Except Fault α} (h : ∀ a, e = .ok a → Writes site (f a) L) :
    Writes site (liftM e >>= f) L :=
  fun s => (ensures_bind _ _ _).mpr ((ensures_lift _ _).mpr fun a ha => h a ha s)

/-- A quiet step, of which something is known, in front. -/
theorem after {P : α → Prop} (hm : Quiet site m) (hP : ∀ s, Ensures site s m fun a _ => P a)
    (hf : ∀ a, P a → Writes site (f a) L) : Writes site (m >>= f) L := by
  intro s
  refine (ensures_bind _ _ _).mpr ?_
  intro a t hRun
  have hQuiet := hm s a t hRun
  refine (hf a (hP s a t hRun) t).mono ?_
  intro b t' ht'
  rw [ht', hQuiet.outlines]

/-- A quiet step in front. -/
theorem quiet (hm : Quiet site m) (hf : ∀ a, Writes site (f a) L) : Writes site (m >>= f) L :=
  .after (P := fun _ => True) hm (fun _ _ _ _ => trivial) fun a _ => hf a

/-- A quiet step behind. -/
theorem before (hm : Writes site m L) (hf : ∀ a, Quiet site (f a)) : Writes site (m >>= f) L := by
  intro s
  refine (ensures_bind _ _ _).mpr ((hm s).mono ?_)
  intro a t ht
  refine (hf a t).mono ?_
  intro b t' ht'
  rw [ht'.outlines, ht]

end Writes

/-! ## Instructions -/

/-- One instruction is one outline. -/
theorem emit_writes (i : Instr) : Writes site (emit i) [i.outline] := by
  intro s
  refine (emit_appends i).mono ?_
  intro _ t ht
  unfold State.outlines
  rw [ht, List.map_append, List.map_singleton]

/-- Flags that are put to use show in the outline. -/
theorem emitFlags_writes (op : Opcode) (mode : AddrMode) (k : Continuation)
    (out inputs : List Operand) : Writes site (emitFlags op mode k out inputs) [k.outline op] := by
  unfold emitFlags Continuation.outline Continuation.flags
  -- Naming the node that takes the flag emits nothing.
  cases k.use with
  | unused => exact emit_writes _
  | result node => exact .quiet (define_quiet node) fun flag => emit_writes _
  | branch t f => exact emit_writes _

/-! ## The flexible operand -/

/-- Whether a node is a shift. -/
def shifts (g : Graph) (id : NodeId) : Bool :=
  (g.node? id).any fun n => (shiftRule? n.op).isSome

/-- Whether the flexible operand of an instruction takes a node in. -/
def fits (g : Graph) (op : Opcode) (id : NodeId) : Bool :=
  (g.int32 id).toOption.any (fun m => m.value?.any op.canBeImmediate) || shifts g id

/-- A node is taken in as a shifted register just when it is a shift. -/
theorem tryShift_shifts (id : NodeId) (s : State) :
    Ensures site s (tryShift id) fun o _ => o.isSome = shifts site.graph id := by
  unfold shifts
  refine ensures_tryShift ?_ ?_
  · rintro _ ⟨n, hn, rfl⟩ hNone
    rw [hn, Option.any_some, hNone]
    rfl
  · rintro _ rule m ⟨n, hn, rfl⟩ hRule _ x t _
    rw [hn, Option.any_some, hRule]
    exact ⟨fun _ _ _ _ => rfl, fun _ _ _ => rfl⟩

/-- A flexible operand is found exactly when the node fits. -/
theorem tryOperand2_fits (op : Opcode) (id : NodeId) (s : State) :
    Ensures site s (tryOperand2 op id) fun o _ => o.isSome = fits site.graph op id := by
  unfold fits
  refine ensures_tryOperand2 (fun m hm hFits => ?_) fun m hm hNot => ?_
  · rw [hm, Except.toOption, Option.any_some, hFits, Bool.true_or]
    exact fun _ _ _ => rfl
  · rw [hm, Except.toOption, Option.any_some, hNot, Bool.false_or]
    exact tryShift_shifts id s

/-! ## Binary rules -/

/-- The instruction that covers a binary node. -/
def binaryOp (g : Graph) (m : BinaryMatch) (op reverse : Opcode) : Opcode :=
  if m.left.id = m.right.id ∨ fits g op m.right.id then op
  else if fits g reverse m.left.id then reverse else op

/-- Where both orders have one opcode it does not matter which operand is taken in. -/
theorem binaryOp_self (g : Graph) (m : BinaryMatch) (op : Opcode) : binaryOp g m op op = op := by
  unfold binaryOp
  split
  · rfl
  · split <;> rfl

/-- A binary node is one instruction, whose opcode tells which operand was taken in. -/
theorem coverBinary_writes (hm : site.graph.binary id = .ok m) (op reverse : Opcode)
    (k : Continuation) :
    Writes site (coverBinary id op reverse k) [k.outline (binaryOp site.graph m op reverse)] := by
  unfold coverBinary binaryOp
  refine .read (.look fun m' hm' => ?_)
  cases hm.symm.trans hm'
  split
  · -- Equal operands are given as registers.
    next hSame =>
    rw [if_pos (.inl hSame)]
    exact .quiet (useRegister_quiet _) fun _ => .quiet (define_quiet _) fun _ =>
      emitFlags_writes _ _ _ _ _
  · -- The right operand is tried first, then the left one with the reversed instruction, and what
    -- the attempts give is known from the graph.
    next hApart =>
    refine .after (tryOperand2_quiet op _) (tryOperand2_fits op _) ?_
    intro right hRight
    cases right with
    | some right =>
      rw [if_pos (.inr hRight.symm)]
      exact .quiet (useRegister_quiet _) fun _ => .quiet (define_quiet _) fun _ =>
        emitFlags_writes _ _ _ _ _
    | none =>
      rw [if_neg (not_or.mpr ⟨hApart, ne_true_of_eq_false hRight.symm⟩)]
      refine .after (tryOperand2_quiet reverse _) (tryOperand2_fits reverse _) ?_
      intro left hLeft
      cases left with
      | some left =>
        have hFits : fits site.graph reverse m.left.id = true := hLeft.symm
        rw [if_pos hFits]
        exact .quiet (useRegister_quiet _) fun _ => .quiet (define_quiet _) fun _ =>
          emitFlags_writes _ _ _ _ _
      | none =>
        rw [if_neg (ne_true_of_eq_false hLeft.symm)]
        exact .quiet (useRegister_quiet _) fun _ => .quiet (useRegister_quiet _) fun _ =>
          .quiet (define_quiet _) fun _ => emitFlags_writes _ _ _ _ _

/-- A node that one instruction covers in either order. -/
theorem coverBinary_writes_self (hm : site.graph.binary id = .ok m) (op : Opcode)
    (k : Continuation) : Writes site (coverBinary id op op k) [k.outline op] := by
  have hWrites := coverBinary_writes hm op op k
  rw [binaryOp_self] at hWrites
  exact hWrites

/-- The continuation of a comparison, for the order in which its operands are taken. -/
def compareWith (g : Graph) (m : BinaryMatch) (op : Opcode) (k : Continuation)
    (commutative : Bool) : Continuation :=
  if fits g op m.right.id then k
  else if fits g op m.left.id then if commutative then k else k.commute else k

/-- A comparison is one instruction, whose condition tells which operand was taken in. -/
theorem coverCompare_writes (hm : site.graph.binary id = .ok m) (op : Opcode) (k : Continuation)
    (commutative : Bool) :
    Writes site (coverCompare id op k commutative)
      [(compareWith site.graph m op k commutative).outline op] := by
  unfold coverCompare compareWith
  refine .read (.look fun m' hm' => ?_)
  cases hm.symm.trans hm'
  -- The right operand is tried first. Only when the left one is taken in are the operands
  -- exchanged, and the condition with them.
  refine .after (tryOperand2_quiet op _) (tryOperand2_fits op _) ?_
  intro right hRight
  cases right with
  | some right =>
    have hFits : fits site.graph op m.right.id = true := hRight.symm
    rw [if_pos hFits]
    exact .quiet (useRegister_quiet _) fun _ => emitFlags_writes _ _ _ _ _
  | none =>
    rw [if_neg (ne_true_of_eq_false hRight.symm)]
    refine .after (tryOperand2_quiet op _) (tryOperand2_fits op _) ?_
    intro left hLeft
    cases left with
    | some left =>
      have hFits : fits site.graph op m.left.id = true := hLeft.symm
      rw [if_pos hFits]
      exact .quiet (useRegister_quiet _) fun _ => emitFlags_writes _ _ _ _ _
    | none =>
      rw [if_neg (ne_true_of_eq_false hLeft.symm)]
      exact .quiet (useRegister_quiet _) fun _ => .quiet (useRegister_quiet _) fun _ =>
        emitFlags_writes _ _ _ _ _

/-- A test is one instruction. -/
theorem coverTest_writes (id : NodeId) (k : Continuation) :
    Writes site (coverTest id k) [k.outline .tst] :=
  .quiet (useRegister_quiet id) fun _ => emitFlags_writes _ _ _ _ _

/-- A shift is one move. -/
theorem coverShift_writes (id : NodeId) (k : Continuation) :
    Writes site (coverShift id k) [k.outline .mov] := by
  unfold coverShift
  refine .quiet (tryShift_quiet id) fun shifted => ?_
  split
  · exact .quiet (define_quiet id) fun _ => emitFlags_writes _ _ _ _ _
  · exact .read (.look fun _ _ => .throw _)

/-! ## Words -/

/-- Clearing bits is one instruction, whether a shift is taken in or not. -/
theorem coverClear_writes (id x y : NodeId) : Writes site (coverClear id x y) [{ op := .bic }] := by
  unfold coverClear
  refine .quiet (define_quiet id) fun out => .quiet (tryShift_quiet y) fun shifted => ?_
  split
  · exact .quiet (useRegister_quiet x) fun _ => emit_writes _
  · exact .quiet (useRegister_quiet x) fun _ => .quiet (useRegister_quiet y) fun _ => emit_writes _

/-- Taking out a field is one instruction. -/
theorem coverExtract_writes (id base : NodeId) {lsb : Select Operand} (hLsb : Quiet site lsb)
    (width : Nat) : Writes site (coverExtract id base lsb width) [{ op := .ubfx }] :=
  .quiet (define_quiet id) fun _ => .quiet (useRegister_quiet base) fun _ => .quiet hLsb fun _ =>
    .quiet (immediate_quiet _) fun _ => emit_writes _

/-- A mask of low bits is one instruction, whether a shift is taken in or not. -/
theorem coverLowMask_writes (id : NodeId) (left : Int32Match) (width : Nat) :
    Writes site (coverLowMask id left width) [{ op := .ubfx }] := by
  have hWhole : Writes site (coverExtract id left.id (immediate 0) width) [{ op := .ubfx }] :=
    coverExtract_writes id left.id (immediate_quiet 0) width
  unfold coverLowMask
  refine .read ?_
  dsimp only
  split
  · refine .look fun shifted _ => ?_
    split
    · exact (coverExtract_writes _ _ (useImmediate_quiet _) _).before fun _ => .pure _
    · exact hWhole
  · exact hWhole

/-- The outline by which a mask is covered, if there is one. -/
def maskOutline? (mask : BitVec 32) : Option Outline :=
  if (bitRun mask).contiguous && (bitRun mask).lsb = 0 then some { op := .ubfx }
  else if (bitRun (~~~mask)).contiguous then some { op := .bfc } else none

/-- A mask is covered by one instruction, or nothing is done. -/
theorem coverMask_outlines (id : NodeId) (left : Int32Match) (mask : BitVec 32) (s : State) :
    Ensures site s (coverMask id left mask) fun done t =>
      done = (maskOutline? mask).isSome ∧
        t.outlines = s.outlines ++ (maskOutline? mask).toList := by
  unfold coverMask maskOutline?
  dsimp only
  split
  · -- a field of low bits is taken out
    simp only [ensures_bind, ensures_pure]
    refine (coverLowMask_writes id left _ s).mono ?_
    intro _ t ht
    exact ⟨rfl, ht⟩
  · split
    · simp only [ensures_bind, ensures_pure]
      -- a run of zeros is cleared: the operands are taken quietly, and one instruction is emitted
      refine (defineAt_quiet id .sameAsFirst s).mono ?_
      intro out s₁ h₁
      refine (useRegister_quiet left.id s₁).mono ?_
      intro x s₂ h₂
      refine (immediate_quiet _ s₂).mono ?_
      intro low s₃ h₃
      refine (immediate_quiet _ s₃).mono ?_
      intro count s₄ h₄
      refine (emit_writes _ s₄).mono ?_
      intro _ t ht
      rw [ht, h₄.outlines, h₃.outlines, h₂.outlines, h₁.outlines]
      exact ⟨rfl, rfl⟩
    · -- any other mask is left to the general rule
      exact (ensures_pure _ _).mpr ⟨rfl, (List.append_nil _).symm⟩

/-- A mask is covered by its own instruction, or by the one that is left for the others. -/
theorem coverMask_else_writes {o : Outline} {other : Select Unit} (h : Writes site other [o])
    (id : NodeId) (left : Int32Match) (mask : BitVec 32) :
    Writes site (coverMask id left mask >>= fun done => if done then pure () else other)
      [(maskOutline? mask).getD o] := by
  intro s
  refine (ensures_bind _ _ _).mpr ((coverMask_outlines id left mask s).mono ?_)
  rintro done t ⟨rfl, ht⟩
  cases hOutline : maskOutline? mask with
  | none =>
    rw [hOutline, Option.toList_none, List.append_nil] at ht
    rw [← ht]
    exact h t
  | some o' =>
    rw [hOutline] at ht
    exact (ensures_pure _ _).mpr ht

/-- The outline of an exclusive or, which may be a complement. -/
theorem coverXor_writes (hm : site.graph.binary id = .ok m) :
    Writes site (coverXor id)
      [if m.right.isConst (-1) then { op := .mvn } else { op := .eor }] := by
  unfold coverXor
  refine .read (.look fun m' hm' => ?_)
  cases hm.symm.trans hm'
  split
  · next hNot =>
    rw [if_neg (by simpa using hNot)]
    exact coverBinary_writes_self hm .eor {}
  · next hConst =>
    rw [if_pos (by simpa using hConst)]
    refine .quiet (define_quiet id) fun out => .quiet (tryShift_quiet _) fun shifted => ?_
    split
    · exact emit_writes _
    · exact .quiet (useRegister_quiet _) fun _ => emit_writes _

/-! ## Products and doubles -/

/-- A product with an addend is one instruction. -/
theorem emitMultiply_writes (op : Opcode) (id product addend : NodeId) :
    Writes site (emitMultiply op id product addend) [{ op }] :=
  .read (.look fun _ _ => .quiet (define_quiet id) fun _ => .quiet (useRegister_quiet _) fun _ =>
    .quiet (useRegister_quiet _) fun _ => .quiet (useRegister_quiet _) fun _ => emit_writes _)

/-- The instruction that covers a product. -/
def productOp (m : BinaryMatch) : Opcode :=
  (m.right.value?.bind shiftedSum?).elim .mul Prod.fst

/-- A product is one instruction, a sum with a shift where the factor allows it. -/
theorem coverMul_writes (hm : site.graph.binary id = .ok m) :
    Writes site (coverMul id) [{ op := productOp m }] := by
  unfold coverMul productOp
  refine .read (.look fun m' hm' => ?_)
  cases hm.symm.trans hm'
  split
  · next sum hSum =>
    rw [hSum]
    exact .quiet (define_quiet id) fun _ => .quiet (useRegister_quiet _) fun _ =>
      .quiet (useRegister_quiet _) fun _ => .quiet (immediate_quiet _) fun _ => emit_writes _
  · next hNone =>
    rw [hNone]
    exact .quiet (define_quiet id) fun _ => .quiet (useRegister_quiet _) fun _ =>
      .quiet (useRegister_quiet _) fun _ => emit_writes _

/-- A node of doubles is one instruction. -/
theorem coverDoubles_writes (id : NodeId) (op : Opcode) :
    Writes site (coverDoubles id op) [{ op }] :=
  .read (.look fun _ _ => .quiet (define_quiet id) fun _ => .look fun _ _ =>
    .quiet (useRegister_quiet _) fun _ => .look fun _ _ => .quiet (useRegister_quiet _) fun _ =>
      emit_writes _)

/-- An accumulated product is one instruction. -/
theorem emitAccumulate_writes (op : Opcode) (id product accumulator : NodeId) :
    Writes site (emitAccumulate op id product accumulator) [{ op }] :=
  .read (.look fun _ _ => .quiet (defineAt_quiet id _) fun _ =>
    .quiet (useRegister_quiet _) fun _ => .look fun _ _ => .quiet (useRegister_quiet _) fun _ =>
      .look fun _ _ => .quiet (useRegister_quiet _) fun _ => emit_writes _)

/-- A comparison of doubles is one instruction. -/
theorem coverDoubleCompare_writes (id : NodeId) (k : Continuation) :
    Writes site (coverDoubleCompare id k) [k.outline .vcmp] :=
  .read (.look fun _ _ => .look fun _ _ => .quiet (useRegister_quiet _) fun _ => .look fun _ _ =>
    .quiet (useRegister_quiet _) fun _ => emitFlags_writes _ _ _ _ _)

end Selection
end ArmBackend
