import ArmBackend.Proofs.Selection.Advances
import ArmBackend.Proofs.Selection.Rules.Words

/-!
# What a rule may compute and emit

A rule computes nodes and emits instructions, and a law about the selected code has to be said of
every rule: that pure nodes have no effects, that no instruction but those of a word has the register
of a word for an output. Such laws differ in what they allow and not in how they go through the rule.
So each rule is gone through once, for any `Scope`: for any nodes that may be computed, opcodes that
may be emitted and operands that may be written.

`Emits site K l m R` says that the step `m` stays in the scope `K`, when the operands in `l` may be
written; so may those in `R`, which come out of the step.

## Results

* `Emits.bind`, `Emits.look`, `Emits.read` — what holds of each step holds of their
  sequence.
* `coverBinary_emits`, `coverShift_emits`, `coverClear_emits` — rules with a flexible operand.
* `coverMul_emits`, `coverDivision_emits`, `coverRemainder_emits` — products and quotients.
* `coverDoubleAdd_emits`, `coverDoubleSub_emits`, `coverDoubleCompare_emits` — doubles.
* `coverPhi_emits`, `coverProjection_emits`, `coverReturn_emits` — nodes with little code or none.
-/

namespace ArmBackend.Selection

variable {α β : Type} {site : Site} {s s' : State} {id : NodeId} {k : Continuation}

/-- What a rule may do: which nodes it may compute, which opcodes it may emit, and which operands its
instructions may write. The register of a node that it computes may be written, and so may one that
it has just been given. -/
structure Scope (g : Graph) where
  computes : NodeId → Prop
  emits : Opcode → Prop
  writes : State → Operand → Prop
  mono : ∀ {s s' : State} {o : Operand}, writes s o → Grows s s' → writes s' o
  own : ∀ {s : State} {x : NodeId} {r : Nat} (location : Location), computes x →
    Stands g s.vregs s.stream x r → writes s (.vreg r location)
  temp : ∀ {s : State} {v : Nat} (location : Location), Fresh s v → writes s (.vreg v location)

/-- A scope in which every operand may be written. -/
def Scope.anyOutput (g : Graph) (computes : NodeId → Prop) (emits : Opcode → Prop) : Scope g where
  computes := computes
  emits := emits
  writes := fun _ _ => True
  mono := fun _ _ => trivial
  own := fun _ _ _ => trivial
  temp := fun _ _ => trivial

/-- Whether a step from `s` to `s'` has stayed in a scope. -/
def Scope.Adds {g : Graph} (K : Scope g) (s s' : State) : Prop :=
  ∃ code, Advances s s' code K.computes ∧ ∀ i ∈ code, K.emits i.op ∧ ∀ o ∈ i.out, K.writes s' o

/-- Whether a step stays in a scope, when the operands in `l` may be written; those in `R` may be
written then. -/
def Emits (site : Site) (K : Scope site.graph) (l : List Operand) (m : Select α)
    (R : α → List Operand) : Prop :=
  ∀ s : State, s.Sound → (∀ o ∈ l, K.writes s o) → Ensures site s m fun a s' =>
    K.Adds s s' ∧ ∀ o ∈ R a, K.writes s' o

/-! ## Sequencing -/

variable {K : Scope site.graph} {l : List Operand} {m : Select α} {f : α → Select β}
  {R : α → List Operand} {S : β → List Operand} {op reverse : Opcode}

theorem Scope.Adds.nothing (hs : s.Sound) : K.Adds s s :=
  ⟨[], .nothing hs, by simp⟩

/-- Two steps in a scope are a step in it: what the first has written may be written still. -/
theorem Scope.Adds.trans {s'' : State} (h : K.Adds s s') (h' : K.Adds s' s'') : K.Adds s s'' := by
  obtain ⟨code, hAdvances, hCode⟩ := h
  obtain ⟨code', hAdvances', hCode'⟩ := h'
  refine ⟨code ++ code', hAdvances.trans hAdvances', ?_⟩
  intro i hi
  rcases List.mem_append.mp hi with hi | hi
  · exact ⟨(hCode i hi).1, fun o ho => K.mono ((hCode i hi).2 o ho) hAdvances'.grows⟩
  · exact hCode' i hi

namespace Emits

/-- A step that stays in a scope, whatever may be written. -/
theorem adds (h : Emits site K [] m R) (hs : s.Sound) : Ensures site s m fun _ s' => K.Adds s s' :=
  (h s hs nofun).mono fun _ _ => And.left

theorem pure (a : α) (h : ∀ o ∈ R a, o ∈ l) : Emits site K l (pure a : Select α) R :=
  fun _ hs hl => (ensures_pure _ _).mpr ⟨.nothing hs, fun o ho => hl o (h o ho)⟩

/-- A failure does nothing. -/
theorem throw (e : Fault) : Emits site K l (throw e : Select α) R :=
  fun _ _ _ => (ensures_throw _ _).mpr trivial

/-- Nothing comes after a failure. -/
theorem fail (e : Fault) : Emits site K l (MonadExcept.throw e >>= f) S :=
  fun _ _ _ => (ensures_bind _ _ _).mpr ((ensures_throw _ _).mpr trivial)

/-- What the first step makes may be written by the second. -/
theorem bind (hm : Emits site K l m R) (hf : ∀ a, Emits site K (R a ++ l) (f a) S) :
    Emits site K l (m >>= f) S := by
  intro s hs hl
  refine (ensures_bind _ _ _).mpr ((hm s hs hl).mono ?_)
  rintro a s₁ ⟨hAdds, hMade⟩
  obtain ⟨code, hAdvances, -⟩ := id hAdds
  have hAll : ∀ o ∈ R a ++ l, K.writes s₁ o := by
    intro o ho
    rcases List.mem_append.mp ho with ho | ho
    · exact hMade o ho
    · exact K.mono (hl o ho) hAdvances.grows
  refine (hf a s₁ hAdvances.sound hAll).mono ?_
  rintro b s₂ ⟨hAdds', hRest⟩
  exact ⟨hAdds.trans hAdds', hRest⟩

/-- A look at the site changes nothing. -/
theorem read {f : Site → Select β} (h : Emits site K l (f site) S) :
    Emits site K l (read >>= f) S :=
  fun s hs hl => (ensures_bind _ _ _).mpr ((ensures_read _).mpr (h s hs hl))

/-- A look at the graph. -/
theorem look {e : Except Fault α} (h : ∀ a, e = .ok a → Emits site K l (f a) S) :
    Emits site K l (liftM e >>= f) S :=
  fun s hs hl => (ensures_bind _ _ _).mpr ((ensures_lift _ _).mpr fun a ha => h a ha s hs hl)

/-- A step that adds no code and makes no output. -/
theorem of_advances {Q : α → State → Prop}
    (h : ∀ s : State, s.Sound → Ensures site s m fun a s' => Advances s s' [] K.computes ∧ Q a s') :
    Emits site K l m fun _ => [] := by
  intro s hs _
  refine (h s hs).mono ?_
  rintro a s' ⟨hAdvances, -⟩
  exact ⟨⟨[], hAdvances, by simp⟩, by simp⟩

theorem of_quiet (h : ∀ s : State, s.Sound → Ensures site s m fun _ s' =>
    Advances s s' [] K.computes) : Emits site K l m fun _ => [] :=
  .of_advances (Q := fun _ _ => True) fun s hs => (h s hs).mono fun _ _ h => ⟨h, trivial⟩

/-- A step that keeps the state, and what is known of its answer. -/
theorem keep {Q : α → Prop} (hm : ∀ s, Ensures site s m fun a s' => s' = s ∧ Q a)
    (hf : ∀ a, Q a → Emits site K l (f a) S) : Emits site K l (m >>= f) S := by
  intro s hs hl
  refine (ensures_bind _ _ _).mpr ((hm s).mono ?_)
  rintro a s' ⟨rfl, ha⟩
  exact hf a ha s' hs hl

/-- Steps that make no output compose, so every walk through a flexible operand stays in the scope.
-/
theorem composes (K : Scope site.graph) (l : List Operand) :
    Composes site fun {_} m => Emits site K l m fun _ => [] where
  pure := fun a => pure a nofun
  throw := throw
  fail := fun e _ => fail e
  bind := fun hm hf => bind hm hf
  read := read
  look := fun h => look fun a _ => h a

end Emits

/-! ## Primitive steps -/

/-- A register is given. -/
theorem vreg_emits (u : NodeId) : Emits site K l (vreg u) fun _ => [] :=
  .of_advances fun _ hs => vreg_advances _ hs

/-- A use is marked. -/
theorem markUsed_emits (u : NodeId) : Emits site K l (markUsed u) fun _ => [] :=
  .of_quiet fun _ hs => markUsed_advances _ hs

/-- A node that may be computed is marked as computed. -/
theorem markDefined_emits (hId : K.computes id) : Emits site K l (markDefined id) fun _ => [] :=
  .of_quiet fun _ hs => markDefined_advances hs hId

/-- The class of a register is noted. -/
theorem markRep_emits (v : Nat) : Emits site K l (markRep id v) fun _ => [] :=
  .of_quiet fun _ hs => markRep_advances _ hs v

/-- An operand for a node is taken. -/
theorem useAt_emits (u : NodeId) (location : Location) :
    Emits site K l (useAt u location) fun _ => [] :=
  .of_advances fun _ hs => useAt_advances _ hs u location

theorem useRegister_emits (u : NodeId) : Emits site K l (useRegister u) fun _ => [] :=
  useAt_emits u .register

/-- A number is entered in the table. -/
theorem immediate_emits (v : BitVec 32) : Emits site K l (immediate v) fun _ => [] :=
  .of_advances fun _ hs => immediate_advances _ hs v

/-- A constant is taken as a number. -/
theorem useImmediate_emits (u : NodeId) : Emits site K l (useImmediate u) fun _ => [] :=
  .of_advances fun _ hs => useImmediate_advances _ hs u

/-- The output for a node that may be computed may be written. -/
theorem defineAt_emits (hId : K.computes id) (location : Location) :
    Emits site K l (defineAt id location) fun o => [o] := by
  intro s hs _
  refine (defineAt_advances hs hId location).mono ?_
  rintro _ s' ⟨h, r, rfl, hStands⟩
  refine ⟨⟨[], h, by simp⟩, ?_⟩
  intro o ho
  rw [List.mem_singleton.mp ho]
  exact K.own location hId hStands

/-- The output for a node that may be computed may be written to a register. -/
theorem define_emits (hId : K.computes id) : Emits site K l (define id) fun o => [o] :=
  defineAt_emits hId .register

/-- A temporary may be written. -/
theorem tempRegister_emits : Emits site K l tempRegister fun o => [o] := by
  intro s hs _
  refine (tempRegister_advances K.computes hs).mono ?_
  rintro _ s' ⟨h, v, rfl, -, hFresh⟩
  refine ⟨⟨[], h, by simp⟩, ?_⟩
  intro o ho
  rw [List.mem_singleton.mp ho]
  exact K.temp .register hFresh

/-- A temporary for a double may be written. -/
theorem tempDouble_emits : Emits site K l tempDouble fun o => [o] := by
  intro s hs _
  refine (tempDouble_advances K.computes hs).mono ?_
  rintro _ s' ⟨h, v, rfl, -, hFresh⟩
  refine ⟨⟨[], h, by simp⟩, ?_⟩
  intro o ho
  rw [List.mem_singleton.mp ho]
  exact K.temp .register hFresh

/-- An instruction may be emitted whose outputs are at hand. -/
theorem emit_emits {i : Instr} (hOp : K.emits i.op) (hOut : ∀ o ∈ i.out, o ∈ l) :
    Emits site K l (emit i) fun _ => [] := by
  intro s hs hl
  refine (emit_advances K.computes hs i).mono ?_
  intro _ s' h
  refine ⟨⟨[i], h, ?_⟩, by simp⟩
  intro i' hi
  rw [List.mem_singleton.mp hi]
  exact ⟨hOp, fun o ho => K.mono (hl o (hOut o ho)) h.grows⟩

theorem has_emits (feature : Feature) : Emits site K l (has feature) fun _ => [] :=
  .read (.pure _ nofun)

theorem isDouble_emits (u : NodeId) : Emits site K l (isDouble u) fun _ => [] :=
  .read (.look fun _ _ => .pure _ nofun)

/-- A look at the uses of a node changes nothing. -/
theorem canCover_emits (user : NodeId) : Emits site K l (canCover user id) fun _ => [] := by
  unfold canCover
  refine .read ?_
  split
  · exact .pure _ nofun
  · exact .look fun _ _ => .pure _ nofun

/-! ## Flexible operands and flags -/

/-- A shift is taken in by the walk that all families share. -/
theorem tryShift_emits (u : NodeId) : Emits site K l (tryShift u) fun _ => [] :=
  (Emits.composes K l).tryShift useRegister_emits useImmediate_emits u

/-- A flexible operand is taken in by the walk that all families share. -/
theorem tryOperand2_emits (op : Opcode) (u : NodeId) :
    Emits site K l (tryOperand2 op u) fun _ => [] :=
  (Emits.composes K l).tryOperand2 useRegister_emits useImmediate_emits op u

/-- A scope allows the flags of a continuation if it allows the node that they make. -/
def Scope.Flags {g : Graph} (K : Scope g) (k : Continuation) : Prop :=
  ∀ node, k.use = .result node → K.computes node

/-- The node of the flags is one more output. -/
theorem emitFlags_emits (hOp : K.emits op) (mode : AddrMode) (hk : K.Flags k) {out : List Operand}
    (hOut : ∀ o ∈ out, o ∈ l) (inputs : List Operand) :
    Emits site K l (emitFlags op mode k out inputs) fun _ => [] := by
  unfold emitFlags
  split
  · exact emit_emits hOp hOut
  · next node hUse =>
    refine (define_emits (hk node hUse)).bind fun flag => emit_emits hOp ?_
    intro o ho
    rcases List.mem_append.mp ho with ho | ho
    · exact List.mem_append_right _ (hOut o ho)
    · exact List.mem_append_left _ ho
  · exact emit_emits hOp hOut

/-- A binary node is covered by the opcode for its operands or the one for exchanged operands. -/
theorem coverBinary_emits (hId : K.computes id) (hOp : K.emits op) (hReverse : K.emits reverse)
    (hk : K.Flags k) : Emits site K l (coverBinary id op reverse k) fun _ => [] := by
  unfold coverBinary
  -- The four forms differ in which operand is taken in, and all write the register of the node.
  refine .read (.look fun m _ => ?_)
  split
  · refine (useRegister_emits _).bind fun x => (define_emits hId).bind fun out => ?_
    exact emitFlags_emits hOp _ hk (by simp) _
  · refine (tryOperand2_emits _ _).bind fun right => ?_
    split
    · refine (useRegister_emits _).bind fun left => (define_emits hId).bind fun out => ?_
      exact emitFlags_emits hOp _ hk (by simp) _
    · refine (tryOperand2_emits _ _).bind fun left => ?_
      split
      · refine (useRegister_emits _).bind fun right => (define_emits hId).bind fun out => ?_
        -- only with the operands exchanged is the other opcode emitted
        exact emitFlags_emits hReverse _ hk (by simp) _
      · refine (useRegister_emits _).bind fun left => (useRegister_emits _).bind fun right => ?_
        exact (define_emits hId).bind fun out => emitFlags_emits hOp _ hk (by simp) _

/-- A shift is a move with a shifted operand, or a failure. -/
theorem coverShift_emits (hId : K.computes id) (hMov : K.emits .mov) (hk : K.Flags k) :
    Emits site K l (coverShift id k) fun _ => [] := by
  unfold coverShift
  refine (tryShift_emits _).bind fun shifted => ?_
  split
  · exact (define_emits hId).bind fun out => emitFlags_emits hMov _ hk (by simp) _
  · exact .read (.look fun op _ => .throw _)

/-- Bits are cleared under a complement, shifted or not. -/
theorem coverClear_emits (hId : K.computes id) (hBic : K.emits .bic) {x y : NodeId} :
    Emits site K l (coverClear id x y) fun _ => [] := by
  unfold coverClear
  refine (define_emits hId).bind fun out => (tryShift_emits _).bind fun shifted => ?_
  split
  · exact (useRegister_emits _).bind fun left => emit_emits hBic (by simp)
  · refine (useRegister_emits _).bind fun left => (useRegister_emits _).bind fun right => ?_
    exact emit_emits hBic (by simp)

/-! ## Products and quotients -/

/-- A product by a number next to a power of two is a sum with a shift. -/
theorem coverMul_emits (hId : K.computes id) (hMul : K.emits .mul)
    (hSums : ∀ {v : BitVec 32} {op : Opcode} {shift : Nat}, shiftedSum? v = some (op, shift) →
      K.emits op) : Emits site K l (coverMul id) fun _ => [] := by
  unfold coverMul
  refine .read (.look fun m _ => ?_)
  split
  · -- a sum with a shift, whose opcode depends on the number
    next op shift hSum =>
    obtain ⟨v, -, hSum⟩ := Option.bind_eq_some_iff.mp hSum
    refine (define_emits hId).bind fun out => (useRegister_emits _).bind fun x => ?_
    refine (useRegister_emits _).bind fun y => (immediate_emits _).bind fun amount => ?_
    exact emit_emits (hSums hSum) (by simp)
  · refine (define_emits hId).bind fun out => (useRegister_emits _).bind fun left => ?_
    exact (useRegister_emits _).bind fun right => emit_emits hMul (by simp)

/-- Whether a scope allows the instructions of a division, in hardware and through doubles. -/
structure Scope.Divides {g : Graph} (K : Scope g) (ops : DivisionOps) : Prop where
  divide : K.emits ops.divide
  toDouble : K.emits ops.toDouble
  doubles : K.emits .vdiv
  fromDouble : K.emits ops.fromDouble

/-- A division is one instruction in hardware, and otherwise four through doubles. -/
theorem emitDivision_emits {ops : DivisionOps} (hOps : K.Divides ops) {out : Operand} (hOut : out ∈ l)
    (left right : Operand) : Emits site K l (emitDivision ops out left right) fun _ => [] := by
  unfold emitDivision
  refine (has_emits _).bind fun sudiv => ?_
  split
  · exact emit_emits hOps.divide (by simpa using hOut)
  · -- Three temporaries hold the operands and the quotient as doubles.
    refine tempDouble_emits.bind fun x => tempDouble_emits.bind fun y => ?_
    refine tempDouble_emits.bind fun q => (emit_emits hOps.toDouble (by simp)).bind fun _ => ?_
    refine (emit_emits hOps.toDouble (by simp)).bind fun _ => ?_
    refine (emit_emits hOps.doubles (by simp)).bind fun _ => ?_
    exact emit_emits hOps.fromDouble (by simp [hOut])

/-- A quotient goes to the register of its node. -/
theorem coverDivision_emits (hId : K.computes id) {ops : DivisionOps} (hOps : K.Divides ops) :
    Emits site K l (coverDivision id ops) fun _ => [] := by
  unfold coverDivision
  refine .read (.look fun m _ => (define_emits hId).bind fun out => ?_)
  refine (useRegister_emits _).bind fun left => (useRegister_emits _).bind fun right => ?_
  exact emitDivision_emits hOps (by simp) left right

/-- A remainder is what the product of the quotient leaves. -/
theorem coverRemainder_emits (hId : K.computes id) {ops : DivisionOps} (hOps : K.Divides ops)
    (hMls : K.emits .mls) (hMul : K.emits .mul) (hSub : K.emits .sub) :
    Emits site K l (coverRemainder id ops) fun _ => [] := by
  unfold coverRemainder
  refine .read (.look fun m _ => (define_emits hId).bind fun out => ?_)
  refine (useRegister_emits _).bind fun left => (useRegister_emits _).bind fun right => ?_
  refine tempRegister_emits.bind fun quotient => ?_
  refine (emitDivision_emits hOps (by simp) left right).bind fun _ => ?_
  refine (has_emits _).bind fun mls => ?_
  split
  · exact emit_emits hMls (by simp)
  · refine tempRegister_emits.bind fun product => (emit_emits hMul (by simp)).bind fun _ => ?_
    exact emit_emits hSub (by simp)

/-! ## Doubles -/

/-- A unary node is one instruction. -/
theorem coverUnary_emits (hId : K.computes id) (hOp : K.emits op) :
    Emits site K l (coverUnary id op) fun _ => [] := by
  unfold coverUnary
  refine (define_emits hId).bind fun out => .read (.look fun x _ => ?_)
  exact (useRegister_emits _).bind fun y => emit_emits hOp (by simp)

/-- A node of doubles is one instruction on two registers. -/
theorem coverDoubles_emits (hId : K.computes id) (hOp : K.emits op) :
    Emits site K l (coverDoubles id op) fun _ => [] := by
  unfold coverDoubles
  refine .read (.look fun n _ => (define_emits hId).bind fun out => .look fun x _ => ?_)
  refine (useRegister_emits _).bind fun left => .look fun y _ => ?_
  exact (useRegister_emits _).bind fun right => emit_emits hOp (by simp)

/-- A look for a product that may be taken in changes nothing. -/
theorem isCoveredDoubleProduct_emits (user u : NodeId) :
    Emits site K l (isCoveredDoubleProduct user u) fun _ => [] := by
  unfold isCoveredDoubleProduct
  refine .read (.look fun op _ => ?_)
  split
  · exact .pure _ nofun
  · exact canCover_emits _

/-- A product that is taken in is accumulated on the other operand. -/
theorem emitAccumulate_emits (hId : K.computes id) (hOp : K.emits op)
    (product accumulator : NodeId) :
    Emits site K l (emitAccumulate op id product accumulator) fun _ => [] := by
  unfold emitAccumulate
  refine .read (.look fun n _ => (defineAt_emits hId _).bind fun out => ?_)
  refine (useRegister_emits _).bind fun x => .look fun y _ => ?_
  refine (useRegister_emits _).bind fun left => .look fun z _ => ?_
  exact (useRegister_emits _).bind fun right => emit_emits hOp (by simp)

/-- A product of either operand is taken into the sum. -/
theorem coverDoubleAdd_emits (hId : K.computes id) (hAdd : K.emits .vadd) (hMla : K.emits .vmla) :
    Emits site K l (coverDoubleAdd id) fun _ => [] := by
  unfold coverDoubleAdd
  refine .read (.look fun n _ => .look fun left _ => .look fun right _ => ?_)
  refine (isCoveredDoubleProduct_emits _ _).bind fun first => ?_
  split
  · -- a product on the left
    exact emitAccumulate_emits hId hMla _ _
  · refine (isCoveredDoubleProduct_emits _ _).bind fun second => ?_
    split
    · exact emitAccumulate_emits hId hMla _ _
    · exact coverDoubles_emits hId hAdd

/-- Only a product on the right is taken into a difference. -/
theorem coverDoubleSub_emits (hId : K.computes id) (hSub : K.emits .vsub) (hMls : K.emits .vmls) :
    Emits site K l (coverDoubleSub id) fun _ => [] := by
  unfold coverDoubleSub
  refine .read (.look fun n _ => .look fun right _ => ?_)
  refine (isCoveredDoubleProduct_emits _ _).bind fun product => ?_
  split
  · exact .look fun left _ => emitAccumulate_emits hId hMls _ _
  · exact coverDoubles_emits hId hSub

/-- A comparison of doubles writes no register but that of its flags. -/
theorem coverDoubleCompare_emits (hOp : K.emits .vcmp) (hk : K.Flags k) :
    Emits site K l (coverDoubleCompare id k) fun _ => [] := by
  unfold coverDoubleCompare
  refine .read (.look fun n _ => .look fun x _ => (useRegister_emits _).bind fun left => ?_)
  refine .look fun y _ => (useRegister_emits _).bind fun right => ?_
  exact emitFlags_emits hOp _ hk (by simp) _

/-! ## Parameters, joins and projections -/

/-- A parameter comes in at its location, which is the one output of its instruction. -/
theorem coverParameter_emits (hId : K.computes id) (hOp : K.emits .nop) (hs : s.Sound)
    (hLocation : ∀ location, s.params.lookup id = some location → K.writes s location) :
    Ensures site s (coverParameter id) fun _ s' => K.Adds s s' := by
  unfold coverParameter
  simp only [ensures_bind, ensures_get]
  split
  · exact (ensures_throw _ _).mpr trivial
  · next location hLookup =>
    -- Once the location is known the rule is one of the scope with that location to write.
    have hRule : Emits site K [location] (do
        markDefined id
        markRep id (← vreg id)
        emit { op := .nop, out := [location] }) fun _ => [] := by
      refine (markDefined_emits hId).bind fun _ => (vreg_emits _).bind fun v => ?_
      exact (markRep_emits _).bind fun _ => emit_emits hOp (by simp)
    refine (hRule s hs ?_).mono fun _ _ => And.left
    intro o ho
    rw [List.mem_singleton.mp ho]
    exact hLocation location hLookup

/-- The inputs of a join get registers without code. -/
theorem useInputs_emits (inputs : List NodeId) :
    Emits site K l (inputs.mapM fun x => do markUsed x; return (← vreg x : Int)) fun _ => [] := by
  induction inputs generalizing l with
  | nil => exact .pure _ nofun
  | cons x rest ih =>
    rw [List.mapM_cons]
    refine Emits.bind (R := fun _ => []) ?_ fun v => ih.bind fun vs => .pure _ nofun
    exact (markUsed_emits x).bind fun _ => (vreg_emits x).bind fun v => .pure _ nofun

/-- A join has no code. -/
theorem coverPhi_emits (hId : K.computes id) : Emits site K l (coverPhi id) fun _ => [] := by
  unfold coverPhi
  refine .read (.look fun n _ => (vreg_emits _).bind fun out => .look fun inputs _ => ?_)
  refine (useInputs_emits inputs).bind fun rs => (markDefined_emits hId).bind fun _ => ?_
  refine (markRep_emits _).bind fun _ => .of_quiet fun s hs => (ensures_modify _ _).mpr ?_
  exact .of_tables hs rfl rfl rfl rfl rfl rfl rfl ⟨rfl, rfl⟩

/-- A projection marks its operation as used, if that has an overflow. -/
theorem coverProjection_emits : Emits site K l (coverProjection id) fun _ => [] := by
  unfold coverProjection
  refine .read (.look fun x _ => .look fun op _ => ?_)
  dsimp only
  split
  · exact .fail _
  · exact markUsed_emits x

/-! ## Ends of blocks -/

/-- A return has no output. -/
theorem coverReturn_emits (hOp : K.emits .ret) : Emits site K l (coverReturn id) fun _ => [] := by
  unfold coverReturn
  refine .read (.look fun x _ => (useAt_emits _ _).bind fun r => (isDouble_emits _).bind fun d => ?_)
  split
  · exact (useAt_emits _ _).bind fun o => emit_emits hOp nofun
  · exact (Emits.pure (R := fun _ => []) _ nofun).bind fun o => emit_emits hOp nofun

end ArmBackend.Selection
