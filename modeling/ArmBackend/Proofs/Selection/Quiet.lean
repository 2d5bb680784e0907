import ArmBackend.Proofs.Selection.Ensures

/-!
# Steps that emit nothing

Most steps of a rule only look at the graph, give registers, and note in the tables what they gave.
None of this touches the instructions emitted so far or the places of the parameters. `Quiet` says
so of a step. Unlike the laws about the tables, it asks nothing of the state that the step is run
from.

## Results

* `Quiet.bind`, `Quiet.look`, `Quiet.read`, `Quiet.get` — a row of quiet steps is quiet.
* `useAt_quiet`, `defineAt_quiet`, `immediate_quiet` — operands are taken quietly.
* `emit_appends` — an instruction comes behind those that were emitted.
-/

namespace ArmBackend.Selection

variable {α β : Type} {site : Site} {s t : State} {id u : NodeId}

/-- The instructions of the segment and the places of the parameters are the same. -/
structure Unmoved (s t : State) : Prop where
  segment : t.segment = s.segment
  params : t.params = s.params

/-- Whether a step emits nothing and leaves the places of the parameters alone. -/
def Quiet (site : Site) (m : Select α) : Prop :=
  ∀ s, Ensures site s m fun _ t => Unmoved s t

namespace Quiet

variable {m : Select α} {f : α → Select β}

theorem pure (a : α) : Quiet site (pure a : Select α) :=
  fun _ => (ensures_pure _ _).mpr ⟨rfl, rfl⟩

theorem throw (e : Fault) : Quiet site (throw e : Select α) :=
  fun _ => (ensures_throw _ _).mpr trivial

/-- Quiet steps in sequence are quiet. -/
theorem bind (hm : Quiet site m) (hf : ∀ a, Quiet site (f a)) : Quiet site (m >>= f) := by
  intro s
  refine (ensures_bind _ _ _).mpr ((hm s).mono ?_)
  intro a t hFirst
  refine (hf a t).mono ?_
  intro b t' hSecond
  exact ⟨hSecond.segment.trans hFirst.segment, hSecond.params.trans hFirst.params⟩

theorem read {f : Site → Select β} (h : Quiet site (f site)) : Quiet site (read >>= f) :=
  h

theorem get {f : State → Select β} (h : ∀ s, Quiet site (f s)) : Quiet site (get >>= f) :=
  fun s => h s s

/-- A look at the graph. -/
theorem look {e : Except Fault α} (h : ∀ a, e = .ok a → Quiet site (f a)) :
    Quiet site (liftM e >>= f) :=
  fun s => (ensures_bind _ _ _).mpr ((ensures_lift _ _).mpr fun a ha => h a ha s)

/-- After a fault nothing is run. -/
theorem fail (e : Fault) : Quiet site (MonadExcept.throw e >>= f) :=
  fun _ => (ensures_bind _ _ _).mpr ((ensures_throw _ _).mpr trivial)

/-- A change of other tables is quiet. -/
theorem modify {f : State → State} (h : ∀ s, Unmoved s (f s)) : Quiet site (modify f) :=
  fun s => (ensures_modify _ _).mpr (h s)

/-- Quiet steps compose, so every walk through a flexible operand is quiet. -/
theorem composes (site : Site) : Composes site fun {_} m => Quiet site m where
  pure := pure
  throw := throw
  fail := fun e _ => fail e
  bind := bind
  read := read
  look := fun h => look fun a _ => h a

end Quiet

/-! ## Marks and registers -/

theorem markUsed_quiet (id : NodeId) : Quiet site (markUsed id) :=
  fun _ => ensures_markUsed ⟨rfl, rfl⟩

theorem markDefined_quiet (id : NodeId) : Quiet site (markDefined id) :=
  fun _ => ensures_markDefined ⟨rfl, rfl⟩

/-- The class of a register is noted in the stream, away from the segment. -/
theorem markRep_quiet (id : NodeId) (v : Nat) : Quiet site (markRep id v) := by
  unfold markRep
  refine .read (.look fun rep _ => ?_)
  split
  · exact .modify fun _ => ⟨rfl, rfl⟩
  · exact .modify fun _ => ⟨rfl, rfl⟩
  · exact .pure _

theorem newVreg_quiet : Quiet site newVreg :=
  fun _ => (ensures_modifyGet _ _).mpr ⟨rfl, rfl⟩

/-- The register of a constant is given without code. -/
theorem constantVreg_quiet (id : NodeId) (c : Constant) : Quiet site (constantVreg id c) := by
  unfold constantVreg
  refine .get fun s => ?_
  dsimp only
  split
  · exact .pure _
  · refine newVreg_quiet.bind fun v => .bind (.modify fun _ => ⟨rfl, rfl⟩) fun _ => ?_
    exact (markRep_quiet id v).bind fun _ => .pure _

/-- The register of a node is given without code. -/
theorem ownVreg_quiet (id : NodeId) : Quiet site (ownVreg id) := by
  unfold ownVreg
  refine .get fun s => ?_
  split
  · exact .pure _
  · exact newVreg_quiet.bind fun v => .bind (.modify fun _ => ⟨rfl, rfl⟩) fun _ => .pure _

/-- A register for a node is given without code. -/
theorem vreg_quiet (u : NodeId) : Quiet site (vreg u) := by
  unfold vreg
  refine .read (.look fun x _ => .look fun n _ => ?_)
  split
  · refine (constantVreg_quiet x _).bind fun v => ?_
    exact .bind (.modify fun _ => ⟨rfl, rfl⟩) fun _ => .pure _
  · exact ownVreg_quiet x

/-! ## Operands -/

theorem useAt_quiet (u : NodeId) (location : Location) : Quiet site (useAt u location) :=
  (markUsed_quiet u).bind fun _ => (vreg_quiet u).bind fun _ => .pure _

theorem useRegister_quiet (u : NodeId) : Quiet site (useRegister u) :=
  useAt_quiet u _

theorem immediate_quiet (v : BitVec 32) : Quiet site (immediate v) :=
  fun _ => (ensures_modifyGet _ _).mpr ⟨rfl, rfl⟩

theorem useImmediate_quiet (u : NodeId) : Quiet site (useImmediate u) :=
  (Quiet.composes site).useImmediate immediate_quiet u

/-- The output for a node is given without code. -/
theorem defineAt_quiet (id : NodeId) (location : Location) : Quiet site (defineAt id location) :=
  (markDefined_quiet id).bind fun _ => (vreg_quiet id).bind fun v =>
    (markRep_quiet id v).bind fun _ => .pure _

theorem define_quiet (id : NodeId) : Quiet site (define id) :=
  defineAt_quiet id _

/-- Looking for a shift to take in emits nothing. -/
theorem tryShift_quiet (u : NodeId) : Quiet site (tryShift u) :=
  (Quiet.composes site).tryShift useRegister_quiet useImmediate_quiet u

/-- Looking for a flexible operand emits nothing. -/
theorem tryOperand2_quiet (op : Opcode) (u : NodeId) : Quiet site (tryOperand2 op u) :=
  (Quiet.composes site).tryOperand2 useRegister_quiet useImmediate_quiet op u

/-! ## Instructions -/

/-- An instruction that is emitted stands behind the segment. -/
theorem emit_appends (i : Instr) :
    Ensures site s (emit i) fun _ t => t.segment = s.segment ++ [i] :=
  ensures_emit fun _ => rfl

end ArmBackend.Selection
