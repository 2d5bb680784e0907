import ArmBackend.Proofs.Selection.Progress
import ArmBackend.Proofs.Selection.Draft

/-!
# What a step of selection adds

A step of selection only ever adds: registers and numbers to the tables, nodes to those that are
computed, instructions to the segment. `Advances s s' code D` says of a step from `s` to `s'` that
it adds the instructions `code`, that all nodes it computes are of `D`, and that the tables grow.
There is one lemma for each primitive step, and every law about what a rule adds is put together
from these.

## Results

* `Advances.trans` — what two steps add is added one behind the other.
* `useAt_advances`, `defineAt_advances`, `immediate_advances` — operands are taken without code, and
  what each stands for.
* `emit_advances` — an instruction is added.
-/

namespace ArmBackend.Selection

variable {site : Site} {start s s' s'' : State} {code code' : List Instr} {D D' : NodeId → Prop}
  {id u : NodeId} {g : Graph} {r : Nat}

/-! ## Growth -/

/-- The tables grow, and of nodes that are new among the computed ones `D` holds. -/
structure Grown (start s : State) (D : NodeId → Prop) : Prop where
  sound : s.Sound
  vregs : start.vregs ⊆ s.vregs
  constants : start.stream.constants ⊆ s.stream.constants
  immediates : start.stream.immediates <+: s.stream.immediates
  defined : ∀ x ∈ s.defined, x ∈ start.defined ∨ D x

/-- A step that only adds to the tables, and gives only registers above those given before. -/
structure Moves (start s : State) (D : NodeId → Prop) : Prop extends Grown start s D where
  grows : Grows start s

/-- A step that also appends `code` to the segment. -/
structure Advances (start s : State) (code : List Instr) (D : NodeId → Prop) : Prop
    extends Moves start s D where
  segment : s.segment = start.segment ++ code

/-- Nothing at all is computed. -/
abbrev Nothing : NodeId → Prop := fun _ => False

theorem Grown.refl (hs : s.Sound) : Grown s s D :=
  ⟨hs, List.Subset.refl _, List.Subset.refl _, List.prefix_rfl, fun _ => Or.inl⟩

/-- What two steps compute is computed by one or the other. -/
theorem Grown.trans (h : Grown start s D) (h' : Grown s s' D) : Grown start s' D where
  sound := h'.sound
  vregs := List.Subset.trans h.vregs h'.vregs
  constants := List.Subset.trans h.constants h'.constants
  immediates := h.immediates.trans h'.immediates
  defined := by
    intro x hx
    rcases h'.defined x hx with hx | hx
    · exact h.defined x hx
    · exact .inr hx

/-- What is computed may be described more loosely. -/
theorem Grown.mono (h : Grown start s D) (hD : ∀ x, D x → D' x) : Grown start s D' :=
  { h with defined := fun x hx => (h.defined x hx).imp id (hD x) }

theorem Moves.trans (h : Moves s s' D) (h' : Moves s' s'' D) : Moves s s'' D :=
  ⟨h.toGrown.trans h'.toGrown, h.grows.trans h'.grows⟩

/-- What is computed may be described more loosely. -/
theorem Moves.mono (h : Moves s s' D) (hD : ∀ x, D x → D' x) : Moves s s' D' :=
  ⟨h.toGrown.mono hD, h.grows⟩

/-- A step that changes no table. -/
theorem Moves.of_tables (hs : s.Sound) (hVregs : s'.vregs = s.vregs)
    (hConstants : s'.stream.constants = s.stream.constants)
    (hImmediates : s'.stream.immediates = s.stream.immediates)
    (hNext : s'.stream.nextVreg = s.stream.nextVreg) (hParams : s'.params = s.params)
    (hDefined : s'.defined = s.defined)
    (hLayout : s'.stream.code = s.stream.code ∧ s'.stream.blocks = s.stream.blocks) :
    Moves s s' D where
  sound := hs.of_tables hVregs hConstants hNext
  vregs := hVregs ▸ List.Subset.refl _
  constants := hConstants ▸ List.Subset.refl _
  immediates := hImmediates ▸ List.prefix_rfl
  defined := hDefined ▸ fun _ => Or.inl
  grows := .of_tables hVregs hConstants hNext hParams hLayout

theorem Advances.nothing (hs : s.Sound) : Advances s s [] D :=
  ⟨⟨.refl hs, .refl s⟩, (List.append_nil _).symm⟩

/-- What two steps add is added one behind the other. -/
theorem Advances.trans (h : Advances s s' code D) (h' : Advances s' s'' code' D) :
    Advances s s'' (code ++ code') D where
  toMoves := h.toMoves.trans h'.toMoves
  segment := by rw [h'.segment, h.segment, List.append_assoc]

/-- What is computed may be described more loosely. -/
theorem Advances.mono (h : Advances s s' code D) (hD : ∀ x, D x → D' x) :
    Advances s s' code D' :=
  ⟨h.toMoves.mono hD, h.segment⟩

/-- A step that changes no table and adds no code. -/
theorem Advances.of_tables (hs : s.Sound) (hVregs : s'.vregs = s.vregs)
    (hConstants : s'.stream.constants = s.stream.constants)
    (hImmediates : s'.stream.immediates = s.stream.immediates)
    (hNext : s'.stream.nextVreg = s.stream.nextVreg) (hParams : s'.params = s.params)
    (hDefined : s'.defined = s.defined) (hSegment : s'.segment = s.segment)
    (hLayout : s'.stream.code = s.stream.code ∧ s'.stream.blocks = s.stream.blocks) :
    Advances s s' [] D :=
  ⟨.of_tables hs hVregs hConstants hImmediates hNext hParams hDefined hLayout,
    by rw [hSegment, List.append_nil]⟩

/-- A step that only gives registers and enters numbers computes nothing and adds no code. -/
theorem Allocates.advances (h : Allocates s s') : Advances s s' [] D where
  sound := h.sound
  vregs := fun _ hp => h.vreg_mono hp
  constants := h.constants
  immediates := h.immediates
  defined := by
    intro x hx
    rw [h.defined] at hx
    exact .inl hx
  grows := h.toGrows
  segment := by rw [h.segment, List.append_nil]

/-- A register stands for a node ever after. -/
theorem Stands.mono (h : Stands g s.vregs s.stream u r) (hGrown : Grown s s' D) :
    Stands g s'.vregs s'.stream u r := by
  obtain ⟨x, n, hCarries, hn, hTable⟩ := h
  refine ⟨x, n, hCarries, hn, ?_⟩
  split at hTable
  · obtain ⟨entry, hMem, hSame⟩ := hTable
    exact ⟨entry, hGrown.constants hMem, hSame⟩
  · exact hGrown.vregs hTable

/-- A register that stands for a node was given before. -/
theorem Stands.lt (h : Stands g s.vregs s.stream u r) (hs : s.Sound) : r < s.stream.nextVreg := by
  obtain ⟨x, n, -, -, hTable⟩ := h
  split at hTable
  · obtain ⟨entry, hMem, -⟩ := hTable
    obtain ⟨v, hv, hLt⟩ := hs.constant_lt ⟨entry, hMem⟩
    rwa [Int.ofNat_inj.mp hv]
  · exact hs.vreg_lt hTable

/-- A number stays where it is in the table of immediates. -/
theorem isNumber_mono {o : Operand} {v : BitVec 32} (h : s.stream.IsNumber o v)
    (hGrown : Grown s s' D) : s'.stream.IsNumber o v := by
  obtain ⟨i, c, rfl, hGet, hRest⟩ := Stream.isNumber_iff.mp h
  obtain ⟨more, hMore⟩ := hGrown.immediates
  refine Stream.isNumber_iff.mpr ⟨i, c, rfl, ?_, hRest⟩
  rw [← hMore, List.getElem?_append_left (List.getElem?_eq_some_iff.mp hGet).1]
  exact hGet

/-! ## Registers and marks -/

/-- A register for a node is given, and stands for it. -/
theorem vreg_advances (D : NodeId → Prop) (hs : s.Sound) :
    Ensures site s (vreg u) fun v s' =>
      Advances s s' [] D ∧ Stands site.graph s'.vregs s'.stream u v :=
  (vreg_stands hs).mono fun _ _ ⟨hAlloc, hStands⟩ => ⟨hAlloc.advances, hStands⟩

theorem markRep_advances (D : NodeId → Prop) (hs : s.Sound) (v : Nat) :
    Ensures site s (markRep id v) fun _ s' => Advances s s' [] D :=
  (markRep_ensures hs).mono fun _ _ hAlloc => hAlloc.advances

/-- A new register lies above those given before and belongs to nothing. -/
theorem newVreg_advances (D : NodeId → Prop) (hs : s.Sound) :
    Ensures site s newVreg fun v s' =>
      Advances s s' [] D ∧ s.stream.nextVreg ≤ v ∧ Fresh s' v :=
  (newVreg_ensures hs).mono fun _ _ ⟨hAlloc, _, hNew, hFresh⟩ => ⟨hAlloc.advances, hNew, hFresh⟩

/-- A mark of use is in no table. -/
theorem markUsed_advances (D : NodeId → Prop) (hs : s.Sound) :
    Ensures site s (markUsed u) fun _ s' => Advances s s' [] D :=
  ensures_markUsed (.of_tables hs rfl rfl rfl rfl rfl rfl rfl ⟨rfl, rfl⟩)

/-- Only the node that is marked is computed. -/
theorem markDefined_advances (hs : s.Sound) (hD : D id) :
    Ensures site s (markDefined id) fun _ s' => Advances s s' [] D := by
  refine ensures_markDefined ⟨⟨⟨sound_defined hs, List.Subset.refl _, List.Subset.refl _,
    List.prefix_rfl, ?_⟩, grows_defined⟩, (List.append_nil _).symm⟩
  intro x hx
  rcases List.mem_insert_iff.mp hx with rfl | hx
  · exact .inr hD
  · exact .inl hx

/-! ## Operands -/

/-- An operand for a node is a register that stands for it, at the place that is asked for. -/
theorem useAt_advances (D : NodeId → Prop) (hs : s.Sound) (u : NodeId) (location : Location) :
    Ensures site s (useAt u location) fun o s' => Advances s s' [] D ∧
      ∃ r : Nat, o = .vreg r location ∧ Stands site.graph s'.vregs s'.stream u r := by
  unfold useAt
  simp only [ensures_bind, ensures_pure]
  refine (markUsed_advances D hs).mono ?_
  intro _ s₁ h₁
  refine (vreg_advances D h₁.sound).mono ?_
  rintro v s₂ ⟨h₂, hStands⟩
  exact ⟨h₁.trans h₂, v, rfl, hStands⟩

/-- The output for a node is a register that stands for it, at the place that is asked for. -/
theorem defineAt_advances (hs : s.Sound) (hD : D id) (location : Location) :
    Ensures site s (defineAt id location) fun o s' => Advances s s' [] D ∧
      ∃ r : Nat, o = .vreg r location ∧ Stands site.graph s'.vregs s'.stream id r := by
  unfold defineAt
  simp only [ensures_bind, ensures_pure]
  refine (markDefined_advances hs hD).mono ?_
  intro _ s₁ h₁
  refine (vreg_advances D h₁.sound).mono ?_
  rintro v s₂ ⟨h₂, hStands⟩
  -- the mark of representation gives no register, so the one taken stands
  refine (markRep_advances D h₂.sound v).mono ?_
  intro _ s₃ h₃
  exact ⟨(h₁.trans h₂).trans h₃, v, rfl, hStands.mono h₃.toGrown⟩

/-- The output for a node is a register that stands for it. -/
theorem define_advances (hs : s.Sound) (hD : D id) :
    Ensures site s (define id) fun o s' => Advances s s' [] D ∧
      ∃ r : Nat, o = .vreg r .register ∧ Stands site.graph s'.vregs s'.stream id r :=
  defineAt_advances hs hD .register

/-- A temporary is a new register. -/
theorem tempAt_advances (D : NodeId → Prop) (hs : s.Sound) (location : Location) :
    Ensures site s (tempAt location) fun o s' => Advances s s' [] D ∧
      ∃ v : Nat, o = .vreg v location ∧ s.stream.nextVreg ≤ v ∧ Fresh s' v := by
  unfold tempAt
  simp only [ensures_bind, ensures_pure]
  refine (newVreg_advances D hs).mono ?_
  rintro v s' ⟨h, hNew, hFresh⟩
  exact ⟨h, v, rfl, hNew, hFresh⟩

/-- A temporary is a new register. -/
theorem tempRegister_advances (D : NodeId → Prop) (hs : s.Sound) :
    Ensures site s tempRegister fun o s' => Advances s s' [] D ∧
      ∃ v : Nat, o = .vreg v .register ∧ s.stream.nextVreg ≤ v ∧ Fresh s' v :=
  tempAt_advances D hs .register

/-- A temporary for a double is a new register, noted as one of a double. -/
theorem tempDouble_advances (D : NodeId → Prop) (hs : s.Sound) :
    Ensures site s tempDouble fun o s' => Advances s s' [] D ∧
      ∃ v : Nat, o = .vreg v .register ∧ s.stream.nextVreg ≤ v ∧ Fresh s' v := by
  unfold tempDouble
  simp only [ensures_bind, ensures_pure, ensures_modify]
  refine (newVreg_advances D hs).mono ?_
  rintro v s' ⟨h, hNew, hFresh⟩
  -- The note is in none of the tables that growth speaks of.
  have hSame : Advances s' { s' with stream := { s'.stream with
      doubles := s'.stream.doubles.insert v } } [] D :=
    .of_tables h.sound rfl rfl rfl rfl rfl rfl rfl ⟨rfl, rfl⟩
  exact ⟨h.trans hSame, v, rfl, hNew, hFresh.mono hSame.grows⟩

/-- A number in an instruction is entered in the table. -/
theorem immediate_advances (D : NodeId → Prop) (hs : s.Sound) (v : BitVec 32) :
    Ensures site s (immediate v) fun o s' => Advances s s' [] D ∧ s'.stream.IsNumber o v :=
  (immediate_isNumber hs v).mono fun _ _ ⟨hAlloc, hNumber⟩ => ⟨hAlloc.advances, hNumber⟩

/-- A constant in an instruction is the number that the matcher sees. -/
theorem useImmediate_advances (D : NodeId → Prop) (hs : s.Sound) (u : NodeId) :
    Ensures site s (useImmediate u) fun o s' => Advances s s' [] D ∧
      ∃ m v, site.graph.int32 u = .ok m ∧ m.value? = some v ∧ s'.stream.IsNumber o v := by
  unfold useImmediate
  simp only [ensures_bind, ensures_read, ensures_lift]
  intro m hm
  split
  · next v hv =>
    -- only a constant has a number to be entered
    refine (immediate_advances D hs v).mono ?_
    rintro o s' ⟨h, hNumber⟩
    exact ⟨h, m, v, hm, hv, hNumber⟩
  · exact (ensures_throw _ _).mpr trivial

/-! ## Instructions -/

/-- An instruction is appended to the segment. -/
theorem emit_advances (D : NodeId → Prop) (hs : s.Sound) (i : Instr) :
    Ensures site s (emit i) fun _ s' => Advances s s' [i] D :=
  ensures_emit fun _ => ⟨.of_tables hs rfl rfl rfl rfl rfl rfl ⟨rfl, rfl⟩, rfl⟩

end ArmBackend.Selection
