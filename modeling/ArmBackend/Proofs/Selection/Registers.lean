import ArmBackend.Proofs.Selection.Ensures
import ArmBackend.Proofs.Selection.Operands

/-!
# Registers of selection

A register belongs to one node, stands for one constant, or is a temporary: `State.Sound` keeps the
three apart. The tables only grow, and what is added lies above every register given before
(`Allocates`), so a register found once is the register of its node ever after.

Each primitive step has one lemma that says all of what it leaves of the tables; what later modules
need to know of a step of selection is put together from these.

## Results

* `newVreg_ensures` — a new register is in no table.
* `vreg_stands` — the register of a node is that of its carrier, or stands for its constant.
-/

namespace ArmBackend.Selection

variable {site : Site} {s s' s'' : State} {id u x : NodeId} {r v : Nat}

/-- Whether a register stands for a constant. -/
def State.IsConstant (s : State) (r : Int) : Prop :=
  ∃ c, (r, c) ∈ s.stream.constants

/-- Registers are given once: no two nodes share one, a node has only one, and the registers of
nodes are not those of constants. -/
structure State.Sound (s : State) : Prop where
  vreg_lt : ∀ {x r}, (x, r) ∈ s.vregs → r < s.stream.nextVreg
  vreg_inj : ∀ {x y r}, (x, r) ∈ s.vregs → (y, r) ∈ s.vregs → x = y
  vreg_fun : ∀ {x r r'}, (x, r) ∈ s.vregs → (x, r') ∈ s.vregs → r = r'
  constant_lt : ∀ {r}, s.IsConstant r → ∃ v : Nat, r = v ∧ v < s.stream.nextVreg
  apart : ∀ {x r}, (x, r) ∈ s.vregs → ¬s.IsConstant r

/-- The tables of registers grow: what is added lies above every register given before. -/
structure Grows (s s' : State) : Prop where
  next_le : s.stream.nextVreg ≤ s'.stream.nextVreg
  vreg_mono : ∀ {x r}, (x, r) ∈ s.vregs → (x, r) ∈ s'.vregs
  vreg_new : ∀ {x r}, (x, r) ∈ s'.vregs → (x, r) ∈ s.vregs ∨ s.stream.nextVreg ≤ r
  constants : s.stream.constants ⊆ s'.stream.constants
  constant_new : ∀ {r : Nat}, s'.IsConstant r → s.IsConstant r ∨ s.stream.nextVreg ≤ r
  params : s'.params = s.params
  /-- The code is laid out only in the end. -/
  layout : s'.stream.code = s.stream.code ∧ s'.stream.blocks = s.stream.blocks

/-- A step that only gives registers and enters numbers: marks and code stay. -/
structure Allocates (s s' : State) : Prop extends Grows s s' where
  sound : s'.Sound
  immediates : s.stream.immediates <+: s'.stream.immediates
  used : s'.used = s.used
  defined : s'.defined = s.defined
  segment : s'.segment = s.segment
  phis : s'.phis = s.phis

/-- At first no register is given. -/
theorem State.Sound.empty : State.Sound {} := by
  refine ⟨nofun, nofun, nofun, ?_, nofun⟩
  rintro r ⟨c, hc⟩
  cases hc

/-- Whether register `r` holds the value of a node: it stands for a constant when the carrier is
one, and belongs to the carrier otherwise. -/
def Holds (g : Graph) (s : State) (u : NodeId) (r : Nat) : Prop :=
  ∃ x op, g.Carries u x ∧ g.HasOp x op ∧
    if op.isConstant then s.IsConstant r else (x, r) ∈ s.vregs

/-- Whether register `r` has the value of a node: it stands for the constant that the carrier is, or
belongs to the carrier. -/
def Stands (g : Graph) (regs : List (NodeId × Nat)) (stream : Stream) (u : NodeId) (r : Nat) :
    Prop :=
  ∃ x n, g.Carries u x ∧ g.node? x = some n ∧
    match constantOf? n with
    | some c => ∃ entry, ((r : Int), entry) ∈ stream.constants ∧ (entry = c ∨ entry.sameEntry c)
    | none => (x, r) ∈ regs

theorem Grows.refl (s : State) : Grows s s where
  next_le := Nat.le_refl _
  vreg_mono := id
  vreg_new := Or.inl
  constants := List.Subset.refl _
  constant_new := Or.inl
  params := rfl
  layout := ⟨rfl, rfl⟩

/-- Growth in two steps: what is new after the second was new after the first or lies above all of
it. -/
theorem Grows.trans (h : Grows s s') (h' : Grows s' s'') : Grows s s'' where
  next_le := Nat.le_trans h.next_le h'.next_le
  vreg_mono := fun hx => h'.vreg_mono (h.vreg_mono hx)
  vreg_new := by
    intro x r hx
    rcases h'.vreg_new hx with hOld | hNew
    · exact h.vreg_new hOld
    · exact .inr (Nat.le_trans h.next_le hNew)
  constants := List.Subset.trans h.constants h'.constants
  constant_new := by
    intro r hr
    rcases h'.constant_new hr with hOld | hNew
    · exact h.constant_new hOld
    · exact .inr (Nat.le_trans h.next_le hNew)
  params := h'.params.trans h.params
  layout := ⟨h'.layout.1.trans h.layout.1, h'.layout.2.trans h.layout.2⟩

/-- A register that stands for a constant does so ever after. -/
theorem Grows.constant_mono (h : Grows s s') {r : Int} (hr : s.IsConstant r) : s'.IsConstant r :=
  hr.imp fun _ hEntry => h.constants hEntry

theorem Allocates.refl (hs : s.Sound) : Allocates s s where
  toGrows := .refl s
  sound := hs
  immediates := List.prefix_rfl
  used := rfl
  defined := rfl
  segment := rfl
  phis := rfl

/-- Registers may be given in two steps. -/
theorem Allocates.trans (h : Allocates s s') (h' : Allocates s' s'') : Allocates s s'' where
  toGrows := h.toGrows.trans h'.toGrows
  sound := h'.sound
  immediates := h.immediates.trans h'.immediates
  used := h'.used.trans h.used
  defined := h'.defined.trans h.defined
  segment := h'.segment.trans h.segment
  phis := h'.phis.trans h.phis

/-- States with the same tables of registers. -/
theorem Grows.of_tables (hVregs : s'.vregs = s.vregs)
    (hConstants : s'.stream.constants = s.stream.constants)
    (hNext : s'.stream.nextVreg = s.stream.nextVreg) (hParams : s'.params = s.params)
    (hLayout : s'.stream.code = s.stream.code ∧ s'.stream.blocks = s.stream.blocks) :
    Grows s s' := by
  refine ⟨Nat.le_of_eq hNext.symm, ?_, ?_, ?_, ?_, hParams, hLayout⟩
  · rw [hVregs]
    exact fun h => h
  · rw [hVregs]
    exact Or.inl
  · rw [hConstants]
    exact List.Subset.refl _
  · unfold State.IsConstant
    rw [hConstants]
    exact Or.inl

/-- Soundness is about the tables of registers only. -/
theorem State.Sound.of_tables (hs : s.Sound) (hVregs : s'.vregs = s.vregs)
    (hConstants : s'.stream.constants = s.stream.constants)
    (hNext : s'.stream.nextVreg = s.stream.nextVreg) : s'.Sound := by
  -- The registers of constants are those of the table.
  have hIs : ∀ r, s'.IsConstant r ↔ s.IsConstant r := by
    intro r
    unfold State.IsConstant
    rw [hConstants]
  refine ⟨?_, ?_, ?_, ?_, ?_⟩
  · rw [hVregs, hNext]
    exact hs.vreg_lt
  · rw [hVregs]
    exact hs.vreg_inj
  · rw [hVregs]
    exact hs.vreg_fun
  · intro r h
    rw [hNext]
    exact hs.constant_lt ((hIs r).mp h)
  · intro x r hx h
    rw [hVregs] at hx
    exact hs.apart hx ((hIs r).mp h)

/-- A step that leaves the tables of registers alone. -/
theorem Allocates.of_tables (hs : s.Sound) (hVregs : s'.vregs = s.vregs)
    (hConstants : s'.stream.constants = s.stream.constants)
    (hImmediates : s.stream.immediates <+: s'.stream.immediates)
    (hNext : s'.stream.nextVreg = s.stream.nextVreg) (hParams : s'.params = s.params)
    (hUsed : s'.used = s.used) (hDefined : s'.defined = s.defined)
    (hSegment : s'.segment = s.segment) (hPhis : s'.phis = s.phis)
    (hLayout : s'.stream.code = s.stream.code ∧ s'.stream.blocks = s.stream.blocks) :
    Allocates s s' where
  toGrows := .of_tables hVregs hConstants hNext hParams hLayout
  sound := hs.of_tables hVregs hConstants hNext
  immediates := hImmediates
  used := hUsed
  defined := hDefined
  segment := hSegment
  phis := hPhis

/-- A register holds the value of a node ever after. -/
theorem Holds.mono {g : Graph} (h : Holds g s u r) (hGrows : Grows s s') : Holds g s' u r := by
  obtain ⟨x, op, hx, hOp, hr⟩ := h
  refine ⟨x, op, hx, hOp, ?_⟩
  by_cases hConstant : op.isConstant
  · rw [if_pos hConstant] at hr ⊢
    exact hGrows.constant_mono hr
  · rw [if_neg hConstant] at hr ⊢
    exact hGrows.vreg_mono hr

/-- A node has a constant exactly when its operator is one. -/
theorem constantOf?_isSome (n : Node) : (constantOf? n).isSome = n.op.isConstant := by
  unfold constantOf? Operator.isConstant
  cases n.op with
  | constant kind => cases kind <;> rfl
  | _ => rfl

/-- A register that stands for a node holds its value. -/
theorem Stands.holds {g : Graph} (h : Stands g s.vregs s.stream u r) : Holds g s u r := by
  obtain ⟨x, n, hCarries, hn, hTable⟩ := h
  refine ⟨x, n.op, hCarries, ⟨n, hn, rfl⟩, ?_⟩
  have hSome := constantOf?_isSome n
  split at hTable
  · next c hc =>
    rw [hc, Option.isSome_some] at hSome
    obtain ⟨entry, hEntry, -⟩ := hTable
    rw [if_pos hSome.symm]
    exact ⟨entry, hEntry⟩
  · next hc =>
    rw [hc, Option.isSome_none] at hSome
    rw [← hSome, if_neg Bool.false_ne_true]
    exact hTable

/-- A node that carries its own value and is no constant owns the register. -/
theorem Holds.own {g : Graph} {op : Operator} (h : Holds g s x r) (hx : g.Carries x x)
    (hOp : g.HasOp x op) (hConstant : op.isConstant = false) : (x, r) ∈ s.vregs := by
  obtain ⟨y, op', hy, hOp', hr⟩ := h
  cases hx.unique hy
  cases hOp.unique hOp'
  rw [hConstant] at hr
  exact hr

/-! ## New registers -/

/-- Whether a register is given to no node and no constant. -/
structure Fresh (s : State) (v : Nat) : Prop where
  lt : v < s.stream.nextVreg
  not_vreg : ∀ {x}, (x, v) ∉ s.vregs
  not_constant : ¬s.IsConstant v

/-- A temporary stays one: whatever is given later lies above it. -/
theorem Fresh.mono (h : Fresh s v) (hGrows : Grows s s') : Fresh s' v where
  lt := Nat.lt_of_lt_of_le h.lt hGrows.next_le
  not_vreg := by
    intro x hx
    rcases hGrows.vreg_new hx with hOld | hNew
    · exact h.not_vreg hOld
    · exact Nat.not_le_of_lt h.lt hNew
  not_constant := by
    intro hv
    rcases hGrows.constant_new hv with hOld | hNew
    · exact h.not_constant hOld
    · exact Nat.not_le_of_lt h.lt hNew

/-- A new register lies above all others and is in no table. -/
theorem newVreg_ensures (hs : s.Sound) :
    Ensures site s newVreg fun v s' =>
      Allocates s s' ∧ s'.vregs = s.vregs ∧ s.stream.nextVreg ≤ v ∧ Fresh s' v := by
  refine (ensures_modifyGet _ _).mpr ⟨?_, rfl, Nat.le_refl _, Nat.lt_succ_self _, ?_, ?_⟩
  · exact {
      next_le := Nat.le_succ _
      vreg_mono := fun h => h
      vreg_new := Or.inl
      constants := List.Subset.refl _
      constant_new := Or.inl
      params := rfl
      layout := ⟨rfl, rfl⟩
      sound := {
        vreg_lt := fun h => Nat.lt_succ_of_lt (hs.vreg_lt h)
        vreg_inj := hs.vreg_inj
        vreg_fun := hs.vreg_fun
        constant_lt := fun h =>
          let ⟨v, hv, hLt⟩ := hs.constant_lt h
          ⟨v, hv, Nat.lt_succ_of_lt hLt⟩
        apart := hs.apart }
      immediates := List.prefix_rfl
      used := rfl
      defined := rfl
      segment := rfl
      phis := rfl }
  · -- The number is that of the next register, which no node has,
    intro x hx
    exact Nat.lt_irrefl _ (hs.vreg_lt hx)
  · -- and no constant.
    intro hConstant
    obtain ⟨v, hv, hLt⟩ := hs.constant_lt hConstant
    rw [← Int.ofNat_inj.mp hv] at hLt
    exact Nat.lt_irrefl _ hLt

/-- The sets of doubles and references are no tables of registers. -/
theorem markRep_ensures (hs : s.Sound) :
    Ensures site s (markRep id v) fun _ s' => Allocates s s' := by
  unfold markRep
  simp only [ensures_bind, ensures_read, ensures_lift]
  intro rep _
  split
  · exact (ensures_modify _ _).mpr
      (.of_tables hs rfl rfl List.prefix_rfl rfl rfl rfl rfl rfl rfl ⟨rfl, rfl⟩)
  · exact (ensures_modify _ _).mpr
      (.of_tables hs rfl rfl List.prefix_rfl rfl rfl rfl rfl rfl rfl ⟨rfl, rfl⟩)
  · exact (ensures_pure _ _).mpr (.refl hs)

/-- A number goes to the end of its own table. -/
theorem addImmediate_tables (t : Stream) (c : Constant) :
    (t.addImmediate c).1.constants = t.constants ∧ (t.addImmediate c).1.nextVreg = t.nextVreg ∧
      t.immediates <+: (t.addImmediate c).1.immediates ∧
      (t.addImmediate c).1.code = t.code ∧ (t.addImmediate c).1.blocks = t.blocks := by
  unfold Stream.addImmediate
  dsimp only
  split
  · exact ⟨rfl, rfl, List.prefix_rfl, rfl, rfl⟩
  · exact ⟨rfl, rfl, List.prefix_append _ _, rfl, rfl⟩

/-- Entering a number gives no register. -/
theorem immediate_allocates (hs : s.Sound) (n : BitVec 32) :
    Ensures site s (immediate n) fun _ s' => Allocates s s' := by
  obtain ⟨hConstants, hNext, hImmediates, hLayout⟩ := addImmediate_tables s.stream (.ofInt32 n)
  exact (ensures_modifyGet _ _).mpr
    (.of_tables hs rfl hConstants hImmediates hNext rfl rfl rfl rfl rfl hLayout)

/-! ## Registers of nodes -/

/-- A register stands for a constant when the table has an entry for it. -/
theorem State.isConstant_iff {r : Int} : s.IsConstant r ↔ (s.stream.constant? r).isSome := by
  unfold State.IsConstant Stream.constant?
  rw [Option.isSome_iff_ne_none, Ne, List.lookup_eq_none_iff]
  constructor
  · rintro ⟨c, hc⟩ hNone
    have hKey := hNone _ hc
    simp at hKey
  · intro hSome
    simp only [bne_iff_ne, ne_eq, Classical.not_forall, Classical.not_not] at hSome
    obtain ⟨p, hp, hKey⟩ := hSome
    exact ⟨p.2, hKey ▸ hp⟩

/-- A new register is entered at the end of the table of constants. No constant is looked for: one
that is not a number is not even the same entry as itself. -/
theorem setConstant_constants (hFresh : Fresh s v) (c : Constant) :
    (s.stream.setConstant v c).constants = s.stream.constants ++ [((v : Int), c)] := by
  have hLookup : ¬(s.stream.constant? v).isSome = true := by
    rw [← State.isConstant_iff]
    exact hFresh.not_constant
  unfold Stream.setConstant
  rw [if_neg hLookup]

/-- A new entry makes one register that of a constant. -/
theorem isConstant_setConstant (hFresh : Fresh s v) (c : Constant) (r : Int) :
    State.IsConstant { s with stream := s.stream.setConstant v c } r ↔
      s.IsConstant r ∨ r = v := by
  unfold State.IsConstant
  simp only [setConstant_constants hFresh, List.mem_append, List.mem_singleton, Prod.mk.injEq]
  constructor
  · rintro ⟨d, hOld | ⟨hNew, -⟩⟩
    · exact .inl ⟨d, hOld⟩
    · exact .inr hNew
  · rintro (⟨d, hOld⟩ | hNew)
    · exact ⟨d, .inl hOld⟩
    · exact ⟨c, .inr ⟨hNew, rfl⟩⟩

/-- The other tables stay when a constant is entered. -/
theorem setConstant_tables (t : Stream) (r : Int) (c : Constant) :
    (t.setConstant r c).nextVreg = t.nextVreg ∧ (t.setConstant r c).immediates = t.immediates ∧
      (t.setConstant r c).code = t.code ∧ (t.setConstant r c).blocks = t.blocks := by
  unfold Stream.setConstant
  split <;> exact ⟨rfl, rfl, rfl, rfl⟩

/-- A new register may be entered as that of a constant. -/
theorem Allocates.setConstant (h : Allocates s s') (hNew : s.stream.nextVreg ≤ v)
    (hFresh : Fresh s' v) (c : Constant) :
    Allocates s { s' with stream := s'.stream.setConstant v c } := by
  obtain ⟨hNext, hImmediates, hCode, hBlocks⟩ := setConstant_tables s'.stream v c
  have hIs := isConstant_setConstant hFresh c
  refine ⟨⟨?_, h.vreg_mono, h.vreg_new, ?_, ?_, h.params,
      ⟨hCode.trans h.layout.1, hBlocks.trans h.layout.2⟩⟩,
    ⟨?_, h.sound.vreg_inj, h.sound.vreg_fun, ?_, ?_⟩, hImmediates ▸ h.immediates, h.used,
    h.defined, h.segment, h.phis⟩
  · rw [hNext]
    exact h.next_le
  · rw [setConstant_constants hFresh]
    exact List.Subset.trans h.constants (List.subset_append_left _ _)
  · -- a register of a constant was one before, or is the new one
    intro r hr
    rcases (hIs r).mp hr with hOld | hv
    · exact h.constant_new hOld
    · rw [Int.ofNat_inj.mp hv]
      exact .inr hNew
  · intro x r hx
    rw [hNext]
    exact h.sound.vreg_lt hx
  · intro r hr
    rw [hNext]
    rcases (hIs r).mp hr with hOld | rfl
    · exact h.sound.constant_lt hOld
    · exact ⟨v, rfl, hFresh.lt⟩
  · intro x r hx hr
    rcases (hIs r).mp hr with hOld | hv
    · exact h.sound.apart hx hOld
    · rw [Int.ofNat_inj.mp hv] at hx
      exact hFresh.not_vreg hx

/-- A new register may be entered as that of a node that has none. -/
theorem Allocates.setVreg (h : Allocates s s') (hNew : s.stream.nextVreg ≤ v)
    (hFresh : Fresh s' v) (hOwn : ∀ r, (id, r) ∉ s'.vregs) :
    Allocates s { s' with vregs := (id, v) :: s'.vregs } := by
  refine ⟨⟨h.next_le, ?_, ?_, h.constants, h.constant_new, h.params, h.layout⟩,
    ⟨?_, ?_, ?_, h.sound.constant_lt, ?_⟩, h.immediates, h.used, h.defined, h.segment, h.phis⟩
  · intro x r hx
    exact List.mem_cons_of_mem _ (h.vreg_mono hx)
  · intro x r hx
    rcases List.mem_cons.mp hx with hHead | hTail
    · cases hHead
      exact .inr hNew
    · exact h.vreg_new hTail
  · intro x r hx
    rcases List.mem_cons.mp hx with hHead | hTail
    · cases hHead
      exact hFresh.lt
    · exact h.sound.vreg_lt hTail
  · -- two nodes share no register: the new one is nobody's
    intro x y r hx hy
    rcases List.mem_cons.mp hx with hHead | hTail <;> rcases List.mem_cons.mp hy with hHead' | hTail'
    · cases hHead
      cases hHead'
      rfl
    · cases hHead
      exact absurd hTail' hFresh.not_vreg
    · cases hHead'
      exact absurd hTail hFresh.not_vreg
    · exact h.sound.vreg_inj hTail hTail'
  · -- a node has one register: the node of the entry had none
    intro x r r' hx hy
    rcases List.mem_cons.mp hx with hHead | hTail <;> rcases List.mem_cons.mp hy with hHead' | hTail'
    · cases hHead
      cases hHead'
      rfl
    · cases hHead
      exact absurd hTail' (hOwn _)
    · cases hHead'
      exact absurd hTail (hOwn _)
    · exact h.sound.vreg_fun hTail hTail'
  · -- no node has the register of a constant
    intro x r hx hr
    rcases List.mem_cons.mp hx with hHead | hTail
    · cases hHead
      exact hFresh.not_constant hr
    · exact h.sound.apart hTail hr

/-- The register of a constant has an entry for it. -/
theorem constantVreg_ensures (hs : s.Sound) {c : Constant} :
    Ensures site s (constantVreg id c) fun v s' => Allocates s s' ∧
      ∃ entry, ((v : Int), entry) ∈ s'.stream.constants ∧ (entry = c ∨ entry.sameEntry c) := by
  unfold constantVreg
  simp only [ensures_bind, ensures_get]
  split
  · next v entry hFind =>
    -- an equal constant has its register already
    have hSame : entry.sameEntry c = true := by
      simpa using List.find?_some (p := fun q : Int × Constant => q.2.sameEntry c) hFind
    have hMem := List.mem_of_find?_eq_some hFind
    obtain ⟨w, rfl, -⟩ := hs.constant_lt ⟨entry, hMem⟩
    exact (ensures_pure _ _).mpr ⟨.refl hs, entry, hMem, .inr hSame⟩
  · simp only [ensures_bind, ensures_modify, ensures_pure]
    refine (newVreg_ensures hs).mono ?_
    rintro v s₁ ⟨hAlloc, -, hNew, hFresh⟩
    have hSet := hAlloc.setConstant hNew hFresh c
    refine (markRep_ensures hSet.sound).mono ?_
    intro _ s₂ hRep
    refine ⟨hSet.trans hRep, c, hRep.constants ?_, .inl rfl⟩
    rw [setConstant_constants hFresh]
    exact List.mem_append_right _ (List.mem_singleton_self _)

/-- The register of a node of its own stays the same. -/
theorem ownVreg_ensures (hs : s.Sound) :
    Ensures site s (ownVreg id) fun v s' => Allocates s s' ∧ (id, v) ∈ s'.vregs := by
  unfold ownVreg
  simp only [ensures_bind, ensures_get]
  split
  · next v hLookup =>
    refine (ensures_pure _ _).mpr ⟨.refl hs, ?_⟩
    obtain ⟨l, r, hSplit, -⟩ := List.lookup_eq_some_iff.mp hLookup
    rw [hSplit]
    simp
  · next hLookup =>
    simp only [ensures_bind, ensures_modify, ensures_pure]
    refine (newVreg_ensures hs).mono ?_
    rintro v s₁ ⟨hAlloc, hVregs, hNew, hFresh⟩
    refine ⟨hAlloc.setVreg hNew hFresh ?_, List.mem_cons_self⟩
    intro r hr
    rw [hVregs] at hr
    have hNone := List.lookup_eq_none_iff.mp hLookup _ hr
    simp at hNone

/-- The register that selection gives for a node stands for it. -/
theorem vreg_stands (hs : s.Sound) :
    Ensures site s (vreg u) fun v s' =>
      Allocates s s' ∧ Stands site.graph s'.vregs s'.stream u v := by
  unfold vreg
  simp only [ensures_bind, ensures_read, ensures_lift]
  intro x hx n hn
  have hCarries := Graph.carrier_carries hx
  have hNode := Graph.node_eq_ok.mp hn
  split
  · next c hc =>
    simp only [ensures_bind, ensures_modify, ensures_pure]
    refine (constantVreg_ensures hs).mono ?_
    rintro v s' ⟨hAlloc, hEntry⟩
    -- noting what was handed out allocates nothing
    have hRecord : Allocates s' { s' with handedOut := (x, v) :: s'.handedOut } :=
      .of_tables hAlloc.sound rfl rfl List.prefix_rfl rfl rfl rfl rfl rfl rfl ⟨rfl, rfl⟩
    refine ⟨hAlloc.trans hRecord, x, n, hCarries, hNode, ?_⟩
    rw [hc]
    exact hEntry
  · next hc =>
    refine (ownVreg_ensures hs).mono ?_
    rintro v s' ⟨hAlloc, hOwn⟩
    refine ⟨hAlloc, x, n, hCarries, hNode, ?_⟩
    rw [hc]
    exact hOwn

/-- The register that selection gives for a node holds its value. -/
theorem vreg_ensures (hs : s.Sound) :
    Ensures site s (vreg id) fun v s' => Allocates s s' ∧ Holds site.graph s' id v :=
  (vreg_stands hs).mono fun _ _ ⟨hAlloc, hStands⟩ => ⟨hAlloc, hStands.holds⟩

end ArmBackend.Selection
