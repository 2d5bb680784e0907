import ArmBackend.Proofs.Selection.Registers
import ArmBackend.Proofs.Structure

/-!
# The books of one covered node

While a node is covered, operands are taken, outputs are named and instructions are emitted. An
`Account` lists what has been done so far, and `Progress` says that the state agrees with it: every
operand holds the value of a node that is marked as used, every output belongs to a node that is
marked as defined, and a temporary belongs to nothing. Each primitive step of selection adds one
entry to the account.

The nodes whose inputs may be taken are given by a predicate `V`: the node being covered, and those
that its instruction takes in.

## Results

* `useAt_ensures`, `immediate_ensures`, `define_ensures`, `tempDouble_ensures`, `emit_ensures`,
  `emitFlags_ensures` — what the primitive steps add.
* `Covers.single` — the account of a node that is covered by one instruction.
-/

namespace ArmBackend.Selection

/-- What has been done for the node being covered. -/
structure Account where
  /-- The operands that instructions may read. -/
  reads : List Operand := []
  /-- The nodes whose values are computed, each with its operand. -/
  defs : List (NodeId × Operand) := []
  /-- The registers for values between two instructions. -/
  temps : List Operand := []
  code : List Instr := []

namespace Account

/-- More operands to read. -/
def read (a : Account) (l : List Operand) : Account :=
  { a with reads := a.reads ++ l }

/-- Another node that is computed. -/
def define (a : Account) (id : NodeId) (o : Operand) : Account :=
  { a with defs := a.defs ++ [(id, o)] }

/-- Another register between two instructions. -/
def temp (a : Account) (o : Operand) : Account :=
  { a with temps := a.temps ++ [o] }

/-- Another instruction. -/
def emit (a : Account) (i : Instr) : Account :=
  { a with code := a.code ++ [i] }

@[simp] theorem reads_read (a : Account) (l : List Operand) : (a.read l).reads = a.reads ++ l :=
  rfl

@[simp] theorem reads_define (a : Account) (id : NodeId) (o : Operand) :
    (a.define id o).reads = a.reads :=
  rfl

@[simp] theorem reads_temp (a : Account) (o : Operand) : (a.temp o).reads = a.reads :=
  rfl

@[simp] theorem reads_emit (a : Account) (i : Instr) : (a.emit i).reads = a.reads :=
  rfl

theorem read_read (a : Account) (l l' : List Operand) :
    (a.read l).read l' = a.read (l ++ l') := by
  unfold read
  rw [List.append_assoc]

end Account

/-- Whether an operand holds the value of a node that is used, and that is an input of a node that
`V` allows. -/
def Supplies (g : Graph) (V : NodeId → Prop) (s : State) (r : Int) : Prop :=
  ∃ (v : Nat) (w u : NodeId), r = v ∧ V w ∧ g.Feeds w u ∧ u ∈ s.used ∧ Holds g s u v

/-- The state agrees with the account of what was done since `start`. -/
structure Progress (g : Graph) (V : NodeId → Prop) (start : State) (a : Account) (s : State) :
    Prop where
  grows : Grows start s
  sound : s.Sound
  used_mono : ∀ {u}, u ∈ start.used → u ∈ s.used
  used : ∀ {u}, u ∈ s.used → u ∈ start.used ∨ ∃ w, V w ∧ g.Feeds w u
  defined : ∀ {u}, u ∈ s.defined ↔ u ∈ start.defined ∨ u ∈ a.defs.map Prod.fst
  reads : ∀ {o}, o ∈ a.reads → ∀ r, o.register? = some r → Supplies g V s r
  defs : ∀ {p}, p ∈ a.defs → ∃ v : Nat, p.2.register? = some (v : Int) ∧ (p.1, v) ∈ s.vregs
  temps : ∀ {o}, o ∈ a.temps →
    ∃ v : Nat, o.register? = some (v : Int) ∧ start.stream.nextVreg ≤ v ∧ Fresh s v
  temps_nodup : (a.temps.map Operand.register?).Nodup
  segment : s.segment = a.code
  phis : s.phis = start.phis

variable {site : Site} {g : Graph} {V : NodeId → Prop} {start s s' : State} {a : Account}
  {id u w : NodeId} {o : Operand}

theorem Supplies.mono {r : Int} (h : Supplies g V s r) (hGrows : Grows s s')
    (hUsed : ∀ {u}, u ∈ s.used → u ∈ s'.used) : Supplies g V s' r := by
  obtain ⟨v, w, u, hr, hw, hu, hMem, hHolds⟩ := h
  exact ⟨v, w, u, hr, hw, hu, hUsed hMem, hHolds.mono hGrows⟩

/-- Nothing is done at the start. -/
theorem Progress.init (hs : s.Sound) (hSegment : s.segment = []) : Progress g V s {} s where
  grows := .refl s
  sound := hs
  used_mono := fun h => h
  used := Or.inl
  defined := by simp
  reads := by simp
  defs := by simp
  temps := by simp
  temps_nodup := List.nodup_nil
  segment := hSegment
  phis := rfl

/-- A step that only gives registers keeps the account. -/
theorem Progress.allocate (h : Progress g V start a s) (hAlloc : Allocates s s') :
    Progress g V start a s' where
  grows := h.grows.trans hAlloc.toGrows
  sound := hAlloc.sound
  used_mono := by
    rw [hAlloc.used]
    exact h.used_mono
  used := by
    rw [hAlloc.used]
    exact h.used
  defined := by
    rw [hAlloc.defined]
    exact h.defined
  reads := by
    intro o ho r hr
    refine (h.reads ho r hr).mono hAlloc.toGrows ?_
    -- a register read stays accounted for: allocation marks nothing and only adds registers
    rw [hAlloc.used]
    exact fun hu => hu
  defs := by
    intro p hp
    obtain ⟨v, hv, hOwn⟩ := h.defs hp
    exact ⟨v, hv, hAlloc.vreg_mono hOwn⟩
  temps := by
    intro o ho
    obtain ⟨v, hv, hNew, hFresh⟩ := h.temps ho
    exact ⟨v, hv, hNew, hFresh.mono hAlloc.toGrows⟩
  temps_nodup := h.temps_nodup
  segment := hAlloc.segment.trans h.segment
  phis := hAlloc.phis.trans h.phis

/-- An operand that is known to hold a value may be read. -/
theorem Progress.read (h : Progress g V start a s) {l : List Operand}
    (hl : ∀ o ∈ l, ∀ r, o.register? = some r → Supplies g V s r) :
    Progress g V start (a.read l) s where
  __ := h
  reads := by
    intro o ho
    rcases List.mem_append.mp ho with hOld | hNew
    · exact h.reads hOld
    · exact hl o hNew

/-! ## Operands that are read -/

/-- A node that a node of `V` takes as an input may be marked. -/
theorem Progress.mark (h : Progress g V start a s) (hw : V w) (hu : g.Feeds w u) :
    Progress g V start a { s with used := s.used.insert u } where
  grows := h.grows.trans (.of_tables rfl rfl rfl rfl ⟨rfl, rfl⟩)
  sound := h.sound.of_tables rfl rfl rfl
  used_mono := fun hx => List.mem_insert_of_mem (h.used_mono hx)
  used := by
    intro x hx
    rcases List.mem_insert_iff.mp hx with rfl | hOld
    · exact .inr ⟨w, hw, hu⟩
    · exact h.used hOld
  defined := h.defined
  reads := by
    intro o ho r hr
    exact (h.reads ho r hr).mono (.of_tables rfl rfl rfl rfl ⟨rfl, rfl⟩)
      fun hx => List.mem_insert_of_mem hx
  defs := h.defs
  temps := by
    intro o ho
    obtain ⟨v, hv, hNew, hFresh⟩ := h.temps ho
    exact ⟨v, hv, hNew, hFresh.lt, hFresh.not_vreg, hFresh.not_constant⟩
  temps_nodup := h.temps_nodup
  segment := h.segment
  phis := h.phis

/-- The register of a node that is used holds its value. -/
theorem vreg_supplies (h : Progress site.graph V start a s) (hw : V w)
    (hu : site.graph.Feeds w u) (hUsed : u ∈ s.used) :
    Ensures site s (vreg u) fun v s' =>
      Progress site.graph V start a s' ∧ Supplies site.graph V s' v := by
  refine (vreg_ensures h.sound).mono ?_
  rintro v s' ⟨hAlloc, hHolds⟩
  refine ⟨h.allocate hAlloc, v, w, u, rfl, hw, hu, ?_, hHolds⟩
  rw [hAlloc.used]
  exact hUsed

/-- The value of an input of a node of `V` may be read. -/
theorem useAt_ensures (h : Progress site.graph V start a s) (hw : V w)
    (hu : site.graph.Feeds w u) (location : Location) :
    Ensures site s (useAt u location) fun o s' => Progress site.graph V start (a.read [o]) s' := by
  unfold useAt
  simp only [ensures_bind, ensures_pure]
  refine ensures_markUsed ?_
  refine (vreg_supplies (h.mark hw hu) hw hu List.mem_insert_self).mono ?_
  rintro v s' ⟨h', hSupplies⟩
  refine h'.read ?_
  intro o ho r hr
  rw [List.mem_singleton.mp ho] at hr
  cases hr
  exact hSupplies

/-- A number in the instruction has no register. -/
theorem immediate_ensures (h : Progress g V start a s) (v : BitVec 32) :
    Ensures site s (immediate v) fun o s' => Progress g V start (a.read [o]) s' := by
  have hForm : Ensures site s (immediate v) fun o _ => o.register? = none :=
    (ensures_modifyGet _ _).mpr rfl
  refine ((immediate_allocates h.sound v).and hForm).mono ?_
  rintro o s' ⟨hAlloc, hNone⟩
  refine (h.allocate hAlloc).read ?_
  intro o' ho r hr
  rw [List.mem_singleton.mp ho, hNone] at hr
  cases hr

theorem useImmediate_ensures (h : Progress g V start a s) :
    Ensures site s (useImmediate u) fun o s' => Progress g V start (a.read [o]) s' := by
  unfold useImmediate
  simp only [ensures_bind, ensures_read, ensures_lift]
  intro m _
  split
  · exact immediate_ensures h _
  · exact (ensures_throw _ _).mpr trivial

/-! ## Outputs -/

/-- Whether a node has a register of its own: it carries its value, and is no constant. -/
def Owns (g : Graph) (id : NodeId) : Prop :=
  ∃ op, g.HasOp id op ∧ g.Carries id id ∧ op.isConstant = false

/-- The marks do not touch the tables of registers. -/
theorem sound_defined (hs : s.Sound) : State.Sound { s with defined := s.defined.insert u } :=
  hs.of_tables rfl rfl rfl

theorem grows_defined : Grows s { s with defined := s.defined.insert u } :=
  .of_tables rfl rfl rfl rfl ⟨rfl, rfl⟩

/-- A node whose register is known is computed. -/
theorem Progress.define (h : Progress g V start a s) {v : Nat}
    (hAlloc : Allocates { s with defined := s.defined.insert id } s') (hOwn : (id, v) ∈ s'.vregs)
    (ho : o.register? = some (v : Int)) : Progress g V start (a.define id o) s' where
  grows := (h.grows.trans grows_defined).trans hAlloc.toGrows
  sound := hAlloc.sound
  used_mono := by
    rw [hAlloc.used]
    exact h.used_mono
  used := by
    rw [hAlloc.used]
    exact h.used
  defined := by
    intro u
    rw [hAlloc.defined, List.mem_insert_iff, h.defined]
    simp only [Account.define, List.map_append, List.map_cons, List.map_nil, List.mem_append,
      List.mem_singleton]
    tauto
  reads := by
    intro o ho r hr
    refine (h.reads ho r hr).mono (grows_defined.trans hAlloc.toGrows) ?_
    rw [hAlloc.used]
    exact fun hu => hu
  defs := by
    intro p hp
    -- the account's definitions are the old ones, still registered, and the new one
    rcases List.mem_append.mp hp with hOld | hNew
    · obtain ⟨w, hw, hMem⟩ := h.defs hOld
      exact ⟨w, hw, hAlloc.vreg_mono hMem⟩
    · rw [List.mem_singleton.mp hNew]
      exact ⟨v, ho, hOwn⟩
  temps := by
    intro o ho
    obtain ⟨v, hv, hNew, hFresh⟩ := h.temps ho
    exact ⟨v, hv, hNew, hFresh.mono (grows_defined.trans hAlloc.toGrows)⟩
  temps_nodup := h.temps_nodup
  segment := hAlloc.segment.trans h.segment
  phis := hAlloc.phis.trans h.phis

theorem defineAt_ensures (h : Progress site.graph V start a s) (hOwns : Owns site.graph id)
    (location : Location) :
    Ensures site s (defineAt id location) fun o s' =>
      Progress site.graph V start (a.define id o) s' := by
  obtain ⟨op, hOp, hCarries, hConstant⟩ := hOwns
  unfold defineAt
  simp only [ensures_bind, ensures_pure]
  refine ensures_markDefined ?_
  refine (vreg_ensures (sound_defined h.sound)).mono ?_
  rintro v s₁ ⟨hAlloc, hHolds⟩
  refine (markRep_ensures hAlloc.sound).mono ?_
  intro _ s₂ hRep
  exact h.define (hAlloc.trans hRep) (hRep.vreg_mono (hHolds.own hCarries hOp hConstant)) rfl

theorem define_ensures (h : Progress site.graph V start a s) (hOwns : Owns site.graph id) :
    Ensures site s (define id) fun o s' => Progress site.graph V start (a.define id o) s' :=
  defineAt_ensures h hOwns .register

/-! ## Temporaries -/

/-- A new register serves as a temporary. -/
theorem Progress.temp (h : Progress g V start a s) {v : Nat} (hAlloc : Allocates s s')
    (hNew : s.stream.nextVreg ≤ v) (hFresh : Fresh s' v) (ho : o.register? = some (v : Int)) :
    Progress g V start (a.temp o) s' where
  __ := h.allocate hAlloc
  temps := by
    intro p hp
    rcases List.mem_append.mp hp with hOld | hLast
    · exact (h.allocate hAlloc).temps hOld
    · rw [List.mem_singleton.mp hLast]
      exact ⟨v, ho, Nat.le_trans h.grows.next_le hNew, hFresh⟩
  temps_nodup := by
    simp only [Account.temp, List.map_append, List.map_cons, List.map_nil]
    refine List.nodup_append.mpr ⟨h.temps_nodup, by simp, ?_⟩
    intro x hx y hy hxy
    rw [List.mem_singleton.mp hy] at hxy
    obtain ⟨p, hp, rfl⟩ := List.mem_map.mp hx
    obtain ⟨t, ht, -, hOld⟩ := h.temps hp
    rw [ht, ho] at hxy
    -- the fresh register is above all that were given out, so it differs from the old ones
    have hEq : t = v := Int.ofNat_inj.mp (Option.some.inj hxy)
    rw [hEq] at hOld
    exact Nat.not_le_of_lt hOld.lt hNew

theorem tempDouble_ensures (h : Progress g V start a s) :
    Ensures site s tempDouble fun o s' => Progress g V start (a.temp o) s' := by
  unfold tempDouble
  simp only [ensures_bind, ensures_modify, ensures_pure]
  refine (newVreg_ensures h.sound).mono ?_
  rintro v s₁ ⟨hAlloc, -, hNew, hFresh⟩
  have hDoubles : Allocates s₁ { s₁ with
      stream := { s₁.stream with doubles := s₁.stream.doubles.insert v } } :=
    .of_tables hAlloc.sound rfl rfl List.prefix_rfl rfl rfl rfl rfl rfl rfl ⟨rfl, rfl⟩
  exact h.temp (hAlloc.trans hDoubles) hNew (hFresh.mono hDoubles.toGrows) rfl

theorem tempRegister_ensures (h : Progress g V start a s) :
    Ensures site s tempRegister fun o s' => Progress g V start (a.temp o) s' := by
  unfold tempRegister
  simp only [ensures_bind, ensures_pure]
  refine (newVreg_ensures h.sound).mono ?_
  rintro v s₁ ⟨hAlloc, -, hNew, hFresh⟩
  exact h.temp hAlloc hNew hFresh rfl

/-- A register that an instruction only overwrites is on no account. -/
theorem tempAt_ensures (h : Progress g V start a s) (location : Location) :
    Ensures site s (tempAt location) fun _ s' => Progress g V start a s' := by
  unfold tempAt
  simp only [ensures_bind, ensures_pure]
  refine (newVreg_ensures h.sound).mono ?_
  rintro v s₁ ⟨hAlloc, -⟩
  exact h.allocate hAlloc

/-! ## Instructions -/

theorem emit_ensures (h : Progress g V start a s) (i : Instr) :
    Ensures site s (emit i) fun _ s' => Progress g V start (a.emit i) s' := by
  refine ensures_emit fun _ => ?_
  exact {
    grows := h.grows.trans (.of_tables rfl rfl rfl rfl ⟨rfl, rfl⟩)
    sound := h.sound.of_tables rfl rfl rfl
    used_mono := h.used_mono
    used := h.used
    defined := h.defined
    reads := h.reads
    defs := h.defs
    temps := fun ho =>
      let ⟨v, hv, hNew, hFresh⟩ := h.temps ho
      ⟨v, hv, hNew, hFresh.lt, hFresh.not_vreg, hFresh.not_constant⟩
    temps_nodup := h.temps_nodup
    segment := congrArg (· ++ [i]) h.segment
    phis := h.phis }

/-- The node whose value the flags make, if any. -/
def Continuation.target? (k : Continuation) : Option NodeId :=
  match k.use with
  | .result node => some node
  | .unused | .branch _ _ => none

/-- An instruction that puts its flags to use: it reads what it is given, beside the labels of a
branch, and writes what it is given, followed by the value that the flags make. -/
theorem emitFlags_ensures (h : Progress site.graph V start a s) (k : Continuation)
    (hOwns : ∀ id, k.target? = some id → Owns site.graph id) (op : Opcode) (mode : AddrMode)
    (out inputs : List Operand) :
    Ensures site s (emitFlags op mode k out inputs) fun _ s' =>
      ∃ flags : List (NodeId × Operand), flags.map Prod.fst = k.target?.toList ∧
        ∃ i : Instr, i.out = out ++ flags.map Prod.snd ∧
          (∀ o ∈ i.inputs, o ∈ inputs ∨ o.register? = none) ∧
          Progress site.graph V start
            { a with defs := a.defs ++ flags, code := a.code ++ [i] } s' := by
  unfold emitFlags
  cases hUse : k.use with
  | unused =>
    -- no flag is defined unless the continuation asks for one
    have hTarget : k.target? = none := by
      unfold Continuation.target?
      rw [hUse]
    refine (emit_ensures h _).mono ?_
    intro _ s' h'
    refine ⟨[], by rw [hTarget]; rfl, { op, mode, cond := k.cond, out, inputs },
      (List.append_nil _).symm, fun o ho => .inl ho, ?_⟩
    rw [List.append_nil]
    exact h'
  | result id =>
    have hTarget : k.target? = some id := by
      unfold Continuation.target?
      rw [hUse]
    simp only [ensures_bind]
    refine (define_ensures h (hOwns id hTarget)).mono ?_
    intro flag s₁ h₁
    refine (emit_ensures h₁ _).mono ?_
    intro _ s₂ h₂
    exact ⟨[(id, flag)], by rw [hTarget]; rfl,
      { op, mode, flags := .set, cond := k.cond, out := out ++ [flag], inputs }, rfl,
      fun o ho => .inl ho, h₂⟩
  | branch t f =>
    have hTarget : k.target? = none := by
      unfold Continuation.target?
      rw [hUse]
    refine (emit_ensures h _).mono ?_
    intro _ s' h'
    refine ⟨[], by rw [hTarget]; rfl,
      { op, mode, flags := .branch, cond := k.cond, out, inputs := inputs ++ [.label t, .label f] },
      (List.append_nil _).symm, ?_, ?_⟩
    · intro o ho
      -- the labels of a branch are inputs that name no register
      simp only [List.mem_append, List.mem_cons, List.not_mem_nil, or_false] at ho
      rcases ho with hIn | rfl | rfl
      · exact .inl hIn
      · exact .inr rfl
      · exact .inr rfl
    · rw [List.append_nil]
      exact h'

/-! ## Covered nodes -/

/-- Whether the instructions of an account read only what is there and write each output once. -/
structure Account.Balanced (a : Account) : Prop where
  reads : ∀ front i rest, a.code = front ++ i :: rest → ∀ o ∈ i.inputs,
    o ∈ a.reads ∨ o.register? = none ∨ (o ∈ a.temps ∧ o ∈ front.flatMap Instr.out)
  writes : (a.code.flatMap Instr.out).Perm (a.defs.map Prod.snd ++ a.temps)

/-- A node is covered: the values of the nodes `ds` are computed, from inputs of nodes of `V`. -/
def Covers (g : Graph) (V : NodeId → Prop) (start : State) (ds : List NodeId) (s : State) : Prop :=
  ∃ a : Account, Progress g V start a s ∧ a.Balanced ∧ a.defs.map Prod.fst = ds

/-- One instruction that writes everything that was defined. -/
theorem Covers.single (h : Progress g V start a s) {i : Instr} (hCode : a.code = [i])
    (hTemps : a.temps = []) (hOut : i.out = a.defs.map Prod.snd)
    (hIn : ∀ o ∈ i.inputs, o ∈ a.reads ∨ o.register? = none) {ds : List NodeId}
    (hDefs : a.defs.map Prod.fst = ds) : Covers g V start ds s := by
  refine ⟨a, h, ⟨?_, ?_⟩, hDefs⟩
  · intro front j rest hSplit o ho
    rw [hCode] at hSplit
    have hEq : j = i := by
      have hMem : j ∈ [i] := by
        rw [hSplit]
        simp
      exact List.mem_singleton.mp hMem
    rw [hEq] at ho
    exact (hIn o ho).imp id Or.inl
  · rw [hCode, hTemps, List.append_nil, ← hOut]
    simp

/-- A node that has no code. -/
theorem Covers.empty (h : Progress g V start a s) (hCode : a.code = []) (hTemps : a.temps = [])
    (hDefs : a.defs = []) : Covers g V start [] s := by
  refine ⟨a, h, ⟨?_, ?_⟩, by rw [hDefs]; rfl⟩
  · intro front j rest hSplit
    rw [hCode] at hSplit
    simp at hSplit
  · rw [hCode, hTemps, hDefs]
    simp

/-- The registers of the operands that instructions write. -/
theorem flatMap_writes (code : List Instr) :
    code.flatMap Instr.writes = (code.flatMap Instr.out).filterMap Operand.register? := by
  rw [List.filterMap_flatMap]
  rfl

/-- What is read holds the value of a node that is used, or was written just before. -/
theorem Covers.reads {ds : List NodeId} (h : Covers g V start ds s) {front rest : List Instr}
    {i : Instr} (hSplit : s.segment = front ++ i :: rest) {r : Int} (hr : r ∈ i.reads) :
    Supplies g V s r ∨ r ∈ front.flatMap Instr.writes := by
  obtain ⟨a, hProgress, hBalanced, -⟩ := h
  obtain ⟨o, ho, hRegister⟩ := List.mem_filterMap.mp hr
  rw [hProgress.segment] at hSplit
  rcases hBalanced.reads front i rest hSplit o ho with hRead | hNone | ⟨-, hOut⟩
  · exact .inl (hProgress.reads hRead r hRegister)
  · rw [hNone] at hRegister
    cases hRegister
  · rw [flatMap_writes]
    exact .inr (List.mem_filterMap.mpr ⟨o, hOut, hRegister⟩)

/-- What is written belongs to a node that is computed, or is a temporary. -/
theorem Covers.writes {ds : List NodeId} (h : Covers g V start ds s) {r : Int}
    (hr : r ∈ s.segment.flatMap Instr.writes) :
    (∃ x ∈ ds, ∃ v : Nat, r = v ∧ (x, v) ∈ s.vregs) ∨
      ∃ v : Nat, r = v ∧ start.stream.nextVreg ≤ v ∧ Fresh s v := by
  obtain ⟨a, hProgress, hBalanced, rfl⟩ := h
  rw [hProgress.segment, flatMap_writes] at hr
  obtain ⟨o, ho, hRegister⟩ := List.mem_filterMap.mp hr
  rcases List.mem_append.mp (hBalanced.writes.mem_iff.mp ho) with hDef | hTemp
  · obtain ⟨p, hp, rfl⟩ := List.mem_map.mp hDef
    obtain ⟨v, hv, hOwn⟩ := hProgress.defs hp
    rw [hRegister] at hv
    exact .inl ⟨p.1, List.mem_map_of_mem hp, v, Option.some.inj hv, hOwn⟩
  · obtain ⟨v, hv, hNew, hFresh⟩ := hProgress.temps hTemp
    rw [hRegister] at hv
    exact .inr ⟨v, Option.some.inj hv, hNew, hFresh⟩

/-- The value of each node that is computed is written. -/
theorem Covers.mem_writes {ds : List NodeId} (h : Covers g V start ds s) {x : NodeId}
    (hx : x ∈ ds) : ∃ v : Nat, (x, v) ∈ s.vregs ∧ (v : Int) ∈ s.segment.flatMap Instr.writes := by
  obtain ⟨a, hProgress, hBalanced, rfl⟩ := h
  obtain ⟨p, hp, rfl⟩ := List.mem_map.mp hx
  obtain ⟨v, hv, hOwn⟩ := hProgress.defs hp
  refine ⟨v, hOwn, ?_⟩
  rw [hProgress.segment, flatMap_writes]
  refine List.mem_filterMap.mpr ⟨p.2, hBalanced.writes.mem_iff.mpr ?_, hv⟩
  exact List.mem_append_left _ (List.mem_map_of_mem hp)

/-- Nothing is written twice, as long as no node is computed twice. -/
theorem Covers.nodup_writes {ds : List NodeId} (h : Covers g V start ds s) (hds : ds.Nodup) :
    (s.segment.flatMap Instr.writes).Nodup := by
  obtain ⟨a, hProgress, hBalanced, rfl⟩ := h
  rw [hProgress.segment, flatMap_writes]
  refine ((hBalanced.writes.filterMap Operand.register?).nodup_iff).mpr ?_
  rw [List.filterMap_append]
  refine List.nodup_append.mpr ⟨?_, ?_, ?_⟩
  · -- Two nodes never share a register.
    rw [List.filterMap_map]
    refine List.pairwise_filterMap.mpr ((List.pairwise_map.mp hds).imp_of_mem ?_)
    rintro p q hp hq hNe r hr _ hr' rfl
    obtain ⟨v, hv, hOwn⟩ := hProgress.defs hp
    obtain ⟨v', hv', hOwn'⟩ := hProgress.defs hq
    have hSame : v = v' := by
      rw [Function.comp_apply, hv] at hr
      rw [Function.comp_apply, hv'] at hr'
      exact Int.ofNat_inj.mp (Option.some.inj (hr.trans hr'.symm))
    rw [← hSame] at hOwn'
    exact hNe (hProgress.sound.vreg_inj hOwn hOwn')
  · refine List.pairwise_filterMap.mpr ((List.pairwise_map.mp hProgress.temps_nodup).imp ?_)
    rintro p q hNe r hr _ hr' rfl
    exact hNe (hr.trans hr'.symm)
  · rintro r hr _ hr' rfl
    obtain ⟨o, ho, hRegister⟩ := List.mem_filterMap.mp hr
    obtain ⟨p, hp, rfl⟩ := List.mem_map.mp ho
    obtain ⟨v, hv, hOwn⟩ := hProgress.defs hp
    obtain ⟨t, ht, hTemp⟩ := List.mem_filterMap.mp hr'
    obtain ⟨v', hv', -, hFresh⟩ := hProgress.temps ht
    have hSame : v = v' := by
      rw [hv] at hRegister
      rw [hv'] at hTemp
      exact Int.ofNat_inj.mp (Option.some.inj (hRegister.trans hTemp.symm))
    rw [hSame] at hOwn
    exact hFresh.not_vreg hOwn

end ArmBackend.Selection
