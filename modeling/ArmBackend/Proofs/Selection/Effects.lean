import ArmBackend.Proofs.Schedule.Computed
import ArmBackend.Proofs.Selection.Calm
import ArmBackend.Proofs.Selection.WellFormed

/-!
# Effects keep their order and number

A load, a store or a call is selected as one instruction, and it is never left out: it is no pure
node, and no rule computes it on behalf of another node. The walk goes through a block from its end
and puts each piece of code in front, so the effects of the code of a block are those of the nodes
of the block, one by one. The order of the nodes has the effect inputs in front.

## Results

* `coverNode_effects` — the effects in the code of one node.
* `coverNodes_effects`, `coverBlock_effects`, `coverBlocks_effects` — the walk, step by step.
* `select_keeps_effects` — the effects of a selected stream are those of the schedule.
-/

namespace ArmBackend
namespace Selection

variable {site : Site} {g : Graph} {regs : List (NodeId × Nat)} {stream : Stream}
  {start s s' : State} {D : NodeId → Prop} {id u : NodeId} {b : Nat}

/-! ## What an effect is selected as -/

/-- The operands of an access to `base + index`. A number that fits the instruction stands in it, on
either side of the sum. -/
inductive Addresses (g : Graph) (regs : List (NodeId × Nat)) (stream : Stream) (op : Opcode)
    (base index : NodeId) : AddrMode → List Operand → Prop
  | index {r : Nat} {m : Int32Match} {v : BitVec 32} {o : Operand}
      (hBase : Stands g regs stream base r) (hMatch : g.int32 index = .ok m)
      (hValue : m.value? = some v) (hFits : op.canBeImmediate v = true)
      (hNumber : stream.IsNumber o v) :
      Addresses g regs stream op base index .offsetImmediate [.vreg r .register, o]
  | base {r : Nat} {m : Int32Match} {v : BitVec 32} {o : Operand}
      (hIndex : Stands g regs stream index r) (hMatch : g.int32 base = .ok m)
      (hValue : m.value? = some v) (hFits : op.canBeImmediate v = true)
      (hNumber : stream.IsNumber o v) :
      Addresses g regs stream op base index .offsetImmediate [.vreg r .register, o]
  | registers {r q : Nat} (hBase : Stands g regs stream base r)
      (hIndex : Stands g regs stream index q) :
      Addresses g regs stream op base index .offsetRegister
        [.vreg r .register, .vreg q .register]

/-- The instruction that an effect is selected as. The opcode of an access goes by its representation
and, for a load, by the sign of its type; a full barrier has an instruction of its own. -/
inductive Accesses (g : Graph) (regs : List (NodeId × Nat)) (stream : Stream) (id : NodeId)
    (i : Instr) : Prop
  | load {n : Node} {op : Opcode} {base index : NodeId} {mode : AddrMode} {address : List Operand}
      {r : Nat} (hNode : g.node? id = some n) (hOp : n.op = .load)
      (hOpcode : loadOp? n.rep n.mach = some op) (hBase : n.input 0 = .ok base)
      (hIndex : n.input 1 = .ok index) (hAddress : Addresses g regs stream op base index mode address)
      (hOut : Stands g regs stream id r)
      (hi : i = { op, mode, out := [.vreg r .register], inputs := address })
  | store {n : Node} {op : Opcode} {base index value : NodeId} {mode : AddrMode}
      {address : List Operand} {r : Nat} (hNode : g.node? id = some n) (hOp : n.op = .store)
      (hBarrier : n.barrier ≠ .full) (hOpcode : storeOp? n.rep = some op)
      (hBase : n.input 0 = .ok base) (hIndex : n.input 1 = .ok index)
      (hValue : n.input 2 = .ok value)
      (hAddress : Addresses g regs stream op base index mode address)
      (hIn : Stands g regs stream value r)
      (hi : i = { op, mode, inputs := address ++ [.vreg r .register] })
  | barrier {n : Node} {base index value : NodeId} {x y z t w : Nat} (hNode : g.node? id = some n)
      (hOp : n.op = .store) (hBarrier : n.barrier = .full) (hRep : n.rep = .tagged)
      (hBase : n.input 0 = .ok base) (hIndex : n.input 1 = .ok index)
      (hValue : n.input 2 = .ok value) (hx : Stands g regs stream base x)
      (hy : Stands g regs stream index y) (hz : Stands g regs stream value z)
      (hi : i = { op := .storeWriteBarrier
                  inputs := [.vreg x barrierObject, .vreg y barrierIndex, .vreg z barrierValue]
                  temp := [.vreg t barrierIndex, .vreg w barrierValue] })
  | call {n : Node} {target x : NodeId} {entry r : Nat} {arguments : List NodeId}
      {operands : List Operand} (hNode : g.node? id = some n) (hOp : n.op = .call)
      (hTarget : n.input 0 = .ok target) (hEntry : Stands g regs stream target entry)
      (hArguments : n.valueInputs = .ok (x :: arguments))
      (hOperands : List.Forall₂ (fun a o => ∃ (q : Nat) (location : Location),
        o = .vreg q location ∧ Stands g regs stream a q) arguments operands)
      (hOut : Stands g regs stream id r)
      (hi : i = { op := .call, out := [.vreg r (.fixedRegister 0)]
                  inputs := .constant entry :: operands })

theorem Addresses.mono {op : Opcode} {base index : NodeId} {mode : AddrMode}
    {address : List Operand} (h : Addresses g s.vregs s.stream op base index mode address)
    (hGrown : Grown s s' D) : Addresses g s'.vregs s'.stream op base index mode address := by
  cases h with
  | index hBase hMatch hValue hFits hNumber =>
    exact .index (hBase.mono hGrown) hMatch hValue hFits (isNumber_mono hNumber hGrown)
  | base hIndex hMatch hValue hFits hNumber =>
    exact .base (hIndex.mono hGrown) hMatch hValue hFits (isNumber_mono hNumber hGrown)
  | registers hBase hIndex => exact .registers (hBase.mono hGrown) (hIndex.mono hGrown)

theorem Accesses.mono {i : Instr} (h : Accesses g s.vregs s.stream id i) (hGrown : Grown s s' D) :
    Accesses g s'.vregs s'.stream id i := by
  cases h with
  | load hNode hOp hOpcode hBase hIndex hAddress hOut hi =>
    exact .load hNode hOp hOpcode hBase hIndex (hAddress.mono hGrown) (hOut.mono hGrown) hi
  | store hNode hOp hBarrier hOpcode hBase hIndex hValue hAddress hIn hi =>
    exact .store hNode hOp hBarrier hOpcode hBase hIndex hValue (hAddress.mono hGrown)
      (hIn.mono hGrown) hi
  | barrier hNode hOp hBarrier hRep hBase hIndex hValue hx hy hz hi =>
    exact .barrier hNode hOp hBarrier hRep hBase hIndex hValue (hx.mono hGrown) (hy.mono hGrown)
      (hz.mono hGrown) hi
  | call hNode hOp hTarget hEntry hArguments hOperands hOut hi =>
    refine .call hNode hOp hTarget (hEntry.mono hGrown) hArguments (hOperands.imp ?_)
      (hOut.mono hGrown) hi
    rintro a o ⟨q, location, rfl, hq⟩
    exact ⟨q, location, rfl, hq.mono hGrown⟩

/-- What an effect is selected as is an effect. -/
theorem Accesses.isEffectful {i : Instr} (h : Accesses g regs stream id i) :
    i.op.isEffectful = true := by
  cases h with
  | load hNode hOp hOpcode hBase hIndex hAddress hOut hi =>
    rw [hi]
    unfold loadOp? at hOpcode
    split at hOpcode <;> cases hOpcode <;> first | rfl | (split <;> rfl)
  | store hNode hOp hBarrier hOpcode hBase hIndex hValue hAddress hIn hi =>
    rw [hi]
    unfold storeOp? at hOpcode
    split at hOpcode <;> cases hOpcode <;> rfl
  | barrier hNode hOp hBarrier hRep hBase hIndex hValue hx hy hz hi =>
    rw [hi]
    rfl
  | call hNode hOp hTarget hEntry hArguments hOperands hOut hi =>
    rw [hi]
    rfl

/-! ## The rules of effects -/

/-- What is computed while an effect is covered: the effect itself. -/
abbrev Own (id : NodeId) : NodeId → Prop := fun x => x = id

/-- A number stands in the instruction where one fits, on either side of the sum. -/
theorem address_adds (id : NodeId) (hs : s.Sound) (op : Opcode) (base index : NodeId) :
    Ensures site s (address op base index) fun p s' => Advances s s' [] (Own id) ∧
      Addresses site.graph s'.vregs s'.stream op base index p.1 p.2 := by
  -- The constant that fits is the one whose number is taken.
  have hFits : ∀ {m m' : Int32Match} {v : BitVec 32} {u : NodeId}, site.graph.int32 u = .ok m →
      m.value?.any op.canBeImmediate = true → site.graph.int32 u = .ok m' → m'.value? = some v →
      op.canBeImmediate v = true := by
    intro m m' v u hm hAny hm' hv
    cases hm.symm.trans hm'
    simpa [hv] using hAny
  unfold address
  simp only [ensures_bind, ensures_read, ensures_lift]
  intro m hm
  -- The index as an offset, then the base as one, then both in registers.
  split
  · next hAny =>
    simp only [ensures_bind, ensures_pure]
    refine (useAt_advances (Own id) hs base .register).mono ?_
    rintro _ s₁ ⟨h₁, r, rfl, hr⟩
    refine (useImmediate_advances (Own id) h₁.sound index).mono ?_
    rintro o s₂ ⟨h₂, m', v, hm', hv, hNumber⟩
    exact ⟨h₁.trans h₂, .index (hr.mono h₂.toGrown) hm' hv (hFits hm hAny hm' hv) hNumber⟩
  · simp only [ensures_bind, ensures_lift]
    intro m hm
    split
    · next hAny =>
      simp only [ensures_bind, ensures_pure]
      refine (useAt_advances (Own id) hs index .register).mono ?_
      rintro _ s₁ ⟨h₁, r, rfl, hr⟩
      refine (useImmediate_advances (Own id) h₁.sound base).mono ?_
      rintro o s₂ ⟨h₂, m', v, hm', hv, hNumber⟩
      exact ⟨h₁.trans h₂, .base (hr.mono h₂.toGrown) hm' hv (hFits hm hAny hm' hv) hNumber⟩
    · simp only [ensures_bind, ensures_pure]
      refine (useAt_advances (Own id) hs base .register).mono ?_
      rintro _ s₁ ⟨h₁, r, rfl, hr⟩
      refine (useAt_advances (Own id) h₁.sound index .register).mono ?_
      rintro _ s₂ ⟨h₂, q, rfl, hq⟩
      exact ⟨h₁.trans h₂, .registers (hr.mono h₂.toGrown) hq⟩

/-- Whether one instruction was added for an effect. Its outputs are registers of the effect. -/
def AddsAccess (g : Graph) (id : NodeId) (s s' : State) : Prop :=
  ∃ i, Advances s s' [i] (Own id) ∧ Accesses g s'.vregs s'.stream id i ∧
    ∀ o ∈ i.out, ∃ (r : Nat) (location : Location),
      o = .vreg r location ∧ Stands g s'.vregs s'.stream id r

theorem coverLoad_adds (hs : s.Sound) (hOp : site.graph.HasOp id .load) :
    Ensures site s (coverLoad id) fun _ s' => AddsAccess site.graph id s s' := by
  obtain ⟨n, hNode, hLoad⟩ := hOp
  unfold coverLoad
  simp only [ensures_bind, ensures_read, ensures_lift]
  intro n' hn'
  obtain rfl : n = n' := Option.some.inj (hNode.symm.trans (Graph.node_eq_ok.mp hn'))
  split
  · exact (ensures_throw _ _).mpr trivial
  · next op hOpcode =>
    simp only [ensures_bind, ensures_lift]
    intro base hBase index hIndex
    refine (address_adds id hs op base index).mono ?_
    rintro ⟨mode, inputs⟩ s₁ ⟨h₁, hAddress⟩
    refine (defineAt_advances h₁.sound (D := Own id) rfl .register).mono ?_
    rintro _ s₂ ⟨h₂, r, rfl, hr⟩
    refine (emit_advances (Own id) h₂.sound _).mono ?_
    intro _ s₃ h₃
    -- one instruction, whose result is the load's own register
    refine ⟨_, (h₁.trans h₂).trans h₃, .load hNode hLoad hOpcode hBase hIndex ?_ ?_ rfl, ?_⟩
    · exact (hAddress.mono h₂.toGrown).mono h₃.toGrown
    · exact hr.mono h₃.toGrown
    · intro o ho
      exact ⟨r, .register, List.mem_singleton.mp ho, hr.mono h₃.toGrown⟩

theorem coverStore_adds (hs : s.Sound) (hOp : site.graph.HasOp id .store) :
    Ensures site s (coverStore id) fun _ s' => AddsAccess site.graph id s s' := by
  obtain ⟨n, hNode, hStore⟩ := hOp
  unfold coverStore
  simp only [ensures_bind, ensures_read, ensures_lift]
  intro n' hn' base hBase index hIndex value hValue
  obtain rfl : n = n' := Option.some.inj (hNode.symm.trans (Graph.node_eq_ok.mp hn'))
  split
  · next hBarrier =>
    split
    · exact (ensures_bind _ _ _).mpr ((ensures_throw _ _).mpr trivial)
    · next hRep =>
      -- The operands of the barrier are taken one after another, then two registers to overwrite.
      unfold emitBarrier
      simp only [ensures_bind]
      refine (useAt_advances (Own id) hs base barrierObject).mono ?_
      rintro _ s₁ ⟨h₁, x, rfl, hx⟩
      refine (useAt_advances (Own id) h₁.sound index barrierIndex).mono ?_
      rintro _ s₂ ⟨h₂, y, rfl, hy⟩
      refine (useAt_advances (Own id) h₂.sound value barrierValue).mono ?_
      rintro _ s₃ ⟨h₃, z, rfl, hz⟩
      refine (tempAt_advances (Own id) h₃.sound barrierIndex).mono ?_
      rintro _ s₄ ⟨h₄, t, rfl, -⟩
      refine (tempAt_advances (Own id) h₄.sound barrierValue).mono ?_
      rintro _ s₅ ⟨h₅, w, rfl, -⟩
      refine (emit_advances (Own id) h₅.sound _).mono ?_
      intro _ s₆ h₆
      have hLast := ((h₄.trans h₅).trans h₆).toGrown
      refine ⟨_, ((((h₁.trans h₂).trans h₃).trans h₄).trans h₅).trans h₆,
        .barrier hNode hStore hBarrier (of_not_not hRep) hBase hIndex hValue ?_ ?_ ?_ rfl, nofun⟩
      · exact ((hx.mono h₂.toGrown).mono h₃.toGrown).mono hLast
      · exact (hy.mono h₃.toGrown).mono hLast
      · exact hz.mono hLast
  · next hBarrier =>
    split
    · exact (ensures_throw _ _).mpr trivial
    · next op hOpcode =>
      simp only [ensures_bind]
      refine (address_adds id hs op base index).mono ?_
      rintro ⟨mode, inputs⟩ s₁ ⟨h₁, hAddress⟩
      refine (useAt_advances (Own id) h₁.sound value .register).mono ?_
      rintro _ s₂ ⟨h₂, r, rfl, hr⟩
      refine (emit_advances (Own id) h₂.sound _).mono ?_
      intro _ s₃ h₃
      refine ⟨_, (h₁.trans h₂).trans h₃,
        .store hNode hStore hBarrier hOpcode hBase hIndex hValue ?_ ?_ rfl, nofun⟩
      · exact (hAddress.mono h₂.toGrown).mono h₃.toGrown
      · exact hr.mono h₃.toGrown

/-- The arguments of a call are taken one after another, each at the place the linkage gives it. -/
theorem useArguments_adds (id : NodeId) {l : List NodeId} (linkage : Linkage) (hs : s.Sound) :
    Ensures site s (useArguments linkage l) fun operands s' => Advances s s' [] (Own id) ∧
      List.Forall₂ (fun a o => ∃ (q : Nat) (location : Location),
        o = .vreg q location ∧ Stands site.graph s'.vregs s'.stream a q) l operands := by
  -- the linkage moves on with each argument, so it is generalized
  induction l generalizing linkage s with
  | nil =>
    unfold useArguments
    exact (ensures_pure _ _).mpr ⟨.nothing hs, .nil⟩
  | cons a rest ih =>
    unfold useArguments
    simp only [ensures_bind, ensures_pure]
    refine (isDouble_ensures a).mono ?_
    rintro double _ rfl
    refine (useAt_advances (Own id) hs a _).mono ?_
    rintro _ s₁ ⟨h₁, r, rfl, hr⟩
    refine (ih _ h₁.sound).mono ?_
    rintro operands s₂ ⟨h₂, hOperands⟩
    exact ⟨h₁.trans h₂, .cons ⟨r, _, rfl, hr.mono h₂.toGrown⟩ hOperands⟩

theorem coverCall_adds (hs : s.Sound) (hOp : site.graph.HasOp id .call) :
    Ensures site s (coverCall id) fun _ s' => AddsAccess site.graph id s s' := by
  obtain ⟨n, hNode, hCall⟩ := hOp
  unfold coverCall
  simp only [ensures_bind, ensures_read, ensures_lift]
  intro n' hn' target hTarget op _
  obtain rfl : n = n' := Option.some.inj (hNode.symm.trans (Graph.node_eq_ok.mp hn'))
  split
  · exact (ensures_bind _ _ _).mpr ((ensures_throw _ _).mpr trivial)
  · simp only [ensures_bind, ensures_lift]
    refine (markUsed_advances (Own id) hs).mono ?_
    intro _ s₁ h₁
    refine (vreg_advances (Own id) h₁.sound).mono ?_
    rintro entry s₂ ⟨h₂, hEntry⟩ values hValues
    split
    · exact (ensures_throw _ _).mpr trivial
    · next x arguments =>
      simp only [ensures_bind]
      refine (useArguments_adds id {} h₂.sound).mono ?_
      rintro operands s₃ ⟨h₃, hOperands⟩
      refine (defineAt_advances h₃.sound (D := Own id) rfl _).mono ?_
      rintro _ s₄ ⟨h₄, r, rfl, hr⟩
      refine (emit_advances (Own id) h₄.sound _).mono ?_
      intro _ s₅ h₅
      have hLast := (h₄.trans h₅).toGrown
      -- All operands still stand for their nodes behind the steps that follow.
      refine ⟨_, (((h₁.trans h₂).trans h₃).trans h₄).trans h₅,
        .call hNode hCall hTarget ?_ hValues (hOperands.imp ?_) (hr.mono h₅.toGrown) rfl, ?_⟩
      · exact (hEntry.mono h₃.toGrown).mono hLast
      · rintro a o ⟨q, location, rfl, hq⟩
        exact ⟨q, location, rfl, hq.mono hLast⟩
      · intro o ho
        exact ⟨r, _, List.mem_singleton.mp ho, hr.mono h₅.toGrown⟩

/-! ## The walk -/

/-- The effects among some nodes, in their order. -/
abbrev effectsOf (g : Graph) (nodes : List NodeId) : List NodeId :=
  nodes.filter g.isEffectful

/-- The effects in some code, in its order. -/
abbrev effectsIn (code : List Instr) : List Instr :=
  code.filter fun i => i.op.isEffectful

/-- Whether the effects in some code are those of some nodes, one by one. -/
abbrev Answers (g : Graph) (s : State) (nodes : List NodeId) (code : List Instr) : Prop :=
  List.Forall₂ (Accesses g s.vregs s.stream) (effectsOf g nodes) (effectsIn code)

theorem Answers.mono {nodes : List NodeId} {code : List Instr} (h : Answers g s nodes code)
    (hGrown : Grown s s' D) : Answers g s' nodes code :=
  h.imp fun _ _ hAccess => hAccess.mono hGrown

theorem Answers.append {l l' : List NodeId} {code code' : List Instr} (h : Answers g s l code)
    (h' : Answers g s l' code') : Answers g s (l ++ l') (code ++ code') := by
  unfold Answers effectsOf effectsIn
  rw [List.filter_append, List.filter_append]
  exact List.rel_append h h'

/-- Code without effects answers to nodes without effects. -/
theorem Answers.nothing {l : List NodeId} {code : List Instr}
    (hNodes : ∀ x ∈ l, g.isEffectful x = false) (hCode : ∀ i ∈ code, i.op.isEffectful = false) :
    Answers g s l code := by
  have hNone : effectsOf g l = [] := by
    rw [effectsOf, List.filter_eq_nil_iff]
    intro x hx
    simp [hNodes x hx]
  have hEmpty : effectsIn code = [] := by
    rw [effectsIn, List.filter_eq_nil_iff]
    intro i hi
    simp [hCode i hi]
  unfold Answers
  rw [hNone, hEmpty]
  exact .nil

/-- Covering a node marks no effect as computed but the node itself. -/
theorem coverNode_effects (hs : s.Sound) :
    Ensures site s (coverNode id) fun _ s' =>
      ∃ code, Advances s s' code (fun x => site.graph.isEffectful x = true → x = id) ∧
        Answers site.graph s' [id] code := by
  -- An effect has one instruction, by the rule of its operator.
  have hAccess : ∀ {cover : Select Unit}, site.graph.isEffectful id = true →
      (Ensures site s cover fun _ s' => AddsAccess site.graph id s s') →
      Ensures site s cover fun _ s' =>
        ∃ code, Advances s s' code (fun x => site.graph.isEffectful x = true → x = id) ∧
          Answers site.graph s' [id] code := by
    intro cover hId hCover
    refine hCover.mono ?_
    rintro _ s' ⟨i, hAdvances, hi, -⟩
    refine ⟨[i], hAdvances.mono fun x hx _ => hx, ?_⟩
    have hNode : effectsOf site.graph [id] = [id] := by simp [effectsOf, hId]
    have hCode : effectsIn [i] = [i] := by simp [effectsIn, hi.isEffectful]
    unfold Answers
    rw [hNode, hCode]
    exact .cons hi .nil
  cases hId : site.graph.isEffectful id with
  | false =>
    refine (coverNode_calm hId hs).mono ?_
    rintro _ s' ⟨code, hAdvances, hCode⟩
    refine ⟨code, hAdvances.mono fun x hx hEffect => ?_,
      .nothing (by simpa using hId) fun i hi => (hCode i hi).1⟩
    exact absurd (hx.symm.trans hEffect) Bool.false_ne_true
  | true =>
    unfold coverNode
    simp only [ensures_bind, ensures_read, ensures_lift]
    intro op hOp
    have hIs := Graph.op_eq_ok.mp hOp
    have hEffect := hId
    rw [Graph.isEffectful_of_op hIs] at hEffect
    cases op with
    | load => exact hAccess hId (coverLoad_adds hs hIs)
    | store => exact hAccess hId (coverStore_adds hs hIs)
    | call => exact hAccess hId (coverCall_adds hs hIs)
    | _ => cases hEffect

/-- A piece of code is what its rule adds. -/
theorem segmentOf_effects (hs : s.Sound) {cover : Select Unit} {P : List Instr → State → Prop}
    (hCover : ∀ s₀ : State, s₀.Sound → Ensures (site.at b id) s₀ cover fun _ s' =>
      ∃ code, Advances s₀ s' code D ∧ P code s') :
    Ensures site s (segmentOf b id cover) fun code s' => Grown s s' D ∧ P code s' := by
  unfold segmentOf
  simp only [ensures_bind, ensures_modify, ensures_get, ensures_pure, ensures_withReader]
  have hPiece : Ensures (site.at b id) { s with segment := [] } cover _ :=
    hCover { s with segment := [] } (hs.of_tables rfl rfl rfl)
  refine hPiece.mono ?_
  rintro _ s' ⟨code, h, hP⟩
  have hCode : s'.segment = code := h.segment
  rw [hCode]
  exact ⟨⟨h.sound, h.vregs, h.constants, h.immediates, h.defined⟩, hP⟩

/-- The nodes are covered from the last to the first, and their code goes in front. -/
theorem coverNodes_effects {l : List NodeId} {last : List Instr} (hs : s.Sound) (hNodup : l.Nodup)
    (hFresh : ∀ x ∈ l, site.graph.isEffectful x = true → x ∉ s.defined) :
    Ensures site s (coverNodes b l last) fun all s' =>
      ∃ front, all = front ++ last ∧
        Grown s s' (fun x => site.graph.isEffectful x = true → x ∈ l) ∧
        Answers site.graph s' l.reverse front := by
  refine (ensures_coverNodes (I := fun rest all t => ∃ done front, l = done ++ rest ∧
    all = front ++ last ∧ Grown s t (fun x => site.graph.isEffectful x = true → x ∈ done) ∧
      Answers site.graph t done.reverse front)
    ⟨[], [], rfl, rfl, .refl hs, .nil⟩ ?_ ?_).mono ?_
  · rintro x rest _ t ⟨done, front, rfl, rfl, hGrown, hFront⟩ _ _
    refine (segmentOf_effects hGrown.sound fun s₀ hs₀ =>
      (coverNode_effects hs₀ : Ensures (site.at b x) s₀ (coverNode x) _)).mono ?_
    rintro code t' ⟨h₁, hCode⟩
    refine ⟨done ++ [x], code ++ front, by simp, by simp, .trans (hGrown.mono ?_) (h₁.mono ?_), ?_⟩
    · intro y hy hEffect
      exact List.mem_append_left _ (hy hEffect)
    · intro y hy hEffect
      exact List.mem_append_right _ (List.mem_singleton.mpr (hy hEffect))
    · rw [List.reverse_append]
      exact hCode.append (hFront.mono h₁)
  · rintro x rest _ t ⟨done, front, rfl, rfl, hGrown, hFront⟩ hIdle
    -- What is skipped is no effect: an effect is not pure, and it is not computed yet.
    have hPlain : site.graph.isEffectful x = false := by
      rw [← Bool.not_eq_true]
      intro hEffect
      rcases hIdle with ⟨op, hOp, hPure, -⟩ | hDefined
      · rw [Graph.isEffectful_of_op hOp] at hEffect
        unfold Operator.isEffectful at hEffect
        split at hEffect <;> first | cases hPure | cases hEffect
      · rcases hGrown.defined x hDefined with hOld | hNew
        · exact hFresh x (by simp) hEffect hOld
        · exact (List.nodup_append.mp hNodup).2.2 x (hNew hEffect) x List.mem_cons_self rfl
    refine ⟨done ++ [x], front, by simp, rfl, hGrown.mono fun y hy hEffect => ?_, ?_⟩
    · exact List.mem_append_left _ (hy hEffect)
    · have hNothing : Answers site.graph t [x] [] := .nothing (by simpa using hPlain) (by simp)
      rw [List.reverse_append]
      exact hNothing.append hFront
  · rintro all s' ⟨done, front, hl, rfl, hGrown, hFront⟩
    rw [List.append_nil] at hl
    exact ⟨front, rfl, hl ▸ hGrown, hl ▸ hFront⟩

/-- The effects in the code of a block are those of its nodes. -/
theorem coverBlock_effects {block : Block} (hs : s.Sound) (hNodup : block.nodes.Nodup)
    (hFresh : ∀ x ∈ block.nodes, site.graph.isEffectful x = true → x ∉ s.defined) :
    Ensures site s (coverBlock b block) fun c s' =>
      Grown s s' (fun x => site.graph.isEffectful x = true → x ∈ block.nodes) ∧
        Answers site.graph s' block.nodes c.code := by
  unfold coverBlock
  simp only [ensures_bind, ensures_modify, ensures_get, ensures_pure]
  have hEmpty : State.Sound { s with phis := [] } := hs.of_tables rfl rfl rfl
  -- The end of a block has no effect, and is covered first.
  have hControl : Calm (site.at b (block.control.getD (-1))) [] (coverControl b block) :=
    coverControl_calm b block
  refine (segmentOf_effects hEmpty fun s₀ hs₀ => hControl.adds hs₀).mono ?_
  rintro last s₁ ⟨h₁, hLast⟩
  refine (coverNodes_effects h₁.sound (List.nodup_reverse.mpr hNodup) ?_).mono ?_
  · intro x hx hEffect hMem
    rcases h₁.defined x hMem with hOld | hPlain
    · exact hFresh x (List.mem_reverse.mp hx) hEffect hOld
    · exact Bool.false_ne_true (hPlain.symm.trans hEffect)
  · rintro all s₂ ⟨front, rfl, h₂, hFront⟩
    rw [List.reverse_reverse] at hFront
    have hNothing : Answers site.graph s₂ [] last :=
      .nothing (by simp) fun i hi => (hLast i hi).1
    refine ⟨.trans ?_ (h₂.mono fun x hx hEffect => List.mem_reverse.mp (hx hEffect)), ?_⟩
    · refine Grown.mono ⟨h₁.sound, h₁.vregs, h₁.constants, h₁.immediates, h₁.defined⟩ ?_
      intro x hPlain hEffect
      exact absurd (hPlain.symm.trans hEffect) Bool.false_ne_true
    · have hBoth := hFront.append hNothing
      rw [List.append_nil] at hBoth
      exact hBoth

/-- The effects of every block are those of its nodes when all are covered. -/
theorem coverBlocks_effects {l : List (Block × Nat)} (hs : s.Sound)
    (hNodup : ∀ p ∈ l, p.1.nodes.Nodup)
    (hApart : l.Pairwise fun p q => ∀ x ∈ p.1.nodes, x ∉ q.1.nodes)
    (hFresh : ∀ p ∈ l, ∀ x ∈ p.1.nodes, site.graph.isEffectful x = true → x ∉ s.defined) :
    Ensures site s (coverBlocks l.reverse []) fun all s' =>
      s'.Sound ∧ List.Forall₂ (fun (c : Covered) p => Answers site.graph s' p.1.nodes c.code) all
        l := by
  -- no effect of a block that is left is defined while others are covered
  have hStart : l.reverse.Pairwise (fun p q => ∀ x ∈ p.1.nodes, x ∉ q.1.nodes) := by
    rw [List.pairwise_reverse]
    exact hApart.imp fun hApart x hx hx' => hApart x hx' hx
  refine (ensures_coverBlocks_each (I := fun rest _ t => t.Sound ∧
    rest.Pairwise (fun p q => ∀ x ∈ p.1.nodes, x ∉ q.1.nodes) ∧ ∀ p ∈ rest, p.1.nodes.Nodup ∧
      ∀ x ∈ p.1.nodes, site.graph.isEffectful x = true → x ∉ t.defined)
    (P := fun c p t => Answers site.graph t p.1.nodes c.code)
    ⟨hs, hStart, fun p hp => ?_⟩ ?_).mono fun _ _ h => ⟨h.1.1, h.2⟩
  · exact ⟨hNodup p (List.mem_reverse.mp hp), hFresh p (List.mem_reverse.mp hp)⟩
  · rintro block b rest done t ⟨ht, hPairs, hRest⟩
    obtain ⟨hHere, hPairs⟩ := List.pairwise_cons.mp hPairs
    obtain ⟨hNodup, hFresh⟩ := hRest _ List.mem_cons_self
    refine (coverBlock_effects ht hNodup hFresh).mono ?_
    rintro c t' ⟨h₁, hc⟩
    refine ⟨⟨h₁.sound, hPairs, fun q hq => ?_⟩, hc, fun _ _ hOld => hOld.mono h₁⟩
    obtain ⟨hNodup, hFresh⟩ := hRest q (List.mem_cons_of_mem _ hq)
    refine ⟨hNodup, fun x hx hEffect hMem => ?_⟩
    rcases h₁.defined x hMem with hOld | hNew
    · exact hFresh x hx hEffect hOld
    · exact hHere q hq x (hNew hEffect) hx

/-- Parameters come in without code, and none is computed. -/
theorem assignParameters_grown {l : List (NodeId × Node)} (linkage : Linkage) (hs : s.Sound) :
    Ensures site s (assignParameters linkage l) fun _ s' => Grown s s' Nothing := by
  refine ensures_assignParameters (I := fun t => Grown s t Nothing) linkage (.refl hs) ?_
  intro p _ t location ht
  refine (vreg_advances Nothing ht.sound).mono ?_
  rintro v s₁ ⟨h₁, -⟩
  -- The place is noted in a table that no law of growth speaks of.
  have hGrown := ht.trans h₁.toGrown
  exact ⟨hGrown.sound.of_tables rfl rfl rfl, hGrown.vregs, hGrown.constants, hGrown.immediates,
    hGrown.defined⟩

/-- The effects of a whole walk over a computed schedule. -/
theorem coverAll_effects (hCompute : Schedule.compute site.graph = .ok site.schedule) :
    Ensures site {} coverAll fun covered s =>
      s.Sound ∧ List.Forall₂ (fun (c : Covered) p => Answers site.graph s p.1.nodes c.code) covered
        site.schedule.blocks.toList.zipIdx := by
  have hListed : ∀ p ∈ site.schedule.blocks.toList.zipIdx,
      Schedule.Listed site.graph site.schedule p.2 p.1 := by
    rintro ⟨block, b⟩ hp
    have hAt := List.mem_zipIdx_iff_getElem?.mp hp
    rw [Array.getElem?_toList] at hAt
    exact Schedule.compute_listed hCompute hAt
  -- A node is placed in one block, so no two blocks list it.
  have hApart : site.schedule.blocks.toList.zipIdx.Pairwise
      fun p q => ∀ x ∈ p.1.nodes, x ∉ q.1.nodes := by
    have hNumbers : site.schedule.blocks.toList.zipIdx.Pairwise fun p q => p.2 ≠ q.2 := by
      have hNodup : (site.schedule.blocks.toList.zipIdx.map Prod.snd).Nodup := by
        rw [List.zipIdx_map_snd]
        exact List.nodup_range'
      exact List.pairwise_map.mp hNodup
    refine hNumbers.imp_of_mem ?_
    intro p q hp hq hNe x hx hx'
    exact hNe (Option.some.inj (((hListed p hp).home x hx).symm.trans ((hListed q hq).home x hx')))
  unfold coverAll
  simp only [ensures_bind, ensures_read]
  refine (assignParameters_grown {} .empty).mono ?_
  intro _ s₁ h₁
  refine coverBlocks_effects h₁.sound (fun p hp => (hListed p hp).nodup) hApart ?_
  intro p _ x _ hEffect hMem
  rcases h₁.defined x hMem with hOld | hNone
  · cases hOld
  · exact hNone

end Selection

open Selection

/-! ## Streams -/

/-- Whether a table gives every node a register of its own, which stands for no constant. -/
structure Assigns (regs : List (NodeId × Nat)) (stream : Stream) : Prop where
  node : ∀ {x y r}, (x, r) ∈ regs → (y, r) ∈ regs → x = y
  register : ∀ {x r q}, (x, r) ∈ regs → (x, q) ∈ regs → r = q
  apart : ∀ {x r}, (x, r) ∈ regs → stream.constant? (r : Nat) = none

/-- Whether the code of a block has the effects of the nodes of a scheduled block: as many, in the
same order, each as the instruction that its node is selected as, and behind that of its effect
input when this is an effect of the block. -/
structure KeepsEffects (g : Graph) (regs : List (NodeId × Nat)) (stream : Stream) (source : Block)
    (block : Stream.Block) : Prop where
  nodup : source.nodes.Nodup
  each : List.Forall₂ (Accesses g regs stream) (effectsOf g source.nodes)
    (effectsIn (block.code stream))
  order : ∀ {id x : NodeId} {n : Node} {k : Nat}, id ∈ effectsOf g source.nodes →
    x ∈ effectsOf g source.nodes → g.node? id = some n → n.inputs[k]? = some x →
    n.edgeKind k = .effect → ∃ (i j : Nat) (a c : Instr), i < j ∧
      (effectsOf g source.nodes)[i]? = some x ∧ (effectsIn (block.code stream))[i]? = some a ∧
      (effectsOf g source.nodes)[j]? = some id ∧ (effectsIn (block.code stream))[j]? = some c

/-- Neither heads nor joins are effects. -/
theorem Operator.kind_of_isEffectful {op : Operator} (h : op.isEffectful = true) :
    op.isHead = false ∧ op.isPhi = false := by
  cases op with
  | load | store | call => exact ⟨rfl, rfl⟩
  | _ => cases h

/-- An input that is an effect of the same block comes first. -/
theorem Schedule.Listed.effects_before {g : Graph} {s : Schedule} {b : Nat} {block : Block}
    {id x : NodeId} (h : Listed g s b block) (hId : id ∈ effectsOf g block.nodes)
    (hx : x ∈ effectsOf g block.nodes) (hInput : g.HasInput id x) :
    ∃ i j : Nat, i < j ∧ (effectsOf g block.nodes)[i]? = some x ∧
      (effectsOf g block.nodes)[j]? = some id := by
  -- A node with an effect starts no block and joins nothing, so its inputs come before it.
  have hKind : ∀ y, g.isEffectful y = true → ¬g.IsHead y ∧ ¬g.IsPhi y := by
    intro y hy
    obtain ⟨n, hn, hEffect⟩ := (Option.any_eq_true _ _).mp hy
    obtain ⟨hHead, hPhi⟩ := Operator.kind_of_isEffectful hEffect
    refine ⟨?_, ?_⟩
    · rintro ⟨m, hm, hIs⟩
      obtain rfl : n = m := Option.some.inj (hn.symm.trans hm)
      exact Bool.false_ne_true (hHead.symm.trans hIs)
    · rintro ⟨m, hm, hIs⟩
      obtain rfl : n = m := Option.some.inj (hn.symm.trans hm)
      exact Bool.false_ne_true (hPhi.symm.trans hIs)
  obtain ⟨hMem, hEffect⟩ := List.mem_filter.mp hId
  obtain ⟨hMemX, hEffectX⟩ := List.mem_filter.mp hx
  obtain ⟨front, rest, hSplit⟩ := List.append_of_mem hMem
  have hFront := h.before front id rest hSplit (hKind id hEffect).2 x hInput (h.home x hMemX)
    (hKind x hEffectX).1 (hKind x hEffectX).2
  obtain ⟨i, hi⟩ := List.mem_iff_getElem?.mp (List.mem_filter.mpr ⟨hFront, hEffectX⟩)
  have hLt := (List.getElem?_eq_some_iff.mp hi).1
  refine ⟨i, (effectsOf g front).length, hLt, ?_, ?_⟩
  · rw [hSplit, effectsOf, List.filter_append, List.getElem?_append_left hLt]
    exact hi
  · rw [hSplit, effectsOf, List.filter_append, List.getElem?_append_right (Nat.le_refl _),
      List.filter_cons, if_pos hEffect]
    simp

/-- Laying out code keeps the tables. -/
theorem Selection.grown_layout {s : State} (hSound : s.Sound) (covered : List Covered) :
    Grown s { s with stream := covered.foldl appendBlock s.stream } Nothing := by
  obtain ⟨-, -, -, hConstants, -⟩ := foldl_appendBlock covered s.stream
  have hExtends := foldl_appendBlock_extends covered s.stream
  -- laying out code enters no constant
  have hIs : ∀ r, State.IsConstant { s with stream := covered.foldl appendBlock s.stream } r →
      s.IsConstant r := by
    rintro r ⟨c, hc⟩
    exact ⟨c, hConstants ▸ hc⟩
  refine ⟨⟨?_, hSound.vreg_inj, hSound.vreg_fun, ?_, ?_⟩, List.Subset.refl _, ?_,
    hExtends.immediates, fun _ => Or.inl⟩
  · intro x r hx
    exact Nat.lt_of_lt_of_le (hSound.vreg_lt hx) hExtends.next_le
  · intro r hr
    obtain ⟨v, hv, hLt⟩ := hSound.constant_lt (hIs r hr)
    exact ⟨v, hv, Nat.lt_of_lt_of_le hLt hExtends.next_le⟩
  · intro x r hx hr
    exact hSound.apart hx (hIs r hr)
  · show s.stream.constants ⊆ (covered.foldl appendBlock s.stream).constants
    rw [hConstants]
    exact List.Subset.refl _

/-- Loads, stores and calls keep their order and number: the effects of every block of a stream
selected over a computed schedule are those of the nodes of the block. -/
theorem select_keeps_effects {g : Graph} {schedule : Schedule} {features : Features}
    {stream : Stream} (hCompute : Schedule.compute g = .ok schedule)
    (hSelect : select g schedule features = .ok stream) :
    stream.blocks.length = schedule.blocks.size ∧ ∃ regs, Assigns regs stream ∧
      ∀ (b : Nat) (block : Stream.Block) (source : Block), stream.blocks[b]? = some block →
        schedule.blocks[b]? = some source → KeepsEffects g regs stream source block := by
  unfold select at hSelect
  obtain ⟨⟨covered, s⟩, hCovered, hStream⟩ := bind_eq_ok.mp hSelect
  cases pure_eq_ok.mp hStream
  obtain ⟨_, _, hDraft, -⟩ := coverAll_drafts covered s hCovered
  have hEffects : Ensures { graph := g, schedule, features } {} coverAll _ :=
    coverAll_effects hCompute
  obtain ⟨hSound, hAll⟩ := hEffects covered s hCovered
  obtain ⟨added, hBlocks, -, hConstants, hAdded⟩ := foldl_appendBlock covered s.stream
  rw [hDraft.layout.2, List.nil_append] at hBlocks
  have hGrown := grown_layout hSound covered
  refine ⟨?_, s.vregs, ⟨hSound.vreg_inj, hSound.vreg_fun, ?_⟩, ?_⟩
  · rw [hBlocks, ← hAdded.length_eq, hAll.length_eq]
    simp
  · intro x r hx
    have hNot := hGrown.sound.apart hx
    rw [State.isConstant_iff] at hNot
    simpa using hNot
  · intro b block source hBlock hSource
    -- The block at a position has the code that was covered for the block of the schedule there.
    rw [hBlocks] at hBlock
    obtain ⟨hLt, hGet⟩ := List.getElem?_eq_some_iff.mp hBlock
    obtain ⟨hSize, hGetSource⟩ := Array.getElem?_eq_some_iff.mp hSource
    have hb : b < covered.length := hAdded.length_eq ▸ hLt
    have hCode := (hAdded.get hb hLt).2
    have hAnswers := hAll.get hb (by simpa using hSize)
    simp only [List.get_eq_getElem, List.getElem_zipIdx, Array.getElem_toList, hGet, hGetSource]
      at hCode hAnswers
    rw [← hCode] at hAnswers
    have hListed := Schedule.compute_listed hCompute hSource
    have hEach := Answers.mono hAnswers hGrown
    refine ⟨hListed.nodup, hEach, ?_⟩
    intro id x n k hId hx hn hInput _
    obtain ⟨i, j, hij, hi, hj⟩ :=
      hListed.effects_before hId hx ⟨n, hn, List.mem_of_getElem? hInput⟩
    have hLength := hEach.length_eq
    have hjLt := (List.getElem?_eq_some_iff.mp hj).1
    refine ⟨i, j, _, _, hij, hi, List.getElem?_eq_getElem (by omega), hj,
      List.getElem?_eq_getElem (by omega)⟩

/-- A function with a load that nothing uses, a call, a store with a barrier and a load whose value
is masked. -/
def publish : Graph where
  nodes := #[{ op := .start }, .parameter 0 .tagged, .int32 4,
    { Node.load .word16 1 2 0 0 with mach := .int32 }, .heap "make", .call 4 [1] 3 0,
    .store .tagged .full 1 2 5 5 0, .load .word32 1 2 6 0, .int32 255,
    .ofArity (.word32 .and) [7, 8], .ofArity .ret [9, 7, 0], .collect [10]]
  exit := some 11

theorem select_keeps_effects_publish :
    ∃ schedule stream, Schedule.compute publish = .ok schedule ∧
      select publish schedule ⟨0⟩ = .ok stream ∧
      stream.code.map Instr.op =
        [.nop, .ldrsh, .call, .storeWriteBarrier, .ldr, .and, .ret] ∧
      stream.blocks.length = schedule.blocks.size ∧ ∃ regs, Assigns regs stream ∧
        ∀ (b : Nat) (block : Stream.Block) (source : Block), stream.blocks[b]? = some block →
          schedule.blocks[b]? = some source → KeepsEffects publish regs stream source block := by
  have hOps : ((Schedule.compute publish).toOption.bind fun schedule =>
      (select publish schedule ⟨0⟩).toOption.map fun stream => stream.code.map Instr.op) =
      some [.nop, .ldrsh, .call, .storeWriteBarrier, .ldr, .and, .ret] := by
    decide +kernel
  obtain ⟨schedule, hSchedule, hOps⟩ := Option.bind_eq_some_iff.mp hOps
  obtain ⟨stream, hStream, hOps⟩ := Option.map_eq_some_iff.mp hOps
  have hCompute := toOption_eq_some.mp hSchedule
  have hSelect := toOption_eq_some.mp hStream
  exact ⟨schedule, stream, hCompute, hSelect, hOps, select_keeps_effects hCompute hSelect⟩

end ArmBackend
