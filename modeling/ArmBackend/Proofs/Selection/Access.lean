import ArmBackend.Proofs.Selection.Values
import ArmBackend.Selection.Access

/-!
# Covering memory and calls

What the rules for loads, stores and calls cover. A store computes no value; a load and a call
compute that of their node.
-/

namespace ArmBackend.Selection

variable {site : Site} {V : NodeId → Prop} {start s : State} {a : Account} {id w : NodeId}

theorem address_ensures (h : Progress site.graph V start a s) {base index : NodeId} (hw : V w)
    (hBase : site.graph.Feeds w base) (hIndex : site.graph.Feeds w index) (op : Opcode) :
    Ensures site s (address op base index) fun p s' =>
      Progress site.graph V start (a.read p.2) s' := by
  unfold address
  simp only [ensures_bind, ensures_read, ensures_lift]
  intro m _
  -- The index as an offset, then the base as one, then both in registers.
  split
  · simp only [ensures_bind, ensures_pure]
    refine (useAt_ensures h hw hBase .register).mono ?_
    intro x s₁ h₁
    refine (useImmediate_ensures h₁).mono ?_
    intro y s₂ h₂
    rw [Account.read_read] at h₂
    exact h₂
  · simp only [ensures_bind, ensures_lift]
    intro m _
    split
    · simp only [ensures_bind, ensures_pure]
      refine (useAt_ensures h hw hIndex .register).mono ?_
      intro x s₁ h₁
      refine (useImmediate_ensures h₁).mono ?_
      intro y s₂ h₂
      rw [Account.read_read] at h₂
      exact h₂
    · simp only [ensures_bind, ensures_pure]
      refine (useAt_ensures h hw hBase .register).mono ?_
      intro x s₁ h₁
      refine (useAt_ensures h₁ hw hIndex .register).mono ?_
      intro y s₂ h₂
      rw [Account.read_read] at h₂
      exact h₂

theorem coverLoad_ensures (hVerify : site.graph.verify = .ok ())
    (h : Progress site.graph V start {} s) (hV : V id) (hOwns : Owns site.graph id)
    (hOp : site.graph.HasOp id .load) :
    Ensures site s (coverLoad id) fun _ s' => Covers site.graph V start [id] s' := by
  unfold coverLoad
  simp only [ensures_bind, ensures_read, ensures_lift]
  intro n hn
  have hCount := Graph.valueCount_of_op hVerify hOp hn rfl
  split
  · exact (ensures_throw _ _).mpr trivial
  · simp only [ensures_bind, ensures_lift]
    intro base hBase index hIndex
    refine (address_ensures h hV (Graph.feeds_of_input hn hBase (by omega))
      (Graph.feeds_of_input hn hIndex (by omega)) _).mono ?_
    rintro ⟨mode, inputs⟩ s₁ h₁
    refine (define_ensures h₁ hOwns).mono ?_
    intro o s₂ h₂
    exact emit_covers h₂ _ rfl rfl rfl (by simp +contextual) rfl

theorem emitBarrier_ensures (h : Progress site.graph V start {} s) {base index value : NodeId}
    (hw : V w) (hBase : site.graph.Feeds w base) (hIndex : site.graph.Feeds w index)
    (hValue : site.graph.Feeds w value) :
    Ensures site s (emitBarrier base index value) fun _ s' =>
      Covers site.graph V start [] s' := by
  unfold emitBarrier
  simp only [ensures_bind]
  refine (useAt_ensures h hw hBase _).mono ?_
  intro x s₁ h₁
  refine (useAt_ensures h₁ hw hIndex _).mono ?_
  intro y s₂ h₂
  refine (useAt_ensures h₂ hw hValue _).mono ?_
  intro z s₃ h₃
  refine (tempAt_ensures h₃ _).mono ?_
  intro t s₄ h₄
  refine (tempAt_ensures h₄ _).mono ?_
  intro t' s₅ h₅
  exact emit_covers h₅ _ rfl rfl rfl (by simp) rfl

theorem coverStore_ensures (hVerify : site.graph.verify = .ok ())
    (h : Progress site.graph V start {} s) (hV : V id) (hOp : site.graph.HasOp id .store) :
    Ensures site s (coverStore id) fun _ s' => Covers site.graph V start [] s' := by
  unfold coverStore
  simp only [ensures_bind, ensures_read, ensures_lift]
  intro n hn base hBase index hIndex value hValue
  have hCount := Graph.valueCount_of_op hVerify hOp hn rfl
  have hBase := Graph.feeds_of_input hn hBase (by omega)
  have hIndex := Graph.feeds_of_input hn hIndex (by omega)
  have hValue := Graph.feeds_of_input hn hValue (by omega)
  -- tagged stores go through the write barrier, others through an address
  split
  · split
    · simp only [ensures_bind, ensures_throw]
    · exact emitBarrier_ensures h hV hBase hIndex hValue
  · split
    · exact (ensures_throw _ _).mpr trivial
    · simp only [ensures_bind]
      refine (address_ensures h hV hBase hIndex _).mono ?_
      rintro ⟨mode, inputs⟩ s₁ h₁
      refine (useAt_ensures h₁ hV hValue .register).mono ?_
      intro x s₂ h₂
      exact emit_covers h₂ _ rfl rfl rfl (by simp +contextual) rfl

theorem isDouble_ensures (id : NodeId) : Ensures site s (isDouble id) fun _ s' => s' = s := by
  unfold isDouble
  simp only [ensures_bind, ensures_read, ensures_lift, ensures_pure]
  exact fun _ _ => trivial

theorem useArguments_ensures {l : List NodeId} (hw : V w) (hl : ∀ x ∈ l, site.graph.Feeds w x)
    (linkage : Linkage) (h : Progress site.graph V start a s) :
    Ensures site s (useArguments linkage l) fun operands s' =>
      Progress site.graph V start (a.read operands) s' := by
  induction l generalizing linkage a s with
  | nil =>
    unfold useArguments
    refine (ensures_pure _ _).mpr (h.read ?_)
    intro o ho
    cases ho
  | cons x rest ih =>
    unfold useArguments
    simp only [ensures_bind, ensures_pure]
    refine (isDouble_ensures x).mono ?_
    rintro double _ rfl
    refine (useAt_ensures h hw (hl x List.mem_cons_self) _).mono ?_
    intro o s₁ h₁
    refine (ih (fun y hy => hl y (List.mem_cons_of_mem _ hy)) _ h₁).mono ?_
    intro operands s₂ h₂
    -- reading twice is reading the concatenation
    rw [Account.read_read] at h₂
    exact h₂

theorem coverCall_ensures (h : Progress site.graph V start {} s) (hV : V id)
    (hOwns : Owns site.graph id) :
    Ensures site s (coverCall id) fun _ s' => Covers site.graph V start [id] s' := by
  unfold coverCall
  simp only [ensures_bind, ensures_read, ensures_lift]
  intro n hn target hTarget op _
  split
  · simp only [ensures_bind, ensures_throw]
  · simp only [ensures_bind, ensures_lift]
    refine ensures_markUsed ?_
    by_cases hCount : 0 < n.valueCount
    · have hFeeds := Graph.feeds_of_input hn hTarget hCount
      refine (vreg_supplies (h.mark hV hFeeds) hV hFeeds List.mem_insert_self).mono ?_
      rintro v s₁ ⟨h₁, hSupplies⟩ values hValues
      split
      · exact (ensures_throw _ _).mpr trivial
      · next x arguments =>
        have hArguments : ∀ y ∈ arguments, site.graph.Feeds id y := by
          intro y hy
          refine ⟨n, Graph.node_eq_ok.mp hn, ?_⟩
          rw [← Node.valueInputs_eq_ok hValues]
          exact List.mem_cons_of_mem _ hy
        have hEntry := h₁.read (l := [.constant v]) (by
          intro o ho r hr
          rw [List.mem_singleton.mp ho] at hr
          cases hr
          exact hSupplies)
        simp only [ensures_bind]
        refine (useArguments_ensures hV hArguments {} hEntry).mono ?_
        intro inputs s₂ h₂
        refine (defineAt_ensures h₂ hOwns _).mono ?_
        intro o s₃ h₃
        exact emit_covers h₃ _ rfl rfl rfl (by simp +contextual) rfl
    · -- Without value inputs there is no target and the call is turned down.
      intro v s₁ _ values hValues
      have hNil : values = [] := by
        rw [Node.valueInputs_eq_ok hValues, Node.values, Int.toNat_of_nonpos (by omega)]
        rfl
      rw [hNil]
      exact (ensures_throw _ _).mpr trivial

end ArmBackend.Selection
