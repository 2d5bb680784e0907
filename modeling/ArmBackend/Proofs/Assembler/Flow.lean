import ArmBackend.Proofs.Assembler.Steps

/-!
# Control flow of a program

The schedule under construction has the blocks that the program created, in the order of their
creation, and a block is entered from those that were current at the jumps to its label. The current
block is the last one, and nothing has jumped from it yet. So every edge goes from a block to one
that was created later.

## Results

* `Flow.step` — an operation keeps the blocks and the jumps in step with the program.
* `Flow.forward`, `Flow.entered` — edges lead to later blocks, and to every block but the first.
-/

namespace ArmBackend.Assembler

variable {past : List Event} {a a' : Assembler} {op : Operation} {result : Option NodeId}
  {label : String} {b : Nat} {n : Node}

/-! ## What a program has done so far -/

/-- Whether an operation opens a block. -/
def Operation.opens : Operation → Bool
  | .bind _ => true
  | _ => false

theorem created_cons (h : op.opens = false) (result : Option NodeId) (a a' : Assembler) :
    created (⟨op, result, a, a'⟩ :: past) = created past := by
  cases op <;> first | rfl | cases h

theorem departures_cons (h : op.targets = []) (label : String) (result : Option NodeId)
    (a a' : Assembler) :
    departures label (⟨op, result, a, a'⟩ :: past) = departures label past := by
  unfold departures
  dsimp only
  rw [h, List.filter_nil, List.flatMap_nil, List.append_nil]
  cases past <;> rfl

theorem Operation.of_adds (h : op.adds = true) : op.opens = false ∧ op.targets = [] := by
  cases op <;> first | exact ⟨rfl, rfl⟩ | cases h

theorem Operation.of_closes (h : op.closes = true) : op.opens = false ∧ op.adds = false := by
  cases op <;> first | exact ⟨rfl, rfl⟩ | cases h

theorem foldl_recorded (labels : String → Label) (js : List (String × Jump)) (name : String) :
    js.foldl (fun labels p => recorded labels p.1 p.2) labels name =
      { labels name with
        jumps := (labels name).jumps ++ (js.filter (·.1 = name)).map Prod.snd } := by
  induction js generalizing labels with
  | nil => simp
  | cons p js ih =>
    rw [List.foldl_cons, ih, recorded, List.filter_cons]
    by_cases hName : name = p.1
    · subst hName
      simp
    · simp [hName, Ne.symm hName]

/-! ## The blocks of a program -/

/-- The blocks under construction and the jumps are those of the program. -/
structure Flow (past : List Event) (a : Assembler) : Prop where
  size : a.schedule.blocks.size = (created past).length
  blocks : ∀ (b : Nat) (c : Created), (created past)[b]? = some c →
    a.schedule.headOf? b = some c.head ∧ a.schedule.predecessors b = c.arrivals
  unordered : a.schedule.Unordered
  current : ∀ b, a.current = some b → b + 1 = a.schedule.blocks.size
  -- a label remembers the blocks that left for it
  jumps : ∀ label, (a.labels label).jumps.map Jump.block = departures label past
  left : ∀ label, ∀ j ∈ (a.labels label).jumps,
    j.block < a.schedule.blocks.size ∧ a.current ≠ some j.block
  -- a block is linked when its label is bound, so earlier blocks only enter it
  earlier : ∀ b, ∀ p ∈ a.schedule.predecessors b, p < b
  entered : ∀ b, 0 < b → b < a.schedule.blocks.size → a.schedule.predecessors b ≠ []

theorem Flow.open_lt (h : Flow past a) (hOpen : a.current = some b) :
    b < a.schedule.blocks.size :=
  Nat.lt_of_succ_le (h.current b hOpen).le

/-- Edges under construction lead to later blocks. -/
theorem Flow.forward (h : Flow past a) : a.schedule.Forward := by
  intro b
  refine ⟨fun x hx => ?_, h.earlier b⟩
  exact h.earlier x b ((h.unordered.edges.consistent b x).mp hx)

/-- Nothing of this depends on the nodes of the blocks. -/
theorem Flow.placed (h : Flow past a) : Flow past (a.placed b n) := by
  have hSize : (a.placed b n).schedule.blocks.size = a.schedule.blocks.size :=
    Schedule.size_append
  have hPred : ∀ x, (a.placed b n).schedule.predecessors x = a.schedule.predecessors x :=
    fun x => Schedule.predecessors_append
  refine { size := hSize.trans h.size, blocks := fun x c hc => ?_,
           unordered := h.unordered.append, current := fun x hx => ?_, jumps := h.jumps,
           left := fun label j hj => ?_, earlier := fun x p hp => ?_,
           entered := fun x h0 hx => ?_ }
  · have hHead : (a.placed b n).schedule.headOf? x = a.schedule.headOf? x := Schedule.headOf?_append
    rw [hHead, hPred]
    exact h.blocks x c hc
  · rw [hSize]
    exact h.current x hx
  · rw [hSize]
    exact h.left label j hj
  · rw [hPred] at hp
    exact h.earlier x p hp
  · rw [hPred]
    exact h.entered x h0 (hSize ▸ hx)

theorem Flow.withEffect (h : Flow past a) (effect : NodeId) : Flow past { a with effect } :=
  ⟨h.size, h.blocks, h.unordered, h.current, h.jumps, h.left, h.earlier, h.entered⟩

theorem Flow.withParams (h : Flow past a) (params : List NodeId) : Flow past { a with params } :=
  ⟨h.size, h.blocks, h.unordered, h.current, h.jumps, h.left, h.earlier, h.entered⟩

theorem Flow.chained (h : Flow past a) : Flow past (a.chained b n) :=
  h.placed.withEffect _

/-- An operation that neither jumps nor opens a block is not seen in the flow. -/
theorem Flow.cons (h : Flow past a') (hOpens : op.opens = false) (hTargets : op.targets = []) :
    Flow (⟨op, result, a, a'⟩ :: past) a' := by
  have hCreated : created (⟨op, result, a, a'⟩ :: past) = created past := created_cons hOpens ..
  refine { h with size := ?_, blocks := ?_, jumps := fun label => ?_ }
  · rw [hCreated]
    exact h.size
  · rw [hCreated]
    exact h.blocks
  · rw [departures_cons hTargets]
    exact h.jumps label

/-- The jumps that close a block are recorded as departures from it. -/
theorem Flow.leave {kind : BlockKind} {control : Option NodeId} {ns : List Node}
    {js : List (String × Jump)} {rs : List NodeId} (h : Flow past a) (hCloses : op.closes = true)
    (hOpen : a.current = some b) (hTargets : js.map Prod.fst = op.targets)
    (hBlock : ∀ p ∈ js, p.2.block = b) :
    Flow (⟨op, result, a, a.left b kind control ns js rs⟩ :: past)
      (a.left b kind control ns js rs) := by
  have hCreated : created (⟨op, result, a, a.left b kind control ns js rs⟩ :: past) =
      created past := created_cons (Operation.of_closes hCloses).1 ..
  have hSize : (a.left b kind control ns js rs).schedule.blocks.size = a.schedule.blocks.size :=
    Schedule.size_ended
  have hPred : ∀ x, (a.left b kind control ns js rs).schedule.predecessors x =
      a.schedule.predecessors x := fun x => Schedule.predecessors_ended
  have hLabels : ∀ name, ((a.left b kind control ns js rs).labels name).jumps =
      (a.labels name).jumps ++ (js.filter (·.1 = name)).map Prod.snd := fun name =>
    congrArg Label.jumps (foldl_recorded a.labels js name)
  refine { size := ?_, blocks := fun x c hc => ?_, unordered := h.unordered.ended,
           current := ?_, jumps := fun label => ?_, left := fun label j hj => ?_,
           earlier := fun x p hp => ?_, entered := fun x h0 hx => ?_ }
  · rw [hCreated]
    exact hSize.trans h.size
  · rw [hCreated] at hc
    have hHead : (a.left b kind control ns js rs).schedule.headOf? x = a.schedule.headOf? x :=
      Schedule.headOf?_ended
    rw [hHead, hPred]
    exact h.blocks x c hc
  · rintro x ⟨⟩
  · -- Each of the new jumps comes from the block that was current.
    have hNew : ((js.filter (·.1 = label)).map Prod.snd).map Jump.block =
        (op.targets.filter (· = label)).flatMap fun _ => a.current.toList := by
      rw [← hTargets, hOpen, List.filter_map, List.flatMap_map, List.map_map]
      show _ = (js.filter (·.1 = label)).flatMap fun _ => [b]
      rw [← List.map_eq_flatMap]
      exact List.map_congr_left fun p hp => hBlock p (List.mem_of_mem_filter hp)
    rw [hLabels, List.map_append, h.jumps label, hNew]
    rfl
  · -- No block is current now, so none of the jumps comes from the current one.
    refine ⟨?_, nofun⟩
    rw [hSize]
    rw [hLabels] at hj
    rcases List.mem_append.mp hj with hj | hj
    · exact (h.left label j hj).1
    · obtain ⟨p, hp, rfl⟩ := List.mem_map.mp hj
      rw [hBlock p (List.mem_of_mem_filter hp)]
      exact h.open_lt hOpen
  · rw [hPred] at hp
    exact h.earlier x p hp
  · rw [hPred]
    exact h.entered x h0 (hSize ▸ hx)

/-- The jumps of a label that is bound stay recorded. -/
theorem entered_jumps (a : Assembler) (label : String) (head effect : NodeId) (name : String) :
    ((a.entered label head effect).labels name).jumps = (a.labels name).jumps := by
  show (if name = label then _ else a.labels name : Label).jumps = _
  split
  · next hName => rw [hName]
  · rfl

/-- Opening the block of a label links it to the blocks that jumped there, which are all closed. -/
theorem Flow.enter {hs : List Node} {head effect : NodeId} {after : Assembler} (h : Flow past a)
    (hJumps : (a.labels label).jumps ≠ []) (hControl : after.control = head) :
    Flow (⟨.bind label, result, a, after⟩ :: past) ((a.grown hs).entered label head effect) := by
  have hArrivals := h.jumps label
  have hLt : ∀ p ∈ (a.labels label).jumps.map Jump.block, p < a.schedule.blocks.size := by
    intro p hp
    obtain ⟨j, hj, rfl⟩ := List.mem_map.mp hp
    exact (h.left label j hj).1
  have hSize : ((a.grown hs).entered label head effect).schedule.blocks.size =
      a.schedule.blocks.size + 1 := Schedule.size_opened
  have hPred : ∀ x, ((a.grown hs).entered label head effect).schedule.predecessors x =
      if x = a.schedule.blocks.size then (a.labels label).jumps.map Jump.block
      else a.schedule.predecessors x := fun x => Schedule.predecessors_opened
  have hCreated : created (⟨.bind label, result, a, after⟩ :: past) =
      created past ++ [⟨after.control, departures label past⟩] := rfl
  have hLabels := entered_jumps (a.grown hs) label head effect
  refine { size := ?_, blocks := fun x c hc => ?_, unordered := h.unordered.opened hLt,
           current := ?_, jumps := fun name => ?_, left := fun name j hj => ?_,
           earlier := fun x p hp => ?_, entered := fun x h0 hx => ?_ }
  · rw [hCreated, hSize, List.length_append, h.size]
    rfl
  · have hHead : ((a.grown hs).entered label head effect).schedule.headOf? x =
        if x = a.schedule.blocks.size then some head else a.schedule.headOf? x :=
      Schedule.headOf?_opened
    rw [hHead, hPred]
    rw [hCreated] at hc
    -- The block is either one of those before, or the new one.
    by_cases hx : x < (created past).length
    · rw [List.getElem?_append_left hx] at hc
      rw [if_neg (by rw [h.size]; omega), if_neg (by rw [h.size]; omega)]
      exact h.blocks x c hc
    · rw [List.getElem?_append_right (Nat.not_lt.mp hx), List.getElem?_singleton] at hc
      split at hc
      · next hZero =>
        cases hc
        rw [if_pos (by rw [h.size]; omega), if_pos (by rw [h.size]; omega)]
        exact ⟨congrArg some hControl.symm, hArrivals⟩
      · cases hc
  · rintro x ⟨⟩
    exact hSize.symm
  · rw [hLabels, departures_cons rfl]
    exact h.jumps name
  · rw [hLabels] at hj
    have hBlock := (h.left name j hj).1
    -- All jumps come from older blocks than the one that is current now.
    refine ⟨by omega, fun hSame => ?_⟩
    have hEq : a.schedule.blocks.size = j.block := Option.some.inj hSame
    omega
  · rw [hPred] at hp
    split at hp
    · next hx =>
      rw [hx]
      exact hLt p hp
    · exact h.earlier x p hp
  · rw [hPred]
    split
    · exact fun hNil => hJumps (List.map_eq_nil_iff.mp hNil)
    · next hx => exact h.entered x h0 (by omega)

/-- An operation keeps the blocks and the jumps in step with the program. -/
theorem Flow.step (h : Flow past a) (hStep : Step a op result a') :
    Flow (⟨op, result, a, a'⟩ :: past) a' := by
  cases hStep with
  | look => exact h.cons rfl rfl
  | place hAdds => exact h.placed.cons (Operation.of_adds hAdds).1 (Operation.of_adds hAdds).2
  | chain hAdds => exact h.chained.cons (Operation.of_adds hAdds).1 (Operation.of_adds hAdds).2
  | leave hCloses hOpen hNodes hTargets hJumps =>
    exact h.leave hCloses hOpen hTargets fun p hp => (hJumps p hp).1
  | enter hJumps =>
    exact h.enter (by rw [hJumps]; exact List.cons_ne_nil _ _) rfl
  | join hJumps =>
    refine (h.enter ?_ rfl).chained
    rw [hJumps]
    exact List.cons_ne_nil _ _

end ArmBackend.Assembler
