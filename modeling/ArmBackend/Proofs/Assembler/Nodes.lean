import ArmBackend.Proofs.Assembler.Flow

/-!
# Nodes of a program

Whatever an assembler refers to is a node of its graph, because it was returned by an earlier
operation or comes from the assembler itself: the graph under construction always verifies.

## Results

* `Grounded.step` — an operation keeps the graph closed and its nodes as their operators ask.
* `Grounded.verify` — the finished graph verifies.
-/

namespace ArmBackend

/-! ## Graphs that verify -/

/-- Whether every node has the inputs that its operator takes, and they are nodes. -/
structure Graph.Whole (g : Graph) : Prop where
  fits : ∀ n ∈ g.nodes.toList, n.fitsArity = true
  closed : ∀ n ∈ g.nodes.toList, ∀ x ∈ n.inputs, g.Knows x

theorem Graph.Whole.append {g : Graph} {ns : List Node} (h : g.Whole)
    (hNodes : ∀ n ∈ ns, n.fitsArity = true ∧ ∀ x ∈ n.inputs, (g.append ns).Knows x) :
    (g.append ns).Whole := by
  have hList : (g.append ns).nodes.toList = g.nodes.toList ++ ns := Array.toList_append
  refine ⟨fun n hn => ?_, fun n hn x hx => ?_⟩
  · rw [hList] at hn
    rcases List.mem_append.mp hn with hn | hn
    · exact h.fits n hn
    · exact (hNodes n hn).1
  · rw [hList] at hn
    rcases List.mem_append.mp hn with hn | hn
    · exact (h.closed n hn x hx).append
    · exact (hNodes n hn).2 x hx

theorem Graph.Whole.verify {g : Graph} (h : g.Whole) : g.verify = .ok () := by
  refine Graph.verify_of_closed (isClosed_iff.mpr fun n hn x hx => ?_) h.fits
  exact contains_iff.mpr (knows_iff.mp (h.closed n hn x hx))

namespace Assembler

variable {past : List Event} {a a' : Assembler} {op : Operation} {result : Option NodeId}
  {label : String} {b : Nat} {n : Node} {x head effect : NodeId} {hs ns : List Node}

/-! ## The graph -/

/-- What an assembler refers to. -/
inductive Mentions (a : Assembler) : NodeId → Prop
  | control : Mentions a a.control
  | effect : Mentions a a.effect
  | param {x : NodeId} (h : x ∈ a.params) : Mentions a x
  | returned {x : NodeId} (h : x ∈ a.returns) : Mentions a x
  | jumpControl {label : String} {j : Jump} (h : j ∈ (a.labels label).jumps) : Mentions a j.control
  | jumpEffect {label : String} {j : Jump} (h : j ∈ (a.labels label).jumps) : Mentions a j.effect
  | head {b : Nat} {x : NodeId} (h : a.schedule.headOf? b = some x) : Mentions a x
  | node {b : Nat} {x : NodeId} (h : x ∈ a.schedule.nodesOf b) : Mentions a x

/-- Whether the graph is as it should be, and has whatever is referred to. -/
structure Grounded (past : List Event) (a : Assembler) : Prop where
  whole : a.graph.Whole
  mentions : ∀ x, a.Mentions x → a.graph.Knows x
  returned : ∀ e ∈ past, ∀ x, e.result = some x → a.graph.Knows x

theorem Grounded.extend (h : Grounded past a) (hGraph : a'.graph = a.graph.append ns)
    (hNodes : ∀ n ∈ ns, n.fitsArity = true ∧ ∀ x ∈ n.inputs, (a.graph.append ns).Knows x)
    (hMentions : ∀ x, a'.Mentions x → a.Mentions x ∨ (a.graph.append ns).Knows x) :
    Grounded past a' := by
  refine { whole := hGraph ▸ h.whole.append hNodes, mentions := fun x hx => ?_,
           returned := fun e he x hx => hGraph ▸ (h.returned e he x hx).append }
  rw [hGraph]
  rcases hMentions x hx with hOld | hNew
  · exact (h.mentions x hOld).append
  · exact hNew

theorem Grounded.placed (h : Grounded past a) (hb : b < a.schedule.blocks.size)
    (hFits : n.fitsArity = true) (hInputs : ∀ x ∈ n.inputs, a.graph.Knows x) :
    Grounded past (a.placed b n) := by
  have hNew : (a.graph.append [n]).Knows a.graph.size := ⟨n, a.graph.node?_push n⟩
  -- The new node is the only thing that was not referred to before.
  refine h.extend rfl (fun m hm => ?_) fun x hx => ?_
  · rw [List.mem_singleton.mp hm]
    exact ⟨hFits, fun x hx => (hInputs x hx).append⟩
  · cases hx with
    | control => exact .inl .control
    | effect => exact .inl .effect
    | param hx => exact .inl (.param hx)
    | returned hx => exact .inl (.returned hx)
    | jumpControl hj => exact .inl (.jumpControl hj)
    | jumpEffect hj => exact .inl (.jumpEffect hj)
    | head hx => exact .inl (.head (Schedule.headOf?_append.symm.trans hx))
    | @node c _ hx =>
      have hNodes : (a.placed b n).schedule.nodesOf c =
          if c = b then a.schedule.nodesOf c ++ [(a.graph.size : Int)]
          else a.schedule.nodesOf c := Schedule.nodesOf_append hb
      rw [hNodes] at hx
      split at hx
      · rcases List.mem_append.mp hx with hx | hx
        · exact .inl (.node hx)
        · exact .inr (List.mem_singleton.mp hx ▸ hNew)
      · exact .inl (.node hx)

theorem Grounded.withEffect (h : Grounded past a) (hEffect : a.graph.Knows effect) :
    Grounded past { a with effect } := by
  refine { h with mentions := fun x hx => ?_ }
  cases hx with
  | control => exact h.mentions _ .control
  | effect => exact hEffect
  | param hx => exact h.mentions _ (.param hx)
  | returned hx => exact h.mentions _ (.returned hx)
  | jumpControl hj => exact h.mentions _ (.jumpControl hj)
  | jumpEffect hj => exact h.mentions _ (.jumpEffect hj)
  | head hx => exact h.mentions _ (.head hx)
  | node hx => exact h.mentions _ (.node hx)

theorem Grounded.withParam (h : Grounded past a) (hx : a.graph.Knows x) :
    Grounded past { a with params := a.params ++ [x] } := by
  refine { h with mentions := fun y hy => ?_ }
  cases hy with
  | control => exact h.mentions _ .control
  | effect => exact h.mentions _ .effect
  | param hy =>
    rcases List.mem_append.mp hy with hy | hy
    · exact h.mentions _ (.param hy)
    · exact List.mem_singleton.mp hy ▸ hx
  | returned hy => exact h.mentions _ (.returned hy)
  | jumpControl hj => exact h.mentions _ (.jumpControl hj)
  | jumpEffect hj => exact h.mentions _ (.jumpEffect hj)
  | head hy => exact h.mentions _ (.head hy)
  | node hy => exact h.mentions _ (.node hy)

theorem Grounded.chained (h : Grounded past a) (hb : b < a.schedule.blocks.size)
    (hFits : n.fitsArity = true) (hInputs : ∀ x ∈ n.inputs, a.graph.Knows x) :
    Grounded past (a.chained b n) :=
  (h.placed hb hFits hInputs).withEffect ⟨n, a.graph.node?_push n⟩

theorem Grounded.leave {kind : BlockKind} {control : Option NodeId} {js : List (String × Jump)}
    {rs : List NodeId} (h : Grounded past a)
    (hNodes : ∀ n ∈ ns, n.fitsArity = true ∧ ∀ x ∈ n.inputs, (a.graph.append ns).Knows x)
    (hJumps : ∀ p ∈ js, p.2.effect = a.effect ∧
      (p.2.control = a.control ∨ (a.graph.append ns).Knows p.2.control))
    (hReturns : ∀ x ∈ rs, (a.graph.append ns).Knows x) :
    Grounded past (a.left b kind control ns js rs) := by
  have hMem : ∀ {name j}, j ∈ ((a.left b kind control ns js rs).labels name).jumps →
      j ∈ (a.labels name).jumps ∨ ∃ p ∈ js, p.2 = j := by
    intro name j hj
    rw [show ((a.left b kind control ns js rs).labels name).jumps = _ from
      congrArg Label.jumps (foldl_recorded a.labels js name)] at hj
    refine (List.mem_append.mp hj).imp_right fun hj => ?_
    obtain ⟨p, hp, hIs⟩ := List.mem_map.mp hj
    exact ⟨p, List.mem_of_mem_filter hp, hIs⟩
  -- What is new are the controls of the jumps and the returns.
  refine h.extend rfl hNodes fun x hx => ?_
  cases hx with
  | control => exact .inl .control
  | effect => exact .inl .effect
  | param hx => exact .inl (.param hx)
  | returned hx =>
    rcases List.mem_append.mp hx with hx | hx
    · exact .inl (.returned hx)
    · exact .inr (hReturns x hx)
  | jumpControl hj =>
    rcases hMem hj with hj | ⟨p, hp, rfl⟩
    · exact .inl (.jumpControl hj)
    · rcases (hJumps p hp).2 with hIs | hKnows
      · exact .inl (hIs ▸ .control)
      · exact .inr hKnows
  | jumpEffect hj =>
    rcases hMem hj with hj | ⟨p, hp, rfl⟩
    · exact .inl (.jumpEffect hj)
    · exact .inl ((hJumps p hp).1 ▸ .effect)
  | head hx => exact .inl (.head (Schedule.headOf?_ended.symm.trans hx))
  | node hx => exact .inl (.node (Schedule.nodesOf_ended ▸ hx))

/-- The head of a new block is a node, and a merge has the controls of the jumps for inputs. -/
theorem Grounded.heads {jumps : List Jump} (h : Grounded past a)
    (hJumps : (a.labels label).jumps = jumps) (hHead : Heads a jumps hs head) :
    (a.graph.append hs).Knows head ∧
      ∀ n ∈ hs, n.fitsArity = true ∧ ∀ x ∈ n.inputs, (a.graph.append hs).Knows x := by
  subst hJumps
  generalize hl : (a.labels label).jumps = jumps at hHead
  cases hHead with
  | shared =>
    have hMem : _ ∈ (a.labels label).jumps := hl ▸ List.mem_singleton_self _
    exact ⟨(h.mentions _ (.jumpControl hMem)).append, by simp⟩
  | merge =>
    refine ⟨⟨_, a.graph.node?_push _⟩, fun n hn => ?_⟩
    rw [List.mem_singleton.mp hn]
    refine ⟨rfl, fun x hx => ?_⟩
    obtain ⟨j, hj, rfl⟩ := List.mem_map.mp hx
    exact (h.mentions _ (.jumpControl (hl ▸ hj))).append

theorem Grounded.enter {first : Jump} {rest : List Jump} (h : Grounded past a)
    (hJumps : (a.labels label).jumps = first :: rest) (hHead : Heads a (first :: rest) hs head) :
    Grounded past ((a.grown hs).entered label head first.effect) := by
  obtain ⟨hKnows, hNodes⟩ := h.heads hJumps hHead
  have hGraph : ((a.grown hs).entered label head first.effect).graph = a.graph.append hs := rfl
  refine h.extend hGraph hNodes fun x hx => ?_
  -- The block is entered with an effect that a jump brought along, so only its head is new.
  cases hx with
  | control => exact .inr hKnows
  | effect => exact .inl (.jumpEffect (hJumps ▸ List.mem_cons_self))
  | param hx => exact .inl (.param hx)
  | returned hx => exact .inl (.returned hx)
  | jumpControl hj => exact .inl (.jumpControl (entered_jumps (a.grown hs) .. ▸ hj))
  | jumpEffect hj => exact .inl (.jumpEffect (entered_jumps (a.grown hs) .. ▸ hj))
  | @head c _ hx =>
    have hOf : ((a.grown hs).entered label head first.effect).schedule.headOf? c =
        if c = a.schedule.blocks.size then some head else a.schedule.headOf? c :=
      Schedule.headOf?_opened
    rw [hOf] at hx
    split at hx
    · cases hx
      exact .inr hKnows
    · exact .inl (.head hx)
  | node hx => exact .inl (.node (Schedule.nodesOf_opened (s := a.schedule) ▸ hx))

/-- What an operation returns is a node. -/
theorem Grounded.cons (h : Grounded past a') (hResult : ∀ x, result = some x → a'.graph.Knows x) :
    Grounded (⟨op, result, a, a'⟩ :: past) a' := by
  refine { h with returned := fun e he x hx => ?_ }
  rcases List.mem_cons.mp he with rfl | he
  · exact hResult x hx
  · exact h.returned e he x hx

/-- An operation keeps the graph as it should be. -/
theorem Grounded.step (h : Grounded past a) (hFlow : Flow past a)
    (hArguments : ∀ x ∈ op.arguments, ∃ e ∈ past, e.result = some x)
    (hStep : Step a op result a') : Grounded (⟨op, result, a, a'⟩ :: past) a' := by
  have hKnown : ∀ x ∈ op.arguments, a.graph.Knows x := by
    intro x hx
    obtain ⟨e, he, hIs⟩ := hArguments x hx
    exact h.returned e he x hIs
  -- A node that may be added has inputs of these four kinds only.
  have hSuited : ∀ {b n}, Suits a op b n → ∀ x ∈ n.inputs, a.graph.Knows x := by
    intro b n hSuits x hx
    rcases hSuits.inputs x hx with hx | rfl | rfl | hx
    · exact hKnown x hx
    · exact h.mentions _ .effect
    · exact h.mentions _ .control
    · exact h.mentions _ (.head hx)
  cases hStep with
  | look hParam =>
    refine h.cons ?_
    rintro x ⟨⟩
    exact h.mentions _ (.param hParam)
  | place hAdds hOpen hSuits =>
    refine (h.placed (hFlow.open_lt hOpen) hSuits.fits (hSuited hSuits)).cons ?_
    rintro x ⟨⟩
    exact ⟨_, a.graph.node?_push _⟩
  | chain hAdds hOpen hSuits =>
    refine (h.chained (hFlow.open_lt hOpen) hSuits.fits (hSuited hSuits)).cons ?_
    rintro x ⟨⟩
    exact ⟨_, a.graph.node?_push _⟩
  | leave hCloses hOpen hNodes hTargets hJumps hReturns =>
    refine (h.leave (fun n hn => ⟨(hNodes n hn).1, fun x hx => ?_⟩) (fun p hp => (hJumps p hp).2)
      hReturns).cons nofun
    rcases (hNodes n hn).2 x hx with hx | rfl | rfl | hx
    · exact (hKnown x hx).append
    · exact (h.mentions _ .effect).append
    · exact (h.mentions _ .control).append
    · exact hx
  | enter hJumps hHead => exact (h.enter hJumps hHead).cons nofun
  | @join label first rest hs head hJumps hHead =>
    have hEnter := h.enter hJumps hHead
    refine (hEnter.chained ?_ rfl fun x hx => ?_).cons nofun
    · have hSize : ((a.grown hs).entered label head first.effect).schedule.blocks.size =
          a.schedule.blocks.size + 1 := Schedule.size_opened
      omega
    · rcases List.mem_append.mp hx with hx | hx
      · obtain ⟨j, hj, rfl⟩ := List.mem_map.mp hx
        exact (h.mentions _ (.jumpEffect (hJumps ▸ hj))).append
      · rw [List.mem_singleton.mp hx]
        exact hEnter.mentions _ .control

/-! ## The exit -/

/-- The finished graph has one more node, the exit. -/
theorem setExit_eq (g : Graph) (returns : List NodeId) : (g.setExit returns).1 =
    { g.append [.collect returns] with exit := some (g.size : Int) } := by
  unfold Graph.setExit
  rw [g.push_eq]

/-- The graph of a program verifies when its returns are collected. -/
theorem Grounded.verify (h : Grounded past a) : (a.graph.setExit a.returns).1.verify = .ok () := by
  have hWhole : (a.graph.append [.collect a.returns]).Whole := by
    refine h.whole.append fun n hn => ?_
    rw [List.mem_singleton.mp hn]
    exact ⟨rfl, fun x hx => (h.mentions x (.returned hx)).append⟩
  rw [setExit_eq]
  exact Graph.Whole.verify ⟨hWhole.fits, hWhole.closed⟩

end Assembler
end ArmBackend
