import ArmBackend.Proofs.Schedule.Computed
import ArmBackend.Proofs.Schedule.Placed
import ArmBackend.Proofs.Selection.Ssa

/-!
# What joins read

Selection walks the code from its end to its start, and leaves out a node with nothing but a value
unless something walked before has marked it. A join marks its inputs when the walk comes to it. An
input that stands in front of the join is walked later, so it is computed. An input that a back edge
brings stands behind the join, and was walked already: unless something else marked it, it was left
out, and the join reads a register that nothing writes (`select_drops_countingLoop`).

`Schedule.Ahead` says that the value of a node is still to come when the walk is at a place. Where
this holds of the inputs of all joins, nothing that a join reads is left out. Unlike the single
assignment form this asks nothing of the order of the blocks, which may be in a loop.

## Results

* `Pass.computed` — the value of a node that is marked in time is computed.
* `select_joins_written` — what a join reads stands for a constant or is written.
-/

namespace ArmBackend

namespace Schedule

/-- Whether the value of a node is still to come when the walk from the end of the code is at place
`i` of block `b`. A constant needs no code. A node that is listed is computed when the walk comes to
its place, if it has more than a value, stands in front, or is the join at the place itself. The end
of a region and a projection have the value of another node, which has to be ahead of them. -/
inductive Ahead (g : Graph) (s : Schedule) : Nat → Nat → NodeId → Prop
  | constant {b i : Nat} {u : NodeId} {op : Operator} (hOp : g.HasOp u op)
      (hConstant : op.isConstant = true) : Ahead g s b i u
  | listed {b i a j : Nat} {u : NodeId} {op : Operator} (hLists : s.Lists a j u)
      (hOp : g.HasOp u op) (hValue : op.hasValue = true)
      (hTime : op.isPure = false ∨ Precedes a j b i ∨ (a = b ∧ j = i ∧ op = .phi))
      (hPasses : op = .finish ∨ op = .projection → ∀ y, g.Feeds u y → Ahead g s a j y) :
      Ahead g s b i u

end Schedule

namespace Selection

variable {site : Site} {E : List Entry} {s : State} {e e' : Entry} {b i a j : Nat}
  {p u w x y : NodeId} {op : Operator}

/-! ## What an entry computes -/

/-- The four ways in which an entry may compute a node: the node stands at the place, it is the flag
of the operation there, it is fused, or it is arithmetic that is taken. -/
theorem Entry.Valid.defs_kinds (h : e.Valid site) (hx : x ∈ e.step.defs) :
    (x = e.node ∧ (∀ op, site.graph.HasOp x op → op ≠ .projection ∧ op ≠ .finish) ∧
      (CoversNode (site.at e.block e.node) e.node e.step e.before e.after ∨
        site.graph.HasOp x .phi)) ∨
    site.graph.Projects x 1 e.node ∨
    (∃ p ∈ e.step.taken, Fuses (site.at e.block e.node) p x) ∨
    ∃ op, site.graph.HasOp x (.word32 op) := by
  -- What is computed beside is the same for a node and for the end of a block.
  have hBeside : x ∈ e.step.extra → (∃ p ∈ e.step.taken, Fuses (site.at e.block e.node) p x) ∨
      ∃ op, site.graph.HasOp x (.word32 op) := by
    intro hExtra
    rcases h.consumes.defs.2 x hExtra with hFused | ⟨-, op, -, hOp⟩
    · exact .inl (h.consumes.fused x hFused).2
    · exact .inr ⟨op, hOp⟩
  rcases List.mem_append.mp hx with hExtra | hOwn
  · exact .inr (.inr (hBeside hExtra))
  · cases h with
    | skip _ _ _ hStep =>
      rw [hStep] at hOwn
      cases hOwn
    | node _ _ hCovers =>
      rcases hCovers.describes.own x hOwn with ⟨rfl, hOp⟩ | ⟨hFlag, -⟩
      · exact .inl ⟨rfl, hOp, .inl hCovers⟩
      · exact .inr (.inl hFlag)
    | phi _ hOp _ _ hStep =>
      rw [hStep] at hOwn
      obtain rfl := List.mem_singleton.mp hOwn
      refine .inl ⟨rfl, ?_, .inr hOp⟩
      intro op hIs
      obtain rfl := hOp.unique hIs
      exact ⟨nofun, nofun⟩
    | finish _ _ _ _ hCovers =>
      rw [hCovers.own] at hOwn
      cases hOwn

/-- The end of a region and projection 0 have the value of another node, and are not computed. -/
theorem Entry.Valid.not_alias (h : e.Valid site) (hx : x ∈ e.step.defs) :
    ¬site.graph.HasOp x .finish ∧ ∀ y, ¬site.graph.Projects x 0 y := by
  have hOps : ∀ op, site.graph.HasOp x op → (op = .finish → False) ∧
      (op = .projection → ∀ y, ¬site.graph.Projects x 0 y) := by
    intro op hOp
    -- what an entry defines is its node, a flag, a fused sum or a comparison, and none is an alias
    rcases h.defs_kinds hx with ⟨-, hNot, -⟩ | hFlag | ⟨p, -, hFuses⟩ | ⟨word, hWord⟩
    · exact ⟨(hNot op hOp).2, fun hIs => absurd hIs (hNot op hOp).1⟩
    · refine ⟨?_, fun _ y hZero => absurd (hFlag.int_unique hZero) (by decide)⟩
      rintro rfl
      obtain ⟨n, hn, hIs, -⟩ := hFlag
      cases hOp.unique ⟨n, hn, hIs⟩
    · obtain ⟨sum, hSum, hOverflow⟩ := hFuses.overflow
      obtain rfl := hOp.unique hSum
      constructor
      · rintro rfl
        cases hOverflow
      · rintro rfl
        cases hOverflow
    · obtain rfl := hOp.unique hWord
      exact ⟨nofun, nofun⟩
  refine ⟨fun hFinish => (hOps _ hFinish).1 rfl, ?_⟩
  intro y hZero
  obtain ⟨n, hn, hIs, -⟩ := id hZero
  exact (hOps _ ⟨n, hn, hIs⟩).2 rfl y hZero

/-! ## A walk over a computed schedule -/

/-- A walk, over blocks that end with branches or returns and list only nodes that are placed. -/
structure Pass (site : Site) (E : List Entry) (s : State) : Prop where
  given : Given site
  trace : Trace site E s
  walked : Walked site.schedule E 0 0
  ends : ∀ {b : Nat} {block : Block} {c : NodeId}, site.schedule.blocks[b]? = some block →
    block.control = some c → site.graph.IsEnd c
  home : ∀ {b i id}, site.schedule.At b i id → (site.schedule.blockOf id).isSome

namespace Pass

/-- A mark that an entry sets is there when the walk comes to an entry in front of it. -/
theorem marked (P : Pass site E s) (he : e ∈ E) (he' : e' ∈ E)
    (hOrder : Precedes e.block e.index e'.block e'.index) (hu : u ∈ e'.after.used) :
    u ∈ e.before.used := by
  obtain ⟨A, B, t, rfl, hTrace, hUsed, -, -⟩ := P.trace.upTo he
  have hSorted := P.walked.sorted
  rcases List.mem_append.mp he' with hA | hRest
  · have hBack := (List.pairwise_append.mp hSorted).2.2 e' hA e List.mem_cons_self
    unfold Precedes at hOrder hBack
    omega
  · rcases List.mem_cons.mp hRest with rfl | hB
    · unfold Precedes at hOrder
      omega
    · rw [hUsed]
      exact hTrace.used_mono hB hu

/-- At the place of a node that is needed it is covered, unless some entry has computed it. -/
theorem visited (P : Pass site E s) (he : e ∈ E)
    (hLists : site.schedule.Lists e.block e.index e.node)
    (hNeeded : (∃ op, site.graph.HasOp e.node op ∧ op.isPure = false) ∨ e.node ∈ e.before.used) :
    CoversNode (site.at e.block e.node) e.node e.step e.before e.after ∨
      ∃ e' ∈ E, e.node ∈ e'.step.defs := by
  -- A node that is passed over is pure and unused, or defined by another step.
  cases P.trace.valid he with
  | node _ _ hCovers => exact .inl hCovers
  | phi _ _ _ _ hStep =>
    refine .inr ⟨e, he, ?_⟩
    rw [hStep]
    exact List.mem_singleton_self _
  | finish block hBlock hIndex =>
    obtain ⟨block', hBlock', hNode⟩ := hLists
    obtain rfl : block = block' := Option.some.inj (hBlock.symm.trans hBlock')
    have hLt := (List.getElem?_eq_some_iff.mp hNode).1
    omega
  | skip _ _ _ _ _ _ hIdle =>
    right
    rcases hIdle with ⟨op, hOp, hPure, hNot⟩ | hDefined
    · rcases hNeeded with ⟨op', hOp', hImpure⟩ | hUsed
      · obtain rfl := hOp.unique hOp'
        rw [hPure] at hImpure
        cases hImpure
      · exact absurd hUsed hNot
    · obtain ⟨A, B, t, rfl, hTrace, -, hSame, -⟩ := P.trace.upTo he
      rw [hSame, hTrace.defined] at hDefined
      obtain ⟨e', hB, hDefs⟩ := hDefined
      exact ⟨e', List.mem_append_right _ (List.mem_cons_of_mem _ hB), hDefs⟩

/-- What is taken has no user but a comparison with zero, a branch or a return. -/
theorem taken_user (P : Pass site E s) (he : e ∈ E) (hp : p ∈ e.step.taken)
    (hHome : (site.schedule.blockOf p).isSome) (hw : site.schedule.At b i w)
    (hFeeds : site.graph.Feeds w p) (hOp : site.graph.HasOp w op) :
    op = .word32 .equal ∨ op = .branch ∨ op = .ret := by
  have hEntry := P.trace.valid he
  have hConsumes := hEntry.consumes
  obtain ⟨v, hv, ⟨n, hn, hIn⟩, hCovered⟩ := exists_takes hConsumes.chain hp
  obtain ⟨m, hm, hIn'⟩ := hFeeds
  have hvHome : (site.schedule.blockOf v).isSome := by
    have hSame : site.schedule.blockOf p = site.schedule.blockOf v := hCovered.1
    rw [← hSame]
    exact hHome
  obtain rfl : v = w := hCovered.sole hn (List.mem_of_mem_take hIn) hvHome hm
    (List.mem_of_mem_take hIn') (P.home hw)
  rcases List.mem_cons.mp hv with rfl | hInner
  · have hTaken : e.step.taken ≠ [] := List.ne_nil_of_mem hp
    cases hEntry with
    | skip _ _ _ hStep =>
      rw [hStep] at hTaken
      exact absurd rfl hTaken
    | node _ _ hCovers => exact .inl (hOp.unique (hCovers.taken hTaken))
    | phi _ _ _ _ hStep =>
      rw [hStep] at hTaken
      exact absurd rfl hTaken
    | finish block hBlock _ hNode =>
      -- A block without an end has no node to take anything.
      cases hControl : block.control with
      | none =>
        rw [hControl] at hNode
        rw [hNode] at hm
        exact absurd (Graph.node?_lt hm).1 (by decide)
      | some c =>
        rw [hControl] at hNode
        obtain ⟨k, hk, hEnd⟩ := P.ends hBlock hControl
        have hIs : site.graph.HasOp e.node k.op := by
          rw [hNode]
          exact ⟨k, hk, rfl⟩
        obtain rfl := hOp.unique hIs
        exact .inr hEnd
  · exact .inl (hOp.unique (hConsumes.inner v hInner))

/-- The flag of an operation with overflow is computed with the operation, unless a branch takes it;
and then it has no other user. -/
theorem flag (P : Pass site E s) (he : e ∈ E)
    (hLists : site.schedule.Lists e.block e.index e.node) (hNeeded : e.node ∈ e.before.used)
    (hOp : site.graph.HasOp e.node op) (hOverflow : op.hasOverflow = true)
    (hFlag : site.graph.Projects u 1 e.node) (hu : site.schedule.At a j u)
    (hw : site.schedule.At b i w) (hFeeds : site.graph.Feeds w u) {user : Operator}
    (hUser : site.graph.HasOp w user) (hKind : user = .phi ∨ user = .finish) :
    ∃ e' ∈ E, u ∈ e'.step.defs := by
  have hHome := P.home hu
  -- Wherever the operation is covered as a node, its flag is computed too.
  have hCovered : ∀ e' ∈ E, e'.node = e.node →
      CoversNode (site.at e'.block e'.node) e'.node e'.step e'.before e'.after →
      ∃ e' ∈ E, u ∈ e'.step.defs := by
    intro e' he' hSame hCovers
    have hOwn : u ∈ e'.step.own := by
      refine hCovers.flags op ?_ hOverflow u ?_ hHome
      · rw [hSame]
        exact hOp
      · rw [hSame]
        exact hFlag
    exact ⟨e', he', List.mem_append_right _ hOwn⟩
  rcases P.visited he hLists (.inr hNeeded) with hCovers | ⟨e', he', hDefs⟩
  · exact hCovered e he rfl hCovers
  · rcases (P.trace.valid he').defs_kinds hDefs with ⟨hSame, -, hHow⟩ | hProjects |
      ⟨p, hp, hFuses⟩ | ⟨word, hWord⟩
    · rcases hHow with hCovers | hPhi
      · exact hCovered e' he' hSame.symm hCovers
      · obtain rfl := hOp.unique hPhi
        cases hOverflow
    · obtain ⟨n, hn, hIs, -⟩ := hProjects
      obtain rfl := hOp.unique ⟨n, hn, hIs⟩
      cases hOverflow
    · -- The branch that fuses the operation takes the flag, which has a user of another kind.
      obtain rfl := (P.given.projected e.node op hOp hOverflow).2 1 p u hFuses.flag hFlag
      have hTaker := P.taken_user he' hp hHome hw hFeeds hUser
      rcases hKind with rfl | rfl <;> simp at hTaker
    · obtain rfl := hOp.unique hWord
      cases hOverflow

/-- An operation with overflow that is ahead of its projection is marked when the walk comes to it. -/
theorem operation (P : Pass site E s) (he : e ∈ E) (hMark : y ∈ e.after.used)
    (hAhead : site.schedule.Ahead site.graph e.block e.index y) (hOp : site.graph.HasOp y op)
    (hOverflow : op.hasOverflow = true) :
    ∃ e' ∈ E, e'.node = y ∧ site.schedule.Lists e'.block e'.index y ∧ y ∈ e'.before.used := by
  obtain ⟨o, rfl⟩ := hasOverflow_int32 hOverflow
  cases hAhead with
  | constant hIs hConstant =>
    obtain rfl := hOp.unique hIs
    cases hConstant
  | listed hLists hIs _ hTime =>
    obtain rfl := hOp.unique hIs
    obtain ⟨e', he', rfl, rfl, rfl⟩ := P.trace.entry P.walked hLists.at
    rcases hTime with hImpure | hOrder | ⟨-, -, hPhi⟩
    · cases hImpure
    · exact ⟨e', he', rfl, hLists, P.marked he' he hOrder hMark⟩
    · cases hPhi

/-- Projection 0 has the value of its operation, and projection 1 is computed with it. -/
theorem projection (P : Pass site E s) (he : e ∈ E)
    (hLists : site.schedule.Lists e.block e.index e.node)
    (hOp : site.graph.HasOp e.node .projection)
    (hNeeded : (∃ op, site.graph.HasOp e.node op ∧ op.isPure = false) ∨ e.node ∈ e.before.used)
    (hPasses : ∀ y, site.graph.Feeds e.node y →
      site.schedule.Ahead site.graph e.block e.index y)
    (hw : site.schedule.At b i w) (hFeeds : site.graph.Feeds w e.node) {user : Operator}
    (hUser : site.graph.HasOp w user) (hKind : user = .phi ∨ user = .finish) :
    ∃ x, site.graph.Carries e.node x ∧ ∃ e' ∈ E, x ∈ e'.step.defs := by
  have ⟨n, hn, hIs⟩ := hOp
  -- A projection that is computed is no projection 0, so its register holds its own value.
  have hOwn : (∃ e' ∈ E, e.node ∈ e'.step.defs) →
      ∃ x, site.graph.Carries e.node x ∧ ∃ e' ∈ E, x ∈ e'.step.defs := by
    rintro ⟨e', he', hDefs⟩
    refine ⟨e.node, .own hn (by rw [hIs]; nofun) ?_, e', he', hDefs⟩
    intro _ hInt y op hy _
    exact absurd ⟨n, hn, hIs, hInt, hy⟩ (((P.trace.valid he').not_alias hDefs).2 y)
  rcases P.visited he hLists hNeeded with hCovers | hDefs
  · rcases hCovers.value _ hOp rfl with hConstant | hHere | ⟨m, y, hm, hy, hUsed, hAlias⟩
    · cases hConstant
    · exact hOwn ⟨e, he, List.mem_append_right _ hHere⟩
    · obtain rfl : n = m := Option.some.inj (hn.symm.trans hm)
      obtain ⟨-, op, hyOp, hOverflow⟩ := hAlias.resolve_left nofun
      have hyFeeds := Graph.feeds_of_verify P.given.verify hn (by rw [hIs]; rfl) hy
      obtain ⟨e₂, he₂, rfl, hLists₂, hMarked⟩ :=
        P.operation he hUsed (hPasses y hyFeeds) hyOp hOverflow
      obtain ⟨index, hIndex, m, hm, -, rfl, -⟩ :=
        (P.given.projected e₂.node op hyOp hOverflow).1 e.node n hn (Node.mem_inputs hy)
      obtain rfl : n = m := Option.some.inj (hn.symm.trans hm)
      rcases hIndex with hZero | hOne
      · refine ⟨e₂.node, .projection hn hIs hZero hy hyOp hOverflow, ?_⟩
        rcases P.visited he₂ hLists₂ (.inr hMarked) with hCovers₂ | hDefs₂
        · obtain ⟨o, rfl⟩ := hasOverflow_int32 hOverflow
          rcases hCovers₂.value _ hyOp rfl with hConstant | hHere | ⟨_, _, _, _, _, hAlias₂⟩
          · cases hConstant
          · exact ⟨e₂, he₂, List.mem_append_right _ hHere⟩
          · rcases hAlias₂ with hBad | ⟨hBad, -⟩ <;> cases hBad
        · exact hDefs₂
      · have hFlag : site.graph.Projects e.node 1 e₂.node := ⟨n, hn, hIs, hOne, hy⟩
        exact hOwn (P.flag he₂ hLists₂ hMarked hyOp hOverflow hFlag hLists.at hw hFeeds hUser hKind)
  · exact hOwn hDefs

/-- The value of a node that is ahead of an entry which marks it comes from a constant or from a node
that is computed. The entry is that of a join or of the end of a region. -/
theorem computed (P : Pass site E s) (hAhead : site.schedule.Ahead site.graph b i u) (he : e ∈ E)
    (hb : e.block = b) (hi : e.index = i) (hMark : u ∈ e.after.used)
    (hFeeds : site.graph.Feeds e.node u) (hLists : site.schedule.Lists b i e.node) {user : Operator}
    (hUser : site.graph.HasOp e.node user)
    (hKind : (user = .phi ∧ e.node ∈ e.step.defs) ∨ user = .finish) :
    ∃ x, site.graph.Carries u x ∧
      ((∃ op, site.graph.HasOp x op ∧ op.isConstant = true) ∨ ∃ e' ∈ E, x ∈ e'.step.defs) := by
  induction hAhead generalizing e user with
  | @constant b i u op hOp hConstant =>
    have hFinish : op ≠ .finish := by
      rintro rfl
      cases hConstant
    have hProjection : op ≠ .projection := by
      rintro rfl
      cases hConstant
    exact ⟨u, .of_op hOp hFinish hProjection, .inl ⟨op, hOp, hConstant⟩⟩
  | @listed b i a j u op hHere hOp hValue hTime hPasses ih =>
    obtain ⟨e₁, he₁, rfl, rfl, rfl⟩ := P.trace.entry P.walked hHere.at
    by_cases hSelf : e₁.block = b ∧ e₁.index = i ∧ op = .phi
    · -- A join that is its own input is computed by its entry.
      obtain ⟨hSameBlock, hSameIndex, rfl⟩ := hSelf
      have hSame : e₁.node = e.node := by
        obtain ⟨block, hBlock, hGet⟩ := hHere
        obtain ⟨block', hBlock', hGet'⟩ := hLists
        rw [hSameBlock] at hBlock
        obtain rfl : block = block' := Option.some.inj (hBlock.symm.trans hBlock')
        rw [hSameIndex] at hGet
        exact Option.some.inj (hGet.symm.trans hGet')
      rcases hKind with ⟨-, hDefs⟩ | rfl
      · refine ⟨e₁.node, .of_op hOp nofun nofun, .inr ⟨e, he, ?_⟩⟩
        rw [hSame]
        exact hDefs
      · rw [hSame] at hOp
        cases hOp.unique hUser
    · have hNeeded : (∃ op, site.graph.HasOp e₁.node op ∧ op.isPure = false) ∨
          e₁.node ∈ e₁.before.used := by
        rcases hTime with hImpure | hOrder | hAt
        · exact .inl ⟨op, hOp, hImpure⟩
        · rw [← hb, ← hi] at hOrder
          exact .inr (P.marked he₁ he hOrder hMark)
        · exact absurd hAt hSelf
      have hEntry := P.trace.valid he₁
      by_cases hFinish : op = .finish
      · -- The end of a region passes on the value of its input, which it marks.
        subst hFinish
        rcases P.visited he₁ hHere hNeeded with hCovers | ⟨e', he', hDefs⟩
        · rcases hCovers.value _ hOp rfl with hConstant | hOwn | ⟨n, y, hn, hy, hUsed, -⟩
          · cases hConstant
          · exact absurd hOp (hEntry.not_alias (List.mem_append_right _ hOwn)).1
          · have hnOp : n.op = .finish := by
              obtain ⟨m, hm, hIs⟩ := hOp
              obtain rfl : n = m := Option.some.inj (hn.symm.trans hm)
              exact hIs
            have hFeeds' := Graph.feeds_of_verify P.given.verify hn (by rw [hnOp]; rfl) hy
            obtain ⟨x, hCarries, hValue⟩ := ih (.inl rfl) y hFeeds' he₁ rfl rfl hUsed hFeeds' hHere
              hOp (.inr rfl)
            exact ⟨x, .finish hn hnOp hy hCarries, hValue⟩
        · exact absurd hOp ((P.trace.valid he').not_alias hDefs).1
      · by_cases hProjection : op = .projection
        · subst hProjection
          obtain ⟨x, hCarries, hDefs⟩ := P.projection he₁ hHere hOp hNeeded
            (fun y hy => hPasses (.inr rfl) y hy) hLists.at hFeeds hUser (hKind.imp And.left id)
          exact ⟨x, hCarries, .inr hDefs⟩
        · have hCarries : site.graph.Carries e₁.node e₁.node := .of_op hOp hFinish hProjection
          rcases P.visited he₁ hHere hNeeded with hCovers | hDefs
          · rcases hCovers.value _ hOp hValue with hConstant | hOwn | ⟨n, y, -, -, -, hAlias⟩
            · exact ⟨_, hCarries, .inl ⟨op, hOp, hConstant⟩⟩
            · exact ⟨_, hCarries, .inr ⟨e₁, he₁, List.mem_append_right _ hOwn⟩⟩
            · rcases hAlias with hIs | ⟨hIs, -⟩
              · exact absurd hIs hFinish
              · exact absurd hIs hProjection
          · exact ⟨_, hCarries, .inr hDefs⟩

/-- What a join reads stands for a constant, or is written at some place. -/
theorem joins_written (P : Pass site E s)
    (hAhead : ∀ {b i w u}, site.schedule.Lists b i w → site.graph.HasOp w .phi →
      site.graph.Feeds w u → site.schedule.Ahead site.graph b i u)
    (he : e ∈ E) {phi : Stream.Phi} (hPhi : phi ∈ e.phis) {r : Int} (hr : r ∈ phi.inputs) :
    s.IsConstant r ∨ ∃ e' ∈ E, r ∈ e'.writes := by
  rcases (P.trace.valid he).kinds with ⟨-, -, -, -, hPhis⟩ |
    ⟨join, ⟨hVisited, hOp⟩, hCovers, hStep, -, hPhis⟩ | ⟨-, -, -, -, hPhis⟩
  · rw [hPhis] at hPhi
    cases hPhi
  · rw [hPhis] at hPhi
    obtain rfl := List.mem_singleton.mp hPhi
    obtain ⟨n, hn, hInputs⟩ := hCovers.inputs
    obtain ⟨k, hk, rfl⟩ := List.mem_iff_getElem.mp hr
    have hLt : k < n.values.length := by
      rw [hInputs.length_eq]
      exact hk
    obtain ⟨v, hRegister, hHolds⟩ := hInputs.get hLt hk
    have hFeeds : site.graph.Feeds e.node n.values[k] := ⟨n, hn, List.getElem_mem hLt⟩
    have hMark : n.values[k] ∈ e.after.used := hCovers.used.mpr (.inr hFeeds)
    have hDefs : e.node ∈ e.step.defs := by
      rw [hStep]
      exact List.mem_singleton_self _
    obtain ⟨x, hCarries, hValue⟩ := P.computed (hAhead hVisited.lists hOp hFeeds) he rfl rfl hMark
      hFeeds hVisited.lists hOp (.inl ⟨rfl, hDefs⟩)
    have hv : phi.inputs[k] = v := hRegister
    rw [hv]
    -- The register is that of the carrier, for which it may stand or by which it is written.
    obtain ⟨x', op, hCarries', hxOp, hTable⟩ := hHolds.mono (P.trace.grows he)
    obtain rfl : x' = x := hCarries'.unique hCarries
    by_cases hConstant : op.isConstant = true
    · rw [if_pos hConstant] at hTable
      exact .inl hTable
    · rw [if_neg hConstant] at hTable
      rcases hValue with ⟨op', hxOp', hIs⟩ | ⟨e', he', hComputed⟩
      · obtain rfl := hxOp.unique hxOp'
        exact absurd hIs hConstant
      · exact .inr ⟨e', he', P.trace.writes_of_defs he' hComputed hTable⟩
  · rw [hPhis] at hPhi
    cases hPhi

end Pass
end Selection

open Selection

/-- No join reads a register that is neither a constant nor written, loops included, if the value of
each input of a join is ahead of the join. -/
theorem select_joins_written {g : Graph} {schedule : Schedule} {features : Features}
    {stream : Stream} (hVerify : g.verify = .ok ()) (hProjected : g.OverflowProjected)
    (hCompute : Schedule.compute g = .ok schedule)
    (hAhead : ∀ {b i w u}, schedule.Lists b i w → g.HasOp w .phi → g.Feeds w u →
      schedule.Ahead g b i u)
    (hSelect : select g schedule features = .ok stream) :
    ∀ block ∈ stream.blocks, ∀ phi ∈ block.phis, ∀ r ∈ phi.inputs,
      (stream.constant? r).isSome ∨ ∃ b, r ∈ stream.writesOf b := by
  let site : Site := { graph := g, schedule, features }
  unfold select at hSelect
  obtain ⟨⟨covered, s⟩, hCovered, hStream⟩ := bind_eq_ok.mp hSelect
  have hGiven : Given site := ⟨hVerify, hProjected⟩
  -- The trace of the run, and the layout of its blocks.
  obtain ⟨E, hTrace, hWalked, hLaid, hLength⟩ := coverAll_ensures hGiven covered s hCovered
  have P : Pass site E s := ⟨hGiven, hTrace, hWalked,
    fun hBlock hControl => Schedule.compute_isEnd hCompute hBlock hControl,
    fun hAt => Schedule.compute_home hCompute hAt⟩
  have hLayout := hTrace.laidOut hLaid
  rw [hLength, pure_eq_ok.mp hStream] at hLayout
  intro block hBlock phi hPhi r hr
  obtain ⟨b, hb⟩ := List.mem_iff_getElem?.mp hBlock
  obtain ⟨hPhis, -⟩ := hLayout.block b block hb
  rw [hPhis, phisOf, List.mem_flatMap] at hPhi
  obtain ⟨e, he, hPhi⟩ := hPhi
  rcases P.joins_written hAhead (List.mem_of_mem_filter he) hPhi hr with hConstant |
    ⟨e', he', hWrites⟩
  · left
    rw [Option.isSome_iff_ne_none]
    intro hNone
    exact (hLayout.constant? r).mp hNone hConstant
  · exact .inr ⟨e'.block, (hLayout.mem_writesOf hTrace.block_lt).mpr ⟨e', he', rfl, hWrites⟩⟩

/-- A loop that follows a list to its end. -/
def listWalk : Graph where
  nodes := #[{ op := .start }, .parameter 0 .int32, .int32 0, .merge [0, 7], .phi .word32 [1, 9, 3],
    .effectPhi [0, 9, 3], .ofArity .branch [4, 3], .ofArity .ifTrue [6], .ofArity .ifFalse [6],
    .load .word32 4 2 5 7, .ofArity .ret [4, 5, 8], .collect [10]]
  exit := some 11

theorem select_joins_written_listWalk :
    ∃ schedule stream, Schedule.compute listWalk = .ok schedule ∧
      select listWalk schedule ⟨0⟩ = .ok stream ∧
      stream.blocks.flatMap Stream.Block.phis = [{ out := 1, inputs := [0, 2] }] ∧
      ∀ block ∈ stream.blocks, ∀ phi ∈ block.phis, ∀ r ∈ phi.inputs,
        (stream.constant? r).isSome ∨ ∃ b, r ∈ stream.writesOf b := by
  have hRun : ((Schedule.compute listWalk).toOption.bind fun schedule =>
      (select listWalk schedule ⟨0⟩).toOption.map fun stream =>
        (schedule.blocks.map Block.nodes, stream.blocks.flatMap Stream.Block.phis)) =
      some (#[[1, 2], [4, 5], [9], []], [{ out := 1, inputs := [0, 2] }]) := by
    decide +kernel
  obtain ⟨schedule, hSchedule, hRun⟩ := Option.bind_eq_some_iff.mp hRun
  obtain ⟨stream, hStream, hRun⟩ := Option.map_eq_some_iff.mp hRun
  have hCompute := toOption_eq_some.mp hSchedule
  have hSelect := toOption_eq_some.mp hStream
  obtain ⟨hNodes, hPhis⟩ := Prod.mk.inj hRun
  have hProjected : listWalk.OverflowProjected := Graph.overflowProjected_of_none (by decide)
  have hLists : ∀ {b i w}, schedule.Lists b i w ↔
      ∃ nodes : List NodeId, (#[[1, 2], [4, 5], [9], []] : Array (List NodeId))[b]? = some nodes ∧
        nodes[i]? = some w := by
    intro b i w
    rw [← hNodes, Array.getElem?_map]
    simp only [Schedule.Lists, Option.map_eq_some_iff, exists_exists_and_eq_and]
  -- The one join stands at the start of block 1 and takes the parameter and what is loaded.
  have hJoin : ∀ {b i w}, schedule.Lists b i w → listWalk.HasOp w .phi → b = 1 ∧ i = 0 ∧ w = 4 := by
    rintro b i w hw ⟨n, hn, hOp⟩
    obtain ⟨nodes, hBlock, hGet⟩ := hLists.mp hw
    rcases b with _ | _ | _ | _ | b <;> cases hBlock <;> rcases i with _ | _ | i <;> cases hGet <;>
      cases hn <;> cases hOp
    exact ⟨rfl, rfl, rfl⟩
  have hAhead : ∀ {b i w u}, schedule.Lists b i w → listWalk.HasOp w .phi → listWalk.Feeds w u →
      schedule.Ahead listWalk b i u := by
    intro b i w u hw hOp hFeeds
    obtain ⟨rfl, rfl, rfl⟩ := hJoin hw hOp
    obtain ⟨n, hn, hu⟩ := hFeeds
    cases hn
    have hInputs : u ∈ [1, 9] := hu
    rw [List.mem_cons, List.mem_singleton] at hInputs
    rcases hInputs with rfl | rfl
    · have hParameter : schedule.Lists 0 0 1 := hLists.mpr ⟨_, rfl, rfl⟩
      exact .listed hParameter ⟨_, rfl, rfl⟩ rfl (.inr (.inl (.inl (by decide)))) nofun
    · have hLoad : schedule.Lists 2 0 9 := hLists.mpr ⟨_, rfl, rfl⟩
      exact .listed hLoad ⟨_, rfl, rfl⟩ rfl (.inl rfl) nofun
  exact ⟨schedule, stream, hCompute, hSelect, hPhis,
    select_joins_written (by decide) hProjected hCompute hAhead hSelect⟩

/-- What a loop carries is left out when nothing but the join uses it: the join of the counting loop
reads a register that is no constant and that nothing writes. -/
theorem select_drops_countingLoop : Schedule.countingLoop.verify = .ok () ∧
    ∃ schedule stream, Schedule.compute Schedule.countingLoop = .ok schedule ∧
      select Schedule.countingLoop schedule ⟨0⟩ = .ok stream ∧
      ∃ block ∈ stream.blocks, ∃ phi ∈ block.phis, ∃ r ∈ phi.inputs,
        stream.constant? r = none ∧ ∀ b, r ∉ stream.writesOf b := by
  refine ⟨by decide, ?_⟩
  -- Selection is run once; the phi reads the third register, which no instruction writes.
  have hRun : ((Schedule.compute Schedule.countingLoop).toOption.bind fun schedule =>
      (select Schedule.countingLoop schedule ⟨0⟩).toOption.map fun stream =>
        (stream.blocks.map (fun block => (block.phis, block.writes stream)),
          stream.constants.map Prod.fst)) =
      some ([([], [0]), ([{ out := 1, inputs := [2, 3] }], [1]), ([], []), ([], [])], [2]) := by
    decide +kernel
  obtain ⟨schedule, hSchedule, hRun⟩ := Option.bind_eq_some_iff.mp hRun
  obtain ⟨stream, hStream, hRun⟩ := Option.map_eq_some_iff.mp hRun
  refine ⟨schedule, stream, toOption_eq_some.mp hSchedule, toOption_eq_some.mp hStream, ?_⟩
  obtain ⟨hBlocks, hConstants⟩ := Prod.mk.inj hRun
  have hWrites : stream.blocks.map (fun block => block.writes stream) = [[0], [1], [], []] := by
    have hSecond := congrArg (List.map Prod.snd) hBlocks
    rw [List.map_map] at hSecond
    exact hSecond
  have hPhis : stream.blocks.map Stream.Block.phis =
      [[], [{ out := 1, inputs := [2, 3] }], [], []] := by
    have hFirst := congrArg (List.map Prod.fst) hBlocks
    rw [List.map_map] at hFirst
    exact hFirst
  obtain ⟨block, hBlock, hJoin⟩ : ∃ block ∈ stream.blocks,
      block.phis = [{ out := 1, inputs := [2, 3] }] := by
    refine List.mem_map.mp ?_
    rw [hPhis]
    simp
  refine ⟨block, hBlock, { out := 1, inputs := [2, 3] }, by rw [hJoin]; simp, 3, by simp, ?_, ?_⟩
  · refine List.lookup_eq_none_iff.mpr ?_
    intro p hp
    have hKey : p.1 ∈ stream.constants.map Prod.fst := List.mem_map_of_mem hp
    rw [hConstants, List.mem_singleton] at hKey
    rw [hKey]
    decide
  · intro b hb
    unfold Stream.writesOf at hb
    cases hAt : stream.blocks[b]? with
    | none =>
      rw [hAt] at hb
      cases hb
    | some other =>
      rw [hAt] at hb
      have hMem : other.writes stream ∈ stream.blocks.map fun block => block.writes stream :=
        List.mem_map_of_mem (List.mem_of_getElem? hAt)
      rw [hWrites] at hMem
      have hNone : ∀ l ∈ [[0], [1], [], ([] : List Int)], (3 : Int) ∉ l := by decide
      exact hNone _ hMem hb

end ArmBackend
