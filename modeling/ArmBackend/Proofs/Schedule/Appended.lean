import ArmBackend.Proofs.Fuel
import ArmBackend.Proofs.Schedule.Within

/-!
# Schedules of graphs with more nodes

Scheduling starts from the exit and looks at inputs, so it never comes by a node that was appended.
It passes over such nodes where it goes through the arena, and drops them from the users of a branch.
What is left of them is the fuel of the walks, which is counted by the nodes of the arena. The walk
along control inputs and the one that places inputs first are long enough either way: on a way that
ends no node comes twice.

## Results

* `buildBlocks_append` — the blocks are the same.
* `placeNode_fuel` — more fuel than nodes does not change where a node is placed.
* `compute_append` — a graph with more nodes has the same schedule, or none if there was none.
-/

namespace ArmBackend.Schedule

variable {g : Graph} {ns : List Node} {root exit id x u : NodeId} {live live' : BitSet}
variable {s t : Schedule} {b : Nat} {block : Block} {n : Node}

/-! ## Control chains -/

/-- The next node on the walk along control inputs. -/
def ascend? (g : Graph) (x : NodeId) : Option NodeId := do
  let n ← g.node? x
  if n.op.isHead then none else n.controlIn.toOption

theorem ascend?_eq_some (h : ascend? g x = some u) :
    ∃ n, g.node? x = some n ∧ n.op.isHead = false ∧ n.controlIn = .ok u := by
  unfold ascend? at h
  obtain ⟨n, hn, h⟩ := Option.bind_eq_some_iff.mp h
  split at h
  · cases h
  · next hHead => exact ⟨n, hn, Bool.eq_false_iff.mpr hHead, toOption_eq_some.mp h⟩

/-- One round of the walk at a node. -/
theorem climb_node (hn : g.node? x = some n) (fuel : Nat) :
    headOf.climb g id (fuel + 1) x =
      if n.op.isHead then .ok x else n.controlIn >>= headOf.climb g id fuel := by
  rw [headOf.climb, if_neg (Int.not_lt.mpr (Graph.node?_lt hn).1), Graph.op_eq_ok.mpr ⟨n, hn, rfl⟩,
    ok_bind, Graph.controlIn, Graph.node_eq_ok.mpr hn, ok_bind]
  rfl

theorem climb_follows (g : Graph) (id : NodeId) :
    Follows (ascend? g) (headOf.climb g id) (.error .endless) where
  zero := fun _ => rfl
  stop := by
    intro x hNone f f'
    cases hn : g.node? x with
    | none =>
      -- No node is there: the walk fails before it goes on.
      have hOp : g.op x = .error .outOfRange := by
        unfold Graph.op
        rw [hn]
      rw [headOf.climb, headOf.climb, hOp]
      rfl
    | some n =>
      rw [climb_node hn, climb_node hn]
      split
      · rfl
      · next hHead =>
        cases hControl : n.controlIn with
        | error e => rfl
        | ok u => simp [ascend?, hn, hHead, hControl, Except.toOption] at hNone
  step := by
    intro x u hNext
    obtain ⟨n, hn, hHead, hControl⟩ := ascend?_eq_some hNext
    refine ⟨fun e => e, rfl, fun f => ?_⟩
    rw [climb_node hn, hHead, hControl]
    rfl

/-- A walk along control inputs does not take a node twice. -/
theorem climb_fuel {fuel fuel' : Nat} (hf : g.size < fuel) (hf' : g.size < fuel') :
    headOf.climb g id fuel x = headOf.climb g id fuel' x := by
  -- Where a node comes twice the walk goes round, and ends with the same fault at any fuel.
  refine (climb_follows g id).fuel_irrelevant (fun x => x) g.ids ?_ ?_ (by rwa [g.card_ids])
    (by rwa [g.card_ids]) x
  · intro x u hNext
    obtain ⟨n, hn, -⟩ := ascend?_eq_some hNext
    exact Graph.mem_ids hn
  · rintro x x' u u' hNext hNext' rfl
    exact Option.some.inj (hNext.symm.trans hNext')

/-- The walk from an old node takes old nodes. -/
theorem climb_append (hVerify : g.verify = .ok ()) (hId : g.Knows id ∨ id < 0)
    (hx : g.Knows x ∨ x < 0) (fuel : Nat) :
    headOf.climb (g.append ns) id fuel x = headOf.climb g id fuel x := by
  induction fuel generalizing x with
  | zero => rfl
  | succ fuel ih =>
    rcases hx with ⟨n, hn⟩ | hNegative
    · rw [climb_node hn, climb_node (Graph.node?_append hn)]
      split
      · rfl
      · refine bind_congr_ok ?_
        intro u hu
        refine ih ?_
        rcases Node.mem_of_controlIn hu with hNegative | hMem
        · exact .inr hNegative
        · exact .inl (.input hVerify ⟨n, hn, hMem⟩)
    · -- The fault at the end of a chain names the operator it began with.
      rw [headOf.climb, headOf.climb, if_pos hNegative, if_pos hNegative, Graph.op_append hId]
      rfl

/-- The head of a control chain of old nodes is found as before. -/
theorem headOf_append (hVerify : g.verify = .ok ()) (hId : g.Knows id ∨ id < 0) :
    headOf (g.append ns) id = headOf g id := by
  -- First the graph goes back to the old one, at the new fuel; then the fuel does.
  unfold headOf
  rw [climb_append hVerify hId hId]
  refine climb_fuel ?_ (Nat.lt_succ_self _)
  rw [Graph.size_append]
  omega

theorem blockOfControl_append (hVerify : g.verify = .ok ()) (hn : g.node? id = some n)
    (hx : n.controlIn = .ok x ∨ x ∈ n.inputs) (s : Schedule) :
    blockOfControl (g.append ns) s x = blockOfControl g s x := by
  unfold blockOfControl
  rw [headOf_append hVerify]
  rcases hx with hControl | hMem
  · rcases Node.mem_of_controlIn hControl with hNegative | hMem
    · exact .inr hNegative
    · exact .inl (.input hVerify ⟨n, hn, hMem⟩)
  · exact .inl (.input hVerify ⟨n, hn, hMem⟩)

/-! ## Blocks -/

theorem endBlocks_append (hVerify : g.verify = .ok ()) (hn : g.node? id = some n) (s : Schedule) :
    endBlocks (g.append ns) s id n = endBlocks g s id n := by
  unfold endBlocks
  split
  · refine bind_congr_ok fun c hc => ?_
    rw [blockOfControl_append hVerify hn (.inl hc)]
  · refine bind_congr_ok fun c hc => ?_
    rw [blockOfControl_append hVerify hn (.inl hc)]
  · refine bind_congr_ok fun target _ => foldlM_congr ?_ s
    intro input hInput t
    rw [blockOfControl_append hVerify hn (.inr hInput)]
  · rfl

section Live

/-! The sets of live nodes of both graphs have the same members, and these are old. -/

variable (hSame : ∀ id, live'.contains id = live.contains id)
  (hOld : ∀ id, live.contains id = true → g.Knows id)
include hSame hOld

/-- A new node is not live. -/
theorem not_live_of_new {p : Node × Nat} (hp : p ∈ ns.zipIdx g.size) : live'.mem p.2 = false := by
  rw [← BitSet.contains_natCast, hSame, Bool.eq_false_iff]
  intro hLive
  have hLt : p.2 < g.size := Int.ofNat_lt.mp (hOld p.2 hLive).lt
  have hLe := List.le_snd_of_mem_zipIdx hp
  omega

omit hOld in
theorem mem_eq (k : Nat) : live'.mem k = live.mem k := by
  rw [← BitSet.contains_natCast, ← BitSet.contains_natCast, hSame]

theorem headsOf_append : headsOf (g.append ns) live' = headsOf g live := by
  unfold headsOf
  rw [Graph.zipIdx_append, List.filterMap_append]
  simp only [mem_eq hSame]
  refine congrArg (Graph.start :: ·) ?_
  rw [List.append_right_eq_self, List.filterMap_eq_nil_iff]
  intro p hp
  simp [← mem_eq hSame, not_live_of_new hSame hOld hp]

/-- The new users of a branch are dropped. -/
theorem projections_append (hVerify : g.verify = .ok ()) (hVerify' : (g.append ns).verify = .ok ())
    (hId : g.Knows id) : projections (g.append ns) live' id = projections g live id := by
  obtain ⟨n, hn⟩ := hId
  -- the users added are dead, so none of their edges is counted
  have hNew : ((g.newEdges ns id).filterMap fun u => if live'.contains u.user then
      ((g.append ns).node? u.user).map fun n => (u.user, n.op) else none) = [] := by
    rw [List.filterMap_eq_nil_iff]
    intro u hu
    rw [if_neg]
    intro hLive
    have hLt := (hOld u.user (hSame _ ▸ hLive)).lt
    exact absurd (Graph.mem_newEdges hu).1 (Int.not_le.mpr hLt)
  have hUsers : ((g.edgesTo id).filterMap fun u => if live'.contains u.user then
      ((g.append ns).node? u.user).map fun n => (u.user, n.op) else none) =
      (g.edgesTo id).filterMap fun u => if live.contains u.user then
        (g.node? u.user).map fun n => (u.user, n.op) else none := by
    refine List.filterMap_congr ?_
    intro u _
    rw [hSame]
    split
    · next hLive => rw [(hOld u.user hLive).node?_append]
    · rfl
  unfold projections
  rw [Graph.uses_of_verify hVerify' (Graph.node?_append hn), Graph.uses_of_verify hVerify hn, ok_bind,
    ok_bind, Graph.edgesTo_append, List.filterMap_append, hNew, List.append_nil, hUsers]

theorem linkBranch_append (hVerify : g.verify = .ok ()) (hVerify' : (g.append ns).verify = .ok ())
    (hControl : ∀ block c, s.blocks[b]? = some block → block.control = some c → g.Knows c) :
    linkBranch (g.append ns) live' s b = linkBranch g live s b := by
  -- Users are asked for in one case only: where the block ends in a branch.
  unfold linkBranch
  refine bind_congr_ok ?_
  intro block hBlock
  split
  · rfl
  · next branch _ hIs =>
    rw [projections_append hSame hOld hVerify hVerify' (hControl block branch ?_ hIs)]
    unfold Schedule.block at hBlock
    split at hBlock
    · next hAt =>
      cases hBlock
      exact hAt
    · cases hBlock
  · rfl

/-- The new nodes end no block. -/
theorem endAll_append (hVerify : g.verify = .ok ()) (s : Schedule) :
    (g.append ns).nodes.toList.zipIdx.foldlM
        (fun s (n, id) => if live'.mem id then endBlocks (g.append ns) s id n else pure s) s =
      g.nodes.toList.zipIdx.foldlM
        (fun s (n, id) => if live.mem id then endBlocks g s id n else pure s) s := by
  rw [Graph.foldlM_append_skip]
  · refine foldlM_congr ?_ s
    rintro ⟨n, k⟩ hn t
    dsimp only
    rw [mem_eq hSame, endBlocks_append hVerify (Graph.mem_zipIdx.mp hn)]
  · intro p hp t
    simp only [not_live_of_new hSame hOld hp]
    rfl

/-- The ends of the blocks are old, and stay so while edges are added. -/
theorem linkAll_append (hVerify : g.verify = .ok ()) (hVerify' : (g.append ns).verify = .ok ())
    (hRoot : g.Knows root) (h : Within g root s) (l : List Nat) :
    l.foldlM (linkBranch (g.append ns) live') s = l.foldlM (linkBranch g live) s := by
  refine foldlM_congr_ok (I := Within g root) h ?_
  intro b _ t ht
  refine ⟨linkBranch_append hSame hOld hVerify hVerify' ?_, ht.linkBranch⟩
  intro block c hBlock hControl
  exact ((ht.block hBlock).control c hControl).node_of_verify hVerify hRoot

/-- The blocks of the control chain are those of the graph without the new nodes. -/
theorem buildBlocks_append (hVerify : g.verify = .ok ()) (hVerify' : (g.append ns).verify = .ok ())
    (hRoot : g.Knows root) (hLive : ∀ id, live.contains id = true → g.Live root id) :
    buildBlocks (g.append ns) live' = buildBlocks g live := by
  unfold buildBlocks
  rw [headsOf_append hSame hOld]
  dsimp only
  rw [endAll_append hSame hOld hVerify]
  refine bind_congr_ok fun ended hEnded => ?_
  have hWithin : Within g root ended := ((Within.init hRoot hOld).endAll hLive).of_ok hEnded
  rw [linkAll_append hSame hOld hVerify hVerify' hRoot hWithin]

end Live

/-! ## Places -/

/-- Old nodes are placed as before, with the same fuel. -/
theorem placeNode_append (hVerify : g.verify = .ok ()) (hId : g.Knows id) (fuel : Nat)
    (s : Schedule) : (placeNode (g.append ns) fuel id).run s = (placeNode g fuel id).run s := by
  induction fuel generalizing id s with
  | zero => rfl
  | succ fuel ih =>
    cases hHome : s.home id with
    | some b => rw [placeNode_placed hHome, placeNode_placed hHome]
    | none =>
      obtain ⟨n, hn⟩ := hId
      rw [placeNode_run (Graph.node?_append hn) hHome, placeNode_run hn hHome]
      split
      · refine bind_congr_ok fun c hc => ?_
        rw [blockOfControl_append hVerify hn (.inl hc)]
      · refine congrArg (· >>= _) (foldlM_congr ?_ _)
        intro y hy p
        rw [ih (.input hVerify ⟨n, hn, hy⟩)]

/-- Nodes that are all different are no more than there are. -/
theorem length_le_size {stack : List NodeId} (hNodup : stack.Nodup)
    (hNodes : ∀ x ∈ stack, g.Knows x) : stack.length ≤ g.size := by
  rw [← List.toFinset_card_of_nodup hNodup, ← g.card_ids]
  refine Finset.card_le_card ?_
  intro x hx
  obtain ⟨n, hn⟩ := hNodes x (List.mem_toFinset.mp hx)
  exact Graph.mem_ids hn

/-- What is placed with some fuel is placed alike with any fuel that is more than there are nodes
besides those that wait: these are all different. -/
theorem placeNode_fuel {fuel fuel' : Nat} {stack : List NodeId} {p : Nat × Schedule}
    (hChain : (id :: stack).IsChain (Pulls g)) (hNodup : stack.Nodup)
    (hOpen : ∀ x ∈ stack, s.home x = none) (hNodes : ∀ x ∈ stack, g.Knows x)
    (hRun : (placeNode g fuel id).run s = .ok p) (hFuel : g.size < fuel' + stack.length) :
    (placeNode g fuel' id).run s = .ok p := by
  induction fuel generalizing id s stack fuel' p with
  | zero => cases hRun
  | succ fuel ih =>
    have hLength := length_le_size hNodup hNodes
    obtain ⟨fuel', rfl⟩ := Nat.exists_eq_succ_of_ne_zero (by omega : fuel' ≠ 0)
    -- The run ended, so the node is not one of those that wait for it.
    have hId := ((placeNode_open (fuel + 1) hChain hOpen).of_ok hRun).1
    cases hHome : s.home id with
    | some b =>
      rw [placeNode_placed hHome] at hRun ⊢
      exact hRun
    | none =>
      cases hn : g.node? id with
      | none =>
        rw [placeNode_missing hn hHome] at hRun
        cases hRun
      | some n =>
        rw [placeNode_run hn hHome] at hRun ⊢
        split at hRun
        · next hControl =>
          rw [if_pos hControl]
          exact hRun
        · next hControl =>
          rw [if_neg hControl]
          obtain ⟨q, hq, hRun⟩ := bind_eq_ok.mp hRun
          refine bind_eq_ok.mpr ⟨q, ?_, hRun⟩
          -- Each input is placed with the node itself among those that wait.
          refine foldlM_eq_ok_of (I := fun p : Nat × Schedule => ∀ x ∈ id :: stack,
            p.2.home x = none) ?_ ?_ hq
          · exact List.forall_mem_cons.mpr ⟨hHome, hOpen⟩
          · intro y hy p r hStays hr
            obtain ⟨q', hq', hr⟩ := bind_eq_ok.mp hr
            have hPulls : Pulls g y id := ⟨n, hn, of_not_not hControl, hy⟩
            have hChain' : (y :: id :: stack).IsChain (Pulls g) :=
              List.isChain_cons_cons.mpr ⟨hPulls, hChain⟩
            have hNodes' : ∀ x ∈ id :: stack, g.Knows x :=
              List.forall_mem_cons.mpr ⟨⟨n, hn⟩, hNodes⟩
            have hMore : (placeNode g fuel' y).run p.2 = .ok q' :=
              ih hChain' (List.nodup_cons.mpr ⟨hId, hNodup⟩) hStays hNodes' hq'
                (by rw [List.length_cons]; omega)
            refine ⟨by rw [hMore]; exact hr, ?_⟩
            cases pure_eq_ok.mp hr
            exact ((placeNode_open fuel hChain' hStays).of_ok hq').2

/-- More fuel than nodes does not change where a node is placed. -/
theorem placeNode_toOption_append (hVerify : g.verify = .ok ()) (hId : g.Knows id) (s : Schedule) :
    ((placeNode (g.append ns) ((g.append ns).size + 1) id).run s).toOption =
      ((placeNode g (g.size + 1) id).run s).toOption := by
  rw [placeNode_append hVerify hId]
  have hSize : g.size ≤ (g.append ns).size := by
    rw [Graph.size_append]
    omega
  have hFuel : ∀ {fuel fuel' : Nat} {p}, g.size < fuel' → (placeNode g fuel id).run s = .ok p →
      (placeNode g fuel' id).run s = .ok p := by
    intro fuel fuel' p hLt hRun
    exact placeNode_fuel (List.isChain_singleton id) List.nodup_nil (by simp) (by simp) hRun
      (by simpa using hLt)
  ext p
  rw [toOption_eq_some, toOption_eq_some]
  exact ⟨hFuel (by omega), hFuel (by omega)⟩

theorem placeNodes_append (hSame : ∀ id, live'.contains id = live.contains id)
    (hOld : ∀ id, live.contains id = true → g.Knows id) (hVerify : g.verify = .ok ()) (s : Schedule) :
    ((placeNodes (g.append ns) exit live').run s).toOption =
      ((placeNodes g exit live).run s).toOption := by
  unfold placeNodes
  rw [StateT.run_bind, StateT.run_bind]
  show Except.toOption (StateT.run (List.forM _ _) (placeControl s)) =
    Except.toOption (StateT.run (List.forM _ _) (placeControl s))
  rw [forM_run, forM_run, Graph.foldlM_append_skip]
  · refine toOption_foldlM_congr ?_ _
    rintro ⟨n, k⟩ hn p
    dsimp only
    rw [mem_eq hSame]
    split
    · rw [StateT.run_bind, StateT.run_bind]
      refine toOption_bind_congr ?_ fun _ _ => rfl
      exact placeNode_toOption_append hVerify ⟨n, Graph.mem_zipIdx.mp hn⟩ p.2
    · rfl
  · -- the nodes added are passed over
    intro p hp q
    simp only [not_live_of_new hSame hOld hp, Bool.false_and]
    rfl

/-! ## Order -/

theorem checkDominated_append (hId : g.Knows id) (s : Schedule) (b : Nat) :
    checkDominated (g.append ns) s b id = checkDominated g s b id := by
  unfold checkDominated
  rw [Graph.node_append (.inl hId)]

theorem checkAll_append (h : Within g root s) :
    (s.blocks.toList.zipIdx.forM fun (block, b) =>
        block.nodes.forM fun id => checkDominated (g.append ns) s b id) =
      s.blocks.toList.zipIdx.forM fun (block, b) =>
        block.nodes.forM fun id => checkDominated g s b id := by
  refine forM_congr ?_
  rintro ⟨block, b⟩ hBlock
  have hAt : s.blocks[b]? = some block := by
    rw [← Array.getElem?_toList]
    exact List.mem_zipIdx_iff_getElem?.mp hBlock
  exact forM_congr fun id hId => checkDominated_append ((h.block hAt).nodes id hId) s b

theorem dependencies_append (hVerify : g.verify = .ok ()) (hn : g.node? id = some n) (s : Schedule)
    (b : Nat) : dependencies (g.append ns) s b n = dependencies g s b n := by
  unfold dependencies
  refine filterM_congr ?_
  intro x hx
  rw [Graph.op_append (.inl (.input hVerify ⟨n, hn, hx⟩))]

theorem orderNodes_append (hVerify : g.verify = .ok ()) (h : Within g root s) (b : Nat) :
    orderNodes (g.append ns) s b = orderNodes g s b := by
  unfold orderNodes orderNodesBy Schedule.block
  cases hBlock : s.blocks[b]? with
  | none => rfl
  | some block =>
    have hEnter : ∀ (a : Agenda (List NodeId)),
        block.nodes.foldlM (Agenda.enter .scanned (g.append ns) s b) a =
          block.nodes.foldlM (Agenda.enter .scanned g s b) a := by
      refine foldlM_congr fun id hId a => ?_
      unfold Agenda.enter
      rw [Graph.node_append (.inl ((h.block hBlock).nodes id hId))]
      refine bind_congr_ok fun n hn => ?_
      rw [dependencies_append hVerify (Graph.node_eq_ok.mp hn)]
    rw [ok_bind, ok_bind, Graph.op_append (.inl ((h.block hBlock).head)), hEnter]

theorem orderBlocks_append (hVerify : g.verify = .ok ()) (h : Within g root s) :
    orderBlocks (g.append ns) s = orderBlocks g s := by
  unfold orderBlocks
  refine foldlM_congr_ok (I := Within g root) h ?_
  intro b _ t ht
  rw [orderNodes_append hVerify ht]
  exact ⟨rfl, ht.orderBlock b⟩

/-! ## Whole schedules -/

/-- Without an exit that is a node nothing is scheduled. -/
theorem compute_unknown (hExit : g.exit = some exit) (hRoot : ¬g.Knows exit) :
    (compute g).toOption = none := by
  unfold compute
  rw [hExit]
  dsimp only
  cases hMarked : liveNodes g exit with
  | ok live => exact absurd (node_of_liveNodes hMarked) hRoot
  | error f => rfl

/-- With more nodes behind its own that are not live, a graph has the same schedule, or none if there
was none. -/
theorem compute_append (hVerify : g.verify = .ok ()) (hVerify' : (g.append ns).verify = .ok ())
    (hDead : ∀ exit ∈ g.exit, ∀ id, (g.append ns).Live exit id → id < g.size) :
    (compute (g.append ns)).toOption = (compute g).toOption := by
  cases hExit : g.exit with
  | none =>
    unfold compute
    rw [hExit, show (g.append ns).exit = none from hExit]
  | some exit =>
    by_cases hRoot : g.Knows exit
    · obtain ⟨live, hMarked, hLive⟩ := (liveNodes_of_verify hVerify hRoot).exists_ok
      obtain ⟨live', hMarked', hLive'⟩ := (liveNodes_of_verify hVerify' hRoot.append).exists_ok
      have hSame : ∀ id, live'.contains id = live.contains id := by
        intro id
        rw [Bool.eq_iff_iff, hLive', hLive, Graph.live_append hVerify hRoot]
      have hOld : ∀ id, live.contains id = true → g.Knows id := fun id hId =>
        ((hLive id).mp hId).node_of_verify hVerify hRoot
      have hStart : ∀ id, live.contains id = true → g.Live exit id := fun id => (hLive id).mp
      -- The passes are compared one after the other; from placing on only their results are.
      unfold compute
      rw [hExit, show (g.append ns).exit = some exit from hExit]
      dsimp only
      rw [hMarked, hMarked', ok_bind, ok_bind,
        buildBlocks_append hSame hOld hVerify hVerify' hRoot hStart]
      refine toOption_bind_congr rfl fun f hBuild => ?_
      refine toOption_bind_congr (placeNodes_append hSame hOld hVerify f) ?_
      rintro ⟨_, placed⟩ hPlaced
      -- What is placed is old, so the checks and the order see the same nodes.
      have hBuilt : Within g exit f := (Within.buildBlocks hRoot hStart hOld).of_ok hBuild
      have hWithin : Within g exit placed :=
        (hBuilt.placeControl hVerify hRoot).placeNodes.of_ok hPlaced
      dsimp only
      rw [checkAll_append hWithin, orderBlocks_append hVerify hWithin]
    · have hRoot' : ¬(g.append ns).Knows exit := by
        rintro ⟨n, hn⟩
        exact hRoot (Graph.exists_node? (Graph.node?_lt hn).1 (hDead exit hExit exit .refl))
      rw [compute_unknown hExit hRoot,
        compute_unknown (show (g.append ns).exit = some exit from hExit) hRoot']

end ArmBackend.Schedule
