import ArmBackend.Proofs.Schedule.Blocks
import ArmBackend.Proofs.Structure

/-!
# Where branches lead

A block that ends in a branch leads to the blocks of two projections of the branch, that of the
true arm first. The blocks are given their ends one node at a time and the edges of branches one
block at a time; a block that has no end yet, or a branch whose turn has not come, has no edges
(`Wiring`). Putting the blocks into order moves both ends of an edge. None of this asks anything of
the graph.

## Results

* `buildBlocks_bare` — the blocks of the control chain start with heads, are empty and lead where
  their ends do.
* `buildBlocks_home` — no node has a place yet.
* `buildBlocks_reached`, `buildBlocks_predecessors` — a path leads to each of them, and edges come
  from blocks.
-/

namespace ArmBackend

namespace Schedule

variable {g : Graph} {id : NodeId} {live : BitSet} {s t : Schedule} {b i target : Nat}
variable {block new : Block} {n : Node} {op : Operator} {branch : NodeId} {done : List Nat}

/-! ## Heads -/

/-- The heads of the blocks. -/
def heads (s : Schedule) : Array NodeId :=
  s.blocks.map Block.head

theorem heads_getElem? (s : Schedule) (i : Nat) : s.heads[i]? = s.blocks[i]?.map Block.head :=
  Array.getElem?_map

theorem size_heads (s : Schedule) : s.heads.size = s.blocks.size :=
  Array.size_map

theorem heads_modifyBlock {change : Block → Block} (hHead : ∀ block, (change block).head = block.head) :
    (s.modifyBlock b change).heads = s.heads := by
  refine Array.ext_getElem? fun i => ?_
  rw [heads_getElem?, heads_getElem?, getElem?_modifyBlock]
  split
  · cases s.blocks[i]? with
    | none => rfl
    | some block => exact congrArg some (hHead block)
  · rfl

theorem heads_link (s : Schedule) (b target : Nat) : (s.link b target).heads = s.heads := by
  unfold link
  refine Eq.trans (heads_modifyBlock ?_) (heads_modifyBlock ?_)
  · exact fun _ => rfl
  · exact fun _ => rfl

/-- What a block starts with is a matter of the heads. -/
theorem startsWith_iff : s.StartsWith g i branch op ↔
    ∃ h n, s.heads[i]? = some h ∧ g.node? h = some n ∧ n.op = op ∧ branch ∈ n.inputs := by
  simp only [heads_getElem?, Option.map_eq_some_iff]
  constructor
  · rintro ⟨block, n, hBlock, hn, hRest⟩
    exact ⟨block.head, n, ⟨block, hBlock, rfl⟩, hn, hRest⟩
  · rintro ⟨h, n, ⟨block, hBlock, rfl⟩, hn, hRest⟩
    exact ⟨block, n, hBlock, hn, hRest⟩

theorem StartsWith.of_heads (h : s.StartsWith g i branch op) (hHeads : t.heads = s.heads) :
    t.StartsWith g i branch op := by
  rw [startsWith_iff, hHeads]
  exact startsWith_iff.mp h

/-! ## Wires -/

/-- A block leads to two projections of the branch that ends it. -/
def Wired (g : Graph) (s : Schedule) (block : Block) : Prop :=
  ∃ branch t f, block.control = some branch ∧ block.succ = [t, f] ∧
    s.StartsWith g t branch .ifTrue ∧ s.StartsWith g f branch .ifFalse

theorem Wired.of_heads (h : Wired g s block) (hHeads : t.heads = s.heads)
    (hControl : new.control = block.control) (hSucc : new.succ = block.succ) : Wired g t new := by
  obtain ⟨branch, ifTrue, ifFalse, hBranch, hEdges, hTrue, hFalse⟩ := h
  exact ⟨branch, ifTrue, ifFalse, hControl.trans hBranch, hSucc.trans hEdges,
    hTrue.of_heads hHeads, hFalse.of_heads hHeads⟩

/-- A block while edges are added; the branches of the blocks in `done` have theirs. -/
structure Wire (g : Graph) (s : Schedule) (done : List Nat) (b : Nat) (block : Block) : Prop where
  nodes : block.nodes = []
  ends : ∀ c, block.control = some c → g.IsEnd c
  head : block.kind ≠ .none → g.IsHead block.head
  known : ∀ x ∈ block.succ, x < s.blocks.size
  unended : block.kind = .none → block.succ = []
  control : block.kind = .branch → ∃ c, block.control = some c
  waiting : block.kind = .branch → b ∉ done → block.succ = []
  wired : block.kind = .branch → b ∈ done → Wired g s block
  ended : b ∈ done → block.kind ≠ .none

/-- The blocks while edges are added. -/
def Wiring (g : Graph) (done : List Nat) (s : Schedule) : Prop :=
  ∀ (b : Nat) (block : Block), s.blocks[b]? = some block → Wire g s done b block

/-- A block that is left alone stays as it is wired. -/
theorem Wire.keep (h : Wire g s done b block) (hHeads : t.heads = s.heads)
    (hMoved : Moved block new) (hSucc : new.succ = block.succ) : Wire g t done b new := by
  have hSize : t.blocks.size = s.blocks.size := by
    rw [← size_heads, hHeads, size_heads]
  obtain ⟨hKind, hHead, hNodes, hControl⟩ := hMoved
  refine ⟨hNodes.trans h.nodes, ?_, ?_, ?_, ?_, ?_, ?_, ?_, ?_⟩
  · rw [hControl]
    exact h.ends
  · rw [hKind, hHead]
    exact h.head
  · rw [hSucc, hSize]
    exact h.known
  · rw [hKind, hSucc]
    exact h.unended
  · rw [hKind, hControl]
    exact h.control
  · rw [hKind, hSucc]
    exact h.waiting
  · rw [hKind]
    exact fun hBranch hDone => (h.wired hBranch hDone).of_heads hHeads hControl hSucc
  · rw [hKind]
    exact h.ended

/-- Only one block is changed: the others are wired as they were. -/
theorem Wiring.modifyBlock {change : Block → Block} (h : Wiring g done s)
    (hHead : ∀ block, (change block).head = block.head)
    (hChange : ∀ block, s.blocks[b]? = some block →
      Wire g (s.modifyBlock b change) done b (change block)) :
    Wiring g done (s.modifyBlock b change) := by
  have hHeads : (s.modifyBlock b change).heads = s.heads := heads_modifyBlock hHead
  intro i block hBlock
  rw [getElem?_modifyBlock] at hBlock
  by_cases hb : b = i
  · subst hb
    rw [if_pos rfl] at hBlock
    obtain ⟨old, hOld, rfl⟩ := Option.map_eq_some_iff.mp hBlock
    exact hChange old hOld
  · rw [if_neg hb] at hBlock
    exact (h i block hBlock).keep hHeads ⟨rfl, rfl, rfl, rfl⟩ rfl

theorem Wiring.edgesKnown (h : Wiring g done s) : s.EdgesKnown := by
  intro b x hx
  unfold successors at hx
  cases hBlock : s.blocks[b]? with
  | none =>
    rw [hBlock] at hx
    cases hx
  | some block =>
    rw [hBlock] at hx
    exact (h b block hBlock).known x hx

/-! ## Ends -/

theorem endBlock_eq_ok {kind : BlockKind} {control : Option NodeId}
    (hEnd : endBlock s id b kind control = .ok t) :
    ∃ block, s.blocks[b]? = some block ∧ block.kind = .none ∧
      t = s.modifyBlock b fun block => { block with kind, control } := by
  unfold endBlock Schedule.block at hEnd
  cases hBlock : s.blocks[b]? with
  | none =>
    rw [hBlock] at hEnd
    cases hEnd
  | some block =>
    rw [hBlock, ok_bind] at hEnd
    obtain ⟨hKind, hResult⟩ := check_eq_ok.mp hEnd
    exact ⟨block, rfl, of_not_not hKind, (pure_eq_ok.mp hResult).symm⟩

/-- The walk along control inputs ends at a head. -/
theorem isHead_of_climb {fuel : Nat} {x head : NodeId} (h : headOf.climb g id fuel x = .ok head) :
    g.IsHead head := by
  -- induction on the climb, which stops at heads alone
  induction fuel generalizing x with
  | zero => cases h
  | succ fuel ih =>
    unfold headOf.climb at h
    by_cases hx : x < 0
    · rw [if_pos hx] at h
      obtain ⟨op, -, h⟩ := bind_eq_ok.mp h
      cases h
    · rw [if_neg hx] at h
      obtain ⟨op, hOp, h⟩ := bind_eq_ok.mp h
      split at h
      · next hHead =>
        cases pure_eq_ok.mp h
        obtain ⟨n, hn, rfl⟩ := Graph.op_eq_ok.mp hOp
        exact ⟨n, hn, hHead⟩
      · obtain ⟨y, -, h⟩ := bind_eq_ok.mp h
        exact ih h

/-- Control leads to a block that starts with a head. -/
theorem head_of_blockOfControl (h : blockOfControl g s id = .ok b) :
    ∃ block, s.blocks[b]? = some block ∧ g.IsHead block.head := by
  obtain ⟨head, hHead, hAt⟩ := bind_eq_ok.mp h
  obtain ⟨block, hBlock, rfl⟩ := lt_of_blockAt hAt
  exact ⟨block, hBlock, isHead_of_climb hHead⟩

/-- A block that ends had no edges. -/
theorem Wiring.endBlock {kind : BlockKind} {control : Option NodeId} {x : NodeId}
    (h : Wiring g [] s) (hEnds : ∀ c, control = some c → g.IsEnd c)
    (hControl : kind = .branch → ∃ c, control = some c) (hAt : blockOfControl g s x = .ok b)
    (hEnd : endBlock s id b kind control = .ok t) :
    Wiring g [] t ∧ t.heads = s.heads ∧ t.home = s.home ∧
      ∃ new, t.blocks[b]? = some new ∧ new.kind = kind := by
  obtain ⟨block, hBlock, hKind, rfl⟩ := endBlock_eq_ok hEnd
  -- a block still open has no successor yet, whatever ends it now
  refine ⟨h.modifyBlock (fun _ => rfl) ?_, heads_modifyBlock fun _ => rfl, rfl, ?_⟩
  · intro old hOld
    obtain rfl : block = old := Option.some.inj (hBlock.symm.trans hOld)
    obtain ⟨found, hFound, hHead⟩ := head_of_blockOfControl hAt
    obtain rfl : block = found := Option.some.inj (hBlock.symm.trans hFound)
    have hSucc : block.succ = [] := (h b block hBlock).unended hKind
    refine ⟨(h b block hBlock).nodes, hEnds, fun _ => hHead, ?_, fun _ => hSucc, hControl,
      fun _ _ => hSucc, by simp, by simp⟩
    show ∀ x ∈ block.succ, _
    simp [hSucc]
  · rw [getElem?_modifyBlock, if_pos rfl, hBlock]
    exact ⟨_, rfl, rfl⟩

/-- A jump gets its edge. -/
theorem Wiring.link (h : Wiring g done s) (hBlock : s.blocks[b]? = some block)
    (hKind : block.kind = .goto) (hTarget : target < s.blocks.size) :
    Wiring g done (s.link b target) := by
  have hFirst : Wiring g done
      (s.modifyBlock b fun block => { block with succ := block.succ ++ [target] }) := by
    refine h.modifyBlock (fun _ => rfl) ?_
    intro old hOld
    obtain rfl : block = old := Option.some.inj (hBlock.symm.trans hOld)
    -- A jump is neither without an end nor a branch, so only the range of its edges matters.
    have hNone : block.kind ≠ .none := by rw [hKind]; decide
    have hBranch : block.kind ≠ .branch := by rw [hKind]; decide
    have hWire := h b block hBlock
    refine ⟨hWire.nodes, hWire.ends, hWire.head, ?_, fun hIs => absurd hIs hNone,
      fun hIs => absurd hIs hBranch, fun hIs => absurd hIs hBranch, fun hIs => absurd hIs hBranch,
      fun _ => hNone⟩
    intro x hx
    rw [Schedule.modifyBlock, Array.size_modify]
    rcases List.mem_append.mp hx with hOldEdge | hNewEdge
    · exact hWire.known x hOldEdge
    · rw [List.mem_singleton.mp hNewEdge]
      exact hTarget
  refine hFirst.modifyBlock (fun _ => rfl) ?_
  intro old hOld
  exact (hFirst target old hOld).keep (heads_modifyBlock fun _ => rfl) ⟨rfl, rfl, rfl, rfl⟩ rfl

/-- The blocks that one node ends. -/
theorem Wiring.endBlocks (h : Wiring g [] s) (hn : g.node? id = some n)
    (hEnds : endBlocks g s id n = .ok t) :
    Wiring g [] t ∧ t.heads = s.heads ∧ t.home = s.home := by
  -- A branch and a return end the block of their control in the same way.
  have hOwn : n.op = .branch ∨ n.op = .ret → ∀ {x b kind}, blockOfControl g s x = .ok b →
      Schedule.endBlock s id b kind (some id) = .ok t →
      Wiring g [] t ∧ t.heads = s.heads ∧ t.home = s.home := by
    intro hOp x b kind hAt hEnd
    have hIs : ∀ c, some id = some c → g.IsEnd c := by
      rintro c ⟨⟩
      exact ⟨n, hn, hOp⟩
    obtain ⟨hNext, hHeads, hHome, -⟩ := h.endBlock hIs (fun _ => ⟨id, rfl⟩) hAt hEnd
    exact ⟨hNext, hHeads, hHome⟩
  unfold Schedule.endBlocks at hEnds
  split at hEnds
  · next hOp =>
    obtain ⟨u, -, hEnds⟩ := bind_eq_ok.mp hEnds
    obtain ⟨b, hAt, hEnd⟩ := bind_eq_ok.mp hEnds
    exact hOwn (.inl hOp) hAt hEnd
  · next hOp =>
    obtain ⟨u, -, hEnds⟩ := bind_eq_ok.mp hEnds
    obtain ⟨b, hAt, hEnd⟩ := bind_eq_ok.mp hEnds
    exact hOwn (.inr hOp) hAt hEnd
  · obtain ⟨target, hTarget, hEnds⟩ := bind_eq_ok.mp hEnds
    obtain ⟨found, hFound, -⟩ := lt_of_blockAt hTarget
    have hLt : target < s.blocks.size := (Array.getElem?_eq_some_iff.mp hFound).1
    refine Settles.of_ok (Settles.foldlM_mem (R := fun _ => True)
      (I := fun t => Wiring g [] t ∧ t.heads = s.heads ∧ t.home = s.home) ⟨h, rfl, rfl⟩ ?_) hEnds
    rintro input - u ⟨hWiring, hHeads, hHome⟩
    refine Settles.intro ?_
    intro v hv
    obtain ⟨b, hAt, hv⟩ := bind_eq_ok.mp hv
    obtain ⟨w, hEnd, hv⟩ := bind_eq_ok.mp hv
    cases pure_eq_ok.mp hv
    obtain ⟨hNext, hKeep, hPlaces, new, hNew, hKind⟩ :=
      hWiring.endBlock (by simp) (by simp) hAt hEnd
    have hSame : w.heads = s.heads := hKeep.trans hHeads
    have hInside : target < w.blocks.size := by
      rw [← size_heads, hSame, size_heads]
      exact hLt
    exact ⟨hNext.link hNew hKind hInside, (heads_link w b target).trans hSame,
      hPlaces.trans hHome⟩
  · cases pure_eq_ok.mp hEnds
    exact ⟨h, rfl, rfl⟩

/-! ## Edges of branches -/

/-- The projections that are found have the branch among their inputs. -/
theorem projections_eq_ok {x y : NodeId} (hFound : projections g live branch = .ok (some x, some y)) :
    (∃ n, g.node? x = some n ∧ n.op = .ifTrue ∧ branch ∈ n.inputs) ∧
      ∃ n, g.node? y = some n ∧ n.op = .ifFalse ∧ branch ∈ n.inputs := by
  unfold projections at hFound
  obtain ⟨uses, hUses, hFound⟩ := bind_eq_ok.mp hFound
  cases Graph.uses_eq_ok hUses
  -- Whichever of the two it is, it is the last user with a given operator.
  have hLast : ∀ op x, (((((g.edgesTo branch).filterMap fun u =>
      if live.contains u.user then (g.node? u.user).map fun n => (u.user, n.op) else none).filter
        fun p => p.2 = op).getLast?).map (·.1)) = some x →
      ∃ n, g.node? x = some n ∧ n.op = op ∧ branch ∈ n.inputs := by
    intro op x hx
    obtain ⟨⟨user, o⟩, hGet, rfl⟩ := Option.map_eq_some_iff.mp hx
    obtain ⟨hUser, hOp⟩ := List.mem_filter.mp (List.mem_of_getLast? hGet)
    obtain ⟨u, hUse, hu⟩ := List.mem_filterMap.mp hUser
    rw [Option.ite_none_right_eq_some] at hu
    obtain ⟨m, hm, hPair⟩ := Option.map_eq_some_iff.mp hu.2
    cases hPair
    obtain ⟨m', hm', hInput⟩ := Graph.mem_edgesTo.mp hUse
    obtain rfl : m = m' := Option.some.inj (hm.symm.trans hm')
    exact ⟨m, hm, of_decide_eq_true hOp, List.mem_of_getElem? hInput⟩
  obtain ⟨hTrue, hFalse⟩ := Prod.mk.inj (pure_eq_ok.mp hFound)
  exact ⟨hLast .ifTrue x hTrue, hLast .ifFalse y hFalse⟩

/-- What is left of a block when an edge is added. -/
theorem link_block (hNew : (s.link b target).blocks[i]? = some new) :
    ∃ old, s.blocks[i]? = some old ∧ Moved old new ∧
      new.succ = if i = b then old.succ ++ [target] else old.succ := by
  unfold Schedule.link at hNew
  dsimp only at hNew
  rw [getElem?_modifyBlock, getElem?_modifyBlock] at hNew
  cases hOld : s.blocks[i]? with
  | none =>
    rw [hOld] at hNew
    split at hNew <;> split at hNew <;> cases hNew
  | some old =>
    rw [hOld] at hNew
    refine ⟨old, rfl, ?_⟩
    -- only the block left gains a successor, also where a block enters itself
    by_cases hb : b = i
    · rw [if_pos hb] at hNew
      rw [if_pos hb.symm]
      split at hNew <;> cases hNew <;> exact ⟨⟨rfl, rfl, rfl, rfl⟩, rfl⟩
    · rw [if_neg hb] at hNew
      rw [if_neg (Ne.symm hb)]
      split at hNew <;> cases hNew <;> exact ⟨⟨rfl, rfl, rfl, rfl⟩, rfl⟩

/-- What is left of a block when two edges are added. -/
theorem link_link_block {p q : Nat} (hNew : ((s.link b p).link b q).blocks[i]? = some new) :
    ∃ old, s.blocks[i]? = some old ∧ Moved old new ∧
      new.succ = if i = b then old.succ ++ [p, q] else old.succ := by
  obtain ⟨mid, hMid, hMoved', hSucc'⟩ := link_block hNew
  obtain ⟨old, hOld, hMoved, hSucc⟩ := link_block hMid
  refine ⟨old, hOld, hMoved.trans hMoved', ?_⟩
  rw [hSucc', hSucc]
  split
  · rw [List.append_assoc]
    rfl
  · rfl

/-- A block is wired still when the turn of `b` has come, unless it is that block and its branch had
to be wired. -/
theorem Wire.pass (h : Wire g s done i block)
    (hNot : i = b → block.kind ≠ .branch ∧ block.kind ≠ .none) :
    Wire g s (done ++ [b]) i block where
  nodes := h.nodes
  ends := h.ends
  head := h.head
  known := h.known
  unended := h.unended
  control := h.control
  waiting hKind hNew := h.waiting hKind fun hOld => hNew (List.mem_append_left _ hOld)
  wired hKind hNew := by
    rcases List.mem_append.mp hNew with hOld | hLast
    · exact h.wired hKind hOld
    · exact absurd hKind (hNot (List.mem_singleton.mp hLast)).1
  ended hNew := by
    rcases List.mem_append.mp hNew with hOld | hLast
    · exact h.ended hOld
    · exact (hNot (List.mem_singleton.mp hLast)).2

/-- The block of a branch is wired once it leads to the projections of the branch. -/
theorem Wire.linked {old : Block} {p q : Nat} (h : Wire g s done b old)
    (hKind : old.kind = .branch) (hControl : old.control = some branch) (hMoved : Moved old new)
    (hEdges : new.succ = [p, q]) (hHeads : t.heads = s.heads)
    (hTrue : s.StartsWith g p branch .ifTrue) (hFalse : s.StartsWith g q branch .ifFalse) :
    Wire g t (done ++ [b]) b new where
  nodes := hMoved.nodes.trans h.nodes
  ends := by
    rw [hMoved.control]
    exact h.ends
  head := by
    rw [hMoved.kind, hMoved.head]
    exact h.head
  -- Both targets are blocks, since they start with the arms.
  known := by
    have hSize : t.blocks.size = s.blocks.size := by
      rw [← size_heads, hHeads, size_heads]
    obtain ⟨blockT, -, hBlockT, -⟩ := hTrue
    obtain ⟨blockF, -, hBlockF, -⟩ := hFalse
    rw [hSize, hEdges]
    intro x hx
    rcases List.mem_cons.mp hx with rfl | hx
    · exact (Array.getElem?_eq_some_iff.mp hBlockT).1
    · rw [List.mem_singleton.mp hx]
      exact (Array.getElem?_eq_some_iff.mp hBlockF).1
  unended := by
    rw [hMoved.kind, hKind]
    nofun
  control _ := ⟨branch, hMoved.control.trans hControl⟩
  waiting _ hNot := absurd (List.mem_append_right _ List.mem_cons_self) hNot
  wired _ _ := ⟨branch, p, q, hMoved.control.trans hControl, hEdges, hTrue.of_heads hHeads,
    hFalse.of_heads hHeads⟩
  ended _ := by
    rw [hMoved.kind, hKind]
    decide

/-- A branch whose turn it is gets its two edges. -/
theorem Wiring.linkBranch (h : Wiring g done s) (hb : b ∉ done)
    (hLink : linkBranch g live s b = .ok t) :
    Wiring g (done ++ [b]) t ∧ t.heads = s.heads ∧ t.home = s.home := by
  unfold Schedule.linkBranch Schedule.block at hLink
  cases hBlock : s.blocks[b]? with
  | none =>
    rw [hBlock] at hLink
    cases hLink
  | some block =>
    rw [hBlock, ok_bind] at hLink
    split at hLink
    · cases hLink
    · next branch hKind hControl =>
      obtain ⟨p, hFound, hLink⟩ := bind_eq_ok.mp hLink
      split at hLink
      · next x y =>
        obtain ⟨p, hp, hLink⟩ := bind_eq_ok.mp hLink
        obtain ⟨q, hq, hLink⟩ := bind_eq_ok.mp hLink
        cases pure_eq_ok.mp hLink
        obtain ⟨⟨n, hn, hnOp, hnIn⟩, m, hm, hmOp, hmIn⟩ := projections_eq_ok hFound
        obtain ⟨blockX, hBlockX, rfl⟩ := lt_of_blockAt hp
        obtain ⟨blockY, hBlockY, rfl⟩ := lt_of_blockAt hq
        have hHeads : ((s.link b p).link b q).heads = s.heads :=
          (heads_link _ b q).trans (heads_link s b p)
        refine ⟨?_, hHeads, rfl⟩
        intro i new hNew
        obtain ⟨old, hOld, hMoved, hSucc⟩ := link_link_block hNew
        -- The block of the branch gets its two targets, the others stay as they were.
        by_cases hi : i = b
        · subst hi
          obtain rfl : block = old := Option.some.inj (hBlock.symm.trans hOld)
          have hWire := h i block hBlock
          have hEdges : new.succ = [p, q] := by
            rw [hSucc, if_pos rfl, hWire.waiting hKind hb]
            rfl
          exact hWire.linked hKind hControl hMoved hEdges hHeads ⟨blockX, n, hBlockX, hn, hnOp, hnIn⟩
            ⟨blockY, m, hBlockY, hm, hmOp, hmIn⟩
        · rw [if_neg hi] at hSucc
          exact ((h i old hOld).pass fun hIs => absurd hIs hi).keep hHeads hMoved hSucc
      · cases hLink
    · -- Where the block is no branch nothing is linked.
      next hNone hNoBranch =>
      cases pure_eq_ok.mp hLink
      refine ⟨?_, rfl, rfl⟩
      intro i old hOld
      refine (h i old hOld).pass ?_
      rintro rfl
      obtain rfl : block = old := Option.some.inj (hBlock.symm.trans hOld)
      refine ⟨fun hKind => ?_, hNone⟩
      obtain ⟨c, hc⟩ := (h i block hBlock).control hKind
      exact hNoBranch c hKind hc

/-! ## Blocks in order -/

/-- A block of the control chain: no node is placed in it yet, and it leads where its end does. -/
structure Bare (g : Graph) (s : Schedule) (block : Block) : Prop where
  nodes : block.nodes = []
  head : g.IsHead block.head
  ends : ∀ c, block.control = some c → g.IsEnd c
  wired : block.kind = .branch → Wired g s block

/-- Edges keep leading to the same blocks when these are put into order. -/
theorem Wiring.inOrder (h : Wiring g done s) (h0 : 0 < s.blocks.size)
    (hSize : s.inOrder.blocks.size = s.blocks.size)
    (hDone : ∀ b < s.blocks.size, b ∈ done) (hNew : s.inOrder.blocks[i]? = some new) :
    Bare g s.inOrder new := by
  have hEdges := h.edgesKnown
  obtain ⟨b, block, hb, hBlock, hMoved, -⟩ := hEdges.exists_old h0 hSize hNew
  have hWire := h b block hBlock
  have hLt : b < s.blocks.size := (Array.getElem?_eq_some_iff.mp hBlock).1
  refine ⟨hMoved.nodes.trans hWire.nodes, ?_,
    fun c hc => hWire.ends c (hMoved.control.symm.trans hc), ?_⟩
  · rw [hMoved.head]
    exact hWire.head (hWire.ended (hDone b hLt))
  intro hKind
  obtain ⟨branch, t, f, hControl, hSucc, hTrue, hFalse⟩ :=
    hWire.wired (hMoved.kind.symm.trans hKind) (hDone b hLt)
  -- A block that an edge led to has a place in the order, and starts as it did.
  have hPlace : ∀ {x : Nat} {op : Operator}, s.StartsWith g x branch op →
      ∃ j, s.postorder.idxOf? x = some j ∧ s.inOrder.StartsWith g j branch op := by
    rintro x op ⟨old, n, hOld, hn, hOp, hIn⟩
    obtain ⟨j, moved, hj, hMovedTo, hSame⟩ := hEdges.exists_new h0 hSize hOld
    exact ⟨j, postorder_idxOf? hj, moved, n, hMovedTo, by rw [hSame.head]; exact hn, hOp, hIn⟩
  obtain ⟨t', ht, hTrue'⟩ := hPlace hTrue
  obtain ⟨f', hf, hFalse'⟩ := hPlace hFalse
  refine ⟨branch, t', f', hMoved.control.trans hControl, ?_, hTrue', hFalse'⟩
  have hOrdered : s.inOrder.successors i =
      (s.successors b).filterMap fun x => s.postorder.idxOf? x := by
    rw [Schedule.inOrder, setDominators_successors]
    exact hEdges.successors_renumber h0 hb
  unfold successors at hOrdered
  rw [hNew, hBlock] at hOrdered
  show Option.elim (some new) [] Block.succ = _
  rw [hOrdered]
  simp [hSucc, ht, hf]

/-- The blocks of the control chain are given their ends and edges. -/
theorem linkedBlocks_wiring (hLinked : linkedBlocks g live = .ok s) :
    Wiring g (List.range s.blocks.size) s ∧ 0 < s.blocks.size ∧ s.home = fun _ => none := by
  obtain ⟨ended, hEnded, hLinked⟩ := bind_eq_ok.mp hLinked
  have hInit : Wiring g [] { blocks := ((headsOf g live).map fun head => { head }).toArray } := by
    intro i block hBlock
    rw [List.getElem?_toArray, List.getElem?_map, Option.map_eq_some_iff] at hBlock
    obtain ⟨head, -, rfl⟩ := hBlock
    exact ⟨rfl, by simp, by simp, by simp, fun _ => rfl, by simp, fun _ _ => rfl, by simp, by simp⟩
  have hEnds : Wiring g [] ended ∧ ended.blocks.size = (headsOf g live).length ∧
      ended.home = fun _ => none := by
    refine Settles.of_ok (Settles.foldlM_mem (R := fun _ => True)
      (I := fun t => Wiring g [] t ∧ t.blocks.size = (headsOf g live).length ∧
        t.home = fun _ => none)
      ⟨hInit, by simp, rfl⟩ ?_) hEnded
    rintro ⟨n, k⟩ hNode u ⟨hWiring, hCount, hHome⟩
    dsimp only
    split
    · refine Settles.intro ?_
      intro v hv
      obtain ⟨hNext, hHeads, hPlaces⟩ := hWiring.endBlocks (Graph.mem_zipIdx.mp hNode) hv
      exact ⟨hNext, by rw [← size_heads, hHeads, size_heads, hCount], hPlaces.trans hHome⟩
    · exact Settles.pure ⟨hWiring, hCount, hHome⟩
  have hLinks : Wiring g (List.range ended.blocks.size) s ∧
      s.blocks.size = ended.blocks.size ∧ s.home = ended.home := by
    refine Settles.of_ok (Settles.foldlM (R := fun _ => True)
      (I := fun front t => Wiring g front t ∧ t.blocks.size = ended.blocks.size ∧
        t.home = ended.home)
      ⟨hEnds.1, rfl, rfl⟩ ?_) hLinked
    rintro front k rest u hSplit ⟨hWiring, hCount, hHome⟩
    refine Settles.intro ?_
    intro v hv
    -- No block has its turn twice.
    have hFresh : k ∉ front := by
      have hNodup : (front ++ k :: rest).Nodup := hSplit ▸ List.nodup_range
      intro hMem
      exact (List.nodup_append.mp hNodup).2.2 k hMem k List.mem_cons_self rfl
    obtain ⟨hNext, hHeads, hPlaces⟩ := hWiring.linkBranch hFresh hv
    exact ⟨hNext, by rw [← size_heads, hHeads, size_heads, hCount], hPlaces.trans hHome⟩
  refine ⟨?_, ?_, hLinks.2.2.trans hEnds.2.2⟩
  · rw [hLinks.2.1]
    exact hLinks.1
  · rw [hLinks.2.1, hEnds.2.1]
    exact List.length_pos_of_mem (mem_headsOf.mpr (.inl rfl))

/-- The blocks of the control chain lead where their branches do. -/
theorem buildBlocks_bare (hBuild : buildBlocks g live = .ok s)
    (hBlock : s.blocks[b]? = some block) : Bare g s block := by
  obtain ⟨linked, hLinked, hSize, rfl⟩ := buildBlocks_eq_ok.mp hBuild
  obtain ⟨hWiring, h0, -⟩ := linkedBlocks_wiring hLinked
  exact hWiring.inOrder h0 hSize (fun i hi => List.mem_range.mpr hi) hBlock

/-- No node has a place when the blocks have been built. -/
theorem buildBlocks_home (hBuild : buildBlocks g live = .ok s) : s.home id = none := by
  obtain ⟨linked, hLinked, -, rfl⟩ := buildBlocks_eq_ok.mp hBuild
  obtain ⟨-, -, hHome⟩ := linkedBlocks_wiring hLinked
  show (linked.home id).bind (fun b => linked.postorder.idxOf? b) = none
  rw [hHome]
  rfl

/-- A path leads to every block of the control chain. -/
theorem buildBlocks_reached (hBuild : buildBlocks g live = .ok s)
    (hBlock : s.blocks[b]? = some block) : s.Reached b := by
  obtain ⟨linked, hLinked, hSize, rfl⟩ := buildBlocks_eq_ok.mp hBuild
  obtain ⟨hWiring, h0, -⟩ := linkedBlocks_wiring hLinked
  have hEdges := hWiring.edgesKnown
  obtain ⟨old, -, hb, -⟩ := hEdges.exists_old h0 hSize hBlock
  obtain ⟨path, hPath⟩ := hEdges.reached h0 hSize hb
  refine ⟨path, ?_⟩
  unfold IsPath inOrder at *
  rw [setDominators_successors]
  exact hPath

/-- The predecessors of a block of the control chain are blocks. -/
theorem buildBlocks_predecessors (hBuild : buildBlocks g live = .ok s) {p : Nat}
    (hp : p ∈ s.predecessors b) : ∃ block, s.blocks[p]? = some block := by
  obtain ⟨linked, hLinked, hSize, rfl⟩ := buildBlocks_eq_ok.mp hBuild
  obtain ⟨hWiring, h0, -⟩ := linkedBlocks_wiring hLinked
  have hLength : linked.postorder.length = linked.inOrder.blocks.size := by
    rw [(hWiring.edgesKnown.postorder_perm h0 hSize).length_eq, List.length_range, hSize]
  suffices hLt : p < linked.postorder.length by
    exact ⟨_, Array.getElem?_eq_getElem (hLength ▸ hLt)⟩
  -- A predecessor is a position in the order.
  unfold predecessors at hp
  cases hBlock : linked.inOrder.blocks[b]? with
  | none =>
    rw [hBlock] at hp
    cases hp
  | some block =>
    rw [hBlock] at hp
    unfold inOrder setDominators at hBlock
    dsimp only at hBlock
    rw [Array.getElem?_mapIdx] at hBlock
    obtain ⟨mid, hMid, rfl⟩ := Option.map_eq_some_iff.mp hBlock
    unfold renumber at hMid
    dsimp only at hMid
    rw [List.getElem?_toArray] at hMid
    obtain ⟨old, -, hOld⟩ := List.mem_filterMap.mp (List.mem_of_getElem? hMid)
    obtain ⟨found, -, rfl⟩ := Option.map_eq_some_iff.mp hOld
    obtain ⟨q, -, hq⟩ := List.mem_filterMap.mp hp
    exact (List.idxOf?_eq_some_iff.mp hq).1

end Schedule
end ArmBackend
