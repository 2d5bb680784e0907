import ArmBackend.Proofs.Schedule.Computed

/-!
# How blocks end

A block ends in a jump, a branch or a return, and nothing else ends it. A jump leads to a merge that
control comes into from the block; every input of a merge comes from a block that jumps to it, and no
two inputs come from the same one, because a block that has ended is not ended again (`Carries`).

## Results

* `compute_flow` — how control flows through the blocks of a computed schedule (`Flow`).
-/

namespace ArmBackend.Schedule

variable {g : Graph} {root id x : NodeId} {live : BitSet} {s t u : Schedule} {b i target : Nat}
  {block new : Block} {n : Node} {kind : BlockKind}

/-! ## Ends and edges -/

/-- Whether control comes from a head into the merge that block `t` starts with. -/
def Joins (g : Graph) (s : Schedule) (t : Nat) (head : NodeId) : Prop :=
  ∃ m n x, s.heads[t]? = some m ∧ g.node? m = some n ∧ n.op = .merge ∧ x ∈ n.inputs ∧
    g.ControlHead x head

/-- What the end of a block says about its edges. -/
structure Ending (g : Graph) (s : Schedule) (block : Block) : Prop where
  none : block.kind = .none → block.succ = []
  goto : block.kind = .goto → block.control = Option.none ∧
    ∃ t, block.succ = [t] ∧ Joins g s t block.head
  branch : block.kind = .branch → ∃ c, block.control = some c ∧ g.HasOp c .branch
  ret : block.kind = .ret → block.succ = [] ∧ ∃ c, block.control = some c ∧ g.HasOp c .ret

/-- The blocks while they are given ends and edges. -/
def Endings (g : Graph) (s : Schedule) : Prop :=
  ∀ (b : Nat) (block : Block), s.blocks[b]? = some block → Ending g s block

/-- Whether blocks that have ended keep their end, and jumps lead where they led. -/
def Carries (s t : Schedule) : Prop :=
  ∀ (i : Nat) (block : Block), s.blocks[i]? = some block → block.kind ≠ .none →
    ∃ new, t.blocks[i]? = some new ∧ new.head = block.head ∧ new.kind = block.kind ∧
      (block.kind = .goto → new.succ = block.succ)

theorem Carries.refl (s : Schedule) : Carries s s :=
  fun _ block hBlock _ => ⟨block, hBlock, rfl, rfl, fun _ => rfl⟩

theorem Carries.trans (h : Carries s t) (h' : Carries t u) : Carries s u := by
  intro i block hBlock hKind
  obtain ⟨mid, hMid, hHead, hSame, hSucc⟩ := h i block hBlock hKind
  obtain ⟨new, hNew, hHead', hSame', hSucc'⟩ := h' i mid hMid (hSame ▸ hKind)
  refine ⟨new, hNew, hHead'.trans hHead, hSame'.trans hSame, fun hGoto => ?_⟩
  exact (hSucc' (hSame.trans hGoto)).trans (hSucc hGoto)

theorem Ending.of_heads (h : Ending g s block) (hHeads : t.heads = s.heads)
    (hKind : new.kind = block.kind) (hHead : new.head = block.head)
    (hControl : new.control = block.control) (hSucc : new.succ = block.succ) : Ending g t new where
  none hIs := hSucc.trans (h.none (hKind.symm.trans hIs))
  goto hIs := by
    obtain ⟨hNone, target, hTarget, hJoins⟩ := h.goto (hKind.symm.trans hIs)
    refine ⟨hControl.trans hNone, target, hSucc.trans hTarget, ?_⟩
    unfold Joins
    rw [hHeads, hHead]
    exact hJoins
  branch hIs := hControl ▸ h.branch (hKind.symm.trans hIs)
  ret hIs := by
    obtain ⟨hNone, hRet⟩ := h.ret (hKind.symm.trans hIs)
    exact ⟨hSucc.trans hNone, hControl ▸ hRet⟩

/-! ## Ending one block -/

/-- Where a step changes one block only, and that had not ended, the others are as they were. -/
theorem Endings.change (h : Endings g s) (hHeads : t.heads = s.heads)
    (hOpen : ∀ old, s.blocks[b]? = some old → old.kind = .none)
    (hOther : ∀ (i : Nat) (new : Block), t.blocks[i]? = some new → i ≠ b →
      ∃ old, s.blocks[i]? = some old ∧ Moved old new ∧ new.succ = old.succ)
    (hNew : ∀ new, t.blocks[b]? = some new → Ending g t new) : Endings g t ∧ Carries s t := by
  refine ⟨fun i new hAt => ?_, fun i old hOld hKind => ?_⟩
  · -- only block `b` changes, and it was open
    by_cases hi : i = b
    · subst hi
      exact hNew new hAt
    · obtain ⟨old, hOld, hMoved, hSucc⟩ := hOther i new hAt hi
      exact (h i old hOld).of_heads hHeads hMoved.kind hMoved.head hMoved.control hSucc
  · have hi : i ≠ b := by
      rintro rfl
      exact hKind (hOpen old hOld)
    have hLt : i < t.blocks.size := by
      rw [← size_heads, hHeads, size_heads]
      exact (Array.getElem?_eq_some_iff.mp hOld).1
    have hAt := Array.getElem?_eq_getElem hLt
    obtain ⟨same, hSame, hMoved, hSucc⟩ := hOther i _ hAt hi
    obtain rfl : same = old := Option.some.inj (hSame.symm.trans hOld)
    exact ⟨_, hAt, hMoved.head, hMoved.kind, fun _ => hSucc⟩

/-- A branch or a return ends a block. -/
theorem Endings.endBlock (h : Endings g s) (hn : g.node? id = some n)
    (hKind : (kind = .branch ∧ n.op = .branch) ∨ (kind = .ret ∧ n.op = .ret))
    (hEnd : endBlock s id b kind (some id) = .ok t) :
    Endings g t ∧ t.heads = s.heads ∧ Carries s t := by
  obtain ⟨block, hBlock, hOpen, rfl⟩ := endBlock_eq_ok hEnd
  have hHeads : (s.modifyBlock b fun block => { block with kind, control := some id }).heads =
      s.heads := heads_modifyBlock fun _ => rfl
  have hChange : Endings g _ ∧ Carries s _ := h.change hHeads (b := b) ?_ ?_ ?_
  · exact ⟨hChange.1, hHeads, hChange.2⟩
  · intro old hOld
    obtain rfl : block = old := Option.some.inj (hBlock.symm.trans hOld)
    exact hOpen
  · intro i new hNew hi
    rw [getElem?_modifyBlock, if_neg (Ne.symm hi)] at hNew
    exact ⟨new, hNew, ⟨rfl, rfl, rfl, rfl⟩, rfl⟩
  · intro new hNew
    rw [getElem?_modifyBlock, if_pos rfl, hBlock] at hNew
    cases hNew
    -- an open block has no successors yet
    have hSucc : block.succ = [] := (h b block hBlock).none hOpen
    rcases hKind with ⟨rfl, hOp⟩ | ⟨rfl, hOp⟩
    · exact ⟨nofun, nofun, fun _ => ⟨id, rfl, n, hn, hOp⟩, nofun⟩
    · exact ⟨nofun, nofun, nofun, fun _ => ⟨hSucc, id, rfl, n, hn, hOp⟩⟩

/-- A merge ends a block by a jump to it. -/
theorem Endings.jump (h : Endings g s) (hEnd : Schedule.endBlock s id b .goto none = .ok u)
    (hJoins : ∀ block, s.blocks[b]? = some block → Joins g s target block.head) :
    Endings g (u.link b target) ∧ (u.link b target).heads = s.heads ∧
      Carries s (u.link b target) ∧ ∃ old new, s.blocks[b]? = some old ∧ old.kind = .none ∧
        (u.link b target).blocks[b]? = some new ∧ new.head = old.head ∧ new.kind = .goto ∧
        new.succ = [target] := by
  obtain ⟨block, hBlock, hOpen, rfl⟩ := endBlock_eq_ok hEnd
  have hHeads : ((s.modifyBlock b fun block => { block with kind := .goto, control := none }).link b
      target).heads = s.heads :=
    (heads_link _ b target).trans (heads_modifyBlock fun _ => rfl)
  -- The block that is ended has no edges yet, so the jump is its only one.
  have hSucc : block.succ = [] := (h b block hBlock).none hOpen
  have hThis : ∀ new, ((s.modifyBlock b fun block =>
      { block with kind := .goto, control := none }).link b target).blocks[b]? = some new →
      new.head = block.head ∧ new.kind = .goto ∧ new.succ = [target] ∧ new.control = none := by
    intro new hNew
    obtain ⟨old, hOld, hMoved, hEdges⟩ := link_block hNew
    rw [getElem?_modifyBlock, if_pos rfl, hBlock] at hOld
    cases hOld
    rw [if_pos rfl] at hEdges
    exact ⟨hMoved.head, hMoved.kind, by rw [hEdges, hSucc]; rfl, hMoved.control⟩
  have hChange : Endings g _ ∧ Carries s _ := h.change hHeads (b := b) ?_ ?_ ?_
  · refine ⟨hChange.1, hHeads, hChange.2, block, ?_⟩
    have hLt : b < ((s.modifyBlock b fun block =>
        { block with kind := .goto, control := none }).link b target).blocks.size := by
      rw [← size_heads, hHeads, size_heads]
      exact (Array.getElem?_eq_some_iff.mp hBlock).1
    have hAt := Array.getElem?_eq_getElem hLt
    obtain ⟨hHead, hKind, hEdges, -⟩ := hThis _ hAt
    exact ⟨_, hBlock, hOpen, hAt, hHead, hKind, hEdges⟩
  · intro old hOld
    obtain rfl : block = old := Option.some.inj (hBlock.symm.trans hOld)
    exact hOpen
  · intro i new hNew hi
    obtain ⟨old, hOld, hMoved, hEdges⟩ := link_block hNew
    rw [getElem?_modifyBlock, if_neg (Ne.symm hi)] at hOld
    rw [if_neg hi] at hEdges
    exact ⟨old, hOld, hMoved, hEdges⟩
  · intro new hNew
    obtain ⟨hHead, hKind, hEdges, hControl⟩ := hThis new hNew
    refine ⟨?_, fun _ => ⟨hControl, target, hEdges, ?_⟩, ?_, ?_⟩
    · simp [hKind]
    · unfold Joins
      rw [hHeads, hHead]
      exact hJoins block hBlock
    · simp [hKind]
    · simp [hKind]

/-! ## Merges -/

/-- Whether the inputs of a merge come from blocks that jump to it, or the first of them do. -/
def Merged (g : Graph) (s : Schedule) (merge : NodeId) (inputs : List NodeId) : Prop :=
  ∀ x ∈ inputs, ∃ (b : Nat) (block : Block), s.blocks[b]? = some block ∧
    g.ControlHead x block.head ∧ block.kind = .goto ∧
    ∃ t, block.succ = [t] ∧ s.heads[t]? = some merge

/-- Whether no two of the listed control nodes come from the same head. -/
def Apart (g : Graph) (inputs : List NodeId) : Prop :=
  inputs.Pairwise fun x y => ∀ h, g.ControlHead x h → ¬g.ControlHead y h

theorem Merged.carries {merge : NodeId} {inputs : List NodeId} (h : Merged g s merge inputs)
    (hHeads : t.heads = s.heads) (hCarries : Carries s t) : Merged g t merge inputs := by
  intro x hx
  obtain ⟨b, block, hBlock, hChain, hKind, target, hSucc, hTarget⟩ := h x hx
  obtain ⟨new, hNew, hHead, hSame, hEdges⟩ := hCarries b block hBlock (by rw [hKind]; decide)
  refine ⟨b, new, hNew, hHead ▸ hChain, hSame.trans hKind, target, (hEdges hKind).trans hSucc, ?_⟩
  rw [hHeads]
  exact hTarget

theorem eq_of_head (hNodup : s.heads.toList.Nodup) {c : Nat} {other : Block}
    (hBlock : s.blocks[b]? = some block) (hOther : s.blocks[c]? = some other)
    (hHead : block.head = other.head) : b = c := by
  have hb : s.heads.toList[b]? = some block.head := by
    rw [Array.getElem?_toList, heads_getElem?, hBlock]
    rfl
  have hc : s.heads.toList[c]? = some block.head := by
    rw [Array.getElem?_toList, heads_getElem?, hOther, hHead]
    rfl
  exact (List.getElem?_inj (List.getElem?_eq_some_iff.mp hb).1 hNodup).mp (hb.trans hc.symm)

/-- The block that the control of a node leads to. -/
theorem blockOfControl_eq_ok (hWell : g.WellFormed) (hx : ∃ n, g.node? x = some n)
    (hBlock : blockOfControl g s x = .ok b) :
    ∃ block, s.blocks[b]? = some block ∧ g.ControlHead x block.head := by
  obtain ⟨n, hn⟩ := hx
  obtain ⟨head, hHead, hAt⟩ := bind_eq_ok.mp hBlock
  obtain ⟨block, hFound, rfl⟩ := lt_of_blockAt hAt
  exact ⟨block, hFound, (headOf_settles hWell hn (.refl : g.Live x x)).of_ok hHead⟩

/-- The blocks that one node ends. -/
theorem Endings.endBlocks (h : Endings g s) (hWell : g.WellFormed) (hNodup : s.heads.toList.Nodup)
    (hn : g.node? id = some n) (hEnds : endBlocks g s id n = .ok t) :
    Endings g t ∧ t.heads = s.heads ∧ Carries s t ∧
      (n.op = .merge → Merged g t id n.inputs ∧ Apart g n.inputs) := by
  unfold Schedule.endBlocks at hEnds
  split at hEnds
  · -- A branch.
    next hOp =>
    obtain ⟨u, -, hEnds⟩ := bind_eq_ok.mp hEnds
    obtain ⟨b, -, hEnd⟩ := bind_eq_ok.mp hEnds
    obtain ⟨hNext, hHeads, hCarries⟩ := h.endBlock hn (.inl ⟨rfl, hOp⟩) hEnd
    exact ⟨hNext, hHeads, hCarries, fun hIs => by rw [hOp] at hIs; cases hIs⟩
  · -- A return.
    next hOp =>
    obtain ⟨u, -, hEnds⟩ := bind_eq_ok.mp hEnds
    obtain ⟨b, -, hEnd⟩ := bind_eq_ok.mp hEnds
    obtain ⟨hNext, hHeads, hCarries⟩ := h.endBlock hn (.inr ⟨rfl, hOp⟩) hEnd
    exact ⟨hNext, hHeads, hCarries, fun hIs => by rw [hOp] at hIs; cases hIs⟩
  · -- A merge, which ends one block for each of its inputs.
    next hOp =>
    obtain ⟨target, hTarget, hEnds⟩ := bind_eq_ok.mp hEnds
    obtain ⟨found, hFound, hIs⟩ := lt_of_blockAt hTarget
    have hAt : s.heads[target]? = some id := by
      rw [heads_getElem?, hFound, ← hIs]
      rfl
    -- The inputs that had their turn have ended their blocks, so the next one ends another.
    have hAll : Endings g t ∧ t.heads = s.heads ∧ Carries s t ∧ Merged g t id n.inputs ∧
        Apart g n.inputs := by
      refine Settles.of_ok (Settles.foldlM (R := fun _ => True)
        (I := fun front t => Endings g t ∧ t.heads = s.heads ∧ Carries s t ∧
          Merged g t id front ∧ Apart g front)
        ⟨h, rfl, .refl s, by simp [Merged], .nil⟩ ?_) hEnds
      rintro front x rest u hSplit ⟨hNow, hHeads, hCarries, hMerged, hApart⟩
      refine Settles.intro fun v hv => ?_
      obtain ⟨b, hb, hv⟩ := bind_eq_ok.mp hv
      obtain ⟨w, hEnd, hv⟩ := bind_eq_ok.mp hv
      cases pure_eq_ok.mp hv
      have hx : x ∈ n.inputs := by rw [hSplit]; simp
      obtain ⟨block, hBlock, hChain⟩ :=
        blockOfControl_eq_ok hWell (hWell.node_of_input ⟨n, hn, hx⟩) hb
      have hJoins : ∀ block, u.blocks[b]? = some block → Joins g u target block.head := by
        intro same hSame
        obtain rfl : block = same := Option.some.inj (hBlock.symm.trans hSame)
        exact ⟨id, n, x, by rw [hHeads]; exact hAt, hn, hOp, hx, hChain⟩
      obtain ⟨hNext, hHeads', hCarries', old, new, hOld, hOpen, hNew, hHead, hKind, hSucc⟩ :=
        hNow.jump hEnd hJoins
      obtain rfl : block = old := Option.some.inj (hBlock.symm.trans hOld)
      have hSame : (w.link b target).heads = s.heads := hHeads'.trans hHeads
      refine ⟨hNext, hSame, hCarries.trans hCarries', ?_, ?_⟩
      · intro y hy
        rcases List.mem_append.mp hy with hFront | hLast
        · exact hMerged.carries hHeads' hCarries' y hFront
        · rw [List.mem_singleton.mp hLast]
          exact ⟨b, new, hNew, hHead ▸ hChain, hKind, target, hSucc, by rw [hSame]; exact hAt⟩
      · refine List.pairwise_append.mpr ⟨hApart, List.pairwise_singleton _ _, ?_⟩
        intro y hy z hz head hyHead hzHead
        rw [List.mem_singleton.mp hz] at hzHead
        -- Had they one head, the block of the new input would have ended in a jump before.
        obtain ⟨c, other, hOther, hChain', hGoto, -⟩ := hMerged y hy
        have hHeads'' : block.head = other.head :=
          (hChain.unique hzHead).trans (hChain'.unique hyHead).symm
        obtain rfl := eq_of_head (by rw [hHeads]; exact hNodup) hBlock hOther hHeads''
        obtain rfl : block = other := Option.some.inj (hBlock.symm.trans hOther)
        rw [hOpen] at hGoto
        cases hGoto
    exact ⟨hAll.1, hAll.2.1, hAll.2.2.1, fun _ => hAll.2.2.2⟩
  · next hOp =>
    cases pure_eq_ok.mp hEnds
    exact ⟨h, rfl, .refl s, fun hIs => absurd hIs hOp⟩

/-- The edges of a branch are no others. -/
theorem Endings.linkBranch (h : Endings g s) (hLink : linkBranch g live s b = .ok t) :
    Endings g t ∧ t.heads = s.heads ∧ Carries s t ∧
      ∀ block, s.blocks[b]? = some block → block.kind ≠ .none := by
  unfold Schedule.linkBranch Schedule.block at hLink
  cases hBlock : s.blocks[b]? with
  | none =>
    rw [hBlock] at hLink
    cases hLink
  | some block =>
    rw [hBlock, ok_bind] at hLink
    split at hLink
    · cases hLink
    · next branch hKind hControl =>
      obtain ⟨p, -, hLink⟩ := bind_eq_ok.mp hLink
      split at hLink
      · next y z =>
        obtain ⟨p, -, hLink⟩ := bind_eq_ok.mp hLink
        obtain ⟨q, -, hLink⟩ := bind_eq_ok.mp hLink
        cases pure_eq_ok.mp hLink
        have hHeads : ((s.link b p).link b q).heads = s.heads :=
          (heads_link _ b q).trans (heads_link s b p)
        have hEdges : ∀ (i : Nat) (new : Block), ((s.link b p).link b q).blocks[i]? = some new →
            ∃ old, s.blocks[i]? = some old ∧ Moved old new ∧ (i ≠ b → new.succ = old.succ) := by
          intro i new hNew
          obtain ⟨mid, hMid, hMoved', hSucc'⟩ := link_block hNew
          obtain ⟨old, hOld, hMoved, hSucc⟩ := link_block hMid
          refine ⟨old, hOld, hMoved.trans hMoved', fun hi => ?_⟩
          rw [hSucc', if_neg hi, hSucc, if_neg hi]
        -- Edges are added to a block that ends in a branch, so no jump gets a second one.
        have hOnly : ∀ {i old}, s.blocks[i]? = some old → i = b → old.kind = .branch := by
          rintro i old hOld rfl
          obtain rfl : block = old := Option.some.inj (hBlock.symm.trans hOld)
          exact hKind
        refine ⟨fun i new hNew => ?_, hHeads, fun i old hOld hEnded => ?_, ?_⟩
        · obtain ⟨old, hOld, hMoved, hSucc⟩ := hEdges i new hNew
          by_cases hi : i = b
          · have hIs := hMoved.kind.trans (hOnly hOld hi)
            refine ⟨by simp [hIs], by simp [hIs], fun _ => ?_, by simp [hIs]⟩
            rw [hMoved.control]
            exact (h i old hOld).branch (hOnly hOld hi)
          · exact (h i old hOld).of_heads hHeads hMoved.kind hMoved.head hMoved.control (hSucc hi)
        · have hLt : i < ((s.link b p).link b q).blocks.size := by
            rw [← size_heads, hHeads, size_heads]
            exact (Array.getElem?_eq_some_iff.mp hOld).1
          have hAt := Array.getElem?_eq_getElem hLt
          obtain ⟨same, hSame, hMoved, hSucc⟩ := hEdges i _ hAt
          obtain rfl : same = old := Option.some.inj (hSame.symm.trans hOld)
          refine ⟨_, hAt, hMoved.head, hMoved.kind, fun hGoto => hSucc ?_⟩
          intro hi
          rw [hOnly hOld hi] at hGoto
          cases hGoto
        · rintro same ⟨⟩
          rw [hKind]
          decide
      · cases hLink
    · next hNone _ =>
      cases pure_eq_ok.mp hLink
      refine ⟨h, rfl, .refl s, ?_⟩
      rintro same ⟨⟩
      exact hNone

/-! ## All blocks -/

/-- Blocks with their ends and edges. -/
structure Drawn (g : Graph) (live : BitSet) (s : Schedule) : Prop where
  heads : s.heads = (headsOf g live).toArray
  endings : Endings g s
  ended : ∀ (b : Nat) (block : Block), s.blocks[b]? = some block → block.kind ≠ .none
  merged : ∀ {m n}, live.contains m = true → g.node? m = some n → n.op = .merge →
    Merged g s m n.inputs ∧ Apart g n.inputs

/-- The blocks when the listed nodes have had their turn to end them. -/
structure Drawing (g : Graph) (live : BitSet) (done : List (Node × Nat)) (s : Schedule) : Prop where
  endings : Endings g s
  heads : s.heads = (headsOf g live).toArray
  merged : ∀ p ∈ done, live.mem p.2 = true → p.1.op = .merge →
    Merged g s p.2 p.1.inputs ∧ Apart g p.1.inputs

/-- Every live node ends its blocks. -/
theorem Endings.endAll (h : Endings g s) (hWell : g.WellFormed)
    (hHeads : s.heads = (headsOf g live).toArray) :
    Settles (fun _ => True) (g.nodes.toList.zipIdx.foldlM
        (fun s (n, id) => if live.mem id then Schedule.endBlocks g s id n else pure s) s)
      (Drawing g live g.nodes.toList.zipIdx) := by
  refine Settles.foldlM (I := Drawing g live) ⟨h, hHeads, by simp⟩ ?_
  rintro front ⟨n, k⟩ rest t hSplit ⟨hNow, hSame, hDone⟩
  have hn : g.node? k = some n := Graph.mem_zipIdx.mp (by rw [hSplit]; simp)
  by_cases hMem : live.mem k = true
  · simp only [hMem, if_true]
    refine Settles.intro fun v hv => ?_
    have hNodup : t.heads.toList.Nodup := by
      rw [hSame]
      exact headsOf_nodup
    obtain ⟨hNext, hHeads', hCarries, hMerge⟩ := hNow.endBlocks hWell hNodup hn hv
    refine ⟨hNext, hHeads'.trans hSame, fun p hp hpMem hOp => ?_⟩
    rcases List.mem_append.mp hp with hFront | hLast
    · obtain ⟨hMerged, hApart⟩ := hDone p hFront hpMem hOp
      exact ⟨hMerged.carries hHeads' hCarries, hApart⟩
    · rw [List.mem_singleton.mp hLast] at hOp ⊢
      exact hMerge hOp
  · simp only [hMem]
    refine Settles.pure ⟨hNow, hSame, fun p hp hpMem hOp => ?_⟩
    rcases List.mem_append.mp hp with hFront | hLast
    · exact hDone p hFront hpMem hOp
    · -- A merge that is not live ends nothing, and nothing is asked of it.
      rw [List.mem_singleton.mp hLast] at hpMem
      exact absurd hpMem hMem

/-- The blocks when the listed ones have had their turn to get edges. -/
structure Linking (g : Graph) (s : Schedule) (done : List Nat) (t : Schedule) : Prop where
  endings : Endings g t
  heads : t.heads = s.heads
  carries : Carries s t
  ended : ∀ b ∈ done, ∀ block : Block, t.blocks[b]? = some block → block.kind ≠ .none

/-- Every branch gets its edges. -/
theorem Endings.linkAll (h : Endings g s) :
    Settles (fun _ => True) ((List.range s.blocks.size).foldlM (Schedule.linkBranch g live) s)
      (Linking g s (List.range s.blocks.size)) := by
  refine Settles.foldlM (I := Linking g s) ⟨h, rfl, .refl _, by simp⟩ ?_
  rintro front k rest t hSplit ⟨hNow, hSame, hCarries, hDone⟩
  refine Settles.intro fun v hv => ?_
  obtain ⟨hNext, hSame', hCarries', hHas⟩ := hNow.linkBranch hv
  refine ⟨hNext, hSame'.trans hSame, hCarries.trans hCarries', fun b hb new hNew => ?_⟩
  -- A block that was looked at had an end, and keeps it.
  have hLt : b < t.blocks.size := by
    rw [← size_heads, ← hSame', size_heads]
    exact (Array.getElem?_eq_some_iff.mp hNew).1
  have hOld := Array.getElem?_eq_getElem hLt
  have hKind : ∀ old, t.blocks[b]? = some old → old.kind ≠ .none := by
    rcases List.mem_append.mp hb with hFront | hLast
    · exact hDone b hFront
    · rw [List.mem_singleton.mp hLast]
      exact hHas
  obtain ⟨same, hAt, -, hKeep, -⟩ := hCarries' b _ hOld (hKind _ hOld)
  obtain rfl : same = new := Option.some.inj (hAt.symm.trans hNew)
  rw [hKeep]
  exact hKind _ hOld

theorem heads_ofHeads (l : List NodeId) :
    Schedule.heads { blocks := (l.map fun head => { head }).toArray } = l.toArray := by
  simp [Schedule.heads, Function.comp_def]

/-- Before any node has its turn no block has an end. -/
theorem Endings.init (g : Graph) (l : List NodeId) :
    Endings g { blocks := (l.map fun head => { head }).toArray } := by
  intro i block hBlock
  rw [List.getElem?_toArray, List.getElem?_map, Option.map_eq_some_iff] at hBlock
  obtain ⟨head, -, rfl⟩ := hBlock
  exact ⟨fun _ => rfl, nofun, nofun, nofun⟩

/-- Every live node ends its blocks, and every branch gets its edges. -/
theorem linkedBlocks_drawn (hWell : g.WellFormed) (hLinked : linkedBlocks g live = .ok s) :
    Drawn g live s := by
  obtain ⟨ended, hEnded, hLinked⟩ := bind_eq_ok.mp hLinked
  obtain ⟨hEndings, hSame, hMerges⟩ :=
    ((Endings.init g _).endAll hWell (heads_ofHeads _)).of_ok hEnded
  obtain ⟨hEndings', hSame', hCarries, hKinds⟩ := hEndings.linkAll.of_ok hLinked
  refine ⟨hSame'.trans hSame, hEndings', ?_, ?_⟩
  · intro b block hBlock
    refine hKinds b (List.mem_range.mpr ?_) block hBlock
    rw [← size_heads, ← hSame', size_heads]
    exact (Array.getElem?_eq_some_iff.mp hBlock).1
  · intro m n hMem hn hOp
    obtain ⟨k, rfl, -⟩ := Graph.node?_eq_some.mp hn
    rw [BitSet.contains_natCast] at hMem
    obtain ⟨hMerged, hApart⟩ := hMerges (n, k) (Graph.mem_zipIdx.mpr hn) hMem hOp
    exact ⟨hMerged.carries hSame' hCarries, hApart⟩

/-! ## Blocks in order -/

/-- The edges of a block that is put into order lead to the same blocks. -/
theorem EdgesKnown.succ_inOrder (h : s.EdgesKnown) (h0 : 0 < s.blocks.size)
    (hb : s.postorder[i]? = some b) (hBlock : s.blocks[b]? = some block)
    (hNew : s.inOrder.blocks[i]? = some new) :
    new.succ = block.succ.filterMap fun x => s.postorder.idxOf? x := by
  have hOrdered : s.inOrder.successors i =
      (s.successors b).filterMap fun x => s.postorder.idxOf? x := by
    rw [Schedule.inOrder, setDominators_successors]
    exact h.successors_renumber h0 hb
  unfold successors at hOrdered
  rw [hNew, hBlock] at hOrdered
  exact hOrdered

/-- The heads of the blocks in order. -/
theorem EdgesKnown.heads_inOrder (h : s.EdgesKnown) (h0 : 0 < s.blocks.size)
    (hSize : s.inOrder.blocks.size = s.blocks.size) {m : NodeId} (hHead : s.heads[target]? = some m) :
    ∃ j, s.postorder.idxOf? target = some j ∧ s.inOrder.heads[j]? = some m := by
  rw [heads_getElem?] at hHead
  obtain ⟨block, hBlock, rfl⟩ := Option.map_eq_some_iff.mp hHead
  obtain ⟨j, new, hj, hNew, hMoved⟩ := h.exists_new h0 hSize hBlock
  refine ⟨j, postorder_idxOf? hj, ?_⟩
  rw [heads_getElem?, hNew, ← hMoved.head]
  rfl

/-- How a block is left. -/
inductive Leaves (g : Graph) (s : Schedule) (block : Block) : Prop
  | goto (t : Nat) (hKind : block.kind = .goto) (hControl : block.control = none)
      (hSucc : block.succ = [t]) (hJoins : Joins g s t block.head) : Leaves g s block
  | branch (c : NodeId) (t f : Nat) (hKind : block.kind = .branch) (hControl : block.control = some c)
      (hOp : g.HasOp c .branch) (hSucc : block.succ = [t, f]) (hTrue : s.StartsWith g t c .ifTrue)
      (hFalse : s.StartsWith g f c .ifFalse) : Leaves g s block
  | ret (c : NodeId) (hKind : block.kind = .ret) (hControl : block.control = some c)
      (hOp : g.HasOp c .ret) (hSucc : block.succ = []) : Leaves g s block

/-- How control flows through the blocks of a schedule. -/
structure Flow (g : Graph) (root : NodeId) (s : Schedule) : Prop where
  first : ∃ block, s.blocks[0]? = some block ∧ block.head = Graph.start
  head : ∀ {b : Nat} {block : Block}, s.blocks[b]? = some block → g.IsHead block.head
  live : ∀ {b : Nat} {block : Block}, s.blocks[b]? = some block → b ≠ 0 → g.Live root block.head
  distinct : ∀ {b c : Nat} {block other : Block}, s.blocks[b]? = some block →
    s.blocks[c]? = some other → block.head = other.head → b = c
  leaves : ∀ {b : Nat} {block : Block}, s.blocks[b]? = some block → Leaves g s block
  control : ∀ {b : Nat} {block : Block} {c : NodeId}, s.blocks[b]? = some block →
    block.control = some c → g.Live root c ∧ g.ControlHead c block.head
  ends : ∀ {id}, g.Live root id → g.IsEnd id → s.EndsBlock id
  merged : ∀ {m n}, g.Live root m → g.node? m = some n → n.op = .merge →
    Merged g s m n.inputs ∧ Apart g n.inputs
  reached : ∀ {b : Nat} {block : Block}, s.blocks[b]? = some block → s.Reached b

/-- A block that is put into order is left where control goes: its edges have got new numbers, and
the heads of its targets have kept their blocks. -/
theorem Drawn.leaves_inOrder {linked : Schedule} {new : Block} (hDrawn : Drawn g live linked)
    (hKnown : linked.EdgesKnown) (h0 : 0 < linked.blocks.size)
    (hSize : linked.inOrder.blocks.size = linked.blocks.size)
    (hNew : linked.inOrder.blocks[i]? = some new)
    (hWired : new.kind = .branch → Wired g linked.inOrder new) : Leaves g linked.inOrder new := by
  obtain ⟨b, block, hb, hBlock, hMoved, -⟩ := hKnown.exists_old h0 hSize hNew
  have hEnding := hDrawn.endings b block hBlock
  have hSucc := hKnown.succ_inOrder h0 hb hBlock hNew
  -- A block that was moved is left as it was, with its targets renumbered.
  cases hKind : block.kind with
  | none => exact absurd hKind (hDrawn.ended b block hBlock)
  | goto =>
    obtain ⟨hNone, t, hTarget, m, n, x, hAt, hn, hOp, hx, hChain⟩ := hEnding.goto hKind
    obtain ⟨j, hj, hAt'⟩ := hKnown.heads_inOrder h0 hSize hAt
    refine .goto j (hMoved.kind.trans hKind) (hMoved.control.trans hNone) ?_
      ⟨m, n, x, hAt', hn, hOp, hx, hMoved.head ▸ hChain⟩
    rw [hSucc, hTarget]
    simp [hj]
  | branch =>
    obtain ⟨c, hControl, hOp⟩ := hEnding.branch hKind
    obtain ⟨c', t, f, hControl', hEdges, hTrue, hFalse⟩ := hWired (hMoved.kind.trans hKind)
    obtain rfl : c = c' :=
      Option.some.inj ((hMoved.control.trans hControl).symm.trans hControl')
    exact .branch c t f (hMoved.kind.trans hKind) hControl' hOp hEdges hTrue hFalse
  | ret =>
    obtain ⟨hNone, c, hControl, hOp⟩ := hEnding.ret hKind
    refine .ret c (hMoved.kind.trans hKind) (hMoved.control.trans hControl) hOp ?_
    rw [hSucc, hNone]
    rfl

/-- The blocks of the control chain are left where control goes. -/
theorem buildBlocks_flow (hWell : g.WellFormed) (hRoot : ∃ n, g.node? root = some n)
    (hLive : ∀ id, live.contains id = true ↔ g.Live root id)
    (hBuild : buildBlocks g live = .ok s) : Flow g root s := by
  have hFramed := (buildBlocks_settles hWell hRoot hLive).of_ok hBuild
  obtain ⟨linked, hLinked, hSize, rfl⟩ := buildBlocks_eq_ok.mp hBuild
  have hDrawn := linkedBlocks_drawn hWell hLinked
  have hKnown := (linkedBlocks_unordered hLinked).edges.consistent.edgesKnown
  have hCount : linked.blocks.size = (headsOf g live).length := by
    rw [← size_heads, hDrawn.heads]
    rfl
  have h0 : 0 < linked.blocks.size := by
    rw [hCount]
    exact List.length_pos_of_mem (mem_headsOf.mpr (.inl rfl))
  have hHead : ∀ {b : Nat} {block : Block}, linked.blocks[b]? = some block →
      (headsOf g live)[b]? = some block.head := by
    intro b block hBlock
    have hGet := heads_getElem? linked b
    rw [hDrawn.heads, hBlock, List.getElem?_toArray] at hGet
    exact hGet
  -- Each fact is one about the blocks before they were put into order, at the old place of a block.
  constructor
  case first =>
    obtain ⟨new, hNew⟩ := hFramed.first
    obtain ⟨b, block, hb, hBlock, hMoved, -⟩ := hKnown.exists_old h0 hSize hNew
    obtain rfl : b = 0 := Option.some.inj (hb.symm.trans reversePostorder_head)
    have hStart := hHead hBlock
    unfold headsOf at hStart
    exact ⟨new, hNew, hMoved.head.trans (Option.some.inj hStart).symm⟩
  case head => exact fun hBlock => (hFramed.block _ _ hBlock).head
  case live =>
    intro i new hNew hi
    obtain ⟨b, block, hb, hBlock, hMoved, -⟩ := hKnown.exists_old h0 hSize hNew
    have hMem : block.head ∈ headsOf g live := List.mem_of_getElem? (hHead hBlock)
    rw [hMoved.head]
    rcases mem_headsOf.mp hMem with hZero | ⟨-, hIs, -⟩
    · -- Only the first block starts with the start node.
      obtain ⟨first, hFirst⟩ := hFramed.first
      obtain ⟨a, old, ha, hOld, hSame, -⟩ := hKnown.exists_old h0 hSize hFirst
      obtain rfl : a = 0 := Option.some.inj (ha.symm.trans reversePostorder_head)
      have hStart := hHead hOld
      unfold headsOf at hStart
      have hOldHead : old.head = 0 := (Option.some.inj hStart).symm
      exact absurd (hFramed.distinct i 0 new first hNew hFirst
        (by rw [hMoved.head, hSame.head, hZero, hOldHead])) hi
    · exact (hLive _).mp hIs
  case distinct => exact fun hBlock hOther hSame => hFramed.distinct _ _ _ _ hBlock hOther hSame
  case leaves =>
    intro i new hNew
    exact hDrawn.leaves_inOrder hKnown h0 hSize hNew (buildBlocks_bare hBuild hNew).wired
  case control =>
    intro b block c hBlock hControl
    obtain ⟨hIs, -, hChain⟩ := (hFramed.block b block hBlock).control c hControl
    exact ⟨hIs, hChain⟩
  case ends => exact fun hIs hEnd => hFramed.ends _ hIs hEnd
  case merged =>
    intro m n hIs hn hOp
    obtain ⟨hMerged, hApart⟩ := hDrawn.merged ((hLive m).mpr hIs) hn hOp
    refine ⟨fun x hx => ?_, hApart⟩
    obtain ⟨b, block, hBlock, hChain, hKind, t, hTarget, hAt⟩ := hMerged x hx
    obtain ⟨i, new, hi, hNew, hMoved⟩ := hKnown.exists_new h0 hSize hBlock
    obtain ⟨j, hj, hAt'⟩ := hKnown.heads_inOrder h0 hSize hAt
    refine ⟨i, new, hNew, hMoved.head ▸ hChain, hMoved.kind.trans hKind, j, ?_, hAt'⟩
    rw [hKnown.succ_inOrder h0 hi hBlock hNew, hTarget]
    simp [hj]
  case reached => exact fun hBlock => buildBlocks_reached hBuild hBlock

/-- Whether two blocks have the same head, end and edges. -/
structure SameEdges (old new : Block) : Prop where
  kind : new.kind = old.kind
  head : new.head = old.head
  control : new.control = old.control
  succ : new.succ = old.succ

theorem SameEdges.of_bare (h : new.bare = block.bare) : SameEdges block new := by
  have hKind : new.bare.kind = block.bare.kind := congrArg Block.kind h
  have hSucc : new.bare.succ = block.bare.succ := congrArg Block.succ h
  exact ⟨hKind, Block.head_of_bare h, Block.control_of_bare h, hSucc⟩

theorem Leaves.same (h : Leaves g s block) (hSame : SameEdges block new)
    (hHeads : t.heads = s.heads) : Leaves g t new := by
  cases h with
  | goto j hKind hControl hSucc hJoins =>
    refine .goto j (hSame.kind.trans hKind) (hSame.control.trans hControl)
      (hSame.succ.trans hSucc) ?_
    unfold Joins
    rw [hHeads, hSame.head]
    exact hJoins
  | branch c j k hKind hControl hOp hSucc hTrue hFalse =>
    exact .branch c j k (hSame.kind.trans hKind) (hSame.control.trans hControl) hOp
      (hSame.succ.trans hSucc) (hTrue.of_heads hHeads) (hFalse.of_heads hHeads)
  | ret c hKind hControl hOp hSucc =>
    exact .ret c (hSame.kind.trans hKind) (hSame.control.trans hControl) hOp
      (hSame.succ.trans hSucc)

/-- Control flows in the same way through blocks with more nodes in them. -/
theorem Flow.of_frame (h : Flow g root s) (hFrame : t.frame = s.frame) : Flow g root t := by
  have hHeads : t.heads = s.heads := heads_of_frame hFrame
  -- The blocks with the same edges are found on either side.
  have hOld : ∀ {b : Nat} {block : Block}, t.blocks[b]? = some block →
      ∃ old, s.blocks[b]? = some old ∧ SameEdges old block := by
    intro b block hBlock
    obtain ⟨old, hOld, hBare⟩ := exists_of_frame hFrame.symm hBlock
    exact ⟨old, hOld, .of_bare hBare.symm⟩
  have hNew : ∀ {b : Nat} {block : Block}, s.blocks[b]? = some block →
      ∃ new, t.blocks[b]? = some new ∧ SameEdges block new := by
    intro b block hBlock
    obtain ⟨new, hNew, hBare⟩ := exists_of_frame hFrame hBlock
    exact ⟨new, hNew, .of_bare hBare⟩
  constructor
  case first =>
    obtain ⟨block, hBlock, hHead⟩ := h.first
    obtain ⟨new, hAt, hSame⟩ := hNew hBlock
    exact ⟨new, hAt, hSame.head.trans hHead⟩
  case head =>
    intro b block hBlock
    obtain ⟨old, hAt, hSame⟩ := hOld hBlock
    exact hSame.head ▸ h.head hAt
  case live =>
    intro b block hBlock hb
    obtain ⟨old, hAt, hSame⟩ := hOld hBlock
    exact hSame.head ▸ h.live hAt hb
  case distinct =>
    intro b c block other hBlock hOther hSame
    obtain ⟨old, hAt, hOldSame⟩ := hOld hBlock
    obtain ⟨old', hAt', hOldSame'⟩ := hOld hOther
    exact h.distinct hAt hAt' (by rw [← hOldSame.head, hSame, hOldSame'.head])
  case leaves =>
    intro b block hBlock
    obtain ⟨old, hAt, hSame⟩ := hOld hBlock
    exact (h.leaves hAt).same hSame hHeads
  case control =>
    intro b block c hBlock hControl
    obtain ⟨old, hAt, hSame⟩ := hOld hBlock
    obtain ⟨hLive, hChain⟩ := h.control hAt (hSame.control.symm.trans hControl)
    exact ⟨hLive, hSame.head ▸ hChain⟩
  case ends =>
    intro id hLive hEnd
    obtain ⟨b, block, hBlock, hControl⟩ := h.ends hLive hEnd
    obtain ⟨new, hAt, hSame⟩ := hNew hBlock
    exact ⟨b, new, hAt, hSame.control.trans hControl⟩
  case merged =>
    intro m n hLive hn hOp
    obtain ⟨hMerged, hApart⟩ := h.merged hLive hn hOp
    refine ⟨fun x hx => ?_, hApart⟩
    obtain ⟨b, block, hBlock, hChain, hKind, j, hSucc, hAt⟩ := hMerged x hx
    obtain ⟨new, hNewAt, hSame⟩ := hNew hBlock
    exact ⟨b, new, hNewAt, hSame.head ▸ hChain, hSame.kind.trans hKind, j,
      hSame.succ.trans hSucc, by rw [hHeads]; exact hAt⟩
  case reached =>
    intro b block hBlock
    obtain ⟨old, hAt, -⟩ := hOld hBlock
    obtain ⟨path, hPath⟩ := h.reached hAt
    refine ⟨path, ?_⟩
    unfold IsPath at *
    rw [successors_of_frame hFrame]
    exact hPath

/-- The blocks of a computed schedule are those of the control chain of what the exit depends on. -/
theorem compute_built (hWell : g.WellFormed) (hCompute : compute g = .ok s) :
    ∃ exit live f, g.exit = some exit ∧ (∃ n, g.node? exit = some n) ∧
      (∀ id, live.contains id = true ↔ g.Live exit id) ∧ buildBlocks g live = .ok f ∧
      s.frame = f.frame := by
  obtain ⟨exit, live, f, placed, h, hOrder⟩ := compute_stages hCompute
  have hRoot := hWell.exit exit h.exit
  have hLive := (liveNodes_settles (R := g.Rejects exit) hWell hRoot).of_ok h.marked
  have hOrdered : Adds placed s := (orderBlocks_adds g placed).of_ok hOrder
  exact ⟨exit, live, f, h.exit, hRoot, hLive, h.built, hOrdered.1.trans h.adds.1⟩

/-- An edge leads to another block, whose head takes control from the block it comes from. -/
theorem Flow.edge (h : Flow g root s) (hStart : g.HasOp Graph.start .start)
    (hBlock : s.blocks[b]? = some block) (hEdge : i ∈ block.succ) :
    i ≠ 0 ∧ ∃ next x, s.blocks[i]? = some next ∧ g.HasInput next.head x ∧
      g.ControlHead x block.head := by
  have hTarget : ∃ m n x, s.heads[i]? = some m ∧ g.node? m = some n ∧ n.op ≠ .start ∧
      x ∈ n.inputs ∧ g.ControlHead x block.head := by
    cases h.leaves hBlock with
    | goto t _ _ hSucc hJoins =>
      rw [hSucc, List.mem_singleton] at hEdge
      subst hEdge
      obtain ⟨m, n, x, hAt, hn, hOp, hx, hChain⟩ := hJoins
      exact ⟨m, n, x, hAt, hn, by rw [hOp]; decide, hx, hChain⟩
    | branch c t f _ hControl _ hSucc hTrue hFalse =>
      have hChain := (h.control hBlock hControl).2
      rw [hSucc] at hEdge
      obtain rfl | rfl : i = t ∨ i = f := by simpa using hEdge
      · obtain ⟨m, n, hAt, hn, hOp, hc⟩ := startsWith_iff.mp hTrue
        exact ⟨m, n, c, hAt, hn, by rw [hOp]; decide, hc, hChain⟩
      · obtain ⟨m, n, hAt, hn, hOp, hc⟩ := startsWith_iff.mp hFalse
        exact ⟨m, n, c, hAt, hn, by rw [hOp]; decide, hc, hChain⟩
    | ret c _ _ _ hSucc =>
      rw [hSucc] at hEdge
      cases hEdge
  obtain ⟨m, n, x, hAt, hn, hOp, hx, hChain⟩ := hTarget
  rw [heads_getElem?] at hAt
  obtain ⟨next, hNext, rfl⟩ := Option.map_eq_some_iff.mp hAt
  refine ⟨?_, next, x, hNext, ⟨n, hn, hx⟩, hChain⟩
  -- The first block starts with the start node, which takes control from nowhere.
  rintro rfl
  obtain ⟨first, hFirst, hHead⟩ := h.first
  obtain rfl : first = next := Option.some.inj (hFirst.symm.trans hNext)
  exact hOp (Graph.HasOp.unique ⟨n, hn, rfl⟩ (hHead ▸ hStart))

/-- Every block but the first has an edge to it. -/
theorem Flow.entered (h : Flow g root s) (hBlock : s.blocks[i]? = some block) (hi : i ≠ 0) :
    ∃ (b : Nat) (before : Block), s.blocks[b]? = some before ∧ i ∈ before.succ := by
  obtain ⟨path, hChain, hFirst, hLast⟩ := h.reached hBlock
  obtain ⟨front, rfl⟩ : ∃ front, path = front ++ [i] := by
    rw [List.getLast?_eq_some_iff] at hLast
    exact hLast
  rcases List.eq_nil_or_concat front with rfl | ⟨front, b, rfl⟩
  · exact absurd (Option.some.inj hFirst) hi
  · have hEdge : i ∈ s.successors b := (List.isChain_append.mp hChain).2.2 b (by simp) i rfl
    unfold successors at hEdge
    cases hb : s.blocks[b]? with
    | none =>
      rw [hb] at hEdge
      cases hEdge
    | some before =>
      rw [hb] at hEdge
      exact ⟨b, before, hb, hEdge⟩

/-- Every head is live, that of the first block too. -/
theorem Flow.head_live (h : Flow g root s) (hWell : g.WellFormed)
    (hStart : g.HasOp Graph.start .start) (hBlock : s.blocks[b]? = some block) :
    g.Live root block.head := by
  cases h.leaves hBlock with
  | goto t _ _ hSucc _ =>
    obtain ⟨ht, next, x, hNext, hInput, hChain⟩ :=
      h.edge hStart hBlock (hSucc ▸ List.mem_singleton_self t)
    exact hChain.live hWell ((h.live hNext ht).input hInput)
  | branch c _ _ _ hControl | ret c _ hControl =>
    obtain ⟨hLive, hChain⟩ := h.control hBlock hControl
    exact hChain.live hWell hLive

/-- The only input of an arm. -/
theorem input_of_arm {branch : NodeId} (hWell : g.WellFormed) (hn : g.node? x = some n)
    (hOp : n.op = .ifTrue ∨ n.op = .ifFalse) (hc : c ∈ n.inputs) (hBranch : branch ∈ n.inputs) :
    branch = c := by
  have hLength : n.inputs.length = 1 := by
    obtain ⟨arity, hArity, -, hValue, hEffect, hControl⟩ := Graph.arity_of_verify hWell.verify hn
    have hSum := (hWell.counted hn).sum
    rcases hOp with hOp | hOp <;> rw [hOp] at hArity <;> cases hArity <;>
      rw [Arity.eq_of_admits hValue, Arity.eq_of_admits hEffect, Arity.eq_of_admits hControl] at hSum <;>
      omega
  obtain ⟨y, hy⟩ := List.length_eq_one_iff.mp hLength
  rw [hy, List.mem_singleton] at hBranch hc
  rw [hBranch, hc]

end ArmBackend.Schedule
