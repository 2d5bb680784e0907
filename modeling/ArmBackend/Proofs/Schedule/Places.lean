import ArmBackend.Proofs.Placement
import ArmBackend.Proofs.Schedule.Blocks

/-!
# Where nodes are placed

Placing changes nothing about the blocks but the lists of their nodes (`frame`), and a node that is
placed stays where it is (`Grown`). The nodes of a block are its head, those listed in it and the one
that ends it; a node is placed in a block exactly when it is one of them, and it is one of them once.

A node without a control input is placed after its inputs. The walk along inputs ends since these are
not the inputs of a join, and it does not come back to the node for the same reason.

## Results

* `placeNode_settles` — a live node is placed where it belongs.
* `placeNodes_settles` — so is every live node but the exit.
-/

namespace ArmBackend

/-- The nodes of a block: its head, those that it executes, and the one that ends it. -/
def Block.contents (b : Block) : List NodeId :=
  b.head :: b.listed

/-- A block without the list of its nodes. -/
def Block.bare (b : Block) : Block :=
  { b with nodes := [] }

/-- The head of a block does not depend on its list. -/
theorem Block.head_of_bare {a b : Block} (h : a.bare = b.bare) : a.head = b.head := by
  have hHead := congrArg Block.head h
  exact hHead

/-- The end of a block does not depend on its list. -/
theorem Block.control_of_bare {a b : Block} (h : a.bare = b.bare) : a.control = b.control := by
  have hControl := congrArg Block.control h
  exact hControl

namespace Schedule

variable {g : Graph} {root id x : NodeId} {f s t u : Schedule} {a b i : Nat} {block new : Block}
variable {n : Node} {P Q : NodeId → Prop} {R : Fault → Prop}

/-! ## Frames -/

/-- The blocks without the lists of their nodes. -/
def frame (s : Schedule) : Array Block :=
  s.blocks.map Block.bare

/-- The depth of the block at a position. -/
def depthAt (s : Schedule) (b : Nat) : Nat :=
  s.blocks[b]?.elim 0 Block.depth

/-- The frame has a block where the schedule has one. -/
theorem frame_getElem? (s : Schedule) (i : Nat) :
    s.frame[i]? = s.blocks[i]?.map Block.bare :=
  Array.getElem?_map

/-- A block is found again in a schedule with the same frame. -/
theorem exists_of_frame (h : t.frame = s.frame) (hBlock : s.blocks[b]? = some block) :
    ∃ new, t.blocks[b]? = some new ∧ new.bare = block.bare := by
  have hBare := frame_getElem? t b
  rw [h, frame_getElem?, hBlock, Option.map_some] at hBare
  obtain ⟨new, hNew, hEq⟩ := Option.map_eq_some_iff.mp hBare.symm
  exact ⟨new, hNew, hEq⟩

/-- Depths are read off the frame. -/
theorem depthAt_of_frame (h : t.frame = s.frame) (b : Nat) : t.depthAt b = s.depthAt b := by
  have hElim : ∀ s : Schedule, s.depthAt b = s.frame[b]?.elim 0 Block.depth := by
    intro s
    rw [frame_getElem?, depthAt]
    cases s.blocks[b]? <;> rfl
  rw [hElim, hElim, h]

/-- Dominance is read off the frame. -/
theorem dominates_of_frame (h : t.frame = s.frame) (a b : Nat) :
    t.dominates a b = s.dominates a b := by
  have hDom : ∀ (s : Schedule) (b : Nat), s.blocks[b]?.bind Block.dom = s.frame[b]?.bind Block.dom := by
    intro s b
    rw [frame_getElem?]
    cases s.blocks[b]? <;> rfl
  have hSize : t.blocks.size = s.blocks.size := by
    have hSizes := congrArg Array.size h
    rwa [frame, frame, Array.size_map, Array.size_map] at hSizes
  have hClimb : ∀ fuel b, dominates.climb t a fuel b = dominates.climb s a fuel b := by
    -- Dominance walks up the dominators, which the frame has.
    intro fuel
    induction fuel with
    | zero => exact fun _ => rfl
    | succ fuel ih =>
      intro b
      unfold dominates.climb
      rw [hDom t, hDom s, h]
      simp only [ih]
  unfold dominates
  rw [hSize]
  exact hClimb _ b

/-- Successors are read off the frame. -/
theorem successors_of_frame (h : t.frame = s.frame) : t.successors = s.successors := by
  have hSucc : ∀ (s : Schedule) (b : Nat), s.successors b = s.frame[b]?.elim [] Block.succ := by
    intro s b
    rw [frame_getElem?, successors]
    cases s.blocks[b]? <;> rfl
  funext b
  rw [hSucc t, hSucc s, h]

/-- Predecessors are read off the frame. -/
theorem predecessors_of_frame (h : t.frame = s.frame) : t.predecessors = s.predecessors := by
  have hPred : ∀ (s : Schedule) (b : Nat), s.predecessors b = s.frame[b]?.elim [] Block.pred := by
    intro s b
    rw [frame_getElem?, predecessors]
    cases s.blocks[b]? <;> rfl
  funext b
  rw [hPred t, hPred s, h]

/-- Dominance by walks is read off the frame. -/
theorem Dominates.of_frame (h : t.frame = s.frame) (hDominates : s.Dominates a b) :
    t.Dominates a b := by
  unfold Dominates Reached IsPath at *
  rw [successors_of_frame h]
  exact hDominates

/-- A change of the list of a block keeps the frame. -/
theorem frame_modifyBlock {change : Block → Block} (hBare : ∀ block, (change block).bare = block.bare) :
    (s.modifyBlock b change).frame = s.frame := by
  refine Array.ext_getElem? fun i => ?_
  rw [frame_getElem?, frame_getElem?, getElem?_modifyBlock]
  split
  · cases s.blocks[i]? with
    | none => rfl
    | some block => exact congrArg some (hBare block)
  · rfl

/-! ## Growth -/

/-- How a schedule changes while nodes are placed: the blocks stay, nodes stay where they are, and
only nodes with `P` are new. -/
structure Grown (P : NodeId → Prop) (s t : Schedule) : Prop where
  frame : t.frame = s.frame
  home : ∀ x a, s.home x = some a → t.home x = some a
  fresh : ∀ x, s.home x = none → ¬P x → t.home x = none

/-- Nothing was placed. -/
theorem Grown.refl : Grown P s s :=
  ⟨rfl, fun _ _ hx => hx, fun _ hx _ => hx⟩

/-- Placing twice. -/
theorem Grown.trans (h : Grown P s t) (h' : Grown P t u) : Grown P s u :=
  ⟨h'.frame.trans h.frame, fun x a hx => h'.home x a (h.home x a hx),
    fun x hx hNot => h'.fresh x (h.fresh x hx hNot) hNot⟩

/-- What was placed may be described more widely. -/
theorem Grown.mono (h : Grown P s t) (hPQ : ∀ x, P x → Q x) : Grown Q s t :=
  ⟨h.frame, h.home, fun x hx hNot => h.fresh x hx fun hP => hNot (hPQ x hP)⟩

/-! ## Sites -/

/-- Whether a block is the deepest among the blocks of the inputs, the first when there are none. -/
structure Deepest (s : Schedule) (inputs : List NodeId) (b : Nat) : Prop where
  first : inputs = [] → b = 0
  among : inputs ≠ [] → ∃ x ∈ inputs, s.home x = some b
  below : ∀ x ∈ inputs, ∃ a, s.home x = some a ∧ s.depthAt a ≤ s.depthAt b

/-- Whether a node belongs into a block: its control leads there, or it is the deepest one among
those of its inputs. -/
def Sited (g : Graph) (s : Schedule) (b : Nat) (id : NodeId) : Prop :=
  ∃ n, g.node? id = some n ∧
    (n.controlCount ≠ 0 → ∃ block, s.blocks[b]? = some block ∧ g.ControlHead id block.head) ∧
    (n.controlCount = 0 → s.Deepest n.inputs b)

/-- The deepest block of some inputs stays the deepest when nodes are placed. -/
theorem Deepest.grown {inputs : List NodeId} (h : s.Deepest inputs b) (hGrown : Grown P s t) :
    t.Deepest inputs b := by
  refine ⟨h.first, ?_, ?_⟩
  · intro hInputs
    obtain ⟨x, hx, hHome⟩ := h.among hInputs
    exact ⟨x, hx, hGrown.home x b hHome⟩
  · intro x hx
    obtain ⟨a, hHome, hLe⟩ := h.below x hx
    rw [← depthAt_of_frame hGrown.frame, ← depthAt_of_frame hGrown.frame] at hLe
    exact ⟨a, hGrown.home x a hHome, hLe⟩

/-- A node belongs where it did when others are placed. -/
theorem Sited.grown (h : Sited g s b id) (hGrown : Grown P s t) : Sited g t b id := by
  obtain ⟨n, hn, hChain, hDeepest⟩ := h
  refine ⟨n, hn, ?_, fun hControl => (hDeepest hControl).grown hGrown⟩
  intro hControl
  obtain ⟨block, hBlock, hHead⟩ := hChain hControl
  obtain ⟨new, hNew, hBare⟩ := exists_of_frame hGrown.frame hBlock
  exact ⟨new, hNew, by rw [Block.head_of_bare hBare]; exact hHead⟩

/-! ## Placing -/

/-- What holds of a schedule while nodes are placed in the blocks of `f`. -/
structure Placing (g : Graph) (root : NodeId) (f s : Schedule) : Prop where
  frame : s.frame = f.frame
  home : ∀ id b, s.home id = some b ↔ ∃ block, s.blocks[b]? = some block ∧ id ∈ block.contents
  nodup : ∀ (b : Nat) (block : Block), s.blocks[b]? = some block → block.contents.Nodup
  member : ∀ (b : Nat) (block : Block), s.blocks[b]? = some block → ∀ id ∈ block.nodes,
    Relation.TransGen g.HasInput root id ∧ ¬g.IsHead id ∧ ¬g.IsEnd id ∧ Sited g s b id

/-- One more node in the list is one more in the block. -/
theorem contents_append (block : Block) (id x : NodeId) :
    x ∈ { block with nodes := block.nodes ++ [id] : Block }.contents ↔
      x = id ∨ x ∈ block.contents := by
  simp only [Block.contents, Block.listed, List.mem_cons, List.mem_append]
  tauto

/-- A new node is listed once. -/
theorem contents_append_nodup (hNodup : block.contents.Nodup) (hId : id ∉ block.contents) :
    ({ block with nodes := block.nodes ++ [id] : Block }.contents).Nodup := by
  have hPerm : ({ block with nodes := block.nodes ++ [id] : Block }.contents).Perm
      (id :: block.contents) := by
    simp only [Block.contents, Block.listed]
    rw [List.append_assoc]
    refine (List.Perm.cons _ List.perm_middle).trans (List.Perm.swap _ _ _)
  exact hPerm.nodup_iff.mpr (List.nodup_cons.mpr ⟨hId, hNodup⟩)

/-- The node that is placed has its home here, the others where they were. -/
theorem append_home (s : Schedule) (b : Nat) (id x : NodeId) :
    (s.append b id).home x = if x = id then some b else s.home x :=
  rfl

/-- Only the block where it is placed gets the node. -/
theorem append_block (s : Schedule) (b i : Nat) (id : NodeId) :
    (s.append b id).blocks[i]? =
      if b = i then s.blocks[i]?.map fun block => { block with nodes := block.nodes ++ [id] }
      else s.blocks[i]? :=
  getElem?_modifyBlock _ _ _ _

/-- Placing one node that had no place. -/
theorem Grown.append (hHome : s.home id = none) : Grown (· = id) s (s.append b id) := by
  refine ⟨frame_modifyBlock fun _ => rfl, ?_, ?_⟩
  · intro x a hx
    rw [append_home, if_neg]
    · exact hx
    · rintro rfl
      rw [hHome] at hx
      cases hx
  · intro x hx hNe
    rw [append_home, if_neg hNe]
    exact hx

/-- A node that is not placed yet is placed in the block it belongs into. -/
theorem Placing.append (h : Placing g root f s) (hHome : s.home id = none)
    (hBlock : s.blocks[b]? = some block) (hBelow : Relation.TransGen g.HasInput root id)
    (hHead : ¬g.IsHead id) (hEnd : ¬g.IsEnd id) (hSited : Sited g s b id) :
    Placing g root f (s.append b id) := by
  have hGrown : Grown (· = id) s (s.append b id) := Grown.append hHome
  -- The node had no home, so no block has it yet.
  have hNew : ∀ (c : Nat) (other : Block), s.blocks[c]? = some other → id ∉ other.contents := by
    intro c other hOther hMem
    have hSome := (h.home id c).mpr ⟨other, hOther, hMem⟩
    rw [hHome] at hSome
    cases hSome
  refine ⟨hGrown.frame.trans h.frame, ?_, ?_, ?_⟩
  · intro x c
    rw [append_home, append_block]
    by_cases hx : x = id
    · -- The node itself: it was in no block, and is in this one now.
      subst hx
      rw [if_pos rfl]
      constructor
      · rintro ⟨⟩
        rw [if_pos rfl, hBlock]
        exact ⟨_, rfl, (contents_append block x x).mpr (.inl rfl)⟩
      · rintro ⟨other, hOther, hMem⟩
        split at hOther
        · next hb => rw [hb]
        · exact absurd hMem (hNew c other hOther)
    · -- Any other node is in the block that had it.
      rw [if_neg hx, h.home]
      split
      · constructor
        · rintro ⟨other, hOther, hMem⟩
          rw [hOther]
          exact ⟨_, rfl, (contents_append other id x).mpr (.inr hMem)⟩
        · rintro ⟨other, hOther, hMem⟩
          obtain ⟨old, hOld, rfl⟩ := Option.map_eq_some_iff.mp hOther
          exact ⟨old, hOld, ((contents_append old id x).mp hMem).resolve_left hx⟩
      · rfl
  · intro c other hOther
    rw [append_block] at hOther
    split at hOther
    · obtain ⟨old, hOld, rfl⟩ := Option.map_eq_some_iff.mp hOther
      exact contents_append_nodup (h.nodup c old hOld) (hNew c old hOld)
    · exact h.nodup c other hOther
  · intro c other hOther x hx
    rw [append_block] at hOther
    have hOld : ∀ old : Block, s.blocks[c]? = some old → x ∈ old.nodes →
        Relation.TransGen g.HasInput root x ∧ ¬g.IsHead x ∧ ¬g.IsEnd x ∧
          Sited g (s.append b id) c x := by
      intro old hOld hx
      obtain ⟨hBelow, hHead, hEnd, hSited⟩ := h.member c old hOld x hx
      exact ⟨hBelow, hHead, hEnd, hSited.grown hGrown⟩
    split at hOther
    · next hb =>
      obtain ⟨old, hAt, rfl⟩ := Option.map_eq_some_iff.mp hOther
      rcases List.mem_append.mp hx with hx | hx
      · exact hOld old hAt hx
      · rw [List.mem_singleton.mp hx, ← hb]
        exact ⟨hBelow, hHead, hEnd, hSited.grown hGrown⟩
    · exact hOld other hOther hx

/-! ## Heads and ends -/

/-- Placing the head and the end of one block. -/
theorem pin_home (t : Schedule) (a : Nat) (block : Block) (id : NodeId) :
    (block.control.elim (t.place a block.head) ((t.place a block.head).place a)).home id =
      if id = block.head ∨ block.control = some id then some a else t.home id := by
  cases block.control with
  | none => simp [place]
  | some c =>
    simp only [Option.elim_some, place, Option.some.injEq]
    by_cases hc : id = c
    · simp [hc]
    · rw [if_neg hc]
      simp [Ne.symm hc]

/-- No node is the head or the end of two blocks. -/
theorem Framed.pinned_unique {other : Block} (h : Framed g root f) (hBlock : f.blocks[a]? = some block)
    (hOther : f.blocks[b]? = some other) (hId : id = block.head ∨ block.control = some id)
    (hId' : id = other.head ∨ other.control = some id) : a = b := by
  have hDifferent : g.IsHead id → g.IsEnd id → False := fun hHead hEnd => hEnd.not_isHead hHead
  have hFrame := h.block a block hBlock
  have hFrame' := h.block b other hOther
  refine h.distinct a b block other hBlock hOther ?_
  rcases hId with hId | hId <;> rcases hId' with hId' | hId'
  · rw [← hId, hId']
  · rw [hId] at hId' hDifferent
    exact (hDifferent hFrame.head (hFrame'.control _ hId').2.1).elim
  · rw [hId'] at hId hDifferent
    exact (hDifferent hFrame'.head (hFrame.control _ hId).2.1).elim
  · exact (hFrame.control id hId).2.2.unique (hFrame'.control id hId').2.2

/-- When the heads and the ends are placed, a node with a place is the head or the end of its
block. -/
theorem placeControl_pinned (hNone : ∀ x, s.home x = none)
    (hHome : (placeControl s).home id = some b) :
    ∃ block, s.blocks[b]? = some block ∧ (id = block.head ∨ block.control = some id) := by
  -- the fold visits the blocks in order: a pin comes from one of those visited
  have hFold : ∀ b, (placeControl s).home id = some b → ∃ p ∈ s.blocks.toList.zipIdx, p.2 = b ∧
      (id = p.1.head ∨ p.1.control = some id) := by
    unfold placeControl
    refine Settles.foldl (I := fun (front : List (Block × Nat)) (t : Schedule) => ∀ b,
      t.home id = some b → ∃ p ∈ front, p.2 = b ∧ (id = p.1.head ∨ p.1.control = some id)) ?_ ?_
    · intro b hHome
      rw [hNone id] at hHome
      cases hHome
    · rintro front ⟨block, a⟩ rest t - hI b hHome
      rw [pin_home] at hHome
      split at hHome
      · next hPinned =>
        cases hHome
        exact ⟨(block, a), by simp, rfl, hPinned⟩
      · obtain ⟨p, hp, hRest⟩ := hI b hHome
        exact ⟨p, List.mem_append_left _ hp, hRest⟩
  obtain ⟨⟨block, a⟩, hMem, rfl, hPinned⟩ := hFold b hHome
  rw [List.mem_zipIdx_iff_getElem?, Array.getElem?_toList] at hMem
  exact ⟨block, hMem, hPinned⟩

/-- The head and the end of every block have a place. -/
theorem placeControl_places (hBlock : s.blocks[b]? = some block)
    (hPinned : id = block.head ∨ block.control = some id) : ((placeControl s).home id).isSome := by
  have hFold : ∀ p ∈ s.blocks.toList.zipIdx, (id = p.1.head ∨ p.1.control = some id) →
      ((placeControl s).home id).isSome := by
    unfold placeControl
    -- later blocks take no home away
    refine Settles.foldl (I := fun (front : List (Block × Nat)) (t : Schedule) =>
      ∀ p ∈ front, (id = p.1.head ∨ p.1.control = some id) → (t.home id).isSome) (by simp) ?_
    rintro front ⟨block, a⟩ rest t - hI p hp hPinned
    dsimp only
    rw [pin_home]
    split
    · rfl
    · next hFree =>
      rcases List.mem_append.mp hp with hOld | hNew
      · exact hI p hOld hPinned
      · rw [List.mem_singleton.mp hNew] at hPinned
        exact absurd hPinned hFree
  refine hFold (block, b) ?_ hPinned
  rw [List.mem_zipIdx_iff_getElem?, Array.getElem?_toList]
  exact hBlock

/-- The heads and the ends of all blocks are placed in their blocks. -/
theorem placeControl_home (h : Framed g root f) (id : NodeId) (b : Nat) :
    (placeControl f).home id = some b ↔
      ∃ block, f.blocks[b]? = some block ∧ (id = block.head ∨ block.control = some id) := by
  refine ⟨placeControl_pinned h.home, ?_⟩
  rintro ⟨block, hBlock, hId⟩
  obtain ⟨a, ha⟩ := Option.isSome_iff_exists.mp (placeControl_places hBlock hId)
  obtain ⟨other, hOther, hOtherId⟩ := placeControl_pinned h.home ha
  rw [ha, h.pinned_unique hOther hBlock hOtherId hId]

theorem placeControl_blocks (s : Schedule) : (placeControl s).blocks = s.blocks := by
  unfold placeControl
  refine Settles.foldl (I := fun _ (t : Schedule) => t.blocks = s.blocks) rfl ?_
  rintro front ⟨block, a⟩ rest t - hI
  rw [← hI]
  dsimp only
  cases block.control <;> rfl

/-- Placing starts with the heads and the ends. -/
theorem Framed.placing (h : Framed g root f) : Placing g root f (placeControl f) := by
  -- Before any node is placed a block has its head and its end.
  have hContents : ∀ (b : Nat) (block : Block), f.blocks[b]? = some block → ∀ id,
      id ∈ block.contents ↔ id = block.head ∨ block.control = some id := by
    intro b block hBlock id
    rw [Block.contents, Block.listed, (h.block b block hBlock).nodes, List.nil_append,
      List.mem_cons, Option.mem_toList]
  refine ⟨?_, ?_, ?_, ?_⟩
  · rw [frame, placeControl_blocks, frame]
  · intro id b
    rw [placeControl_home h, placeControl_blocks]
    refine exists_congr fun block => and_congr_right fun hBlock => ?_
    exact (hContents b block hBlock id).symm
  · intro b block hBlock
    rw [placeControl_blocks] at hBlock
    have hFrame := h.block b block hBlock
    rw [Block.contents, Block.listed, hFrame.nodes, List.nil_append]
    -- The end of a block is another node than its head, by their operators.
    cases hControl : block.control with
    | none => simp
    | some c =>
      rw [Option.toList_some, List.nodup_cons, List.mem_singleton]
      refine ⟨?_, List.nodup_singleton c⟩
      intro hSame
      obtain ⟨n, hn, hHead⟩ := hFrame.head
      obtain ⟨-, ⟨m, hm, hEnd⟩, -⟩ := hFrame.control c hControl
      rw [← hSame, hn] at hm
      cases hm
      rcases hEnd with hOp | hOp <;> rw [hOp] at hHead <;> cases hHead
  · intro b block hBlock id hId
    rw [placeControl_blocks] at hBlock
    rw [(h.block b block hBlock).nodes] at hId
    cases hId

/-! ## One node -/

/-- A loop over steps with a state is a loop over pairs. -/
theorem foldlM_run {α β : Type} (step : β → α → Place β) (l : List α) (b : β) (s : Schedule) :
    (l.foldlM step b).run s = l.foldlM (fun (p : β × Schedule) x => (step p.1 x).run p.2) (b, s) := by
  induction l generalizing b s with
  | nil => rfl
  | cons a l ih =>
    rw [List.foldlM_cons, List.foldlM_cons, StateT.run_bind]
    refine congrArg _ (funext fun p => ?_)
    exact ih p.1 p.2

theorem forM_run {α : Type} (step : α → Place Unit) (l : List α) (s : Schedule) :
    (l.forM step).run s =
      l.foldlM (fun (p : Unit × Schedule) x => (step x).run p.2) ((), s) := by
  induction l generalizing s with
  | nil => rfl
  | cons a l ih =>
    rw [List.foldlM_cons]
    show StateT.run (step a >>= fun _ => l.forM step) s = _
    rw [StateT.run_bind]
    refine congrArg _ (funext fun p => ?_)
    exact ih p.2

theorem placeNode_placed (hHome : s.home id = some b) (fuel : Nat) :
    (placeNode g (fuel + 1) id).run s = .ok (b, s) := by
  rw [placeNode, StateT.run_bind, StateT.run_get, pure_bind]
  dsimp only
  rw [show s.blockOf id = some b from hHome]
  rfl

theorem placeNode_missing (hn : g.node? id = none) (hHome : s.home id = none) (fuel : Nat) :
    (placeNode g (fuel + 1) id).run s = .error .outOfRange := by
  have hFault : g.node id = .error .outOfRange := by
    unfold Graph.node
    rw [hn]
  rw [placeNode, StateT.run_bind, StateT.run_get, pure_bind]
  dsimp only
  rw [show s.blockOf id = none from hHome]
  dsimp only
  rw [StateT.run_bind, StateT.run_monadLift, hFault]
  rfl

/-- What placing a node that has no place yet does. -/
theorem placeNode_run (hn : g.node? id = some n) (hHome : s.home id = none) (fuel : Nat) :
    (placeNode g (fuel + 1) id).run s =
      if n.controlCount ≠ 0 then do
        let b ← blockOfControl g s (← n.controlIn)
        return (b, s.append b id)
      else do
        let p ← n.inputs.foldlM (fun (p : Nat × Schedule) input => do
          let q ← (placeNode g fuel input).run p.2
          return (q.2.deeper p.1 q.1, q.2)) (0, s)
        return (p.1, p.2.append p.1 id) := by
  rw [placeNode, StateT.run_bind, StateT.run_get, pure_bind]
  dsimp only
  rw [show s.blockOf id = none from hHome]
  dsimp only
  rw [StateT.run_bind, StateT.run_monadLift, Graph.node_eq_ok.mpr hn]
  show StateT.run (if n.controlCount ≠ 0 then _ else _) s = _
  -- A node with control goes to its block; another one waits for its inputs.
  split
  · cases n.controlIn with
    | error f => rfl
    | ok control =>
      rw [ok_bind]
      show StateT.run (do
        let b ← (liftM (blockOfControl g s control) : Place Nat)
        modify fun t => t.append b id
        return b) s = _
      cases blockOfControl g s control <;> rfl
  · rw [StateT.run_bind, foldlM_run]
    rfl

/-- Live heads and ends have their places already. -/
theorem Placing.pinned (hFramed : Framed g root f) (h : Placing g root f s)
    (hLive : g.Live root id) (hPin : g.IsHead id ∨ g.IsEnd id) : ∃ b, s.home id = some b := by
  rcases hPin with hHead | hEnd
  · obtain ⟨b, block, hBlock, rfl⟩ := hFramed.heads id hLive hHead
    obtain ⟨new, hNew, hBare⟩ := exists_of_frame h.frame hBlock
    refine ⟨b, (h.home _ b).mpr ⟨new, hNew, ?_⟩⟩
    rw [← Block.head_of_bare hBare]
    exact List.mem_cons_self
  · obtain ⟨b, block, hBlock, hControl⟩ := hFramed.ends id hLive hEnd
    obtain ⟨new, hNew, hBare⟩ := exists_of_frame h.frame hBlock
    refine ⟨b, (h.home id b).mpr ⟨new, hNew, ?_⟩⟩
    rw [← Block.control_of_bare hBare] at hControl
    simp [Block.contents, Block.listed, hControl]

/-- The first block, and no other, has depth zero. -/
theorem Placing.depthAt_eq_zero (hFramed : Framed g root f) (h : Placing g root f s)
    (hBlock : s.blocks[b]? = some block) : s.depthAt b = 0 ↔ b = 0 := by
  obtain ⟨old, hOld, -⟩ := exists_of_frame h.frame.symm hBlock
  rw [depthAt_of_frame h.frame, depthAt, hOld]
  exact (hFramed.block b old hOld).depth

theorem deeper_eq (s : Schedule) (a b : Nat) :
    s.deeper a b = if s.depthAt a < s.depthAt b then b else a :=
  rfl

/-- The deepest block is a block. -/
theorem Placing.block_of_deepest {inputs : List NodeId} (hFramed : Framed g root f)
    (h : Placing g root f s) (hDeepest : s.Deepest inputs b) :
    ∃ block, s.blocks[b]? = some block := by
  by_cases hInputs : inputs = []
  · rw [hDeepest.first hInputs]
    obtain ⟨first, hFirst⟩ := hFramed.first
    obtain ⟨new, hNew, -⟩ := exists_of_frame h.frame hFirst
    exact ⟨new, hNew⟩
  · obtain ⟨x, -, hHome⟩ := hDeepest.among hInputs
    obtain ⟨block, hBlock, -⟩ := (h.home x b).mp hHome
    exact ⟨block, hBlock⟩

/-- One more input is taken into account. -/
theorem Deepest.step {front : List NodeId} (hFramed : Framed g root f) (h : Placing g root f s)
    (hDeepest : s.Deepest front b) (hHome : s.home x = some a) :
    s.Deepest (front ++ [x]) (s.deeper b a) := by
  have hLe : s.depthAt b ≤ s.depthAt (s.deeper b a) ∧ s.depthAt a ≤ s.depthAt (s.deeper b a) := by
    rw [deeper_eq]
    split <;> omega
  refine ⟨by simp, ?_, ?_⟩
  · intro _
    rw [deeper_eq]
    split
    · exact ⟨x, by simp, hHome⟩
    · next hNot =>
      by_cases hFront : front = []
      · -- Nothing is deeper than the first block unless it is another block.
        obtain rfl := hDeepest.first hFront
        obtain ⟨block, hBlock, -⟩ := (h.home x a).mp hHome
        obtain ⟨first, hFirst⟩ := hFramed.first
        obtain ⟨root, hRoot, -⟩ := exists_of_frame h.frame hFirst
        have hZero := (h.depthAt_eq_zero hFramed hRoot).mpr rfl
        have hSame := (h.depthAt_eq_zero hFramed hBlock).mp (by omega)
        exact ⟨x, by simp, by rw [hHome, hSame]⟩
      · obtain ⟨y, hy, hAt⟩ := hDeepest.among hFront
        exact ⟨y, List.mem_append_left _ hy, hAt⟩
  · intro y hy
    rcases List.mem_append.mp hy with hOld | hLast
    · obtain ⟨c, hAt, hDepth⟩ := hDeepest.below y hOld
      exact ⟨c, hAt, hDepth.trans hLe.1⟩
    · rw [List.mem_singleton.mp hLast]
      exact ⟨a, hHome, hLe.2⟩

/-- A live node without a place and without a control input depends on its inputs. -/
theorem Placing.depends (hWell : g.WellFormed) (hFramed : Framed g root f)
    (h : Placing g root f s) (hLive : g.Live root id) (hHome : s.home id = none)
    (hn : g.node? id = some n) (hControl : n.controlCount = 0) (hx : x ∈ n.inputs) :
    g.Depends id x := by
  refine ⟨n, hn, ?_, ?_, hx⟩
  · intro hMerge
    obtain ⟨b, hb⟩ := h.pinned hFramed hLive (.inl ⟨n, hn, by rw [hMerge]; rfl⟩)
    rw [hHome] at hb
    cases hb
  · by_contra hPhi
    have hArity : n.op.arity?.bind Arity.control = some 1 := by
      cases hOp : n.op <;> simp_all [Operator.isPhi, Operator.arity?]
    have hOne := hWell.controlCount hn hArity
    omega

/-- A live head starts a block, also when nodes have been placed. -/
theorem Framed.heads_of_frame (hFramed : Framed g root f) (hFrame : s.frame = f.frame)
    {head : NodeId} (hLive : g.Live root head) (hHead : g.IsHead head) :
    ∃ (b : Nat) (block : Block), s.blocks[b]? = some block ∧ block.head = head := by
  obtain ⟨b, block, hBlock, rfl⟩ := hFramed.heads head hLive hHead
  obtain ⟨new, hNew, hBare⟩ := exists_of_frame hFrame hBlock
  exact ⟨b, new, hNew, Block.head_of_bare hBare⟩

/-- A node that belongs into a block gets its place there. -/
theorem Placing.place (h : Placing g root f s) (hHome : s.home id = none)
    (hBlock : s.blocks[b]? = some block) (hBelow : Relation.TransGen g.HasInput root id)
    (hHead : ¬g.IsHead id) (hEnd : ¬g.IsEnd id) (hSited : Sited g s b id) :
    Placing g root f (s.append b id) ∧
      Grown (Relation.ReflTransGen g.Depends id) s (s.append b id) ∧
      (s.append b id).home id = some b := by
  refine ⟨h.append hHome hBlock hBelow hHead hEnd hSited, (Grown.append hHome).mono ?_, ?_⟩
  · rintro x rfl
    exact .refl
  · rw [append_home, if_pos rfl]

/-- The inputs of a node are placed, and the deepest of their blocks is found, when placing each of
them does what it should. -/
theorem placeInputs_settles (hFramed : Framed g root f) (h : Placing g root f s) {fuel : Nat}
    {inputs : List NodeId}
    (hInput : ∀ x ∈ inputs, ∀ t, Placing g root f t →
      Settles R ((placeNode g fuel x).run t) fun p => Placing g root f p.2 ∧
        Grown (Relation.ReflTransGen g.Depends x) t p.2 ∧ p.2.home x = some p.1) :
    Settles R (inputs.foldlM (fun (p : Nat × Schedule) input => do
        let q ← (placeNode g fuel input).run p.2
        return (q.2.deeper p.1 q.1, q.2)) (0, s))
      fun p => Placing g root f p.2 ∧ p.2.Deepest inputs p.1 ∧
        Grown (fun y => ∃ x ∈ inputs, Relation.ReflTransGen g.Depends x y) s p.2 := by
  refine Settles.foldlM (I := fun front (p : Nat × Schedule) => Placing g root f p.2 ∧
    p.2.Deepest front p.1 ∧
    Grown (fun y => ∃ x ∈ inputs, Relation.ReflTransGen g.Depends x y) s p.2) ?_ ?_
  · exact ⟨h, ⟨fun _ => rfl, fun hNot => absurd rfl hNot, by simp⟩, Grown.refl⟩
  · rintro front x rest ⟨b, t⟩ hSplit ⟨hPlacing, hDeepest, hGrown⟩
    have hx : x ∈ inputs := by rw [hSplit]; simp
    refine (hInput x hx t hPlacing).bind ?_
    rintro ⟨a, u⟩ ⟨hPlacing', hGrown', hHome⟩
    refine Settles.pure ⟨hPlacing', ?_, ?_⟩
    · -- the deeper of the two blocks is kept, and later placements move nothing
      exact (hDeepest.grown hGrown').step hFramed hPlacing' hHome
    · exact hGrown.trans (hGrown'.mono fun y hy => ⟨x, hx, hy⟩)

/-- A node that the exit depends on is placed where it belongs, after the inputs that it depends on.
What may fail on the way is the search for the head that control leads to. -/
theorem placeNode_settles (hWell : g.WellFormed) (hCycles : g.CyclesJoined)
    (hClimb : ∀ {w u}, Relation.TransGen g.HasInput root w → g.ControlStep w u →
      Settles R (headOf g u) (g.ControlHead u))
    (hFramed : Framed g root f) (h : Placing g root f s)
    (hBelow : Relation.TransGen g.HasInput root id) {fuel : Nat}
    (hFuel : g.rank g.Depends id < fuel) :
    Settles R ((placeNode g fuel id).run s) fun p =>
      Placing g root f p.2 ∧ Grown (Relation.ReflTransGen g.Depends id) s p.2 ∧
        p.2.home id = some p.1 := by
  induction fuel generalizing id s with
  | zero => omega
  | succ fuel ih =>
    cases hHome : s.home id with
    | some b => exact Settles.of_eq_ok (placeNode_placed hHome fuel) ⟨h, Grown.refl, hHome⟩
    | none =>
      have hLive : g.Live root id := hBelow.to_reflTransGen
      obtain ⟨w, -, hUser⟩ := Relation.TransGen.tail'_iff.mp hBelow
      obtain ⟨n, hn⟩ := hWell.node_of_input hUser
      have hFree : ¬g.IsHead id ∧ ¬g.IsEnd id := by
        rw [← not_or]
        intro hPin
        obtain ⟨b, hb⟩ := h.pinned hFramed hLive hPin
        rw [hHome] at hb
        cases hb
      rw [placeNode_run hn hHome]
      by_cases hControl : n.controlCount = 0
      · rw [if_neg (by simpa using hControl)]
        have hDepends : ∀ x ∈ n.inputs, g.Depends id x := fun x hx =>
          h.depends hWell hFramed hLive hHome hn hControl hx
        refine (placeInputs_settles hFramed h ?_).bind ?_
        · intro x hx t hPlacing
          have hLess := Graph.rank_lt hWell.verify hCycles (hDepends x hx).hasInput (hDepends x hx)
          exact ih hPlacing (hBelow.tail (hDepends x hx).hasInput) (by omega)
        · rintro ⟨b, t⟩ ⟨hPlacing, hDeepest, hGrown⟩
          -- The walk has not come back to the node.
          have hStill : t.home id = none := by
            refine hGrown.fresh id hHome ?_
            rintro ⟨x, hx, hBack⟩
            exact hCycles id (Relation.TransGen.head' (hDepends x hx) hBack)
          obtain ⟨block, hBlock⟩ := hPlacing.block_of_deepest hFramed hDeepest
          obtain ⟨hPlaced, hGrown', hAt⟩ := hPlacing.place hStill hBlock hBelow hFree.1 hFree.2
            ⟨n, hn, fun hSome => absurd hControl hSome, fun _ => hDeepest⟩
          refine Settles.pure ⟨hPlaced, Grown.trans (hGrown.mono ?_) hGrown', hAt⟩
          rintro y ⟨x, hx, hReach⟩
          exact .head (hDepends x hx) hReach
      · rw [if_pos hControl]
        obtain ⟨u, hu, hInput⟩ := hWell.controlIn hn hControl
        have hHead : n.op.isHead = false := by
          rw [← Bool.not_eq_true]
          exact fun hIs => hFree.1 ⟨n, hn, hIs⟩
        rw [hu, ok_bind]
        refine (blockOfControl_settles hWell (fun _ => hFramed.heads_of_frame h.frame)
          (hLive.input hInput) (hClimb hBelow ⟨n, hn, hHead, hControl, hu⟩)).bind ?_
        rintro b ⟨block, hBlock, hChain⟩
        refine Settles.pure (h.place hHome hBlock hBelow hFree.1 hFree.2 ⟨n, hn, ?_, ?_⟩)
        · exact fun _ => ⟨block, hBlock, hChain.step ⟨n, hn, hHead, hControl, hu⟩⟩
        · exact fun hZero => absurd hZero hControl

/-! ## All nodes -/

/-- A live node that is neither a head nor an end nor the exit is one that placing asks for. -/
theorem isPlaced_of_free (hn : g.node? id = some n) (hHead : ¬g.IsHead id) (hEnd : ¬g.IsEnd id) :
    isPlaced n.op = true := by
  have hNotHead : n.op.isHead = false := by
    rw [← Bool.not_eq_true]
    exact fun hIs => hHead ⟨n, hn, hIs⟩
  have hBranch : n.op ≠ .branch := fun hOp => hEnd ⟨n, hn, .inl hOp⟩
  have hReturn : n.op ≠ .ret := fun hOp => hEnd ⟨n, hn, .inr hOp⟩
  simp [isPlaced, hNotHead, hBranch, hReturn]

/-- Every live node but the exit gets a place. -/
theorem placeNodes_settles (hWell : g.WellFormed) (hCycles : g.CyclesJoined)
    (hRoot : ∃ n, g.node? root = some n)
    (hClimb : ∀ {w u}, Relation.TransGen g.HasInput root w → g.ControlStep w u →
      Settles R (headOf g u) (g.ControlHead u)) {live : BitSet}
    (hMarked : ∀ id, live.contains id = true ↔ g.Live root id) (hFramed : Framed g root f) :
    Settles R ((placeNodes g root live).run f) fun p => Placing g root f p.2 ∧
      ∀ id, g.Live root id → id ≠ root → ∃ b, p.2.home id = some b := by
  unfold placeNodes
  rw [StateT.run_bind]
  show Settles R (StateT.run (List.forM _ _) (placeControl f)) _
  rw [forM_run]
  -- Heads and ends have their places, and each node that is asked for gets one.
  refine (Settles.foldlM (I := fun (front : List (Node × Nat)) (p : Unit × Schedule) =>
    Placing g root f p.2 ∧ ∀ q ∈ front, g.Live root q.2 → (q.2 : NodeId) ≠ root →
      ∃ b, p.2.home q.2 = some b) ⟨hFramed.placing, by simp⟩ ?_).mono ?_
  · rintro front ⟨n, k⟩ rest ⟨_, s⟩ hSplit ⟨hPlacing, hDone⟩
    have hn : g.node? k = some n := Graph.mem_zipIdx.mp (by rw [hSplit]; simp)
    have hContains : live.mem k = true ↔ g.Live root k := by
      rw [← BitSet.contains_natCast]
      exact hMarked k
    have hFront : ∀ u, Grown (fun _ => True) s u → (g.Live root k → (k : NodeId) ≠ root →
        ∃ b, u.home k = some b) → ∀ q ∈ front ++ [(n, k)], g.Live root q.2 →
        (q.2 : NodeId) ≠ root → ∃ b, u.home q.2 = some b := by
      intro u hGrown hLast q hq hLive hNe
      rcases List.mem_append.mp hq with hq | hq
      · obtain ⟨b, hb⟩ := hDone q hq hLive hNe
        exact ⟨b, hGrown.home _ b hb⟩
      · rw [List.mem_singleton.mp hq] at hLive hNe ⊢
        exact hLast hLive hNe
    by_cases hAsked : (live.mem k && decide ((k : NodeId) ≠ root) && isPlaced n.op) = true
    · have hLive : g.Live root k := hContains.mp (by simp_all)
      have hNe : (k : NodeId) ≠ root := by simp_all
      have hBelow := (Relation.reflTransGen_iff_eq_or_transGen.mp hLive).resolve_left hNe
      have hFuel := Graph.rank_lt_size hn (hCycles k)
      dsimp only
      rw [if_pos hAsked, StateT.run_bind]
      refine (placeNode_settles hWell hCycles hClimb hFramed hPlacing hBelow (by omega)).bind ?_
      rintro ⟨b, t⟩ ⟨hPlacing', hGrown, hHome⟩
      refine Settles.pure ⟨hPlacing', hFront t (hGrown.mono fun _ _ => trivial) ?_⟩
      exact fun _ _ => ⟨b, hHome⟩
    · dsimp only
      rw [if_neg hAsked]
      refine Settles.pure ⟨hPlacing, hFront s Grown.refl ?_⟩
      intro hLive hNe
      refine hPlacing.pinned hFramed hLive ?_
      by_contra hFree
      rw [not_or] at hFree
      exact hAsked (by simp [hContains.mpr hLive, hNe, isPlaced_of_free hn hFree.1 hFree.2])
  · rintro ⟨_, s⟩ ⟨hPlacing, hDone⟩
    refine ⟨hPlacing, ?_⟩
    intro id hLive hNe
    obtain ⟨n, hn⟩ := hLive.node hWell hRoot
    obtain ⟨k, rfl, -⟩ := Graph.node?_eq_some.mp hn
    exact hDone (n, k) (Graph.mem_zipIdx.mpr hn) hLive hNe

end Schedule
end ArmBackend
