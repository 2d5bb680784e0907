import ArmBackend.Proofs.Schedule.Computed
import ArmBackend.Proofs.Schedule.Placed
import ArmBackend.Proofs.Selection.Layout

/-!
# Selected streams are well formed

The layout gives every covered block the range behind that of the block in front. The instruction
that closes a block goes where selection finds that the block goes, and for a branch selection looks
for the blocks of the projections among the successors. Over a computed schedule these are the
successors themselves, in order: each starts with a projection, so none is reached through a merge,
and no block starts with a projection of either kind.

## Results

* `branchTargets_wired` — the blocks found for a branch are the successors of its block.
* `foldl_appendBlock_ranges` — the ranges of the blocks cut the code into pieces.
* `select_laidOver` — a stream selected over a computed schedule is laid out over it.
-/

namespace ArmBackend
namespace Selection

variable {g : Graph} {schedule : Schedule} {block : Block} {projection : NodeId} {x : Nat}

/-! ## Targets of branches -/

/-- A block that is found starts with the projection or with a merge of it. -/
theorem targetOf?_eq_some {l : List Nat} (h : targetOf? g schedule projection l = .ok (some x)) :
    x ∈ l ∧ ∃ found, schedule.blocks[x]? = some found ∧
      (found.head = projection ∨ ∃ m, g.node? found.head = some m ∧ m.op = .merge ∧
        projection ∈ m.inputs) := by
  induction l with
  | nil => cases pure_eq_ok.mp h
  | cons y rest ih =>
    unfold targetOf? at h
    obtain ⟨found, hFound, h⟩ := bind_eq_ok.mp h
    have hBlock : schedule.blocks[y]? = some found := by
      unfold Schedule.block at hFound
      split at hFound
      · next hSome =>
        cases hFound
        exact hSome
      · cases hFound
    split at h
    · next hHead =>
      cases pure_eq_ok.mp h
      exact ⟨List.mem_cons_self, found, hBlock, .inl hHead⟩
    · obtain ⟨head, hNode, h⟩ := bind_eq_ok.mp h
      split at h
      · next hMerge =>
        -- a block headed by the projection, or one whose merge the projection feeds
        cases pure_eq_ok.mp h
        rw [Bool.and_eq_true, decide_eq_true_eq, List.contains_iff_mem] at hMerge
        exact ⟨List.mem_cons_self, found, hBlock,
          .inr ⟨head, Graph.node_eq_ok.mp hNode, hMerge.1, hMerge.2⟩⟩
      · obtain ⟨hMem, hRest⟩ := ih h
        exact ⟨List.mem_cons_of_mem _ hMem, hRest⟩

/-- Of the two arms of a branch only one starts with a projection of a given kind. -/
theorem targetOf?_arm {branch : NodeId} {t f : Nat} {op : Operator}
    (hTrue : schedule.StartsWith g t branch .ifTrue)
    (hFalse : schedule.StartsWith g f branch .ifFalse) (hOp : g.HasOp projection op)
    (h : targetOf? g schedule projection [t, f] = .ok (some x)) :
    (op = .ifTrue → x = t) ∧ (op = .ifFalse → x = f) := by
  obtain ⟨hMem, found, hFound, hHead⟩ := targetOf?_eq_some h
  -- The operator of the head that is found is that of the projection or a merge.
  have hKind : ∀ {arm : Operator}, schedule.StartsWith g x branch arm → arm ≠ .merge → arm = op := by
    rintro arm ⟨block, n, hBlock, hn, hnOp, -⟩ hArm
    obtain rfl : found = block := Option.some.inj (hFound.symm.trans hBlock)
    have hStarts : g.HasOp found.head arm := ⟨n, hn, hnOp⟩
    rcases hHead with hIs | ⟨m, hm, hMerge, -⟩
    · rw [hIs] at hStarts
      exact hStarts.unique hOp
    · exact absurd (hStarts.unique ⟨m, hm, hMerge⟩) hArm
  rcases List.mem_cons.mp hMem with rfl | hMem
  · obtain rfl := hKind hTrue (by simp)
    exact ⟨fun _ => rfl, by simp⟩
  · obtain rfl := List.mem_singleton.mp hMem
    obtain rfl := hKind hFalse (by simp)
    exact ⟨by simp, fun _ => rfl⟩

/-- The blocks found for a branch are the two successors of the block that it ends. -/
theorem branchTargets_wired {branch : NodeId} {t f t' f' : Nat} (hSucc : block.succ = [t, f])
    (hTrue : schedule.StartsWith g t branch .ifTrue)
    (hFalse : schedule.StartsWith g f branch .ifFalse)
    (h : branchTargets g schedule block branch = .ok (t', f')) : t' = t ∧ f' = f := by
  unfold branchTargets at h
  obtain ⟨uses, -, h⟩ := bind_eq_ok.mp h
  obtain ⟨p, hFold, h⟩ := bind_eq_ok.mp h
  -- Each use may overwrite what was found, but only by the same block.
  have hArms : (∀ x, p.1 = some x → x = t) ∧ (∀ x, p.2 = some x → x = f) := by
    refine Settles.of_ok (Settles.foldlM_mem (R := fun _ => True)
      (I := fun p : Option Nat × Option Nat =>
        (∀ x, p.1 = some x → x = t) ∧ ∀ x, p.2 = some x → x = f) ?_ ?_) hFold
    · simp
    · rintro u - ⟨t?, f?⟩ ⟨hT, hF⟩
      refine Settles.intro ?_
      intro q hq
      obtain ⟨op, hOp, hq⟩ := bind_eq_ok.mp hq
      have hIs := Graph.op_eq_ok.mp hOp
      rw [hSucc] at hq
      split at hq
      · obtain ⟨x?, hx, hq⟩ := bind_eq_ok.mp hq
        cases pure_eq_ok.mp hq
        refine ⟨?_, hF⟩
        rintro x rfl
        exact (targetOf?_arm hTrue hFalse hIs hx).1 rfl
      · obtain ⟨x?, hx, hq⟩ := bind_eq_ok.mp hq
        cases pure_eq_ok.mp hq
        refine ⟨hT, ?_⟩
        rintro x rfl
        exact (targetOf?_arm hTrue hFalse hIs hx).2 rfl
      · cases pure_eq_ok.mp hq
        exact ⟨hT, hF⟩
  obtain ⟨t?, f?⟩ := p
  dsimp only at h hArms
  split at h
  · cases pure_eq_ok.mp h
    exact ⟨hArms.1 _ rfl, hArms.2 _ rfl⟩
  · cases h

/-- What closes a block of a computed schedule goes where the block goes. -/
theorem Closes.endsIn {i : Instr} (h : Closes g schedule block i)
    (hWired : block.kind = .branch → Schedule.Wired g schedule block) :
    schedule.EndsIn g block i := by
  unfold Schedule.EndsIn
  cases h with
  | goto hKind hSucc hi =>
    rw [hKind]
    exact ⟨_, hSucc, hi⟩
  | branch hKind hTargets hi =>
    obtain ⟨branch, t, f, hControl, hSucc, hTrue, hFalse⟩ := hWired hKind
    rw [hControl] at hTargets
    obtain ⟨rfl, rfl⟩ := branchTargets_wired hSucc hTrue hFalse hTargets
    rw [hKind]
    exact ⟨branch, _, _, hControl, hSucc, hi, hTrue, hFalse⟩
  | ret hKind hi =>
    rw [hKind]
    exact ⟨_, hi⟩

/-! ## Ranges -/

/-- Each block is laid out behind the one in front, and the last one reaches the end. -/
theorem foldl_appendBlock_ranges (covered : List Covered) (s : Stream) :
    ∃ added, (covered.foldl appendBlock s).blocks = s.blocks ++ added ∧
      List.Forall₂ (fun (c : Covered) (block : Stream.Block) => block.id = c.id ∧
        block.succ = (c.succ.map fun (t : Nat) => (t : Int)) ∧
        block.stop = block.start + c.code.length) covered added ∧
      added.map Stream.Block.start ++ [((covered.foldl appendBlock s).code.length : Int)] =
        (s.code.length : Int) :: added.map Stream.Block.stop := by
  induction covered generalizing s with
  | nil => exact ⟨[], by simp, .nil, rfl⟩
  | cons c rest ih =>
    obtain ⟨added, hBlocks, hAdded, hRanges⟩ := ih (appendBlock s c)
    let block : Stream.Block := {
      id := c.id, phis := c.phis, succ := c.succ.map fun (x : Nat) => (x : Int)
      start := s.code.length, stop := s.code.length + c.code.length }
    -- the next block starts where this one stops
    have hNext : ((appendBlock s c).code.length : Int) = block.stop := by
      show ((s.code ++ c.code).length : Int) = s.code.length + c.code.length
      rw [List.length_append]
      omega
    rw [List.foldl_cons]
    refine ⟨block :: added, ?_, .cons ⟨rfl, rfl, rfl⟩ hAdded, ?_⟩
    · rw [hBlocks]
      exact List.append_assoc s.blocks [block] added
    · rw [List.map_cons, List.cons_append, hRanges, hNext]
      rfl

end Selection

open Selection

/-- A stream that is selected over a computed schedule is laid out over it: block by block, with one
terminator at the end of each that goes where the block goes, and with every operand in range. -/
theorem select_laidOver {g : Graph} {schedule : Schedule} {features : Features} {stream : Stream}
    (hCompute : Schedule.compute g = .ok schedule)
    (hSelect : select g schedule features = .ok stream) : stream.LaidOver g schedule := by
  unfold select at hSelect
  obtain ⟨⟨covered, s⟩, hCovered, hStream⟩ := bind_eq_ok.mp hSelect
  cases pure_eq_ok.mp hStream
  obtain ⟨ops, code, hDraft, hAll⟩ := coverAll_drafts covered s hCovered
  have hExtends := foldl_appendBlock_extends covered s.stream
  obtain ⟨added, hBlocks, hCode, -, hAdded⟩ := foldl_appendBlock covered s.stream
  obtain ⟨added', hBlocks', hIds, hRanges⟩ := foldl_appendBlock_ranges covered s.stream
  obtain rfl : added = added' := List.append_cancel_left (hBlocks.symm.trans hBlocks')
  rw [hDraft.layout.2, List.nil_append] at hBlocks
  -- What is known of the block at a position, of its code and of the block of the schedule.
  have hAt : ∀ (b : Nat) (block : Stream.Block),
      (covered.foldl appendBlock s.stream).blocks[b]? = some block →
      ∃ (c : Covered) (source : Block), schedule.blocks[b]? = some source ∧
        c.Sound { graph := g, schedule, features } source b s.stream ∧
        block.code (covered.foldl appendBlock s.stream) = c.code ∧ block.phis = c.phis ∧
        block.id = c.id ∧ block.succ = (c.succ.map fun (t : Nat) => (t : Int)) ∧
        block.stop = block.start + c.code.length := by
    intro b block hBlock
    rw [hBlocks] at hBlock
    obtain ⟨hLt, hGet⟩ := List.getElem?_eq_some_iff.mp hBlock
    have hb : b < covered.length := by
      rw [hAdded.length_eq]
      exact hLt
    have hSource : b < schedule.blocks.toList.zipIdx.length := by
      rw [← hAll.length_eq]
      exact hb
    have hSize : b < schedule.blocks.size := by simpa using hSource
    have hSound := hAll.get hb hSource
    have hPhis := hAdded.get hb hLt
    have hRange := hIds.get hb hLt
    simp only [List.get_eq_getElem, List.getElem_zipIdx, Array.getElem_toList, Nat.zero_add, hGet]
      at hSound hPhis hRange
    exact ⟨covered[b], schedule.blocks[b], Array.getElem?_eq_getElem hSize, hSound, hPhis.2,
      hPhis.1, hRange⟩
  refine ⟨?_, ?_, ?_, ?_, ?_, ?_⟩
  · rw [hBlocks, ← hAdded.length_eq, hAll.length_eq]
    simp
  · intro b block source hBlock hSource
    obtain ⟨c, source', hSource', hSound, -, -, hId, hSucc, -⟩ := hAt b block hBlock
    obtain rfl : source = source' := Option.some.inj (hSource.symm.trans hSource')
    exact ⟨by rw [hId, hSound.id], by rw [hSucc, hSound.succ]⟩
  · rw [hDraft.layout.1] at hRanges
    rw [hBlocks]
    exact hRanges
  · intro b block source hBlock hSource
    obtain ⟨c, source', hSource', hSound, hPiece, -, -, -, hStop⟩ := hAt b block hBlock
    obtain rfl : source = source' := Option.some.inj (hSource.symm.trans hSource')
    obtain ⟨front, last, hEnds, hFront, hCloses⟩ := hSound.ends
    refine ⟨?_, front, last, hPiece.trans hEnds, hFront, hCloses.isTerminator, ?_⟩
    · have hLength : c.code.length = front.length + 1 := by
        rw [hEnds, List.length_append, List.length_singleton]
      omega
    · exact hCloses.endsIn (Schedule.compute_wired hCompute hSource)
  · intro i hi
    rw [hCode, hDraft.layout.1, List.nil_append] at hi
    obtain ⟨c, hc, hi⟩ := List.mem_flatMap.mp hi
    obtain ⟨b, hb⟩ := List.mem_iff_getElem?.mp hc
    have hLt : b < added.length := by
      rw [← hAdded.length_eq]
      exact (List.getElem?_eq_some_iff.mp hb).1
    obtain ⟨hLt', hGet⟩ := List.getElem?_eq_some_iff.mp hb
    have hSound := hAll.get hLt' (by rw [← hAll.length_eq]; exact hLt')
    rw [List.get_eq_getElem, hGet] at hSound
    exact fits_mono (hSound.sure i hi).2 hExtends
  · intro block hBlock phi hPhi r hr
    obtain ⟨b, hb⟩ := List.mem_iff_getElem?.mp hBlock
    obtain ⟨c, source, -, hSound, -, hPhis, -⟩ := hAt b block hb
    rw [hPhis] at hPhi
    exact (hSound.joins phi hPhi r hr).mono hExtends

theorem select_laidOver_countingLoop :
    ∃ schedule stream, Schedule.compute Schedule.countingLoop = .ok schedule ∧
      select Schedule.countingLoop schedule ⟨0⟩ = .ok stream ∧
      stream.code.map Instr.op = [.nop, .jmp, .cmp, .jmp, .ret] ∧
      stream.LaidOver Schedule.countingLoop schedule := by
  have hOps : ((Schedule.compute Schedule.countingLoop).toOption.bind fun schedule =>
      (select Schedule.countingLoop schedule ⟨0⟩).toOption.map fun stream =>
        stream.code.map Instr.op) = some [.nop, .jmp, .cmp, .jmp, .ret] := by
    decide +kernel
  obtain ⟨schedule, hSchedule, hOps⟩ := Option.bind_eq_some_iff.mp hOps
  obtain ⟨stream, hStream, hOps⟩ := Option.map_eq_some_iff.mp hOps
  have hCompute := toOption_eq_some.mp hSchedule
  have hSelect := toOption_eq_some.mp hStream
  exact ⟨schedule, stream, hCompute, hSelect, hOps, select_laidOver hCompute hSelect⟩

end ArmBackend
