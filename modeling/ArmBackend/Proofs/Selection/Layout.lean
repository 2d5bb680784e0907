import ArmBackend.Proofs.Selection.Rules.Nodes
import ArmBackend.Proofs.Selection.Ssa

/-!
# The layout of selected code

Blocks are covered from the last to the first, and the nodes of a block from the bottom up; each
piece of code goes in front of what is there. So the code of a block is that of its nodes, which
ends no block, followed by the one instruction that does. What was legal when it was emitted stays
so, because the tables of the stream only grow.

## Results

* `coverBlock_drafts`, `coverBlocks_drafts` — one step of the walk over the blocks, and the walk.
* `coverAll_drafts` — what a whole walk leaves.
* `select_legal` — every instruction of a selected stream is legal on the target.
-/

namespace ArmBackend
namespace Selection

variable {site : Site} {features : Features} {start : Stream} {ops : List (Operand × Form)}
  {code : List Instr} {s s' : State} {id : NodeId} {b : Nat}

/-- Whether every instruction is legal and fits the tables of a stream. -/
def Sure (features : Features) (stream : Stream) (code : List Instr) : Prop :=
  ∀ i ∈ code, i.Legal features stream ∧ i.Fits stream

theorem Sure.mono {t t' : Stream} (h : Sure features t code) (hExtends : t.Extends t') :
    Sure features t' code :=
  fun i hi => ⟨legal_mono (h i hi).1 hExtends, fits_mono (h i hi).2 hExtends⟩

theorem Sure.append {t : Stream} {more : List Instr} (h : Sure features t code)
    (h' : Sure features t more) : Sure features t (code ++ more) := by
  intro i hi
  rcases List.mem_append.mp hi with hi | hi
  · exact h i hi
  · exact h' i hi

/-! ## Pieces of code -/

/-- A new piece of code starts with nothing taken and nothing emitted. -/
theorem Draft.restart (h : Draft features start ops code s) :
    Draft features s.stream [] [] { s with segment := [] } where
  grows := .refl _
  sound := h.sound.of_tables rfl rfl rfl
  params := h.params
  joins := h.joins
  operands := by simp
  segment := rfl
  code := by simp
  layout := h.layout

/-- A piece of code is what its rule emits. -/
theorem segmentOf_drafts (h : Draft site.features start ops code s) {cover : Select Unit}
    {P : List Instr → Prop}
    (hCover : ∀ {s₀ : State}, Draft site.features s.stream [] [] s₀ →
      Ensures (site.at b id) s₀ cover fun _ s' =>
        ∃ ops' code', Draft site.features s.stream ops' code' s' ∧ P code') :
    Ensures site s (segmentOf b id cover) fun code' s' =>
      ∃ ops', Draft site.features s.stream ops' code' s' ∧ P code' := by
  unfold segmentOf
  simp only [ensures_bind, ensures_modify, ensures_get, ensures_pure, ensures_withReader]
  have hPiece : Ensures (site.at b id) { s with segment := [] } cover _ := hCover h.restart
  refine hPiece.mono ?_
  rintro _ s' ⟨ops', code', h', hP⟩
  rw [h'.segment]
  exact ⟨ops', h', hP⟩

/-- The code of nodes goes in front of what is there, and ends no block. -/
theorem coverNodes_drafts {l : List NodeId} (h : Draft site.features start ops code s)
    {last : List Instr} (hLast : Sure site.features s.stream last) :
    Ensures site s (coverNodes b l last) fun all s' =>
      ∃ ops' code' front, Draft site.features start ops' code' s' ∧ all = front ++ last ∧
        (∀ i ∈ front, ¬i.IsTerminator) ∧ Sure site.features s'.stream all := by
  -- the nodes are covered last first, so each new piece goes in front of those there are
  refine ensures_coverNodes (I := fun _ all t => ∃ ops' code' front,
    Draft site.features start ops' code' t ∧ all = front ++ last ∧
      (∀ i ∈ front, ¬i.IsTerminator) ∧ Sure site.features t.stream all)
    ⟨ops, code, [], h, rfl, by simp, hLast⟩ ?_ fun _ _ _ _ hI _ => hI
  rintro x rest _ t ⟨ops₁, code₁, front, h₁, rfl, hFront, hAll⟩ _ _
  have hNode : ∀ {s₀ : State}, Draft (site.at b x).features t.stream [] [] s₀ →
      Ensures (site.at b x) s₀ (coverNode x) fun _ s' => Inner site.features t.stream s' :=
    fun h₀ => coverNode_drafts h₀
  refine (segmentOf_drafts h₁ hNode).mono ?_
  rintro piece t' ⟨ops₂, h₂, hPiece⟩
  refine ⟨ops₂, piece, piece ++ front, { h₂ with grows := h₁.grows.trans h₂.grows }, by simp, ?_,
    .append h₂.code (hAll.mono h₂.grows)⟩
  intro i hi
  rcases List.mem_append.mp hi with hi | hi
  · exact hPiece i hi
  · exact hFront i hi

/-! ## Blocks -/

/-- What is known of the code of a block. -/
structure Covered.Sound (c : Covered) (site : Site) (block : Block) (b : Nat) (stream : Stream) :
    Prop where
  id : c.id = b
  succ : c.succ = block.succ
  ends : ∃ front last, c.code = front ++ [last] ∧ (∀ i ∈ front, ¬i.IsTerminator) ∧
    Closes site.graph site.schedule block last
  sure : Sure site.features stream c.code
  joins : ∀ phi ∈ c.phis, ∀ r ∈ phi.out :: phi.inputs, stream.HasVreg r

theorem Covered.Sound.mono {c : Covered} {block : Block} {t t' : Stream}
    (h : c.Sound site block b t) (hExtends : t.Extends t') : c.Sound site block b t' where
  id := h.id
  succ := h.succ
  ends := h.ends
  sure := h.sure.mono hExtends
  joins := fun phi hPhi r hr => (h.joins phi hPhi r hr).mono hExtends

theorem coverBlock_drafts (h : Draft site.features start ops code s) (block : Block) :
    Ensures site s (coverBlock b block) fun c s' =>
      ∃ ops' code', Draft site.features s.stream ops' code' s' ∧
        c.Sound site block b s'.stream := by
  unfold coverBlock
  simp only [ensures_bind, ensures_modify, ensures_get, ensures_pure]
  have hEmpty : Draft site.features start ops code { s with phis := [] } :=
    { h with sound := h.sound.of_tables rfl rfl rfl, joins := by simp }
  -- the control is covered first, so that its instruction closes the block's code
  have hControl : ∀ {s₀ : State}, Draft site.features s.stream [] [] s₀ →
      Ensures (site.at b (block.control.getD (-1))) s₀ (coverControl b block) fun _ s' =>
        ∃ ops' code', Draft site.features s.stream ops' code' s' ∧
          ∃ last, code' = [last] ∧ Closes site.graph site.schedule block last := by
    intro s₀ h₀
    have hHere : Draft (site.at b (block.control.getD (-1))).features s.stream [] [] s₀ := h₀
    refine (coverControl_drafts hHere b block).mono ?_
    rintro _ s' ⟨ops', i, h', hi⟩
    exact ⟨ops', [i], h', i, rfl, hi⟩
  refine (segmentOf_drafts hEmpty hControl).mono ?_
  rintro _ s₁ ⟨ops₁, h₁, last, rfl, hLast⟩
  refine (coverNodes_drafts h₁ h₁.code).mono ?_
  rintro all s₂ ⟨ops₂, code₂, front, h₂, rfl, hFront, hAll⟩
  exact ⟨ops₂, code₂, h₂, rfl, rfl, ⟨front, last, rfl, hFront, hLast⟩, hAll, h₂.joins⟩

/-- Every block has its code when all are covered. -/
theorem coverBlocks_drafts {l : List (Block × Nat)} (h : Draft site.features start ops code s) :
    Ensures site s (coverBlocks l.reverse []) fun all s' =>
      (∃ ops' code', Draft site.features start ops' code' s') ∧
        List.Forall₂ (fun (c : Covered) p => c.Sound site p.1 p.2 s'.stream) all l := by
  refine ensures_coverBlocks_each
    (I := fun _ _ t => ∃ ops' code', Draft site.features start ops' code' t)
    (P := fun c p t => c.Sound site p.1 p.2 t.stream) ⟨ops, code, h⟩ ?_
  rintro block b rest done t ⟨ops₁, code₁, h₁⟩
  refine (coverBlock_drafts h₁ block).mono ?_
  rintro c t' ⟨ops₂, code₂, h₂, hc⟩
  -- the blocks covered before stay sound, since the stream only grew
  exact ⟨⟨ops₂, code₂, { h₂ with grows := h₁.grows.trans h₂.grows }⟩, hc,
    fun _ _ hOld => hOld.mono h₂.grows⟩

/-- Parameters come in in registers. -/
theorem assignParameters_drafts {l : List (NodeId × Node)} (linkage : Linkage)
    (h : Draft site.features start ops code s) :
    Ensures site s (assignParameters linkage l) fun _ s' =>
      Draft site.features start ops code s' := by
  refine ensures_assignParameters linkage h ?_
  intro p _ t location ht
  refine (vreg_drafts ht).mono ?_
  rintro v s₁ ⟨h₁, -, hv⟩
  -- a location is recorded with a register that the stream knows
  refine { h₁ with sound := h₁.sound.of_tables rfl rfl rfl, params := ?_ }
  intro p hp
  rcases List.mem_cons.mp hp with rfl | hOld
  · exact .vreg hv _
  · exact h₁.params p hOld

/-- A walk over a schedule covers its blocks, in order. -/
theorem coverAll_drafts :
    Ensures site {} coverAll fun covered s =>
      ∃ ops code, Draft site.features {} ops code s ∧
        List.Forall₂ (fun (c : Covered) p => c.Sound site p.1 p.2 s.stream) covered
          site.schedule.blocks.toList.zipIdx := by
  have hStart : Draft site.features {} [] [] {} :=
    ⟨.refl _, .empty, by simp, by simp, by simp, rfl, by simp, rfl, rfl⟩
  unfold coverAll
  simp only [ensures_bind, ensures_read]
  refine (assignParameters_drafts {} hStart).mono ?_
  intro _ s₁ h₁
  refine (coverBlocks_drafts h₁).mono ?_
  rintro covered s₂ ⟨⟨ops₂, code₂, h₂⟩, hAll⟩
  exact ⟨ops₂, code₂, h₂, hAll⟩

/-! ## Streams -/

/-- Laying out code leaves the tables of a stream alone. -/
theorem foldl_appendBlock_extends (covered : List Covered) (s : Stream) :
    s.Extends (covered.foldl appendBlock s) := by
  induction covered generalizing s with
  | nil => exact .refl s
  | cons c rest ih =>
    have hFirst : s.Extends (appendBlock s c) := ⟨Nat.le_refl _, List.prefix_rfl, fun hr => hr⟩
    exact hFirst.trans (ih _)

end Selection

open Selection

/-- Every instruction that is selected, for any graph over any schedule, is legal on the target. -/
theorem select_legal {g : Graph} {schedule : Schedule} {features : Features} {stream : Stream}
    (hSelect : select g schedule features = .ok stream) :
    ∀ i ∈ stream.code, i.Legal features stream := by
  unfold select at hSelect
  obtain ⟨⟨covered, s⟩, hCovered, hStream⟩ := bind_eq_ok.mp hSelect
  cases pure_eq_ok.mp hStream
  obtain ⟨ops, code, hDraft, hAll⟩ := coverAll_drafts covered s hCovered
  obtain ⟨-, -, hCode, -⟩ := foldl_appendBlock covered s.stream
  intro i hi
  rw [hCode, hDraft.layout.1, List.nil_append] at hi
  obtain ⟨c, hc, hi⟩ := List.mem_flatMap.mp hi
  obtain ⟨k, hk⟩ := List.mem_iff_getElem?.mp hc
  obtain ⟨hLt, hGet⟩ := List.getElem?_eq_some_iff.mp hk
  have hSound := hAll.get hLt (by rw [← hAll.length_eq]; exact hLt)
  rw [List.get_eq_getElem, hGet] at hSound
  exact legal_mono (hSound.sure i hi).1 (foldl_appendBlock_extends covered s.stream)

/-- A function with a mask, a shifted operand, a negative constant and a division. -/
def packing : Graph where
  nodes := #[{ op := .start }, .parameter 0 .int32, { op := .constant .int32, int := 255 },
    .ofArity (.word32 .and) [1, 2], { op := .constant .int32, int := 3 },
    .ofArity (.word32 .shl) [1, 4], .ofArity (.int32 .add) [3, 5],
    { op := .constant .int32, int := -4 }, .ofArity (.int32 .add) [6, 7],
    .ofArity (.int32 .div) [8, 1], .ofArity .ret [9, 0, 0], .collect [10]]
  exit := some 11

theorem select_legal_packing :
    ∃ stream, select packing (.single [1, 2, 3, 4, 5, 6, 7, 8, 9] 10) ⟨7⟩ = .ok stream ∧
      stream.code.map Instr.op = [.nop, .ubfx, .add, .add, .sdiv, .ret] ∧
      ∀ i ∈ stream.code, i.Legal ⟨7⟩ stream := by
  have hOps : (select packing (.single [1, 2, 3, 4, 5, 6, 7, 8, 9] 10) ⟨7⟩).toOption.map
      (fun stream => stream.code.map Instr.op) = some [.nop, .ubfx, .add, .add, .sdiv, .ret] := by
    decide +kernel
  cases hSelect : select packing (.single [1, 2, 3, 4, 5, 6, 7, 8, 9] 10) ⟨7⟩ with
  | error fault =>
    rw [hSelect] at hOps
    cases hOps
  | ok stream =>
    rw [hSelect] at hOps
    exact ⟨stream, rfl, Option.some.inj hOps, select_legal hSelect⟩

end ArmBackend
