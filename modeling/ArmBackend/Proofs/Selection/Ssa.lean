import ArmBackend.Proofs.Selection.Available
import ArmBackend.Proofs.Structure

/-!
# Selected code is in single assignment form

Selection lays out what it has covered block by block, so the instructions of a block are those of
the entries of its places. No two entries write the same register, and what an entry reads is
written in front of it.

## Results

* `Run.writes_disjoint` — no register is written at two places.
* `laidOut` — where the code of a block is found in the stream.
* `select_ssaForm` — the code that is selected for a verified graph over a valid schedule is in
  single assignment form, if every value input has a value.
-/

namespace ArmBackend
namespace Selection

variable {site : Site} {E : List Entry} {s : State} {e e' : Entry} {b : Nat}

namespace Run

/-- A register that is written is given to a node, or is a temporary. -/
theorem writes_kinds (R : Run site E s) (he : e ∈ E) {r : Int} (hr : r ∈ e.writes) :
    ∃ v : Nat, r = v ∧ ((∃ x ∈ e.step.defs, (x, v) ∈ s.vregs) ∨
      (e.before.stream.nextVreg ≤ v ∧ v < e.after.stream.nextVreg ∧ Fresh s v)) := by
  have hGrows := R.trace.grows he
  rcases (R.trace.valid he).writes hr with ⟨x, hx, v, rfl, hv⟩ | ⟨v, rfl, hNew, hFresh⟩
  · exact ⟨v, rfl, .inl ⟨x, hx, hGrows.vreg_mono hv⟩⟩
  · exact ⟨v, rfl, .inr ⟨hNew, hFresh.lt, hFresh.mono hGrows⟩⟩

/-- Temporaries of a place lie above those of the places walked before. -/
theorem next_le (R : Run site E s) (he : e ∈ E) (he' : e' ∈ E)
    (hOrder : Precedes e.block e.index e'.block e'.index) :
    e'.after.stream.nextVreg ≤ e.before.stream.nextVreg := by
  obtain ⟨A, B, t, hE, hTrace, -, -, hGrows⟩ := R.trace.upTo he
  rcases R.split hE he' with ⟨-, hBefore⟩ | rfl | ⟨hB, -⟩
  · unfold Precedes at *
    omega
  · unfold Precedes at hOrder
    omega
  · exact Nat.le_trans (hTrace.grows hB).next_le hGrows.next_le

/-- No register is written at two places. -/
theorem writes_disjoint (R : Run site E s) (he : e ∈ E) (he' : e' ∈ E)
    (hOrder : Precedes e.block e.index e'.block e'.index) : e.writes.Disjoint e'.writes := by
  intro r hr hr'
  obtain ⟨v, rfl, hKind⟩ := R.writes_kinds he hr
  obtain ⟨v', hEq, hKind'⟩ := R.writes_kinds he' hr'
  cases Int.ofNat_inj.mp hEq
  rcases hKind with ⟨x, hx, hv⟩ | ⟨hNew, -, hFresh⟩
  · rcases hKind' with ⟨y, hy, hv'⟩ | ⟨-, -, hFresh'⟩
    · rw [R.trace.sound.vreg_inj hv hv'] at hx
      rw [R.defs_unique he he' hx hy] at hOrder
      unfold Precedes at hOrder
      omega
    · exact hFresh'.not_vreg hv
  · rcases hKind' with ⟨y, hy, hv'⟩ | ⟨-, hOld, -⟩
    · exact hFresh.not_vreg hv'
    · exact Nat.lt_irrefl _ (Nat.lt_of_lt_of_le (Nat.lt_of_lt_of_le hOld
        (R.next_le he he' hOrder)) hNew)

theorem writes_not_constant (R : Run site E s) (he : e ∈ E) {r : Int} (hr : r ∈ e.writes) :
    ¬s.IsConstant r := by
  obtain ⟨v, rfl, ⟨x, -, hv⟩ | ⟨-, -, hFresh⟩⟩ := R.writes_kinds he hr
  · exact R.trace.sound.apart hv
  · exact hFresh.not_constant

/-- The entries of a list of places write each register once. -/
theorem nodup_flatMap_writes (R : Run site E s) {L : List Entry} (hL : L.Sublist E) :
    (L.flatMap Entry.writes).Nodup := by
  refine List.nodup_flatMap.mpr ⟨?_, ?_⟩
  · intro e he
    exact (R.trace.valid (hL.subset he)).nodup_writes
  · refine (R.walked.sorted.sublist hL).imp_of_mem ?_
    intro e e' he he' hOrder
    exact R.writes_disjoint (hL.subset he) (hL.subset he') hOrder

end Run

/-! ## The layout -/

/-- What is laid out after a stream keeps what is there. -/
theorem foldl_appendBlock (covered : List Covered) (s : Stream) :
    ∃ added, (covered.foldl appendBlock s).blocks = s.blocks ++ added ∧
      (covered.foldl appendBlock s).code = s.code ++ covered.flatMap Covered.code ∧
      (covered.foldl appendBlock s).constants = s.constants ∧
      List.Forall₂ (fun (c : Covered) (block : Stream.Block) => block.phis = c.phis ∧
        block.code (covered.foldl appendBlock s) = c.code) covered added := by
  induction covered generalizing s with
  | nil => exact ⟨[], by simp, by simp, rfl, .nil⟩
  | cons c rest ih =>
    obtain ⟨added, hBlocks, hCode, hConstants, hAdded⟩ := ih (appendBlock s c)
    let block : Stream.Block := {
      id := c.id, phis := c.phis, succ := c.succ.map fun (x : Nat) => (x : Int)
      start := s.code.length, stop := s.code.length + c.code.length }
    rw [List.foldl_cons]
    refine ⟨block :: added, ?_, ?_, hConstants, .cons ⟨rfl, ?_⟩ hAdded⟩
    · rw [hBlocks]
      exact List.append_assoc s.blocks [block] added
    · rw [hCode]
      exact List.append_assoc s.code c.code _
    · unfold Stream.Block.code
      rw [hCode]
      -- later blocks append to the code, so the range of this one still reads its own instructions
      have hStop : ((s.code.length : Int) + c.code.length).toNat = (s.code ++ c.code).length := by
        rw [List.length_append]
        rfl
      show ((s.code ++ c.code ++ _).take (_ + _ : Int).toNat).drop _ = _
      rw [hStop, List.take_left, Int.toNat_natCast, List.drop_left]

/-- An element of a list of lists stands in one of them, behind those in front. -/
theorem flatMap_split {α β : Type} {f : α → List β} {l : List α} {front rest : List β} {x : β}
    (h : l.flatMap f = front ++ x :: rest) :
    ∃ A a B front' rest', l = A ++ a :: B ∧ f a = front' ++ x :: rest' ∧
      front = A.flatMap f ++ front' := by
  induction l generalizing front with
  | nil => simp at h
  | cons a l ih =>
    rw [List.flatMap_cons, List.append_eq_append_iff] at h
    rcases h with ⟨more, hFront, hRest⟩ | ⟨more, hHead, hRest⟩
    · -- `x` lies past the piece of `a`
      obtain ⟨A, a', B, front', rest', rfl, hSplit, rfl⟩ := ih hRest
      refine ⟨a :: A, a', B, front', rest', rfl, hSplit, ?_⟩
      rw [hFront, List.flatMap_cons, List.append_assoc]
    · -- or in it, unless that piece ends right before `x`
      cases more with
      | nil =>
        obtain ⟨A, a', B, front', rest', rfl, hSplit, hNil⟩ := @ih [] hRest.symm
        refine ⟨a :: A, a', B, front', rest', rfl, hSplit, ?_⟩
        rw [List.flatMap_cons, List.append_assoc, ← hNil, hHead, List.append_nil, List.append_nil]
      | cons y more =>
        obtain ⟨rfl, -⟩ := List.cons.inj hRest
        exact ⟨[], a, l, front, more, rfl, hHead, rfl⟩

/-- A stream holds the code of a walk: its blocks are those of the schedule, with the instructions and
joins of their entries, and its constants are those of the state. -/
structure LaidOut (E : List Entry) (s : State) (size : Nat) (stream : Stream) : Prop where
  size : stream.blocks.length = size
  block : ∀ b (block : Stream.Block), stream.blocks[b]? = some block →
    block.phis = phisOf b E ∧ block.code stream = codeOf b E
  constants : stream.constants = s.stream.constants

theorem Trace.laidOut (hTrace : Trace site E s) {covered : List Covered} (hLaid : Laid E 0 covered) :
    LaidOut E s covered.length (covered.foldl appendBlock s.stream) := by
  obtain ⟨added, hBlocks, -, hConstants, hAdded⟩ := foldl_appendBlock covered s.stream
  rw [hTrace.layout.2, List.nil_append] at hBlocks
  refine ⟨by rw [hBlocks, hAdded.length_eq], ?_, hConstants⟩
  intro b block hBlock
  rw [hBlocks] at hBlock
  obtain ⟨hLt, hGet⟩ := List.getElem?_eq_some_iff.mp hBlock
  have hb : b < covered.length := by
    rw [hAdded.length_eq]
    exact hLt
  have hBoth := hAdded.get hb hLt
  obtain ⟨-, hCode, hPhis⟩ := hLaid b covered[b] (List.getElem?_eq_getElem hb)
  rw [Nat.zero_add] at hCode hPhis
  rw [← hGet, ← hCode, ← hPhis]
  exact hBoth

namespace LaidOut

variable {size : Nat} {stream : Stream}

theorem constant? (h : LaidOut E s size stream) (r : Int) :
    stream.constant? r = none ↔ ¬s.IsConstant r := by
  unfold Stream.constant? State.IsConstant
  rw [h.constants, List.lookup_eq_none_iff]
  constructor
  · rintro hNone ⟨c, hc⟩
    exact absurd (hNone _ hc) (by simp)
  · intro hNot p hp
    rw [bne_iff_ne]
    rintro rfl
    exact hNot ⟨p.2, hp⟩

/-- A block writes what the entries of its places write. -/
theorem writes_perm (h : LaidOut E s size stream) {block : Stream.Block}
    (hBlock : stream.blocks[b]? = some block) :
    (block.writes stream).Perm ((E.filter (·.block = b)).flatMap Entry.writes) := by
  obtain ⟨hPhis, hCode⟩ := h.block b block hBlock
  rw [Stream.Block.writes, hPhis, hCode, phisOf, codeOf, List.map_flatMap, List.flatMap_assoc]
  exact List.flatMap_append_perm _ _ _

theorem mem_writesOf (h : LaidOut E s size stream) (hE : ∀ e ∈ E, e.block < size) {r : Int} :
    r ∈ stream.writesOf b ↔ ∃ e ∈ E, e.block = b ∧ r ∈ e.writes := by
  unfold Stream.writesOf
  cases hBlock : stream.blocks[b]? with
  | none =>
    have hSize := List.getElem?_eq_none_iff.mp hBlock
    rw [h.size] at hSize
    constructor
    · intro hr
      cases hr
    · rintro ⟨e, he, rfl, -⟩
      exact absurd (hE e he) (Nat.not_lt.mpr hSize)
  | some block =>
    rw [Option.elim_some, (h.writes_perm hBlock).mem_iff]
    simp [and_assoc]

end LaidOut

namespace Run

variable {stream : Stream}

/-- The places of a walk are in blocks of the schedule. -/
theorem block_lt (R : Run site E s) : ∀ e ∈ E, e.block < site.schedule.blocks.size :=
  R.trace.block_lt

/-- No register is written twice. -/
theorem nodup_writes (R : Run site E s) {size : Nat} (h : LaidOut E s size stream) :
    (stream.blocks.flatMap (·.writes stream)).Nodup := by
  refine List.nodup_flatMap.mpr ⟨?_, ?_⟩
  · intro block hBlock
    obtain ⟨b, hb⟩ := List.mem_iff_getElem?.mp hBlock
    exact (h.writes_perm hb).nodup_iff.mpr (R.nodup_flatMap_writes List.filter_sublist)
  · refine List.pairwise_iff_getElem.mpr ?_
    intro b b' hb hb' hLt r hr hr'
    have hMem := (h.writes_perm (List.getElem?_eq_getElem hb)).mem_iff.mp hr
    have hMem' := (h.writes_perm (List.getElem?_eq_getElem hb')).mem_iff.mp hr'
    obtain ⟨e, he, hr⟩ := List.mem_flatMap.mp hMem
    obtain ⟨e', he', hr'⟩ := List.mem_flatMap.mp hMem'
    simp only [List.mem_filter, decide_eq_true_eq] at he he'
    refine R.writes_disjoint he.1 he'.1 (.inl ?_) hr hr'
    rw [he.2, he'.2]
    exact hLt

/-- What an instruction of a block reads is there. -/
theorem reads_block (R : Run site E s) (h : LaidOut E s site.schedule.blocks.size stream)
    {block : Stream.Block} (hBlock : stream.blocks[b]? = some block) {front rest : List Instr}
    {i : Instr} (hSplit : block.code stream = front ++ i :: rest) {r : Int} (hr : r ∈ i.reads) :
    (stream.constant? r).isSome ∨ r ∈ block.phis.map Stream.Phi.out ∨
      r ∈ front.flatMap Instr.writes ∨
      ∃ a, site.schedule.StrictlyDominates a b ∧ r ∈ stream.writesOf a := by
  obtain ⟨hPhis, hCode⟩ := h.block b block hBlock
  rw [hCode, codeOf] at hSplit
  obtain ⟨A, e, B, front', rest', hList, hEntry, rfl⟩ := flatMap_split hSplit
  have hHere : ∀ e' ∈ A ++ e :: B, e' ∈ E ∧ e'.block = b := by
    intro e' he'
    rw [← hList] at he'
    simpa using he'
  obtain ⟨he, heBlock⟩ := hHere e (List.mem_append_right _ List.mem_cons_self)
  rcases R.reads_available he hEntry hr with hConstant | hFront | ⟨e', he', hWrites, hPlace⟩
  · left
    rw [Option.isSome_iff_ne_none]
    intro hNone
    exact (h.constant? r).mp hNone hConstant
  · refine .inr (.inr (.inl ?_))
    rw [List.flatMap_append]
    exact List.mem_append_right _ hFront
  · rcases hPlace with hStrict | ⟨hSame, hIndex⟩
    · rw [heBlock] at hStrict
      refine .inr (.inr (.inr ⟨e'.block, hStrict, ?_⟩))
      exact (h.mem_writesOf R.block_lt).mpr ⟨e', he', rfl, hWrites⟩
    · -- The entry stands in front of the other in the block.
      have hA : e' ∈ A := by
        have hMem : e' ∈ E.filter (·.block = b) := by
          rw [List.mem_filter]
          exact ⟨he', by simpa using hSame.trans heBlock⟩
        have hSorted := R.walked.sorted.sublist (List.filter_sublist (p := (·.block = b)))
        rw [hList] at hMem hSorted
        rcases List.mem_append.mp hMem with hA | hB
        · exact hA
        · rcases List.mem_cons.mp hB with rfl | hB
          · exact absurd hIndex (Nat.lt_irrefl _)
          · have hOrder := (List.pairwise_cons.mp (List.pairwise_append.mp hSorted).2.1).1 e' hB
            unfold Precedes at hOrder
            omega
      rcases List.mem_append.mp hWrites with hJoin | hInstr
      · refine .inr (.inl ?_)
        rw [hPhis, phisOf, hList, List.map_flatMap]
        exact List.mem_flatMap.mpr ⟨e', List.mem_append_left _ hA, hJoin⟩
      · refine .inr (.inr (.inl ?_))
        rw [List.flatMap_append, List.flatMap_assoc]
        exact List.mem_append_left _ (List.mem_flatMap.mpr ⟨e', hA, hInstr⟩)

/-- What a join of a block takes from a predecessor is there. -/
theorem joins_block (R : Run site E s) (h : LaidOut E s site.schedule.blocks.size stream)
    {block : Stream.Block} (hBlock : stream.blocks[b]? = some block) {phi : Stream.Phi}
    (hPhi : phi ∈ block.phis) {k : Nat} {r : Int} (hr : phi.inputs[k]? = some r) :
    (stream.constant? r).isSome ∨ ∃ p, (site.schedule.predecessors b)[k]? = some p ∧
      ∃ a, site.schedule.Dominates a p ∧ r ∈ stream.writesOf a := by
  obtain ⟨hPhis, -⟩ := h.block b block hBlock
  rw [hPhis, phisOf, List.mem_flatMap] at hPhi
  obtain ⟨e, he, hPhi⟩ := hPhi
  simp only [List.mem_filter, decide_eq_true_eq] at he
  rcases R.joins_available he.1 hPhi hr with hConstant | ⟨p, hp, e', he', hWrites, hDominates⟩
  · left
    rw [Option.isSome_iff_ne_none]
    intro hNone
    exact (h.constant? r).mp hNone hConstant
  · rw [he.2] at hp
    refine .inr ⟨p, hp, e'.block, hDominates, ?_⟩
    exact (h.mem_writesOf R.block_lt).mpr ⟨e', he', rfl, hWrites⟩

end Run
end Selection

open Selection

/-- The code that is selected for a verified graph over a valid schedule is in single assignment
form, if every value input of a node that is listed has a value. -/
theorem select_ssaForm {g : Graph} {schedule : Schedule} {features : Features} {stream : Stream}
    (hVerify : g.verify = .ok ()) (hProjected : g.OverflowProjected) (hValid : schedule.Valid g)
    (hValued : schedule.Valued g) (hSelect : select g schedule features = .ok stream) :
    stream.SsaForm schedule := by
  let site : Site := { graph := g, schedule, features }
  unfold select at hSelect
  obtain ⟨⟨covered, s⟩, hCovered, hStream⟩ := bind_eq_ok.mp hSelect
  have hGiven : Given site := ⟨hVerify, hProjected⟩
  obtain ⟨E, hTrace, hWalked, hLaid, hLength⟩ := coverAll_ensures hGiven covered s hCovered
  have R : Run site E s := ⟨hGiven, hValid, hValued, hTrace, hWalked⟩
  have hLayout := hTrace.laidOut hLaid
  rw [hLength, pure_eq_ok.mp hStream] at hLayout
  refine ⟨R.nodup_writes hLayout, ?_, ?_, ?_⟩
  · intro b r hr
    obtain ⟨e, he, -, hWrites⟩ := (hLayout.mem_writesOf R.block_lt).mp hr
    exact (hLayout.constant? r).mpr (R.writes_not_constant he hWrites)
  · intro b block hBlock front i rest hSplit r hr
    exact R.reads_block hLayout hBlock hSplit hr
  · intro b block hBlock phi hPhi k r hr
    exact R.joins_block hLayout hBlock hPhi hr

/-- A number and forty or, where the sum does not fit, what their difference and the sum add up to. -/
def guardedSum : Graph where
  nodes := #[
    { op := .start },
    .parameter 0 .int32,
    .int32 40,
    .ofArity (.int32 .addWithOverflow) [1, 2],
    .projection 0 3,
    .projection 1 3,
    .ofArity .branch [5, 0],
    .ofArity .ifTrue [6],
    .ofArity .ifFalse [6],
    .ofArity (.int32 .sub) [1, 2],
    .ofArity (.int32 .add) [9, 4],
    .merge [7, 8],
    .phi .word32 [10, 4, 11],
    .ofArity .ret [12, 0, 11],
    .collect [13]]
  exit := some 14

/-- The blocks of `guardedSum`: the branch, its arms and where they meet. -/
def guardedSumBlocks : Schedule where
  blocks := #[
    { kind := .branch, head := 0, nodes := [1, 2, 3, 4, 5], control := some 6, succ := [1, 2] },
    { kind := .goto, head := 7, nodes := [9, 10], succ := [3], pred := [0], dom := some 0, depth := 1 },
    { kind := .goto, head := 8, nodes := [], succ := [3], pred := [0], dom := some 0, depth := 1 },
    { kind := .ret, head := 11, nodes := [12], control := some 13, pred := [1, 2], dom := some 0
      depth := 1 }]
  home := fun id =>
    if id ∈ [0, 1, 2, 3, 4, 5, 6] then some 0
    else if id ∈ [7, 9, 10] then some 1
    else if id = 8 then some 2
    else if id ∈ [11, 12, 13] then some 3
    else none

theorem select_ssaForm_guardedSum :
    guardedSum.OverflowProjected ∧ guardedSumBlocks.Valid guardedSum ∧
      guardedSumBlocks.Valued guardedSum ∧
      ∃ stream, select guardedSum guardedSumBlocks ⟨0⟩ = .ok stream ∧
        stream.SsaForm guardedSumBlocks := by
  have hProjected : guardedSum.OverflowProjected :=
    Graph.overflowProjected_of_users (by decide) (by decide)
  have hValid : guardedSumBlocks.Valid guardedSum :=
    Schedule.valid_of_near (by decide) (by decide) (by decide) (by decide) (by decide) (by decide)
      (by decide)
  have hValued : guardedSumBlocks.Valued guardedSum := Schedule.valued_of_graph (by decide)
  have hOk : (select guardedSum guardedSumBlocks ⟨0⟩).isOk = true := by decide +kernel
  cases hSelect : select guardedSum guardedSumBlocks ⟨0⟩ with
  | error fault =>
    rw [hSelect] at hOk
    cases hOk
  | ok stream =>
    exact ⟨hProjected, hValid, hValued, stream, rfl,
      select_ssaForm (by decide) hProjected hValid hValued hSelect⟩

/-- A function that returns a node without a value. -/
def valueless : Graph where
  nodes := #[{ op := .start }, .ofArity .controlEffect [0], .ofArity .ret [1, 0, 0], .collect [2]]
  exit := some 3

/-- One block with the given nodes that ends in a return. -/
def Schedule.single (nodes : List NodeId) (ret : NodeId) : Schedule where
  blocks := #[{ kind := .ret, head := 0, nodes, control := some ret }]
  home := fun id => if id ∈ 0 :: ret :: nodes then some 0 else none

/-- A value input without a value is read from a register that nothing writes. -/
theorem select_valueless_not_ssaForm : valueless.verify = .ok () ∧ valueless.OverflowProjected ∧
    (Schedule.single [1] 2).Valid valueless ∧
    ∃ stream, select valueless (.single [1] 2) ⟨0⟩ = .ok stream ∧
      ¬stream.SsaForm (.single [1] 2) := by
  refine ⟨by decide, Graph.overflowProjected_of_none (by decide),
    Schedule.valid_of_near (by decide) (by decide) (by decide) (by decide) (by decide) (by decide)
      (by decide), ?_⟩
  -- The return reads a register, no constant, in the one block, which has no joins.
  have hFacts : (select valueless (.single [1] 2) ⟨0⟩).toOption.map
      (fun stream => (stream.blocks.map (fun block => (block.phis, block.code stream)),
        stream.constants)) =
      some ([([], [{ op := .ret, inputs := [.vreg 0 (.fixedRegister 0)] }])], []) := by
    decide +kernel
  cases hSelect : select valueless (.single [1] 2) ⟨0⟩ with
  | error fault =>
    rw [hSelect] at hFacts
    cases hFacts
  | ok stream =>
    refine ⟨stream, rfl, ?_⟩
    intro hForm
    rw [hSelect] at hFacts
    obtain ⟨hBlocks, hConstants⟩ := Prod.mk.inj (Option.some.inj hFacts)
    obtain ⟨block, hList, hBlock⟩ := List.map_eq_singleton_iff.mp hBlocks
    obtain ⟨hPhis, hCode⟩ := Prod.mk.inj hBlock
    have hRead := hForm.reads 0 block (by rw [hList]; rfl) [] _ [] hCode 0 (by decide)
    rcases hRead with hConstant | hJoin | hFront | ⟨a, ⟨hDominates, hNe⟩, -⟩
    · unfold Stream.constant? at hConstant
      rw [hConstants] at hConstant
      cases hConstant
    · rw [hPhis] at hJoin
      cases hJoin
    · cases hFront
    · rcases hDominates with hSame | ⟨-, hPath⟩
      · exact hNe hSame
      · exact hNe (List.mem_singleton.mp (hPath [0] ⟨List.isChain_singleton _, rfl, rfl⟩))

end ArmBackend
