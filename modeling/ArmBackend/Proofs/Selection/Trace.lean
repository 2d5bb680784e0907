import ArmBackend.Proofs.Selection.Nodes

/-!
# The walk of selection

Selection walks a schedule from its end to its start. An `Entry` records what happened at one place:
the node there was skipped, covered, or it is the end of a block. A `Trace` lists the entries of a
walk, the latest first, which is the order of the code. What the walk has marked and computed at any
time can be read off the entries walked so far.

## Results

* `Entry.Valid.used`, `Entry.Valid.defined`, `Entry.Valid.writes`, `Entry.Valid.reads` — what one
  entry adds.
* `Trace.used`, `Trace.defined` — what a walk has marked and computed, by its entries.
* `coverAll_ensures` — a walk that succeeds has a trace through every place of the schedule.
-/

namespace ArmBackend.Selection

/-- What happened at one place of a schedule: the place, what was done there, the code, and the
states in front of it and behind it. The index of the end of a block is the number of its nodes. -/
structure Entry where
  block : Nat
  index : Nat
  node : NodeId
  step : Step := {}
  code : List Instr := []
  phis : List Stream.Phi := []
  before : State
  after : State

/-- A site at another place. -/
def Site.at (site : Site) (block : Nat) (node : NodeId) : Site :=
  { site with block, node }

namespace Entry

variable {site : Site} {e : Entry}

/-- Whether the node was visited: it needs code and has none yet. -/
structure Visited (site : Site) (e : Entry) : Prop where
  lists : site.schedule.Lists e.block e.index e.node
  needed : (∃ op, site.graph.HasOp e.node op ∧ op.isPure = false) ∨ e.node ∈ e.before.used
  fresh : e.node ∉ e.before.defined

/-- What may have happened at a place. -/
inductive Valid (site : Site) (e : Entry) : Prop
  | skip (hLists : site.schedule.Lists e.block e.index e.node) (hAfter : e.after = e.before)
      (hSound : e.before.Sound) (hStep : e.step = {}) (hCode : e.code = []) (hPhis : e.phis = [])
      (hIdle : (∃ op, site.graph.HasOp e.node op ∧ op.isPure = true ∧ e.node ∉ e.before.used) ∨
        e.node ∈ e.before.defined)
  | node (hVisited : e.Visited site) (hPhi : ¬site.graph.HasOp e.node .phi)
      (hCovers : CoversNode (site.at e.block e.node) e.node e.step e.before e.after)
      (hCode : e.code = e.after.segment) (hPhis : e.phis = [])
  | phi (hVisited : e.Visited site) (hOp : site.graph.HasOp e.node .phi) (phi : Stream.Phi)
      (hCovers : CoversPhi site.graph e.node phi e.before e.after)
      (hStep : e.step = { own := [e.node] }) (hCode : e.code = []) (hPhis : e.phis = [phi])
  | finish (block : Block) (hBlock : site.schedule.blocks[e.block]? = some block)
      (hIndex : e.index = block.nodes.length) (hNode : e.node = block.control.getD (-1))
      (hCovers : CoversEnd (site.at e.block e.node) block e.step e.before e.after)
      (hCode : e.code = e.after.segment) (hPhis : e.phis = [])

/-- Whether the end of a block is at the place. -/
def Finishes (site : Site) (e : Entry) : Prop :=
  ∃ block, site.schedule.blocks[e.block]? = some block ∧ e.index = block.nodes.length ∧
    e.node = block.control.getD (-1)

/-- Whether the place is not skipped. -/
def Active (site : Site) (e : Entry) : Prop :=
  e.Visited site ∨ e.Finishes site

/-- Whether the place may have instructions: it is not skipped, and has no join. -/
def Emits (site : Site) (e : Entry) : Prop :=
  (e.Visited site ∧ ¬site.graph.HasOp e.node .phi) ∨ e.Finishes site

/-- Whether the code of an entry may read inputs of a node. A join takes its own inputs only. -/
def Looks (site : Site) (e : Entry) (w : NodeId) : Prop :=
  (e.Visited site ∧ site.graph.HasOp e.node .phi ∧ w = e.node) ∨
    (e.Emits site ∧ Visible (site.at e.block e.node) e.node e.step.taken e.step.fused w)

/-- Whether the code of an entry may read the value of a node. -/
def Sees (site : Site) (e : Entry) (u : NodeId) : Prop :=
  ∃ w, e.Looks site w ∧ site.graph.Feeds w u

/-- The registers that are written at a place. -/
def writes (e : Entry) : List Int :=
  e.phis.map Stream.Phi.out ++ e.code.flatMap Instr.writes

/-! ## What one entry adds -/

/-- A place is skipped, has a join, or is covered by a step that computes nothing twice. -/
theorem Valid.kinds (h : e.Valid site) :
    (e.after = e.before ∧ e.before.Sound ∧ e.step = {} ∧ e.code = [] ∧ e.phis = []) ∨
      (∃ phi, (e.Visited site ∧ site.graph.HasOp e.node .phi) ∧
        CoversPhi site.graph e.node phi e.before e.after ∧ e.step = { own := [e.node] } ∧
        e.code = [] ∧ e.phis = [phi]) ∨
      (e.Emits site ∧ e.step.Describes (site.at e.block e.node) e.node e.before e.after ∧
        e.step.defs.Nodup ∧ e.code = e.after.segment ∧ e.phis = []) := by
  cases h with
  | skip _ hAfter hSound hStep hCode hPhis => exact .inl ⟨hAfter, hSound, hStep, hCode, hPhis⟩
  | node hVisited hPhi hCovers hCode hPhis =>
    exact .inr (.inr ⟨.inl ⟨hVisited, hPhi⟩, hCovers.describes, hCovers.nodup_defs, hCode, hPhis⟩)
  | phi hVisited hOp phi hCovers hStep hCode hPhis =>
    exact .inr (.inl ⟨phi, ⟨hVisited, hOp⟩, hCovers, hStep, hCode, hPhis⟩)
  | finish block hBlock hIndex hNode hCovers hCode hPhis =>
    have hDescribes := hCovers.describes
    rw [← hNode] at hDescribes
    exact .inr (.inr ⟨.inr ⟨block, hBlock, hIndex, hNode⟩, hDescribes, hCovers.nodup_defs, hCode,
      hPhis⟩)

theorem Valid.grows (h : e.Valid site) : Grows e.before e.after := by
  rcases h.kinds with ⟨hAfter, -⟩ | ⟨phi, -, hCovers, -⟩ | ⟨-, hDescribes, -⟩
  · rw [hAfter]
    exact .refl _
  · exact hCovers.grows
  · obtain ⟨a, hProgress, -⟩ := hDescribes.covers
    exact hProgress.grows

theorem Valid.sound (h : e.Valid site) : e.after.Sound := by
  rcases h.kinds with ⟨hAfter, hSound, -⟩ | ⟨phi, -, hCovers, -⟩ | ⟨-, hDescribes, -⟩
  · rw [hAfter]
    exact hSound
  · exact hCovers.sound
  · obtain ⟨a, hProgress, -⟩ := hDescribes.covers
    exact hProgress.sound

theorem Valid.used_mono (h : e.Valid site) {u : NodeId} (hu : u ∈ e.before.used) :
    u ∈ e.after.used := by
  rcases h.kinds with ⟨hAfter, -⟩ | ⟨phi, -, hCovers, -⟩ | ⟨-, hDescribes, -⟩
  · rw [hAfter]
    exact hu
  · exact hCovers.used.mpr (.inl hu)
  · obtain ⟨a, hProgress, -⟩ := hDescribes.covers
    exact hProgress.used_mono hu

/-- Only what the instruction may read is marked. -/
theorem Valid.used (h : e.Valid site) {u : NodeId} (hu : u ∈ e.after.used) :
    u ∈ e.before.used ∨ e.Sees site u := by
  rcases h.kinds with ⟨hAfter, -⟩ | ⟨phi, ⟨hVisited, hOp⟩, hCovers, -⟩ | ⟨hEmits, hDescribes, -⟩
  · rw [hAfter] at hu
    exact .inl hu
  · rcases hCovers.used.mp hu with hOld | hNew
    · exact .inl hOld
    · exact .inr ⟨e.node, .inl ⟨hVisited, hOp, rfl⟩, hNew⟩
  · obtain ⟨a, hProgress, -⟩ := hDescribes.covers
    rcases hProgress.used hu with hOld | ⟨w, hw, hNew⟩
    · exact .inl hOld
    · exact .inr ⟨w, .inr ⟨hEmits, hw⟩, hNew⟩

/-- Exactly what is computed is marked as defined. -/
theorem Valid.defined (h : e.Valid site) {u : NodeId} :
    u ∈ e.after.defined ↔ u ∈ e.before.defined ∨ u ∈ e.step.defs := by
  rcases h.kinds with ⟨hAfter, -, hStep, -⟩ | ⟨phi, -, hCovers, hStep, -⟩ | ⟨-, hDescribes, -⟩
  · rw [hAfter, hStep]
    simp [Step.defs]
  · rw [hCovers.defined, hStep]
    simp [Step.defs]
  · obtain ⟨a, hProgress, -, hDefs⟩ := hDescribes.covers
    rw [hProgress.defined, hDefs]

/-- What is read holds the value of a node that is used, or was written just before. -/
theorem Valid.reads (h : e.Valid site) {front rest : List Instr} {i : Instr}
    (hSplit : e.code = front ++ i :: rest) {r : Int} (hr : r ∈ i.reads) :
    (e.Emits site ∧ ∃ (v : Nat) (w u : NodeId), r = v ∧
      Visible (site.at e.block e.node) e.node e.step.taken e.step.fused w ∧
      site.graph.Feeds w u ∧ u ∈ e.after.used ∧ Holds site.graph e.after u v) ∨
    r ∈ front.flatMap Instr.writes := by
  rcases h.kinds with ⟨-, -, -, hCode, -⟩ | ⟨phi, -, -, -, hCode, -⟩ |
    ⟨hEmits, hDescribes, -, hCode, -⟩
  · rw [hCode] at hSplit
    simp at hSplit
  · rw [hCode] at hSplit
    simp at hSplit
  · rw [hCode] at hSplit
    exact (hDescribes.covers.reads hSplit hr).imp (And.intro hEmits) id

/-- What is written belongs to a node that is computed, or is a temporary. -/
theorem Valid.writes (h : e.Valid site) {r : Int} (hr : r ∈ e.writes) :
    (∃ x ∈ e.step.defs, ∃ v : Nat, r = v ∧ (x, v) ∈ e.after.vregs) ∨
      ∃ v : Nat, r = v ∧ e.before.stream.nextVreg ≤ v ∧ Fresh e.after v := by
  unfold Entry.writes at hr
  rcases h.kinds with ⟨-, -, -, hCode, hPhis⟩ | ⟨phi, -, hCovers, hStep, hCode, hPhis⟩ |
    ⟨-, hDescribes, -, hCode, hPhis⟩
  · rw [hCode, hPhis] at hr
    simp at hr
  · rw [hCode, hPhis] at hr
    obtain ⟨v, hv, hOwn⟩ := hCovers.out
    refine .inl ⟨e.node, by rw [hStep]; exact List.mem_singleton_self _, v, ?_, hOwn⟩
    rw [← hv]
    simpa using hr
  · rw [hPhis, hCode] at hr
    exact hDescribes.covers.writes hr

/-- The value of each node that is computed is written. -/
theorem Valid.mem_writes (h : e.Valid site) {x : NodeId} (hx : x ∈ e.step.defs) :
    ∃ v : Nat, (x, v) ∈ e.after.vregs ∧ (v : Int) ∈ e.writes := by
  unfold Entry.writes
  rcases h.kinds with ⟨-, -, hStep, -⟩ | ⟨phi, -, hCovers, hStep, hCode, hPhis⟩ |
    ⟨-, hDescribes, -, hCode, hPhis⟩
  · rw [hStep] at hx
    cases hx
  · rw [hStep] at hx
    cases List.mem_singleton.mp hx
    obtain ⟨v, hv, hOwn⟩ := hCovers.out
    refine ⟨v, hOwn, ?_⟩
    rw [hPhis, hCode, ← hv]
    simp
  · rw [hPhis, hCode]
    exact hDescribes.covers.mem_writes hx

theorem Valid.nodup_writes (h : e.Valid site) : e.writes.Nodup := by
  unfold Entry.writes
  rcases h.kinds with ⟨-, -, -, hCode, hPhis⟩ | ⟨phi, -, -, -, hCode, hPhis⟩ |
    ⟨-, hDescribes, hNodup, hCode, hPhis⟩
  · rw [hPhis, hCode]
    exact List.nodup_nil
  · rw [hPhis, hCode]
    exact List.pairwise_singleton _ _
  · rw [hPhis, hCode]
    exact hDescribes.covers.nodup_writes hNodup

end Entry

/-! ## Traces -/

/-- The entries of a walk, the latest first, and the state it has come to. -/
inductive Trace (site : Site) : List Entry → State → Prop
  | nil {s : State} (hSound : s.Sound) (hParams : ParamsGiven s) (hUsed : s.used = [])
      (hDefined : s.defined = []) (hCode : s.stream.code = []) (hBlocks : s.stream.blocks = []) :
      Trace site [] s
  | cons {e : Entry} {E : List Entry} {s : State} (hTrace : Trace site E s)
      (hValid : e.Valid site) (hUsed : e.before.used = s.used)
      (hDefined : e.before.defined = s.defined) (hGrows : Grows s e.before) :
      Trace site (e :: E) e.after

namespace Trace

variable {site : Site} {E : List Entry} {s : State} {e : Entry} {u : NodeId}

theorem sound (h : Trace site E s) : s.Sound := by
  cases h with
  | nil hSound => exact hSound
  | cons _ hValid => exact hValid.sound

theorem params (h : Trace site E s) : ParamsGiven s := by
  induction h with
  | nil _ hParams => exact hParams
  | cons _ hValid _ _ hGrows ih =>
    intro id o ho
    have hStep := hGrows.trans hValid.grows
    rw [hStep.params] at ho
    obtain ⟨v, hv, hOwn⟩ := ih id o ho
    exact ⟨v, hv, hStep.vreg_mono hOwn⟩

/-- During a walk no code is laid out. -/
theorem layout (h : Trace site E s) : s.stream.code = [] ∧ s.stream.blocks = [] := by
  induction h with
  | nil _ _ _ _ hCode hBlocks => exact ⟨hCode, hBlocks⟩
  | cons _ hValid _ _ hGrows ih =>
    have hLayout := (hGrows.trans hValid.grows).layout
    rw [hLayout.1, hLayout.2]
    exact ih

theorem valid (h : Trace site E s) (he : e ∈ E) : e.Valid site := by
  induction h with
  | nil => cases he
  | cons _ hValid _ _ _ ih =>
    rcases List.mem_cons.mp he with rfl | hRest
    · exact hValid
    · exact ih hRest

/-- A walk only adds to the tables and marks of an earlier place. -/
theorem grows (h : Trace site E s) (he : e ∈ E) : Grows e.after s := by
  induction h with
  | nil => cases he
  | cons _ hValid _ _ hGrows ih =>
    rcases List.mem_cons.mp he with rfl | hRest
    · exact .refl _
    · exact ((ih hRest).trans hGrows).trans hValid.grows

theorem used_mono (h : Trace site E s) (he : e ∈ E) (hu : u ∈ e.after.used) : u ∈ s.used := by
  induction h with
  | nil => cases he
  | cons _ hValid hUsed _ _ ih =>
    rcases List.mem_cons.mp he with rfl | hRest
    · exact hu
    · refine hValid.used_mono ?_
      rw [hUsed]
      exact ih hRest

/-- What is marked can be read by an instruction that was covered. -/
theorem used (h : Trace site E s) (hu : u ∈ s.used) : ∃ e ∈ E, e.Sees site u := by
  induction h with
  | nil _ _ hUsed =>
    rw [hUsed] at hu
    cases hu
  | cons _ hValid hUsed _ _ ih =>
    rcases hValid.used hu with hOld | hNew
    · rw [hUsed] at hOld
      obtain ⟨e, he, hSees⟩ := ih hOld
      exact ⟨e, List.mem_cons_of_mem _ he, hSees⟩
    · exact ⟨_, List.mem_cons_self, hNew⟩

/-- What is marked as defined was computed. -/
theorem defined (h : Trace site E s) : u ∈ s.defined ↔ ∃ e ∈ E, u ∈ e.step.defs := by
  induction h with
  | nil _ _ _ hDefined =>
    rw [hDefined]
    simp
  | cons _ hValid _ hDefined _ ih =>
    rw [hValid.defined, hDefined, ih]
    simp only [List.mem_cons, exists_eq_or_imp]
    exact or_comm

/-- The walk up to one of its entries. -/
theorem upTo (h : Trace site E s) (he : e ∈ E) :
    ∃ A B t, E = A ++ e :: B ∧ Trace site B t ∧ e.before.used = t.used ∧
      e.before.defined = t.defined ∧ Grows t e.before := by
  induction h with
  | nil => cases he
  | @cons e' E s hTrace hValid hUsed hDefined hGrows ih =>
    rcases List.mem_cons.mp he with rfl | hRest
    · exact ⟨[], E, s, rfl, hTrace, hUsed, hDefined, hGrows⟩
    · obtain ⟨A, B, t, rfl, hUpTo⟩ := ih hRest
      exact ⟨e' :: A, B, t, rfl, hUpTo⟩

end Trace

/-! ## Places -/

/-- The code of one block. -/
def codeOf (b : Nat) (E : List Entry) : List Instr :=
  (E.filter (·.block = b)).flatMap Entry.code

/-- The joins of one block. -/
def phisOf (b : Nat) (E : List Entry) : List Stream.Phi :=
  (E.filter (·.block = b)).flatMap Entry.phis

/-- Whether a walk has come to place `i` of block `b`: its entries are in the order of the code, and
there is one for each place from there on. -/
structure Walked (schedule : Schedule) (E : List Entry) (b i : Nat) : Prop where
  sorted : E.Pairwise fun e e' => Precedes e.block e.index e'.block e'.index
  above : ∀ e ∈ E, ¬Precedes e.block e.index b i
  all : ∀ {b' i'} {block : Block}, schedule.blocks[b']? = some block →
    i' ≤ block.nodes.length → ¬Precedes b' i' b i → ∃ e ∈ E, e.block = b' ∧ e.index = i'

section Places

variable {schedule : Schedule} {E : List Entry} {b i : Nat} {e : Entry}

theorem codeOf_cons_same (he : e.block = b) : codeOf b (e :: E) = e.code ++ codeOf b E := by
  simp [codeOf, he]

theorem phisOf_cons_same (he : e.block = b) : phisOf b (e :: E) = e.phis ++ phisOf b E := by
  simp [phisOf, he]

theorem codeOf_append_other {A : List Entry} (hA : ∀ e ∈ A, e.block ≠ b) :
    codeOf b (A ++ E) = codeOf b E := by
  have hNone : A.filter (·.block = b) = [] := by
    rw [List.filter_eq_nil_iff]
    intro e he
    simpa using hA e he
  rw [codeOf, List.filter_append, hNone, List.nil_append, codeOf]

theorem phisOf_append_other {A : List Entry} (hA : ∀ e ∈ A, e.block ≠ b) :
    phisOf b (A ++ E) = phisOf b E := by
  have hNone : A.filter (·.block = b) = [] := by
    rw [List.filter_eq_nil_iff]
    intro e he
    simpa using hA e he
  rw [phisOf, List.filter_append, hNone, List.nil_append, phisOf]

/-- One more place is walked. -/
theorem Walked.cons (h : Walked schedule E b (i + 1)) (hBlock : e.block = b) (hIndex : e.index = i) :
    Walked schedule (e :: E) b i := by
  refine ⟨List.pairwise_cons.mpr ⟨?_, h.sorted⟩, ?_, ?_⟩
  · intro e' he'
    have hAbove := h.above e' he'
    unfold Precedes at *
    omega
  · intro e' he'
    rcases List.mem_cons.mp he' with rfl | hRest
    · unfold Precedes
      omega
    · have hAbove := h.above e' hRest
      unfold Precedes at *
      omega
  · -- whatever comes after this place is the new entry or lies behind it
    intro b' i' block hb hi hNot
    by_cases hHere : b' = b ∧ i' = i
    · exact ⟨e, List.mem_cons_self, by omega⟩
    · obtain ⟨e', he', hPlace⟩ := h.all hb hi (by unfold Precedes at *; omega)
      exact ⟨e', List.mem_cons_of_mem _ he', hPlace⟩

/-- Behind the last place of a block the next block starts. -/
theorem Walked.next {block : Block} (h : Walked schedule E (b + 1) 0)
    (hb : schedule.blocks[b]? = some block) : Walked schedule E b (block.nodes.length + 1) := by
  refine ⟨h.sorted, ?_, ?_⟩
  · intro e he
    have hAbove := h.above e he
    unfold Precedes at *
    omega
  · intro b' i' block' hb' hi hNot
    refine h.all hb' hi ?_
    unfold Precedes at *
    by_cases hHere : b' = b
    · rw [hHere, hb] at hb'
      cases hb'
      omega
    · omega

end Places

namespace Trace

variable {site : Site} {E : List Entry} {s : State} {e e' : Entry} {b i : Nat} {u x : NodeId}

/-- Every place has an entry for the node that stands there. -/
theorem entry (h : Trace site E s) (hWalked : Walked site.schedule E 0 0)
    (hu : site.schedule.At b i u) : ∃ e ∈ E, e.block = b ∧ e.index = i ∧ e.node = u := by
  obtain ⟨block, hBlock, hGet⟩ := hu
  have hLength : i < block.nodes.length + block.control.toList.length := by
    rw [← List.length_append]
    exact (List.getElem?_eq_some_iff.mp hGet).1
  have hControl : block.control.toList.length ≤ 1 := by
    cases block.control <;> simp
  have hIndex : i ≤ block.nodes.length := by omega
  obtain ⟨e, he, rfl, rfl⟩ := hWalked.all hBlock hIndex (by unfold Precedes; omega)
  refine ⟨e, he, rfl, rfl, ?_⟩
  -- whichever rule wrote the entry, it names the node listed at its place
  have hLists : site.schedule.Lists e.block e.index e.node → e.node = u := by
    intro h
    obtain ⟨block', hBlock', hNode⟩ := h.at
    rw [hBlock] at hBlock'
    cases hBlock'
    exact Option.some.inj (hNode.symm.trans hGet)
  cases h.valid he with
  | skip hHere => exact hLists hHere
  | node hVisited => exact hLists hVisited.lists
  | phi hVisited => exact hLists hVisited.lists
  | finish block' hBlock' hIndex hNode =>
    rw [hBlock] at hBlock'
    cases hBlock'
    -- the block's last place is its control
    rw [hNode]
    rw [Block.listed, hIndex, List.getElem?_append_right (Nat.le_refl _), Nat.sub_self] at hGet
    cases hEnd : block.control with
    | none =>
      rw [hEnd] at hGet
      cases hGet
    | some id =>
      rw [hEnd] at hGet
      exact Option.some.inj hGet

/-- The places of a walk are in blocks of the schedule. -/
theorem block_lt (h : Trace site E s) : ∀ e ∈ E, e.block < site.schedule.blocks.size := by
  intro e he
  cases h.valid he with
  | skip hLists => exact hLists.at.lt
  | node hVisited => exact hVisited.lists.at.lt
  | phi hVisited => exact hVisited.lists.at.lt
  | finish _ hBlock => exact (Array.getElem?_eq_some_iff.mp hBlock).1

/-- The register of a node that is computed at an entry is written there. -/
theorem writes_of_defs (h : Trace site E s) (he : e ∈ E) (hx : x ∈ e.step.defs) {v : Nat}
    (hv : (x, v) ∈ s.vregs) : (v : Int) ∈ e.writes := by
  obtain ⟨v', hv', hWrites⟩ := (h.valid he).mem_writes hx
  rw [h.sound.vreg_fun hv ((h.grows he).vreg_mono hv')]
  exact hWrites

end Trace

/-! ## The walk -/

variable {site : Site} {s : State} {E : List Entry} {b : Nat} {block : Block}

/-- What is given to every step of selection. -/
structure Given (site : Site) : Prop where
  verify : site.graph.verify = .ok ()
  projected : site.graph.OverflowProjected

theorem Given.at (h : Given site) (b : Nat) (id : NodeId) : Given (site.at b id) :=
  ⟨h.verify, h.projected⟩

/-- The state in front of a place. -/
theorem Trace.segment (h : Trace site E s) : State.Sound { s with segment := [] } ∧
    ParamsGiven { s with segment := [] } :=
  ⟨h.sound.of_tables rfl rfl rfl, h.params⟩

/-- A visited node has an entry. -/
theorem segmentOf_node_ensures (hGiven : Given site) (hTrace : Trace site E s) {i : Nat}
    {id : NodeId} (hLists : site.schedule.Lists b i id)
    (hNeeded : (∃ op, site.graph.HasOp id op ∧ op.isPure = false) ∨ id ∈ s.used)
    (hFresh : id ∉ s.defined) :
    Ensures site s (segmentOf b id (coverNode id)) fun code s' =>
      ∃ e : Entry, e.block = b ∧ e.index = i ∧ e.code = code ∧ e.after = s' ∧
        e.phis ++ s.phis = s'.phis ∧ Trace site (e :: E) s' := by
  obtain ⟨hSound, hParams⟩ := hTrace.segment
  have hGrows : Grows s { s with segment := [] } := .of_tables rfl rfl rfl rfl ⟨rfl, rfl⟩
  unfold segmentOf
  simp only [ensures_bind, ensures_modify, ensures_get, ensures_pure, ensures_withReader]
  -- a phi writes no code: it is noted in the block's list instead
  by_cases hPhi : site.graph.HasOp id .phi
  · have hEnsures : Ensures (site.at b id) _ (coverNode id) _ := coverNode_phi_ensures hSound hPhi
    refine hEnsures.mono ?_
    rintro _ s' ⟨phi, hCovers⟩
    refine ⟨{ block := b, index := i, node := id, step := { own := [id] }, phis := [phi],
              before := { s with segment := [] }, after := s' },
      rfl, rfl, hCovers.segment.symm, rfl, hCovers.phis.symm, ?_⟩
    exact .cons hTrace (.phi ⟨hLists, hNeeded, hFresh⟩ hPhi phi hCovers rfl rfl rfl) rfl rfl hGrows
  · have hHere := hGiven.at b id
    refine (coverNode_ensures hHere.verify hHere.projected hSound rfl hParams hPhi).mono ?_
    rintro _ s' ⟨t, hCovers⟩
    obtain ⟨a, hProgress, -⟩ := hCovers.describes.covers
    refine ⟨{ block := b, index := i, node := id, step := t, code := s'.segment,
              before := { s with segment := [] }, after := s' },
      rfl, rfl, rfl, rfl, hProgress.phis.symm, ?_⟩
    exact .cons hTrace (.node ⟨hLists, hNeeded, hFresh⟩ hPhi hCovers rfl rfl) rfl rfl hGrows

/-- The end of a block has an entry. -/
theorem segmentOf_end_ensures (hGiven : Given site) (hTrace : Trace site E s)
    (hBlock : site.schedule.blocks[b]? = some block) :
    Ensures site { s with phis := [] }
      (segmentOf b (block.control.getD (-1)) (coverControl b block)) fun code s' =>
      ∃ e : Entry, e.block = b ∧ e.index = block.nodes.length ∧ e.code = code ∧ e.phis = s'.phis ∧
        Trace site (e :: E) s' := by
  have hSound : State.Sound { s with segment := [], phis := [] } :=
    hTrace.sound.of_tables rfl rfl rfl
  have hGrows : Grows s { s with segment := [], phis := [] } := .of_tables rfl rfl rfl rfl ⟨rfl, rfl⟩
  unfold segmentOf
  simp only [ensures_bind, ensures_modify, ensures_get, ensures_pure, ensures_withReader]
  -- the end of the block is covered at its own node, in a segment of its own
  have hHere := hGiven.at b (block.control.getD (-1))
  refine (coverControl_ensures hHere.verify hHere.projected hSound rfl b block).mono ?_
  rintro _ s' ⟨t, hCovers⟩
  obtain ⟨a, hProgress, -⟩ := hCovers.describes.covers
  refine ⟨{ block := b, index := block.nodes.length, node := block.control.getD (-1), step := t,
            code := s'.segment, before := { s with segment := [], phis := [] }, after := s' },
    rfl, rfl, rfl, hProgress.phis.symm, ?_⟩
  exact .cons hTrace (.finish block hBlock rfl rfl hCovers rfl rfl) rfl rfl hGrows

/-- Where the walk over the nodes of a block stands: those in `rest` are left, from the last to the
first, and the others have their entries in `A`, in front of what was covered before them. -/
structure Passing (site : Site) (E : List Entry) (b : Nat) (block : Block) (A : List Entry)
    (rest : List NodeId) (code : List Instr) (t : State) : Prop where
  nodes : ∃ passed, block.nodes = rest.reverse ++ passed
  here : ∀ e ∈ A, e.block = b
  trace : Trace site (A ++ E) t
  walked : Walked site.schedule (A ++ E) b rest.length
  code : code = codeOf b (A ++ E)
  phis : t.phis = phisOf b (A ++ E)

section Passing

variable {A : List Entry} {x : NodeId} {rest : List NodeId} {code : List Instr} {t t' : State}

/-- The next node stands in front of those that were passed. -/
theorem Passing.lists (h : Passing site E b block A (x :: rest) code t)
    (hBlock : site.schedule.blocks[b]? = some block) : site.schedule.Lists b rest.length x := by
  obtain ⟨passed, hSplit⟩ := h.nodes
  refine ⟨block, hBlock, ?_⟩
  rw [hSplit]
  simp

/-- The walk goes on when the next node has its entry. -/
theorem Passing.next {e : Entry} (h : Passing site E b block A (x :: rest) code t)
    (hBlock : e.block = b) (hIndex : e.index = rest.length) (hTrace : Trace site (e :: (A ++ E)) t')
    (hPhis : e.phis ++ t.phis = t'.phis) :
    Passing site E b block (e :: A) rest (e.code ++ code) t' where
  nodes := by
    obtain ⟨passed, hSplit⟩ := h.nodes
    exact ⟨x :: passed, by simpa using hSplit⟩
  here := by
    intro e' he'
    rcases List.mem_cons.mp he' with rfl | hOld
    · exact hBlock
    · exact h.here e' hOld
  trace := hTrace
  walked := h.walked.cons hBlock hIndex
  code := by rw [List.cons_append, codeOf_cons_same hBlock, h.code]
  phis := by rw [List.cons_append, phisOf_cons_same hBlock, ← h.phis, hPhis]

end Passing

/-- Covering the nodes of a block walks from behind its last node to its start. -/
theorem coverNodes_ensures (hGiven : Given site) (hBlock : site.schedule.blocks[b]? = some block)
    (hTrace : Trace site E s) (hWalked : Walked site.schedule E b block.nodes.length)
    (hPhis : s.phis = phisOf b E) :
    Ensures site s (coverNodes b block.nodes.reverse (codeOf b E)) fun code s' =>
      ∃ A, (∀ e ∈ A, e.block = b) ∧ Trace site (A ++ E) s' ∧
        Walked site.schedule (A ++ E) b 0 ∧ code = codeOf b (A ++ E) ∧
        s'.phis = phisOf b (A ++ E) := by
  have hStart : Passing site E b block [] block.nodes.reverse (codeOf b E) s :=
    ⟨⟨[], by simp⟩, by simp, hTrace, by rwa [List.length_reverse], rfl, hPhis⟩
  refine (ensures_coverNodes (I := fun rest code t => ∃ A, Passing site E b block A rest code t)
    ⟨[], hStart⟩ ?_ ?_).mono ?_
  · rintro x rest code t ⟨A, h⟩ hNeeded hFresh
    refine (segmentOf_node_ensures hGiven h.trace (h.lists hBlock) hNeeded hFresh).mono ?_
    rintro _ t' ⟨e, heBlock, heIndex, rfl, -, hePhis, heTrace⟩
    exact ⟨e :: A, h.next heBlock heIndex heTrace hePhis⟩
  · -- a node that is passed over has an entry without code
    rintro x rest code t ⟨A, h⟩ hIdle
    have hEntry : Entry.Valid site
        { block := b, index := rest.length, node := x, before := t, after := t } :=
      .skip (h.lists hBlock) rfl h.trace.sound rfl rfl rfl hIdle
    exact ⟨_, h.next rfl rfl (.cons h.trace hEntry rfl rfl (.refl t)) rfl⟩
  · rintro code s' ⟨A, h⟩
    exact ⟨A, h.here, h.trace, h.walked, h.code, h.phis⟩

/-- Covering a block walks from its end to its start. -/
theorem coverBlock_ensures (hGiven : Given site) (hBlock : site.schedule.blocks[b]? = some block)
    (hTrace : Trace site E s) (hWalked : Walked site.schedule E (b + 1) 0) :
    Ensures site s (coverBlock b block) fun c s' =>
      ∃ A, (∀ e ∈ A, e.block = b) ∧ Trace site (A ++ E) s' ∧ Walked site.schedule (A ++ E) b 0 ∧
        c.id = b ∧ c.code = codeOf b (A ++ E) ∧ c.phis = phisOf b (A ++ E) := by
  have hOther : ∀ e ∈ E, e.block ≠ b := by
    intro e he
    have hAbove := hWalked.above e he
    unfold Precedes at hAbove
    omega
  have hEmpty : E.filter (·.block = b) = [] := by
    rw [List.filter_eq_nil_iff]
    intro e he
    simpa using hOther e he
  unfold coverBlock
  simp only [ensures_bind, ensures_modify, ensures_get, ensures_pure]
  refine (segmentOf_end_ensures hGiven hTrace hBlock).mono ?_
  rintro code s₁ ⟨e, heBlock, heIndex, rfl, hePhis, heTrace⟩
  -- the end is covered first, and nothing of this block was covered before it
  have heCode : codeOf b (e :: E) = e.code := by
    rw [codeOf_cons_same heBlock, codeOf, hEmpty]
    simp
  have hStart : s₁.phis = phisOf b (e :: E) := by
    rw [phisOf_cons_same heBlock, phisOf, hEmpty, ← hePhis]
    simp
  have hNodes := coverNodes_ensures hGiven hBlock heTrace
    ((hWalked.next hBlock).cons heBlock heIndex) hStart
  rw [heCode] at hNodes
  refine hNodes.mono ?_
  rintro code s₂ ⟨A, hA, hTrace', hWalked', rfl, hPhis⟩
  have hAssoc : A ++ e :: E = (A ++ [e]) ++ E := by simp
  rw [hAssoc] at hTrace' hWalked' hPhis ⊢
  refine ⟨A ++ [e], ?_, hTrace', hWalked', trivial, rfl, hPhis⟩
  intro e' he'
  rcases List.mem_append.mp he' with hOld | hLast
  · exact hA e' hOld
  · rw [List.mem_singleton.mp hLast]
    exact heBlock

/-- Whether the covered blocks from number `n` on are those of a walk. -/
def Laid (E : List Entry) (n : Nat) (done : List Covered) : Prop :=
  ∀ k c, done[k]? = some c → c.id = n + k ∧ c.code = codeOf (n + k) E ∧ c.phis = phisOf (n + k) E

/-- Covering another block lays it in front of the others. -/
theorem Laid.cons {n : Nat} {done : List Covered} {c : Covered} {A : List Entry}
    (h : Laid E (n + 1) done) (hA : ∀ e ∈ A, e.block = n) (hId : c.id = n)
    (hCode : c.code = codeOf n (A ++ E)) (hPhis : c.phis = phisOf n (A ++ E)) :
    Laid (A ++ E) n (c :: done) := by
  intro k c' hc'
  cases k with
  | zero =>
    cases hc'
    exact ⟨hId, hCode, hPhis⟩
  | succ k =>
    obtain ⟨hId', hCode', hPhis'⟩ := h k c' hc'
    have hShift : n + (k + 1) = n + 1 + k := by omega
    -- block `n`'s entries change neither the code nor the phis of the blocks after it
    have hOther : ∀ e ∈ A, e.block ≠ n + 1 + k := by
      intro e he
      rw [hA e he]
      omega
    rw [hShift, codeOf_append_other hOther, phisOf_append_other hOther]
    exact ⟨hId', hCode', hPhis'⟩

/-- Covering the blocks walks from the end of the schedule to its start. -/
theorem coverBlocks_ensures (hGiven : Given site) (hTrace : Trace site E s)
    (hWalked : Walked site.schedule E site.schedule.blocks.size 0) :
    Ensures site s (coverBlocks site.schedule.blocks.toList.zipIdx.reverse [])
      fun covered s' => ∃ E', Trace site E' s' ∧ Walked site.schedule E' 0 0 ∧
        Laid E' 0 covered ∧ covered.length = site.schedule.blocks.size := by
  -- the blocks that are left are the first ones, so their number is that of the last one covered
  refine (ensures_coverBlocks (I := fun rest done t =>
    (∃ tail, site.schedule.blocks.toList.zipIdx = rest.reverse ++ tail) ∧
      rest.length + done.length = site.schedule.blocks.size ∧ ∃ E', Trace site E' t ∧
        Walked site.schedule E' rest.length 0 ∧ Laid E' rest.length done)
    ⟨⟨[], by simp⟩, by simp, E, hTrace, by simpa using hWalked, ?_⟩ ?_).mono ?_
  · intro k c hc
    simp at hc
  · rintro block b rest done t ⟨⟨tail, hSplit⟩, hLength, E', hTrace, hWalked, hLaid⟩
    have hAt : site.schedule.blocks.toList.zipIdx[rest.length]? = some (block, b) := by
      rw [hSplit]
      simp
    rw [List.getElem?_zipIdx, Array.getElem?_toList, Nat.zero_add] at hAt
    obtain ⟨block', hBlock, hPair⟩ := Option.map_eq_some_iff.mp hAt
    obtain ⟨rfl, rfl⟩ := Prod.mk.inj hPair
    refine (coverBlock_ensures hGiven hBlock hTrace hWalked).mono ?_
    rintro c s₁ ⟨A, hA, hTrace', hWalked', hId, hCode, hPhis⟩
    refine ⟨⟨_ :: tail, by simpa using hSplit⟩, ?_, A ++ E', hTrace', hWalked',
      hLaid.cons hA hId hCode hPhis⟩
    rw [List.length_cons] at hLength ⊢
    omega
  · rintro covered s' ⟨-, hLength, E', hTrace', hWalked', hLaid⟩
    exact ⟨E', hTrace', hWalked', hLaid, by simpa using hLength⟩

/-! ## Parameters -/

/-- Every parameter gets the register that it comes in in. -/
theorem assignParameters_ensures {l : List (NodeId × Node)} (linkage : Linkage)
    (hOps : ∀ p ∈ l, site.graph.HasOp p.1 .parameter) (hs : s.Sound) (hParams : ParamsGiven s)
    (hUsed : s.used = []) (hDefined : s.defined = []) :
    Ensures site s (assignParameters linkage l) fun _ s' =>
      s'.Sound ∧ ParamsGiven s' ∧ s'.used = [] ∧ s'.defined = [] ∧
        s'.stream.code = s.stream.code ∧ s'.stream.blocks = s.stream.blocks := by
  refine ensures_assignParameters (I := fun t => t.Sound ∧ ParamsGiven t ∧ t.used = [] ∧
    t.defined = [] ∧ t.stream.code = s.stream.code ∧ t.stream.blocks = s.stream.blocks) linkage
    ⟨hs, hParams, hUsed, hDefined, rfl, rfl⟩ ?_
  rintro ⟨id, n⟩ hp t location ⟨ht, hParams, hUsed, hDefined, hCode, hBlocks⟩
  have hOp : site.graph.HasOp id .parameter := hOps _ hp
  refine (vreg_ensures ht).mono ?_
  rintro v t' ⟨hAlloc, hHolds⟩
  have hOwn := hHolds.own (.of_op hOp nofun nofun) hOp rfl
  refine ⟨hAlloc.sound.of_tables rfl rfl rfl, ?_, hAlloc.used.trans hUsed,
    hAlloc.defined.trans hDefined, hAlloc.layout.1.trans hCode, hAlloc.layout.2.trans hBlocks⟩
  -- the parameter just placed has the fresh register, the others keep theirs
  intro x o ho
  rw [List.lookup_cons] at ho
  by_cases hx : x = id
  · subst hx
    simp only [beq_self_eq_true, Option.some.injEq] at ho
    subst ho
    exact ⟨v, rfl, hOwn⟩
  · rw [beq_false_of_ne hx] at ho
    rw [hAlloc.params] at ho
    obtain ⟨w, hw, hMem⟩ := hParams x o ho
    exact ⟨w, hw, hAlloc.vreg_mono hMem⟩

theorem parameters_hasOp {g : Graph} {p : NodeId × Node} (h : p ∈ parameters g) :
    g.HasOp p.1 .parameter := by
  unfold parameters at h
  rw [List.mem_mergeSort, List.mem_filterMap] at h
  obtain ⟨⟨n, id⟩, hMem, hSome⟩ := h
  simp only [Option.ite_none_right_eq_some, Option.some.injEq] at hSome
  obtain ⟨hOp, rfl⟩ := hSome
  exact ⟨n, Graph.mem_zipIdx.mp hMem, hOp⟩

/-- A walk that succeeds has a trace through every place of the schedule. -/
theorem coverAll_ensures (hGiven : Given site) :
    Ensures site {} coverAll fun covered s' => ∃ E, Trace site E s' ∧
      Walked site.schedule E 0 0 ∧ Laid E 0 covered ∧
      covered.length = site.schedule.blocks.size := by
  unfold coverAll
  simp only [ensures_bind, ensures_read]
  refine (assignParameters_ensures {} (fun p => parameters_hasOp) .empty nofun rfl rfl).mono ?_
  rintro _ s ⟨hSound, hParams, hUsed, hDefined, hCode, hBlocks⟩
  -- nothing is covered yet: the walk stands behind the last block
  have hWalked : Walked site.schedule [] site.schedule.blocks.size 0 := by
    refine ⟨.nil, by simp, ?_⟩
    intro b i block hb _ hNot
    have hLt := (Array.getElem?_eq_some_iff.mp hb).1
    unfold Precedes at hNot
    omega
  exact coverBlocks_ensures hGiven (.nil hSound hParams hUsed hDefined hCode hBlocks) hWalked

end ArmBackend.Selection
