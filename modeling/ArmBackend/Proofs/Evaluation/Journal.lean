import ArmBackend.Proofs.Evaluation.EffectChains
import ArmBackend.Proofs.Evaluation.Remembered

/-!
# The order in which nodes work on the heap

The journal of a run lists the nodes that have worked on the heap. Values and effects are asked for
on demand, in turns and from within each other, and an effect counts as run from its start on. Still
each node is in the journal once at most, and behind every node that comes before it in its chain
of effects. Where no node depends on itself, what is asked for while a node is open lies below it,
so nothing relies on an effect that has only been started.

`Sound` is what the journal keeps at any time, `Settled` says that the effects below a rank that
were started have run, and `Goes` what a stretch of a run leaves behind.

## Results

* `Performed.learn` — a node that was open may enter the journal.
* `Orderly.respond`, `answer_orderly` — answering a question keeps the journal sound.
* `run_inOrder` — the accesses of a run come once at most, and in the order of the effects.
-/

namespace ArmBackend

namespace Machine

/-! ## The journal -/

/-- What the journal of a run keeps. The number of objects that there were at the start is
`base`. -/
structure Sound (g : Graph) (base : Nat) (s : State) : Prop where
  once : s.journal.Nodup
  only : ∀ id ∈ s.journal, g.IsAccess id
  performed : ∀ {id}, g.IsAccess id → (id ∈ s.journal ↔ (s.values id).isSome = true)
  ordered : ∀ {before id after}, s.journal = before ++ id :: after →
    g.InputsRan s.reached before id
  allocs : s.heap.allocs ≤ base + s.journal.countP g.mayAllocate

/-- Whether the effects below a rank that were started have run. -/
def Settled (g : Graph) (rank : NodeId → Nat) (t : Nat) (s : State) : Prop :=
  ∀ e, rank e < t → s.effects e = true → g.Ran s.reached s.journal e

/-- Whether the evaluation went on from `s` to `s'` and asked about ranks below `r` only. The
effects that it has started have run. -/
structure Goes (g : Graph) (rank : NodeId → Nat) (r : Nat) (s s' : State) : Prop where
  within : Within rank r s s'
  journal : s.journal <+: s'.journal
  effects : ∀ {e}, s'.effects e = true → s.effects e = true ∨ g.Ran s'.reached s'.journal e

section

variable {g : Graph} {base : Nat} {rank : NodeId → Nat} {r r' t t' : Nat} {s s' s'' u : State}
  {id e : NodeId} {n : Node}

/-- What has run before a stretch has run after it. -/
theorem Goes.ran (h : Goes g rank r s s') (hRan : g.Ran s.reached s.journal e) :
    g.Ran s'.reached s'.journal e :=
  hRan.mono h.within.recalled.reached h.journal.subset

/-- So it is with the effects that a node takes. -/
theorem Goes.inputsRan (h : Goes g rank r s s') (hRan : g.InputsRan s.reached s.journal id) :
    g.InputsRan s'.reached s'.journal id :=
  hRan.mono h.within.recalled.reached h.journal.subset

/-- An empty stretch. -/
theorem Goes.refl (s : State) : Goes g rank r s s :=
  ⟨.refl s, List.prefix_rfl, .inl⟩

/-- Two stretches, one after the other. -/
theorem Goes.trans (h : Goes g rank r s s') (h' : Goes g rank r s' s'') : Goes g rank r s s'' where
  within := h.within.trans h'.within
  journal := h.journal.trans h'.journal
  effects he := by
    rcases h'.effects he with hOld | hRan
    · exact (h.effects hOld).imp_right h'.ran
    · exact .inr hRan

/-- A stretch below a rank is one below a greater rank. -/
theorem Goes.mono (h : Goes g rank r s s') (hr : r ≤ r') : Goes g rank r' s s' :=
  ⟨h.within.mono hr, h.journal, h.effects⟩

/-- What is settled below a rank is settled below a smaller one. -/
theorem Settled.mono (h : Settled g rank t s) (ht : t' ≤ t) : Settled g rank t' s :=
  fun e he => h e (Nat.lt_of_lt_of_le he ht)

/-- A stretch of a run leaves nothing started that has not run. -/
theorem Settled.goes (h : Settled g rank t s) (hGoes : Goes g rank r s s') :
    Settled g rank t s' := by
  intro e he hStarted
  rcases hGoes.effects hStarted with hOld | hRan
  · exact hGoes.ran (h e he hOld)
  · exact hRan

/-- Work on the heap that allocates nothing is not for the journal. -/
theorem Sound.onHeap (hs : Sound g base s) {heap : Heap} (h : heap.allocs = s.heap.allocs) :
    Sound g base { s with heap } :=
  { hs with allocs := h.symm ▸ hs.allocs }

/-- Work on the heap alone asks for nothing. -/
theorem Goes.onHeap (heap : Heap) : Goes g rank r s { s with heap } :=
  ⟨⟨⟨id, id⟩, fun _ => rfl, fun _ => rfl⟩, List.prefix_rfl, .inl⟩

/-! ## Learning -/

/-- The state in which the value of a node is remembered. -/
def State.learnValue (s : State) (id : NodeId) (v : BitVec 64) : State :=
  { s with values := fun x => if x = id then some v else s.values x }

/-- The state in which it is remembered whether a node is reached. -/
def State.learnReached (s : State) (id : NodeId) (b : Bool) : State :=
  { s with reached := fun x => if x = id then some b else s.reached x }

/-- Remembering whether a node is reached, when nothing was remembered. -/
theorem goes_learnReached (g : Graph) (rank : NodeId → Nat) (b : Bool)
    (hNone : s.reached id = none) : Goes g rank (rank id + 1) s (s.learnReached id b) := by
  have hOther : ∀ {x}, x ≠ id → (s.learnReached id b).reached x = s.reached x :=
    fun hx => if_neg hx
  refine ⟨⟨⟨fun {x c} hc => (hOther ?_).trans hc, fun hv => hv⟩, fun {x} hx => hOther ?_,
    fun _ => rfl⟩, List.prefix_rfl, .inl⟩
  · rintro rfl
    cases hNone.symm.trans hc
  · rintro rfl
    omega

/-- Remembering a value, when none was remembered. -/
theorem goes_learnValue (g : Graph) (rank : NodeId → Nat) (v : BitVec 64)
    (hNone : s.values id = none) : Goes g rank (rank id + 1) s (s.learnValue id v) := by
  have hOther : ∀ {x}, x ≠ id → (s.learnValue id v).values x = s.values x :=
    fun hx => if_neg hx
  refine ⟨⟨⟨fun hb => hb, fun {x w} hw => (hOther ?_).trans hw⟩, fun _ => rfl,
    fun {x} hx => hOther ?_⟩, List.prefix_rfl, .inl⟩
  · rintro rfl
    cases hNone.symm.trans hw
  · rintro rfl
    omega

/-- The journal does not depend on what is remembered of control. -/
theorem Sound.learnReached (h : Sound g base s) (b : Bool) (hNone : s.reached id = none) :
    Sound g base (s.learnReached id b) where
  once := h.once
  only := h.only
  performed := h.performed
  ordered hSplit := (h.ordered hSplit).mono
    (goes_learnReached g (fun _ => 0) b hNone).within.recalled.reached fun _ hx => hx
  allocs := h.allocs

/-- What computing a node leaves behind `u`: nothing more, or the node in the journal if it works on
the heap. -/
def Performed (g : Graph) (id : NodeId) (u s' : State) : Prop :=
  (¬g.IsAccess id ∧ s' = u) ∨
    (g.IsAccess id ∧ g.InputsRan u.reached u.journal id ∧ ∃ heap : Heap,
      heap.allocs ≤ u.heap.allocs + (if g.mayAllocate id then 1 else 0) ∧
        s' = { u with heap, journal := u.journal ++ [id] })

/-- A node that was open has not worked on the heap before, so it may enter the journal. -/
theorem Performed.learn (h : Performed g id u s') (hu : Sound g base u) (v : BitVec 64)
    (hNone : u.values id = none) (rank : NodeId → Nat) :
    Sound g base (s'.learnValue id v) ∧ Goes g rank (rank id + 1) u (s'.learnValue id v) := by
  have hLearn := goes_learnValue g rank v hNone
  rcases h with ⟨hOther, rfl⟩ | ⟨hAccess, hInputs, heap, hAllocs, rfl⟩
  · refine ⟨⟨hu.once, hu.only, fun {x} hx => ?_, hu.ordered, hu.allocs⟩, hLearn⟩
    have hNe : x ≠ id := by
      rintro rfl
      exact hOther hx
    show x ∈ s'.journal ↔ (if x = id then some v else s'.values x).isSome = true
    rw [if_neg hNe]
    exact hu.performed hx
  · have hNew : id ∉ u.journal := by
      rw [hu.performed hAccess, hNone]
      exact Bool.false_ne_true
    have hJournal : u.journal <+: u.journal ++ [id] := List.prefix_append _ _
    constructor
    · constructor
      case once => exact List.nodup_append.mpr ⟨hu.once, List.nodup_singleton id, by
        rintro x hx _ hId rfl
        exact hNew (List.mem_singleton.mp hId ▸ hx)⟩
      case only =>
        intro x hx
        rcases List.mem_append.mp hx with hOld | hLast
        · exact hu.only x hOld
        · exact List.mem_singleton.mp hLast ▸ hAccess
      case performed =>
        intro x hx
        show x ∈ u.journal ++ [id] ↔ (if x = id then some v else u.values x).isSome = true
        by_cases hIs : x = id
        · simp [hIs]
        · rw [if_neg hIs, ← hu.performed hx]
          simp [hIs]
      case ordered =>
        intro before x after hSplit
        -- The node that is last has its inputs behind it; for the others nothing has changed.
        rcases List.eq_nil_or_concat after with rfl | ⟨front, y, rfl⟩
        · obtain ⟨rfl, hx⟩ := List.append_inj' hSplit rfl
          obtain rfl := List.head_eq_of_cons_eq hx
          exact hInputs
        · have hFront : u.journal ++ [id] = (before ++ x :: front) ++ [y] := by
            simpa [State.learnValue] using hSplit
          exact hu.ordered (List.append_inj' hFront rfl).1
      case allocs =>
        show heap.allocs ≤ base + (u.journal ++ [id]).countP g.mayAllocate
        have hOld := hu.allocs
        rw [List.countP_append, List.countP_singleton]
        omega
    · obtain ⟨⟨hReached, hValues⟩, hBelowReached, hBelowValues⟩ := hLearn.within
      exact ⟨⟨⟨hReached, hValues⟩, hBelowReached, hBelowValues⟩, hJournal, .inl⟩

end

/-! ## Steps that keep the journal -/

/-- From `s`, the step `x` keeps the journal sound whether it fails or not. When it succeeds it has
gone on below rank `r` and left things as `Q` says. It may rely on what was started below rank
`t`. -/
def Keeps {α : Type} (g : Graph) (base : Nat) (rank : NodeId → Nat) (t r : Nat) (x : Eval α)
    (s : State) (Q : α → State → Prop) : Prop :=
  Sound g base s → Settled g rank t s →
    Ends x s (fun _ s' => Sound g base s') fun a s' =>
      Sound g base s' ∧ Goes g rank r s s' ∧ Q a s'

section

variable {α β : Type} {g : Graph} {base : Nat} {rank : NodeId → Nat} {t r : Nat} {s : State}
  {x : Eval α} {f : α → Eval β} {a : α} {P Q : α → State → Prop} {R : β → State → Prop}

/-- A weaker statement about what is left. -/
theorem Keeps.mono (h : Keeps g base rank t r x s P)
    (hQ : ∀ a s', Goes g rank r s s' → P a s' → Q a s') : Keeps g base rank t r x s Q :=
  fun hs hSettled => (h hs hSettled).mono
    (fun a s' ⟨hs', hGoes, hP⟩ => ⟨hs', hGoes, hQ a s' hGoes hP⟩) fun _ _ hs' => hs'

/-- An answer leaves all as it is. -/
theorem Keeps.pure (h : Q a s) : Keeps g base rank t r (Pure.pure a) s Q :=
  fun hs _ => ⟨hs, .refl s, h⟩

/-- A fault leaves all as it is. -/
theorem Keeps.throw {fault : Fault} :
    Keeps g base rank t r (MonadExcept.throw fault : Eval α) s Q :=
  fun hs _ => hs

/-- A row of steps, each from where the one before has left things. -/
theorem Keeps.bind (hx : Keeps g base rank t r x s P)
    (hf : ∀ a s', Goes g rank r s s' → P a s' → Keeps g base rank t r (f a) s' R) :
    Keeps g base rank t r (x >>= f) s R := by
  intro hs hSettled
  refine (hx hs hSettled).bind ?_
  rintro a s' ⟨hs', hGoes, hP⟩
  refine (hf a s' hGoes hP hs' (hSettled.goes hGoes)).mono ?_ fun _ _ => id
  rintro b s'' ⟨hs'', hGoes', hR⟩
  exact ⟨hs'', hGoes.trans hGoes', hR⟩

/-- A look-up leaves all as it is. -/
theorem Keeps.lift {y : Except Fault α} (h : ∀ a, y = .ok a → Q a s) :
    Keeps g base rank t r (liftM y) s Q := by
  cases y with
  | error fault => exact fun hs _ => hs
  | ok a => exact .pure (h a rfl)

/-- A look-up leaves the state alone. -/
theorem Keeps.look {y : Except Fault α} (hf : ∀ a, y = .ok a → Keeps g base rank t r (f a) s R) :
    Keeps g base rank t r (liftM y >>= f) s R := by
  cases y with
  | error fault => exact fun hs _ => hs
  | ok a => exact hf a rfl

/-- Reading the state leaves all as it is. -/
theorem Keeps.get {f : State → Eval β} (h : Keeps g base rank t r (f s) s R) :
    Keeps g base rank t r (MonadState.get >>= f) s R :=
  h

/-- A check that fails leaves the journal as it is. -/
theorem Keeps.unless {c : Prop} [Decidable c] {fault : Fault} {f : PUnit → Eval β}
    (hf : Keeps g base rank t r (f ⟨⟩) s R) :
    Keeps g base rank t r (if c then MonadExcept.throw fault >>= f else f ⟨⟩) s R :=
  fun hs hSettled => Ends.unless (fun _ => hs) fun _ => hf hs hSettled

/-- A list is gone through, and what was true of its beginning stays true. -/
theorem Keeps.forM {l : List NodeId} {step : NodeId → Eval Unit} {P : NodeId → State → Prop}
    (hP : ∀ {x s s'}, Goes g rank r s s' → P x s → P x s')
    (h : ∀ x ∈ l, ∀ s, Keeps g base rank t r (step x) s fun _ => P x) :
    Keeps g base rank t r (l.forM step) s fun _ s' => ∀ x ∈ l, P x s' := by
  induction l generalizing s with
  | nil => exact .pure nofun
  | cons a rest ih =>
    show Keeps g base rank t r (step a >>= fun _ => rest.forM step) s _
    refine (h a List.mem_cons_self s).bind fun _ s' _ ha => ?_
    refine (ih fun x hx => h x (List.mem_cons_of_mem _ hx)).mono fun _ s'' hGoes hAll => ?_
    -- What the first step has left lasts through the others.
    exact List.forall_mem_cons.mpr ⟨hP hGoes ha, hAll⟩

end

/-- Whether `rank` goes down from every node to what it may ask about: its inputs, and no node. -/
def Descends (g : Graph) (rank : NodeId → Nat) : Prop :=
  ∀ {w n x}, g.node? w = some n → x < 0 ∨ x ∈ n.inputs → rank x < rank w

/-- `ask` keeps the journal sound. A value may be asked for while the effect of its own node is
under way, an effect only once what was started up to its rank has run. -/
structure Orderly (g : Graph) (base : Nat) (rank : NodeId → Nat) (ask : Ask) : Prop where
  reached : ∀ {t r id s}, rank id ≤ t → rank id < r →
    Keeps g base rank t r (ask (.reached id)) s fun b s' => s'.reached id = some b
  value : ∀ {t r id s}, rank id ≤ t → rank id < r →
    Keeps g base rank t r (ask (.value id)) s fun v s' => s'.values id = some v
  effect : ∀ {t r id s}, rank id < t → rank id < r →
    Keeps g base rank t r (ask (.effect id)) s fun _ s' =>
      id < 0 ∨ g.Ran s'.reached s'.journal id

section

variable {env : Env} {base : Nat} {rank : NodeId → Nat} {ask : Ask} {t r : Nat} {s : State}
  {id : NodeId} {n : Node}

/-- An argument is looked up. -/
theorem keeps_argument : Keeps env.graph base rank t r (argument env id n) s fun _ _ => True := by
  refine fun hs _ => argument_ends.mono ?_ ?_
  · rintro _ _ rfl
    exact ⟨hs, .refl _, trivial⟩
  · rintro _ _ ⟨rfl, -⟩
    exact hs

/-- A constant may need an address, which is no access. -/
theorem keeps_constant (kind : ConstantKind) :
    Keeps env.graph base rank t r (constantValue id n kind) s fun _ _ => True := by
  refine fun hs _ => (constant_ends kind).mono ?_ ?_
  · rintro _ _ ⟨heap, rfl, hAllocs⟩
    exact ⟨hs.onHeap hAllocs, .onHeap heap, trivial⟩
  · rintro _ _ ⟨rfl, -⟩
    exact hs

/-- A change of representation allocates one object at most. -/
theorem allocs_changeOn (c : Change) (v : BitVec 64) (h : Heap) :
    (changeOn c v h).1.allocs ≤ h.allocs + 1 := by
  cases c with
  | int32ToTagged | uint32ToTagged =>
    unfold changeOn
    dsimp only
    split
    · exact Nat.le_succ _
    · exact Nat.le_refl _
  | float64ToTagged => exact Nat.le_refl _
  | bitToBool | boolToBit | taggedToInt32 | taggedToUint32 | taggedToFloat64 => exact Nat.le_succ _

namespace Orderly

/-- The first of the listed control nodes that is reached: those in front of it are not. -/
theorem firstReached (hAsk : Orderly env.graph base rank ask) {xs : List NodeId}
    (hxs : ∀ x ∈ xs, rank x ≤ t ∧ rank x < r) {i : Nat} :
    Keeps env.graph base rank t r (Machine.firstReached ask i xs) s fun index s' =>
      ∀ k ∈ index, ∃ j x, k = i + j ∧ xs[j]? = some x ∧ s'.reached x = some true ∧
        ∀ m < j, ∀ y, xs[m]? = some y → s'.reached y = some false := by
  -- Along the arms: each one before the first that is reached is remembered as not reached.
  induction xs generalizing i s with
  | nil => exact .pure nofun
  | cons c rest ih =>
    show Keeps env.graph base rank t r (ask (.reached c) >>= fun b =>
      if b = true then Pure.pure (some i) else Machine.firstReached ask (i + 1) rest) s _
    obtain ⟨hLe, hLt⟩ := hxs c List.mem_cons_self
    refine (hAsk.reached hLe hLt).bind fun b s' _ hc => ?_
    cases b with
    | true =>
      refine .pure fun k hk => ?_
      cases hk
      exact ⟨0, c, rfl, rfl, hc, nofun⟩
    | false =>
      refine (ih (i := i + 1) fun x hx => hxs x (List.mem_cons_of_mem _ hx)).mono ?_
      intro index s'' hGoes hIndex k hk
      obtain ⟨j, x, hj, hx, hTrue, hFalse⟩ := hIndex k hk
      refine ⟨j + 1, x, by omega, hx, hTrue, fun m hm y hy => ?_⟩
      cases m with
      | zero =>
        obtain rfl : c = y := Option.some.inj hy
        exact hGoes.within.recalled.reached hc
      | succ m => exact hFalse m (by omega) y hy

section

variable (hAsk : Orderly env.graph base rank ask) (hRank : Descends env.graph rank)
  (hn : env.graph.node? id = some n)

include hAsk hRank hn

/-- The input of a join that is asked for is the one that is taken. -/
theorem takenValue (hr : rank id ≤ r) :
    Keeps env.graph base rank (rank id) r (Machine.takenValue env ask n) s fun x s' =>
      x ∈ n.inputs ∧ env.graph.Taken s'.reached n x := by
  unfold Machine.takenValue
  refine Keeps.look fun merge hMerge => ?_
  have hLt := hRank hn (Node.mem_of_controlIn hMerge)
  unfold takenInput
  rw [bind_assoc]
  refine Keeps.look fun m hm => ?_
  have hm := Graph.node_eq_ok.mp hm
  rw [bind_assoc]
  refine (hAsk.firstReached fun x hx => ?_).bind fun index s' _ hIndex => ?_
  · have hBelow := hRank hm (.inr hx)
    exact ⟨by omega, by omega⟩
  · cases index with
    | none => exact .throw
    | some k =>
      -- the input taken is the first one reached, counted from zero
      obtain ⟨j, c, hj, hc, hTrue, hFalse⟩ := hIndex k rfl
      obtain rfl : k = j := by omega
      refine Keeps.lift fun x hx => ?_
      exact ⟨Node.mem_inputs hx, merge, m, k, c, hMerge, hm, hc, hTrue, hFalse, hx⟩

/-- The value of an input lies below the node. -/
theorem inputValue (i : Int) : Keeps env.graph base rank (rank id) (rank id)
    (Machine.inputValue ask n i) s fun _ _ => True := by
  unfold Machine.inputValue
  refine Keeps.look fun x hx => ?_
  have hLt := hRank hn (.inr (Node.mem_inputs hx))
  exact (hAsk.value (Nat.le_of_lt hLt) hLt).mono fun _ _ _ _ => trivial

/-- A projection looks past the operation at its inputs. -/
theorem projectionValue : Keeps env.graph base rank (rank id) (rank id)
    (Machine.projectionValue env ask id n) s fun _ _ => True := by
  unfold Machine.projectionValue
  refine Keeps.look fun x hx => Keeps.look fun operation hOperation => ?_
  have hLt := hRank hn (.inr (Node.mem_inputs hx))
  -- the operands of the operation lie two ranks down
  have hOperand : ∀ i s, Keeps env.graph base rank (rank id) (rank id)
      (Machine.inputValue ask operation i) s fun _ _ => True := by
    intro i s
    unfold Machine.inputValue
    refine Keeps.look fun y hy => ?_
    have hBelow := hRank (Graph.node_eq_ok.mp hOperation) (.inr (Node.mem_inputs hy))
    exact (hAsk.value (by omega) (by omega)).mono fun _ _ _ _ => trivial
  split
  · exact (hAsk.value (Nat.le_of_lt hLt) hLt).mono fun _ _ _ _ => trivial
  · refine (hOperand 0 s).bind fun left s' _ _ => (hOperand 1 s').bind fun right s'' _ _ => ?_
    dsimp only
    split
    · exact .pure trivial
    · exact .throw

end

/-- The effects up to a node have run once its effect inputs have been asked for. -/
theorem runEffect (hAsk : Orderly env.graph base rank ask) (hRank : Descends env.graph rank)
    (hVerify : env.graph.verify = .ok ()) :
    Keeps env.graph base rank (rank id) (rank id + 1) (Machine.runEffect env ask id) s
      fun _ s' => env.graph.Ran s'.reached s'.journal id := by
  unfold Machine.runEffect
  refine Keeps.look fun n hNode => ?_
  have hn := Graph.node_eq_ok.mp hNode
  have hRan : ∀ {e journal reached}, e ∈ n.inputs → e < 0 ∨ env.graph.Ran reached journal e →
      env.graph.Ran reached journal e := fun he hEffect =>
    hEffect.resolve_left (Int.not_lt.mpr (Graph.input_of_verify hVerify hn he).1)
  split
  · next hOp => exact .pure (.start hn (by rw [hOp]; rfl))
  · next hOp => exact .pure (.start hn (by rw [hOp]; rfl))
  · next hOp => exact .pure (.start hn (by rw [hOp]; rfl))
  · next hOp =>
    refine (hAsk.takenValue hRank hn (Nat.le_succ _)).bind fun x s' _ ⟨hMem, hTaken⟩ => ?_
    have hLt := hRank hn (.inr hMem)
    refine (hAsk.effect hLt (Nat.lt_succ_of_lt hLt)).mono fun _ s'' hGoes hEffect => ?_
    exact .join hn hOp (hTaken.mono hGoes.within.recalled.reached) (hRan hMem hEffect)
  · next hNoStart hNoValue hNoControl hNoJoin =>
    refine Keeps.look fun l hl => ?_
    have hMem := mem_of_inputsBetween hl
    -- First the effects that come in run, and stay so.
    refine (Keeps.forM (P := fun e s' => e < 0 ∨ env.graph.Ran s'.reached s'.journal e)
      (fun hGoes => Or.imp_right hGoes.ran) fun e he s => ?_).bind fun _ s' _ hAll => ?_
    · have hLt := hRank hn (.inr (hMem e he))
      exact hAsk.effect hLt (Nat.lt_succ_of_lt hLt)
    · have hInputs : ∀ e ∈ l, env.graph.Ran s'.reached s'.journal e :=
        fun e he => hRan (hMem e he) (hAll e he)
      have hValue : n.op.isAccess = true → Keeps env.graph base rank (rank id) (rank id + 1)
          (do let _ ← ask (.value id)) s' fun _ s'' =>
            env.graph.Ran s''.reached s''.journal id := by
        intro hAccess
        refine (hAsk.value (Nat.le_refl _) (Nat.lt_succ_self _)).bind fun v s'' hGoes hv => ?_
        -- Its value is known now, so the journal has it.
        refine fun hs _ => ⟨hs, .refl s'', .through hn hNoJoin hl
          (fun e he => hGoes.ran (hInputs e he)) fun _ => ?_⟩
        exact (hs.performed ⟨n, hn, hAccess⟩).mpr (by rw [hv]; rfl)
      split
      · next hOp => exact hValue (by rw [hOp]; rfl)
      · next hOp => exact hValue (by rw [hOp]; rfl)
      · next hOp => exact hValue (by rw [hOp]; rfl)
      · next hOp => exact hValue (by rw [hOp]; rfl)
      · next hLoad hStore hCall hChange =>
        refine .pure (.through hn hNoJoin hl hInputs fun hAccess => ?_)
        cases hOp : n.op <;> rw [hOp] at hAccess <;> cases hAccess
        · exact absurd hOp hCall
        · exact absurd hOp (hChange _)
        · exact absurd hOp hLoad
        · exact absurd hOp hStore

/-- Whether a control node is reached is decided by nodes below it. -/
theorem decideReached (hAsk : Orderly env.graph base rank ask) (hRank : Descends env.graph rank) :
    Keeps env.graph base rank (rank id) (rank id) (Machine.decideReached env ask id) s
      fun _ _ => True := by
  unfold Machine.decideReached
  refine Keeps.look fun n hNode => ?_
  have hn := Graph.node_eq_ok.mp hNode
  have hReached : ∀ {x s}, rank x < rank id → Keeps env.graph base rank (rank id) (rank id)
      (ask (.reached x)) s fun _ _ => True := fun hLt =>
    (hAsk.reached (Nat.le_of_lt hLt) hLt).mono fun _ _ _ _ => trivial
  -- The arms of a branch are asked for in the same way, but for the sense of the condition.
  have hArm : Keeps env.graph base rank (rank id) (rank id) (do
      let branch ← n.input 0
      if ← ask (.reached (← env.graph.controlIn branch)) then
        let condition ← ask (.value (← env.graph.valueIn branch 0))
        return (condition != 0) == (n.op == .ifTrue)
      return false) s fun _ _ => True := by
    refine Keeps.look fun branch hBranch => Keeps.look fun control hControl => ?_
    have hLt := hRank hn (.inr (Node.mem_inputs hBranch))
    obtain ⟨m, hm, hControl⟩ := controlIn_eq_ok hControl
    have hControlLt := hRank hm (Node.mem_of_controlIn hControl)
    refine (hReached (Nat.lt_trans hControlLt hLt)).bind fun b s' _ _ => ?_
    cases b with
    | false => exact .pure trivial
    | true =>
      refine Keeps.look fun condition hCondition => ?_
      obtain ⟨k, hk, hMem⟩ := hasInput_of_valueIn hCondition
      have hConditionLt := hRank hk (.inr hMem)
      exact (hAsk.value (by omega) (by omega)).bind fun _ _ _ _ => .pure trivial
  split
  · exact .pure trivial
  · refine (hAsk.firstReached fun x hx => ?_).bind fun _ _ _ _ => .pure trivial
    have hLt := hRank hn (.inr hx)
    exact ⟨Nat.le_of_lt hLt, hLt⟩
  · exact hArm
  · exact hArm
  · refine Keeps.look fun control hControl => Keeps.unless ?_
    exact hReached (hRank hn (Node.mem_of_controlIn hControl))

/-! ## Values -/

/-- From `s`, the step `x` computes the value of a node: it asks for what lies below, and works on
the heap last. -/
def Concludes (g : Graph) (base : Nat) (rank : NodeId → Nat) (id : NodeId) (x : Eval (BitVec 64))
    (s : State) : Prop :=
  Sound g base s → Settled g rank (rank id) s →
    Ends x s (fun _ s' => Sound g base s') fun _ s' =>
      ∃ u, Sound g base u ∧ Goes g rank (rank id) s u ∧ Performed g id u s'

section

variable {α : Type} {g : Graph} {x : Eval α} {f : α → Eval (BitVec 64)} {P : α → State → Prop}

/-- A node that does not work on the heap only asks. -/
theorem Concludes.of_keeps {x : Eval (BitVec 64)} (hOther : ¬g.IsAccess id)
    (h : Keeps g base rank (rank id) (rank id) x s fun _ _ => True) :
    Concludes g base rank id x s := by
  intro hs hSettled
  refine (h hs hSettled).mono ?_ fun _ _ hs' => hs'
  rintro _ s' ⟨hs', hGoes, -⟩
  exact ⟨s', hs', hGoes, .inl ⟨hOther, rfl⟩⟩

/-- Asking comes before the node works on the heap. -/
theorem Concludes.bind (hx : Keeps g base rank (rank id) (rank id) x s P)
    (hf : ∀ a s', Goes g rank (rank id) s s' → P a s' → Concludes g base rank id (f a) s') :
    Concludes g base rank id (x >>= f) s := by
  intro hs hSettled
  refine (hx hs hSettled).bind ?_
  rintro a s' ⟨hs', hGoes, hP⟩
  refine (hf a s' hGoes hP hs' (hSettled.goes hGoes)).mono ?_ fun _ _ hs'' => hs''
  rintro _ s'' ⟨u, hu, hGoes', hPerformed⟩
  exact ⟨u, hu, hGoes.trans hGoes', hPerformed⟩

/-- A look-up comes before the node works on the heap. -/
theorem Concludes.look {y : Except Fault α}
    (hf : ∀ a, y = .ok a → Concludes g base rank id (f a) s) :
    Concludes g base rank id (liftM y >>= f) s := by
  cases y with
  | error fault => exact fun hs _ => hs
  | ok a => exact hf a rfl

/-- A check comes before the node works on the heap. -/
theorem Concludes.unless {c : Prop} [Decidable c] {fault : Fault} {f : PUnit → Eval (BitVec 64)}
    (hf : Concludes g base rank id (f ⟨⟩) s) :
    Concludes g base rank id (if c then MonadExcept.throw fault >>= f else f ⟨⟩) s :=
  fun hs hSettled => Ends.unless (fun _ => hs) fun _ => hf hs hSettled

/-- The node works on the heap, once the effects that it takes have run. -/
theorem Concludes.access {act : Heap → Heap × BitVec 64} (hAccess : g.IsAccess id)
    (hRan : g.InputsRan s.reached s.journal id)
    (hAllocs : ∀ h, (act h).1.allocs ≤ h.allocs + if g.mayAllocate id then 1 else 0) :
    Concludes g base rank id (Machine.access id act) s :=
  fun hs _ => ⟨s, hs, .refl s, .inr ⟨hAccess, hRan, (act s.heap).1, hAllocs s.heap, rfl⟩⟩

end

section

variable (hAsk : Orderly env.graph base rank ask) (hRank : Descends env.graph rank)
  (hVerify : env.graph.verify = .ok ()) (hn : env.graph.node? id = some n)

include hAsk hRank hn

/-- Reading an input does not undo the effects that have run. -/
theorem readInput (i : Int) {f : BitVec 64 → Eval (BitVec 64)}
    (hRan : env.graph.InputsRan s.reached s.journal id)
    (hf : ∀ v s', env.graph.InputsRan s'.reached s'.journal id →
      Concludes env.graph base rank id (f v) s') :
    Concludes env.graph base rank id (Machine.inputValue ask n i >>= f) s :=
  .bind (hAsk.inputValue hRank hn i) fun v s' hGoes _ => hf v s' (hGoes.inputsRan hRan)

include hVerify

/-- A node that works on the heap asks for its effect input first. -/
theorem effectFirst (hAccess : n.op.isAccess = true) {f : Unit → Eval (BitVec 64)}
    (hf : ∀ s', env.graph.InputsRan s'.reached s'.journal id →
      Concludes env.graph base rank id (f ()) s') :
    Concludes env.graph base rank id (do let e ← n.effectIn; ask (.effect e) >>= f) s := by
  refine Concludes.look fun e he => ?_
  have hLt := hRank hn (mem_of_effectIn he)
  refine .bind (hAsk.effect hLt hLt) fun _ s' _ hEffect => hf s' ?_
  intro m l hm hl u hu
  obtain rfl := Option.some.inj (hn.symm.trans hm)
  obtain rfl := Except.ok.inj (he.symm.trans (Graph.effectIn_of_access hVerify hn hAccess hl hu))
  have hMem := mem_of_inputsBetween hl e hu
  exact hEffect.resolve_left (Int.not_lt.mpr (Graph.input_of_verify hVerify hn hMem).1)

/-- A load, behind the effects before it. -/
theorem loadValue (hOp : n.op = .load) :
    Concludes env.graph base rank id (Machine.loadValue ask id n) s := by
  have hAccess : n.op.isAccess = true := by rw [hOp]; rfl
  refine hAsk.effectFirst hRank hVerify hn hAccess fun s₁ h₁ => ?_
  refine hAsk.readInput hRank hn 0 h₁ fun _ s₂ h₂ => ?_
  refine hAsk.readInput hRank hn 1 h₂ fun _ s₃ h₃ => ?_
  exact .access ⟨n, hn, hAccess⟩ h₃ fun h => Nat.le_add_right _ _

/-- A store, behind the effects before it. -/
theorem storeValue (hOp : n.op = .store) :
    Concludes env.graph base rank id (Machine.storeValue ask id n) s := by
  have hAccess : n.op.isAccess = true := by rw [hOp]; rfl
  refine hAsk.effectFirst hRank hVerify hn hAccess fun s₁ h₁ => ?_
  refine hAsk.readInput hRank hn 0 h₁ fun _ s₂ h₂ => ?_
  refine hAsk.readInput hRank hn 1 h₂ fun _ s₃ h₃ => ?_
  refine hAsk.readInput hRank hn 2 h₃ fun _ s₄ h₄ => ?_
  exact .access ⟨n, hn, hAccess⟩ h₄ fun h => Nat.le_add_right _ _

/-- A call allocates one object. -/
theorem callValue (hOp : n.op = .call) :
    Concludes env.graph base rank id (Machine.callValue env ask id n) s := by
  have hAccess : n.op.isAccess = true := by rw [hOp]; rfl
  have hAllocates : env.graph.mayAllocate id = true := by
    unfold Graph.mayAllocate
    rw [hn, Option.any_some, hOp]
    rfl
  refine hAsk.effectFirst hRank hVerify hn hAccess fun s₁ h₁ => ?_
  refine Concludes.look fun x _ => Concludes.look fun target _ => Concludes.unless ?_
  refine hAsk.readInput hRank hn 1 h₁ fun size s₂ h₂ => ?_
  exact .access ⟨n, hn, hAccess⟩ h₂ fun h => by rw [hAllocates]; exact Nat.le_refl _

/-- A change allocates one object at most. -/
theorem changeValue {c : Change} (hOp : n.op = .change c) :
    Concludes env.graph base rank id (Machine.changeValue ask id n c) s := by
  have hAccess : n.op.isAccess = true := by rw [hOp]; rfl
  have hAllocates : env.graph.mayAllocate id = true := by
    unfold Graph.mayAllocate
    rw [hn, Option.any_some, hOp]
    rfl
  refine hAsk.effectFirst hRank hVerify hn hAccess fun s₁ h₁ => ?_
  refine hAsk.readInput hRank hn 0 h₁ fun v s₂ h₂ => ?_
  exact .access ⟨n, hn, hAccess⟩ h₂ fun h => by
    rw [hAllocates]
    exact allocs_changeOn c v h

end

/-- The value of a node is computed from what lies below it, and the node works on the heap last. -/
theorem compute (hAsk : Orderly env.graph base rank ask) (hRank : Descends env.graph rank)
    (hVerify : env.graph.verify = .ok ()) :
    Concludes env.graph base rank id (Machine.compute env ask id) s := by
  unfold Machine.compute
  refine Concludes.look fun n hNode => ?_
  have hn := Graph.node_eq_ok.mp hNode
  have hInput := fun (i : Int) (s : State) => hAsk.inputValue hRank hn (s := s) i
  -- The operators that do not work on the heap, and those of two words.
  have hOther : n.op.isAccess = false → ¬env.graph.IsAccess id := by
    rintro hNot ⟨m, hm, hIs⟩
    obtain rfl := Option.some.inj (hn.symm.trans hm)
    rw [hNot] at hIs
    cases hIs
  have hWords : n.op.isAccess = false → ∀ f : BitVec 64 → BitVec 64 → BitVec 64,
      Concludes env.graph base rank id (do
        let x ← Machine.inputValue ask n 0
        let y ← Machine.inputValue ask n 1
        return f x y) s := fun hNot f =>
    .of_keeps (hOther hNot) ((hInput 0 s).bind fun _ s' _ _ =>
      (hInput 1 s').bind fun _ _ _ _ => .pure trivial)
  dsimp only
  -- The operators in the order in which they are told apart.
  split
  · next hOp => exact .of_keeps (hOther (by rw [hOp]; rfl)) keeps_argument
  · next kind hOp => exact .of_keeps (hOther (by rw [hOp]; rfl)) (keeps_constant kind)
  · next hOp =>
    refine .of_keeps (hOther (by rw [hOp]; rfl)) ?_
    refine (hAsk.takenValue hRank hn (Nat.le_refl _)).bind fun x s' _ ⟨hMem, _⟩ => ?_
    have hLt := hRank hn (.inr hMem)
    exact (hAsk.value (Nat.le_of_lt hLt) hLt).mono fun _ _ _ _ => trivial
  · next hOp => exact .of_keeps (hOther (by rw [hOp]; rfl)) (hAsk.projectionValue hRank hn)
  · next hOp =>
    refine .of_keeps (hOther (by rw [hOp]; rfl)) (Keeps.look fun e he => ?_)
    have hLt := hRank hn (.inr (Node.mem_inputs he))
    exact (hAsk.effect hLt hLt).bind fun _ s' _ _ => hInput 0 s'
  · next hOp => exact hAsk.callValue hRank hVerify hn hOp
  · next hOp => exact hAsk.loadValue hRank hVerify hn hOp
  · next hOp => exact hAsk.storeValue hRank hVerify hn hOp
  · next hOp => exact hWords (by rw [hOp]; rfl) _
  · next hOp => exact hWords (by rw [hOp]; rfl) _
  · next hOp => exact hWords (by rw [hOp]; rfl) _
  · next hOp =>
    exact .of_keeps (hOther (by rw [hOp]; rfl)) ((hInput 0 s).bind fun _ _ _ _ => .pure trivial)
  · next hOp => exact hWords (by rw [hOp]; rfl) _
  · next c hOp => exact hAsk.changeValue hRank hVerify hn hOp
  · exact fun hs _ => hs

/-! ## Questions -/

/-- A question about control is answered and remembered. -/
theorem respond_reached (hAsk : Orderly env.graph base rank ask) (hRank : Descends env.graph rank)
    (ht : rank id ≤ t) (hr : rank id < r) :
    Keeps env.graph base rank t r (Machine.respond env ask (.reached id)) s fun b s' =>
      s'.reached id = some b := by
  unfold Machine.respond
  refine Keeps.get ?_
  cases hMemo : s.reached id with
  | some b => exact .pure hMemo
  | none =>
    intro hs hSettled
    refine (hAsk.decideReached hRank hs (hSettled.mono ht)).bind ?_
    rintro b s' ⟨hs', hGoes, -⟩
    -- The question was open all the while, so its answer is the first.
    have hOpen : s'.reached id = none := (hGoes.within.reached (Nat.le_refl _)).trans hMemo
    exact ⟨hs'.learnReached b hOpen,
      (hGoes.mono (Nat.le_of_lt hr)).trans ((goes_learnReached _ rank b hOpen).mono hr),
      if_pos rfl⟩

/-- A question about a value is answered and remembered, the access included. -/
theorem respond_value (hAsk : Orderly env.graph base rank ask) (hRank : Descends env.graph rank)
    (hVerify : env.graph.verify = .ok ()) (ht : rank id ≤ t) (hr : rank id < r) :
    Keeps env.graph base rank t r (Machine.respond env ask (.value id)) s fun v s' =>
      s'.values id = some v := by
  unfold Machine.respond
  refine Keeps.get ?_
  cases hMemo : s.values id with
  | some v => exact .pure hMemo
  | none =>
    intro hs hSettled
    refine (hAsk.compute hRank hVerify hs (hSettled.mono ht)).bind ?_
    rintro v s' ⟨u, hu, hGoes, hPerformed⟩
    have hOpen : u.values id = none := (hGoes.within.values (Nat.le_refl _)).trans hMemo
    obtain ⟨hs', hLearn⟩ := hPerformed.learn hu v hOpen rank
    exact ⟨hs', (hGoes.mono (Nat.le_of_lt hr)).trans (hLearn.mono hr), if_pos rfl⟩

/-- An effect that was asked for has run. -/
theorem respond_effect (hAsk : Orderly env.graph base rank ask) (hRank : Descends env.graph rank)
    (hVerify : env.graph.verify = .ok ()) (ht : rank id < t) (hr : rank id < r) :
    Keeps env.graph base rank t r (Machine.respond env ask (.effect id)) s fun _ s' =>
      id < 0 ∨ env.graph.Ran s'.reached s'.journal id := by
  show Keeps env.graph base rank t r (if (id < 0 || s.effects id) = true then Pure.pure ⟨⟩ else do
    modify fun s => { s with effects := fun x => x = id || s.effects x }
    Machine.runEffect env ask id) s _
  intro hs hSettled
  split
  · next hDone =>
    -- What was started below the rank in question has run.
    refine ⟨hs, .refl s, ?_⟩
    rcases Bool.or_eq_true_iff.mp hDone with hNeg | hStarted
    · exact .inl (of_decide_eq_true hNeg)
    · exact .inr (hSettled id ht hStarted)
  · next hNew =>
    let marked : State := { s with effects := fun x => x = id || s.effects x }
    have hMarked : Sound env.graph base marked :=
      ⟨hs.once, hs.only, hs.performed, hs.ordered, hs.allocs⟩
    have hBelow : Settled env.graph rank (rank id) marked := by
      intro e he hStarted
      rcases Bool.or_eq_true_iff.mp hStarted with hSelf | hOld
      · rw [of_decide_eq_true hSelf] at he
        exact absurd he (Nat.lt_irrefl _)
      · exact hSettled e (Nat.lt_trans he ht) hOld
    show Ends (Machine.runEffect env ask id) marked _ _
    refine (hAsk.runEffect hRank hVerify hMarked hBelow).mono ?_ fun _ _ hs' => hs'
    rintro _ s' ⟨hs', hGoes, hRan⟩
    obtain ⟨⟨hReached, hValues⟩, hBelowReached, hBelowValues⟩ := (hGoes.mono hr).within
    refine ⟨hs', ⟨⟨⟨hReached, hValues⟩, hBelowReached, hBelowValues⟩, hGoes.journal, ?_⟩, .inr hRan⟩
    -- The effect itself has run by now, so nothing is left that was only started.
    intro e he
    rcases hGoes.effects he with hMark | hDone
    · rcases Bool.or_eq_true_iff.mp hMark with hSelf | hOld
      · exact .inr (of_decide_eq_true hSelf ▸ hRan)
      · exact .inl hOld
    · exact .inr hDone

/-- Answering a question keeps the journal sound when the questions that it puts do. -/
theorem respond (hAsk : Orderly env.graph base rank ask) (hRank : Descends env.graph rank)
    (hVerify : env.graph.verify = .ok ()) :
    Orderly env.graph base rank (Machine.respond env ask) where
  reached ht hr := hAsk.respond_reached hRank ht hr
  value ht hr := hAsk.respond_value hRank hVerify ht hr
  effect ht hr := hAsk.respond_effect hRank hVerify ht hr

end Orderly

/-- Questions keep the journal sound, also where the depth does not suffice. -/
theorem answer_orderly (env : Env) (hRank : Descends env.graph rank)
    (hVerify : env.graph.verify = .ok ()) (d : Nat) :
    Orderly env.graph base rank (answer env d) := by
  induction d with
  | zero => exact ⟨fun _ _ => .throw, fun _ _ => .throw, fun _ _ => .throw⟩
  | succ d ih => exact ih.respond hRank hVerify

/-! ## Runs -/

/-- The search for the return that is reached keeps the journal, however it ends. -/
theorem firstReturn_sound (env : Env) (hAsk : Orderly env.graph base rank ask)
    {returns : List NodeId} (hs : Sound env.graph base s)
    (hSettled : ∀ t, Settled env.graph rank t s) :
    Ends (firstReturn env ask returns) s (fun _ s' => Sound env.graph base s') fun _ s' =>
      Sound env.graph base s' := by
  induction returns generalizing s with
  | nil => exact hs
  | cons id rest ih =>
    unfold firstReturn
    cases hNode : env.graph.node id with
    | error fault => exact hs
    | ok n =>
      show Ends (if n.op ≠ .ret then firstReturn env ask rest else do
        if ← ask (.reached id) then
          ask (.effect (← n.effectIn))
          ask (.value (← env.graph.valueIn id 0))
        else firstReturn env ask rest) s _ _
      split
      · exact ih hs hSettled
      · -- Each return is asked for its control first; a fault on the way leaves the journal as it
        -- is.
        refine (hAsk.reached (Nat.le_refl _) (Nat.lt_succ_self _) hs (hSettled _)).bind ?_
        rintro b s' ⟨hs', hGoes, -⟩
        have hSettled' := fun t => (hSettled t).goes hGoes
        cases b with
        | false => exact ih hs' hSettled'
        | true =>
          cases hIn : n.effectIn with
          | error fault => exact hs'
          | ok e =>
            show Ends (ask (.effect e) >>= fun _ => liftM (env.graph.valueIn id 0) >>=
              fun x => ask (.value x)) s' _ _
            -- The effects of the return have run before its value is asked for.
            refine (hAsk.effect (Nat.lt_succ_self _) (Nat.lt_succ_self _) hs' (hSettled' _)).bind ?_
            rintro _ s'' ⟨hs'', hGoes', -⟩
            cases hx : env.graph.valueIn id 0 with
            | error fault => exact hs''
            | ok x =>
              refine (hAsk.value (Nat.le_refl _) (Nat.lt_succ_self _) hs''
                ((hSettled' _).goes hGoes')).mono ?_ fun _ _ hLast => hLast
              exact fun _ _ hLast => hLast.1

end

/-- Where no node depends on itself, ranks go down from every node to its inputs. -/
theorem exists_descends {g : Graph} (hVerify : g.verify = .ok ())
    (hAcyclic : ∀ id, ¬Relation.TransGen g.HasInput id id) : ∃ rank, Descends g rank := by
  -- No node lies below all of them.
  refine ⟨fun id => if id < 0 then 0 else g.rank g.HasInput id + 1, ?_⟩
  intro w n x hn hx
  have hNonneg : ¬w < 0 := Int.not_lt.mpr (Graph.node?_lt hn).1
  dsimp only
  rw [if_neg hNonneg]
  rcases hx with hNeg | hx
  · rw [if_pos hNeg]
    exact Nat.succ_pos _
  · rw [if_neg (Int.not_lt.mpr (Graph.input_of_verify hVerify hn hx).1)]
    exact Nat.succ_lt_succ (Graph.rank_lt hVerify hAcyclic ⟨n, hn, hx⟩ ⟨n, hn, hx⟩)

/-- The state in which a run ends, also one that fails. -/
def lastState (m : Machine) (g : Graph) (arguments : List (BitVec 64)) : State :=
  ((evaluate { graph := g, arguments }).run.run { heap := m.heap }).2

/-- Whether the accesses of a run come in order. -/
structure InOrder (g : Graph) (base : Nat) (s : State) : Prop where
  /-- No node works on the heap twice. -/
  once : s.journal.Nodup
  only : ∀ id ∈ s.journal, g.IsAccess id
  /-- A node has worked on the heap exactly if its value is known. -/
  performed : ∀ {id}, g.IsAccess id → (id ∈ s.journal ↔ (s.values id).isSome = true)
  /-- When a node works on the heap, those behind it along the effects have done so before. -/
  before : ∀ {front id back u}, s.journal = front ++ id :: back →
    Relation.TransGen (g.EffectStep s.reached) id u → g.IsAccess u → u ∈ front
  /-- Every object is allocated by a call or a change, and by each one at most. -/
  allocs : s.heap.allocs ≤ base + s.journal.countP g.mayAllocate

/-- The effect inputs of a node that is in the journal have run before it. -/
theorem Sound.inOrder {g : Graph} {base : Nat} {s : State} (h : Sound g base s) :
    InOrder g base s where
  once := h.once
  only := h.only
  performed := h.performed
  before := by
    intro front id back u hSplit hSteps hAccess
    obtain ⟨n, hn, hIs⟩ := h.only id (by rw [hSplit]; simp)
    obtain ⟨e, hFirst, hRest⟩ := Relation.TransGen.head'_iff.mp hSteps
    cases hFirst with
    | join hn' hOp =>
      obtain rfl := Option.some.inj (hn.symm.trans hn')
      rw [hOp] at hIs
      cases hIs
    | through hn' _ _ hInputs he =>
      exact (h.ordered hSplit _ _ hn' hInputs e he).reaches hRest hAccess
  allocs := h.allocs

/-- In every run each node works on the heap once at most, and after all those that come before it
in its chain of effects. -/
theorem run_inOrder {g : Graph} (hVerify : g.verify = .ok ())
    (hAcyclic : ∀ id, ¬Relation.TransGen g.HasInput id id) (m : Machine)
    (arguments : List (BitVec 64)) :
    (m.run g arguments).2.heap = (m.lastState g arguments).heap ∧
      InOrder g m.heap.allocs (m.lastState g arguments) := by
  obtain ⟨rank, hRank⟩ := exists_descends hVerify hAcyclic
  -- At the start the journal is empty.
  have hFresh : Sound g m.heap.allocs { heap := m.heap } :=
    { once := List.nodup_nil
      only := nofun
      performed := by simp
      ordered := by simp
      allocs := Nat.le_refl _ }
  have hEnds : Ends (evaluate ⟨g, arguments⟩) { heap := m.heap }
      (fun _ s => Sound g m.heap.allocs s) fun _ s => Sound g m.heap.allocs s := by
    unfold evaluate
    cases g.exit with
    | none => exact hFresh
    | some exit =>
      dsimp only
      cases hNode : g.node exit with
      | error fault => exact hFresh
      | ok n =>
        show Ends (liftM n.controlInputs >>= firstReturn _ _) _ _ _
        cases n.controlInputs with
        | error fault => exact hFresh
        | ok returns =>
          exact firstReturn_sound ⟨g, arguments⟩ (answer_orderly ⟨g, arguments⟩ hRank hVerify _)
            hFresh fun t e _ hStarted => nomatch hStarted
  -- The last state is that of the evaluation, whether it gave an answer or a fault.
  have hSound : Sound g m.heap.allocs (m.lastState g arguments) := by
    unfold Ends at hEnds
    unfold lastState
    split at hEnds
    · next hRun => exact hRun ▸ hEnds
    · next hRun => exact hRun ▸ hEnds
  exact ⟨rfl, hSound.inOrder⟩

/-- A store on one arm of a branch and a load on the other. A load behind both gives what is
returned. -/
def eitherAccess : Graph where
  nodes := #[{ op := .start }, .parameter 0 .int32, .int32 0, .ofArity .branch [1, 0],
    .ofArity .ifTrue [3], .ofArity .ifFalse [3], .store .word32 .none 1 2 1 0 4,
    .load .word32 1 2 0 5, .merge [4, 5], .effectPhi [6, 7, 8], .load .word32 1 2 9 8,
    .ofArity .ret [10, 10, 8], .collect [11]]
  exit := some 12

/-- Only the arm that is taken is in the journal, in front of the load. -/
theorem run_inOrder_eitherAccess : eitherAccess.verify = .ok () ∧
    (lastState ⟨.new (.ofWord 32)⟩ eitherAccess [0x2000]).journal = [6, 10] ∧
    (lastState ⟨.new (.ofWord 32)⟩ eitherAccess [0]).journal = [7, 10] ∧
    ∀ (m : Machine) arguments,
      InOrder eitherAccess m.heap.allocs (m.lastState eitherAccess arguments) := by
  have hVerify : eitherAccess.verify = .ok () := by decide +kernel
  have hAcyclic := Graph.acyclic_of_rank (g := eitherAccess) id (by decide +kernel)
  refine ⟨hVerify, by decide +kernel, by decide +kernel, fun m arguments => ?_⟩
  exact (run_inOrder hVerify hAcyclic m arguments).2

end Machine
end ArmBackend
