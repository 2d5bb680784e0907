import ArmBackend.Proofs.Evaluation.Answers
import ArmBackend.Proofs.Lowering.Added

/-!
# Questions in a graph that grew

A question that a graph answers is answered alike once nodes were added to it, and to any greater
depth. What was remembered of the new nodes stays as it was, and it makes no difference whether it
is remembered that the start is reached.

`Mimics P R x y` says that `y` does whatever `x` succeeds in within the bounds `P`, and that states
which are `R` to each other stay so. `Alike` is the relation between the states of a graph and of a
larger one. The heap of the larger one may be an object ahead, as long as nothing is allocated.

## Results

* `answer_mimics` — the larger graph answers what the smaller one answers.
* `answer_deeper` — more depth changes no answer.
-/

namespace ArmBackend

namespace Lowering.Grows

variable {g g' : Graph} {id x : NodeId} {n : Node}

/-- A node that is found is found in the larger graph. -/
theorem found (h : Grows g g') (hn : g.node id = .ok n) : g'.node id = .ok n :=
  Graph.node_eq_ok.mpr (h.node (Graph.node_eq_ok.mp hn))

/-- What is read off a node is read off it in the larger graph. -/
theorem reads {β : Type} {f : Node → Except Fault β} {b : β} (h : Grows g g')
    (hf : (g.node id >>= f) = .ok b) : (g'.node id >>= f) = .ok b := by
  cases hn : g.node id with
  | error e =>
    rw [hn] at hf
    cases hf
  | ok n =>
    rw [hn] at hf
    rw [h.found hn]
    exact hf

/-- Its control input is the same there. -/
theorem controlIn (h : Grows g g') (hx : g.controlIn id = .ok x) : g'.controlIn id = .ok x :=
  h.reads hx

/-- Its value inputs are the same there. -/
theorem valueIn (h : Grows g g') {i : Int} (hx : g.valueIn id i = .ok x) :
    g'.valueIn id i = .ok x :=
  h.reads hx

end Lowering.Grows

/-! ## Heaps along an evaluation -/

/-- A heap in which an object of some size was allocated ahead of time. -/
def Heap.early (h : Heap) : Option (BitVec 64) → Heap
  | none => h
  | some size => (h.allocate size).1

/-- A heap that came about from another: only allocating moves where the next object is. -/
structure Heap.Grew (h h' : Heap) : Prop where
  like : h.Like h'
  allocs : h.allocs ≤ h'.allocs
  next : h'.allocs ≤ h.allocs → h'.next = h.next

/-- Work on a heap that an object ahead of time makes no difference to, unless it allocates. -/
structure Heap.Works (act : Heap → Heap × BitVec 64) : Prop where
  grew : ∀ h : Heap, h.Grew (act h).1
  early : ∀ (h : Heap) (early : Option (BitVec 64)),
    early = none ∨ (act h).1.allocs ≤ h.allocs →
      act (h.early early) = ((act h).1.early early, (act h).2)

namespace Heap

variable {h h₁ h₂ h₃ : Heap}

/-- A heap grew from itself. -/
theorem Grew.refl (h : Heap) : h.Grew h :=
  ⟨.refl h, Nat.le_refl _, fun _ => rfl⟩

/-- Growing twice. -/
theorem Grew.trans (h₁₂ : h₁.Grew h₂) (h₂₃ : h₂.Grew h₃) : h₁.Grew h₃ where
  like := h₁₂.like.trans h₂₃.like
  allocs := Nat.le_trans h₁₂.allocs h₂₃.allocs
  next hLe := by
    have h₁₂' := h₁₂.allocs
    have h₂₃' := h₂₃.allocs
    rw [h₂₃.next (by omega), h₁₂.next (by omega)]

/-- An object ahead of time changes only where the next one is. -/
theorem like_early {early : Option (BitVec 64)} : h.Like (h.early early) := by
  cases early <;> exact ⟨rfl, rfl, rfl⟩

/-- Work that does not allocate. -/
theorem Works.still {act : Heap → Heap × BitVec 64} (hLike : ∀ h : Heap, h.Like (act h).1)
    (hNext : ∀ h : Heap, (act h).1.next = h.next)
    (hEarly : ∀ (h : Heap) size, act (h.allocate size).1 = (((act h).1.allocate size).1, (act h).2))
    (hAllocs : ∀ h : Heap, (act h).1.allocs = h.allocs) : Works act where
  grew h := ⟨hLike h, Nat.le_of_eq (hAllocs h).symm, fun _ => hNext h⟩
  early h early _ := by
    cases early with
    | none => rfl
    | some size => exact hEarly h size

/-- Work that allocates. -/
theorem Works.allocating {act : Heap → Heap × BitVec 64} (hLike : ∀ h : Heap, h.Like (act h).1)
    (hAllocs : ∀ h : Heap, (act h).1.allocs = h.allocs + 1) : Works act where
  grew h := ⟨hLike h, by rw [hAllocs h]; omega, fun hLe => by rw [hAllocs h] at hLe; omega⟩
  early h early hCases := by
    obtain rfl | hLe := hCases
    · rfl
    · rw [hAllocs h] at hLe
      omega

/-- Reading does not change a heap. -/
theorem Works.reading {f : Heap → BitVec 64} (hf : ∀ (h : Heap) size, f (h.allocate size).1 = f h) :
    Works fun h => (h, f h) :=
  .still (fun h => .refl h) (fun _ => rfl) (fun h size => by rw [hf h size]) fun _ => rfl

/-- Work that depends on what does not change when an object is allocated. -/
theorem Works.either {a b : Heap → Heap × BitVec 64} {c : Heap → Bool}
    (hc : ∀ (h : Heap) size, c (h.allocate size).1 = c h) (ha : Works a) (hb : Works b) :
    Works fun h => if c h = true then a h else b h where
  grew h := by
    split
    · exact ha.grew h
    · exact hb.grew h
  early h early hCases := by
    -- an early allocation does not change which way the step goes
    have hSame : c (h.early early) = c h := by
      cases early with
      | none => rfl
      | some size => exact hc h size
    rw [hSame]
    split
    next hTrue =>
      rw [if_pos hTrue] at hCases
      exact ha.early h early hCases
    next hFalse =>
      rw [if_neg hFalse] at hCases
      exact hb.early h early hCases

/-- Allocating gives the next address, so an object ahead of time moves it. -/
theorem works_allocate (size : BitVec 64) : Works fun h => h.allocate size :=
  .allocating (fun _ => ⟨rfl, rfl, rfl⟩) fun _ => rfl

/-- Storing allocates nothing. -/
theorem works_store (address v : BitVec 64) : Works fun h => (h.store address v, 0) :=
  .still (fun _ => ⟨rfl, rfl, rfl⟩) (fun _ => rfl) (fun _ _ => rfl) fun _ => rfl

/-- An external reference is given an address on its first use alone. -/
theorem works_external (name : String) : Works fun h => h.external name := by
  -- a name is known already, or its object is appended
  have hCases : ∀ h : Heap, h.external name = (h, (h.external name).2) ∨
      h.external name = ({ h with externals := h.externals ++ [name] }, (h.external name).2) := by
    intro h
    unfold external
    dsimp only
    split
    · exact .inl rfl
    · exact .inr rfl
  refine .still (fun h => ?_) (fun h => ?_) (fun h size => ?_) fun h => ?_
  · obtain hEq | hEq := hCases h <;> rw [hEq] <;> exact ⟨rfl, rfl, rfl⟩
  · obtain hEq | hEq := hCases h <;> rw [hEq]
  · have hSame : (h.allocate size).1.externals = h.externals := rfl
    unfold external
    rw [hSame]
    dsimp only
    split <;> rfl
  · obtain hEq | hEq := hCases h <;> rw [hEq]

/-- A change of representation allocates or reads the heap. -/
theorem works_changeOn (f : Change) (v : BitVec 64) : Works (Machine.changeOn f v) := by
  have hBox : ∀ x : Double, Works fun h => h.box x := fun x =>
    .allocating (fun _ => ⟨rfl, rfl, rfl⟩) fun _ => rfl
  have hInteger : ∀ (x : Int) (small : Heap → Bool),
      (∀ (h : Heap) size, small (h.allocate size).1 = small h) →
        Works fun h => if small h = true then (h, h.tag x) else h.box (.ofInt x) :=
    fun x small hSmall => .either hSmall (.reading fun _ _ => rfl) (hBox _)
  cases f with
  | float64ToTagged => exact hBox _
  | int32ToTagged => exact hInteger _ (fun h => h.layout.isSmi _) fun _ _ => rfl
  | uint32ToTagged => exact hInteger _ (fun h => decide (_ ≤ h.layout.smiMax)) fun _ _ => rfl
  | _ => exact .reading fun _ _ => rfl

end Heap

namespace Machine

open Lowering (Grows)

/-! ## What a successful step consists of -/

section

variable {α β : Type} {s s' s'' : State} {a a' : α} {b : β} {x : Eval α} {f : α → Eval β}
  {y : Except Fault α}

/-- A row that succeeds consists of a first step and a rest that do. -/
theorem Runs.of_bind (h : Runs (x >>= f) s b s'') :
    ∃ a s', Runs x s a s' ∧ Runs (f a) s' b s'' := by
  unfold Runs at h
  rw [ExceptT.run_bind, StateT.run_bind] at h
  cases hx : x.run.run s with
  | mk r s' =>
    rw [hx] at h
    cases r with
    | ok a => exact ⟨a, s', hx, h⟩
    | error e => cases h

/-- Giving an answer leaves the state. -/
theorem Runs.of_pure (h : Runs (Pure.pure a : Eval α) s a' s') : a' = a ∧ s' = s := by
  cases h
  exact ⟨rfl, rfl⟩

/-- A look-up that succeeds leaves the state. -/
theorem Runs.of_lift (h : Runs (liftM y : Eval α) s a s') : y = .ok a ∧ s' = s := by
  cases y with
  | error e => cases h
  | ok a' =>
    cases h
    exact ⟨rfl, rfl⟩

/-- A look-up in front of a step. -/
theorem Runs.of_look {f : α → Eval β} (h : Runs (liftM y >>= f) s b s') :
    ∃ a, y = .ok a ∧ Runs (f a) s b s' := by
  obtain ⟨a, s₁, hLook, hRest⟩ := h.of_bind
  obtain ⟨hOk, rfl⟩ := hLook.of_lift
  exact ⟨a, hOk, hRest⟩

end

/-! ## Steps that follow others -/

/-- A step that ends within bounds started within them. -/
structure Confined {α : Type} (P : State → Prop) (x : Eval α) : Prop where
  back : ∀ {s a s'}, Runs x s a s' → P s' → P s

/-- Whatever `x` succeeds in within the bounds, `y` does as well, and states that are `R` to each
other stay so. -/
structure Mimics {α : Type} (P : State → Prop) (R : State → State → Prop) (x y : Eval α) :
    Prop where
  within : Confined P x
  runs : ∀ {s t a s'}, R s t → Runs x s a s' → P s' → ∃ t', Runs y t a t' ∧ R s' t'

section

variable {α β : Type} {P : State → Prop} {R : State → State → Prop} {x y : Eval α}
  {f k : α → Eval β} {a : α} {u v : Except Fault α}

/-- Giving an answer moves no bound. -/
theorem Confined.pure (a : α) : Confined P (Pure.pure a) where
  back h hP := by
    obtain ⟨-, rfl⟩ := h.of_pure
    exact hP

/-- A row of confined steps is confined. -/
theorem Confined.bind (h : Confined P x) (hf : ∀ a, Confined P (f a)) : Confined P (x >>= f) where
  back hRuns hP := by
    obtain ⟨a, s', hx, hRest⟩ := hRuns.of_bind
    exact h.back hx ((hf a).back hRest hP)

/-- Reading the state moves no bound. -/
theorem Confined.get {f : State → Eval β} (hf : ∀ s, Confined P (f s)) :
    Confined P (MonadState.get >>= f) where
  back {s b s'} hRuns := (hf s).back (show Runs (f s) s b s' from hRuns)

/-- A change of the state that comes from within the bounds. -/
theorem Confined.modify {f : State → State} (hf : ∀ s, P (f s) → P s) :
    Confined P (modify f : Eval Unit) where
  back {s b s'} hRuns := by
    cases hRuns
    exact hf s

/-- The same answer. -/
theorem Mimics.pure (a : α) : Mimics P R (Pure.pure a) (Pure.pure a) where
  within := .pure a
  runs {s t a' s'} hR h _ := by
    obtain ⟨rfl, rfl⟩ := h.of_pure
    exact ⟨t, rfl, hR⟩

/-- What never succeeds is followed by anything. -/
theorem Mimics.throw {fault : Fault} : Mimics P R (MonadExcept.throw fault : Eval α) y where
  within := ⟨fun h => by cases h⟩
  runs _ h := by cases h

/-- Rows follow each other step by step. -/
theorem Mimics.bind (h : Mimics P R x y) (hf : ∀ a, Mimics P R (f a) (k a)) :
    Mimics P R (x >>= f) (y >>= k) where
  within := h.within.bind fun a => (hf a).within
  runs hR hRuns hP := by
    obtain ⟨a, s', hx, hRest⟩ := hRuns.of_bind
    obtain ⟨t', hy, hR'⟩ := h.runs hR hx ((hf a).within.back hRest hP)
    obtain ⟨t'', hk, hR''⟩ := (hf a).runs hR' hRest hP
    exact ⟨t'', hy.bind hk, hR''⟩

/-- What a look-up finds, the other finds as well. -/
theorem Mimics.look (huv : ∀ a, u = .ok a → v = .ok a)
    (hf : ∀ a, u = .ok a → Mimics P R (f a) (k a)) :
    Mimics P R (liftM u >>= f) (liftM v >>= k) where
  within := by
    refine ⟨fun hRuns hP => ?_⟩
    obtain ⟨a, hu, hRest⟩ := hRuns.of_look
    exact (hf a hu).within.back hRest hP
  runs {s t b s'} hR hRuns hP := by
    obtain ⟨a, hu, hRest⟩ := hRuns.of_look
    obtain ⟨t', hk, hR'⟩ := (hf a hu).runs hR hRest hP
    exact ⟨t', Runs.bind (Runs.lift (huv a hu) t) hk, hR'⟩

/-- The same look-up comes first on both sides. -/
theorem Mimics.same (hf : ∀ a, u = .ok a → Mimics P R (f a) (k a)) :
    Mimics P R (liftM u >>= f) (liftM u >>= k) :=
  .look (fun _ => id) hf

/-- What a state is looked at for is the same in the other. -/
theorem Mimics.get {β : Type} {f : State → Eval β} (hSame : ∀ s t, R s t → f t = f s)
    (hf : ∀ s, Mimics P R (f s) (f s)) :
    Mimics P R (MonadState.get >>= f) (MonadState.get >>= f) where
  within := .get fun s => (hf s).within
  runs {s t b s'} hR hRuns hP := by
    obtain ⟨t', hk, hR'⟩ := (hf s).runs hR (show Runs (f s) s b s' from hRuns) hP
    exact ⟨t', show Runs (f t) t b t' by rwa [hSame s t hR], hR'⟩

/-- A check in front of a step. -/
theorem Mimics.unless {c : Prop} [Decidable c] {fault : Fault} {f k : PUnit → Eval β}
    (hf : Mimics P R (f ⟨⟩) (k ⟨⟩)) :
    Mimics P R (if c then MonadExcept.throw fault >>= f else f ⟨⟩)
      (if c then MonadExcept.throw fault >>= k else k ⟨⟩) := by
  split
  · exact .throw
  · exact hf

/-- The same list is gone through on both sides. -/
theorem Mimics.forM {l : List NodeId} {m m' : NodeId → Eval Unit}
    (h : ∀ e, Mimics P R (m e) (m' e)) : Mimics P R (l.forM m) (l.forM m') := by
  induction l with
  | nil => exact .pure _
  | cons e rest ih => exact .bind (h e) fun _ => ih

end

/-! ## States of a graph and of a larger one -/

/-- How states of a graph and of a larger one go together, in evaluations that started from `s₀` and
`t₀`. Of the `new` nodes nothing is remembered in the first, and what `t₀` remembers in the second.
Of a `lax` node it may be remembered in one of them only that it is reached. -/
structure Alike (early : Option (BitVec 64)) (new lax : NodeId → Prop) (s₀ t₀ s t : State) :
    Prop where
  heap : t.heap = s.heap.early early
  journal : early = none → t.journal = s.journal
  -- the nodes of the old graph answer alike in both
  values : ∀ {id}, ¬new id → t.values id = s.values id
  effects : ∀ {id}, ¬new id → t.effects id = s.effects id
  reached : ∀ {id}, ¬new id → t.reached id = s.reached id ∨
    lax id ∧ s.reached id ≠ some false ∧ t.reached id ≠ some false
  -- and the new ones were never asked for in the first
  unasked : ∀ {id}, new id → s.values id = none ∧ s.effects id = false ∧ s.reached id = none
  kept : ∀ {id}, new id →
    t.values id = t₀.values id ∧ t.effects id = t₀.effects id ∧ t.reached id = t₀.reached id
  arrived : ∀ {id b}, s₀.reached id = some b → s.reached id = some b
  ran : ∀ {id}, s₀.effects id = true → s.effects id = true
  grew : s₀.heap.Grew s.heap

/-- Where an object is allocated ahead, nothing else is. -/
def Spares (early : Option (BitVec 64)) (s₀ s : State) : Prop :=
  early = none ∨ s.heap.allocs ≤ s₀.heap.allocs

/-- A step in a graph and one in a larger graph that go along with each other. -/
abbrev Together {α : Type} (early : Option (BitVec 64)) (new lax : NodeId → Prop) (s₀ t₀ : State)
    (x y : Eval α) : Prop :=
  Mimics (Spares early s₀) (Alike early new lax s₀ t₀) x y

/-- A graph and a larger one. -/
structure Enlarges (new lax : NodeId → Prop) (env env' : Env) : Prop where
  arguments : env'.arguments = env.arguments
  grows : Grows env.graph env'.graph
  new : ∀ {id}, new id → env.graph.node? id = none ∧ 0 ≤ id
  lax : ∀ {id}, lax id → ∃ n, env.graph.node? id = some n ∧ n.op = .start

section

variable {early : Option (BitVec 64)} {new lax : NodeId → Prop} {s₀ t₀ s t : State}
  {env env' : Env} {ask ask' : Ask} {id merge : NodeId} {n : Node}

/-- A heap that grew goes together with the same heap an object ahead. -/
theorem Alike.onHeap {heap : Heap} (h : Alike early new lax s₀ t₀ s t) (hGrew : s.heap.Grew heap)
    (journal journal' : List NodeId) (hJournal : early = none → journal' = journal) :
    Alike early new lax s₀ t₀ { s with heap, journal }
      { t with heap := heap.early early, journal := journal' } :=
  ⟨rfl, hJournal, h.values, h.effects, h.reached, h.unasked, h.kept, h.arrived, h.ran,
    h.grew.trans hGrew⟩

/-- Work on the heap gives the same answer, and leaves the heaps an object apart. -/
theorem Alike.works {act : Heap → Heap × BitVec 64} (h : Alike early new lax s₀ t₀ s t)
    (hAct : Heap.Works act) (hSpares : early = none ∨ (act s.heap).1.allocs ≤ s₀.heap.allocs) :
    act t.heap = ((act s.heap).1.early early, (act s.heap).2) := by
  rw [h.heap]
  refine hAct.early s.heap early (hSpares.imp_right fun hLe => ?_)
  exact Nat.le_trans hLe h.grew.allocs

/-- A node of the smaller graph is not new. -/
theorem Enlarges.old (h : Enlarges new lax env env') (hn : env.graph.node? id = some n) :
    ¬new id := by
  intro hNew
  rw [(h.new hNew).1] at hn
  cases hn

/-- Work on the heap. -/
theorem mimics_onHeap {act : Heap → Heap × BitVec 64} (hAct : Heap.Works act) :
    Together early new lax s₀ t₀ (onHeap act) (onHeap act) where
  within := by
    refine ⟨fun {s a s'} hRuns hSpares => ?_⟩
    cases hRuns
    exact hSpares.imp_right (Nat.le_trans (hAct.grew s.heap).allocs)
  runs {s t a s'} h hRuns hSpares := by
    cases hRuns
    have hSame := h.works hAct hSpares
    refine ⟨{ t with heap := (act s.heap).1.early early }, ?_, ?_⟩
    · show (Except.ok (act t.heap).2, { t with heap := (act t.heap).1 }) = _
      rw [hSame]
    · exact h.onHeap (hAct.grew _) s.journal t.journal h.journal

/-- Work on the heap that is written into the journal. -/
theorem mimics_access (id : NodeId) {act : Heap → Heap × BitVec 64} (hAct : Heap.Works act) :
    Together early new lax s₀ t₀ (access id act) (access id act) where
  within := by
    refine ⟨fun {s a s'} hRuns hSpares => ?_⟩
    cases hRuns
    exact hSpares.imp_right (Nat.le_trans (hAct.grew s.heap).allocs)
  runs {s t a s'} h hRuns hSpares := by
    cases hRuns
    have hSame := h.works hAct hSpares
    refine ⟨{ t.noted id with heap := (act s.heap).1.early early }, ?_, ?_⟩
    · show (Except.ok (act t.heap).2, { t.noted id with heap := (act t.heap).1 }) = _
      rw [hSame]
    · refine h.onHeap (hAct.grew _) (s.journal ++ [id]) (t.journal ++ [id]) fun hNone => ?_
      rw [h.journal hNone]

/-! ## Steps of the two evaluations -/

/-- The questions of one evaluation are answered in the other. -/
def Imitates (early : Option (BitVec 64)) (new lax : NodeId → Prop) (s₀ t₀ : State)
    (ask ask' : Ask) : Prop :=
  ∀ {α : Type} (q : Query α), Together early new lax s₀ t₀ (ask q) (ask' q)

variable (hAsk : Imitates early new lax s₀ t₀ ask ask') (hEnv : Enlarges new lax env env')
include hAsk

/-- The value of an input. -/
theorem Imitates.input (n : Node) (i : Int) :
    Together early new lax s₀ t₀ (inputValue ask n i) (inputValue ask' n i) :=
  .same fun x _ => hAsk (.value x)

/-- The first arm that is reached. -/
theorem Imitates.firstReached (xs : List NodeId) (i : Nat) :
    Together early new lax s₀ t₀ (firstReached ask i xs) (firstReached ask' i xs) := by
  induction xs generalizing i with
  | nil => exact .pure _
  | cons c rest ih =>
    refine .bind (hAsk _) fun b => ?_
    cases b with
    | true => exact .pure _
    | false => exact ih (i + 1)

include hEnv

/-- The input of a phi that belongs to the arm that is reached. -/
theorem Imitates.takenValue (n : Node) :
    Together early new lax s₀ t₀ (takenValue env ask n) (takenValue env' ask' n) := by
  refine .same fun merge _ => .bind (.look (fun _ => hEnv.grows.found) fun m _ => ?_) fun i => ?_
  · refine .bind (hAsk.firstReached _ _) fun i? => ?_
    cases i? with
    | some i => exact .pure i
    | none => exact .throw
  · exact bind_pure (liftM (n.input i) : Eval NodeId) ▸ .same fun x _ => .pure x

/-- Whether a control node is reached, by its operator. -/
theorem Imitates.decideReached :
    Together early new lax s₀ t₀ (decideReached env ask id) (decideReached env' ask' id) := by
  refine .look (fun _ => hEnv.grows.found) fun n _ => ?_
  -- An arm is reached with its branch, if the condition decides for it.
  have hArm : Together early new lax s₀ t₀
      (do
        let branch ← n.input 0
        if ← ask (.reached (← env.graph.controlIn branch)) then
          let condition ← ask (.value (← env.graph.valueIn branch 0))
          return (condition != 0) == (n.op == .ifTrue)
        return false)
      (do
        let branch ← n.input 0
        if ← ask' (.reached (← env'.graph.controlIn branch)) then
          let condition ← ask' (.value (← env'.graph.valueIn branch 0))
          return (condition != 0) == (n.op == .ifTrue)
        return false) := by
    refine .same fun branch _ => .look (fun _ => hEnv.grows.controlIn) fun c _ => ?_
    refine .bind (hAsk _) fun b => ?_
    cases b with
    | true =>
      exact .look (fun _ => hEnv.grows.valueIn) fun x _ => .bind (hAsk _) fun v => .pure _
    | false => exact .pure _
  -- Everything else passes on the control that comes before it.
  have hPass : Together early new lax s₀ t₀
      (do
        let control ← n.controlIn
        if control < 0 then throw (.malformed id n.op .notControl)
        ask (.reached control))
      (do
        let control ← n.controlIn
        if control < 0 then throw (.malformed id n.op .notControl)
        ask' (.reached control)) := by
    exact .same fun c _ => Mimics.unless (hAsk _)
  cases hn : n.op with
  | start => exact .pure _
  | merge => exact .bind (hAsk.firstReached _ _) fun i? => .pure _
  | ifTrue | ifFalse => simpa only [hn] using hArm
  | _ => simpa only [hn] using hPass

/-- Running an effect runs the effects before it. -/
theorem Imitates.runEffect :
    Together early new lax s₀ t₀ (runEffect env ask id) (runEffect env' ask' id) := by
  refine .look (fun _ => hEnv.grows.found) fun n _ => ?_
  cases hn : n.op with
  | start | valueEffect | controlEffect => exact .pure _
  | effectPhi => exact .bind (hAsk.takenValue hEnv n) fun x => hAsk _
  | load | store | call | change f =>
    exact .same fun xs _ => .bind (.forM fun e => hAsk _) fun _ => .bind (hAsk _) fun _ => .pure _
  | _ => exact .same fun xs _ => .bind (.forM fun e => hAsk _) fun _ => .pure _

omit hAsk in
/-- An argument is looked up by the index of the parameter. -/
theorem mimics_argument :
    Together early new lax s₀ t₀ (argument env id n) (argument env' id n) := by
  unfold argument
  rw [hEnv.arguments]
  refine Mimics.unless (Mimics.unless ?_)
  cases n.mach with
  | tagged =>
    refine Mimics.get (fun s t h => ?_) fun s => .pure _
    rw [h.heap, Heap.like_early.toWord]
  | _ => exact .pure _

omit hAsk hEnv in
/-- The value of a constant may need an address on the heap. -/
theorem mimics_constant (kind : ConstantKind) :
    Together early new lax s₀ t₀ (constantValue id n kind) (constantValue id n kind) := by
  unfold constantValue
  cases kind with
  | int32 | int64 | float64 => exact .pure _
  | external => exact mimics_onHeap (Heap.works_external n.name)
  | heap =>
    dsimp only
    -- The two booleans have a fixed place on the heap.
    split
    · refine .get (fun s t h => ?_) fun s => .pure _
      rw [h.heap, Heap.like_early.trueObject]
    · split
      · refine .get (fun s t h => ?_) fun s => .pure _
        rw [h.heap, Heap.like_early.falseObject]
      · exact .throw

/-- A projection of an operation with overflow. -/
theorem Imitates.projectionValue :
    Together early new lax s₀ t₀ (projectionValue env ask id n)
      (projectionValue env' ask' id n) := by
  refine .same fun x _ => .look (fun _ => hEnv.grows.found) fun m _ => ?_
  by_cases hZero : n.int = 0
  · rw [if_pos hZero, if_pos hZero]
    exact hAsk _
  · rw [if_neg hZero, if_neg hZero]
    refine .bind (hAsk.input _ _) fun v => .bind (hAsk.input _ _) fun w => ?_
    dsimp only
    split
    · exact .pure _
    · exact .throw

/-- The call that is supported asks for a size, and allocates. -/
theorem Imitates.callValue :
    Together early new lax s₀ t₀ (callValue env ask id n) (callValue env' ask' id n) := by
  refine .same fun e _ => .bind (hAsk _) fun _ => .same fun x _ =>
    .look (fun _ => hEnv.grows.found) fun target _ => Mimics.unless ?_
  exact .bind (hAsk.input _ _) fun size => mimics_access _ (Heap.works_allocate size)

/-- The value of a node, by its operator. -/
theorem Imitates.compute :
    Together early new lax s₀ t₀ (compute env ask id) (compute env' ask' id) := by
  refine .look (fun _ => hEnv.grows.found) fun n _ => ?_
  -- The same questions in the same order; only work on the heap asks more than that.
  cases hn : n.op with
  | parameter => exact mimics_argument hEnv
  | constant kind => exact mimics_constant kind
  | phi => exact .bind (hAsk.takenValue hEnv n) fun x => hAsk _
  | projection => exact hAsk.projectionValue hEnv
  | finish => exact .same fun e _ => .bind (hAsk _) fun _ => hAsk.input _ _
  | call => exact hAsk.callValue hEnv
  | load =>
    exact .same fun e _ => .bind (hAsk _) fun _ => .bind (hAsk.input _ _) fun _ =>
      .bind (hAsk.input _ _) fun _ => mimics_access _ (.reading fun _ _ => rfl)
  | store =>
    exact .same fun e _ => .bind (hAsk _) fun _ => .bind (hAsk.input _ _) fun _ =>
      .bind (hAsk.input _ _) fun _ => .bind (hAsk.input _ _) fun _ =>
        mimics_access _ (Heap.works_store _ _)
  | word32 op | word64 op | int32 op | float64 op =>
    exact .bind (hAsk.input _ _) fun _ => .bind (hAsk.input _ _) fun _ => .pure _
  | convert f => exact .bind (hAsk.input _ _) fun _ => .pure _
  | change f =>
    exact .same fun e _ => .bind (hAsk _) fun _ => .bind (hAsk.input _ _) fun v =>
      mimics_access _ (Heap.works_changeOn f v)
  | _ => exact .throw

/-! ## Questions -/

omit hAsk hEnv in
/-- Both sides remember whether an old control node is reached. -/
theorem Alike.learnReached (h : Alike early new lax s₀ t₀ s t) (hOld : ¬new id) {b : Bool}
    (hStays : ∀ b', s₀.reached id = some b' → b' = b) :
    Alike early new lax s₀ t₀ { s with reached := fun x => if x = id then some b else s.reached x }
      { t with reached := fun x => if x = id then some b else t.reached x } where
  heap := h.heap
  journal := h.journal
  values := h.values
  effects := h.effects
  reached {x} hx := by
    by_cases hId : x = id
    · exact .inl (by simp only [hId, if_true])
    · simpa only [hId, if_false] using h.reached hx
  unasked {x} hx := by
    have hId : x ≠ id := fun hId => hOld (hId ▸ hx)
    simpa only [hId, if_false] using h.unasked hx
  kept {x} hx := by
    have hId : x ≠ id := fun hId => hOld (hId ▸ hx)
    simpa only [hId, if_false] using h.kept hx
  -- What was known at the start is not contradicted.
  arrived {x b'} hb := by
    show (if x = id then some b else s.reached x) = some b'
    by_cases hId : x = id
    · rw [if_pos hId, hStays b' (hId ▸ hb)]
    · rw [if_neg hId]
      exact h.arrived hb
  ran := h.ran
  grew := h.grew

omit hAsk hEnv in
/-- Both sides remember the value of an old node. -/
theorem Alike.learnValue (h : Alike early new lax s₀ t₀ s t) (hOld : ¬new id) (v : BitVec 64) :
    Alike early new lax s₀ t₀ { s with values := fun x => if x = id then some v else s.values x }
      { t with values := fun x => if x = id then some v else t.values x } where
  heap := h.heap
  journal := h.journal
  values {x} hx := by
    by_cases hId : x = id
    · simp only [hId, if_true]
    · simpa only [hId, if_false] using h.values hx
  effects := h.effects
  reached := h.reached
  unasked {x} hx := by
    have hId : x ≠ id := fun hId => hOld (hId ▸ hx)
    simpa only [hId, if_false] using h.unasked hx
  -- the value that is learnt belongs to an old node
  kept {x} hx := by
    have hId : x ≠ id := fun hId => hOld (hId ▸ hx)
    simpa only [hId, if_false] using h.kept hx
  arrived := h.arrived
  ran := h.ran
  grew := h.grew

omit hAsk hEnv in
/-- Both sides mark an old effect as run. -/
theorem Alike.mark (h : Alike early new lax s₀ t₀ s t) (hOld : ¬new id) :
    Alike early new lax s₀ t₀ { s with effects := fun x => x = id || s.effects x }
      { t with effects := fun x => x = id || t.effects x } where
  heap := h.heap
  journal := h.journal
  values := h.values
  effects {x} hx := by simp only [h.effects hx]
  reached := h.reached
  unasked {x} hx := by
    have hId : x ≠ id := fun hId => hOld (hId ▸ hx)
    simpa only [hId, decide_false, Bool.false_or] using h.unasked hx
  kept {x} hx := by
    have hId : x ≠ id := fun hId => hOld (hId ▸ hx)
    simpa only [hId, decide_false, Bool.false_or] using h.kept hx
  arrived := h.arrived
  ran {x} hx := by
    show (decide (x = id) || s.effects x) = true
    rw [h.ran hx, Bool.or_true]
  grew := h.grew

omit hAsk hEnv in
/-- The start is reached, remembered or not. -/
theorem runs_start (hn : env.graph.node? id = some n) (hOp : n.op = .start)
    (hReached : s.reached id ≠ some false) :
    Runs (respond env ask (.reached id)) s true
      { s with reached := fun x => if x = id then some true else s.reached x } := by
  refine Runs.bind (Runs.get s) ?_
  -- Either nothing is remembered of the start or that it is reached.
  cases hKnown : s.reached id with
  | none =>
    have hDecide : Runs (decideReached env ask id) s true s := by
      refine Runs.bind (Runs.lift (Graph.node_eq_ok.mpr hn) s) ?_
      simp only [hOp]
      exact Runs.pure _ _
    exact Runs.bind hDecide (Runs.bind (Runs.modifies _ s) (Runs.pure _ _))
  | some b =>
    cases b with
    | false => exact absurd hKnown hReached
    | true =>
      have hSame : (fun x => if x = id then some true else s.reached x) = s.reached := by
        funext x
        by_cases hx : x = id
        · rw [if_pos hx, hx, hKnown]
        · rw [if_neg hx]
      rw [hSame]
      exact Runs.pure _ _

/-- No question is answered out of bounds. -/
theorem Imitates.within_respond {α : Type} (q : Query α) :
    Confined (Spares early s₀) (respond env ask q) := by
  cases q with
  | reached id =>
    refine .get fun s => ?_
    cases s.reached id with
    | some b => exact .pure b
    | none =>
      exact (hAsk.decideReached hEnv).within.bind fun b =>
        .bind (.modify fun _ h => h) fun _ => .pure b
  | effect id =>
    refine .get fun s => ?_
    split
    · exact .pure _
    · -- the effect is marked before it runs
      exact .bind (.modify fun _ h => h) fun _ => (hAsk.runEffect hEnv).within
  | value id =>
    refine .get fun s => ?_
    cases s.values id with
    | some v => exact .pure v
    | none =>
      exact (hAsk.compute hEnv).within.bind fun v => .bind (.modify fun _ h => h) fun _ => .pure v

/-- A control node: what one side only remembers of the start, the other one finds out. -/
theorem Imitates.respondReached :
    Together early new lax s₀ t₀ (respond env ask (.reached id))
      (respond env' ask' (.reached id)) := by
  refine ⟨hAsk.within_respond hEnv _, fun {s t b s'} h hRuns hSpares => ?_⟩
  by_cases hNew : new id
  · -- nothing is remembered of it, and there is no such node
    obtain ⟨s₁, s₂, hGet, hRest⟩ := hRuns.of_bind
    cases hGet
    simp only [(h.unasked hNew).2.2] at hRest
    obtain ⟨b₁, s₁, hDecide, -⟩ := hRest.of_bind
    obtain ⟨n, hn, -⟩ := hDecide.of_look
    exact absurd hNew (hEnv.old (Graph.node_eq_ok.mp hn))
  -- Either both sides remember the same, or one of them not the start.
  rcases h.reached hNew with hSame | ⟨hLax, hs, ht⟩
  · obtain ⟨s₁, s₂, hGet, hRest⟩ := hRuns.of_bind
    cases hGet
    cases hKnown : s.reached id with
    | some b₁ =>
      simp only [hKnown] at hRest
      obtain ⟨rfl, rfl⟩ := hRest.of_pure
      refine ⟨t, Runs.bind (Runs.get t) ?_, h⟩
      simp only [hSame, hKnown]
      exact Runs.pure _ _
    | none =>
      simp only [hKnown] at hRest
      obtain ⟨b₁, s₁, hDecide, hLearn⟩ := hRest.of_bind
      cases hLearn
      obtain ⟨t₁, hDecide', h₁⟩ := (hAsk.decideReached hEnv).runs h hDecide hSpares
      refine ⟨_, Runs.bind (Runs.get t) ?_, h₁.learnReached hNew fun b' hb' => ?_⟩
      · simp only [hSame, hKnown]
        exact Runs.bind hDecide' (Runs.bind (Runs.modifies _ t₁) (Runs.pure _ _))
      · rw [h.arrived hb'] at hKnown
        cases hKnown
  · obtain ⟨n, hn, hOp⟩ := hEnv.lax hLax
    have hStart : Runs (respond env ask (.reached id)) s true _ := runs_start hn hOp hs
    cases hStart.symm.trans hRuns
    refine ⟨_, runs_start (hEnv.grows.node hn) hOp ht, h.learnReached hNew fun b' hb' => ?_⟩
    rw [h.arrived hb'] at hs
    cases b' with
    | true => rfl
    | false => exact absurd rfl hs

/-- A value. -/
theorem Imitates.respondValue :
    Together early new lax s₀ t₀ (respond env ask (.value id)) (respond env' ask' (.value id)) := by
  refine ⟨hAsk.within_respond hEnv _, fun {s t b s'} h hRuns hSpares => ?_⟩
  obtain ⟨s₁, s₂, hGet, hRest⟩ := hRuns.of_bind
  cases hGet
  by_cases hNew : new id
  · simp only [(h.unasked hNew).1] at hRest
    obtain ⟨v, s₁, hCompute, -⟩ := hRest.of_bind
    obtain ⟨n, hn, -⟩ := hCompute.of_look
    exact absurd hNew (hEnv.old (Graph.node_eq_ok.mp hn))
  have hSame := h.values hNew
  -- A value that is remembered is the same on both sides, since the node is old.
  cases hKnown : s.values id with
  | some v =>
    simp only [hKnown] at hRest
    obtain ⟨rfl, rfl⟩ := hRest.of_pure
    refine ⟨t, Runs.bind (Runs.get t) ?_, h⟩
    simp only [hSame, hKnown]
    exact Runs.pure _ _
  | none =>
    simp only [hKnown] at hRest
    obtain ⟨v, s₁, hCompute, hLearn⟩ := hRest.of_bind
    cases hLearn
    obtain ⟨t₁, hCompute', h₁⟩ := (hAsk.compute hEnv).runs h hCompute hSpares
    refine ⟨_, Runs.bind (Runs.get t) ?_, h₁.learnValue hNew _⟩
    simp only [hSame, hKnown]
    exact Runs.bind hCompute' (Runs.bind (Runs.modifies _ t₁) (Runs.pure _ _))

/-- An effect. -/
theorem Imitates.respondEffect :
    Together early new lax s₀ t₀ (respond env ask (.effect id))
      (respond env' ask' (.effect id)) := by
  refine ⟨hAsk.within_respond hEnv _, fun {s t b s'} h hRuns hSpares => ?_⟩
  obtain ⟨s₁, s₂, hGet, hRest⟩ := hRuns.of_bind
  cases hGet
  by_cases hNew : new id
  · have hNonneg := (hEnv.new hNew).2
    rw [if_neg (by simp [(h.unasked hNew).2.1, hNonneg])] at hRest
    obtain ⟨-, s₁, -, hEffect⟩ := hRest.of_bind
    obtain ⟨n, hn, -⟩ := hEffect.of_look
    exact absurd hNew (hEnv.old (Graph.node_eq_ok.mp hn))
  have hSame := h.effects hNew
  -- What was run is not run again.
  by_cases hDone : (decide (id < 0) || s.effects id) = true
  · rw [if_pos hDone] at hRest
    obtain ⟨-, rfl⟩ := hRest.of_pure
    refine ⟨t, Runs.bind (Runs.get t) ?_, h⟩
    rw [hSame, if_pos hDone]
    exact Runs.pure _ _
  · rw [if_neg hDone] at hRest
    obtain ⟨_, s₁, hMark, hEffect⟩ := hRest.of_bind
    -- The effect is marked before it is run, on both sides.
    cases hMark
    obtain ⟨t₁, hEffect', h₁⟩ := (hAsk.runEffect hEnv).runs (h.mark hNew) hEffect hSpares
    refine ⟨t₁, Runs.bind (Runs.get t) ?_, h₁⟩
    rw [hSame, if_neg hDone]
    exact Runs.bind (Runs.modifies _ t) hEffect'

omit hAsk in
/-- The larger graph answers what the smaller one answers, to any greater depth. -/
theorem answer_mimics {d d' : Nat} (hd : d ≤ d') :
    Imitates early new lax s₀ t₀ (answer env d) (answer env' d') := by
  induction d generalizing d' with
  | zero => exact fun q => .throw
  | succ d ih =>
    obtain ⟨d', rfl⟩ : ∃ k, d' = k + 1 := ⟨d' - 1, by omega⟩
    have hBelow : Imitates early new lax s₀ t₀ (answer env d) (answer env' d') := ih (by omega)
    intro α q
    show Mimics _ _ (respond env (answer env d) q) (respond env' (answer env' d') q)
    cases q with
    | reached id => exact hBelow.respondReached hEnv
    | effect id => exact hBelow.respondEffect hEnv
    | value id => exact hBelow.respondValue hEnv

end

/-- An evaluation of a graph next to itself. -/
theorem answer_itself {α : Type} {env : Env} {d d' : Nat} {q : Query α} {s s' : State} {a : α}
    (h : Runs (answer env d q) s a s') (hd : d ≤ d') : Runs (answer env d' q) s a s' ∧
      Alike none (fun _ => False) (fun _ => False) s s s' s' := by
  -- The graph compared with itself: nothing is new, and nothing is ahead.
  have hEnv : Enlarges (fun _ => False) (fun _ => False) env env :=
    ⟨rfl, .refl env.graph, nofun, nofun⟩
  have hAlike : Alike none (fun _ => False) (fun _ => False) s s s s :=
    ⟨rfl, fun _ => rfl, fun _ => rfl, fun _ => rfl, fun _ => .inl rfl, nofun, nofun, id, id,
      .refl s.heap⟩
  obtain ⟨t, hRuns, hSame⟩ := (answer_mimics hEnv hd q).runs hAlike h (.inl rfl)
  -- With nothing new the states agree in every field.
  obtain rfl : t = s' := by
    have hReached : t.reached = s'.reached :=
      funext fun id => (hSame.reached not_false).resolve_right fun h => h.1
    have hEffects : t.effects = s'.effects := funext fun id => hSame.effects not_false
    have hValues : t.values = s'.values := funext fun id => hSame.values not_false
    have hHeap := hSame.heap
    have hJournal := hSame.journal rfl
    cases t
    cases s'
    simp only at hReached hEffects hValues hHeap hJournal
    subst hReached hEffects hValues hHeap hJournal
    rfl
  exact ⟨hRuns, hSame⟩

/-- More depth changes no answer. -/
theorem answer_deeper {α : Type} {env : Env} {d d' : Nat} {q : Query α} {s s' : State} {a : α}
    (h : Runs (answer env d q) s a s') (hd : d ≤ d') : Runs (answer env d' q) s a s' :=
  (answer_itself h hd).1

end Machine
end ArmBackend
