import ArmBackend.Proofs.Lowering.Changes
import ArmBackend.Proofs.Lowering.Rewiring

/-!
# Chains of changes

A chain applies one change after another to the first parameter. It is anchored when effect and
control run through every change and into the return, and unanchored when the changes have no other
input than a value.

## Definitions

* `chain` — the graph of a chain.
* `links` — the nodes of a chain from a change on.
* `Datum.At` — a value in a heap is a datum.

## Results

* `Machine.Plan.Good.returnsDatum` — a graph whose return is planned gives the planned datum.
* `Machine.chain_gives` — a chain gives what its changes make of the argument.
-/

namespace ArmBackend

/-! ## Chains -/

/-- The type behind a chain of changes, if each starts from what the one before it gives. -/
def ValueType.through (t : ValueType) : List Change → Option ValueType
  | [] => some t
  | f :: fs => if f.source = t then f.target.through fs else none

theorem ValueType.through_cons {t t' : ValueType} {f : Change} {fs : List Change} :
    t.through (f :: fs) = some t' ↔ f.source = t ∧ f.target.through fs = some t' := by
  rw [ValueType.through]
  split
  · simp [*]
  · simp [*]

/-- What the next node of a chain hangs on. Without anchors it is only a value. -/
def hook (anchored : Bool) (r : Graph.Replacement) : Graph.Replacement :=
  if anchored then r else ⟨r.value, -1, -1⟩

/-- The return at the end of a chain. -/
def returnNode (anchored : Bool) (r : Graph.Replacement) : Node :=
  .ofArity .ret (if anchored then [r.value, r.effect, r.control]
    else [r.value, Graph.start, Graph.start])

theorem returnNode_hook (anchored : Bool) (r : Graph.Replacement) :
    returnNode anchored (hook anchored r) = returnNode anchored r := by
  cases anchored <;> rfl

namespace Build

/-- Adds one change after another. -/
def changes (anchored : Bool) : List Change → Graph.Replacement → Build Graph.Replacement
  | [], r => pure r
  | f :: fs, r => do
    let id ← push (.change (.change f) r.value r.effect r.control)
    changes anchored fs (hook anchored ⟨id, id, id⟩)

/-- Adds a chain of changes and its return. -/
def returning (anchored : Bool) (fs : List Change) (r : Graph.Replacement) : Build NodeId := do
  let r ← changes anchored fs r
  push (returnNode anchored r)

end Build

/-- The graph that applies changes to the first parameter. -/
def chain (t : ValueType) (anchored : Bool) (fs : List Change) : Graph :=
  let build : Build NodeId := do
    let x ← Build.push (.parameter 0 t.mach)
    Build.returning anchored fs (hook anchored ⟨x, Graph.start, Graph.start⟩)
  let (ret, g) := build.run .empty
  (g.setExit [ret]).1

/-- The nodes of a chain from a change on; `pos` is where they start. -/
def links (anchored : Bool) : List Change → Nat → Graph.Replacement → List Node
  | [], pos, r => [returnNode anchored r, .collect [(pos : Int)]]
  | f :: fs, pos, r =>
    .change (.change f) r.value r.effect r.control ::
      links anchored fs (pos + 1) (hook anchored ⟨pos, pos, pos⟩)

theorem length_links (anchored : Bool) (fs : List Change) (pos : Nat) (r : Graph.Replacement) :
    (links anchored fs pos r).length = fs.length + 2 := by
  induction fs generalizing pos r with
  | nil => rfl
  | cons f fs ih =>
    show (links anchored fs _ _).length + 1 = fs.length + 1 + 2
    rw [ih]

theorem setExit_returning {anchored : Bool} {fs : List Change} {r r' : Graph.Replacement}
    {g g' : Graph} (h : (Build.changes anchored fs r).run g = (r', g')) :
    let b := (Build.returning anchored fs r).run g
    (b.2.setExit [b.1]).1 =
      { g'.append [returnNode anchored r', .collect [(g'.size : Int)]] with
        exit := some (g'.size + 1 : Nat) } := by
  have hRun : (Build.returning anchored fs r).run g =
      (Build.push (returnNode anchored r')).run g' := by
    unfold Build.returning
    rw [StateT.run_bind, h]
    rfl
  simp only [hRun]
  simp only [Build.push, StateT.run, Graph.push, Graph.setExit, Graph.append, Graph.size,
    Array.size_push, Graph.mk.injEq, and_true]
  exact Array.toList_inj.mp (by simp)

theorem setExit_links (anchored : Bool) (fs : List Change) (r : Graph.Replacement) (g : Graph) :
    let b := (Build.returning anchored fs r).run g
    (b.2.setExit [b.1]).1 =
      { g.append (links anchored fs g.size r) with
        exit := some (g.size + fs.length + 1 : Nat) } := by
  induction fs generalizing r g with
  | nil => exact setExit_returning rfl
  | cons f fs ih =>
    let n : Node := .change (.change f) r.value r.effect r.control
    have hSize : (g.append [n]).size = g.size + 1 := by simp [Graph.append, Graph.size]
    -- building `f :: fs` pushes one node and goes on from there, hooked to that node
    have hStep : (Build.returning anchored (f :: fs) r).run g =
        (Build.returning anchored fs (hook anchored ⟨g.size, g.size, g.size⟩)).run (g.append [n]) := by
      simp [Build.returning, Build.changes, Build.push, Graph.push, Graph.append, StateT.run,
        bind, StateT.bind, n, Graph.size]
    have h := ih (hook anchored ⟨g.size, g.size, g.size⟩) (g.append [n])
    simp only at h ⊢
    rw [hStep, h, hSize, Graph.append_append]
    show _ = { g.append (n :: links anchored fs (g.size + 1) _) with
      exit := some ((g.size + (fs.length + 1) + 1 : Nat) : NodeId) }
    rw [show g.size + 1 + fs.length + 1 = g.size + (fs.length + 1) + 1 by omega]
    rfl

/-- A chain node by node. -/
theorem chain_eq (t : ValueType) (anchored : Bool) (fs : List Change) :
    chain t anchored fs =
      { (Graph.empty.append [.parameter 0 t.mach]).append
          (links anchored fs 2 (hook anchored ⟨1, Graph.start, Graph.start⟩)) with
        exit := some (fs.length + 3 : Nat) } := by
  have h := setExit_links anchored fs (hook anchored ⟨1, Graph.start, Graph.start⟩)
    (Graph.empty.append [.parameter 0 t.mach])
  have hSize : (Graph.empty.append [.parameter 0 t.mach]).size = 2 := rfl
  rw [hSize, show 2 + fs.length + 1 = fs.length + 3 by omega] at h
  exact h

/-! ## Data in a heap -/

/-- A value in a heap is a datum. -/
def Datum.At (h : Heap) (v : BitVec 64) : Datum → Prop
  | .word w => v = w
  | .boxed d => Heap.isSmi v = false ∧ h.memory (h.toWord (h.payload v)) = d

/-- The argument of a chain. A tagged argument that is a pointer stands for what it points to. -/
def ValueType.argument (t : ValueType) (h : Heap) (a : BitVec 64) : Datum :=
  let v := Machine.argumentWord h t.mach a
  if t = .tagged ∧ Heap.isSmi v = false then .boxed (h.memory (h.toWord (h.payload v))) else .word v

theorem ValueType.argument_admits (t : ValueType) (h : Heap) (a : BitVec 64) :
    t.Admits (t.argument h a) := by
  unfold ValueType.argument
  cases t with
  | bit =>
    show ((a.setWidth 32).setWidth 64).setWidth 32 = 0 → (a.setWidth 32).setWidth 64 = 0
    rw [setWidth_setWidth]
    intro hZero
    rw [hZero]
    rfl
  | tagged =>
    let v := Machine.argumentWord h ValueType.tagged.mach a
    show tagged.Admits (if tagged = .tagged ∧ Heap.isSmi v = false then _ else .word v)
    -- a tagged argument that is no small integer counts as a box
    by_cases hSmi : Heap.isSmi v = false
    · rw [if_pos ⟨rfl, hSmi⟩]
      rfl
    · rw [if_neg fun hNo => hSmi hNo.2]
      exact Bool.not_eq_false _ |>.mp hSmi
  | bool | int32 | uint32 | float64 => trivial

namespace Machine

open Plan

variable {arguments : List (BitVec 64)} {heap : Heap} {p p' : Plan (.loose arguments heap)}
  {g : Graph} {x : Datum} {anchored : Bool} {r : Graph.Replacement} {fs : List Change}

namespace Plan

/-- What is planned of the links that the next node of a chain hangs on. -/
structure Follows (p : Plan (.loose arguments heap)) (anchored : Bool) (r : Graph.Replacement)
    (x : Datum) : Prop where
  carries : p.Carries r.value x
  control : anchored = true → p.Enters r.control true
  effect : anchored = true → ∃ t, p.Orders r.effect t

theorem Follows.has (h : p.Follows anchored r x) : p.Has r.value := by
  obtain ⟨l, hShows, -⟩ := h.carries.shows
  exact hShows.has

theorem Follows.anchors (h : p.Follows anchored r x) (hGood : p.Good g) :
    p.Anchors (hook anchored r).effect (hook anchored r).control := by
  cases anchored with
  | false =>
    have hNone : ¬(0 : Int) ≤ -1 := by decide
    exact ⟨Iff.rfl, fun hNo => absurd hNo hNone, fun hNo => absurd hNo hNone⟩
  | true =>
    obtain ⟨t, ht⟩ := h.effect rfl
    have hControl := h.control rfl
    exact ⟨iff_of_true (hGood.nonneg ht.has).1 (hGood.nonneg hControl.has).1,
      fun _ => ⟨t, ht⟩, fun _ => hControl⟩

/-- The return of a chain hangs on what is planned, or on the start. -/
theorem Begins.returnNode {c : Setting} {p : Plan c} {K : Knowledge c} (h : p.Begins K)
    (hControl : anchored = true → p.Enters r.control true)
    (hEffect : anchored = true → ∃ t, p.Orders r.effect t) :
    ∃ y z t, returnNode anchored r = .ofArity .ret [r.value, y, z] ∧ p.Orders y t ∧
      p.Enters z true := by
  cases anchored with
  | false => exact ⟨_, _, _, rfl, h.effect, h.control⟩
  | true =>
    obtain ⟨t, ht⟩ := hEffect rfl
    exact ⟨_, _, _, rfl, ht, hControl rfl⟩

/-- A graph whose return is planned gives the planned datum. -/
theorem Good.returnsDatum (h : p.Good g) (hBegins : p.Begins (untouched arguments heap))
    {ret exit : NodeId} (hRet : g.node? ret = some (returnNode anchored r))
    (hExit : g.exit = some exit) (hLast : g.node? exit = some (.collect [ret]))
    (hOut : p.entry ret = none) (hFollows : p.Follows anchored r x) (hCount : p.count ≤ g.size) :
    ∃ v h', run ⟨heap⟩ g arguments = (.ok v, ⟨h'⟩) ∧ heap.Like h' ∧ x.At h' v := by
  obtain ⟨l, hShows, hNow⟩ := hFollows.carries.shows
  obtain ⟨y, z, t, hNode, hEffect, hControl⟩ :=
    hBegins.returnNode hFollows.control hFollows.effect
  rw [hNode] at hRet
  obtain ⟨v, k, s, hRun, hHolds, hOf, hLe, -⟩ :=
    h.returns hBegins rfl hRet hExit hLast hOut hShows hEffect hControl hCount
  refine ⟨v, s.heap, hRun, hHolds.like, ?_⟩
  -- all events are behind the value, so what is known is known of the end
  have hEnd : k = p.time := Nat.le_antisymm hHolds.le (hNow ▸ hLe)
  cases x with
  | word w =>
    obtain rfl := hShows.unique hFollows.carries.1
    exact hOf
  | boxed d =>
    obtain ⟨l', hShows', hFull⟩ := hFollows.carries
    obtain rfl := hShows.unique hShows'
    obtain ⟨K, hK, hRead⟩ := hFull.known
    rw [← hEnd] at hK
    exact ⟨hFull.tagged s v hOf, hRead s v hHolds.like hOf (hHolds.known hK)⟩

/-! ## The changes as they are -/

/-- The start node and the parameter are planned. -/
theorem begins_argument {c : Setting} (K : Knowledge c) (hPlain : ∀ id, c.given id = false)
    (t : ValueType) {a : BitVec 64} (ha : c.arguments = [a]) :
    ∃ p : Plan c, p.Good (Graph.empty.append [.parameter 0 t.mach]) ∧ p.Begins K ∧
      p.Shows 1 ⟨.word (argumentWord c.heap t.mach a), 0⟩ ∧ p.time = 0 ∧ p.count = 2 := by
  obtain ⟨p₀, hStart, hBegins, hZero, hOne⟩ := exists_begins K hPlain
  obtain ⟨p, hGrown, hShows, -, hTime⟩ := hStart.computes (n := .parameter 0 t.mach)
    ⟨.word (argumentWord c.heap t.mach a), 0⟩
    (fun z hz => List.mem_singleton.mp hz ▸ hBegins.control.has)
    (.argument (i := 0) rfl rfl (by rw [ha]; rfl)) (by simp) (.inl (Nat.le_refl 0)) (by
      intro s hs _
      show argumentWord s.heap t.mach a = argumentWord c.heap t.mach a
      unfold argumentWord
      cases t <;> simp [ValueType.mach, hs.toWord])
  refine ⟨p, hGrown.good, hBegins.mono hGrown.le, hShows, hTime.trans hZero, ?_⟩
  have hCount := hGrown.count
  have hSize : ((Build.push (.parameter 0 t.mach)).run Graph.empty).2.size = 2 := rfl
  have hSize' : Graph.empty.size = 1 := rfl
  omega

theorem begins_parameter (t : ValueType) (a : BitVec 64) (heap : Heap) :
    ∃ p : Plan (.loose [a] heap), p.Good (Graph.empty.append [.parameter 0 t.mach]) ∧
      p.Begins (untouched [a] heap) ∧ p.Carries 1 (t.argument heap a) ∧ p.time = 0 ∧ p.count = 2 := by
  obtain ⟨p, hGood, hBegins, hShows, hTime, hCount⟩ :=
    begins_argument (untouched [a] heap) (fun _ => rfl) t rfl
  refine ⟨p, hGood, hBegins, ?_, hTime, hCount⟩
  have hKnown : p.known p.time = some (untouched [a] heap) := by
    rw [hTime]
    exact hBegins.known
  -- A tagged argument that is no small integer is a box, and its content is known from the heap.
  by_cases hBox : t = .tagged ∧ Heap.isSmi (argumentWord heap t.mach a) = false
  · have hArgument : t.argument heap a =
        .boxed (heap.memory (heap.toWord (heap.payload (argumentWord heap t.mach a)))) :=
      if_pos hBox
    rw [hArgument]
    refine ⟨_, hShows, hTime.symm, ?_, untouched [a] heap, hKnown, ?_⟩
    · rintro s w rfl
      exact hBox.2
    · rintro s w hs rfl hMemory
      change s.heap.memory = heap.memory at hMemory
      unfold State.content
      rw [hMemory, hs.toWord, hs.payload]
      rfl
  · have hArgument : t.argument heap a = .word (argumentWord heap t.mach a) := if_neg hBox
    rw [hArgument]
    refine ⟨?_, untouched [a] heap, hKnown⟩
    rw [hTime]
    exact hShows

/-- A chain of changes gives what they make of a datum. -/
theorem Good.changes {t t' : ValueType} (h : p.Good g)
    (hl : heap.layout = .ofWord 32 ∨ heap.layout = .ofWord 64) (ht : t.through fs = some t')
    (hx : t.Admits x) (hTruth : t.isTruth = true → p.time = 0) (hHook : r = hook anchored r)
    (hFollows : p.Follows anchored r x) :
    p.Plans g (Build.changes anchored fs r) fun r' p' =>
      p'.Follows anchored r' (fs.foldl (fun x f => f.on heap x) x) := by
  -- Change after change: each one starts from what the one before leaves.
  induction fs generalizing p g r x t with
  | nil => exact Plans.pure h hFollows
  | cons f fs ih =>
    obtain ⟨rfl, hRest⟩ := ValueType.through_cons.mp ht
    have hAnchors := hFollows.anchors h
    rw [← hHook] at hAnchors
    refine (h.change hl hx hTruth hAnchors hFollows.carries).bind ?_
    rintro id p' g' hGrown ⟨hCarries, hReached, hTruth'⟩
    have hControl : anchored = true → 0 ≤ r.control := by
      intro ha
      exact (h.nonneg (hFollows.control ha).has).1
    refine ih hGrown.good hRest (f.on_admits hl hx) ?_ ?_ ?_
    · intro hIs
      refine hTruth' ?_
      rw [← hIs]
      cases f <;> rfl
    · cases anchored <;> rfl
    · -- Only an anchored change moves the control and the effect.
      cases anchored with
      | false => exact ⟨hCarries, nofun, nofun⟩
      | true =>
        obtain ⟨hEnters, hOrders⟩ := hReached (hControl rfl)
        exact ⟨hCarries, fun _ => hEnters, fun _ => hOrders⟩

end Plan

/-- A chain gives what its changes make of the argument. -/
theorem chain_gives {t t' : ValueType} (hl : heap.layout = .ofWord 32 ∨ heap.layout = .ofWord 64)
    (ht : t.through fs = some t') (anchored : Bool) (a : BitVec 64) :
    ∃ v h', run ⟨heap⟩ (chain t anchored fs) [a] = (.ok v, ⟨h'⟩) ∧ heap.Like h' ∧
      (fs.foldl (fun x f => f.on heap x) (t.argument heap a)).At h' v := by
  obtain ⟨p, hGood, hBegins, hCarries, hTime, hCount⟩ := begins_parameter t a heap
  let r : Graph.Replacement := hook anchored ⟨1, Graph.start, Graph.start⟩
  have hFollows : p.Follows anchored r (t.argument heap a) := by
    cases anchored with
    | false => exact ⟨hCarries, nofun, nofun⟩
    | true => exact ⟨hCarries, fun _ => hBegins.control, fun _ => ⟨0, hBegins.effect⟩⟩
  have hHook : r = hook anchored r := by cases anchored <;> rfl
  obtain ⟨p', hGrown, hFollows'⟩ := hGood.changes hl ht (t.argument_admits heap a)
    (fun _ => hTime) hHook hFollows
  generalize hRun : (Build.changes anchored fs r).run
    (Graph.empty.append [.parameter 0 t.mach]) = b at hGrown hFollows'
  obtain ⟨r', g⟩ := b
  -- Behind the changes stand the return and the exit.
  let ns : List Node := [returnNode anchored r', .collect [(g.size : Int)]]
  have hChain : chain t anchored fs = { g.append ns with exit := some (g.size + 1 : Nat) } :=
    setExit_returning hRun
  have hGood' : p'.Good (chain t anchored fs) := by
    rw [hChain]
    exact ⟨hGrown.good.valid, (hGrown.good.append ns).fits⟩
  have hCount' : p'.count + 2 = p.count + g.size := hGrown.count
  have hAt : ∀ i, (chain t anchored fs).node? (g.size + i : Nat) = ns[i]? := by
    intro i
    rw [hChain]
    show (if ((g.size + i : Nat) : Int) < 0 then none else (g.nodes ++ ns.toArray)[g.size + i]?) = _
    rw [if_neg (Int.not_lt.mpr (Int.natCast_nonneg _)),
      Array.getElem?_append_right (show g.nodes.size ≤ g.size + i from Nat.le_add_right _ _)]
    simp [Graph.size]
  refine hGood'.returnsDatum (hBegins.mono hGrown.le) (hAt 0) ?_ (hAt 1) hGrown.good.fresh hFollows' ?_
  · rw [hChain]
  · rw [hChain]
    show p'.count ≤ (g.nodes ++ ns.toArray).size
    have : g.nodes.size = g.size := rfl
    simp
    omega

end Machine
end ArmBackend
