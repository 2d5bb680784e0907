import ArmBackend.Proofs.Lowering.Chains

/-!
# Lowered chains

The pass goes through a chain from its start. Halfway, what is behind it is dead, the fragments
stand at the end of the graph and the rest of the chain hangs on the last of them. One round moves
on by one change, and at the end the return hangs on the fragment of the last change.

## Results

* `Plan.Pauses.lowers`, `Plan.Pauses.returns` — one round of the pass and the end of a run, for any
  plan.
* `Halfway.step`, `Halfway.run` — one round of the pass, and all of them.
* `lowering_preserves_chain` — a chain gives the same before and after it is lowered.
-/

namespace ArmBackend

variable {anchored : Bool} {fs : List Change} {pos : Nat} {r : Graph.Replacement}

/-! ## The nodes that are left -/

/-- The nodes of a chain refer to what it hangs on, to each other or to the start. -/
theorem mem_links {n : Node} {x : NodeId} (hn : n ∈ links anchored fs pos (hook anchored r))
    (hx : x ∈ n.inputs) :
    x = r.value ∨ (anchored = true ∧ (x = r.effect ∨ x = r.control)) ∨ x = Graph.start ∨
      ∃ i : Nat, x = i ∧ pos ≤ i ∧ i ≤ pos + fs.length := by
  -- Each change takes what the one before it leads on to.
  induction fs generalizing pos r with
  | nil =>
    obtain rfl | rfl : n = returnNode anchored (hook anchored r) ∨ n = .collect [(pos : Int)] := by
      simpa [links] using hn
    · cases anchored with
      | true =>
        have hx : x = r.value ∨ x = r.effect ∨ x = r.control := by
          simpa [returnNode, hook, Node.ofArity] using hx
        obtain rfl | rfl | rfl := hx
        · exact .inl rfl
        · exact .inr (.inl ⟨rfl, .inl rfl⟩)
        · exact .inr (.inl ⟨rfl, .inr rfl⟩)
      | false =>
        have hx : x = r.value ∨ x = Graph.start := by
          simpa [returnNode, hook, Node.ofArity] using hx
        obtain rfl | rfl := hx
        · exact .inl rfl
        · exact .inr (.inr (.inl rfl))
    · have hx : x = (pos : Int) := by simpa [Node.collect] using hx
      exact .inr (.inr (.inr ⟨pos, hx, Nat.le_refl _, Nat.le_add_right _ _⟩))
  | cons f fs ih =>
    obtain rfl | hn := List.mem_cons.mp hn
    · obtain rfl | ⟨he, rfl⟩ | ⟨hc, rfl⟩ := Machine.mem_change_inputs hx
      · cases anchored <;> exact .inl rfl
      · cases anchored with
        | true => exact .inr (.inl ⟨rfl, .inl rfl⟩)
        | false => exact absurd he (show ¬(0 : Int) ≤ -1 by decide)
      · cases anchored with
        | true => exact .inr (.inl ⟨rfl, .inr rfl⟩)
        | false => exact absurd hc (show ¬(0 : Int) ≤ -1 by decide)
    · have hHere : ∃ i : Nat, ((pos : Nat) : NodeId) = i ∧ pos ≤ i ∧ i ≤ pos + (f :: fs).length :=
        ⟨pos, rfl, Nat.le_refl _, Nat.le_add_right _ _⟩
      obtain rfl | ⟨-, rfl | rfl⟩ | rfl | ⟨i, rfl, hLe, hLt⟩ := ih hn
      · exact .inr (.inr (.inr hHere))
      · exact .inr (.inr (.inr hHere))
      · exact .inr (.inr (.inr hHere))
      · exact .inr (.inr (.inl rfl))
      · refine .inr (.inr (.inr ⟨i, rfl, by omega, ?_⟩))
        rw [List.length_cons]
        omega

/-- Redirecting the uses of the node that a chain hangs on. -/
theorem map_redirect_links (fs : List Change) (hPos : 0 < pos) (hValue : 0 ≤ r.value)
    (hAnchors : anchored = true → 0 ≤ r.effect ∧ 0 ≤ r.control) :
    (links anchored fs (pos + 1) (hook anchored ⟨pos, pos, pos⟩)).map (·.redirect pos r) =
      links anchored fs (pos + 1) (hook anchored r) := by
  have hStart : Graph.start ≠ (pos : NodeId) := by
    intro hEq
    have : (0 : Int) = pos := hEq
    omega
  have hNext : ((pos + 1 : Nat) : NodeId) ≠ pos := by
    intro hEq
    have : ((pos + 1 : Nat) : Int) = pos := hEq
    omega
  have hNonneg : (0 : Int) ≤ pos := Int.natCast_nonneg _
  cases fs with
  | nil =>
    show [(returnNode anchored _).redirect pos r, (Node.collect _).redirect pos r] =
      [returnNode anchored (hook anchored r), _]
    have hReturn : (returnNode anchored (hook anchored ⟨pos, pos, pos⟩)).redirect pos r =
        returnNode anchored (hook anchored r) := by
      cases anchored with
      | true =>
        obtain ⟨he, hc⟩ := hAnchors rfl
        simp [returnNode, hook, Node.redirect, Node.ofArity, Operator.arity?, Node.edgeKind,
          Graph.Replacement.target, hValue, he, hc]
      | false =>
        simp [returnNode, hook, Node.redirect, Node.ofArity, Operator.arity?, Node.edgeKind,
          Graph.Replacement.target, hValue, hStart]
    have hCollect : (Node.collect [((pos + 1 : Nat) : NodeId)]).redirect pos r =
        .collect [((pos + 1 : Nat) : NodeId)] := by
      refine Node.redirect_of_notMem fun hMem => ?_
      exact hNext (List.mem_singleton.mp hMem).symm
    rw [hReturn, hCollect]
  | cons f fs =>
    show (Node.change (.change f) _ _ _).redirect pos r ::
      (links anchored fs (pos + 1 + 1) _).map _ = Node.change (.change f) _ _ _ :: _
    congr 1
    · cases anchored with
      | true =>
        obtain ⟨he, hc⟩ := hAnchors rfl
        simp [hook, Node.redirect, Node.change, Node.anchors, Node.edgeKind,
          Graph.Replacement.target, hValue, he, hc, hNonneg]
      | false =>
        simp [hook, Node.redirect, Node.change, Node.anchors, Node.edgeKind,
          Graph.Replacement.target, hValue]
    · -- the nodes behind refer to the next node at the earliest
      refine Node.map_redirect_of_notMem fun n hn hMem => ?_
      obtain hx | ⟨-, hx | hx⟩ | hx | ⟨i, hx, hLe, -⟩ := mem_links hn hMem
      · exact hNext hx.symm
      · exact hNext hx.symm
      · exact hNext hx.symm
      · exact hStart hx.symm
      · have : (pos : Int) = i := hx
        omega

/-! ## Halfway -/

namespace Machine

open Plan Lowering

namespace Plan

variable {c : Setting} {p : Plan c} {g : Graph} {K : Knowledge c} {f : Change}

/-- A chain that is lowered up to a change, with a plan of what was done, whatever it gives. -/
structure Pauses (p : Plan c) (g : Graph) (K : Knowledge c) (anchored : Bool) (fs : List Change)
    (pos : Nat) (r : Graph.Replacement) : Prop where
  laid : p.Laid g (links anchored fs pos (hook anchored r)) pos
  begins : p.Begins K
  value : p.Has r.value
  control : anchored = true → p.Enters r.control true
  effect : anchored = true → ∃ t, p.Orders r.effect t
  behind : 0 < pos

namespace Pauses

theorem isClosed (h : p.Pauses g K anchored fs pos r) : g.isClosed = true := by
  refine h.laid.isClosed fun n hn z hz => ?_
  obtain rfl | ⟨ha, rfl | rfl⟩ | rfl | ⟨i, rfl, -, hLe⟩ := mem_links hn hz
  · exact .inl h.value
  · obtain ⟨t, ht⟩ := h.effect ha
    exact .inl ht.has
  · exact .inl (h.control ha).has
  · exact .inl h.begins.control.has
  · refine .inr ⟨i, rfl, ?_⟩
    rw [length_links]
    omega

/-- Where the fragment of the next change starts. -/
theorem starts (h : p.Pauses g K anchored (f :: fs) pos r) :
    ∃ e : Lowering.Entry, Lowering.entry g pos = .ok e ∧ e.value = r.value ∧
      e.anchored = anchored ∧ ∀ t, (anchored = true → p.Orders r.effect t) → p.Starts e t := by
  have hControl : anchored = true → 0 ≤ r.control := fun ha =>
    (h.laid.good.nonneg (h.control ha).has).1
  have hEffect : anchored = true → 0 ≤ r.effect := by
    intro ha
    obtain ⟨t, ht⟩ := h.effect ha
    exact (h.laid.good.nonneg ht.has).1
  cases anchored with
  -- unanchored, the fragment starts at the start node and without an effect
  | false =>
    exact ⟨_, entry_change h.laid.head Iff.rfl, rfl, rfl, fun t _ =>
      ⟨h.begins.control, nofun, fun _ => show (-1 : Int) < 0 by decide⟩⟩
  | true =>
    have hEntry := entry_change h.laid.head (iff_of_true (hEffect rfl) (hControl rfl))
    simp only [hook, if_true, if_pos (hControl rfl), if_pos (hEffect rfl),
      decide_eq_true (hControl rfl)] at hEntry
    exact ⟨_, hEntry, rfl, rfl, fun t ht =>
      ⟨h.control rfl, fun _ => ⟨hEffect rfl, ht rfl⟩, nofun⟩⟩

/-- One round of the pass, at a change whose fragment is planned. -/
theorem lowers {l : Layout} {e : Lowering.Entry} {Q : Graph.Replacement → Plan c → Prop}
    (h : p.Pauses g K anchored (f :: fs) pos r) (hEntry : Lowering.entry g pos = .ok e)
    (hValue : e.value = r.value) (hAnchored : e.anchored = anchored)
    (hPlans : ∀ small : Bool, (∀ v a, p.Shows e.value ⟨.word v, a⟩ → small = true →
      l.isSmi (v.setWidth 32).toInt = true) →
      p.Plans g (Lowering.fragment l f small e) fun r p' =>
        p'.Has r.value ∧ (∃ t, p'.Exits e r t) ∧ Q r p') :
    ∃ (p' : Plan c) (g' : Graph) (r' : Graph.Replacement),
      lowerNode l g pos = .ok (some g') ∧ p'.Pauses g' K anchored fs (pos + 1) r' ∧ Q r' p' := by
  obtain ⟨p', g', r', hLower, hLe, hLaid, hHas, ⟨t, hExits⟩, hQ⟩ :=
    h.laid.lowers h.begins.plain rfl hEntry (hValue ▸ h.value) h.isClosed hPlans
  have hControl : anchored = true → p'.Enters r'.control true := fun ha =>
    (hExits (hAnchored.trans ha)).1
  have hEffect : anchored = true → ∃ t, p'.Orders r'.effect t := fun ha =>
    ⟨t, (hExits (hAnchored.trans ha)).2⟩
  refine ⟨p', g', r', hLower,
    ⟨?_, h.begins.mono hLe, hHas, hControl, hEffect, Nat.succ_pos _⟩, hQ⟩
  -- redirecting the rest of the chain replaces its root by the fragment's result
  have hNonneg := (hLaid.good.nonneg hHas).1
  rw [map_redirect_links fs h.behind hNonneg ?_] at hLaid
  · exact hLaid
  · intro ha
    obtain ⟨t, ht⟩ := hEffect ha
    exact ⟨(hLaid.good.nonneg ht.has).1, (hLaid.good.nonneg (hControl ha).has).1⟩

/-- A chain that is lowered to its end gives what is planned. -/
theorem returns {l : Label} (h : p.Pauses g K anchored [] pos r)
    (hK : K.Holds { heap := c.heap }) (hShows : p.Shows r.value l) :
    ∃ v k s, Machine.run ⟨c.heap⟩ g c.arguments = (.ok v, ⟨s.heap⟩) ∧
      p.Holds (fun _ => False) k s ∧ l.meaning.Of s v ∧ l.stamp ≤ k := by
  obtain ⟨y, z, t, hNode, hEffect, hControl⟩ := h.begins.returnNode h.control h.effect
  have hRet : g.node? pos = some (.ofArity .ret [r.value, y, z]) := by
    rw [← hNode, ← returnNode_hook]
    exact h.laid.head
  obtain ⟨v, k, s, hRun, hHolds, hOf, hLe, -⟩ :=
    h.laid.good.returns h.begins hK hRet h.laid.exit_second h.laid.second h.laid.fresh hShows
      hEffect hControl (Nat.le_of_add_right_le h.laid.count)
  exact ⟨v, k, s, hRun, hHolds, hOf, hLe⟩

end Pauses

/-- A chain of which the start and the parameter are planned. -/
theorem Good.pauses_chain {t : ValueType} (anchored : Bool) (fs : List Change)
    (hGood : p.Good (Graph.empty.append [.parameter 0 t.mach])) (hBegins : p.Begins K)
    (hHas : p.Has 1) (hCount : p.count = 2) :
    p.Pauses (chain t anchored fs) K anchored fs 2 ⟨1, Graph.start, Graph.start⟩ := by
  refine ⟨?_, hBegins, hHas, fun _ => hBegins.control, fun _ => ⟨0, hBegins.effect⟩, by decide⟩
  rw [chain_eq]
  constructor
  case good => exact ⟨hGood.valid, (hGood.append _).fits⟩
  case nodes =>
    refine ⟨[{ op := .start }, .parameter 0 t.mach], [], by simp [Graph.append, Graph.empty], rfl, ?_⟩
    intro n hn z hz
    obtain rfl | rfl : n = { op := .start } ∨ n = .parameter 0 t.mach := by simpa using hn
    · cases hz
    · obtain rfl := List.mem_singleton.mp hz
      exact hBegins.control.has
  -- Nothing is planned yet of the changes.
  case ahead =>
    intro i hLe _
    cases hEntry : p.entry i with
    | none => rfl
    | some e =>
      have hLt : i < 2 := Int.ofNat_lt.mp (Graph.node?_lt (hGood.fits _ _ hEntry)).2
      omega
  case exit =>
    refine ⟨fs.length + 3, rfl, ?_⟩
    rw [length_links]
    omega
  case count =>
    rw [hCount]
    simp [Graph.append, Graph.size, Graph.empty]
    omega

end Plan

variable {a : BitVec 64} {heap : Heap} {p : Plan (.loose [a] heap)} {g : Graph} {x : Datum}
  {f : Change} {t t' : ValueType}

/-- A chain that is lowered up to a change, with a plan for what was done. -/
structure Halfway (p : Plan (.loose [a] heap)) (g : Graph) (anchored : Bool) (fs : List Change)
    (pos : Nat) (r : Graph.Replacement) (x : Datum) : Prop where
  laid : p.Laid g (links anchored fs pos (hook anchored r)) pos
  begins : p.Begins (untouched [a] heap)
  follows : p.Follows anchored r x
  behind : 0 < pos

namespace Halfway

theorem pauses (h : Halfway p g anchored fs pos r x) :
    p.Pauses g (untouched [a] heap) anchored fs pos r :=
  ⟨h.laid, h.begins, h.follows.has, h.follows.control, h.follows.effect, h.behind⟩

/-- One round of the pass. -/
theorem step (h : Halfway p g anchored (f :: fs) pos r x)
    (hl : heap.layout = .ofWord 32 ∨ heap.layout = .ofWord 64)
    (hTrue : heap.toWord heap.trueObject = heap.trueObject) (hx : f.source.Admits x)
    (hTruth : f.source.isTruth = true → p.time = 0) :
    ∃ (p' : Plan (.loose [a] heap)) (g' : Graph) (r' : Graph.Replacement),
      lowerNode heap.layout g pos = .ok (some g') ∧
        Halfway p' g' anchored fs (pos + 1) r' (f.on heap x) ∧
        (f.target.isTruth = true → p'.time = 0) := by
  obtain ⟨e, hEntry, hValue, hAnchored, hStarts⟩ := h.pauses.starts
  obtain ⟨t, ht⟩ : ∃ t, anchored = true → p.Orders r.effect t := by
    cases anchored with
    | false => exact ⟨0, nofun⟩
    | true =>
      obtain ⟨t, ht⟩ := h.follows.effect rfl
      exact ⟨t, fun _ => ht⟩
  have hCarries : p.Carries e.value x := hValue ▸ h.follows.carries
  -- The plan of the fragment, whether the constant is small or not.
  have hPlans : ∀ small : Bool, (∀ v a, p.Shows e.value ⟨.word v, a⟩ → small = true →
      heap.layout.isSmi (v.setWidth 32).toInt = true) →
      p.Plans g (Lowering.fragment heap.layout f small e) fun r p' =>
        p'.Has r.value ∧ (∃ t, p'.Exits e r t) ∧ p'.Carries r.value (f.on heap x) ∧
          (f.source.isTruth = true → p'.time = 0) := by
    intro small hSmall
    refine (h.laid.good.fragment hl hTrue small hx hTruth
      (fun v hv => hSmall v _ (hv ▸ hCarries).1) (hStarts t ht) hCarries).mono ?_
    rintro r p' g' - ⟨hCarries, hExits, hTruth⟩
    obtain ⟨l, hShows, -⟩ := hCarries.shows
    exact ⟨hShows.has, hExits, hCarries, hTruth⟩
  obtain ⟨p', g', r', hLower, hPauses, hCarries', hTruth'⟩ :=
    h.pauses.lowers hEntry hValue hAnchored hPlans
  refine ⟨p', g', r', hLower, ⟨hPauses.laid, hPauses.begins,
    ⟨hCarries', hPauses.control, hPauses.effect⟩, hPauses.behind⟩, fun hIs => hTruth' ?_⟩
  rw [← hIs]
  cases f <;> rfl

/-- The whole pass. -/
theorem run (h : Halfway p g anchored fs pos r x)
    (hl : heap.layout = .ofWord 32 ∨ heap.layout = .ofWord 64)
    (hTrue : heap.toWord heap.trueObject = heap.trueObject) (ht : t.through fs = some t')
    (hx : t.Admits x) (hTruth : t.isTruth = true → p.time = 0) (k : Nat) :
    ∃ (p' : Plan (.loose [a] heap)) (g' : Graph) (pos' : Nat) (r' : Graph.Replacement),
      lowerNodes heap.layout (List.range' pos (fs.length + 2)) g k =
        { graph := g', changed := k + fs.length } ∧
      Halfway p' g' anchored [] pos' r' (fs.foldl (fun x f => f.on heap x) x) := by
  induction fs generalizing p g pos r x t k with
  | nil =>
    exact ⟨p, g, pos, r, h.laid.ends nofun nofun k, h⟩
  | cons f fs ih =>
    obtain ⟨rfl, hRest⟩ := ValueType.through_cons.mp ht
    -- one change is lowered, and the datum it gives is what the next one takes
    obtain ⟨p₁, g₁, r₁, hLower, h₁, hTruth₁⟩ := h.step hl hTrue hx hTruth
    obtain ⟨p', g', pos', r', hRun, h'⟩ := ih h₁ hRest (f.on_admits hl hx) hTruth₁ (k + 1)
    refine ⟨p', g', pos', r', ?_, h'⟩
    rw [List.length_cons, Nat.add_right_comm, List.range'_succ, lowerNodes, hLower]
    show lowerNodes heap.layout (List.range' (pos + 1) (fs.length + 2)) g₁ (k + 1) = _
    rw [hRun]
    congr 1
    omega

theorem gives (h : Halfway p g anchored [] pos r x) :
    ∃ v h', Machine.run ⟨heap⟩ g [a] = (.ok v, ⟨h'⟩) ∧ heap.Like h' ∧ x.At h' v := by
  have hRet : g.node? pos = some (returnNode anchored r) := by
    rw [← returnNode_hook]
    exact h.laid.head
  exact h.laid.good.returnsDatum h.begins hRet h.laid.exit_second h.laid.second h.laid.fresh
    h.follows (Nat.le_of_add_right_le h.laid.count)

end Halfway

/-- A chain before it is lowered. -/
theorem halfway_chain (t : ValueType) (anchored : Bool) (fs : List Change) (a : BitVec 64)
    (heap : Heap) :
    ∃ p : Plan (.loose [a] heap), p.time = 0 ∧
      Halfway p (chain t anchored fs) anchored fs 2 ⟨1, Graph.start, Graph.start⟩
        (t.argument heap a) := by
  obtain ⟨p, hGood, hBegins, hCarries, hTime, hCount⟩ := begins_parameter t a heap
  obtain ⟨l, hShows, -⟩ := hCarries.shows
  have hPauses := hGood.pauses_chain anchored fs hBegins hShows.has hCount
  exact ⟨p, hTime, hPauses.laid, hBegins, ⟨hCarries, hPauses.control, hPauses.effect⟩, by decide⟩

end Machine

/-! ## Verification -/

theorem mem_links_shape {n : Node} (hn : n ∈ links anchored fs pos r) :
    (∃ f x effect control, n = .change (.change f) x effect control) ∨
      (∃ r, n = returnNode anchored r) ∨ ∃ x, n = .collect [x] := by
  induction fs generalizing pos r with
  | nil =>
    obtain rfl | rfl : n = returnNode anchored r ∨ n = .collect [(pos : Int)] := by
      simpa [links] using hn
    · exact .inr (.inl ⟨r, rfl⟩)
    · exact .inr (.inr ⟨_, rfl⟩)
  | cons f fs ih =>
    obtain rfl | hn := List.mem_cons.mp hn
    · exact .inl ⟨f, _, _, _, rfl⟩
    · exact ih hn

theorem verify_chain (t : ValueType) (anchored : Bool) (fs : List Change) :
    (chain t anchored fs).verify = .ok () := by
  obtain ⟨p, -, hHalfway⟩ := Machine.halfway_chain t anchored fs 0 (.new (.ofWord 32))
  refine Graph.verify_of_closed hHalfway.pauses.isClosed fun n hn => ?_
  have hShape : n = { op := .start } ∨ n = .parameter 0 t.mach ∨
      n ∈ links anchored fs 2 (hook anchored ⟨1, Graph.start, Graph.start⟩) := by
    rw [chain_eq] at hn
    simpa [Graph.append, Graph.empty] using hn
  obtain rfl | rfl | hn := hShape
  · rfl
  · rfl
  · obtain ⟨f, x, effect, control, rfl⟩ | ⟨r, rfl⟩ | ⟨x, rfl⟩ := mem_links_shape hn
    · exact Node.fitsArity_change f x effect control
    · rfl
    · rfl

/-! ## Before and after -/

/-- Whether a value in one heap and a value in another are the same to the program: the same bits,
and for tagged values the same kind and the same number. -/
def ValueType.Same (t : ValueType) (h₁ : Heap) (v₁ : BitVec 64) (h₂ : Heap) (v₂ : BitVec 64) :
    Prop :=
  match t with
  | .tagged => Heap.isSmi v₁ = Heap.isSmi v₂ ∧ (h₁.number v₁).bits = (h₂.number v₂).bits
  | _ => v₁ = v₂

theorem ValueType.through_admits {t t' : ValueType} {h : Heap} {x : Datum}
    (hl : h.layout = .ofWord 32 ∨ h.layout = .ofWord 64) (ht : t.through fs = some t')
    (hx : t.Admits x) : t'.Admits (fs.foldl (fun x f => f.on h x) x) := by
  induction fs generalizing t x with
  | nil =>
    cases ht
    exact hx
  | cons f fs ih =>
    obtain ⟨rfl, hRest⟩ := through_cons.mp ht
    exact ih hRest (f.on_admits hl hx)

theorem Datum.At.same {t : ValueType} {h₁ h₂ : Heap} {v₁ v₂ : BitVec 64} {x : Datum}
    (hx : t.Admits x) (hLayout : h₁.layout = h₂.layout) (hv₁ : x.At h₁ v₁) (hv₂ : x.At h₂ v₂) :
    t.Same h₁ v₁ h₂ v₂ := by
  cases x with
  | word w =>
    obtain rfl : v₁ = w := hv₁
    obtain rfl : v₂ = v₁ := hv₂
    cases t with
    -- a word that is admitted as tagged is a small integer
    | tagged =>
      have hSmi : Heap.isSmi v₂ = true := hx
      refine ⟨rfl, ?_⟩
      unfold Heap.number Heap.untag
      rw [if_pos hSmi, if_pos hSmi, hLayout]
    | bit | bool | int32 | uint32 | float64 => rfl
  | boxed d =>
    obtain rfl := hx.tagged
    -- boxes are compared by the number they hold: their addresses may differ
    have hNumber : ∀ {h : Heap} {v : BitVec 64}, (Datum.boxed d).At h v → (h.number v).bits = d := by
      rintro h v ⟨hSmi, hRead⟩
      unfold Heap.number
      rw [if_neg (by rw [hSmi]; decide)]
      exact hRead
    exact ⟨hv₁.1.trans hv₂.1.symm, (hNumber hv₁).trans (hNumber hv₂).symm⟩

/-- The pass has nothing to do before the first change. -/
theorem run_chain {word : Int} (t : ValueType) (anchored : Bool) (fs : List Change)
    (hWord : word = 32 ∨ word = 64) :
    Lowering.run (chain t anchored fs) word =
      Lowering.lowerNodes (.ofWord word) (List.range' 2 (fs.length + 2)) (chain t anchored fs) 0 := by
  have hSize : (chain t anchored fs).size = 2 + (fs.length + 2) := by
    rw [chain_eq]
    simp [Graph.append, Graph.empty, Graph.size, length_links]
    omega
  refine Lowering.run_skip (verify_chain t anchored fs) hWord hSize fun i hi => ?_
  have hNode : ∀ {n : Node}, (Graph.empty.append [.parameter 0 t.mach]).node? i = some n →
      (chain t anchored fs).node? i = some n := by
    intro n hn
    rw [chain_eq]
    exact Graph.node?_append hn
  obtain rfl | rfl : i = 0 ∨ i = 1 := by omega
  · exact ⟨_, hNode rfl, fun f hOp => by cases hOp⟩
  · exact ⟨_, hNode rfl, fun f hOp => by cases hOp⟩

/-- A chain of changes gives the same before and after it is lowered. -/
theorem lowering_preserves_chain {word : Int} {m : Machine} (hm : m.Ready word) {t t' : ValueType}
    {fs : List Change} (ht : t.through fs = some t') (anchored : Bool) (a : BitVec 64) :
    (Lowering.run (chain t anchored fs) word).fault = none ∧
      (Lowering.run (chain t anchored fs) word).changed = fs.length ∧
      ∃ v₁ m₁ v₂ m₂, m.run (chain t anchored fs) [a] = (.ok v₁, m₁) ∧
        m.run (Lowering.run (chain t anchored fs) word).graph [a] = (.ok v₂, m₂) ∧
        t'.Same m₁.heap v₁ m₂.heap v₂ := by
  have hl := hm.layouts
  have hx := t.argument_admits m.heap a
  obtain ⟨p, hTime, hHalfway⟩ := Machine.halfway_chain t anchored fs a m.heap
  obtain ⟨p', g', pos', r', hRun, hEnd⟩ := hHalfway.run hl hm.trueObject ht hx (fun _ => hTime) 0
  have hLowered : Lowering.run (chain t anchored fs) word =
      { graph := g', changed := 0 + fs.length } := by
    rw [run_chain t anchored fs hm.width, ← hm.layout]
    exact hRun
  -- both runs give the same datum, each on a heap of its own
  obtain ⟨v₁, h₁, hRun₁, hLike₁, hAt₁⟩ := Machine.chain_gives hl ht anchored a
  obtain ⟨v₂, h₂, hRun₂, hLike₂, hAt₂⟩ := hEnd.gives
  rw [hLowered]
  refine ⟨rfl, Nat.zero_add _, v₁, ⟨h₁⟩, v₂, ⟨h₂⟩, hRun₁, hRun₂, ?_⟩
  exact Datum.At.same (ValueType.through_admits hl ht hx)
    (hLike₁.layout.trans hLike₂.layout.symm) hAt₁ hAt₂

/-- An argument that is a box is read and boxed anew. -/
theorem lowering_preserves_chain_reboxed :
    let m : Machine := ⟨((Heap.new (.ofWord 32)).box ⟨0x3ff8000000000000⟩).1⟩
    let fs : List Change := [.taggedToFloat64, .float64ToTagged]
    m.Ready 32 ∧ ValueType.tagged.through fs = some .tagged ∧
      (Lowering.run (chain .tagged false fs) 32).fault = none ∧
      (Lowering.run (chain .tagged false fs) 32).changed = fs.length ∧
      ∃ v₁ m₁ v₂ m₂, m.run (chain .tagged false fs) [0x1011] = (.ok v₁, m₁) ∧
        m.run (Lowering.run (chain .tagged false fs) 32).graph [0x1011] = (.ok v₂, m₂) ∧
        ValueType.tagged.Same m₁.heap v₁ m₂.heap v₂ := by
  have hNew : Machine.Ready ⟨.new (.ofWord 32)⟩ 32 := Machine.ready_new rfl
  have hm := hNew.box ⟨0x3ff8000000000000⟩
  exact ⟨hm, rfl, lowering_preserves_chain hm rfl false 0x1011⟩

end ArmBackend
