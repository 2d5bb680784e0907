import ArmBackend.Proofs.Lowering.Exact
import ArmBackend.Proofs.Lowering.Linear

/-!
# Lowering and the order of accesses

Changes, loads and stores that follow one another keep their order when they are lowered, as long
as no change looks into a box: then the values and the heap are the same to the bit, whatever the
operands are and wherever the stores go. A change that looks into a box is another matter. Its
lowered load is not in the effect chain, so it happens when its value is asked for, and a store
behind it may be first.

## Results

* `Midway.access`, `Midway.lowers` — a link as it stands, and a change that is lowered.
* `lowering_preserves_linear` — linear accesses give the same before and after lowering.
* `lowering_delays_read` — a read of a box that is overtaken.
-/

namespace ArmBackend

theorem Link.act_like (l : Link) (ν : NodeId → BitVec 64) (H : Heap) : H.Like (l.act ν H).1 := by
  cases l with
  | change f x => exact Machine.changeOn_like f (ν x) H
  | load | store => exact ⟨rfl, rfl, rfl⟩

/-- A link is an access of its operands. -/
theorem Link.accesses {c : Machine.Setting} {p : Machine.Plan c} {l : Link} {tip : Tip} :
    p.Accesses (l.node tip) l.operands l.act := by
  cases l with
  | change f x => exact .change rfl rfl
  | load rep type base index => exact .load rfl rfl rfl
  | store rep barrier base index value => exact .store rfl rfl rfl rfl

namespace Machine

open Plan

variable {arguments : List (BitVec 64)} {heap : Heap} {p p' : Plan (.exact arguments heap)}
  {g : Graph} {threaded : Bool} {result : NodeId} {l : Link} {ls : List Link} {pos : Nat} {tip : Tip}
  {ρ : NodeId → NodeId} {ν : NodeId → BitVec 64} {H : Heap} {narrow : List Bool}

/-- Links that were gone through up to one of them. The values so far are `ν`, under the names `ρ`,
and the heap is `H`. -/
structure Midway (p : Plan (.exact arguments heap)) (g : Graph) (threaded : Bool) (result : NodeId)
    (ls : List Link) (pos : Nat) (tip : Tip) (ρ : NodeId → NodeId) (ν : NodeId → BitVec 64)
    (H : Heap) (narrow : List Bool) : Prop where
  laid : p.Laid g (linkNodes threaded (ρ result) (ls.map (·.rename ρ)) pos tip) pos
  begins : p.Begins (exactly arguments heap heap)
  control : p.Enters tip.control true
  effect : p.Orders tip.effect p.time
  like : heap.Like H
  known : p.known p.time = some (exactly arguments heap H)
  -- the links behind the tip show their values, those ahead were not touched
  shows : ∀ i : Nat, 0 < i → i < pos → ∃ a, p.Shows (ρ i) ⟨.word (ν i), a⟩
  fixed : ∀ i : Nat, pos ≤ i → ρ i = i
  inScope : linksScoped narrow result ls = true
  width : narrow.length + 1 = pos
  narrow : ∀ i : Nat, narrow[i]? = some true → IsNarrow (ν (i + 1 : Nat))

namespace Midway

theorem placed (h : Midway p g threaded result ls pos tip ρ ν H narrow) : tip.Placed :=
  ⟨(h.laid.good.nonneg h.effect.has).1, (h.laid.good.nonneg h.control.has).1⟩

theorem isClosed (h : Midway p g threaded result ls pos tip ρ ν H narrow) : g.isClosed = true := by
  obtain ⟨⟨k, hk, hPos, hLe⟩, hOperands⟩ := linksScoped_operands h.inScope
  have hWidth := h.width
  -- an operand was laid before the tip or is still to come
  have hNamed : ∀ i : Nat, 0 < i → i ≤ narrow.length + ls.length →
      p.Has (ρ i) ∨ ∃ j : Nat, ρ i = j ∧ j < pos + (ls.length + 2) := by
    intro i hPos hLe
    by_cases hLt : i < pos
    · obtain ⟨a, ha⟩ := h.shows i hPos hLt
      exact .inl ha.has
    · exact .inr ⟨i, h.fixed i (by omega), by omega⟩
  refine h.laid.isClosed fun n hn z hz => ?_
  rw [length_linkNodes, List.length_map]
  obtain ⟨l, hl, hz⟩ | rfl | rfl | rfl | ⟨i, rfl, hi⟩ := mem_linkNodes h.placed hn hz
  · obtain ⟨l₀, hl₀, rfl⟩ := List.mem_map.mp hl
    rw [Link.operands_rename] at hz
    obtain ⟨x, hx, rfl⟩ := List.mem_map.mp hz
    obtain ⟨i, rfl, hPos, hLt⟩ := hOperands l₀ hl₀ x hx
    exact hNamed i hPos (by omega)
  · rw [hk]
    exact hNamed k hPos hLe
  · exact .inl h.effect.has
  · exact .inl h.control.has
  · rw [List.length_map] at hi
    exact .inr ⟨i, rfl, by omega⟩

theorem operand (h : Midway p g threaded result (l :: ls) pos tip ρ ν H narrow) {x : NodeId}
    (hx : x ∈ l.operands) : ∃ a, p.Shows (ρ x) ⟨.word (ν x), a⟩ := by
  obtain ⟨hl, -⟩ := linksScoped_cons.mp h.inScope
  obtain ⟨i, rfl, hPos, hLe⟩ := Link.isScoped_operands hl hx
  have hWidth := h.width
  exact h.shows i hPos (by omega)

/-- A link does the same under the names that are planned. -/
theorem act_rename (h : Midway p g threaded result (l :: ls) pos tip ρ ν H narrow) :
    (l.rename ρ).act p.word H = l.act ν H := by
  -- the operands were laid before, so the plan knows their words
  have hWord : ∀ x ∈ l.operands, p.word (ρ x) = ν x := by
    intro x hx
    obtain ⟨a, ha⟩ := h.operand hx
    exact ha.word
  cases l with
  | change f x =>
    show changeOn f (p.word (ρ x)) H = changeOn f (ν x) H
    rw [hWord x (by simp [Link.operands])]
  | load rep type base index =>
    show (H, extendLoaded _ (H.load rep (p.word (ρ base) + p.word (ρ index)))) = _
    rw [hWord base (by simp [Link.operands]), hWord index (by simp [Link.operands])]
    rfl
  | store rep barrier base index value =>
    show (H.store (p.word (ρ base) + p.word (ρ index)) (p.word (ρ value)), (0 : BitVec 64)) = _
    rw [hWord base (by simp [Link.operands]), hWord index (by simp [Link.operands]),
      hWord value (by simp [Link.operands])]
    rfl

/-- The values so far and that of a link. -/
theorem shows_next (h : Midway p g threaded result (l :: ls) pos tip ρ ν H narrow) (hLe : p.Le p')
    {σ : NodeId → NodeId} {v : BitVec 64} (hOld : ∀ i : Nat, 0 < i → i < pos → σ i = ρ i)
    (hNew : ∃ a, p'.Shows (σ pos) ⟨.word v, a⟩) (i : Nat) (hPos : 0 < i) (hLt : i < pos + 1) :
    ∃ a, p'.Shows (σ i) ⟨.word (if (i : NodeId) = pos then v else ν i), a⟩ := by
  obtain rfl | hLt := Nat.lt_succ_iff_lt_or_eq.mp hLt |>.symm
  · rw [if_pos rfl]
    exact hNew
  · have hNe : (i : NodeId) ≠ pos := fun hEq => Nat.ne_of_lt hLt (Int.ofNat_inj.mp hEq)
    obtain ⟨a, ha⟩ := h.shows i hPos hLt
    rw [if_neg hNe, hOld i hPos hLt]
    exact ⟨a, ha.mono hLe⟩

/-- Which values so far have no upper half, that of a link included. -/
theorem narrow_next (h : Midway p g threaded result (l :: ls) pos tip ρ ν H narrow) (i : Nat)
    (hi : (narrow ++ [l.isNarrow])[i]? = some true) :
    IsNarrow (if ((i + 1 : Nat) : NodeId) = pos then (l.act ν H).2 else ν (i + 1 : Nat)) := by
  have hWidth := h.width
  -- the last flag is that of the link itself
  by_cases hLast : i = narrow.length
  · subst hLast
    have hl : l.isNarrow = true := by simpa using hi
    rw [if_pos (by rw [hWidth])]
    exact Link.act_isNarrow hl ν H
  · have hLt : i < narrow.length := by
      have := (List.getElem?_eq_some_iff.mp hi).1
      rw [List.length_append, List.length_singleton] at this
      omega
    have hNe : ((i + 1 : Nat) : NodeId) ≠ pos := fun hEq => by
      have := Int.ofNat_inj.mp hEq
      omega
    rw [if_neg hNe]
    rw [List.getElem?_append_left hLt] at hi
    exact h.narrow i hi

/-- A link is evaluated as it stands. -/
theorem access (h : Midway p g threaded result (l :: ls) pos tip ρ ν H narrow) :
    ∃ p' : Plan (.exact arguments heap), Midway p' g threaded result ls (pos + 1)
      (l.next threaded pos tip) ρ (fun x => if x = pos then (l.act ν H).2 else ν x) (l.act ν H).1
      (narrow ++ [l.isNarrow]) := by
  have hTip := h.placed
  have hLaid : p.Laid g ((l.rename ρ).node tip :: linkNodes threaded (ρ result)
      (ls.map (·.rename ρ)) (pos + 1) (l.next threaded pos tip)) pos := by
    have hNext : (l.rename ρ).next threaded pos tip = l.next threaded pos tip := Link.next_rename
    rw [← hNext]
    exact h.laid
  have hOrdered : p.Ordered ((l.rename ρ).node tip) p.time := by
    refine ⟨by cases l <;> rfl, ⟨_, Link.effectIn_node hTip, .inr h.effect⟩, _,
      Link.effectInputs_node hTip, ?_⟩
    simpa using ⟨_, h.effect⟩
  have hShows : ∀ x ∈ (l.rename ρ).operands, ∃ v a, p.Shows x ⟨.word v, a⟩ := by
    intro x hx
    rw [Link.operands_rename] at hx
    obtain ⟨y, hy, rfl⟩ := List.mem_map.mp hx
    exact ⟨_, h.operand hy⟩
  have hArrives : p.Arrives p.count ((l.rename ρ).node tip) true :=
    .through (by cases l <;> rfl) (Link.controlIn_node hTip) hTip.control h.control
  have hAdmits := h.laid.good.admits_access (some true) hLaid.fresh ?_ Link.accesses hShows hOrdered
    (by simpa using hArrives) h.known
  · rw [h.act_rename] at hAdmits
    have hNext := hLaid.take rfl hAdmits
    have hLe : p.Le (p.insert pos
        (p.eventEntry ((l.rename ρ).node tip) (.word (l.act ν H).2) (some true))
        (some (exactly arguments heap (l.act ν H).1))) :=
      le_insert h.laid.good.valid hLaid.fresh
    refine ⟨_, hNext, h.begins.mono hLe, ?_, orders_insert rfl, h.like.trans (l.act_like ν H),
      if_pos ⟨rfl, rfl⟩, ?_, fun i hi => h.fixed i (by omega), (linksScoped_cons.mp h.inScope).2, ?_,
      h.narrow_next⟩
    · -- the control is that of the link or of the chain before it
      show Plan.Enters _ (if _ then (pos : NodeId) else tip.control) true
      split
      · exact enters_insert rfl
      · exact h.control.mono hLe
    · refine h.shows_next hLe (fun _ _ _ => rfl) ?_
      rw [h.fixed pos (Nat.le_refl _)]
      exact ⟨_, shows_insert rfl⟩
    · rw [List.length_append, List.length_singleton, h.width]
  · intro x hx
    rw [Link.inputs_node hTip] at hx
    obtain hx | rfl | rfl : x ∈ (l.rename ρ).operands ∨ x = tip.effect ∨ x = tip.control := by
      simpa using hx
    · obtain ⟨v, a, hv⟩ := hShows x hx
      exact hv.has
    · exact h.effect.has
    · exact h.control.has

/-- What a bit is made of has no upper half. -/
theorem isBit {f : Change} {x : NodeId}
    (h : Midway p g threaded result (.change f x :: ls) pos tip ρ ν H narrow)
    (hf : f = .bitToBool) (hZero : (ν x).setWidth 32 = 0) : ν x = 0 := by
  subst hf
  obtain ⟨hScoped, -⟩ := linksScoped_cons.mp h.inScope
  obtain ⟨i, rfl, hPos, hLe⟩ := Link.isScoped_operands hScoped (x := x) (by simp [Link.operands])
  have hNarrow : narrow[i - 1]?.getD false = true := by
    unfold Link.isScoped at hScoped
    rw [Bool.and_eq_true] at hScoped
    have hIndex : ((i : Int) - 1).toNat = i - 1 := by omega
    rw [← hIndex]
    exact hScoped.2
  rw [List.getElem?_eq_getElem (by omega)] at hNarrow
  have hAt := h.narrow (i - 1) (by
    rw [List.getElem?_eq_getElem (by omega)]
    exact congrArg some hNarrow)
  rw [Nat.sub_add_cancel hPos] at hAt
  exact hAt.eq_zero hZero

/-- A change is lowered. -/
theorem lowers {f : Change} {x : NodeId}
    (h : Midway p g threaded result (.change f x :: ls) pos tip ρ ν H narrow)
    (hl : heap.layout = .ofWord 32 ∨ heap.layout = .ofWord 64)
    (hTrue : heap.toWord heap.trueObject = heap.trueObject)
    (hReads : (Link.change f x).readsNoBox ν = true) :
    ∃ (p' : Plan (.exact arguments heap)) (g' : Graph) (tip' : Tip) (ρ' : NodeId → NodeId),
      Lowering.lowerNode heap.layout g pos = .ok (some g') ∧
      Midway p' g' threaded result ls (pos + 1) tip' ρ'
        (fun y => if y = pos then (changeOn f (ν x) H).2 else ν y) (changeOn f (ν x) H).1
        (narrow ++ [(Link.change f x).isNarrow]) := by
  have hTip := h.placed
  obtain ⟨a, hx⟩ := h.operand (x := x) (by simp [Link.operands])
  have hEntry := Lowering.entry_change h.laid.head (iff_of_true hTip.effect hTip.control)
  simp only [if_pos hTip.effect, if_pos hTip.control, decide_eq_true hTip.control] at hEntry
  have hSmi : f.unboxes = true → Heap.isSmi (ν x) = true := by
    intro hf
    simpa [Link.readsNoBox, hf] using hReads
  obtain ⟨p', g', r, hLower, hLe, hLaid, hShows, hControl, hEffect, hKnown⟩ :=
    h.laid.lowers h.begins.plain rfl hEntry hx.has h.isClosed fun small hSmall =>
      h.laid.good.exactFragment hl hTrue small hSmi (hSmall _ _ hx) h.isBit rfl
        ⟨h.control, fun _ => ⟨hTip.effect, h.effect⟩, fun hNot => by cases hNot⟩ hx h.like h.known
  obtain ⟨b, hShows⟩ := hShows
  let ρ' : NodeId → NodeId := fun y => if ρ y = pos then r.value else ρ y
  have hRest : (linkNodes threaded (ρ result) (ls.map (·.rename ρ)) (pos + 1) ⟨pos, pos⟩).map
      (·.redirect pos r) =
      linkNodes threaded (ρ' result) (ls.map (·.rename ρ')) (pos + 1) ⟨r.effect, r.control⟩ := by
    have hPos : (0 : Int) ≤ pos := Int.natCast_nonneg _
    rw [map_redirect_linkNodes ⟨hPos, hPos⟩ (Nat.lt_succ_self _)
      (hLaid.good.nonneg hShows.has).1 (hLaid.good.nonneg hEffect.has).1
      (hLaid.good.nonneg hControl.has).1, List.map_map]
    simp only [Function.comp_def, Link.rename_rename, Tip.redirect, if_true]
    rfl
  have hAhead : ∀ i : Nat, pos ≤ i → ρ' i = if i = pos then r.value else (i : NodeId) := by
    intro i hi
    show (if ρ i = pos then r.value else ρ i) = _
    simp only [h.fixed i hi, Int.natCast_inj]
  refine ⟨p', g', ⟨r.effect, r.control⟩, ρ', hLower, hRest ▸ hLaid, h.begins.mono hLe, hControl,
    hEffect, h.like.trans (changeOn_like f (ν x) H), hKnown, ?_, ?_, (linksScoped_cons.mp h.inScope).2,
    ?_, h.narrow_next⟩
  · refine h.shows_next hLe ?_ ⟨b, ?_⟩
    · -- what is planned already is not the change
      intro i hPos hLt
      obtain ⟨a, ha⟩ := h.shows i hPos hLt
      refine if_neg fun hEq => ?_
      have hHas := ha.has
      rw [hEq] at hHas
      unfold Plan.Has at hHas
      rw [h.laid.fresh] at hHas
      cases hHas
    · rw [hAhead pos (Nat.le_refl _), if_pos rfl]
      exact hShows
  · intro i hi
    rw [hAhead i (by omega), if_neg (by omega)]
  · rw [List.length_append, List.length_singleton, h.width]

/-- At the end the value and the heap are there. -/
theorem gives (h : Midway p g threaded result [] pos tip ρ ν H narrow) :
    Machine.run ⟨heap⟩ g arguments = (.ok (ν result), ⟨H⟩) := by
  obtain ⟨⟨i, hi, hPos, hLe⟩, -⟩ := linksScoped_operands h.inScope
  subst hi
  have hWidth := h.width
  obtain ⟨a, hShows⟩ := h.shows i hPos (by rw [List.length_nil] at hLe; omega)
  obtain ⟨v, k, s, hRun, hHolds, hv, -, hk⟩ := h.laid.good.returns h.begins rfl h.laid.head
    h.laid.exit_second h.laid.second h.laid.fresh hShows h.effect h.control
    (Nat.le_of_add_right_le h.laid.count)
  have hEnd : k = p.time := Nat.le_antisymm hHolds.le hk
  have hHeap : s.heap = H := hHolds.known (hEnd ▸ h.known)
  obtain rfl : v = ν i := hv
  rw [← hHeap]
  exact hRun

/-- Links that are evaluated as they stand do what they do one after another. -/
theorem evaluates (h : Midway p g threaded result ls pos tip ρ ν H narrow) :
    Machine.run ⟨heap⟩ g arguments =
      (.ok ((runLinks ls pos ν H).1 result), ⟨(runLinks ls pos ν H).2⟩) := by
  induction ls generalizing p pos tip ν H narrow with
  | nil => exact h.gives
  | cons l ls ih =>
    obtain ⟨p', h'⟩ := h.access
    exact ih h'

/-- And so do links that are lowered, one after another. -/
theorem pass (h : Midway p g threaded result ls pos tip ρ ν H narrow)
    (hl : heap.layout = .ofWord 32 ∨ heap.layout = .ofWord 64)
    (hTrue : heap.toWord heap.trueObject = heap.trueObject)
    (hReads : readNoBox ls pos ν H = true) (k : Nat) :
    ∃ g', Lowering.lowerNodes heap.layout (List.range' pos (ls.length + 2)) g k =
        { graph := g', changed := k + ls.countP Link.isChange } ∧
      Machine.run ⟨heap⟩ g' arguments =
        (.ok ((runLinks ls pos ν H).1 result), ⟨(runLinks ls pos ν H).2⟩) := by
  -- Link by link: a change is lowered, an access is passed over with the values it reads.
  induction ls generalizing p g pos tip ρ ν H narrow k with
  | nil =>
    exact ⟨g, h.laid.ends (fun _ hOp => by cases hOp) (fun _ hOp => by cases hOp) k, h.gives⟩
  | cons l ls ih =>
    obtain ⟨hFirst, hRest⟩ : l.readsNoBox ν = true ∧ _ := by
      rw [readNoBox, Bool.and_eq_true] at hReads
      exact hReads
    rw [List.length_cons, Nat.add_right_comm, List.range'_succ, Lowering.lowerNodes]
    by_cases hChange : l.isChange = true
    · obtain ⟨f, x, rfl⟩ : ∃ f x, l = .change f x := by
        cases l with
        | change f x => exact ⟨f, x, rfl⟩
        | load | store => cases hChange
      obtain ⟨p', g', tip', ρ', hLower, h'⟩ := h.lowers hl hTrue hFirst
      obtain ⟨g'', hRun, hGives⟩ := ih h' hRest (k + 1)
      refine ⟨g'', ?_, hGives⟩
      rw [hLower]
      show Lowering.lowerNodes heap.layout (List.range' (pos + 1) (ls.length + 2)) g' (k + 1) = _
      rw [hRun, List.countP_cons_of_pos hChange]
      congr 1
      omega
    · obtain ⟨p', h'⟩ := h.access
      obtain ⟨g', hRun, hGives⟩ := ih h' hRest k
      refine ⟨g', ?_, hGives⟩
      -- An access is no change.
      have hOther : ∀ f, ((l.rename ρ).node tip).op ≠ .change f := by
        cases l with
        | change f x => exact absurd rfl hChange
        | load | store =>
          intro f hOp
          cases hOp
      rw [Lowering.lowerNode_other h.laid.head hOther, List.countP_cons_of_neg hChange]
      exact hRun

end Midway

/-! ## The leaves -/

/-- A leaf computes its word. -/
theorem Leaf.computes {l : Leaf} {v : BitVec 64} (hv : l.word? arguments heap = some v) :
    ∃ f, p.Computes l.node [] f ∧ ∀ h (w : NodeId → BitVec 64), heap.Like h → f h w = v := by
  cases l with
  | parameter index type =>
    obtain ⟨a, ha, rfl⟩ := Option.map_eq_some_iff.mp hv
    refine ⟨_, .argument (i := index) rfl rfl ha, fun h w hLike => ?_⟩
    show argumentWord h type a = argumentWord heap type a
    cases type <;> simp only [argumentWord, hLike.toWord]
  | int32 w =>
    cases hv
    refine ⟨_, .constant rfl rfl, fun h w' _ => ?_⟩
    show (BitVec.ofInt 32 w.toInt).setWidth 64 = w.setWidth 64
    rw [BitVec.ofInt_toInt]
  | int64 w =>
    cases hv
    exact ⟨_, .constant rfl rfl, fun _ _ _ => rfl⟩
  | float64 x =>
    cases hv
    exact ⟨_, .constant rfl rfl, fun _ _ _ => rfl⟩
  -- The two booleans have fixed places on the heap.
  | bool b =>
    cases hv
    cases b with
    | true =>
      have hWord : constantWord? (.heap trueValue) .heap = some fun h => h.trueObject := by
        simp [constantWord?, Node.heap]
      exact ⟨_, .constant rfl hWord, fun _ _ hLike => hLike.trueObject⟩
    | false =>
      have hNe : falseValue ≠ trueValue := by decide
      have hWord : constantWord? (.heap falseValue) .heap = some fun h => h.falseObject := by
        simp [constantWord?, Node.heap, hNe]
      exact ⟨_, .constant rfl hWord, fun _ _ hLike => hLike.falseObject⟩

/-- Leaves are planned one after another. -/
theorem exists_leaves (leaves : List Leaf) (h : p.Good g)
    (hBegins : p.Begins (exactly arguments heap heap)) (hTime : p.time = 0)
    (hCount : p.count = g.size)
    (hWords : ∀ l ∈ leaves, (l.word? arguments heap).isSome) :
    ∃ p' : Plan (.exact arguments heap), p'.Good (g.append (leaves.map Leaf.node)) ∧
      p'.Begins (exactly arguments heap heap) ∧ p'.time = 0 ∧ p'.count = g.size + leaves.length ∧
      p.Le p' ∧ ∀ i v, leaves[i]?.bind (Leaf.word? arguments heap) = some v →
        p'.Shows (g.size + i : Nat) ⟨.word v, 0⟩ := by
  -- Each leaf is planned in the graph of those in front of it.
  induction leaves generalizing p g with
  | nil =>
    have hSame : g.append [] = g := by simp [Graph.append]
    rw [List.map_nil, hSame]
    exact ⟨p, h, hBegins, hTime, hCount, Le.refl p, by simp⟩
  | cons l leaves ih =>
    obtain ⟨v, hv⟩ := Option.isSome_iff_exists.mp (hWords l (.head _))
    obtain ⟨f, hComputes, hf⟩ := Leaf.computes (p := p) hv
    have hInputs : ∀ x ∈ l.node.inputs, p.Has x := by
      intro x hx
      cases l with
      | parameter => exact List.mem_singleton.mp hx ▸ hBegins.control.has
      | _ => cases hx
    obtain ⟨p₁, hGrown, hShows, -, hTime₁⟩ := h.computes ⟨.word v, 0⟩ hInputs hComputes (by simp)
      (.inl (Nat.le_refl 0)) fun s hs _ => hf s.heap s.value hs
    have hGraph : ((Build.push l.node).run g).2 = g.append [l.node] := by
      simp [Build.push, Graph.push, Graph.append, StateT.run]
    have hSize : (g.append [l.node]).size = g.size + 1 := by simp [Graph.append, Graph.size]
    rw [hGraph] at hGrown
    have hCount₁ := hGrown.count
    rw [hSize] at hCount₁
    obtain ⟨p', hGood, hBegins', hTime', hCount', hLe, hRest⟩ := ih hGrown.good
      (hBegins.mono hGrown.le) (hTime₁.trans hTime) (by rw [hSize]; omega)
      fun l' hl' => hWords l' (.tail _ hl')
    rw [Graph.append_append] at hGood
    rw [hSize] at hCount' hRest
    refine ⟨p', hGood, hBegins', hTime', ?_, hGrown.le.trans hLe, ?_⟩
    · rw [hCount', List.length_cons]
      omega
    · intro i w hw
      cases i with
      | zero =>
        obtain rfl : v = w := Option.some.inj (hv.symm.trans hw)
        exact hShows.mono hLe
      | succ i =>
        have hAt := hRest i w (by simpa using hw)
        rwa [Nat.add_assoc, Nat.add_comm 1] at hAt

/-- Linear accesses before they are gone through. -/
theorem midway_linear {c : Linear} (hScoped : c.isScoped = true)
    (hWords : ∀ l ∈ c.leaves, (l.word? arguments heap).isSome) :
    ∃ p : Plan (.exact arguments heap), Midway p c.graph c.threaded c.result c.links
      (c.leaves.length + 1) ⟨Graph.start, Graph.start⟩ id (c.leafValue arguments heap) heap
      (c.leaves.map Leaf.isNarrow) := by
  obtain ⟨p₀, hStart, hBegins₀, hTime₀, hCount₀⟩ :=
    exists_begins (exactly arguments heap heap) fun _ => rfl
  obtain ⟨p, hGood, hBegins, hTime, hCount, -, hLeaves⟩ :=
    exists_leaves c.leaves hStart hBegins₀ hTime₀ hCount₀ hWords
  have hSize : Graph.empty.size = 1 := rfl
  rw [hSize] at hCount hLeaves
  -- The value of a leaf is its word, since all of them have one.
  have hValue : ∀ i : Nat, i < c.leaves.length →
      c.leaves[i]?.bind (Leaf.word? arguments heap) =
        some (c.leafValue arguments heap (i + 1 : Nat)) := by
    intro i hi
    obtain ⟨v, hv⟩ := Option.isSome_iff_exists.mp (hWords _ (List.getElem_mem hi))
    have hIndex : (((i + 1 : Nat) : NodeId) - 1).toNat = i := by
      show (((i + 1 : Nat) : Int) - 1).toNat = i
      omega
    unfold Linear.leafValue
    rw [hIndex, List.getElem?_eq_getElem hi, Option.bind_some, hv]
    rfl
  refine ⟨p, ?_, hBegins, hBegins.control, ?_, Heap.Like.refl _, ?_, ?_, fun _ _ => rfl, hScoped,
    by simp, ?_⟩
  · have hIds : c.links.map (·.rename id) = c.links :=
      (List.map_congr_left fun l _ => by cases l <;> rfl).trans (List.map_id _)
    rw [hIds]
    constructor
    case good =>
      refine ⟨hGood.valid, ?_⟩
      have hFits := (hGood.append (linkNodes c.threaded c.result c.links (c.leaves.length + 1)
        ⟨Graph.start, Graph.start⟩)).fits
      rw [Graph.append_append] at hFits
      exact hFits
    case nodes =>
      refine ⟨{ op := .start } :: c.leaves.map Leaf.node, [],
        by simp [Linear.graph, Graph.append, Graph.empty], by simp, ?_⟩
      intro n hn z hz
      obtain rfl | ⟨l, hl, rfl⟩ : n = { op := .start } ∨ ∃ l ∈ c.leaves, l.node = n := by
        simpa using hn
      · cases hz
      · cases l with
        | parameter => exact List.mem_singleton.mp hz ▸ hBegins.control.has
        | _ => cases hz
    -- Nothing is planned yet of the links.
    case ahead =>
      intro i hLe _
      cases hEntry : p.entry i with
      | none => rfl
      | some e =>
        have hLt : i < (Graph.empty.append (c.leaves.map Leaf.node)).size :=
          Int.ofNat_lt.mp (Graph.node?_lt (hGood.fits _ _ hEntry)).2
        have hLength : (Graph.empty.append (c.leaves.map Leaf.node)).size =
            c.leaves.length + 1 := by
          simp [Graph.append, Graph.size, Graph.empty]
        omega
    case exit =>
      refine ⟨c.leaves.length + c.links.length + 2, rfl, ?_⟩
      show _ = c.leaves.length + 1 + (linkNodes _ _ _ _ _).length
      rw [length_linkNodes]
      omega
    case count =>
      rw [hCount]
      simp [Linear.graph, Graph.append, Graph.size, Graph.empty]
      omega
  · rw [hTime]
    exact hBegins.effect
  · rw [hTime]
    exact hBegins.known
  · intro i hPos hLt
    obtain ⟨j, rfl⟩ : ∃ j, i = j + 1 := ⟨i - 1, by omega⟩
    have hShows := hLeaves j _ (hValue j (by omega))
    rw [Nat.add_comm 1] at hShows
    exact ⟨0, hShows⟩
  · intro i hi
    rw [List.getElem?_map] at hi
    obtain ⟨l, hl, hNarrow⟩ := Option.map_eq_some_iff.mp hi
    have hWord := hValue i (List.getElem?_eq_some_iff.mp hl).1
    rw [hl, Option.bind_some] at hWord
    exact Leaf.word?_isNarrow hNarrow hWord

end Machine

/-! ## Before and after -/

theorem fitsArity_linkNodes {threaded : Bool} {result : NodeId} {ls : List Link} {pos : Nat}
    {tip : Tip} {n : Node} (hn : n ∈ linkNodes threaded result ls pos tip) :
    n.fitsArity = true := by
  induction ls generalizing pos tip with
  | nil =>
    obtain rfl | rfl : n = .ofArity .ret [result, tip.effect, tip.control] ∨
        n = .collect [(pos : Int)] := by
      simpa [linkNodes] using hn
    · rfl
    · rfl
  | cons l ls ih =>
    obtain rfl | hn := List.mem_cons.mp hn
    · cases l with
      | change f x => exact Node.fitsArity_change f x tip.effect tip.control
      | load | store =>
        by_cases hc : 0 ≤ tip.control <;>
          simp only [Link.node, Node.load, Node.store, Node.anchors, hc] <;> rfl
    · exact ih hn

/-- A node of linear accesses is the start, a leaf or a link. -/
theorem Linear.mem_nodes {c : Linear} {n : Node} (hn : n ∈ c.graph.nodes.toList) :
    n = { op := .start } ∨ (∃ l ∈ c.leaves, n = l.node) ∨
      n ∈ linkNodes c.threaded c.result c.links (c.leaves.length + 1) ⟨Graph.start, Graph.start⟩ := by
  simpa [Linear.graph, Graph.append, Graph.empty, eq_comm] using hn

theorem Linear.verify {c : Linear} (hClosed : c.graph.isClosed = true) :
    c.graph.verify = .ok () := by
  refine Graph.verify_of_closed hClosed fun n hn => ?_
  obtain rfl | ⟨l, -, rfl⟩ | hn := Linear.mem_nodes hn
  · rfl
  · cases l <;> rfl
  · exact fitsArity_linkNodes hn

/-- The nodes before the first link are no changes. -/
theorem Linear.node?_leaf {c : Linear} {i : Nat} (hi : i < c.leaves.length + 1) :
    ∃ n, c.graph.node? i = some n ∧ ∀ f, n.op ≠ .change f := by
  cases i with
  | zero =>
    exact ⟨{ op := .start }, by simp [Linear.graph, Graph.append, Graph.empty, Graph.node?],
      fun f hOp => by cases hOp⟩
  | succ i =>
    have hi : i < c.leaves.length := Nat.lt_of_succ_lt_succ hi
    refine ⟨(c.leaves.get ⟨i, hi⟩).node, ?_, ?_⟩
    · have hNonneg : ¬((i + 1 : Nat) : Int) < 0 := Int.not_lt.mpr (Int.natCast_nonneg _)
      show (if ((i + 1 : Nat) : Int) < 0 then none else c.graph.nodes[i + 1]?) = _
      rw [if_neg hNonneg]
      simp [Linear.graph, Graph.append, Graph.empty, List.getElem?_append_left, hi]
    · intro f hOp
      cases hLeaf : c.leaves.get ⟨i, hi⟩ <;> rw [hLeaf] at hOp <;> cases hOp

/-- Linear accesses that are given no box to look into leave the same value and the same heap before
and after they are lowered, and do so as they follow one another. -/
theorem lowering_preserves_linear {word : Int} {m : Machine} (hm : m.Ready word) {c : Linear}
    (hScoped : c.isScoped = true) {arguments : List (BitVec 64)}
    (hWords : ∀ l ∈ c.leaves, (l.word? arguments m.heap).isSome)
    (hReads : readNoBox c.links (c.leaves.length + 1) (c.leafValue arguments m.heap) m.heap = true) :
    (Lowering.run c.graph word).fault = none ∧
      (Lowering.run c.graph word).changed = c.links.countP Link.isChange ∧
      let r := runLinks c.links (c.leaves.length + 1) (c.leafValue arguments m.heap) m.heap
      m.run c.graph arguments = (.ok (r.1 c.result), ⟨r.2⟩) ∧
        m.run (Lowering.run c.graph word).graph arguments = (.ok (r.1 c.result), ⟨r.2⟩) := by
  obtain ⟨p, hMidway⟩ := Machine.midway_linear hScoped hWords
  -- both runs come from one invariant: before the pass it evaluates, and the pass keeps it
  obtain ⟨g', hPass, hAfter⟩ := hMidway.pass hm.layouts hm.trueObject hReads 0
  have hBefore := hMidway.evaluates
  have hSize : c.graph.size = (c.leaves.length + 1) + (c.links.length + 2) := by
    simp [Linear.graph, Graph.append, Graph.size, Graph.empty, length_linkNodes]
    omega
  have hRun : Lowering.run c.graph word =
      { graph := g', changed := 0 + c.links.countP Link.isChange } := by
    rw [Lowering.run_skip (Linear.verify hMidway.isClosed) hm.width hSize
      fun i hi => Linear.node?_leaf hi, ← hm.layout]
    exact hPass
  rw [hRun]
  exact ⟨rfl, Nat.zero_add _, hBefore, hAfter⟩

/-- A small integer is read and boxed, the box is overwritten and read back. -/
def overwrittenBox : Linear where
  leaves := [.parameter 0 .tagged, .int32 3, .float64 ⟨0x4004000000000000⟩]
  links := [.change .taggedToFloat64 1, .change .float64ToTagged 4,
    .store .float64 .none 5 2 3, .load .float64 .float64 5 2]
  threaded := true
  result := 7

theorem lowering_preserves_linear_overwritten :
    let m : Machine := ⟨.new (.ofWord 32)⟩
    let c := overwrittenBox
    m.Ready 32 ∧ c.isScoped = true ∧ (∀ l ∈ c.leaves, (l.word? [6] m.heap).isSome) ∧
      readNoBox c.links (c.leaves.length + 1) (c.leafValue [6] m.heap) m.heap = true ∧
      (Lowering.run c.graph 32).fault = none ∧
      (Lowering.run c.graph 32).changed = c.links.countP Link.isChange ∧
      let r := runLinks c.links (c.leaves.length + 1) (c.leafValue [6] m.heap) m.heap
      r.1 c.result = 0x4004000000000000 ∧
        m.run c.graph [6] = (.ok (r.1 c.result), ⟨r.2⟩) ∧
        m.run (Lowering.run c.graph 32).graph [6] = (.ok (r.1 c.result), ⟨r.2⟩) := by
  have hm : Machine.Ready ⟨.new (.ofWord 32)⟩ 32 := Machine.ready_new rfl
  have hScoped : overwrittenBox.isScoped = true := by decide
  have hWords : ∀ l ∈ overwrittenBox.leaves, (l.word? [6] (.new (.ofWord 32))).isSome := by decide
  have hReads : readNoBox overwrittenBox.links (overwrittenBox.leaves.length + 1)
      (overwrittenBox.leafValue [6] (.new (.ofWord 32))) (.new (.ofWord 32)) = true := by decide
  obtain ⟨hFault, hChanged, hBefore, hAfter⟩ := lowering_preserves_linear hm hScoped hWords hReads
  exact ⟨hm, hScoped, hWords, hReads, hFault, hChanged, by decide, hBefore, hAfter⟩

/-- A box is read and overwritten, in this order. -/
def delayedRead : Linear where
  leaves := [.parameter 0 .tagged, .int32 3, .float64 ⟨0x4004000000000000⟩]
  links := [.change .taggedToFloat64 1, .store .float64 .none 1 2 3]
  threaded := false
  result := 4

/-- The lowered read happens when its value is asked for, and the store behind it is first: 1.5 is
in the box and 2.5 is read. -/
theorem lowering_delays_read :
    let m : Machine := ⟨((Heap.new (.ofWord 32)).box ⟨0x3ff8000000000000⟩).1⟩
    delayedRead.isScoped = true ∧ delayedRead.graph.verify.isOk = true ∧
      (Lowering.run delayedRead.graph 32).fault = none ∧
      (m.run delayedRead.graph [0x1011]).1.toOption = some 0x3ff8000000000000 ∧
      (m.run (Lowering.run delayedRead.graph 32).graph [0x1011]).1.toOption =
        some 0x4004000000000000 := by
  decide +kernel

end ArmBackend
