import ArmBackend.Proofs.Selection.Values
import ArmBackend.Proofs.Uses
import ArmBackend.Selection.Condition
import Mathlib.Data.List.Chain

/-!
# Covering conditions

A comparison with zero takes in the comparisons with zero below it, each consumed by the one above
only, and the value at their end when it can set the flags. Such a node is *taken*: it is neither
marked as used nor visited. A branch on an overflow may take the operation itself, whose value is
then computed at the end of the block; the operation is *fused*.

`Visible site c T F` holds of the nodes whose inputs the instruction of `c` may read, when `T` is
taken and `F` fused: what is fused, else what is taken last, else the node itself, and the operands
folded into the instruction.

## Results

* `CoveredBy.sole` — a node that is covered has no other placed user.
* `coverCompareZero_ensures`, `coverEqual_ensures`, `coverOverflow_ensures`,
  `coverBranch_ensures` — what the rules take, fuse and compute.
-/

namespace ArmBackend.Selection

variable {site : Site} {s : State} {c id u v w x : NodeId} {k : Continuation}
  {T : List NodeId} {F : Option NodeId}

/-- A node that is covered has no other user that is placed. -/
theorem CoveredBy.sole (h : CoveredBy site u v) {w w' : NodeId} {n n' : Node}
    (hn : site.graph.node? w = some n) (hv : v ∈ n.inputs) (hw : (site.schedule.blockOf w).isSome)
    (hn' : site.graph.node? w' = some n') (hv' : v ∈ n'.inputs)
    (hw' : (site.schedule.blockOf w').isSome) : w = w' := by
  obtain ⟨i, hi⟩ := List.mem_iff_getElem?.mp hv
  obtain ⟨j, hj⟩ := List.mem_iff_getElem?.mp hv'
  obtain ⟨e, he⟩ := List.length_eq_one_iff.mp h.2
  have hMem : ∀ {w i n}, site.graph.node? w = some n → n.inputs[i]? = some v →
      (site.schedule.blockOf w).isSome → (⟨w, i⟩ : Use) = e := by
    intro w i n hn hi hw
    have hFilter : (⟨w, i⟩ : Use) ∈ (site.graph.edgesTo v).filter fun u =>
        (site.schedule.blockOf u.user).isSome :=
      List.mem_filter.mpr ⟨Graph.mem_edgesTo.mpr ⟨n, hn, hi⟩, hw⟩
    rw [he] at hFilter
    exact List.mem_singleton.mp hFilter
  exact congrArg Use.user ((hMem hn hi hw).trans (hMem hn' hj hw').symm)

/-- Whether the instruction of `u` may take its input `v`, which nothing else consumes. -/
def Takes (site : Site) (u v : NodeId) : Prop :=
  site.graph.Feeds u v ∧ CoveredBy site u v

/-- The nodes whose inputs the instruction of `c` may read. -/
inductive Visible (site : Site) (c : NodeId) (T : List NodeId) (F : Option NodeId) :
    NodeId → Prop
  | own (hT : T = []) : Visible site c T F c
  | folded {w u : NodeId} {op : Operator} (hw : Visible site c T F w)
      (hu : site.graph.Feeds w u) (hOp : site.graph.HasOp u op) (hFolded : op.isFolded = true) :
      Visible site c T F u
  | taken {w : NodeId} {op : Operator} (hw : T.getLast? = some w) (hOp : site.graph.HasOp w op)
      (hProjection : op ≠ .projection) : Visible site c T F w
  | fused {x : NodeId} (hx : F = some x) : Visible site c T F x

/-- Whether a branch on the flag `v` may emit the operation `x`: it stands in the block, and its value
is not consumed there. -/
structure Fuses (site : Site) (v x : NodeId) : Prop where
  flag : site.graph.Projects v 1 x
  block : site.schedule.blockOf x = some site.block
  overflow : ∃ op, site.graph.HasOp x op ∧ op.hasOverflow = true
  elsewhere : ∀ {p}, site.graph.Projects p 0 x → ∀ {w n}, site.graph.node? w = some n →
    p ∈ n.inputs → site.schedule.blockOf w ≠ some site.block

/-- What a comparison with zero on behalf of `c` takes, fuses and computes beside its result. -/
structure Consumes (site : Site) (c : NodeId) (T : List NodeId) (F : Option NodeId)
    (ds : List NodeId) : Prop where
  chain : (c :: T).IsChain (Takes site)
  /-- What is taken has nothing but its value, and is no join. -/
  taken : ∀ w ∈ T, ∃ op, site.graph.HasOp w op ∧ op.isPure = true ∧ op ≠ .phi
  /-- All but the last of what is taken are comparisons with zero. -/
  inner : ∀ w ∈ T.dropLast, site.graph.HasOp w (.word32 .equal)
  /-- What is computed is taken, and then it is arithmetic on words, or it is fused. -/
  defs : ds.length ≤ 1 ∧ ∀ x ∈ ds, F = some x ∨
    (x ∈ T ∧ ∃ op, op ≠ .equal ∧ site.graph.HasOp x (.word32 op))
  /-- What is fused is computed, and its flag is taken. -/
  fused : ∀ x, F = some x → ds = [x] ∧ ∃ p ∈ T, Fuses site p x

theorem folds_visible : Folds site.graph (Visible site c T F) :=
  fun hw hu _ hOp hFolded => .folded hw hu hOp hFolded

/-! ## Negations -/

/-- From `u` down to `w` through the comparisons with zero in `T`, each taken by the one above. -/
inductive Strips (site : Site) : NodeId → List NodeId → NodeId → Prop
  | done (u : NodeId) : Strips site u [] u
  | step {u v w : NodeId} {T : List NodeId} (hv : Takes site u v)
      (hOp : site.graph.HasOp v (.word32 .equal)) (hRest : Strips site v T w) :
      Strips site u (v :: T) w

theorem stripNegations_ensures {fuel : Nat} (hu : site.graph.Feeds u v) :
    Ensures site s (stripNegations fuel u v k) fun r s' => s' = s ∧
      (∃ T, Strips site u T r.1) ∧ site.graph.Feeds r.1 r.2.1 ∧ r.2.2.use = k.use := by
  induction fuel generalizing u v k with
  | zero => exact (ensures_throw _ _).mpr trivial
  | succ fuel ih =>
    have hDone : Ensures site s (pure (u, v, k)) fun r s' => s' = s ∧
        (∃ T, Strips site u T r.1) ∧ site.graph.Feeds r.1 r.2.1 ∧ r.2.2.use = k.use :=
      (ensures_pure _ _).mpr ⟨rfl, ⟨[], .done u⟩, hu, rfl⟩
    unfold stripNegations
    simp only [ensures_bind]
    refine (canCover_ensures u v).mono ?_
    rintro b _ ⟨rfl, hCovered⟩
    split
    · exact hDone
    · next hb =>
      simp only [Bool.not_eq_true', Bool.not_eq_false] at hb
      simp only [ensures_bind, ensures_read, ensures_lift]
      intro op hOp
      split
      · exact hDone
      · next hEqual =>
        simp only [ensures_bind, ensures_lift]
        intro m hm
        split
        · exact hDone
        · -- The node is an equality with zero that its user alone consumes, so one more is
          -- stripped.
          rw [Decidable.not_not.mp hEqual] at hOp
          refine (ih (Graph.binary_feeds hm).1.1).mono ?_
          rintro r _ ⟨rfl, ⟨T, hT⟩, hFeeds, hUse⟩
          exact ⟨rfl, ⟨v :: T, .step ⟨hu, hCovered hb⟩ (Graph.op_eq_ok.mp hOp) hT⟩, hFeeds, hUse⟩

theorem Strips.taken (h : Strips site c T w) : ∀ y ∈ T, site.graph.HasOp y (.word32 .equal) := by
  induction h with
  | done => simp
  | step _ hOp _ ih =>
    intro y hy
    rcases List.mem_cons.mp hy with rfl | hy
    · exact hOp
    · exact ih y hy

theorem Strips.consumes (h : Strips site c T w) : Consumes site c T none [] := by
  refine ⟨?_, ?_, ?_, ⟨Nat.zero_le _, by simp⟩, by simp⟩
  · induction h with
    | done => exact List.isChain_singleton _
    | step hv _ _ ih => exact List.isChain_cons_cons.mpr ⟨hv, ih⟩
  · intro y hy
    exact ⟨_, h.taken y hy, rfl, nofun⟩
  · intro y hy
    exact h.taken y (List.dropLast_subset T hy)

/-- The lowest node is the first one, or the comparison with zero that is taken last. -/
theorem Strips.last (h : Strips site c T w) : (T = [] ∧ w = c) ∨ T.getLast? = some w := by
  induction h with
  | done => exact .inl ⟨rfl, rfl⟩
  | @step u v w T _ _ _ ih =>
    rcases ih with ⟨rfl, rfl⟩ | hLast
    · exact .inr rfl
    · refine .inr ?_
      rw [List.getLast?_cons, hLast]
      rfl

theorem Strips.visible (h : Strips site c T w) : Visible site c T none w := by
  rcases h.last with ⟨hT, rfl⟩ | hLast
  · exact .own hT
  · exact .taken hLast (h.taken w (List.mem_of_getLast? hLast)) nofun

/-- The value at the end of the negations may be taken too. -/
theorem Strips.consumes_last (h : Strips site c T w) (hv : Takes site w v) {op : Operator}
    (hOp : site.graph.HasOp v op) (hPure : op.isPure = true) (hPhi : op ≠ .phi) {ds : List NodeId}
    (hLength : ds.length ≤ 1) (hDefs : ∀ x ∈ ds, F = some x ∨
      (x = v ∧ ∃ op, op ≠ .equal ∧ site.graph.HasOp v (.word32 op)))
    (hFused : ∀ x, F = some x → ds = [x] ∧ Fuses site v x) :
    Consumes site c (T ++ [v]) F ds := by
  have hLast : v ∈ T ++ [v] := List.mem_append_right _ (List.mem_singleton_self v)
  refine ⟨?_, ?_, ?_, ⟨hLength, ?_⟩, ?_⟩
  · -- The chain of those that were stripped, with the last one behind it.
    induction h with
    | done => exact List.isChain_cons_cons.mpr ⟨hv, List.isChain_singleton _⟩
    | step hFirst _ _ ih =>
      exact List.isChain_cons_cons.mpr ⟨hFirst, ih hv (List.mem_append_right _
        (List.mem_singleton_self v))⟩
  · intro y hy
    rcases List.mem_append.mp hy with hOld | hNew
    · exact h.consumes.taken y hOld
    · rw [List.mem_singleton.mp hNew]
      exact ⟨op, hOp, hPure, hPhi⟩
  · rw [List.dropLast_concat]
    exact h.taken
  · intro y hy
    rcases hDefs y hy with hF | ⟨rfl, hWord⟩
    · exact .inl hF
    · exact .inr ⟨hLast, hWord⟩
  · intro y hy
    obtain ⟨hds, hFuses⟩ := hFused y hy
    exact ⟨hds, v, hLast, hFuses⟩

/-! ## Flags -/

/-- A comparison with zero on behalf of `c` is covered: beside the result that the flags make, only
what is taken or fused is computed. -/
def CoversZero (site : Site) (c : NodeId) (k : Continuation) (s s' : State) : Prop :=
  ∃ T F ds, Consumes site c T F ds ∧ (F.isSome = true → k.isBranch = true) ∧
    Covers site.graph (Visible site c T F) s (ds ++ k.target?.toList) s'

/-- A value that is not taken is tested. -/
theorem Strips.coversZero_test (h : Strips site c T w) (hs : s.Sound) (hSegment : s.segment = [])
    (hv : site.graph.Feeds w v) (hTarget : ∀ id, k.target? = some id → Owns site.graph id) :
    Ensures site s (coverTest v k) fun _ s' => CoversZero site c k s s' := by
  refine (coverTest_ensures (.init hs hSegment) h.visible hv hTarget).mono ?_
  intro _ s' hCovers
  exact ⟨T, none, [], h.consumes, nofun, hCovers⟩

/-- A value that only sets the flags is taken and not computed. -/
theorem Strips.coversZero_taken (h : Strips site c T w) (hv : Takes site w v) {op : Operator}
    (hOp : site.graph.HasOp v op) (hPure : op.isPure = true) (hPhi : op ≠ .phi) {s' : State}
    (hCovers : Covers site.graph (Visible site c (T ++ [v]) none) s k.target?.toList s') :
    CoversZero site c k s s' :=
  ⟨T ++ [v], none, [], h.consumes_last hv hOp hPure hPhi (Nat.zero_le _) nofun nofun, nofun, hCovers⟩

/-- A value that is taken and computed beside the flags. -/
theorem Strips.coversZero_value (h : Strips site c T w) (hv : Takes site w v) {op : Word32Op}
    (hOp : site.graph.HasOp v (.word32 op)) (hEqual : op ≠ .equal) {s' : State}
    (hCovers : Covers site.graph (Visible site c (T ++ [v]) none) s (v :: k.target?.toList) s') :
    CoversZero site c k s s' := by
  refine ⟨T ++ [v], none, [v], ?_, nofun, hCovers⟩
  refine h.consumes_last hv hOp rfl nofun (Nat.le_refl _) ?_ nofun
  intro x hx
  exact .inr ⟨List.mem_singleton.mp hx, op, hEqual, hOp⟩

theorem Owns.of_op {g : Graph} {op : Operator} (hOp : g.HasOp id op) (hFinish : op ≠ .finish)
    (hProjection : op ≠ .projection) (hConstant : op.isConstant = false) : Owns g id :=
  ⟨op, hOp, .of_op hOp hFinish hProjection, hConstant⟩

theorem hasOverflow_int32 {op : Operator} (h : op.hasOverflow = true) : ∃ i, op = .int32 i := by
  unfold Operator.hasOverflow at h
  split at h <;> first | exact ⟨_, rfl⟩ | cases h

theorem Owns.of_overflow {g : Graph} {op : Operator} (hOp : g.HasOp x op)
    (hOverflow : op.hasOverflow = true) : Owns g x := by
  obtain ⟨i, rfl⟩ := hasOverflow_int32 hOverflow
  exact .of_op hOp nofun nofun rfl

/-- The flag of an operation with overflow has a register of its own. -/
theorem Owns.of_projection {g : Graph} {p : NodeId} {index : Int} (h : g.Projects p index x)
    (hIndex : index ≠ 0) : Owns g p := by
  obtain ⟨n, hn, hOp, hInt, -⟩ := h
  refine ⟨.projection, ⟨n, hn, hOp⟩, .own hn (by rw [hOp]; nofun) ?_, rfl⟩
  intro _ hZero
  exact absurd (hInt.symm.trans hZero) hIndex

theorem overflowOps?_hasOverflow {op : Operator} {ops : Opcode × Opcode}
    (h : overflowOps? op = some ops) : op.hasOverflow = true := by
  unfold overflowOps? at h
  split at h <;> first | rfl | cases h

/-- The operation that a branch may emit for its flag. -/
theorem fusedOverflow?_ensures (hProjected : site.graph.OverflowProjected)
    (hOp : site.graph.HasOp v .projection) :
    Ensures site s (fusedOverflow? v k) fun r s' => s' = s ∧
      ∀ x direct reverse, r = some (x, direct, reverse) → k.isBranch = true ∧ Fuses site v x := by
  unfold fusedOverflow?
  simp only [ensures_bind, ensures_read, ensures_lift]
  intro n hn
  have hNone : Ensures site s (pure none) fun r s' => s' = s ∧
      ∀ x (direct reverse : Opcode), r = some (x, direct, reverse) →
        k.isBranch = true ∧ Fuses site v x :=
    (ensures_pure _ _).mpr ⟨rfl, by rintro _ _ _ ⟨⟩⟩
  split
  · exact hNone
  · next hBranch =>
    simp only [Bool.or_eq_true, Bool.not_eq_true', decide_eq_true_eq, not_or, Bool.not_eq_false,
      Decidable.not_not] at hBranch
    simp only [ensures_bind, ensures_lift]
    intro x hx op hxOp
    obtain ⟨m, hm, hInput, -⟩ := Graph.valueIn_eq_ok hx
    cases hn.symm.trans hm
    have hFlag : site.graph.Projects v 1 x := by
      obtain ⟨m, hm, hProjection⟩ := hOp
      cases (Graph.node_eq_ok.mp hn).symm.trans hm
      exact ⟨n, hm, hProjection, hBranch.2, hInput⟩
    have hxOp := Graph.op_eq_ok.mp hxOp
    split
    · simp only [ensures_bind, ensures_throw]
    · split
      · exact hNone
      · next direct reverse hOps =>
        have hOverflow := overflowOps?_hasOverflow hOps
        simp only [ensures_bind, ensures_get]
        split
        · exact hNone
        · next hFree =>
          simp only [Bool.or_eq_true, decide_eq_true_eq, not_or, Decidable.not_not] at hFree
          simp only [ensures_bind, ensures_lift]
          intro value hValue
          -- There is one projection of the value, so what the search finds is that one.
          have hSole : ∀ p, site.graph.Projects p 0 x → value = p :=
            fun p hp => hProjected.findProjection hxOp hOverflow hValue hp
          split
          · next hNeg =>
            refine (ensures_pure _ _).mpr ⟨rfl, ?_⟩
            rintro _ _ _ ⟨⟩
            refine ⟨hBranch.1, hFlag, hFree.2, ⟨op, hxOp, hOverflow⟩, ?_⟩
            intro p hp
            obtain ⟨m, hm, -⟩ := hp.mem_inputs
            exact absurd (Graph.node?_lt hm).1 (by rw [← hSole p hp]; exact Int.not_le.mpr hNeg)
          · simp only [ensures_bind, ensures_lift]
            intro uses hUses
            split
            · exact hNone
            · next hElsewhere =>
              refine (ensures_pure _ _).mpr ⟨rfl, ?_⟩
              rintro _ _ _ ⟨⟩
              refine ⟨hBranch.1, hFlag, hFree.2, ⟨op, hxOp, hOverflow⟩, ?_⟩
              -- A use of the value in this block would have been found among the uses.
              intro p hp w m hm hMem hBlock
              obtain ⟨i, hi⟩ := List.mem_iff_getElem?.mp hMem
              refine hElsewhere (List.any_eq_true.mpr ⟨⟨w, i⟩, ?_, by simpa using hBlock⟩)
              rw [Graph.uses_eq_ok hUses, hSole p hp]
              exact Graph.mem_edgesTo.mpr ⟨m, hm, hi⟩

theorem emitComparison_ensures (hVerify : site.graph.verify = .ok ()) {V : NodeId → Prop}
    {start : State} (h : Progress site.graph V start {} s) (hFolds : Folds site.graph V) (hV : V v)
    {op : Operator} (hOp : site.graph.HasOp v op) {comparison : Comparison}
    (hComparison : comparison? op = some comparison)
    (hTarget : ∀ id, k.target? = some id → Owns site.graph id) :
    Ensures site s (emitComparison comparison v k) fun _ s' =>
      Covers site.graph V start k.target?.toList s' := by
  cases comparison with
  | words cond => exact coverCompare_ensures h hFolds hV hTarget .cmp false
  | doubles cond =>
    have hDouble : ∃ f, op = .float64 f := by
      unfold comparison? at hComparison
      split at hComparison <;> first | exact ⟨_, rfl⟩ | cases hComparison
    obtain ⟨f, rfl⟩ := hDouble
    exact coverDoubleCompare_ensures hVerify h hV hOp hTarget

theorem comparison?_isPure {op : Operator} {comparison : Comparison}
    (h : comparison? op = some comparison) :
    op.isPure = true ∧ op ≠ .phi ∧ op ≠ .projection := by
  unfold comparison? at h
  split at h <;> first | exact ⟨rfl, nofun, nofun⟩ | cases h

theorem testOp?_isPure {op : Operator} {test : Opcode} (h : testOp? op = some test) :
    op.isPure = true ∧ op ≠ .phi ∧ op ≠ .projection := by
  unfold testOp? at h
  split at h <;> first | exact ⟨rfl, nofun, nofun⟩ | cases h

/-- The value at the end of the negations is taken if it can set the flags, and tested if not. -/
theorem coverFlags_ensures (hVerify : site.graph.verify = .ok ())
    (hProjected : site.graph.OverflowProjected) (hs : s.Sound) (hSegment : s.segment = [])
    (h : Strips site c T w) (hv : Takes site w v)
    (hTarget : ∀ id, k.target? = some id → Owns site.graph id) :
    Ensures site s (coverFlags v k) fun _ s' => CoversZero site c k s s' := by
  have hLast : (T ++ [v]).getLast? = some v := List.getLast?_concat
  have hTest := h.coversZero_test hs hSegment hv.1 hTarget
  unfold coverFlags
  simp only [ensures_bind, ensures_read, ensures_lift]
  intro op hOp
  have hOp := Graph.op_eq_ok.mp hOp
  split
  · next comparison hComparison =>
    obtain ⟨hPure, hPhi, hProjection⟩ := comparison?_isPure hComparison
    have hVisible : Visible site c (T ++ [v]) none v := .taken hLast hOp hProjection
    have hOver : ∀ id, (k.overwrite comparison.cond).target? = some id → Owns site.graph id := by
      rw [Continuation.target?_overwrite]
      exact hTarget
    refine (emitComparison_ensures hVerify (.init hs hSegment) folds_visible hVisible hOp
      hComparison hOver).mono ?_
    intro _ s' hCovers
    rw [Continuation.target?_overwrite] at hCovers
    exact h.coversZero_taken hv hOp hPure hPhi hCovers
  · split
    · next test hTestOp =>
      obtain ⟨hPure, hPhi, hProjection⟩ := testOp?_isPure hTestOp
      have hVisible : Visible site c (T ++ [v]) none v := .taken hLast hOp hProjection
      refine (coverCompare_ensures (.init hs hSegment) folds_visible hVisible hTarget _ _).mono ?_
      intro _ s' hCovers
      exact h.coversZero_taken hv hOp hPure hPhi hCovers
    · have hShift : ∀ {word : Word32Op}, op = .word32 word → word ≠ .equal →
          Ensures site s (coverShift v k) fun _ s' => CoversZero site c k s s' := by
        rintro word rfl hEqual
        have hVisible : Visible site c (T ++ [v]) none v := .taken hLast hOp nofun
        refine (coverShift_ensures (.init hs hSegment) hVisible (.of_op hOp nofun nofun rfl)
          hTarget).mono ?_
        intro _ s' hCovers
        exact h.coversZero_value hv hOp hEqual hCovers
      split
      · simp only [ensures_bind]
        refine (fusedOverflow?_ensures hProjected hOp).mono ?_
        rintro r _ ⟨rfl, hr⟩
        split
        · next x direct reverse =>
          -- The branch emits the operation: it is visible, and computed at the end of the block.
          obtain ⟨hBranch, hFuses⟩ := hr x direct reverse rfl
          obtain ⟨xOp, hxOp, hOverflow⟩ := hFuses.overflow
          have hOwns : Owns site.graph x := .of_overflow hxOp hOverflow
          have hVisible : Visible site c (T ++ [v]) (some x) x := .fused rfl
          have hOver : ∀ id, (k.overwrite .vs).target? = some id → Owns site.graph id := by
            rw [Continuation.target?_overwrite]
            exact hTarget
          refine (coverBinary_ensures (.init hs hSegment) folds_visible hVisible hOwns hOver
            direct reverse).mono ?_
          intro _ s' hCovers
          rw [Continuation.target?_overwrite] at hCovers
          refine ⟨T ++ [v], some x, [x], ?_, fun _ => hBranch, hCovers⟩
          refine h.consumes_last hv hOp rfl nofun (Nat.le_refl _) ?_ ?_
          · intro y hy
            rw [List.mem_singleton.mp hy]
            exact .inl rfl
          · rintro y ⟨⟩
            exact ⟨rfl, hFuses⟩
        · exact hTest
      · have hVisible : Visible site c (T ++ [v]) none v := .taken hLast hOp nofun
        refine (coverBinary_ensures (.init hs hSegment) folds_visible hVisible
          (.of_op hOp nofun nofun rfl) hTarget _ _).mono ?_
        intro _ s' hCovers
        exact h.coversZero_value hv hOp nofun hCovers
      · exact hShift rfl nofun
      · exact hShift rfl nofun
      · exact hShift rfl nofun
      · exact hShift rfl nofun
      · exact hTest

theorem CoversZero.of_use {k' : Continuation} {s' : State} (h : CoversZero site c k' s s')
    (hUse : k'.use = k.use) : CoversZero site c k s s' := by
  obtain ⟨T, F, ds, hConsumes, hBranch, hCovers⟩ := h
  have hTarget : k'.target? = k.target? := by
    unfold Continuation.target?
    rw [hUse]
  have hIsBranch : k'.isBranch = k.isBranch := by
    unfold Continuation.isBranch
    rw [hUse]
  rw [hIsBranch] at hBranch
  rw [hTarget] at hCovers
  exact ⟨T, F, ds, hConsumes, hBranch, hCovers⟩

theorem coverCompareZero_ensures (hVerify : site.graph.verify = .ok ())
    (hProjected : site.graph.OverflowProjected) (hs : s.Sound) (hSegment : s.segment = [])
    (hv : site.graph.Feeds c v) (hTarget : ∀ id, k.target? = some id → Owns site.graph id) :
    Ensures site s (coverCompareZero c v k) fun _ s' => CoversZero site c k s s' := by
  unfold coverCompareZero
  simp only [ensures_bind, ensures_read]
  refine (stripNegations_ensures hv).mono ?_
  rintro ⟨w, v', k'⟩ _ ⟨rfl, ⟨T, hStrips⟩, hFeeds, hUse⟩
  have hTarget' : ∀ id, k'.target? = some id → Owns site.graph id := by
    unfold Continuation.target? at hTarget ⊢
    rw [hUse]
    exact hTarget
  -- the value under the negations is covered here, or tested in a register
  refine (canCover_ensures w v').mono ?_
  rintro b _ ⟨rfl, hCovered⟩
  split
  · next hb =>
    refine (coverFlags_ensures hVerify hProjected hs hSegment hStrips ⟨hFeeds, hCovered hb⟩
      hTarget').mono ?_
    intro _ s' hCovers
    exact hCovers.of_use hUse
  · refine (hStrips.coversZero_test hs hSegment hFeeds hTarget').mono ?_
    intro _ s' hCovers
    exact hCovers.of_use hUse

/-! ## Comparisons, overflow and branches -/

theorem coverComparison_ensures (hVerify : site.graph.verify = .ok ()) {V : NodeId → Prop}
    {start : State} (h : Progress site.graph V start {} s) (hFolds : Folds site.graph V)
    (hV : V id) {op : Operator} (hOp : site.graph.HasOp id op) {comparison : Comparison}
    (hComparison : comparison? op = some comparison) (hOwns : Owns site.graph id) :
    Ensures site s (coverComparison id comparison) fun _ s' =>
      Covers site.graph V start [id] s' := by
  refine emitComparison_ensures hVerify h hFolds hV hOp hComparison ?_
  rintro _ ⟨⟩
  exact hOwns

/-- An equality is computed from the flags; one with zero may take what it compares. -/
theorem coverEqual_ensures (hVerify : site.graph.verify = .ok ())
    (hProjected : site.graph.OverflowProjected) (hs : s.Sound) (hSegment : s.segment = [])
    (hOp : site.graph.HasOp c (.word32 .equal)) :
    Ensures site s (coverEqual c) fun _ s' =>
      ∃ T ds, Consumes site c T none ds ∧
        Covers site.graph (Visible site c T none) s (ds ++ [c]) s' := by
  have hTarget : ∀ id, (Continuation.result .eq c).target? = some id → Owns site.graph id := by
    rintro _ ⟨⟩
    exact .of_op hOp nofun nofun rfl
  unfold coverEqual
  simp only [ensures_bind, ensures_read, ensures_lift]
  intro m hm
  split
  · refine (coverCompareZero_ensures hVerify hProjected hs hSegment (Graph.binary_feeds hm).1.1
      hTarget).mono ?_
    rintro _ s' ⟨T, F, ds, hConsumes, hBranch, hCovers⟩
    cases F with
    -- a value is wanted, so nothing is fused with a branch
    | none => exact ⟨T, ds, hConsumes, hCovers⟩
    | some x => cases hBranch rfl
  · have hOwn : Visible site c [] none c := .own rfl
    refine (coverCompare_ensures (.init hs hSegment) folds_visible hOwn hTarget _ _).mono ?_
    intro _ s' hCovers
    exact ⟨[], [], (Strips.done c).consumes, hCovers⟩

/-- An operation with overflow computes its value, and its flag if the flag is placed. -/
theorem coverOverflow_ensures (hProjected : site.graph.OverflowProjected) {V : NodeId → Prop}
    {start : State} (h : Progress site.graph V start {} s) (hFolds : Folds site.graph V)
    (hV : V id) {op : Operator} (hOp : site.graph.HasOp id op) (hOverflow : op.hasOverflow = true)
    (direct reverse : Opcode) :
    Ensures site s (coverOverflow id direct reverse) fun _ s' =>
      ∃ flags : List NodeId, flags.length ≤ 1 ∧ (∀ p ∈ flags, site.graph.Projects p 1 id) ∧
        (∀ p, site.graph.Projects p 1 id → (site.schedule.blockOf p).isSome → p ∈ flags) ∧
        Covers site.graph V start (id :: flags) s' := by
  unfold coverOverflow
  simp only [ensures_bind, ensures_read, ensures_lift]
  intro flag hFlag
  have hSole : ∀ p, site.graph.Projects p 1 id → flag = p :=
    fun p hp => hProjected.findProjection hOp hOverflow hFlag hp
  have hOwns : Owns site.graph id := .of_overflow hOp hOverflow
  split
  · -- The flag has a place, so the rule writes it along with the word.
    next hPlaced =>
    have hProjects : site.graph.Projects flag 1 id := by
      obtain ⟨n, hn, hProjection, hInt, hMem⟩ := (Graph.findProjection_eq_ok hFlag).1 hPlaced.1
      obtain ⟨i, -, hp⟩ := (hProjected id op hOp hOverflow).1 flag n hn hMem
      obtain ⟨m, hm, hmOp, rfl, hmIn⟩ := hp
      rw [hn] at hm
      cases hm
      exact ⟨n, hn, hProjection, hInt, hmIn⟩
    have hTarget : ∀ p, (Continuation.result .vs flag).target? = some p →
        Owns site.graph p := by
      rintro _ ⟨⟩
      exact .of_projection hProjects nofun
    refine (coverBinary_ensures h hFolds hV hOwns hTarget direct reverse).mono ?_
    intro _ s' hCovers
    refine ⟨[flag], Nat.le_refl _, ?_, ?_, hCovers⟩
    · intro p hp
      rw [List.mem_singleton.mp hp]
      exact hProjects
    · intro p hp _
      rw [hSole p hp]
      exact List.mem_singleton_self p
  · -- The flag is not there or has no place, so nothing is left to write.
    next hAbsent =>
    refine (coverBinary_ensures h hFolds hV hOwns (by rintro _ ⟨⟩) direct reverse).mono ?_
    intro _ s' hCovers
    refine ⟨[], Nat.zero_le _, by simp, ?_, hCovers⟩
    intro p hp hPlaced
    refine absurd ⟨?_, ?_⟩ hAbsent
    · obtain ⟨n, hn, -⟩ := hp.mem_inputs
      rw [hSole p hp]
      exact (Graph.node?_lt hn).1
    · rw [hSole p hp]
      exact hPlaced

theorem coverBranch_ensures (hVerify : site.graph.verify = .ok ())
    (hProjected : site.graph.OverflowProjected) (hs : s.Sound) (hSegment : s.segment = [])
    (ifTrue ifFalse : Nat) :
    Ensures site s (coverBranch c ifTrue ifFalse) fun _ s' =>
      ∃ T F ds, Consumes site c T F ds ∧ Covers site.graph (Visible site c T F) s ds s' := by
  unfold coverBranch
  simp only [ensures_bind, ensures_read, ensures_lift]
  intro v hv
  refine (coverCompareZero_ensures hVerify hProjected hs hSegment (Graph.valueIn_feeds hv)
    (by rintro _ ⟨⟩)).mono ?_
  rintro _ s' ⟨T, F, ds, hConsumes, -, hCovers⟩
  refine ⟨T, F, ds, hConsumes, ?_⟩
  simpa [Continuation.branch, Continuation.target?] using hCovers

end ArmBackend.Selection
