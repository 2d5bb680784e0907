import ArmBackend.Pipeline
import ArmBackend.Proofs.Settles
import ArmBackend.Proofs.Verified

/-!
# Graphs that the pipeline turns down

The pipeline looks at the anchors of every representation change before it verifies the graph. A
graph that does not verify is turned down as malformed by one of the two checks, and no node of it
is touched. The first check is the weak point: it follows edges that only the second one would have
rejected. `Lowering.Legible` says of a node that the first check finds what it reads there.

## Results

* `Lowering.checkAnchored_settles` — the check of the anchors fails with a malformed change, or at a
  change that is not legible.
* `Pipeline.schedule_rejects` — a graph that does not verify is turned down and left as it is.
* `Pipeline.schedule_trips_lostOperand` — a change whose operand is no node breaks the pipeline off.
-/

namespace ArmBackend

namespace Lowering

variable {g : Graph} {l : Layout} {id : NodeId} {n : Node}

/-! ## The check of the anchors -/

/-- Whether the check of the anchors finds what it reads of a node: the control input of a change
and, where a change from integers has an operand, the node that it names. -/
structure Legible (g : Graph) (n : Node) : Prop where
  control : n.op.isChange = true → ∃ control, n.controlIn = .ok control
  operand : n.op = .change .int32ToTagged → n.valueCount ≠ 0 →
    ∃ x m, n.input 0 = .ok x ∧ g.node? x = some m

/-- How the check of the anchors may fail: a change is malformed, or one is not legible. -/
def Stops (g : Graph) (f : Fault) : Prop :=
  f.isMalformed = true ∨ (f = .outOfRange ∧ ∃ id n, g.node? id = some n ∧ ¬Legible g n)

theorem isSmallConstant_settles (hn : g.node? id = some n) (hOp : n.op = .change .int32ToTagged)
    (hCount : n.valueCount ≠ 0) :
    Settles (Stops g) (do isSmallConstant l g (← n.input 0)) fun _ => True := by
  -- A legible change names its operand, so a look-up that fails shows that this one is not.
  cases hx : n.input 0 with
  | error f =>
    refine .inr ⟨Node.input_fault hx, id, n, hn, fun hLegible => ?_⟩
    obtain ⟨x, m, hx', -⟩ := hLegible.operand hOp hCount
    cases hx.symm.trans hx'
  | ok x =>
    show Settles (Stops g) (isSmallConstant l g x) _
    unfold isSmallConstant Graph.int32
    cases hm : g.node x with
    | error f =>
      refine .inr ⟨Graph.node_fault hm, id, n, hn, fun hLegible => ?_⟩
      obtain ⟨x', m, hx', hm'⟩ := hLegible.operand hOp hCount
      obtain rfl : x = x' := Except.ok.inj (hx.symm.trans hx')
      cases hm.symm.trans (Graph.node_eq_ok.mpr hm')
    | ok m => exact trivial

/-- Only a change can branch. -/
theorem branches_settles (hn : g.node? id = some n) :
    Settles (Stops g) (branches l g id) fun b => b = true → n.op.isChange = true := by
  unfold branches
  rw [Graph.node_eq_ok.mpr hn, ok_bind]
  split
  · next hOp => exact fun _ => by rw [hOp]; rfl
  · next hOp => exact fun _ => by rw [hOp]; rfl
  · next hOp => exact fun _ => by rw [hOp]; rfl
  · next hOp => exact fun _ => by rw [hOp]; rfl
  · next hOp => exact fun _ => by rw [hOp]; rfl
  · next hOp =>
    split
    · exact nofun
    · next hCount =>
      rw [← bind_assoc]
      refine (isSmallConstant_settles hn hOp hCount).bind fun small _ => ?_
      exact fun _ => by rw [hOp]; rfl
  · exact nofun

/-- The check of the anchors fails with a malformed change, or at a change that is not legible. -/
theorem checkAnchored_settles {word : Int} (hWord : isWordWidth word = true) :
    Settles (Stops g) (checkAnchored g word) fun _ => True := by
  unfold checkAnchored layoutFor
  rw [if_pos hWord, ok_bind]
  refine (Settles.forM (Q := fun _ => True) ?_).mono fun _ _ => trivial
  rintro ⟨n, i⟩ hMem
  have hn : g.node? i = some n := Graph.mem_zipIdx.mp hMem
  refine (branches_settles hn).bind fun b hChange => ?_
  cases b with
  | false => exact trivial
  | true =>
    -- a change whose control cannot be read is one the verifier refuses
    cases hControl : n.controlIn with
    | error f =>
      refine .inr ⟨Node.controlIn_fault hControl, i, n, hn, fun hLegible => ?_⟩
      obtain ⟨control, hOk⟩ := hLegible.control (hChange rfl)
      cases hControl.symm.trans hOk
    | ok control =>
      show Settles (Stops g) (if control < 0 then throw (.malformed i n.op .unanchoredBranch)
        else pure ()) _
      split
      · exact .inl rfl
      · exact trivial

end Lowering

namespace Pipeline

variable {c : Config} {g : Graph}

/-! ## Graphs that do not verify -/

/-- A graph that does not verify is turned down as malformed and left as it is, unless the check of
the anchors comes across a change that it cannot read. -/
theorem schedule_rejects (hWord : isWordWidth c.word = true) (hRejected : g.verify ≠ .ok ()) :
    (schedule c g).graph = g ∧ ∃ f, (schedule c g).result = .error f ∧
      (f.isMalformed = true ∨
        (f = .outOfRange ∧ ∃ id n, g.node? id = some n ∧ ¬Lowering.Legible g n)) := by
  have hConfig : c.validate = .ok () := if_pos hWord
  have hChecked := Lowering.checkAnchored_settles (g := g) hWord
  unfold schedule
  rw [hConfig]
  cases hCheck : Lowering.checkAnchored g c.word with
  | error f =>
    rw [hCheck] at hChecked
    refine ⟨rfl, f.within "lower", rfl, ?_⟩
    obtain hMalformed | ⟨rfl, hIllegible⟩ := hChecked
    · exact .inl (by rw [Fault.isMalformed_within, hMalformed])
    · exact .inr ⟨rfl, hIllegible⟩
  | ok _ =>
    -- The anchors are in order, so the graph comes to its verification unchanged.
    cases hVerify : g.verify with
    | ok _ => exact absurd hVerify hRejected
    | error f =>
      have hRun : Lowering.run g c.word =
          { graph := g, changed := 0, fault := some (f.within "verify") } := by
        unfold Lowering.run
        rw [hVerify]
        rfl
      rw [hRun]
      refine ⟨rfl, (f.within "verify").within "lower", rfl, .inl ?_⟩
      rw [Fault.isMalformed_within, Fault.isMalformed_within, Graph.verify_fault hVerify]

/-- A sum of an unboxed number and of something that is no node. -/
def strayAddend : Graph where
  nodes := #[{ op := .start }, .parameter 0 .tagged, .change (.change .taggedToFloat64) 1 0 0,
    .ofArity (.float64 .add) [2, 99], .ofArity .ret [3, 2, 2], .collect [4]]
  exit := some 5

/-- The stray edge does not concern the anchors, so verification gets to see it. -/
theorem schedule_rejects_strayAddend : isWordWidth 32 = true ∧ strayAddend.verify ≠ .ok () ∧
    (schedule {} strayAddend).graph = strayAddend ∧
    ∃ f, (schedule {} strayAddend).result = .error f ∧ f.isMalformed = true := by
  have hRejected : strayAddend.verify ≠ .ok () := nofun
  obtain ⟨hGraph, f, hFault, hMalformed | ⟨-, id, n, hn, hIllegible⟩⟩ :=
    schedule_rejects (c := {}) (g := strayAddend) rfl hRejected
  · exact ⟨rfl, hRejected, hGraph, f, hFault, hMalformed⟩
  · -- The only change has its control input, and it does not change an integer.
    have hAll : ∀ m ∈ strayAddend.nodes.toList, m.op ≠ .change .int32ToTagged ∧
        (m.op.isChange = true → m.controlIn.toOption = some 0) := by decide +kernel
    obtain ⟨i, -, hi⟩ := Graph.node?_eq_some.mp hn
    obtain ⟨hOther, hControl⟩ := hAll n (Array.mem_toList_iff.mpr (Array.mem_of_getElem? hi))
    have hLegible := toOption_eq_some.mp ∘ hControl
    exact absurd ⟨fun hIs => ⟨0, hLegible hIs⟩, fun hIs => absurd hIs hOther⟩ hIllegible

/-- A change of something that is no node. -/
def lostOperand : Graph where
  nodes := #[{ op := .start }, .change (.change .int32ToTagged) 99 0 0, .ofArity .ret [1, 1, 1],
    .collect [2]]
  exit := some 3

/-- Verification tells what is wrong with the graph, but the check of the anchors looks at the
operand first. -/
theorem schedule_trips_lostOperand :
    lostOperand.verify = .error (.invalidGraph (.inputRange 1 (.change .int32ToTagged) 99)) ∧
    ∀ word ∈ [32, 64], ∀ features,
      (schedule { word, features } lostOperand).result = .error .outOfRange := by
  refine ⟨rfl, fun word hWord features => ?_⟩
  rcases List.mem_cons.mp hWord with rfl | hWord
  · rfl
  · obtain rfl := List.mem_singleton.mp hWord
    rfl

end Pipeline
end ArmBackend
