import ArmBackend.Proofs.Evaluation.Plan
import ArmBackend.Proofs.Verified
import Mathlib.Logic.Relation
import Mathlib.Tactic.ByContra

/-!
# Chains of effects

A node that works on the heap does so behind those that its effect inputs lead back to. The chain
goes through every effect input of a node, at a join through the one that is taken, and ends at the
nodes where effects start.

Which input a join takes and what has worked on the heap is known of a run only in part while it is
under way. `Graph.Ran` says, relative to what is known, that the effects up to a node have run.

## Results

* `Graph.Taken.unique` — a join takes one input only.
* `Graph.Ran.mono` — effects that have run stay so when more is known.
* `Graph.Ran.reaches` — behind effects that have run every access is in the journal.
* `Graph.effectIn_of_access` — a node that works on the heap has one effect input at most.
-/

namespace ArmBackend

/-- Whether a chain of effects starts at an operator. -/
def Operator.startsEffects : Operator → Bool
  | .start | .valueEffect | .controlEffect => true
  | _ => false

/-- A chain of effects does not start at a node that works on the heap. -/
theorem Operator.isAccess_of_startsEffects {op : Operator} (h : op.startsEffects = true) :
    op.isAccess = false := by
  cases op <;> first | rfl | cases h

namespace Graph

variable {g : Graph} {reached reached' : NodeId → Option Bool} {journal journal' : List NodeId}
  {id e u u' : NodeId} {n : Node}

/-- Whether a node works on the heap. -/
def IsAccess (g : Graph) (id : NodeId) : Prop :=
  ∃ n, g.node? id = some n ∧ n.op.isAccess = true

/-- Whether a node may allocate: it is a call or a change. -/
def mayAllocate (g : Graph) (id : NodeId) : Bool :=
  (g.node? id).any fun n => n.op = .call || n.op.isChange

/-- Whether `u` is the input that is taken at a join: it belongs to the first input of the merge
that is reached. -/
def Taken (g : Graph) (reached : NodeId → Option Bool) (n : Node) (u : NodeId) : Prop :=
  ∃ (merge : NodeId) (m : Node) (k : Nat) (c : NodeId), n.controlIn = .ok merge ∧
    g.node? merge = some m ∧ m.inputs[k]? = some c ∧ reached c = some true ∧
    (∀ j < k, ∀ x, m.inputs[j]? = some x → reached x = some false) ∧ n.input k = .ok u

/-- One step back along the effects: to the effect inputs of a node, at a join to the one that is
taken. -/
inductive EffectStep (g : Graph) (reached : NodeId → Option Bool) : NodeId → NodeId → Prop
  | join {e u : NodeId} {n : Node} (hn : g.node? e = some n) (hOp : n.op = .effectPhi)
      (hTaken : g.Taken reached n u) : EffectStep g reached e u
  | through {e u : NodeId} {n : Node} {l : List NodeId} (hn : g.node? e = some n)
      (hJoin : n.op ≠ .effectPhi) (hStart : n.op.startsEffects = false)
      (hInputs : n.effectInputs = .ok l) (hu : u ∈ l) : EffectStep g reached e u

/-- Whether the effects up to and including a node have run. -/
inductive Ran (g : Graph) (reached : NodeId → Option Bool) (journal : List NodeId) : NodeId → Prop
  | start {e : NodeId} {n : Node} (hn : g.node? e = some n) (hOp : n.op.startsEffects = true) :
      Ran g reached journal e
  | join {e u : NodeId} {n : Node} (hn : g.node? e = some n) (hOp : n.op = .effectPhi)
      (hTaken : g.Taken reached n u) (hu : Ran g reached journal u) : Ran g reached journal e
  | through {e : NodeId} {n : Node} {l : List NodeId} (hn : g.node? e = some n)
      (hJoin : n.op ≠ .effectPhi) (hInputs : n.effectInputs = .ok l)
      (hRan : ∀ u ∈ l, Ran g reached journal u)
      (hAccess : n.op.isAccess = true → e ∈ journal) : Ran g reached journal e

/-- Whether the effects that come in to a node have run. -/
def InputsRan (g : Graph) (reached : NodeId → Option Bool) (journal : List NodeId) (id : NodeId) :
    Prop :=
  ∀ n l, g.node? id = some n → n.effectInputs = .ok l → ∀ u ∈ l, g.Ran reached journal u

theorem Taken.mono (h : g.Taken reached n u)
    (hReached : ∀ {x b}, reached x = some b → reached' x = some b) : g.Taken reached' n u := by
  obtain ⟨merge, m, k, c, hMerge, hm, hc, hTrue, hFalse, hu⟩ := h
  exact ⟨merge, m, k, c, hMerge, hm, hc, hReached hTrue,
    fun j hj x hx => hReached (hFalse j hj x hx), hu⟩

/-- A join takes one input only. -/
theorem Taken.unique (h : g.Taken reached n u) (h' : g.Taken reached n u') : u = u' := by
  obtain ⟨merge, m, k, c, hMerge, hm, hc, hTrue, hFalse, hu⟩ := h
  obtain ⟨merge', m', k', c', hMerge', hm', hc', hTrue', hFalse', hu'⟩ := h'
  obtain rfl := Except.ok.inj (hMerge.symm.trans hMerge')
  obtain rfl := Option.some.inj (hm.symm.trans hm')
  -- What is reached in front of the other one would have been taken there too.
  rcases Nat.lt_trichotomy k k' with hLt | rfl | hLt
  · have hNot := hFalse' k hLt c hc
    rw [hTrue] at hNot
    cases hNot
  · exact Except.ok.inj (hu.symm.trans hu')
  · have hNot := hFalse k' hLt c' hc'
    rw [hTrue'] at hNot
    cases hNot

theorem Ran.mono (h : g.Ran reached journal e)
    (hReached : ∀ {x b}, reached x = some b → reached' x = some b)
    (hJournal : journal ⊆ journal') : g.Ran reached' journal' e := by
  induction h with
  | start hn hOp => exact .start hn hOp
  | join hn hOp hTaken _ ih => exact .join hn hOp (hTaken.mono hReached) ih
  | through hn hJoin hInputs _ hAccess ih =>
    exact .through hn hJoin hInputs ih fun hIs => hJournal (hAccess hIs)

theorem InputsRan.mono (h : g.InputsRan reached journal id)
    (hReached : ∀ {x b}, reached x = some b → reached' x = some b)
    (hJournal : journal ⊆ journal') : g.InputsRan reached' journal' id :=
  fun n l hn hl u hu => (h n l hn hl u hu).mono hReached hJournal

/-- What comes before effects that have run has run as well. -/
theorem Ran.step (h : g.Ran reached journal e) (hStep : g.EffectStep reached e u) :
    g.Ran reached journal u := by
  -- The step and the way in which the effect has run are of the same kind, by the operator.
  cases hStep with
  | join hn hOp hTaken =>
    cases h with
    | start hn' hOp' =>
      obtain rfl := Option.some.inj (hn.symm.trans hn')
      rw [hOp] at hOp'
      cases hOp'
    | join hn' _ hTaken' hu =>
      obtain rfl := Option.some.inj (hn.symm.trans hn')
      rw [hTaken.unique hTaken']
      exact hu
    | through hn' hJoin =>
      obtain rfl := Option.some.inj (hn.symm.trans hn')
      exact absurd hOp hJoin
  | through hn hJoin hStart hInputs hu =>
    cases h with
    | start hn' hOp' =>
      obtain rfl := Option.some.inj (hn.symm.trans hn')
      rw [hStart] at hOp'
      cases hOp'
    | join hn' hOp' =>
      obtain rfl := Option.some.inj (hn.symm.trans hn')
      exact absurd hOp' hJoin
    | through hn' _ hInputs' hRan =>
      obtain rfl := Option.some.inj (hn.symm.trans hn')
      obtain rfl := Except.ok.inj (hInputs.symm.trans hInputs')
      exact hRan _ hu

/-- Behind effects that have run every access is in the journal. -/
theorem Ran.reaches (h : g.Ran reached journal e)
    (hSteps : Relation.ReflTransGen (g.EffectStep reached) e u) (hAccess : g.IsAccess u) :
    u ∈ journal := by
  -- Along the steps, for what comes before effects that have run has run as well.
  induction hSteps using Relation.ReflTransGen.head_induction_on with
  | refl =>
    obtain ⟨n, hn, hIs⟩ := hAccess
    cases h with
    | start hn' hOp =>
      obtain rfl := Option.some.inj (hn.symm.trans hn')
      rw [Operator.isAccess_of_startsEffects hOp] at hIs
      cases hIs
    | join hn' hOp =>
      obtain rfl := Option.some.inj (hn.symm.trans hn')
      rw [hOp] at hIs
      cases hIs
    | through hn' _ _ _ hIn =>
      obtain rfl := Option.some.inj (hn.symm.trans hn')
      exact hIn hIs
  | head hStep _ ih => exact ih (h.step hStep)

/-- A node that works on the heap has one effect input at most. -/
theorem effectCount_of_access (hVerify : g.verify = .ok ()) (hn : g.node? id = some n)
    (hAccess : n.op.isAccess = true) : n.effectCount ≤ 1 := by
  have hNone := violation?_eq_none hVerify hn
  obtain ⟨arity, hArity, -, -, hEffect, -⟩ := arity_of_verify hVerify hn
  by_cases hChange : n.op.isChange = true
  · -- For changes the operator table leaves it open, and verification asks for it apart.
    unfold violation? at hNone
    rw [hArity] at hNone
    dsimp only at hNone
    by_contra hMany
    have hAnchors : n.op.isChange = true ∧ (1 < n.effectCount ∨ 1 < n.controlCount) :=
      ⟨hChange, .inl (Int.not_le.mp hMany)⟩
    rw [if_pos hAnchors] at hNone
    repeat' split at hNone
    all_goals cases hNone
  · have hOne : arity.effect = some 1 := by
      cases hOp : n.op <;> rw [hOp] at hAccess hArity hChange <;> cases hAccess
      all_goals first
        | exact absurd rfl hChange
        | (cases hArity; rfl)
    rw [hOne] at hEffect
    have hCount := Arity.eq_of_admits hEffect
    omega

/-- The effect inputs of such a node are the one that it asks for. -/
theorem effectIn_of_access (hVerify : g.verify = .ok ()) (hn : g.node? id = some n)
    (hAccess : n.op.isAccess = true) {l : List NodeId} (hl : n.effectInputs = .ok l) (hu : u ∈ l) :
    n.effectIn = .ok u := by
  have hFew := effectCount_of_access hVerify hn hAccess
  unfold Node.effectInputs Node.inputsBetween at hl
  split at hl
  · next hRange =>
    cases hl
    obtain ⟨j, hj⟩ := List.mem_iff_getElem?.mp hu
    rw [List.getElem?_drop, List.getElem?_take] at hj
    split at hj
    · next hLt =>
      -- There is no other effect input than the first.
      obtain ⟨rfl, hOne⟩ : j = 0 ∧ n.effectCount ≠ 0 := by omega
      unfold Node.effectIn Node.input
      rw [if_neg hOne, if_neg (by omega)]
      rw [Nat.add_zero] at hj
      rw [hj]
    · cases hj
  · cases hl

end Graph
end ArmBackend
