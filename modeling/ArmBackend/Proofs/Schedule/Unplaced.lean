import ArmBackend.Proofs.Schedule.Places

/-!
# Nodes without a place

Placing a node comes down to appending nodes that have no place yet to blocks. A node without a
control input is placed after its inputs; meanwhile it has no place, and the walk along inputs would
not end if it came back to it. This holds of any graph, also of one with cycles.

## Results

* `placeNode_open` — while a node waits for its inputs it is not placed.
* `placeNode_keeps`, `placeNodes_keeps` — what appending a live node without a place keeps, placing
  keeps.
-/

namespace ArmBackend.Schedule

variable {g : Graph} {id x : NodeId} {s : Schedule} {n : Node}

/-- Whether placing `w` asks for the place of `x` first. -/
def Pulls (g : Graph) (x w : NodeId) : Prop :=
  ∃ n, g.node? w = some n ∧ n.controlCount = 0 ∧ x ∈ n.inputs

theorem pulled_of_isChain {stack : List NodeId} (h : (id :: stack).IsChain (Pulls g))
    (hx : x ∈ stack) : ∃ y ∈ id :: stack, Pulls g y x := by
  induction stack generalizing id with
  | nil => cases hx
  | cons z stack ih =>
    rw [List.isChain_cons_cons] at h
    rcases List.mem_cons.mp hx with rfl | hx
    · exact ⟨id, List.mem_cons_self, h.1⟩
    · obtain ⟨y, hy, hPulls⟩ := ih h.2 hx
      exact ⟨y, List.mem_cons_of_mem _ hy, hPulls⟩

/-- The nodes that wait for each other's places are not placed meanwhile, and the walk does not come
back to them. -/
theorem placeNode_open (fuel : Nat) {stack : List NodeId} (hChain : (id :: stack).IsChain (Pulls g))
    (hOpen : ∀ x ∈ stack, s.home x = none) :
    Settles (fun _ => True) ((placeNode g fuel id).run s) fun p =>
      id ∉ stack ∧ ∀ x ∈ stack, p.2.home x = none := by
  induction fuel generalizing id s stack with
  | zero => exact trivial
  | succ fuel ih =>
    cases hHome : s.home id with
    | some b =>
      rw [placeNode_placed hHome]
      refine ⟨fun hId => ?_, hOpen⟩
      rw [hOpen id hId] at hHome
      cases hHome
    | none =>
      refine Settles.intro fun p hp => ?_
      obtain ⟨n, hn⟩ : ∃ n, g.node? id = some n := by
        cases hn : g.node? id with
        | some n => exact ⟨n, rfl⟩
        | none =>
          rw [placeNode_missing hn hHome] at hp
          cases hp
      -- A node on the stack has no control input, and an input on the stack.
      have hBack : id ∈ stack → n.controlCount = 0 ∧ ∃ y ∈ id :: stack, y ∈ n.inputs := by
        intro hId
        obtain ⟨y, hy, m, hm, hControl, hInput⟩ := pulled_of_isChain hChain hId
        obtain rfl : n = m := Option.some.inj (hn.symm.trans hm)
        exact ⟨hControl, y, hy, hInput⟩
      have hAppend : ∀ (t : Schedule) (b : Nat), id ∉ stack → (∀ x ∈ stack, t.home x = none) →
          ∀ x ∈ stack, (t.append b id).home x = none := by
        intro t b hId hStays x hx
        have hNe : x ≠ id := fun hEq => hId (hEq ▸ hx)
        rw [append_home, if_neg hNe]
        exact hStays x hx
      rw [placeNode_run hn hHome] at hp
      split at hp
      · next hControl =>
        obtain ⟨control, -, hp⟩ := bind_eq_ok.mp hp
        obtain ⟨b, -, hp⟩ := bind_eq_ok.mp hp
        cases pure_eq_ok.mp hp
        have hId : id ∉ stack := fun hId => hControl (hBack hId).1
        exact ⟨hId, hAppend s b hId hOpen⟩
      · next hControl =>
        obtain ⟨q, hq, hp⟩ := bind_eq_ok.mp hp
        cases pure_eq_ok.mp hp
        have hNone : n.controlCount = 0 := of_not_not hControl
        -- Each input is placed with the node itself on the stack.
        have hInputs : (∀ y ∈ n.inputs, y ∉ id :: stack) ∧ ∀ x ∈ id :: stack, q.2.home x = none := by
          refine Settles.of_ok (Settles.foldlM (R := fun _ => True)
            (I := fun front (p : Nat × Schedule) => (∀ y ∈ front, y ∉ id :: stack) ∧
              ∀ x ∈ id :: stack, p.2.home x = none) ?_ ?_) hq
          · refine ⟨by simp, ?_⟩
            intro x hx
            rcases List.mem_cons.mp hx with rfl | hx
            · exact hHome
            · exact hOpen x hx
          · rintro front y rest p hSplit ⟨hFront, hStays⟩
            have hPulls : Pulls g y id := ⟨n, hn, hNone, by rw [hSplit]; simp⟩
            refine (ih (List.isChain_cons_cons.mpr ⟨hPulls, hChain⟩) hStays).bind ?_
            rintro r ⟨hy, hStays'⟩
            refine Settles.pure ⟨?_, hStays'⟩
            intro z hz
            rcases List.mem_append.mp hz with hz | hz
            · exact hFront z hz
            · exact List.mem_singleton.mp hz ▸ hy
        have hId : id ∉ stack := by
          intro hId
          obtain ⟨-, y, hy, hInput⟩ := hBack hId
          exact hInputs.1 y hInput hy
        exact ⟨hId, hAppend _ _ hId fun x hx => hInputs.2 x (List.mem_cons_of_mem _ hx)⟩

/-! ## Invariants of placing -/

section Keeps

variable {L : NodeId → Prop} {I : Schedule → Prop}
  (hInputs : ∀ (id : NodeId) (n : Node), L id → g.node? id = some n → ∀ x ∈ n.inputs, L x)
  (hAppend : ∀ (t : Schedule) (b : Nat) (id : NodeId) (n : Node),
    L id → g.node? id = some n → t.home id = none → I t → I (t.append b id))
include hInputs hAppend

/-- Placing a node appends only nodes that it leads to, and keeps what appending one keeps. -/
theorem placeNode_keeps (fuel : Nat) (hId : L id) (h : I s) :
    Settles (fun _ => True) ((placeNode g fuel id).run s) fun p => I p.2 := by
  -- The inputs are placed first, with less fuel, and none of them places the node itself.
  induction fuel generalizing id s with
  | zero => exact trivial
  | succ fuel ih =>
    cases hHome : s.home id with
    | some b =>
      rw [placeNode_placed hHome]
      exact h
    | none =>
      cases hn : g.node? id with
      | none =>
        rw [placeNode_missing hn hHome]
        exact trivial
      | some n =>
        rw [placeNode_run hn hHome]
        split
        · refine Settles.intro fun p hp => ?_
          obtain ⟨control, -, hp⟩ := bind_eq_ok.mp hp
          obtain ⟨b, -, hp⟩ := bind_eq_ok.mp hp
          cases pure_eq_ok.mp hp
          exact hAppend s b id n hId hn hHome h
        · next hControl =>
          have hPlaced : Settles (fun _ => True)
              (n.inputs.foldlM (fun (p : Nat × Schedule) input => do
                let q ← (placeNode g fuel input).run p.2
                return (q.2.deeper p.1 q.1, q.2)) (0, s)) fun p => I p.2 ∧ p.2.home id = none := by
            refine Settles.foldlM_mem (I := fun p : Nat × Schedule => I p.2 ∧ p.2.home id = none)
              ⟨h, hHome⟩ ?_
            rintro y hy p ⟨hKept, hFree⟩
            have hPulls : Pulls g y id := ⟨n, hn, of_not_not hControl, hy⟩
            have hChain : [y, id].IsChain (Pulls g) := List.isChain_pair.mpr hPulls
            refine Settles.intro fun r hr => ?_
            obtain ⟨q, hq, hr⟩ := bind_eq_ok.mp hr
            cases pure_eq_ok.mp hr
            -- An input that led back to the node would find it open and fail.
            have hStays := (placeNode_open fuel hChain (by simpa using hFree)).of_ok hq
            have hInput : I q.2 := Settles.of_ok (ih (hInputs id n hId hn y hy) hKept) hq
            exact ⟨hInput, hStays.2 id (List.mem_singleton_self id)⟩
          refine hPlaced.bind ?_
          rintro p ⟨hKept, hFree⟩
          exact Settles.pure (hAppend p.2 p.1 id n hId hn hFree hKept)

/-- Placing all nodes appends only nodes that live ones lead to. -/
theorem placeNodes_keeps {exit : NodeId} {live : BitSet} (hLive : ∀ k : Nat, live.mem k = true → L k)
    (h : I (placeControl s)) :
    Settles (fun _ => True) ((placeNodes g exit live).run s) fun p => I p.2 := by
  unfold placeNodes
  rw [StateT.run_bind]
  show Settles _ (StateT.run (List.forM _ _) (placeControl s)) _
  rw [forM_run]
  -- node by node: those placed already, or not live, are passed over
  refine Settles.foldlM_mem (I := fun p : Unit × Schedule => I p.2) h ?_
  rintro ⟨n, k⟩ - p hp
  dsimp only
  split
  · next hPlaced =>
    rw [StateT.run_bind]
    rw [Bool.and_eq_true, Bool.and_eq_true] at hPlaced
    refine (placeNode_keeps hInputs hAppend _ (hLive k hPlaced.1.1) hp).bind ?_
    intro q hq
    exact Settles.pure hq
  · exact Settles.pure hp

end Keeps

/-- What appending any node without a place keeps, placing all nodes keeps. -/
theorem placeNodes_keepsAll {I : Schedule → Prop} {exit : NodeId} {live : BitSet}
    (hAppend : ∀ (t : Schedule) (b : Nat) (id : NodeId) (n : Node),
      g.node? id = some n → t.home id = none → I t → I (t.append b id))
    (h : I (placeControl s)) :
    Settles (fun _ => True) ((placeNodes g exit live).run s) fun p => I p.2 :=
  placeNodes_keeps (L := fun _ => True) (fun _ _ _ _ _ _ => trivial)
    (fun t b id n _ => hAppend t b id n) (fun _ _ => trivial) h

end ArmBackend.Schedule
