import ArmBackend.Proofs.BitSet
import ArmBackend.Proofs.Cycles
import ArmBackend.Proofs.Settles
import ArmBackend.Schedule.Compute

/-!
# Live nodes

The worklist marks exactly what the exit depends on. Everything marked can be reached, and whatever
is marked is still on the list or has all of its inputs marked. Each step takes one node off the list
and puts on it only nodes that were not marked, so the list runs empty before the fuel does.

## Results

* `liveNodes_of_verify` — the nodes that are marked are those that the root depends on.
-/

namespace ArmBackend

/-- Whether a node is one that `root` depends on, or `root` itself. -/
def Graph.Live (g : Graph) (root id : NodeId) : Prop :=
  Relation.ReflTransGen g.HasInput root id

namespace Graph.Live

variable {g : Graph} {root id x : NodeId}

theorem input (h : g.Live root id) (hx : g.HasInput id x) : g.Live root x :=
  Relation.ReflTransGen.tail h hx

theorem node_of_verify (h : g.Live root id) (hVerify : g.verify = .ok ())
    (hRoot : ∃ n, g.node? root = some n) : ∃ n, g.node? id = some n := by
  rcases Relation.ReflTransGen.cases_tail h with rfl | ⟨w, -, hInput⟩
  · exact hRoot
  · exact Graph.node_of_input hVerify hInput

theorem node (h : g.Live root id) (hWell : g.WellFormed) (hRoot : ∃ n, g.node? root = some n) :
    ∃ n, g.node? id = some n :=
  h.node_of_verify hWell.verify hRoot

end Graph.Live

namespace Schedule

variable {R : Fault → Prop} {g : Graph} {root id x : NodeId} {work tail : List NodeId}
variable {live live' : BitSet}

/-- What the worklist keeps: the root is marked, everything marked is live, and everything on the
list is marked. -/
structure Marking (g : Graph) (root : NodeId) (work : List NodeId) (live : BitSet) : Prop where
  start : live.contains root = true
  sound : ∀ k : Nat, live.mem k = true → g.Live root k
  listed : ∀ x ∈ work, live.contains x = true

/-- Whether everything that is marked is on the list or has its inputs marked. -/
def Closed (g : Graph) (work : List NodeId) (live : BitSet) : Prop :=
  ∀ k : Nat, live.mem k = true → (k : NodeId) ∈ work ∨
    ∀ x, g.HasInput k x → live.contains x = true

/-- The nodes that are not marked. -/
def unmarked (g : Graph) (live : BitSet) : Finset Nat :=
  (Finset.range g.size).filter fun k => live.mem k = false

theorem unmarked_insert {k : Nat} (hk : k < g.size) (hNew : live.mem k = false) :
    (unmarked g (live.insert k)).card + 1 = (unmarked g live).card := by
  have hErase : unmarked g (live.insert k) = (unmarked g live).erase k := by
    ext j
    simp only [unmarked, Finset.mem_filter, Finset.mem_range, Finset.mem_erase, BitSet.mem_insert,
      Bool.or_eq_false_iff, decide_eq_false_iff_not]
    tauto
  have hMem : k ∈ unmarked g live := by
    simp only [unmarked, Finset.mem_filter, Finset.mem_range]
    exact ⟨hk, hNew⟩
  rw [hErase, Finset.card_erase_add_one hMem]

/-! ## The inputs of one node -/

/-- What has been done once some inputs of a node are looked at: these are marked, and what is new
among the marks is on the list. -/
structure Marked (g : Graph) (root : NodeId) (tail : List NodeId) (live : BitSet)
    (front pending : List NodeId) (live' : BitSet) : Prop where
  marking : Marking g root pending live'
  mono : ∀ x, live.contains x = true → live'.contains x = true
  inputs : ∀ x ∈ front, live'.contains x = true
  kept : ∀ x ∈ tail, x ∈ pending
  added : ∀ k : Nat, live'.mem k = true → live.mem k = true ∨ (k : NodeId) ∈ pending
  count : pending.length + (unmarked g live').card = tail.length + (unmarked g live).card

/-- Every key of a set is a key of the set with one more. -/
theorem contains_insert (k : Nat) (h : live.contains x = true) :
    (live.insert k).contains x = true := by
  obtain ⟨j, rfl, hj⟩ := BitSet.contains_iff.mp h
  exact BitSet.contains_iff.mpr ⟨j, rfl, by simp [hj]⟩

theorem contains_insert_self (live : BitSet) (k : Nat) : (live.insert k).contains k = true :=
  BitSet.contains_iff.mpr ⟨k, rfl, by simp⟩

/-- An input that is marked already changes nothing. -/
theorem Marked.known {front pending : List NodeId} (h : Marked g root tail live front pending live')
    (hKnown : live'.contains x = true) :
    Marked g root tail live (front ++ [x]) pending live' := by
  refine ⟨h.marking, h.mono, ?_, h.kept, h.added, h.count⟩
  intro y hy
  rcases List.mem_append.mp hy with hOld | hLast
  · exact h.inputs y hOld
  · rw [List.mem_singleton.mp hLast]
    exact hKnown

/-- An input that is not marked goes on the list. -/
theorem Marked.add {front pending : List NodeId} {k : Nat}
    (h : Marked g root tail live front pending live') (hk : k < g.size) (hLive : g.Live root k)
    (hNew : live'.mem k = false) :
    Marked g root tail live (front ++ [(k : NodeId)]) (k :: pending) (live'.insert k) := by
  -- What is marked now was marked before, or is the new node.
  have hCases : ∀ j : Nat, (live'.insert k).mem j = true → j = k ∨ live'.mem j = true := by
    intro j hj
    rw [BitSet.mem_insert, Bool.or_eq_true, decide_eq_true_eq] at hj
    exact hj
  refine ⟨⟨contains_insert k h.marking.start, ?_, ?_⟩, ?_, ?_, ?_, ?_, ?_⟩
  · intro j hj
    rcases hCases j hj with rfl | hOld
    · exact hLive
    · exact h.marking.sound j hOld
  · intro y hy
    rcases List.mem_cons.mp hy with rfl | hOld
    · exact contains_insert_self live' k
    · exact contains_insert k (h.marking.listed y hOld)
  · intro y hy
    exact contains_insert k (h.mono y hy)
  · intro y hy
    rcases List.mem_append.mp hy with hOld | hLast
    · exact contains_insert k (h.inputs y hOld)
    · rw [List.mem_singleton.mp hLast]
      exact contains_insert_self live' k
  · intro y hy
    exact List.mem_cons_of_mem _ (h.kept y hy)
  · intro j hj
    rcases hCases j hj with rfl | hOld
    · exact .inr List.mem_cons_self
    · exact (h.added j hOld).imp (fun hOld => hOld) (List.mem_cons_of_mem _)
  · have hLess := unmarked_insert hk hNew
    have hCount := h.count
    rw [List.length_cons]
    omega

/-- One input is looked at. -/
theorem Marked.step {front pending : List NodeId} (hVerify : g.verify = .ok ())
    (h : Marked g root tail live front pending live') (hx : g.HasInput id x)
    (hLive : g.Live root id) :
    Settles R (do
        let (known, live') ← live'.testAndInsert x
        return (if known then pending else x :: pending, live'))
      fun p => Marked g root tail live (front ++ [x]) p.1 p.2 := by
  obtain ⟨n, hn⟩ := Graph.node_of_input hVerify hx
  obtain ⟨k, rfl, hk⟩ := Graph.node?_eq_some.mp hn
  have hSize : k < g.size := (Array.getElem?_eq_some_iff.mp hk).1
  rw [BitSet.testAndInsert_natCast]
  refine Settles.pure ?_
  cases hKnown : live'.mem k with
  | true => exact h.known (BitSet.contains_iff.mpr ⟨k, rfl, hKnown⟩)
  | false => exact h.add hSize (hLive.input hx) hKnown

/-! ## The worklist -/

/-- When the list is empty everything that the root depends on is marked. -/
theorem Closed.complete (h : Marking g root [] live) (hClosed : Closed g [] live)
    (hLive : g.Live root id) : live.contains id = true := by
  induction hLive with
  | refl => exact h.start
  | tail _ hStep ih =>
    obtain ⟨j, rfl, hj⟩ := BitSet.contains_iff.mp ih
    exact (hClosed j hj).resolve_left (by simp) _ hStep

/-- Taking a node off the list leaves everything that is marked accounted for. -/
theorem Marked.closed {pending : List NodeId} {n : Node} (hn : g.node? id = some n)
    (h : Marked g root tail live n.inputs pending live') (hClosed : Closed g (id :: tail) live) :
    Closed g pending live' := by
  intro k hk
  rcases h.added k hk with hOld | hNew
  · rcases hClosed k hOld with hWork | hInputs
    · rcases List.mem_cons.mp hWork with rfl | hTail
      · refine .inr fun x hx => ?_
        obtain ⟨m, hm, hMem⟩ := hx
        obtain rfl : n = m := Option.some.inj (hn.symm.trans hm)
        exact h.inputs x hMem
      · exact .inl (h.kept _ hTail)
    · exact .inr fun x hx => h.mono x (hInputs x hx)
  · exact .inl hNew

/-- The worklist runs empty, and then everything that the root depends on is marked. -/
theorem markLive_settles (hVerify : g.verify = .ok ()) (hRoot : ∃ n, g.node? root = some n)
    {fuel : Nat} (h : Marking g root work live) (hClosed : Closed g work live)
    (hFuel : work.length + (unmarked g live).card < fuel) :
    Settles R (markLive g fuel work live) fun out =>
      ∀ id, out.contains id = true ↔ g.Live root id := by
  -- Each node is marked once, so the work list and the unmarked nodes together get fewer.
  induction fuel generalizing work live with
  | zero => omega
  | succ fuel ih =>
    cases work with
    | nil =>
      refine Settles.pure ?_
      intro id
      refine ⟨?_, Closed.complete h hClosed⟩
      intro hId
      obtain ⟨k, rfl, hk⟩ := BitSet.contains_iff.mp hId
      exact h.sound k hk
    | cons id tail =>
      obtain ⟨k, hEq, hk⟩ := BitSet.contains_iff.mp (h.listed id List.mem_cons_self)
      have hLive : g.Live root id := hEq ▸ h.sound k hk
      obtain ⟨n, hn⟩ := hLive.node_of_verify hVerify hRoot
      have hStart : Marked g root tail live [] tail live := by
        refine ⟨⟨h.start, h.sound, ?_⟩, fun _ hx => hx, by simp, fun _ hx => hx,
          fun _ hx => .inl hx, rfl⟩
        intro x hx
        exact h.listed x (List.mem_cons_of_mem _ hx)
      unfold markLive
      rw [Graph.node_eq_ok.mpr hn, ok_bind]
      refine Settles.bind (Settles.foldlM
        (I := fun front (p : List NodeId × BitSet) => Marked g root tail live front p.1 p.2)
        hStart ?_) ?_
      · intro front x rest p hSplit hMarked
        exact hMarked.step hVerify ⟨n, hn, by rw [hSplit]; simp⟩ hLive
      · intro p hMarked
        refine ih hMarked.marking (hMarked.closed hn hClosed) ?_
        have hCount := hMarked.count
        rw [List.length_cons] at hFuel
        omega

/-- The nodes that are marked are those that the root depends on, and marking them cannot fail. -/
theorem liveNodes_of_verify (hVerify : g.verify = .ok ()) (hRoot : ∃ n, g.node? root = some n) :
    Settles R (liveNodes g root) fun live => ∀ id, live.contains id = true ↔ g.Live root id := by
  obtain ⟨n, hn⟩ := hRoot
  obtain ⟨k, rfl, hk⟩ := Graph.node?_eq_some.mp hn
  unfold liveNodes
  rw [BitSet.insertKey_natCast]
  have hMem : ∀ j : Nat, ((BitSet.withCapacity g.size).insert k).mem j = true → j = k := by
    intro j hj
    simpa using hj
  refine markLive_settles hVerify ⟨n, hn⟩ ⟨contains_insert_self _ k, ?_, ?_⟩ ?_ ?_
  · intro j hj
    rw [hMem j hj]
    exact Relation.ReflTransGen.refl
  · intro x hx
    rw [List.mem_singleton.mp hx]
    exact contains_insert_self _ k
  · intro j hj
    rw [hMem j hj]
    exact .inl List.mem_cons_self
  · -- the fuel is enough: every step marks a node that was not marked
    have hCard : (unmarked g ((BitSet.withCapacity g.size).insert k)).card ≤ g.size :=
      (Finset.card_filter_le _ _).trans_eq (Finset.card_range _)
    rw [List.length_singleton]
    omega

theorem liveNodes_settles (hWell : g.WellFormed) (hRoot : ∃ n, g.node? root = some n) :
    Settles R (liveNodes g root) fun live => ∀ id, live.contains id = true ↔ g.Live root id :=
  liveNodes_of_verify hWell.verify hRoot

/-! ## Any graph -/

/-- What nodes are marked for is a node. -/
theorem node_of_liveNodes (h : liveNodes g root = .ok live) : ∃ n, g.node? root = some n := by
  unfold liveNodes at h
  obtain ⟨start, -, h⟩ := bind_eq_ok.mp h
  unfold markLive at h
  obtain ⟨n, hn, -⟩ := bind_eq_ok.mp h
  exact ⟨n, Graph.node_eq_ok.mp hn⟩

/-- Whether everything that is marked is on the list, or is a node with its inputs marked. -/
def Accounted (g : Graph) (work : List NodeId) (live : BitSet) : Prop :=
  ∀ id, live.contains id = true → id ∈ work ∨
    ∃ n, g.node? id = some n ∧ ∀ x ∈ n.inputs, live.contains x = true

/-- What has been done once some inputs of a node are looked at, whatever the node is. -/
structure Noted (tail : List NodeId) (live : BitSet) (front pending : List NodeId)
    (live' : BitSet) : Prop where
  mono : ∀ x, live.contains x = true → live'.contains x = true
  inputs : ∀ x ∈ front, live'.contains x = true
  kept : ∀ x ∈ tail, x ∈ pending
  added : ∀ x, live'.contains x = true → live.contains x = true ∨ x ∈ pending

/-- One input is looked at. -/
theorem Noted.step {front pending : List NodeId} (h : Noted tail live front pending live') :
    Settles (fun _ => True) (do
        let (known, live') ← live'.testAndInsert x
        return (if known then pending else x :: pending, live'))
      fun p => Noted tail live (front ++ [x]) p.1 p.2 := by
  refine Settles.intro fun p hp => ?_
  obtain ⟨⟨known, next⟩, hTest, hp⟩ := bind_eq_ok.mp hp
  cases pure_eq_ok.mp hp
  unfold BitSet.testAndInsert at hTest
  split at hTest
  · -- A node that was marked needs no more work.
    next hKnown =>
    cases hTest
    refine ⟨h.mono, ?_, h.kept, h.added⟩
    intro y hy
    rcases List.mem_append.mp hy with hOld | hLast
    · exact h.inputs y hOld
    · rw [List.mem_singleton.mp hLast]
      exact hKnown
  · obtain ⟨inserted, hInsert, hTest⟩ := bind_eq_ok.mp hTest
    cases pure_eq_ok.mp hTest
    obtain ⟨k, rfl, rfl⟩ := BitSet.insertKey_eq_ok.mp hInsert
    refine ⟨fun y hy => contains_insert k (h.mono y hy), ?_,
      fun y hy => List.mem_cons_of_mem _ (h.kept y hy), ?_⟩
    · intro y hy
      rcases List.mem_append.mp hy with hOld | hLast
      · exact contains_insert k (h.inputs y hOld)
      · rw [List.mem_singleton.mp hLast]
        exact contains_insert_self live' k
    · intro y hy
      obtain ⟨j, rfl, hj⟩ := BitSet.contains_iff.mp hy
      rw [BitSet.mem_insert, Bool.or_eq_true, decide_eq_true_eq] at hj
      rcases hj with rfl | hj
      · exact .inr List.mem_cons_self
      · exact (h.added j (BitSet.contains_iff.mpr ⟨j, rfl, hj⟩)).imp_right
          (List.mem_cons_of_mem _)

/-- When the list has run empty, what is marked are nodes with their inputs marked. -/
theorem markLive_accounted {fuel : Nat} {out : BitSet} (h : Accounted g work live)
    (hMark : markLive g fuel work live = .ok out) : Accounted g [] out := by
  induction fuel generalizing work live with
  | zero => cases hMark
  | succ fuel ih =>
    cases work with
    | nil =>
      cases hMark
      exact h
    | cons id tail =>
      unfold markLive at hMark
      obtain ⟨n, hn, hMark⟩ := bind_eq_ok.mp hMark
      obtain ⟨⟨pending, next⟩, hInputs, hMark⟩ := bind_eq_ok.mp hMark
      have hNoted : Noted tail live n.inputs pending next := by
        refine Settles.of_ok (Settles.foldlM (R := fun _ => True)
          (I := fun front (p : List NodeId × BitSet) => Noted tail live front p.1 p.2) ?_ ?_)
          hInputs
        · exact ⟨fun _ hx => hx, by simp, fun _ hx => hx, fun _ hx => .inl hx⟩
        · intro front x rest p _ hp
          exact hp.step
      refine ih ?_ hMark
      intro y hy
      rcases hNoted.added y hy with hOld | hNew
      · -- A node with work left is the one at hand or in the rest; the others were seen to.
        rcases h y hOld with hWork | ⟨m, hm, hMarked⟩
        · rcases List.mem_cons.mp hWork with rfl | hTail
          · exact .inr ⟨n, Graph.node_eq_ok.mp hn, hNoted.inputs⟩
          · exact .inl (hNoted.kept y hTail)
        · exact .inr ⟨m, hm, fun x hx => hNoted.mono x (hMarked x hx)⟩
      · exact .inl hNew

/-- What is marked is a node, and so are its inputs, which are marked as well. -/
theorem inputs_of_liveNodes (h : liveNodes g root = .ok live) (hId : live.contains id = true) :
    ∃ n, g.node? id = some n ∧ ∀ x ∈ n.inputs, live.contains x = true := by
  unfold liveNodes at h
  obtain ⟨start, hStart, h⟩ := bind_eq_ok.mp h
  obtain ⟨k, rfl, rfl⟩ := BitSet.insertKey_eq_ok.mp hStart
  refine (markLive_accounted ?_ h id hId).resolve_left List.not_mem_nil
  intro y hy
  obtain ⟨j, rfl, hj⟩ := BitSet.contains_iff.mp hy
  obtain rfl : j = k := by simpa using hj
  exact .inl List.mem_cons_self

end Schedule
end ArmBackend
