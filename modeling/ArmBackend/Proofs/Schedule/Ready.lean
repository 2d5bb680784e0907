import ArmBackend.Proofs.Outcome
import ArmBackend.Schedule.Ready
import Mathlib.Data.List.Induction
import Mathlib.Data.List.Perm.Subperm
import Mathlib.Data.Multiset.Filter

/-!
# Listing what is ready

A pass over a block counts, for each node, the inputs that are not listed yet, and its queue holds the
nodes whose count is zero and that are not listed themselves. So what the queue gives out is the
least node that can be listed next, and when the queue is empty every node that is left takes some
node that is not listed.

While the users of a node that has just been listed are gone through, the counts are too high by the
edges that are still due; the invariant speaks of these as well (`Agenda.Tracks`).

## Results

* `Greedy.eq_of_length_eq` — how many nodes are listed decides which ones, and in which order.
* `Greedy.eq_or_lex_of_closed` — a greedy list is the least of those that have each node behind what
  it takes.
* `Agenda.Tracks.enter`, `Agenda.Tracks.release`, `Agenda.Tracks.next` — what one step keeps.
* `Agenda.Tracks.drain` — what is listed when the queue is empty.
-/

namespace ArmBackend

/-! ## Queues -/

/-- Whether a queue gives out a least one of the nodes it holds, and nothing only when it holds
none. -/
structure ReadyQueue.PopsLeast {σ : Type} (queue : ReadyQueue σ)
    (Holds : σ → Multiset NodeId → Prop) : Prop where
  empty : Holds queue.empty 0
  push : ∀ {q nodes} (id : NodeId), Holds q nodes → Holds (queue.push q id) (id ::ₘ nodes)
  pop_none : ∀ {q nodes}, Holds q nodes → queue.pop q = none → nodes = 0
  pop_some : ∀ {q q' nodes id}, Holds q nodes → queue.pop q = some (id, q') →
    ∃ rest, nodes = id ::ₘ rest ∧ (∀ x ∈ rest, id ≤ x) ∧ Holds q' rest

/-- A list that is searched for its least member is such a queue. -/
theorem ReadyQueue.scanned_popsLeast :
    scanned.PopsLeast fun q nodes => (q : Multiset NodeId) = nodes where
  empty := rfl
  push := by
    rintro q _ id rfl
    rfl
  pop_none := by
    rintro q _ rfl hPop
    have hEmpty : q.min? = none := Option.map_eq_none_iff.mp hPop
    rw [List.min?_eq_none_iff.mp hEmpty]
    rfl
  pop_some := by
    rintro q q' _ id rfl hPop
    obtain ⟨least, hLeast, hPair⟩ := Option.map_eq_some_iff.mp hPop
    obtain ⟨rfl, rfl⟩ := Prod.mk.inj hPair
    obtain ⟨hMem, hLe⟩ := List.min?_eq_some_iff.mp hLeast
    have hPerm := Multiset.coe_eq_coe.mpr (List.perm_cons_erase hMem)
    refine ⟨(q.erase least : List NodeId), hPerm, ?_, rfl⟩
    intro x hx
    exact hLe x (List.mem_of_mem_erase hx)

/-! ## Greedy lists -/

/-- Whether a node is the next to be listed: the least of the members that are not listed and take
nothing but what is listed. -/
structure IsNext (Takes : NodeId → NodeId → Prop) (members listed : List NodeId) (id : NodeId) :
    Prop where
  mem : id ∈ members
  fresh : id ∉ listed
  ready : ∀ x, Takes id x → x ∈ listed
  least : ∀ y ∈ members, y ∉ listed → (∀ x, Takes y x → x ∈ listed) → id ≤ y

/-- Whether every node of a list is the next one behind those in front of it. -/
def Greedy (Takes : NodeId → NodeId → Prop) (members out : List NodeId) : Prop :=
  ∀ front id rest, out = front ++ id :: rest → IsNext Takes members front id

namespace Greedy

variable {Takes : NodeId → NodeId → Prop} {members out out' front rest : List NodeId} {id x : NodeId}

/-- Nothing listed is no choice made. -/
theorem nil : Greedy Takes members [] := by
  intro front id rest hSplit
  simp at hSplit

/-- Listing the next one. -/
theorem concat (h : Greedy Takes members out) (hNext : IsNext Takes members out id) :
    Greedy Takes members (out ++ [id]) := by
  intro front x rest hSplit
  rcases List.eq_nil_or_concat rest with rfl | ⟨rest, last, rfl⟩
  · obtain ⟨rfl, hLast⟩ := List.append_inj' hSplit rfl
    obtain rfl : id = x := List.singleton_inj.mp hLast
    exact hNext
  · refine h front x rest ?_
    rw [List.concat_eq_append, ← List.cons_append, ← List.append_assoc] at hSplit
    exact (List.append_inj' hSplit rfl).1

/-- The front of a greedy list is greedy. -/
theorem of_append (h : Greedy Takes members (front ++ rest)) : Greedy Takes members front := by
  rintro front' id rest' rfl
  exact h front' id (rest' ++ rest) (by simp)

/-- What the nodes take matters only as far as the members go. -/
theorem congr {Takes' : NodeId → NodeId → Prop} (h : Greedy Takes members out)
    (hSame : ∀ id ∈ members, ∀ x, Takes id x ↔ Takes' id x) : Greedy Takes' members out := by
  intro front id rest hSplit
  obtain ⟨hMem, hFresh, hReady, hLeast⟩ := h front id rest hSplit
  refine ⟨hMem, hFresh, fun x hx => hReady x ((hSame id hMem x).mpr hx), ?_⟩
  intro y hy hOut hTakes
  exact hLeast y hy hOut fun x hx => hTakes x ((hSame y hy x).mp hx)

/-- What is listed is a member. -/
theorem mem (h : Greedy Takes members out) (hId : id ∈ out) : id ∈ members := by
  obtain ⟨front, rest, hSplit⟩ := List.append_of_mem hId
  exact (h front id rest hSplit).mem

/-- What a listed node takes is listed. -/
theorem closed (h : Greedy Takes members out) (hId : id ∈ out) (hTakes : Takes id x) : x ∈ out := by
  obtain ⟨front, rest, rfl⟩ := List.append_of_mem hId
  exact List.mem_append_left _ ((h front id rest rfl).ready x hTakes)

/-- No node is listed twice. -/
theorem nodup (h : Greedy Takes members out) : out.Nodup := by
  induction out using List.reverseRecOn with
  | nil => exact List.nodup_nil
  | append_singleton front id ih =>
    refine List.nodup_append.mpr ⟨ih h.of_append, List.nodup_singleton id, ?_⟩
    rintro x hx y hy rfl
    rw [List.mem_singleton.mp hy] at hx
    exact (h front id [] rfl).fresh hx

/-- No more nodes are listed than there are. -/
theorem length_le (h : Greedy Takes members out) : out.length ≤ members.length :=
  (List.subperm_of_subset h.nodup fun _ => h.mem).length_le

/-- What has been listed is all there is when it is as much. -/
theorem perm (h : Greedy Takes members out) (hLength : out.length = members.length) :
    out.Perm members :=
  (List.subperm_of_subset h.nodup fun _ => h.mem).perm_of_length_le hLength.ge

/-- There is one node that can be next. -/
theorem eq_of_length_eq (h : Greedy Takes members out) (h' : Greedy Takes members out')
    (hLength : out.length = out'.length) : out = out' := by
  -- From the end: the nodes in front are the same, so the last ones are least among the same nodes.
  induction out using List.reverseRecOn generalizing out' with
  | nil => exact (List.length_eq_zero_iff.mp hLength.symm).symm
  | append_singleton front id ih =>
    rcases List.eq_nil_or_concat out' with rfl | ⟨front', id', rfl⟩
    · simp at hLength
    · rw [List.concat_eq_append] at h' hLength ⊢
      obtain rfl : front = front' := ih h.of_append h'.of_append (by simpa using hLength)
      have hNext := h front id [] rfl
      have hNext' := h' front id' [] rfl
      have hLe := hNext.least id' hNext'.mem hNext'.fresh hNext'.ready
      have hGe := hNext'.least id hNext.mem hNext.fresh hNext.ready
      rw [Int.le_antisymm hLe hGe]

/-- Of all lists that have each member behind what it takes, the greedy one is the least: where
another is different for the first time it has a greater node. -/
theorem eq_or_lex_of_closed {other : List NodeId} (h : Greedy Takes members (front ++ out))
    (hPerm : (front ++ other).Perm members) (hNodup : members.Nodup)
    (hClosed : ∀ listed id tail, front ++ other = listed ++ id :: tail →
      ∀ x, Takes id x → x ∈ listed) : out = other ∨ List.Lex (· < ·) out other := by
  -- What the lists have in common so far moves into `front`.
  induction out generalizing front other with
  | nil =>
    cases other with
    | nil => exact .inl rfl
    | cons y other => exact .inr .nil
  | cons id out ih =>
    have hNext := h front id out rfl
    cases other with
    | nil =>
      rw [List.append_nil] at hPerm
      exact absurd (hPerm.mem_iff.mpr hNext.mem) hNext.fresh
    | cons y other =>
      have hMember : y ∈ members := hPerm.mem_iff.mp (by simp)
      have hFresh : y ∉ front := by
        intro hFront
        have hOnce := hPerm.nodup_iff.mpr hNodup
        exact (List.nodup_append.mp hOnce).2.2 y hFront y List.mem_cons_self rfl
      -- The first node of the other list could have been listed here as well.
      have hLe : id ≤ y := hNext.least y hMember hFresh (hClosed front y other rfl)
      rcases Int.lt_or_eq_of_le hLe with hLt | rfl
      · exact .inr (.rel hLt)
      · rw [List.append_cons] at h hPerm hClosed
        exact (ih h hPerm hClosed).imp (congrArg (id :: ·)) List.Lex.cons

end Greedy

/-! ## Counts -/

/-- Listing one more node is told apart by how often it is among the inputs. -/
theorem countP_notMem_concat {out : List NodeId} {id : NodeId} (hId : id ∉ out) (l : List NodeId) :
    l.countP (· ∉ out) = l.countP (· ∉ out ++ [id]) + l.count id := by
  induction l with
  | nil => rfl
  | cons x l ih =>
    rw [List.countP_cons, List.countP_cons, ih]
    by_cases hx : x = id
    · rw [hx, List.count_cons_self, if_pos (by simpa using hId), if_neg (by simp)]
      omega
    · have hSame : decide (x ∉ out ++ [id]) = decide (x ∉ out) := by simp [hx]
      rw [List.count_cons_of_ne hx, hSame]
      omega

/-- A member that passes for the first time comes in addition to those that pass. -/
theorem filter_perm_cons {p q : NodeId → Bool} {members : List NodeId} {id : NodeId}
    (hNodup : members.Nodup) (hId : id ∈ members) (hq : q id = true) (hp : p id = false)
    (hSame : ∀ x ∈ members, x ≠ id → q x = p x) :
    (members.filter q).Perm (id :: members.filter p) := by
  -- no repetition on either side, so it is enough to compare the members
  refine (List.perm_ext_iff_of_nodup (hNodup.filter q) ?_).mpr fun x => ?_
  · refine List.nodup_cons.mpr ⟨?_, hNodup.filter p⟩
    intro hMem
    rw [(List.mem_filter.mp hMem).2] at hp
    cases hp
  · rw [List.mem_cons, List.mem_filter, List.mem_filter]
    by_cases hx : x = id
    · subst hx
      exact ⟨fun _ => .inl rfl, fun _ => ⟨hId, hq⟩⟩
    · constructor
      · rintro ⟨hMem, hPass⟩
        exact .inr ⟨hMem, by rw [← hSame x hMem hx, hPass]⟩
      · rintro (hEq | ⟨hMem, hPass⟩)
        · exact absurd hEq hx
        · exact ⟨hMem, by rw [hSame x hMem hx, hPass]⟩

namespace Agenda

variable {σ : Type} {queue : ReadyQueue σ} {Holds : σ → Multiset NodeId → Prop} {a : Agenda σ}
variable {inputs : NodeId → List NodeId} {members out due l : List NodeId} {id : NodeId}

/-! ## Waiting -/

/-- A node waits for each of its inputs. -/
@[simp]
theorem foldl_await_wait (a : Agenda σ) (id : NodeId) (l : List NodeId) (x : NodeId) :
    (l.foldl (await id) a).wait x = if x = id then a.wait x + l.length else a.wait x := by
  induction l generalizing a with
  | nil => simp
  | cons y l ih =>
    rw [List.foldl_cons, ih]
    by_cases hx : x = id
    · simp only [await, hx, if_true, List.length_cons]
      push_cast
      omega
    · simp only [await, hx, if_false]

/-- An input is told of its user as often as it is taken. -/
@[simp]
theorem foldl_await_users (a : Agenda σ) (id : NodeId) (l : List NodeId) (x : NodeId) :
    (l.foldl (await id) a).users x = a.users x ++ List.replicate (l.count x) id := by
  induction l generalizing a with
  | nil => simp
  | cons y l ih =>
    rw [List.foldl_cons, ih]
    unfold await
    by_cases hx : x = y
    · simp [hx, List.replicate_succ]
    · simp [hx, Ne.symm hx]

/-- Waiting makes nothing ready. -/
@[simp]
theorem foldl_await_ready (a : Agenda σ) (id : NodeId) (l : List NodeId) :
    (l.foldl (await id) a).ready = a.ready := by
  induction l generalizing a with
  | nil => rfl
  | cons y l ih => exact ih _

/-- Waiting lists nothing. -/
@[simp]
theorem foldl_await_nodes (a : Agenda σ) (id : NodeId) (l : List NodeId) :
    (l.foldl (await id) a).nodes = a.nodes := by
  induction l generalizing a with
  | nil => rfl
  | cons y l ih => exact ih _

/-- Offering a node to the queue leaves the counts. -/
@[simp]
theorem offer_wait (a : Agenda σ) (id : NodeId) : (a.offer queue id).wait = a.wait := by
  unfold offer
  split <;> rfl

/-- Offering a node to the queue leaves the users. -/
@[simp]
theorem offer_users (a : Agenda σ) (id : NodeId) : (a.offer queue id).users = a.users := by
  unfold offer
  split <;> rfl

/-- Offering a node to the queue lists nothing. -/
@[simp]
theorem offer_nodes (a : Agenda σ) (id : NodeId) : (a.offer queue id).nodes = a.nodes := by
  unfold offer
  split <;> rfl

/-- A node that is released waits for one input less. -/
theorem release_wait (a : Agenda σ) (id x : NodeId) :
    (a.release queue id).wait x = if x = id then a.wait x - 1 else a.wait x := by
  unfold release
  rw [offer_wait]

/-- Releasing users lists nothing. -/
theorem foldl_release_nodes (a : Agenda σ) (l : List NodeId) :
    (l.foldl (release queue) a).nodes = a.nodes := by
  induction l generalizing a with
  | nil => rfl
  | cons id l ih =>
    rw [List.foldl_cons, ih]
    exact offer_nodes _ id

/-! ## What a pass speaks of -/

/-- Whether a pass speaks of the listed nodes only. -/
structure Confined (Holds : σ → Multiset NodeId → Prop) (l : List NodeId) (a : Agenda σ) : Prop where
  users : ∀ x, ∀ id ∈ a.users x, id ∈ l
  ready : ∃ nodes, Holds a.ready nodes ∧ ∀ id ∈ nodes, id ∈ l
  nodes : ∀ id ∈ a.nodes, id ∈ l

namespace Confined

/-- A member may be listed. -/
theorem list (h : Confined Holds l a) (hId : id ∈ l) : Confined Holds l (a.list id) := by
  refine ⟨h.users, h.ready, ?_⟩
  intro x hx
  rcases List.mem_append.mp hx with hx | hx
  · exact h.nodes x hx
  · rw [List.mem_singleton.mp hx]
    exact hId

/-- A member may be offered. -/
theorem offer (hQueue : queue.PopsLeast Holds) (h : Confined Holds l a) (hId : id ∈ l) :
    Confined Holds l (a.offer queue id) := by
  unfold Agenda.offer
  split
  · obtain ⟨nodes, hHolds, hNodes⟩ := h.ready
    refine ⟨h.users, ⟨id ::ₘ nodes, hQueue.push id hHolds, ?_⟩, h.nodes⟩
    intro x hx
    rcases Multiset.mem_cons.mp hx with rfl | hx
    · exact hId
    · exact hNodes x hx
  · exact h

/-- A member may enter, with whatever it waits for. -/
theorem enter (hQueue : queue.PopsLeast Holds) (h : Confined Holds l a) (hId : id ∈ l)
    (inputs : List NodeId) : Confined Holds l ((inputs.foldl (await id) a).offer queue id) := by
  refine Confined.offer hQueue ⟨?_, ?_, ?_⟩ hId
  · intro x y hy
    rw [foldl_await_users] at hy
    rcases List.mem_append.mp hy with hy | hy
    · exact h.users x y hy
    · rw [List.eq_of_mem_replicate hy]
      exact hId
  · rw [foldl_await_ready]
    exact h.ready
  · rw [foldl_await_nodes]
    exact h.nodes

/-- Members may be released. -/
theorem releaseAll (hQueue : queue.PopsLeast Holds) (h : Confined Holds l a)
    (hDue : ∀ id ∈ due, id ∈ l) : Confined Holds l (due.foldl (release queue) a) := by
  induction due generalizing a with
  | nil => exact h
  | cons id due ih =>
    have hStep : Confined Holds l (a.release queue id) :=
      Confined.offer hQueue ⟨h.users, h.ready, h.nodes⟩ (hDue id List.mem_cons_self)
    exact ih hStep fun x hx => hDue x (List.mem_cons_of_mem _ hx)

/-- Draining the queue lists members only. -/
theorem drain (hQueue : queue.PopsLeast Holds) (h : Confined Holds l a) {fuel : Nat}
    {final : Agenda σ} (hDrain : a.drain queue fuel = .ok final) : Confined Holds l final := by
  induction fuel generalizing a with
  | zero => cases hDrain
  | succ fuel ih =>
    unfold Agenda.drain at hDrain
    split at hDrain
    · cases hDrain
      exact h
    · next id q hPop =>
      obtain ⟨nodes, hHolds, hNodes⟩ := h.ready
      obtain ⟨rest, rfl, -, hRest⟩ := hQueue.pop_some hHolds hPop
      have hList := h.list (hNodes id (Multiset.mem_cons_self id rest))
      have hTaken : Confined Holds l { a.list id with ready := q } :=
        ⟨hList.users, ⟨rest, hRest, fun x hx => hNodes x (Multiset.mem_cons_of_mem hx)⟩, hList.nodes⟩
      exact ih (hTaken.releaseAll hQueue (h.users id)) hDrain

end Confined

/-! ## One step -/

/-- What is true of a pass in which the nodes `out` are listed and the edges to users `due` are not
counted off yet. -/
structure Tracks (Holds : σ → Multiset NodeId → Prop) (inputs : NodeId → List NodeId)
    (members out due : List NodeId) (a : Agenda σ) : Prop where
  /-- A member waits for its inputs that are not listed, and once more for each edge that is due. -/
  wait : ∀ id ∈ members, a.wait id = ((inputs id).countP (· ∉ out) + due.count id : Nat)
  idle : ∀ id, id ∉ members → a.wait id = 0
  /-- A node has a member for a user as often as the member takes it. -/
  users : ∀ x id, (a.users x).count id = if id ∈ members then (inputs id).count x else 0
  ready : Holds a.ready (members.filter fun id => id ∉ out ∧ a.wait id = 0 : List NodeId)
  due : ∀ id ∈ due, id ∈ members ∧ id ∉ out

/-- A node that passes into the queue is one more that the queue holds. -/
theorem holds_offer {p q : NodeId → Bool} (hQueue : queue.PopsLeast Holds) (hNodup : members.Nodup)
    (hId : id ∈ members) (hp : p id = false) (hq : q id = decide (a.wait id = 0))
    (hSame : ∀ x ∈ members, x ≠ id → q x = p x)
    (hHolds : Holds a.ready (members.filter p : List NodeId)) :
    Holds (a.offer queue id).ready (members.filter q : List NodeId) := by
  unfold offer
  by_cases hZero : a.wait id = 0
  · have hPerm := filter_perm_cons hNodup hId (by simp [hq, hZero]) hp hSame
    rw [if_pos hZero, Multiset.coe_eq_coe.mpr hPerm]
    exact hQueue.push id hHolds
  · rw [if_neg hZero, List.filter_congr (q := p)]
    · exact hHolds
    · intro x hx
      by_cases hEq : x = id
      · rw [hEq, hp, hq]
        exact decide_eq_false hZero
      · exact hSame x hx hEq

namespace Tracks

/-- A node is taken into the pass. -/
theorem enter (hQueue : queue.PopsLeast Holds) (hNodup : (members ++ [id]).Nodup)
    (h : Tracks Holds inputs members [] [] a) :
    Tracks Holds inputs (members ++ [id]) [] [] (((inputs id).foldl (await id) a).offer queue id) := by
  have hNew : id ∉ members := fun hMem =>
    (List.nodup_append.mp hNodup).2.2 id hMem id (List.mem_singleton_self id) rfl
  have hOther : ∀ x ∈ members, x ≠ id := fun x hx hEq => hNew (hEq ▸ hx)
  refine { wait := ?wait, idle := ?idle, users := ?users, ready := ?ready, due := by simp }
  case wait =>
    intro x hx
    rw [offer_wait, foldl_await_wait]
    rcases List.mem_append.mp hx with hx | hx
    · rw [if_neg (hOther x hx)]
      exact h.wait x hx
    · rw [List.mem_singleton.mp hx, if_pos rfl, h.idle id hNew]
      simp
  case idle =>
    intro x hx
    rw [List.mem_append, List.mem_singleton, not_or] at hx
    rw [offer_wait, foldl_await_wait, if_neg hx.2]
    exact h.idle x hx.1
  case users =>
    intro x y
    rw [offer_users, foldl_await_users, List.count_append, h.users, List.count_replicate]
    by_cases hy : y = id
    · simp [hy, hNew]
    · simp [hy, Ne.symm hy]
  -- Behind its inputs the new member is offered if it waits for none; the others wait as before.
  case ready =>
    refine holds_offer (p := fun x => decide (x ∈ members ∧ a.wait x = 0)) hQueue hNodup (by simp)
      (by simp [hNew]) (by simp) ?_ ?_
    · intro x hx hNe
      rw [List.mem_append, List.mem_singleton] at hx
      simp [hNe, hx.resolve_right hNe]
    · have hOld : (members ++ [id]).filter (fun x => decide (x ∈ members ∧ a.wait x = 0)) =
          members.filter fun x => decide (x ∉ [] ∧ a.wait x = 0) := by
        rw [List.filter_append, List.filter_cons_of_neg (by simp [hNew]), List.filter_nil,
          List.append_nil]
        refine List.filter_congr fun x hx => ?_
        simp [hx]
      rw [foldl_await_ready, hOld]
      exact h.ready

/-- One edge is counted off. -/
theorem release (hQueue : queue.PopsLeast Holds) (hNodup : members.Nodup)
    (h : Tracks Holds inputs members out (id :: due) a) :
    Tracks Holds inputs members out due (a.release queue id) := by
  obtain ⟨hMem, hFresh⟩ := h.due id List.mem_cons_self
  have hWait := h.wait id hMem
  rw [List.count_cons_self] at hWait
  refine { wait := ?wait, idle := ?idle, users := ?users, ready := ?ready, due := ?due }
  case wait =>
    intro x hx
    rw [release_wait]
    by_cases hEq : x = id
    · rw [if_pos hEq, hEq, hWait]
      push_cast
      omega
    · rw [if_neg hEq, h.wait x hx, List.count_cons_of_ne (Ne.symm hEq)]
  case idle =>
    intro x hx
    have hNe : x ≠ id := fun hEq => hx (hEq ▸ hMem)
    rw [release_wait, if_neg hNe]
    exact h.idle x hx
  -- Releasing takes no user from the lists; the edge that is due was counted there.
  case users =>
    intro x y
    unfold Agenda.release
    rw [offer_users]
    exact h.users x y
  case ready =>
    unfold Agenda.release
    refine holds_offer hQueue hNodup hMem ?_ ?_ ?_ h.ready
    · -- Before, the node waited at least for the edge itself.
      have hWaits : a.wait id ≠ 0 := by
        rw [hWait]
        push_cast
        omega
      simp [hWaits]
    · simp [hFresh]
    · intro x _ hNe
      simp [hNe]
  case due =>
    intro x hx
    exact h.due x (List.mem_cons_of_mem _ hx)

/-- All edges to the users of a node are counted off. -/
theorem releaseAll (hQueue : queue.PopsLeast Holds) (hNodup : members.Nodup)
    (h : Tracks Holds inputs members out due a) :
    Tracks Holds inputs members out [] (due.foldl (Agenda.release queue) a) := by
  induction due generalizing a with
  | nil => exact h
  | cons id due ih => exact ih (h.release hQueue hNodup)

/-- A node that waits for nothing takes only what is listed. -/
theorem wait_eq_zero_iff (h : Tracks Holds inputs members out [] a) (hId : id ∈ members) :
    a.wait id = 0 ↔ ∀ x ∈ inputs id, x ∈ out := by
  rw [h.wait id hId]
  simp

/-- What the queue gives out is the next node; its users are then due. -/
theorem next {q : σ} (hQueue : queue.PopsLeast Holds) (hNodup : members.Nodup)
    (hGreedy : Greedy (fun id x => x ∈ inputs id) members out)
    (h : Tracks Holds inputs members out [] a) (hPop : queue.pop a.ready = some (id, q)) :
    IsNext (fun id x => x ∈ inputs id) members out id ∧
      Tracks Holds inputs members (out ++ [id]) (a.users id) { a.list id with ready := q } := by
  obtain ⟨rest, hRest, hLeast, hHolds⟩ := hQueue.pop_some h.ready hPop
  have hReady : ∀ x, x = id ∨ x ∈ rest ↔ x ∈ members ∧ x ∉ out ∧ a.wait x = 0 := by
    intro x
    rw [← Multiset.mem_cons, ← hRest, Multiset.mem_coe, List.mem_filter, decide_eq_true_eq]
  obtain ⟨hMem, hFresh, hZero⟩ := (hReady id).mp (.inl rfl)
  have hInputs := (h.wait_eq_zero_iff hMem).mp hZero
  have hNext : IsNext (fun id x => x ∈ inputs id) members out id := by
    refine ⟨hMem, hFresh, hInputs, ?_⟩
    intro y hy hOut hTakes
    rcases (hReady y).mpr ⟨hy, hOut, (h.wait_eq_zero_iff hy).mpr hTakes⟩ with rfl | hLater
    · exact Int.le_refl y
    · exact hLeast y hLater
  refine ⟨hNext, { wait := ?wait, idle := h.idle, users := h.users, ready := ?ready, due := ?due }⟩
  case wait =>
    intro x hx
    show a.wait x = _
    rw [h.wait x hx, h.users, if_pos hx, countP_notMem_concat hFresh]
    simp
  case ready =>
    -- The queue held the node once, for no member is there twice.
    have hErase : rest = (members.filter fun x => x ∉ out ++ [id] ∧ a.wait x = 0 : List NodeId) := by
      have hPerm := filter_perm_cons (p := fun x => decide (x ∉ out ++ [id] ∧ a.wait x = 0))
        (q := fun x => decide (x ∉ out ∧ a.wait x = 0)) hNodup hMem (by simp [hFresh, hZero])
        (by simp) (by simp +contextual)
      exact (Multiset.cons_inj_right id).mp (hRest.symm.trans (Multiset.coe_eq_coe.mpr hPerm))
    exact hErase ▸ hHolds
  case due =>
    intro x hx
    have hCount := List.count_pos_iff.mpr hx
    rw [h.users] at hCount
    split at hCount
    · next hMember =>
      have hTakes : id ∈ inputs x := List.count_pos_iff.mp hCount
      refine ⟨hMember, ?_⟩
      rw [List.mem_append, List.mem_singleton]
      rintro (hOut | rfl)
      · exact hFresh (hGreedy.closed hOut hTakes)
      · exact hFresh (hInputs x hTakes)
    · exact absurd hCount (Nat.lt_irrefl 0)

/-- When the queue is empty, what is not listed waits for something that is not. -/
theorem stuck (hQueue : queue.PopsLeast Holds) (h : Tracks Holds inputs members out [] a)
    (hPop : queue.pop a.ready = none) (hId : id ∈ members) (hOut : id ∉ out) :
    ∃ x ∈ inputs id, x ∉ out := by
  by_contra hNone
  push Not at hNone
  have hEmpty := hQueue.pop_none h.ready hPop
  have hMem : id ∈ members.filter fun x => x ∉ out ∧ a.wait x = 0 :=
    List.mem_filter.mpr ⟨hId, decide_eq_true ⟨hOut, (h.wait_eq_zero_iff hId).mpr hNone⟩⟩
  rw [(Multiset.coe_eq_zero _).mp hEmpty] at hMem
  cases hMem

/-! ## A whole run -/

/-- Nodes are listed greedily until none that is left can be. -/
theorem drain (hQueue : queue.PopsLeast Holds) (hNodup : members.Nodup) {fuel : Nat}
    (hGreedy : Greedy (fun id x => x ∈ inputs id) members out)
    (h : Tracks Holds inputs members out [] a) (hFuel : members.length < out.length + fuel) :
    ∃ final listed, a.drain queue fuel = .ok final ∧ final.nodes = a.nodes ++ listed ∧
      Greedy (fun id x => x ∈ inputs id) members (out ++ listed) ∧
      ∀ id ∈ members, id ∉ out ++ listed → ∃ x ∈ inputs id, x ∉ out ++ listed := by
  induction fuel generalizing out a with
  | zero =>
    -- Every step lists a member, so the fuel lasts.
    have hLength := hGreedy.length_le
    omega
  | succ fuel ih =>
    unfold Agenda.drain
    cases hPop : queue.pop a.ready with
    | none =>
      refine ⟨a, [], rfl, by simp, by simpa using hGreedy, ?_⟩
      intro id hId hOut
      rw [List.append_nil] at hOut ⊢
      exact h.stuck hQueue hPop hId hOut
    | some found =>
      obtain ⟨id, q⟩ := found
      obtain ⟨hNext, hTracks⟩ := h.next hQueue hNodup hGreedy hPop
      obtain ⟨final, listed, hRun, hNodes, hAll⟩ := ih (hGreedy.concat hNext)
        (hTracks.releaseAll hQueue hNodup) (by simp; omega)
      refine ⟨final, id :: listed, hRun, ?_, ?_⟩
      · rw [hNodes, foldl_release_nodes]
        simp [list]
      · rw [List.append_cons]
        exact hAll

end Tracks
end Agenda
end ArmBackend
