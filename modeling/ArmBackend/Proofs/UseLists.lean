import ArmBackend.Graph.Index
import ArmBackend.Proofs.Appended

/-!
# Use lists that are kept

The lists that a graph keeps, one for each node, against the edges that point to a node: what a pass
over the edges collects, and what comes of redirecting the edges of a list one after the other while
the list is gone through.

## Results

* `pairwise_edgesTo` — the edges to a node are listed in order.
* `foldl_redirectEdge_edgesTo` — redirecting the uses of a node one by one.
* `Indexed.collect_eq` — one pass over the edges collects the uses of every node.
* `Indexed.run_uses`, `Indexed.run_replaceUses` — a question and a change where the lists that are
  kept are those of the graph.
-/

namespace ArmBackend

/-- Whether an edge comes before another one: by the node it enters, then by its place there. -/
def Use.Before (u v : Use) : Prop :=
  u.user < v.user ∨ u.user = v.user ∧ u.index < v.index

namespace Graph

variable {g g' : Graph} {id w x : NodeId} {r : Replacement} {u v : Use}

/-! ## The edges in order -/

/-- Every edge, with the number of the node it points to. -/
def edges (g : Graph) : List (NodeId × Use) :=
  g.nodes.toList.zipIdx.flatMap fun (n, user) =>
    n.inputs.zipIdx.map fun (input, index) => (input, ⟨user, index⟩)

/-- The edges of a list that point to a node. -/
def pointingTo (es : List (NodeId × Use)) (id : NodeId) : List Use :=
  es.filterMap fun (input, u) => if input = id then some u else none

/-- The edges that point to a node are its uses. -/
theorem pointingTo_edges : pointingTo g.edges id = g.edgesTo id := by
  unfold pointingTo edges edgesTo
  simp only [List.filterMap_flatMap, List.filterMap_map, Function.comp_def]

/-- One more edge counts if it points to the node. -/
theorem pointingTo_cons {es : List (NodeId × Use)} : pointingTo ((x, u) :: es) id =
    if x = id then u :: pointingTo es id else pointingTo es id := by
  unfold pointingTo
  rw [List.filterMap_cons]
  by_cases hx : x = id
  · simp only [if_pos hx]
  · simp only [if_neg hx]

/-- The edges are the inputs, each with its place. -/
theorem mem_edges :
    (x, u) ∈ g.edges ↔ ∃ n, g.node? u.user = some n ∧ n.inputs[u.index]? = some x := by
  rw [show u = ⟨u.user, u.index⟩ from rfl, ← mem_edgesTo, ← pointingTo_edges]
  unfold pointingTo
  simp only [List.mem_filterMap, Prod.exists, Option.ite_none_right_eq_some, Option.some.injEq]
  constructor
  · exact fun h => ⟨x, u, h, rfl, rfl⟩
  · rintro ⟨y, v, h, rfl, rfl⟩
    exact h

/-- In a graph without loose ends every edge points to a node. -/
theorem target_of_edge (hClosed : g.isClosed = true) (h : (x, u) ∈ g.edges) :
    0 ≤ x ∧ x < g.size := by
  obtain ⟨n, hn, hx⟩ := mem_edges.mp h
  obtain ⟨i, -, hi⟩ := node?_eq_some.mp hn
  refine contains_iff.mp (isClosed_iff.mp hClosed n ?_ x (List.mem_of_getElem? hx))
  exact Array.mem_toList_iff.mpr (Array.mem_of_getElem? hi)

/-- Places in a list go up. -/
theorem pairwise_zipIdx {α : Type} (xs : List α) : xs.zipIdx.Pairwise fun a b => a.2 < b.2 := by
  refine List.pairwise_iff_getElem.mpr ?_
  intro i j hi hj hLt
  simpa using hLt

/-- The uses of a node are listed in order, and none of them twice. -/
theorem pairwise_edgesTo : (g.edgesTo id).Pairwise Use.Before := by
  unfold edgesTo
  -- Within a node the places go up, and from node to node the numbers.
  refine List.pairwise_flatMap.mpr ⟨?_, (pairwise_zipIdx _).imp ?_⟩
  · rintro ⟨n, user⟩ -
    refine List.pairwise_filterMap.mpr ((pairwise_zipIdx _).imp ?_)
    rintro ⟨x, i⟩ ⟨y, j⟩ hLt u hu v hv
    simp only [Option.ite_none_right_eq_some, Option.some.injEq] at hu hv
    obtain ⟨-, rfl⟩ := hu
    obtain ⟨-, rfl⟩ := hv
    exact .inr ⟨rfl, hLt⟩
  · rintro ⟨n, user⟩ ⟨m, user'⟩ hLt u hu v hv
    obtain ⟨⟨x, i⟩, -, hu⟩ := List.mem_filterMap.mp hu
    obtain ⟨⟨y, j⟩, -, hv⟩ := List.mem_filterMap.mp hv
    simp only [Option.ite_none_right_eq_some, Option.some.injEq] at hu hv
    obtain ⟨-, rfl⟩ := hu
    obtain ⟨-, rfl⟩ := hv
    exact .inl (Int.ofNat_lt.mpr hLt)

/-! ## Redirecting edges -/

/-- The input that an edge has after some edges were redirected. -/
def Replacement.input (r : Replacement) (us : List Use) (user : NodeId) (n : Node) (index : Nat)
    (input : NodeId) : NodeId :=
  if ⟨user, index⟩ ∈ us ∧ 0 ≤ r.node (n.edgeKind index) then r.node (n.edgeKind index) else input

/-- A node after some edges were redirected. -/
def Replacement.rewire (r : Replacement) (us : List Use) (user : Nat) (n : Node) : Node :=
  { n with inputs := n.inputs.mapIdx (r.input us user n) }

/-- A node whose edges have no replacement stays. -/
theorem Replacement.rewire_eq_self {us : List Use} {user : Nat} {n : Node}
    (h : ∀ i, ⟨user, i⟩ ∈ us → r.node (n.edgeKind i) < 0) : r.rewire us user n = n := by
  have hSame (i : Nat) : r.input us user n i = id := by
    funext input
    exact if_neg fun ⟨hMem, hNonneg⟩ => Int.not_lt.mpr hNonneg (h i hMem)
  unfold Replacement.rewire
  congr 1
  refine List.ext_getElem? fun i => ?_
  rw [List.getElem?_mapIdx, hSame, Option.map_id_apply]

/-- Redirecting one edge, and then others. -/
theorem Replacement.rewire_rewire (us : List Use) (user : Nat) (n : Node) :
    r.rewire us user (r.rewire [u] user n) = r.rewire (u :: us) user n := by
  unfold Replacement.rewire
  congr 1
  refine List.ext_getElem? fun i => ?_
  have hKind (ns : List NodeId) : { n with inputs := ns }.edgeKind i = n.edgeKind i := rfl
  simp only [List.getElem?_mapIdx, Option.map_map]
  congr 1
  funext input
  simp only [Function.comp_apply, Replacement.input, hKind, List.mem_cons, List.not_mem_nil,
    or_false]
  grind

/-- Redirecting one edge sets one input. -/
theorem Replacement.rewire_singleton {user index : Nat} {n : Node}
    (h : 0 ≤ r.node (n.edgeKind index)) : r.rewire [⟨user, index⟩] user n =
      { n with inputs := n.inputs.set index (r.node (n.edgeKind index)) } := by
  unfold Replacement.rewire
  congr 1
  refine List.ext_getElem? fun i => ?_
  rw [List.getElem?_set, List.getElem?_mapIdx]
  -- position by position: only the one that is listed changes
  by_cases hi : index = i
  · subst hi
    have hIs : r.input [⟨user, index⟩] user n index = fun _ => r.node (n.edgeKind index) :=
      funext fun input => if_pos ⟨List.mem_singleton.mpr rfl, h⟩
    rw [if_pos rfl, hIs]
    by_cases hLt : index < n.inputs.length
    · rw [if_pos hLt, List.getElem?_eq_getElem hLt, Option.map_some]
    · rw [if_neg hLt, List.getElem?_eq_none (Nat.not_lt.mp hLt), Option.map_none]
  · have hNe (input : NodeId) : r.input [⟨user, index⟩] user n i input = input := by
      refine if_neg fun ⟨hMem, _⟩ => hi ?_
      rw [List.mem_singleton, Use.mk.injEq] at hMem
      exact hMem.2.symm
    rw [if_neg hi, show r.input [⟨user, index⟩] user n i = id from funext hNe, Option.map_id_apply]

/-- Changing no node changes no graph. -/
theorem mapIdx_eq_self {f : Nat → Node → Node} (h : ∀ j n, g.nodes[j]? = some n → f j n = n) :
    { g with nodes := g.nodes.mapIdx f } = g := by
  have hNodes : g.nodes.mapIdx f = g.nodes := by
    refine Array.ext_getElem? fun j => ?_
    rw [Array.getElem?_mapIdx]
    cases hn : g.nodes[j]? with
    | none => rfl
    | some n => rw [Option.map_some, h j n hn]
  rw [hNodes]

/-- Redirecting one edge leaves every other one alone. -/
theorem redirectEdge_eq (hUser : 0 ≤ u.user) :
    g.redirectEdge r u = { g with nodes := g.nodes.mapIdx (r.rewire [u]) } := by
  obtain ⟨user, index⟩ := u
  obtain ⟨k, rfl⟩ := Int.eq_ofNat_of_zero_le hUser
  have hOther (j : Nat) (hNe : k ≠ j) (n : Node) : r.rewire [⟨k, index⟩] j n = n := by
    refine Replacement.rewire_eq_self fun i hMem => ?_
    rw [List.mem_singleton, Use.mk.injEq] at hMem
    exact absurd (Int.ofNat_inj.mp hMem.1).symm hNe
  have hKind {n : Node} (hn : g.nodes[k]? = some n) : g.useKind ⟨k, index⟩ = n.edgeKind index := by
    unfold useKind
    rw [node?_eq_some.mpr ⟨k, rfl, hn⟩]
  unfold redirectEdge
  dsimp only
  split
  · next hNonneg =>
    congr 1
    refine Array.ext_getElem? fun j => ?_
    rw [Array.getElem?_modify, Array.getElem?_mapIdx, Int.toNat_natCast]
    cases hn : g.nodes[j]? with
    | none => exact ite_self _
    | some n =>
      by_cases hEq : k = j
      · subst hEq
        rw [hKind hn] at hNonneg ⊢
        rw [if_pos rfl, Option.map_some, Option.map_some, Replacement.rewire_singleton hNonneg]
      · rw [if_neg hEq, Option.map_some, hOther j hEq]
  · next hNeg =>
    -- Without a replacement for its kind the edge stays, like all others.
    refine (mapIdx_eq_self fun j n hn => Replacement.rewire_eq_self fun i hMem => ?_).symm
    rw [List.mem_singleton, Use.mk.injEq] at hMem
    obtain ⟨hSame, rfl⟩ := hMem
    obtain rfl := Int.ofNat_inj.mp hSame
    rw [hKind hn] at hNeg
    exact Int.not_le.mp hNeg

/-- Redirecting edges one by one changes each node as its edges say. -/
theorem foldl_redirectEdge (us : List Use) (h : ∀ u ∈ us, 0 ≤ u.user) :
    us.foldl (·.redirectEdge r ·) g = { g with nodes := g.nodes.mapIdx (r.rewire us) } := by
  induction us generalizing g with
  | nil =>
    refine (mapIdx_eq_self fun j n _ => Replacement.rewire_eq_self fun i hMem => ?_).symm
    exact absurd hMem List.not_mem_nil
  | cons u us ih =>
    rw [List.foldl_cons, redirectEdge_eq (h u List.mem_cons_self),
      ih fun v hv => h v (List.mem_cons_of_mem u hv)]
    congr 1
    refine Array.ext_getElem? fun j => ?_
    simp only [Array.getElem?_mapIdx, Option.map_map, Function.comp_def,
      Replacement.rewire_rewire]

/-- An edge is a use of the node that it points to. -/
theorem mem_edgesTo_iff {n : Node} {i j : Nat} (hn : g.nodes[j]? = some n)
    (hx : n.inputs[i]? = some x) : (⟨j, i⟩ : Use) ∈ g.edgesTo id ↔ x = id := by
  have hAt : g.node? j = some n := node?_eq_some.mpr ⟨j, rfl, hn⟩
  rw [mem_edgesTo]
  constructor
  · rintro ⟨m, hm, hi⟩
    obtain rfl := Option.some.inj (hAt.symm.trans hm)
    exact Option.some.inj (hx.symm.trans hi)
  · rintro rfl
    exact ⟨n, hAt, hx⟩

/-- Redirecting all uses of a node changes each node where it takes that one. -/
theorem Replacement.rewire_edgesTo {n : Node} {j : Nat} (hn : g.nodes[j]? = some n) :
    r.rewire (g.edgesTo id) j n = n.redirect id r := by
  unfold Replacement.rewire Node.redirect
  congr 1
  refine List.ext_getElem? fun i => ?_
  rw [List.getElem?_mapIdx, List.getElem?_mapIdx]
  cases hx : n.inputs[i]? with
  | none => rfl
  | some x =>
    simp only [Option.map_some, Replacement.input, mem_edgesTo_iff hn hx, Replacement.target]
    congr 1
    cases n.edgeKind i <;> grind [Replacement.node]

/-- Redirecting all uses of a node, one after the other, redirects them by what they point to. -/
theorem foldl_redirectEdge_edgesTo : (g.edgesTo id).foldl (·.redirectEdge r ·) g =
    { g with nodes := g.nodes.map (·.redirect id r) } := by
  have hUser : ∀ u ∈ g.edgesTo id, 0 ≤ u.user := fun u hu => by
    obtain ⟨n, hn, -⟩ := mem_edgesTo.mp (show (⟨u.user, u.index⟩ : Use) ∈ _ from hu)
    exact (node?_lt hn).1
  -- The list is that of the old graph, so an edge that has come to point to the node stays.
  rw [foldl_redirectEdge _ hUser]
  congr 1
  refine Array.ext_getElem? fun j => ?_
  rw [Array.getElem?_mapIdx, Array.getElem?_map]
  cases hn : g.nodes[j]? with
  | none => rfl
  | some n => rw [Option.map_some, Option.map_some, Replacement.rewire_edgesTo hn]

/-- The uses of every node. -/
def useLists (g : Graph) : Array (List Use) :=
  Array.ofFn fun id : Fin g.size => g.edgesTo id

end Graph

/-! ## Collecting -/

namespace Indexed

open ArmBackend.Graph

variable {g : Graph} {id : NodeId} {r : Replacement}

/-- Going through a list of lists is going through each of them. -/
theorem foldlM_flatMap {α β γ : Type} {xs : List α} {f : α → List β} (g : γ → β → Except Fault γ)
    (c : γ) : (xs.flatMap f).foldlM g c = xs.foldlM (fun c x => (f x).foldlM g c) c := by
  induction xs generalizing c with
  | nil => rfl
  | cons x xs ih =>
    rw [List.flatMap_cons, List.foldlM_append, List.foldlM_cons]
    exact bind_congr_ok fun c _ => ih c

/-- A pass over the nodes files the edges in order. -/
theorem collect_eq_foldlM : collect g =
    g.edges.foldlM (fun lists e => file lists e.1 e.2) (Array.replicate g.size []) := by
  unfold collect edges
  rw [foldlM_flatMap]
  simp only [List.foldlM_map]

/-- Edges are put behind the uses that are there, in order. -/
theorem foldlM_file {es : List (NodeId × Use)} {lists : Array (List Use)}
    (h : ∀ e ∈ es, 0 ≤ e.1 ∧ e.1 < lists.size) :
    es.foldlM (fun lists e => file lists e.1 e.2) lists =
      .ok (lists.mapIdx fun id l => l ++ pointingTo es id) := by
  induction es generalizing lists with
  | nil =>
    have hSame : (lists.mapIdx fun id l => l ++ pointingTo [] id) = lists := by
      refine Array.ext_getElem? fun k => ?_
      simp [pointingTo]
    rw [hSame]
    rfl
  | cons e es ih =>
    obtain ⟨x, u⟩ := e
    -- The first edge goes behind the uses of its node, and the others behind it.
    have hx := h (x, u) List.mem_cons_self
    obtain ⟨i, rfl⟩ := Int.eq_ofNat_of_zero_le hx.1
    have hFile : file lists i u = .ok (lists.modify i (· ++ [u])) := if_pos hx
    rw [List.foldlM_cons, hFile, ok_bind, ih]
    · congr 1
      refine Array.ext_getElem? fun k => ?_
      rw [Array.getElem?_mapIdx, Array.getElem?_mapIdx, Array.getElem?_modify, pointingTo_cons]
      by_cases hk : i = k
      · rw [if_pos hk, if_pos (congrArg Nat.cast hk), Option.map_map]
        simp only [Function.comp_def, List.append_assoc, List.singleton_append]
      · rw [if_neg hk, if_neg fun hEq => hk (Int.ofNat_inj.mp hEq)]
    · intro e he
      rw [Array.size_modify]
      exact h e (List.mem_cons_of_mem _ he)

/-- In a closed graph every edge can be filed, and the lists are those of the nodes. -/
theorem collect_eq (hClosed : g.isClosed = true) : collect g = .ok g.useLists := by
  rw [collect_eq_foldlM, foldlM_file]
  · congr 1
    refine Array.ext_getElem? fun k => ?_
    rw [useLists, Array.getElem?_mapIdx, Array.getElem?_ofFn, Array.getElem?_replicate]
    by_cases hk : k < g.size
    · rw [if_pos hk, dif_pos hk, Option.map_some, List.nil_append, pointingTo_edges]
    · rw [if_neg hk, dif_neg hk, Option.map_none]
  · rintro ⟨x, u⟩ he
    rw [Array.size_replicate]
    exact target_of_edge hClosed he

/-! ## What requests give -/

/-- Whether the lists that are kept, if any, are those of the graph as it is. -/
def Current (s : Indexed) : Prop :=
  ∀ lists, s.lists = some lists → lists = s.graph.useLists

/-- A graph with its lists. -/
def kept (g : Graph) : Indexed :=
  { graph := g, lists := some g.useLists }

/-- The lists of a graph are current. -/
theorem current_kept : (kept g).Current := by
  rintro lists ⟨⟩
  rfl

/-- A graph without lists has none that are stale. -/
theorem current_dropped : ({ graph := g } : Indexed).Current := by
  rintro lists ⟨⟩

variable {s : Indexed}

/-- After a request that succeeds the next one goes on from what it left. -/
theorem run_bind {α β : Type} {act : Indexing α} {f : α → Indexing β} {a : α} {s s' : Indexed}
    (h : act.run.run s = (.ok a, s')) : (act >>= f).run.run s = (f a).run.run s' := by
  rw [ExceptT.run_bind, StateT.run_bind, h]
  rfl

/-- Reading leaves all as it is. -/
theorem run_get : (get : Indexing Indexed).run.run s = (.ok s, s) :=
  rfl

/-- The lists are collected, unless they are there. -/
theorem run_current (hCurrent : s.Current) (hClosed : s.graph.isClosed = true) :
    current.run.run s = (.ok s.graph.useLists, kept s.graph) := by
  unfold current
  rw [run_bind run_get]
  cases hLists : s.lists with
  | some lists =>
    -- The lists that are kept are given, and they are those that a pass would collect.
    have hKept : s = kept s.graph := by
      unfold kept
      rw [← hCurrent lists hLists, ← hLists]
    rw [hCurrent lists hLists, ← hKept]
    rfl
  | none =>
    dsimp only
    rw [run_bind run_get, collect_eq hClosed]
    rfl

/-- The uses of a node are its list. -/
theorem run_uses (hCurrent : s.Current) (hClosed : s.graph.isClosed = true)
    (hId : s.graph.contains id = true) :
    (uses id).run.run s = (.ok (s.graph.edgesTo id), kept s.graph) := by
  obtain ⟨hNonneg, hLt⟩ := contains_iff.mp hId
  obtain ⟨i, rfl⟩ := Int.eq_ofNat_of_zero_le hNonneg
  have hList : s.graph.useLists[(i : NodeId).toNat]? = some (s.graph.edgesTo i) := by
    rw [useLists, Int.toNat_natCast, Array.getElem?_ofFn, dif_pos (Int.ofNat_lt.mp hLt)]
  unfold uses
  rw [run_bind (run_current hCurrent hClosed), if_neg (Int.not_lt.mpr hNonneg)]
  simp only [hList]
  rfl

/-- The uses as a value are counted in its list. -/
theorem run_valueUses (hCurrent : s.Current) (hClosed : s.graph.isClosed = true)
    (hId : s.graph.contains id = true) : (valueUses id).run.run s =
      (.ok ((s.graph.edgesTo id).filter fun u => s.graph.useKind u = .value).length,
        kept s.graph) := by
  unfold valueUses
  rw [run_bind (run_uses hCurrent hClosed hId)]
  rfl

/-- A projection is the first of its uses that projects by the index. -/
theorem run_findProjection (hCurrent : s.Current) (hClosed : s.graph.isClosed = true)
    (hId : s.graph.contains id = true) (index : Int) : (findProjection id index).run.run s =
      (.ok (((s.graph.edgesTo id).find? (s.graph.entersProjection index)).elim (-1) (·.user)),
        kept s.graph) := by
  unfold findProjection
  rw [run_bind (run_uses hCurrent hClosed hId)]
  rfl

/-- Redirecting leaves the lists behind, without looking at them. -/
theorem run_redirectEdges (us : List Use) :
    (us.forM fun u => modify fun s => { s with graph := s.graph.redirectEdge r u } :
      Indexing PUnit).run.run s =
        (.ok ⟨⟩, { s with graph := us.foldl (·.redirectEdge r ·) s.graph }) := by
  induction us generalizing s with
  | nil => rfl
  | cons u us ih =>
    let step (u : Use) : Indexing PUnit :=
      modify fun s : Indexed => { s with graph := s.graph.redirectEdge r u }
    show (step u >>= fun _ => us.forM step).run.run s = _
    rw [run_bind (show (step u).run.run s = (.ok ⟨⟩, _) from rfl)]
    exact ih

/-- Replacing drops the lists, since the edges have changed. -/
theorem run_replaceUses (hCurrent : s.Current) (hClosed : s.graph.isClosed = true)
    (hId : s.graph.contains id = true) : (replaceUses id r).run.run s =
      (.ok (), { graph := { s.graph with nodes := s.graph.nodes.map (·.redirect id r) } }) := by
  unfold replaceUses
  rw [run_bind (run_uses hCurrent hClosed hId), run_bind (run_redirectEdges _), kept,
    foldl_redirectEdge_edgesTo]
  rfl

end Indexed
end ArmBackend
