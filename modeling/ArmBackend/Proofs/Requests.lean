import ArmBackend.Proofs.UseLists

/-!
# Requests to a graph that keeps its use lists

A graph with its use lists goes through any requests: nodes are added, the exit is set, nodes are
killed, uses are redirected, and questions are asked in between. The lists that are kept are always
those of the graph as it is, because whatever changes the graph drops them. A node may be added
before the nodes its inputs name, as in a loop; the lists are asked for when every edge points to a
node.

## Results

* `Builder.appends_build` — what a request to add nodes appends.
* `Reached.current` — the lists that are kept are those of the graph.
* `Reached.inRange` — requests with numbers in range leave no loose end.
* `Reached.requests_current` — every question is answered for the graph as it is, and redirecting
  the uses of a node changes exactly the edges it should.
-/

namespace ArmBackend

/-- A request to add nodes. -/
inductive Builder
  | node (op : Operator) (inputs : List NodeId)
  | full (n : Node)
  | int32 (v : BitVec 32)
  | int64 (v : Int)
  | float64 (x : Double)
  | heap (name : String)
  | external (name : String)
  | parameter (index : Int) (type : MachineType)
  | projection (index : Int) (x : NodeId)
  | phi (rep : Rep) (inputs : List NodeId)
  | effectPhi (inputs : List NodeId)
  | merge (inputs : List NodeId)
  | ret (value effect control : NodeId)
  | call (target : NodeId) (arguments : List NodeId) (effect control : NodeId)
  | load (rep : Rep) (base index effect control : NodeId)
  | store (rep : Rep) (barrier : WriteBarrier) (base index value effect control : NodeId)
  | change (op : Operator) (x effect control : NodeId)
  | complement (x : NodeId)
  | exit (returns : List NodeId)

namespace Builder

/-- What a request does to a graph. -/
def build (g : Graph) : Builder → Except Fault (Graph × NodeId)
  | node op inputs => g.addNode op inputs
  | full n => g.add n
  | int32 v => .ok (g.push (.int32 v))
  | int64 v => .ok (g.push (.int64 v))
  | float64 x => .ok (g.push (.float64 x))
  | heap name => .ok (g.push (.heap name))
  | external name => .ok (g.push (.external name))
  | parameter index type => .ok (g.push (.parameter index type))
  | projection index x => .ok (g.push (.projection index x))
  | phi rep inputs => g.addPhi rep inputs
  | effectPhi inputs => g.addEffectPhi inputs
  | merge inputs => .ok (g.push (.merge inputs))
  | ret value effect control => g.addNode .ret [value, effect, control]
  | call target arguments effect control => .ok (g.push (.call target arguments effect control))
  | load rep base index effect control => .ok (g.push (.load rep base index effect control))
  | store rep barrier base index value effect control =>
    .ok (g.push (.store rep barrier base index value effect control))
  | change op x effect control => g.addChange op x effect control
  | complement x => .ok (g.addNot x)
  | exit returns => .ok (g.setExit returns)

/-- The nodes that the new edges point to. A negative anchor is no edge. -/
def inputs : Builder → List NodeId
  | node _ inputs | phi _ inputs | effectPhi inputs | merge inputs | exit inputs => inputs
  | full n => n.inputs
  | int32 _ | int64 _ | float64 _ | heap _ | external _ => []
  | parameter _ _ => [Graph.start]
  | projection _ x | complement x => [x]
  | ret value effect control => [value, effect, control]
  | call target arguments effect control => target :: arguments ++ [effect, control]
  | load _ base index effect control => [base, index, effect] ++ Node.anchors control
  | store _ _ base index value effect control =>
    [base, index, value, effect] ++ Node.anchors control
  | change _ x effect control => x :: Node.anchors effect ++ Node.anchors control

/-- Whether a graph is another one with nodes behind it, from which edges point to given nodes or
to new ones. -/
def Appends (g g' : Graph) (ids : List NodeId) : Prop :=
  ∃ ns : Array Node, g'.nodes = g.nodes ++ ns ∧
    ∀ n ∈ ns, ∀ x ∈ n.inputs, x ∈ ids ∨ 0 ≤ x ∧ x < g'.size

theorem appends_push {g : Graph} (n : Node) : Appends g (g.push n).1 n.inputs := by
  refine ⟨#[n], Array.push_eq_append, ?_⟩
  intro m hm x hx
  rw [Array.mem_singleton] at hm
  exact .inl (hm ▸ hx)

variable {g g' : Graph} {id : NodeId}

theorem appends_addNode {op : Operator} {ids : List NodeId}
    (h : g.addNode op ids = .ok (g', id)) : Appends g g' ids := by
  unfold Graph.addNode at h
  split at h
  · cases h
  · split at h
    · cases h
      exact appends_push (.ofArity op ids)
    · cases h
  · cases h

/-- The complement takes two nodes, of which the second one uses the first. -/
theorem appends_addNot (x : NodeId) : Appends g (g.addNot x).1 [x] := by
  refine ⟨#[.int32 (-1), .ofArity (.word32 .xor) [x, g.size]], ?_, ?_⟩
  · show (g.nodes.push _).push _ = _
    rw [Array.push_eq_append, Array.push_eq_append, Array.append_assoc]
    rfl
  · intro n hn y hy
    have hSize : (g.size : Int) < (g.addNot x).1.size := by
      refine Int.ofNat_lt.mpr ?_
      show g.nodes.size < ((g.nodes.push _).push _).size
      rw [Array.size_push, Array.size_push]
      omega
    rcases List.mem_pair.mp (List.mem_toArray.mp hn) with rfl | rfl
    · cases hy
    · rcases List.mem_pair.mp hy with rfl | rfl
      · exact .inl List.mem_cons_self
      · exact .inr ⟨Int.natCast_nonneg _, hSize⟩

/-- The nodes that are there stay, and new edges point where the request says. -/
theorem appends_build {b : Builder} (h : b.build g = .ok (g', id)) : Appends g g' b.inputs := by
  -- A constructor that checks its inputs may fail; when it succeeds it appends one node.
  cases b with
  | node op ids => exact appends_addNode h
  | ret value effect control =>
    have hAdd : g.addNode .ret [value, effect, control] = .ok (g', id) := h
    exact appends_addNode hAdd
  | full n =>
    simp only [build, Graph.add] at h
    split at h <;> cases h
    exact appends_push n
  | phi rep ids =>
    simp only [build, Graph.addPhi] at h
    split at h <;> cases h
    exact appends_push (.phi rep ids)
  | effectPhi ids =>
    simp only [build, Graph.addEffectPhi] at h
    split at h <;> cases h
    exact appends_push (.effectPhi ids)
  | change op x effect control =>
    simp only [build, Graph.addChange] at h
    split at h <;> cases h
    exact appends_push (.change op x effect control)
  | complement x =>
    cases h
    exact appends_addNot x
  | exit returns =>
    cases h
    exact appends_push (.collect returns)
  | _ =>
    cases h
    exact appends_push _

theorem isClosed_of_appends {ids : List NodeId} (h : Appends g g' ids)
    (hClosed : g.isClosed = true) (hIds : ∀ x ∈ ids, g.contains x = true) :
    g'.isClosed = true := by
  obtain ⟨ns, hNodes, hNew⟩ := h
  have hLe : (g.size : Int) ≤ g'.size := by
    refine Int.ofNat_le.mpr ?_
    show g.nodes.size ≤ g'.nodes.size
    rw [hNodes, Array.size_append]
    omega
  have hStays {x : NodeId} (hx : g.contains x = true) : g'.contains x = true := by
    obtain ⟨h0, hLt⟩ := Graph.contains_iff.mp hx
    exact Graph.contains_iff.mpr ⟨h0, Int.lt_of_lt_of_le hLt hLe⟩
  refine Graph.isClosed_iff.mpr fun n hn x hx => ?_
  rw [hNodes, Array.toList_append] at hn
  -- Old edges point to old nodes; a new one points where the request says, or to a new node.
  rcases List.mem_append.mp hn with hOld | hAdded
  · exact hStays (Graph.isClosed_iff.mp hClosed n hOld x hx)
  · rcases hNew n (Array.mem_toList_iff.mp hAdded) x hx with hMem | hRange
    · exact hStays (hIds x hMem)
    · exact Graph.contains_iff.mpr hRange

end Builder

/-- A request to a graph that keeps its use lists. -/
inductive Request
  | build (b : Builder)
  | kill (id : NodeId)
  | replaceUses (old : NodeId) (r : Graph.Replacement)
  | uses (id : NodeId)
  | valueUses (id : NodeId)
  | findProjection (id : NodeId) (index : Int)

namespace Request

/-- The graph and its lists after a request, also one that fails. -/
def serve (s : Indexed) : Request → Indexed
  | build b => ((Indexed.add (b.build ·)).run.run s).2
  | kill id => ((Indexed.kill id).run.run s).2
  | replaceUses old r => ((Indexed.replaceUses old r).run.run s).2
  | uses id => ((Indexed.uses id).run.run s).2
  | valueUses id => ((Indexed.valueUses id).run.run s).2
  | findProjection id index => ((Indexed.findProjection id index).run.run s).2

/-- Whether a request can be made: the nodes it is about are there, and the use lists are asked for
when every edge points to a node. -/
def Admissible (g : Graph) : Request → Prop
  | build _ => True
  | kill id => g.contains id = true
  | replaceUses id _ | uses id | valueUses id | findProjection id _ =>
    g.isClosed = true ∧ g.contains id = true

/-- Whether every number in a request names a node; a negative replacement or anchor is none. -/
def InRange (g : Graph) : Request → Prop
  | build b => ∀ x ∈ b.inputs, g.contains x = true
  | kill id | uses id | valueUses id | findProjection id _ => g.contains id = true
  | replaceUses old r =>
    g.contains old = true ∧ ∀ kind, 0 ≤ r.node kind → g.contains (r.node kind) = true

end Request

namespace Indexed

open ArmBackend.Graph

/-- The states that any requests lead to, from the graph that has only its start node. -/
inductive Reached : Indexed → Prop
  | start : Reached {}
  | serve {s : Indexed} (q : Request) : Reached s → q.Admissible s.graph → Reached (q.serve s)

variable {s : Indexed} {q : Request} {id old : NodeId} {r : Replacement} {g g' : Graph}

theorem run_add {f : Graph → Except Fault (Graph × NodeId)} :
    (∃ g' id, f s.graph = .ok (g', id) ∧ ((add f).run.run s).2 = { graph := g' }) ∨
      ((add f).run.run s).2 = s := by
  cases hf : f s.graph with
  | ok p =>
    refine .inl ⟨p.1, p.2, rfl, ?_⟩
    unfold add
    rw [run_bind run_get, hf]
    rfl
  | error fault =>
    refine .inr ?_
    unfold add
    rw [run_bind run_get, hf]
    rfl

theorem run_kill (hId : s.graph.contains id = true) : (Indexed.kill id).run.run s =
    (.ok (), { graph := { s.graph with
      nodes := s.graph.nodes.setIfInBounds id.toNat { op := .dead } } }) := by
  obtain ⟨h0, hLt⟩ := contains_iff.mp hId
  obtain ⟨n, hn⟩ := exists_node? h0 hLt
  unfold Indexed.kill
  rw [run_bind run_get, Graph.kill, hn]
  rfl

/-- A request leaves lists that are those of the graph: a change drops them. -/
theorem current_serve (hCurrent : s.Current) (h : q.Admissible s.graph) : (q.serve s).Current := by
  cases q with
  | build b =>
    -- a request that changes the graph drops the lists, whatever it does else
    rcases run_add (s := s) (f := (b.build ·)) with ⟨g', id, -, hRun⟩ | hRun
    · rw [Request.serve, hRun]
      exact current_dropped
    · rw [Request.serve, hRun]
      exact hCurrent
  | kill id =>
    rw [Request.serve, run_kill h]
    exact current_dropped
  | replaceUses old r =>
    rw [Request.serve, run_replaceUses hCurrent h.1 h.2]
    exact current_dropped
  | uses id =>
    rw [Request.serve, run_uses hCurrent h.1 h.2]
    exact current_kept
  | valueUses id =>
    rw [Request.serve, run_valueUses hCurrent h.1 h.2]
    exact current_kept
  | findProjection id index =>
    rw [Request.serve, run_findProjection hCurrent h.1 h.2]
    exact current_kept

/-- The lists that are kept are those of the graph. -/
theorem Reached.current (h : Reached s) : s.Current := by
  induction h with
  | start => exact current_dropped
  | serve q _ hq ih => exact current_serve ih hq

end Indexed

namespace Graph

/-! ## What is asked for -/

/-- Whether a list is the uses of a node: every edge to it, once and in order. -/
structure ListsUses (g : Graph) (id : NodeId) (us : List Use) : Prop where
  inOrder : us.Pairwise Use.Before
  mem_iff : ∀ u, u ∈ us ↔ ∃ n, g.node? u.user = some n ∧ n.inputs[u.index]? = some id

/-- Whether a search through a list of edges for a projection gives `p`. -/
def FindsProjection (g : Graph) (index : Int) (us : List Use) (p : NodeId) : Prop :=
  (∃ before u after, us = before ++ u :: after ∧ p = u.user ∧ g.entersProjection index u = true ∧
    ∀ v ∈ before, g.entersProjection index v = false) ∨
  p = -1 ∧ ∀ u ∈ us, g.entersProjection index u = false

/-- Whether a graph is another one with the uses of `old` redirected, and nothing else. -/
structure Redirects (g : Graph) (old : NodeId) (r : Replacement) (g' : Graph) : Prop where
  size : g'.size = g.size
  exit : g'.exit = g.exit
  node : ∀ w n, g.node? w = some n → ∃ inputs, g'.node? w = some { n with inputs } ∧
    inputs.length = n.inputs.length ∧ ∀ i x, n.inputs[i]? = some x →
      inputs[i]? = some (if x = old ∧ 0 ≤ r.node (n.edgeKind i) then r.node (n.edgeKind i) else x)

variable {g : Graph} {id old : NodeId} {r : Replacement}

theorem listsUses_edgesTo : g.ListsUses id (g.edgesTo id) where
  inOrder := pairwise_edgesTo
  mem_iff _ := mem_edgesTo

theorem findsProjection_find (us : List Use) (index : Int) : g.FindsProjection index us
    ((us.find? (g.entersProjection index)).elim (-1) (·.user)) := by
  cases hFind : us.find? (g.entersProjection index) with
  | none =>
    refine .inr ⟨rfl, fun u hu => ?_⟩
    exact Bool.eq_false_iff.mpr (List.find?_eq_none.mp hFind u hu)
  | some u =>
    obtain ⟨hIs, before, after, hSplit, hBefore⟩ := List.find?_eq_some_iff_append.mp hFind
    exact .inl ⟨before, u, after, hSplit, rfl, hIs, fun v hv => by simpa using hBefore v hv⟩

theorem redirects_map : g.Redirects old r { g with nodes := g.nodes.map (·.redirect old r) } where
  size := Array.size_map ..
  exit := rfl
  node w n hn := by
    obtain ⟨i, rfl, hi⟩ := node?_eq_some.mp hn
    refine ⟨(n.redirect old r).inputs, node?_eq_some.mpr ⟨i, rfl, ?_⟩, List.length_mapIdx, ?_⟩
    · rw [Array.getElem?_map, hi]
      rfl
    · intro k x hx
      show (n.inputs.mapIdx _)[k]? = _
      rw [List.getElem?_mapIdx, hx, Option.map_some]
      congr 1
      cases hKind : n.edgeKind k <;> grind [Replacement.node, Replacement.target]

/-! ## Requests with numbers in range -/

theorem contains_congr {g' : Graph} {x : NodeId} (h : g'.size = g.size) :
    g'.contains x = g.contains x := by
  rw [Bool.eq_iff_iff, contains_iff, contains_iff, h]

theorem isClosed_kill (hClosed : g.isClosed = true) (i : Nat) :
    { g with nodes := g.nodes.setIfInBounds i { op := .dead } }.isClosed = true := by
  have hSize : { g with nodes := g.nodes.setIfInBounds i { op := .dead } }.size = g.size :=
    Array.size_setIfInBounds ..
  refine isClosed_iff.mpr fun n hn x hx => ?_
  rw [contains_congr hSize]
  rcases Array.mem_or_eq_of_mem_setIfInBounds (Array.mem_toList_iff.mp hn) with hOld | rfl
  · exact isClosed_iff.mp hClosed n (Array.mem_toList_iff.mpr hOld) x hx
  · cases hx

theorem isClosed_redirect (hClosed : g.isClosed = true)
    (hRange : ∀ kind, 0 ≤ r.node kind → g.contains (r.node kind) = true) :
    { g with nodes := g.nodes.map (Node.redirect · old r) }.isClosed = true := by
  have hSize : { g with nodes := g.nodes.map (Node.redirect · old r) }.size = g.size :=
    Array.size_map ..
  refine isClosed_iff.mpr fun m hm x hx => ?_
  rw [contains_congr hSize]
  obtain ⟨n, hn, rfl⟩ := Array.mem_map.mp (Array.mem_toList_iff.mp hm)
  obtain ⟨i, hi, rfl⟩ := List.mem_mapIdx.mp hx
  -- An input is the old one, or the replacement for its kind if there is one.
  have hOld : g.contains n.inputs[i] = true :=
    isClosed_iff.mp hClosed n (Array.mem_toList_iff.mpr hn) _ (List.getElem_mem hi)
  split
  · next hIs =>
    have hTarget : r.target old (n.edgeKind i) =
        if 0 ≤ r.node (n.edgeKind i) then r.node (n.edgeKind i) else old := by
      cases n.edgeKind i <;> rfl
    rw [hTarget]
    split
    · next hNonneg => exact hRange _ hNonneg
    · exact hIs ▸ hOld
  · exact hOld

end Graph

namespace Indexed

open ArmBackend.Graph

variable {s : Indexed} {q : Request}

/-- In a graph without loose ends, a request with all numbers in range can be made, and leaves a
graph without loose ends. -/
theorem Reached.inRange (h : Reached s) (hClosed : s.graph.isClosed = true)
    (hRange : q.InRange s.graph) :
    q.Admissible s.graph ∧ (q.serve s).graph.isClosed = true := by
  have hCurrent := h.current
  cases q with
  -- A builder that fails leaves the graph as it was.
  | build b =>
    refine ⟨trivial, ?_⟩
    rcases run_add (s := s) (f := (b.build ·)) with ⟨g', id, hBuild, hRun⟩ | hRun
    · rw [Request.serve, hRun]
      exact Builder.isClosed_of_appends (Builder.appends_build hBuild) hClosed hRange
    · rw [Request.serve, hRun]
      exact hClosed
  | kill id =>
    refine ⟨hRange, ?_⟩
    rw [Request.serve, run_kill hRange]
    exact isClosed_kill hClosed _
  | replaceUses old r =>
    refine ⟨⟨hClosed, hRange.1⟩, ?_⟩
    rw [Request.serve, run_replaceUses hCurrent hClosed hRange.1]
    exact isClosed_redirect hClosed hRange.2
  | uses id =>
    refine ⟨⟨hClosed, hRange⟩, ?_⟩
    rw [Request.serve, run_uses hCurrent hClosed hRange]
    exact hClosed
  | valueUses id =>
    refine ⟨⟨hClosed, hRange⟩, ?_⟩
    rw [Request.serve, run_valueUses hCurrent hClosed hRange]
    exact hClosed
  | findProjection id index =>
    refine ⟨⟨hClosed, hRange⟩, ?_⟩
    rw [Request.serve, run_findProjection hCurrent hClosed hRange]
    exact hClosed

/-- After any requests, the questions about a node are answered by the edges of the graph as it is,
and redirecting its uses changes those edges that point to it and whose kind has a replacement.
Requests with numbers in range never leave a loose end, so all of them can be made. -/
theorem Reached.requests_current (h : Reached s) :
    (∀ q : Request, s.graph.isClosed = true → q.InRange s.graph →
      q.Admissible s.graph ∧ (q.serve s).graph.isClosed = true) ∧
    (s.graph.isClosed = true → ∀ id, s.graph.contains id = true →
      ∃ us after, s.graph.ListsUses id us ∧ after.graph = s.graph ∧
        s.graph.uses id = .ok us ∧
        (uses id).run.run s = (.ok us, after) ∧
        (valueUses id).run.run s =
          (.ok (us.filter fun u => s.graph.useKind u = .value).length, after) ∧
        (∀ index, ∃ p, (findProjection id index).run.run s = (.ok p, after) ∧
          s.graph.FindsProjection index us p) ∧
        ∀ r, ∃ g', (replaceUses id r).run.run s = (.ok (), { graph := g' }) ∧
          s.graph.replaceUses id r = .ok g' ∧ s.graph.Redirects id r g') := by
  refine ⟨fun q hClosed hRange => h.inRange hClosed hRange, fun hClosed id hId => ?_⟩
  have hCurrent := h.current
  have hUses : s.graph.uses id = .ok (s.graph.edgesTo id) := by
    unfold Graph.uses
    rw [hClosed, hId]
    rfl
  -- after the first request the lists are built, and every answer leaves that one state
  refine ⟨s.graph.edgesTo id, kept s.graph, listsUses_edgesTo, rfl, hUses,
    run_uses hCurrent hClosed hId, run_valueUses hCurrent hClosed hId, fun index => ?_,
    fun r => ?_⟩
  · exact ⟨_, run_findProjection hCurrent hClosed hId index, findsProjection_find _ index⟩
  · refine ⟨_, run_replaceUses hCurrent hClosed hId, ?_, redirects_map⟩
    unfold Graph.replaceUses
    rw [hUses]
    rfl

/-- Requests after which a join of control stands in place of the node it joins, also at itself, and
the lists of the new graph are kept. -/
def rewiring : List Request :=
  [.build (.merge [0]), .uses 0, .build (.parameter 0 .int32), .replaceUses 0 ⟨-1, -1, 1⟩,
    .valueUses 1]

/-- The state that these requests lead to. -/
def rewired : Indexed :=
  rewiring.foldl (fun s q => q.serve s) {}

theorem requests_current_rewired :
    rewired.lists = some #[[], [⟨1, 0⟩, ⟨2, 0⟩], []] ∧ rewired.graph.isClosed = true ∧
    rewired.graph.contains 1 = true ∧
    ∃ us after, rewired.graph.ListsUses 1 us ∧ after.graph = rewired.graph ∧
      (uses 1).run.run rewired = (.ok us, after) := by
  have hReached : Reached rewired := by
    refine .serve (.valueUses 1) (.serve (.replaceUses 0 _) (.serve (.build _) (.serve (.uses 0)
      (.serve (.build _) .start trivial) ?_) trivial) ?_) ?_
    · exact ⟨by decide +kernel, by decide +kernel⟩
    · exact ⟨by decide +kernel, by decide +kernel⟩
    · exact ⟨by decide +kernel, by decide +kernel⟩
  have hClosed : rewired.graph.isClosed = true := by decide +kernel
  have hId : rewired.graph.contains 1 = true := by decide +kernel
  obtain ⟨us, after, hLists, hAfter, -, hUses, -⟩ := hReached.requests_current.2 hClosed 1 hId
  exact ⟨by decide +kernel, hClosed, hId, us, after, hLists, hAfter, hUses⟩

end Indexed
end ArmBackend
