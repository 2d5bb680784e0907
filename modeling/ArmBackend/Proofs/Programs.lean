import ArmBackend.GraphFile.Program
import ArmBackend.Proofs.Appended

/-!
# What a graph file builds

A name of a graph file is declared in one of three ways: `start` and the names of the parameters are
there from the beginning, and every node of the file may bring one more. `Declares` says which node
a declared name stands for. It looks at the file alone, so a name may be used before the node that
brings it, and by that node itself.

The table of names is made before any node is built, from numbers that the nodes do not have yet. It
is right because the nodes are then added one by one with nothing between them: `addNodes_eq_ok`
says that the entries and the new nodes stand side by side.

## Results

* `mem_table` — the table of names is what the file declares.
* `addNodes_eq_ok`, `buildNode_describes` — the nodes that the entries become.
* `returnsOf_built` — the exit collects the returns in the order of the file.
* `build_resolves` — all that a file that builds is sure of, and two ways to fail.
-/

namespace ArmBackend

/-! ## What a file declares -/

namespace GraphFile

/-- The names that an entry refers to, in the order of its inputs. -/
def NodeEntry.inputs (entry : NodeEntry) : List String :=
  entry.value ++ entry.effect ++ entry.control

/-- The number of the first node of a file: the start node and the parameters come before it. -/
def base (f : GraphFile) : Nat :=
  1 + f.params.length

/-- Whether a name is declared to stand for a node. -/
inductive Declares (f : GraphFile) : String → NodeId → Prop
  | start : Declares f "start" Graph.start
  | parameter {k : Nat} (hk : k < f.params.length) :
      Declares f ("p" ++ Numeral.natural k) ((1 + k : Nat) : Int)
  | node {i : Nat} {entry : NodeEntry} (hEntry : f.nodes[i]? = some entry)
      (hNamed : entry.name ≠ "") : Declares f entry.name ((f.base + i : Nat) : Int)

/-- Whether a node is the one that an entry of a file describes. -/
structure Describes (f : GraphFile) (entry : NodeEntry) (n : Node) : Prop where
  op : Operator.ofName? entry.op = some n.op
  inputs : List.Forall₂ f.Declares entry.inputs n.inputs
  value : n.valueCount = entry.value.length
  effect : n.effectCount = entry.effect.length
  control : n.controlCount = entry.control.length
  int32 : n.op = .constant .int32 →
    (-0x80000000 ≤ entry.int ∧ entry.int ≤ 0xffffffff) ∧
      -0x80000000 ≤ n.int ∧ n.int < 0x80000000 ∧ n.int % 0x100000000 = entry.int % 0x100000000

/-- The number of the node of an entry, if it is a return. -/
def returnOf? (f : GraphFile) (entry : NodeEntry × Nat) : Option NodeId :=
  if Operator.ofName? entry.1.op = some .ret then some ((f.base + entry.2 : Nat) : Int) else none

/-- The numbers of the returns, in the order of the file. -/
def returns (f : GraphFile) : List NodeId :=
  f.nodes.zipIdx.filterMap f.returnOf?

/-- Whether a program is the one that a file describes. -/
structure Builds (f : GraphFile) (p : Program) : Prop where
  names : ∀ name id, p.names.lookup name = some id ↔ f.Declares name id
  start : p.graph.node? Graph.start = some { op := .start }
  parameters : ∀ k type, f.params[k]? = some type → ∃ t, MachineType.ofName? type = some t ∧
    p.graph.node? ((1 + k : Nat) : Int) = some (.parameter k t)
  nodes : ∀ i entry, f.nodes[i]? = some entry →
    ∃ n, p.graph.node? ((f.base + i : Nat) : Int) = some n ∧ f.Describes entry n
  -- the end comes last and takes the returns
  exit : ∃ n, p.graph.exit = some ((f.base + f.nodes.length : Nat) : Int) ∧
    p.graph.node? ((f.base + f.nodes.length : Nat) : Int) = some n ∧ n.op = .exit ∧
    n.inputs = f.returns ∧ f.returns ≠ []
  size : p.graph.size = f.base + f.nodes.length + 1
  verified : p.graph.verify = .ok ()

/-! ## Names -/

theorem natural_injective {m n : Nat} (h : Numeral.natural m = Numeral.natural n) : m = n := by
  have hDigits : Nat.toDigits 10 m = Nat.toDigits 10 n := String.ofList_injective h
  rw [← Nat.ofDigitChars_ten_toDigits (n := m), hDigits, Nat.ofDigitChars_ten_toDigits]

/-- No parameter is called `start`. -/
theorem start_ne (k : Nat) : "start" ≠ "p" ++ Numeral.natural k := by
  intro h
  have hFirst := congrArg (fun s => s.toList.head?) h
  simp at hFirst

/-- The name of the parameter with an index. -/
def parameterName (k : Nat) : String × NodeId :=
  ("p" ++ Numeral.natural k, ((1 + k : Nat) : Int))

/-- The name that an entry brings. -/
def nodeName? (base : NodeId) (entry : NodeEntry × Nat) : Option (String × NodeId) :=
  if entry.1.name = "" then none else some (entry.1.name, base + entry.2)

/-- The table of all names. -/
def table (f : GraphFile) : List (String × NodeId) :=
  ("start", Graph.start) :: (List.range' 0 f.params.length).map parameterName ++
    f.nodes.zipIdx.filterMap (nodeName? f.base)

/-- The table of names is what the file declares. -/
theorem mem_table {f : GraphFile} {name : String} {id : NodeId} :
    (name, id) ∈ f.table ↔ f.Declares name id := by
  unfold table
  rw [List.cons_append, List.mem_cons, List.mem_append, List.mem_map, List.mem_filterMap]
  constructor
  · rintro (hStart | ⟨k, hk, hName⟩ | ⟨⟨entry, i⟩, hEntry, hName⟩)
    · cases hStart
      exact .start
    · cases hName
      exact .parameter (by simpa using hk)
    · obtain ⟨hNamed, hName⟩ := Option.ite_none_left_eq_some.mp hName
      cases hName
      exact .node (List.mk_mem_zipIdx_iff_getElem?.mp hEntry) hNamed
  · rintro (_ | hk | ⟨hEntry, hNamed⟩)
    · exact .inl rfl
    · exact .inr (.inl ⟨_, by simpa using hk, rfl⟩)
    · refine .inr (.inr ⟨_, List.mk_mem_zipIdx_iff_getElem?.mpr hEntry, ?_⟩)
      exact if_neg hNamed

/-- In a table without double keys a name is found just where it stands. -/
theorem lookup_iff_mem {l : List (String × NodeId)} {name : String} {id : NodeId}
    (hNodup : (l.map Prod.fst).Nodup) : l.lookup name = some id ↔ (name, id) ∈ l := by
  induction l with
  | nil => simp
  | cons entry rest ih =>
    obtain ⟨key, x⟩ := entry
    obtain ⟨hNew, hRest⟩ := List.nodup_cons.mp hNodup
    rw [List.lookup_cons, List.mem_cons]
    -- The first key decides; that no later one equals it is what makes the entries found.
    by_cases hSame : name = key
    · subst hSame
      rw [beq_self_eq_true]
      constructor
      · rintro ⟨⟩
        exact .inl rfl
      · rintro (hHere | hLater)
        · cases hHere
          rfl
        · exact absurd (List.mem_map_of_mem (f := Prod.fst) hLater) hNew
    · rw [beq_false_of_ne hSame]
      refine (ih hRest).trans ⟨.inr, ?_⟩
      rintro (hHere | hLater)
      · cases hHere
        exact absurd rfl hSame
      · exact hLater

/-! ## The table is made -/

/-- The parameters come one after the other, and each brings its name. -/
theorem addParams_eq_ok {index : Nat} {types : List String} {p q : Program}
    (hSize : p.graph.size = 1 + index) (h : addParams index types p = .ok q) :
    ∃ ts : List MachineType, types.map MachineType.ofName? = ts.map some ∧
      q.graph = p.graph.append ((ts.zipIdx index).map fun t => .parameter t.2 t.1) ∧
      q.names = p.names ++ (List.range' index types.length).map parameterName := by
  induction types generalizing index p with
  | nil =>
    cases h
    refine ⟨[], rfl, ?_, ?_⟩
    · simp [Graph.append]
    · simp
  | cons type rest ih =>
    unfold addParams at h
    split at h
    · cases h
    · next t hType =>
      rw [Graph.push_eq] at h
      -- The name of the next parameter is right because the graph has grown by one.
      have hNext : (p.graph.append [.parameter index t]).size = 1 + (index + 1) := by
        rw [Graph.size_append, hSize]
        rfl
      obtain ⟨ts, hTypes, hGraph, hNames⟩ := ih hNext h
      refine ⟨t :: ts, ?_, ?_, ?_⟩
      · rw [List.map_cons, List.map_cons, hType, hTypes]
      · rw [hGraph, Graph.append_append]
        rfl
      · rw [hNames, List.append_assoc, List.length_cons, List.range'_succ, List.map_cons,
          parameterName, hSize]
        rfl

/-- The names of the nodes come behind those that were there, and none of them is there twice. -/
theorem addNames_eq_ok {base : NodeId} {index : Nat} {entries : List NodeEntry}
    {names names' : List (String × NodeId)} (h : addNames base index entries names = .ok names') :
    names' = names ++ (entries.zipIdx index).filterMap (nodeName? base) ∧
      ((names.map Prod.fst).Nodup → (names'.map Prod.fst).Nodup) := by
  induction entries generalizing index names with
  | nil =>
    cases h
    exact ⟨(List.append_nil _).symm, id⟩
  | cons entry rest ih =>
    unfold addNames at h
    rw [List.zipIdx_cons]
    split at h
    · next hUnnamed =>
      -- An entry without a name leaves the table as it is.
      have hNone : nodeName? base (entry, index) = none := if_pos hUnnamed
      rw [List.filterMap_cons_none hNone]
      exact ih h
    · next hNamed =>
      split at h
      · cases h
      · next hFree =>
        obtain ⟨hNames, hNodup⟩ := ih h
        have hSome : nodeName? base (entry, index) = some (entry.name, base + index) :=
          if_neg hNamed
        rw [List.filterMap_cons_some hSome]
        refine ⟨by rw [hNames, List.append_assoc]; rfl, fun hOld => hNodup ?_⟩
        -- The name that is added was looked for in the table and not found.
        rw [List.map_append, List.nodup_append]
        refine ⟨hOld, List.nodup_singleton _, ?_⟩
        rintro key hKey _ hAdded rfl
        obtain ⟨⟨_, id⟩, hEntry, rfl⟩ := List.mem_map.mp hKey
        rw [List.map_singleton, List.mem_singleton] at hAdded
        subst hAdded
        rw [(lookup_iff_mem hOld).mpr hEntry] at hFree
        exact hFree rfl

/-- The names of the parameters and `start` differ. -/
theorem nodup_parameterNames (count : Nat) :
    ((("start", Graph.start) :: (List.range' 0 count).map parameterName).map Prod.fst).Nodup := by
  rw [List.map_cons, List.map_map, List.nodup_cons]
  constructor
  · intro hMem
    obtain ⟨k, -, hSame⟩ := List.mem_map.mp hMem
    exact start_ne k hSame.symm
  · refine List.Nodup.map_on ?_ List.nodup_range'
    intro j _ k _ hSame
    exact natural_injective ((String.append_right_inj "p").mp hSame)

/-! ## The nodes are built -/

theorem inContext_eq_ok {α : Type} {context : String} {e : Except Fault α} {a : α} :
    inContext context e = .ok a ↔ e = .ok a := by
  cases e with
  | ok b => exact Iff.rfl
  | error fault =>
    constructor
    · rintro ⟨⟩
    · rintro ⟨⟩

/-- Every name is found, and each gives one input. -/
theorem resolve_eq_ok {names : List (String × NodeId)} {inputs : List String} {ids : List NodeId}
    (h : resolve names inputs = .ok ids) :
    List.Forall₂ (fun name id => names.lookup name = some id) inputs ids := by
  unfold resolve at h
  induction inputs generalizing ids with
  | nil =>
    cases h
    exact .nil
  | cons name rest ih =>
    rw [List.mapM_cons] at h
    obtain ⟨id, hId, h⟩ := bind_eq_ok.mp h
    obtain ⟨ids', hIds, h⟩ := bind_eq_ok.mp h
    cases pure_eq_ok.mp h
    refine .cons ?_ (ih hIds)
    split at hId
    · next hFound =>
      cases hId
      exact hFound
    · cases hId

/-- The parameters of an operator leave its inputs alone. -/
theorem withPayload_eq_ok {entry : NodeEntry} {n m : Node} (h : withPayload entry n = .ok m) :
    m = { n with int := m.int, float := m.float, name := m.name } := by
  unfold withPayload at h
  -- The payload goes into the one field that its kind has.
  split at h
  · split at h
    · cases h
      rfl
    · cases h
  · cases h
    rfl
  · cases h
    rfl
  · split at h
    · cases h
    · cases h
      rfl
  · split at h
    · cases h
    · cases h
      rfl
  · cases h
    rfl
  · cases h
    rfl
  · cases h
    rfl

/-- A 32 bit constant is in range, and the node has the integer that it stands for. -/
theorem withPayload_int32 {entry : NodeEntry} {n m : Node} (hOp : n.op = .constant .int32)
    (h : withPayload entry n = .ok m) :
    (-0x80000000 ≤ entry.int ∧ entry.int ≤ 0xffffffff) ∧
      m.int = (BitVec.ofInt 32 entry.int).toInt := by
  unfold withPayload at h
  rw [hOp] at h
  dsimp only at h
  split at h
  · next hRange =>
    cases h
    exact ⟨hRange, rfl⟩
  · cases h

/-- The node of an entry is what the entry describes, as far as the table of names is right. -/
theorem buildNode_describes {f : GraphFile} {names : List (String × NodeId)} {entry : NodeEntry}
    {n : Node} (hNames : ∀ name id, names.lookup name = some id → f.Declares name id)
    (h : buildNode names entry = .ok n) : f.Describes entry n := by
  unfold buildNode at h
  split at h
  · next op hOp =>
    simp only [bind_eq_ok, check_eq_ok, pure_eq_ok] at h
    obtain ⟨ids, hIds, m, hm, rep, -, mach, -, barrier, -, -, rfl⟩ := h
    have hKept := withPayload_eq_ok hm
    have hmOp : m.op = op := by rw [hKept]
    constructor
    · exact hmOp ▸ hOp
    · show List.Forall₂ f.Declares entry.inputs m.inputs
      rw [hKept]
      exact (resolve_eq_ok hIds).imp hNames
    · show m.valueCount = _
      rw [hKept]
    · show m.effectCount = _
      rw [hKept]
    · show m.controlCount = _
      rw [hKept]
    · intro hInt32
      obtain ⟨hRange, hInt⟩ := withPayload_int32 (hmOp.symm.trans hInt32) hm
      show _ ∧ -0x80000000 ≤ m.int ∧ m.int < 0x80000000 ∧ m.int % 0x100000000 = _
      -- The signed number of 32 bits is the one congruent to the field.
      rw [hInt]
      refine ⟨hRange, BitVec.le_toInt _, BitVec.toInt_lt, ?_⟩
      rw [BitVec.toInt_ofInt]
      exact Int.bmod_emod
  · cases h

/-- The nodes of the entries come one after the other behind those that were there. -/
theorem addNodes_eq_ok {names : List (String × NodeId)} {index : Nat} {entries : List NodeEntry}
    {g g' : Graph} (h : addNodes names index entries g = .ok g') :
    ∃ ns, List.Forall₂ (fun entry n => buildNode names entry = .ok n) entries ns ∧
      g' = g.append ns := by
  induction entries generalizing index g with
  | nil =>
    cases h
    exact ⟨[], .nil, by simp [Graph.append]⟩
  | cons entry rest ih =>
    unfold addNodes at h
    obtain ⟨n, hn, h⟩ := bind_eq_ok.mp h
    rw [Graph.push_eq] at h
    obtain ⟨ns, hBuilt, rfl⟩ := ih h
    exact ⟨n :: ns, .cons (inContext_eq_ok.mp hn) hBuilt, Graph.append_append _ _⟩

/-! ## The exit -/

/-- The number of a node, if it is a return. -/
def returnAt? (p : Node × Nat) : Option NodeId :=
  if p.1.op = .ret then some (p.2 : Int) else none

theorem returnsOf_append (g : Graph) (ns : List Node) :
    returnsOf (g.append ns) = returnsOf g ++ (ns.zipIdx g.size).filterMap returnAt? := by
  unfold returnsOf
  rw [Graph.zipIdx_append, List.filterMap_append]
  rfl

/-- The returns among the new nodes are those that the entries ask for. -/
theorem filterMap_returns {f : GraphFile} {entries : List NodeEntry} {ns : List Node}
    (h : List.Forall₂ f.Describes entries ns) (k : Nat) :
    (ns.zipIdx (f.base + k)).filterMap returnAt? =
      (entries.zipIdx k).filterMap f.returnOf? := by
  induction h generalizing k with
  | nil => rfl
  | @cons entry n entries ns hHead _ ih =>
    rw [List.zipIdx_cons, List.zipIdx_cons]
    -- The name of the operator and the operator of the node tell returns alike.
    have hIff : Operator.ofName? entry.op = some .ret ↔ n.op = .ret := by
      rw [hHead.op, Option.some.injEq]
    by_cases hRet : n.op = .ret
    · have hNode : returnAt? (n, f.base + k) = some ((f.base + k : Nat) : Int) := if_pos hRet
      have hEntry : f.returnOf? (entry, k) = some ((f.base + k : Nat) : Int) :=
        if_pos (hIff.mpr hRet)
      rw [List.filterMap_cons_some hNode, List.filterMap_cons_some hEntry]
      exact congrArg (_ :: ·) (ih (k + 1))
    · have hNode : returnAt? (n, f.base + k) = none := if_neg hRet
      have hEntry : f.returnOf? (entry, k) = none := if_neg fun hOp => hRet (hIff.mp hOp)
      rw [List.filterMap_cons_none hNode, List.filterMap_cons_none hEntry]
      exact ih (k + 1)

/-- No parameter is a return. -/
theorem filterMap_parameters (ts : List (MachineType × Nat)) (k : Nat) :
    ((ts.map fun t => Node.parameter t.2 t.1).zipIdx k).filterMap returnAt? = [] := by
  refine List.filterMap_eq_nil_iff.mpr ?_
  rintro ⟨n, id⟩ hMem
  obtain ⟨-, hn⟩ := List.mem_zipIdx_iff_le_and_getElem?_sub.mp hMem
  obtain ⟨t, -, rfl⟩ := List.mem_map.mp (List.mem_of_getElem? hn)
  rfl

/-! ## What is built -/

/-- The start node stays where it is. -/
theorem node?_start (ns : List Node) :
    (Graph.empty.append ns).node? Graph.start = some { op := .start } :=
  Graph.node?_append rfl

/-- The nodes behind the start node are numbered from one. -/
theorem node?_append_empty (ns : List Node) (j : Nat) :
    (Graph.empty.append ns).node? ((1 + j : Nat) : Int) = ns[j]? := by
  unfold Graph.node? Graph.append
  rw [if_neg (Int.not_lt.mpr (Int.natCast_nonneg _)), Int.toNat_natCast,
    Array.getElem?_append_right (Nat.le_add_right 1 j), List.getElem?_toArray]
  exact congrArg (ns[·]?) (Nat.add_sub_cancel_left 1 j)

/-- A program is what its file describes when its nodes are the start node, the parameters, the
nodes of the entries and the exit. -/
theorem builds_of_nodes {f : GraphFile} {p : Program} {ts : List MachineType} {ps ns : List Node}
    (hNames : ∀ name id, p.names.lookup name = some id ↔ f.Declares name id)
    (hTypes : f.params.map MachineType.ofName? = ts.map some)
    (hParams : ps = ts.zipIdx.map fun t => Node.parameter t.2 t.1)
    (hEntries : List.Forall₂ f.Describes f.nodes ns)
    (hNodes : p.graph.nodes = (Graph.empty.append (ps ++ ns ++ [.collect f.returns])).nodes)
    (hExit : p.graph.exit = some ((f.base + f.nodes.length : Nat) : Int))
    (hReturns : f.returns ≠ []) (hVerify : p.graph.verify = .ok ()) : f.Builds p := by
  -- Every type is known, so there is a node for every parameter.
  have hCount : ps.length = f.params.length := by
    rw [hParams, List.length_map, List.length_zipIdx, ← List.length_map some, ← hTypes,
      List.length_map]
  have hNode : ∀ j : Nat, p.graph.node? ((1 + j : Nat) : Int) =
      (ps ++ ns ++ [.collect f.returns])[j]? := by
    intro j
    unfold Graph.node?
    rw [hNodes]
    exact node?_append_empty _ j
  have hLength : ns.length = f.nodes.length := hEntries.length_eq.symm
  constructor
  · exact hNames
  · have hStart := node?_start (ps ++ ns ++ [.collect f.returns])
    unfold Graph.node? at hStart ⊢
    rw [hNodes]
    exact hStart
  · -- A parameter stands among the first nodes, and its type is what the file calls it.
    intro k type hType
    have hOfName : (f.params.map MachineType.ofName?)[k]? = some (MachineType.ofName? type) := by
      rw [List.getElem?_map, hType]
      rfl
    rw [hTypes, List.getElem?_map, Option.map_eq_some_iff] at hOfName
    obtain ⟨t, ht, hName⟩ := hOfName
    have hParam : ps[k]? = some (.parameter k t) := by
      rw [hParams, List.getElem?_map, List.getElem?_zipIdx, ht]
      simp
    refine ⟨t, hName.symm, ?_⟩
    rw [hNode, List.append_assoc,
      List.getElem?_append_left (List.getElem?_eq_some_iff.mp hParam).1, hParam]
  · -- The node of an entry has the place of the entry, behind the parameters.
    intro i entry hEntry
    obtain ⟨hLt, rfl⟩ := List.getElem?_eq_some_iff.mp hEntry
    have hNew : i < ns.length := hLength ▸ hLt
    refine ⟨ns[i], ?_, (List.forall₂_iff_get.mp hEntries).2 i hLt hNew⟩
    rw [base, Nat.add_assoc, hNode, ← hCount, List.append_assoc,
      List.getElem?_append_right (Nat.le_add_right _ _), Nat.add_sub_cancel_left,
      List.getElem?_append_left hNew, List.getElem?_eq_getElem hNew]
  · refine ⟨.collect f.returns, hExit, ?_, rfl, rfl, hReturns⟩
    rw [base, Nat.add_assoc, hNode, ← hCount, ← hLength, ← List.length_append,
      List.getElem?_append_right (Nat.le_refl _), Nat.sub_self]
    rfl
  · show p.graph.nodes.size = _
    rw [hNodes]
    show (Graph.empty.append _).size = _
    rw [Graph.size_append, base, ← hCount, ← hLength]
    simp [Graph.empty, Graph.size]
    omega
  · exact hVerify

/-- A file that builds describes what is built. -/
theorem builds_of_build {f : GraphFile} {p : Program} (h : f.build = .ok p) : f.Builds p := by
  unfold build at h
  simp only [bind_eq_ok, check_eq_ok, pure_eq_ok] at h
  obtain ⟨-, -, q, hParams, names, hTable, g, hNodes, hReturns, ⟨⟩, hVerify, rfl⟩ := h
  obtain ⟨ts, hTypes, hGraph, hParamNames⟩ := addParams_eq_ok rfl hParams
  have hBase : q.graph.size = f.base := by
    rw [hGraph, Graph.size_append, List.length_map, List.length_zipIdx, ← List.length_map some,
      ← hTypes, List.length_map]
    rfl
  -- The names are those of the table, and no name is there twice.
  obtain ⟨hNames, hNodup⟩ := addNames_eq_ok hTable
  rw [hBase, hParamNames] at hNames
  rw [hParamNames] at hNodup
  have hDeclares : ∀ name id, names.lookup name = some id ↔ f.Declares name id := by
    intro name id
    rw [lookup_iff_mem (hNodup (nodup_parameterNames _)), ← mem_table, hNames]
    rfl
  obtain ⟨ns, hBuilt, hAppended⟩ := addNodes_eq_ok hNodes
  have hEntries : List.Forall₂ f.Describes f.nodes ns :=
    hBuilt.imp fun _ _ hNode => buildNode_describes (fun name id => (hDeclares name id).mp) hNode
  -- Neither the start node nor a parameter is a return, so the nodes of the file decide.
  have hReturnsOf : returnsOf g = f.returns := by
    rw [hAppended, returnsOf_append, hGraph, returnsOf_append, filterMap_parameters,
      ← hGraph, hBase]
    exact filterMap_returns hEntries 0
  rw [hReturnsOf] at hReturns hVerify ⊢
  refine builds_of_nodes hDeclares hTypes rfl hEntries ?_ ?_ ?_ hVerify
  · show (g.push _).1.nodes = _
    rw [Graph.push_eq, hAppended, hGraph, Graph.append_append, Graph.append_append,
      List.append_assoc]
  · show some (g.size : Int) = _
    rw [hAppended, Graph.size_append, hBase, hEntries.length_eq]
  · intro hNil
    exact hReturns (by rw [hNil]; rfl)

namespace Builds

variable {f : GraphFile} {p : Program} {name : String} {id id' : NodeId}

/-- A name stands for one node only. -/
theorem unique (h : f.Builds p) (hName : f.Declares name id) (hName' : f.Declares name id') :
    id = id' := by
  have hFound := (h.names name id).mpr hName
  rw [(h.names name id').mpr hName'] at hFound
  exact (Option.some.inj hFound).symm

/-- No two nodes of the file have one name. -/
theorem distinct (h : f.Builds p) {i j : Nat} {entry entry' : NodeEntry}
    (hi : f.nodes[i]? = some entry) (hj : f.nodes[j]? = some entry') (hNamed : entry.name ≠ "")
    (hSame : entry.name = entry'.name) : i = j := by
  have hFirst := Declares.node hi hNamed
  have hSecond := Declares.node hj (hSame ▸ hNamed)
  rw [← hSame] at hSecond
  have hId := Int.ofNat_inj.mp (h.unique hFirst hSecond)
  exact Nat.add_left_cancel hId

/-- No node of the file is called `start` or like a parameter: it comes behind them. -/
theorem fresh (h : f.Builds p) {entry : NodeEntry} (hEntry : entry ∈ f.nodes) :
    entry.name ≠ "start" ∧ ∀ k < f.params.length, entry.name ≠ "p" ++ Numeral.natural k := by
  obtain ⟨i, hi⟩ := List.mem_iff_getElem?.mp hEntry
  constructor
  · intro hSame
    -- It would stand for the start node and for a node behind it.
    have hNode := Declares.node hi (by rw [hSame]; decide)
    rw [hSame] at hNode
    have hId := h.unique hNode .start
    have hZero : f.base + i = 0 := Int.ofNat_inj.mp hId
    unfold base at hZero
    omega
  · intro k hk hSame
    have hNamed : entry.name ≠ "" := by
      intro hEmpty
      have hLength := congrArg String.length (hSame.symm.trans hEmpty)
      simp at hLength
    have hNode := Declares.node hi hNamed
    rw [hSame] at hNode
    have hId := Int.ofNat_inj.mp (h.unique hNode (.parameter hk))
    unfold base at hId
    omega

/-- Every name that an entry refers to is declared. -/
theorem declared (h : f.Builds p) {entry : NodeEntry} (hEntry : entry ∈ f.nodes)
    (hName : name ∈ entry.inputs) : ∃ id, f.Declares name id := by
  obtain ⟨i, hi⟩ := List.mem_iff_getElem?.mp hEntry
  obtain ⟨n, -, hDescribes⟩ := h.nodes i entry hi
  obtain ⟨j, hj⟩ := List.mem_iff_getElem?.mp hName
  obtain ⟨hLt, rfl⟩ := List.getElem?_eq_some_iff.mp hj
  obtain ⟨hLength, hAll⟩ := List.forall₂_iff_get.mp hDescribes.inputs
  exact ⟨_, hAll j hLt (hLength ▸ hLt)⟩

end Builds

/-- What does not describe a program does not build. -/
theorem build_fails {f : GraphFile} (h : ∀ p, ¬f.Builds p) : ∃ fault, f.build = .error fault := by
  cases hBuild : f.build with
  | error fault => exact ⟨fault, rfl⟩
  | ok p => exact absurd (builds_of_build hBuild) (h p)

/-- What a graph file that builds is sure of: every name stands for `start`, a parameter or the one
node that has it; every node of the file has its place, its operator and the inputs that its names
stand for; the exit collects the returns. A file that uses a name that is not declared, or declares
one twice, does not build. -/
theorem build_resolves (f : GraphFile) :
    (∀ p, f.build = .ok p → f.Builds p ∧
      (∀ (i j : Nat) (entry entry' : NodeEntry), f.nodes[i]? = some entry →
        f.nodes[j]? = some entry' → entry.name ≠ "" → entry.name = entry'.name → i = j) ∧
      ∀ entry ∈ f.nodes, entry.name ≠ "start" ∧
        ∀ k < f.params.length, entry.name ≠ "p" ++ Numeral.natural k) ∧
    (∀ entry ∈ f.nodes, ∀ name ∈ entry.inputs, (∀ id, ¬f.Declares name id) →
      ∃ fault, f.build = .error fault) ∧
    ∀ name id id', f.Declares name id → f.Declares name id' → id ≠ id' →
      ∃ fault, f.build = .error fault := by
  refine ⟨?_, ?_, ?_⟩
  · intro p hBuild
    have hBuilds := builds_of_build hBuild
    exact ⟨hBuilds, fun i j entry entry' => hBuilds.distinct, fun entry => hBuilds.fresh⟩
  · intro entry hEntry name hName hUndeclared
    refine build_fails fun p hBuilds => ?_
    obtain ⟨id, hDeclared⟩ := hBuilds.declared hEntry hName
    exact hUndeclared id hDeclared
  · intro name id id' hName hName' hNe
    exact build_fails fun p hBuilds => hNe (hBuilds.unique hName hName')

/-- A loop: the join refers to nodes behind it, and one value to itself. -/
def counting : GraphFile where
  params := ["int32"]
  nodes := [
    { name := "head", op := "Merge", control := ["start", "again"] },
    { name := "i", op := "Phi", rep := "word32", value := ["p0", "next"], control := ["head"] },
    { name := "same", op := "Phi", rep := "word32", value := ["i", "same"], control := ["head"] },
    { name := "next", op := "Int32Add", value := ["same", "step"] },
    { name := "step", op := "Int32Constant", int := 0xffffffff },
    { name := "more", op := "Branch", value := ["next"], control := ["head"] },
    { name := "again", op := "IfTrue", control := ["more"] },
    { name := "done", op := "IfFalse", control := ["more"] },
    { op := "Return", value := ["next"], effect := ["start"], control := ["done"] }]

theorem build_resolves_counting :
    (∃ p, counting.build = .ok p ∧ counting.Builds p ∧ counting.returns = [10]) ∧
    (∃ fault, { counting with params := [] }.build = .error fault) ∧
    ∃ fault, { counting with nodes := counting.nodes ++ counting.nodes }.build = .error fault := by
  refine ⟨?_, ?_, ?_⟩
  · have hSome : counting.build.toOption.isSome = true := by decide +kernel
    obtain ⟨p, hp⟩ := Option.isSome_iff_exists.mp hSome
    have hBuild := toOption_eq_some.mp hp
    exact ⟨p, hBuild, ((build_resolves counting).1 p hBuild).1, by decide +kernel⟩
  · -- Without the parameter the second node refers to no name of the table.
    let f : GraphFile := { counting with params := [] }
    refine (build_resolves f).2.1 f.nodes[1] (by decide +kernel) "p0" (by decide +kernel) ?_
    intro id hDeclared
    have hKey : "p0" ∈ f.table.map Prod.fst := List.mem_map_of_mem (mem_table.mpr hDeclared)
    exact absurd hKey (by decide +kernel)
  · -- Written twice, the first name stands for the first node and for the tenth.
    let f : GraphFile := { counting with nodes := counting.nodes ++ counting.nodes }
    have hFirst : f.Declares "head" 2 := .node (f := f) (i := 0) rfl (by decide)
    have hSecond : f.Declares "head" 11 := .node (f := f) (i := 9) rfl (by decide)
    exact (build_resolves f).2.2 "head" 2 11 hFirst hSecond (by decide)

end GraphFile
end ArmBackend
