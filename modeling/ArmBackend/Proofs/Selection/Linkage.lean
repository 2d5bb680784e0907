import ArmBackend.Proofs.Selection.Quiet
import ArmBackend.Proofs.Selection.Returns
import Mathlib.Data.List.Sort

/-!
# Caller and callee

Where an argument is depends on two numbers alone: how many doubles and how many other arguments
stand before it. `Linkage.place` says how, and the three counters of a linkage are just these two
numbers, with what is beyond the registers counted as slots.

The caller goes through the arguments of a call in their order and asks for the representation of
each. The callee goes through its parameters by their indices, wherever they stand in the graph, and
looks at their types. Where the two see the same kinds, they come to the same places.

## Results

* `Linkage.getElem?_locations` — the place of every argument.
* `Linkage.nodup_locations`, `Linkage.slots_locations` — no place is given twice, and the slots are
  given in order.
* `indices_parameters` — the parameters in the order of their indices.
* `assignParameters_places`, `coverCall_places` — where the callee and the caller put arguments.
* `caller_agrees_callee` — they put them in the same places.
-/

namespace ArmBackend

/-- The stack slot that a location is. -/
def Location.slot? : Location → Option Int
  | .stackSlot index => some index
  | _ => none

namespace Linkage

/-! ## Places -/

/-- How many of so many doubles and other arguments find no register. -/
def spilled (doubles others : Nat) : Nat :=
  (doubles - doubleCount) + (others - registerCount)

/-- The place of an argument with so many doubles and so many other arguments before it. -/
def place (double : Bool) (doubles others : Nat) : Location :=
  if double then
    if doubles < doubleCount then .fixedDouble doubles else .stackSlot (spilled doubles others)
  else if others < registerCount then .fixedRegister others else .stackSlot (spilled doubles others)

/-- The linkage behind so many doubles and other arguments. -/
def behind (doubles others : Nat) : Linkage where
  registers := min others registerCount
  doubles := min doubles doubleCount
  slots := spilled doubles others

variable {d o : Nat} {x y : Bool} {kinds : List Bool}

theorem next_behind (x : Bool) (d o : Nat) :
    (behind d o).next x = (behind (d + x.toNat) (o + (!x).toNat), place x d o) := by
  unfold next behind place spilled doubleCount registerCount
  -- The counter of the own kind goes up while there are registers, and then the slots do.
  -- The counter of the other kind stays.
  cases x
  · by_cases hFree : o < 4
    · simp [hFree, Nat.min_eq_left (Nat.le_of_lt hFree)]
      omega
    · simp [hFree]
      omega
  · by_cases hFree : d < 8
    · simp [hFree, Nat.min_eq_left (Nat.le_of_lt hFree)]
      omega
    · simp [hFree]
      omega

theorem locations_cons (x : Bool) (kinds : List Bool) (d o : Nat) :
    locations (behind d o) (x :: kinds) =
      place x d o :: locations (behind (d + x.toNat) (o + (!x).toNat)) kinds := by
  rw [locations, next_behind]

theorem count_toNat (x : Bool) (kinds : List Bool) (y : Bool) :
    (x :: kinds).count y = (x == y).toNat + kinds.count y := by
  rw [List.count_cons, Nat.add_comm]
  cases x == y <;> rfl

/-- The place of every argument, behind others. -/
theorem getElem?_locations_behind (k : Nat) :
    (locations (behind d o) kinds)[k]? = kinds[k]?.map fun x =>
      place x (d + (kinds.take k).count true) (o + (kinds.take k).count false) := by
  induction kinds generalizing d o k with
  | nil => rfl
  | cons y rest ih =>
    rw [locations_cons]
    -- The first argument is counted among those before any later one.
    cases k with
    | zero => rfl
    | succ k =>
      rw [List.getElem?_cons_succ, List.getElem?_cons_succ, ih, List.take_succ_cons, count_toNat,
        count_toNat, ← Nat.add_assoc, ← Nat.add_assoc]
      cases y <;> rfl

theorem getElem?_locations (kinds : List Bool) (k : Nat) :
    (locations {} kinds)[k]? = kinds[k]?.map fun x =>
      place x ((kinds.take k).count true) ((kinds.take k).count false) := by
  have hAll : (locations (behind 0 0) kinds)[k]? = _ := getElem?_locations_behind k
  simp only [Nat.zero_add] at hAll
  exact hAll

theorem length_locations (l : Linkage) (kinds : List Bool) :
    (locations l kinds).length = kinds.length := by
  induction kinds generalizing l with
  | nil => rfl
  | cons x rest ih => exact congrArg (· + 1) (ih _)

/-- The first places depend on the first kinds only. -/
theorem take_locations (l : Linkage) (kinds : List Bool) (k : Nat) :
    (locations l kinds).take k = locations l (kinds.take k) := by
  induction kinds generalizing l k with
  | nil => simp [locations]
  | cons x rest ih =>
    cases k with
    | zero => rfl
    | succ k => exact congrArg (_ :: ·) (ih _ k)

/-- An argument and a later one have different places: the later one has more arguments of the kind
of the first before it. -/
theorem place_ne {d' o' : Nat} (hd : d + x.toNat ≤ d') (ho : o + (!x).toNat ≤ o') :
    place x d o ≠ place y d' o' := by
  unfold place spilled doubleCount registerCount
  -- Two registers of one kind differ by their counts, and two slots because the first argument
  -- spilled itself, which raises the number of the second.
  cases x <;> cases y
  all_goals
    simp only [Bool.toNat_false, Bool.toNat_true, Bool.not_true, Bool.not_false, reduceIte,
      Bool.false_eq_true] at hd ho ⊢
    split <;> split <;> simp <;> omega

theorem mem_locations {p : Location} (hp : p ∈ locations (behind d o) kinds) :
    ∃ y d' o', d ≤ d' ∧ o ≤ o' ∧ p = place y d' o' := by
  obtain ⟨k, hk⟩ := List.mem_iff_getElem?.mp hp
  rw [getElem?_locations_behind, Option.map_eq_some_iff] at hk
  obtain ⟨y, -, rfl⟩ := hk
  exact ⟨y, _, _, Nat.le_add_right _ _, Nat.le_add_right _ _, rfl⟩

theorem nodup_locations_behind : (locations (behind d o) kinds).Nodup := by
  induction kinds generalizing d o with
  | nil => exact .nil
  | cons x rest ih =>
    rw [locations_cons]
    refine List.nodup_cons.mpr ⟨?_, ih⟩
    intro hMem
    obtain ⟨y, d', o', hd, ho, hSame⟩ := mem_locations hMem
    exact place_ne hd ho hSame

/-- An argument takes the next slot or none. -/
theorem slot?_place (x : Bool) (d o : Nat) :
    (place x d o).slot? = none ∧ spilled (d + x.toNat) (o + (!x).toNat) = spilled d o ∨
      (place x d o).slot? = some (spilled d o : Int) ∧
        spilled (d + x.toNat) (o + (!x).toNat) = spilled d o + 1 := by
  unfold place spilled doubleCount registerCount
  cases x
  all_goals
    simp only [Bool.toNat_false, Bool.toNat_true, Bool.not_true, Bool.not_false, reduceIte,
      Bool.false_eq_true]
    split
    · exact .inl ⟨rfl, by omega⟩
    · exact .inr ⟨rfl, by omega⟩

/-- The slots are given one after the other. -/
theorem slots_locations_behind :
    (locations (behind d o) kinds).filterMap Location.slot? =
      (List.range' (spilled d o)
        ((locations (behind d o) kinds).filterMap Location.slot?).length).map
          fun slot => ((slot : Nat) : Int) := by
  induction kinds generalizing d o with
  | nil => rfl
  | cons x rest ih =>
    rw [locations_cons]
    rcases slot?_place x d o with ⟨hSlot, hNext⟩ | ⟨hSlot, hNext⟩
    · rw [List.filterMap_cons_none hSlot, ← hNext]
      exact ih
    · rw [List.filterMap_cons_some hSlot, List.length_cons, List.range'_succ, List.map_cons,
        ← hNext]
      exact congrArg (_ :: ·) ih

theorem nodup_locations (kinds : List Bool) : (locations {} kinds).Nodup :=
  nodup_locations_behind (d := 0) (o := 0)

theorem slots_locations (kinds : List Bool) :
    (locations {} kinds).filterMap Location.slot? =
      (List.range ((locations {} kinds).filterMap Location.slot?).length).map
        fun slot => ((slot : Nat) : Int) := by
  have hSlots : (locations (behind 0 0) kinds).filterMap Location.slot? = _ :=
    slots_locations_behind
  rw [List.range_eq_range']
  exact hSlots

end Linkage

/-! ## Parameters -/

/-- Whether a node is the parameter with an index, of a type. -/
def Graph.IsParameter (g : Graph) (k : Nat) (id : NodeId) (type : MachineType) : Prop :=
  ∃ n, g.node? id = some n ∧ n.op = .parameter ∧ n.int = k ∧ n.mach = type

/-- Whether the parameters of a graph have the indices below a number, each one once. -/
structure Graph.Numbered (g : Graph) (count : Nat) : Prop where
  index : ∀ {id n}, g.node? id = some n → n.op = .parameter → ∃ k < count, n.int = (k : Nat)
  distinct : ∀ {id id' n n'}, g.node? id = some n → n.op = .parameter →
    g.node? id' = some n' → n'.op = .parameter → n.int = n'.int → id = id'
  every : ∀ k < count, ∃ id type, g.IsParameter k id type

namespace Selection

variable {g : Graph} {site : Site} {s : State} {count : Nat}

theorem mem_parameters {p : NodeId × Node} :
    p ∈ parameters g ↔ g.node? p.1 = some p.2 ∧ p.2.op = .parameter := by
  unfold parameters
  rw [List.mem_mergeSort, List.mem_filterMap]
  constructor
  · rintro ⟨⟨n, i⟩, hMem, hSome⟩
    simp only [Option.ite_none_right_eq_some, Option.some.injEq] at hSome
    obtain ⟨hOp, rfl⟩ := hSome
    exact ⟨Graph.mem_zipIdx.mp hMem, hOp⟩
  · rintro ⟨hn, hOp⟩
    obtain ⟨i, hId, -⟩ := Graph.node?_eq_some.mp hn
    refine ⟨(p.2, i), Graph.mem_zipIdx.mpr (hId ▸ hn), ?_⟩
    simp only [if_pos hOp, ← hId]

/-- No parameter is listed twice. -/
theorem nodup_parameters (g : Graph) : ((parameters g).map Prod.fst).Nodup := by
  unfold parameters
  refine ((List.mergeSort_perm _ _).map _).nodup_iff.mpr ?_
  -- The list is made from the arena, where every node has its own index.
  have hNodup : (g.nodes.toList.zipIdx.map Prod.snd).Nodup := by
    rw [List.zipIdx_map_snd]
    exact List.nodup_range'
  have hPlaces := List.pairwise_map.mp hNodup
  refine List.pairwise_map.mpr (List.pairwise_filterMap.mpr (hPlaces.imp ?_))
  rintro ⟨n, i⟩ ⟨n', i'⟩ hNe p hp p' hp' hSame
  simp only [Option.ite_none_right_eq_some, Option.some.injEq] at hp hp'
  obtain ⟨-, rfl⟩ := hp
  obtain ⟨-, rfl⟩ := hp'
  exact hNe (Int.ofNat_inj.mp hSame)

/-- The parameters stand in the order of their indices. -/
theorem indices_parameters (h : g.Numbered count) :
    (parameters g).map (fun p => p.2.int) = (List.range count).map fun k => ((k : Nat) : Int) := by
  -- Both lists go up strictly, so it is enough that they have the same members.
  have hSorted : (parameters g).Pairwise fun p q => p.2.int ≤ q.2.int := by
    refine (List.pairwise_mergeSort ?_ ?_ _).imp fun hLe => of_decide_eq_true hLe
    · intro a b c hab hbc
      exact decide_eq_true (Int.le_trans (of_decide_eq_true hab) (of_decide_eq_true hbc))
    · intro a b
      have hTotal := Int.le_total a.2.int b.2.int
      simpa using hTotal
  have hDistinct : (parameters g).Pairwise fun p q => p.2.int ≠ q.2.int := by
    refine (List.pairwise_map.mp (nodup_parameters g)).imp_of_mem ?_
    intro p q hp hq hNe hSame
    obtain ⟨hp, hpOp⟩ := mem_parameters.mp hp
    obtain ⟨hq, hqOp⟩ := mem_parameters.mp hq
    exact hNe (h.distinct hp hpOp hq hqOp hSame)
  have hUp : ((parameters g).map fun p => p.2.int).Pairwise (· < ·) := by
    refine List.pairwise_map.mpr (hSorted.imp₂ ?_ hDistinct)
    intro p q hLe hNe
    exact Int.lt_iff_le_and_ne.mpr ⟨hLe, hNe⟩
  have hRange : ((List.range count).map fun k => ((k : Nat) : Int)).Pairwise (· < ·) :=
    List.pairwise_map.mpr (List.pairwise_lt_range.imp Int.ofNat_lt.mpr)
  refine hUp.eq_of_mem_iff hRange fun z => ?_
  simp only [List.mem_map, List.mem_range]
  constructor
  · rintro ⟨p, hp, rfl⟩
    obtain ⟨hn, hOp⟩ := mem_parameters.mp hp
    obtain ⟨k, hk, hInt⟩ := h.index hn hOp
    exact ⟨k, hk, hInt.symm⟩
  · rintro ⟨k, hk, rfl⟩
    obtain ⟨id, type, n, hn, hOp, hInt, -⟩ := h.every k hk
    exact ⟨(id, n), mem_parameters.mpr ⟨hn, hOp⟩, hInt⟩

/-- The parameter with an index stands at that index. -/
theorem getElem?_parameters (h : g.Numbered count) {k : Nat} (hk : k < count) :
    ∃ id n, (parameters g)[k]? = some (id, n) ∧ g.IsParameter k id n.mach := by
  have hIndex : ((parameters g).map fun p => p.2.int)[k]? = some (k : Int) := by
    rw [indices_parameters h, List.getElem?_map, List.getElem?_range hk]
    rfl
  rw [List.getElem?_map, Option.map_eq_some_iff] at hIndex
  obtain ⟨⟨id, n⟩, hGet, hInt⟩ := hIndex
  obtain ⟨hn, hOp⟩ := mem_parameters.mp (List.mem_of_getElem? hGet)
  exact ⟨id, n, hGet, n, hn, hOp, hInt, rfl⟩

/-! ## The callee -/

/-- The kinds of the parameters, in the order of their indices. -/
def parameterKinds (g : Graph) : List Bool :=
  (parameters g).map fun p => p.2.mach == .float64

theorem vreg_parameter_returns {id : NodeId} (hOp : site.graph.HasOp id .parameter) :
    Returns site (vreg id) := by
  obtain ⟨n, hn, hOp⟩ := hOp
  have hCarrier : carrier site.graph (site.graph.size + 1) id = .ok id := by
    rw [carrier, Graph.node_eq_ok.mpr hn, ok_bind, hOp]
    rfl
  have hNone : constantOf? n = none := by
    unfold constantOf?
    rw [hOp]
  -- It carries itself and is no constant, so it has or gets a register of its own.
  unfold vreg
  refine .read (.look hCarrier (.look (Graph.node_eq_ok.mpr hn) ?_))
  rw [hNone]
  unfold ownVreg
  refine .get fun s => ?_
  split
  · exact .pure _
  · exact newVreg_returns.bind fun _ => .bind (.modify _) fun _ => .pure _

theorem assignParameters_returns {ps : List (NodeId × Node)} (l : Linkage)
    (hOps : ∀ p ∈ ps, site.graph.HasOp p.1 .parameter) :
    Returns site (assignParameters l ps) := by
  induction ps generalizing l with
  | nil => exact .pure ()
  | cons p rest ih =>
    unfold assignParameters
    refine (vreg_parameter_returns (hOps p List.mem_cons_self)).bind fun v => ?_
    exact .bind (.modify _) fun _ => ih _ fun q hq => hOps q (List.mem_cons_of_mem p hq)

/-- All the parameters of a graph are given places. -/
theorem parameters_assigned (site : Site) (s : State) :
    ∃ t, assignParameters {} (parameters site.graph) site s = .ok ((), t) := by
  have hOps : ∀ p ∈ parameters site.graph, site.graph.HasOp p.1 .parameter := by
    intro p hp
    obtain ⟨hNode, hIs⟩ := mem_parameters.mp hp
    exact ⟨p.2, hNode, hIs⟩
  obtain ⟨⟨⟩, t, hAssigned⟩ := assignParameters_returns {} hOps s
  exact ⟨t, hAssigned⟩

/-- The parameters go to the places of their kinds, and the places of other nodes are kept. -/
theorem assignParameters_places {ps : List (NodeId × Node)} (l : Linkage)
    (hNodup : (ps.map Prod.fst).Nodup) :
    Ensures site s (assignParameters l ps) fun _ t =>
      (∀ id ∉ ps.map Prod.fst, t.params.lookup id = s.params.lookup id) ∧
      ∀ (k : Nat) (p : NodeId × Node) (location : Location), ps[k]? = some p →
        (l.locations (ps.map fun p => p.2.mach == .float64))[k]? = some location →
        ∃ r : Int, t.params.lookup p.1 = some (.vreg r location) := by
  induction ps generalizing l s with
  | nil =>
    refine (ensures_pure _ _).mpr ⟨fun _ _ => rfl, ?_⟩
    intro k p location hp
    cases hp
  | cons q rest ih =>
    obtain ⟨id, n⟩ := q
    obtain ⟨hNew, hRest⟩ := List.nodup_cons.mp hNodup
    unfold assignParameters
    simp only [ensures_bind, ensures_modify]
    refine (vreg_quiet id s).mono ?_
    intro v s₁ h₁
    refine (ih _ hRest).mono ?_
    rintro - t ⟨hKept, hPlaces⟩
    constructor
    · intro id' hId'
      simp only [List.map_cons, List.mem_cons, not_or] at hId'
      -- The new entry is under the name of this parameter, so other nodes look past it.
      rw [hKept id' hId'.2, List.lookup_cons, beq_false_of_ne hId'.1, ← h₁.params]
    · intro k p location hp hLocation
      cases k with
      | zero =>
        -- The first parameter is not met again, so the rest leaves its place alone.
        cases hp
        rw [List.map_cons, Linkage.locations] at hLocation
        cases hLocation
        refine ⟨v, ?_⟩
        rw [hKept id hNew, List.lookup_cons_self]
        rfl
      | succ k => exact hPlaces k p location hp hLocation

/-! ## The caller -/

/-- Whether an argument is seen as a double. -/
def argumentKind (g : Graph) (a : NodeId) : Bool :=
  match repOf g (g.size + 1) a with
  | .ok rep => rep == .float64
  | .error _ => false

theorem isDouble_kind (a : NodeId) :
    Ensures site s (isDouble a) fun double t => double = argumentKind site.graph a ∧ t = s := by
  unfold isDouble argumentKind
  simp only [ensures_bind, ensures_read, ensures_lift]
  intro rep hRep
  rw [hRep]
  exact (ensures_pure _ _).mpr ⟨rfl, rfl⟩

/-- The arguments go to the places of their kinds. -/
theorem useArguments_places (arguments : List NodeId) (l : Linkage) :
    Ensures site s (useArguments l arguments) fun operands t =>
      t.segment = s.segment ∧
      List.Forall₂ (fun o location => ∃ r : Int, o = .vreg r location) operands
        (l.locations (arguments.map (argumentKind site.graph))) := by
  -- the linkage left by one argument is the start for the next
  induction arguments generalizing l s with
  | nil => exact (ensures_pure _ _).mpr ⟨rfl, .nil⟩
  | cons a rest ih =>
    unfold useArguments useAt
    simp only [ensures_bind, ensures_pure]
    refine (isDouble_kind a).mono ?_
    rintro _ _ ⟨rfl, rfl⟩
    refine (markUsed_quiet a _).mono ?_
    intro _ s₁ h₁
    refine (vreg_quiet a s₁).mono ?_
    intro v s₂ h₂
    refine (ih _).mono ?_
    rintro operands t ⟨hSegment, hPlaces⟩
    exact ⟨hSegment.trans (h₂.segment.trans h₁.segment), .cons ⟨v, rfl⟩ hPlaces⟩

/-- Whether an instruction is a call with its arguments at given places. -/
def CallsWith (i : Instr) (locations : List Location) : Prop :=
  ∃ entry operands, i.op = .call ∧ i.inputs = entry :: operands ∧
    List.Forall₂ (fun o location => ∃ r : Int, o = Operand.vreg r location) operands locations

/-- A call passes its arguments at the places of their kinds. -/
theorem coverCall_places {id target : NodeId} {n : Node} {arguments : List NodeId}
    (hn : site.graph.node? id = some n) (hValues : n.valueInputs = .ok (target :: arguments)) :
    Ensures site s (coverCall id) fun _ t => ∃ i, t.segment = s.segment ++ [i] ∧
      CallsWith i (Linkage.locations {} (arguments.map (argumentKind site.graph))) := by
  unfold coverCall
  simp only [ensures_bind, ensures_read, ensures_lift]
  rintro n' hn' target' - op -
  cases hn.symm.trans (Graph.node_eq_ok.mp hn')
  split
  · simp only [ensures_bind, ensures_throw]
  · simp only [ensures_bind, ensures_lift]
    refine (markUsed_quiet target' s).mono ?_
    intro _ s₁ h₁
    refine (vreg_quiet target' s₁).mono ?_
    intro v s₂ h₂ values hValues'
    cases hValues.symm.trans hValues'
    simp only [ensures_bind]
    refine (useArguments_places arguments {}).mono ?_
    rintro operands s₃ ⟨h₃, hPlaces⟩
    refine (defineAt_quiet id _ s₃).mono ?_
    intro o s₄ h₄
    refine (emit_appends _).mono ?_
    intro _ t hEmitted
    -- None of the steps before the instruction has emitted anything.
    rw [h₄.segment, h₃, h₂.segment, h₁.segment] at hEmitted
    exact ⟨_, hEmitted, _, operands, rfl, rfl, hPlaces⟩

/-- A node that is no end of a region is carried by itself or by the operation it belongs to. -/
theorem exists_carries {u : NodeId} {n : Node} (hn : g.node? u = some n)
    (hFinish : n.op ≠ .finish) : ∃ x, g.Carries u x := by
  by_cases hShares : n.op = .projection ∧ n.int = 0 ∧
      ∃ y op, n.input 0 = .ok y ∧ g.HasOp y op ∧ op.hasOverflow = true
  · obtain ⟨hOp, hInt, y, op, hy, hyOp, hOverflow⟩ := hShares
    exact ⟨y, .projection hn hOp hInt hy hyOp hOverflow⟩
  · refine ⟨u, .own hn hFinish ?_⟩
    intro hOp hInt y op hy hyOp
    refine Bool.eq_false_iff.mpr fun hOverflow => ?_
    exact hShares ⟨hOp, hInt, y, op, hy, hyOp, hOverflow⟩

/-- What has a representation has a node that carries it. -/
theorem carries_of_repOf {u : NodeId} {rep : Rep} {fuel : Nat} (h : repOf g fuel u = .ok rep) :
    ∃ x, g.Carries u x := by
  induction fuel generalizing u with
  | zero => cases h
  | succ fuel ih =>
    rw [repOf] at h
    obtain ⟨n, hn, h⟩ := bind_eq_ok.mp h
    have hn := Graph.node_eq_ok.mp hn
    by_cases hFinish : n.op = .finish
    · rw [if_pos hFinish] at h
      obtain ⟨y, hy, h⟩ := bind_eq_ok.mp h
      obtain ⟨x, hx⟩ := ih h
      exact ⟨x, .finish hn hFinish hy hx⟩
    · exact exists_carries hn hFinish

theorem useArguments_returns (hWell : site.graph.WellFormed) {arguments : List NodeId} (l : Linkage)
    (hReps : ∀ a ∈ arguments, ∃ rep, repOf site.graph (site.graph.size + 1) a = .ok rep) :
    Returns site (useArguments l arguments) := by
  induction arguments generalizing l with
  | nil => exact .pure []
  | cons a rest ih =>
    obtain ⟨rep, hRep⟩ := hReps a List.mem_cons_self
    obtain ⟨x, hx⟩ := carries_of_repOf hRep
    unfold useArguments isDouble useAt
    refine .bind (.read (.look hRep (.pure _))) fun double => ?_
    refine .bind ((markUsed_returns (nonneg_of_carries hx)).bind fun _ =>
      (vreg_returns hWell hx).bind fun v => .pure _) fun o => ?_
    exact (ih _ fun b hb => hReps b (List.mem_cons_of_mem a hb)).bind fun _ => .pure _

/-- The first value input is the first input. -/
theorem input_zero_of_values {n : Node} {x : NodeId} {l : List NodeId}
    (hValues : n.valueInputs = .ok (x :: l)) : n.input 0 = .ok x := by
  have hTake : n.inputs.take n.valueCount.toNat = x :: l := (Node.valueInputs_eq_ok hValues).symm
  have hHead : n.inputs[0]? = some x := by
    have hGet := congrArg (·[0]?) hTake
    rw [List.getElem?_cons_zero, List.getElem?_eq_some_iff] at hGet
    obtain ⟨hLt, hGet⟩ := hGet
    rw [List.getElem_take] at hGet
    rw [← hGet]
    exact List.getElem?_eq_getElem _
  unfold Node.input
  rw [if_neg (Int.lt_irrefl 0), Int.toNat_zero, hHead]

/-- A call of a constant address is covered when its arguments have representations. -/
theorem coverCall_returns (hWell : site.graph.WellFormed) {id target : NodeId} {n : Node}
    {op : Operator} {arguments : List NodeId} (hn : site.graph.node? id = some n)
    (hOp : n.op = .call) (hValues : n.valueInputs = .ok (target :: arguments))
    (hTarget : site.graph.HasOp target op)
    (hConstant : op = .constant .heap ∨ op = .constant .external)
    (hReps : ∀ a ∈ arguments, ∃ rep, repOf site.graph (site.graph.size + 1) a = .ok rep) :
    Returns site (coverCall id) := by
  have hFirst := input_zero_of_values hValues
  -- the target is a constant, so it carries itself
  have hCarries : site.graph.Carries target target := by
    refine .of_op hTarget ?_ ?_ <;> rcases hConstant with rfl | rfl <;> simp
  unfold coverCall
  refine .read (.look (Graph.node_eq_ok.mpr hn) (.look hFirst ?_))
  refine .look (Graph.op_eq_ok.mpr hTarget) ?_
  rw [if_neg]
  · refine (markUsed_returns (nonneg_of_carries hCarries)).bind fun _ => ?_
    refine (vreg_returns hWell hCarries).bind fun v => .look hValues ?_
    refine (useArguments_returns hWell {} hReps).bind fun operands => ?_
    refine (defineAt_returns hWell ⟨n, hn, hOp⟩ nofun nofun _).bind fun o => ?_
    exact emit_returns rfl
  · rcases hConstant with rfl | rfl <;> simp

end Selection

/-! ## Agreement -/

open Selection

/-- Whether a call passes one value to each parameter of a graph, and a double just where the
parameter is a double. -/
structure Graph.Passes (caller : Graph) (id target : NodeId) (arguments : List NodeId)
    (callee : Graph) : Prop where
  numbered : callee.Numbered arguments.length
  call : ∃ n, caller.node? id = some n ∧ n.op = .call ∧ n.valueInputs = .ok (target :: arguments)
  kinds : ∀ k a, arguments[k]? = some a → ∃ rep, repOf caller (caller.size + 1) a = .ok rep ∧
    ∀ p type, callee.IsParameter k p type → (rep = .float64 ↔ type = .float64)

namespace Graph.Passes

variable {callee caller : Site} {id target : NodeId} {arguments : List NodeId} {s t s' t' : State}

/-- The caller hands out places for the same kinds as the callee. -/
theorem kinds_eq (h : caller.graph.Passes id target arguments callee.graph) :
    arguments.map (argumentKind caller.graph) = parameterKinds callee.graph := by
  unfold parameterKinds
  refine List.ext_getElem? fun k => ?_
  rw [List.getElem?_map, List.getElem?_map]
  by_cases hk : k < arguments.length
  · -- Both sides see the parameter with this index, and a value of its kind.
    obtain ⟨p, n, hp, hParameter⟩ := getElem?_parameters h.numbered hk
    have ha := List.getElem?_eq_getElem hk
    obtain ⟨rep, hRep, hSame⟩ := h.kinds k _ ha
    have hKind := hSame p _ hParameter
    rw [hp, ha, Option.map_some, Option.map_some, argumentKind, hRep]
    refine congrArg some (Bool.eq_iff_iff.mpr ?_)
    rw [beq_iff_eq, beq_iff_eq]
    exact hKind
  · -- Behind the last parameter there is nothing on either side.
    have hEnd : (parameters callee.graph).length = arguments.length := by
      have hIndices := congrArg List.length (indices_parameters h.numbered)
      simpa using hIndices
    rw [List.getElem?_eq_none (Nat.le_of_not_lt hk),
      List.getElem?_eq_none (hEnd ▸ Nat.le_of_not_lt hk)]
    rfl

/-- The caller puts every argument where the callee finds the parameter. -/
theorem places (h : caller.graph.Passes id target arguments callee.graph)
    (hAssigned : assignParameters {} (parameters callee.graph) callee s = .ok ((), t))
    (hCall : coverCall id caller s' = .ok ((), t')) :
    ∃ i entry operands, t'.segment = s'.segment ++ [i] ∧ i.op = .call ∧
      i.inputs = entry :: operands ∧ operands.length = arguments.length ∧
      ∀ k p type, callee.graph.IsParameter k p type → ∃ location r r',
        operands[k]? = some (.vreg r location) ∧ t.params.lookup p = some (.vreg r' location) := by
  obtain ⟨n, hn, -, hValues⟩ := h.call
  obtain ⟨i, hSegment, entry, operands, hIs, hInputs, hArguments⟩ :=
    coverCall_places hn hValues () t' hCall
  obtain ⟨-, hPlaces⟩ := assignParameters_places {} (nodup_parameters callee.graph) () t hAssigned
  rw [h.kinds_eq] at hArguments
  have hCount : (Linkage.locations {} (parameterKinds callee.graph)).length = arguments.length := by
    rw [Linkage.length_locations, ← h.kinds_eq, List.length_map]
  refine ⟨i, entry, operands, hSegment, hIs, hInputs, hArguments.length_eq.trans hCount, ?_⟩
  rintro k p type ⟨m, hm, hmOp, hInt, rfl⟩
  obtain ⟨k', hk, hIndex⟩ := h.numbered.index hm hmOp
  obtain rfl : k = k' := Int.ofNat_inj.mp (hInt.symm.trans hIndex)
  -- What stands at this index of the parameters is the node.
  obtain ⟨p', m', hp, m'', hm', hmOp', hInt', -⟩ := getElem?_parameters h.numbered hk
  obtain rfl := h.numbered.distinct hm' hmOp' hm hmOp (hInt'.trans hInt.symm)
  have hLocation := List.getElem?_eq_getElem (hCount ▸ hk)
  obtain ⟨r', hParameter⟩ := hPlaces k _ _ hp hLocation
  have hOperand : k < operands.length := by
    rw [hArguments.length_eq, hCount]
    exact hk
  -- Both sides read the same list of places at the same index.
  obtain ⟨r, hr⟩ := (List.forall₂_iff_get.mp hArguments).2 k hOperand (hCount ▸ hk)
  exact ⟨_, r, r', List.getElem?_eq_some_iff.mpr ⟨hOperand, hr⟩, hParameter⟩

/-- The call is covered when its target is a constant. -/
theorem covered (h : caller.graph.Passes id target arguments callee.graph)
    (hWell : caller.graph.WellFormed) {op : Operator} (hTarget : caller.graph.HasOp target op)
    (hConstant : op = .constant .heap ∨ op = .constant .external) :
    Returns caller (coverCall id) := by
  obtain ⟨n, hn, hOp, hValues⟩ := h.call
  refine coverCall_returns hWell hn hOp hValues hTarget hConstant fun a ha => ?_
  obtain ⟨k, hk⟩ := List.mem_iff_getElem?.mp ha
  obtain ⟨rep, hRep, -⟩ := h.kinds k a hk
  exact ⟨rep, hRep⟩

end Graph.Passes

/-- No two arguments have the same place, a place depends on the arguments up to it only, and the
registers and slots are given out in order. The caller of a function and the function itself agree
on the places of its arguments, wherever its parameters stand in the graph. -/
theorem caller_agrees_callee :
    (∀ kinds : List Bool,
      (Linkage.locations {} kinds).length = kinds.length ∧ (Linkage.locations {} kinds).Nodup ∧
      (∀ k, (Linkage.locations {} kinds).take k = Linkage.locations {} (kinds.take k)) ∧
      (∀ k : Nat, (Linkage.locations {} kinds)[k]? = kinds[k]?.map fun double =>
        Linkage.place double ((kinds.take k).count true) ((kinds.take k).count false)) ∧
      (Linkage.locations {} kinds).filterMap Location.slot? =
        (List.range ((Linkage.locations {} kinds).filterMap Location.slot?).length).map
          fun slot => ((slot : Nat) : Int)) ∧
    ∀ (callee caller : Site) (id target : NodeId) (arguments : List NodeId),
      caller.graph.Passes id target arguments callee.graph →
      (∀ s s', ∃ t, assignParameters {} (parameters callee.graph) callee s = .ok ((), t) ∧
        ∀ t', coverCall id caller s' = .ok ((), t') → ∃ i entry operands,
          t'.segment = s'.segment ++ [i] ∧ i.op = .call ∧ i.inputs = entry :: operands ∧
          operands.length = arguments.length ∧
          ∀ k p type, callee.graph.IsParameter k p type → ∃ location r r',
            operands[k]? = some (.vreg r location) ∧
              t.params.lookup p = some (.vreg r' location)) ∧
      (caller.graph.WellFormed →
        caller.graph.HasOp target (.constant .heap) ∨
          caller.graph.HasOp target (.constant .external) →
        ∀ s', ∃ t', coverCall id caller s' = .ok ((), t')) := by
  constructor
  · intro kinds
    exact ⟨Linkage.length_locations _ _, Linkage.nodup_locations kinds, Linkage.take_locations _ _,
      Linkage.getElem?_locations kinds, Linkage.slots_locations kinds⟩
  intro callee caller id target arguments h
  constructor
  · intro s s'
    obtain ⟨t, hAssigned⟩ := parameters_assigned callee s
    exact ⟨t, hAssigned, fun t' hCall => h.places hAssigned hCall⟩
  · intro hWell hTarget s'
    -- either kind of constant is a target the call can be covered for
    have hReturns : Returns caller (coverCall id) := by
      rcases hTarget with hTarget | hTarget
      · exact h.covered hWell hTarget (.inl rfl)
      · exact h.covered hWell hTarget (.inr rfl)
    obtain ⟨⟨⟩, t', hDone⟩ := hReturns s'
    exact ⟨t', hDone⟩

/-- Sixteen parameters, of which every third is a word, from the last to the first. -/
def sixteenParameters : Graph where
  nodes := ({ op := .start } :: (List.range 16).reverse.map fun k =>
    .parameter k (if k % 3 = 0 then .int32 else .float64)).toArray

/-- A call with sixteen arguments: of the doubles some are sums at the end of a region. -/
def sixteenArguments : Graph where
  nodes := #[{ op := .start }, .heap "callee", .int32 7, .float64 ⟨0⟩,
    .ofArity (.float64 .add) [3, 3], .ofArity .finish [4, 0],
    .call 1 [2, 5, 3, 2, 5, 3, 2, 5, 3, 2, 5, 3, 2, 5, 3, 2] 0 0]

theorem caller_agrees_callee_sixteen :
    ∃ t t' i entry operands,
      assignParameters {} (parameters sixteenParameters)
        { graph := sixteenParameters, schedule := {}, features := .none } {} = .ok ((), t) ∧
      coverCall 6 { graph := sixteenArguments, schedule := {}, features := .none } {} =
        .ok ((), t') ∧
      t'.segment = [i] ∧ i.op = .call ∧ i.inputs = entry :: operands ∧ operands.length = 16 ∧
      ∀ k p type, sixteenParameters.IsParameter k p type → ∃ location r r',
        operands[k]? = some (.vreg r location) ∧
          t.params.lookup p = some (.vreg r' location) := by
  have hParameters : ∀ p ∈ sixteenParameters.nodes.toList.zipIdx, p.1.op = .parameter →
      p.1.int = 16 - p.2 ∧ 0 < p.2 ∧ p.2 ≤ 16 ∧
        (p.1.mach = .float64 ↔ p.1.int % 3 ≠ 0) := by
    decide +kernel
  have hParameter : ∀ {id n}, sixteenParameters.node? id = some n → n.op = .parameter →
      ∃ i : Nat, id = i ∧ n.int = 16 - i ∧ 0 < i ∧ i ≤ 16 ∧
        (n.mach = .float64 ↔ n.int % 3 ≠ 0) := by
    intro id n hn hOp
    obtain ⟨i, rfl, -⟩ := Graph.node?_eq_some.mp hn
    exact ⟨i, rfl, hParameters (n, i) (Graph.mem_zipIdx.mpr hn) hOp⟩
  have hNumbered : sixteenParameters.Numbered 16 := by
    refine ⟨?_, ?_, ?_⟩
    · intro id n hn hOp
      obtain ⟨i, rfl, hInt, hPos, hLe, -⟩ := hParameter hn hOp
      exact ⟨16 - i, by omega, by omega⟩
    · intro id id' n n' hn hOp hn' hOp' hSame
      obtain ⟨i, rfl, hInt, -⟩ := hParameter hn hOp
      obtain ⟨i', rfl, hInt', -⟩ := hParameter hn' hOp'
      exact congrArg Int.ofNat (by omega : i = i')
    · have hEvery : ∀ k < 16, sixteenParameters.node? ((16 - k : Nat) : Int) =
          some (.parameter k (if k % 3 = 0 then .int32 else .float64)) := by
        decide +kernel
      intro k hk
      exact ⟨_, _, _, hEvery k hk, rfl, rfl, rfl⟩
  have hPasses : sixteenArguments.Passes 6 1 [2, 5, 3, 2, 5, 3, 2, 5, 3, 2, 5, 3, 2, 5, 3, 2]
      sixteenParameters := by
    refine ⟨hNumbered, ⟨_, rfl, rfl, rfl⟩, ?_⟩
    -- Every third argument is the word, the others are the double and the sum.
    have hReps : ∀ p ∈ ([2, 5, 3, 2, 5, 3, 2, 5, 3, 2, 5, 3, 2, 5, 3, 2] : List NodeId).zipIdx,
        repOf sixteenArguments (sixteenArguments.size + 1) p.1 =
          .ok (if p.2 % 3 = 0 then .word32 else .float64) := by
      decide +kernel
    intro k a ha
    refine ⟨_, hReps (a, k) (List.mk_mem_zipIdx_iff_getElem?.mpr ha), ?_⟩
    rintro p type ⟨n, hn, hOp, hInt, rfl⟩
    obtain ⟨-, -, -, -, -, hDouble⟩ := hParameter hn hOp
    rw [hDouble, hInt]
    split <;> simp <;> omega
  have hWell : sixteenArguments.WellFormed :=
    .of_nodes (by decide +kernel) (by decide +kernel) (by decide +kernel)
  obtain ⟨hPlaces, hCovered⟩ := caller_agrees_callee.2
    { graph := sixteenParameters, schedule := {}, features := .none }
    { graph := sixteenArguments, schedule := {}, features := .none } 6 1 _ hPasses
  obtain ⟨t, hAssigned, hAgree⟩ := hPlaces {} {}
  obtain ⟨t', hCall⟩ := hCovered hWell (.inl ⟨_, rfl, rfl⟩) {}
  obtain ⟨i, entry, operands, hSegment, hRest⟩ := hAgree t' hCall
  exact ⟨t, t', i, entry, operands, hAssigned, hCall, hSegment, hRest⟩

end ArmBackend
