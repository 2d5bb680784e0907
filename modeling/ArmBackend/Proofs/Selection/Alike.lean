import ArmBackend.Proofs.Fuel
import ArmBackend.Proofs.Selection.Ensures
import ArmBackend.Proofs.Selection.Operands
import ArmBackend.Proofs.Uses

/-!
# Selection over two graphs

Selection asks a graph a few questions: the nodes it comes by, who uses them where, the parameters
and the targets of a branch. `Twin` says that two graphs answer these questions alike, as far as a
set of nodes goes that has the inputs of its members. Every rule then runs alike over both graphs:
it gives the same answer and leaves the same state, or fails with the same fault.

A rule touches the registers of constants only by asking for the register of a node, so on the way
it keeps every invariant of the state that such a request keeps. With both graphs the same, this is
what is left of the statements here.

## Results

* `Alike.bind`, `Steady.bind` — how a row of steps runs over two graphs.
* `passed_fuel` — the walks along ends of regions do not depend on how many nodes a graph has.
* `vreg_steady`, `emitFlags_steady` — the primitive steps that rules are made of.
-/

namespace ArmBackend.Selection

variable {α β : Type} {A : NodeId → Prop} {J : State → Prop} {site : Site} {g' : Graph}

/-- The same place over another graph. -/
abbrev Site.over (site : Site) (g : Graph) : Site :=
  { site with graph := g }

/-- From every state with the invariant, `m` and, over the other graph, `m'` come to the same
outcome. An answer has property `P`, and the state that is left has the invariant. -/
def Alike (site : Site) (g' : Graph) (J : State → Prop) (m m' : Select α) (P : α → Prop) : Prop :=
  ∀ s, J s → m' (site.over g') s = m site s ∧ ∀ a t, m site s = .ok (a, t) → P a ∧ J t

/-- A step runs alike over both graphs, and keeps the invariant. -/
def Steady (site : Site) (g' : Graph) (J : State → Prop) (m : Select α) : Prop :=
  Alike site g' J m m fun _ => True

/-! ## Sequencing -/

namespace Alike

variable {m m' : Select α} {P Q : α → Prop}

/-- What an answer satisfies may be weakened. -/
theorem mono (h : Alike site g' J m m' P) (hPQ : ∀ a, P a → Q a) : Alike site g' J m m' Q := by
  intro s hs
  obtain ⟨hSame, hPost⟩ := h s hs
  exact ⟨hSame, fun a t hm => ⟨hPQ a (hPost a t hm).1, (hPost a t hm).2⟩⟩

/-- Rows run alike if their first steps do and, on whatever those hand out, the rest does. -/
theorem bind {f f' : α → Select β} {Q : β → Prop} (h : Alike site g' J m m' P)
    (hf : ∀ a, P a → Alike site g' J (f a) (f' a) Q) :
    Alike site g' J (m >>= f) (m' >>= f') Q := by
  intro s hs
  obtain ⟨hSame, hPost⟩ := h s hs
  show (m' (site.over g') s >>= fun p => f' p.1 (site.over g') p.2) =
      (m site s >>= fun p => f p.1 site p.2) ∧ ∀ b t,
        (m site s >>= fun p => f p.1 site p.2) = .ok (b, t) → Q b ∧ J t
  rw [hSame]
  -- Whether the first step fails is the same over both graphs.
  cases hm : m site s with
  | error e =>
    refine ⟨rfl, ?_⟩
    rintro b t ⟨⟩
  | ok p =>
    obtain ⟨hP, hJ⟩ := hPost p.1 p.2 hm
    exact hf p.1 hP p.2 hJ

/-- Giving an answer reads neither graph. -/
theorem pure {a : α} (h : P a) : Alike site g' J (pure a) (pure a) P := by
  intro s hs
  refine ⟨rfl, ?_⟩
  rintro b t ⟨⟩
  exact ⟨h, hs⟩

/-- The same fault ends both runs. -/
theorem throw (f : Fault) : Alike site g' J (throw f) (throw f) P := by
  intro s hs
  refine ⟨rfl, ?_⟩
  rintro b t ⟨⟩

/-- Each side reads its own site. -/
theorem read {f f' : Site → Select α} (h : Alike site g' J (f site) (f' (site.over g')) P) :
    Alike site g' J (read >>= f) (read >>= f') P :=
  h

/-- After a fault nothing is run. -/
theorem throw_bind (f : Fault) {k k' : β → Select α} :
    Alike site g' J (MonadExcept.throw f >>= k) (MonadExcept.throw f >>= k') P := by
  intro s hs
  refine ⟨rfl, ?_⟩
  rintro b t ⟨⟩

/-- Two look-ups with the same outcome. -/
theorem lookup {e e' : Except Fault α} (hSame : e' = e) :
    Alike site g' J (liftM e) (liftM e') fun a => e = .ok a := by
  intro s hs
  subst hSame
  refine ⟨rfl, ?_⟩
  intro a t hm
  cases e' with
  | error f => cases hm
  | ok b =>
    cases hm
    exact ⟨rfl, hs⟩

end Alike

/-- A step that succeeds hands its answer and its state on. -/
theorem run_bind {m : Select α} {f : α → Select β} {s t : State} {a : α}
    (hm : m site s = .ok (a, t)) : (m >>= f) site s = f a site t := by
  show (m site s >>= fun p => f p.1 site p.2) = _
  rw [hm]
  rfl

/-- A look-up that succeeds hands its answer on. -/
theorem liftM_ok_bind (a : α) (f : α → Select β) : liftM (Except.ok a : Except Fault α) >>= f = f a :=
  rfl

namespace Steady

variable {m : Select α}

/-- After a steady step the rest is run on any answer. -/
theorem bind {f f' : α → Select β} {Q : β → Prop} (h : Steady site g' J m)
    (hf : ∀ a, Alike site g' J (f a) (f' a) Q) : Alike site g' J (m >>= f) (m >>= f') Q :=
  Alike.bind h fun a _ => hf a

/-- Reading the state reads neither graph. -/
theorem get : Steady site g' J get := by
  intro s hs
  refine ⟨rfl, ?_⟩
  rintro a t ⟨⟩
  exact ⟨trivial, hs⟩

/-- A change of the state that keeps the invariant. -/
theorem modify {f : State → State} (h : ∀ s, J s → J (f s)) : Steady site g' J (modify f) := by
  intro s hs
  refine ⟨rfl, ?_⟩
  rintro a t ⟨⟩
  exact ⟨trivial, h s hs⟩

/-- A change of the state with an answer, when the invariant survives the change. -/
theorem modifyGet {f : State → α × State} (h : ∀ s, J s → J (f s).2) :
    Steady site g' J (modifyGet f) := by
  intro s hs
  refine ⟨rfl, ?_⟩
  intro a t hm
  have hPair : f s = (a, t) := Except.ok.inj hm
  have hKept := h s hs
  rw [hPair] at hKept
  exact ⟨trivial, hKept⟩

/-- A step at another place of the schedule. -/
theorem withReader {f : Site → Site} (hOver : f (site.over g') = (f site).over g')
    (h : Steady (f site) g' J m) : Steady site g' J (withReader f m) := by
  intro s hs
  obtain ⟨hSame, hPost⟩ := h s hs
  refine ⟨?_, hPost⟩
  show m (f (site.over g')) s = m (f site) s
  rw [hOver]
  exact hSame

end Steady

/-! ## Graphs that answer alike -/

/-- The uses of a node by nodes that have a place. -/
def placedUses (schedule : Schedule) (uses : List Use) : List Use :=
  uses.filter fun u => (schedule.blockOf u.user).isSome

/-- The graph of a site and another one answer alike about the nodes in `A`, and `J` is an invariant
that only a request for a register could break, and does not. -/
structure Twin (A : NodeId → Prop) (J : State → Prop) (site : Site) (g' : Graph) : Prop where
  size : site.graph.size ≤ g'.size
  node? : ∀ {id}, A id → g'.node? id = site.graph.node? id
  /-- The set goes on to the inputs of its members. -/
  input : ∀ {id n x}, A id → site.graph.node? id = some n → x ∈ n.inputs → A x
  /-- The schedule lists members only. -/
  here : 0 ≤ site.node → A site.node
  head : ∀ {b : Nat} {block : Block}, site.schedule.blocks[b]? = some block → A block.head
  listed : ∀ {b : Nat} {block : Block} {id}, site.schedule.blocks[b]? = some block →
    id ∈ block.nodes → A id
  control : ∀ {b : Nat} {block : Block}, site.schedule.blocks[b]? = some block →
    0 ≤ block.control.getD (-1) → A (block.control.getD (-1))
  ended : ∀ {b : Nat} {block : Block}, site.schedule.blocks[b]? = some block →
    block.kind = .branch ∨ block.kind = .ret → A (block.control.getD (-1))
  /-- A member has the same uses with a place. -/
  uses : ∀ {id}, A id → (g'.uses id).map (placedUses site.schedule) =
    (site.graph.uses id).map (placedUses site.schedule)
  /-- The projections of a member are the same, or one of them is only in the other graph, and has
  neither a place nor users with one. -/
  projection : ∀ {id} (index : Int), A id →
    (g'.findProjection id index = site.graph.findProjection id index ∧
      ∀ p, site.graph.findProjection id index = .ok p → 0 ≤ p → A p) ∨
    ∃ p uses, site.graph.findProjection id index = .ok (-1) ∧
      g'.findProjection id index = .ok p ∧ 0 ≤ p ∧ site.schedule.blockOf p = none ∧
      g'.uses p = .ok uses ∧ ∀ u ∈ uses, site.schedule.blockOf u.user = none
  targets : ∀ {b : Nat} {block : Block}, site.schedule.blocks[b]? = some block →
    block.kind = .branch →
    branchTargets g' site.schedule block (block.control.getD (-1)) =
      branchTargets site.graph site.schedule block (block.control.getD (-1))
  parameters : parameters g' = parameters site.graph
  parameter : ∀ {p}, p ∈ Selection.parameters site.graph → A p.1
  /-- The invariant is about the table of constants and the record of what was handed out. -/
  stable : ∀ {s t : State}, J s → t.stream.constants = s.stream.constants →
    t.handedOut = s.handedOut → s.stream.nextVreg ≤ t.stream.nextVreg → J t
  vreg : ∀ {place : Site} {id s v t}, place.graph = site.graph → A id → J s →
    vreg id place s = .ok (v, t) → J t

/-- A continuation that names a node of the set only. -/
def Continuation.Within (A : NodeId → Prop) (k : Continuation) : Prop :=
  ∀ id, k.use = .result id → A id

/-- The negated continuation names the same node. -/
theorem Continuation.Within.negate {k : Continuation} (h : k.Within A) : k.negate.Within A :=
  h

/-- Exchanging the operands of a comparison leaves the node named. -/
theorem Continuation.Within.commute {k : Continuation} (h : k.Within A) : k.commute.Within A :=
  h

/-- Another condition leaves the node named. -/
theorem Continuation.Within.overwrite {k : Continuation} (h : k.Within A) (cond : Cond) :
    (k.overwrite cond).Within A :=
  h

/-- A branch names no node. -/
theorem Continuation.Within.branch (A : NodeId → Prop) (cond : Cond) (t f : Nat) :
    (Continuation.branch cond t f).Within A := by
  rintro id ⟨⟩

/-- The empty continuation names no node. -/
theorem Continuation.Within.unused (A : NodeId → Prop) : ({} : Continuation).Within A := by
  rintro id ⟨⟩

/-- A result names the node whose word it writes. -/
theorem Continuation.Within.result {id : NodeId} (hId : A id) (cond : Cond) :
    (Continuation.result cond id).Within A := by
  rintro x ⟨⟩
  exact hId

/-! ## Fuel of look-ups -/

section Fuel

variable {g : Graph} {id x : NodeId}

/-- The node that the end of a region passes on. -/
def passed? (g : Graph) (id : NodeId) : Option NodeId := do
  let n ← g.node? id
  if n.op = .finish then (n.input 0).toOption else none

/-- A node that passes something on is the end of a region with that input. -/
theorem passed?_eq_some (h : passed? g id = some x) :
    ∃ n, g.node? id = some n ∧ n.op = .finish ∧ n.input 0 = .ok x := by
  unfold passed? at h
  obtain ⟨n, hn, h⟩ := Option.bind_eq_some_iff.mp h
  split at h
  · next hOp => exact ⟨n, hn, hOp, toOption_eq_some.mp h⟩
  · cases h

/-- The search for the carrier of a value walks along ends of regions. -/
theorem carrier_follows (g : Graph) : Follows (passed? g) (carrier g) (.error .endless) where
  zero := fun _ => rfl
  stop := by
    intro id hNone f f'
    rw [carrier, carrier]
    refine bind_congr_ok ?_
    intro n hn
    split
    · -- An end of a region passes something on, unless it has no input.
      next hOp =>
      cases hInput : n.input 0 with
      | error e => rfl
      | ok x => simp [passed?, Graph.node_eq_ok.mp hn, hOp, hInput, Except.toOption] at hNone
    · rfl
    · rfl
  step := by
    intro id x hNext
    -- The end of a region is found again, and its input is where the walk goes on.
    obtain ⟨n, hn, hOp, hInput⟩ := passed?_eq_some hNext
    refine ⟨fun e => e, rfl, fun f => ?_⟩
    rw [carrier, Graph.node_eq_ok.mpr hn, ok_bind, hOp]
    dsimp only
    rw [hInput]
    rfl

/-- The search for a representation takes the same walk. -/
theorem repOf_follows (g : Graph) : Follows (passed? g) (repOf g) (.error .endless) where
  zero := fun _ => rfl
  stop := by
    intro id hNone f f'
    rw [repOf, repOf]
    refine bind_congr_ok ?_
    intro n hn
    split
    · -- The end of a region that passes nothing on has no input, which is a fault at once.
      next hOp =>
      cases hInput : n.input 0 with
      | error e => rfl
      | ok x => simp [passed?, Graph.node_eq_ok.mp hn, hOp, hInput, Except.toOption] at hNone
    · rfl
  step := by
    intro id x hNext
    obtain ⟨n, hn, hOp, hInput⟩ := passed?_eq_some hNext
    refine ⟨fun e => e, rfl, fun f => ?_⟩
    rw [repOf, Graph.node_eq_ok.mpr hn, ok_bind, if_pos hOp, hInput]
    rfl

/-- A walk along ends of regions stays in the graph. -/
theorem passed_fuel {γ : Type} {run : Nat → NodeId → γ} {bottom : γ}
    (h : Follows (passed? g) run bottom) {f f' : Nat} (hf : g.size < f) (hf' : g.size < f') :
    run f id = run f' id := by
  refine h.fuel_irrelevant (fun x => x) g.ids ?_ ?_ (by rwa [g.card_ids]) (by rwa [g.card_ids]) id
  · intro a b hNext
    obtain ⟨n, hn, -⟩ := passed?_eq_some hNext
    exact Graph.mem_ids hn
  · rintro a a' b b' hNext hNext' rfl
    exact Option.some.inj (hNext.symm.trans hNext')

end Fuel

namespace Twin

variable {id x : NodeId} {n : Node}

/-! ## Look-ups -/

/-- A member has the same operator in both graphs. -/
theorem op (h : Twin A J site g') (hId : A id) : g'.op id = site.graph.op id := by
  unfold Graph.op
  rw [h.node? hId]

/-- A member is the same node in both graphs. -/
theorem node (h : Twin A J site g') (hId : A id) : g'.node id = site.graph.node id := by
  unfold Graph.node
  rw [h.node? hId]

/-- The inputs of a member are members, asked for by position. -/
theorem ofInput (h : Twin A J site g') (hId : A id) (hn : site.graph.node id = .ok n) {k : Int}
    (hx : n.input k = .ok x) : A x :=
  h.input hId (Graph.node_eq_ok.mp hn) (Node.mem_inputs hx)

/-- What a member takes as a value is a member. -/
theorem ofFeeds (h : Twin A J site g') (hId : A id) (hx : site.graph.Feeds id x) : A x := by
  obtain ⟨n, hn, hMem⟩ := hx
  exact h.input hId hn (List.mem_of_mem_take hMem)

/-- The value inputs of a member are the same. -/
theorem valueIn (h : Twin A J site g') (hId : A id) (k : Int) :
    g'.valueIn id k = site.graph.valueIn id k := by
  unfold Graph.valueIn
  rw [h.node hId]

/-- A member matches as an integer constant in both graphs or in neither. -/
theorem int32 (h : Twin A J site g') (hId : A id) : g'.int32 id = site.graph.int32 id := by
  unfold Graph.int32
  rw [h.node hId]

/-- A member matches as a binary operation in both graphs alike, constants on its right included. -/
theorem binary (h : Twin A J site g') (hId : A id) : g'.binary id = site.graph.binary id := by
  unfold Graph.binary
  rw [h.node hId]
  refine bind_congr_ok ?_
  intro n hn
  dsimp only
  split
  · rfl
  · refine bind_congr_ok ?_
    intro left hLeft
    rw [h.int32 (h.ofInput hId hn hLeft)]
    refine bind_congr_ok ?_
    intro m _
    refine bind_congr_ok ?_
    intro right hRight
    rw [h.int32 (h.ofInput hId hn hRight)]

/-- A member is a complement in both graphs or in neither. -/
theorem complementOf? (h : Twin A J site g') (hId : A id) :
    g'.complementOf? id = site.graph.complementOf? id := by
  unfold Graph.complementOf?
  rw [h.op hId, h.binary hId]

/-- A member is a bit field in both graphs or in neither. -/
theorem shiftedField? (h : Twin A J site g') (hId : A id) (lsb : Nat) :
    Selection.shiftedField? g' id lsb = Selection.shiftedField? site.graph id lsb := by
  unfold Selection.shiftedField?
  rw [h.binary hId]

/-- The value of a member has the same carrier in both graphs. -/
theorem carrier (h : Twin A J site g') (hId : A id) :
    carrier g' (g'.size + 1) id = carrier site.graph (site.graph.size + 1) id := by
  -- Each graph has its own fuel, so the walk over the first is given that of the other.
  have hFuel : Selection.carrier site.graph (g'.size + 1) id =
      Selection.carrier site.graph (site.graph.size + 1) id :=
    passed_fuel (carrier_follows site.graph) (Nat.lt_succ_of_le h.size) (Nat.lt_succ_self _)
  rw [← hFuel]
  clear hFuel
  generalize g'.size + 1 = fuel
  induction fuel generalizing id with
  | zero => rfl
  | succ fuel ih =>
    rw [Selection.carrier, Selection.carrier, h.node hId]
    refine bind_congr_ok ?_
    intro n hn
    split
    · refine bind_congr_ok ?_
      intro x hx
      exact ih (h.ofInput hId hn hx)
    · refine bind_congr_ok ?_
      intro x hx
      rw [h.op (h.ofInput hId hn hx)]
    · rfl

/-- The value of a member has the same representation in both graphs. -/
theorem repOf (h : Twin A J site g') (hId : A id) :
    repOf g' (g'.size + 1) id = repOf site.graph (site.graph.size + 1) id := by
  -- As for the carrier, the fuel is made the same first.
  have hFuel : Selection.repOf site.graph (g'.size + 1) id =
      Selection.repOf site.graph (site.graph.size + 1) id :=
    passed_fuel (repOf_follows site.graph) (Nat.lt_succ_of_le h.size) (Nat.lt_succ_self _)
  rw [← hFuel]
  clear hFuel
  generalize g'.size + 1 = fuel
  induction fuel generalizing id with
  | zero => rfl
  | succ fuel ih =>
    rw [Selection.repOf, Selection.repOf, h.node hId]
    refine bind_congr_ok ?_
    intro n hn
    split
    · refine bind_congr_ok ?_
      intro x hx
      exact ih (h.ofInput hId hn hx)
    · rfl

/-- The carrier of a member is one. -/
theorem ofCarrier (h : Twin A J site g') (hId : A id) {fuel : Nat}
    (hx : Selection.carrier site.graph fuel id = .ok x) : A x := by
  induction fuel generalizing id with
  | zero => cases hx
  | succ fuel ih =>
    rw [Selection.carrier] at hx
    obtain ⟨n, hn, hx⟩ := bind_eq_ok.mp hx
    -- An end of a region passes on its input, a projection its operation, the others themselves.
    split at hx
    · obtain ⟨y, hy, hx⟩ := bind_eq_ok.mp hx
      exact ih (h.ofInput hId hn hy) hx
    · obtain ⟨y, hy, hx⟩ := bind_eq_ok.mp hx
      obtain ⟨op, -, hx⟩ := bind_eq_ok.mp hx
      split at hx
      · cases hx
        exact h.ofInput hId hn hy
      · cases hx
        exact hId
    · cases hx
      exact hId

/-! ## Primitive steps -/

variable {user : NodeId} {k : Continuation} {v : Nat}

/-- A step that leaves the table of constants and the record alone. -/
theorem modify_steady (h : Twin A J site g') {f : State → State}
    (hConstants : ∀ s, (f s).stream.constants = s.stream.constants)
    (hRecord : ∀ s, (f s).handedOut = s.handedOut)
    (hNext : ∀ s, s.stream.nextVreg ≤ (f s).stream.nextVreg) : Steady site g' J (modify f) :=
  .modify fun s hs => h.stable hs (hConstants s) (hRecord s) (hNext s)

/-- Marking a node as used asks the graph nothing. -/
theorem markUsed_steady (h : Twin A J site g') (id : NodeId) : Steady site g' J (markUsed id) := by
  unfold markUsed
  split
  · exact .throw_bind _
  · exact h.modify_steady (fun _ => rfl) (fun _ => rfl) fun _ => Nat.le_refl _

/-- Marking a node as defined asks the graph nothing. -/
theorem markDefined_steady (h : Twin A J site g') (id : NodeId) :
    Steady site g' J (markDefined id) := by
  unfold markDefined
  split
  · exact .throw_bind _
  · exact h.modify_steady (fun _ => rfl) (fun _ => rfl) fun _ => Nat.le_refl _

/-- Whether a member is to be covered depends on its operator and on the marks. -/
theorem isUsed_steady (h : Twin A J site g') (hId : A id) : Steady site g' J (isUsed id) := by
  unfold isUsed
  refine .read ((Alike.lookup (h.op hId)).bind ?_)
  intro op _
  dsimp only
  split
  · exact .throw_bind _
  · exact Steady.get.bind fun _ => .pure trivial

/-- What is asked about the uses of a member depends only on those with a place. -/
theorem alike_uses (h : Twin A J site g') (hId : A id) {f f' : List Use → Select α}
    {P : α → Prop}
    (hf : ∀ uses uses', placedUses site.schedule uses' = placedUses site.schedule uses →
      Alike site g' J (f uses) (f' uses') P) :
    Alike site g' J (liftM (site.graph.uses id) >>= f) (liftM (g'.uses id) >>= f') P := by
  have hSame := h.uses hId
  -- The uses are known in both graphs or in neither.
  cases hUses : site.graph.uses id with
  | error e =>
    cases hUses' : g'.uses id with
    | error e' =>
      rw [hUses, hUses'] at hSame
      cases hSame
      exact .throw_bind e
    | ok uses' =>
      rw [hUses, hUses'] at hSame
      cases hSame
  | ok uses =>
    cases hUses' : g'.uses id with
    | error e' =>
      rw [hUses, hUses'] at hSame
      cases hSame
    | ok uses' =>
      rw [hUses, hUses'] at hSame
      exact hf uses uses' (Except.ok.inj hSame)

/-- Whether a user may take a member in depends on the uses with a place. -/
theorem canCover_steady (h : Twin A J site g') (hId : A id) : Steady site g' J (canCover user id) := by
  unfold canCover
  refine .read ?_
  show Alike site g' J (if site.schedule.blockOf id ≠ site.schedule.blockOf user then _ else _)
    (if site.schedule.blockOf id ≠ site.schedule.blockOf user then _ else _) _
  split
  · exact .pure trivial
  · refine h.alike_uses hId ?_
    intro uses uses' hSame
    -- Both sides count, and what they count is the same list.
    show Alike site g' J (pure ((placedUses site.schedule uses).length == 1))
      (pure ((placedUses site.schedule uses').length == 1)) _
    rw [hSame]
    exact .pure trivial

/-- A fresh register only raises the counter. -/
theorem newVreg_steady (h : Twin A J site g') : Steady site g' J newVreg :=
  .modifyGet fun _ hs => h.stable hs rfl rfl (Nat.le_succ _)

/-- The class of a register follows from the representation of the member. -/
theorem markRep_steady (h : Twin A J site g') (hId : A id) : Steady site g' J (markRep id v) := by
  unfold markRep
  refine .read ((Alike.lookup (h.repOf hId)).bind ?_)
  intro rep _
  split
  · exact h.modify_steady (fun _ => rfl) (fun _ => rfl) fun _ => Nat.le_refl _
  · exact h.modify_steady (fun _ => rfl) (fun _ => rfl) fun _ => Nat.le_refl _
  · exact .pure trivial

/-- Whether a member is a double follows from its representation. -/
theorem isDouble_steady (h : Twin A J site g') (hId : A id) : Steady site g' J (isDouble id) := by
  unfold isDouble
  refine .read ((Alike.lookup (h.repOf hId)).bind ?_)
  intro rep _
  exact .pure trivial

/-- Without an invariant the requests for registers are steps like any other. -/
theorem constantVreg_alike (h : Twin A (fun _ => True) site g') (hId : A id) (c : Constant) :
    Steady site g' (fun _ => True) (constantVreg id c) := by
  unfold constantVreg
  refine Steady.get.bind ?_
  intro s
  dsimp only
  -- A constant that already has a register is only looked up.
  split
  · exact .pure trivial
  · refine h.newVreg_steady.bind fun v => ?_
    refine Steady.bind (.modify fun _ _ => trivial) fun _ => ?_
    exact (h.markRep_steady hId).bind fun _ => .pure trivial

/-- A register of its own asks the graph nothing. -/
theorem ownVreg_alike (h : Twin A (fun _ => True) site g') (id : NodeId) :
    Steady site g' (fun _ => True) (ownVreg id) := by
  unfold ownVreg
  refine Steady.get.bind ?_
  intro s
  split
  · exact .pure trivial
  · refine h.newVreg_steady.bind fun v => ?_
    exact Steady.bind (.modify fun _ _ => trivial) fun _ => .pure trivial

/-- Without an invariant the request for a register runs alike, constants and others. -/
theorem vreg_alike (h : Twin A (fun _ => True) site g') (hId : A id) :
    Steady site g' (fun _ => True) (Selection.vreg id) := by
  unfold Selection.vreg
  refine .read ((Alike.lookup (h.carrier hId)).bind ?_)
  intro x hx
  have hCarrier := h.ofCarrier hId hx
  refine (Alike.lookup (h.node hCarrier)).bind ?_
  intro n _
  split
  · refine (h.constantVreg_alike hCarrier _).bind fun v => ?_
    exact Steady.bind (.modify fun _ _ => trivial) fun _ => .pure trivial
  · exact h.ownVreg_alike x

/-- The register of a member: both graphs have the same carrier, which is a member too. -/
theorem vreg_steady (h : Twin A J site g') (hId : A id) :
    Steady site g' J (Selection.vreg id) := by
  -- That the two runs agree is proved without the invariant; that it is kept is a field of `Twin`.
  have hBlank : Twin A (fun _ => True) site g' :=
    { h with stable := fun _ _ _ _ => trivial, vreg := fun _ _ _ _ => trivial }
  intro s hs
  refine ⟨(hBlank.vreg_alike hId s trivial).1, ?_⟩
  intro v t hv
  exact ⟨trivial, h.vreg rfl hId hs hv⟩

/-! ## Operands and instructions -/

/-- An operand at a place given by the linkage. -/
theorem useAt_steady (h : Twin A J site g') (hId : A id) (location : Location) :
    Steady site g' J (useAt id location) := by
  unfold useAt
  refine (h.markUsed_steady id).bind fun _ => ?_
  exact (h.vreg_steady hId).bind fun _ => .pure trivial

/-- An operand in any register. -/
theorem useRegister_steady (h : Twin A J site g') (hId : A id) :
    Steady site g' J (useRegister id) :=
  h.useAt_steady hId _

/-- An immediate is filed in a table that the invariant does not read. -/
theorem immediate_steady (h : Twin A J site g') (c : BitVec 32) :
    Steady site g' J (immediate c) := by
  refine .modifyGet fun s hs => ?_
  unfold Stream.addImmediate
  dsimp only
  split
  · exact hs
  · exact h.stable hs rfl rfl (Nat.le_refl _)

/-- The value of a constant member as an immediate. -/
theorem useImmediate_steady (h : Twin A J site g') (hId : A id) :
    Steady site g' J (useImmediate id) := by
  unfold useImmediate
  refine .read ((Alike.lookup (h.int32 hId)).bind ?_)
  intro m _
  split
  · exact h.immediate_steady _
  · exact .throw _

/-- A result at a place given by the linkage. -/
theorem defineAt_steady (h : Twin A J site g') (hId : A id) (location : Location) :
    Steady site g' J (defineAt id location) := by
  unfold defineAt
  refine (h.markDefined_steady id).bind fun _ => ?_
  refine (h.vreg_steady hId).bind fun v => ?_
  exact (h.markRep_steady hId).bind fun _ => .pure trivial

/-- A result in any register. -/
theorem define_steady (h : Twin A J site g') (hId : A id) : Steady site g' J (define id) :=
  h.defineAt_steady hId _

/-- A scratch register belongs to no node. -/
theorem tempRegister_steady (h : Twin A J site g') : Steady site g' J tempRegister :=
  h.newVreg_steady.bind fun _ => .pure trivial

/-- A scratch register at a given place. -/
theorem tempAt_steady (h : Twin A J site g') (location : Location) :
    Steady site g' J (tempAt location) :=
  h.newVreg_steady.bind fun _ => .pure trivial

/-- A scratch register for a double. -/
theorem tempDouble_steady (h : Twin A J site g') : Steady site g' J tempDouble := by
  refine h.newVreg_steady.bind fun v => ?_
  refine Steady.bind ?_ fun _ => .pure trivial
  exact h.modify_steady (fun _ => rfl) (fun _ => rfl) fun _ => Nat.le_refl _

/-- An instruction is written, or refused with the same fault. -/
theorem emit_steady (h : Twin A J site g') (i : Instr) : Steady site g' J (emit i) := by
  unfold emit
  split
  · exact h.modify_steady (fun _ => rfl) (fun _ => rfl) fun _ => Nat.le_refl _
  · refine .read ?_
    show Alike site g' J (if 0 ≤ site.node then _ else _) (if 0 ≤ site.node then _ else _) _
    split
    · -- The fault names the operator of the node, which has to be the same one.
      next hNode =>
      refine (Alike.lookup (h.op (h.here hNode))).bind ?_
      intro op _
      exact .throw _
    · exact .throw _

/-- An instruction with flags defines the node that its continuation names. -/
theorem emitFlags_steady (h : Twin A J site g') (hk : k.Within A) (op : Opcode) (mode : AddrMode)
    (out inputs : List Operand) : Steady site g' J (emitFlags op mode k out inputs) := by
  unfold emitFlags
  split
  · exact h.emit_steady _
  · next id hUse => exact (h.define_steady (hk id hUse)).bind fun _ => h.emit_steady _
  · exact h.emit_steady _

end Twin
end ArmBackend.Selection
