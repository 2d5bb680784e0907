import ArmBackend.Evaluation.Machine
import ArmBackend.Proofs.Verified

/-!
# Plans

A plan says in advance how the questions about a part of a graph will be answered, whatever the
order in which they are put: the value of a node, whether a control node is reached, and what has
happened to the memory by the time an answer is there.

The nodes that look at or change the memory in a way that matters are the *events* of a plan. They
are numbered, and the rules of a plan see to it that each event asks for something that has the one
before it behind it. So the events happen in the order of their numbers although nothing but demand
drives them. A `Label` gives the value of a node and the number of an event that is over once the
value is known.

A value need not be known to the bit. `Meaning.pointer` is the pointer that an allocating node gives,
wherever that is; it is known to carry the tag bit.

A plan may start in the middle of an evaluation. The answers about the nodes that a setting calls
`given` need not follow the rules; they are remembered when the plan starts.

## Definitions

* `Plan.Grants`, `Plan.Arrives`, `Plan.Flows` — the rules for values, control and effects.
* `Plan.Valid` — a plan all of whose entries follow the rules.
* `Plan.insert` — a plan with one more entry.
-/

namespace ArmBackend

/-- Whether two heaps are laid out alike and have the same booleans. -/
structure Heap.Like (h h' : Heap) : Prop where
  layout : h'.layout = h.layout
  trueObject : h'.trueObject = h.trueObject
  falseObject : h'.falseObject = h.falseObject

theorem Heap.Like.refl (h : Heap) : h.Like h :=
  ⟨rfl, rfl, rfl⟩

theorem Heap.Like.trans {h₁ h₂ h₃ : Heap} (h : h₁.Like h₂) (h' : h₂.Like h₃) : h₁.Like h₃ :=
  ⟨h'.layout.trans h.layout, h'.trueObject.trans h.trueObject, h'.falseObject.trans h.falseObject⟩

/-- Alike heaps read an argument as the same word: only the layout and the booleans decide. -/
theorem Heap.Like.toWord {h h' : Heap} (hLike : h.Like h') (v : BitVec 64) :
    h'.toWord v = h.toWord v := by
  unfold Heap.toWord
  rw [hLike.layout]

/-- Alike heaps unpack a small integer in the same way. -/
theorem Heap.Like.payload {h h' : Heap} (hLike : h.Like h') (v : BitVec 64) :
    h'.payload v = h.payload v := by
  unfold Heap.payload
  rw [hLike.layout]

/-- A word operator as a function of two words. -/
def Operator.onWords? : Operator → Option (BitVec 64 → BitVec 64 → BitVec 64)
  | .word32 op => some fun x y => (op.eval (x.setWidth 32) (y.setWidth 32)).setWidth 64
  | .word64 op => some op.eval
  | .int32 op => some fun x y => (op.eval (x.setWidth 32) (y.setWidth 32)).setWidth 64
  | _ => none

/-- Whether an operator is run for its effect. -/
def Operator.isAccess : Operator → Bool
  | .load | .store | .call | .change _ => true
  | _ => false

/-- Whether a node is reached when its control input is. -/
def Operator.passesControl : Operator → Bool
  | .start | .merge | .ifTrue | .ifFalse => false
  | _ => true

namespace Machine

/-- The value that is remembered of a node. -/
def State.value (s : State) (id : NodeId) : BitVec 64 :=
  (s.values id).getD 0

/-- The state after an access of a node has given a heap and a value. -/
def State.learn (s : State) (id : NodeId) (r : Heap × BitVec 64) : State :=
  { s with heap := r.1, values := fun x => if x = id then some r.2 else s.values x }

/-- Whether everything that `s` remembers about values is remembered in `s'` as well. -/
def State.Recalls (s' s : State) : Prop :=
  ∀ id v, s.values id = some v → s'.values id = some v

/-! ## Labels -/

/-- What is known of a value in advance. -/
inductive Meaning
  /-- The value is this word. -/
  | word (v : BitVec 64)
  /-- The value is the pointer that a node gives. -/
  | pointer (site : NodeId)
  deriving DecidableEq, Repr

/-- Whether a value is what was said of it. -/
def Meaning.Of (s : State) : Meaning → BitVec 64 → Prop
  | .word w, v => v = w
  | .pointer site, v => s.values site = some v ∧ Heap.isSmi v = false

/-- A meaning leaves one value: a word is itself, and a pointer is what is remembered of its node.
-/
theorem Meaning.Of.unique {s : State} {m : Meaning} {v w : BitVec 64} (hv : m.Of s v)
    (hw : m.Of s w) : v = w := by
  cases m with
  | word u => exact Eq.trans hv (Eq.symm hw)
  | pointer site => exact Option.some.inj (hv.1.symm.trans hw.1)

/-- A meaning lasts, since what is remembered of the node of a pointer is not forgotten. -/
theorem Meaning.Of.mono {s s' : State} {m : Meaning} {v : BitVec 64} (h : m.Of s v)
    (hs : s'.Recalls s) : m.Of s' v := by
  cases m with
  | word u => exact h
  | pointer site => exact ⟨hs site v h.1, h.2⟩

/-- What is known of a node's value, and which events are over once it is known. -/
structure Label where
  meaning : Meaning
  stamp : Nat
  deriving DecidableEq, Repr

/-! ## Settings -/

/-- What a graph is evaluated with, and which changes of the heap do not count. -/
structure Setting where
  arguments : List (BitVec 64)
  heap : Heap
  /-- The nodes about which something is remembered from the start. -/
  given : NodeId → Bool := fun _ => false
  Harmless : Heap → Heap → Prop
  harmless_refl : ∀ h, Harmless h h
  harmless_like : ∀ h h', Harmless h h' → h.Like h'

/-- A fact about the memory that outlives what is remembered and what does not count. -/
structure Knowledge (c : Setting) where
  Holds : State → Prop
  stable : ∀ s s', Holds s → s'.Recalls s → c.Harmless s.heap s'.heap → Holds s'

/-! ## Plans -/

/-- What a plan says of a node. -/
structure Entry where
  node : Node
  /-- A node asks for nodes of lower rank. -/
  rank : Nat
  value : Option Label := none
  /-- Whether the node is the event that its label is stamped with. -/
  event : Bool := false
  reached : Option Bool := none
  /-- The event that is over once the effects up to the node have run. -/
  effect : Option Nat := none

/-- Answers in advance. -/
structure Plan (c : Setting) where
  entry : NodeId → Option Entry
  /-- What is known of the memory after so many events. -/
  known : Nat → Option (Knowledge c)
  /-- The number of events. -/
  time : Nat
  /-- The number of entries. -/
  count : Nat

namespace Plan

variable {c : Setting} (p p' : Plan c) (r : Nat)

/-- Whether a node is in the plan. -/
def HasNode (id : NodeId) (n : Node) : Prop :=
  ∃ e, p.entry id = some e ∧ e.node = n

/-- Whether the value of a node of rank below `r` is planned. -/
def Value (id : NodeId) (l : Label) : Prop :=
  ∃ e, p.entry id = some e ∧ e.rank < r ∧ e.value = some l

/-- Whether it is planned that a node of rank below `r` is reached or not. -/
def Reached (id : NodeId) (b : Bool) : Prop :=
  ∃ e, p.entry id = some e ∧ e.rank < r ∧ e.reached = some b

/-- Whether the effects up to a node of rank below `r` are planned. -/
def Effect (id : NodeId) (t : Nat) : Prop :=
  ∃ e, p.entry id = some e ∧ e.rank < r ∧ e.effect = some t

/-- Whether the control node at a position is the first that is reached. -/
inductive FirstReached : List NodeId → Nat → Prop
  | here {x : NodeId} {rest : List NodeId} (h : p.Reached r x true) : FirstReached (x :: rest) 0
  | later {x : NodeId} {rest : List NodeId} {k : Nat} (h : p.Reached r x false)
      (hRest : FirstReached rest k) : FirstReached (x :: rest) (k + 1)

/-- Whether a merge is entered through the input at a position. -/
def Taken (merge : NodeId) (k : Nat) : Prop :=
  ∃ n, p.HasNode merge n ∧ p.FirstReached r n.inputs k

/-- Whether the effect input of a node is planned, if it has one. -/
def Anchored (n : Node) (t : Nat) : Prop :=
  ∃ x, n.effectIn = .ok x ∧ ((x < 0 ∧ t = 0) ∨ p.Effect r x t)

end Plan

/-! ## What nodes do -/

/-- An argument as a parameter of a type gives it. -/
def argumentWord (h : Heap) (type : MachineType) (a : BitVec 64) : BitVec 64 :=
  match type with
  | .int32 | .uint32 | .bool => (a.setWidth 32).setWidth 64
  | .tagged => h.toWord a
  | .none | .int64 | .float64 | .unassigned _ => a

/-- The word that a constant is, if it does not depend on what was asked for before. -/
def constantWord? (n : Node) : ConstantKind → Option (Heap → BitVec 64)
  | .int32 => some fun _ => (BitVec.ofInt 32 n.int).setWidth 64
  | .int64 => some fun _ => BitVec.ofInt 64 n.int
  | .float64 => some fun _ => n.float.bits
  | .heap =>
    if n.name = trueValue then some fun h => h.trueObject
    else if n.name = falseValue then some fun h => h.falseObject
    else none
  | .external => none

namespace Plan

variable {c : Setting} (p : Plan c) (r : Nat)

/-- How a node is computed that neither changes the heap nor looks at the memory: the nodes it asks
for, and its value from theirs. -/
inductive Computes (n : Node) : List NodeId → (Heap → (NodeId → BitVec 64) → BitVec 64) → Prop
  | argument {i : Nat} {a : BitVec 64} (hOp : n.op = .parameter) (hInt : n.int = i)
      (ha : c.arguments[i]? = some a) : Computes n [] fun h _ => argumentWord h n.mach a
  | constant {kind : ConstantKind} {f : Heap → BitVec 64} (hOp : n.op = .constant kind)
      (hf : constantWord? n kind = some f) : Computes n [] fun h _ => f h
  | words {f : BitVec 64 → BitVec 64 → BitVec 64} {x y : NodeId} (hOp : n.op.onWords? = some f)
      (hx : n.input 0 = .ok x) (hy : n.input 1 = .ok y) :
      Computes n [x, y] fun _ v => f (v x) (v y)
  | convert {f : Conversion} {x : NodeId} (hOp : n.op = .convert f) (hx : n.input 0 = .ok x) :
      Computes n [x] fun _ v => f.eval (v x)
  | result {x : NodeId} {m : Node} (hOp : n.op = .projection) (hInt : n.int = 0)
      (hx : n.input 0 = .ok x) (hm : p.HasNode x m) : Computes n [x] fun _ v => v x
  | overflow {x y z : NodeId} {m : Node} (hOp : n.op = .projection) (hInt : n.int = 1)
      (hx : n.input 0 = .ok x) (hm : p.HasNode x m) (hAdd : m.op = .int32 .addWithOverflow)
      (hy : m.input 0 = .ok y) (hz : m.input 1 = .ok z) :
      Computes n [y, z] fun _ v =>
        truth ((((v y).setWidth 32 + (v z).setWidth 32 : BitVec 32)).toInt !=
          ((v y).setWidth 32 : BitVec 32).toInt + ((v z).setWidth 32 : BitVec 32).toInt)

/-- What a node does to the heap: the nodes it asks for, and the heap and value from theirs. -/
inductive Accesses (n : Node) :
    List NodeId → ((NodeId → BitVec 64) → Heap → Heap × BitVec 64) → Prop
  | call {x y : NodeId} {m : Node} (hOp : n.op = .call) (hx : n.input 0 = .ok x)
      (hm : p.HasNode x m) (hName : m.name = allocateHeapNumber) (hCount : n.valueCount = 2)
      (hy : n.input 1 = .ok y) : Accesses n [y] fun v h => h.allocate (v y)
  | load {x y : NodeId} (hOp : n.op = .load) (hx : n.input 0 = .ok x) (hy : n.input 1 = .ok y) :
      Accesses n [x, y] fun v h => (h, extendLoaded n (h.load n.rep (v x + v y)))
  | store {x y z : NodeId} (hOp : n.op = .store) (hx : n.input 0 = .ok x) (hy : n.input 1 = .ok y)
      (hz : n.input 2 = .ok z) : Accesses n [x, y, z] fun v h => (h.store (v x + v y) (v z), 0)
  | change {f : Change} {x : NodeId} (hOp : n.op = .change f) (hx : n.input 0 = .ok x) :
      Accesses n [x] fun v h => changeOn f (v x) h

/-! ## Rules -/

/-- What the values of the nodes asked for say about a stamp. -/
def Backs (xs : List NodeId) (labels : NodeId → Label) (t stamp : Nat) : Prop :=
  stamp ≤ t ∨ ∃ x ∈ xs, stamp ≤ (labels x).stamp

/-- The rules for values. The flag tells whether the node is an event: then it is the one after an
event that is over by the time it happens, and it turns what is known of the memory into what is
known after it. -/
inductive Grants (id : NodeId) (n : Node) : Bool → Label → Prop
  -- a word computed from other words, no later than one of them
  | compute {xs : List NodeId} {f : Heap → (NodeId → BitVec 64) → BitVec 64}
      {labels : NodeId → Label} {l : Label} (hComputes : p.Computes n xs f)
      (hLabels : ∀ x ∈ xs, p.Value r x (labels x)) (hStamp : Backs xs labels 0 l.stamp)
      (hMeans : ∀ s : State, c.heap.Like s.heap →
        (∀ x ∈ xs, (labels x).meaning.Of s (s.value x)) → l.meaning.Of s (f s.heap s.value)) :
      Grants id n false l
  | phi {merge x : NodeId} {k : Nat} {l : Label} (hOp : n.op = .phi)
      (hMerge : n.controlIn = .ok merge) (hTaken : p.Taken r merge k) (hx : n.input k = .ok x)
      (hValue : p.Value r x l) : Grants id n false l
  | finish {x effect : NodeId} {t : Nat} {l l' : Label} (hOp : n.op = .finish)
      (hx : n.input 0 = .ok x) (hEffect : n.input 1 = .ok effect) (hValue : p.Value r x l')
      (hFlow : p.Effect r effect t) (hMeaning : l.meaning = l'.meaning) (hStamp : l.stamp ≤ t) :
      Grants id n false l
  -- an access that leaves what is known of the heap as it was
  | still {xs : List NodeId} {act : (NodeId → BitVec 64) → Heap → Heap × BitVec 64}
      {labels : NodeId → Label} {t : Nat} {l : Label} (hAccesses : p.Accesses n xs act)
      (hLabels : ∀ x ∈ xs, p.Value r x (labels x)) (hAnchored : p.Anchored r n t)
      (hStamp : Backs xs labels t l.stamp)
      (hMeans : ∀ s : State, c.heap.Like s.heap → s.values id = none →
        (∀ x ∈ xs, (labels x).meaning.Of s (s.value x)) →
        c.Harmless s.heap (act s.value s.heap).1 ∧
          l.meaning.Of (s.learn id (act s.value s.heap)) (act s.value s.heap).2) :
      Grants id n false l
  -- an access that moves the clock: it happens between two states of knowledge
  | event {xs : List NodeId} {act : (NodeId → BitVec 64) → Heap → Heap × BitVec 64}
      {labels : NodeId → Label} {t : Nat} {l : Label} {before after : Knowledge c}
      (hAccesses : p.Accesses n xs act) (hLabels : ∀ x ∈ xs, p.Value r x (labels x))
      (hAnchored : p.Anchored r n t) (hPos : 0 < l.stamp)
      (hStamp : Backs xs labels t (l.stamp - 1))
      (hBefore : p.known (l.stamp - 1) = some before) (hAfter : p.known l.stamp = some after)
      (hMeans : ∀ s : State, c.heap.Like s.heap → s.values id = none →
        (∀ x ∈ xs, (labels x).meaning.Of s (s.value x)) → before.Holds s →
        after.Holds (s.learn id (act s.value s.heap)) ∧
          l.meaning.Of (s.learn id (act s.value s.heap)) (act s.value s.heap).2) :
      Grants id n true l

/-- The rules for control. -/
inductive Arrives (n : Node) : Bool → Prop
  | start (hOp : n.op = .start) : Arrives n true
  | merge {k : Nat} (hOp : n.op = .merge) (hFirst : p.FirstReached r n.inputs k) : Arrives n true
  -- an arm is reached when the condition says so, and refused otherwise
  | branch {b control x : NodeId} {m : Node} {v : BitVec 64} {t : Nat}
      (hOp : n.op = .ifTrue ∨ n.op = .ifFalse) (hb : n.input 0 = .ok b) (hm : p.HasNode b m)
      (hControl : m.controlIn = .ok control) (hReached : p.Reached r control true)
      (hCount : 0 < m.valueCount) (hx : m.input 0 = .ok x)
      (hValue : p.Value r x ⟨.word v, t⟩) : Arrives n ((v != 0) == (n.op == .ifTrue))
  | through {control : NodeId} {b : Bool} (hOp : n.op.passesControl = true)
      (hControl : n.controlIn = .ok control) (hNonneg : 0 ≤ control)
      (hReached : p.Reached r control b) : Arrives n b

/-- The rules for effects. -/
inductive Flows (n : Node) (value : Option Label) : Nat → Prop
  | quiet (hOp : n.op = .start ∨ n.op = .valueEffect ∨ n.op = .controlEffect) : Flows n value 0
  | join {merge x : NodeId} {k t : Nat} (hOp : n.op = .effectPhi)
      (hMerge : n.controlIn = .ok merge) (hTaken : p.Taken r merge k) (hx : n.input k = .ok x)
      (hEffect : p.Effect r x t) : Flows n value t
  | finish {x : NodeId} {t : Nat} (hOp : n.op = .finish) (hInputs : n.effectInputs = .ok [x])
      (hEffect : p.Effect r x t) : Flows n value t
  | access {xs : List NodeId} {l : Label} (hOp : n.op.isAccess = true)
      (hInputs : n.effectInputs = .ok xs) (hEffects : ∀ x ∈ xs, ∃ t, p.Effect r x t)
      (hValue : value = some l) : Flows n value l.stamp

/-- A plan whose entries follow the rules, apart from those that are given. -/
structure Valid : Prop where
  rank_lt : ∀ {id e}, p.entry id = some e → e.rank < p.count
  closed : ∀ {id e}, c.given id = false → p.entry id = some e →
    ∀ x ∈ e.node.inputs, (p.entry x).isSome
  value : ∀ {id e l}, c.given id = false → p.entry id = some e → e.value = some l →
    p.Grants e.rank id e.node e.event l
  stamp_le : ∀ {id e l}, p.entry id = some e → e.value = some l → l.stamp ≤ p.time
  once : ∀ {id id' e e' l l'}, p.entry id = some e → e.value = some l → e.event = true →
    p.entry id' = some e' → e'.value = some l' → e'.event = true → l.stamp = l'.stamp → id = id'
  reached : ∀ {id e b}, c.given id = false → p.entry id = some e → e.reached = some b →
    p.Arrives e.rank e.node b
  effect : ∀ {id e t}, c.given id = false → p.entry id = some e → e.effect = some t →
    p.Flows e.rank e.node e.value t
  known_le : ∀ {t}, p.time < t → p.known t = none

/-- Whether the nodes of a plan are those of a graph. -/
def Fits (g : Graph) : Prop :=
  ∀ id e, p.entry id = some e → g.node? id = some e.node

/-! ## Order of plans -/

/-- Whether `p'` says all that `p` says. -/
structure Le (p p' : Plan c) : Prop where
  entry : ∀ {id e}, p.entry id = some e → p'.entry id = some e
  known : ∀ {t K}, p.known t = some K → p'.known t = some K
  count : p.count ≤ p'.count

variable {p p' p'' : Plan c} {r r' : Nat} {n : Node} {id : NodeId}

theorem Le.refl (p : Plan c) : p.Le p :=
  ⟨id, id, Nat.le_refl _⟩

theorem Le.trans (h : p.Le p') (h' : p'.Le p'') : p.Le p'' :=
  ⟨fun he => h'.entry (h.entry he), fun hK => h'.known (h.known hK), Nat.le_trans h.count h'.count⟩

/-- A node stays in a plan that grows. -/
theorem HasNode.mono (h : p.HasNode id n) (hLe : p.Le p') : p'.HasNode id n := by
  obtain ⟨e, he, hn⟩ := h
  exact ⟨e, hLe.entry he, hn⟩

/-- A value stays planned when the plan grows or questions may go higher. -/
theorem Value.mono {l : Label} (h : p.Value r id l) (hLe : p.Le p') (hr : r ≤ r') :
    p'.Value r' id l := by
  obtain ⟨e, he, hRank, hl⟩ := h
  exact ⟨e, hLe.entry he, Nat.lt_of_lt_of_le hRank hr, hl⟩

/-- What is planned of control at a node stays planned. -/
theorem Reached.mono {b : Bool} (h : p.Reached r id b) (hLe : p.Le p') (hr : r ≤ r') :
    p'.Reached r' id b := by
  obtain ⟨e, he, hRank, hb⟩ := h
  exact ⟨e, hLe.entry he, Nat.lt_of_lt_of_le hRank hr, hb⟩

/-- What is planned of the effects up to a node stays planned. -/
theorem Effect.mono {t : Nat} (h : p.Effect r id t) (hLe : p.Le p') (hr : r ≤ r') :
    p'.Effect r' id t := by
  obtain ⟨e, he, hRank, ht⟩ := h
  exact ⟨e, hLe.entry he, Nat.lt_of_lt_of_le hRank hr, ht⟩

/-- The first control node that is reached stays the first: those in front of it stay unreached. -/
theorem FirstReached.mono {xs : List NodeId} {k : Nat} (h : p.FirstReached r xs k)
    (hLe : p.Le p') (hr : r ≤ r') : p'.FirstReached r' xs k := by
  induction h with
  | here h => exact .here (h.mono hLe hr)
  | later h _ ih => exact .later (h.mono hLe hr) ih

/-- A merge is entered through the same input in a plan that says more. -/
theorem Taken.mono {k : Nat} (h : p.Taken r id k) (hLe : p.Le p') (hr : r ≤ r') :
    p'.Taken r' id k := by
  obtain ⟨m, hm, hFirst⟩ := h
  exact ⟨m, hm.mono hLe, hFirst.mono hLe hr⟩

theorem Anchored.mono {t : Nat} (h : p.Anchored r n t) (hLe : p.Le p') (hr : r ≤ r') :
    p'.Anchored r' n t := by
  obtain ⟨x, hx, hNone | hEffect⟩ := h
  · exact ⟨x, hx, .inl hNone⟩
  · exact ⟨x, hx, .inr (hEffect.mono hLe hr)⟩

/-- A node is computed in the same way under a plan that says more: a plan is only asked which node
an input is. -/
theorem Computes.mono {xs : List NodeId} {f : Heap → (NodeId → BitVec 64) → BitVec 64}
    (h : p.Computes n xs f) (hLe : p.Le p') : p'.Computes n xs f := by
  cases h with
  | argument hOp hInt ha => exact .argument hOp hInt ha
  | constant hOp hf => exact .constant hOp hf
  | words hOp hx hy => exact .words hOp hx hy
  | convert hOp hx => exact .convert hOp hx
  | result hOp hInt hx hm => exact .result hOp hInt hx (hm.mono hLe)
  | overflow hOp hInt hx hm hAdd hy hz => exact .overflow hOp hInt hx (hm.mono hLe) hAdd hy hz

/-- A node accesses the heap in the same way under a plan that says more. -/
theorem Accesses.mono {xs : List NodeId} {act : (NodeId → BitVec 64) → Heap → Heap × BitVec 64}
    (h : p.Accesses n xs act) (hLe : p.Le p') : p'.Accesses n xs act := by
  cases h with
  | call hOp hx hm hName hCount hy => exact .call hOp hx (hm.mono hLe) hName hCount hy
  | load hOp hx hy => exact .load hOp hx hy
  | store hOp hx hy hz => exact .store hOp hx hy hz
  | change hOp hx => exact .change hOp hx

/-- A rule for values that a plan allows is allowed by every plan that says more. -/
theorem Grants.mono {event : Bool} {l : Label} (h : p.Grants r id n event l) (hLe : p.Le p') :
    p'.Grants r id n event l := by
  -- Every premise of a rule is about the plan or about states, and those about the plan are
  -- monotone.
  cases h with
  | compute hComputes hLabels hStamp hMeans =>
    exact .compute (hComputes.mono hLe) (fun x hx => (hLabels x hx).mono hLe (Nat.le_refl _)) hStamp
      hMeans
  | phi hOp hMerge hTaken hx hValue =>
    exact .phi hOp hMerge (hTaken.mono hLe (Nat.le_refl _)) hx (hValue.mono hLe (Nat.le_refl _))
  | finish hOp hx hEffect hValue hFlow hMeaning hStamp =>
    exact .finish hOp hx hEffect (hValue.mono hLe (Nat.le_refl _))
      (hFlow.mono hLe (Nat.le_refl _)) hMeaning hStamp
  | still hAccesses hLabels hAnchored hStamp hMeans =>
    exact .still (hAccesses.mono hLe) (fun x hx => (hLabels x hx).mono hLe (Nat.le_refl _))
      (hAnchored.mono hLe (Nat.le_refl _)) hStamp hMeans
  | event hAccesses hLabels hAnchored hPos hStamp hBefore hAfter hMeans =>
    exact .event (hAccesses.mono hLe) (fun x hx => (hLabels x hx).mono hLe (Nat.le_refl _))
      (hAnchored.mono hLe (Nat.le_refl _)) hPos hStamp (hLe.known hBefore) (hLe.known hAfter) hMeans

/-- A rule for control that a plan allows is allowed by every plan that says more. -/
theorem Arrives.mono {b : Bool} (h : p.Arrives r n b) (hLe : p.Le p') : p'.Arrives r n b := by
  cases h with
  | start hOp => exact .start hOp
  | merge hOp hFirst => exact .merge hOp (hFirst.mono hLe (Nat.le_refl _))
  | branch hOp hb hm hControl hReached hCount hx hValue =>
    exact .branch hOp hb (hm.mono hLe) hControl (hReached.mono hLe (Nat.le_refl _)) hCount hx
      (hValue.mono hLe (Nat.le_refl _))
  | through hOp hControl hNonneg hReached =>
    exact .through hOp hControl hNonneg (hReached.mono hLe (Nat.le_refl _))

/-- A rule for effects that a plan allows is allowed by every plan that says more. -/
theorem Flows.mono {value : Option Label} {t : Nat} (h : p.Flows r n value t) (hLe : p.Le p') :
    p'.Flows r n value t := by
  cases h with
  | quiet hOp => exact .quiet hOp
  | join hOp hMerge hTaken hx hEffect =>
    exact .join hOp hMerge (hTaken.mono hLe (Nat.le_refl _)) hx (hEffect.mono hLe (Nat.le_refl _))
  | finish hOp hInputs hEffect => exact .finish hOp hInputs (hEffect.mono hLe (Nat.le_refl _))
  | access hOp hInputs hEffects hValue =>
    refine .access hOp hInputs (fun x hx => ?_) hValue
    obtain ⟨t, ht⟩ := hEffects x hx
    exact ⟨t, ht.mono hLe (Nat.le_refl _)⟩

/-! ## One more entry -/

/-- The plan with one more entry, which is the next event if something is known after it. -/
def insert (p : Plan c) (id : NodeId) (e : Entry) (after : Option (Knowledge c)) : Plan c where
  entry x := if x = id then some { e with rank := p.count, event := after.isSome } else p.entry x
  known t := if after.isSome ∧ t = p.time + 1 then after else p.known t
  time := if after.isSome then p.time + 1 else p.time
  count := p.count + 1

variable {e : Entry} {after : Option (Knowledge c)}

/-- A plan with one more entry says all that it said: the entry is for a node without one, and the
event it may add comes after all that something was known after. -/
theorem le_insert (hv : p.Valid) (hFresh : p.entry id = none) : p.Le (p.insert id e after) where
  entry := by
    intro x e' he
    have hNe : x ≠ id := by
      rintro rfl
      rw [hFresh] at he
      cases he
    show (if x = id then _ else p.entry x) = some e'
    rw [if_neg hNe]
    exact he
  known := by
    intro t K hK
    have hLe : t ≤ p.time := Nat.not_lt.mp fun hLt => by
      rw [hv.known_le hLt] at hK
      cases hK
    -- What was known was known after events up to now, so not after the new one.
    show (if _ ∧ t = p.time + 1 then after else p.known t) = some K
    rw [if_neg fun h => by omega]
    exact hK
  count := Nat.le_succ _

/-- A new entry that follows the rules keeps a plan valid. -/
theorem Valid.insert (hv : p.Valid) (hFresh : p.entry id = none)
    (hClosed : ∀ x ∈ e.node.inputs, (p.entry x).isSome)
    (hValue : ∀ l, e.value = some l →
      (p.insert id e after).Grants p.count id e.node after.isSome l ∧
        if after.isSome then l.stamp = p.time + 1 else l.stamp ≤ p.time)
    (hReached : ∀ b, e.reached = some b → p.Arrives p.count e.node b)
    (hEffect : ∀ t, e.effect = some t → p.Flows p.count e.node e.value t) :
    (p.insert id e after).Valid := by
  have hLe : p.Le (p.insert id e after) := le_insert hv hFresh
  have hTime : p.time ≤ (p.insert id e after).time := by
    show p.time ≤ if after.isSome = true then p.time + 1 else p.time
    split <;> omega
  -- an entry of the new plan is the new one or an old one
  have hCases : ∀ {x e'}, (p.insert id e after).entry x = some e' →
      (x = id ∧ e' = { e with rank := p.count, event := after.isSome }) ∨ p.entry x = some e' := by
    intro x e' he
    by_cases hx : x = id
    · have hNew : (p.insert id e after).entry x = _ := if_pos hx
      rw [hNew] at he
      exact .inl ⟨hx, (Option.some.inj he).symm⟩
    · have hOld : (p.insert id e after).entry x = p.entry x := if_neg hx
      rw [hOld] at he
      exact .inr he
  constructor
  case rank_lt =>
    intro x e' he
    obtain ⟨-, rfl⟩ | hOld := hCases he
    · exact Nat.lt_succ_self _
    · exact Nat.lt_succ_of_lt (hv.rank_lt hOld)
  case closed =>
    intro x e' hGiven he y hy
    have hSome : ∀ z, (p.entry z).isSome → ((p.insert id e after).entry z).isSome := by
      intro z hz
      obtain ⟨ez, hez⟩ := Option.isSome_iff_exists.mp hz
      exact Option.isSome_iff_exists.mpr ⟨ez, hLe.entry hez⟩
    obtain ⟨-, rfl⟩ | hOld := hCases he
    · exact hSome y (hClosed y hy)
    · exact hSome y (hv.closed hGiven hOld y hy)
  case value =>
    intro x e' l hGiven he hl
    obtain ⟨rfl, rfl⟩ | hOld := hCases he
    · exact (hValue l hl).1
    · exact (hv.value hGiven hOld hl).mono hLe
  case stamp_le =>
    intro x e' l he hl
    obtain ⟨rfl, rfl⟩ | hOld := hCases he
    · have hStamp := (hValue l hl).2
      show l.stamp ≤ if _ then _ else _
      split at hStamp <;> simp_all
    · exact Nat.le_trans (hv.stamp_le hOld hl) hTime
  case once =>
    -- the new event has a later number than all others
    have hLater : ∀ {x e' l l'}, p.entry x = some e' → e'.value = some l' → e.value = some l →
        after.isSome = true → l.stamp ≠ l'.stamp := by
      intro x e' l l' he' hl' hl hSome hEq
      have hNew := (hValue l hl).2
      rw [if_pos hSome] at hNew
      have := hv.stamp_le he' hl'
      omega
    intro x x' e₁ e₂ l₁ l₂ h₁ hl₁ hEvent₁ h₂ hl₂ hEvent₂ hStamp
    obtain ⟨rfl, rfl⟩ | hOld₁ := hCases h₁
    · obtain ⟨rfl, rfl⟩ | hOld₂ := hCases h₂
      · rfl
      · exact absurd hStamp (hLater hOld₂ hl₂ hl₁ hEvent₁)
    · obtain ⟨rfl, rfl⟩ | hOld₂ := hCases h₂
      · exact absurd hStamp.symm (hLater hOld₁ hl₁ hl₂ hEvent₂)
      · exact hv.once hOld₁ hl₁ hEvent₁ hOld₂ hl₂ hEvent₂ hStamp
  case reached =>
    intro x e' b hGiven he hb
    obtain ⟨rfl, rfl⟩ | hOld := hCases he
    · exact (hReached b hb).mono hLe
    · exact (hv.reached hGiven hOld hb).mono hLe
  case effect =>
    intro x e' t hGiven he ht
    obtain ⟨rfl, rfl⟩ | hOld := hCases he
    · exact (hEffect t ht).mono hLe
    · exact (hv.effect hGiven hOld ht).mono hLe
  case known_le =>
    intro t ht
    have hLt : p.time < t := Nat.lt_of_le_of_lt hTime ht
    show (if after.isSome = true ∧ t = p.time + 1 then after else p.known t) = none
    rw [if_neg ?_]
    · exact hv.known_le hLt
    · rintro ⟨hSome, rfl⟩
      have hNow : (p.insert id e after).time = p.time + 1 := if_pos hSome
      omega

end Plan
end Machine
end ArmBackend
