import ArmBackend.Proofs.Lowering.Changes
import ArmBackend.Proofs.Lowering.Rewiring

/-!
# Linear accesses

A graph in which changes, loads and stores follow one another along the effects and along the
control. The operands are parameters, constants and what came before.

## Definitions

* `Linear` — such a graph, by its parts.
* `Linear.graph` — the graph itself.
* `Linear.isScoped` — every operand stands before the node that takes it, and bits are words without
  an upper half.
-/

namespace ArmBackend

/-- A node without operands. -/
inductive Leaf
  | parameter (index : Nat) (type : MachineType)
  | int32 (v : BitVec 32)
  | int64 (v : Int)
  | float64 (x : Double)
  | bool (b : Bool)
  deriving DecidableEq, Repr

namespace Leaf

def node : Leaf → Node
  | .parameter index type => .parameter index type
  | .int32 v => .int32 v
  | .int64 v => .int64 v
  | .float64 x => .float64 x
  | .bool b => .heap (if b then trueValue else falseValue)

/-- The value, if the argument it asks for is there. -/
def word? (arguments : List (BitVec 64)) (h : Heap) : Leaf → Option (BitVec 64)
  | .parameter index type => arguments[index]?.map (Machine.argumentWord h type)
  | .int32 v => some (v.setWidth 64)
  | .int64 v => some (BitVec.ofInt 64 v)
  | .float64 x => some x.bits
  | .bool b => some (if b then h.trueObject else h.falseObject)

/-- Whether the value has no upper half. -/
def isNarrow : Leaf → Bool
  | .parameter _ type => type = .int32 || type = .uint32 || type = .bool
  | .int32 _ => true
  | _ => false

end Leaf

/-- A node that is run for its effect. -/
inductive Link
  | change (f : Change) (x : NodeId)
  | load (rep : Rep) (type : MachineType) (base index : NodeId)
  | store (rep : Rep) (barrier : WriteBarrier) (base index value : NodeId)
  deriving DecidableEq, Repr

/-- The ends of the two chains that a link hangs on. -/
structure Tip where
  effect : NodeId
  control : NodeId
  deriving DecidableEq, Repr

namespace Link

def operands : Link → List NodeId
  | .change _ x => [x]
  | .load _ _ base index => [base, index]
  | .store _ _ base index value => [base, index, value]

/-- The link with other operands. -/
def rename (ρ : NodeId → NodeId) : Link → Link
  | .change f x => .change f (ρ x)
  | .load rep type base index => .load rep type (ρ base) (ρ index)
  | .store rep barrier base index value => .store rep barrier (ρ base) (ρ index) (ρ value)

def node (l : Link) (tip : Tip) : Node :=
  match l with
  | .change f x => .change (.change f) x tip.effect tip.control
  | .load rep type base index => { Node.load rep base index tip.effect tip.control with mach := type }
  | .store rep barrier base index value =>
    .store rep barrier base index value tip.effect tip.control

def isChange : Link → Bool
  | .change _ _ => true
  | _ => false

/-- What the link behind hangs on. Loads and stores may stand in the control chain or beside it. -/
def next (threaded : Bool) (l : Link) (id : NodeId) (tip : Tip) : Tip :=
  ⟨id, if l.isChange || threaded then id else tip.control⟩

/-- Whether the value has no upper half. -/
def isNarrow : Link → Bool
  | .change .boolToBit _ | .store .. => true
  | .load rep _ _ _ => rep = .bit || rep = .word8 || rep = .word16 || rep = .word32
  | .change _ _ => false

/-- Whether a link is given no box to look into. -/
def readsNoBox (ν : NodeId → BitVec 64) : Link → Bool
  | .change f x => !f.unboxes || Heap.isSmi (ν x)
  | _ => true

/-- Whether the operands are among the values so far, of which it is known which are narrow. -/
def isScoped (narrow : List Bool) (l : Link) : Bool :=
  (l.operands.all fun x => 0 < x && x ≤ narrow.length) &&
    match l with
    | .change .bitToBool x => narrow[(x - 1).toNat]?.getD false
    | _ => true

end Link

/-- Whether all operands of links, and the value that is returned, are among the values so far. -/
def linksScoped (narrow : List Bool) (result : NodeId) : List Link → Bool
  | [] => 0 < result && result ≤ narrow.length
  | l :: ls => l.isScoped narrow && linksScoped (narrow ++ [l.isNarrow]) result ls

/-- The nodes of links and the return behind them; `pos` is where they start. -/
def linkNodes (threaded : Bool) (result : NodeId) : List Link → Nat → Tip → List Node
  | [], pos, tip => [.ofArity .ret [result, tip.effect, tip.control], .collect [(pos : Int)]]
  | l :: ls, pos, tip => l.node tip :: linkNodes threaded result ls (pos + 1) (l.next threaded pos tip)

/-- Links behind one another. -/
structure Linear where
  leaves : List Leaf
  links : List Link
  /-- Whether loads and stores stand in the control chain. -/
  threaded : Bool
  /-- The node whose value is returned. -/
  result : NodeId
  deriving DecidableEq, Repr

namespace Linear

def graph (c : Linear) : Graph :=
  { Graph.empty.append (c.leaves.map Leaf.node ++
      linkNodes c.threaded c.result c.links (c.leaves.length + 1) ⟨Graph.start, Graph.start⟩) with
    exit := some (c.leaves.length + c.links.length + 2 : Nat) }

def isScoped (c : Linear) : Bool :=
  linksScoped (c.leaves.map Leaf.isNarrow) c.result c.links

end Linear

/-! ## What links do -/

/-- What a link does to the heap, and its value. -/
def Link.act (l : Link) (ν : NodeId → BitVec 64) (h : Heap) : Heap × BitVec 64 :=
  match l with
  | .change f x => Machine.changeOn f (ν x) h
  | .load rep type base index =>
    (h, Machine.extendLoaded { op := .load, rep, mach := type } (h.load rep (ν base + ν index)))
  | .store _ _ base index value => (h.store (ν base + ν index) (ν value), 0)

/-- What links do one after another: the values they have, and the heap. -/
def runLinks : List Link → Nat → (NodeId → BitVec 64) → Heap → (NodeId → BitVec 64) × Heap
  | [], _, ν, h => (ν, h)
  | l :: ls, pos, ν, h =>
    runLinks ls (pos + 1) (fun x => if x = pos then (l.act ν h).2 else ν x) (l.act ν h).1

/-- Whether links are given no boxes to look into, one after another. -/
def readNoBox : List Link → Nat → (NodeId → BitVec 64) → Heap → Bool
  | [], _, _, _ => true
  | l :: ls, pos, ν, h =>
    l.readsNoBox ν &&
      readNoBox ls (pos + 1) (fun x => if x = pos then (l.act ν h).2 else ν x) (l.act ν h).1

/-- The values of the leaves. -/
def Linear.leafValue (c : Linear) (arguments : List (BitVec 64)) (h : Heap) (x : NodeId) :
    BitVec 64 :=
  (c.leaves[(x - 1).toNat]?.bind (Leaf.word? arguments h)).getD 0

/-- A word without an upper half. -/
def IsNarrow (v : BitVec 64) : Prop :=
  (v.setWidth 32).setWidth 64 = v

/-- A word without an upper half is zero if its lower half is. -/
theorem IsNarrow.eq_zero {v : BitVec 64} (h : IsNarrow v) (hZero : v.setWidth 32 = 0) : v = 0 := by
  rw [← h, hZero]
  rfl

/-- A word of 32 bits has no upper half. -/
theorem isNarrow_setWidth (v : BitVec 32) : IsNarrow (v.setWidth 64) := by
  unfold IsNarrow
  rw [setWidth_setWidth]

/-- A mask without an upper half clears it. -/
theorem isNarrow_and {v m : BitVec 64} (hm : IsNarrow m) : IsNarrow (v &&& m) := by
  unfold IsNarrow at *
  rw [← hm]
  ext i hi
  by_cases hLow : i < 32 <;> simp [hLow, BitVec.getLsbD_eq_getElem hi]

/-- A leaf that is narrow gives a narrow word. -/
theorem Leaf.word?_isNarrow {arguments : List (BitVec 64)} {h : Heap} {l : Leaf} {v : BitVec 64}
    (hl : l.isNarrow = true) (hv : l.word? arguments h = some v) : IsNarrow v := by
  cases l with
  | parameter index type =>
    obtain ⟨a, -, rfl⟩ := Option.map_eq_some_iff.mp hv
    -- parameters of the three narrow types have their upper half cleared
    obtain (rfl | rfl) | rfl : (type = .int32 ∨ type = .uint32) ∨ type = .bool := by
      simpa [Leaf.isNarrow] using hl
    · exact isNarrow_setWidth _
    · exact isNarrow_setWidth _
    · exact isNarrow_setWidth _
  | int32 w =>
    cases hv
    exact isNarrow_setWidth w
  | int64 | float64 | bool => cases hl

/-- A link that is narrow gives a narrow word. -/
theorem Link.act_isNarrow {l : Link} (hl : l.isNarrow = true) (ν : NodeId → BitVec 64) (h : Heap) :
    IsNarrow (l.act ν h).2 := by
  cases l with
  | change f x =>
    cases f with
    | boolToBit =>
      show IsNarrow (truth (h.toWord (ν x) == h.trueObject))
      cases h.toWord (ν x) == h.trueObject <;> rfl
    | _ => cases hl
  | store rep barrier base index value => rfl
  | load rep type base index =>
    -- the representations that count as narrow are masked when they are loaded
    have hLoaded : IsNarrow (h.load rep (ν base + ν index)) := by
      obtain ((rfl | rfl) | rfl) | rfl :
          ((rep = .bit ∨ rep = .word8) ∨ rep = .word16) ∨ rep = .word32 := by
        simpa [Link.isNarrow] using hl
      all_goals exact isNarrow_and (by rfl)
    show IsNarrow (Machine.extendLoaded _ _)
    unfold Machine.extendLoaded
    split
    · exact hLoaded
    · split
      · exact isNarrow_setWidth _
      · exact isNarrow_setWidth _
      · exact hLoaded

/-! ## What links are made of -/

/-- Whether both chains are there. -/
structure Tip.Placed (tip : Tip) : Prop where
  effect : 0 ≤ tip.effect
  control : 0 ≤ tip.control

/-- The ends of the chains after a node was replaced. -/
def Tip.redirect (tip : Tip) (old : NodeId) (r : Graph.Replacement) : Tip :=
  ⟨if tip.effect = old then r.effect else tip.effect,
    if tip.control = old then r.control else tip.control⟩

/-- Chains that are replaced stay there. -/
theorem Tip.Placed.redirect {tip : Tip} {old : NodeId} {r : Graph.Replacement} (h : tip.Placed)
    (hEffect : 0 ≤ r.effect) (hControl : 0 ≤ r.control) : (tip.redirect old r).Placed := by
  constructor
  · show 0 ≤ if tip.effect = old then r.effect else tip.effect
    split
    · exact hEffect
    · exact h.effect
  · show 0 ≤ if tip.control = old then r.control else tip.control
    split
    · exact hControl
    · exact h.control

namespace Link

variable {l : Link} {tip : Tip} {ρ σ : NodeId → NodeId}

/-- Renaming a link renames its operands. -/
theorem operands_rename : (l.rename ρ).operands = l.operands.map ρ := by
  cases l <;> rfl

/-- Renaming twice. -/
theorem rename_rename : (l.rename ρ).rename σ = l.rename fun x => σ (ρ x) := by
  cases l <;> rfl

/-- What a link leads on to does not depend on its operands. -/
theorem next_rename {threaded : Bool} {id : NodeId} :
    (l.rename ρ).next threaded id tip = l.next threaded id tip := by
  cases l <;> rfl

/-- The inputs of a link are its operands and the ends of the chains. -/
theorem inputs_node (hTip : tip.Placed) :
    (l.node tip).inputs = l.operands ++ [tip.effect, tip.control] := by
  cases l <;> simp [node, operands, Node.change, Node.load, Node.store, Node.anchors, hTip.effect,
    hTip.control]

/-- A link takes the effect of its tip. -/
theorem effectIn_node (hTip : tip.Placed) : (l.node tip).effectIn = .ok tip.effect := by
  cases l <;> simp [node, Node.effectIn, Node.input, Node.change, Node.load, Node.store,
    Node.anchors, hTip.effect]

/-- A link takes that effect alone. -/
theorem effectInputs_node (hTip : tip.Placed) : (l.node tip).effectInputs = .ok [tip.effect] := by
  cases l <;> simp [node, Node.effectInputs, Node.inputsBetween, Node.change, Node.load, Node.store,
    Node.anchors, hTip.effect, hTip.control]

/-- A link hangs on the control of its tip. -/
theorem controlIn_node (hTip : tip.Placed) : (l.node tip).controlIn = .ok tip.control := by
  cases l <;> simp [node, Node.controlIn, Node.input, Node.change, Node.load, Node.store,
    Node.anchors, hTip.effect, hTip.control]

/-- Replacing a node renames the operands and moves the tip. -/
theorem redirect_node {old : NodeId} {r : Graph.Replacement} (hTip : tip.Placed)
    (hValue : 0 ≤ r.value) (hEffect : 0 ≤ r.effect) (hControl : 0 ≤ r.control) :
    (l.node tip).redirect old r =
      (l.rename fun x => if x = old then r.value else x).node (tip.redirect old r) := by
  obtain ⟨he', hc'⟩ : (tip.redirect old r).Placed := hTip.redirect hEffect hControl
  obtain ⟨he, hc⟩ := hTip
  cases l <;> simp [node, rename, Node.redirect, Node.change, Node.load, Node.store, Node.anchors,
    Node.edgeKind, Graph.Replacement.target, he, hc, he', hc', hValue, hEffect, hControl] <;>
    simp [Tip.redirect]

/-- The chains stay there behind a link. -/
theorem next_placed {threaded : Bool} {id : NodeId} (hTip : tip.Placed) (hId : 0 ≤ id) :
    (l.next threaded id tip).Placed := by
  refine ⟨hId, ?_⟩
  show 0 ≤ if _ then id else tip.control
  split
  · exact hId
  · exact hTip.control

/-- What a link leads on to moves with its tip. -/
theorem next_redirect {threaded : Bool} {id old : NodeId} {r : Graph.Replacement} (hId : id ≠ old) :
    (l.next threaded id tip).redirect old r = l.next threaded id (tip.redirect old r) := by
  unfold next Tip.redirect
  simp only [if_neg hId]
  congr 1
  split <;> rfl

end Link

section

variable {threaded : Bool} {result : NodeId} {ls : List Link} {pos : Nat} {tip : Tip}

/-- There is a node for each link, with the return and the exit behind them. -/
theorem length_linkNodes : (linkNodes threaded result ls pos tip).length = ls.length + 2 := by
  induction ls generalizing pos tip with
  | nil => rfl
  | cons l ls ih =>
    show (linkNodes threaded result ls _ _).length + 1 = ls.length + 1 + 2
    rw [ih]

/-- Links refer to their operands and to the ends of the chains. -/
theorem mem_linkNodes {n : Node} {x : NodeId} (hTip : tip.Placed)
    (hn : n ∈ linkNodes threaded result ls pos tip) (hx : x ∈ n.inputs) :
    (∃ l ∈ ls, x ∈ l.operands) ∨ x = result ∨ x = tip.effect ∨ x = tip.control ∨
      ∃ i : Nat, x = i ∧ i ≤ pos + ls.length := by
  induction ls generalizing pos tip with
  | nil =>
    obtain rfl | rfl : n = .ofArity .ret [result, tip.effect, tip.control] ∨
        n = .collect [(pos : Int)] := by
      simpa [linkNodes] using hn
    · obtain rfl | rfl | rfl : x = result ∨ x = tip.effect ∨ x = tip.control := by
        simpa [Node.ofArity] using hx
      · exact .inr (.inl rfl)
      · exact .inr (.inr (.inl rfl))
      · exact .inr (.inr (.inr (.inl rfl)))
    · have hx : x = (pos : Int) := by simpa [Node.collect] using hx
      exact .inr (.inr (.inr (.inr ⟨pos, hx, Nat.le_add_right _ _⟩)))
  | cons l ls ih =>
    obtain rfl | hn := List.mem_cons.mp hn
    · rw [Link.inputs_node hTip] at hx
      obtain hx | rfl | rfl : x ∈ l.operands ∨ x = tip.effect ∨ x = tip.control := by
        simpa using hx
      · exact .inl ⟨l, .head _, hx⟩
      · exact .inr (.inr (.inl rfl))
      · exact .inr (.inr (.inr (.inl rfl)))
    · have hNext : (l.next threaded pos tip).Placed :=
        Link.next_placed hTip (Int.natCast_nonneg pos)
      obtain ⟨l', hl', hx⟩ | rfl | rfl | hx | ⟨i, rfl, hi⟩ := ih hNext hn
      · exact .inl ⟨l', .tail _ hl', hx⟩
      · exact .inr (.inl rfl)
      · exact .inr (.inr (.inr (.inr ⟨pos, rfl, Nat.le_add_right _ _⟩)))
      · -- the control is that of the link or of the chain before it
        change x = if _ then (pos : NodeId) else tip.control at hx
        split at hx
        · exact .inr (.inr (.inr (.inr ⟨pos, hx, Nat.le_add_right _ _⟩)))
        · exact .inr (.inr (.inr (.inl hx)))
      · refine .inr (.inr (.inr (.inr ⟨i, rfl, ?_⟩)))
        rw [List.length_cons]
        omega

/-- Replacing a node in front of links renames their operands and moves the ends of the chains. -/
theorem map_redirect_linkNodes {old : Nat} {r : Graph.Replacement} (hTip : tip.Placed)
    (hOld : old < pos) (hValue : 0 ≤ r.value) (hEffect : 0 ≤ r.effect) (hControl : 0 ≤ r.control) :
    (linkNodes threaded result ls pos tip).map (·.redirect old r) =
      linkNodes threaded (if result = old then r.value else result)
        (ls.map (·.rename fun x => if x = old then r.value else x)) pos (tip.redirect old r) := by
  have hNe : (pos : NodeId) ≠ old := fun hEq => by
    have : (pos : Int) = old := hEq
    omega
  -- Link by link; each node takes its operands and the tip, and both are renamed.
  induction ls generalizing pos tip with
  | nil =>
    have hReturn : (Node.ofArity .ret [result, tip.effect, tip.control]).redirect old r =
        .ofArity .ret [if result = old then r.value else result, (tip.redirect old r).effect,
          (tip.redirect old r).control] := by
      simp [Node.redirect, Node.ofArity, Operator.arity?, Node.edgeKind, Graph.Replacement.target,
        hValue, hEffect, hControl, Tip.redirect]
    have hCollect : (Node.collect [(pos : NodeId)]).redirect old r = .collect [(pos : NodeId)] :=
      Node.redirect_of_notMem fun hMem => hNe (List.mem_singleton.mp hMem).symm
    show [Node.redirect _ _ _, Node.redirect _ _ _] = _
    rw [hReturn, hCollect]
    rfl
  | cons l ls ih =>
    have hNext : (l.next threaded pos tip).Placed :=
        Link.next_placed hTip (Int.natCast_nonneg pos)
    have hNe' : ((pos + 1 : Nat) : NodeId) ≠ old := fun hEq => by
      have : ((pos + 1 : Nat) : Int) = old := hEq
      omega
    show (l.node tip).redirect old r :: (linkNodes _ _ _ _ _).map _ = _
    rw [Link.redirect_node hTip hValue hEffect hControl, ih hNext (by omega) hNe',
      Link.next_redirect hNe]
    show _ = Link.node _ _ :: linkNodes _ _ _ _ (Link.next _ _ _ _)
    rw [Link.next_rename]

/-- The first link speaks of the values so far, the others of its own too. -/
theorem linksScoped_cons {narrow : List Bool} {l : Link} :
    linksScoped narrow result (l :: ls) = true ↔
      l.isScoped narrow = true ∧ linksScoped (narrow ++ [l.isNarrow]) result ls = true := by
  rw [linksScoped, Bool.and_eq_true]

/-- The operands of a link are nodes in front of it. -/
theorem Link.isScoped_operands {narrow : List Bool} {l : Link} (h : l.isScoped narrow = true)
    {x : NodeId} (hx : x ∈ l.operands) : ∃ i : Nat, x = i ∧ 0 < i ∧ i ≤ narrow.length := by
  unfold Link.isScoped at h
  rw [Bool.and_eq_true, List.all_eq_true] at h
  obtain ⟨hPos, hLe⟩ : 0 < x ∧ x ≤ narrow.length := by simpa using h.1 x hx
  obtain ⟨i, rfl⟩ := Int.eq_ofNat_of_zero_le (Int.le_of_lt hPos)
  exact ⟨i, rfl, Int.ofNat_lt.mp hPos, Int.ofNat_le.mp hLe⟩

/-- Operands stand before the end of the links. -/
theorem linksScoped_operands {narrow : List Bool} (h : linksScoped narrow result ls = true) :
    (∃ i : Nat, result = i ∧ 0 < i ∧ i ≤ narrow.length + ls.length) ∧
      ∀ l ∈ ls, ∀ x ∈ l.operands, ∃ i : Nat, x = i ∧ 0 < i ∧ i < narrow.length + ls.length := by
  induction ls generalizing narrow with
  | nil =>
    obtain ⟨hPos, hLe⟩ : 0 < result ∧ result ≤ narrow.length := by simpa [linksScoped] using h
    obtain ⟨i, rfl⟩ := Int.eq_ofNat_of_zero_le (Int.le_of_lt hPos)
    exact ⟨⟨i, rfl, Int.ofNat_lt.mp hPos, Int.ofNat_le.mp hLe⟩, nofun⟩
  | cons l ls ih =>
    obtain ⟨hl, hRest⟩ := linksScoped_cons.mp h
    obtain ⟨⟨i, hi, hPos, hLe⟩, hOperands⟩ := ih hRest
    -- one link more behind the tip, one less ahead: the bound is the same
    have hLength : (narrow ++ [l.isNarrow]).length + ls.length =
        narrow.length + (l :: ls).length := by
      simp only [List.length_append, List.length_cons, List.length_nil]
      omega
    rw [hLength] at hLe hOperands
    refine ⟨⟨i, hi, hPos, hLe⟩, ?_⟩
    intro l' hl' x hx
    obtain rfl | hl' := List.mem_cons.mp hl'
    · obtain ⟨i, hi, hPos, hLe⟩ := Link.isScoped_operands hl hx
      refine ⟨i, hi, hPos, ?_⟩
      rw [List.length_cons]
      omega
    · exact hOperands l' hl' x hx

end

end ArmBackend
