import ArmBackend.Proofs.Evaluation.Leading

/-!
# Fragments that begin with their operand

All fragments but that of boxing a double come to the value of their operand before they work on the
heap: it decides the branch, or it is the left operand of what stands in place of the change.

## Results

* `fragment_leads` — the value of such a fragment begins with the value of its operand.
-/

namespace ArmBackend.Lowering

open Build Machine

variable {α β : Type} {l : Layout} {e : Entry} {g g' : Graph} {first : Nat} {x y control : NodeId}
  {n : Node}

/-! ## Steps that add nodes -/

/-- One new node stands behind all others. -/
theorem push_adds (n : Node) :
    Adds g (push n) fun id g' => id = (g.size : Int) ∧ g'.node? id = some n := by
  constructor
  · rw [run_push]
    exact .append g [n]
  · rw [run_push]
    exact ⟨rfl, g.node?_push n⟩

/-- Boxing a double adds nodes. -/
theorem box_adds (value effect control : NodeId) :
    Adds g (box l value effect control) fun _ _ => True := by
  refine (push_adds _).bind fun target _ _ _ => (push_adds _).bind fun size _ _ _ => ?_
  refine (push_adds _).bind fun object _ _ _ => (push_adds _).bind fun offset _ _ _ => ?_
  exact (push_adds _).bind fun store _ _ _ => (push_adds _).bind fun finish _ _ _ => .pure trivial

/-- Reading a boxed double adds nodes. -/
theorem unbox_adds (object control : NodeId) :
    Adds g (unbox l object control) fun _ _ => True :=
  (push_adds _).bind fun _ _ _ _ => (push_adds _).bind fun _ _ _ _ => (push_adds _).any

/-- Where there is no effect for an allocation, one is added. -/
theorem allocationEffect_adds : Adds g (allocationEffect e) fun _ _ => True := by
  unfold allocationEffect
  split
  · exact .pure trivial
  · exact (push_adds _).any

/-- Joining effects adds at most one node. -/
theorem joinEffects_adds (merge : NodeId) (effects : List NodeId) :
    Adds g (joinEffects e merge effects) fun _ _ => True := by
  unfold joinEffects
  split
  · exact .pure trivial
  · split
    · exact .pure trivial
    · exact (push_adds _).any

/-- Taking the payload of a small integer adds nodes. -/
theorem smiUntag_adds (value : NodeId) : Adds g (smiUntag l value) fun _ _ => True := by
  unfold smiUntag
  refine (push_adds _).bind fun _ _ _ _ => ?_
  split
  · exact (push_adds _).any
  · exact (push_adds _).bind fun _ _ _ _ => (push_adds _).any

/-! ## What begins with what -/

/-- The nodes that were added to a graph of a size. -/
def Behind (first : Nat) (id : NodeId) : Prop :=
  (first : Int) ≤ id

/-- Nodes that are added later are not there. -/
theorem behind_new {id : NodeId} (h : Behind g.size id) : g.node? id = none ∧ 0 ≤ id := by
  refine ⟨?_, Int.le_trans (Int.natCast_nonneg _) h⟩
  cases hn : g.node? id with
  | none => rfl
  | some n => exact absurd (Graph.node?_lt hn).2 (Int.not_lt.mpr h)

/-- What a node begins with is settled by nodes that are there, so later ones change nothing. -/
theorem opens_grows {new : NodeId → Prop} (h : Opens g new control x y) (hGrows : Grows g g') :
    Opens g' new control x y := by
  cases h with
  | words hNew hn hOp hx => exact .words hNew (hGrows.node hn) hOp hx
  | convert hNew hn hOp hx => exact .convert hNew (hGrows.node hn) hOp hx
  | overflow hNew hn hOp hInt hx hm hy =>
    exact .overflow hNew (hGrows.node hn) hOp hInt hx (hGrows.node hm) hy
  | join hNew hn hOp hMerge hm hArms hNewArm ha hArm hb hc hx =>
    exact .join hNew (hGrows.node hn) hOp hMerge (hGrows.node hm) hArms hNewArm (hGrows.node ha)
      hArm hb (hGrows.controlIn hc) (hGrows.valueIn hx)

/-- The same goes for what it begins with in several steps. -/
theorem leads_grows {new : NodeId → Prop} (h : Leads g new control x y) (hGrows : Grows g g') :
    Leads g' new control x y :=
  Relation.ReflTransGen.mono (fun _ _ h => opens_grows h hGrows) _ _ h

/-- A node that is added now is one of those added since the graph had a smaller size. -/
theorem behind_size (hFirst : first ≤ g.size) : Behind first g.size :=
  Int.ofNat_le.mpr hFirst

/-- A word operator begins with its first operand. -/
theorem words_leads {op : Operator} {f : BitVec 64 → BitVec 64 → BitVec 64}
    (control : NodeId) (hFirst : first ≤ g.size) (hOp : op.onWords? = some f) (x y : NodeId) :
    Adds g (node op [x, y]) fun id g' => Leads g' (Behind first) control id x := by
  refine (push_adds _).mono ?_
  rintro id g' - ⟨rfl, hn⟩
  exact .single (.words (behind_size hFirst) hn hOp rfl)

/-- A conversion begins with its operand. -/
theorem convert_leads {f : Conversion} (control : NodeId) (hFirst : first ≤ g.size) (x : NodeId) :
    Adds g (node (.convert f) [x]) fun id g' => Leads g' (Behind first) control id x := by
  refine (push_adds _).mono ?_
  rintro id g' - ⟨rfl, hn⟩
  exact .single (.convert (behind_size hFirst) hn rfl rfl)

/-- A diamond on a condition, behind a control. -/
structure Forked (g : Graph) (first : Nat) (condition control : NodeId) (d : Diamond) : Prop where
  merge : g.node? d.merge = some (.merge [d.ifTrue, d.ifFalse])
  new : Behind first d.ifTrue
  branch : ∃ branch, g.node? d.ifTrue = some (.ofArity .ifTrue [branch]) ∧
    g.node? branch = some (.ofArity .branch [condition, control])

/-- A diamond stays where it is when nodes are added. -/
theorem Forked.grows {d : Diamond} (h : Forked g first x control d) (hGrows : Grows g g') :
    Forked g' first x control d := by
  obtain ⟨hMerge, hNew, branch, hArm, hBranch⟩ := h
  exact ⟨hGrows.node hMerge, hNew, branch, hGrows.node hArm, hGrows.node hBranch⟩

/-- The four nodes of a diamond on its condition. -/
theorem diamond_forked (hFirst : first ≤ g.size) :
    Adds g (diamond x control) fun d g' => Forked g' first x control d := by
  refine (push_adds _).bind ?_
  rintro branch g₁ h₁ ⟨rfl, hBranch⟩
  refine (push_adds _).bind ?_
  rintro ifTrue g₂ h₂ ⟨rfl, hTrue⟩
  refine (push_adds _).bind ?_
  rintro ifFalse g₃ h₃ ⟨rfl, hFalse⟩
  refine (push_adds _).bind ?_
  rintro merge g₄ h₄ ⟨rfl, hMerge⟩
  -- the nodes added later leave those of the diamond where they are
  refine .pure ⟨hMerge, behind_size (hFirst.trans h₁.size_le), g.size, ?_, ?_⟩
  · exact h₄.node (h₃.node hTrue)
  · exact h₄.node (h₃.node (h₂.node hBranch))

/-- A join behind a diamond begins with the condition. -/
theorem Forked.phi_leads {d : Diamond} {condition : NodeId} (h : Forked g first condition control d)
    (hFirst : first ≤ g.size) (hCondition : Leads g (Behind first) control condition y)
    (rep : Rep) (a b : NodeId) :
    Adds g (push (.phi rep [a, b, d.merge])) fun id g' => Leads g' (Behind first) control id y := by
  refine (push_adds _).mono ?_
  rintro phi g' hGrows ⟨rfl, hn⟩
  obtain ⟨hMerge, hNew, branch, hArm, hBranch⟩ := h.grows hGrows
  have hControl : g'.controlIn branch = .ok control := by
    unfold Graph.controlIn
    rw [Graph.node_eq_ok.mpr hBranch]
    rfl
  have hValue : g'.valueIn branch 0 = .ok condition := by
    unfold Graph.valueIn
    rw [Graph.node_eq_ok.mpr hBranch]
    rfl
  -- a phi asks whether the true arm is reached, and that asks for the condition
  have hJoin : Opens g' (Behind first) control g.size condition :=
    .join (behind_size hFirst) hn rfl rfl hMerge rfl hNew hArm rfl rfl hControl hValue
  exact .head hJoin (leads_grows hCondition hGrows)

/-- The tag bit begins with the value. -/
theorem tagBit_leads (control : NodeId) (hFirst : first ≤ g.size) (x : NodeId) :
    Adds g (tagBit l x) fun id g' => Leads g' (Behind first) control id x := by
  refine (push_adds _).bind ?_
  rintro mask g₁ h₁ -
  have hFirst₁ := hFirst.trans h₁.size_le
  unfold wordOp
  split
  · exact words_leads control hFirst₁ rfl x mask
  · exact words_leads control hFirst₁ rfl x mask

/-- A tagged integer begins with the integer. -/
theorem smiTag_leads (control : NodeId) (hFirst : first ≤ g.size) (x : NodeId)
    (unsigned : Bool) :
    Adds g (smiTag l x unsigned) fun id g' => Leads g' (Behind first) control id x := by
  refine (push_adds _).bind ?_
  rintro shift g₁ h₁ -
  have hFirst₁ := hFirst.trans h₁.size_le
  -- words of 64 bits are widened before they are shifted
  split
  · exact words_leads control hFirst₁ rfl x shift
  · refine (convert_leads control hFirst₁ x).bind ?_
    rintro wide g₂ h₂ hWide
    refine (words_leads control (hFirst₁.trans h₂.size_le) rfl wide shift).mono ?_
    rintro id g₃ h₃ hShift
    exact hShift.trans (leads_grows hWide h₃)

/-! ## Fragments that branch -/

/-- Whatever its arms do, a fragment that branches begins with what its condition begins with. -/
theorem branching_leads {τ : Type} {test : Build τ} {condition : τ → NodeId} {rep : Rep}
    {arms : τ → Diamond → Build ArmValues} {effect : Diamond → ArmValues → Build NodeId}
    (hFirst : first ≤ g.size)
    (hTest : Adds g test fun t g' => Leads g' (Behind first) control (condition t) x)
    (hArms : ∀ t d g', Adds g' (arms t d) fun _ _ => True)
    (hEffect : ∀ d a g', Adds g' (effect d a) fun _ _ => True) :
    Adds g (branching test condition control rep arms effect) fun r g' =>
      Leads g' (Behind first) control r.value x := by
  refine hTest.bind ?_
  rintro t g₁ h₁ hLeads
  have hFirst₁ := hFirst.trans h₁.size_le
  refine (diamond_forked hFirst₁).bind ?_
  rintro d g₂ h₂ hFork
  refine (hArms t d g₂).bind ?_
  rintro a g₃ h₃ -
  have hFrom₁ := h₂.trans h₃
  -- The arms only add nodes, so the diamond and the way to the operand are still there.
  refine ((hFork.grows h₃).phi_leads (hFirst₁.trans hFrom₁.size_le) (leads_grows hLeads hFrom₁)
    _ _ _).bind ?_
  rintro phi g₄ - hPhi
  refine (hEffect d a g₄).bind ?_
  rintro joined g₅ h₅ -
  exact .pure (leads_grows hPhi h₅)

/-! ## One fragment per change -/

/-- The bit is the condition itself. -/
theorem bitToBool_leads (hFirst : first ≤ g.size) :
    Adds g (bitToBool e) fun r g' => Leads g' (Behind first) e.control r.value e.value := by
  rw [bitToBool_eq]
  refine branching_leads hFirst (.pure .refl) (fun _ _ _ => ?_) fun _ _ _ => .pure trivial
  exact (push_adds _).bind fun _ _ _ _ => (push_adds _).bind fun _ _ _ _ => .pure trivial

/-- The object is the left operand of the comparison. -/
theorem boolToBit_leads (hFirst : first ≤ g.size) :
    Adds g (boolToBit l e) fun r g' => Leads g' (Behind first) e.control r.value e.value := by
  refine (push_adds _).bind ?_
  rintro yes g₁ h₁ -
  have hFirst₁ := hFirst.trans h₁.size_le
  unfold wordOp
  split
  · exact (words_leads e.control hFirst₁ rfl e.value yes).bind fun _ _ _ h => .pure h
  · exact (words_leads e.control hFirst₁ rfl e.value yes).bind fun _ _ _ h => .pure h

/-- A word that fits is only shifted. -/
theorem smallInt32ToTagged_leads (hFirst : first ≤ g.size) :
    Adds g (smallInt32ToTagged l e) fun r g' =>
      Leads g' (Behind first) e.control r.value e.value :=
  (smiTag_leads e.control hFirst e.value false).bind fun _ _ _ h => .pure h

/-- The overflow of a sum begins with its left operand. -/
theorem doubled_leads (hFirst : first ≤ g.size) (control : NodeId) :
    Adds g (doubled e) fun t g' => Leads g' (Behind first) control t.2 e.value := by
  refine (push_adds _).bind ?_
  rintro sum g₁ h₁ ⟨rfl, hSum⟩
  refine (push_adds _).bind ?_
  rintro overflow g₂ h₂ ⟨rfl, hOverflow⟩
  exact .pure (.single (.overflow (behind_size (hFirst.trans h₁.size_le)) hOverflow rfl
    (show (1 : Int) ≠ 0 by decide) rfl (h₂.node hSum) rfl))

/-- The condition is the overflow of doubling the word. -/
theorem int32ToTagged_leads (hFirst : first ≤ g.size) :
    Adds g (int32ToTagged l e) fun r g' => Leads g' (Behind first) e.control r.value e.value := by
  rw [int32ToTagged_eq]
  refine branching_leads hFirst (doubled_leads hFirst _) (fun _ _ _ => ?_)
    fun _ _ _ => joinEffects_adds _ _
  exact (push_adds _).bind fun _ _ _ _ => allocationEffect_adds.bind fun _ _ _ _ =>
    (box_adds _ _ _).bind fun _ _ _ _ => (push_adds _).bind fun _ _ _ _ => .pure trivial

/-- The condition compares the word with the greatest small integer. -/
theorem uint32ToTagged_leads (hFirst : first ≤ g.size) :
    Adds g (uint32ToTagged l e) fun r g' => Leads g' (Behind first) e.control r.value e.value := by
  rw [uint32ToTagged_eq]
  refine branching_leads hFirst ?_ (fun _ _ g' => ?_) fun _ _ _ => joinEffects_adds _ _
  · exact (push_adds _).bind fun greatest _ h _ =>
      words_leads e.control (hFirst.trans h.size_le) rfl e.value greatest
  · exact (smiTag_leads e.control (Nat.zero_le g'.size) e.value true).any.bind fun _ _ _ _ =>
      (push_adds _).bind fun _ _ _ _ => allocationEffect_adds.bind fun _ _ _ _ =>
        (box_adds _ _ _).bind fun _ _ _ _ => .pure trivial

/-- The condition is the tag bit of the value. -/
theorem untagging_leads (hFirst : first ≤ g.size) {rep : Rep} {arms : Diamond → Build ArmValues}
    (hArms : ∀ d g', Adds g' (arms d) fun _ _ => True) :
    Adds g (branching (tagBit l e.value) (fun tag => tag) e.control rep (fun _ => arms)
      fun _ _ => pure e.effect) fun r g' => Leads g' (Behind first) e.control r.value e.value :=
  branching_leads hFirst (tagBit_leads e.control hFirst e.value) (fun _ => hArms)
    fun _ _ _ => .pure trivial

/-- The tag bit decides if the double is read from a box. -/
theorem taggedToFloat64_leads (hFirst : first ≤ g.size) :
    Adds g (taggedToFloat64 l e) fun r g' => Leads g' (Behind first) e.control r.value e.value := by
  rw [taggedToFloat64_eq]
  refine untagging_leads hFirst fun _ _ => ?_
  exact (unbox_adds _ _).bind fun _ _ _ _ => (smiUntag_adds _).bind fun _ _ _ _ =>
    (push_adds _).bind fun _ _ _ _ => .pure trivial

/-- The tag bit decides if a boxed double is truncated. -/
theorem taggedToInt32_leads (hFirst : first ≤ g.size) :
    Adds g (taggedToInt32 l e) fun r g' => Leads g' (Behind first) e.control r.value e.value := by
  rw [taggedToInt32_eq]
  refine untagging_leads hFirst fun _ _ => ?_
  exact (unbox_adds _ _).bind fun _ _ _ _ => (push_adds _).bind fun _ _ _ _ =>
    (smiUntag_adds _).bind fun _ _ _ _ => .pure trivial

/-- Boxing starts with an allocation, and not with the double. -/
theorem float64ToTagged_adds : Adds g (float64ToTagged l e) fun _ _ => True :=
  allocationEffect_adds.bind fun _ _ _ _ => (box_adds _ _ _).bind fun _ _ _ _ => .pure trivial

/-- The value of a fragment begins with the value of its operand, unless a double is boxed. -/
theorem fragment_leads (f : Change) (small : Bool) :
    Adds g (fragment l f small e) fun r g' => f ≠ .float64ToTagged →
      Leads g' (Behind g.size) e.control r.value e.value := by
  -- all fragments but one lead to the value that they are given
  have hLeads : ∀ {m : Build Graph.Replacement},
      Adds g m (fun r g' => Leads g' (Behind g.size) e.control r.value e.value) →
      Adds g m fun r g' => f ≠ .float64ToTagged →
        Leads g' (Behind g.size) e.control r.value e.value :=
    fun h => h.mono fun _ _ _ hLeads _ => hLeads
  cases f with
  | bitToBool => exact hLeads (bitToBool_leads (Nat.le_refl _))
  | boolToBit => exact hLeads (boolToBit_leads (Nat.le_refl _))
  | float64ToTagged => exact float64ToTagged_adds.mono fun _ _ _ _ hNot => absurd rfl hNot
  | int32ToTagged =>
    show Adds g (if l.word = 64 || small then _ else _) _
    split
    · exact hLeads (smallInt32ToTagged_leads (Nat.le_refl _))
    · exact hLeads (int32ToTagged_leads (Nat.le_refl _))
  | uint32ToTagged => exact hLeads (uint32ToTagged_leads (Nat.le_refl _))
  | taggedToFloat64 => exact hLeads (taggedToFloat64_leads (Nat.le_refl _))
  | taggedToInt32 | taggedToUint32 => exact hLeads (taggedToInt32_leads (Nat.le_refl _))

end ArmBackend.Lowering
