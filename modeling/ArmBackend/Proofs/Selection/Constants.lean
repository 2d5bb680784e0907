import ArmBackend.Proofs.Selection.Registers
import ArmBackend.Proofs.Selection.Rules.Alike
import ArmBackend.Proofs.Selection.Ssa
import ArmBackend.Schedule.Compute

/-!
# Constants in registers

A node that is a constant has no code. When its value is asked for, selection looks for an entry with
that value in the table of constants, or makes a new register stand for it. The table is searched
with the equality of doubles, for which the two zeros are equal and what is not a number equals
nothing. So a register stands for exactly the constant it was handed out for, but that zeros of
either sign share the register of the one that came first.

## Results

* `Double.eq_or_zeros` — doubles that are equal have the same bits, or are zeros of different sign.
* `Pooled.vreg` — a request for a register keeps the table in line with what was handed out.
* `select_materializes` — what the registers of constants stand for.
* `select_merges_zeros` — a graph with both zeros, where one of them is lost.
-/

namespace ArmBackend

/-! ## Equality of doubles -/

namespace Double

variable {x y : Double} {e e' f f' : Nat}

/-- A double is its sign, its exponent and its fraction. -/
theorem toNat_bits (x : Double) : x.bits.toNat =
    (if x.isNegative then 0x8000000000000000 else 0) + x.exponentField * hiddenBit + x.fraction := by
  have hLt := x.bits.isLt
  unfold isNegative exponentField fraction hiddenBit
  rw [BitVec.msb_eq_decide]
  split
  · next hSign =>
    have hHigh := of_decide_eq_true hSign
    omega
  · next hSign =>
    have hLow := of_decide_eq_false (Bool.not_eq_true _ ▸ hSign)
    omega

theorem fraction_lt (x : Double) : x.fraction < hiddenBit :=
  Nat.mod_lt _ (by decide)

/-- A significand without its leading bit is below every one with it. -/
theorem magnitudeOf_lt_of_lt (hLt : e < e') (hf : f < hiddenBit) :
    magnitudeOf e f < magnitudeOf e' f' := by
  unfold magnitudeOf
  rw [if_neg (by omega : ¬e' = 0), Nat.shiftLeft_eq (hiddenBit + f')]
  have hPositive : 0 < 2 ^ (e' - 1) := Nat.two_pow_pos _
  split
  · calc f < hiddenBit := hf
      _ ≤ hiddenBit + f' := Nat.le_add_right _ _
      _ ≤ (hiddenBit + f') * 2 ^ (e' - 1) := Nat.le_mul_of_pos_right _ hPositive
  · next he =>
    -- With the leading bit a significand is at least half of any other, and `e'` is worth one more
    -- doubling.
    rw [Nat.shiftLeft_eq]
    have hPower : 2 ^ (e' - 1) = 2 ^ (e' - 1 - e) * 2 * 2 ^ (e - 1) := by
      rw [← Nat.pow_succ, ← Nat.pow_add]
      congr 1
      omega
    have hOne : 1 ≤ 2 ^ (e' - 1 - e) := Nat.one_le_two_pow
    calc (hiddenBit + f) * 2 ^ (e - 1) < (2 * hiddenBit) * 2 ^ (e - 1) :=
          Nat.mul_lt_mul_of_pos_right (by omega) (Nat.two_pow_pos _)
      _ ≤ ((hiddenBit + f') * (2 ^ (e' - 1 - e) * 2)) * 2 ^ (e - 1) := by
          refine Nat.mul_le_mul_right _ ?_
          calc 2 * hiddenBit = hiddenBit * (1 * 2) := by omega
            _ ≤ (hiddenBit + f') * (2 ^ (e' - 1 - e) * 2) :=
              Nat.mul_le_mul (Nat.le_add_right _ _) (Nat.mul_le_mul_right _ hOne)
      _ = (hiddenBit + f') * 2 ^ (e' - 1) := by rw [hPower, Nat.mul_assoc]

/-- Exponent and fraction can be read off an absolute value. -/
theorem magnitudeOf_inj (hf : f < hiddenBit) (hf' : f' < hiddenBit)
    (h : magnitudeOf e f = magnitudeOf e' f') : e = e' ∧ f = f' := by
  rcases Nat.lt_trichotomy e e' with hLt | rfl | hLt
  · exact absurd h (Nat.ne_of_lt (magnitudeOf_lt_of_lt hLt hf))
  · refine ⟨rfl, ?_⟩
    unfold magnitudeOf at h
    split at h
    · exact h
    · rw [Nat.shiftLeft_eq, Nat.shiftLeft_eq] at h
      have hSum := Nat.eq_of_mul_eq_mul_right (Nat.two_pow_pos _) h
      omega
  · exact absurd h.symm (Nat.ne_of_lt (magnitudeOf_lt_of_lt hLt hf'))

/-- A zero is all zeros but for its sign. -/
theorem eq_zero_of_magnitude (h : x.magnitude = 0) : x = zero x.isNegative := by
  have hLeast : magnitudeOf x.exponentField x.fraction = magnitudeOf 0 0 := h
  obtain ⟨hExponent, hFraction⟩ := magnitudeOf_inj x.fraction_lt (by decide) hLeast
  have hBits := x.toNat_bits
  rw [hExponent, hFraction] at hBits
  have hSame : x.bits = (zero x.isNegative).bits := by
    refine BitVec.eq_of_toNat_eq ?_
    rw [hBits]
    cases x.isNegative <;> rfl
  cases x
  exact congrArg Double.mk hSame

/-- Doubles that are equal have the same bits, or are zeros of different sign. -/
theorem eq_or_zeros (h : x.eq y = true) :
    x = y ∨ ∃ negative, x = zero negative ∧ y = zero !negative := by
  have hUnits : x.units = y.units := by
    unfold Double.eq at h
    rw [Bool.and_eq_true] at h
    exact beq_iff_eq.mp h.2
  by_cases hSign : x.isNegative = y.isNegative
  · have hMagnitude : x.magnitude = y.magnitude := by
      unfold units at hUnits
      rw [hSign] at hUnits
      split at hUnits <;> omega
    obtain ⟨hExponent, hFraction⟩ := magnitudeOf_inj x.fraction_lt y.fraction_lt hMagnitude
    have hBits : x.bits = y.bits := by
      refine BitVec.eq_of_toNat_eq ?_
      rw [x.toNat_bits, y.toNat_bits, hSign, hExponent, hFraction]
    cases x
    cases y
    exact .inl (congrArg Double.mk hBits)
  · -- Opposite values that are equal are zero.
    have hNot : y.isNegative = !x.isNegative := by
      cases hx : x.isNegative <;> cases hy : y.isNegative <;> simp_all
    have hZero : x.magnitude = 0 ∧ y.magnitude = 0 := by
      unfold units at hUnits
      rw [hNot] at hUnits
      cases hx : x.isNegative <;> rw [hx] at hUnits <;> simp at hUnits <;> omega
    refine .inr ⟨x.isNegative, eq_zero_of_magnitude hZero.1, ?_⟩
    rw [← hNot]
    exact eq_zero_of_magnitude hZero.2

end Double

/-! ## Constants of a graph -/

/-- Zeros of different sign. -/
def Constant.OppositeZeros (a b : Constant) : Prop :=
  ∃ negative, a = { tag := .of .float64, float := .zero negative } ∧
    b = { tag := .of .float64, float := .zero !negative }

instance (a b : Constant) : Decidable (a.OppositeZeros b) :=
  inferInstanceAs (Decidable (∃ _ : Bool, _))

namespace Constant.OppositeZeros

variable {a b c : Constant}

theorem symm (h : a.OppositeZeros b) : b.OppositeZeros a := by
  obtain ⟨negative, ha, hb⟩ := h
  exact ⟨!negative, hb, by rw [ha, Bool.not_not]⟩

/-- There are only two zeros. -/
theorem unique (h : a.OppositeZeros b) (h' : a.OppositeZeros c) : b = c := by
  obtain ⟨negative, ha, hb⟩ := h
  obtain ⟨negative', ha', hc⟩ := h'
  have hZeros : Double.zero negative = Double.zero negative' :=
    congrArg Constant.float (ha.symm.trans ha')
  have hSign : negative = negative' := by
    cases negative <;> cases negative' <;> first | rfl | cases hZeros
  rw [hb, hc, hSign]

end Constant.OppositeZeros

/-- The constant that a node of a graph stands for. -/
def Graph.constant? (g : Graph) (id : NodeId) : Option Constant :=
  (g.node? id).bind Selection.constantOf?

/-- A graph has zeros of one sign only. -/
def Graph.OneZero (g : Graph) : Prop :=
  ∀ x y c d, g.constant? x = some c → g.constant? y = some d → ¬c.OppositeZeros d

theorem Graph.oneZero_of_nodes {g : Graph} (h : ∀ n ∈ g.nodes.toList, ∀ m ∈ g.nodes.toList,
    ∀ c ∈ Selection.constantOf? n, ∀ d ∈ Selection.constantOf? m, ¬c.OppositeZeros d) :
    g.OneZero := by
  intro x y c d hx hy
  obtain ⟨n, hn, hc⟩ := Option.bind_eq_some_iff.mp hx
  obtain ⟨m, hm, hd⟩ := Option.bind_eq_some_iff.mp hy
  obtain ⟨i, -, hi⟩ := node?_eq_some.mp hn
  obtain ⟨j, -, hj⟩ := node?_eq_some.mp hm
  exact h n (Array.mem_toList_iff.mpr (Array.mem_of_getElem? hi))
    m (Array.mem_toList_iff.mpr (Array.mem_of_getElem? hj)) c hc d hd

namespace Selection

variable {g : Graph} {c d : Constant}

/-- The constant of a node has the fields of its kind only. -/
theorem constantOf?_form {n : Node} (h : constantOf? n = some c) :
    (c.tag = .of .float64 ∧ c = { tag := .of .float64, float := c.float }) ∨
      (c.tag ≠ .of .float64 ∧ c.float = .zero false) := by
  unfold constantOf? at h
  split at h <;> cases h
  · exact .inr ⟨nofun, rfl⟩
  · exact .inr ⟨nofun, rfl⟩
  · exact .inl ⟨rfl, rfl⟩
  · exact .inr ⟨nofun, rfl⟩
  · exact .inr ⟨nofun, rfl⟩

/-- Constants of nodes that are the same entry of a table are the same, but for the sign of a
zero. -/
theorem eq_or_oppositeZeros {n m : Node} (hc : constantOf? n = some c) (hd : constantOf? m = some d)
    (h : c.sameEntry d = true) : c = d ∨ c.OppositeZeros d := by
  unfold Constant.sameEntry at h
  simp only [Bool.and_eq_true, beq_iff_eq] at h
  obtain ⟨⟨⟨hTag, hInt⟩, hFloat⟩, hName⟩ := h
  rcases Double.eq_or_zeros hFloat with hSame | ⟨negative, hx, hy⟩
  · left
    cases c
    cases d
    simp_all
  · right
    rcases constantOf?_form hc with ⟨hDouble, hForm⟩ | ⟨hOther, hPlain⟩
    · rcases constantOf?_form hd with ⟨-, hForm'⟩ | ⟨hOther', -⟩
      · refine ⟨negative, ?_, ?_⟩
        · rw [hForm, hx]
        · rw [hForm', hy]
      · exact absurd (hTag ▸ hDouble) hOther'
    · -- What is no double has the same field in both, so the signs cannot differ.
      rcases constantOf?_form hd with ⟨hDouble', -⟩ | ⟨-, hPlain'⟩
      · exact absurd (hTag ▸ hDouble') hOther
      · rw [hPlain] at hx
        rw [hPlain'] at hy
        cases negative with
        | false => cases hy
        | true => cases hx

/-! ## The table of constants -/

/-- The table of constants is in line with what was handed out over a graph: each register that was
handed out has an entry for its constant, each entry was handed out for just that constant, and no
register has two entries. -/
structure Pooled (g : Graph) (s : State) : Prop where
  entry : ∀ {x v}, (x, v) ∈ s.handedOut → ∃ c entry, g.constant? x = some c ∧
    ((v : Int), entry) ∈ s.stream.constants ∧ (entry = c ∨ entry.sameEntry c = true)
  handed : ∀ {r c}, (r, c) ∈ s.stream.constants → ∃ x, ∃ v : Nat, r = v ∧ (x, v) ∈ s.handedOut ∧
    g.constant? x = some c
  below : ∀ {r c}, (r, c) ∈ s.stream.constants → r < s.stream.nextVreg
  keys : (s.stream.constants.map Prod.fst).Nodup

namespace Pooled

variable {s t : State} {site : Site} {x : NodeId} {v : Nat} {r : Int}

theorem stable (h : Pooled g s) (hConstants : t.stream.constants = s.stream.constants)
    (hRecord : t.handedOut = s.handedOut) (hNext : s.stream.nextVreg ≤ t.stream.nextVreg) :
    Pooled g t where
  entry := by
    rw [hConstants, hRecord]
    exact h.entry
  handed := by
    rw [hConstants, hRecord]
    exact h.handed
  below := by
    intro r c hMem
    rw [hConstants] at hMem
    have hLt := h.below hMem
    omega
  keys := by
    rw [hConstants]
    exact h.keys

/-- The entry of a register is the one that is found, also after the code is laid out. -/
theorem constant?_eq (h : Pooled g s) {stream : Stream}
    (hConstants : stream.constants = s.stream.constants) (hMem : (r, c) ∈ s.stream.constants) :
    stream.constant? r = some c := by
  unfold Stream.constant?
  rw [hConstants]
  have hKeys := h.keys
  -- induction on the table: a register stands in it once, so the entry found is this one
  generalize s.stream.constants = table at hMem hKeys
  induction table with
  | nil => cases hMem
  | cons p rest ih =>
    rw [List.map_cons, List.nodup_cons] at hKeys
    rcases List.mem_cons.mp hMem with rfl | hRest
    · exact List.lookup_cons_self
    · have hNe : (r == p.1) = false := by
        rw [beq_eq_false_iff_ne]
        rintro rfl
        exact hKeys.1 (List.mem_map.mpr ⟨_, hRest, rfl⟩)
      rw [List.lookup_cons, hNe]
      exact ih hRest hKeys.2

/-- A new register goes to the end of the table. -/
theorem setConstant_constants (h : Pooled g s) (hNew : s.stream.nextVreg ≤ v)
    (stream : Stream) (hSame : stream.constants = s.stream.constants) :
    (stream.setConstant v c).constants = s.stream.constants ++ [((v : Int), c)] := by
  have hNone : stream.constant? v = none := by
    unfold Stream.constant?
    rw [hSame, List.lookup_eq_none_iff]
    intro p hp
    have hLt := h.below (r := p.1) (c := p.2) hp
    rw [bne_iff_ne]
    omega
  unfold Stream.setConstant
  rw [hNone, hSame]
  rfl

/-- A register that is found is handed out once more. -/
theorem found (h : Pooled g s) (hx : g.constant? x = some c) {entry : Constant}
    (hMem : ((v : Int), entry) ∈ s.stream.constants) (hSame : entry.sameEntry c = true) :
    Pooled g { s with handedOut := (x, v) :: s.handedOut } where
  entry := by
    intro y w hw
    rcases List.mem_cons.mp hw with hHead | hTail
    · cases hHead
      exact ⟨c, entry, hx, hMem, .inr hSame⟩
    · exact h.entry hTail
  handed := by
    intro r d hd
    obtain ⟨y, w, hr, hw, hy⟩ := h.handed hd
    exact ⟨y, w, hr, List.mem_cons_of_mem _ hw, hy⟩
  below := h.below
  keys := h.keys

/-- A register that is made stands for just the constant it is made for. -/
theorem made (h : Pooled g s) (hx : g.constant? x = some c) (hNew : s.stream.nextVreg ≤ v)
    (hConstants : t.stream.constants = s.stream.constants ++ [((v : Int), c)])
    (hRecord : t.handedOut = (x, v) :: s.handedOut) (hNext : v < t.stream.nextVreg) :
    Pooled g t where
  -- The new record is the last entry of the table, the old ones keep theirs.
  entry := by
    intro y w hw
    rw [hRecord] at hw
    rw [hConstants]
    rcases List.mem_cons.mp hw with hHead | hTail
    · cases hHead
      exact ⟨c, c, hx, List.mem_append_right _ (List.mem_singleton_self _), .inl rfl⟩
    · obtain ⟨d, entry, hd, hMem, hSame⟩ := h.entry hTail
      exact ⟨d, entry, hd, List.mem_append_left _ hMem, hSame⟩
  handed := by
    intro r d hd
    rw [hConstants] at hd
    rw [hRecord]
    rcases List.mem_append.mp hd with hOld | hLast
    · obtain ⟨y, w, hr, hw, hy⟩ := h.handed hOld
      exact ⟨y, w, hr, List.mem_cons_of_mem _ hw, hy⟩
    · cases List.mem_singleton.mp hLast
      exact ⟨x, v, rfl, List.mem_cons_self, hx⟩
  below := by
    intro r d hd
    rw [hConstants] at hd
    rcases List.mem_append.mp hd with hOld | hLast
    · have hLt := h.below hOld
      omega
    · cases List.mem_singleton.mp hLast
      omega
  keys := by
    rw [hConstants, List.map_append, List.nodup_append]
    refine ⟨h.keys, List.nodup_singleton _, ?_⟩
    intro r hr r' hr' hSame
    obtain ⟨p, hp, rfl⟩ := List.mem_map.mp hr
    cases List.mem_singleton.mp hr'
    have hLt := h.below (r := p.1) (c := p.2) hp
    have hKey : p.1 = (v : Int) := hSame
    omega

/-- What is handed out for a constant is in line with the table. -/
theorem constantVreg (h : Pooled g s) (hx : g.constant? x = some c) :
    Ensures site s (do
      let v ← constantVreg x c
      modify fun s => { s with handedOut := (x, v) :: s.handedOut }
      return v) fun _ t => Pooled g t := by
  unfold Selection.constantVreg
  simp only [ensures_bind, ensures_get, ensures_modify, ensures_pure]
  split
  · -- An entry is found, with the equality of doubles.
    next r entry hFind =>
    refine (ensures_pure _ _).mpr ?_
    have hMem := List.mem_of_find?_eq_some hFind
    have hSame : entry.sameEntry c = true := by
      simpa using List.find?_some (p := fun q : Int × Constant => q.2.sameEntry c) hFind
    obtain ⟨y, v, rfl, -⟩ := h.handed hMem
    exact h.found hx hMem hSame
  · simp only [ensures_bind, newVreg, ensures_modifyGet, ensures_modify, ensures_pure, markRep,
      ensures_read, ensures_lift]
    intro rep _
    -- What the register is marked as makes no difference to the table.
    have hSet := h.setConstant_constants (c := c) (Nat.le_refl _)
      (s.stream.newVreg).1 rfl
    have hNext : ((s.stream.newVreg).1.setConstant s.stream.nextVreg c).nextVreg =
        s.stream.nextVreg + 1 := by
      unfold Stream.setConstant
      split <;> rfl
    have hLt : s.stream.nextVreg <
        ((s.stream.newVreg).1.setConstant s.stream.nextVreg c).nextVreg := by omega
    split
    · exact (ensures_modify _ _).mpr (h.made hx (Nat.le_refl _) hSet rfl hLt)
    · exact (ensures_modify _ _).mpr (h.made hx (Nat.le_refl _) hSet rfl hLt)
    · exact (ensures_pure _ _).mpr (h.made hx (Nat.le_refl _) hSet rfl hLt)

/-- A register of its own is no matter of the table. -/
theorem ownVreg (h : Pooled g s) : Ensures site s (ownVreg x) fun _ t => Pooled g t := by
  unfold Selection.ownVreg
  simp only [ensures_bind, ensures_get]
  split
  · exact (ensures_pure _ _).mpr h
  · simp only [ensures_bind, newVreg, ensures_modifyGet, ensures_modify, ensures_pure]
    exact h.stable rfl rfl (Nat.le_succ _)

/-- A request for a register keeps the table in line with what was handed out. -/
theorem vreg (h : Pooled site.graph s) :
    Ensures site s (vreg x) fun _ t => Pooled site.graph t := by
  unfold Selection.vreg
  simp only [ensures_bind, ensures_read, ensures_lift]
  intro y _ n hn
  split
  · next c hc =>
    have hConstant : site.graph.constant? y = some c := by
      unfold Graph.constant?
      rw [Graph.node_eq_ok.mp hn]
      exact hc
    exact h.constantVreg hConstant
  · exact h.ownVreg

/-- What is found for a register is the constant of a node, and that of each node the register was
handed out for, but for the sign of a zero. -/
theorem constant?_of_handedOut (h : Pooled g s) {stream : Stream}
    (hConstants : stream.constants = s.stream.constants) (hMem : (x, v) ∈ s.handedOut) :
    ∃ c entry y, g.constant? x = some c ∧ g.constant? y = some entry ∧
      stream.constant? v = some entry ∧ (entry = c ∨ entry.OppositeZeros c) := by
  obtain ⟨c, entry, hc, hEntry, hSame⟩ := h.entry hMem
  obtain ⟨y, -, -, -, hy⟩ := h.handed hEntry
  refine ⟨c, entry, y, hc, hy, h.constant?_eq hConstants hEntry, ?_⟩
  rcases hSame with rfl | hSame
  · exact .inl rfl
  · obtain ⟨n, -, hn⟩ := Option.bind_eq_some_iff.mp hy
    obtain ⟨m, -, hm⟩ := Option.bind_eq_some_iff.mp hc
    exact eq_or_oppositeZeros hn hm hSame

end Pooled

/-! ## A whole run -/

/-- Over one graph every question has one answer. -/
theorem twin_self (site : Site) : Twin (fun _ => True) (Pooled site.graph) site site.graph where
  size := Nat.le_refl _
  node? := fun _ => rfl
  input := fun _ _ _ => trivial
  here := fun _ => trivial
  head := fun _ => trivial
  listed := fun _ _ => trivial
  control := fun _ _ => trivial
  ended := fun _ _ => trivial
  uses := fun _ => rfl
  projection := fun _ _ => .inl ⟨rfl, fun _ _ _ => trivial⟩
  targets := fun _ _ => rfl
  parameters := rfl
  parameter := fun _ => trivial
  stable := fun h hConstants hRecord hNext => h.stable hConstants hRecord hNext
  vreg := by
    intro place id s v t hPlace _ hs hRun
    rw [← hPlace] at hs ⊢
    exact hs.vreg v t hRun

theorem Pooled.start (g : Graph) : Pooled g {} where
  entry := by
    intro x v hMem
    cases hMem
  handed := by
    intro r c hMem
    cases hMem
  below := by
    intro r c hMem
    cases hMem
  keys := List.nodup_nil

/-- The registers that a run hands out for constants, with the nodes they are handed out for. -/
def handedOut (g : Graph) (schedule : Schedule) (features : Features) :
    Except Fault (List (NodeId × Nat)) := do
  let (_, s) ← (coverAll.run { graph := g, schedule, features }).run {}
  return s.handedOut

/-- The registers given for constants stand for them in a stream, and are shared by constants that
are the same. -/
structure Materializes (g : Graph) (given : List (NodeId × Nat)) (stream : Stream)
    (Same : Constant → Constant → Prop) : Prop where
  entry : ∀ x v, (x, v) ∈ given → ∃ c entry, g.constant? x = some c ∧
    stream.constant? v = some entry ∧ Same entry c
  shared : ∀ x y v c d, (x, v) ∈ given → (y, v) ∈ given → g.constant? x = some c →
    g.constant? y = some d → Same c d

/-- The table of a run in which every request was kept in line. -/
theorem Pooled.materializes {s : State} {stream : Stream} (h : Pooled g s)
    (hConstants : stream.constants = s.stream.constants) :
    Materializes g s.handedOut stream fun a b => a = b ∨ a.OppositeZeros b := by
  constructor
  · intro x v hMem
    obtain ⟨c, entry, -, hc, -, hEntry, hSame⟩ := h.constant?_of_handedOut hConstants hMem
    exact ⟨c, entry, hc, hEntry, hSame⟩
  · intro x y v c d hx hy hc hd
    obtain ⟨c', entry, -, hc', -, hEntry, hSame⟩ := h.constant?_of_handedOut hConstants hx
    obtain ⟨d', entry', -, hd', -, hEntry', hSame'⟩ := h.constant?_of_handedOut hConstants hy
    cases hc.symm.trans hc'
    cases hd.symm.trans hd'
    cases hEntry.symm.trans hEntry'
    -- Both are the entry or its opposite; two opposites of one entry are the same.
    rcases hSame with rfl | hZeros <;> rcases hSame' with rfl | hZeros'
    · exact .inl rfl
    · exact .inr hZeros'
    · exact .inr hZeros.symm
    · exact .inl (hZeros.unique hZeros')

/-- In a graph without zeros of different sign the constants are the same as they stand. -/
theorem Pooled.materializes_exactly {s : State} {stream : Stream} (h : Pooled g s)
    (hConstants : stream.constants = s.stream.constants) (hZeros : g.OneZero) :
    Materializes g s.handedOut stream Eq := by
  constructor
  · intro x v hMem
    obtain ⟨c, entry, y, hc, hy, hEntry, hSame⟩ := h.constant?_of_handedOut hConstants hMem
    exact ⟨c, entry, hc, hEntry, hSame.resolve_right (hZeros y x entry c hy hc)⟩
  · intro x y v c d hx hy hc hd
    have hSame := (h.materializes hConstants).shared x y v c d hx hy hc hd
    exact hSame.resolve_right (hZeros x y c d hc hd)

end Selection

open Selection

/-- **Constants reach the code unchanged, but for the sign of a zero.** Every register that selection
hands out for a constant stands for the constant of its node, and is shared with other nodes of that
constant only, where zeros of different sign count as one. In a graph with zeros of one sign there
is no such exception. Nothing else is in the table. -/
theorem select_materializes {g : Graph} {schedule : Schedule} {features : Features}
    {stream : Stream} (hSelect : select g schedule features = .ok stream) :
    ∃ given, handedOut g schedule features = .ok given ∧
      (∀ r c, stream.constant? r = some c →
        ∃ x, ∃ v : Nat, r = v ∧ (x, v) ∈ given ∧ g.constant? x = some c) ∧
      Materializes g given stream (fun a b => a = b ∨ a.OppositeZeros b) ∧
      (g.OneZero → Materializes g given stream Eq) := by
  unfold select at hSelect
  obtain ⟨⟨covered, s⟩, hRun, hSelect⟩ := bind_eq_ok.mp hSelect
  cases pure_eq_ok.mp hSelect
  -- The rules keep the table in line, and laying out the code leaves it alone.
  have hPooled : Pooled g s := ((twin_self _).coverAll_steady {} (Pooled.start g)).2 _ _ hRun |>.2
  obtain ⟨-, -, -, hConstants, -⟩ := foldl_appendBlock covered s.stream
  refine ⟨s.handedOut, ?_, ?_, hPooled.materializes hConstants,
    hPooled.materializes_exactly hConstants⟩
  · unfold handedOut
    rw [hRun]
    rfl
  · intro r c hc
    unfold Stream.constant? at hc
    rw [hConstants] at hc
    obtain ⟨front, rest, hSplit, -⟩ := List.lookup_eq_some_iff.mp hc
    exact hPooled.handed (by rw [hSplit]; simp)

/-- `(-0 + 1.5) * -0`, with a node for each of the constants. -/
def negativeZeroTwice : Graph :=
  { nodes := #[
      { op := .start },
      .float64 (.zero true),
      .float64 ⟨0x3ff8000000000000⟩,
      .ofArity (.float64 .add) [1, 2],
      .float64 (.zero true),
      .ofArity (.float64 .mul) [3, 4],
      .ofArity .ret [5, 0, 0],
      .collect [6]]
    exit := some 7 }

/-- The two nodes of the negative zero share a register, which stands for it with its sign. -/
theorem select_materializes_negativeZeroTwice :
    ∃ schedule stream given, Schedule.compute negativeZeroTwice = .ok schedule ∧
      select negativeZeroTwice schedule ⟨0⟩ = .ok stream ∧
      handedOut negativeZeroTwice schedule ⟨0⟩ = .ok given ∧ (1, 2) ∈ given ∧ (4, 2) ∈ given ∧
      stream.constant? 2 = some { tag := .of .float64, float := .zero true } ∧
      Materializes negativeZeroTwice given stream Eq := by
  -- one evaluation gives the schedule, the stream and the registers handed out
  have hRun : ((Schedule.compute negativeZeroTwice).toOption.bind fun schedule =>
      (select negativeZeroTwice schedule ⟨0⟩).toOption.bind fun stream =>
        (handedOut negativeZeroTwice schedule ⟨0⟩).toOption.map fun given =>
          (stream.constant? 2, given)) =
      some (some { tag := .of .float64, float := .zero true }, [(2, 3), (1, 2), (4, 2)]) := by
    decide +kernel
  obtain ⟨schedule, hSchedule, hRun⟩ := Option.bind_eq_some_iff.mp hRun
  obtain ⟨stream, hStream, hRun⟩ := Option.bind_eq_some_iff.mp hRun
  obtain ⟨given, hGiven, hRun⟩ := Option.map_eq_some_iff.mp hRun
  obtain ⟨hConstant, rfl⟩ := Prod.mk.inj hRun
  have hSelect := toOption_eq_some.mp hStream
  have hHanded := toOption_eq_some.mp hGiven
  have hZeros : negativeZeroTwice.OneZero := Graph.oneZero_of_nodes (by decide)
  obtain ⟨given, hSame, -, -, hExact⟩ := select_materializes hSelect
  cases hHanded.symm.trans hSame
  exact ⟨schedule, stream, _, toOption_eq_some.mp hSchedule, hSelect, hHanded, by simp, by simp,
    hConstant, hExact hZeros⟩

/-- The product of a zero and a negative zero. -/
def zeroProduct : Graph :=
  { nodes := #[
      { op := .start },
      .float64 (.zero false),
      .float64 (.zero true),
      .ofArity (.float64 .mul) [1, 2],
      .ofArity .ret [3, 0, 0],
      .collect [4]]
    exit := some 5 }

/-- Zeros of different sign are handed out in one register: the product of the two is computed as
the square of the first. -/
theorem select_merges_zeros : zeroProduct.verify = .ok () ∧
    ∃ schedule stream given, Schedule.compute zeroProduct = .ok schedule ∧
      select zeroProduct schedule ⟨0⟩ = .ok stream ∧
      handedOut zeroProduct schedule ⟨0⟩ = .ok given ∧ (1, 1) ∈ given ∧ (2, 1) ∈ given ∧
      zeroProduct.constant? 2 = some { tag := .of .float64, float := .zero true } ∧
      stream.constant? 1 = some { tag := .of .float64, float := .zero false } := by
  refine ⟨by decide, ?_⟩
  -- register 1 is handed out for both zeros, and its constant is +0
  have hRun : ((Schedule.compute zeroProduct).toOption.bind fun schedule =>
      (select zeroProduct schedule ⟨0⟩).toOption.bind fun stream =>
        (handedOut zeroProduct schedule ⟨0⟩).toOption.map fun given =>
          (stream.constant? 1, given)) =
      some (some { tag := .of .float64, float := .zero false }, [(2, 1), (1, 1)]) := by
    decide +kernel
  obtain ⟨schedule, hSchedule, hRun⟩ := Option.bind_eq_some_iff.mp hRun
  obtain ⟨stream, hStream, hRun⟩ := Option.bind_eq_some_iff.mp hRun
  obtain ⟨given, hGiven, hRun⟩ := Option.map_eq_some_iff.mp hRun
  obtain ⟨hConstant, rfl⟩ := Prod.mk.inj hRun
  exact ⟨schedule, stream, _, toOption_eq_some.mp hSchedule, toOption_eq_some.mp hStream,
    toOption_eq_some.mp hGiven, by simp, by simp, rfl, hConstant⟩

end ArmBackend
