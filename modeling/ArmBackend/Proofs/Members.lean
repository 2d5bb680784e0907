import ArmBackend.Proofs.BitSet
import Mathlib.Data.List.Sort

/-!
# The members of a set in order

A word lists its bits from the least to the greatest, and a row of words lists the members of a set,
since the numbers of a later word are all greater. Walks, counts and ends of a set are what they are
for this list, whatever zero words stand at its end.

## Results

* `bits_of_ne` — dropping the least bit of a word leaves the rest of its bits.
* `lists_members` — the members of a row of words, each once and in increasing order.
* `foldWhile_visits` — a walk sees the members up to the first one that is rejected.
* `toList_eq`, `size_eq`, `first?_eq`, `last?_eq` — the questions about a set, answered by the list.
-/

namespace ArmBackend.BitSet

variable {s : BitSet} {w : BitVec 64} {ws : List (BitVec 64)} {i j k n : Nat}

/-! ## Strictly increasing lists -/

/-- Whether a list is the strictly increasing one of the numbers with a property. -/
structure Lists (l : List Nat) (p : Nat → Prop) : Prop where
  increasing : l.Pairwise (· < ·)
  mem : ∀ k, k ∈ l ↔ p k

namespace Lists

variable {l l' : List Nat} {p q : Nat → Prop}

/-- A set is listed in one way. -/
theorem unique (h : Lists l p) (h' : Lists l' p) : l = l' :=
  h.increasing.eq_of_mem_iff h'.increasing fun k => (h.mem k).trans (h'.mem k).symm

/-- A number in front that is less than the others. -/
theorem cons (h : Lists l p) (hLess : ∀ j, p j → k < j) : Lists (k :: l) fun j => j = k ∨ p j where
  increasing := List.pairwise_cons.mpr ⟨fun j hj => hLess j ((h.mem j).mp hj), h.increasing⟩
  mem j := by rw [List.mem_cons, h.mem]

/-- Two lists, one behind the other. -/
theorem append (h : Lists l p) (h' : Lists l' q) (hLess : ∀ j k, p j → q k → j < k) :
    Lists (l ++ l') fun k => p k ∨ q k where
  increasing := List.pairwise_append.mpr ⟨h.increasing, h'.increasing, fun j hj k hk =>
    hLess j k ((h.mem j).mp hj) ((h'.mem k).mp hk)⟩
  mem k := by rw [List.mem_append, h.mem, h'.mem]

/-- Properties that agree are listed alike. -/
theorem congr (h : Lists l p) (hSame : ∀ k, p k ↔ q k) : Lists l q where
  increasing := h.increasing
  mem k := (h.mem k).trans (hSame k)

/-- The last of the list is the greatest number with the property. -/
theorem getLast?_eq (h : Lists l p) (hk : p k) (hGreatest : ∀ j, p j → j ≤ k) :
    l.getLast? = some k := by
  obtain ⟨before, behind, rfl⟩ := List.append_of_mem ((h.mem k).mpr hk)
  cases behind with
  | nil => exact List.getLast?_concat
  | cons j rest =>
    -- Something behind `k` would be greater.
    have hMem : j ∈ before ++ k :: j :: rest := by simp
    have hLess : k < j := (List.pairwise_cons.mp (List.pairwise_append.mp h.increasing).2.1).1 j
      List.mem_cons_self
    exact absurd (hGreatest j ((h.mem j).mp hMem)) (Nat.not_le.mpr hLess)

end Lists

/-! ## The bits of a word -/

/-- The positions of the bits of a word that are set. -/
def bits (w : BitVec 64) : List Nat :=
  (List.range 64).filter fun j => w.getLsbD j

/-- The positions come from the least to the greatest. -/
theorem lists_bits (w : BitVec 64) : Lists (bits w) fun j => w.getLsbD j = true where
  increasing := List.Pairwise.filter _ List.pairwise_lt_range
  mem j := by
    unfold bits
    rw [List.mem_filter, List.mem_range]
    exact ⟨fun h => h.2, fun h => ⟨BitVec.lt_of_getLsbD h, h⟩⟩

/-- Dropping the least bit clears it and no other. -/
theorem getLsbD_dropLeast (w : BitVec 64) (j : Nat) :
    (dropLeast w).getLsbD j = (w.getLsbD j && decide (j ≠ w.ctz.toNat)) := by
  unfold dropLeast
  rw [BitVec.getLsbD_and, BitVec.getLsbD_not, BitVec.getLsbD_twoPow]
  by_cases hj : j < 64
  · by_cases hSame : j = w.ctz.toNat
    · simp [← hSame]
    · simp [hj, hSame, Ne.symm hSame]
  · rw [BitVec.getLsbD_of_ge w j (Nat.le_of_not_lt hj), Bool.false_and, Bool.false_and]

/-- Dropping the least bit of a word leaves the rest of its bits. -/
theorem bits_of_ne (h : w ≠ 0) : bits w = w.ctz.toNat :: bits (dropLeast w) := by
  have hLeast : w.getLsbD w.ctz.toNat = true := BitVec.getLsbD_true_ctz_of_ne_zero h
  -- both sides list the same places in order: the least first, then those above it
  refine (lists_bits w).unique (((lists_bits (dropLeast w)).cons ?_).congr ?_)
  · intro j hj
    rw [getLsbD_dropLeast, Bool.and_eq_true, decide_eq_true_eq] at hj
    by_contra hLe
    have hBelow : w.getLsbD j = false := BitVec.getLsbD_false_of_lt_ctz (by omega)
    rw [hBelow] at hj
    cases hj.1
  · intro j
    rw [getLsbD_dropLeast, Bool.and_eq_true, decide_eq_true_eq]
    constructor
    · rintro (rfl | ⟨hBit, -⟩)
      · exact hLeast
      · exact hBit
    · intro hBit
      by_cases hj : j = w.ctz.toNat
      · exact .inl hj
      · exact .inr ⟨hBit, hj⟩

/-- No bit of zero is set. -/
theorem bits_zero : bits 0 = [] := by decide

/-- A word has as many bits as are counted. -/
theorem length_bits (w : BitVec 64) : (bits w).length = w.cpop.toNat := by
  have hCount : ∀ n count : Nat, w.cpopNatRec n count =
      count + ((List.range n).filter fun j => w.getLsbD j).length := by
    intro n
    induction n with
    | zero => intro count; rfl
    | succ n ih =>
      intro count
      rw [BitVec.cpopNatRec_succ, ih, List.range_succ, List.filter_append, List.length_append,
        List.filter_singleton]
      cases w.getLsbD n
      · rfl
      · show count + 1 + _ = count + (_ + 1)
        omega
  rw [BitVec.toNat_cpop, hCount, Nat.zero_add]
  rfl

/-- The greatest bit of a word stands behind its leading zeros. -/
theorem greatest_bit (h : w ≠ 0) : w.getLsbD (64 - w.clz.toNat - 1) = true ∧
    ∀ j, w.getLsbD j = true → j ≤ 64 - w.clz.toNat - 1 := by
  constructor
  · have hBit : w.getLsbD (64 - 1 - w.clz.toNat) = true :=
      BitVec.getLsbD_true_clz_of_ne_zero (by decide) h
    rwa [show 64 - w.clz.toNat - 1 = 64 - 1 - w.clz.toNat by omega]
  · intro j hj
    by_contra hLess
    have hLt : w.toNat < 2 ^ (64 - w.clz.toNat) := BitVec.toNat_lt_two_pow_sub_clz
    have hBelow : w.toNat < 2 ^ j :=
      Nat.lt_of_lt_of_le hLt (Nat.pow_le_pow_right (by decide) (by omega))
    rw [← BitVec.testBit_toNat, Nat.testBit_lt_two_pow hBelow] at hj
    cases hj

/-! ## The members of a row -/

/-- The members of a row of words from the `i`-th on. -/
def rowMembers : Nat → List (BitVec 64) → List Nat
  | _, [] => []
  | i, w :: rest => (bits w).map (i * 64 + ·) ++ rowMembers (i + 1) rest

/-- The bits of the `i`-th word are numbers from `64 * i` on. -/
theorem lists_place (i : Nat) (w : BitVec 64) :
    Lists ((bits w).map (i * 64 + ·)) fun k => k / 64 = i ∧ w.getLsbD (k % 64) = true where
  increasing := List.pairwise_map.mpr
    ((lists_bits w).increasing.imp fun h => Nat.add_lt_add_left h _)
  mem k := by
    rw [List.mem_map]
    constructor
    · rintro ⟨j, hj, rfl⟩
      have hBit := ((lists_bits w).mem j).mp hj
      have hLt : j < 64 := BitVec.lt_of_getLsbD hBit
      have hMod : (i * 64 + j) % 64 = j := by omega
      exact ⟨by omega, by rw [hMod]; exact hBit⟩
    · rintro ⟨rfl, hBit⟩
      exact ⟨k % 64, ((lists_bits w).mem _).mpr hBit, Nat.div_add_mod' k 64⟩

/-- The members of a row are the numbers whose bits are set. -/
theorem lists_rowMembers (i : Nat) (ws : List (BitVec 64)) : Lists (rowMembers i ws) fun k =>
    i * 64 ≤ k ∧ (ws[k / 64 - i]?.getD 0).getLsbD (k % 64) = true := by
  induction ws generalizing i with
  | nil => exact ⟨List.Pairwise.nil, fun k => by simp [rowMembers]⟩
  | cons w rest ih =>
    -- what this word lists ends before the next one starts
    refine ((lists_place i w).append (ih (i + 1)) ?_).congr ?_
    · rintro j k ⟨hj, -⟩ ⟨hk, -⟩
      omega
    · intro k
      -- place `k` belongs to this word, to a later one, or to none
      by_cases hHere : k / 64 = i
      · have hNot : ¬(i + 1) * 64 ≤ k := by omega
        have hLe : i * 64 ≤ k := by omega
        simp [hNot, hLe, hHere]
      · by_cases hLe : (i + 1) * 64 ≤ k
        · have hNext : k / 64 - i = k / 64 - (i + 1) + 1 := by omega
          have hLow : i * 64 ≤ k := by omega
          simp [hNext, hHere, hLe, hLow]
        · have hLow : ¬i * 64 ≤ k := by omega
          simp [hHere, hLe, hLow]

/-- The members of a set. -/
def members (s : BitSet) : List Nat :=
  rowMembers 0 s.words.toList

/-- The members of a set, each once and in increasing order. -/
theorem lists_members (s : BitSet) : Lists s.members fun k => s.mem k = true := by
  refine (lists_rowMembers 0 s.words.toList).congr fun k => ?_
  unfold mem word
  simp

/-- A member is in one of the words. -/
theorem lt_of_mem (h : s.mem k = true) : k < s.words.size * 64 := by
  by_contra hLe
  unfold mem word at h
  rw [Array.getElem?_eq_none (by omega)] at h
  simp at h

/-! ## Walks -/

section Walks

variable {σ : Type} {f : σ → Nat → σ × Bool}

/-- Goes through a list until `f` asks to stop. Tells whether it got to the end. -/
def visit (f : σ → Nat → σ × Bool) : List Nat → σ → σ × Bool
  | [], state => (state, true)
  | k :: rest, state =>
    let (state, more) := f state k
    if more then visit f rest state else (state, false)

/-- A walk goes on as long as it is not asked to stop. -/
theorem visit_cons (k : Nat) (rest : List Nat) (state : σ) : visit f (k :: rest) state =
    if (f state k).2 then visit f rest (f state k).1 else ((f state k).1, false) :=
  rfl

/-- A walk goes on with the second list if it got through the first. -/
theorem visit_append (l l' : List Nat) (state : σ) : visit f (l ++ l') state =
    if (visit f l state).2 then visit f l' (visit f l state).1 else visit f l state := by
  induction l generalizing state with
  | nil => rfl
  | cons k rest ih =>
    rw [List.cons_append, visit_cons, visit_cons]
    cases (f state k).2 with
    | false => rfl
    | true => exact ih (f state k).1

/-- The walk over a word visits its bits. -/
theorem walkWord_eq (i : Nat) (w : BitVec 64) (state : σ) :
    walkWord f i w state = visit f ((bits w).map (i * 64 + ·)) state := by
  fun_induction walkWord f i w state with
  | case1 state => rfl
  | case2 w state hNe next hCall ih =>
    rw [bits_of_ne hNe, List.map_cons, visit_cons, hCall]
    exact ih
  | case3 w state hNe next more hCall hMore =>
    rw [bits_of_ne hNe, List.map_cons, visit_cons, hCall]
    exact (if_neg hMore).symm

/-- The walk over a row visits its members. -/
theorem walkWords_eq (i : Nat) (ws : List (BitVec 64)) (state : σ) :
    walkWords f i ws state = visit f (rowMembers i ws) state := by
  induction ws generalizing i state with
  | nil => rfl
  | cons w rest ih =>
    unfold walkWords rowMembers
    rw [visit_append, walkWord_eq]
    cases visit f ((bits w).map (i * 64 + ·)) state with
    | mk next more =>
      cases more with
      | false => rfl
      | true => exact ih (i + 1) next

/-- The walk over a set visits its members. -/
theorem foldWhile_eq (s : BitSet) (f : σ → Nat → σ × Bool) (init : σ) :
    s.foldWhile f init = (visit f s.members init).1 :=
  congrArg Prod.fst (walkWords_eq 0 s.words.toList init)

/-- The state behind the keys of a list. -/
def behind (f : σ → Nat → σ × Bool) (init : σ) (l : List Nat) : σ :=
  l.foldl (fun state k => (f state k).1) init

/-- Whether a walk over a list ends as it should: it has seen a front of the list, every key of which
was accepted but perhaps the last, and it has left out keys only behind a key that was rejected. -/
def Visits (f : σ → Nat → σ × Bool) (l : List Nat) (init final : σ) : Prop :=
  ∃ seen rest, l = seen ++ rest ∧ final = behind f init seen ∧
    (∀ front k others, seen = front ++ k :: others → others ≠ [] →
      (f (behind f init front) k).2 = true) ∧
    (rest ≠ [] → ∃ front k, seen = front ++ [k] ∧ (f (behind f init front) k).2 = false)

/-- A walk ends as it should: each key is taken or it is where the walk stops. -/
theorem visit_visits (l : List Nat) (init : σ) : Visits f l init (visit f l init).1 := by
  induction l generalizing init with
  | nil => exact ⟨[], [], rfl, rfl, by simp, fun h => absurd rfl h⟩
  | cons k l ih =>
    rw [visit_cons]
    -- The key is rejected, and ends the walk, or accepted.
    cases hMore : (f init k).2 with
    | false =>
      refine ⟨[k], l, rfl, rfl, ?_, fun _ => ⟨[], k, rfl, hMore⟩⟩
      intro front j others hSeen hOthers
      have hLength := congrArg List.length hSeen
      have hPos := List.length_pos_of_ne_nil hOthers
      simp at hLength
      omega
    | true =>
      obtain ⟨seen, rest, rfl, hFinal, hAccepted, hRejected⟩ := ih (f init k).1
      refine ⟨k :: seen, rest, rfl, hFinal, ?_, ?_⟩
      · intro front j others hSeen hOthers
        cases front with
        | nil =>
          obtain ⟨rfl, -⟩ := List.cons.inj hSeen
          exact hMore
        | cons i front =>
          obtain ⟨rfl, hTail⟩ := List.cons.inj hSeen
          exact hAccepted front j others hTail hOthers
      · intro hRest
        obtain ⟨front, j, rfl, hFalse⟩ := hRejected hRest
        exact ⟨k :: front, j, rfl, hFalse⟩

/-- A walk sees the members up to the first one that is rejected. -/
theorem foldWhile_visits (s : BitSet) (f : σ → Nat → σ × Bool) (init : σ) :
    Visits f s.members init (s.foldWhile f init) := by
  rw [foldWhile_eq]
  exact visit_visits s.members init

end Walks

/-! ## Questions -/

/-- The list of a set has its members. -/
theorem toList_eq (s : BitSet) : s.toList = s.members := by
  have hPush : ∀ (l : List Nat) (out : Array Nat),
      (visit (fun out k => (out.push k, true)) l out).1.toList = out.toList ++ l := by
    intro l
    induction l with
    | nil => exact fun out => (List.append_nil _).symm
    | cons k rest ih =>
      intro out
      rw [visit_cons, if_pos rfl, ih, Array.toList_push, List.append_assoc]
      rfl
  unfold toList
  rw [foldWhile_eq, hPush]
  rfl

/-- The size of a set is the number of its members. -/
theorem size_eq (s : BitSet) : s.size = s.members.length := by
  have hCount : ∀ (ws : List (BitVec 64)) (i count : Nat),
      ws.foldl (fun count w => count + w.cpop.toNat) count = count + (rowMembers i ws).length := by
    intro ws
    induction ws with
    | nil => exact fun _ _ => rfl
    | cons w rest ih =>
      intro i count
      unfold rowMembers
      rw [List.foldl_cons, ih (i + 1), List.length_append, List.length_map, length_bits,
        Nat.add_assoc]
  unfold size members
  rw [← Array.foldl_toList, hCount _ 0, Nat.zero_add]

/-- The first member of a row is the head of its list. -/
theorem firstFrom_eq (i : Nat) (ws : List (BitVec 64)) :
    firstFrom i ws = (rowMembers i ws).head? := by
  induction ws generalizing i with
  | nil => rfl
  | cons w rest ih =>
    unfold firstFrom rowMembers
    by_cases hZero : w = 0
    · rw [if_pos hZero, hZero, bits_zero, ih]
      rfl
    · rw [if_neg hZero, bits_of_ne hZero]
      rfl

/-- The first member of a set is the head of its list. -/
theorem first?_eq (s : BitSet) : s.first? = s.members.head? :=
  firstFrom_eq 0 s.words.toList

/-- The last member below a word is the end of the list of those. -/
theorem lastBelow_eq {l : List Nat} (h : Lists l fun k => k < n * 64 ∧ s.mem k = true) :
    s.lastBelow n = l.getLast? := by
  induction n generalizing l with
  | zero =>
    have hNil : l = [] := List.eq_nil_iff_forall_not_mem.mpr fun k hk => by
      have hLt := ((h.mem k).mp hk).1
      omega
    rw [hNil]
    rfl
  | succ n ih =>
    -- The members that the new word adds are its bits.
    have hWord : ∀ k, k / 64 = n → s.mem k = (s.word n).getLsbD (k % 64) := by
      rintro k rfl
      rfl
    unfold lastBelow
    by_cases hZero : s.word n = 0
    · rw [if_pos hZero]
      refine ih (h.congr fun k => ?_)
      by_cases hHere : k / 64 = n
      · rw [hWord k hHere, hZero]
        simp
      · have hSame : k < (n + 1) * 64 ↔ k < n * 64 := by omega
        rw [hSame]
    · obtain ⟨hBit, hGreatest⟩ := greatest_bit hZero
      have hLt : 64 - (s.word n).clz.toNat - 1 < 64 := BitVec.lt_of_getLsbD hBit
      rw [if_neg hZero]
      refine (h.getLast?_eq ⟨by omega, ?_⟩ ?_).symm
      · rw [hWord _ (by omega), show (n * 64 + _) % 64 = 64 - (s.word n).clz.toNat - 1 by omega]
        exact hBit
      · rintro j ⟨hj, hMem⟩
        by_cases hHere : j / 64 = n
        · rw [hWord j hHere] at hMem
          have hLe := hGreatest _ hMem
          omega
        · omega

/-- The last member of a set is the end of its list. -/
theorem last?_eq (s : BitSet) : s.last? = s.members.getLast? :=
  lastBelow_eq ((lists_members s).congr fun _ => ⟨fun h => ⟨lt_of_mem h, h⟩, fun h => h.2⟩)

end ArmBackend.BitSet
