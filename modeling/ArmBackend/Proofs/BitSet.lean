import ArmBackend.BitSet
import Mathlib.Tactic.Common

/-!
# Sets of small numbers behave as sets

What the words of a set say about its members: room does not change them, writing a key adds that
key alone, and the operations on whole sets work member by member, however many words either set has.
-/

namespace ArmBackend.BitSet

variable {s : BitSet} {k j : Nat}

/-- Room for more words changes no word: those that are added are zero, as the missing ones were. -/
@[simp]
theorem word_grow (s : BitSet) (n i : Nat) : (s.grow n).word i = s.word i := by
  unfold word grow
  rw [Array.getElem?_append]
  split
  · rfl
  · next hLt =>
    rw [Array.getElem?_eq_none (Nat.not_lt.mp hLt), Array.getElem?_replicate]
    split <;> rfl

/-- There is room for as many words as were asked for. -/
theorem size_grow (s : BitSet) (n : Nat) : n ≤ (s.grow n).words.size := by
  unfold grow
  rw [Array.size_append, Array.size_replicate]
  omega

/-- A set with room is empty. -/
@[simp]
theorem mem_withCapacity (n : Int) (k : Nat) : (withCapacity n).mem k = false := by
  unfold mem word withCapacity
  rw [Array.getElem?_replicate]
  split <;> simp

/-- Writing a key sets one bit of one word. -/
theorem word_insert (s : BitSet) (k i : Nat) : (s.insert k).word i =
    if k / 64 = i then s.word i ||| BitVec.twoPow 64 (k % 64) else s.word i := by
  have hSize := size_grow s (k / 64 + 1)
  have hWord := word_grow s (k / 64 + 1) i
  unfold word at hWord ⊢
  unfold insert
  dsimp only
  rw [Array.getElem?_modify, ← hWord]
  split
  · next hEq =>
    have hLt : i < (s.grow (k / 64 + 1)).words.size := by omega
    rw [Array.getElem?_eq_getElem hLt]
    rfl
  · rfl

/-- An inserted key is the one new member. -/
@[simp]
theorem mem_insert (s : BitSet) (k j : Nat) : (s.insert k).mem j = (decide (j = k) || s.mem j) := by
  unfold mem
  rw [word_insert]
  split
  · next hWord =>
    have hBit : (decide (k % 64 < 64) && decide (k % 64 = j % 64)) = decide (j = k) := by
      rw [← Bool.decide_and]
      exact decide_eq_decide.mpr (by omega)
    rw [BitVec.getLsbD_or, BitVec.getLsbD_twoPow, Bool.or_comm, hBit]
  · next hWord =>
    have hNe : j ≠ k := by
      rintro rfl
      exact hWord rfl
    simp [hNe]

/-- The empty set has no member. -/
@[simp]
theorem mem_empty (k : Nat) : empty.mem k = false := by
  unfold mem word empty
  simp

/-- Removing a key clears one bit of one word. -/
theorem word_erase (s : BitSet) (k i : Nat) : (s.erase k).word i =
    if k / 64 = i then s.word i &&& ~~~(BitVec.twoPow 64 (k % 64)) else s.word i := by
  unfold erase word
  dsimp only
  rw [Array.getElem?_modify]
  split
  · cases s.words[i]? with
    | none => simp
    | some w => rfl
  · rfl

/-- An erased key is the one member that is lost. -/
@[simp]
theorem mem_erase (s : BitSet) (k j : Nat) : (s.erase k).mem j = (decide (j ≠ k) && s.mem j) := by
  unfold mem
  rw [word_erase]
  have hLt (i : Nat) : decide (i % 64 < 64) = true := decide_eq_true (Nat.mod_lt i (by decide))
  -- Only the word of the erased key has changed, and in it only the bit of the key.
  split
  · next hWord =>
    have hBit : (!decide (k % 64 = j % 64)) = decide (j ≠ k) := by
      rw [← decide_not]
      exact decide_eq_decide.mpr (by omega)
    rw [BitVec.getLsbD_and, BitVec.getLsbD_not, BitVec.getLsbD_twoPow, hLt j, hLt k, Bool.true_and,
      Bool.true_and, Bool.and_comm, hBit]
  · next hWord =>
    -- Another word is another key.
    have hNe : j ≠ k := by
      rintro rfl
      exact hWord rfl
    simp [hNe]

/-- Words past the end are zero. -/
theorem word_of_le {i : Nat} (h : s.words.size ≤ i) : s.word i = 0 := by
  unfold word
  rw [Array.getElem?_eq_none h]
  rfl

/-- A union is taken word by word, however many words either set has. -/
theorem word_union (s t : BitSet) (i : Nat) : (s.union t).word i = s.word i ||| t.word i := by
  have hSize := size_grow s t.words.size
  rw [← word_grow s t.words.size i]
  by_cases hLt : i < (s.grow t.words.size).words.size
  · unfold union word
    dsimp only
    rw [Array.getElem?_mapIdx, Array.getElem?_eq_getElem hLt]
    rfl
  · -- Beyond the words of the union neither set has any.
    have hLe : (s.grow t.words.size).words.size ≤ i := Nat.le_of_not_lt hLt
    have hUnion : (s.union t).words.size = (s.grow t.words.size).words.size := Array.size_mapIdx
    rw [word_of_le (by omega), word_of_le hLe, word_of_le (by omega)]
    rfl

/-- The members of a union are those of either set. -/
@[simp]
theorem mem_union (s t : BitSet) (k : Nat) : (s.union t).mem k = (s.mem k || t.mem k) := by
  unfold mem
  rw [word_union, BitVec.getLsbD_or]

/-- A difference is taken word by word. -/
theorem word_diff (s t : BitSet) (i : Nat) : (s.diff t).word i = s.word i &&& ~~~(t.word i) := by
  unfold diff
  by_cases hLt : i < s.words.size
  · unfold word
    dsimp only
    rw [Array.getElem?_mapIdx, Array.getElem?_eq_getElem hLt]
    rfl
  · rw [word_of_le (s := s) (Nat.le_of_not_lt hLt), word_of_le (by simpa using hLt)]
    simp

/-- The members of a difference are those of the first set that are not in the second. -/
@[simp]
theorem mem_diff (s t : BitSet) (k : Nat) : (s.diff t).mem k = (s.mem k && !t.mem k) := by
  unfold mem
  rw [word_diff, BitVec.getLsbD_and, BitVec.getLsbD_not, decide_eq_true (Nat.mod_lt k (by decide)),
    Bool.true_and]

/-- A cleared set has no member. -/
@[simp]
theorem mem_clear (s : BitSet) (k : Nat) : s.clear.mem k = false := by
  unfold mem word clear
  rw [Array.getElem?_map]
  cases s.words[k / 64]? <;> simp

/-- A copy has the members of the original. -/
@[simp]
theorem mem_copy (s : BitSet) (k : Nat) : s.copy.mem k = s.mem k := by
  unfold copy
  rw [mem_union, mem_withCapacity, Bool.false_or]

/-! ## Keys from outside -/

/-- Only keys that are no less than zero are contained. -/
theorem contains_iff {x : Int} : s.contains x = true ↔ ∃ k : Nat, x = k ∧ s.mem k = true := by
  unfold contains
  rw [Bool.and_eq_true, decide_eq_true_eq]
  constructor
  · rintro ⟨hNonneg, hMem⟩
    exact ⟨x.toNat, (Int.toNat_of_nonneg hNonneg).symm, hMem⟩
  · rintro ⟨k, rfl, hMem⟩
    exact ⟨Int.natCast_nonneg k, hMem⟩

/-- A key from outside that is a number is contained if it is a member. -/
@[simp]
theorem contains_natCast (s : BitSet) (k : Nat) : s.contains k = s.mem k := by
  unfold contains
  simp

/-- A key that is no less than zero can be inserted. -/
theorem insertKey_natCast (s : BitSet) (k : Nat) : s.insertKey k = .ok (s.insert k) := by
  unfold insertKey
  rw [if_neg (Int.not_lt.mpr (Int.natCast_nonneg k))]
  rfl

/-- Only a natural number can be written. -/
theorem insertKey_eq_ok {x : Int} {s' : BitSet} :
    s.insertKey x = .ok s' ↔ ∃ k : Nat, x = k ∧ s.insert k = s' := by
  constructor
  · intro h
    unfold insertKey at h
    split at h
    · cases h
    · next hNonneg =>
      cases h
      exact ⟨x.toNat, (Int.toNat_of_nonneg (Int.not_lt.mp hNonneg)).symm, rfl⟩
  · rintro ⟨k, rfl, rfl⟩
    exact insertKey_natCast s k

/-- Keys that are no less than zero can be inserted one after the other. -/
theorem insertKeys_natCast (s : BitSet) (ks : List Nat) :
    s.insertKeys (ks.map Nat.cast) = .ok (ks.foldl insert s) := by
  unfold insertKeys
  induction ks generalizing s with
  | nil => rfl
  | cons k rest ih =>
    rw [List.map_cons, List.foldlM_cons, insertKey_natCast]
    exact ih (s.insert k)

/-- A key that is no less than zero can be erased. -/
theorem eraseKey_natCast (s : BitSet) (k : Nat) : s.eraseKey k = .ok (s.erase k) := by
  unfold eraseKey
  rw [if_pos (Int.natCast_nonneg k)]
  rfl

/-- The answer is whether the key was a member before it was inserted. -/
theorem testAndInsert_natCast (s : BitSet) (k : Nat) :
    s.testAndInsert k = .ok (s.mem k, if s.mem k then s else s.insert k) := by
  unfold testAndInsert
  rw [contains_natCast, insertKey_natCast]
  cases s.mem k <;> rfl

end ArmBackend.BitSet
