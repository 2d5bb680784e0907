import ArmBackend.Graph.Matching
import Mathlib.Algebra.Group.Nat.Defs
import Mathlib.Data.List.Perm.Subperm

/-!
# Runs of ones

A mask with a single run of ones is known by the place of its lowest one and the number of its ones.
The matcher counts the zeros on either side and the ones: they fill the word exactly when there is
one run.

## Results

* `trailingZeros_lt`, `bitRun_within` — what is found lies within the word.
* `eq_run_of_contiguous` — a mask that is found to be a run is that run.
* `bitRun_run` — every run is found.
* `eq_twoPow_of_and` — a word with a single one.
* `field_min`, `shift_and_of_run` — shifts under masks and masks under shifts are fields.
-/

namespace ArmBackend

variable {v : BitVec 32} {lsb width : Nat}

/-- The word with a run of ones. -/
def runOfOnes (lsb width : Nat) : BitVec 32 :=
  BitVec.ofNat 32 (2 ^ width - 1) <<< lsb

theorem getLsbD_runOfOnes (hFits : lsb + width ≤ 32) (i : Nat) :
    (runOfOnes lsb width).getLsbD i = decide (lsb ≤ i ∧ i < lsb + width) := by
  unfold runOfOnes
  rw [BitVec.getLsbD_shiftLeft, BitVec.getLsbD_ofNat, Nat.testBit_two_pow_sub_one,
    Bool.eq_iff_iff]
  simp only [Bool.and_eq_true, Bool.not_eq_true', decide_eq_true_eq, decide_eq_false_iff_not]
  omega

/-! ## Zeros on either side -/

theorem exists_getLsbD (h : v ≠ 0) : ∃ i < 32, v.getLsbD i = true := by
  by_contra hNone
  refine h (BitVec.eq_of_getLsbD_eq ?_)
  intro i hi
  have hBit : v.getLsbD i ≠ true := fun hTrue => hNone ⟨i, hi, hTrue⟩
  rw [Bool.eq_false_iff.mpr hBit]
  simp

/-- A word other than zero has a lowest one. -/
theorem find?_trailingZeros (h : v ≠ 0) :
    (List.range 32).find? (fun i => v.getLsbD i) = some (trailingZeros v) := by
  unfold trailingZeros
  obtain ⟨i, hi, hBit⟩ := exists_getLsbD h
  cases hFind : (List.range 32).find? fun i => v.getLsbD i with
  | none => exact absurd hBit (List.find?_eq_none.mp hFind i (List.mem_range.mpr hi))
  | some j => rfl

theorem trailingZeros_lt (h : v ≠ 0) : trailingZeros v < 32 :=
  List.mem_range.mp (List.mem_of_find?_eq_some (find?_trailingZeros h))

theorem getLsbD_trailingZeros (h : v ≠ 0) : v.getLsbD (trailingZeros v) = true :=
  List.find?_some (find?_trailingZeros h)

theorem getLsbD_of_lt_trailingZeros {i : Nat} (h : i < trailingZeros v) : v.getLsbD i = false := by
  by_cases hZero : v = 0
  · simp [hZero]
  · simpa using (List.find?_range_eq_some.mp (find?_trailingZeros hZero)).2.2 i h

theorem getMsbD_of_lt_leadingZeros {i : Nat} (h : i < leadingZeros v) : v.getMsbD i = false := by
  unfold leadingZeros at h
  cases hFind : (List.range 32).find? fun i => v.getMsbD i with
  | none =>
    rw [hFind, Option.getD_none] at h
    simpa using List.find?_range_eq_none.mp hFind i h
  | some j =>
    rw [hFind, Option.getD_some] at h
    simpa using (List.find?_range_eq_some.mp hFind).2.2 i h

/-- A bit that is set lies between the zeros. -/
theorem between_of_getLsbD {i : Nat} (h : v.getLsbD i = true) :
    trailingZeros v ≤ i ∧ i + leadingZeros v < 32 := by
  have hLt := BitVec.lt_of_getLsbD h
  constructor
  · by_contra hLow
    rw [getLsbD_of_lt_trailingZeros (Nat.not_le.mp hLow)] at h
    cases h
  · by_contra hHigh
    have hZero : v.getMsbD (31 - i) = false := getMsbD_of_lt_leadingZeros (by omega)
    rw [BitVec.getMsbD_eq_getLsbD, show 32 - 1 - (31 - i) = i by omega, h] at hZero
    simp only [Bool.and_true, decide_eq_false_iff_not] at hZero
    omega

/-! ## Finding runs -/

/-- A run of ones has a bit and lies within the word. -/
theorem bitRun_within (h : (bitRun v).contiguous = true) :
    1 ≤ (bitRun v).width ∧ (bitRun v).lsb + (bitRun v).width ≤ 32 := by
  unfold bitRun at h ⊢
  split at h
  · cases h
  · next hv =>
    rw [if_neg hv]
    have hSum : leadingZeros v + onesCount v + trailingZeros v = 32 := beq_iff_eq.mp h
    have hOne : 1 ≤ onesCount v := by
      obtain ⟨i, hi, hBit⟩ := exists_getLsbD hv
      exact List.length_pos_of_mem (List.mem_filter.mpr ⟨List.mem_range.mpr hi, hBit⟩)
    show 1 ≤ onesCount v ∧ trailingZeros v + onesCount v ≤ 32
    omega

/-- A mask that is found to be a run is that run: its ones are as many as there is room between the
zeros. -/
theorem eq_run_of_contiguous (h : (bitRun v).contiguous = true) :
    v = runOfOnes (bitRun v).lsb (bitRun v).width := by
  unfold bitRun at h ⊢
  split at h
  · cases h
  · next hNonzero =>
    have hSum : leadingZeros v + onesCount v + trailingZeros v = 32 := beq_iff_eq.mp h
    rw [if_neg hNonzero]
    show v = runOfOnes (trailingZeros v) (onesCount v)
    have hSubset : (List.range 32).filter (fun i => v.getLsbD i) ⊆
        List.range' (trailingZeros v) (onesCount v) := by
      intro i hi
      obtain ⟨hLow, hHigh⟩ := between_of_getLsbD (List.mem_filter.mp hi).2
      exact List.mem_range'_1.mpr ⟨hLow, by omega⟩
    have hNodup : ((List.range 32).filter fun i => v.getLsbD i).Nodup :=
      List.nodup_range.filter _
    -- as many bits are set as there are places between the zeros, so all of these are set
    have hPerm : ((List.range 32).filter fun i => v.getLsbD i).Perm
        (List.range' (trailingZeros v) (onesCount v)) :=
      (List.subperm_of_subset hNodup hSubset).perm_of_length_le (by simp [onesCount])
    refine BitVec.eq_of_getLsbD_eq fun i hi => ?_
    rw [getLsbD_runOfOnes (by omega), Bool.eq_iff_iff, decide_eq_true_eq, ← List.mem_range'_1,
      ← hPerm.mem_iff, List.mem_filter, List.mem_range]
    exact ⟨fun hBit => ⟨hi, hBit⟩, And.right⟩

/-- Every run is found. -/
theorem bitRun_run (hWidth : 0 < width) (hFits : lsb + width ≤ 32) :
    bitRun (runOfOnes lsb width) = ⟨lsb, width, true⟩ := by
  have hBit := getLsbD_runOfOnes hFits
  have hNonzero : runOfOnes lsb width ≠ 0 := by
    intro hZero
    have hLow := hBit lsb
    rw [hZero] at hLow
    simp at hLow
    omega
  -- Below the run, above it and in it there are as many bits as the search counts.
  have hLow : trailingZeros (runOfOnes lsb width) = lsb := by
    have hFind : (List.range 32).find? (fun i => (runOfOnes lsb width).getLsbD i) = some lsb := by
      refine List.find?_range_eq_some.mpr ⟨?_, List.mem_range.mpr (by omega), fun j hj => ?_⟩
      · simpa [hBit] using hWidth
      · simp only [hBit, Bool.not_eq_true', decide_eq_false_iff_not]
        omega
    rw [trailingZeros, hFind, Option.getD_some]
  have hHigh : leadingZeros (runOfOnes lsb width) = 32 - (lsb + width) := by
    have hFind : (List.range 32).find? (fun i => (runOfOnes lsb width).getMsbD i) =
        some (32 - (lsb + width)) := by
      refine List.find?_range_eq_some.mpr ⟨?_, List.mem_range.mpr (by omega), fun j hj => ?_⟩
      · rw [BitVec.getMsbD_eq_getLsbD, hBit, Bool.and_eq_true, decide_eq_true_eq,
          decide_eq_true_eq]
        omega
      · rw [BitVec.getMsbD_eq_getLsbD, hBit, Bool.not_eq_true', Bool.and_eq_false_iff,
          decide_eq_false_iff_not, decide_eq_false_iff_not]
        omega
    rw [leadingZeros, hFind, Option.getD_some]
  have hCount : onesCount (runOfOnes lsb width) = width := by
    have hPerm : ((List.range 32).filter fun i => (runOfOnes lsb width).getLsbD i).Perm
        (List.range' lsb width) := by
      refine (List.perm_ext_iff_of_nodup (List.nodup_range.filter _) List.nodup_range').mpr
        fun i => ?_
      rw [List.mem_filter, List.mem_range, hBit, decide_eq_true_eq, List.mem_range'_1]
      omega
    exact hPerm.length_eq.trans List.length_range'
  unfold bitRun
  rw [if_neg hNonzero, hLow, hHigh, hCount]
  simp
  omega

/-! ## Powers of two -/

/-- A number that has no bit in common with the number below it is a power of two: above the lowest
bit the two agree. -/
theorem eq_two_pow_of_and {n k : Nat} (hBit : n.testBit k = true)
    (hLow : ∀ j < k, n.testBit j = false) (hAnd : n &&& (n - 1) = 0) : n = 2 ^ k := by
  -- below its lowest bit `n` is zero; the rest `m` survives in `n - 1` and has to vanish
  have hRest : n % 2 ^ (k + 1) = 2 ^ k := by
    refine Nat.eq_of_testBit_eq fun j => ?_
    rw [Nat.testBit_mod_two_pow, Nat.testBit_two_pow]
    rcases Nat.lt_trichotomy j k with hj | rfl | hj
    · simp [hLow j hj, Nat.ne_of_gt hj]
    · simp [hBit]
    · simp [show ¬j < k + 1 by omega, Nat.ne_of_lt hj]
  obtain ⟨m, rfl⟩ : ∃ m, n = 2 ^ (k + 1) * m + 2 ^ k :=
    ⟨n / 2 ^ (k + 1), by rw [← hRest, Nat.div_add_mod]⟩
  have hPos := Nat.two_pow_pos k
  have hPow : 2 ^ k < 2 ^ (k + 1) := Nat.pow_lt_pow_right (by decide) (Nat.lt_succ_self k)
  have hBelow : 2 ^ (k + 1) * m + 2 ^ k - 1 = 2 ^ (k + 1) * m + (2 ^ k - 1) := by omega
  have hNone : m = 0 := by
    refine Nat.eq_of_testBit_eq fun j => ?_
    have hBoth := congrArg (·.testBit (k + 1 + j)) hAnd
    simp only [Nat.testBit_and, Nat.zero_testBit, hBelow] at hBoth
    rw [Nat.testBit_two_pow_mul_add _ hPow,
      Nat.testBit_two_pow_mul_add _ (by omega : 2 ^ k - 1 < 2 ^ (k + 1))] at hBoth
    simpa [show ¬k + 1 + j < k + 1 by omega] using hBoth
  rw [hNone, Nat.mul_zero, Nat.zero_add]

/-- A word that has no bit in common with the word below it is a power of two. -/
theorem eq_twoPow_of_and (h : v ≠ 0) (hAnd : v &&& (v - 1) = 0) :
    v = BitVec.twoPow 32 (trailingZeros v) := by
  have hLt := trailingZeros_lt h
  have hPos : 0 < v.toNat := Nat.pos_of_ne_zero fun hZero => h (BitVec.eq_of_toNat_eq hZero)
  have hBelow : (v - 1).toNat = v.toNat - 1 := by
    rw [BitVec.toNat_sub]
    have := v.isLt
    simp
    omega
  have hNat : v.toNat = 2 ^ trailingZeros v := by
    refine eq_two_pow_of_and (getLsbD_trailingZeros h)
      (fun j hj => getLsbD_of_lt_trailingZeros hj) ?_
    rw [← hBelow, ← BitVec.toNat_and, hAnd]
    rfl
  refine BitVec.eq_of_toNat_eq ?_
  rw [hNat, BitVec.toNat_twoPow, Nat.mod_eq_of_lt (Nat.pow_lt_pow_right (by decide) hLt)]

/-! ## Fields -/

theorem runOfOnes_zero (width : Nat) : runOfOnes 0 width = BitVec.ofNat 32 (2 ^ width - 1) :=
  BitVec.shiftLeft_zero _

/-- Of a shifted word there are no more bits than the shift leaves. -/
theorem field_min (x : BitVec 32) (lsb width : Nat) :
    (x >>> lsb) &&& BitVec.ofNat 32 (2 ^ min width (32 - lsb) - 1) =
      (x >>> lsb) &&& BitVec.ofNat 32 (2 ^ width - 1) := by
  refine BitVec.eq_of_getLsbD_eq fun i hi => ?_
  simp only [BitVec.getLsbD_and, BitVec.getLsbD_ushiftRight, BitVec.getLsbD_ofNat,
    Nat.testBit_two_pow_sub_one]
  by_cases hInside : lsb + i < 32
  · simp only [show (i < min width (32 - lsb)) = (i < width) by rw [eq_iff_iff]; omega]
  · rw [BitVec.getLsbD_of_ge x _ (Nat.not_lt.mp hInside), Bool.false_and, Bool.false_and]

/-- The bits of a shifted word that a mask leaves are a field when the mask has a run of ones from
the shift on, whatever it has below. -/
theorem shift_and_of_run {x mask : BitVec 32} (h : (mask >>> lsb) <<< lsb = runOfOnes lsb width)
    (hFits : lsb + width ≤ 32) :
    (x &&& mask) >>> lsb = (x >>> lsb) &&& BitVec.ofNat 32 (2 ^ width - 1) := by
  refine BitVec.eq_of_getLsbD_eq fun i hi => ?_
  rw [BitVec.getLsbD_ushiftRight, BitVec.getLsbD_and, BitVec.getLsbD_and,
    BitVec.getLsbD_ushiftRight, BitVec.getLsbD_ofNat, Nat.testBit_two_pow_sub_one]
  by_cases hInside : lsb + i < 32
  · have hBit : mask.getLsbD (lsb + i) = decide (i < width) := by
      have hRun := congrArg (·.getLsbD (lsb + i)) h
      simp only [getLsbD_runOfOnes hFits, BitVec.getLsbD_shiftLeft,
        BitVec.getLsbD_ushiftRight] at hRun
      simpa [hInside, Nat.not_lt.mpr (Nat.le_add_right lsb i)] using hRun
    rw [hBit, decide_eq_true hi, Bool.true_and]
  · rw [BitVec.getLsbD_of_ge x _ (Nat.not_lt.mp hInside), Bool.false_and, Bool.false_and]

end ArmBackend
