import ArmBackend.Double.Basic
import Mathlib.Data.Nat.Log
import Mathlib.Tactic.Ring

/-!
# Integers as doubles

The double nearest to an integer of at most 53 bits is that integer. Its pattern is that of the
integer shifted up to 53 bits, with the exponent that takes the shift back.

## Results

* `Double.units_ofInt` — the exact value of the double is the integer.
* `Double.truncate?_ofInt`, `Double.toInt?_ofInt` — so is its integer part.
-/

namespace ArmBackend.Double

variable {m : Nat} {z : Int}

/-- The exponent stays a variable, so that the power is never computed. -/
theorem exists_unitsPerOne : ∃ k, k = 1074 ∧ unitsPerOne = 2 ^ k := by
  refine ⟨_, rfl, ?_⟩
  generalize hk : 1074 = k
  rw [unitsPerOne, hk, Nat.one_shiftLeft]

/-! ## The pattern -/

/-- A division without a remainder is not rounded. -/
theorem roundHalfEven_mul {q den : Nat} (hDen : 0 < den) : roundHalfEven (q * den) den = q := by
  unfold roundHalfEven
  simp only [Nat.mul_mod_left, Nat.mul_zero, if_pos hDen, Nat.mul_div_cancel _ hDen]

/-- The significand of an integer: the integer shifted up to 53 bits. -/
def significand (m : Nat) : Nat :=
  m <<< (52 - m.log2)

theorem significand_bounds (hPos : 0 < m) (hLt : m < 2 ^ 53) :
    hiddenBit ≤ significand m ∧ significand m < 2 * hiddenBit := by
  have hLog : m.log2 < 53 := (Nat.log2_lt (by omega)).mpr hLt
  obtain ⟨hLower, hUpper⟩ := (Nat.log2_eq_iff (k := m.log2) (by omega)).mp rfl
  have hScale : 2 ^ m.log2 * 2 ^ (52 - m.log2) = hiddenBit := by
    rw [← Nat.pow_add, show m.log2 + (52 - m.log2) = 52 by omega]
    rfl
  unfold significand
  rw [Nat.shiftLeft_eq]
  constructor
  · rw [← hScale]
    exact Nat.mul_le_mul_right _ hLower
  · rw [← hScale, ← Nat.mul_assoc, ← Nat.pow_succ']
    exact Nat.mul_lt_mul_of_pos_right hUpper (Nat.two_pow_pos _)

/-- The pattern nearest to a multiple of a power of two. -/
theorem nearestPattern_mul_two_pow {k : Nat} (hPos : 0 < m) (hLt : m < 2 ^ 53) (hk : 52 ≤ k)
    (hSmall : k ≤ 1074) :
    nearestPattern (m * 2 ^ k) 1 = (m.log2 + k - 52) * hiddenBit + significand m := by
  have hLog : m.log2 < 53 := (Nat.log2_lt (by omega)).mpr hLt
  obtain ⟨hLower, hUpper⟩ := (Nat.log2_eq_iff (k := m.log2) (by omega)).mp rfl
  have hShift : (m * 2 ^ k).log2 = m.log2 + k := by
    refine (Nat.log2_eq_iff (Nat.mul_ne_zero (by omega) (Nat.two_pow_pos k).ne')).mpr ⟨?_, ?_⟩
    · rw [Nat.pow_add]
      exact Nat.mul_le_mul_right _ hLower
    · rw [show m.log2 + k + 1 = (m.log2 + 1) + k by omega, Nat.pow_add]
      exact Nat.mul_lt_mul_of_pos_right hUpper (Nat.two_pow_pos k)
  -- The significand has all bits of the number, so nothing is rounded.
  have hExact : m * 2 ^ k = significand m * 2 ^ (m.log2 + k - 52) := by
    unfold significand
    rw [Nat.shiftLeft_eq, Nat.mul_assoc, ← Nat.pow_add]
    congr 2
    omega
  -- The exponent is far from that of infinity.
  have hFinite : (m.log2 + k - 52) * hiddenBit + significand m ≤ infinityPattern := by
    have hBounds := (significand_bounds hPos hLt).2
    have hExponent : (m.log2 + k - 52) * hiddenBit ≤ 1074 * hiddenBit :=
      Nat.mul_le_mul_right _ (by omega)
    calc (m.log2 + k - 52) * hiddenBit + significand m
        ≤ 1074 * hiddenBit + 2 * hiddenBit := Nat.add_le_add hExponent (Nat.le_of_lt hBounds)
      _ ≤ infinityPattern := by decide
  unfold nearestPattern
  simp only [Nat.div_one, hShift, Nat.one_shiftLeft]
  rw [hExact, roundHalfEven_mul (Nat.two_pow_pos _), Nat.min_eq_left hFinite]

/-! ## Reading a pattern -/

/-- The parts of a double that is given by its pattern. -/
theorem parts_ofPattern (negative : Bool) {exponent fraction : Nat}
    (hFraction : fraction < hiddenBit) (hExponent : exponent < 0x800) :
    (ofPattern negative (exponent * hiddenBit + fraction)).isNegative = negative ∧
      (ofPattern negative (exponent * hiddenBit + fraction)).exponentField = exponent ∧
      (ofPattern negative (exponent * hiddenBit + fraction)).fraction = fraction := by
  -- the fields fill the word side by side, so the pattern never reaches the sign
  have hBits : ∀ b : Bool, (ofPattern b (exponent * hiddenBit + fraction)).bits.toNat =
      (if b then 0x8000000000000000 else 0) + (exponent * hiddenBit + fraction) := by
    intro b
    unfold ofPattern hiddenBit at *
    rw [BitVec.toNat_ofNat]
    cases b
    · simp only [Bool.false_eq_true, if_false]
      omega
    · simp only [if_true]
      omega
  unfold isNegative exponentField Double.fraction
  rw [BitVec.msb_eq_decide, hBits]
  unfold hiddenBit at *
  cases negative
  · refine ⟨decide_eq_false ?_, ?_, ?_⟩ <;> simp only [Bool.false_eq_true, if_false] <;> omega
  · refine ⟨decide_eq_true ?_, ?_, ?_⟩ <;> simp only [if_true] <;> omega

/-- A significand of 53 bits, or the power of two above them, on top of a shift: its hidden bit
carries into the exponent. -/
theorem parts_ofPattern_carry (negative : Bool) {shift n : Nat} (hLower : hiddenBit ≤ n)
    (hUpper : n ≤ 2 * hiddenBit) (hShift : shift ≤ 1074) :
    (ofPattern negative (shift * hiddenBit + n)).isNegative = negative ∧
      (ofPattern negative (shift * hiddenBit + n)).exponentField ≠ 0x7ff ∧
      (ofPattern negative (shift * hiddenBit + n)).magnitude = n * 2 ^ shift := by
  have hPositive : 0 < hiddenBit := by decide
  -- a significand that rounds up to a power of two carries into the exponent, with the value it
  -- should have
  have hCarried : ∃ exponent fraction, fraction < hiddenBit ∧ exponent ≤ shift + 1 ∧
      shift * hiddenBit + n = (exponent + 1) * hiddenBit + fraction ∧
        (hiddenBit + fraction) * 2 ^ exponent = n * 2 ^ shift := by
    obtain rfl | hLess := Nat.eq_or_lt_of_le hUpper
    · refine ⟨shift + 1, 0, hPositive, Nat.le_refl _, by ring, ?_⟩
      rw [Nat.add_zero, Nat.pow_succ, Nat.mul_comm 2, Nat.mul_assoc, Nat.mul_comm (2 ^ shift)]
    · refine ⟨shift, n - hiddenBit, by omega, Nat.le_succ _, ?_, ?_⟩
      · rw [Nat.add_one_mul, Nat.add_assoc, Nat.add_sub_cancel' hLower]
      · rw [Nat.add_sub_cancel' hLower]
  obtain ⟨exponent, fraction, hFraction, hExponent, hPattern, hValue⟩ := hCarried
  obtain ⟨hSign, hField, hPart⟩ :=
    parts_ofPattern negative hFraction (by omega : exponent + 1 < 0x800)
  rw [hPattern]
  refine ⟨hSign, by rw [hField]; omega, ?_⟩
  unfold magnitude magnitudeOf
  rw [hField, hPart, if_neg (Nat.succ_ne_zero _), Nat.shiftLeft_eq, Nat.add_sub_cancel, hValue]

theorem isNaN_of_finite {x : Double} (h : x.exponentField ≠ 0x7ff) : x.isNaN = false := by
  unfold isNaN
  rw [beq_eq_false_iff_ne.mpr h, Bool.false_and]

theorem isInfinite_of_finite {x : Double} (h : x.exponentField ≠ 0x7ff) :
    x.isInfinite = false := by
  unfold isInfinite
  rw [beq_eq_false_iff_ne.mpr h, Bool.false_and]

/-! ## Integers -/

/-- The double nearest to an integer, with a sign, is finite and has the magnitude of the integer. -/
theorem parts_nearest (negative : Bool) (hLt : m < 2 ^ 53) :
    (nearest negative (m * unitsPerOne) 1).isNegative = negative ∧
      (nearest negative (m * unitsPerOne) 1).exponentField ≠ 0x7ff ∧
      (nearest negative (m * unitsPerOne) 1).magnitude = m * unitsPerOne := by
  obtain rfl | hPos := Nat.eq_zero_or_pos m
  · have hNothing : nearest negative 0 1 = zero negative := by
      cases negative <;> decide
    rw [Nat.zero_mul, hNothing]
    cases negative <;> exact ⟨rfl, by decide, rfl⟩
  · -- numbers below `2 ^ 53` fit the significand, so nothing is rounded
    obtain ⟨k, hk, hUnits⟩ := exists_unitsPerOne
    obtain ⟨hLower, hUpper⟩ := significand_bounds hPos hLt
    have hLog : m.log2 < 53 := (Nat.log2_lt (by omega)).mpr hLt
    obtain ⟨hSign, hExponent, hMagnitude⟩ := parts_ofPattern_carry negative hLower
      (Nat.le_of_lt hUpper) (by omega : m.log2 + k - 52 ≤ 1074)
    unfold nearest
    rw [hUnits, nearestPattern_mul_two_pow hPos hLt (by omega) (by omega)]
    refine ⟨hSign, hExponent, ?_⟩
    rw [hMagnitude]
    unfold significand
    rw [Nat.shiftLeft_eq, Nat.mul_assoc, ← Nat.pow_add,
      show 52 - m.log2 + (m.log2 + k - 52) = k by omega]

/-- The double of an integer is finite and has the sign and the magnitude of the integer. -/
theorem parts_ofInt (hLt : z.natAbs < 2 ^ 53) :
    (ofInt z).isNegative = decide (z < 0) ∧ (ofInt z).exponentField ≠ 0x7ff ∧
      (ofInt z).magnitude = z.natAbs * unitsPerOne :=
  parts_nearest (decide (z < 0)) hLt

/-- The double nearest to an integer of at most 53 bits is the integer. -/
theorem units_ofInt (hLt : z.natAbs < 2 ^ 53) : (ofInt z).units = z * unitsPerOne := by
  obtain ⟨hSign, -, hMagnitude⟩ := parts_ofInt hLt
  unfold units
  rw [hSign, hMagnitude, Nat.cast_mul]
  by_cases hz : z < 0
  · rw [if_pos (decide_eq_true hz), Int.ofNat_natAbs_of_nonpos (Int.le_of_lt hz)]
    ring
  · rw [if_neg (by simpa using hz), Int.natAbs_of_nonneg (Int.not_lt.mp hz)]

theorem truncate?_ofInt (hLt : z.natAbs < 2 ^ 53) : (ofInt z).truncate? = some z := by
  have hUnits : (unitsPerOne : Int) ≠ 0 := by
    obtain ⟨k, -, hUnits⟩ := exists_unitsPerOne
    rw [hUnits]
    exact Int.natCast_ne_zero.mpr (Nat.two_pow_pos k).ne'
  unfold truncate?
  rw [if_neg (parts_ofInt hLt).2.1, units_ofInt hLt, Int.mul_tdiv_cancel _ hUnits]

theorem toInt?_ofInt (hLt : z.natAbs < 2 ^ 53) : (ofInt z).toInt? = some z := by
  unfold toInt?
  rw [truncate?_ofInt hLt]
  exact if_pos (units_ofInt hLt).symm

end ArmBackend.Double
