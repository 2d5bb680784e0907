import ArmBackend.Evaluation.Arithmetic
import ArmBackend.Proofs.Conversions

/-!
# Quotients through doubles

The quotient of two words as doubles is rounded to 53 bits, and then to an integer towards zero. The
first rounding takes no quotient of words up to the next integer: the distance to that integer is at
least one part in the divisor, and the doubles there stand no further apart than that.

## Results

* `Double.roundHalfEven_div` — rounding in small enough steps keeps the integer quotient.
* `Double.truncate?_div` — the integer part of the rounded quotient is that of the exact one.
* `signedThroughDoubles_eq_iff`, `unsignedThroughDoubles_eq_iff` — where the words that come back
  are the quotients of the hardware.
* `signedRemainder_eq_iff`, `unsignedRemainder_eq` — and where the remainders taken from them are.
-/

namespace ArmBackend

namespace Double

variable {n num den c a b k : Nat} {z w : Int}

/-! ## Rounding -/

/-- A fraction that is not below a number is not rounded below it. -/
theorem le_roundHalfEven (hDen : 0 < den) (h : n * den ≤ num) : n ≤ roundHalfEven num den := by
  have hQuotient : n ≤ num / den := (Nat.le_div_iff_mul_le hDen).mpr h
  unfold roundHalfEven
  dsimp only
  split
  · exact hQuotient
  · split
    · exact Nat.le_succ_of_le hQuotient
    · exact Nat.le_add_right_of_le hQuotient

/-- A fraction that is not above a number is not rounded above it. -/
theorem roundHalfEven_le (hDen : 0 < den) (h : num ≤ n * den) : roundHalfEven num den ≤ n := by
  obtain rfl | hLess := Nat.eq_or_lt_of_le h
  · exact Nat.le_of_eq (roundHalfEven_mul hDen)
  · have hQuotient : num / den < n := (Nat.div_lt_iff_lt_mul hDen).mpr hLess
    have hParity : num / den % 2 < 2 := Nat.mod_lt _ Nat.two_pos
    unfold roundHalfEven
    dsimp only
    split
    · omega
    · split <;> omega

/-- A common factor does not change how a fraction is rounded. -/
theorem roundHalfEven_mul_right (hc : 0 < c) :
    roundHalfEven (num * c) (den * c) = roundHalfEven num den := by
  have hBelow : 2 * (num % den * c) < den * c ↔ 2 * (num % den) < den := by
    rw [← Nat.mul_assoc, Nat.mul_lt_mul_right hc]
  have hAbove : den * c < 2 * (num % den * c) ↔ den < 2 * (num % den) := by
    rw [← Nat.mul_assoc, Nat.mul_lt_mul_right hc]
  unfold roundHalfEven
  simp only [Nat.mul_div_mul_right _ _ hc, Nat.mul_mod_mul_right, hBelow, hAbove]

/-- A quotient that is rounded in steps of at most one part in the divisor is not rounded up to the
next integer. -/
theorem roundHalfEven_div (hb : 0 < b) (hc : b ≤ c) : roundHalfEven (a * c) b / c = a / b := by
  refine Nat.div_eq_of_lt_le ?_ ?_
  · refine le_roundHalfEven hb ?_
    rw [Nat.mul_right_comm]
    exact Nat.mul_le_mul_right _ (Nat.div_mul_le_self a b)
  · -- The dividend is at least one below the next multiple of the divisor.
    have hNext : (a + 1) * c ≤ (a / b + 1) * b * c := by
      refine Nat.mul_le_mul_right _ ?_
      rw [Nat.add_one_mul]
      exact Nat.lt_div_mul_add hb
    have hBelow : roundHalfEven (a * c) b ≤ (a / b + 1) * c - 1 := by
      refine roundHalfEven_le hb ?_
      rw [Nat.sub_mul, Nat.one_mul, Nat.mul_right_comm]
      rw [Nat.add_one_mul] at hNext
      omega
    have hPositive : 0 < (a / b + 1) * c := Nat.mul_pos (Nat.succ_pos _) (Nat.lt_of_lt_of_le hb hc)
    omega

theorem nearestPattern_mul_right (hc : 0 < c) :
    nearestPattern (num * c) (den * c) = nearestPattern num den := by
  unfold nearestPattern
  simp only [Nat.mul_div_mul_right _ _ hc, Nat.shiftLeft_eq, Nat.mul_right_comm den c]
  rw [roundHalfEven_mul_right hc]

/-! ## The pattern of a quotient -/

/-- The exponent of a quotient of two words lies between those of one part in the divisor and of the
dividend. -/
theorem log2_quotient {e : Nat} (ha : 0 < a) (haLt : a < 2 ^ 32) (hb : 0 < b) (hbLt : b < 2 ^ 32)
    (hk : 84 ≤ k) (he : (a * 2 ^ k / b).log2 = e) :
    52 ≤ e ∧ e < 32 + k ∧ b < 2 ^ (32 + k - e) ∧
      2 ^ e * b ≤ a * 2 ^ k ∧ a * 2 ^ k < 2 ^ (e + 1) * b := by
  have hUnit : 2 ^ k ≤ a * 2 ^ k := Nat.le_mul_of_pos_left _ ha
  have hNonzero : a * 2 ^ k / b ≠ 0 := by
    refine (Nat.div_pos (Nat.le_trans (Nat.le_of_lt hbLt) ?_) hb).ne'
    exact Nat.le_trans (Nat.pow_le_pow_right Nat.two_pos (by omega)) hUnit
  obtain ⟨hLower, hUpper⟩ := (Nat.log2_eq_iff hNonzero).mp he
  have hFloor : 2 ^ e * b ≤ a * 2 ^ k := (Nat.le_div_iff_mul_le hb).mp hLower
  have hCeil : a * 2 ^ k < 2 ^ (e + 1) * b := (Nat.div_lt_iff_lt_mul hb).mp hUpper
  -- A smaller exponent would leave the dividend below its unit.
  have hLeast : 52 ≤ e := by
    by_contra hLess
    have : a * 2 ^ k < 2 ^ k :=
      calc a * 2 ^ k
        _ < 2 ^ (e + 1) * b := hCeil
        _ ≤ 2 ^ 52 * 2 ^ 32 :=
          Nat.mul_le_mul (Nat.pow_le_pow_right Nat.two_pos (by omega)) (Nat.le_of_lt hbLt)
        _ = 2 ^ 84 := rfl
        _ ≤ 2 ^ k := Nat.pow_le_pow_right Nat.two_pos hk
    omega
  have hTop : 2 ^ e * b < 2 ^ (32 + k) := by
    rw [Nat.pow_add]
    exact Nat.lt_of_le_of_lt hFloor (Nat.mul_lt_mul_of_pos_right haLt (Nat.two_pow_pos k))
  have hMost : e < 32 + k := by
    refine (Nat.pow_lt_pow_iff_right (by decide : 1 < 2)).mp (Nat.lt_of_le_of_lt ?_ hTop)
    exact Nat.le_mul_of_pos_right _ hb
  refine ⟨hLeast, hMost, ?_, hFloor, hCeil⟩
  rw [show 32 + k = e + (32 + k - e) by omega, Nat.pow_add] at hTop
  exact Nat.lt_of_mul_lt_mul_left hTop

/-- The rounded significand of a quotient of two words, which stands for so many units shifted. -/
theorem exists_significand (ha : 0 < a) (haLt : a < 2 ^ 32) (hb : 0 < b) (hbLt : b < 2 ^ 32)
    (hk : 84 ≤ k) (hSmall : k ≤ 1074) :
    ∃ s t, s + t = k ∧ b ≤ 2 ^ t ∧ 2 ^ 52 * b ≤ a * 2 ^ t ∧ a * 2 ^ t ≤ 2 ^ 53 * b ∧
      nearestPattern (a * 2 ^ k) b = s * hiddenBit + roundHalfEven (a * 2 ^ t) b := by
  obtain ⟨e, he⟩ : ∃ e, (a * 2 ^ k / b).log2 = e := ⟨_, rfl⟩
  obtain ⟨hLeast, hMost, hDivisor, hFloor, hCeil⟩ := log2_quotient ha haLt hb hbLt hk he
  refine ⟨e - 52, k - (e - 52), by omega, ?_, ?_⟩
  · exact Nat.le_trans (Nat.le_of_lt hDivisor) (Nat.pow_le_pow_right Nat.two_pos (by omega))
  have hScale : a * 2 ^ k = a * 2 ^ (k - (e - 52)) * 2 ^ (e - 52) := by
    rw [Nat.mul_assoc, ← Nat.pow_add, show k - (e - 52) + (e - 52) = k by omega]
  have hLow : 2 ^ 52 * b ≤ a * 2 ^ (k - (e - 52)) := by
    refine Nat.le_of_mul_le_mul_right ?_ (Nat.two_pow_pos (e - 52))
    rw [← hScale, Nat.mul_right_comm, ← Nat.pow_add, show 52 + (e - 52) = e by omega]
    exact hFloor
  have hHigh : a * 2 ^ (k - (e - 52)) ≤ 2 ^ 53 * b := by
    refine Nat.le_of_mul_le_mul_right ?_ (Nat.two_pow_pos (e - 52))
    rw [← hScale, Nat.mul_right_comm, ← Nat.pow_add, show 53 + (e - 52) = e + 1 by omega]
    exact Nat.le_of_lt hCeil
  refine ⟨hLow, hHigh, ?_⟩
  have hFinite : (e - 52) * hiddenBit + roundHalfEven (a * 2 ^ (k - (e - 52))) b ≤
      infinityPattern :=
    calc (e - 52) * hiddenBit + roundHalfEven (a * 2 ^ (k - (e - 52))) b
      _ ≤ 1074 * hiddenBit + 2 * hiddenBit :=
        Nat.add_le_add (Nat.mul_le_mul_right _ (by omega)) (roundHalfEven_le hb hHigh)
      _ ≤ infinityPattern := by decide
  -- The power that the quotient is shifted down by cancels.
  unfold nearestPattern
  simp only [he, Nat.shiftLeft_eq]
  rw [hScale, roundHalfEven_mul_right (Nat.two_pow_pos _), Nat.min_eq_left hFinite]

/-- The quotient of two words as doubles is finite, and without its fraction it is the integer
quotient. -/
theorem parts_quotient (negative : Bool) (haLt : a < 2 ^ 32) (hb : 0 < b) (hbLt : b < 2 ^ 32) :
    (nearest negative (a * unitsPerOne * unitsPerOne) (b * unitsPerOne)).isNegative = negative ∧
      (nearest negative (a * unitsPerOne * unitsPerOne) (b * unitsPerOne)).exponentField ≠ 0x7ff ∧
      (nearest negative (a * unitsPerOne * unitsPerOne) (b * unitsPerOne)).magnitude /
        unitsPerOne = a / b := by
  obtain ⟨k, hk, hUnits⟩ := exists_unitsPerOne
  unfold nearest
  rw [hUnits, nearestPattern_mul_right (Nat.two_pow_pos k)]
  -- ha | Zero has a pattern of its own; another quotient has a significand that may carry.
  obtain rfl | ha := Nat.eq_zero_or_pos a
  · obtain ⟨hSign, hExponent, hFraction⟩ :=
      parts_ofPattern negative (by decide : 0 < hiddenBit) (by decide : 0 < 0x800)
    have hNothing : nearestPattern (0 * 2 ^ k) b = 0 * hiddenBit + 0 := by
      rw [Nat.zero_mul]
      unfold nearestPattern roundHalfEven
      simp [hb, hiddenBit]
    rw [hNothing]
    refine ⟨hSign, by rw [hExponent]; decide, ?_⟩
    unfold magnitude magnitudeOf
    rw [hExponent, hFraction, if_pos rfl, Nat.zero_div, Nat.zero_div]
  · obtain ⟨s, t, hSum, hDivisor, hLow, hHigh, hPattern⟩ :=
      exists_significand ha haLt hb hbLt (by omega : 84 ≤ k) (by omega)
    obtain ⟨hSign, hExponent, hMagnitude⟩ := parts_ofPattern_carry negative
      (le_roundHalfEven hb hLow) (roundHalfEven_le hb hHigh) (by omega : s ≤ 1074)
    rw [hPattern]
    refine ⟨hSign, hExponent, ?_⟩
    rw [hMagnitude, ← hSum, Nat.pow_add, Nat.mul_comm (2 ^ s),
      Nat.mul_div_mul_right _ _ (Nat.two_pow_pos s)]
    -- Rounding to the significand does not change the integral part.
    exact roundHalfEven_div hb hDivisor

/-! ## Quotients of integers -/

/-- A quotient of integers is that of their magnitudes, negative where the signs differ. -/
theorem tdiv_of_signs (z w : Int) :
    z.tdiv w = if decide (z < 0) != decide (w < 0) then -((z.natAbs / w.natAbs : Nat) : Int)
      else ((z.natAbs / w.natAbs : Nat) : Int) := by
  have hParts : ∀ v : Int, v = if v < 0 then -(v.natAbs : Int) else v.natAbs := by
    intro v
    split <;> omega
  conv_lhs => rw [hParts z, hParts w]
  by_cases hz : z < 0 <;> by_cases hw : w < 0 <;>
    simp only [hz, hw, if_true, if_false, Int.neg_tdiv, Int.tdiv_neg, Int.neg_neg,
      Int.ofNat_tdiv, decide_true, decide_false, bne_self_eq_false, Bool.false_eq_true] <;>
    rfl

/-- Only the double of zero is zero. -/
theorem isZero_ofInt (hz : z.natAbs < 2 ^ 32) (hNonzero : z ≠ 0) : (ofInt z).isZero = false := by
  have hMagnitude := (parts_ofInt (Nat.lt_trans hz (by decide : 2 ^ 32 < 2 ^ 53))).2.2
  by_contra hZero
  have hNothing : (ofInt z).magnitude = 0 := by
    simp only [isZero, Bool.not_eq_false, Bool.and_eq_true, beq_iff_eq] at hZero
    unfold magnitude magnitudeOf
    rw [if_pos hZero.1, hZero.2]
  obtain ⟨k, -, hUnits⟩ := exists_unitsPerOne
  have hPow := Nat.two_pow_pos k
  rw [hMagnitude, hUnits] at hNothing
  obtain h | h := Nat.mul_eq_zero.mp hNothing <;> omega

/-- The integer part of the quotient of two words as doubles is the integer quotient. -/
theorem truncate?_div (hz : z.natAbs < 2 ^ 32) (hw : w.natAbs < 2 ^ 32) (hNonzero : w ≠ 0) :
    ((ofInt z).div (ofInt w)).isNaN = false ∧
      ((ofInt z).div (ofInt w)).truncate? = some (z.tdiv w) := by
  obtain ⟨hSign, hFinite, hMagnitude⟩ := parts_ofInt (Nat.lt_trans hz (by decide : 2 ^ 32 < 2 ^ 53))
  obtain ⟨hSign', hFinite', hMagnitude'⟩ :=
    parts_ofInt (Nat.lt_trans hw (by decide : 2 ^ 32 < 2 ^ 53))
  have hDivisor := isZero_ofInt hw hNonzero
  have hQuotient : (ofInt z).div (ofInt w) =
      nearest (decide (z < 0) != decide (w < 0))
        (z.natAbs * unitsPerOne * unitsPerOne) (w.natAbs * unitsPerOne) := by
    unfold div isInfinite
    simp only [isNaN_of_finite hFinite, isNaN_of_finite hFinite', beq_eq_false_iff_ne.mpr hFinite,
      beq_eq_false_iff_ne.mpr hFinite', hDivisor, hSign, hSign', hMagnitude, hMagnitude',
      Bool.or_self, Bool.false_and, Bool.false_eq_true, if_false]
  -- rounding the quotient to a double does not carry it past an integer
  obtain ⟨hNegative, hRange, hInteger⟩ :=
    parts_quotient (decide (z < 0) != decide (w < 0)) hz (by omega) hw
  rw [hQuotient]
  refine ⟨isNaN_of_finite hRange, ?_⟩
  unfold truncate? units
  rw [if_neg hRange, hNegative, tdiv_of_signs z w, ← hInteger]
  split
  · rw [Int.neg_tdiv, Int.ofNat_tdiv]
  · rw [Int.ofNat_tdiv]

/-- A number divided by zero is an infinity, and zero divided by zero is not a number. -/
theorem div_ofInt_zero (hz : z.natAbs < 2 ^ 32) :
    (ofInt z).div (ofInt 0) = if z = 0 then invalid else infinity (decide (z < 0)) := by
  obtain ⟨hSign, hFinite, hMagnitude⟩ := parts_ofInt (Nat.lt_trans hz (by decide : 2 ^ 32 < 2 ^ 53))
  have hDivisor : (ofInt 0).isNaN = false ∧ (ofInt 0).isInfinite = false ∧
      (ofInt 0).isZero = true ∧ (ofInt 0).isNegative = false := by decide +kernel
  obtain ⟨hNumber', hFinite', hZero', hSign'⟩ := hDivisor
  have hDividend : (ofInt z).isZero = decide (z = 0) := by
    by_cases h : z = 0
    · rw [h, hZero']
      rfl
    · rw [decide_eq_false h]
      exact isZero_ofInt hz h
  unfold div
  rw [isNaN_of_finite hFinite, hNumber', hFinite', hZero', hSign', hSign, hDividend]
  have hFiniteLeft : (ofInt z).isInfinite = false := by
    unfold isInfinite
    rw [beq_eq_false_iff_ne.mpr hFinite, Bool.false_and]
  rw [hFiniteLeft]
  simp

/-- The quotient of two words as doubles, cut to a range. -/
theorem saturate_div (hz : z.natAbs < 2 ^ 32) (hw : w.natAbs < 2 ^ 32) (hNonzero : w ≠ 0)
    (least greatest : Int) :
    ((ofInt z).div (ofInt w)).saturate least greatest = max least (min greatest (z.tdiv w)) := by
  obtain ⟨hNumber, hInteger⟩ := truncate?_div hz hw hNonzero
  unfold saturate
  rw [hNumber, hInteger]
  rfl

/-- A number divided by zero is the end of the range on its side. -/
theorem saturate_div_zero (hz : z.natAbs < 2 ^ 32) (least greatest : Int) :
    ((ofInt z).div (ofInt 0)).saturate least greatest =
      if z = 0 then 0 else if z < 0 then least else greatest := by
  have hInfinity : ∀ negative, (infinity negative).isNaN = false ∧
      (infinity negative).truncate? = none ∧ (infinity negative).isNegative = negative := by
    decide +kernel
  have hInvalid : invalid.isNaN = true := by decide
  unfold saturate
  rw [div_ofInt_zero hz]
  by_cases h : z = 0
  · rw [if_pos h, if_pos h, hInvalid]
    rfl
  · rw [if_neg h, if_neg h, (hInfinity _).1, (hInfinity _).2.1, (hInfinity _).2.2]
    simp only [Bool.false_eq_true, if_false, decide_eq_true_eq]

end Double

/-! ## Words -/

variable {x y : BitVec 32}

/-- The signed quotient by way of doubles. -/
def signedThroughDoubles (x y : BitVec 32) : BitVec 32 :=
  ((Double.ofInt x.toInt).div (Double.ofInt y.toInt)).saturateInt32

/-- The unsigned quotient by way of doubles. -/
def unsignedThroughDoubles (x y : BitVec 32) : BitVec 32 :=
  ((Double.ofInt x.toNat).div (Double.ofInt y.toNat)).saturateUint32

theorem natAbs_toInt_lt (x : BitVec 32) : x.toInt.natAbs < 2 ^ 32 := by
  have := x.toInt_lt
  have := x.le_toInt
  omega

theorem natAbs_toNat_lt (x : BitVec 32) : (x.toNat : Int).natAbs < 2 ^ 32 :=
  x.isLt

theorem toInt_eq_zero_iff : x.toInt = 0 ↔ x = 0 :=
  BitVec.toInt_inj (y := 0)

theorem natCast_toNat_eq_zero_iff : (x.toNat : Int) = 0 ↔ x = 0 :=
  Int.natCast_eq_zero.trans (BitVec.toNat_inj (y := 0))

theorem signedThroughDoubles_zero (x : BitVec 32) :
    signedThroughDoubles x 0 =
      if x = 0 then 0 else if x.toInt < 0 then BitVec.intMin 32 else BitVec.intMax 32 := by
  have hDivisor : (0 : BitVec 32).toInt = 0 := rfl
  unfold signedThroughDoubles
  rw [Double.saturateInt32_eq, hDivisor, Double.saturate_div_zero (natAbs_toInt_lt x)]
  simp only [toInt_eq_zero_iff]
  split
  · rfl
  · split <;> rfl

theorem signedThroughDoubles_overflow :
    signedThroughDoubles (BitVec.intMin 32) (-1) = BitVec.intMax 32 := by
  decide +kernel

/-- Where no quotient overflows, doubles give the quotient of the hardware. -/
theorem signedThroughDoubles_of_ne (hy : y ≠ 0) (hRange : ¬(x = BitVec.intMin 32 ∧ y = -1)) :
    signedThroughDoubles x y = x.sdiv y := by
  have hNonzero : y.toInt ≠ 0 := mt toInt_eq_zero_iff.mp hy
  have hQuotient : (x.sdiv y).toInt = x.toInt.tdiv y.toInt :=
    BitVec.toInt_sdiv_of_ne_or_ne x y (not_and_or.mp hRange)
  have := (x.sdiv y).toInt_lt
  have := (x.sdiv y).le_toInt
  unfold signedThroughDoubles
  rw [Double.saturateInt32_eq, Double.saturate_div (natAbs_toInt_lt x) (natAbs_toInt_lt y) hNonzero,
    ← hQuotient, min_eq_right (by omega), max_eq_right (by omega), BitVec.ofInt_toInt]

/-- The signed quotient goes another way where a number is divided by zero, and where the quotient
overflows. -/
theorem signedThroughDoubles_eq_iff :
    signedThroughDoubles x y = signedQuotient x y ↔
      ¬(y = 0 ∧ x ≠ 0) ∧ ¬(x = BitVec.intMin 32 ∧ y = -1) := by
  unfold signedQuotient
  by_cases hy : y = 0
  · subst hy
    -- through doubles `x / 0` saturates, unless `x` is zero as well
    rw [signedThroughDoubles_zero, if_pos rfl]
    by_cases hx : x = 0
    · simp [hx]
    · rw [if_neg hx]
      refine ⟨fun h => ?_, fun h => absurd ⟨rfl, hx⟩ h.1⟩
      split at h <;> exact absurd h (by decide)
  · rw [if_neg hy]
    by_cases hRange : x = BitVec.intMin 32 ∧ y = -1
    · obtain ⟨rfl, rfl⟩ := hRange
      -- the one quotient out of range: it saturates here and wraps there
      rw [signedThroughDoubles_overflow]
      exact ⟨fun h => absurd h (by decide), fun h => absurd ⟨rfl, rfl⟩ h.2⟩
    · exact ⟨fun _ => ⟨fun h => hy h.1, hRange⟩, fun _ => signedThroughDoubles_of_ne hy hRange⟩

theorem unsignedThroughDoubles_zero (x : BitVec 32) :
    unsignedThroughDoubles x 0 = if x = 0 then 0 else BitVec.allOnes 32 := by
  have hDivisor : ((0 : BitVec 32).toNat : Int) = 0 := rfl
  unfold unsignedThroughDoubles
  rw [Double.saturateUint32_eq, hDivisor, Double.saturate_div_zero (natAbs_toNat_lt x)]
  simp only [natCast_toNat_eq_zero_iff]
  split
  · rfl
  · rw [if_neg (by omega)]
    rfl

theorem unsignedThroughDoubles_of_ne (hy : y ≠ 0) : unsignedThroughDoubles x y = x / y := by
  have hNonzero : (y.toNat : Int) ≠ 0 := mt natCast_toNat_eq_zero_iff.mp hy
  have hQuotient : (x.toNat : Int).tdiv y.toNat = (x / y).toNat := by
    rw [BitVec.toNat_udiv, Int.ofNat_tdiv]
  have hLt := (x / y).isLt
  unfold unsignedThroughDoubles
  rw [Double.saturateUint32_eq,
    Double.saturate_div (natAbs_toNat_lt x) (natAbs_toNat_lt y) hNonzero, hQuotient,
    min_eq_right (by omega), max_eq_right (by omega), BitVec.ofInt_natCast, BitVec.ofNat_toNat,
    BitVec.setWidth_eq]

/-- The unsigned quotient goes another way where a number is divided by zero. -/
theorem unsignedThroughDoubles_eq_iff :
    unsignedThroughDoubles x y = unsignedQuotient x y ↔ ¬(y = 0 ∧ x ≠ 0) := by
  unfold unsignedQuotient
  by_cases hy : y = 0
  · subst hy
    rw [unsignedThroughDoubles_zero, if_pos rfl]
    by_cases hx : x = 0
    · simp [hx]
    · rw [if_neg hx]
      exact ⟨fun h => absurd h (by decide), fun h => absurd ⟨rfl, hx⟩ h⟩
  · rw [if_neg hy]
    exact ⟨fun _ h => hy h.1, fun _ => unsignedThroughDoubles_of_ne hy⟩

/-! ## Remainders -/

/-- A quotient by zero does not show in the remainder, which is the dividend. -/
theorem signedRemainder_eq_iff :
    x - signedThroughDoubles x y * y = x - signedQuotient x y * y ↔
      ¬(x = BitVec.intMin 32 ∧ y = -1) := by
  by_cases hRange : x = BitVec.intMin 32 ∧ y = -1
  · obtain ⟨rfl, rfl⟩ := hRange
    rw [signedThroughDoubles_overflow]
    exact ⟨fun h => absurd h (by decide), fun h => absurd ⟨rfl, rfl⟩ h⟩
  · refine ⟨fun _ => hRange, fun _ => ?_⟩
    by_cases hy : y = 0
    · rw [hy]
      exact congrArg (x - ·) (BitVec.mul_zero.trans BitVec.mul_zero.symm)
    · rw [signedThroughDoubles_eq_iff.mpr ⟨fun h => hy h.1, hRange⟩]

theorem unsignedRemainder_eq :
    x - unsignedThroughDoubles x y * y = x - unsignedQuotient x y * y := by
  by_cases hy : y = 0
  · rw [hy]
    exact congrArg (x - ·) (BitVec.mul_zero.trans BitVec.mul_zero.symm)
  · rw [unsignedThroughDoubles_eq_iff.mpr fun h => hy h.1]

end ArmBackend
