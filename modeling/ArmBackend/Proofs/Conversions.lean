import ArmBackend.Proofs.Doubles
import Mathlib.Data.Rat.Floor

/-!
# Words from doubles

Three conversions take a double to a word. They work with doubles: one takes the remainder of the
integer part modulo the number of words and adds that number to a negative remainder, the other two
compare with the ends of the range. Nothing is rounded on the way, since every double that comes up
is an integer of at most 53 bits; and the comparisons leave only integer parts that are words.

The value of a double is a rational number, read off the fields of its pattern.

## Results

* `parts_trunc`, `parts_rem` — the integer part and the remainder are exact.
* `wrapInt32_eq`, `saturateInt32_eq`, `saturateUint32_eq` — the conversions by way of the integer
  part.
* `value_eq`, `truncate?_eq` — the integer part is the value without its fraction.
* `words_exact` — what the conversions give, by the value of the double.
-/

namespace ArmBackend.Double

variable {x y : Double} {n : Nat} {z least greatest : Int}

theorem unitsPerOne_pos : 0 < unitsPerOne := by
  obtain ⟨k, -, hUnits⟩ := exists_unitsPerOne
  rw [hUnits]
  exact Nat.two_pow_pos k

/-! ## Integer parts and remainders -/

/-- The magnitude of a double below `2 ^ 52` is less than that in ones. -/
theorem magnitude_lt (h : x.exponentField < 1075) : x.magnitude < 2 ^ 53 * unitsPerOne := by
  obtain ⟨k, hk, hUnits⟩ := exists_unitsPerOne
  have hFraction : x.fraction < hiddenBit := Nat.mod_lt _ (by decide)
  have hBits : hiddenBit + hiddenBit = 2 ^ 53 := rfl
  rw [hUnits]
  unfold magnitude magnitudeOf
  split
  · exact Nat.lt_of_lt_of_le (by omega) (Nat.le_mul_of_pos_right _ (Nat.two_pow_pos k))
  · rw [Nat.shiftLeft_eq]
    exact Nat.mul_lt_mul_of_lt_of_le (by omega) (Nat.pow_le_pow_right Nat.two_pos (by omega))
      (Nat.two_pow_pos k)

/-- From `2 ^ 52` on a double is an integer. -/
theorem magnitude_div_mul (h : 1075 ≤ x.exponentField) :
    x.magnitude / unitsPerOne * unitsPerOne = x.magnitude := by
  obtain ⟨k, hk, hUnits⟩ := exists_unitsPerOne
  refine Nat.div_mul_cancel ?_
  unfold magnitude magnitudeOf
  rw [hUnits, if_neg (by omega), Nat.shiftLeft_eq]
  exact Dvd.dvd.mul_left (Nat.pow_dvd_pow 2 (by omega)) _

/-- The integer part of a finite double is exact, and keeps the sign. -/
theorem parts_trunc (h : x.exponentField ≠ 0x7ff) :
    x.trunc.isNegative = x.isNegative ∧ x.trunc.exponentField ≠ 0x7ff ∧
      x.trunc.magnitude = x.magnitude / unitsPerOne * unitsPerOne := by
  unfold trunc
  split
  · next hSmall =>
    exact parts_nearest _ (Nat.div_lt_of_lt_mul (Nat.mul_comm .. ▸ magnitude_lt hSmall))
  · next hLarge => exact ⟨rfl, h, (magnitude_div_mul (Nat.not_lt.mp hLarge)).symm⟩

/-- The double `2 ^ 32`. -/
theorem parts_wordCount : wordCount.isNegative = false ∧ wordCount.exponentField ≠ 0x7ff ∧
    wordCount.magnitude = 2 ^ 32 * unitsPerOne :=
  parts_ofInt (z := 0x100000000) (by decide)

/-- The remainder of an integer is exact, and keeps the sign. -/
theorem parts_rem (h : x.exponentField ≠ 0x7ff) (hInteger : x.magnitude = n * unitsPerOne) :
    (x.rem wordCount).isNegative = x.isNegative ∧ (x.rem wordCount).exponentField ≠ 0x7ff ∧
      (x.rem wordCount).magnitude = n % 2 ^ 32 * unitsPerOne := by
  obtain ⟨-, hFinite, hMagnitude⟩ := parts_wordCount
  have hNonzero : wordCount.isZero = false := by decide +kernel
  have hRem : x.rem wordCount = nearest x.isNegative (n % 2 ^ 32 * unitsPerOne) 1 := by
    unfold rem
    rw [isNaN_of_finite h, isNaN_of_finite hFinite, isInfinite_of_finite h,
      isInfinite_of_finite hFinite, hNonzero, hInteger, hMagnitude, Nat.mul_mod_mul_right]
    rfl
  have hLt : n % 2 ^ 32 < 2 ^ 32 := Nat.mod_lt _ (Nat.two_pow_pos 32)
  rw [hRem]
  exact parts_nearest _ (Nat.lt_trans hLt (by decide))

/-- The integer part of a double whose magnitude is an integer. -/
theorem truncate?_of_magnitude (h : x.exponentField ≠ 0x7ff)
    (hInteger : x.magnitude = n * unitsPerOne) :
    x.truncate? = some (if x.isNegative then -(n : Int) else n) := by
  have hPositive := unitsPerOne_pos
  unfold truncate? units
  rw [if_neg h, hInteger, Nat.cast_mul]
  split
  · rw [← Int.neg_mul, Int.mul_tdiv_cancel _ (by omega)]
  · rw [Int.mul_tdiv_cancel _ (by omega)]

/-! ## Modulo the number of words -/

theorem toWord_eq (h : x.truncate? = some z) (hLeast : least ≤ z) (hGreatest : z ≤ greatest) :
    x.toWord least greatest = BitVec.ofInt 32 z := by
  unfold toWord
  rw [h]
  exact if_pos ⟨hLeast, hGreatest⟩

/-- A negative remainder is moved up to a word exactly. -/
theorem truncate?_add_wordCount (h : x.exponentField ≠ 0x7ff) (hNegative : x.isNegative = true)
    (hInteger : x.magnitude = n * unitsPerOne) (hLt : n < 2 ^ 32) :
    (x.add wordCount).truncate? = some ((2 ^ 32 - n : Nat) : Int) := by
  obtain ⟨hSign, hFinite, hMagnitude⟩ := parts_wordCount
  -- wrapping adds `2 ^ 32` once, which brings a negative word into range
  have hSum : x.units + wordCount.units = ((2 ^ 32 - n) * unitsPerOne : Nat) := by
    unfold units
    rw [hNegative, hSign, hInteger, hMagnitude, if_pos rfl, if_neg Bool.false_ne_true, Nat.sub_mul,
      Nat.cast_sub (Nat.mul_le_mul_right _ (Nat.le_of_lt hLt))]
    omega
  have hPositive : 0 < (2 ^ 32 - n) * unitsPerOne := Nat.mul_pos (by omega) unitsPerOne_pos
  have hAdd : x.add wordCount = nearest false ((2 ^ 32 - n) * unitsPerOne) 1 := by
    unfold add
    rw [isNaN_of_finite h, isNaN_of_finite hFinite, isInfinite_of_finite h,
      isInfinite_of_finite hFinite, hSum]
    simp only [Bool.or_self, Bool.false_eq_true, if_false, Int.natAbs_natCast]
    rw [if_neg (by omega), decide_eq_false (by omega)]
  obtain ⟨hSign', hFinite', hMagnitude'⟩ := parts_nearest (m := 2 ^ 32 - n) false (by omega)
  rw [hAdd, truncate?_of_magnitude hFinite' hMagnitude', hSign', if_neg Bool.false_ne_true]

theorem lt_zero (h : x.exponentField ≠ 0x7ff) : x.lt (zero false) = decide (x.units < 0) := by
  have hZero : (zero false).isNaN = false ∧ (zero false).units = 0 := by decide
  unfold lt ordered
  rw [isNaN_of_finite h, hZero.1, hZero.2]
  rfl

/-- A remainder, moved up if it is negative, is the word of its integer part. -/
theorem toWord_moved (h : x.exponentField ≠ 0x7ff) (hInteger : x.magnitude = n * unitsPerOne)
    (hLt : n < 2 ^ 32) :
    toWord 0 0xffffffff (if x.lt (zero false) then x.add wordCount else x) =
      BitVec.ofInt 32 (if x.isNegative then -(n : Int) else n) := by
  have hTruncated := truncate?_of_magnitude h hInteger
  have hUnits : x.units = if x.isNegative then -((n * unitsPerOne : Nat) : Int)
      else ((n * unitsPerOne : Nat) : Int) := by
    unfold units
    rw [hInteger]
  rw [lt_zero h]
  by_cases hNegative : x.isNegative = true
  · rw [if_pos hNegative] at hTruncated hUnits ⊢
    obtain rfl | hPositive := Nat.eq_zero_or_pos n
    · -- A negative zero is not below zero, and stays.
      have hNot : ¬x.units < 0 := by
        rw [hUnits, Nat.zero_mul]
        decide
      rw [decide_eq_false hNot, if_neg Bool.false_ne_true]
      exact toWord_eq hTruncated (by decide) (by decide)
    · have hBelow : x.units < 0 := by
        have := Nat.mul_pos hPositive unitsPerOne_pos
        omega
      rw [decide_eq_true hBelow, if_pos rfl,
        toWord_eq (truncate?_add_wordCount h hNegative hInteger hLt) (by omega) (by omega)]
      refine BitVec.eq_of_toNat_eq ?_
      rw [BitVec.toNat_ofInt, BitVec.toNat_ofInt]
      omega
  · rw [if_neg hNegative] at hTruncated hUnits ⊢
    have hNot : ¬x.units < 0 := by omega
    rw [decide_eq_false hNot, if_neg Bool.false_ne_true]
    exact toWord_eq hTruncated (by omega) (by omega)

/-- The integer part of a finite double, by its sign and magnitude. -/
theorem truncate?_of_finite (h : x.exponentField ≠ 0x7ff) : x.truncate? = some
    (if x.isNegative then -((x.magnitude / unitsPerOne : Nat) : Int)
      else ((x.magnitude / unitsPerOne : Nat) : Int)) := by
  unfold truncate? units
  rw [if_neg h]
  split
  · rw [Int.neg_tdiv, Int.ofNat_tdiv]
  · rw [Int.ofNat_tdiv]

/-- The conversion gives the low bits of the integer part. -/
theorem wrapInt32_eq (x : Double) : x.wrapInt32 = BitVec.ofInt 32 (x.truncate?.getD 0) := by
  unfold wrapInt32
  by_cases h : x.exponentField = 0x7ff
  · have hSpecial : x.isNaN || x.isInfinite := by
      unfold isNaN isInfinite
      rw [h]
      by_cases hFraction : x.fraction = 0 <;> simp [hFraction]
    rw [if_pos hSpecial, truncate?, if_pos h]
    rfl
  · obtain ⟨hSign, hFinite, hMagnitude⟩ := parts_trunc h
    obtain ⟨hSign', hFinite', hMagnitude'⟩ := parts_rem hFinite hMagnitude
    have hSpecial : ¬(x.isNaN || x.isInfinite) := by
      rw [isNaN_of_finite h, isInfinite_of_finite h]
      decide
    rw [if_neg hSpecial, truncate?_of_finite h, Option.getD_some]
    dsimp only
    rw [toWord_moved hFinite' hMagnitude' (Nat.mod_lt _ (Nat.two_pow_pos 32)), hSign'.trans hSign]
    -- The remainder and the integer part differ by a multiple of the number of words.
    generalize x.magnitude / unitsPerOne = q
    refine BitVec.eq_of_toNat_eq ?_
    rw [BitVec.toNat_ofInt, BitVec.toNat_ofInt]
    split <;> omega

theorem wrapInt32_ofInt (hLt : z.natAbs < 2 ^ 53) : (ofInt z).wrapInt32 = BitVec.ofInt 32 z := by
  rw [wrapInt32_eq, truncate?_ofInt hLt]
  rfl

/-! ## Within a range -/

/-- The integer part held within `least` and `greatest`; zero for what is not a number. -/
def saturate (least greatest : Int) (x : Double) : Int :=
  if x.isNaN then 0
  else match x.truncate? with
    | some z => max least (min greatest z)
    | none => if x.isNegative then least else greatest

/-- Comparing with an integer compares the units. -/
theorem le_ofInt (hLt : z.natAbs < 2 ^ 53) :
    x.le (ofInt z) = (!x.isNaN && decide (x.units ≤ z * unitsPerOne)) := by
  unfold le ordered
  rw [isNaN_of_finite (parts_ofInt hLt).2.1, units_ofInt hLt]
  simp

theorem ofInt_le (hLt : z.natAbs < 2 ^ 53) :
    (ofInt z).le x = (!x.isNaN && decide (z * unitsPerOne ≤ x.units)) := by
  unfold le ordered
  rw [isNaN_of_finite (parts_ofInt hLt).2.1, units_ofInt hLt]
  simp

/-- An infinity is beyond all integers that are compared with. -/
theorem units_of_infinite (h : x.exponentField = 0x7ff) (hNumber : x.isNaN = false) :
    ∃ m : Nat, 2 ^ 53 * unitsPerOne ≤ m ∧
      x.units = if x.isNegative then -(m : Int) else m := by
  have hFraction : x.fraction = 0 := by
    unfold isNaN at hNumber
    rw [h] at hNumber
    simpa using hNumber
  refine ⟨x.magnitude, ?_, rfl⟩
  unfold magnitude
  rw [h, hFraction]
  decide +kernel

/-- Division towards zero keeps the order. -/
theorem tdiv_le_tdiv {a b : Int} {d : Nat} (hd : 0 < d) (h : a ≤ b) : a.tdiv d ≤ b.tdiv d := by
  have hPositive : (0 : Int) < d := by omega
  obtain ha | ha := Int.le_total 0 a
  · rw [Int.tdiv_eq_ediv_of_nonneg ha, Int.tdiv_eq_ediv_of_nonneg (Int.le_trans ha h)]
    exact Int.ediv_le_ediv hPositive h
  · have hNegated := Int.tdiv_nonneg (Int.neg_nonneg_of_nonpos ha) hPositive.le
    rw [Int.neg_tdiv] at hNegated
    obtain hb | hb := Int.le_total 0 b
    · have := Int.tdiv_nonneg hb hPositive.le
      omega
    · have hSwap : (-b).tdiv d ≤ (-a).tdiv d := by
        rw [Int.tdiv_eq_ediv_of_nonneg (by omega), Int.tdiv_eq_ediv_of_nonneg (by omega)]
        exact Int.ediv_le_ediv hPositive (by omega)
      rw [Int.neg_tdiv, Int.neg_tdiv] at hSwap
      omega

/-- Where a double lies to the ends of a range, and what it then gives within the range. -/
inductive Compares (least greatest : Int) (x : Double) : Prop
  | below (hBelow : x.units ≤ least * unitsPerOne) (hIs : x.saturate least greatest = least)
  | above (hNotBelow : ¬x.units ≤ least * unitsPerOne) (hAbove : greatest * unitsPerOne ≤ x.units)
      (hIs : x.saturate least greatest = greatest)
  | between (hNotBelow : ¬x.units ≤ least * unitsPerOne)
      (hNotAbove : ¬greatest * unitsPerOne ≤ x.units)
      (hIs : x.toWord least greatest = BitVec.ofInt 32 (x.saturate least greatest))

theorem compares_of_infinite (hLeast : least ≤ 0) (hLow : least.natAbs < 2 ^ 53)
    (hHigh : greatest.natAbs < 2 ^ 53) (hNumber : x.isNaN = false) (h : x.exponentField = 0x7ff) :
    Compares least greatest x := by
  obtain ⟨m, hBig, hUnits⟩ := units_of_infinite h hNumber
  have hPositive := unitsPerOne_pos
  have hNonneg : (0 : Int) ≤ unitsPerOne := Int.natCast_nonneg _
  have hIs : x.saturate least greatest = if x.isNegative then least else greatest := by
    have hTruncated : x.truncate? = none := if_pos h
    unfold saturate
    rw [hNumber, if_neg Bool.false_ne_true, hTruncated]
  by_cases hNegative : x.isNegative = true
  · rw [if_pos hNegative] at hUnits hIs
    -- an infinite double lies beyond both ends
    refine .below ?_ hIs
    have := Int.mul_le_mul_of_nonneg_right (by omega : -(2 ^ 53) ≤ least) hNonneg
    omega
  · rw [if_neg hNegative] at hUnits hIs
    have hLeastUnits := Int.mul_nonpos_of_nonpos_of_nonneg hLeast hNonneg
    refine .above (by omega) ?_ hIs
    have := Int.mul_le_mul_of_nonneg_right (by omega : greatest ≤ 2 ^ 53) hNonneg
    omega

theorem compares_of_finite (hLeast : least ≤ 0) (hGreatest : 0 ≤ greatest)
    (hNumber : x.isNaN = false) (h : x.exponentField ≠ 0x7ff) : Compares least greatest x := by
  have hOne : (unitsPerOne : Int) ≠ 0 := by
    have := unitsPerOne_pos
    omega
  have hTruncated : x.truncate? = some (x.units.tdiv unitsPerOne) := if_neg h
  have hIs : x.saturate least greatest =
      max least (min greatest (x.units.tdiv unitsPerOne)) := by
    unfold saturate
    rw [hNumber, if_neg Bool.false_ne_true, hTruncated]
  -- The integer parts of the ends are the ends, and taking integer parts keeps the order.
  have hEnd : ∀ e : Int, (e * unitsPerOne).tdiv unitsPerOne = e := fun e =>
    Int.mul_tdiv_cancel e hOne
  by_cases hBelow : x.units ≤ least * unitsPerOne
  · have := hEnd least ▸ tdiv_le_tdiv unitsPerOne_pos hBelow
    exact .below hBelow (by omega)
  · have hAtLeast := hEnd least ▸ tdiv_le_tdiv unitsPerOne_pos (Int.le_of_not_le hBelow)
    by_cases hAbove : greatest * unitsPerOne ≤ x.units
    · have := hEnd greatest ▸ tdiv_le_tdiv unitsPerOne_pos hAbove
      exact .above hBelow hAbove (by omega)
    · have hAtMost := hEnd greatest ▸ tdiv_le_tdiv unitsPerOne_pos (Int.le_of_not_le hAbove)
      refine .between hBelow hAbove ?_
      rw [toWord_eq hTruncated hAtLeast hAtMost, hIs, min_eq_right hAtMost, max_eq_right hAtLeast]

/-- Comparing with the ends of a range leaves the integer parts inside of it. -/
theorem compares (least greatest : Int) (hLeast : least ≤ 0) (hGreatest : 0 ≤ greatest)
    (hLow : least.natAbs < 2 ^ 53) (hHigh : greatest.natAbs < 2 ^ 53) (hNumber : x.isNaN = false) :
    Compares least greatest x := by
  by_cases h : x.exponentField = 0x7ff
  · exact compares_of_infinite hLeast hLow hHigh hNumber h
  · exact compares_of_finite hLeast hGreatest hNumber h

/-- The conversion to signed words holds the integer part within their range. -/
theorem saturateInt32_eq (x : Double) :
    x.saturateInt32 = BitVec.ofInt 32 (x.saturate (-0x80000000) 0x7fffffff) := by
  unfold saturateInt32
  rw [le_ofInt (by decide), ofInt_le (by decide)]
  cases hNumber : x.isNaN with
  | true =>
    unfold saturate
    rw [hNumber]
    rfl
  | false =>
    rw [if_neg Bool.false_ne_true]
    simp only [Bool.not_false, Bool.true_and, decide_eq_true_eq]
    -- the two comparisons decide which end the value is clamped to
    cases compares (-0x80000000) 0x7fffffff (by decide) (by decide) (by decide) (by decide)
      hNumber with
    | below hBelow hIs =>
      rw [if_pos hBelow, hIs]
      rfl
    | above hNotBelow hAbove hIs =>
      rw [if_neg hNotBelow, if_pos hAbove, hIs]
      rfl
    | between hNotBelow hNotAbove hIs => rw [if_neg hNotBelow, if_neg hNotAbove, hIs]

/-- The conversion to unsigned words holds the integer part within their range. -/
theorem saturateUint32_eq (x : Double) :
    x.saturateUint32 = BitVec.ofInt 32 (x.saturate 0 0xffffffff) := by
  have hZero : zero false = ofInt 0 := by decide
  unfold saturateUint32
  rw [hZero, le_ofInt (by decide), ofInt_le (by decide)]
  cases hNumber : x.isNaN with
  | true =>
    unfold saturate
    rw [hNumber]
    rfl
  | false =>
    simp only [Bool.not_false, Bool.false_or, Bool.true_and, decide_eq_true_eq]
    cases compares 0 0xffffffff (by decide) (by decide) (by decide) (by decide) hNumber with
    | below hBelow hIs =>
      rw [if_pos hBelow, hIs]
      rfl
    | above hNotBelow hAbove hIs =>
      rw [if_neg hNotBelow, if_pos hAbove, hIs]
      rfl
    | between hNotBelow hNotAbove hIs => rw [if_neg hNotBelow, if_neg hNotAbove, hIs]

/-! ## By the value -/

/-- The value of a finite double, read off the fields of its pattern. -/
def value (x : Double) : ℚ :=
  (if x.isNegative then -1 else 1) *
    if x.exponentField = 0 then (x.fraction : ℚ) * 2 ^ (-1074 : ℤ)
    else (2 ^ 52 + x.fraction : ℚ) * 2 ^ ((x.exponentField : ℤ) - 1075)

/-- A rational number without its fraction. -/
def towardZero (q : ℚ) : ℤ :=
  if 0 ≤ q then ⌊q⌋ else ⌈q⌉

theorem value_eq (x : Double) : x.value = (x.units : ℚ) / unitsPerOne := by
  obtain ⟨k, hk, hUnits⟩ := exists_unitsPerOne
  have hTwo : (2 : ℚ) ≠ 0 := two_ne_zero
  have hMagnitude : (x.magnitude : ℚ) / unitsPerOne =
      if x.exponentField = 0 then (x.fraction : ℚ) * 2 ^ (-1074 : ℤ)
      else (2 ^ 52 + x.fraction : ℚ) * 2 ^ ((x.exponentField : ℤ) - 1075) := by
    unfold magnitude magnitudeOf
    rw [hUnits]
    -- subnormal numbers have the exponent of the least normal ones and no hidden bit
    split
    · rw [show (-1074 : ℤ) = -(k : ℤ) by omega, zpow_neg, zpow_natCast, Nat.cast_pow,
        Nat.cast_ofNat, div_eq_mul_inv]
    · rw [show (x.exponentField : ℤ) - 1075 = ((x.exponentField - 1 : Nat) : ℤ) - k by omega,
        zpow_sub₀ hTwo, zpow_natCast, zpow_natCast, Nat.shiftLeft_eq]
      push_cast
      rw [show (hiddenBit : ℚ) = 2 ^ 52 by norm_num [hiddenBit], mul_div_assoc]
  unfold value units
  rw [← hMagnitude]
  split
  · push_cast
    ring
  · push_cast
    ring

theorem towardZero_div (a : ℤ) (d : Nat) : towardZero ((a : ℚ) / d) = a.tdiv d := by
  unfold towardZero
  obtain rfl | hd := Nat.eq_zero_or_pos d
  · simp
  obtain ha | ha := Int.le_total 0 a
  · have hNonneg : (0 : ℚ) ≤ (a : ℚ) / d :=
      div_nonneg (Int.cast_nonneg ha) (Nat.cast_nonneg d)
    rw [if_pos hNonneg, Rat.floor_intCast_div_natCast, Int.tdiv_eq_ediv_of_nonneg ha]
  · have hCeil : ⌈(a : ℚ) / d⌉ = a.tdiv d := by
      have hFloor : ⌊((-a : ℤ) : ℚ) / d⌋ = (-a) / (d : ℤ) := Rat.floor_intCast_div_natCast _ _
      rw [← neg_neg ((a : ℚ) / d), Int.ceil_neg, ← neg_div, ← Int.cast_neg, hFloor,
        ← Int.tdiv_eq_ediv_of_nonneg (Int.neg_nonneg_of_nonpos ha), Int.neg_tdiv, neg_neg]
    split
    · next hNonneg =>
      -- Both are nothing if the quotient is not below zero, for it is not above either.
      have hZero : (a : ℚ) / d = 0 :=
        le_antisymm (div_nonpos_of_nonpos_of_nonneg (Int.cast_nonpos.mpr ha) (Nat.cast_nonneg d))
          hNonneg
      rw [← hCeil, hZero, Int.floor_zero, Int.ceil_zero]
    · exact hCeil

theorem truncate?_eq (h : x.exponentField ≠ 0x7ff) : x.truncate? = some (towardZero x.value) := by
  rw [value_eq, towardZero_div]
  exact if_neg h

/-- What is neither an infinity nor not a number is finite. -/
theorem exponentField_ne (hNumber : x.isNaN = false) (hInfinite : x.isInfinite = false) :
    x.exponentField ≠ 0x7ff := by
  intro h
  unfold isNaN at hNumber
  unfold isInfinite at hInfinite
  rw [h] at hNumber hInfinite
  by_cases hFraction : x.fraction = 0 <;> simp_all

theorem exponentField_of_nan (h : x.isNaN = true) : x.exponentField = 0x7ff := by
  unfold isNaN at h
  rw [Bool.and_eq_true, beq_iff_eq] at h
  exact h.1

theorem exponentField_of_infinite (h : x.isInfinite = true) : x.exponentField = 0x7ff := by
  unfold isInfinite at h
  rw [Bool.and_eq_true, beq_iff_eq] at h
  exact h.1

/-- A range holds the value without its fraction, and the infinities at its ends. -/
theorem saturate_value (x : Double) (least greatest : Int) :
    x.saturate least greatest =
      if x.isNaN then 0
      else if x.isInfinite then (if x.isNegative then least else greatest)
      else max least (min greatest (towardZero x.value)) := by
  unfold saturate
  cases hNumber : x.isNaN with
  | true => rfl
  | false =>
    rw [if_neg Bool.false_ne_true, if_neg Bool.false_ne_true]
    cases hInfinite : x.isInfinite with
    | true =>
      rw [if_pos rfl, truncate?, if_pos (exponentField_of_infinite hInfinite)]
    | false =>
      rw [if_neg Bool.false_ne_true, truncate?_eq (exponentField_ne hNumber hInfinite)]

theorem saturate_bounds (x : Double) (least greatest : Int) (hLeast : least ≤ 0)
    (hGreatest : 0 ≤ greatest) :
    least ≤ x.saturate least greatest ∧ x.saturate least greatest ≤ greatest := by
  rw [saturate_value]
  split
  · exact ⟨hLeast, hGreatest⟩
  · split
    · split <;> omega
    · omega

theorem value_ofInt (hLt : z.natAbs < 2 ^ 53) : (ofInt z).value = z := by
  have hOne : (unitsPerOne : ℚ) ≠ 0 := Nat.cast_ne_zero.mpr unitsPerOne_pos.ne'
  rw [value_eq, units_ofInt hLt]
  push_cast
  exact mul_div_cancel_right₀ _ hOne

/-- The conversions give the value without its fraction: modulo the number of words as the signed
word between the ends, or held within the range of signed or of unsigned words. The double of a word
has the value of the word, and comes back as the word. -/
theorem words_exact (x : Double) :
    x.wrapInt32.toInt =
        (if x.isNaN || x.isInfinite then 0 else (towardZero x.value).bmod (2 ^ 32)) ∧
      x.saturateInt32.toInt =
        (if x.isNaN then 0
        else if x.isInfinite then (if x.isNegative then -2 ^ 31 else 2 ^ 31 - 1)
        else max (-2 ^ 31) (min (2 ^ 31 - 1) (towardZero x.value))) ∧
      (x.saturateUint32.toNat : ℤ) =
        (if x.isNaN then 0
        else if x.isInfinite then (if x.isNegative then 0 else 2 ^ 32 - 1)
        else max 0 (min (2 ^ 32 - 1) (towardZero x.value))) ∧
      ∀ w : BitVec 32,
        ((ofInt w.toInt).value = w.toInt ∧ (ofInt w.toInt).wrapInt32 = w) ∧
          (ofInt w.toNat).value = w.toNat ∧ (ofInt w.toNat).wrapInt32 = w := by
  refine ⟨?wrapped, ?signed, ?unsigned, fun w => ?words⟩
  case wrapped =>
    rw [wrapInt32_eq, BitVec.toInt_ofInt]
    cases hNumber : x.isNaN with
    | true =>
      rw [truncate?, if_pos (exponentField_of_nan hNumber)]
      rfl
    | false =>
      cases hInfinite : x.isInfinite with
      | true =>
        rw [truncate?, if_pos (exponentField_of_infinite hInfinite)]
        rfl
      | false =>
        rw [truncate?_eq (exponentField_ne hNumber hInfinite)]
        rfl
  case signed =>
    -- What is held within the range is a word, so making a word of it changes nothing.
    obtain ⟨hLeast, hGreatest⟩ := saturate_bounds x (-0x80000000) 0x7fffffff (by decide)
      (by decide)
    rw [← saturate_value, saturateInt32_eq, BitVec.toInt_ofInt]
    exact Int.bmod_eq_of_le (by omega) (by omega)
  case unsigned =>
    obtain ⟨hLeast, hGreatest⟩ := saturate_bounds x 0 0xffffffff (by decide) (by decide)
    rw [← saturate_value, saturateUint32_eq, BitVec.toNat_ofInt]
    show _ = x.saturate 0 0xffffffff
    omega
  case words =>
    have hSigned : w.toInt.natAbs < 2 ^ 53 := by
      have := w.toInt_lt
      have := w.le_toInt
      omega
    have hUnsigned : (w.toNat : ℤ).natAbs < 2 ^ 53 := by
      have := w.isLt
      omega
    refine ⟨⟨value_ofInt hSigned, ?_⟩, value_ofInt hUnsigned, ?_⟩
    · rw [wrapInt32_ofInt hSigned, BitVec.ofInt_toInt]
    · rw [wrapInt32_ofInt hUnsigned, BitVec.ofInt_natCast, BitVec.ofNat_toNat, BitVec.setWidth_eq]

/-- Between the largest signed word and the next integer there is no other word. -/
example : (⟨0x41dfffffffe00000⟩ : Double).saturateInt32 = BitVec.intMax 32 := by
  decide +kernel

end ArmBackend.Double
