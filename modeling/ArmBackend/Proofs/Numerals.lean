import ArmBackend.Numeral
import Mathlib.Tactic.Common

/-!
# Numerals read back

What the writers of numerals make, the readers take: digits in any base up to sixteen, decimal
numbers of either sign, and hexadecimal numbers behind their mark. A decimal number other than zero
does not start with a zero, so it has no base mark; zero is read in base eight, where no digit is
left to read.

## Results

* `readDigits_toDigits` — the digits of a number give the number.
* `readUnsigned_natural`, `readSigned_decimal` — decimal numbers read back.
* `readUnsigned_hexNumber` — hexadecimal numbers read back.
* `readSigned_hexNumber` — a hexadecimal number, read as one that may have a sign, is refused from
  half the range on.
-/

namespace ArmBackend.Numeral

variable {base limit bits n d : Nat} {c : Char} {s : List Char}

/-! ## Digits -/

theorem digitValue?_digitChar (h : d < 16) : digitValue? (Nat.digitChar d) = some d := by
  have hAll : ∀ d : Fin 16, digitValue? (Nat.digitChar d) = some d.val := by decide
  exact hAll ⟨d, h⟩

/-- The first digit of a number other than zero is not zero. -/
theorem exists_leading (hBase : 1 < base) (hPos : 0 < n) :
    ∃ d rest, 0 < d ∧ d < base ∧ Nat.toDigits base n = Nat.digitChar d :: rest := by
  induction n using Nat.strongRecOn with
  | ind n ih =>
    by_cases hLt : n < base
    · exact ⟨n, [], hPos, hLt, Nat.toDigits_of_lt_base hLt⟩
    · have hLe : base ≤ n := Nat.le_of_not_lt hLt
      obtain ⟨d, rest, hd, hdBase, hDigits⟩ := ih (n / base) (Nat.div_lt_self hPos hBase)
        (Nat.div_pos hLe (by omega))
      refine ⟨d, rest ++ [Nat.digitChar (n % base)], hd, hdBase, ?_⟩
      rw [Nat.toDigits_of_base_le hBase hLe, hDigits, List.cons_append]

theorem mem_toDigits (hBase : 1 < base) (h : c ∈ Nat.toDigits base n) :
    ∃ d < base, c = Nat.digitChar d := by
  induction n using Nat.strongRecOn with
  | ind n ih =>
    by_cases hLt : n < base
    · rw [Nat.toDigits_of_lt_base hLt, List.mem_singleton] at h
      exact ⟨n, hLt, h⟩
    · have hLe : base ≤ n := Nat.le_of_not_lt hLt
      rw [Nat.toDigits_of_base_le hBase hLe, List.mem_append, List.mem_singleton] at h
      rcases h with h | h
      · exact ih (n / base) (Nat.div_lt_self (by omega) hBase) h
      · exact ⟨n % base, Nat.mod_lt n (by omega), h⟩

/-- Signs and underscores are no digits. -/
theorem not_mem_toDigits (hBase : 1 < base) (hSmall : base ≤ 16) (hc : digitValue? c = none) :
    c ∉ Nat.toDigits base n := by
  intro h
  obtain ⟨d, hd, rfl⟩ := mem_toDigits hBase h
  rw [digitValue?_digitChar (by omega)] at hc
  cases hc

theorem readDigits_append (s t : List Char) (value : Nat) :
    readDigits base limit (s ++ t) value =
      (readDigits base limit s value).bind (readDigits base limit t) := by
  induction s generalizing value with
  | nil => rfl
  | cons c rest ih =>
    rw [List.cons_append]
    unfold readDigits
    split
    · exact ih value
    · cases digitValue? c with
      | none => rfl
      | some d =>
        dsimp only
        split
        · rfl
        · split
          · rfl
          · exact ih _

theorem readDigits_digitChar {value : Nat} (hd : d < base) (hSmall : base ≤ 16)
    (hLimit : value * base + d ≤ limit) :
    readDigits base limit [Nat.digitChar d] value = .ok (value * base + d) := by
  have hValue : digitValue? (Nat.digitChar d) = some d := digitValue?_digitChar (by omega)
  have hUnderscore : Nat.digitChar d ≠ '_' := by
    intro hSame
    rw [hSame] at hValue
    cases hValue
  unfold readDigits
  rw [if_neg hUnderscore, hValue]
  dsimp only
  rw [if_neg (Nat.not_le.mpr hd), if_neg (Nat.not_lt.mpr hLimit)]
  rfl

/-- The digits of a number give the number, up to the limit. -/
theorem readDigits_toDigits (hBase : 1 < base) (hSmall : base ≤ 16) (hLimit : n ≤ limit) :
    readDigits base limit (Nat.toDigits base n) 0 = .ok n := by
  induction n using Nat.strongRecOn with
  | ind n ih =>
    by_cases hLt : n < base
    · rw [Nat.toDigits_of_lt_base hLt, readDigits_digitChar hLt hSmall (by omega), Nat.zero_mul,
        Nat.zero_add]
    · have hLe : base ≤ n := Nat.le_of_not_lt hLt
      have hDivide : n / base * base + n % base = n := Nat.div_add_mod' n base
      have hBelow : n / base < n := Nat.div_lt_self (by omega) hBase
      rw [Nat.toDigits_of_base_le hBase hLe, readDigits_append, ih _ hBelow (by omega)]
      show readDigits base limit [Nat.digitChar (n % base)] (n / base) = .ok n
      rw [readDigits_digitChar (Nat.mod_lt n (by omega)) hSmall (by omega), hDivide]

/-- What is read keeps to the limit. -/
theorem readDigits_le {value : Nat} (hValue : value ≤ limit)
    (h : readDigits base limit s value = .ok n) : n ≤ limit := by
  induction s generalizing value with
  | nil =>
    cases h
    exact hValue
  | cons c rest ih =>
    unfold readDigits at h
    split at h
    · exact ih hValue h
    · -- a digit is taken only if the value stays within the limit
      cases hDigit : digitValue? c with
      | none =>
        rw [hDigit] at h
        cases h
      | some d =>
        rw [hDigit] at h
        dsimp only at h
        split at h
        · cases h
        · split at h
          · cases h
          · next hLe => exact ih (Nat.le_of_not_lt hLe) h

/-! ## Numbers without a sign -/

/-- A numeral is read by its base and its digits, and refused for its underscores afterwards. -/
theorem readUnsigned_eq (hText : s ≠ []) : readUnsigned bits s =
    (readDigits (splitBase s).1 (1 <<< bits - 1) (splitBase s).2 0).bind fun value =>
      if '_' ∈ s ∧ underscoresSeparate s = false then .error .malformed else .ok value := by
  unfold readUnsigned
  rw [if_neg (by simpa using hText)]
  dsimp only
  cases readDigits (splitBase s).1 (1 <<< bits - 1) (splitBase s).2 0 with
  | error e => rfl
  | ok value =>
    simp only [bind, Except.bind]
    split <;> rfl

/-- A numeral without underscores is read by its base and its digits alone. -/
theorem readUnsigned_of_split {digits : List Char} (hText : s ≠ [])
    (hSplit : splitBase s = (base, digits)) (hPlain : '_' ∉ s) :
    readUnsigned bits s = readDigits base (1 <<< bits - 1) digits 0 := by
  rw [readUnsigned_eq hText, hSplit]
  simp only [hPlain, false_and, if_false]
  cases readDigits base (1 <<< bits - 1) digits 0 <;> rfl

/-- What is read without a sign keeps to the width. -/
theorem readUnsigned_lt (h : readUnsigned bits s = .ok n) : n < 1 <<< bits := by
  have hPos : 0 < 1 <<< bits := by
    rw [Nat.one_shiftLeft]
    exact Nat.two_pow_pos bits
  have hText : s ≠ [] := by
    rintro rfl
    cases h
  rw [readUnsigned_eq hText] at h
  cases hRead : readDigits (splitBase s).1 (1 <<< bits - 1) (splitBase s).2 0 with
  | error e =>
    rw [hRead] at h
    cases h
  | ok value =>
    have hLe := readDigits_le (Nat.zero_le _) hRead
    rw [hRead, Except.bind] at h
    split at h <;> cases h
    omega

theorem toList_natural (n : Nat) : (natural n).toList = Nat.toDigits 10 n :=
  String.toList_ofList

/-- A decimal number reads back. -/
theorem readUnsigned_natural (h : n < 1 <<< bits) :
    readUnsigned bits (natural n).toList = .ok n := by
  rw [toList_natural]
  by_cases hZero : n = 0
  · subst hZero
    rfl
  · obtain ⟨d, rest, hPos, hd, hDigits⟩ := exists_leading (show 1 < 10 by decide)
      (Nat.pos_of_ne_zero hZero)
    -- a number does not begin with zero, so no base mark is read
    have hMark : splitBase (Nat.toDigits 10 n) = (10, Nat.toDigits 10 n) := by
      have hFirst : Nat.digitChar d ≠ '0' := by
        intro hSame
        have hValue := digitValue?_digitChar (d := d) (by omega)
        rw [hSame] at hValue
        cases hValue
        omega
      rw [hDigits]
      unfold splitBase
      split
      · next hEq => exact absurd (List.cons.inj hEq).1 hFirst
      · next hEq => exact absurd (List.cons.inj hEq).1 hFirst
      · rfl
    rw [readUnsigned_of_split Nat.toDigits_ne_nil hMark
      (not_mem_toDigits (by omega) (by omega) (by decide))]
    exact readDigits_toDigits (by omega) (by omega) (by omega)

theorem toList_hexNumber (n : Nat) :
    (Text.hexNumber n).toList = '0' :: 'x' :: Nat.toDigits 16 n := by
  have hWidth : 1 - (Nat.toDigits 16 n).length = 0 := by
    have hPos := Nat.length_toDigits_pos (b := 16) (n := n)
    omega
  unfold Text.hexNumber Text.hexPlaces
  dsimp only
  simp only [hWidth, List.replicate_zero, List.nil_append, String.toList_append,
    String.toList_ofList]
  rfl

/-- A hexadecimal number reads back. -/
theorem readUnsigned_hexNumber (h : n < 1 <<< bits) :
    readUnsigned bits (Text.hexNumber n).toList = .ok n := by
  have hPlain : '_' ∉ '0' :: 'x' :: Nat.toDigits 16 n := by
    have hDigits : '_' ∉ Nat.toDigits 16 n := not_mem_toDigits (by omega) (by omega) (by decide)
    simp [hDigits]
  have hMark : splitBase ('0' :: 'x' :: Nat.toDigits 16 n) = (16, Nat.toDigits 16 n) := by
    cases hDigits : Nat.toDigits 16 n with
    | nil => exact absurd hDigits Nat.toDigits_ne_nil
    | cons c rest => rfl
  rw [toList_hexNumber, readUnsigned_of_split (List.cons_ne_nil _ _) hMark hPlain]
  exact readDigits_toDigits (by omega) (by omega) (by omega)

/-! ## Numbers with a sign -/

/-- A number without a sign, read as one that may have a sign: it has to be below half the range. -/
theorem readSigned_of_unsigned (hMinus : '-' ∉ s) (hPlus : '+' ∉ s)
    (h : readUnsigned bits s = .ok n) :
    readSigned bits s = if n < 1 <<< (bits - 1) then .ok (n : Int) else .error .outOfRange := by
  have hPositive : readSigned bits s = readWithSign.positive (readUnsigned bits) bits s := by
    unfold readSigned readWithSign
    split
    · exact absurd List.mem_cons_self hMinus
    · exact absurd List.mem_cons_self hPlus
    · rfl
  rw [hPositive]
  unfold readWithSign.positive
  rw [h]
  by_cases hLt : n < 1 <<< (bits - 1)
  · rw [if_pos hLt]
    exact if_neg (Nat.not_le.mpr hLt)
  · rw [if_neg hLt]
    exact if_pos (Nat.le_of_not_lt hLt)

/-- A hexadecimal number, read as one that may have a sign. -/
theorem readSigned_hexNumber (h : n < 1 <<< bits) :
    readSigned bits (Text.hexNumber n).toList =
      if n < 1 <<< (bits - 1) then .ok (n : Int) else .error .outOfRange := by
  have hNoSign : ∀ c, digitValue? c = none → c ∉ (Text.hexNumber n).toList := by
    intro c hc
    rw [toList_hexNumber, List.mem_cons, List.mem_cons]
    rintro (rfl | rfl | hMem)
    · cases hc
    · cases hc
    · exact not_mem_toDigits (by omega) (by omega) hc hMem
  exact readSigned_of_unsigned (hNoSign _ (by decide)) (hNoSign _ (by decide))
    (readUnsigned_hexNumber h)

/-- A decimal number of either sign reads back. -/
theorem readSigned_decimal {v : Int} (hBits : 0 < bits)
    (hLow : -((1 <<< (bits - 1) : Nat) : Int) ≤ v) (hHigh : v < ((1 <<< (bits - 1) : Nat) : Int)) :
    readSigned bits (decimal v).toList = .ok v := by
  have hTwice : 1 <<< bits = 2 * 1 <<< (bits - 1) := by
    obtain ⟨m, rfl⟩ := Nat.exists_eq_add_of_lt hBits
    rw [Nat.one_shiftLeft, Nat.one_shiftLeft, Nat.zero_add, Nat.add_sub_cancel, Nat.pow_succ']
  cases v with
  | ofNat n =>
    -- No digit is a sign, so the text is read without one.
    have hSign : ∀ c, digitValue? c = none → c ∉ (natural n).toList := by
      intro c hc
      rw [toList_natural]
      exact not_mem_toDigits (by omega) (by omega) hc
    have hLt : n < 1 <<< (bits - 1) := by
      rw [Int.ofNat_eq_natCast] at hHigh
      omega
    show readSigned bits (natural n).toList = _
    rw [readSigned_of_unsigned (hSign _ (by decide)) (hSign _ (by decide))
      (readUnsigned_natural (by omega)), if_pos hLt]
    rfl
  | negSucc n =>
    -- A negative number is its sign and the digits behind it.
    have hText : (decimal (.negSucc n)).toList = '-' :: (natural (n + 1)).toList := by
      unfold decimal
      rw [String.toList_append]
      rfl
    have hLe : n + 1 ≤ 1 <<< (bits - 1) := by
      rw [Int.negSucc_eq] at hLow
      omega
    have hRead : readUnsigned bits (natural (n + 1)).toList = .ok (n + 1) :=
      readUnsigned_natural (by omega)
    rw [hText]
    show (readUnsigned bits (natural (n + 1)).toList).bind _ = _
    rw [hRead]
    show (if 1 <<< (bits - 1) < n + 1 then Except.error NumeralError.outOfRange
      else Except.ok (-((n + 1 : Nat) : Int))) = _
    rw [if_neg (Nat.not_lt.mpr hLe)]
    rfl

end ArmBackend.Numeral
