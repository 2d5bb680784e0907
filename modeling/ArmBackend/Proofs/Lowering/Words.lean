import ArmBackend.Evaluation.Machine
import ArmBackend.Lowering.Fragment

/-!
# Tagged words

What the word operators of fragments make of a word, next to what tagging and untagging mean. The two
word widths are looked at one after the other: on 32 bits words are cut, on 64 bits they are not.
-/

namespace ArmBackend

/-! ## Widths of words -/

theorem setWidth_ofInt (x : Int) : (BitVec.ofInt 64 x).setWidth 32 = BitVec.ofInt 32 x := by
  apply BitVec.eq_of_toNat_eq
  simp only [BitVec.toNat_setWidth, BitVec.toNat_ofInt]
  omega

theorem setWidth_toInt (v : BitVec 64) : v.setWidth 32 = BitVec.ofInt 32 v.toInt := by
  rw [← BitVec.signExtend_eq_setWidth_of_le v (by decide)]
  rfl

theorem ofInt_toNat (v : BitVec 32) : BitVec.ofInt 32 (v.toNat : Int) = v := by
  apply BitVec.eq_of_toNat_eq
  simp only [BitVec.toNat_ofInt]
  have := v.isLt
  omega

theorem setWidth_setWidth (v : BitVec 32) : (v.setWidth 64).setWidth 32 = v := by
  apply BitVec.eq_of_toNat_eq
  simp only [BitVec.toNat_setWidth]
  have := v.isLt
  omega

theorem truth_setWidth (b : Bool) : (truth b : BitVec 32).setWidth 64 = truth b := by
  cases b <;> rfl

theorem Heap.isSmi_eq (v : BitVec 64) : Heap.isSmi v = !v.getLsbD 0 := by
  unfold Heap.isSmi Layout.heapObjectTag
  rw [show (1 : BitVec 64) = 1#64 from rfl, BitVec.and_one_eq_setWidth_ofBool_getLsbD]
  cases v.getLsbD 0 <;> rfl

/-- The tag bit as a word. -/
theorem and_one (v : BitVec 64) : v &&& 1 = if Heap.isSmi v then 0 else 1 := by
  rw [Heap.isSmi_eq, show (1 : BitVec 64) = 1#64 from rfl,
    BitVec.and_one_eq_setWidth_ofBool_getLsbD]
  cases v.getLsbD 0 <;> rfl

theorem setWidth_and_one (v : BitVec 64) :
    (v.setWidth 32 &&& 1).setWidth 64 = if Heap.isSmi v then 0 else 1 := by
  have hBit : (v.setWidth 32).getLsbD 0 = v.getLsbD 0 := by simp
  rw [Heap.isSmi_eq, show (1 : BitVec 32) = 1#32 from rfl,
    BitVec.and_one_eq_setWidth_ofBool_getLsbD, hBit]
  cases v.getLsbD 0 <;> rfl

namespace Heap

variable {h : Heap}

theorem toWord_narrow (hl : h.layout = .ofWord 32) (v : BitVec 64) :
    h.toWord v = (v.setWidth 32).setWidth 64 := by
  unfold toWord
  rw [hl, if_neg (by decide)]
  apply BitVec.eq_of_toNat_eq
  -- a mask of ones is a remainder
  have hMask : v.toNat &&& 0xffffffff = v.toNat % 0x100000000 :=
    Nat.and_two_pow_sub_one_eq_mod v.toNat 32
  simp only [BitVec.toNat_and, BitVec.toNat_setWidth]
  show v.toNat &&& 0xffffffff = _
  rw [hMask]
  omega

theorem toWord_wide (hl : h.layout = .ofWord 64) (v : BitVec 64) : h.toWord v = v := by
  unfold toWord
  rw [hl]
  exact if_pos rfl

/-! ## Small integers -/

theorem tag_narrow (hl : h.layout = .ofWord 32) (x : Int) :
    h.tag x = (BitVec.ofInt 32 x <<< 1).setWidth 64 := by
  unfold tag
  rw [toWord_narrow hl, hl]
  show ((BitVec.ofInt 64 x <<< 1).setWidth 32).setWidth 64 = _
  rw [BitVec.setWidth_shiftLeft_of_le (by decide), setWidth_ofInt]

theorem tag_wide (hl : h.layout = .ofWord 64) (x : Int) : h.tag x = BitVec.ofInt 64 x <<< 32 := by
  unfold tag
  rw [toWord_wide hl, hl]
  rfl

theorem isSmi_tag (hl : h.layout = .ofWord 32 ∨ h.layout = .ofWord 64) (x : Int) :
    isSmi (h.tag x) = true := by
  obtain hl | hl := hl
  · rw [tag_narrow hl, isSmi_eq]
    simp
  · rw [tag_wide hl, isSmi_eq]
    simp

theorem untag_narrow (hl : h.layout = .ofWord 32) (v : BitVec 64) :
    h.untag v = ((v.setWidth 32).sshiftRight 1).toInt := by
  unfold untag
  rw [hl]
  exact if_neg (by decide)

theorem untag_wide (hl : h.layout = .ofWord 64) (v : BitVec 64) :
    h.untag v = (v.sshiftRight 32).toInt := by
  unfold untag
  rw [hl]
  exact if_pos rfl

/-- A small integer holds a 32 bit integer. -/
theorem toInt_untag (hl : h.layout = .ofWord 32 ∨ h.layout = .ofWord 64) (v : BitVec 64) :
    (BitVec.ofInt 32 (h.untag v)).toInt = h.untag v := by
  obtain hl | hl := hl
  · rw [untag_narrow hl, BitVec.ofInt_toInt]
  · rw [untag_wide hl, BitVec.toInt_ofInt, BitVec.toInt_sshiftRight, Int.shiftRight_eq_div_pow]
    have hUpper := BitVec.toInt_lt (x := v)
    have hLower := BitVec.le_toInt (x := v)
    simp only [Nat.reduceSub, Int.reducePow, Nat.reducePow, Int.reduceNeg] at *
    rw [Int.bmod_def]
    omega

/-- Adding a word to itself tags it. -/
theorem tag_double (hl : h.layout = .ofWord 32) (x : BitVec 32) :
    h.tag x.toInt = (x + x).setWidth 64 := by
  rw [tag_narrow hl, BitVec.ofInt_toInt]
  congr 1
  apply BitVec.eq_of_toNat_eq
  simp only [BitVec.toNat_shiftLeft, BitVec.toNat_add, Nat.shiftLeft_eq]
  omega

/-! ## Integers that are small -/

theorem isSmi_wide (x : BitVec 32) : (Layout.ofWord 64).isSmi x.toInt = true := by
  have hUpper := BitVec.toInt_lt (x := x)
  have hLower := BitVec.le_toInt (x := x)
  unfold Layout.isSmi
  rw [show (Layout.ofWord 64).smiMin = -2147483648 by decide,
    show (Layout.ofWord 64).smiMax = 2147483647 by decide]
  simp only [decide_eq_true_eq]
  omega

/-- Doubling a word overflows exactly when it is no small integer of 31 bits. -/
theorem isSmi_narrow (x : BitVec 32) :
    ((x + x).toInt != x.toInt + x.toInt) = !(Layout.ofWord 32).isSmi x.toInt := by
  have hUpper := BitVec.toInt_lt (x := x)
  have hLower := BitVec.le_toInt (x := x)
  unfold Layout.isSmi
  rw [show (Layout.ofWord 32).smiMin = -1073741824 by decide,
    show (Layout.ofWord 32).smiMax = 1073741823 by decide]
  -- the sum stays in range just when the integer fits in 31 bits
  by_cases hSmall : -1073741824 ≤ x.toInt ∧ x.toInt ≤ 1073741823
  · have hSum : (x + x).toInt = x.toInt + x.toInt := by
      rw [BitVec.toInt_add, Int.bmod_def]
      omega
    simp [hSum, hSmall]
  · have hSum : (x + x).toInt ≠ x.toInt + x.toInt := by
      rw [BitVec.toInt_add, Int.bmod_def]
      omega
    rw [bne_iff_ne.mpr hSum]
    simp [hSmall]

theorem ule_smiMax {l : Layout} (hl : l = .ofWord 32 ∨ l = .ofWord 64) (x : BitVec 32) :
    x.ule (BitVec.ofInt 32 l.smiMax) = decide ((x.toNat : Int) ≤ l.smiMax) := by
  -- the greatest small integer is not negative, so the word is compared as it is
  obtain rfl | rfl := hl
  · rw [show (Layout.ofWord 32).smiMax = 1073741823 by decide]
    rw [BitVec.ule]
    have : (BitVec.ofInt 32 1073741823).toNat = 1073741823 := by decide
    rw [this]
    apply decide_eq_decide.mpr
    omega
  · rw [show (Layout.ofWord 64).smiMax = 2147483647 by decide]
    rw [BitVec.ule]
    have : (BitVec.ofInt 32 2147483647).toNat = 2147483647 := by decide
    rw [this]
    apply decide_eq_decide.mpr
    omega

/-! ## Pointers -/

/-- Constants hold the size of a box and the place of its number without loss. -/
theorem setWidth_heapNumberOffset {l : Layout} (hl : l = .ofWord 32 ∨ l = .ofWord 64) :
    (BitVec.ofInt 32 l.heapNumberOffset).setWidth 64 = BitVec.ofInt 64 l.heapNumberOffset := by
  obtain rfl | rfl := hl <;> decide

theorem setWidth_heapNumberSize {l : Layout} (hl : l = .ofWord 32 ∨ l = .ofWord 64) :
    (BitVec.ofInt 32 l.heapNumberSize).setWidth 64 = BitVec.ofInt 64 l.heapNumberSize := by
  obtain rfl | rfl := hl <;> decide

/-- Pointers carry the tag bit. -/
theorem isSmi_allocate (hl : h.layout = .ofWord 32 ∨ h.layout = .ofWord 64) (size : BitVec 64) :
    isSmi (h.allocate size).2 = false := by
  show isSmi (h.toWord (h.next ||| Layout.heapObjectTag)) = false
  obtain hl | hl := hl
  · rw [toWord_narrow hl, isSmi_eq]
    simp [Layout.heapObjectTag]
  · rw [toWord_wide hl, isSmi_eq]
    simp [Layout.heapObjectTag]

end Heap
end ArmBackend
