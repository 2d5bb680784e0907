import ArmBackend.Proofs.Lowering.Words
import ArmBackend.Proofs.Numerals
import ArmBackend.Value

/-!
# Values that are written and read

Integers are written in decimal and every value of their type reads back. A tagged word is written
without a sign in base sixteen, but read as an integer that may have one: the words with the highest
bit, which are the negative small integers of 64 bit words, are refused. Words of 32 bits never have
that bit.

## Results

* `read_decimal` — the values of the integer types read back from their text.
* `read_tagged` — a tagged word reads back if its highest bit is clear, and is refused otherwise.
-/

namespace ArmBackend.Value

open Numeral

variable {type : MachineType} {s : String} {v : BitVec 64}

/-! ## Integers -/

/-- The types that are written in decimal. -/
def IsDecimal (type : MachineType) : Prop :=
  type = .int32 ∨ type = .uint32 ∨ type = .int64

/-- Whether a type has a value with these bits: the 32 bit types leave the upper half zero. -/
def Holds (type : MachineType) (v : BitVec 64) : Prop :=
  match type with
  | .int32 | .uint32 => v.toNat < 0x100000000
  | .int64 => True
  | .none | .float64 | .tagged | .bool | .unassigned _ => False

theorem setWidth_of_lt (h : v.toNat < 0x100000000) : (v.setWidth 32).setWidth 64 = v := by
  apply BitVec.eq_of_toNat_eq
  rw [BitVec.toNat_setWidth, BitVec.toNat_setWidth]
  omega

theorem read_int32 (h : v.toNat < 0x100000000) : read .int32 (text .int32 v) = .ok v := by
  have hRead : readSigned 32 (decimal (v.setWidth 32).toInt).toList = .ok (v.setWidth 32).toInt :=
    readSigned_decimal (by decide) (BitVec.le_toInt _) (BitVec.toInt_lt)
  unfold read text
  dsimp only
  rw [hRead]
  show Except.ok ((BitVec.ofInt 32 (v.setWidth 32).toInt).setWidth 64) = _
  rw [BitVec.ofInt_toInt, setWidth_of_lt h]

theorem read_uint32 (h : v.toNat < 0x100000000) : read .uint32 (text .uint32 v) = .ok v := by
  have hRead : readUnsigned 32 (natural (v.setWidth 32).toNat).toList = .ok (v.setWidth 32).toNat :=
    readUnsigned_natural (BitVec.isLt _)
  unfold read text
  dsimp only
  rw [hRead]
  show Except.ok (BitVec.ofNat 64 (v.setWidth 32).toNat) = _
  rw [BitVec.toNat_setWidth, Nat.mod_eq_of_lt h, BitVec.ofNat_toNat, BitVec.setWidth_eq]

theorem read_int64 (v : BitVec 64) : read .int64 (text .int64 v) = .ok v := by
  have hRead : readSigned 64 (decimal v.toInt).toList = .ok v.toInt :=
    readSigned_decimal (by decide) (BitVec.le_toInt _) (BitVec.toInt_lt)
  unfold read text
  dsimp only
  rw [hRead]
  show Except.ok (BitVec.ofInt 64 v.toInt) = _
  rw [BitVec.ofInt_toInt]

/-- What is read is a value of its type. -/
theorem holds_of_read (hType : IsDecimal type) (h : read type s = .ok v) : Holds type v := by
  obtain rfl | rfl | rfl := hType
  · unfold read at h
    dsimp only at h
    cases hRead : readSigned 32 s.toList with
    | error e =>
      rw [hRead] at h
      cases h
    | ok z =>
      rw [hRead] at h
      cases h
      -- a word of thirty-two bits stays one when it is widened
      show ((BitVec.ofInt 32 z).setWidth 64).toNat < _
      rw [BitVec.toNat_setWidth_of_le (by decide)]
      exact BitVec.isLt _
  · unfold read at h
    dsimp only at h
    cases hRead : readUnsigned 32 s.toList with
    | error e =>
      rw [hRead] at h
      cases h
    | ok n =>
      rw [hRead] at h
      cases h
      exact Nat.lt_of_le_of_lt (Nat.mod_le _ _) (readUnsigned_lt hRead)
  · trivial

/-- The values of the integer types read back from their text, and whatever is read for them is
such a value. -/
theorem read_decimal (hType : IsDecimal type) :
    (∀ v, Holds type v → read type (text type v) = .ok v) ∧
      ∀ s v, read type s = .ok v → read type (text type v) = .ok v := by
  have hValues : ∀ v, Holds type v → read type (text type v) = .ok v := by
    intro v hv
    obtain rfl | rfl | rfl := hType
    · exact read_int32 hv
    · exact read_uint32 hv
    · exact read_int64 v
  exact ⟨hValues, fun s v h => hValues v (holds_of_read hType h)⟩

/-- The least number of 32 bits, and a spelling of it that is not the one it is written with. -/
theorem read_decimal_least :
    IsDecimal .int32 ∧ Holds .int32 0x80000000 ∧ text .int32 0x80000000 = "-2147483648" ∧
      read .int32 "-0b1_0000000000000000000000000000000" = .ok 0x80000000 ∧
      read .int32 "-2147483648" = .ok 0x80000000 := by
  have hType : IsDecimal .int32 := .inl rfl
  have hHolds : Holds .int32 0x80000000 := show 0x80000000 < 0x100000000 by decide
  have hText : text .int32 0x80000000 = "-2147483648" := by decide +kernel
  have hSpelling : read .int32 "-0b1_0000000000000000000000000000000" = .ok 0x80000000 := by
    rfl
  refine ⟨hType, hHolds, hText, hSpelling, ?_⟩
  rw [← hText]
  exact (read_decimal hType).2 _ _ hSpelling

/-! ## Tagged words -/

/-- How a word is turned down that is too great for a signed integer. -/
def tooGreat (v : BitVec 64) : Fault :=
  (Fault.refused (.numeral .signed (hexadecimal v) .outOfRange)).within "tagged"

theorem read_text_tagged (v : BitVec 64) :
    read .tagged (text .tagged v) = if v.msb then .error (tooGreat v) else .ok v := by
  have hRead : readSigned 64 (hexadecimal v).toList =
      if v.toNat < 0x8000000000000000 then .ok (v.toNat : Int) else .error .outOfRange :=
    readSigned_hexNumber v.isLt
  unfold read text
  dsimp only
  rw [hRead, BitVec.msb_eq_decide]
  -- the text has no sign, so a word with its top bit set is too great to be read signed
  by_cases hLt : v.toNat < 0x8000000000000000
  · rw [if_pos hLt, if_neg (by simpa using hLt)]
    show Except.ok (BitVec.ofInt 64 (v.toNat : Int)) = _
    rw [BitVec.ofInt_natCast, BitVec.ofNat_toNat, BitVec.setWidth_eq]
  · rw [if_neg hLt, if_pos (by simpa using hLt)]
    rfl

/-- A word that is cut to 32 bits does not have the highest bit. -/
theorem msb_toWord {h : Heap} (hl : h.layout = .ofWord 32) (v : BitVec 64) :
    (h.toWord v).msb = false := by
  rw [Heap.toWord_narrow hl, BitVec.msb_setWidth]
  exact BitVec.getLsbD_of_ge _ _ (by decide)

/-- The highest bit of a small integer of 64 bit words is its sign. -/
theorem msb_tag {h : Heap} (hl : h.layout = .ofWord 64) {z : Int}
    (hz : h.layout.isSmi z = true) : (h.tag z).msb = decide (z < 0) := by
  unfold Layout.isSmi at hz
  rw [hl, show (Layout.ofWord 64).smiMin = -2147483648 by decide,
    show (Layout.ofWord 64).smiMax = 2147483647 by decide, decide_eq_true_eq] at hz
  -- A small integer has 32 bits, so that none is lost in the upper half of the word.
  have hShifted : (BitVec.ofInt 64 z <<< 32).toInt = z * 4294967296 := by
    rw [BitVec.toInt_shiftLeft, BitVec.toNat_ofInt, Nat.shiftLeft_eq, Int.bmod_def]
    omega
  rw [Heap.tag_wide hl, BitVec.msb_eq_toInt, hShifted]
  exact decide_eq_decide.mpr (by omega)

/-- A tagged word reads back if its highest bit is clear, and is refused otherwise. So all words of
32 bits survive, and of the small integers of 64 bit words those that are not negative. -/
theorem read_tagged (h : Heap) (v : BitVec 64) :
    read .tagged (text .tagged v) = (if v.msb then .error (tooGreat v) else .ok v) ∧
      (h.layout = .ofWord 32 →
        read .tagged (text .tagged (h.toWord v)) = .ok (h.toWord v)) ∧
      (h.layout = .ofWord 64 → ∀ z, h.layout.isSmi z = true →
        (read .tagged (text .tagged (h.tag z)) = .ok (h.tag z) ↔ 0 ≤ z)) := by
  refine ⟨read_text_tagged v, ?_, ?_⟩
  · intro hl
    rw [read_text_tagged, msb_toWord hl]
    rfl
  · intro hl z hz
    have hSign := msb_tag hl hz
    rw [read_text_tagged]
    by_cases hNegative : z < 0
    · rw [if_pos (by rw [hSign, decide_eq_true hNegative])]
      exact ⟨nofun, fun hNonneg => absurd hNegative (Int.not_lt.mpr hNonneg)⟩
    · rw [if_neg (by rw [hSign, decide_eq_false hNegative]; decide)]
      exact ⟨fun _ => Int.not_lt.mp hNegative, fun _ => rfl⟩

/-- Both widths at their least small integers, and a tag that is not negative. -/
theorem read_tagged_least :
    read .tagged (text .tagged ((Heap.new (.ofWord 32)).toWord 0x80000000)) =
        .ok ((Heap.new (.ofWord 32)).toWord 0x80000000) ∧
      (Layout.ofWord 64).isSmi (-2147483648) = true ∧
      read .tagged (text .tagged ((Heap.new (.ofWord 64)).tag (-2147483648))) ≠
        .ok ((Heap.new (.ofWord 64)).tag (-2147483648)) ∧
      read .tagged (text .tagged ((Heap.new (.ofWord 64)).tag 2147483647)) =
        .ok ((Heap.new (.ofWord 64)).tag 2147483647) := by
  refine ⟨(read_tagged (Heap.new (.ofWord 32)) 0x80000000).2.1 rfl, by decide, ?_, ?_⟩
  · intro h
    have hWide := (read_tagged (Heap.new (.ofWord 64)) 0).2.2 rfl (-2147483648) (by decide)
    exact absurd (hWide.mp h) (by decide)
  · have hWide := (read_tagged (Heap.new (.ofWord 64)) 0).2.2 rfl 2147483647 (by decide)
    exact hWide.mpr (by decide)

/-- The small integer minus one of 64 bit words is written, and what was written is refused. -/
theorem tagged_minusOne_refused :
    (Heap.new (.ofWord 64)).tag (-1) = 0xffffffff00000000 ∧
      text .tagged 0xffffffff00000000 = "0xffffffff00000000" ∧
      read .tagged "0xffffffff00000000" = .error
        { context := ["tagged"],
          cause := .refused (.numeral .signed "0xffffffff00000000" .outOfRange) } ∧
      ¬∀ v, read .tagged (text .tagged v) = .ok v := by
  have hText : text .tagged 0xffffffff00000000 = "0xffffffff00000000" := by decide +kernel
  have hRead : read .tagged "0xffffffff00000000" = .error
      { context := ["tagged"],
        cause := .refused (.numeral .signed "0xffffffff00000000" .outOfRange) } := rfl
  refine ⟨by decide, hText, hRead, ?_⟩
  intro hAll
  have hOne := hAll 0xffffffff00000000
  rw [hText, hRead] at hOne
  cases hOne

end ArmBackend.Value
