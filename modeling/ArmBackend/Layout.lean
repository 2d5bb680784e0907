import ArmBackend.Target

/-!
# Layout of tagged values

A tagged word is a small integer, shifted left past a zero tag bit, or a pointer to a heap object
with the tag bit set. The layout fixes the payload of small integers and the place of the double in
a boxed number; it depends on the word width alone.
-/

namespace ArmBackend

/-- Tagged values and boxed doubles for one word width. -/
structure Layout where
  word : Int
  /-- How far the payload of a small integer is shifted. -/
  smiShift : Nat
  /-- How many bits the payload has. -/
  smiValueSize : Nat
  pointerSize : Int
  deriving DecidableEq, Repr

namespace Layout

/-- The tag bit of heap pointers. -/
def heapObjectTag : BitVec 64 :=
  1

/-- The layout of a word width; every width other than 64 has the payload of 32. -/
def ofWord (word : Int) : Layout :=
  { word
    smiShift := if word = 64 then 32 else 1
    smiValueSize := if word = 64 then 32 else 31
    pointerSize := word.tdiv 8 }

/-- The greatest small integer. -/
def smiMax (l : Layout) : Int :=
  (BitVec.intMax l.smiValueSize).toInt

/-- The least small integer. -/
def smiMin (l : Layout) : Int :=
  (BitVec.intMin l.smiValueSize).toInt

/-- The size of a boxed double: a map word, then the number. -/
def heapNumberSize (l : Layout) : Int :=
  l.pointerSize + 8

/-- Where the number stands, counted from a tagged pointer. -/
def heapNumberOffset (l : Layout) : Int :=
  l.pointerSize - 1

/-- Whether an integer is a small integer. -/
def isSmi (l : Layout) (v : Int) : Bool :=
  decide (l.smiMin ≤ v ∧ v ≤ l.smiMax)

end Layout

/-! ## Well-known names -/

/-- The name of the canonical true object. -/
def trueValue : String := "true_value"

/-- The name of the canonical false object. -/
def falseValue : String := "false_value"

/-- The name of the routine that allocates a boxed double. -/
def allocateHeapNumber : String := "allocate_heap_number"

end ArmBackend
