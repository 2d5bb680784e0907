import ArmBackend.Double.Basic
import ArmBackend.Layout

/-!
# Heap

The memory that graphs are evaluated with: a word for each address, an allocation pointer that only
grows, the two boolean objects and the addresses of external entries. Objects are eight byte aligned
and their pointers carry the tag bit. On words other than 64 bits addresses and tagged values are
cut to 32 bits.
-/

namespace ArmBackend

/-- Memory and what was allocated in it. -/
structure Heap where
  layout : Layout
  memory : BitVec 64 → BitVec 64 := fun _ => 0
  /-- The address of the next object. -/
  next : BitVec 64
  /-- The object that stands for true. -/
  trueObject : BitVec 64 := 0
  /-- The object that stands for false. -/
  falseObject : BitVec 64 := 0
  /-- The external entries that were asked for, in that order. -/
  externals : List String := []
  /-- How many objects were allocated, the booleans apart. -/
  allocs : Nat := 0

namespace Heap

/-- Where the first object is. -/
def base : BitVec 64 :=
  0x1000

/-- A value cut to the word width. -/
def toWord (h : Heap) (v : BitVec 64) : BitVec 64 :=
  if h.layout.word = 64 then v else v &&& 0xffffffff

/-- Allocates an object of `size` bytes, rounded up to a multiple of eight. -/
def allocate (h : Heap) (size : BitVec 64) : Heap × BitVec 64 :=
  ({ h with next := h.next + ((size + 7) &&& ~~~7), allocs := h.allocs + 1 },
    h.toWord (h.next ||| Layout.heapObjectTag))

/-- A fresh heap that holds the booleans. -/
def new (l : Layout) : Heap :=
  let size := BitVec.ofInt 64 l.pointerSize
  let (h, trueObject) := ({ layout := l, next := base } : Heap).allocate size
  let (h, falseObject) := h.allocate size
  { h with trueObject, falseObject, allocs := 0 }

/-- Reads a representation at an address. -/
def load (h : Heap) (rep : Rep) (address : BitVec 64) : BitVec 64 :=
  let v := h.memory (h.toWord address)
  match rep with
  | .bit | .word8 => v &&& 0xff
  | .word16 => v &&& 0xffff
  | .word32 => v &&& 0xffffffff
  | .tagged => h.toWord v
  | .none | .word64 | .float64 | .unassigned _ => v

/-- Writes a word at an address. -/
def store (h : Heap) (address v : BitVec 64) : Heap :=
  { h with memory := fun a => if a = h.toWord address then v else h.memory a }

/-- The address of the number in a box. -/
def payload (h : Heap) (pointer : BitVec 64) : BitVec 64 :=
  pointer + BitVec.ofInt 64 h.layout.heapNumberOffset

/-- Allocates a box that holds a double. -/
def box (h : Heap) (x : Double) : Heap × BitVec 64 :=
  let (h, p) := h.allocate (BitVec.ofInt 64 h.layout.heapNumberSize)
  (h.store (h.payload p) x.bits, p)

/-- Whether a tagged value is a small integer. -/
def isSmi (v : BitVec 64) : Bool :=
  v &&& Layout.heapObjectTag == 0

/-- An integer as a small integer, whether it is in range or not. -/
def tag (h : Heap) (v : Int) : BitVec 64 :=
  h.toWord (BitVec.ofInt 64 v <<< h.layout.smiShift)

/-- The integer that a small integer holds. -/
def untag (h : Heap) (v : BitVec 64) : Int :=
  if h.layout.word = 64 then (v.sshiftRight h.layout.smiShift).toInt
  else ((v.setWidth 32).sshiftRight h.layout.smiShift).toInt

/-- The number that a tagged value holds. -/
def number (h : Heap) (v : BitVec 64) : Double :=
  if isSmi v then .ofInt (h.untag v) else ⟨h.load .float64 (h.payload v)⟩

/-- The small integer that a double is equal to, if there is one; negative zero has none. -/
def smiOf? (h : Heap) (x : Double) : Option Int :=
  match x.toInt? with
  | some z => if h.layout.isSmi z && !(x.isZero && x.isNegative) then some z else none
  | none => none

/-- A double as a tagged value: a small integer if it is one, a box otherwise. -/
def tagged (h : Heap) (x : Double) : Heap × BitVec 64 :=
  match h.smiOf? x with
  | some z => (h, h.tag z)
  | none => h.box x

/-- The address of an external entry. -/
def external (h : Heap) (name : String) : Heap × BitVec 64 :=
  let address (index : Nat) : BitVec 64 := 0xe000 + BitVec.ofNat 64 (16 * index)
  match h.externals.idxOf? name with
  | some index => (h, address index)
  | none => ({ h with externals := h.externals ++ [name] }, address h.externals.length)

end Heap
end ArmBackend
