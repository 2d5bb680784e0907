import ArmBackend.Proofs.Lowering.RoundTrip

/-!
# Objects on the heap

The allocation pointer goes up by whole groups of eight bytes and never comes back, so an object
keeps its bytes for itself as long as the pointer stays within the word. A box is written once, when
it is made; all later writes go to objects above it.

`Heap.top` counts bytes in natural numbers. Where it is at most the number of addresses of the word,
nothing wraps around: neither the pointer, which is a 64 bit word for either width, nor the tagged
pointers, which are cut to the word.

## Results

* `next_allocate`, `toNat_allocate` — where an object is, and where the next one will be.
* `objects_between` — the objects of a run lie between the pointer before and the pointer after.
* `memory_below` — a run writes nothing below the pointer it starts with.
* `requests_apart` — objects never overlap, boxes keep their doubles, and tags lose nothing.
-/

namespace ArmBackend.Heap

/-! ## Requests -/

/-- A size rounded up to a multiple of eight. -/
def rounded (size : Nat) : Nat :=
  (size + 7) / 8 * 8

/-- What a heap can be asked for. -/
inductive Request
  /-- An object of so many bytes. -/
  | allocate (size : Nat)
  /-- A box for a double. -/
  | box (x : Double)
  /-- A double as a tagged value, which is a small integer or a box. -/
  | tagged (x : Double)
  deriving DecidableEq, Repr

namespace Request

/-- Whether an object has a byte, and its size is a signed 64 bit number. -/
def Sized : Request → Prop
  | .allocate size => 1 ≤ size ∧ size < 0x8000000000000000
  | .box _ | .tagged _ => True

instance : DecidablePred Sized
  | .allocate _ => inferInstanceAs (Decidable (_ ∧ _))
  | .box _ | .tagged _ => inferInstanceAs (Decidable True)

/-- The heap after a request, and its answer. -/
def serve (r : Request) (h : Heap) : Heap × BitVec 64 :=
  match r with
  | .allocate size => h.allocate (BitVec.ofNat 64 size)
  | .box x => h.box x
  | .tagged x => h.tagged x

/-- The size of the object that a request makes; a small integer is no object. -/
def size? (h : Heap) : Request → Option Nat
  | .allocate size => some size
  | .box _ => some h.layout.heapNumberSize.toNat
  | .tagged x =>
    match h.smiOf? x with
    | some _ => none
    | none => some h.layout.heapNumberSize.toNat

end Request

/-- The heap after requests, one after the other. -/
def serveAll : List Request → Heap → Heap
  | [], h => h
  | r :: rest, h => serveAll rest (r.serve h).1

/-- An object, by its tagged pointer and its size. -/
structure Object where
  pointer : BitVec 64
  size : Nat
  deriving DecidableEq, Repr

namespace Object

/-- The address of the first byte: the pointer without its tag. -/
def start (o : Object) : Nat :=
  (o.pointer &&& ~~~Layout.heapObjectTag).toNat

/-- Whether two objects have no byte in common. -/
def Apart (a b : Object) : Prop :=
  a.start + a.size ≤ b.start ∨ b.start + b.size ≤ a.start

instance (a b : Object) : Decidable (a.Apart b) :=
  inferInstanceAs (Decidable (_ ∨ _))

end Object

/-- The objects that requests make, in their order. -/
def objects : List Request → Heap → List Object
  | [], _ => []
  | r :: rest, h =>
    match r.size? h with
    | some size => ⟨(r.serve h).2, size⟩ :: objects rest (r.serve h).1
    | none => objects rest (r.serve h).1

/-- The two objects that a new heap holds. -/
def booleans (h : Heap) : List Object :=
  [⟨h.trueObject, h.layout.pointerSize.toNat⟩, ⟨h.falseObject, h.layout.pointerSize.toNat⟩]

/-- The bytes that a request takes, with the gap behind the object. -/
def room (h : Heap) (r : Request) : Nat :=
  ((r.size? h).map rounded).getD 0

/-- Where the allocation pointer comes to by requests, counted beyond the word. -/
def top (h : Heap) (rs : List Request) : Nat :=
  h.next.toNat + (rs.map h.room).sum

/-- The number of addresses. -/
def limit (h : Heap) : Nat :=
  1 <<< h.layout.word.toNat

variable {h : Heap} {n size : Nat} {r : Request} {rs : List Request}

/-! ## One object -/

theorem size_le_rounded (size : Nat) : size ≤ rounded size := by
  unfold rounded
  omega

theorem dvd_rounded (size : Nat) : 8 ∣ rounded size :=
  Nat.dvd_mul_left 8 _

/-- A size that was increased by seven is rounded up when its low three bits are cleared. -/
theorem ofNat_rounded (hSize : size < 0x8000000000000000) :
    (BitVec.ofNat 64 size + 7) &&& ~~~7 = BitVec.ofNat 64 (rounded size) := by
  have hSeven : ∀ i < 64, (7 : BitVec 64).getLsbD i = decide (i < 3) := by decide
  -- The mask leaves what a shift by three places to the right and back leaves.
  have hMask (v : BitVec 64) : v &&& ~~~(7 : BitVec 64) = (v >>> 3) <<< 3 := by
    apply BitVec.eq_of_getLsbD_eq
    intro i hi
    rw [BitVec.getLsbD_and, BitVec.getLsbD_not, hSeven i hi, BitVec.getLsbD_shiftLeft,
      BitVec.getLsbD_ushiftRight]
    by_cases hLow : i < 3
    · simp [hLow]
    · simp [hLow, hi, Nat.add_sub_cancel' (Nat.not_lt.mp hLow)]
  -- The size is a signed number, so seven more does not wrap around.
  have hSum : (BitVec.ofNat 64 size + 7).toNat = size + 7 := by
    rw [BitVec.toNat_add, BitVec.toNat_ofNat]
    show (size % 18446744073709551616 + 7) % 18446744073709551616 = size + 7
    omega
  rw [hMask]
  apply BitVec.eq_of_toNat_eq
  rw [BitVec.toNat_shiftLeft, BitVec.toNat_ushiftRight, hSum, BitVec.toNat_ofNat,
    Nat.shiftRight_eq_div_pow, Nat.shiftLeft_eq]
  rfl

/-- Whether the allocation pointer stands at an aligned address, or behind the last one. -/
structure Standing (h : Heap) (n : Nat) : Prop where
  layout : h.layout = .ofWord 32 ∨ h.layout = .ofWord 64
  next : h.next = BitVec.ofNat 64 n
  aligned : 8 ∣ n
  within : n ≤ h.limit

theorem limit_eq (hl : h.layout = .ofWord 32 ∨ h.layout = .ofWord 64) :
    h.limit = 0x100000000 ∨ h.limit = 0x10000000000000000 := by
  unfold limit
  rcases hl with hl | hl <;> rw [hl]
  · exact .inl rfl
  · exact .inr rfl

/-- Cutting to the word keeps the addresses. -/
theorem toWord_ofNat (hl : h.layout = .ofWord 32 ∨ h.layout = .ofWord 64) (hn : n < h.limit) :
    h.toWord (BitVec.ofNat 64 n) = BitVec.ofNat 64 n := by
  rcases hl with hl | hl
  · rw [toWord_narrow hl]
    apply BitVec.eq_of_toNat_eq
    have hLimit : h.limit = 0x100000000 := by
      unfold limit
      rw [hl]
      rfl
    simp only [BitVec.toNat_setWidth, BitVec.toNat_ofNat]
    omega
  · exact toWord_wide hl _

/-- A pointer is the address with the tag bit; the address is got back by clearing it. -/
theorem toNat_pointer (hs : Standing h n) (hn : n < h.limit) (size : BitVec 64) :
    (h.allocate size).2.toNat = n + 1 ∧ Object.start ⟨(h.allocate size).2, n⟩ = n := by
  have hEven := hs.aligned
  have hLimit := limit_eq hs.layout
  have hAddress : (BitVec.ofNat 64 n).toNat = n := by
    rw [BitVec.toNat_ofNat]
    omega
  -- The address is even, so the tag bit is free.
  have hFree : (BitVec.ofNat 64 n).getLsbD 0 = false := by
    rw [BitVec.getLsbD_ofNat, Nat.testBit_zero]
    simp
    omega
  have hTag : BitVec.ofNat 64 n ||| Layout.heapObjectTag = BitVec.ofNat 64 (n + 1) := by
    rw [BitVec.ofNat_add]
    refine (BitVec.add_eq_or_of_and_eq_zero _ _ ?_).symm
    show BitVec.ofNat 64 n &&& 1 = 0
    rw [and_one, isSmi_eq, hFree]
    rfl
  have hPointer : (h.allocate size).2 = BitVec.ofNat 64 (n + 1) := by
    show h.toWord (h.next ||| Layout.heapObjectTag) = _
    rw [hs.next, hTag, toWord_ofNat hs.layout (by omega)]
  refine ⟨?_, ?_⟩
  · rw [hPointer, BitVec.toNat_ofNat]
    omega
  · have hOne : ∀ i < 64, (1 : BitVec 64).getLsbD i = decide (i = 0) := by decide
    -- The tag is the lowest bit, which the address itself does not have.
    have hClear : BitVec.ofNat 64 (n + 1) &&& ~~~Layout.heapObjectTag = BitVec.ofNat 64 n := by
      rw [← hTag]
      apply BitVec.eq_of_getLsbD_eq
      intro i hi
      rw [BitVec.getLsbD_and, BitVec.getLsbD_or, BitVec.getLsbD_not]
      unfold Layout.heapObjectTag
      rw [hOne i hi]
      by_cases hZero : i = 0
      · rw [hZero, hFree]
        rfl
      · simp [hZero, hi]
    unfold Object.start
    rw [hPointer, hClear, hAddress]

/-- The pointer goes up by the size and what is missing to the next multiple of eight. -/
theorem allocate_standing (hs : Standing h n) (hSize : size < 0x8000000000000000)
    (hTop : n + rounded size ≤ h.limit) :
    Standing (h.allocate (BitVec.ofNat 64 size)).1 (n + rounded size) where
  layout := hs.layout
  next := by
    show h.next + ((BitVec.ofNat 64 size + 7) &&& ~~~7) = _
    rw [hs.next, ofNat_rounded hSize, BitVec.ofNat_add]
  aligned := Nat.dvd_add hs.aligned (dvd_rounded size)
  within := hTop

/-! ## Boxes -/

/-- A box has a map word and a double behind it. -/
theorem heapNumber_eq (hl : h.layout = .ofWord 32 ∨ h.layout = .ofWord 64) :
    BitVec.ofInt 64 h.layout.heapNumberSize = BitVec.ofNat 64 h.layout.heapNumberSize.toNat ∧
      (h.layout.heapNumberSize.toNat = 12 ∨ h.layout.heapNumberSize.toNat = 16) ∧
      ∃ k : Nat, h.layout.heapNumberOffset = k ∧ k + 1 + 8 = h.layout.heapNumberSize.toNat := by
  rcases hl with hl | hl <;> rw [hl]
  · exact ⟨by decide, by decide, 3, by decide, by decide⟩
  · exact ⟨by decide, by decide, 7, by decide, by decide⟩

/-- The double of a box stands in the box. -/
theorem toNat_payload {o : Object} (hl : h.layout = .ofWord 32 ∨ h.layout = .ofWord 64)
    (hPointer : o.pointer.toNat = n + 1) (hTop : n + h.layout.heapNumberSize.toNat ≤ h.limit) :
    n ≤ (h.toWord (h.payload o.pointer)).toNat ∧
      (h.toWord (h.payload o.pointer)).toNat < n + h.layout.heapNumberSize.toNat := by
  obtain ⟨-, -, k, hOffset, hSize⟩ := heapNumber_eq hl
  have hLimit := limit_eq hl
  -- The offset of the double is counted from the tagged pointer, one above the address.
  have hPayload : h.payload o.pointer = BitVec.ofNat 64 (n + 1 + k) := by
    apply BitVec.eq_of_toNat_eq
    unfold payload
    rw [hOffset, BitVec.ofInt_natCast, BitVec.toNat_add, BitVec.toNat_ofNat, BitVec.toNat_ofNat,
      hPointer]
    omega
  rw [hPayload, toWord_ofNat hl (by omega), BitVec.toNat_ofNat]
  omega

/-! ## One request -/

/-- A request makes an object of a given size, or a box, or gives a small integer and leaves the
heap as it is. -/
theorem serve_cases (r : Request) (h : Heap) :
    (∃ size, r = .allocate size) ∨
      (∃ x, r.serve h = h.box x ∧ r.size? h = some h.layout.heapNumberSize.toNat) ∨
      (r.serve h).1 = h ∧ r.size? h = none := by
  cases r with
  | allocate size => exact .inl ⟨size, rfl⟩
  | box x => exact .inr (.inl ⟨x, rfl, rfl⟩)
  | tagged x =>
    cases hSmi : h.smiOf? x with
    | some z => exact .inr (.inr (by simp [Request.serve, Request.size?, Heap.tagged, hSmi]))
    | none => exact .inr (.inl ⟨x, by simp [Request.serve, Request.size?, Heap.tagged, hSmi]⟩)

theorem layout_serve (r : Request) (h : Heap) : (r.serve h).1.layout = h.layout := by
  rcases serve_cases r h with ⟨size, rfl⟩ | ⟨x, hServe, -⟩ | ⟨hSame, -⟩
  · rfl
  · rw [hServe]
    rfl
  · rw [hSame]

/-- What a request takes depends on the layout alone. -/
theorem room_serve (r : Request) (h : Heap) : (r.serve h).1.room = h.room := by
  funext q
  unfold room Request.size? smiOf?
  rw [layout_serve]

theorem limit_serve (r : Request) (h : Heap) : (r.serve h).1.limit = h.limit := by
  unfold limit
  rw [layout_serve]

/-- What a request does to a heap whose pointer stands at `n`: it moves the pointer over the bytes
that it takes, writes nothing below, and places its object right there. -/
structure Serves (r : Request) (h : Heap) (n : Nat) : Prop where
  standing : Standing (r.serve h).1 (n + h.room r)
  memory : ∀ a : BitVec 64, a.toNat < n → (r.serve h).1.memory a = h.memory a
  object : ∀ size, r.size? h = some size → (r.serve h).2.toNat = n + 1 ∧
    Object.start ⟨(r.serve h).2, size⟩ = n ∧ 0 < size ∧ size ≤ h.room r

theorem Standing.serves (hs : Standing h n) (hSized : r.Sized) (hTop : n + h.room r ≤ h.limit) :
    Serves r h n := by
  rcases serve_cases r h with ⟨size, rfl⟩ | ⟨x, hServe, hSize⟩ | ⟨hSame, hSize⟩
  · -- An object of its own size.
    have hUp := size_le_rounded size
    have hPositive := hSized.1
    have hRoom : h.room (.allocate size) = rounded size := rfl
    rw [hRoom] at hTop
    have hPointer := toNat_pointer hs (by omega) (BitVec.ofNat 64 size)
    refine ⟨allocate_standing hs hSized.2 hTop, fun _ _ => rfl, ?_⟩
    rintro _ ⟨⟩
    exact ⟨hPointer.1, hPointer.2, hPositive, hUp⟩
  · -- A box is an object of a fixed size, into which the double is then written.
    obtain ⟨hNumber, hBytes, -⟩ := heapNumber_eq hs.layout
    have hUp := size_le_rounded h.layout.heapNumberSize.toNat
    have hRoom : h.room r = rounded h.layout.heapNumberSize.toNat := by
      unfold room
      rw [hSize]
      rfl
    rw [hRoom] at hTop
    have hPointer := toNat_pointer hs (by omega) (BitVec.ofInt 64 h.layout.heapNumberSize)
    have hSmall : h.layout.heapNumberSize.toNat < 0x8000000000000000 := by omega
    have hStanding := allocate_standing hs hSmall hTop
    rw [← hNumber] at hStanding
    refine ⟨?_, ?_, ?_⟩
    · rw [hServe, hRoom]
      -- Filling the box in moves neither the pointer nor the layout.
      exact ⟨hStanding.layout, hStanding.next, hStanding.aligned, hStanding.within⟩
    · -- The one write goes to the double of the box, which is not below the pointer.
      intro a ha
      have hPlace := toNat_payload (o := ⟨(h.box x).2, 0⟩) hs.layout hPointer.1 (by omega)
      rw [hServe]
      refine if_neg ?_
      rintro rfl
      exact absurd ha (Nat.not_lt.mpr hPlace.1)
    · rw [hServe, hSize, hRoom]
      rintro _ ⟨⟩
      exact ⟨hPointer.1, hPointer.2, by omega, hUp⟩
  · -- A small integer takes no room.
    have hRoom : h.room r = 0 := by
      unfold room
      rw [hSize]
      rfl
    refine ⟨?_, ?_, ?_⟩
    · rw [hSame, hRoom]
      exact hs
    · intro a _
      rw [hSame]
    · rw [hSize]
      rintro _ ⟨⟩

/-! ## Runs -/

/-- Where a row of requests starts that all find room. -/
structure Fits (h : Heap) (n : Nat) (rs : List Request) : Prop where
  standing : Standing h n
  sized : ∀ r ∈ rs, r.Sized
  top : n + (rs.map h.room).sum ≤ h.limit

namespace Fits

theorem head (hs : Fits h n (r :: rs)) : Serves r h n := by
  have hTop := hs.top
  rw [List.map_cons, List.sum_cons] at hTop
  exact hs.standing.serves (hs.sized r List.mem_cons_self) (by omega)

theorem tail (hs : Fits h n (r :: rs)) : Fits (r.serve h).1 (n + h.room r) rs where
  standing := hs.head.standing
  sized := fun q hq => hs.sized q (List.mem_cons_of_mem r hq)
  top := by
    have hTop := hs.top
    rw [List.map_cons, List.sum_cons] at hTop
    rw [room_serve, limit_serve]
    omega

end Fits

/-- Nothing below the pointer is written. -/
theorem memory_below (hs : Fits h n rs) {a : BitVec 64} (ha : a.toNat < n) :
    (serveAll rs h).memory a = h.memory a := by
  induction rs generalizing h n with
  | nil => rfl
  | cons r rest ih =>
    -- The rest starts from a higher pointer, so the address is below that one too.
    have hRest : (serveAll rest (r.serve h).1).memory a = (r.serve h).1.memory a :=
      ih hs.tail (Nat.lt_of_lt_of_le ha (Nat.le_add_right _ _))
    exact hRest.trans (hs.head.memory a ha)

theorem layout_serveAll (rs : List Request) (h : Heap) : (serveAll rs h).layout = h.layout := by
  induction rs generalizing h with
  | nil => rfl
  | cons r rest ih => exact (ih _).trans (layout_serve r h)

/-- Whether an object is a proper one: its pointer has the tag bit, its address is aligned, and it
has bytes between two addresses. -/
structure Object.Between (o : Object) (low high : Nat) : Prop where
  tag : o.pointer.getLsbD 0 = true
  aligned : 8 ∣ o.start
  size : 0 < o.size
  low : low ≤ o.start
  high : o.start + o.size ≤ high

theorem Object.Between.mono {o : Object} {low low' high high' : Nat} (h : o.Between low high)
    (hLow : low' ≤ low) (hHigh : high ≤ high') : o.Between low' high' :=
  { h with low := Nat.le_trans hLow h.low, high := Nat.le_trans h.high hHigh }

/-- The object that a request makes lies in the bytes that the request takes. -/
theorem Fits.between (hs : Fits h n (r :: rs)) (hSize : r.size? h = some size) :
    Object.Between ⟨(r.serve h).2, size⟩ n (n + h.room r) := by
  obtain ⟨hPointer, hStart, hPositive, hRoom⟩ := hs.head.object size hSize
  have hEven := hs.standing.aligned
  refine ⟨?_, ?_, hPositive, ?_, ?_⟩
  · show (r.serve h).2.getLsbD 0 = true
    rw [BitVec.getLsbD, hPointer, Nat.testBit_zero]
    simp
    omega
  · rwa [hStart]
  · rw [hStart]
  · rw [hStart]
    exact Nat.add_le_add_left hRoom n

/-- The objects of a run lie between the pointer before and the pointer after. -/
theorem objects_between (hs : Fits h n rs) :
    ∀ o ∈ objects rs h, o.Between n (n + (rs.map h.room).sum) := by
  induction rs generalizing h n with
  | nil => exact fun o ho => absurd ho List.not_mem_nil
  | cons r rest ih =>
    intro o ho
    -- A later object lies between the pointer after this request and the last one.
    have hLater : o ∈ objects rest (r.serve h).1 →
        o.Between n (n + ((r :: rest).map h.room).sum) := by
      intro ho
      have hBetween := ih hs.tail o ho
      rw [room_serve] at hBetween
      rw [List.map_cons, List.sum_cons]
      exact hBetween.mono (Nat.le_add_right _ _) (by omega)
    unfold objects at ho
    split at ho
    · next size hSize =>
      rcases List.mem_cons.mp ho with rfl | ho
      · rw [List.map_cons, List.sum_cons]
        exact (hs.between hSize).mono (Nat.le_refl _) (by omega)
      · exact hLater ho
    · exact hLater ho

/-- The objects of a run have no byte in common. -/
theorem pairwise_objects (hs : Fits h n rs) : (objects rs h).Pairwise Object.Apart := by
  induction rs generalizing h n with
  | nil => exact .nil
  | cons r rest ih =>
    unfold objects
    split
    · next size hSize =>
      refine .cons ?_ (ih hs.tail)
      intro o ho
      -- The first object ends where the pointer stands when the second one is made.
      exact .inl (Nat.le_trans (hs.between hSize).high (objects_between hs.tail o ho).low)
    · exact ih hs.tail

/-! ## Boxes in a run -/

theorem serveAll_append (before after : List Request) (h : Heap) :
    serveAll (before ++ after) h = serveAll after (serveAll before h) := by
  induction before generalizing h with
  | nil => rfl
  | cons r rest ih => exact ih _

/-- The requests behind others start where these have left the pointer. -/
theorem Fits.behind {before after : List Request} (hs : Fits h n (before ++ after)) :
    Fits (serveAll before h) (n + (before.map h.room).sum) after := by
  induction before generalizing h n with
  | nil => exact hs
  | cons r rest ih =>
    have hRest := ih hs.tail
    rw [room_serve] at hRest
    rw [List.map_cons, List.sum_cons, ← Nat.add_assoc]
    exact hRest

theorem Fits.front {before after : List Request} (hs : Fits h n (before ++ after)) :
    Fits h n before where
  standing := hs.standing
  sized := fun r hr => hs.sized r (List.mem_append_left after hr)
  top := by
    have hTop := hs.top
    rw [List.map_append, List.sum_append] at hTop
    omega

/-- A tagged value is read from a single place in the memory. -/
theorem number_congr {h' : Heap} (hLayout : h'.layout = h.layout) {p : BitVec 64}
    (hMemory : h'.memory (h.toWord (h.payload p)) = h.memory (h.toWord (h.payload p))) :
    h'.number p = h.number p := by
  have hPlace : h'.toWord (h'.payload p) = h.toWord (h.payload p) := by
    unfold toWord payload
    rw [hLayout]
  have hLoad : h'.load .float64 (h'.payload p) = h.load .float64 (h.payload p) := by
    show h'.memory (h'.toWord (h'.payload p)) = h.memory (h.toWord (h.payload p))
    rw [hPlace, hMemory]
  unfold number untag
  rw [hLayout, hLoad]

/-- A box keeps its double while more objects are made. -/
theorem number_serveAll {x : Double} (hs : Fits h n (.box x :: rs)) :
    (serveAll rs (h.box x).1).number (h.box x).2 = x := by
  have hl := hs.standing.layout
  have hPointer := (hs.head.object _ rfl).1
  have hRoom : h.room (.box x) = rounded h.layout.heapNumberSize.toNat := rfl
  have hUp := size_le_rounded h.layout.heapNumberSize.toNat
  have hTop := hs.top
  rw [List.map_cons, List.sum_cons, hRoom] at hTop
  have hPlace := toNat_payload (h := (h.box x).1) (o := ⟨(h.box x).2, 0⟩) hl hPointer
    (Nat.le_trans (Nat.add_le_add_left hUp n) (by show _ ≤ h.limit; omega))
  have hBelow : ((h.box x).1.toWord ((h.box x).1.payload (h.box x).2)).toNat <
      n + h.room (.box x) := by
    rw [hRoom]
    exact Nat.lt_of_lt_of_le hPlace.2 (Nat.add_le_add_left hUp n)
  -- The double stands below the pointer that the later requests start with.
  have hMemory := memory_below hs.tail hBelow
  exact (number_congr (layout_serveAll rs _) hMemory).trans (number_box hl x).2

/-! ## New heaps -/

/-- A new heap holds the two booleans, and its pointer stands behind them. -/
theorem new_standing {word : Int} (hWord : word = 32 ∨ word = 64) :
    Standing (new (.ofWord word)) 0x1010 ∧
      (∀ o ∈ booleans (new (.ofWord word)), o.Between 0x1000 0x1010) ∧
      (booleans (new (.ofWord word))).Pairwise Object.Apart := by
  rcases hWord with rfl | rfl
  · refine ⟨⟨.inl rfl, by decide, by decide, by decide⟩, ?_, by decide⟩
    intro o ho
    rcases List.mem_pair.mp ho with rfl | rfl <;>
      exact ⟨by decide, by decide, by decide, by decide, by decide⟩
  · refine ⟨⟨.inr rfl, by decide, by decide, by decide⟩, ?_, by decide⟩
    intro o ho
    rcases List.mem_pair.mp ho with rfl | rfl <;>
      exact ⟨by decide, by decide, by decide, by decide, by decide⟩

/-- Objects that have bytes and none in common have different pointers. -/
theorem Object.Apart.pointer_ne {a b : Object} (h : a.Apart b) {low high : Nat}
    (ha : a.Between low high) (hb : b.Between low high) : a.pointer ≠ b.pointer := by
  intro hSame
  have hStart : a.start = b.start := by
    unfold Object.start
    rw [hSame]
  have hPositive := ha.size
  have hPositive' := hb.size
  unfold Object.Apart at h
  omega

/-- As long as the pointer stays within the word, the objects that are made on a new heap are proper
ones, from the booleans on, and no two of them share a byte or a pointer. A box holds its double at
any later time. A small integer is told from a pointer, and it is the integer that was tagged. -/
theorem requests_apart {word : Int} (hWord : word = 32 ∨ word = 64) {rs : List Request}
    (hSized : ∀ r ∈ rs, r.Sized)
    (hTop : (new (.ofWord word)).top rs ≤ (new (.ofWord word)).limit) :
    let h := new (.ofWord word)
    let made := booleans h ++ objects rs h
    (∀ o ∈ made, o.Between 0x1000 (h.top rs)) ∧ made.Pairwise Object.Apart ∧
      (made.Pairwise fun a b => a.pointer ≠ b.pointer) ∧
      (∀ before x after later, rs = before ++ .box x :: (after ++ later) →
        (serveAll (before ++ .box x :: after) h).number ((serveAll before h).box x).2 = x) ∧
      ∀ t : Heap, t.layout = .ofWord word → ∀ v, t.layout.isSmi v = true →
        isSmi (t.tag v) = true ∧ t.untag (t.tag v) = v ∧
          ∀ w, t.layout.isSmi w = true → t.tag v = t.tag w → v = w := by
  intro h made
  obtain ⟨hStanding, hBooleans, hPair⟩ := new_standing hWord
  have hNext : h.next.toNat = 0x1010 := by
    rw [hStanding.next]
    rfl
  have hRuns : h.top rs = 0x1010 + (rs.map h.room).sum := by
    unfold top
    rw [hNext]
  have hs : Fits h 0x1010 rs := ⟨hStanding, hSized, hRuns ▸ hTop⟩
  have hObjects := objects_between hs
  have hBetween : ∀ o ∈ made, o.Between 0x1000 (h.top rs) := by
    intro o ho
    rw [hRuns]
    rcases List.mem_append.mp ho with ho | ho
    · exact (hBooleans o ho).mono (Nat.le_refl _) (Nat.le_add_right _ _)
    · exact (hObjects o ho).mono (by decide) (Nat.le_refl _)
  have hApart : made.Pairwise Object.Apart := by
    refine List.pairwise_append.mpr ⟨hPair, pairwise_objects hs, ?_⟩
    intro a ha b hb
    -- The booleans end where the pointer of a new heap stands.
    exact .inl (Nat.le_trans (hBooleans a ha).high (hObjects b hb).low)
  refine ⟨hBetween, hApart, ?_, ?_, ?_⟩
  · refine hApart.imp_of_mem ?_
    intro a b ha hb hab
    exact hab.pointer_ne (hBetween a ha) (hBetween b hb)
  · -- The requests up to the moment of reading fit in, whatever comes later.
    rintro before x after later rfl
    rw [serveAll_append]
    have hBehind : Fits (serveAll before h) (0x1010 + (before.map h.room).sum)
        ((.box x :: after) ++ later) := hs.behind
    exact number_serveAll hBehind.front
  · -- What is tagged is got back, so equal tags come from equal integers.
    intro t ht v hv
    have hl : t.layout = .ofWord 32 ∨ t.layout = .ofWord 64 := by
      rw [ht]
      exact hWord.imp (congrArg _) (congrArg _)
    refine ⟨isSmi_tag hl v, untag_tag hl hv, ?_⟩
    intro w hw hSame
    rw [← untag_tag hl hv, hSame, untag_tag hl hw]

/-- Requests that fill 32 bit words to the last byte: the box of a double that is not a number, one
byte, negative zero, which needs a box, one, which does not, and all that is left. -/
def filling : List Request :=
  [.box ⟨0x7ff8000000000001⟩, .allocate 1, .tagged ⟨0x8000000000000000⟩,
    .tagged ⟨0x3ff0000000000000⟩, .allocate 0xffffefc8]

theorem requests_apart_filling :
    (∀ r ∈ filling, r.Sized) ∧ (new (.ofWord 32)).top filling = (new (.ofWord 32)).limit ∧
      (objects filling (new (.ofWord 32))).map Object.start = [0x1010, 0x1020, 0x1028, 0x1038] ∧
      (booleans (new (.ofWord 32)) ++ objects filling (new (.ofWord 32))).Pairwise Object.Apart ∧
      (serveAll filling (new (.ofWord 32))).number 0x1011 = ⟨0x7ff8000000000001⟩ := by
  have hSized : ∀ r ∈ filling, r.Sized := by decide
  have hTop : (new (.ofWord 32)).top filling = (new (.ofWord 32)).limit := by decide
  have hRun := requests_apart (.inl rfl) hSized (Nat.le_of_eq hTop)
  exact ⟨hSized, hTop, by decide, hRun.2.1, hRun.2.2.2.1 [] _ (filling.drop 1) [] rfl⟩

end ArmBackend.Heap
