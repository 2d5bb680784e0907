import ArmBackend.Fault

/-!
# Sets of small numbers

A set of natural numbers as a row of 64 bit words. A fresh set has no words at all and gets at least
two with its first write, so that a set which was never written can be told from one that was
emptied. Keys given from outside are integers; a negative key is in no set and cannot be written.

The view of a set is `BitSet.mem`, and `BitSet.toList` lists the members in increasing order. Walks
go through a word by its least bit, which they drop, so that gaps between members cost nothing.
-/

namespace ArmBackend

/-- A set of natural numbers. -/
structure BitSet where
  words : Array (BitVec 64) := #[]
  deriving DecidableEq, Repr

namespace BitSet

/-- The set that was never written. -/
def empty : BitSet :=
  {}

/-- An empty set with room for the keys below `n`. -/
def withCapacity (n : Int) : BitSet :=
  { words := Array.replicate (max 2 ((n + 63).tdiv 64).toNat) 0 }

/-- The word at an index; beyond the last there are only zeros. -/
def word (s : BitSet) (i : Nat) : BitVec 64 :=
  s.words[i]?.getD 0

/-- Whether `k` is in the set. -/
def mem (s : BitSet) (k : Nat) : Bool :=
  (s.word (k / 64)).getLsbD (k % 64)

/-- The same set with at least `n` words, and at least two. -/
def grow (s : BitSet) (n : Nat) : BitSet :=
  { words := s.words ++ Array.replicate (max 2 n - s.words.size) 0 }

/-- The set with `k`. -/
def insert (s : BitSet) (k : Nat) : BitSet :=
  { words := (s.grow (k / 64 + 1)).words.modify (k / 64) fun w => w ||| BitVec.twoPow 64 (k % 64) }

/-- The set without `k`. -/
def erase (s : BitSet) (k : Nat) : BitSet :=
  { words := s.words.modify (k / 64) fun w => w &&& ~~~(BitVec.twoPow 64 (k % 64)) }

/-- The members of either set. -/
def union (s t : BitSet) : BitSet :=
  { words := (s.grow t.words.size).words.mapIdx fun i w => w ||| t.word i }

/-- The members of `s` that are not in `t`. -/
def diff (s t : BitSet) : BitSet :=
  { words := s.words.mapIdx fun i w => w &&& ~~~(t.word i) }

/-- The set with every member removed; the words stay. -/
def clear (s : BitSet) : BitSet :=
  { words := s.words.map fun _ => 0 }

/-! ## Walks -/

/-- A word without its least bit. -/
def dropLeast (w : BitVec 64) : BitVec 64 :=
  w &&& ~~~(BitVec.twoPow 64 w.ctz.toNat)

theorem dropLeast_lt {w : BitVec 64} (h : w ≠ 0) : (dropLeast w).toNat < w.toNat := by
  have hBit : w.getLsbD w.ctz.toNat = true := BitVec.getLsbD_true_ctz_of_ne_zero h
  have hNe : (dropLeast w).toNat ≠ w.toNat := by
    intro hSame
    have hGone : (dropLeast w).getLsbD w.ctz.toNat = false := by simp [dropLeast]
    rw [BitVec.eq_of_toNat_eq hSame, hBit] at hGone
    cases hGone
  have hLe : (dropLeast w).toNat ≤ w.toNat := by
    unfold dropLeast
    rw [BitVec.toNat_and]
    exact Nat.and_le_left
  exact Nat.lt_of_le_of_ne hLe hNe

/-- Goes through the members of the `i`-th word of a row, least first, until `f` asks to stop. Tells
whether it got to the end. -/
def walkWord {σ : Type} (f : σ → Nat → σ × Bool) (i : Nat) (w : BitVec 64) (state : σ) : σ × Bool :=
  if _ : w = 0 then (state, true)
  else
    let (state, more) := f state (i * 64 + w.ctz.toNat)
    if more then walkWord f i (dropLeast w) state else (state, false)
termination_by w.toNat
decreasing_by exact dropLeast_lt ‹_›

/-- Goes through the members of the words of a row from the `i`-th on. -/
def walkWords {σ : Type} (f : σ → Nat → σ × Bool) : Nat → List (BitVec 64) → σ → σ × Bool
  | _, [], state => (state, true)
  | i, w :: rest, state =>
    let (state, more) := walkWord f i w state
    if more then walkWords f (i + 1) rest state else (state, false)

/-- Goes through the members in increasing order until `f` asks to stop. -/
def foldWhile {σ : Type} (s : BitSet) (f : σ → Nat → σ × Bool) (init : σ) : σ :=
  (walkWords f 0 s.words.toList init).1

/-- The members in increasing order. -/
def toList (s : BitSet) : List Nat :=
  (s.foldWhile (fun out k => (out.push k, true)) #[]).toList

/-- The number of members. -/
def size (s : BitSet) : Nat :=
  s.words.foldl (fun count w => count + w.cpop.toNat) 0

/-- The least member of the words of a row from the `i`-th on. -/
def firstFrom : Nat → List (BitVec 64) → Option Nat
  | _, [] => none
  | i, w :: rest => if w = 0 then firstFrom (i + 1) rest else some (i * 64 + w.ctz.toNat)

/-- The least member. -/
def first? (s : BitSet) : Option Nat :=
  firstFrom 0 s.words.toList

/-- The greatest member of the first `n` words. -/
def lastBelow (s : BitSet) : Nat → Option Nat
  | 0 => none
  | i + 1 => if s.word i = 0 then s.lastBelow i else some (i * 64 + (64 - (s.word i).clz.toNat - 1))

/-- The greatest member. -/
def last? (s : BitSet) : Option Nat :=
  s.lastBelow s.words.size

/-- One more than the greatest member, zero for an empty set. -/
def bound (s : BitSet) : Nat :=
  s.last?.elim 0 (· + 1)

/-- A set with the same members and words of its own. -/
def copy (s : BitSet) : BitSet :=
  (withCapacity s.bound).union s

/-! ## Keys from outside -/

/-- Whether an integer key is in the set. -/
def contains (s : BitSet) (k : Int) : Bool :=
  decide (0 ≤ k) && s.mem k.toNat

/-- The set with an integer key. -/
def insertKey (s : BitSet) (k : Int) : Except Fault BitSet :=
  if k < 0 then .error .outOfRange else .ok (s.insert k.toNat)

/-- The set with several integer keys. -/
def insertKeys (s : BitSet) (ks : List Int) : Except Fault BitSet :=
  ks.foldlM insertKey s

/-- The set without an integer key. A set that was never written has no word to touch, so a key
whose word index rounds to zero is passed over there. -/
def eraseKey (s : BitSet) (k : Int) : Except Fault BitSet :=
  if 0 ≤ k then .ok (s.erase k.toNat)
  else if -64 < k ∧ s.words.isEmpty then .ok s
  else .error .outOfRange

/-- Whether an integer key was in the set, and the set with it. -/
def testAndInsert (s : BitSet) (k : Int) : Except Fault (Bool × BitSet) :=
  if s.contains k then .ok (true, s) else do return (false, ← s.insertKey k)

end BitSet
end ArmBackend
