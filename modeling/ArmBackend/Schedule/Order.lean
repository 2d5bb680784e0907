import ArmBackend.Schedule.Basic

/-!
# Order and dominators of blocks

Blocks are put into reverse post-order: the order in which a depth-first walk from the first block
leaves them, read backwards. Blocks the walk does not reach are dropped.

A block `a` dominates `b` when every path from the first block to `b` goes through `a`. The
immediate dominators are found by sweeps over the blocks in that order: the entry of a block becomes
the nearest block that the ways up from its predecessors have in common, until a sweep changes
nothing. Until then the entries may name blocks that do not dominate.
-/

namespace ArmBackend

/-- A depth-first walk: the blocks it has entered, and those it has left, the last one first. -/
structure Walk where
  seen : List Nat := []
  left : List Nat := []
  deriving DecidableEq, Repr

/-- Walks from a block through all blocks not yet entered. The later successors of a block are
taken first, so that the earlier ones stand nearer to it in the reversed order. -/
def Walk.visit (succ : Nat → List Nat) : Nat → Walk → Nat → Walk
  | 0, w, _ => w
  | fuel + 1, w, b =>
    if b ∈ w.seen then w
    else
      let inner := (succ b).reverse.foldl (fun w x => Walk.visit succ fuel w x)
        { w with seen := b :: w.seen }
      { inner with left := b :: inner.left }

/-- The blocks in reverse post-order from block 0, out of `count` blocks. -/
def reversePostorder (succ : Nat → List Nat) (count : Nat) : List Nat :=
  (Walk.visit succ (count + 1) {} 0).left

/-! ## The table of immediate dominators -/

namespace Dominators

/-- The entry of a block: its immediate dominator as far as it is known. The first block has itself
for an entry, a block that no sweep has come to has none. -/
def entry (table : Array (Option Nat)) (b : Nat) : Option Nat :=
  table[b]?.join

/-- The table before the first sweep, for `count` blocks. -/
def initial (count : Nat) : Array (Option Nat) :=
  (Array.replicate count none).setIfInBounds 0 (some 0)

/-- The block above a block. -/
def above (table : Array (Option Nat)) (b : Nat) : Except Fault Nat :=
  match entry table b with
  | some d => .ok d
  | none => .error .outOfRange

/-- The nearest block that the ways up from two blocks have in common. The ways go to lower numbers,
so of two different blocks the one with the higher number goes up. -/
def intersect (table : Array (Option Nat)) : Nat → Nat → Nat → Except Fault Nat
  | 0, _, _ => .error .endless
  | fuel + 1, a, b =>
    if a = b then .ok a
    else if b < a then do intersect table fuel (← above table a) b
    else do intersect table fuel a (← above table b)

/-- The nearest block that the ways up from the predecessors have in common. Predecessors without
an entry are passed over. -/
def nearest (table : Array (Option Nat)) (pred : List Nat) : Except Fault (Option Nat) :=
  pred.foldlM
    (fun common p =>
      match entry table p, common with
      | none, _ => .ok common
      | some _, none => .ok (some p)
      | some _, some d => do return some (← intersect table (2 * table.size) p d))
    none

/-- Gives one block its entry anew; the mark says whether any entry has changed. -/
def refresh (pred : Nat → List Nat) (state : Array (Option Nat) × Bool) (b : Nat) :
    Except Fault (Array (Option Nat) × Bool) := do
  let (table, changed) := state
  let d ← nearest table (pred b)
  return if d = entry table b then (table, changed) else (table.setIfInBounds b d, true)

/-- One sweep over all blocks but the first. -/
def sweep (pred : Nat → List Nat) (table : Array (Option Nat)) :
    Except Fault (Array (Option Nat) × Bool) :=
  (List.range' 1 (table.size - 1)).foldlM (refresh pred) (table, false)

/-- Sweeps until nothing changes. -/
def settle (pred : Nat → List Nat) : Nat → Array (Option Nat) → Except Fault (Array (Option Nat))
  | 0, _ => .error .endless
  | fuel + 1, table => do
    let (table, changed) ← sweep pred table
    if changed then settle pred fuel table else return table

end Dominators

namespace Schedule

/-- The successors of the block at a position. -/
def successors (s : Schedule) (b : Nat) : List Nat :=
  s.blocks[b]?.elim [] Block.succ

/-- The predecessors of the block at a position. -/
def predecessors (s : Schedule) (b : Nat) : List Nat :=
  s.blocks[b]?.elim [] Block.pred

/-- The blocks listed in `order`, renumbered by their position there. Edges to blocks that are not
listed are dropped. -/
def renumber (s : Schedule) (order : List Nat) : Schedule :=
  let position (b : Nat) : Option Nat := order.idxOf? b
  { blocks := (order.filterMap fun b => s.blocks[b]?.map fun block =>
      { block with
        succ := block.succ.filterMap position
        pred := block.pred.filterMap position }).toArray
    home := fun id => (s.home id).bind position }

/-- Puts the immediate dominators of a table into the blocks; the first block has none. -/
def storeDominators (s : Schedule) (table : Array (Option Nat)) : Schedule :=
  { s with blocks := s.blocks.mapIdx fun b block =>
      { block with dom := if b = 0 then none else Dominators.entry table b } }

/-- Makes a block one deeper than its immediate dominator. -/
def setDepth (s : Schedule) (b : Nat) : Schedule :=
  s.modifyBlock b fun block =>
    match block.dom with
    | some d => { block with depth := s.blocks[d]?.elim 0 Block.depth + 1 }
    | none => block

/-- Finds the immediate dominators and the depths of blocks in reverse post-order. -/
def dominators (s : Schedule) : Except Fault Schedule := do
  let count := s.blocks.size
  let table ← Dominators.settle s.predecessors (count * count + 1) (Dominators.initial count)
  return (List.range count).foldl setDepth (s.storeDominators table)

/-- The schedule with its blocks in reverse post-order and their dominators set. -/
def ordered (s : Schedule) : Except Fault Schedule :=
  (s.renumber (reversePostorder s.successors s.blocks.size)).dominators

/-- The ordered schedule, and whether it has every block. -/
def order (s : Schedule) : Except Fault (Schedule × Bool) := do
  let ordered ← s.ordered
  return (ordered, ordered.blocks.size = s.blocks.size)

end Schedule
end ArmBackend
