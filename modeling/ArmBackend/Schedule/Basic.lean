import ArmBackend.Graph.Basic

/-!
# Schedules

A schedule is a row of basic blocks and, for each placed node, the block it is placed in. A block
has a head that starts it, the nodes it executes in order, and for a branch or a return the control
node that ends it. Blocks refer to each other by position. Once the blocks are in order
(`Schedule.ordered`) each block but the first has an immediate dominator before it.
-/

namespace ArmBackend

/-- How a block ends. -/
inductive BlockKind
  | none
  | goto
  | branch
  | ret
  deriving DecidableEq, Repr

/-- A basic block. -/
structure Block where
  kind : BlockKind := .none
  /-- The start node, a projection of a branch or a merge. -/
  head : NodeId
  /-- The nodes placed in the block, in the order of execution. -/
  nodes : List NodeId := []
  /-- The branch or return that ends the block. -/
  control : Option NodeId := Option.none
  succ : List Nat := []
  pred : List Nat := []
  /-- The immediate dominator. -/
  dom : Option Nat := Option.none
  /-- The number of blocks that strictly dominate this one. -/
  depth : Nat := 0
  deriving DecidableEq, Repr

/-- Blocks, and where each node is placed. -/
structure Schedule where
  blocks : Array Block := #[]
  home : NodeId → Option Nat := fun _ => Option.none

namespace BlockKind

/-- Every kind of end, in the order of the codes. -/
def all : List BlockKind :=
  [.none, .goto, .branch, .ret]

/-- The name of a kind of end. -/
def name : BlockKind → String
  | .none => "none"
  | .goto => "goto"
  | .branch => "branch"
  | .ret => "return"

/-- The name of the kind of end with a code. -/
def nameOfCode (code : Nat) : String :=
  (all[code]?.map name).getD s!"BlockKind({code})"

end BlockKind

namespace Schedule

/-- The block at a position. -/
def block (s : Schedule) (b : Nat) : Except Fault Block :=
  match s.blocks[b]? with
  | some block => .ok block
  | none => .error .outOfRange

/-- The block a node is placed in. -/
def blockOf (s : Schedule) (id : NodeId) : Option Nat :=
  s.home id

/-- Places a node in a block. -/
def place (s : Schedule) (b : Nat) (id : NodeId) : Schedule :=
  { s with home := fun x => if x = id then some b else s.home x }

/-- Changes the block at a position. -/
def modifyBlock (s : Schedule) (b : Nat) (f : Block → Block) : Schedule :=
  { s with blocks := s.blocks.modify b f }

/-- Adds a block that starts with `head`, and gives its position. -/
def newBlock (s : Schedule) (head : NodeId) : Schedule × Nat :=
  ({ s with blocks := s.blocks.push { head } }, s.blocks.size)

/-- Appends a node to a block and places it there. -/
def append (s : Schedule) (b : Nat) (id : NodeId) : Schedule :=
  (s.place b id).modifyBlock b fun block => { block with nodes := block.nodes ++ [id] }

/-- Adds an edge between two blocks. -/
def link (s : Schedule) (source target : Nat) : Schedule :=
  let linked := s.modifyBlock source fun block => { block with succ := block.succ ++ [target] }
  linked.modifyBlock target fun block => { block with pred := block.pred ++ [source] }

/-- Whether block `a` is `b` or an immediate dominator on the way up from `b`. -/
def dominates (s : Schedule) (a b : Nat) : Bool :=
  climb (s.blocks.size + 1) b
where
  /-- The walk along immediate dominators. -/
  climb : Nat → Nat → Bool
    | 0, _ => false
    | fuel + 1, b =>
      if a = b then true
      else match s.blocks[b]?.bind Block.dom with
        | some d => climb fuel d
        | none => false

end Schedule
end ArmBackend
