import ArmBackend.Graph.Printer
import ArmBackend.Schedule.Basic

/-!
# Listing of a schedule

One paragraph per block: how it ends, its immediate dominator, its neighbours, and the lines of its
head, its nodes and its control node.
-/

namespace ArmBackend

/-- Block numbers behind a word, or nothing when there are none. -/
def listBlocks (word : String) (blocks : List Nat) : String :=
  if blocks.isEmpty then "" else word ++ String.join (blocks.map fun b => s!" B{b}")

namespace Schedule

/-- The paragraph of the block at a position. -/
def paragraph (g : Graph) (b : Nat) (block : Block) : Except Fault String := do
  let title := s!"B{b}: {block.kind.name}" ++ block.dom.elim "" (fun d => s!" dom B{d}") ++
    listBlocks " pred" block.pred ++ listBlocks " succ" block.succ
  let ids := block.head :: (block.nodes.filter (· ≠ block.head)) ++ block.control.toList
  let lines ← ids.mapM g.line
  return title ++ "\n" ++ String.join (lines.map fun line => "\t" ++ line ++ "\n")

/-- The listing of a scheduled graph. -/
def text (g : Graph) (s : Schedule) : Except Fault String := do
  let paragraphs ← s.blocks.toList.zipIdx.mapM fun (block, b) => paragraph g b block
  return Text.joinWith "\n" paragraphs

end Schedule
end ArmBackend
