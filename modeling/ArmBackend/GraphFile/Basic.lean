import ArmBackend.Toml.Schema

/-!
# Graph files

A graph file gives a target, the types of the parameters and the nodes. Nodes refer to each other by
name, in any order; `start` and `p0`, `p1` and so on are names from the beginning.
-/

namespace ArmBackend

namespace GraphFile

/-- A node as it is written. -/
structure NodeEntry where
  name : String := ""
  op : String := ""
  value : List String := []
  effect : List String := []
  control : List String := []
  int : Int := 0
  float : Double := ⟨0⟩
  index : Int := 0
  rep : String := ""
  type : String := ""
  ref : String := ""
  barrier : String := ""
  deriving DecidableEq, Repr

end GraphFile

/-- A graph file. A word width of zero is none given. -/
structure GraphFile where
  word : Int := 0
  features : Features := .none
  params : List String := []
  nodes : List GraphFile.NodeEntry := []
  deriving DecidableEq, Repr

namespace GraphFile

/-- The fields of a node. -/
def NodeEntry.field? : String → Option (Toml.Field NodeEntry)
  | "name" => some (.single .string fun name n => { n with name })
  | "op" => some (.single .string fun op n => { n with op })
  | "value" => some (.texts NodeEntry.value fun value n => { n with value })
  | "effect" => some (.texts NodeEntry.effect fun effect n => { n with effect })
  | "control" => some (.texts NodeEntry.control fun control n => { n with control })
  | "int" => some (.single .int64 fun int n => { n with int })
  | "float" => some (.single .float64 fun float n => { n with float })
  | "index" => some (.single .int fun index n => { n with index })
  | "rep" => some (.single .string fun rep n => { n with rep })
  | "type" => some (.single .string fun type n => { n with type })
  | "ref" => some (.single .string fun ref n => { n with ref })
  | "barrier" => some (.single .string fun barrier n => { n with barrier })
  | _ => none

/-- The fields of the file itself. -/
def field? : String → Option (Toml.Field GraphFile)
  | "word" => some (.single .word fun word f => { f with word })
  | "features" => some (.single .features fun features f => { f with features })
  | "params" => some (.texts GraphFile.params fun params f => { f with params })
  | _ => none

/-- The nodes of a file are a list of records. -/
def schema : Toml.Schema GraphFile NodeEntry where
  field? := field?
  records? := some {
    name := "node"
    type := "gfile.Node"
    get := GraphFile.nodes
    set := fun nodes f => { f with nodes }
    blank := {}
    field? := NodeEntry.field? }

/-- Reads a graph file. -/
def decode (text : String) : Except Fault GraphFile :=
  (schema.decode {} text).mapError fun cause => { cause }

end GraphFile
end ArmBackend
