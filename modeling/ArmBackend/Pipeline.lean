import ArmBackend.GraphFile.Program
import ArmBackend.Lowering.Pass
import ArmBackend.Schedule.Compute
import ArmBackend.Selection.Run

/-!
# From a graph to code

The stages in order: check the target, check that lowering can be scheduled, lower, schedule and
select. Lowering works on the caller's graph, so every stage answers with the graph as it stands
after it, whether the stage succeeded or not.
-/

namespace ArmBackend.Pipeline

/-- What a stage answers, with the graph as it stands. -/
structure Outcome (α : Type) where
  graph : Graph
  result : Except Fault α

/-- Lowers a graph and schedules it. -/
def schedule (c : Config) (g : Graph) : Outcome Schedule :=
  match (do inContext "config" c.validate
            inContext "lower" (Lowering.checkAnchored g c.word) : Except Fault Unit) with
  | .error f => { graph := g, result := .error f }
  | .ok () =>
    let lowered := Lowering.run g c.word
    match lowered.fault with
    | some f => { graph := lowered.graph, result := .error (f.within "lower") }
    | none =>
      { graph := lowered.graph, result := inContext "schedule" (Schedule.compute lowered.graph) }

/-- Compiles a graph. -/
def compile (c : Config) (g : Graph) : Outcome Stream :=
  let scheduled := schedule c g
  { graph := scheduled.graph
    result := do
      let s ← scheduled.result
      inContext "select" (select scheduled.graph s c.features) }

/-- Compiles the graph file at a path for the target it declares. -/
def compileFile (path : String) (content : Option String) : Except Fault Stream := do
  let p ← inContext "read graph" (GraphFile.load path content)
  (compile p.config p.graph).result

end ArmBackend.Pipeline
