import ArmBackend.Assembler
import ArmBackend.BitSet
import ArmBackend.CommandLine
import ArmBackend.ConfigFile
import ArmBackend.Double.Basic
import ArmBackend.Double.Reader
import ArmBackend.Double.Shortest
import ArmBackend.Evaluation.Arithmetic
import ArmBackend.Evaluation.Machine
import ArmBackend.Fault
import ArmBackend.Graph.Basic
import ArmBackend.Graph.Index
import ArmBackend.Graph.Matching
import ArmBackend.Graph.Printer
import ArmBackend.Graph.Uses
import ArmBackend.Graph.Verify
import ArmBackend.GraphFile.Basic
import ArmBackend.GraphFile.Program
import ArmBackend.Heap
import ArmBackend.Instruction.Basic
import ArmBackend.Instruction.Condition
import ArmBackend.Instruction.Opcode
import ArmBackend.Instruction.Operand
import ArmBackend.Layout
import ArmBackend.LogRecord
import ArmBackend.Lowering.Fragment
import ArmBackend.Lowering.Pass
import ArmBackend.Main
import ArmBackend.Numeral
import ArmBackend.Operator
import ArmBackend.Pipeline
import ArmBackend.Representation
import ArmBackend.Schedule.Basic
import ArmBackend.Schedule.Compute
import ArmBackend.Schedule.Order
import ArmBackend.Schedule.Printer
import ArmBackend.Schedule.Ready
import ArmBackend.Selection.Access
import ArmBackend.Selection.Basic
import ArmBackend.Selection.Condition
import ArmBackend.Selection.Double
import ArmBackend.Selection.Linkage
import ArmBackend.Selection.Operand2
import ArmBackend.Selection.Run
import ArmBackend.Selection.Word
import ArmBackend.Stream.Basic
import ArmBackend.Stream.Printer
import ArmBackend.Target
import ArmBackend.Text.Layout
import ArmBackend.Text.Printable
import ArmBackend.Text.Quoted
import ArmBackend.Toml.Basic
import ArmBackend.Toml.Date
import ArmBackend.Toml.Field
import ArmBackend.Toml.Number
import ArmBackend.Toml.Quote
import ArmBackend.Toml.Reader
import ArmBackend.Toml.Schema
import ArmBackend.Toml.Scope
import ArmBackend.Value
import ArmBackend.Proofs.Selection.Values
import ArmBackend.Proofs.Selection.Access
import ArmBackend.Proofs.Selection.Advances
import ArmBackend.Proofs.Selection.Conditions
import ArmBackend.Proofs.Selection.Nodes
import ArmBackend.Proofs.Selection.Trace
import ArmBackend.Proofs.Selection.Once
import ArmBackend.Proofs.Selection.Available
import ArmBackend.Proofs.Selection.Ssa
import ArmBackend.Proofs.BitSet
import ArmBackend.Proofs.Cycles
import ArmBackend.Proofs.Settles
import ArmBackend.Proofs.Schedule.Live
import ArmBackend.Proofs.Schedule.Chains
import ArmBackend.Proofs.Schedule.Order
import ArmBackend.Proofs.Schedule.Dominators
import ArmBackend.Proofs.Schedule.Ordered
import ArmBackend.Proofs.Schedule.Blocks
import ArmBackend.Proofs.Schedule.Ready
import ArmBackend.Proofs.Schedule.Least
import ArmBackend.Proofs.Schedule.Places
import ArmBackend.Proofs.Schedule.Placed
import ArmBackend.Proofs.Schedule.Walk
import ArmBackend.Proofs.Legality
import ArmBackend.Proofs.Structure
import ArmBackend.Proofs.Selection.Forms
import ArmBackend.Proofs.Selection.Draft
import ArmBackend.Proofs.Selection.Rules.Words
import ArmBackend.Proofs.Selection.Rules.Nodes
import ArmBackend.Proofs.Selection.Layout
import ArmBackend.Proofs.Schedule.Targets
import ArmBackend.Proofs.Schedule.Unplaced
import ArmBackend.Proofs.Schedule.Computed
import ArmBackend.Proofs.Schedule.ControlGraph
import ArmBackend.Proofs.Selection.WellFormed
import ArmBackend.Proofs.Selection.Joins
import ArmBackend.Proofs.Schedule.Anchors
import ArmBackend.Proofs.Evaluation.Plan
import ArmBackend.Proofs.Evaluation.Answers
import ArmBackend.Proofs.Lowering.Words
import ArmBackend.Proofs.Lowering.Planning
import ArmBackend.Proofs.Lowering.Blocks
import ArmBackend.Proofs.Lowering.Fragments
import ArmBackend.Proofs.Lowering.Boxes
import ArmBackend.Proofs.Lowering.Changes
import ArmBackend.Proofs.Lowering.Rewiring
import ArmBackend.Proofs.Lowering.Chains
import ArmBackend.Proofs.Lowering.Preserved
import ArmBackend.Proofs.Lowering.Exact
import ArmBackend.Proofs.Lowering.Linear
import ArmBackend.Proofs.Lowering.Ordered
import ArmBackend.Proofs.Lowering.Added
import ArmBackend.Proofs.Selection.Calm
import ArmBackend.Proofs.Selection.Effects
import ArmBackend.Proofs.Selection.Emits
import ArmBackend.Proofs.Evaluation.Path
import ArmBackend.Proofs.Lowering.Kept
import ArmBackend.Proofs.Lowering.Scheduled
import ArmBackend.Proofs.Selection.Constants
import ArmBackend.Proofs.Selection.Appended
import ArmBackend.Proofs.Rejection
import ArmBackend.Proofs.Evaluation.Safety
import ArmBackend.Proofs.Evaluation.EffectChains
import ArmBackend.Proofs.Evaluation.Journal
import ArmBackend.Proofs.Schedule.Upward
import ArmBackend.Proofs.Schedule.Building
import ArmBackend.Proofs.Assembler.Operations
import ArmBackend.Proofs.Assembler.Steps
import ArmBackend.Proofs.Assembler.Flow
import ArmBackend.Proofs.Assembler.Nodes
import ArmBackend.Proofs.Assembler.Placing
import ArmBackend.Proofs.Assembler.Effects
import ArmBackend.Proofs.Assembler.Finished
import ArmBackend.Proofs.Assembler.Heads
import ArmBackend.Proofs.Doubles
import ArmBackend.Proofs.Lowering.RoundTrip
import ArmBackend.Proofs.Evaluation.Grown
import ArmBackend.Proofs.Evaluation.Leading
import ArmBackend.Proofs.Lowering.Ahead
import ArmBackend.Proofs.Lowering.Isolated
import ArmBackend.Proofs.Processor
import ArmBackend.Proofs.Selection.Computed
import ArmBackend.Proofs.Selection.Rules.Amounts
import ArmBackend.Proofs.Selection.Rules.Fields
import ArmBackend.Proofs.Selection.Rules.Products
import ArmBackend.Proofs.Quotients
import ArmBackend.Proofs.Selection.Rules.Fallback
import ArmBackend.Proofs.Objects
import ArmBackend.Proofs.Selection.Quiet
import ArmBackend.Proofs.Selection.Linkage
import ArmBackend.Proofs.Programs
import ArmBackend.Proofs.Selection.Outlines
import ArmBackend.Proofs.Exchanged
import ArmBackend.Proofs.Selection.Rules.Total
import ArmBackend.Proofs.Selection.Parallel
import ArmBackend.Proofs.Selection.Rules.Symmetric
import ArmBackend.Proofs.Values
import ArmBackend.Proofs.Pools
import ArmBackend.Proofs.Immediates
import ArmBackend.Proofs.Requests
import ArmBackend.Proofs.Schedule.Filled
import ArmBackend.Proofs.Schedule.Accepted
import ArmBackend.Proofs.Lowering.Rescheduled
