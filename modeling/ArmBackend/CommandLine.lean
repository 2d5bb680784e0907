import ArmBackend.ConfigFile
import ArmBackend.Evaluation.Machine
import ArmBackend.Pipeline
import ArmBackend.Schedule.Printer
import ArmBackend.Stream.Printer

/-!
# Command line

Four commands: `lower` and `select` print the scheduled graph or the code of graph files, `eval`
evaluates a graph file, and `features` prints the target. Flags before the command choose the target
and override what a graph file declares.

How files are read is left open: the commands work in any monad that reads them. What was printed
before a failure stays printed.
-/

namespace ArmBackend.CommandLine

/-- What can be asked for. -/
inductive Command
  | lower
  | select
  | eval
  | features
  deriving DecidableEq, Repr

/-- The name of a command. -/
def Command.name : Command → String
  | .lower => "lower"
  | .select => "select"
  | .eval => "eval"
  | .features => "features"

/-- The values of the flags. -/
structure Flags where
  config : String := ""
  word : Int := 0
  features : String := ""
  verbosity : String := ""
  type : String := "int32"
  deriving DecidableEq, Repr

/-- A command with its flags and arguments. -/
structure Invocation where
  command : Command
  flags : Flags := {}
  arguments : List String := []
  deriving DecidableEq, Repr

/-! ## Arguments -/

/-- Sets the flag with a name. The word width is a plain decimal, and the result type is a flag of
evaluation alone. -/
def Flags.set (f : Flags) (command : Option Command) (name value : String) : Except Fault Flags :=
  match name with
  | "config" | "c" => .ok { f with config := value }
  | "features" => .ok { f with features := value }
  | "verbosity" | "v" => .ok { f with verbosity := value }
  | "word" =>
    match Numeral.readDecimal 64 value.toList with
    | .ok word => .ok { f with word }
    | .error _ => .error (.refused .usage)
  | "type" =>
    if command = some .eval then .ok { f with type := value } else .error (.refused .usage)
  | _ => .error (.refused .usage)

/-- The name and the value of a flag; the value may be the next argument. -/
def splitFlag (s : List Char) : String × Option String :=
  let name := s.takeWhile (· != '=')
  (String.ofList name,
    if name.length < s.length then some (String.ofList (s.drop (name.length + 1))) else none)

/-- Reads a list of arguments, with what was read before. -/
def readArguments : Option Command → Flags → List String → List String → Except Fault Invocation
  | some command, flags, taken, [] => .ok { command, flags, arguments := taken.reverse }
  | none, _, _, [] => .error (.refused .usage)
  | command, flags, taken, a :: rest =>
    match a.toList with
    -- a bare `--` ends the flags: what follows is taken as it is
    | ['-', '-'] =>
      match command with
      | some command => .ok { command, flags, arguments := taken.reverse ++ rest }
      | none => .error (.refused .usage)
    | '-' :: c :: more =>
      let (name, value) := splitFlag (if c = '-' then more else c :: more)
      match value, rest with
      | some v, rest => do readArguments command (← flags.set command name v) taken rest
      | none, v :: rest => do readArguments command (← flags.set command name v) taken rest
      | none, [] => .error (.refused .usage)
    | _ =>
      match command with
      | some command => readArguments (some command) flags (a :: taken) rest
      | none =>
        -- the first word that is no flag names the command
        match [Command.lower, .select, .eval, .features].find? (·.name == a) with
        | some command => readArguments (some command) flags taken rest
        | none => .error (.refused .usage)

/-- Reads the arguments of the program. -/
def parse (arguments : List String) : Except Fault Invocation :=
  readArguments none {} [] arguments

/-! ## Commands -/

section
variable {m : Type → Type} [Monad m] (readFile : String → m (Option String))

/-- Steps of a command: what was printed outlives a failure. -/
abbrev Act (m : Type → Type) := ExceptT Fault (StateT String m)

/-- A result as a step. -/
def Act.ofExcept {α : Type} : Except Fault α → Act m α
  | .ok a => pure a
  | .error f => throw f

/-- Prints a text. -/
def Act.print (text : String) : Act m Unit :=
  modify (· ++ text)

/-- Reads a file. -/
def Act.file (path : String) : Act m (Option String) :=
  ExceptT.lift (StateT.lift (readFile path))

/-- The target: a configuration file in place of `base`, then the flags. -/
def target (flags : Flags) (base : Config) : Act m Config := do
  let c ←
    if flags.config = "" then pure base
    else
      let text? ← .file readFile flags.config
      .ofExcept (inContext "load config" (Config.load flags.config text?))
  -- the flags win over the file
  let c := if flags.word = 0 then c else { c with word := flags.word }
  let features ←
    if flags.features = "" then pure c.features
    else if flags.features = "host" then pure Config.host.features
    else .ofExcept (inContext "features" (Features.read flags.features))
  let c := { c with features }
  .ofExcept c.validate
  return c

/-- The program in a graph file, for the target that the flags choose. -/
def program (flags : Flags) (path : String) : Act m Program := do
  let p ← .ofExcept (inContext s!"read {path}" (GraphFile.load path (← .file readFile path)))
  let config ← target readFile flags p.config
  return { p with config }

/-- Prints the scheduled graph of a file. -/
def lower (flags : Flags) (path : String) : Act m Unit := do
  let p ← program readFile flags path
  let scheduled := Pipeline.schedule p.config p.graph
  let s ← .ofExcept (inContext s!"lower {path}" scheduled.result)
  .print (← .ofExcept (inContext s!"format {path}" (s.text scheduled.graph)))

/-- Whether selection has no code for something. -/
def isUnsupported (f : Fault) : Bool :=
  match f.cause with
  | .unsupported _ => true
  | _ => false

/-- Prints the code of a file. -/
def selectCode (flags : Flags) (path : String) : Act m Unit := do
  let p ← program readFile flags path
  match (Pipeline.compile p.config p.graph).result with
  | .ok s => .print (← .ofExcept (inContext s!"format {path}" s.text))
  | .error f =>
    let context := if isUnsupported f then s!"{path}: not supported on " ++ p.config.features.text
      else s!"compile {path}"
    throw (f.within context)

/-- The text of a result. A tagged value is shown as the number it holds. -/
def resultText (type : MachineType) (h : Heap) (v : BitVec 64) : String :=
  if type = .tagged then
    (h.number v).text ++ " (smi " ++ (if Heap.isSmi v then "true" else "false") ++ ")"
  else Value.text type v

/-- Evaluates a graph file on arguments and prints the result. -/
def evaluate (flags : Flags) : List String → Act m Unit
  | [] => throw (.refused .noGraphFile)
  | path :: texts => do
    let some type := MachineType.ofName? flags.type | throw (.refused (.resultType flags.type))
    let p ← program readFile flags path
    let arguments ← .ofExcept (inContext "args" (p.arguments texts))
    let scheduled := Pipeline.schedule p.config p.graph
    let _ ← .ofExcept (inContext "lower" scheduled.result)
    let machine ← .ofExcept (inContext "eval" (Machine.new p.config.word))
    let (result, machine) := machine.run scheduled.graph arguments
    let v ← .ofExcept (inContext "run" result)
    .print (resultText type machine.heap v ++ "\n")

/-- Prints the target. -/
def showTarget (flags : Flags) : Act m Unit := do
  let c ← target readFile flags .host
  .print (s!"word {c.word}\nfeatures " ++ c.features.text ++ "\n")

/-- Carries out a command. -/
def act (i : Invocation) : Act m Unit :=
  match i.command with
  | .lower => i.arguments.forM (lower readFile i.flags)
  | .select => i.arguments.forM (selectCode readFile i.flags)
  | .eval => evaluate readFile i.flags i.arguments
  | .features => showTarget readFile i.flags

/-- What a run printed, and the fault that ended it, if one did. -/
structure Outcome where
  printed : String := ""
  fault : Option Fault := none

/-- The status that a run ends with: one after a fault, two if it broke everything off. -/
def Outcome.status (o : Outcome) : Nat :=
  match o.fault with
  | none => 0
  | some f => if f.cause.isAbrupt then 2 else 1

/-- Runs the program on its arguments. A fault names the command it happened in. -/
def run (arguments : List String) : m Outcome := do
  match parse arguments with
  | .error f => return { fault := some f }
  | .ok i =>
    let (result, printed) ← (act readFile i).run.run ""
    match result with
    | .ok () => return { printed }
    | .error f => return { printed, fault := some (f.within i.command.name) }

end

end ArmBackend.CommandLine
