import ArmBackend.CommandLine

/-!
# The program

Reads files, prints what the commands print, and tells a fault on the error stream.
-/

namespace ArmBackend

/-- What a file holds, if it can be read. -/
def readFile? (path : String) : IO (Option String) := do
  try
    return some (← IO.FS.readFile path)
  catch _ => return none

end ArmBackend

/-- Runs the command that the arguments ask for. -/
def main (arguments : List String) : IO UInt32 := do
  let outcome ← ArmBackend.CommandLine.run ArmBackend.readFile? arguments
  IO.print outcome.printed
  if let some f := outcome.fault then
    IO.eprintln ("error: " ++ f.message)
  return outcome.status.toUInt32
