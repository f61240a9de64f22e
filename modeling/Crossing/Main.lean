import Crossing.Cli.Command

/-
The program: reads the file its command line asks for, runs the command and
prints what comes of it.
-/
namespace Crossing

/-- What a user is told who misuses the command line. -/
def usage : String :=
  "usage: crossing [-v] (stub SHORTY | entrypoints | decode HEX | config) [OPTION]..."

/-- The content of the file at a path, if it can be read. -/
def contentOf (path : String) : IO (Option ByteArray) := do
  try
    return some (← IO.FS.readBinFile path)
  catch _ =>
    return none

/-- The files that a command line needs. -/
def filesFor (args : List String) : IO Cli.Files := do
  match (Cli.Command.ofLine args).bind (·.file?) with
  | none => return fun _ => none
  | some path =>
      let content ← contentOf path
      return fun p => if p = path then content else none

end Crossing

def main (args : List String) : IO UInt32 := do
  let outcome := Crossing.Cli.run (← Crossing.filesFor args) args
  match outcome with
  | .printed text => IO.print text
  | .failed _ => IO.eprintln (outcome.reported.getD "")
  | .refused message => IO.eprintln message
  | .misused => IO.eprintln Crossing.usage
  return UInt32.ofNat outcome.status
