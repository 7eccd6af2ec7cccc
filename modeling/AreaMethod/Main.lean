/-
# The program

Reads the problem file, writes the reports and exits with the code of the run.
-/
import AreaMethod.CommandLine.Run

namespace AreaMethod
namespace CommandLine

/-- The text of a file, if it can be loaded. -/
def loadFile (path : String) : IO (Option String) := do
  try return some (← IO.FS.readFile path)
  catch _ => return none

/-- Prints and writes what a run leaves behind, and gives the exit code. -/
def deliverOutcome (o : Outcome) : IO UInt32 := do
  IO.print o.printed
  match o.complaint with
  | some complaint => IO.eprintln complaint
  | none => pure ()
  match o.written with
  | none => return UInt32.ofNat o.code
  | some (path, text) =>
    try
      IO.FS.writeFile path text
      return UInt32.ofNat o.code
    catch _ =>
      IO.eprintln Fault.noFile.message
      return 1

end CommandLine
end AreaMethod

open AreaMethod

def main (args : List String) : IO UInt32 := do
  match Options.parse args with
  | .error e => CommandLine.deliverOutcome (CommandLine.refuse e)
  | .ok o => CommandLine.deliverOutcome (CommandLine.perform o (← CommandLine.loadFile o.file))
