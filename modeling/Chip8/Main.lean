import Chip8.CommandLine.Parser
import Chip8.Launch.Stretch

/-!
# The program

Reads the file, prints what a session reports and ends with its exit status. The session
is taken in stretches and each is printed when it is over, so a program that never halts
is followed as it goes. What is printed and with which status it ends is decided by
`Stretch`, and only the printing is left to be done here.
-/

namespace Chip8

/-- How the program is used. -/
def usage : String :=
  "usage: chip8 [-h] [-n CYCLES] [-l] [--stack_quirks 0|1] [--block_quirks 0|1] [-d] filename"

/-- Reads the file with a program. -/
def readProgram (name : String) : IO (Except FileError (List UInt8)) :=
  try
    return .ok (← IO.FS.readBinFile name).toList
  catch
    | .noFileOrDirectory .. => return .error .missing
    | _ => return .error .directory

/-- Prints reports. -/
def printEntries (es : List Entry) : IO Unit := es.forM fun e => IO.print e.line

/-- Writes the reports of one stretch after the other until there is an exit status. -/
def follow (opening : Stretch) : IO Nat :=
  IO.iterate opening fun s => do
    printEntries s.entries
    return s.next.map Ongoing.stretch id

/-- What is told about an error that ends the program. -/
def errorText (name : String) : SessionError → String
  | .file .missing => "cannot find " ++ name
  | .file .directory => "cannot read " ++ name
  | e => e.message?.getD ""

/-- Carries out a command line that was understood. -/
def carryOut (a : CommandLine.Arguments) : IO UInt32 := do
  IO.println banner
  let program ← readProgram a.filename
  match Plan.ofOptions (fun _ => program) a.options with
  | .error e =>
    IO.eprintln (errorText a.filename e)
    return 1
  | .ok plan => return (← follow plan.opening).toUInt32

end Chip8

/-- The program. -/
def main (words : List String) : IO UInt32 := do
  match Chip8.CommandLine.parse words with
  | .ok arguments => Chip8.carryOut arguments
  | .error stop =>
    match stop with
    | .help => IO.println Chip8.usage
    | .usage => IO.eprintln Chip8.usage
    return stop.status.toUInt32
