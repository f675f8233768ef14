import Destack.CommandLine.Run

/-!
# The command

Reads the code of a method from a file or from standard input and prints one of its listings.
-/

namespace Destack.CommandLine

/-- Bytes of the code file, if it can be read, or of standard input. -/
def readInput (path : Option String) : IO (Option ByteArray) :=
  match path with
  | some p => try some <$> IO.FS.readBinFile p catch _ => pure none
  | none => do
    let stdin ← IO.getStdin
    some <$> stdin.readBinToEnd

/-- Prints what a run of the command prints and ends with its status. -/
def finish (outcome : Outcome) : IO UInt32 := do
  IO.print outcome.stdout
  IO.eprint outcome.stderr
  return UInt32.ofNat outcome.status

end Destack.CommandLine

open Destack.CommandLine in
/-- Runs the command on its arguments. -/
def main (args : List String) : IO UInt32 := do
  match Options.ofArgs args with
  | .error e => finish (.usage e)
  | .ok options =>
    match ← readInput options.path with
    | some bytes => finish (options.run bytes.data.toList)
    | none => finish .missingFile
