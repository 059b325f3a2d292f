import Parley.CommandLine
import Parley.Files.Manifest

/-!
# The program

The program reads the manifest of a file tree from the standard input, runs
the command line on that tree and prints its report. The manifest of the tree
that it leaves follows on the standard output.
-/

namespace Parley.Program

/-- The variables that the command line looks at. -/
def variableNames : List String := ["OUD_JOBS", "OUD_CACHE_FAILURES", "RUST_LOG"]

/-- The values of those variables that are set. -/
def environment : IO CommandLine.Environment := do
  let values ← variableNames.mapM fun name => do return (name, ← IO.getEnv name)
  return values.filterMap fun (name, value) => value.map (name, ·)

/-- The lines of a stream up to its end. -/
partial def readLines (stream : IO.FS.Stream) (lines : List String) : IO (List String) := do
  let line ← stream.getLine
  if line.isEmpty then return lines.reverse
  readLines stream (line :: lines)

end Parley.Program

open Parley

/-- Run the command line on the tree of the standard input. -/
def main (arguments : List String) : IO UInt32 := do
  let input ← Program.readLines (← IO.getStdin) []
  let start := Manifest.read (.empty ⟨0, 0⟩) (Text.lines (String.join input).toList)
  let ending := CommandLine.run arguments (← Program.environment) start 1
  IO.eprint ending.err
  IO.print ending.out
  for line in Manifest.lines ending.tree do
    IO.println line
  return UInt32.ofNat ending.exit
