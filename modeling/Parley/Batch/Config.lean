import Parley.Files.Path

/-!
# What a batch works on

A batch compiles the scripts of one directory into another and keeps its stamp
table in a third.
-/

namespace Parley.Batch

/-- The extension of scripts. -/
def scriptExtension : String := "oud"

/-- The extension of artifacts. -/
def artifactExtension : String := "oudh"

/-- The name of the file that stores the stamp table. -/
def tableName : RawText := "meta.txt"

/-- The directories of a batch and how it is carried out. -/
structure Config where
  inputDir : Path
  outputDir : Path
  tableDir : Path
  /-- The number of workers, zero for one per processor. -/
  jobs : Nat := 0
  /-- Whether a script that failed is remembered too, and so passed over until
  it is modified. -/
  rememberFailures : Bool := false
  /-- The number of processors. -/
  processors : Nat := 1
  deriving DecidableEq, Repr

namespace Config

/-- Where the stamp table is stored. -/
def tablePath (config : Config) : Path := config.tableDir.join ⟨tableName⟩

/-- Where the artifact of a script goes: into the output directory, under the
stem of the script. A path without a last name stands in for its stem. -/
def artifactPath (config : Config) (input : Path) : Path :=
  config.outputDir.join ⟨input.stem?.getD input.text ++ "." ++ artifactExtension⟩

/-- The number of workers for so many tasks: never more than tasks, but one. -/
def workerCount (config : Config) (tasks : Nat) : Nat :=
  max 1 (min (if config.jobs = 0 then config.processors else config.jobs) tasks)

end Config

end Parley.Batch
