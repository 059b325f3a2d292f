import Parley.Batch.Outcome

/-!
# Reporting a batch

A report has one coloured line per script. Failures go to the error stream and
everything else to the output stream. Paths below the working directory are
shown relative to it.
-/

namespace Parley.Batch

/-- The text for the two streams. -/
structure Report where
  out : String := ""
  err : String := ""
  deriving DecidableEq, Repr

namespace Report

/-- The colours of a report. -/
inductive Colour where
  | red
  | green
  | yellow
  | magenta
  | cyan
  deriving DecidableEq, Repr

/-- The number by which a terminal knows a colour. -/
def Colour.code : Colour → String
  | red => "31"
  | green => "32"
  | yellow => "33"
  | magenta => "35"
  | cyan => "36"

/-- A text in a colour. -/
def paint (colour : Colour) (text : String) : String :=
  "\x1b[0;" ++ colour.code ++ "m" ++ text ++ "\x1b[0m"

/-- Two reports, one after the other. -/
def append (first second : Report) : Report :=
  ⟨first.out ++ second.out, first.err ++ second.err⟩

/-- The line of an unchanged script. -/
def ofUnchanged (shown : String) : Report :=
  { out := paint .cyan ("Skipping " ++ shown ++ " (unchanged)") ++ "\n" }

/-- The line of a batch without tasks. -/
def upToDate : Report := { out := paint .cyan "All files are up to date" ++ "\n" }

/-- The line of a task, given how paths are shown, its number and the number of
all tasks. -/
def ofResult (shown : Path → String) (total number : Nat) (result : TaskResult) : Report :=
  match result.fault with
  | some fault =>
      { err := paint .red ("Error processing " ++ shown result.task.input ++ ": " ++
          fault.message) ++ "\n" }
  | none =>
      { out := paint .magenta ("[" ++ toString number ++ "/" ++ toString total ++ "]") ++ "  " ++
          paint .yellow (shown result.task.input) ++ " " ++ paint .cyan "->" ++ " " ++
          paint .green (shown result.task.output) ++ "\n" }

/-- All lines, one after the other. -/
def concat (reports : List Report) : Report := reports.foldr append {}

end Report

/-- The report of a batch, for someone who works at a location. -/
def Outcome.report (outcome : Outcome) (home : Location) : Report :=
  let shown (path : Path) : String := (path.relativeTo home.reverse).shown
  let skipped := outcome.unchanged.map fun path => Report.ofUnchanged (shown path)
  let tasks :=
    if outcome.results.isEmpty then [Report.upToDate]
    else (outcome.results.zipIdx 1).map fun (result, number) =>
      Report.ofResult shown outcome.results.length number result
  Report.concat (skipped ++ tasks)

/-- What a whole batch leaves behind. -/
structure Run where
  tree : FileTree
  /-- The remarks in front of the report. -/
  log : Log
  report : Report
  /-- The remarks behind the report. -/
  closing : Log
  result : Except Fault Outcome

/-- Plan a batch, carry it out, report it and store its stamps. -/
def run (config : Config) (tree : FileTree) : Run :=
  let planned := plan config tree
  match planned.value with
  | .error fault => ⟨planned.tree, planned.log, {}, [], .error fault⟩
  | .ok plan =>
      let executed := plan.execute planned.tree
      let report := executed.value.report executed.tree.home
      let saved := executed.value.persist executed.tree
      ⟨saved.tree, planned.log ++ executed.log, report, saved.log,
        saved.value.map fun _ => executed.value⟩

end Parley.Batch
