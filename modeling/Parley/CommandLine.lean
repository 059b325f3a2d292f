import Parley.Batch.Report
import Parley.LogFilter
import Parley.Text.Decimal

/-!
# The command line

The program takes three directories and refreshes the artifacts of the first
in the second. Two variables of the environment set the number of workers and
whether failures are remembered; a third one sets which remarks are shown on
the error stream. It ends with one if the batch, or any task of it, failed.
-/

namespace Parley.CommandLine

open Batch Text

/-- Why a text is no count. -/
inductive CountFault where
  | empty
  | invalidDigit
  | tooLarge
  deriving DecidableEq, Repr

/-- The wording of a fault. -/
def CountFault.message : CountFault → String
  | empty => "cannot parse integer from empty string"
  | invalidDigit => "invalid digit found in string"
  | tooLarge => "number too large to fit in target type"

/-- The largest count. -/
def countLimit : Nat := 0xFFFFFFFFFFFFFFFF

/-- Read digits onto a count read so far. The first digit that is none, or that
leads past the largest count, decides. -/
def readDigits (count : Nat) : List Char → Except CountFault Nat
  | [] => .ok count
  | c :: cs =>
      match digitValue? c with
      | none => .error .invalidDigit
      | some d =>
          if countLimit < 10 * count + d then .error .tooLarge
          else readDigits (10 * count + d) cs

/-- Read a count. A plus sign may stand in front of the digits. -/
def readCount : List Char → Except CountFault Nat
  | [] => .error .empty
  | ['+'] => .error .invalidDigit
  | '+' :: cs => readDigits 0 cs
  | cs => readDigits 0 cs

/-- The values of the variables of the environment. -/
abbrev Environment := List (String × String)

/-- How many workers the environment asks for, with a remark if it does not
say so properly. -/
def jobs (environment : Environment) : Nat × Log :=
  match environment.lookup "OUD_JOBS" with
  | none => (0, [])
  | some value =>
      match readCount value.toList with
      | .ok count => (count, [])
      | .error fault =>
          (0, [⟨.warn, .command, "Ignoring OUD_JOBS=" ++ value ++ ": " ++ fault.message⟩])

/-- Whether the environment asks to remember failures. -/
def rememberFailures (environment : Environment) : Bool :=
  match environment.lookup "OUD_CACHE_FAILURES" with
  | some value => value ∈ ["1", "true", "yes"]
  | none => false

/-- Which remarks the environment wants to be shown, with warnings if it does
not say so properly. -/
def logFilter (environment : Environment) : LogFilter × List String :=
  match environment.lookup "RUST_LOG" with
  | none => (⟨[], ""⟩, [])
  | some value => LogFilter.read value

/-- A text with blanks behind it up to a width. -/
def pad (width : Nat) (text : String) : String :=
  text ++ String.ofList (List.replicate (width - text.length) ' ')

/-- A log as it is shown. The origins are aligned with the widest one so far. -/
def renderLog (filter : LogFilter) (width : Nat) : Log → Nat × String
  | [] => (width, "")
  | record :: rest =>
      if !filter.shows record then renderLog filter width rest
      else
        let origin := record.origin.label
        let wider := max width origin.length
        let (widest, shown) := renderLog filter wider rest
        (widest, " " ++ pad 5 record.level.name ++ " " ++ pad wider origin ++ " > " ++
          record.message ++ "\n" ++ shown)

/-- What a run of the program leaves behind. -/
structure Ending where
  tree : FileTree
  exit : Nat
  out : String
  err : String

/-- The reminder of how the program is used. -/
def usage : String := "Usage: compile <input_dir> <output_dir> <cache_dir>"

/-- Run a batch and show what there is to show. -/
def runBatch (config : Config) (filter : LogFilter) (opening : Log) (tree : FileTree) : Ending :=
  let run := Batch.run config tree
  let (width, before) := renderLog filter 0 (opening ++ run.log)
  let (_, behind) := renderLog filter width run.closing
  let err := before ++ run.report.err ++ behind
  match run.result with
  | .error fault => ⟨run.tree, 1, run.report.out, err ++ fault.message ++ "\n"⟩
  | .ok outcome => ⟨run.tree, if outcome.hasErrors then 1 else 0, run.report.out, err⟩

/-- Run the program on arguments. -/
def runArguments (arguments : List String) (environment : Environment) (filter : LogFilter)
    (tree : FileTree) (processors : Nat) : Ending :=
  match arguments with
  | [inputDir, outputDir, tableDir] =>
      let (jobs, opening) := jobs environment
      let config : Config :=
        { inputDir := ⟨inputDir⟩
          outputDir := ⟨outputDir⟩
          tableDir := ⟨tableDir⟩
          jobs
          rememberFailures := rememberFailures environment
          processors }
      runBatch config filter opening tree
  | _ => ⟨tree, 1, "", usage ++ "\n"⟩

/-- Run the program. Warnings on the environment come first. -/
def run (arguments : List String) (environment : Environment) (tree : FileTree)
    (processors : Nat) : Ending :=
  let (filter, warnings) := logFilter environment
  let ending := runArguments arguments environment filter tree processors
  { ending with err := String.join (warnings.map (· ++ "\n")) ++ ending.err }

end Parley.CommandLine
