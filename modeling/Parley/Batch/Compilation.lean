import Parley.Artifact.Basic
import Parley.Files.Tree
import Parley.Log
import Parley.Script.Basic

/-!
# Compiling script files

A script file is read, its dialogue assembled, and the artifact written over
whatever the output file held before. Nothing is written when the script
cannot be read or has an error, so an older artifact survives.
-/

namespace Parley

/-- What an action on a file tree leaves behind. -/
structure Effect (α : Type) where
  tree : FileTree
  log : Log
  value : α

/-- Why a script file was not compiled. -/
inductive CompileFault where
  | file (path : Path) (fault : FileFault)
  | script (error : Script.Error)
  deriving DecidableEq, Repr

/-- The wording of a fault. -/
def CompileFault.message : CompileFault → String
  | file path fault => path.shown ++ ": " ++ fault.message
  | script error => error.message

namespace FileTree

/-- Read a script file. Its errors speak of the path as it is shown, and the
stem of the file, as it is shown, is the name of a dialogue that has none. -/
def readDialogue (tree : FileTree) (path : Path) : Except CompileFault Dialogue × Log :=
  match tree.readText path with
  | .error fault => (.error (.file path fault), [])
  | .ok src =>
      let reading := Script.read path.shown (path.stem?.getD "").shown src
      (reading.result.mapError .script, reading.log)

/-- Compile a script file. -/
def compileFile (tree : FileTree) (input output : Path) : Effect (Option CompileFault) :=
  match tree.readDialogue input with
  | (.error fault, log) => ⟨tree, log, some fault⟩
  | (.ok dialogue, log) =>
      match tree.write output (Text.encode dialogue.artifact) with
      | .error fault => ⟨tree, log, some (.file output fault)⟩
      | .ok written => ⟨written, log, none⟩

end FileTree

namespace Batch

/-- A script to compile and where its artifact goes. -/
structure Task where
  input : Path
  output : Path
  deriving DecidableEq, Repr

/-- How a task ended. -/
structure TaskResult where
  task : Task
  fault : Option CompileFault
  deriving DecidableEq, Repr

/-- Whether a task went well. -/
def TaskResult.isOk (result : TaskResult) : Bool := result.fault.isNone

/-- Carry out a task. -/
def Task.run (task : Task) (tree : FileTree) (worker : Nat) : Effect TaskResult :=
  let compiled := tree.compileFile task.input task.output
  ⟨compiled.tree,
    ⟨.trace, .batch, "Worker " ++ toString worker ++ " compiling " ++ task.input.shown⟩ ::
      compiled.log,
    ⟨task, compiled.value⟩⟩

/-- Carry out tasks one after the other. A failure stops nothing. -/
def runTasks : FileTree → List Task → Effect (List TaskResult)
  | tree, [] => ⟨tree, [], []⟩
  | tree, task :: rest =>
      let first := task.run tree 0
      let others := runTasks first.tree rest
      ⟨others.tree, first.log ++ others.log, first.value :: others.value⟩

end Batch

end Parley
