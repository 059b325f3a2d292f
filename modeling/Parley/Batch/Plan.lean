import Parley.Batch.Compilation
import Parley.Batch.Config
import Parley.StampTable.Format

/-!
# Planning a batch

A plan is made before anything is compiled. It sorts the scripts of the input
directory into those that are unchanged since the stamp table was written and
those that have to be compiled, and takes down when each of them was modified.
The table only saves work: without one, or with one that cannot be read,
every script is compiled.
-/

namespace Parley

/-- Why a stamp table could not be read or stored. -/
structure TableFault where
  path : Path
  fault : FileFault
  deriving DecidableEq, Repr

/-- The wording of a fault. -/
def TableFault.message (fault : TableFault) : String :=
  "cache file " ++ fault.path.shown ++ ": " ++ fault.fault.message

namespace FileTree

/-- Read a stamp table from a file. -/
def loadTable (tree : FileTree) (path : Path) : Except TableFault (StampTable × Log) :=
  match tree.read path with
  | .error fault => .error ⟨path, fault⟩
  | .ok bytes => .ok (StampTable.ofBytes bytes, StampTable.remarks bytes)

/-- Store a stamp table in a file. -/
def saveTable (tree : FileTree) (path : Path) (table : StampTable) : Except TableFault FileTree :=
  (tree.write path table.bytes).mapError (⟨path, ·⟩)

end FileTree

namespace Batch

/-- Why a batch could not be carried out. -/
inductive Fault where
  | missingInput (dir : Path)
  | directory (dir : Path) (fault : FileFault)
  | noScripts (dir : Path)
  | table (fault : TableFault)
  deriving DecidableEq, Repr

/-- The wording of a fault. -/
def Fault.message : Fault → String
  | missingInput dir => "input directory does not exist: " ++ dir.shown
  | directory dir fault => "error with directory " ++ dir.shown ++ ": " ++ fault.message
  | noScripts dir => "no ." ++ scriptExtension ++ " files found in " ++ dir.shown
  | table fault => "error saving cache: " ++ fault.message

/-- A script of the input directory. -/
structure Source where
  name : RawText
  path : Path
  modified : Instant
  deriving DecidableEq, Repr

/-- What a stamp table knows a script by: its name as it is shown. -/
def Source.key (source : Source) : String := source.name.shown

/-- The script under a name of a directory: a file with the extension of
scripts. -/
def Source.ofName? (tree : FileTree) (dir : Path) (name : RawText) : Option Source :=
  let path := dir.join ⟨name⟩
  match tree.find path with
  | .ok (_, .file _ modified) =>
      if path.extension? = some scriptExtension then some ⟨name, path, modified.wholeSecond⟩
      else none
  | _ => none

/-- The scripts of a directory, in the order of their names. -/
def sources (tree : FileTree) (dir : Path) : Except FileFault (List Source) :=
  (tree.list dir).map fun names =>
    (names.mergeSort (· ≤ ·)).filterMap (Source.ofName? tree dir)

/-- Make the directories that a batch writes to. -/
def prepare (config : Config) (tree : FileTree) : FileTree × Option Fault :=
  match tree.makeDirectories config.outputDir with
  | (tree, some fault) => (tree, some (.directory config.outputDir fault))
  | (tree, none) =>
      match tree.makeDirectories config.tableDir with
      | (tree, some fault) => (tree, some (.directory config.tableDir fault))
      | (tree, none) => (tree, none)

/-- The stamp table of the last batch, empty if there is none to read. -/
def previous (config : Config) (tree : FileTree) : StampTable × Log :=
  match tree.loadTable config.tablePath with
  | .ok (table, log) =>
      (table, log ++ [⟨.debug, .batch, "Loaded " ++ toString table.size ++
        " cache entries from " ++ config.tablePath.shown⟩])
  | .error fault =>
      (.empty, [⟨.info, .batch, "No usable " ++ tableName.shown ++ " (" ++ fault.message ++
        "), fresh run"⟩])

/-- What a batch is going to do. -/
structure Plan where
  config : Config
  unchanged : List Path
  tasks : List Task
  /-- When each script was modified, to be stored if all goes well. -/
  snapshot : StampTable

namespace Plan

/-- Sort scripts by what a stamp table remembers of them. -/
def ofSources (config : Config) (table : StampTable) (sources : List Source) : Plan where
  config := config
  unchanged :=
    (sources.filter fun source => table.isFresh source.key source.modified).map Source.path
  tasks :=
    (sources.filter fun source => !table.isFresh source.key source.modified).map fun source =>
      ⟨source.path, config.artifactPath source.path⟩
  snapshot := sources.foldl (fun table source => table.insert source.key source.modified) .empty

/-- Whether there is nothing to compile. -/
def isUpToDate (plan : Plan) : Bool := plan.tasks.isEmpty

end Plan

/-- Make the output directories and plan a batch. -/
def plan (config : Config) (tree : FileTree) : Effect (Except Fault Plan) :=
  if !tree.isDirectory config.inputDir then ⟨tree, [], .error (.missingInput config.inputDir)⟩
  else match prepare config tree with
    | (tree, some fault) => ⟨tree, [], .error fault⟩
    | (tree, none) =>
        match sources tree config.inputDir with
        | .error fault => ⟨tree, [], .error (.directory config.inputDir fault)⟩
        | .ok [] => ⟨tree, [], .error (.noScripts config.inputDir)⟩
        | .ok (source :: rest) =>
            let (table, log) := previous config tree
            ⟨tree, log, .ok (.ofSources config table (source :: rest))⟩

end Batch

end Parley
