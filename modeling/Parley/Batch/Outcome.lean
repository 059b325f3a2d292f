import Parley.Batch.Plan

/-!
# Carrying out a batch

The tasks of a plan are carried out, the results reported, and the stamps of
the scripts stored for the next batch. A script that failed is left out of the
stored table, so that it is tried again, unless the batch is told to remember
failures.
-/

namespace Parley.Batch

/-- What a batch did. -/
structure Outcome where
  config : Config
  unchanged : List Path
  results : List TaskResult
  /-- The stamp table to store. -/
  snapshot : StampTable

/-- Forget the scripts whose tasks failed, and with them all scripts that go by
their keys. -/
def forgetFailures (table : StampTable) (results : List TaskResult) : StampTable :=
  (results.filter (!·.isOk)).foldl
    (fun table result =>
      match result.task.input.fileName? with
      | some name => table.erase name.shown
      | none => table)
    table

/-- What a plan has come to once its tasks have these results. -/
def Plan.outcome (plan : Plan) (results : List TaskResult) : Outcome where
  config := plan.config
  unchanged := plan.unchanged
  results := results
  snapshot :=
    if plan.config.rememberFailures then plan.snapshot
    else forgetFailures plan.snapshot results

/-- Carry out a plan. -/
def Plan.execute (plan : Plan) (tree : FileTree) : Effect Outcome :=
  let ran := runTasks tree plan.tasks
  let announcement : Log :=
    if plan.tasks.isEmpty then []
    else [⟨.info, .batch, "Compiling " ++ toString plan.tasks.length ++ " script(s) on " ++
      toString (plan.config.workerCount plan.tasks.length) ++ " worker(s)"⟩]
  ⟨ran.tree, announcement ++ ran.log, plan.outcome ran.value⟩

namespace Outcome

/-- The faults of the tasks that failed. -/
def failures (outcome : Outcome) : List (Path × CompileFault) :=
  outcome.results.filterMap fun result => result.fault.map (result.task.input, ·)

/-- The results of the tasks that went well. -/
def compiled (outcome : Outcome) : List TaskResult := outcome.results.filter (·.isOk)

/-- Whether a task failed. -/
def hasErrors (outcome : Outcome) : Bool := outcome.results.any (!·.isOk)

/-- Store the stamps for the next batch. -/
def persist (outcome : Outcome) (tree : FileTree) : Effect (Except Fault Unit) :=
  let path := outcome.config.tablePath
  match tree.saveTable path outcome.snapshot with
  | .error fault => ⟨tree, [], .error (.table fault)⟩
  | .ok saved =>
      ⟨saved, [⟨.debug, .batch, "Saved " ++ toString outcome.snapshot.size ++
        " cache entries to " ++ path.shown⟩], .ok ()⟩

end Outcome

end Parley.Batch
