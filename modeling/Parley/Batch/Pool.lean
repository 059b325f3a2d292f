import Parley.Batch.Outcome

/-!
# Workers

The tasks of a batch may be shared by several workers. They stand in a queue
that is filled before the first worker begins; a worker takes a task, carries
it out and delivers its result, and leaves once the queue is empty. The
results are collected in a second queue of bounded capacity. A pool moves by
one step of one worker at a time, and any worker that can move may be the next
to do so. A batch that is shared goes on when all workers have left.
-/

namespace Parley.Batch

/-- What a worker is doing. -/
inductive Worker where
  | idle
  | holding (task : Task)
  | delivering (result : TaskResult)
  | gone
  deriving DecidableEq, Repr

/-- Workers with their two queues and the tree they work on. -/
structure Pool where
  tree : FileTree
  queue : List Task
  workers : List Worker
  results : List TaskResult
  /-- How many results can be waiting. -/
  capacity : Nat

namespace Pool

/-- A pool in which all workers are idle. There is room for every result. -/
def start (tree : FileTree) (tasks : List Task) (workers : Nat) : Pool where
  tree := tree
  queue := tasks
  workers := List.replicate (max 1 workers) .idle
  results := []
  capacity := tasks.length

/-- Let a worker do something else. -/
def assign (pool : Pool) (index : Nat) (worker : Worker) : Pool :=
  { pool with workers := pool.workers.set index worker }

/-- One step of one worker, if it can move. -/
def step? (pool : Pool) (index : Nat) : Option Pool :=
  match pool.workers[index]? with
  | none => none
  | some .gone => none
  | some .idle =>
      match pool.queue with
      | [] => some (pool.assign index .gone)
      | task :: rest => some ({ pool with queue := rest }.assign index (.holding task))
  | some (.holding task) =>
      let ran := task.run pool.tree index
      some ({ pool with tree := ran.tree }.assign index (.delivering ran.value))
  | some (.delivering result) =>
      if pool.results.length < pool.capacity then
        some ({ pool with results := pool.results ++ [result] }.assign index .idle)
      else none

/-- Let workers move in the order of a schedule. A worker that cannot move is
passed over. -/
def run (pool : Pool) (schedule : List Nat) : Pool :=
  schedule.foldl (fun pool index => (pool.step? index).getD pool) pool

/-- Whether all workers have left. -/
def isDone (pool : Pool) : Bool := pool.workers.all (· = .gone)

end Pool

/-- Carry out a plan with workers that move in the order of a schedule, if it
lets all of them leave. -/
def Plan.share (plan : Plan) (workers : Nat) (schedule : List Nat) (tree : FileTree) :
    Option (FileTree × Outcome) :=
  let pool := (Pool.start tree plan.tasks workers).run schedule
  if pool.isDone then some (pool.tree, plan.outcome pool.results) else none

/-- Carry out a whole batch with such workers: plan it, share its tasks and store
the stamps. -/
def runShared (config : Config) (workers : Nat) (schedule : List Nat) (tree : FileTree) :
    Option (FileTree × Except Fault Outcome) :=
  let planned := plan config tree
  match planned.value with
  | .error fault => some (planned.tree, .error fault)
  | .ok made =>
      (made.share workers schedule planned.tree).map fun (executed, outcome) =>
        let saved := outcome.persist executed
        (saved.tree, saved.value.map fun _ => outcome)

end Parley.Batch
