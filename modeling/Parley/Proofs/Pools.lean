import Mathlib.Data.Finset.Card
import Parley.Batch.Pool
import Parley.Proofs.Independence
import Parley.Proofs.NextRun

/-!
# Workers can move in any order

Every task is at each moment in one of four places: in the queue, in the hands
of a worker, on its way to the results or among them. So there is always room
for one more result, and a pool in which no worker can move is one that all
workers have left. As the tasks of a plan do not notice each other, the results
and the tree are by then those of carrying the tasks out one after the other.
-/

namespace Parley.Batch

open FileTree Parley.Path

namespace Worker

/-- The task in the hands of a worker. -/
def task? : Worker → Option Task
  | .holding task => some task
  | _ => none

/-- The result that a worker has not delivered yet. -/
def result? : Worker → Option TaskResult
  | .delivering result => some result
  | _ => none

end Worker

namespace Pool

/-! ## Moves -/

/-- What one worker can do. -/
inductive Move (pool : Pool) (index : Nat) : Pool → Prop where
  | leave {before after : List Worker} (workers : pool.workers = before ++ .idle :: after)
      (queue : pool.queue = []) : Move pool index { pool with workers := before ++ .gone :: after }
  | take {before after : List Worker} {task : Task} {rest : List Task}
      (workers : pool.workers = before ++ .idle :: after) (queue : pool.queue = task :: rest) :
      Move pool index { pool with queue := rest, workers := before ++ .holding task :: after }
  | carryOut {before after : List Worker} {task : Task}
      (workers : pool.workers = before ++ .holding task :: after) :
      Move pool index { pool with
        tree := (task.run pool.tree index).tree
        workers := before ++ .delivering (task.run pool.tree index).value :: after }
  | deliver {before after : List Worker} {result : TaskResult}
      (workers : pool.workers = before ++ .delivering result :: after)
      (room : pool.results.length < pool.capacity) :
      Move pool index { pool with
        results := pool.results ++ [result], workers := before ++ .idle :: after }

theorem workers_split {pool : Pool} {index : Nat} {worker : Worker}
    (h : pool.workers[index]? = some worker) :
    ∃ before after, pool.workers = before ++ worker :: after ∧
      ∀ other, pool.workers.set index other = before ++ other :: after := by
  obtain ⟨hindex, hworker⟩ := List.getElem?_eq_some_iff.mp h
  have hset (other : Worker) : pool.workers.set index other =
      pool.workers.take index ++ other :: pool.workers.drop (index + 1) := by
    rw [List.set_eq_take_append_cons_drop, if_pos hindex]
  refine ⟨_, _, ?_, hset⟩
  rw [← hset, ← hworker, List.set_getElem_self]

theorem move_of_step? {pool next : Pool} {index : Nat} (h : pool.step? index = some next) :
    Move pool index next := by
  unfold step? at h
  split at h
  next => contradiction
  next => contradiction
  next hworker =>
    obtain ⟨before, after, hworkers, hset⟩ := workers_split hworker
    split at h
    next hqueue =>
      obtain rfl := Option.some.inj h
      rw [assign, hset]
      exact .leave hworkers hqueue
    next task rest hqueue =>
      obtain rfl := Option.some.inj h
      rw [assign, hset]
      exact .take hworkers hqueue
  next task hworker =>
    obtain ⟨before, after, hworkers, hset⟩ := workers_split hworker
    obtain rfl := Option.some.inj h
    rw [assign, hset]
    exact .carryOut hworkers
  next result hworker =>
    obtain ⟨before, after, hworkers, hset⟩ := workers_split hworker
    split at h
    next hroom =>
      obtain rfl := Option.some.inj h
      rw [assign, hset]
      exact .deliver hworkers hroom
    next => contradiction

/-- Where a pool gets when workers move in the order of a schedule. -/
inductive Reaches : Pool → List Nat → Pool → Prop where
  | refl (pool : Pool) : Reaches pool [] pool
  | step {pool next last : Pool} {index : Nat} {schedule : List Nat}
      (first : pool.step? index = some next) (rest : Reaches next schedule last) :
      Reaches pool (index :: schedule) last

theorem run_cons_of_some {pool next : Pool} {index : Nat} (h : pool.step? index = some next)
    (schedule : List Nat) : pool.run (index :: schedule) = next.run schedule := by
  rw [run, List.foldl_cons, h, Option.getD_some, run]

theorem run_cons_of_none {pool : Pool} {index : Nat} (h : pool.step? index = none)
    (schedule : List Nat) : pool.run (index :: schedule) = pool.run schedule := by
  rw [run, List.foldl_cons, h, Option.getD_none, run]

theorem run_append (pool : Pool) (schedule more : List Nat) :
    pool.run (schedule ++ more) = (pool.run schedule).run more :=
  List.foldl_append

/-- The schedules of moves are those on which no worker is passed over. -/
theorem Reaches.run_eq {pool last : Pool} {schedule : List Nat}
    (h : Reaches pool schedule last) : pool.run schedule = last := by
  induction h with
  | refl pool => rfl
  | step first rest ih => rw [run_cons_of_some first, ih]

/-- Every schedule comes down to the moves that it makes. -/
theorem exists_reaches_run (pool : Pool) (schedule : List Nat) :
    ∃ moves, Reaches pool moves (pool.run schedule) := by
  induction schedule generalizing pool with
  | nil => exact ⟨[], .refl pool⟩
  | cons index rest ih =>
      cases hstep : pool.step? index with
      | none =>
          rw [run_cons_of_none hstep]
          exact ih pool
      | some next =>
          obtain ⟨moves, hmoves⟩ := ih next
          rw [run_cons_of_some hstep]
          exact ⟨index :: moves, .step hstep hmoves⟩

/-! ## Every move brings the end closer -/

/-- The tasks in the hands of workers. -/
def held (pool : Pool) : List Task := pool.workers.filterMap Worker.task?

/-- The results on their way. -/
def undelivered (pool : Pool) : List TaskResult := pool.workers.filterMap Worker.result?

/-- How many moves are ahead of a pool: three for each task that is queued, what
is left of them for the others, and one for each worker that has to leave. -/
def movesAhead (pool : Pool) : Nat :=
  3 * pool.queue.length + 2 * pool.held.length + pool.undelivered.length +
    pool.workers.countP (· ≠ .gone)

theorem Move.movesAhead_eq {pool next : Pool} {index : Nat} (h : Move pool index next) :
    next.movesAhead + 1 = pool.movesAhead := by
  cases h with
  | leave workers queue =>
      simp [movesAhead, held, undelivered, workers, queue, List.filterMap_cons, Worker.task?,
        Worker.result?]
      omega
  | take workers queue =>
      simp [movesAhead, held, undelivered, workers, queue, List.filterMap_cons, Worker.task?,
        Worker.result?]
      omega
  | carryOut workers =>
      simp [movesAhead, held, undelivered, workers, List.filterMap_cons, Worker.task?,
        Worker.result?]
      omega
  | deliver workers room =>
      simp [movesAhead, held, undelivered, workers, List.filterMap_cons, Worker.task?,
        Worker.result?]
      omega

theorem Reaches.movesAhead_eq {pool last : Pool} {schedule : List Nat}
    (h : Reaches pool schedule last) : last.movesAhead + schedule.length = pool.movesAhead := by
  induction h with
  | refl pool => rfl
  | step first rest ih =>
      have hmove := (move_of_step? first).movesAhead_eq
      rw [List.length_cons]
      omega

theorem held_start (tree : FileTree) (tasks : List Task) (workers : Nat) :
    (start tree tasks workers).held = [] := by
  simp [start, held, Worker.task?]

theorem undelivered_start (tree : FileTree) (tasks : List Task) (workers : Nat) :
    (start tree tasks workers).undelivered = [] := by
  simp [start, undelivered, Worker.result?]

theorem movesAhead_start (tree : FileTree) (tasks : List Task) (workers : Nat) :
    (start tree tasks workers).movesAhead = 3 * tasks.length + max 1 workers := by
  rw [movesAhead, held_start, undelivered_start]
  simp [start, List.countP_replicate]

/-! ## No task is lost or carried out twice -/

/-- The results of the tasks that were carried out, delivered or not. -/
def finished (pool : Pool) : List TaskResult := pool.undelivered ++ pool.results

/-- A pool on its way from a tree and tasks that do not notice each other. -/
structure Sound (tree : FileTree) (tasks : List Task) (stage : Finset Task → FileTree → Prop)
    (pool : Pool) : Prop where
  stage : stage (pool.finished.map TaskResult.task).toFinset pool.tree
  /-- Each task is in one place, and ends as it would have ended at first. -/
  counts : ((pool.queue ++ pool.held).map (Task.outcome tree) ++ pool.finished).Perm
    (tasks.map (Task.outcome tree))
  capacity : pool.capacity = tasks.length
  staffed : pool.workers ≠ []
  left : .gone ∈ pool.workers → pool.queue = []

section

variable {tree : FileTree} {tasks : List Task} {stage : Finset Task → FileTree → Prop}
  {pool next : Pool} {index : Nat}

theorem Sound.tasks_perm (h : pool.Sound tree tasks stage) :
    (pool.queue ++ pool.held ++ pool.finished.map TaskResult.task).Perm tasks := by
  have hperm := h.counts.map TaskResult.task
  rwa [List.map_append, Task.map_task_outcome, Task.map_task_outcome] at hperm

/-- A task in the hands of a worker has no result yet. -/
theorem Sound.of_mem_held (h : pool.Sound tree tasks stage) (hnodup : tasks.Nodup) {task : Task}
    (hmem : task ∈ pool.held) :
    task ∈ tasks ∧ task ∉ (pool.finished.map TaskResult.task).toFinset := by
  have hleft : task ∈ pool.queue ++ pool.held := List.mem_append_right _ hmem
  refine ⟨h.tasks_perm.subset (List.mem_append_left _ hleft), ?_⟩
  rw [List.mem_toFinset]
  intro hdone
  have hdisjoint := List.nodup_append.mp (h.tasks_perm.nodup_iff.mpr hnodup)
  exact hdisjoint.2.2 task hleft task hdone rfl

theorem sound_start (h : Independent tree tasks stage) (workers : Nat) :
    (start tree tasks workers).Sound tree tasks stage := by
  have hfinished : (start tree tasks workers).finished = [] := by
    rw [finished, undelivered_start]
    rfl
  refine ⟨?_, ?_, rfl, by simp [start], by simp [start]⟩
  · rw [hfinished]
    exact h.start
  · rw [hfinished, held_start, List.append_nil, List.append_nil]
    exact List.Perm.refl _

/-- A move keeps every task in one place. -/
theorem Sound.move (hind : Independent tree tasks stage) (hnodup : tasks.Nodup)
    (h : pool.Sound tree tasks stage) (hmove : Move pool index next) :
    next.Sound tree tasks stage := by
  have hstage := h.stage
  have hcounts := h.counts
  cases hmove with
  | leave workers queue =>
      refine ⟨?_, ?_, h.capacity, by simp, fun _ => queue⟩
      · simpa [finished, undelivered, workers, List.filterMap_cons, Worker.result?] using hstage
      · simpa [finished, undelivered, held, workers, List.filterMap_cons, Worker.result?,
          Worker.task?] using hcounts
  | take workers queue =>
      refine ⟨?_, ?_, h.capacity, by simp, ?_⟩
      · simpa [finished, undelivered, workers, List.filterMap_cons, Worker.result?] using hstage
      · refine List.Perm.trans ?_ hcounts
        rw [List.perm_iff_count]
        intro result
        simp [finished, undelivered, held, workers, queue, List.filterMap_cons, Worker.result?,
          Worker.task?, List.count_cons]
        omega
      · intro hgone
        have hempty := h.left (by simpa [workers] using hgone)
        rw [queue] at hempty
        contradiction
  | @carryOut before after task workers =>
      have hmem : task ∈ pool.held := by simp [held, workers, Worker.task?]
      obtain ⟨htask, hfresh⟩ := h.of_mem_held hnodup hmem
      obtain ⟨hvalue, hnext⟩ := hind.run hstage htask hfresh index
      have hfinished : ((before ++ .delivering (task.run pool.tree index).value :: after).filterMap
          Worker.result? ++ pool.results).Perm
            ((task.run pool.tree index).value :: pool.finished) := by
        simp [finished, undelivered, workers, List.filterMap_cons, Worker.result?]
      have hdone := List.toFinset_eq_of_perm _ _ (hfinished.map TaskResult.task)
      rw [List.map_cons, List.toFinset_cons] at hdone
      refine ⟨(congrArg (stage · _) hdone).mpr hnext, ?_, h.capacity, by simp, ?_⟩
      · refine List.Perm.trans (hfinished.append_left _) (List.Perm.trans ?_ hcounts)
        rw [List.perm_iff_count, hvalue]
        intro result
        simp [held, workers, List.filterMap_cons, Worker.task?, List.count_cons]
        omega
      · intro hgone
        exact h.left (by simpa [workers] using hgone)
  | @deliver before after result workers room =>
      have hfinished : ((before ++ .idle :: after).filterMap Worker.result? ++
          (pool.results ++ [result])).Perm pool.finished := by
        rw [List.perm_iff_count]
        intro other
        simp [finished, undelivered, workers, List.filterMap_cons, Worker.result?, List.count_cons]
        omega
      have hdone := List.toFinset_eq_of_perm _ _ (hfinished.map TaskResult.task)
      refine ⟨(congrArg (stage · _) hdone).mpr hstage, ?_, h.capacity, by simp, ?_⟩
      · have hheld : (before ++ .idle :: after).filterMap Worker.task? = pool.held := by
          simp [held, workers, List.filterMap_cons, Worker.task?]
        rw [← hheld] at hcounts
        exact (hfinished.append_left _).trans hcounts
      · intro hgone
        exact h.left (by simpa [workers] using hgone)

theorem Sound.reaches {last : Pool} {schedule : List Nat} (hind : Independent tree tasks stage)
    (hnodup : tasks.Nodup) (h : pool.Sound tree tasks stage)
    (hreaches : Reaches pool schedule last) : last.Sound tree tasks stage := by
  induction hreaches with
  | refl pool => exact h
  | step first rest ih => exact ih (h.move hind hnodup (move_of_step? first))

/-! ## The end of a run -/

theorem Sound.length_eq (h : pool.Sound tree tasks stage) :
    pool.queue.length + pool.held.length + pool.undelivered.length + pool.results.length =
      tasks.length := by
  have hlength := h.tasks_perm.length_eq
  simp only [finished, List.length_append, List.length_map] at hlength
  omega

/-- There is room for a result that is on its way. -/
theorem Sound.room (h : pool.Sound tree tasks stage) {result : TaskResult}
    (hworker : .delivering result ∈ pool.workers) : pool.results.length < pool.capacity := by
  have hmem : result ∈ pool.undelivered :=
    List.mem_filterMap.mpr ⟨_, hworker, rfl⟩
  have hpos := List.length_pos_of_mem hmem
  have hlength := h.length_eq
  rw [h.capacity]
  omega

/-- Where no worker can move, all have left. -/
theorem Sound.eq_gone (h : pool.Sound tree tasks stage) (hstuck : ∀ index, pool.step? index = none)
    {worker : Worker} (hworker : worker ∈ pool.workers) : worker = .gone := by
  obtain ⟨index, hindex⟩ := List.mem_iff_getElem?.mp hworker
  have hnone := hstuck index
  rw [step?, hindex] at hnone
  cases worker with
  | idle =>
      cases hqueue : pool.queue with
      | nil => simp [hqueue] at hnone
      | cons task rest => simp [hqueue] at hnone
  | holding task => simp at hnone
  | delivering result => simp [h.room hworker] at hnone
  | gone => rfl

theorem isDone_iff {pool : Pool} :
    pool.isDone = true ↔ ∀ worker ∈ pool.workers, worker = .gone := by
  simp [isDone]

/-- By the time all workers have left, all results are delivered, and the tree is
that in which all tasks are done. -/
theorem Sound.of_isDone (h : pool.Sound tree tasks stage) (hdone : pool.isDone = true) :
    pool.results.Perm (tasks.map (Task.outcome tree)) ∧ stage tasks.toFinset pool.tree := by
  have hgone := isDone_iff.mp hdone
  obtain ⟨worker, hworker⟩ := List.exists_mem_of_ne_nil _ h.staffed
  have hqueue : pool.queue = [] := h.left (hgone worker hworker ▸ hworker)
  have hheld : pool.held = [] := by
    rw [held, List.filterMap_eq_nil_iff]
    intro worker hworker
    rw [hgone worker hworker, Worker.task?]
    nofun
  have hdelivered : pool.undelivered = [] := by
    rw [undelivered, List.filterMap_eq_nil_iff]
    intro worker hworker
    rw [hgone worker hworker, Worker.result?]
    nofun
  have hfinished : pool.finished = pool.results := by
    rw [finished, hdelivered, List.nil_append]
  have hresults : pool.results.Perm (tasks.map (Task.outcome tree)) := by
    simpa [hqueue, hheld, hfinished] using h.counts
  have htasks : (pool.results.map TaskResult.task).Perm tasks := by
    simpa only [Task.map_task_outcome] using hresults.map TaskResult.task
  have hstage := h.stage
  rw [hfinished, List.toFinset_eq_of_perm _ _ htasks] at hstage
  exact ⟨hresults, hstage⟩

/-- However far workers have come, they can all leave in the end. -/
theorem Sound.exists_isDone (hind : Independent tree tasks stage) (hnodup : tasks.Nodup)
    (h : pool.Sound tree tasks stage) : ∃ schedule, (pool.run schedule).isDone = true := by
  generalize hahead : pool.movesAhead = ahead
  induction ahead generalizing pool with
  | zero =>
      refine ⟨[], isDone_iff.mpr fun _ => h.eq_gone fun index => ?_⟩
      apply Option.eq_none_iff_forall_ne_some.mpr
      intro next hstep
      have hcloser := (move_of_step? hstep).movesAhead_eq
      omega
  | succ ahead ih =>
      by_cases hstuck : ∀ index, pool.step? index = none
      · exact ⟨[], isDone_iff.mpr fun _ => h.eq_gone hstuck⟩
      · obtain ⟨index, hmoves⟩ := not_forall.mp hstuck
        obtain ⟨next, hstep⟩ := Option.ne_none_iff_exists'.mp hmoves
        have hmove := move_of_step? hstep
        have hcloser := hmove.movesAhead_eq
        obtain ⟨schedule, hdone⟩ := ih (h.move hind hnodup hmove) (by omega)
        exact ⟨index :: schedule, by rwa [run_cons_of_some hstep]⟩

theorem Sound.run (hind : Independent tree tasks stage) (hnodup : tasks.Nodup)
    (h : pool.Sound tree tasks stage) (schedule : List Nat) :
    (pool.run schedule).Sound tree tasks stage := by
  obtain ⟨moves, hmoves⟩ := exists_reaches_run pool schedule
  exact h.reaches hind hnodup hmoves

end

/-! ## The workers of a plan -/

section

variable {config : Config} {tree : FileTree} {made : Plan}

theorem exists_names_of_plan (hwf : tree.WellFormed) (h : (plan config tree).value = .ok made) :
    ∃ names : List RawText, made.tasks = names.map config.task ∧ names.Nodup ∧
      ∀ name ∈ names, IsName name ∧ isScriptName name := by
  obtain ⟨input, output, table, hsited, -⟩ := sited_of_plan hwf h
  obtain ⟨-, prepared, scripts, -, htree, hscripts, -, rfl⟩ := plan_eq_ok h
  rw [htree] at hsited
  exact ⟨_, tasks_ofSources hsited.wellFormed hsited.input hscripts, nodup_staleNames hscripts,
    isName_of_mem_staleNames hsited.wellFormed hsited.input hscripts⟩

/-- Workers may move in any order. No worker ever finds the results full, no run
goes on forever, and one that cannot go on has been left by all workers. By then
there is one result for each task, and the results and the tree are those of
carrying the tasks out one after the other. -/
theorem runTasks_of_reaches {later : FileTree} (hwf : tree.WellFormed)
    (hplan : (plan config tree).value = .ok made) (hlater : later.WellFormed) (workers : Nat)
    {schedule : List Nat} {pool : Pool}
    (h : Reaches (start later made.tasks workers) schedule pool) :
    (∀ result, .delivering result ∈ pool.workers → pool.results.length < pool.capacity) ∧
      schedule.length ≤ 3 * made.tasks.length + max 1 workers ∧
      ((∀ index, pool.step? index = none) →
        pool.isDone = true ∧ made.tasks.Nodup ∧
          (pool.results.map TaskResult.task).Perm made.tasks ∧
          pool.results.Perm (runTasks later made.tasks).value ∧
          ∀ location,
            pool.tree.lookup location = (runTasks later made.tasks).tree.lookup location) := by
  obtain ⟨names, htasks, hnames, hscripts⟩ := exists_names_of_plan hwf hplan
  have hnodup : made.tasks.Nodup := by
    rw [htasks]
    exact config.nodup_tasks (fun name hname => (hscripts name hname).1) hnames
  obtain ⟨stage, hind⟩ : ∃ stage, Independent later made.tasks stage := by
    rw [htasks]
    exact exists_independent config hlater hscripts
  have hsound := (sound_start hind workers).reaches hind hnodup h
  refine ⟨fun result hworker => hsound.room hworker, ?_, fun hstuck => ?_⟩
  · have hmoves := h.movesAhead_eq
    rw [movesAhead_start] at hmoves
    omega
  · obtain ⟨hvalues, hlast⟩ := hind.runTasks_eq hnodup
    have hdone : pool.isDone = true := isDone_iff.mpr fun _ => hsound.eq_gone hstuck
    obtain ⟨hresults, hstage⟩ := hsound.of_isDone hdone
    have htasks : (pool.results.map TaskResult.task).Perm made.tasks := by
      simpa only [Task.map_task_outcome] using hresults.map TaskResult.task
    exact ⟨hdone, hnodup, htasks, hvalues ▸ hresults, hind.lookup hstage hlast⟩

end

/-- Two workers that carry out one task each. -/
theorem exists_reaches_pair (tree : FileTree) (task other : Task) :
    ∃ pool, Reaches (start tree [task, other] 2) [1, 0, 0, 1, 0, 1, 0, 1] pool ∧
      ∀ index, pool.step? index = none := by
  refine ⟨_, .step rfl (.step rfl (.step rfl (.step rfl (.step rfl (.step rfl (.step rfl
    (.step rfl (.refl _)))))))), ?_⟩
  intro index
  match index with
  | 0 => rfl
  | 1 => rfl
  | index + 2 => rfl

theorem runTasks_of_reaches_mixedScripts :
    ∃ made pool, (plan mixedConfig mixedScripts).value = .ok made ∧
      Reaches (start (plan mixedConfig mixedScripts).tree made.tasks 2)
        [1, 0, 0, 1, 0, 1, 0, 1] pool ∧
      (∀ index, pool.step? index = none) ∧
      pool.results.Perm (runTasks (plan mixedConfig mixedScripts).tree made.tasks).value := by
  have hwf : mixedScripts.WellFormed := .of_entries (by decide +kernel) (by decide +kernel)
  have hplan := plan_of_sources (by decide +kernel : mixedScripts.isDirectory mixedConfig.inputDir)
    (show prepare mixedConfig mixedScripts = ((prepare mixedConfig mixedScripts).1, none) from
      Prod.ext rfl (by decide +kernel)) sources_mixedScripts (by simp)
  have hvalue := congrArg Effect.value hplan
  obtain ⟨task, other, htasks⟩ := List.length_eq_two.mp (show (Plan.ofSources mixedConfig
    (previous mixedConfig (prepare mixedConfig mixedScripts).1).1
    [Source.of mixedConfig.inputDir "empty.oud" ⟨1700000000, 0⟩,
      Source.of mixedConfig.inputDir "old.oud" ⟨-86400, 500000000⟩]).tasks.length = 2 by
        decide +kernel)
  obtain ⟨pool, hreaches, hstuck⟩ :=
    exists_reaches_pair (plan mixedConfig mixedScripts).tree task other
  rw [← htasks] at hreaches
  have hlater := (grows_plan mixedConfig mixedScripts).wellFormed hwf
  obtain ⟨-, -, -, hresults, -⟩ := (runTasks_of_reaches hwf hvalue hlater 2 hreaches).2.2 hstuck
  exact ⟨_, pool, hvalue, hreaches, hstuck, hresults⟩

end Pool

/-! ## Plans that are shared -/

theorem Plan.share_of_isDone (made : Plan) {workers : Nat} {schedule : List Nat} {tree : FileTree}
    (h : ((Pool.start tree made.tasks workers).run schedule).isDone = true) :
    made.share workers schedule tree =
      some (((Pool.start tree made.tasks workers).run schedule).tree,
        made.outcome ((Pool.start tree made.tasks workers).run schedule).results) := by
  unfold share
  dsimp only
  rw [if_pos h]

theorem Plan.share_eq_some {made : Plan} {workers : Nat} {schedule : List Nat}
    {tree later : FileTree} {outcome : Outcome}
    (h : made.share workers schedule tree = some (later, outcome)) :
    ∃ pool, pool = (Pool.start tree made.tasks workers).run schedule ∧ pool.isDone = true ∧
      later = pool.tree ∧ outcome = made.outcome pool.results := by
  unfold share at h
  dsimp only at h
  split at h
  next hdone =>
    obtain ⟨rfl, rfl⟩ := Prod.mk.inj (Option.some.inj h)
    exact ⟨_, rfl, hdone, rfl, rfl⟩
  next => contradiction

/-- Scripts that workers share are compiled as if they were compiled one after the
other. -/
theorem compiled_of_share {config : Config} {tree later : FileTree} {input output : Location}
    {names : List RawText} (h : Sited config tree input output) (hnodup : names.Nodup)
    (hnames : ∀ name ∈ names, IsName name ∧ isScriptName name) {made : Plan}
    (htasks : made.tasks = names.map config.task) {workers : Nat} {schedule : List Nat}
    {outcome : Outcome} (hshare : made.share workers schedule tree = some (later, outcome)) :
    ∃ results, outcome = made.outcome results ∧
      results.Perm (names.map fun name => ⟨config.task name, verdict config tree output name⟩) ∧
      Compiled config output tree names later := by
  obtain ⟨pool, hpool, hdone, rfl, rfl⟩ := Plan.share_eq_some hshare
  have hind := independent_of_sited h hnames
  have hdistinct := config.nodup_tasks (fun name hname => (hnames name hname).1) hnodup
  have hsound := (Pool.sound_start hind workers).run hind hdistinct schedule
  rw [← htasks, ← hpool] at hsound
  obtain ⟨hresults, hcompiled⟩ := hsound.of_isDone hdone
  have houtcomes : (names.map config.task).map (Task.outcome tree) =
      names.map fun name => ⟨config.task name, verdict config tree output name⟩ := by
    rw [List.map_map]
    apply List.map_congr_left
    intro name hname
    obtain ⟨hisName, hscript⟩ := hnames name hname
    exact (run_task h hisName hscript 0).1
  refine ⟨pool.results, rfl, ?_, hcompiled.of_mem_iff fun name => ?_⟩
  · rwa [htasks, houtcomes] at hresults
  · simp only [htasks, List.mem_filter, List.mem_toFinset, decide_eq_true_eq]
    exact ⟨fun hname => ⟨hname, List.mem_map_of_mem hname⟩, And.left⟩

end Parley.Batch
