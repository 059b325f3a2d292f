import Mathlib.Data.Finset.Dedup
import Mathlib.Data.Finset.Lattice.Lemmas
import Parley.Proofs.Compilations

/-!
# Tasks that do not notice each other

Scripts of one directory can be compiled in any order. Which of them are done
determines the tree, and a script that is still to be compiled ends as it would
have ended at first. This holds in every tree: where the directories are not in
place, no task writes anything.
-/

namespace Parley.Batch

open FileTree Parley.Path

-- A path that is joined is known by its lemmas. Its text is not computed.
attribute [local irreducible] Path.join

/-- How a task ends in a tree. -/
def Task.outcome (tree : FileTree) (task : Task) : TaskResult := (task.run tree 0).value

theorem Task.map_task_outcome (tree : FileTree) (tasks : List Task) :
    (tasks.map (Task.outcome tree)).map TaskResult.task = tasks := by
  rw [List.map_map]
  exact List.map_id _

/-- Tasks that do not notice each other from a tree on. A stage tells which of
them are done and what the tree can be by then. -/
structure Independent (tree : FileTree) (tasks : List Task)
    (stage : Finset Task → FileTree → Prop) : Prop where
  start : stage ∅ tree
  run : ∀ {done later task}, stage done later → task ∈ tasks → task ∉ done → ∀ worker,
    (task.run later worker).value = task.outcome tree ∧
      stage (insert task done) (task.run later worker).tree
  lookup : ∀ {done later last}, stage done later → stage done last → ∀ location,
    later.lookup location = last.lookup location

/-- Tasks that do not notice each other are carried out one after the other as if
each were alone. -/
theorem Independent.runTasks_of_stage {tree : FileTree} {tasks : List Task}
    {stage : Finset Task → FileTree → Prop} (h : Independent tree tasks stage)
    {done : Finset Task} {later : FileTree} {rest : List Task} (hstage : stage done later)
    (hsubset : rest ⊆ tasks) (hnodup : rest.Nodup) (hfresh : ∀ task ∈ rest, task ∉ done) :
    (runTasks later rest).value = rest.map (Task.outcome tree) ∧
      stage (done ∪ rest.toFinset) (runTasks later rest).tree := by
  induction rest generalizing done later with
  | nil => exact ⟨rfl, by simpa [runTasks] using hstage⟩
  | cons task rest ih =>
      obtain ⟨hnew, hnodup⟩ := List.nodup_cons.mp hnodup
      obtain ⟨htask, hrest⟩ := List.cons_subset.mp hsubset
      obtain ⟨hfirst, hfresh⟩ := List.forall_mem_cons.mp hfresh
      obtain ⟨hvalue, hnext⟩ := h.run hstage htask hfirst 0
      have hfresh' : ∀ other ∈ rest, other ∉ insert task done := by
        intro other hother hmem
        rcases Finset.mem_insert.mp hmem with rfl | hmem
        · exact hnew hother
        · exact hfresh other hother hmem
      obtain ⟨hvalues, hlast⟩ := ih hnext hrest hnodup hfresh'
      refine ⟨?_, ?_⟩
      · rw [runTasks, List.map_cons, hvalue, hvalues]
      · rw [List.toFinset_cons, Finset.union_insert, ← Finset.insert_union]
        exact hlast

theorem Independent.runTasks_eq {tree : FileTree} {tasks : List Task}
    {stage : Finset Task → FileTree → Prop} (h : Independent tree tasks stage)
    (hnodup : tasks.Nodup) :
    (runTasks tree tasks).value = tasks.map (Task.outcome tree) ∧
      stage tasks.toFinset (runTasks tree tasks).tree := by
  simpa using h.runTasks_of_stage h.start (List.Subset.refl tasks) hnodup (by simp)

section

variable {config : Config} {tree later last : FileTree} {input output : Location}
  {names others : List RawText}

theorem Config.task_inj {name other : RawText} (hname : IsName name) (hother : IsName other)
    (h : config.task name = config.task other) : name = other :=
  join_injective config.inputDir hname hother (congrArg Task.input h)

theorem Config.nodup_tasks (hnames : ∀ name ∈ names, IsName name) (hnodup : names.Nodup) :
    (names.map config.task).Nodup :=
  hnodup.map_on fun name hname other hother =>
    config.task_inj (hnames name hname) (hnames other hother)

/-! ## Directories that are in place -/

theorem Compiled.of_mem_iff (h : Compiled config output tree names later)
    (hmem : ∀ name, name ∈ others ↔ name ∈ names) : Compiled config output tree others later where
  wellFormed := h.wellFormed
  home := h.home
  clock := h.clock
  artifact name hname := h.artifact name ((hmem name).mp hname)
  others location hlocation :=
    h.others location fun name hname => hlocation name ((hmem name).mpr hname)

/-- Which scripts were compiled determines the tree. -/
theorem Compiled.lookup_eq (h : Compiled config output tree names later)
    (hlast : Compiled config output tree names last) (location : Location) :
    later.lookup location = last.lookup location := by
  by_cases hartifact : ∃ name ∈ names, location = artifactName name :: output
  · obtain ⟨name, hname, rfl⟩ := hartifact
    rw [h.artifact name hname, hlast.artifact name hname]
  · have hothers : ∀ name ∈ names, location ≠ artifactName name :: output :=
      fun name hname heq => hartifact ⟨name, hname, heq⟩
    rw [h.others location hothers, hlast.others location hothers]

theorem independent_of_sited (h : Sited config tree input output)
    (hnames : ∀ name ∈ names, IsName name ∧ isScriptName name) :
    Independent tree (names.map config.task) fun done later =>
      Compiled config output tree (names.filter (config.task · ∈ done)) later where
  start := by
    simp only [Finset.notMem_empty, decide_false, List.filter_false]
    exact ⟨h.wellFormed, rfl, rfl, by simp, fun _ _ => rfl⟩
  run := by
    intro done later task hdone htask hfresh worker
    obtain ⟨name, hname, rfl⟩ := List.mem_map.mp htask
    obtain ⟨hisName, hscript⟩ := hnames name hname
    have hscripts : ∀ other ∈ names.filter (config.task · ∈ done), isScriptName other :=
      fun other hother => (hnames other (List.mem_filter.mp hother).1).2
    have hnew : name ∉ names.filter (config.task · ∈ done) := by
      simpa [hname] using hfresh
    obtain ⟨hvalue, hcompiled⟩ := run_task (hdone.sited h) hisName hscript worker
    constructor
    · rw [hvalue, hdone.verdict_of_not_mem h hscripts hisName hscript hnew, Task.outcome,
        (run_task h hisName hscript 0).1]
    · have hall := hdone.append h hcompiled (by simpa using hnew) hscripts
        (by simpa using ⟨hisName, hscript⟩)
      refine hall.of_mem_iff fun other => ?_
      simp only [List.mem_filter, List.mem_append, List.mem_singleton, decide_eq_true_eq,
        Finset.mem_insert]
      constructor
      · rintro ⟨hother, heq | hmem⟩
        · exact .inr (config.task_inj (hnames other hother).1 hisName heq)
        · exact .inl ⟨hother, hmem⟩
      · rintro (⟨hother, hmem⟩ | rfl)
        · exact ⟨hother, .inr hmem⟩
        · exact ⟨hname, .inl rfl⟩
  lookup := fun hlater hlast => hlater.lookup_eq hlast

/-! ## Directories that are not in place -/

/-- A task that writes something finds its directories in place. -/
theorem tree_run_task_of_not_sited (hwf : tree.WellFormed)
    (h : ∀ input output, ¬ Sited config tree input output) {name : RawText} (hname : IsName name)
    (hscript : isScriptName name) (worker : Nat) :
    ((config.task name).run tree worker).tree = tree := by
  change (tree.compileFile (config.inputDir.join ⟨name⟩)
    (config.outputDir.join ⟨artifactName name⟩)).tree = tree
  unfold compileFile
  split
  next => rfl
  next dialogue log hread =>
    split
    next => rfl
    next written hwritten =>
      have houtput := leadsTo_of_write_join (isName_artifactName hname hscript) hwritten
      obtain ⟨found, hfind⟩ : ∃ found, tree.find (config.inputDir.join ⟨name⟩) = .ok found := by
        cases hfind : tree.find (config.inputDir.join ⟨name⟩) with
        | ok found => exact ⟨found, rfl⟩
        | error fault =>
            simp [readDialogue, readText, FileTree.read, stat, hfind, Except.map] at hread
      exact absurd ⟨hwf, leadsTo_of_find_join hname hfind, houtput⟩ (h _ _)

theorem independent_of_not_sited (hwf : tree.WellFormed)
    (h : ∀ input output, ¬ Sited config tree input output)
    (hnames : ∀ name ∈ names, IsName name ∧ isScriptName name) :
    Independent tree (names.map config.task) fun _ later => later = tree where
  start := rfl
  run := by
    rintro done later task rfl htask - worker
    obtain ⟨name, hname, rfl⟩ := List.mem_map.mp htask
    obtain ⟨hisName, hscript⟩ := hnames name hname
    exact ⟨rfl, tree_run_task_of_not_sited hwf h hisName hscript worker⟩
  lookup := by
    rintro done later last rfl rfl location
    rfl

/-- The tasks of scripts do not notice each other, wherever they are carried out. -/
theorem exists_independent (config : Config) (hwf : tree.WellFormed)
    (hnames : ∀ name ∈ names, IsName name ∧ isScriptName name) :
    ∃ stage, Independent tree (names.map config.task) stage := by
  by_cases h : ∃ input output, Sited config tree input output
  · obtain ⟨input, output, hsited⟩ := h
    exact ⟨_, independent_of_sited hsited hnames⟩
  · exact ⟨_, independent_of_not_sited hwf (fun input output hsited => h ⟨input, output, hsited⟩)
      hnames⟩

end

end Parley.Batch
