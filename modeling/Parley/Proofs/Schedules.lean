import Parley.Proofs.Frames
import Parley.Proofs.Pools
import Parley.Proofs.Retries

/-!
# Batches that are shared

Workers that share the tasks of a batch may move in any order. The batch ends as
if its tasks were carried out one after the other: with the same fault or with
the same outcome, up to the order of the results, and in a tree with the same
entries. What is known about batches is therefore known about shared ones: which
files they leave alone, what they leave for the next batch to do, and which
scripts they will try again.
-/

namespace Parley

open FileTree Parley.Path

/-! ## Trees with the same entries -/

/-- Whether two trees have the same entries and the same home and clock. -/
structure FileTree.Same (tree other : FileTree) : Prop where
  home : other.home = tree.home
  clock : other.clock = tree.clock
  lookup : ∀ location, other.lookup location = tree.lookup location

namespace FileTree.Same

variable {tree other : FileTree}

theorem refl (tree : FileTree) : tree.Same tree := ⟨rfl, rfl, fun _ => rfl⟩

theorem contents? (h : tree.Same other) (location : Location) :
    other.contents? location = tree.contents? location := by
  rw [FileTree.contents?, FileTree.contents?, h.lookup]

theorem set (h : tree.Same other) {location : Location} (hlocation : location ≠ [])
    (entry : Entry) : (tree.set location entry).Same (other.set location entry) where
  home := h.home
  clock := h.clock
  lookup place := by rw [lookup_set _ hlocation, lookup_set _ hlocation, h.lookup]

theorem leadsTo (h : tree.Same other) {path : Path} {directory : Location}
    (hpath : tree.leadsTo path directory) : other.leadsTo path directory := by
  apply hpath.of_keeps h.home
  intro place hplace
  rw [h.lookup, hplace]

/-- A file is written in both trees or, for the same reason, in neither. -/
theorem write_join (h : tree.Same other) {base : Path} {directory : Location} {name : RawText}
    (hbase : tree.leadsTo base directory) (hname : IsName name) (contents : Bytes) :
    (∃ fault, tree.write (base.join ⟨name⟩) contents = .error fault ∧
        other.write (base.join ⟨name⟩) contents = .error fault) ∨
      ∃ later later', tree.write (base.join ⟨name⟩) contents = .ok later ∧
        other.write (base.join ⟨name⟩) contents = .ok later' ∧ later.Same later' := by
  have hbase' := h.leadsTo hbase
  by_cases husable : usable base name
  · rw [write_join_of_usable hbase hname husable, write_join_of_usable hbase' hname husable,
      h.lookup, h.clock]
    cases obstacle (tree.lookup (name :: directory)) with
    | none => exact .inr ⟨_, _, rfl, rfl, h.set (List.cons_ne_nil _ _) _⟩
    | some fault =>
        dsimp only
        split
        · exact .inr ⟨tree, other, rfl, rfl, h⟩
        · exact .inl ⟨fault, rfl, rfl⟩
  · rw [write_join_of_not_usable hbase hname husable,
      write_join_of_not_usable hbase' hname husable]
    exact .inl ⟨_, rfl, rfl⟩

end FileTree.Same

namespace Batch

open StampTable

-- A path that is joined is known by its lemmas. Its text is not computed.
attribute [local irreducible] Path.join

/-! ## Outcomes up to the order of their results -/

/-- Whether two outcomes differ at most in the order of their results. -/
structure Outcome.Alike (outcome other : Outcome) : Prop where
  config : other.config = outcome.config
  unchanged : other.unchanged = outcome.unchanged
  results : other.results.Perm outcome.results
  snapshot : other.snapshot = outcome.snapshot

/-- Failures are forgotten in any order. -/
theorem forgetFailures_perm (table : StampTable) {results others : List TaskResult}
    (h : results.Perm others) : forgetFailures table results = forgetFailures table others := by
  apply eq_of_get?_eq
  intro key
  rw [get?_forgetFailures, get?_forgetFailures]
  simp only [((failedNames_perm h).map RawText.shown).mem_iff]

theorem Plan.alike_outcome (made : Plan) {results others : List TaskResult}
    (h : others.Perm results) : (made.outcome results).Alike (made.outcome others) where
  config := rfl
  unchanged := rfl
  results := h
  snapshot := by rw [Plan.outcome, Plan.outcome, forgetFailures_perm made.snapshot h]

/-- Whether two batches end alike. -/
inductive EndsAlike : Except Fault Outcome → Except Fault Outcome → Prop where
  | failed (fault : Fault) : EndsAlike (.error fault) (.error fault)
  | done {outcome other : Outcome} (h : outcome.Alike other) : EndsAlike (.ok outcome) (.ok other)

/-- Alike outcomes are stored alike. -/
theorem Outcome.Alike.persist {outcome other : Outcome} (h : outcome.Alike other)
    {executed executed' : FileTree} (hsame : executed.Same executed') {directory : Location}
    (htable : executed.leadsTo outcome.config.tableDir directory) :
    (outcome.persist executed).tree.Same (other.persist executed').tree ∧
      EndsAlike ((outcome.persist executed).value.map fun _ => outcome)
        ((other.persist executed').value.map fun _ => other) := by
  unfold Outcome.persist saveTable Config.tablePath
  dsimp only
  rw [h.config, h.snapshot]
  rcases hsame.write_join htable isName_tableName outcome.snapshot.bytes with
    ⟨fault, hfault, hfault'⟩ | ⟨later, later', hlater, hlater', hsame⟩
  · rw [hfault, hfault']
    exact ⟨hsame, .failed _⟩
  · rw [hlater, hlater']
    exact ⟨hsame, .done h⟩

/-! ## Shared batches -/

section

variable {config : Config} {tree later : FileTree} {workers : Nat} {schedule : List Nat}
  {result : Except Fault Outcome}

theorem runShared_of_plan_eq_error {fault : Fault}
    (hplan : (plan config tree).value = .error fault) :
    runShared config workers schedule tree = some ((plan config tree).tree, .error fault) := by
  unfold runShared
  dsimp only
  rw [hplan]

theorem runShared_of_plan_eq_ok {made : Plan} (hplan : (plan config tree).value = .ok made) :
    runShared config workers schedule tree =
      (made.share workers schedule (plan config tree).tree).map fun (executed, outcome) =>
        ((outcome.persist executed).tree,
          (outcome.persist executed).value.map fun _ => outcome) := by
  unfold runShared
  dsimp only
  rw [hplan]

theorem result_run {made : Plan} (hplan : (plan config tree).value = .ok made) :
    (run config tree).result =
      ((made.execute (plan config tree).tree).value.persist
        (made.execute (plan config tree).tree).tree).value.map
          fun _ => (made.execute (plan config tree).tree).value := by
  unfold run
  dsimp only
  rw [hplan]

/-- A plan that is shared is carried out as if no worker shared it. -/
theorem Executed.share {planned executed : FileTree} {made : Plan}
    {input output directory : Location} {table : StampTable} {scripts : List Source}
    (h : Executed config planned made input output directory table scripts) {outcome : Outcome}
    (hshare : made.share workers schedule planned = some (executed, outcome)) :
    (made.execute planned).tree.Same executed ∧ (made.execute planned).value.Alike outcome := by
  have htasks : made.tasks = (staleNames table scripts).map config.task := by
    rw [h.made_eq, tasks_ofSources h.sited.wellFormed h.sited.input h.listed]
  obtain ⟨results, rfl, hresults, hcompiled⟩ := compiled_of_share h.sited
    (nodup_staleNames h.listed)
    (isName_of_mem_staleNames h.sited.wellFormed h.sited.input h.listed) htasks hshare
  constructor
  · exact
      { home := by rw [hcompiled.home, h.compiled.home]
        clock := by rw [hcompiled.clock, h.compiled.clock]
        lookup := hcompiled.lookup_eq h.compiled }
  · apply made.alike_outcome
    exact hresults.trans (.of_eq h.results.symm)

/-- Whatever the number of workers and the order of their moves, a batch ends as if
its tasks were carried out one after the other. -/
theorem endsAlike_runShared (hwf : tree.WellFormed)
    (h : runShared config workers schedule tree = some (later, result)) :
    (run config tree).tree.Same later ∧ EndsAlike (run config tree).result result := by
  cases hplan : (plan config tree).value with
  | error fault =>
      obtain ⟨htree, hresult⟩ := run_of_plan_eq_error hplan
      rw [runShared_of_plan_eq_error hplan] at h
      obtain ⟨rfl, rfl⟩ := Prod.mk.inj (Option.some.inj h)
      rw [htree, hresult]
      exact ⟨.refl _, .failed fault⟩
  | ok made =>
      obtain ⟨input, output, directory, table, scripts, hexecuted⟩ := executed_of_plan hwf hplan
      rw [runShared_of_plan_eq_ok hplan] at h
      obtain ⟨⟨executed, outcome⟩, hshare, hend⟩ := Option.map_eq_some_iff.mp h
      obtain ⟨rfl, rfl⟩ := Prod.mk.inj hend
      obtain ⟨hsame, halike⟩ := hexecuted.share hshare
      rw [tree_run hplan, result_run hplan]
      exact halike.persist hsame hexecuted.tableDir_executed

/-- No schedule is a dead end. With more moves, every batch comes to its end. -/
theorem exists_runShared (config : Config) (hwf : tree.WellFormed) (workers : Nat)
    (schedule : List Nat) :
    ∃ more later result,
      runShared config workers (schedule ++ more) tree = some (later, result) := by
  cases hplan : (plan config tree).value with
  | error fault => exact ⟨[], _, _, runShared_of_plan_eq_error hplan⟩
  | ok made =>
      obtain ⟨names, htasks, hnames, hscripts⟩ := Pool.exists_names_of_plan hwf hplan
      have hlater := (grows_plan config tree).wellFormed hwf
      obtain ⟨stage, hind⟩ := exists_independent config hlater hscripts
      have hnodup := config.nodup_tasks (fun name hname => (hscripts name hname).1) hnames
      have hsound := (Pool.sound_start hind workers).run hind hnodup schedule
      obtain ⟨more, hdone⟩ := hsound.exists_isDone hind hnodup
      rw [← htasks, ← Pool.run_append] at hdone
      have hrun : runShared config workers (schedule ++ more) tree = _ :=
        runShared_of_plan_eq_ok hplan
      rw [made.share_of_isDone hdone, Option.map_some] at hrun
      exact ⟨more, _, _, hrun⟩

/-! ## What shared batches leave -/

theorem Framed.of_same {last : FileTree} (h : Framed config tree later) (hsame : later.Same last) :
    Framed config tree last where
  kept location entry hentry hfile := by
    rw [hsame.lookup]
    exact h.kept location entry hentry hfile
  files location hfile := by
    rw [hsame.contents?]
    exact h.files location hfile
  scripts name above contents modified hscript hfile := by
    rw [hsame.lookup]
    exact h.scripts name above contents modified hscript hfile
  changes location hchange := by
    rw [hsame.contents?] at hchange
    exact h.changes location hchange
  directories location hmade := by
    rw [hsame.lookup] at hmade
    exact h.directories location hmade
  unchanged made hplan script hscript := by
    rw [hsame.contents?]
    exact h.unchanged made hplan script hscript
  failed made hplan result hresult hfailed := by
    rw [hsame.contents?]
    exact h.failed made hplan result hresult hfailed
  compiled made hplan result hresult hok := by
    rw [hsame.contents?]
    exact h.compiled made hplan result hresult hok

/-- A shared batch leaves the files of a tree alone but for its artifacts and its
stamp table. -/
theorem framed_runShared (hwf : tree.WellFormed)
    (h : runShared config workers schedule tree = some (later, result)) :
    Framed config tree later :=
  (framed_run_tree hwf).of_same (endsAlike_runShared hwf h).1

theorem completed_of_runShared {done : FileTree} {outcome : Outcome} (hwf : tree.WellFormed)
    (h : runShared config workers schedule tree = some (done, .ok outcome))
    (hlookup : ∀ location, later.lookup location = done.lookup location)
    (hhome : later.home = done.home) :
    ∃ first planned executed input output directory table scripts, first.Alike outcome ∧
      Completed config planned executed later input output directory table scripts first ∧
      tree.isDirectory config.inputDir = true ∧ (prepare config tree).2 = none ∧ scripts ≠ [] ∧
      Grows tree planned := by
  obtain ⟨hsame, hends⟩ := endsAlike_runShared hwf h
  generalize hrun : (run config tree).result = ended at hends
  cases hends with
  | @done first other halike =>
      obtain ⟨planned, executed, input, output, directory, table, scripts, hcompleted⟩ :=
        completed_of_run hwf hrun (fun location => (hlookup location).trans (hsame.lookup location))
          (hhome.trans hsame.home)
      exact ⟨first, planned, executed, input, output, directory, table, scripts, halike,
        hcompleted⟩

/-- A shared batch leaves nothing to do for the next one but the scripts that
failed, and those only if failures are not remembered. The next batch, shared or
not, leaves the bytes of every file alone. -/
theorem plan_of_runShared {done : FileTree} {outcome : Outcome} (hwf : tree.WellFormed)
    (hrun : runShared config workers schedule tree = some (done, .ok outcome))
    (hscripts : ∀ name contents modified, isScriptName name →
      tree.lookup (name :: tree.destination config.inputDir) = some (.file contents modified) →
        isStorableName name ∧ modified.hasPlainYear)
    (now : Instant) :
    ∃ next scripts, (plan config { done with clock := now }).value = .ok next ∧
      sources { done with clock := now } config.inputDir = .ok scripts ∧
      next.tasks.Perm (if config.rememberFailures then []
        else (outcome.results.filter (!·.isOk)).map TaskResult.task) ∧
      next.unchanged =
        (scripts.filter fun source => source.path ∉ next.tasks.map Task.input).map Source.path ∧
      ∀ workers schedule last result,
        runShared config workers schedule { done with clock := now } = some (last, result) →
          ∀ location, last.contents? location = done.contents? location := by
  have hlookup : ∀ location, FileTree.lookup { done with clock := now } location =
      done.lookup location := fun _ => rfl
  obtain ⟨first, planned, executed, input, output, directory, table, scripts, halike, h, hinput,
    hprepare, hne, hgrows⟩ := completed_of_runShared hwf hrun hlookup rfl
  have hstorable := h.storable_of_grows hgrows hscripts
  have hplan := h.plan_later hinput hprepare hne
  refine ⟨_, scripts, by rw [hplan], h.sources_later, ?_,
    unchanged_ofSources h.wellFormed h.sited_later.input h.sources_later, ?_⟩
  · rw [h.tasks_later hstorable]
    split
    next => exact .refl []
    next => exact ((halike.results.symm.filter _).map _)
  · intro workers schedule last result hagain location
    rw [(endsAlike_runShared h.wellFormed hagain).1.contents?,
      h.contents?_run_later hstorable hplan]
    rfl

/-- A script that failed in a shared batch is tried again unless the stored stamps
vouch for it by mistake. -/
theorem failed_mem_tasks_of_runShared {outcome : Outcome} (hwf : tree.WellFormed)
    (hrun : runShared config workers schedule tree = some (later, .ok outcome))
    (hforget : config.rememberFailures = false) {result : TaskResult}
    (hresult : result ∈ outcome.results) (hfailed : result.isOk = false) :
    ∃ next source scripts, (plan config later).value = .ok next ∧
      sources later config.inputDir = .ok scripts ∧ source ∈ scripts ∧
      source.path = result.task.input ∧
      (result.task ∈ next.tasks ↔ ¬ outcome.vouchesFor source) ∧
      (source.path ∈ next.unchanged ↔ outcome.vouchesFor source) ∧
      ((∀ name, outcome.snapshot.get? name ≠ none → '\n' ∉ name.toList ∧ '\r' ∉ name.toList) →
        (∀ name, outcome.snapshot.isLeast name → ¬ isMarked name) →
        result.task ∈ next.tasks ∧ source.path ∉ next.unchanged) := by
  obtain ⟨first, planned, executed, input, output, directory, table, scripts, halike, h, hinput,
    hprepare, hne, -⟩ := completed_of_runShared hwf hrun (fun _ => rfl) rfl
  have hplan := h.plan_later hinput hprepare hne
  obtain ⟨source, hsource, hpath, htasks, hunchanged, hunstored⟩ :=
    h.failed_later hforget (halike.results.mem_iff.mp hresult) hfailed rfl
  have hvouches : outcome.vouchesFor source ↔ first.vouchesFor source := by
    rw [Outcome.vouchesFor, Outcome.vouchesFor, halike.snapshot]
  rw [← hvouches] at htasks hunchanged
  refine ⟨_, source, scripts, by rw [hplan], h.sources_later, hsource, hpath, htasks, hunchanged,
    ?_⟩
  intro hends hmark
  rw [← halike.snapshot] at hunstored
  have hnot := not_vouchesFor hunstored hends hmark
  exact ⟨htasks.mpr hnot, mt hunchanged.mp hnot⟩

end

end Batch

end Parley
