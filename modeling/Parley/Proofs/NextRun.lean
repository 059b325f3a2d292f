import Mathlib.Data.List.Basic
import Parley.Batch.Report
import Parley.Proofs.Persistence

/-!
# What a run leaves for the next one

After a run that went well, the stored table knows every script but those that
failed, unless failures are remembered. The next plan therefore passes over
all other scripts. Scripts that failed fail again, in the same way, since
neither they nor the places of their artifacts have changed. So a second run
writes no artifact, arrives at the same stamps and stores the same bytes.
-/

namespace Parley

/-- The bytes of the file at a location, if there is one. -/
def FileTree.contents? (tree : FileTree) (location : Location) : Option Bytes :=
  match tree.lookup location with
  | some (.file contents _) => some contents
  | _ => none

namespace Batch

open FileTree Parley.Path StampTable

-- A path that is joined is known by its lemmas. Its text is not computed.
attribute [local irreducible] Path.join

/-- The elements of a sublist are picked out by membership. -/
theorem filter_mem_of_sublist {names all : List RawText} (h : names.Sublist all)
    (hnodup : all.Nodup) : all.filter (· ∈ names) = names := by
  induction h with
  | slnil => rfl
  | @cons names all name h ih =>
      obtain ⟨hname, hnodup⟩ := List.nodup_cons.mp hnodup
      have hnot : name ∉ names := fun hmem => hname (h.subset hmem)
      rw [List.filter_cons_of_neg (by simpa using hnot), ih hnodup]
  | @cons_cons names all name h ih =>
      obtain ⟨hname, hnodup⟩ := List.nodup_cons.mp hnodup
      rw [List.filter_cons_of_pos (by simp)]
      have hrest : all.filter (· ∈ name :: names) = all.filter (· ∈ names) := by
        apply List.filter_congr
        intro other hother
        have hne : other ≠ name := fun heq => hname (heq ▸ hother)
        simp [hne]
      rw [hrest, ih hnodup]

theorem forgetFailures_congr {results others : List TaskResult} (table : StampTable)
    (h : results.filter (!·.isOk) = others.filter (!·.isOk)) :
    forgetFailures table results = forgetFailures table others := by
  unfold forgetFailures
  rw [h]

theorem filter_not_isOk_map (config : Config) (names : List RawText)
    (fault : RawText → Option CompileFault) :
    (names.map fun name => (⟨config.task name, fault name⟩ : TaskResult)).filter (!·.isOk) =
      (names.filter fun name => (fault name).isSome).map
        fun name => ⟨config.task name, fault name⟩ := by
  rw [List.filter_map]
  refine congrArg _ (List.filter_congr ?_)
  intro name _
  simp [TaskResult.isOk]

/-! ## One run -/

section

variable {config : Config} {tree : FileTree} {input output directory : Location}
  {table : StampTable} {scripts : List Source}

/-- The stamps that are stored for scripts with these results. -/
def keptStamps (config : Config) (scripts : List Source) (results : List TaskResult) :
    StampTable :=
  if config.rememberFailures then stampsOf scripts else forgetFailures (stampsOf scripts) results

/-- The stamp that is kept under a key is that of the last script that goes by it,
unless a script with that key has failed. -/
theorem get?_keptStamps (config : Config) (scripts : List Source) (results : List TaskResult)
    (key : String) :
    (keptStamps config scripts results).get? key =
      if config.rememberFailures = false ∧ key ∈ (failedNames results).map RawText.shown then none
      else (lastUnder key scripts).map Source.modified := by
  rw [keptStamps, ← get?_stampsOf]
  cases config.rememberFailures with
  | true => simp
  | false =>
      rw [if_neg Bool.false_ne_true, get?_forgetFailures]
      simp only [true_and]

/-- How the scripts end that a table does not know as they are. -/
def verdicts (config : Config) (tree : FileTree) (output : Location) (table : StampTable)
    (scripts : List Source) : List TaskResult :=
  (staleNames table scripts).map fun name => ⟨config.task name, verdict config tree output name⟩

/-- Executing a plan compiles the scripts that it does not pass over. -/
theorem execute_ofSources (table : StampTable) (h : Sited config tree input output)
    (hscripts : sources tree config.inputDir = .ok scripts) :
    (Plan.execute (.ofSources config table scripts) tree).value.results =
        verdicts config tree output table scripts ∧
      (Plan.execute (.ofSources config table scripts) tree).value.snapshot =
        keptStamps config scripts (verdicts config tree output table scripts) ∧
      Compiled config output tree (staleNames table scripts)
        (Plan.execute (.ofSources config table scripts) tree).tree := by
  have hnames : ∀ name ∈ staleNames table scripts, IsName name ∧ isScriptName name :=
    isName_of_mem_staleNames h.wellFormed h.input hscripts
  have hran := runTasks_tasks h (nodup_staleNames hscripts) hnames
  rw [← tasks_ofSources h.wellFormed h.input hscripts] at hran
  obtain ⟨hvalue, hcompiled⟩ := hran
  refine ⟨hvalue, ?_, hcompiled⟩
  rw [verdicts, ← hvalue]
  rfl

theorem tree_run {made : Plan} (h : (plan config tree).value = .ok made) :
    (run config tree).tree =
      ((made.execute (plan config tree).tree).value.persist
        (made.execute (plan config tree).tree).tree).tree := by
  unfold run
  dsimp only
  rw [h]

theorem run_eq_ok {outcome : Outcome} (h : (run config tree).result = .ok outcome) :
    ∃ made, (plan config tree).value = .ok made ∧
      outcome = (made.execute (plan config tree).tree).value ∧
      (outcome.persist (made.execute (plan config tree).tree).tree).value = .ok () := by
  unfold run at h
  dsimp only at h
  cases hplan : (plan config tree).value with
  | error fault => simp [hplan] at h
  | ok made =>
      rw [hplan] at h
      dsimp only at h
      cases hsaved : ((made.execute (plan config tree).tree).value.persist
          (made.execute (plan config tree).tree).tree).value with
      | error fault => simp [hsaved, Except.map] at h
      | ok =>
          rw [hsaved] at h
          obtain rfl := Except.ok.inj h
          exact ⟨made, rfl, rfl, hsaved⟩

end

/-! ## The tree after a run -/

/-- A run that went well, from the tree it was planned on to a later tree in
which all files are as the run left them. -/
structure Completed (config : Config) (planned executed later : FileTree)
    (input output directory : Location) (table : StampTable) (scripts : List Source)
    (outcome : Outcome) : Prop where
  sited : Sited config planned input output
  tableDir : planned.leadsTo config.tableDir directory
  listed : sources planned config.inputDir = .ok scripts
  sameConfig : outcome.config = config
  results : outcome.results = verdicts config planned output table scripts
  snapshot : outcome.snapshot = keptStamps config scripts outcome.results
  compiled : Compiled config output planned (staleNames table scripts) executed
  persisted : (outcome.persist executed).value = .ok ()
  lookup : ∀ location, later.lookup location = (outcome.persist executed).tree.lookup location
  home : later.home = (outcome.persist executed).tree.home

namespace Completed

variable {config : Config} {planned executed later : FileTree} {input output directory : Location}
  {table : StampTable} {scripts : List Source} {outcome : Outcome}

variable (h : Completed config planned executed later input output directory table scripts outcome)

include h

theorem tableDir_executed : executed.leadsTo outcome.config.tableDir directory := by
  rw [h.sameConfig]
  exact h.tableDir.of_keeps h.compiled.home fun _ => h.compiled.directory

theorem stored : Stored directory executed (outcome.persist executed).tree :=
  stored_persist h.compiled.wellFormed h.tableDir_executed

theorem home_later : later.home = planned.home := by
  rw [h.home, h.stored.home, h.compiled.home]

theorem keeps (place : Location) (hplace : planned.lookup place = some .directory) :
    later.lookup place = some .directory := by
  rw [h.lookup]
  exact h.stored.keeps place (h.compiled.directory hplace)

theorem wellFormed : later.WellFormed where
  isName hentry := h.stored.wellFormed.isName (h.lookup _ ▸ hentry)
  parent hentry := by
    rw [h.lookup] at hentry ⊢
    exact h.stored.wellFormed.parent hentry
  home := by
    rw [h.home_later]
    exact h.keeps _ h.sited.wellFormed.home

theorem sited_later : Sited config later input output :=
  h.sited.of_keeps h.wellFormed h.home_later h.keeps

theorem tableDir_later : later.leadsTo config.tableDir directory :=
  h.tableDir.of_keeps h.home_later h.keeps

theorem script {name : RawText} (hscript : isScriptName name) (above : Location) :
    later.lookup (name :: above) = planned.lookup (name :: above) := by
  rw [h.lookup, h.stored.script hscript, h.compiled.script hscript]

theorem sources_later : sources later config.inputDir = .ok scripts :=
  sources_congr h.sited.wellFormed h.wellFormed h.sited.input h.sited_later.input
    (fun _ hscript => h.script hscript input) h.listed

theorem verdict_later {name : RawText} (hname : name ∈ staleNames table scripts)
    (hfault : verdict config planned output name ≠ none) :
    verdict config later output name = verdict config planned output name := by
  obtain ⟨fault, hfault⟩ := Option.ne_none_iff_exists'.mp hfault
  obtain ⟨hisName, hscript⟩ :=
    isName_of_mem_staleNames h.sited.wellFormed h.sited.input h.listed name hname
  refine verdict_congr h.sited h.sited_later hisName (h.script hscript input) ?_
  rw [h.lookup, h.stored.artifact, h.compiled.artifact name hname,
    artifactEntry_of_verdict_eq_some hfault]

theorem failedNames_results : failedNames outcome.results =
    (staleNames table scripts).filter fun name => (verdict config planned output name).isSome := by
  have hnames : ∀ name ∈ staleNames table scripts, IsName name := fun name hname =>
    (isName_of_mem_staleNames h.sited.wellFormed h.sited.input h.listed name hname).1
  rw [h.results, verdicts, failedNames_map_task hnames]

/-! ## What the stored table knows -/

theorem get?_snapshot (key : String) :
    outcome.snapshot.get? key =
      if config.rememberFailures = false ∧ key ∈ (failedNames outcome.results).map RawText.shown
      then none else (lastUnder key scripts).map Source.modified := by
  rw [h.snapshot, get?_keptStamps]

theorem failedNames_sublist : (failedNames outcome.results).Sublist (scripts.map Source.name) := by
  rw [h.failedNames_results]
  exact List.filter_sublist.trans (List.filter_sublist.map _)

/-- Among texts, the keys of the scripts that failed are their own. -/
theorem key_mem_failed_iff (htext : ∀ source ∈ scripts, source.name.isText) {source : Source}
    (hsource : source ∈ scripts) :
    source.key ∈ (failedNames outcome.results).map RawText.shown ↔
      source.name ∈ failedNames outcome.results := by
  refine ⟨fun hkey => ?_, List.mem_map_of_mem⟩
  obtain ⟨name, hname, hshown⟩ := List.mem_map.mp hkey
  obtain ⟨other, hother, rfl⟩ := List.mem_map.mp (h.failedNames_sublist.subset hname)
  rwa [← (htext other hother).eq_of_shown (htext source hsource) hshown]

theorem get?_snapshot_iff (htext : ∀ source ∈ scripts, source.name.isText) {key : String}
    {seen : Instant} :
    outcome.snapshot.get? key = some seen ↔
      (config.rememberFailures = true ∨ key ∉ (failedNames outcome.results).map RawText.shown) ∧
        ∃ source ∈ scripts, source.key = key ∧ source.modified = seen := by
  rw [← get?_stampsOf_iff (nodup_keys_sources h.listed htext), get?_stampsOf, h.get?_snapshot]
  cases config.rememberFailures <;> simp

theorem previous_later : (previous config later).1 = storedTable later directory := by
  have husable : usable config.tableDir tableName := by
    rcases persist_cases h.tableDir_executed with ⟨⟨fault, hfault⟩, -⟩ | ⟨-, husable, -⟩
    · rw [h.persisted] at hfault
      contradiction
    · exact h.sameConfig ▸ husable
  rw [previous_eq h.tableDir_later, if_pos husable]

/-- The next plan takes a script for unchanged unless it failed, or even then if
failures are remembered. -/
theorem isFresh_previous_iff
    (hscripts : ∀ source ∈ scripts, isStorableName source.name ∧ source.modified.hasPlainYear)
    {source : Source} (hsource : source ∈ scripts) :
    (previous config later).1.isFresh source.key source.modified = true ↔
      config.rememberFailures = true ∨ source.name ∉ failedNames outcome.results := by
  have htext : ∀ source ∈ scripts, source.name.isText := fun source hsource =>
    (hscripts source hsource).1.1
  have hstorable : ∀ key seen, outcome.snapshot.get? key = some seen → isStorable key := by
    intro key seen hseen
    obtain ⟨-, source, hsource, rfl, -⟩ := (h.get?_snapshot_iff htext).mp hseen
    exact (hscripts source hsource).1.2
  have hget := get?_storedTable_persist h.tableDir_executed h.persisted hstorable source.key
  rw [← storedTable_congr (h.lookup _), ← h.previous_later] at hget
  rw [isFresh_iff, hget, ← h.key_mem_failed_iff htext hsource]
  constructor
  · rintro ⟨seen, hseen, -⟩
    obtain ⟨noted, hnoted, -⟩ := Option.bind_eq_some_iff.mp hseen
    exact ((h.get?_snapshot_iff htext).mp hnoted).1
  · intro hkept
    obtain ⟨-, -, contents, modified, -, hof⟩ :=
      (mem_sources_iff h.sited.wellFormed h.sited.input h.listed).mp hsource
    -- A source carries a whole second, and that is what its timestamp keeps of it.
    have hwhole : source.modified.nanos < Instant.nanosPerSecond := by
      rw [hof]
      exact (by decide : 0 < Instant.nanosPerSecond)
    have hnoted : outcome.snapshot.get? source.key = some source.modified :=
      (h.get?_snapshot_iff htext).mpr ⟨hkept, source, hsource, rfl, rfl⟩
    rw [hnoted, Option.bind_some, Timestamp.read?_text hwhole (hscripts source hsource).2]
    exact ⟨_, rfl, rfl⟩

/-- The next plan compiles the scripts that failed, if any. -/
theorem staleNames_previous
    (hscripts : ∀ source ∈ scripts, isStorableName source.name ∧ source.modified.hasPlainYear) :
    staleNames (previous config later).1 scripts =
      if config.rememberFailures then [] else failedNames outcome.results := by
  have hstale : staleNames (previous config later).1 scripts =
      (scripts.map Source.name).filter fun name =>
        config.rememberFailures = false ∧ name ∈ failedNames outcome.results := by
    rw [staleNames, List.filter_map]
    refine congrArg _ (List.filter_congr ?_)
    intro source hsource
    rw [Bool.eq_iff_iff, Bool.not_eq_true', ← Bool.not_eq_true,
      h.isFresh_previous_iff hscripts hsource]
    simp
  rw [hstale]
  cases config.rememberFailures with
  | true => simp
  | false =>
      simpa using filter_mem_of_sublist h.failedNames_sublist (nodup_names_sources h.listed)

theorem filter_not_isOk_results : outcome.results.filter (!·.isOk) =
    (failedNames outcome.results).map
      fun name => ⟨config.task name, verdict config planned output name⟩ := by
  rw [h.failedNames_results, h.results, verdicts, filter_not_isOk_map]

/-! ## The next run -/

theorem verdict_of_mem_failedNames {name : RawText} (hname : name ∈ failedNames outcome.results) :
    verdict config planned output name ≠ none ∧
      verdict config later output name = verdict config planned output name := by
  rw [h.failedNames_results, List.mem_filter] at hname
  have hfault : verdict config planned output name ≠ none := Option.isSome_iff_ne_none.mp hname.2
  exact ⟨hfault, h.verdict_later hname.1 hfault⟩

/-- The next run arrives at the same stamps. -/
theorem keptStamps_later
    (hscripts : ∀ source ∈ scripts, isStorableName source.name ∧ source.modified.hasPlainYear) :
    keptStamps config scripts
        (verdicts config later output (previous config later).1 scripts) = outcome.snapshot := by
  rw [h.snapshot, keptStamps, keptStamps]
  split
  next => rfl
  next hforget =>
    apply forgetFailures_congr
    rw [verdicts, h.staleNames_previous hscripts, if_neg hforget, filter_not_isOk_map,
      h.filter_not_isOk_results]
    -- What is compiled again is what failed, and all of it fails in the same way.
    have hall : (failedNames outcome.results).filter
        (fun name => (verdict config later output name).isSome) = failedNames outcome.results := by
      rw [List.filter_eq_self]
      intro name hname
      obtain ⟨hfault, hsame⟩ := h.verdict_of_mem_failedNames hname
      rw [hsame]
      exact Option.isSome_iff_ne_none.mpr hfault
    rw [hall]
    apply List.map_congr_left
    intro name hname
    rw [(h.verdict_of_mem_failedNames hname).2]

/-- The next run writes no artifact. -/
theorem lookup_of_compiled
    (hscripts : ∀ source ∈ scripts, isStorableName source.name ∧ source.modified.hasPlainYear)
    {next : FileTree}
    (hnext : Compiled config output later (staleNames (previous config later).1 scripts) next)
    (location : Location) : next.lookup location = later.lookup location := by
  by_cases hartifact : ∃ name ∈ staleNames (previous config later).1 scripts,
      location = artifactName name :: output
  · obtain ⟨name, hname, rfl⟩ := hartifact
    -- Only scripts that failed are compiled again, and a script that fails writes nothing.
    rw [hnext.artifact name hname]
    rw [h.staleNames_previous hscripts] at hname
    split at hname
    next => simp at hname
    next =>
      obtain ⟨hfault, hsame⟩ := h.verdict_of_mem_failedNames hname
      obtain ⟨fault, hfault⟩ := Option.ne_none_iff_exists'.mp hfault
      exact artifactEntry_of_verdict_eq_some (hsame.trans hfault)
  · apply hnext.others
    intro name hname heq
    exact hartifact ⟨name, hname, heq⟩

/-- Storing the same stamps again leaves the same bytes. -/
theorem contents?_persist {next : FileTree} {again : Outcome}
    (hnext : ∀ location, next.lookup location = later.lookup location)
    (htableDir : next.leadsTo again.config.tableDir directory)
    (hagain : again.snapshot = outcome.snapshot) (location : Location) :
    (again.persist next).tree.contents? location = later.contents? location := by
  have hsame {tree : FileTree} (htree : tree.lookup location = later.lookup location) :
      tree.contents? location = later.contents? location := by
    unfold contents?
    rw [htree]
  rcases persist_cases htableDir with ⟨-, htree⟩ | ⟨-, -, ⟨-, -, htree⟩ | ⟨hfree, htree⟩⟩
  · rw [htree]
    exact hsame (hnext location)
  · rw [htree]
    exact hsame (hnext location)
  · rw [htree]
    by_cases hlocation : tableName :: directory = location
    · subst hlocation
      rcases persist_cases h.tableDir_executed with
        ⟨⟨fault, hfault⟩, -⟩ | ⟨-, -, ⟨-, hdevice, hfirst⟩ | ⟨-, hfirst⟩⟩
      · rw [h.persisted] at hfault
        contradiction
      · rw [hnext, h.lookup, hfirst, hdevice] at hfree
        contradiction
      · unfold contents?
        rw [h.lookup, hfirst, lookup_set_self, lookup_set_self, hagain]
    · exact hsame ((lookup_set_of_ne _ _ hlocation).trans (hnext location))

theorem plan_later {tree : FileTree} (hinput : tree.isDirectory config.inputDir = true)
    (hprepare : (prepare config tree).2 = none) (hne : scripts ≠ []) :
    plan config later = ⟨later, (previous config later).2,
      .ok (.ofSources config (previous config later).1 scripts)⟩ := by
  obtain ⟨location, hfind⟩ := isDirectory_iff.mp hinput
  obtain ⟨hfault, hsteps, -⟩ := find_eq_directory_iff.mp hfind
  have hinput' : later.isDirectory config.inputDir = true :=
    isDirectory_iff.mpr ⟨input, find_eq_directory_iff.mpr ⟨hfault, hsteps, h.sited_later.input⟩⟩
  exact plan_of_sources hinput'
    (prepare_of_prepare hprepare h.sited_later.output h.tableDir_later) h.sources_later hne

/-- The scripts that were listed are those of the tree that the run began with. -/
theorem storable_of_grows {tree : FileTree} (hgrows : Grows tree planned)
    (hscripts : ∀ name contents modified, isScriptName name →
      tree.lookup (name :: tree.destination config.inputDir) = some (.file contents modified) →
        isStorableName name ∧ modified.hasPlainYear) :
    ∀ source ∈ scripts, isStorableName source.name ∧ source.modified.hasPlainYear := by
  intro source hsource
  obtain ⟨hscript, -, contents, modified, hfile, hof⟩ :=
    (mem_sources_iff h.sited.wellFormed h.sited.input h.listed).mp hsource
  rw [h.sited.input.eq_destination, destination_congr hgrows.home] at hfile
  rw [hof]
  exact hscripts source.name contents modified hscript (hgrows.lookup_file hfile)

theorem tasks_later
    (hscripts : ∀ source ∈ scripts, isStorableName source.name ∧ source.modified.hasPlainYear) :
    (Plan.ofSources config (previous config later).1 scripts).tasks =
      if config.rememberFailures then []
      else (outcome.results.filter (!·.isOk)).map TaskResult.task := by
  rw [tasks_ofSources h.wellFormed h.sited_later.input h.sources_later,
    h.staleNames_previous hscripts]
  split
  next => rfl
  next =>
    rw [h.filter_not_isOk_results, List.map_map]
    rfl

/-- The next run leaves the bytes of every file alone. -/
theorem contents?_run_later
    (hscripts : ∀ source ∈ scripts, isStorableName source.name ∧ source.modified.hasPlainYear)
    {log : Log} (hplan : plan config later =
      ⟨later, log, .ok (.ofSources config (previous config later).1 scripts)⟩)
    (location : Location) :
    (run config later).tree.contents? location = later.contents? location := by
  obtain ⟨-, hsnapshot, hcompiled⟩ :=
    execute_ofSources (previous config later).1 h.sited_later h.sources_later
  rw [tree_run (congrArg Effect.value hplan), hplan]
  refine h.contents?_persist (h.lookup_of_compiled hscripts hcompiled) ?_
    (hsnapshot.trans (h.keptStamps_later hscripts)) location
  exact h.tableDir_later.of_keeps hcompiled.home fun _ => hcompiled.directory

end Completed

/-- A run that went well is a completed one, whatever time passes after it. -/
theorem completed_of_run {config : Config} {tree later : FileTree} {outcome : Outcome}
    (hwf : tree.WellFormed) (h : (run config tree).result = .ok outcome)
    (hlookup : ∀ location, later.lookup location = (run config tree).tree.lookup location)
    (hhome : later.home = (run config tree).tree.home) :
    ∃ planned executed input output directory table scripts,
      Completed config planned executed later input output directory table scripts outcome ∧
      tree.isDirectory config.inputDir = true ∧ (prepare config tree).2 = none ∧ scripts ≠ [] ∧
      Grows tree planned := by
  obtain ⟨made, hplan, houtcome, hpersisted⟩ := run_eq_ok h
  have htree := tree_run hplan
  rw [← houtcome] at htree
  have hgrows := grows_plan config tree
  obtain ⟨input, output, directory, hsited, htableDir⟩ := sited_of_plan hwf hplan
  obtain ⟨hinput, prepared, scripts, hprepare, rfl, hscripts, hne, rfl⟩ := plan_eq_ok hplan
  obtain ⟨hresults, hsnapshot, hcompiled⟩ :=
    execute_ofSources (previous config (plan config tree).tree).1 hsited hscripts
  rw [← houtcome] at hresults hsnapshot
  have hconfig : outcome.config = config := congrArg Outcome.config houtcome
  refine ⟨_, _, input, output, directory, _, scripts,
    ⟨hsited, htableDir, hscripts, hconfig, hresults, ?_, hcompiled, hpersisted, ?_, ?_⟩,
    hinput, by rw [hprepare], hne, hgrows⟩
  · rw [hsnapshot, hresults]
  · intro location
    rw [hlookup, htree]
  · rw [hhome, htree]

/-- A run leaves nothing to do for the next one but the scripts that failed, and
those only if failures are not remembered. The next run leaves the bytes of
every file alone. -/
theorem plan_of_run {config : Config} {tree : FileTree} (hwf : tree.WellFormed) {outcome : Outcome}
    (hrun : (run config tree).result = .ok outcome)
    (hscripts : ∀ name contents modified, isScriptName name →
      tree.lookup (name :: tree.destination config.inputDir) = some (.file contents modified) →
        isStorableName name ∧ modified.hasPlainYear)
    (now : Instant) :
    ∃ next scripts,
      (plan config { (run config tree).tree with clock := now }).value = .ok next ∧
      sources { (run config tree).tree with clock := now } config.inputDir = .ok scripts ∧
      next.tasks = (if config.rememberFailures then []
        else (outcome.results.filter (!·.isOk)).map TaskResult.task) ∧
      next.unchanged =
        (scripts.filter fun source => source.path ∉ next.tasks.map Task.input).map Source.path ∧
      ∀ location,
        (run config { (run config tree).tree with clock := now }).tree.contents? location =
          (run config tree).tree.contents? location := by
  have hlookup : ∀ location, FileTree.lookup { (run config tree).tree with clock := now } location =
      (run config tree).tree.lookup location := fun _ => rfl
  obtain ⟨planned, executed, input, output, directory, table, scripts, h, hinput, hprepare, hne,
    hgrows⟩ := completed_of_run hwf hrun hlookup rfl
  have hstorable := h.storable_of_grows hgrows hscripts
  have hplan := h.plan_later hinput hprepare hne
  exact ⟨_, scripts, by rw [hplan], h.sources_later, h.tasks_later hstorable,
    unchanged_ofSources h.wellFormed h.sited_later.input h.sources_later,
    h.contents?_run_later hstorable hplan⟩

/-- A directory with a script from before 1970 and a script without a text. -/
def mixedScripts : FileTree where
  entries :=
    [(["in"], .directory),
      (["old.oud", "in"],
        .file (Text.encode "(node s start)\n(text \"Hi\" quit)\n") ⟨-86400, 500000000⟩),
      (["empty.oud", "in"], .file (Text.encode "(node s start)\n") ⟨1700000000, 0⟩)]
  nodup_locations := by decide +kernel
  home := []
  clock := ⟨1700000100, 0⟩

def mixedConfig : Config :=
  { inputDir := ⟨"in"⟩, outputDir := ⟨"out"⟩, tableDir := ⟨"cache"⟩ }

theorem sources_mixedScripts :
    sources (prepare mixedConfig mixedScripts).1 mixedConfig.inputDir =
      .ok [Source.of mixedConfig.inputDir "empty.oud" ⟨1700000000, 0⟩,
        Source.of mixedConfig.inputDir "old.oud" ⟨-86400, 500000000⟩] := by
  have hfind : (prepare mixedConfig mixedScripts).1.find mixedConfig.inputDir =
      .ok (["in"], .directory) := by decide +kernel
  have hnames : ((prepare mixedConfig mixedScripts).1.names ["in"]).Perm
      ["empty.oud", "old.oud"] := by decide +kernel
  rw [sources_of_perm hfind hnames (by decide +kernel)]
  decide +kernel

theorem plan_mixedScripts : plan mixedConfig mixedScripts =
    ⟨(prepare mixedConfig mixedScripts).1,
      (previous mixedConfig (prepare mixedConfig mixedScripts).1).2,
      .ok (.ofSources mixedConfig (previous mixedConfig (prepare mixedConfig mixedScripts).1).1
        [Source.of mixedConfig.inputDir "empty.oud" ⟨1700000000, 0⟩,
          Source.of mixedConfig.inputDir "old.oud" ⟨-86400, 500000000⟩])⟩ := by
  refine plan_of_sources (by decide +kernel) (Prod.ext rfl ?_) sources_mixedScripts (by simp)
  decide +kernel

theorem result_run_mixedScripts (fault : Fault) :
    (run mixedConfig mixedScripts).result ≠ .error fault := by
  have hok : (run mixedConfig mixedScripts).result.toOption.isSome = true := by
    unfold run
    rw [plan_mixedScripts]
    decide +kernel
  intro hfault
  simp [hfault, Except.toOption] at hok

theorem plan_of_run_mixedScripts :
    ∃ outcome, (run mixedConfig mixedScripts).result = .ok outcome ∧ ∃ next scripts,
      (plan mixedConfig { (run mixedConfig mixedScripts).tree with
        clock := ⟨1700000200, 0⟩ }).value = .ok next ∧
      sources { (run mixedConfig mixedScripts).tree with clock := ⟨1700000200, 0⟩ }
        mixedConfig.inputDir = .ok scripts ∧
      next.tasks = (if mixedConfig.rememberFailures then []
        else (outcome.results.filter (!·.isOk)).map TaskResult.task) ∧
      next.unchanged =
        (scripts.filter fun source => source.path ∉ next.tasks.map Task.input).map Source.path ∧
      ∀ location,
        (run mixedConfig { (run mixedConfig mixedScripts).tree with
          clock := ⟨1700000200, 0⟩ }).tree.contents? location =
          (run mixedConfig mixedScripts).tree.contents? location := by
  have hwf : mixedScripts.WellFormed := .of_entries (by decide +kernel) (by decide +kernel)
  have hscripts : ∀ name contents modified, isScriptName name →
      mixedScripts.lookup (name :: mixedScripts.destination mixedConfig.inputDir) =
        some (.file contents modified) → isStorableName name ∧ modified.hasPlainYear := by
    intro name contents modified _ hfile
    have hmem := mem_entries_of_lookup hfile
    simp only [mixedScripts, List.mem_cons, Prod.mk.injEq, List.cons.injEq, Entry.file.injEq,
      List.not_mem_nil, or_false, reduceCtorEq, and_false, false_or] at hmem
    rcases hmem with ⟨⟨rfl, -⟩, -, rfl⟩ | ⟨⟨rfl, -⟩, -, rfl⟩
    · decide +kernel
    · decide +kernel
  cases hrun : (run mixedConfig mixedScripts).result with
  | error fault => exact absurd hrun (result_run_mixedScripts fault)
  | ok outcome => exact ⟨outcome, rfl, plan_of_run hwf hrun hscripts ⟨1700000200, 0⟩⟩

end Batch

end Parley
