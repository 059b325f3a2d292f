import Parley.Proofs.Partitions
import Parley.Proofs.StoredTables

/-!
# What a batch takes down

A batch that was carried out leaves a stamp table to be stored. It has one stamp
for each script that was unchanged or compiled, and those that failed are in it if
failures are remembered. Scripts are taken down under their names as they are
shown, so that this holds where no two of them are shown alike; otherwise they
share a stamp, and lose it together. The stamps were taken when the plan was made,
so nothing that happens to the files afterwards shows in them.

Results may come in any order and end in any way. All that counts is that there is
one for each task: then the names of what went well, what failed and what was
unchanged make up the names of the directory.
-/

namespace Parley

namespace Batch

open FileTree Parley.Path StampTable

-- A path that is joined is known by its lemmas. Its text is not computed.
attribute [local irreducible] Path.join

/-! ## The names in a snapshot -/

section

variable {scripts : List Source}

theorem perm_stampsOf (h : (scripts.map Source.key).Nodup) :
    ((stampsOf scripts).stamps.map Prod.fst).Perm (scripts.map Source.key) := by
  refine (List.perm_ext_iff_of_nodup (nodup_map_fst _) h).mpr fun key => ?_
  rw [mem_map_fst_iff]
  simp only [get?_stampsOf_iff h, List.mem_map]
  constructor
  · rintro ⟨seen, source, hsource, hkey, -⟩
    exact ⟨source, hsource, hkey⟩
  · rintro ⟨source, hsource, hkey⟩
    exact ⟨source.modified, source, hsource, hkey, rfl⟩

theorem perm_forgetFailures (table : StampTable) (results : List TaskResult) :
    ((forgetFailures table results).stamps.map Prod.fst).Perm
      ((table.stamps.map Prod.fst).filter (· ∉ (failedNames results).map RawText.shown)) := by
  refine (List.perm_ext_iff_of_nodup (nodup_map_fst _)
    ((nodup_map_fst table).filter _)).mpr fun key => ?_
  rw [List.mem_filter, mem_map_fst_iff, mem_map_fst_iff]
  simp only [get?_forgetFailures]
  by_cases hkey : key ∈ (failedNames results).map RawText.shown
  · simp only [hkey, if_true, reduceCtorEq, exists_false, not_true_eq_false, decide_false,
      Bool.false_eq_true, and_false]
  · simp only [hkey, if_false, not_false_eq_true, decide_true, and_true]

/-- What is left without the keys at the end is what stands in front of them. -/
theorem filter_not_mem_append {keys failed : List String} (h : (keys ++ failed).Nodup) :
    (keys ++ failed).filter (· ∉ failed) = keys := by
  have hdisjoint := List.disjoint_of_nodup_append h
  have hkeys : keys.filter (· ∉ failed) = keys :=
    List.filter_eq_self.mpr fun key hkey => decide_eq_true (hdisjoint hkey)
  have hfailed : failed.filter (· ∉ failed) = [] :=
    List.filter_eq_nil_iff.mpr fun key hkey => by simpa using hkey
  rw [List.filter_append, hkeys, hfailed, List.append_nil]

/-- The stamps that are kept are those of all scripts but the ones that failed, or
of all if failures are remembered. -/
theorem perm_keptStamps {config : Config} {names : List RawText} {results : List TaskResult}
    (h : (scripts.map Source.key).Nodup)
    (hnames : (names ++ failedNames results).Perm (scripts.map Source.name)) :
    ((keptStamps config scripts results).stamps.map Prod.fst).Perm
      ((names ++ if config.rememberFailures then failedNames results else []).map
        RawText.shown) := by
  have hkeys : (names.map RawText.shown ++ (failedNames results).map RawText.shown).Perm
      (scripts.map Source.key) := by
    have hshown := hnames.map RawText.shown
    rwa [List.map_append, List.map_map] at hshown
  have hall := (perm_stampsOf h).trans hkeys.symm
  rw [List.map_append]
  unfold keptStamps
  cases config.rememberFailures with
  | true => exact hall
  | false =>
      have hnodup := hall.nodup_iff.mp (nodup_map_fst _)
      have hkept := (perm_forgetFailures (stampsOf scripts) results).trans (hall.filter _)
      rw [filter_not_mem_append hnodup] at hkept
      simpa using hkept

end

/-! ## The names in results -/

/-- The names of the scripts whose tasks went well. -/
def compiledNames (results : List TaskResult) : List RawText :=
  (results.filter (·.isOk)).filterMap fun result => result.task.input.fileName?

section

variable {config : Config} {names : List RawText} {results : List TaskResult}
  (hnames : ∀ name ∈ names, IsName name)
  (h : (results.map TaskResult.task).Perm (names.map config.task))

include hnames h

/-- Every task is either compiled or failed. -/
theorem perm_compiledNames : (compiledNames results ++ failedNames results).Perm names := by
  have hread : (names.map config.task).filterMap (fun task => task.input.fileName?) = names := by
    rw [List.filterMap_map, List.filterMap_eq_map_iff_forall_eq_some.mpr, List.map_id]
    intro name hname
    exact fileName?_join config.inputDir (hnames name hname)
  have hresults := h.filterMap fun task => task.input.fileName?
  rw [hread, List.filterMap_map] at hresults
  rw [compiledNames, failedNames, ← List.filterMap_append]
  exact ((List.filter_append_perm _ _).filterMap _).trans hresults

/-- Scripts that results are picked for are known by their names. -/
theorem map_fileName?_filter (picked : TaskResult → Bool) :
    ((results.filter picked).map fun result => result.task.input).map Path.fileName? =
      ((results.filter picked).filterMap fun result => result.task.input.fileName?).map some := by
  rw [List.map_map, List.map_filterMap]
  refine (List.filterMap_eq_map_iff_forall_eq_some.mpr fun result hresult => ?_).symm
  have hmem := h.subset (List.mem_map_of_mem (List.mem_filter.mp hresult).1)
  obtain ⟨name, hname, htask⟩ := List.mem_map.mp hmem
  have hfile : result.task.input.fileName? = some name :=
    htask ▸ fileName?_join config.inputDir (hnames name hname)
  simp [hfile]

end

/-! ## What went well and what failed -/

namespace Outcome

theorem map_failures (outcome : Outcome) :
    outcome.failures.map (fun failure => (failure.1, some failure.2)) =
      (outcome.results.filter (!·.isOk)).map fun result => (result.task.input, result.fault) := by
  rw [failures]
  induction outcome.results with
  | nil => rfl
  | cons result results ih =>
      cases hfault : result.fault <;> simp [TaskResult.isOk, hfault, ih]

theorem map_fst_failures (outcome : Outcome) :
    outcome.failures.map Prod.fst =
      (outcome.results.filter (!·.isOk)).map fun result => result.task.input := by
  have hmap := congrArg (List.map Prod.fst) outcome.map_failures
  rw [List.map_map, List.map_map] at hmap
  exact hmap

theorem hasErrors_iff (outcome : Outcome) : outcome.hasErrors = true ↔ outcome.failures ≠ [] := by
  have hnil : outcome.failures = [] ↔ outcome.results.filter (!·.isOk) = [] := by
    rw [← List.map_eq_nil_iff, map_fst_failures, List.map_eq_nil_iff]
  rw [hasErrors, List.any_eq_true, Ne, hnil, List.filter_eq_nil_iff]
  simp

end Outcome

/-! ## Outcomes of a plan -/

theorem Plan.execute_value (made : Plan) (tree : FileTree) :
    (made.execute tree).value = made.outcome (runTasks tree made.tasks).value := rfl

theorem map_task_runTasks (tree : FileTree) (tasks : List Task) :
    (runTasks tree tasks).value.map TaskResult.task = tasks := by
  induction tasks generalizing tree with
  | nil => rfl
  | cons task rest ih =>
      rw [runTasks, List.map_cons, ih]
      rfl

/-- What a batch takes down about the scripts of a plan. -/
structure Recorded (config : Config) (tree : FileTree) (made : Plan) (outcome : Outcome) :
    Prop where
  /-- Each task has one result. -/
  results : (outcome.results.map TaskResult.task).Perm made.tasks
  /-- A script is taken down under its name as it is shown, with the second in which
  it was modified before the plan. Of scripts that are shown alike the last one
  counts, and none is taken down if one of them failed, unless failures are
  remembered. -/
  stamps : ∀ key seen, outcome.snapshot.get? key = some seen ↔
    (made.config.rememberFailures = true ∨
      ∀ failure ∈ outcome.failures, failure.1.fileName?.map RawText.shown ≠ some key) ∧
    ∃ name modified, ListsScript tree config.inputDir name modified ∧ name.shown = key ∧
      seen = modified.wholeSecond ∧
      ∀ other modified', ListsScript tree config.inputDir other modified' →
        other.shown = key → other ≤ name
  /-- Where no two scripts are shown alike, and so where all names are texts, there is
  one stamp for each script that is unchanged or was compiled, and those that failed
  count if failures are remembered. -/
  names : (∀ name modified other modified', ListsScript tree config.inputDir name modified →
      ListsScript tree config.inputDir other modified' → name.shown = other.shown →
        name = other) →
    (outcome.snapshot.stamps.map fun stamp => some stamp.1).Perm
      ((made.unchanged ++ outcome.compiled.map (fun result => result.task.input) ++
        if made.config.rememberFailures then outcome.failures.map Prod.fst else []).map
          fun path => path.fileName?.map RawText.shown)
  /-- What went well and what failed make up the results. -/
  split : ∃ failed, outcome.results.Perm (outcome.compiled ++ failed) ∧
    (∀ result ∈ outcome.compiled, result.fault = none) ∧
    outcome.failures.map (fun failure => (failure.1, some failure.2)) =
      failed.map fun result => (result.task.input, result.fault)
  hasErrors : outcome.hasErrors = true ↔ outcome.failures ≠ []

section

variable {config : Config} {tree : FileTree} {input : Location} {scripts : List Source}
  {table : StampTable} {results : List TaskResult}

/-- The paths of an outcome by their names. -/
theorem map_fileName?_outcome (hwf : tree.WellFormed) (hdir : tree.leadsTo config.inputDir input)
    (h : sources tree config.inputDir = .ok scripts)
    (hresults : (results.map TaskResult.task).Perm ((staleNames table scripts).map config.task)) :
    ((Plan.ofSources config table scripts).unchanged ++
        ((Plan.ofSources config table scripts).outcome results).compiled.map
          (fun result => result.task.input) ++
        if config.rememberFailures then
          ((Plan.ofSources config table scripts).outcome results).failures.map Prod.fst
        else []).map Path.fileName? =
      (freshNames table scripts ++ compiledNames results ++
        if config.rememberFailures then failedNames results else []).map some := by
  have hfresh : ((freshNames table scripts).map fun name => config.inputDir.join ⟨name⟩).map
      Path.fileName? = (freshNames table scripts).map some := by
    rw [List.map_map]
    refine List.map_congr_left fun name hmem => fileName?_join config.inputDir ?_
    exact (isName_of_mem_names hwf hdir h name (List.mem_append_right _ hmem)).1
  have hpicked := map_fileName?_filter
    (fun name hmem => (isName_of_mem_staleNames hwf hdir h name hmem).1) hresults
  rw [unchanged_eq_map hwf hdir h, Outcome.map_fst_failures, List.map_append, List.map_append,
    hfresh, Outcome.compiled, List.map_append, List.map_append]
  congr 1
  · exact congrArg _ (hpicked _)
  · cases config.rememberFailures with
    | true => exact hpicked _
    | false => rfl

/-- The stamps of an outcome are those of the scripts that it takes down. -/
theorem perm_snapshot (hwf : tree.WellFormed) (hdir : tree.leadsTo config.inputDir input)
    (h : sources tree config.inputDir = .ok scripts) (hkeys : (scripts.map Source.key).Nodup)
    (hresults : (results.map TaskResult.task).Perm ((staleNames table scripts).map config.task)) :
    (((Plan.ofSources config table scripts).outcome results).snapshot.stamps.map Prod.fst).Perm
      ((freshNames table scripts ++ compiledNames results ++
        if config.rememberFailures then failedNames results else []).map RawText.shown) := by
  refine perm_keptStamps hkeys ?_
  have hstale := perm_compiledNames
    (fun name hmem => (isName_of_mem_staleNames hwf hdir h name hmem).1) hresults
  rw [List.append_assoc]
  exact (hstale.append_left _).trans (List.perm_append_comm.trans (perm_names table scripts))

/-- The keys of the scripts that failed are those of the failures. -/
theorem mem_failedKeys_iff (outcome : Outcome) {key : String} :
    key ∈ (failedNames outcome.results).map RawText.shown ↔
      ∃ failure ∈ outcome.failures, failure.1.fileName?.map RawText.shown = some key := by
  have hpaths : ∀ path, (∃ failure ∈ outcome.failures, failure.1 = path) ↔
      ∃ result ∈ outcome.results.filter (!·.isOk), result.task.input = path := by
    intro path
    rw [← List.mem_map, ← List.mem_map, outcome.map_fst_failures]
  constructor
  · intro hkey
    obtain ⟨name, hname, hshown⟩ := List.mem_map.mp hkey
    obtain ⟨result, hresult, hfile⟩ := List.mem_filterMap.mp hname
    obtain ⟨failure, hfailure, hpath⟩ := (hpaths _).mpr ⟨result, hresult, rfl⟩
    exact ⟨failure, hfailure, by rw [hpath, hfile, Option.map_some, hshown]⟩
  · rintro ⟨failure, hfailure, hkey⟩
    obtain ⟨name, hfile, hshown⟩ := Option.map_eq_some_iff.mp hkey
    obtain ⟨result, hresult, hpath⟩ := (hpaths _).mp ⟨failure, hfailure, rfl⟩
    exact List.mem_map.mpr
      ⟨name, List.mem_filterMap.mpr ⟨result, hresult, hpath ▸ hfile⟩, hshown⟩

/-- The last script under a key is the one with the greatest name that is shown so. -/
theorem modified_lastUnder_iff {later : FileTree} {key : String} {seen : Instant}
    (hwf : tree.WellFormed) (hgrows : Grows tree later)
    (hfind : tree.find config.inputDir = .ok (input, .directory))
    (h : sources later config.inputDir = .ok scripts) :
    (lastUnder key scripts).map Source.modified = some seen ↔
      ∃ name modified, ListsScript tree config.inputDir name modified ∧ name.shown = key ∧
        seen = modified.wholeSecond ∧
        ∀ other modified', ListsScript tree config.inputDir other modified' →
          other.shown = key → other ≤ name := by
  have hlisted {source : Source} : source ∈ scripts ↔ _ :=
    mem_sources_iff_listsScript hwf hgrows hfind h
  simp only [Option.map_eq_some_iff, lastUnder_eq_some_iff (pairwise_sources h)]
  constructor
  · rintro ⟨source, ⟨hsource, hkey, hle⟩, rfl⟩
    obtain ⟨modified, hlists, hof⟩ := hlisted.mp hsource
    refine ⟨source.name, modified, hlists, hkey, congrArg Source.modified hof, ?_⟩
    intro other modified' hlists' hkey'
    exact hle (Source.of config.inputDir other modified')
      (hlisted.mpr ⟨modified', hlists', rfl⟩) hkey'
  · rintro ⟨name, modified, hlists, hkey, rfl, hle⟩
    refine ⟨Source.of config.inputDir name modified,
      ⟨hlisted.mpr ⟨modified, hlists, rfl⟩, hkey, ?_⟩, rfl⟩
    intro other hother hkey'
    obtain ⟨modified', hlists', -⟩ := hlisted.mp hother
    exact hle other.name modified' hlists' hkey'

/-- However the tasks of a plan end, and in whatever order, the outcome takes down
what the plan saw. -/
theorem recorded_outcome {made : Plan} (hwf : tree.WellFormed)
    (h : (plan config tree).value = .ok made)
    (hresults : (results.map TaskResult.task).Perm made.tasks) :
    Recorded config tree made (made.outcome results) := by
  obtain ⟨input, scripts, hfind, hprepared, hdir, hscripts, hmade⟩ := exists_sources_of_plan hwf h
  have hconfig : made.config = config := congrArg Plan.config hmade
  refine
    { results := hresults
      stamps := ?stamps
      names := ?names
      split := ⟨_, (List.filter_append_perm _ _).symm, ?compiled, Outcome.map_failures _⟩
      hasErrors := Outcome.hasErrors_iff _ }
  case stamps =>
    intro key seen
    have hsnapshot : (made.outcome results).snapshot = keptStamps config scripts results := by
      rw [hmade]
      rfl
    have hfailed : key ∈ (failedNames results).map RawText.shown ↔ _ :=
      mem_failedKeys_iff (made.outcome results)
    rw [← modified_lastUnder_iff hwf (grows_plan config tree) hfind hscripts, hsnapshot,
      get?_keptStamps, hconfig]
    split
    next hforgotten =>
      obtain ⟨hforget, hkey⟩ := hforgotten
      obtain ⟨failure, hfailure, hkey⟩ := hfailed.mp hkey
      refine ⟨fun hnone => by contradiction, ?_⟩
      rintro ⟨hremember | hnone, -⟩
      · exact absurd (hremember.symm.trans hforget) (by decide)
      · exact absurd hkey (hnone failure hfailure)
    next hkept =>
      refine ⟨fun hseen => ⟨?_, hseen⟩, And.right⟩
      rw [or_iff_not_imp_left, Bool.not_eq_true]
      intro hforget failure hfailure hkey
      exact hkept ⟨hforget, hfailed.mpr ⟨failure, hfailure, hkey⟩⟩
  case names =>
    intro hdistinct
    subst hmade
    have hlisted {source : Source} : source ∈ scripts ↔ _ :=
      mem_sources_iff_listsScript hwf (grows_plan config tree) hfind hscripts
    have hkeys : (scripts.map Source.key).Nodup := by
      have hnames := nodup_names_sources hscripts
      refine List.Nodup.map_on ?_ hnames.of_map
      intro source hsource other hother hkey
      obtain ⟨modified, hlists, -⟩ := hlisted.mp hsource
      obtain ⟨modified', hlists', -⟩ := hlisted.mp hother
      exact List.inj_on_of_nodup_map hnames hsource hother
        (hdistinct _ _ _ _ hlists hlists' hkey)
    rw [tasks_ofSources hprepared hdir hscripts] at hresults
    have hnames := (perm_snapshot hprepared hdir hscripts hkeys hresults).map some
    have hpaths := congrArg (List.map (Option.map RawText.shown))
      (map_fileName?_outcome hprepared hdir hscripts hresults)
    rw [List.map_map, List.map_map] at hnames hpaths
    exact hnames.trans (.of_eq hpaths.symm)
  case compiled =>
    intro result hresult
    exact Option.isNone_iff_eq_none.mp (List.mem_filter.mp hresult).2

/-- What a batch takes down was seen when its plan was made, whatever becomes of the
files before it is carried out, and whatever order the results come in. -/
theorem recorded_execute {made : Plan} (hwf : tree.WellFormed)
    (h : (plan config tree).value = .ok made) :
    (∀ later : FileTree, Recorded config tree made (made.execute later).value) ∧
      ∀ results : List TaskResult, (results.map TaskResult.task).Perm made.tasks →
        Recorded config tree made (made.outcome results) := by
  refine ⟨fun later => ?_, fun results => recorded_outcome hwf h⟩
  rw [made.execute_value]
  refine recorded_outcome hwf h ?_
  rw [map_task_runTasks]

end

/-- One script is edited after the plan, or else removed. -/
theorem recorded_execute_dottedScripts :
    dottedScripts.WellFormed ∧ ∃ made, (plan mixedConfig dottedScripts).value = .ok made ∧
      ∃ edited removed : FileTree,
        edited.lookup ["..oud", "in"] = some (.file [] ⟨900, 0⟩) ∧
        Recorded mixedConfig dottedScripts made (made.execute edited).value ∧
        (made.execute edited).value.snapshot.stamps =
          [("..oud", ⟨5, 0⟩), ("a.b.oud", ⟨-86400, 0⟩)] ∧
        removed.lookup ["..oud", "in"] = none ∧
        Recorded mixedConfig dottedScripts made (made.execute removed).value ∧
        (made.execute removed).value.snapshot.stamps = [("a.b.oud", ⟨-86400, 0⟩)] := by
  have hrecorded := recorded_execute wellFormed_dottedScripts plan_dottedScripts
  exact ⟨wellFormed_dottedScripts, _, plan_dottedScripts,
    (prepare mixedConfig dottedScripts).1.set ["..oud", "in"] (.file [] ⟨900, 0⟩),
    (prepare mixedConfig dottedScripts).1.prune ["..oud", "in"],
    by decide +kernel, hrecorded.1 _, by decide +kernel,
    by decide +kernel, hrecorded.1 _, by decide +kernel⟩

/-- The batch on two scripts that are shown alike. -/
def alikeConfig (rememberFailures : Bool) : Config := { mixedConfig with rememberFailures }

theorem plan_alikeScripts (rememberFailures : Bool) :
    plan (alikeConfig rememberFailures) alikeScripts =
      ⟨(prepare mixedConfig alikeScripts).1,
        (previous mixedConfig (prepare mixedConfig alikeScripts).1).2,
        .ok (.ofSources (alikeConfig rememberFailures)
          (previous mixedConfig (prepare mixedConfig alikeScripts).1).1
          [Source.of mixedConfig.inputDir (foreignName 0xFE) ⟨5, 0⟩,
            Source.of mixedConfig.inputDir (foreignName 0xFF) ⟨5, 0⟩])⟩ := by
  have hfind : (prepare mixedConfig alikeScripts).1.find mixedConfig.inputDir =
      .ok (["in"], .directory) := by decide +kernel
  have hnames : ((prepare mixedConfig alikeScripts).1.names ["in"]).Perm
      [foreignName 0xFE, foreignName 0xFF] := by decide +kernel
  have hsources : sources (prepare mixedConfig alikeScripts).1 mixedConfig.inputDir =
      .ok [Source.of mixedConfig.inputDir (foreignName 0xFE) ⟨5, 0⟩,
        Source.of mixedConfig.inputDir (foreignName 0xFF) ⟨5, 0⟩] := by
    rw [sources_of_perm hfind hnames (by decide +kernel)]
    decide +kernel
  have hdirectory : alikeScripts.isDirectory mixedConfig.inputDir = true := by decide +kernel
  have hprepare : (prepare mixedConfig alikeScripts).2 = none := by decide +kernel
  exact plan_of_sources hdirectory (Prod.ext rfl hprepare) hsources (by simp)

/-- The failure of one script takes away the stamp of another that is shown alike,
and if failures are remembered there is one stamp for the two. -/
theorem snapshot_alikeScripts :
    alikeScripts.WellFormed ∧
      (∃ made outcome, (plan (alikeConfig false) alikeScripts).value = .ok made ∧
        (made.execute (plan (alikeConfig false) alikeScripts).tree).value = outcome ∧
        outcome.compiled.map (fun result => result.task.input.fileName?) =
          [some (foreignName 0xFE)] ∧
        outcome.snapshot.stamps = []) ∧
      ∃ made outcome, (plan (alikeConfig true) alikeScripts).value = .ok made ∧
        (made.execute (plan (alikeConfig true) alikeScripts).tree).value = outcome ∧
        outcome.results.map (fun result => result.task.input.fileName?) =
          [some (foreignName 0xFE), some (foreignName 0xFF)] ∧
        outcome.snapshot.stamps = [("\uFFFD.oud", ⟨5, 0⟩)] := by
  rw [plan_alikeScripts, plan_alikeScripts]
  exact ⟨wellFormed_alikeScripts, ⟨_, _, rfl, rfl, by decide +kernel, by decide +kernel⟩,
    _, _, rfl, rfl, by decide +kernel, by decide +kernel⟩

end Batch

end Parley
