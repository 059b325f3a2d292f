import Parley.Proofs.Blocks
import Parley.Proofs.Pools
import Parley.Proofs.Workspaces

/-!
# Histories of edits and batches

As long as an edit never gives a script a second of modification that the
script had before, a script that the stored table takes for unchanged has the
artifact of its present contents.

An edit cannot break the promise of a stamp because it brings a new second. A
batch makes promises of its own, and it only writes artifacts that keep all of
them. So every event leaves a sound workspace sound, and every history does.
-/

namespace Parley.Batch

open FileTree Parley.Path StampTable

-- A path that is joined is known by its lemmas. Its text is not computed.
attribute [local irreducible] Path.join

namespace Workspace

variable {config : Config} {workspace next : Workspace} {name : String}

/-! ## Edits -/

theorem advances_edit (hsound : workspace.Sound config) {contents : Bytes} {modified : Instant}
    (hedit : workspace.CanEdit config name) (hfresh : (name, modified.seconds) ∉ workspace.used) :
    workspace.Advances config { workspace with
      tree := workspace.tree.set (workspace.scriptPlace config name) (.file contents modified)
      used := (name, modified.seconds) :: workspace.used } := by
  obtain ⟨hscript, hstorable, hname, hdirectory, hobstacle⟩ := hedit
  have hover : workspace.tree.lookup (workspace.scriptPlace config name) = some .directory →
      Entry.file contents modified = .directory := by
    intro h
    rw [h] at hobstacle
    contradiction
  have hkeeps : ∀ place, workspace.tree.lookup place = some .directory →
      (workspace.tree.set (workspace.scriptPlace config name)
        (.file contents modified)).lookup place = some .directory :=
    fun _ => lookup_set_directory hover
  have hother : ∀ {other : RawText}, other ≠ name →
      (workspace.tree.set (workspace.scriptPlace config name) (.file contents modified)).lookup
          (other :: workspace.tree.destination config.inputDir) =
        workspace.tree.lookup (other :: workspace.tree.destination config.inputDir) := by
    intro other hne
    apply lookup_set_of_ne
    intro heq
    exact hne (List.cons.inj heq).1.symm
  refine .of_artifacts_kept (hsound.wellFormed.set hname hdirectory hover) rfl hkeeps
    (fun pair => List.mem_cons_of_mem _) ?_ ?_ ?_
  · intro other contents' modified' hotherScript hfile
    by_cases heq : other = name
    · subst heq
      obtain ⟨-, rfl⟩ := Entry.file.inj (Option.some.inj ((lookup_set_self ..).symm.trans hfile))
      exact ⟨name, rfl, hstorable, List.mem_cons_self⟩
    · obtain ⟨text, htext, hotherStorable, hused⟩ :=
        hsound.known other contents' modified' hotherScript ((hother heq).symm.trans hfile)
      exact ⟨text, htext, hotherStorable, List.mem_cons_of_mem _ hused⟩
  · intro other contents' modified' _ hused hfile
    by_cases heq : other = name
    · -- The edited script is found under its new second only, which was not used before.
      subst heq
      obtain ⟨-, rfl⟩ := Entry.file.inj (Option.some.inj ((lookup_set_self ..).symm.trans hfile))
      exact absurd hused hfresh
    · exact (hother (mt RawText.ofText_inj.mp heq)).symm.trans hfile
  · intro other contents' modified' hfile
    refine (lookup_set_of_ne _ _ ?_).trans hfile
    intro heq
    exact artifactName_ne_of_isScriptName hscript other (List.cons.inj heq).1.symm

theorem advances_delete (hsound : workspace.Sound config) (hscript : isScriptName name)
    {contents : Bytes} {modified : Instant}
    (hfile : workspace.tree.lookup (workspace.scriptPlace config name) =
      some (.file contents modified)) :
    workspace.Advances config
      { workspace with tree := workspace.tree.prune (workspace.scriptPlace config name) } := by
  have hwf := hsound.wellFormed
  have hnot : workspace.tree.lookup (workspace.scriptPlace config name) ≠ some .directory := by
    rw [hfile]
    simp
  have hkept : ∀ {place contents' modified'},
      (workspace.tree.prune (workspace.scriptPlace config name)).lookup place =
        some (.file contents' modified') →
      workspace.tree.lookup place = some (.file contents' modified') := by
    intro place contents' modified' hplace
    rw [scriptPlace, hwf.lookup_prune_file hnot] at hplace
    split at hplace
    next => contradiction
    next => exact hplace
  refine .of_artifacts_kept (hwf.prune hnot) rfl (fun _ => hwf.lookup_prune_directory hnot)
    (fun _ => id) ?_ (fun _ _ _ _ _ => hkept) ?_
  · intro other contents' modified' hotherScript hother
    exact hsound.known other contents' modified' hotherScript (hkept hother)
  · intro other contents' modified' hother
    rw [scriptPlace, hwf.lookup_prune_file hnot, if_neg, hother]
    intro heq
    exact artifactName_ne_of_isScriptName hscript other (List.cons.inj heq).1.symm

theorem advances_wait (hsound : workspace.Sound config) (now : Instant) :
    workspace.Advances config
      { workspace with tree := { workspace.tree with clock := now } } :=
  have hwf := hsound.wellFormed
  .of_artifacts_kept ⟨hwf.isName, hwf.parent, hwf.home⟩ rfl (fun _ => id) (fun _ => id)
    hsound.known (fun _ _ _ _ _ => id) (fun _ _ _ => id)

/-! ## Batches -/

theorem advances_of_grows (hsound : workspace.Sound config)
    (hgrows : Grows workspace.tree next.tree) (hused : next.used = workspace.used) :
    workspace.Advances config next := by
  refine .of_artifacts_kept (hgrows.wellFormed hsound.wellFormed) hgrows.home
    (fun _ => hgrows.lookup_of_some) (fun _ => by rw [hused]; exact id) ?_
    (fun _ _ _ _ _ => hgrows.lookup_file) (fun _ _ _ => hgrows.lookup_of_some)
  intro name contents modified hscript hfile
  rw [destination_congr hgrows.home] at hfile
  rw [hused]
  exact hsound.known name contents modified hscript (hgrows.lookup_file hfile)

/-- No promise is broken where a batch ends early. -/
theorem sound_of_idle (hsound : workspace.Sound config) (hgrows : Grows workspace.tree next.tree)
    (hused : next.used = workspace.used) (hphase : next.phase = .idle) : next.Sound config := by
  have hadvances := advances_of_grows hsound hgrows hused
  refine ⟨hadvances.wellFormed, hadvances.known,
    hadvances.table_backed hsound (storedTable_of_grows hgrows _), ?_⟩
  rw [PhaseBacked, hphase]
  trivial

theorem ready_of_sited {input output table : Location}
    (hsited : Sited config workspace.tree input output)
    (htable : workspace.tree.leadsTo config.tableDir table) : workspace.Ready config where
  sited := by rwa [← hsited.input.eq_destination, ← hsited.output.eq_destination]
  table := by rwa [← htable.eq_destination]

/-- A stamp that is taken is that of a script with this name. -/
theorem source_of_get?_stampsOf {scripts : List Source} (hwf : workspace.tree.WellFormed)
    (hknown : workspace.Known config)
    (hinput : workspace.tree.leadsTo config.inputDir (workspace.tree.destination config.inputDir))
    (hscripts : sources workspace.tree config.inputDir = .ok scripts) {seen : Instant}
    (h : (stampsOf scripts).get? name = some seen) :
    ∃ source ∈ scripts, source.modified = seen ∧ source.name = name ∧ isStorable name ∧
      seen.nanos = 0 ∧ (name, seen.seconds) ∈ workspace.used := by
  have htext : ∀ source ∈ scripts, ∃ text : String, source.name = text ∧ isStorable text ∧
      source.modified.nanos = 0 ∧ (text, source.modified.seconds) ∈ workspace.used := by
    intro source hsource
    obtain ⟨hscript, -, contents, modified, hfile, hof⟩ :=
      (mem_sources_iff hwf hinput hscripts).mp hsource
    obtain ⟨text, hname, hstorable, hused⟩ := hknown source.name contents modified hscript hfile
    rw [hof]
    exact ⟨text, hname, hstorable, rfl, hused⟩
  have hkeys : (scripts.map Source.key).Nodup := by
    refine nodup_keys_sources hscripts fun source hsource => ?_
    obtain ⟨text, hname, -⟩ := htext source hsource
    exact hname ▸ RawText.isText_ofText text
  obtain ⟨source, hsource, hkey, rfl⟩ := (get?_stampsOf_iff hkeys).mp h
  obtain ⟨text, hname, hfacts⟩ := htext source hsource
  obtain rfl : text = name := by rw [← hkey, Source.key, hname, RawText.shown_ofText]
  exact ⟨source, hsource, rfl, hname, hfacts⟩

/-- A plan notes each script as it is found, and a script that it passes over is
one that the stored table has a promise about. -/
theorem planBacked_ofSources {scripts : List Source} (hwf : workspace.tree.WellFormed)
    (hknown : workspace.Known config)
    (htable : ∀ name seen, (workspace.table config).get? name = some seen →
      workspace.Backed config name seen.seconds)
    (hinput : workspace.tree.leadsTo config.inputDir (workspace.tree.destination config.inputDir))
    (hscripts : sources workspace.tree config.inputDir = .ok scripts) :
    workspace.PlanBacked config
      (.ofSources config (previous config workspace.tree).1 scripts)
      (staleNames (previous config workspace.tree).1 scripts) where
  sameConfig := rfl
  nodup := nodup_staleNames hscripts
  isScript := isName_of_mem_staleNames hwf hinput hscripts
  tasks := tasks_ofSources hwf hinput hscripts
  noted := by
    intro name seen hseen
    obtain ⟨source, hsource, rfl, hname, hstorable, hwhole, hused⟩ :=
      source_of_get?_stampsOf hwf hknown hinput hscripts hseen
    exact ⟨hstorable, hwhole, hused⟩
  backed := by
    intro name seen hseen hstale
    obtain ⟨source, hsource, rfl, hname, -⟩ :=
      source_of_get?_stampsOf hwf hknown hinput hscripts hseen
    have hkey : source.key = name := by rw [Source.key, hname, RawText.shown_ofText]
    have hfresh : (previous config workspace.tree).1.isFresh name source.modified = true := by
      rw [← Bool.not_eq_false, ← hkey]
      exact fun hfresh => hstale (mem_staleNames_iff.mpr ⟨source, hsource, hname, hfresh⟩)
    obtain ⟨stored, hstored, hseconds⟩ := isFresh_iff.mp hfresh
    rw [← hseconds]
    exact htable name stored (get?_previous hstored)

theorem sound_plan (hsound : workspace.Sound config) {made : Plan}
    (h : (plan config workspace.tree).value = .ok made)
    (htree : next.tree = (plan config workspace.tree).tree) (hused : next.used = workspace.used)
    (hphase : next.phase = .planned made) : next.Sound config := by
  have hgrows : Grows workspace.tree next.tree := htree ▸ grows_plan config workspace.tree
  have hadvances := advances_of_grows hsound hgrows hused
  have htable := hadvances.table_backed hsound (storedTable_of_grows hgrows _)
  obtain ⟨input, output, location, hsited, htableDir⟩ := sited_of_plan hsound.wellFormed h
  obtain ⟨-, prepared, scripts, -, rfl, hscripts, -, rfl⟩ := plan_eq_ok h
  rw [← htree] at hsited htableDir hscripts hphase
  have hready := ready_of_sited hsited htableDir
  have hplan := planBacked_ofSources hadvances.wellFormed hadvances.known htable
    hready.sited.input hscripts
  refine ⟨hadvances.wellFormed, hadvances.known, htable, ?_⟩
  rw [PhaseBacked, hphase]
  exact ⟨hready, _, hplan⟩

/-! ## Executing a plan -/

/-- A script that was compiled without a fault has an artifact that is up to
date. -/
theorem upToDate_of_compiled {output : Location} {names : List RawText}
    (hcompiled : Compiled config output workspace.tree names next.tree)
    (hsited : Sited config workspace.tree (workspace.tree.destination config.inputDir) output)
    (hmem : (name : RawText) ∈ names) (hname : IsName name) (hscript : isScriptName name)
    (hverdict : verdict config workspace.tree output name = none) :
    next.UpToDate config name := by
  obtain ⟨dialogue, hread, husable, hentry⟩ := artifactEntry_of_verdict_eq_none hverdict
  have hlater := hcompiled.sited hsited
  have hfind := find_join_congr hsited.input hlater.input hname (hcompiled.script hscript _)
  refine ⟨?_, hname, hscript, dialogue, workspace.tree.clock, ?_, husable, ?_⟩
  · rwa [← hlater.input.eq_destination, ← hlater.output.eq_destination]
  · rwa [readDialogue_congr hfind]
  · rw [artifactPlace, ← hlater.output.eq_destination, hcompiled.artifact name hmem, hentry]

/-- Compiling scripts writes over artifacts, but what was up to date is up to
date again. -/
theorem advances_of_compiled (hsound : workspace.Sound config) {names : List RawText}
    (hready : workspace.Ready config)
    (hnames : ∀ name ∈ names, IsName name ∧ isScriptName name)
    (hcompiled : Compiled config (workspace.tree.destination config.outputDir) workspace.tree names
      next.tree) (hused : next.used = workspace.used) : workspace.Advances config next where
  wellFormed := hcompiled.wellFormed
  home := hcompiled.home
  keeps := fun _ => hcompiled.directory
  used := fun _ => by rw [hused]; exact id
  known := by
    intro name contents modified hscript hfile
    rw [destination_congr hcompiled.home, hcompiled.script hscript] at hfile
    rw [hused]
    exact hsound.known name contents modified hscript hfile
  script := by
    intro name contents modified hscript _ hfile
    rwa [scriptPlace, hcompiled.script hscript] at hfile
  upToDate := by
    intro name contents modified _ hfile h
    by_cases hmem : (name : RawText) ∈ names
    · obtain ⟨hname, hscript⟩ := hnames name hmem
      cases hverdict : verdict config workspace.tree
          (workspace.tree.destination config.outputDir) name with
      | none => exact upToDate_of_compiled hcompiled hready.sited hmem hname hscript hverdict
      | some fault =>
          -- A script that fails now leaves the artifact that it had.
          refine h.of_same hcompiled.wellFormed hcompiled.home (fun _ => hcompiled.directory)
            (hcompiled.script hscript _) ?_
          rw [artifactPlace, hcompiled.artifact name hmem,
            artifactEntry_of_verdict_eq_some hverdict]
    · refine h.of_same hcompiled.wellFormed hcompiled.home (fun _ => hcompiled.directory)
        (hcompiled.script h.isScript _) ?_
      exact hcompiled.artifact_of_not_mem (fun name hname => (hnames name hname).2) h.isScript hmem

/-- An outcome promises what its plan promised, but for the scripts that failed.
It does not matter in which order the results are there. -/
theorem outcomeBacked_of_compiled (hforget : config.rememberFailures = false) {made : Plan}
    {names : List RawText} {results : List TaskResult} (hready : workspace.Ready config)
    (hplan : workspace.PlanBacked config made names) (hadvances : workspace.Advances config next)
    (hresults : results.Perm (names.map fun name => ⟨config.task name,
      verdict config workspace.tree (workspace.tree.destination config.outputDir) name⟩))
    (hcompiled : Compiled config (workspace.tree.destination config.outputDir) workspace.tree names
      next.tree) :
    next.OutcomeBacked config (made.outcome results) := by
  have hsnapshot : (made.outcome results).snapshot = forgetFailures made.snapshot results := by
    simp only [Plan.outcome, hplan.sameConfig, hforget, Bool.false_eq_true, if_false]
  have hkept : ∀ name seen, (made.outcome results).snapshot.get? name = some seen →
      made.snapshot.get? name = some seen ∧ ((name : RawText) ∈ names →
        verdict config workspace.tree (workspace.tree.destination config.outputDir) name =
          none) := by
    intro name seen hseen
    rw [hsnapshot, get?_forgetFailures] at hseen
    split at hseen
    next => contradiction
    next hfailed =>
      refine ⟨hseen, fun hmem => ?_⟩
      rw [((failedNames_perm hresults).map RawText.shown).mem_iff,
        failedNames_map_task fun name hname => (hplan.isScript name hname).1] at hfailed
      rw [← Option.not_isSome_iff_eq_none]
      intro hfault
      exact hfailed (List.mem_map.mpr
        ⟨name, List.mem_filter.mpr ⟨hmem, hfault⟩, RawText.shown_ofText name⟩)
  refine ⟨hplan.sameConfig, ?_, ?_⟩
  · intro name seen hseen
    exact hadvances.noted (hplan.noted name seen (hkept name seen hseen).1)
  · intro name seen hseen
    obtain ⟨hold, hverdict⟩ := hkept name seen hseen
    by_cases hmem : (name : RawText) ∈ names
    · obtain ⟨hname, hscript⟩ := hplan.isScript name hmem
      -- The artifact is that of the script as it was when it was compiled, edited or not.
      have hupToDate := upToDate_of_compiled hcompiled hready.sited hmem hname hscript
        (hverdict hmem)
      exact ⟨hscript, (hadvances.noted (hplan.noted name seen hold)).used, fun _ _ _ _ => hupToDate⟩
    · exact hadvances.backed (hplan.backed name seen hold hmem)

theorem sound_of_compiled (hforget : config.rememberFailures = false)
    (hsound : workspace.Sound config) {made : Plan} {names : List RawText}
    {results : List TaskResult} (hready : workspace.Ready config)
    (hplan : workspace.PlanBacked config made names)
    (hresults : results.Perm (names.map fun name => ⟨config.task name,
      verdict config workspace.tree (workspace.tree.destination config.outputDir) name⟩))
    (hcompiled : Compiled config (workspace.tree.destination config.outputDir) workspace.tree names
      next.tree) (hused : next.used = workspace.used)
    (hphase : next.phase = .executed (made.outcome results)) : next.Sound config := by
  have hadvances := advances_of_compiled hsound hready hplan.isScript hcompiled hused
  have htable : storedTable next.tree (workspace.tree.destination config.tableDir) =
      workspace.table config := by
    apply storedTable_congr
    apply hcompiled.others
    intro name _ heq
    exact artifactName_ne_tableName name (List.cons.inj heq).1.symm
  refine ⟨hadvances.wellFormed, hadvances.known, hadvances.table_backed hsound htable, ?_⟩
  rw [PhaseBacked, hphase]
  exact ⟨hadvances.ready hready,
    outcomeBacked_of_compiled hforget hready hplan hadvances hresults hcompiled⟩

theorem Sound.of_planned (hsound : workspace.Sound config) {made : Plan}
    (hmade : workspace.phase = .planned made) :
    workspace.Ready config ∧ ∃ names, workspace.PlanBacked config made names := by
  have hbacked := hsound.phase
  rwa [PhaseBacked, hmade] at hbacked

theorem sound_execute (hforget : config.rememberFailures = false)
    (hsound : workspace.Sound config) {made : Plan} (hmade : workspace.phase = .planned made)
    (htree : next.tree = (made.execute workspace.tree).tree) (hused : next.used = workspace.used)
    (hphase : next.phase = .executed (made.execute workspace.tree).value) :
    next.Sound config := by
  obtain ⟨hready, names, hplan⟩ := hsound.of_planned hmade
  obtain ⟨hvalue, hcompiled⟩ := runTasks_tasks hready.sited hplan.nodup hplan.isScript
  rw [← hplan.tasks] at hvalue hcompiled
  exact sound_of_compiled hforget hsound hready hplan (.of_eq hvalue) (htree ▸ hcompiled) hused
    hphase

/-- Workers keep the promises of a plan in whatever order they move. -/
theorem sound_share (hforget : config.rememberFailures = false)
    (hsound : workspace.Sound config) {made : Plan} (hmade : workspace.phase = .planned made)
    {workers : Nat} {schedule : List Nat} {outcome : Outcome}
    (hshare : made.share workers schedule workspace.tree = some (next.tree, outcome))
    (hused : next.used = workspace.used) (hphase : next.phase = .executed outcome) :
    next.Sound config := by
  obtain ⟨hready, names, hplan⟩ := hsound.of_planned hmade
  obtain ⟨results, rfl, hresults, hcompiled⟩ :=
    compiled_of_share hready.sited hplan.nodup hplan.isScript hplan.tasks hshare
  exact sound_of_compiled hforget hsound hready hplan hresults hcompiled hused hphase

/-! ## Storing the table -/

theorem advances_of_stored (hsound : workspace.Sound config) {directory : Location}
    (hstored : Stored directory workspace.tree next.tree) (hused : next.used = workspace.used) :
    workspace.Advances config next := by
  refine .of_artifacts_kept hstored.wellFormed hstored.home hstored.keeps
    (fun _ => by rw [hused]; exact id) ?_ ?_ ?_
  · intro name contents modified hscript hfile
    rw [destination_congr hstored.home, hstored.script hscript] at hfile
    rw [hused]
    exact hsound.known name contents modified hscript hfile
  · intro name contents modified hscript _ hfile
    rwa [scriptPlace, hstored.script hscript] at hfile
  · intro name contents modified hfile
    exact (hstored.artifact name _).trans hfile

/-- A stamp that is read back names the second that was stored. -/
theorem seconds_of_read? {seen stored : Instant} (hwhole : seen.nanos = 0)
    (h : Timestamp.read? (Timestamp.text seen) = some stored) : stored.seconds = seen.seconds := by
  by_cases hyear : seen.hasPlainYear
  · have hnanos : seen.nanos < Instant.nanosPerSecond := by rw [hwhole]; decide
    rw [Timestamp.read?_text hnanos hyear] at h
    rw [← Option.some.inj h]
    rfl
  · rw [Timestamp.read?_text_of_not_hasPlainYear hyear] at h
    contradiction

theorem sound_persist (hsound : workspace.Sound config) {outcome : Outcome}
    (houtcome : workspace.phase = .executed outcome)
    (htree : next.tree = (outcome.persist workspace.tree).tree) (hused : next.used = workspace.used)
    (hphase : next.phase = workspace.phase) : next.Sound config := by
  have hbacked := hsound.phase
  rw [PhaseBacked, houtcome] at hbacked
  obtain ⟨hready, hpromises⟩ := hbacked
  have htableDir : workspace.tree.leadsTo outcome.config.tableDir
      (workspace.tree.destination config.tableDir) := hpromises.sameConfig ▸ hready.table
  have hstored := stored_persist hsound.wellFormed htableDir
  rw [← htree] at hstored
  have hadvances := advances_of_stored hsound hstored hused
  refine ⟨hadvances.wellFormed, hadvances.known, ?_, hadvances.phaseBacked hphase hsound.phase⟩
  intro name seen hseen
  rw [table, destination_congr hadvances.home] at hseen
  rcases persist_cases htableDir with ⟨-, hsame⟩ | ⟨hvalue, -⟩
  · rw [htree, hsame] at hseen
    exact hadvances.backed (hsound.table name seen hseen)
  · rw [htree, get?_storedTable_persist htableDir hvalue
      fun name seen h => (hpromises.noted name seen h).isStorable] at hseen
    -- What is read back from the table is a second that the outcome has promised.
    obtain ⟨noted, hnoted, hread⟩ := Option.bind_eq_some_iff.mp hseen
    rw [seconds_of_read? (hpromises.noted name noted hnoted).wholeSecond hread]
    exact hadvances.backed (hpromises.backed name noted hnoted)

/-! ## Steps and histories -/

theorem IsStart.sound (h : workspace.IsStart config) : workspace.Sound config where
  wellFormed := h.wellFormed
  known := h.known
  table := by
    intro name seen hseen
    unfold table storedTable at hseen
    split at hseen
    next contents modified hfile => exact absurd hfile (h.noTable contents modified)
    next => simp at hseen
  phase := by
    rw [PhaseBacked, h.idle]
    trivial

/-- Every event keeps the promises good. -/
theorem Sound.step (hforget : config.rememberFailures = false) (hsound : workspace.Sound config)
    {event : Event} (h : workspace.step? config event = some next) : next.Sound config := by
  cases event with
  | edit name contents modified =>
      unfold step? at h
      dsimp only at h
      split at h
      next hedit =>
        obtain rfl := Option.some.inj h
        refine (advances_edit hsound hedit.1 hedit.2).sound hsound (lookup_set_of_ne _ _ ?_) rfl
        intro heq
        exact tableName_ne_of_isScriptName hedit.1.1 (List.cons.inj heq).1.symm
      next => contradiction
  | delete name =>
      unfold step? at h
      dsimp only at h
      split at h
      next contents modified hfile =>
        split at h
        next hscript =>
          obtain rfl := Option.some.inj h
          refine (advances_delete hsound hscript hfile).sound hsound ?_ rfl
          rw [scriptPlace, hsound.wellFormed.lookup_prune_file (by rw [← scriptPlace, hfile]; simp),
            if_neg]
          intro heq
          exact tableName_ne_of_isScriptName hscript (List.cons.inj heq).1.symm
        next => contradiction
      next => contradiction
  | wait now =>
      obtain rfl := Option.some.inj h
      exact (advances_wait hsound now).sound hsound rfl rfl
  | plan =>
      unfold step? at h
      dsimp only at h
      split at h
      next made hmade =>
        obtain rfl := Option.some.inj h
        exact sound_plan hsound hmade rfl rfl rfl
      next fault hfault =>
        obtain rfl := Option.some.inj h
        exact sound_of_idle hsound (grows_plan config workspace.tree) rfl rfl
  | execute =>
      unfold step? at h
      dsimp only at h
      split at h
      next made hmade =>
        obtain rfl := Option.some.inj h
        exact sound_execute hforget hsound hmade rfl rfl rfl
      next => contradiction
  | share workers schedule =>
      unfold step? at h
      dsimp only at h
      split at h
      next made hmade =>
        obtain ⟨⟨tree, outcome⟩, hshare, rfl⟩ := Option.map_eq_some_iff.mp h
        exact sound_share hforget hsound hmade hshare rfl rfl
      next => contradiction
  | persist =>
      unfold step? at h
      dsimp only at h
      split at h
      next outcome houtcome =>
        obtain rfl := Option.some.inj h
        exact sound_persist hsound houtcome rfl rfl rfl
      next => contradiction
  | abandon =>
      obtain rfl := Option.some.inj h
      exact sound_of_idle hsound (Grows.refl workspace.tree) rfl rfl

theorem Sound.run (hforget : config.rememberFailures = false) (hsound : workspace.Sound config)
    {events : List Event} (h : workspace.run? config events = some next) : next.Sound config := by
  induction events generalizing workspace with
  | nil => exact Option.some.inj h ▸ hsound
  | cons event events ih =>
      obtain ⟨between, hstep, hrun⟩ := Option.bind_eq_some_iff.mp h
      exact ih (hsound.step hforget hstep) hrun

end Workspace

theorem compile_of_readDialogue {tree : FileTree} {path : Path} {stem : RawText}
    {contents : Bytes} {dialogue : Dialogue} (hstem : path.stem? = some stem)
    (hread : tree.read path = .ok contents) (h : (tree.readDialogue path).1 = .ok dialogue) :
    ∃ src, Text.decode? contents = some src ∧
      Script.compile stem.shown src = .ok dialogue.artifact := by
  unfold readDialogue readText at h
  rw [hread, hstem] at h
  cases hdecode : Text.decode? contents with
  | none => simp [hdecode] at h
  | some src =>
      refine ⟨src, rfl, ?_⟩
      simp only [hdecode, Option.getD_some] at h
      cases hresult : (Script.read path.shown stem.shown src).result with
      | error error => simp [hresult, Except.mapError] at h
      | ok read =>
          rw [hresult] at h
          obtain rfl := Except.ok.inj h
          rw [Script.compile, Script.parse, Script.read_eq_ok_congr hresult]
          rfl

theorem read_of_readDialogue {config : Config} {tree : FileTree} {input : Location} {name : RawText}
    {contents : Bytes} {modified : Instant} {dialogue : Dialogue}
    (hinput : tree.leadsTo config.inputDir input) (hname : IsName name)
    (hfile : tree.lookup (name :: input) = some (.file contents modified))
    (h : (tree.readDialogue (config.inputDir.join ⟨name⟩)).1 = .ok dialogue) :
    tree.read (config.inputDir.join ⟨name⟩) = .ok contents := by
  by_cases husable : usable config.inputDir name
  · exact read_join hinput hname husable hfile
  · unfold readDialogue readText FileTree.read stat at h
    rw [find_join_of_not_usable hinput hname husable] at h
    contradiction

/-- Batches are sound whatever happens between them. In every history that
begins without a stored table, if the table that is loaded takes a script for
unchanged then the artifact of the script is what its present contents are
compiled to. -/
theorem artifact_of_isFresh {config : Config} (hforget : config.rememberFailures = false)
    {start workspace : Workspace} (hstart : start.IsStart config) {events : List Event}
    (hrun : start.run? config events = some workspace) {table : StampTable} {log : Log}
    (hload : workspace.tree.loadTable config.tablePath = .ok (table, log)) {name : String}
    {contents : Bytes} {modified : Instant}
    (hfile : workspace.tree.lookup (workspace.scriptPlace config name) =
      some (.file contents modified))
    (hfresh : table.isFresh name modified = true) :
    ∃ stem src text, (config.inputDir.join ⟨name⟩).stem? = some stem ∧
      Text.decode? contents = some src ∧ Script.compile stem.shown src = .ok text ∧
      workspace.tree.read (config.artifactPath (config.inputDir.join ⟨name⟩)) =
        .ok (Text.encode text) := by
  have hsound := hstart.sound.run hforget hrun
  have hprevious : (previous config workspace.tree).1 = table := by
    unfold previous
    rw [hload]
  rw [← hprevious] at hfresh
  obtain ⟨seen, hseen, hseconds⟩ := isFresh_iff.mp hfresh
  have hbacked := hsound.table name seen (get?_previous hseen)
  have hupToDate := hbacked.upToDate contents modified hfile hseconds.symm
  obtain ⟨dialogue, time, hread, husable, hartifact⟩ := hupToDate.artifact
  have hstem := stem?_join config.inputDir hupToDate.isName
  have hcontents := read_of_readDialogue hupToDate.sited.input hupToDate.isName hfile hread
  obtain ⟨src, hsrc, hcompile⟩ := compile_of_readDialogue hstem hcontents hread
  refine ⟨_, src, dialogue.artifact, hstem, hsrc, hcompile, ?_⟩
  rw [config.artifactPath_join hupToDate.isName]
  exact read_join hupToDate.sited.output
    (isName_artifactName hupToDate.isName hupToDate.isScript) husable hartifact

/-- A workspace with one script, and no directory but that of the script. -/
def greeting : Workspace where
  tree :=
    { entries :=
        [(["in"], .directory),
          (["hello.oud", "in"],
            .file (Text.encode "(node s start)\n(text \"Hi\" quit)\n") ⟨1700000000, 5⟩)]
      nodup_locations := by decide +kernel
      home := []
      clock := ⟨1700000100, 0⟩ }
  used := [("hello.oud", 1700000000)]

def greetingConfig : Config :=
  { inputDir := ⟨"in"⟩, outputDir := ⟨"out"⟩, tableDir := ⟨"cache"⟩ }

/-- The script is edited while one batch is going on, and compiled by the next,
which two workers share. -/
def greetingEvents : List Event :=
  [.plan, .edit "hello.oud" (Text.encode "(node s start)\n(text \"Ho\" quit)\n") ⟨1700000200, 0⟩,
    .execute, .persist, .plan, .share 2 [1, 0, 1, 1, 1], .persist]

theorem isStart_greeting : greeting.IsStart greetingConfig where
  wellFormed := .of_entries (by decide +kernel) (by decide +kernel)
  idle := rfl
  noTable := by
    have hnone : greeting.tree.lookup
        (tableName :: greeting.tree.destination greetingConfig.tableDir) = none := by
      decide +kernel
    intro contents modified
    rw [hnone]
    simp
  known := by
    intro name contents modified _ hfile
    rcases List.mem_cons.mp (mem_entries_of_lookup hfile) with hdirectory | hmem
    · exact absurd (Prod.mk.inj hdirectory).2 (by simp)
    · obtain ⟨hplace, hentry⟩ := Prod.mk.inj (List.mem_singleton.mp hmem)
      obtain ⟨rfl, -⟩ := List.cons.inj hplace
      obtain ⟨-, rfl⟩ := Entry.file.inj hentry
      exact ⟨"hello.oud", rfl, by decide +kernel, by decide +kernel⟩

theorem artifact_of_isFresh_greeting :
    ∃ workspace table log, greeting.run? greetingConfig greetingEvents = some workspace ∧
      workspace.tree.loadTable greetingConfig.tablePath = .ok (table, log) ∧
      table.isFresh "hello.oud" ⟨1700000200, 0⟩ = true ∧
      ∃ stem src text, (greetingConfig.inputDir.join ⟨"hello.oud"⟩).stem? = some stem ∧
        Text.decode? (Text.encode "(node s start)\n(text \"Ho\" quit)\n") = some src ∧
        Script.compile stem.shown src = .ok text ∧
        workspace.tree.read (greetingConfig.artifactPath
          (greetingConfig.inputDir.join ⟨"hello.oud"⟩)) = .ok (Text.encode text) := by
  have hchecked : (greeting.run? greetingConfig greetingEvents).any (fun workspace =>
      workspace.tree.lookup (workspace.scriptPlace greetingConfig "hello.oud") =
          some (.file (Text.encode "(node s start)\n(text \"Ho\" quit)\n") ⟨1700000200, 0⟩) &&
        (workspace.tree.loadTable greetingConfig.tablePath).toOption.any fun loaded =>
          loaded.1.isFresh "hello.oud" ⟨1700000200, 0⟩) = true := by
    decide +kernel
  cases hrun : greeting.run? greetingConfig greetingEvents with
  | none => simp [hrun] at hchecked
  | some workspace =>
      rw [hrun, Option.any_some, Bool.and_eq_true, decide_eq_true_eq] at hchecked
      cases hload : workspace.tree.loadTable greetingConfig.tablePath with
      | error fault => simp [hload, Except.toOption] at hchecked
      | ok loaded =>
          have hfresh : loaded.1.isFresh "hello.oud" ⟨1700000200, 0⟩ = true := by
            simpa [hload, Except.toOption] using hchecked.2
          exact ⟨workspace, loaded.1, loaded.2, rfl, hload, hfresh,
            artifact_of_isFresh rfl isStart_greeting hrun hload hchecked.1 hfresh⟩

end Parley.Batch
