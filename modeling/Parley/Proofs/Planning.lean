import Mathlib.Data.List.Induction
import Mathlib.Data.List.Nodup
import Parley.Batch.Outcome
import Parley.Proofs.Compilations
import Parley.Proofs.StampTables

/-!
# What a plan says

A plan lists the scripts of the input directory in increasing order of their
names, each of them either unchanged or to be compiled, and takes down when
each was modified. Which scripts there are depends on the entries under script
names alone, so whatever else happens in the directories, a later plan lists
the same scripts.
-/

namespace Parley.Batch

open FileTree Parley.Path StampTable

-- A path that is joined is known by its lemmas. Its text is not computed.
attribute [local irreducible] Path.join

/-! ## Scripts of a directory -/

section

variable {tree later : FileTree} {dir : Path} {input : Location} {scripts : List Source}

/-- The script that is listed for a name and a modification time. -/
def Source.of (dir : Path) (name : RawText) (modified : Instant) : Source :=
  ⟨name, dir.join ⟨name⟩, modified.wholeSecond⟩

theorem Source.name_of_ofName? {name : RawText} {source : Source}
    (h : Source.ofName? tree dir name = some source) : source.name = name := by
  unfold Source.ofName? at h
  dsimp only at h
  split at h
  next =>
    split at h
    · rw [← Option.some.inj h]
    · simp at h
  next => simp at h

theorem Source.ofName?_eq_some_iff {name : RawText} {source : Source}
    (hdir : tree.leadsTo dir input) (hname : IsName name) :
    Source.ofName? tree dir name = some source ↔
      isScriptName name ∧ usable dir name ∧ ∃ contents modified,
        tree.lookup (name :: input) = some (.file contents modified) ∧
          source = Source.of dir name modified := by
  unfold Source.ofName?
  simp only [extension?_join dir hname]
  constructor
  · intro h
    split at h
    next location contents modified hfind =>
      obtain ⟨husable, -, hfile⟩ := (find_join_eq_ok_iff hdir hname).mp hfind
      split at h
      next hscript =>
        exact ⟨hscript, husable, contents, modified, hfile, (Option.some.inj h).symm⟩
      next => simp at h
    next => simp at h
  · rintro ⟨hscript, husable, contents, modified, hfile, rfl⟩
    rw [find_join hdir hname husable, hfile]
    simp only [if_pos hscript]
    rfl

theorem sources_eq_ok_iff :
    sources tree dir = .ok scripts ↔ ∃ input, tree.find dir = .ok (input, .directory) ∧
      ((tree.names input).mergeSort (· ≤ ·)).filterMap (Source.ofName? tree dir) = scripts := by
  unfold sources FileTree.list
  cases tree.find dir with
  | error fault => simp [Except.map]
  | ok found =>
      obtain ⟨location, entry⟩ := found
      cases entry <;> simp [Except.map, eq_comm]

/-- The scripts of a directory are its files under script names. -/
theorem mem_sources_iff (hwf : tree.WellFormed) (hdir : tree.leadsTo dir input)
    (h : sources tree dir = .ok scripts) {source : Source} :
    source ∈ scripts ↔ isScriptName source.name ∧ usable dir source.name ∧
      ∃ contents modified, tree.lookup (source.name :: input) = some (.file contents modified) ∧
        source = Source.of dir source.name modified := by
  obtain ⟨location, hfind, rfl⟩ := sources_eq_ok_iff.mp h
  have hlocation : location = input :=
    (find_eq_directory_iff.mp hfind).2.2.eq_destination.trans hdir.eq_destination.symm
  subst hlocation
  simp only [List.mem_filterMap, List.mem_mergeSort, mem_names_iff]
  constructor
  · rintro ⟨name, hentry, hsource⟩
    have hname := Source.name_of_ofName? hsource
    rw [hname]
    exact (Source.ofName?_eq_some_iff hdir (hwf.isName hentry)).mp hsource
  · intro hscript
    obtain ⟨_, _, contents, modified, hfile, _⟩ := id hscript
    have hentry : tree.lookup (source.name :: location) ≠ none := by rw [hfile]; simp
    exact ⟨source.name, hentry, (Source.ofName?_eq_some_iff hdir (hwf.isName hentry)).mpr hscript⟩

theorem pairwise_mergeSort_names (names : List RawText) :
    (names.mergeSort (· ≤ ·)).Pairwise (· ≤ ·) := by
  have hsorted : (names.mergeSort (· ≤ ·)).Pairwise
      fun name other => decide (name ≤ other) = true :=
    List.pairwise_mergeSort (by simpa using fun _ _ _ => RawText.le_trans)
      (by simpa using RawText.le_total) _
  simpa using hsorted

/-- Scripts are listed in increasing order, each once. -/
theorem pairwise_sources (h : sources tree dir = .ok scripts) :
    scripts.Pairwise fun source other => source.name < other.name := by
  obtain ⟨input, -, rfl⟩ := sources_eq_ok_iff.mp h
  have hne : ((tree.names input).mergeSort (· ≤ ·)).Nodup :=
    (List.mergeSort_perm _ _).nodup_iff.mpr (nodup_names tree input)
  refine List.Pairwise.filterMap (Source.ofName? tree dir) ?_
    ((pairwise_mergeSort_names (tree.names input)).and hne)
  intro name other hlt source hsource otherSource hother
  rw [Source.name_of_ofName? hsource, Source.name_of_ofName? hother]
  apply Classical.byContradiction
  intro hnot
  exact hlt.2 (RawText.le_antisymm hlt.1 (RawText.not_lt.mp hnot))

/-- Scripts are listed for the names of their directory in increasing order. -/
theorem sources_of_perm (hfind : tree.find dir = .ok (input, .directory)) {names : List RawText}
    (hperm : (tree.names input).Perm names) (hsorted : names.Pairwise (· ≤ ·)) :
    sources tree dir = .ok (names.filterMap (Source.ofName? tree dir)) := by
  refine sources_eq_ok_iff.mpr ⟨input, hfind, congrArg _ ?_⟩
  exact List.Perm.eq_of_pairwise (fun _ _ _ _ => RawText.le_antisymm)
    (pairwise_mergeSort_names _) hsorted ((List.mergeSort_perm _ _).trans hperm)

theorem nodup_names_sources (h : sources tree dir = .ok scripts) :
    (scripts.map Source.name).Nodup := by
  exact List.pairwise_map.mpr ((pairwise_sources h).imp RawText.ne_of_lt)

/-- Which scripts are listed depends on the entries under script names. -/
theorem sources_congr (hwf : tree.WellFormed) (hwf' : later.WellFormed)
    (hdir : tree.leadsTo dir input) (hdir' : later.leadsTo dir input)
    (hsame : ∀ name, isScriptName name →
      later.lookup (name :: input) = tree.lookup (name :: input))
    (h : sources tree dir = .ok scripts) : sources later dir = .ok scripts := by
  obtain ⟨location, hfind, hscripts⟩ := sources_eq_ok_iff.mp h
  obtain ⟨hfault, hsteps, -⟩ := find_eq_directory_iff.mp hfind
  have hfind' : later.find dir = .ok (input, .directory) :=
    find_eq_directory_iff.mpr ⟨hfault, hsteps, hdir'⟩
  obtain ⟨others, hothers⟩ : ∃ others, sources later dir = .ok others :=
    ⟨_, sources_eq_ok_iff.mpr ⟨input, hfind', rfl⟩⟩
  have hmem : ∀ source, source ∈ others ↔ source ∈ scripts := by
    intro source
    rw [mem_sources_iff hwf' hdir' hothers, mem_sources_iff hwf hdir h]
    refine and_congr_right fun hscript => ?_
    rw [hsame source.name hscript]
  have hnodup {tree : FileTree} {scripts : List Source} (h : sources tree dir = .ok scripts) :
      scripts.Nodup := by
    refine (pairwise_sources h).imp ?_
    rintro source other hlt rfl
    exact RawText.lt_irrefl _ hlt
  -- Both lists have the same members, and there is one increasing order of them.
  have hperm := (List.perm_ext_iff_of_nodup (hnodup hothers) (hnodup h)).mpr hmem
  have heq : others = scripts := by
    refine List.Perm.eq_of_pairwise ?_ (pairwise_sources hothers) (pairwise_sources h) hperm
    intro source other _ _ hlt hgt
    exact absurd hgt (RawText.lt_asymm hlt)
  rw [hothers, heq]

end

/-! ## The directories of a batch -/

section

variable {config : Config} {tree later : FileTree}

theorem grows_prepare (config : Config) (tree : FileTree) :
    Grows tree (prepare config tree).1 := by
  have hout := tree.grows_makeDirectories config.outputDir
  unfold prepare
  split
  next made fault hmade => simpa [hmade] using hout
  next made hmade =>
    rw [hmade] at hout
    have htable := made.grows_makeDirectories config.tableDir
    split
    next last fault hlast => exact hout.trans (by simpa [hlast] using htable)
    next last hlast => exact hout.trans (by simpa [hlast] using htable)

theorem prepare_eq_none (h : (prepare config tree).2 = none) :
    (tree.makeDirectories config.outputDir).2 = none ∧
      ((tree.makeDirectories config.outputDir).1.makeDirectories config.tableDir).2 = none ∧
      (prepare config tree).1 =
        ((tree.makeDirectories config.outputDir).1.makeDirectories config.tableDir).1 := by
  unfold prepare at h ⊢
  split at h
  next => simp at h
  next made hmade =>
    split at h
    next => simp at h
    next last hlast => simp [hmade, hlast]

theorem leadsTo_of_prepare (h : (prepare config tree).2 = none) :
    ∃ output table, (prepare config tree).1.leadsTo config.outputDir output ∧
      (prepare config tree).1.leadsTo config.tableDir table := by
  obtain ⟨hout, htable, hprepare⟩ := prepare_eq_none h
  obtain ⟨output, houtput⟩ := leadsTo_of_makeDirectories hout
  obtain ⟨table, htable⟩ := leadsTo_of_makeDirectories htable
  rw [hprepare]
  exact ⟨output, table, (grows_makeDirectories _ _).leadsTo houtput, htable⟩

theorem prepare_of_prepare (h : (prepare config tree).2 = none) {output table : Location}
    (houtput : later.leadsTo config.outputDir output)
    (htable : later.leadsTo config.tableDir table) : prepare config later = (later, none) := by
  obtain ⟨hout, hkept, -⟩ := prepare_eq_none h
  rw [prepare, makeDirectories_of_leadsTo (fault?_of_makeDirectories hout) houtput]
  simp only
  rw [makeDirectories_of_leadsTo (fault?_of_makeDirectories hkept) htable]

/-! ## Plans -/

theorem grows_plan (config : Config) (tree : FileTree) : Grows tree (plan config tree).tree := by
  have hprepare := grows_prepare config tree
  unfold plan
  split
  next => exact Grows.refl tree
  next =>
    split
    next made fault hmade => simpa [hmade] using hprepare
    next made hmade =>
      rw [hmade] at hprepare
      split <;> exact hprepare

theorem plan_of_sources {prepared : FileTree} {scripts : List Source}
    (hinput : tree.isDirectory config.inputDir = true)
    (hprepare : prepare config tree = (prepared, none))
    (hscripts : sources prepared config.inputDir = .ok scripts) (hne : scripts ≠ []) :
    plan config tree = ⟨prepared, (previous config prepared).2,
      .ok (.ofSources config (previous config prepared).1 scripts)⟩ := by
  unfold plan
  rw [hinput, hprepare]
  dsimp only
  rw [hscripts]
  cases scripts with
  | nil => contradiction
  | cons source rest => rfl

/-- What a plan that was made rests on. -/
theorem plan_eq_ok {made : Plan} (h : (plan config tree).value = .ok made) :
    tree.isDirectory config.inputDir = true ∧ ∃ prepared scripts,
      prepare config tree = (prepared, none) ∧ (plan config tree).tree = prepared ∧
        sources prepared config.inputDir = .ok scripts ∧ scripts ≠ [] ∧
        made = .ofSources config (previous config prepared).1 scripts := by
  unfold plan at h ⊢
  split at h
  next => contradiction
  next hinput =>
    refine ⟨by simpa using hinput, ?_⟩
    split at h
    next => contradiction
    next prepared hprepare =>
      rw [if_neg hinput, hprepare]
      refine ⟨prepared, ?_⟩
      dsimp only at h ⊢
      cases hscripts : sources prepared config.inputDir with
      | error fault => simp [hscripts] at h
      | ok scripts =>
          cases scripts with
          | nil => simp [hscripts] at h
          | cons source rest =>
              rw [hscripts] at h
              exact ⟨_, rfl, rfl, rfl, List.cons_ne_nil _ _, (Except.ok.inj h).symm⟩

theorem sited_of_plan {made : Plan} (hwf : tree.WellFormed)
    (h : (plan config tree).value = .ok made) :
    ∃ input output table, Sited config (plan config tree).tree input output ∧
      (plan config tree).tree.leadsTo config.tableDir table := by
  have hgrows := grows_plan config tree
  obtain ⟨hinput, prepared, scripts, hprepare, htree, -⟩ := plan_eq_ok h
  obtain ⟨input, hfind⟩ := isDirectory_iff.mp hinput
  have hnone : (prepare config tree).2 = none := by rw [hprepare]
  obtain ⟨output, table, houtput, htable⟩ := leadsTo_of_prepare hnone
  rw [hprepare, ← htree] at houtput htable
  exact ⟨input, output, table, ⟨hgrows.wellFormed hwf,
    hgrows.leadsTo (find_eq_directory_iff.mp hfind).2.2, houtput⟩, htable⟩

/-- The names of the scripts that have to be compiled. -/
def staleNames (table : StampTable) (scripts : List Source) : List RawText :=
  (scripts.filter fun source => !table.isFresh source.key source.modified).map Source.name

theorem mem_staleNames_iff {table : StampTable} {scripts : List Source} {name : RawText} :
    name ∈ staleNames table scripts ↔ ∃ source ∈ scripts,
      source.name = name ∧ table.isFresh source.key source.modified = false := by
  simp only [staleNames, List.mem_map, List.mem_filter, Bool.not_eq_true']
  constructor
  · rintro ⟨source, ⟨hsource, hfresh⟩, rfl⟩
    exact ⟨source, hsource, rfl, hfresh⟩
  · rintro ⟨source, hsource, rfl, hfresh⟩
    exact ⟨source, ⟨hsource, hfresh⟩, rfl⟩

theorem mem_names_of_mem_staleNames {table : StampTable} {scripts : List Source} {name : RawText}
    (h : name ∈ staleNames table scripts) : name ∈ scripts.map Source.name :=
  (List.filter_sublist.map _).subset h

theorem nodup_staleNames {dir : Path} {table : StampTable} {scripts : List Source}
    (h : sources tree dir = .ok scripts) : (staleNames table scripts).Nodup :=
  (nodup_names_sources h).sublist (List.filter_sublist.map _)

theorem isName_of_mem_staleNames {input : Location} {table : StampTable} {scripts : List Source}
    (hwf : tree.WellFormed) (hinput : tree.leadsTo config.inputDir input)
    (hscripts : sources tree config.inputDir = .ok scripts) :
    ∀ name ∈ staleNames table scripts, IsName name ∧ isScriptName name := by
  intro name hname
  obtain ⟨source, hsource, rfl, -⟩ := mem_staleNames_iff.mp hname
  obtain ⟨hscript, -, contents, modified, hfile, -⟩ :=
    (mem_sources_iff hwf hinput hscripts).mp hsource
  exact ⟨hwf.isName (by rw [hfile]; simp), hscript⟩

theorem tasks_ofSources {input : Location} {table : StampTable} {scripts : List Source}
    (hwf : tree.WellFormed) (hdir : tree.leadsTo config.inputDir input)
    (h : sources tree config.inputDir = .ok scripts) :
    (Plan.ofSources config table scripts).tasks = (staleNames table scripts).map config.task := by
  rw [Plan.ofSources, staleNames, List.map_map]
  apply List.map_congr_left
  intro source hsource
  obtain ⟨-, -, contents, modified, hfile, hof⟩ :=
    (mem_sources_iff hwf hdir h).mp (List.mem_filter.mp hsource).1
  have hname : IsName source.name := hwf.isName (by rw [hfile]; simp)
  have hpath : source.path = config.inputDir.join ⟨source.name⟩ := congrArg Source.path hof
  rw [hpath, config.artifactPath_join hname]
  rfl

theorem eq_of_path_eq {input : Location} {scripts : List Source} (hwf : tree.WellFormed)
    (hdir : tree.leadsTo config.inputDir input)
    (h : sources tree config.inputDir = .ok scripts) {source other : Source}
    (hsource : source ∈ scripts) (hother : other ∈ scripts) (hpath : source.path = other.path) :
    source = other := by
  obtain ⟨-, -, contents, modified, hfile, hof⟩ := (mem_sources_iff hwf hdir h).mp hsource
  obtain ⟨-, -, contents', modified', hfile', hof'⟩ := (mem_sources_iff hwf hdir h).mp hother
  have hname : source.name = other.name := by
    refine join_injective config.inputDir (hwf.isName (by rw [hfile]; simp))
      (hwf.isName (by rw [hfile']; simp)) ?_
    exact (congrArg Source.path hof).symm.trans (hpath.trans (congrArg Source.path hof'))
  rw [← hname, hfile] at hfile'
  obtain ⟨-, rfl⟩ := Entry.file.inj (Option.some.inj hfile')
  rw [hof, hof', hname]

/-- The scripts that a plan passes over are those that are in no task. -/
theorem unchanged_ofSources {input : Location} {table : StampTable} {scripts : List Source}
    (hwf : tree.WellFormed) (hdir : tree.leadsTo config.inputDir input)
    (h : sources tree config.inputDir = .ok scripts) :
    (Plan.ofSources config table scripts).unchanged =
      (scripts.filter fun source =>
        source.path ∉ (Plan.ofSources config table scripts).tasks.map Task.input).map
          Source.path := by
  refine congrArg _ (List.filter_congr ?_)
  intro source hsource
  rw [Bool.eq_iff_iff, decide_eq_true_eq, Plan.ofSources, List.map_map, List.mem_map, not_exists]
  constructor
  · rintro hfresh other ⟨hother, hpath⟩
    obtain ⟨hother, hstale⟩ := List.mem_filter.mp hother
    rw [eq_of_path_eq hwf hdir h hother hsource hpath, hfresh] at hstale
    contradiction
  · intro hnone
    rw [← Bool.not_eq_false]
    intro hstale
    exact hnone source ⟨List.mem_filter.mpr ⟨hsource, by rw [hstale]; rfl⟩, rfl⟩

theorem path_mem_unchanged_iff {input : Location} {table : StampTable} {scripts : List Source}
    (hwf : tree.WellFormed) (hdir : tree.leadsTo config.inputDir input)
    (h : sources tree config.inputDir = .ok scripts) {source : Source}
    (hsource : source ∈ scripts) :
    source.path ∈ (Plan.ofSources config table scripts).unchanged ↔
      table.isFresh source.key source.modified = true := by
  rw [Plan.ofSources, List.mem_map]
  constructor
  · rintro ⟨other, hother, hpath⟩
    obtain ⟨hother, hfresh⟩ := List.mem_filter.mp hother
    rwa [eq_of_path_eq hwf hdir h hother hsource hpath] at hfresh
  · intro hfresh
    exact ⟨source, List.mem_filter.mpr ⟨hsource, hfresh⟩, rfl⟩

theorem name_mem_staleNames_iff {input : Location} {table : StampTable} {scripts : List Source}
    (hwf : tree.WellFormed) (hdir : tree.leadsTo config.inputDir input)
    (h : sources tree config.inputDir = .ok scripts) {source : Source}
    (hsource : source ∈ scripts) :
    source.name ∈ staleNames table scripts ↔
      table.isFresh source.key source.modified = false := by
  have hpath : ∀ other ∈ scripts, other.path = config.inputDir.join ⟨other.name⟩ := by
    intro other hother
    obtain ⟨-, -, contents, modified, -, hof⟩ := (mem_sources_iff hwf hdir h).mp hother
    exact congrArg Source.path hof
  rw [mem_staleNames_iff]
  constructor
  · rintro ⟨other, hother, hname, hstale⟩
    have hsame : other.path = source.path := by
      rw [hpath other hother, hpath source hsource, hname]
    rwa [eq_of_path_eq hwf hdir h hother hsource hsame] at hstale
  · intro hstale
    exact ⟨source, hsource, rfl, hstale⟩

theorem task_mem_tasks_iff {input : Location} {table : StampTable} {scripts : List Source}
    (hwf : tree.WellFormed) (hdir : tree.leadsTo config.inputDir input)
    (h : sources tree config.inputDir = .ok scripts) {source : Source}
    (hsource : source ∈ scripts) :
    config.task source.name ∈ (Plan.ofSources config table scripts).tasks ↔
      table.isFresh source.key source.modified = false := by
  rw [tasks_ofSources hwf hdir h, ← name_mem_staleNames_iff hwf hdir h hsource, List.mem_map]
  constructor
  · rintro ⟨name, hname, htask⟩
    obtain ⟨-, -, contents, modified, hfile, -⟩ := (mem_sources_iff hwf hdir h).mp hsource
    have hsame : name = source.name :=
      join_injective config.inputDir (isName_of_mem_staleNames hwf hdir h name hname).1
        (hwf.isName (by rw [hfile]; simp)) (congrArg Task.input htask)
    exact hsame ▸ hname
  · intro hname
    exact ⟨source.name, hname, rfl⟩

/-! ## Stamps that are taken and dropped -/

/-- The stamps of scripts. -/
def stampsOf (scripts : List Source) : StampTable :=
  scripts.foldl (fun table source => table.insert source.key source.modified) .empty

/-- The last of the scripts that go by a key. -/
def lastUnder (key : String) (scripts : List Source) : Option Source :=
  scripts.reverse.find? (·.key = key)

theorem stampsOf_concat (scripts : List Source) (source : Source) :
    stampsOf (scripts ++ [source]) = (stampsOf scripts).insert source.key source.modified := by
  rw [stampsOf, List.foldl_append]
  rfl

/-- Scripts that go by one key have one stamp, that of the last of them. -/
theorem get?_stampsOf (scripts : List Source) (key : String) :
    (stampsOf scripts).get? key = (lastUnder key scripts).map Source.modified := by
  induction scripts using List.reverseRecOn with
  | nil => rfl
  | append_singleton scripts source ih =>
      rw [stampsOf_concat, get?_insert, ih, lastUnder, lastUnder, List.reverse_append]
      by_cases hkey : source.key = key <;> simp [hkey]

theorem lastUnder_eq_some {scripts : List Source} {key : String} {source : Source}
    (h : lastUnder key scripts = some source) : source ∈ scripts ∧ source.key = key :=
  ⟨List.mem_reverse.mp (List.mem_of_find?_eq_some h), by simpa using List.find?_some h⟩

theorem lastUnder_isSome {scripts : List Source} {source : Source} (h : source ∈ scripts) :
    ∃ last, lastUnder source.key scripts = some last := by
  refine Option.isSome_iff_exists.mp ?_
  rw [lastUnder, List.find?_isSome]
  exact ⟨source, List.mem_reverse.mpr h, by simp⟩

/-- The last of the scripts that go by a key has the greatest name of them. -/
theorem lastUnder_eq_some_iff {scripts : List Source}
    (h : scripts.Pairwise fun source other => source.name < other.name) {key : String}
    {source : Source} :
    lastUnder key scripts = some source ↔ source ∈ scripts ∧ source.key = key ∧
      ∀ other ∈ scripts, other.key = key → other.name ≤ source.name := by
  have hgreatest : ∀ {last}, lastUnder key scripts = some last →
      ∀ other ∈ scripts, other.key = key → other.name ≤ last.name := by
    intro last hlast other hother hkey
    obtain ⟨-, behind, front, hsplit, hbehind⟩ := List.find?_eq_some_iff_append.mp hlast
    have hreverse : (behind ++ last :: front).Pairwise fun source other =>
        other.name < source.name := hsplit ▸ List.pairwise_reverse.mpr h
    have hfront := (List.pairwise_cons.mp (List.pairwise_append.mp hreverse).2.1).1
    rw [← List.mem_reverse, hsplit, List.mem_append, List.mem_cons] at hother
    rcases hother with hmem | rfl | hmem
    · exact absurd hkey (by simpa using hbehind other hmem)
    · exact RawText.not_lt.mp (RawText.lt_irrefl _)
    · exact RawText.not_lt.mp (RawText.lt_asymm (hfront other hmem))
  constructor
  · intro hlast
    obtain ⟨hsource, hkey⟩ := lastUnder_eq_some hlast
    exact ⟨hsource, hkey, hgreatest hlast⟩
  · rintro ⟨hsource, rfl, hle⟩
    obtain ⟨last, hlast⟩ := lastUnder_isSome hsource
    obtain ⟨hmem, hkey⟩ := lastUnder_eq_some hlast
    have hnames : (scripts.map Source.name).Nodup :=
      List.pairwise_map.mpr (h.imp RawText.ne_of_lt)
    have hname : last.name = source.name :=
      RawText.le_antisymm (hle last hmem hkey) (hgreatest hlast source hsource rfl)
    exact hlast.trans (congrArg some (List.inj_on_of_nodup_map hnames hmem hsource hname))

/-- Scripts with different keys have a stamp each. -/
theorem get?_stampsOf_iff {scripts : List Source} (h : (scripts.map Source.key).Nodup)
    {key : String} {seen : Instant} :
    (stampsOf scripts).get? key = some seen ↔
      ∃ source ∈ scripts, source.key = key ∧ source.modified = seen := by
  rw [get?_stampsOf, Option.map_eq_some_iff]
  constructor
  · rintro ⟨source, hlast, hseen⟩
    obtain ⟨hsource, hkey⟩ := lastUnder_eq_some hlast
    exact ⟨source, hsource, hkey, hseen⟩
  · rintro ⟨source, hsource, rfl, hseen⟩
    obtain ⟨last, hlast⟩ := lastUnder_isSome hsource
    obtain ⟨hmem, hkey⟩ := lastUnder_eq_some hlast
    have hsame : last = source := List.inj_on_of_nodup_map h hmem hsource hkey
    exact ⟨source, hsame ▸ hlast, hseen⟩

/-- Scripts whose names are texts have different keys. -/
theorem nodup_keys_sources {dir : Path} {scripts : List Source} (h : sources tree dir = .ok scripts)
    (htext : ∀ source ∈ scripts, source.name.isText) : (scripts.map Source.key).Nodup := by
  have hnames := nodup_names_sources h
  refine List.Nodup.map_on ?_ hnames.of_map
  intro source hsource other hother hkey
  refine List.inj_on_of_nodup_map hnames hsource hother ?_
  exact (htext source hsource).eq_of_shown (htext other hother) hkey

/-- The names of the scripts whose tasks failed. -/
def failedNames (results : List TaskResult) : List RawText :=
  (results.filter (!·.isOk)).filterMap fun result => result.task.input.fileName?

theorem failedNames_perm {results others : List TaskResult} (h : results.Perm others) :
    (failedNames results).Perm (failedNames others) :=
  (h.filter _).filterMap _

theorem failedNames_map_task {names : List RawText} (hnames : ∀ name ∈ names, IsName name)
    (fault : RawText → Option CompileFault) :
    failedNames (names.map fun name => ⟨config.task name, fault name⟩) =
      names.filter fun name => (fault name).isSome := by
  unfold failedNames
  induction names with
  | nil => rfl
  | cons name names ih =>
      obtain ⟨hname, hnames⟩ := List.forall_mem_cons.mp hnames
      have hfile : (config.task name).input.fileName? = some name :=
        fileName?_join config.inputDir hname
      rw [List.map_cons, List.filter_cons, List.filter_cons, ← ih hnames]
      cases hfault : fault name with
      | none => simp [TaskResult.isOk]
      | some fault => simp [TaskResult.isOk, hfile]

theorem forgetFailures_eq_foldl (table : StampTable) (results : List TaskResult) :
    forgetFailures table results =
      (failedNames results).foldl (fun table name => table.erase name.shown) table := by
  rw [failedNames, List.foldl_filterMap, forgetFailures]
  congr 1
  funext table result
  cases result.task.input.fileName? <;> rfl

/-- A failure takes away the stamp of its key, whichever script that is of. -/
theorem get?_forgetFailures (table : StampTable) (results : List TaskResult) (key : String) :
    (forgetFailures table results).get? key =
      if key ∈ (failedNames results).map RawText.shown then none else table.get? key := by
  rw [forgetFailures_eq_foldl]
  induction failedNames results generalizing table with
  | nil => rfl
  | cons failed rest ih =>
      rw [List.foldl_cons, ih, get?_erase]
      by_cases hkey : failed.shown = key
      · simp [hkey]
      · simp [hkey, Ne.symm hkey]

end

end Parley.Batch
