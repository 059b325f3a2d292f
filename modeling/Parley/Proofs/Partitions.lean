import Mathlib.Data.List.Nodup
import Parley.Proofs.NextRun

/-!
# A plan divides the scripts of a directory

A plan lists every script of the input directory once, among its tasks or among
the scripts that are unchanged, unless the path of the script is too long to be
used. What it lists is determined by names: a script is its name in the input
directory, and its artifact the name with one more letter in the output directory.
So order and distinctness of paths come from the names. The stored table knows a
script by its name as it is shown, which may be that of other scripts too.

Paths are compared by their parts, which are the same for two spellings of one
path. Names of a directory differ in the last part only.
-/

namespace Parley

namespace Path

/-! ## The order of paths -/

/-- A part of a path: its root, the directory it starts in, the directory above,
or a name. -/
inductive Part where
  | root
  | here
  | above
  | name (text : RawText)
  deriving DecidableEq, Repr

namespace Part

/-- The place of a part among parts of other kinds. -/
def rank : Part → Nat
  | root => 0
  | here => 1
  | above => 2
  | name _ => 3

/-- Names are ordered by their bytes, and come after all other parts. -/
def precedes : Part → Part → Prop
  | name text, name other => text < other
  | part, other => part.rank < other.rank

instance : LT Part := ⟨precedes⟩

/-- What a step says that leads somewhere. -/
def ofStep (step : RawText) : Part := if step = ".." then above else name step

theorem name_lt_name_iff {text other : RawText} : name text < name other ↔ text < other := Iff.rfl

end Part

/-- The parts of a path, first one first. A step `.` only counts where a path
starts with it. -/
def parts (path : Path) : List Part :=
  (if path.isAbsolute then [.root]
    else if path.steps.getLast? = some "." then [.here] else []) ++
    (path.components.map Part.ofStep).reverse

/-- Whether a path comes before another: the first parts in which they differ
decide, or else one is longer. -/
def Precedes (path other : Path) : Prop := path.parts < other.parts

theorem parts_join (base : Path) {name : RawText} (h : IsName name) :
    (base.join ⟨name⟩).parts = base.parts ++ [.name name] := by
  have hlast : (name :: base.steps).getLast? = some "." ↔ base.steps.getLast? = some "." := by
    cases base.steps with
    | nil => simpa using h.ne_here
    | cons step above => rw [List.getLast?_cons_cons]
  have hcomponents : (base.join ⟨name⟩).components = name :: base.components := by
    rw [components, steps_join base h, List.filter_cons_of_pos (by simpa using h.ne_here),
      components]
  have hpart : Part.ofStep name = .name name := if_neg h.ne_above
  rw [parts, isAbsolute_join base h, steps_join base h, hcomponents, List.map_cons,
    List.reverse_cons, hpart, ← List.append_assoc, parts]
  simp only [hlast]

theorem join_precedes_join (base : Path) {name other : RawText} (h : IsName name)
    (ho : IsName other) (hlt : name < other) :
    (base.join ⟨name⟩).Precedes (base.join ⟨other⟩) := by
  rw [Precedes, parts_join base h, parts_join base ho]
  exact List.append_left_lt (List.Lex.rel (Part.name_lt_name_iff.mpr hlt))

/-- Names in order are paths in order. -/
theorem pairwise_join (base : Path) {names : List RawText} (hnames : ∀ name ∈ names, IsName name)
    (h : names.Pairwise (· < ·)) :
    (names.map fun name => base.join ⟨name⟩).Pairwise Precedes := by
  refine List.pairwise_map.mpr (List.Pairwise.imp_of_mem ?_ h)
  intro name other hname hother hlt
  exact join_precedes_join base (hnames name hname) (hnames other hother) hlt

/-- Distinct names are distinct paths. -/
theorem nodup_parts_join (base : Path) {names : List RawText}
    (hnames : ∀ name ∈ names, IsName name) (h : names.Nodup) :
    ((names.map fun name => base.join ⟨name⟩).map parts).Nodup := by
  rw [List.map_map]
  refine h.map_on fun name hname other hother heq => ?_
  have hparts : base.parts ++ [.name name] = base.parts ++ [.name other] := by
    rw [← parts_join base (hnames name hname), ← parts_join base (hnames other hother)]
    exact heq
  simpa using hparts

end Path

namespace Batch

open FileTree Parley.Path StampTable

-- A path that is joined is known by its lemmas. Its text is not computed.
attribute [local irreducible] Path.join

/-! ## Scripts that a directory holds -/

/-- Whether a directory holds a script under a name: a file with the extension of
scripts. -/
structure HoldsScript (tree : FileTree) (dir : Path) (name : RawText) (modified : Instant) :
    Prop where
  file : ∃ location contents, tree.find dir = .ok (location, .directory) ∧
    tree.lookup (name :: location) = some (.file contents modified)
  extension : isScriptName name

/-- Whether a directory holds a script under a name, and the path of the script is
short enough to be used. -/
structure ListsScript (tree : FileTree) (dir : Path) (name : RawText) (modified : Instant) :
    Prop extends HoldsScript tree dir name modified where
  usable : usable dir name

section

variable {config : Config} {tree later : FileTree} {dir : Path} {input : Location}
  {scripts : List Source}

theorem holdsScript_iff (hdir : tree.find dir = .ok (input, .directory)) {name : RawText}
    {modified : Instant} :
    HoldsScript tree dir name modified ↔ isScriptName name ∧
      ∃ contents, tree.lookup (name :: input) = some (.file contents modified) := by
  constructor
  · rintro ⟨⟨location, contents, hfind, hfile⟩, hscript⟩
    obtain ⟨rfl, -⟩ := Prod.mk.inj (Except.ok.inj (hdir.symm.trans hfind))
    exact ⟨hscript, contents, hfile⟩
  · rintro ⟨hscript, contents, hfile⟩
    exact ⟨⟨input, contents, hdir, hfile⟩, hscript⟩

/-- Scripts are listed for what the directory holds, also once directories were
made. -/
theorem mem_sources_iff_listsScript (hwf : tree.WellFormed) (hgrows : Grows tree later)
    (hdir : tree.find dir = .ok (input, .directory)) (h : sources later dir = .ok scripts)
    {source : Source} :
    source ∈ scripts ↔ ∃ modified, ListsScript tree dir source.name modified ∧
      source = Source.of dir source.name modified := by
  have hleads := hgrows.leadsTo (find_eq_directory_iff.mp hdir).2.2
  rw [mem_sources_iff (hgrows.wellFormed hwf) hleads h]
  constructor
  · rintro ⟨hscript, husable, contents, modified, hfile, hof⟩
    have hholds := (holdsScript_iff hdir).mpr ⟨hscript, contents, hgrows.lookup_file hfile⟩
    exact ⟨modified, ⟨hholds, husable⟩, hof⟩
  · rintro ⟨modified, ⟨hholds, husable⟩, hof⟩
    obtain ⟨hscript, contents, hfile⟩ := (holdsScript_iff hdir).mp hholds
    exact ⟨hscript, husable, contents, modified, hgrows.lookup_of_some hfile, hof⟩

theorem HoldsScript.isName {name : RawText} {modified : Instant} (hwf : tree.WellFormed)
    (h : HoldsScript tree dir name modified) : IsName name := by
  obtain ⟨location, contents, -, hfile⟩ := h.file
  exact hwf.isName (by rw [hfile]; simp)

/-! ## The names of a plan -/

/-- The names of the scripts that are passed over. -/
def freshNames (table : StampTable) (scripts : List Source) : List RawText :=
  (scripts.filter fun source => table.isFresh source.key source.modified).map Source.name

theorem perm_names (table : StampTable) (scripts : List Source) :
    (staleNames table scripts ++ freshNames table scripts).Perm (scripts.map Source.name) := by
  rw [staleNames, freshNames, ← List.map_append]
  exact (List.perm_append_comm.trans (List.filter_append_perm _ _)).map _

section

variable {table : StampTable} (hwf : tree.WellFormed) (hdir : tree.leadsTo config.inputDir input)
  (h : sources tree config.inputDir = .ok scripts)

include hwf hdir h

theorem isName_of_mem_names : ∀ name ∈ staleNames table scripts ++ freshNames table scripts,
    IsName name ∧ isScriptName name := by
  intro name hmem
  obtain ⟨source, hsource, rfl⟩ := List.mem_map.mp ((perm_names table scripts).subset hmem)
  obtain ⟨hscript, -, contents, modified, hfile, -⟩ := (mem_sources_iff hwf hdir h).mp hsource
  exact ⟨hwf.isName (by rw [hfile]; simp), hscript⟩

theorem unchanged_eq_map :
    (Plan.ofSources config table scripts).unchanged =
      (freshNames table scripts).map fun name => config.inputDir.join ⟨name⟩ := by
  rw [Plan.ofSources, freshNames, List.map_map]
  refine List.map_congr_left fun source hsource => ?_
  obtain ⟨-, -, contents, modified, -, hof⟩ :=
    (mem_sources_iff hwf hdir h).mp (List.mem_filter.mp hsource).1
  exact congrArg Source.path hof

theorem inputs_eq :
    (Plan.ofSources config table scripts).tasks.map Task.input ++
        (Plan.ofSources config table scripts).unchanged =
      (staleNames table scripts ++ freshNames table scripts).map fun name =>
        config.inputDir.join ⟨name⟩ := by
  rw [tasks_ofSources hwf hdir h, unchanged_eq_map hwf hdir h, List.map_map, List.map_append]
  rfl

theorem outputs_eq :
    (Plan.ofSources config table scripts).tasks.map Task.output ++
        (Plan.ofSources config table scripts).unchanged.map config.artifactPath =
      ((staleNames table scripts ++ freshNames table scripts).map artifactName).map fun name =>
        config.outputDir.join ⟨name⟩ := by
  have hfresh : ((freshNames table scripts).map fun name => config.inputDir.join ⟨name⟩).map
      config.artifactPath = ((freshNames table scripts).map artifactName).map fun name =>
        config.outputDir.join ⟨name⟩ := by
    rw [List.map_map, List.map_map]
    refine List.map_congr_left fun name hmem => config.artifactPath_join ?_
    exact (isName_of_mem_names hwf hdir h name (List.mem_append_right _ hmem)).1
  have hstale : ((staleNames table scripts).map config.task).map Task.output =
      ((staleNames table scripts).map artifactName).map fun name =>
        config.outputDir.join ⟨name⟩ := by
    rw [List.map_map, List.map_map]
    rfl
  rw [tasks_ofSources hwf hdir h, unchanged_eq_map hwf hdir h, hstale, hfresh, List.map_append,
    List.map_append]

theorem nodup_inputs :
    (((Plan.ofSources config table scripts).tasks.map Task.input ++
      (Plan.ofSources config table scripts).unchanged).map Path.parts).Nodup := by
  rw [inputs_eq hwf hdir h]
  refine nodup_parts_join config.inputDir (fun name hmem => ?_)
    ((perm_names table scripts).nodup_iff.mpr (nodup_names_sources h))
  exact (isName_of_mem_names hwf hdir h name hmem).1

/-- Different scripts have different artifacts, whether they are compiled or not. -/
theorem nodup_outputs :
    (((Plan.ofSources config table scripts).tasks.map Task.output ++
      (Plan.ofSources config table scripts).unchanged.map config.artifactPath).map
        Path.parts).Nodup := by
  have hnames : ∀ name ∈ staleNames table scripts ++ freshNames table scripts,
      IsName name ∧ isScriptName name := isName_of_mem_names hwf hdir h
  rw [outputs_eq hwf hdir h]
  refine nodup_parts_join config.outputDir ?_ (List.Nodup.map_on ?_
    ((perm_names table scripts).nodup_iff.mpr (nodup_names_sources h)))
  · intro artifact hmem
    obtain ⟨name, hname, rfl⟩ := List.mem_map.mp hmem
    exact isName_artifactName (hnames name hname).1 (hnames name hname).2
  · intro name hname other hother heq
    exact artifactName_injective (hnames name hname).2 (hnames other hother).2 heq

theorem pairwise_inputs :
    ((Plan.ofSources config table scripts).tasks.map Task.input).Pairwise Path.Precedes ∧
      (Plan.ofSources config table scripts).unchanged.Pairwise Path.Precedes := by
  have hincreasing : (scripts.map Source.name).Pairwise (· < ·) :=
    List.pairwise_map.mpr (pairwise_sources h)
  rw [tasks_ofSources hwf hdir h, unchanged_eq_map hwf hdir h, List.map_map]
  constructor
  · refine pairwise_join config.inputDir (fun name hmem => ?_)
      (hincreasing.sublist (List.filter_sublist.map _))
    exact (isName_of_mem_names hwf hdir h name (List.mem_append_left _ hmem)).1
  · refine pairwise_join config.inputDir (fun name hmem => ?_)
      (hincreasing.sublist (List.filter_sublist.map _))
    exact (isName_of_mem_names hwf hdir h name (List.mem_append_right _ hmem)).1

end

theorem artifactName_eq {name : RawText} (h : isScriptName name) :
    artifactName name = name ++ "h" := by
  have hname : name.bytes =
      (splitName name).1.bytes ++ Text.encode "." ++ Text.encode scriptExtension :=
    congrArg RawText.bytes (splitName_eq_some h).1
  have hextension : Text.encode artifactExtension =
      Text.encode scriptExtension ++ Text.encode "h" := by decide +kernel
  refine congrArg RawText.mk ?_
  rw [hname, RawText.bytes_append, RawText.bytes_ofText, RawText.bytes_ofText, hextension,
    ← List.append_assoc]
  rfl

/-- Whether a script is passed over is looked up under its name as it is shown. -/
theorem isFresh_previous_iff {key : String} {modified : Instant} :
    (previous config tree).1.isFresh key modified = true ↔
      ∃ bytes seen, tree.read config.tablePath = .ok bytes ∧
        (StampTable.ofBytes bytes).get? key = some seen ∧ seen.seconds = modified.seconds := by
  rw [isFresh_iff]
  unfold previous loadTable
  cases tree.read config.tablePath with
  | error fault => simp [get?_empty]
  | ok bytes => simp

/-! ## Plans -/

/-- How a plan divides the scripts of a directory. -/
structure Divides (config : Config) (tree : FileTree) (made : Plan) : Prop where
  /-- The paths that are listed are those of scripts. -/
  scripts : ∀ path ∈ made.tasks.map Task.input ++ made.unchanged,
    ∃ name modified, HoldsScript tree config.inputDir name modified ∧
      path = config.inputDir.join ⟨name⟩
  /-- A script is listed unless its path is too long. -/
  listed : ∀ name modified, HoldsScript tree config.inputDir name modified →
    (config.inputDir.join ⟨name⟩ ∈ made.tasks.map Task.input ++ made.unchanged ↔
      usable config.inputDir name)
  /-- No script is listed twice. -/
  once : ((made.tasks.map Task.input ++ made.unchanged).map Path.parts).Nodup
  tasks_increasing : (made.tasks.map Task.input).Pairwise Path.Precedes
  unchanged_increasing : made.unchanged.Pairwise Path.Precedes
  /-- A script that is listed is passed over if the stored table knows its name, as
  it is shown, and its second. -/
  fresh : ∀ name modified, HoldsScript tree config.inputDir name modified →
    (config.inputDir.join ⟨name⟩ ∈ made.unchanged ↔ usable config.inputDir name ∧
      ∃ bytes seen, (plan config tree).tree.read config.tablePath = .ok bytes ∧
        (StampTable.ofBytes bytes).get? name.shown = some seen ∧
          seen.seconds = modified.seconds)
  /-- An artifact has the name of its script with one more letter. -/
  outputs : ∀ task ∈ made.tasks, ∃ name, task.input.fileName? = some name ∧
    task.output = config.outputDir.join ⟨name ++ "h"⟩
  /-- No two scripts have the same artifact. -/
  artifacts : ((made.tasks.map Task.output ++
    made.unchanged.map config.artifactPath).map Path.parts).Nodup

/-- A plan is made of the scripts of its input directory. -/
theorem exists_sources_of_plan {made : Plan} (hwf : tree.WellFormed)
    (h : (plan config tree).value = .ok made) :
    ∃ input scripts, tree.find config.inputDir = .ok (input, .directory) ∧
      (plan config tree).tree.WellFormed ∧ (plan config tree).tree.leadsTo config.inputDir input ∧
      sources (plan config tree).tree config.inputDir = .ok scripts ∧
      made = .ofSources config (previous config (plan config tree).tree).1 scripts := by
  have hgrows := grows_plan config tree
  obtain ⟨hinput, prepared, scripts, -, rfl, hscripts, -, rfl⟩ := plan_eq_ok h
  obtain ⟨input, hfind⟩ := isDirectory_iff.mp hinput
  exact ⟨input, scripts, hfind, hgrows.wellFormed hwf,
    hgrows.leadsTo (find_eq_directory_iff.mp hfind).2.2, hscripts, rfl⟩

/-- The paths that a plan lists are those of the scripts that can be reached. -/
theorem mem_inputs_iff {made : Plan} (hwf : tree.WellFormed)
    (h : (plan config tree).value = .ok made) {path : Path} :
    path ∈ made.tasks.map Task.input ++ made.unchanged ↔
      ∃ name modified, ListsScript tree config.inputDir name modified ∧
        path = config.inputDir.join ⟨name⟩ := by
  obtain ⟨input, scripts, hfind, hprepared, hdir, hscripts, rfl⟩ := exists_sources_of_plan hwf h
  have hlisted {source : Source} : source ∈ scripts ↔ _ :=
    mem_sources_iff_listsScript hwf (grows_plan config tree) hfind hscripts
  rw [inputs_eq hprepared hdir hscripts, List.mem_map]
  constructor
  · rintro ⟨name, hmem, rfl⟩
    obtain ⟨source, hsource, rfl⟩ := List.mem_map.mp ((perm_names _ _).subset hmem)
    obtain ⟨modified, hlists, -⟩ := hlisted.mp hsource
    exact ⟨source.name, modified, hlists, rfl⟩
  · rintro ⟨name, modified, hlists, rfl⟩
    have hsource : Source.of config.inputDir name modified ∈ scripts :=
      hlisted.mpr ⟨modified, hlists, rfl⟩
    exact ⟨name, (perm_names _ _).mem_iff.mpr (List.mem_map_of_mem hsource), rfl⟩

/-- The path of a script is listed for that script alone. -/
theorem join_mem_inputs_iff {made : Plan} (hwf : tree.WellFormed)
    (h : (plan config tree).value = .ok made) {name : RawText} {modified : Instant}
    (hholds : HoldsScript tree config.inputDir name modified) :
    config.inputDir.join ⟨name⟩ ∈ made.tasks.map Task.input ++ made.unchanged ↔
      usable config.inputDir name := by
  rw [mem_inputs_iff hwf h]
  constructor
  · rintro ⟨other, modified', hlists, heq⟩
    rw [join_injective config.inputDir (hholds.isName hwf) (hlists.isName hwf) heq]
    exact hlists.usable
  · intro husable
    exact ⟨name, modified, ⟨hholds, husable⟩, rfl⟩

theorem join_mem_unchanged_iff {made : Plan} (hwf : tree.WellFormed)
    (h : (plan config tree).value = .ok made) {name : RawText} {modified : Instant}
    (hlists : ListsScript tree config.inputDir name modified) :
    config.inputDir.join ⟨name⟩ ∈ made.unchanged ↔
      ∃ bytes seen, (plan config tree).tree.read config.tablePath = .ok bytes ∧
        (StampTable.ofBytes bytes).get? name.shown = some seen ∧
          seen.seconds = modified.seconds := by
  obtain ⟨input, scripts, hfind, hprepared, hdir, hscripts, rfl⟩ := exists_sources_of_plan hwf h
  have hsource : Source.of config.inputDir name modified ∈ scripts :=
    (mem_sources_iff_listsScript hwf (grows_plan config tree) hfind hscripts).mpr
      ⟨modified, hlists, rfl⟩
  exact (path_mem_unchanged_iff hprepared hdir hscripts hsource).trans isFresh_previous_iff

/-- Every plan divides the scripts of its input directory that it can reach. -/
theorem divides_of_plan {made : Plan} (hwf : tree.WellFormed)
    (h : (plan config tree).value = .ok made) : Divides config tree made := by
  obtain ⟨input, scripts, hfind, hprepared, hdir, hscripts, hmade⟩ := exists_sources_of_plan hwf h
  refine
    { scripts := ?scripts
      listed := fun name modified => join_mem_inputs_iff hwf h
      once := hmade ▸ nodup_inputs hprepared hdir hscripts
      tasks_increasing := hmade ▸ (pairwise_inputs hprepared hdir hscripts).1
      unchanged_increasing := hmade ▸ (pairwise_inputs hprepared hdir hscripts).2
      fresh := ?fresh
      outputs := ?outputs
      artifacts := hmade ▸ nodup_outputs hprepared hdir hscripts }
  case scripts =>
    intro path hpath
    obtain ⟨name, modified, hlists, heq⟩ := (mem_inputs_iff hwf h).mp hpath
    exact ⟨name, modified, hlists.toHoldsScript, heq⟩
  case fresh =>
    intro name modified hholds
    constructor
    · intro hunchanged
      have husable := (join_mem_inputs_iff hwf h hholds).mp (List.mem_append_right _ hunchanged)
      exact ⟨husable, (join_mem_unchanged_iff hwf h ⟨hholds, husable⟩).mp hunchanged⟩
    · rintro ⟨husable, hknown⟩
      exact (join_mem_unchanged_iff hwf h ⟨hholds, husable⟩).mpr hknown
  case outputs =>
    intro task hmem
    rw [hmade, tasks_ofSources hprepared hdir hscripts] at hmem
    obtain ⟨name, hname, rfl⟩ := List.mem_map.mp hmem
    obtain ⟨hname, hscript⟩ := isName_of_mem_staleNames hprepared hdir hscripts name hname
    refine ⟨name, fileName?_join config.inputDir hname, ?_⟩
    rw [← artifactName_eq hscript]
    rfl

end

/-- A directory with dots in its names, and a table that knows one of the two
scripts. The file `.oud` has no extension. -/
def dottedScripts : FileTree where
  entries :=
    [(["in"], .directory), (["a.b.oud", "in"], .file [] ⟨-86400, 500000000⟩),
      ([".oud", "in"], .file [] ⟨5, 0⟩), (["..oud", "in"], .file [] ⟨5, 0⟩),
      (["cache"], .directory),
      (["meta.txt", "cache"],
        .file (Text.encode "..oud|yesterday\na.b.oud|1969-12-31T00:00:00Z\n") ⟨9, 0⟩)]
  nodup_locations := by decide +kernel
  home := []
  clock := ⟨1700000100, 0⟩

theorem sources_dottedScripts :
    sources (prepare mixedConfig dottedScripts).1 mixedConfig.inputDir =
      .ok [Source.of mixedConfig.inputDir "..oud" ⟨5, 0⟩,
        Source.of mixedConfig.inputDir "a.b.oud" ⟨-86400, 500000000⟩] := by
  have hfind : (prepare mixedConfig dottedScripts).1.find mixedConfig.inputDir =
      .ok (["in"], .directory) := by decide +kernel
  have hnames : ((prepare mixedConfig dottedScripts).1.names ["in"]).Perm
      ["..oud", ".oud", "a.b.oud"] := by decide +kernel
  rw [sources_of_perm hfind hnames (by decide +kernel)]
  decide +kernel

theorem wellFormed_dottedScripts : dottedScripts.WellFormed :=
  .of_entries (by decide +kernel) (by decide +kernel)

theorem plan_dottedScripts : (plan mixedConfig dottedScripts).value =
    .ok (.ofSources mixedConfig (previous mixedConfig (prepare mixedConfig dottedScripts).1).1
      [Source.of mixedConfig.inputDir "..oud" ⟨5, 0⟩,
        Source.of mixedConfig.inputDir "a.b.oud" ⟨-86400, 500000000⟩]) := by
  have hprepare : (prepare mixedConfig dottedScripts).2 = none := by decide +kernel
  rw [plan_of_sources (by decide +kernel) (Prod.ext rfl hprepare) sources_dottedScripts (by simp)]

theorem divides_of_plan_dottedScripts :
    dottedScripts.WellFormed ∧
      ∃ made, (plan mixedConfig dottedScripts).value = .ok made ∧
        made.tasks = [⟨⟨"in/..oud"⟩, ⟨"out/..oudh"⟩⟩] ∧ made.unchanged = [⟨"in/a.b.oud"⟩] ∧
        Divides mixedConfig dottedScripts made :=
  ⟨wellFormed_dottedScripts, _, plan_dottedScripts, by decide +kernel, by decide +kernel,
    divides_of_plan wellFormed_dottedScripts plan_dottedScripts⟩

/-! ## Scripts that a plan misses -/

/-- The path of a directory with slashes behind it. -/
def slashed (name : RawText) (slashes : Nat) : Path := ⟨name ++ ⟨List.replicate slashes slash⟩⟩

section

variable {name : RawText} (h : IsName name) (slashes : Nat)

include h

theorem steps_slashed : (slashed name slashes).steps = [name] := by
  have hruns : Text.runs isSlash (name.bytes ++ List.replicate slashes slash) = [name.bytes] := by
    cases slashes with
    | zero => rw [List.replicate_zero, List.append_nil, h.runs_eq]
    | succ slashes =>
        rw [List.replicate_succ, Text.runs_append_separator isSlash_slash, h.runs_eq,
          Text.runs_eq_nil fun byte hbyte => List.eq_of_mem_replicate hbyte ▸ isSlash_slash,
          List.append_nil]
  rw [steps, slashed, RawText.bytes_append, hruns]
  rfl

theorem isAbsolute_slashed : (slashed name slashes).isAbsolute = false := by
  rw [isAbsolute, slashed, RawText.bytes_append, List.head?_append]
  cases hname : name.bytes with
  | nil => exact absurd hname h.bytes_ne_nil
  | cons byte rest => exact h.isSlash_eq_false byte (by simp [hname])

end

theorem bytes_join_slashed (name : RawText) (slashes : Nat) {other : RawText}
    (ho : IsName other) :
    ((slashed name (slashes + 1)).join ⟨other⟩).text.bytes =
      name.bytes ++ List.replicate (slashes + 1) slash ++ other.bytes := by
  have hends : (slashed name (slashes + 1)).endsInSlash = true := by
    rw [endsInSlash, slashed, RawText.bytes_append, List.replicate_succ', ← List.append_assoc,
      List.getLast?_concat]
    rfl
  rw [join, ho.not_isAbsolute, hends, Bool.or_true]
  rfl

theorem fault?_slashed {name : RawText} {slashes : Nat} (hnul : 0 ∉ name.bytes)
    (hlength : name.bytes.length + slashes ≤ lengthLimit) :
    (slashed name slashes).fault? = none := by
  have hslash : (0 : UInt8) ≠ slash := by decide
  rw [fault?_eq_none_iff, slashed, RawText.bytes_append, List.length_append,
    List.length_replicate]
  exact ⟨by simp [hnul, hslash], hlength⟩

/-- How many slashes may stand between two names. -/
theorem usable_slashed_iff {name other : RawText} {slashes : Nat} (ho : IsName other)
    (hnul : 0 ∉ name.bytes ++ other.bytes) :
    usable (slashed name (slashes + 1)) other ↔
      name.bytes.length + (slashes + 1) + other.bytes.length ≤ lengthLimit ∧
        other.bytes.length ≤ nameLimit := by
  obtain ⟨hname, hother⟩ := not_or.mp (List.mem_append.not.mp hnul)
  have hslash : (0 : UInt8) ≠ slash := by decide
  rw [usable_iff, bytes_join_slashed name slashes ho]
  simp [hname, hother, hslash, Nat.add_assoc]

/-- A plan can be made where a script can be reached. -/
theorem exists_plan {config : Config} {tree : FileTree} {name : RawText} {modified : Instant}
    (hwf : tree.WellFormed) (hlists : ListsScript tree config.inputDir name modified)
    (hprepare : (prepare config tree).2 = none) :
    ∃ made, (plan config tree).value = .ok made := by
  obtain ⟨input, contents, hfind, -⟩ := hlists.file
  have hgrows := grows_prepare config tree
  obtain ⟨hfault, hsteps, hleads⟩ := find_eq_directory_iff.mp hfind
  have hfind' : (prepare config tree).1.find config.inputDir = .ok (input, .directory) :=
    find_eq_directory_iff.mpr ⟨hfault, hsteps, hgrows.leadsTo hleads⟩
  obtain ⟨scripts, hscripts⟩ : ∃ scripts,
      sources (prepare config tree).1 config.inputDir = .ok scripts :=
    ⟨_, sources_eq_ok_iff.mpr ⟨input, hfind', rfl⟩⟩
  have hsource : Source.of config.inputDir name modified ∈ scripts :=
    (mem_sources_iff_listsScript hwf hgrows hfind hscripts).mpr ⟨modified, hlists, rfl⟩
  have hplan := plan_of_sources (isDirectory_iff.mpr ⟨input, hfind⟩) (Prod.ext rfl hprepare)
    hscripts (List.ne_nil_of_mem hsource)
  exact ⟨_, congrArg Effect.value hplan⟩

/-- A directory with two scripts. -/
def twoScripts : FileTree where
  entries :=
    [(["in"], .directory), (["a.oud", "in"], .file [] ⟨5, 0⟩),
      (["abcde.oud", "in"], .file [] ⟨5, 0⟩)]
  nodup_locations := by decide +kernel
  home := []
  clock := ⟨1700000100, 0⟩

/-- The path of the input directory has so many slashes that there is room for
eight more bytes. -/
def slashedConfig : Config := { mixedConfig with inputDir := slashed "in" 4085 }

theorem holdsScript_twoScripts {name : RawText} (hscript : isScriptName name)
    (hfile : twoScripts.lookup [name, "in"] = some (.file [] ⟨5, 0⟩)) :
    HoldsScript twoScripts slashedConfig.inputDir name ⟨5, 0⟩ := by
  have hname : IsName "in" := by decide +kernel
  have hleads : twoScripts.leadsTo (slashed "in" 4085) ["in"] := by
    rw [leadsTo, origin, isAbsolute_slashed hname, steps_slashed hname]
    decide +kernel
  have hfault : (slashed "in" 4085).fault? = none :=
    fault?_slashed (by decide +kernel) (by decide +kernel)
  have hsteps : (slashed "in" 4085).steps ≠ [] := by simp [steps_slashed hname]
  exact (holdsScript_iff (find_eq_directory_iff.mpr ⟨hfault, .inl hsteps, hleads⟩)).mpr
    ⟨hscript, [], hfile⟩

/-- A name that begins with a byte that begins no character. -/
def foreignName (byte : UInt8) : RawText := ⟨[byte]⟩ ++ ".oud"

/-- A directory with two scripts that look alike, of which the second has an error. -/
def alikeScripts : FileTree where
  entries :=
    [(["in"], .directory),
      ([foreignName 0xFE, "in"],
        .file (Text.encode "(node s start)\n(text \"Hi\" quit)\n") ⟨5, 0⟩),
      ([foreignName 0xFF, "in"], .file (Text.encode "(oops)\n") ⟨5, 0⟩),
      (["cache"], .directory)]
  nodup_locations := by decide +kernel
  home := []
  clock := ⟨1700000100, 0⟩

theorem wellFormed_alikeScripts : alikeScripts.WellFormed :=
  .of_entries (by decide +kernel) (by decide +kernel)

/-- The directory with a stamp of the name that both of its scripts are shown as. -/
def stampedScripts : FileTree :=
  alikeScripts.set [tableName, "cache"]
    (.file (Text.encode "\uFFFD.oud|1970-01-01T00:00:05Z\n") ⟨9, 0⟩)

theorem wellFormed_stampedScripts : stampedScripts.WellFormed :=
  wellFormed_alikeScripts.set isName_tableName (by decide +kernel) fun h =>
    absurd h (by decide +kernel)

/-- A plan leaves out a script whose path is too long, and passes over a script
for a stamp that is not of its name. -/
theorem plan_twoScripts_stampedScripts :
    (twoScripts.WellFormed ∧
      HoldsScript twoScripts slashedConfig.inputDir "a.oud" ⟨5, 0⟩ ∧
      HoldsScript twoScripts slashedConfig.inputDir "abcde.oud" ⟨5, 0⟩ ∧
      ∃ made, (plan slashedConfig twoScripts).value = .ok made ∧
        slashedConfig.inputDir.join ⟨"a.oud"⟩ ∈ made.tasks.map Task.input ++ made.unchanged ∧
        slashedConfig.inputDir.join ⟨"abcde.oud"⟩ ∉ made.tasks.map Task.input ++ made.unchanged) ∧
    stampedScripts.WellFormed ∧
      HoldsScript stampedScripts mixedConfig.inputDir (foreignName 0xFF) ⟨5, 0⟩ ∧
      (∀ text : String, foreignName 0xFF ≠ text) ∧
      ∃ made, (plan mixedConfig stampedScripts).value = .ok made ∧
        mixedConfig.inputDir.join ⟨foreignName 0xFF⟩ ∈ made.unchanged := by
  constructor
  · have hwf : twoScripts.WellFormed := .of_entries (by decide +kernel) (by decide +kernel)
    have hshort : HoldsScript twoScripts slashedConfig.inputDir "a.oud" ⟨5, 0⟩ :=
      holdsScript_twoScripts (by decide +kernel) (by decide +kernel)
    have hlong : HoldsScript twoScripts slashedConfig.inputDir "abcde.oud" ⟨5, 0⟩ :=
      holdsScript_twoScripts (by decide +kernel) (by decide +kernel)
    have husable : usable slashedConfig.inputDir "a.oud" :=
      (usable_slashed_iff (by decide +kernel) (by decide +kernel)).mpr (by decide +kernel)
    have hunusable : ¬ usable slashedConfig.inputDir "abcde.oud" := fun h =>
      absurd ((usable_slashed_iff (by decide +kernel) (by decide +kernel)).mp h)
        (by decide +kernel)
    have hprepare : (prepare mixedConfig twoScripts).2 = none := by decide +kernel
    obtain ⟨made, hplan⟩ := exists_plan hwf ⟨hshort, husable⟩ hprepare
    exact ⟨hwf, hshort, hlong, made, hplan, (join_mem_inputs_iff hwf hplan hshort).mpr husable,
      mt (join_mem_inputs_iff hwf hplan hlong).mp hunusable⟩
  · have hfind : stampedScripts.find mixedConfig.inputDir = .ok (["in"], .directory) := by
      decide +kernel
    have hlists : ListsScript stampedScripts mixedConfig.inputDir (foreignName 0xFF) ⟨5, 0⟩ :=
      ⟨(holdsScript_iff hfind).mpr ⟨by decide +kernel, Text.encode "(oops)\n", by decide +kernel⟩,
        by decide +kernel⟩
    obtain ⟨made, hplan⟩ := exists_plan wellFormed_stampedScripts hlists (by decide +kernel)
    have hforeign : ¬ (foreignName 0xFF).isText := by decide +kernel
    refine ⟨wellFormed_stampedScripts, hlists.toHoldsScript, ?_, made, hplan, ?_⟩
    · intro text heq
      exact hforeign (heq ▸ RawText.isText_ofText text)
    · obtain ⟨-, prepared, -, hprepare, htree, -⟩ := plan_eq_ok hplan
      have hread : (prepare mixedConfig stampedScripts).1.read mixedConfig.tablePath =
          .ok (Text.encode "\uFFFD.oud|1970-01-01T00:00:05Z\n") := by decide +kernel
      rw [join_mem_unchanged_iff wellFormed_stampedScripts hplan hlists, htree]
      rw [hprepare] at hread
      exact ⟨_, ⟨5, 0⟩, hread, by decide +kernel, rfl⟩

end Batch

end Parley
