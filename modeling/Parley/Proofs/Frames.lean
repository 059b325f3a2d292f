import Parley.Proofs.NextRun

/-!
# What a batch leaves alone

A batch makes the directories on the way of two paths and then writes files at
the places of its artifacts and of its stamp table. Two relations say so once:
a tree grows along a way, and it is written at some locations, over a file or
where there was nothing. Everything that a batch leaves alone follows from them.
-/

namespace Parley

namespace FileTree

open Parley.Path

/-! ## Directories on a way -/

/-- Whether a location lies on the way that steps, last one first, take. -/
def isOnWay (start : Location) (steps : List RawText) (location : Location) : Prop :=
  ∃ upper, upper <:+ steps ∧ location = walk start upper

theorem isOnWay.of_suffix {start location : Location} {steps more : List RawText}
    (h : isOnWay start steps location) (hsuffix : steps <:+ more) :
    isOnWay start more location := by
  obtain ⟨upper, hupper, rfl⟩ := h
  exact ⟨upper, hupper.trans hsuffix, rfl⟩

theorem isOnWay_nil_iff {start location : Location} :
    isOnWay start [] location ↔ location = start := by
  simp [isOnWay, List.suffix_nil, walk]

theorem isOnWay_cons_iff {start location : Location} {step : RawText} {above : List RawText} :
    isOnWay start (step :: above) location ↔
      location = walk start (step :: above) ∨ isOnWay start above location := by
  constructor
  · rintro ⟨upper, hupper, rfl⟩
    rcases List.suffix_cons_iff.mp hupper with rfl | hupper
    · exact .inl rfl
    · exact .inr ⟨upper, hupper, rfl⟩
  · rintro (rfl | hway)
    · exact ⟨_, List.suffix_rfl, rfl⟩
    · exact hway.of_suffix (List.suffix_cons step above)

instance decidableIsOnWay (start : Location) :
    (steps : List RawText) → (location : Location) → Decidable (isOnWay start steps location)
  | [], _ => decidable_of_iff _ isOnWay_nil_iff.symm
  | _ :: above, location =>
      have := decidableIsOnWay start above location
      decidable_of_iff _ isOnWay_cons_iff.symm

/-- Steps that lead nowhere do not count. -/
theorem walk_filter (start : Location) (steps : List RawText) :
    walk start (steps.filter (· ≠ ".")) = walk start steps := by
  induction steps with
  | nil => rfl
  | cons step above ih =>
      by_cases hstep : step = "."
      · rw [List.filter_cons_of_neg (by simpa using hstep), ih, walk, hstep]
        rfl
      · rw [List.filter_cons_of_pos (by simpa using hstep), walk, ih, walk]

theorem isOnWay.of_components {start location : Location} {path : Path}
    (h : isOnWay start path.components.tail location) : isOnWay start path.steps location := by
  obtain ⟨upper, hupper, rfl⟩ := h
  obtain ⟨steps, hsteps, rfl⟩ := List.suffix_filter_iff.mp (hupper.trans (List.tail_suffix _))
  exact ⟨steps, hsteps, walk_filter start steps⟩

/-- Whether a tree came about by changes on a way. -/
structure GrowsAlong (way : Location → Prop) (tree later : FileTree) : Prop where
  home : later.home = tree.home
  lookup : ∀ location, later.lookup location = tree.lookup location ∨ way location

namespace GrowsAlong

variable {way : Location → Prop} {tree later : FileTree}

theorem refl (way : Location → Prop) (tree : FileTree) : GrowsAlong way tree tree :=
  ⟨rfl, fun _ => .inl rfl⟩

theorem trans {last : FileTree} (h : GrowsAlong way tree later) (h' : GrowsAlong way later last) :
    GrowsAlong way tree last where
  home := h'.home.trans h.home
  lookup location := by
    rcases h'.lookup location with hsame | hway
    · rw [hsame]
      exact h.lookup location
    · exact .inr hway

theorem mono {wider : Location → Prop} (h : GrowsAlong way tree later)
    (hway : ∀ location, way location → wider location) : GrowsAlong wider tree later :=
  ⟨h.home, fun location => (h.lookup location).imp_right (hway location)⟩

end GrowsAlong

theorem growsAlong_makeDirectory {tree made : FileTree} {absolute : Bool} {home : Location}
    {steps : List RawText} (hhome : tree.home = home)
    (h : tree.makeDirectory absolute steps = .ok made) :
    GrowsAlong (isOnWay (if absolute then [] else home) steps) tree made := by
  obtain ⟨name, above, directory, rfl, hhere, habove, hfollow, -, -, rfl⟩ := makeDirectory_eq_ok h
  refine ⟨rfl, fun location => ?_⟩
  by_cases hlocation : name :: directory = location
  · refine .inr ⟨name :: above, List.suffix_rfl, ?_⟩
    rw [← hhome, walk, ← eq_walk_of_follow hfollow, advance, if_neg hhere, if_neg habove, hlocation]
  · exact .inl (lookup_set_of_ne tree _ hlocation)

theorem growsAlong_provide {tree : FileTree} {absolute : Bool} {steps : List RawText}
    {above : FileTree → FileTree × Option FileFault} {home : Location} {way : Location → Prop}
    (hhome : tree.home = home)
    (hway : ∀ location, isOnWay (if absolute then [] else home) steps location → way location)
    (habove : ∀ tree, tree.home = home → GrowsAlong way tree (above tree).1) :
    GrowsAlong way tree (tree.provide absolute steps above).1 := by
  unfold provide
  dsimp only
  split
  next made hmade => exact (growsAlong_makeDirectory hhome hmade).mono hway
  next =>
    have hgrows := habove tree hhome
    split
    next higher fault hhigher => simpa [hhigher] using hgrows
    next higher hhigher =>
      rw [hhigher] at hgrows
      split
      next made hmade =>
        exact hgrows.trans ((growsAlong_makeDirectory (hgrows.home.trans hhome) hmade).mono hway)
      next => split <;> exact hgrows
  next => split <;> exact .refl way tree

theorem growsAlong_provideAll (absolute : Bool) {home : Location} (steps : List RawText)
    (tree : FileTree) (hhome : tree.home = home) :
    GrowsAlong (isOnWay (if absolute then [] else home) steps) tree
      (provideAll absolute steps tree).1 := by
  induction steps generalizing tree with
  | nil => exact .refl _ tree
  | cons step above ih =>
      refine growsAlong_provide hhome (fun _ => id) fun tree hhome => (ih tree hhome).mono ?_
      exact fun location hway => hway.of_suffix (List.suffix_cons step above)

/-- Making the directories of a path changes nothing off its way. -/
theorem growsAlong_makeDirectories (tree : FileTree) (path : Path) :
    GrowsAlong (isOnWay (tree.origin path) path.steps) tree (tree.makeDirectories path).1 := by
  unfold makeDirectories
  split
  next => exact .refl _ tree
  next =>
    split
    next => exact .refl _ tree
    next =>
      refine growsAlong_provide rfl (fun _ => id) fun higher hhome => ?_
      refine (growsAlong_provideAll path.isAbsolute path.components.tail higher hhome).mono ?_
      exact fun location hway => hway.of_components

/-! ## Files at locations -/

/-- Whether a tree came about by writing files at some locations, each over a
file or where there was nothing. -/
def WrittenAt (places : Location → Prop) (tree later : FileTree) : Prop :=
  ∀ location, later.lookup location = tree.lookup location ∨
    (places location ∧ obstacle (tree.lookup location) = none ∧
      ∃ contents modified, later.lookup location = some (.file contents modified))

namespace WrittenAt

variable {places : Location → Prop} {tree later : FileTree}

theorem trans {last : FileTree} (h : WrittenAt places tree later)
    (h' : WrittenAt places later last) : WrittenAt places tree last := by
  intro location
  rcases h' location with hsame | ⟨hplace, hfree, hwritten⟩
  · rw [hsame]
    exact h location
  · rcases h location with hsame | ⟨-, hfree', -⟩
    · exact .inr ⟨hplace, hsame ▸ hfree, hwritten⟩
    · exact .inr ⟨hplace, hfree', hwritten⟩

theorem mono {wider : Location → Prop} (h : WrittenAt places tree later)
    (hplaces : ∀ location, places location → wider location) : WrittenAt wider tree later :=
  fun location => (h location).imp_right (And.imp_left (hplaces location))

/-- What is no file is left as it is. -/
theorem lookup_of_obstacle (h : WrittenAt places tree later) {location : Location}
    (hentry : obstacle (tree.lookup location) ≠ none) :
    later.lookup location = tree.lookup location :=
  (h location).resolve_right fun hwritten => hentry hwritten.2.1

theorem contents?_ne_none (h : WrittenAt places tree later) {location : Location}
    (hfile : tree.contents? location ≠ none) : later.contents? location ≠ none := by
  rcases h location with hsame | ⟨-, -, contents, modified, hwritten⟩
  · rwa [contents?, hsame]
  · rw [contents?, hwritten]
    simp

theorem place_of_contents? (h : WrittenAt places tree later) {location : Location}
    (hchange : later.contents? location ≠ tree.contents? location) : places location := by
  rcases h location with hsame | ⟨hplace, -⟩
  · exact absurd (by rw [contents?, hsame, contents?]) hchange
  · exact hplace

/-- Writing makes no directory. -/
theorem lookup_directory (h : WrittenAt places tree later) {location : Location}
    (hmade : later.lookup location = some .directory) :
    tree.lookup location = some .directory := by
  rcases h location with hsame | ⟨-, -, contents, modified, hwritten⟩
  · rw [← hsame, hmade]
  · rw [hwritten] at hmade
    simp at hmade

end WrittenAt

/-- Making directories touches no file. -/
theorem Grows.contents? {tree later : FileTree} (h : Grows tree later) (location : Location) :
    later.contents? location = tree.contents? location := by
  unfold FileTree.contents?
  rcases h.lookup location with hsame | ⟨hnone, hmade⟩
  · rw [hsame]
  · rw [hnone, hmade]

theorem destination_join (tree : FileTree) (base : Path) {name : RawText} (h : IsName name) :
    tree.destination (base.join ⟨name⟩) = name :: tree.destination base := by
  rw [destination, origin, isAbsolute_join base h, steps_join base h, walk, advance,
    if_neg h.ne_here, if_neg h.ne_above]
  rfl

end FileTree

namespace Batch

open FileTree Parley.Path StampTable

-- A path that is joined is known by its lemmas. Its text is not computed.
attribute [local irreducible] Path.join

variable {config : Config} {tree : FileTree}

/-! ## Planning -/

/-- Whether a location lies on the way to a directory that a batch writes to. -/
def Config.isOnWay (config : Config) (tree : FileTree) (location : Location) : Prop :=
  FileTree.isOnWay (tree.origin config.outputDir) config.outputDir.steps location ∨
    FileTree.isOnWay (tree.origin config.tableDir) config.tableDir.steps location

instance (config : Config) (tree : FileTree) (location : Location) :
    Decidable (config.isOnWay tree location) :=
  inferInstanceAs (Decidable (_ ∨ _))

theorem growsAlong_prepare (config : Config) (tree : FileTree) :
    GrowsAlong (config.isOnWay tree) tree (prepare config tree).1 := by
  have hout : GrowsAlong (config.isOnWay tree) tree (tree.makeDirectories config.outputDir).1 :=
    (growsAlong_makeDirectories tree config.outputDir).mono fun _ => .inl
  unfold prepare
  split
  next made fault hmade => simpa [hmade] using hout
  next made hmade =>
    rw [hmade] at hout
    have htable : GrowsAlong (config.isOnWay tree) made (made.makeDirectories config.tableDir).1 :=
      (growsAlong_makeDirectories made config.tableDir).mono fun _ hway =>
        .inr (origin_congr hout.home _ ▸ hway)
    split
    next last fault hlast => exact hout.trans (by simpa [hlast] using htable)
    next last hlast => exact hout.trans (by simpa [hlast] using htable)

theorem prepare_eq_some {fault : Fault} (h : (prepare config tree).2 = some fault) :
    ∃ dir cause, fault = .directory dir cause := by
  unfold prepare at h
  split at h
  next made cause hmade => exact ⟨_, cause, (Option.some.inj h).symm⟩
  next =>
    split at h
    next last cause hlast => exact ⟨_, cause, (Option.some.inj h).symm⟩
    next => contradiction

/-- A plan fails before it has changed anything, or when the directories are
made, be they made all or in part. -/
theorem plan_eq_error {fault : Fault} (h : (plan config tree).value = .error fault) :
    (fault = .missingInput config.inputDir ∧ (plan config tree).tree = tree) ∨
      (((∃ dir cause, fault = .directory dir cause) ∨ fault = .noScripts config.inputDir) ∧
        (plan config tree).tree = (prepare config tree).1) := by
  unfold plan at h ⊢
  split at h
  next hinput =>
    rw [if_pos hinput]
    exact .inl ⟨(Except.error.inj h).symm, rfl⟩
  next hinput =>
    rw [if_neg hinput]
    refine .inr ?_
    cases hprepare : prepare config tree with
    | mk prepared failure =>
        cases failure with
        | some failure =>
            rw [hprepare] at h
            obtain rfl := Except.error.inj h
            exact ⟨.inl (prepare_eq_some (congrArg Prod.snd hprepare)), rfl⟩
        | none =>
            rw [hprepare] at h
            dsimp only at h ⊢
            cases hsources : sources prepared config.inputDir with
            | error cause =>
                rw [hsources] at h
                exact ⟨.inl ⟨_, cause, (Except.error.inj h).symm⟩, rfl⟩
            | ok scripts =>
                cases scripts with
                | nil =>
                    rw [hsources] at h
                    exact ⟨.inr (Except.error.inj h).symm, rfl⟩
                | cons source rest => simp [hsources] at h

theorem growsAlong_plan (config : Config) (tree : FileTree) :
    GrowsAlong (config.isOnWay tree) tree (plan config tree).tree := by
  cases h : (plan config tree).value with
  | error fault =>
      rcases plan_eq_error h with ⟨-, htree⟩ | ⟨-, htree⟩
      · rw [htree]
        exact .refl _ tree
      · rw [htree]
        exact growsAlong_prepare config tree
  | ok made =>
      obtain ⟨-, prepared, scripts, hprepare, htree, -⟩ := plan_eq_ok h
      have hgrows := growsAlong_prepare config tree
      rwa [hprepare, ← htree] at hgrows

/-! ## Carrying out a plan -/

/-- Whether a plan writes a file at a location: the stamp table or the artifact
of a task. -/
def Plan.writesAt (made : Plan) (tree : FileTree) (location : Location) : Prop :=
  location = tree.destination made.config.tablePath ∨
    ∃ task ∈ made.tasks, location = tree.destination task.output

theorem obstacle_of_verdict_eq_none {output : Location} {name : RawText}
    (h : verdict config tree output name = none) :
    obstacle (tree.lookup (artifactName name :: output)) = none := by
  unfold verdict at h
  split at h
  next => contradiction
  next =>
    have hfree := Option.map_eq_none_iff.mp h
    unfold blockage at hfree
    split at hfree
    next => exact hfree
    next => contradiction

theorem Compiled.writtenAt {output : Location} {names : List RawText} {later : FileTree}
    (h : Compiled config output tree names later) :
    WrittenAt (fun location => ∃ name ∈ names, location = artifactName name :: output) tree
      later := by
  intro location
  by_cases hplace : ∃ name ∈ names, location = artifactName name :: output
  · obtain ⟨name, hname, rfl⟩ := hplace
    cases hverdict : verdict config tree output name with
    | some fault =>
        rw [h.artifact name hname, artifactEntry_of_verdict_eq_some hverdict]
        exact .inl rfl
    | none =>
        obtain ⟨dialogue, -, -, hentry⟩ := artifactEntry_of_verdict_eq_none hverdict
        exact .inr ⟨⟨name, hname, rfl⟩, obstacle_of_verdict_eq_none hverdict, _, _,
          (h.artifact name hname).trans hentry⟩
  · exact .inl (h.others location fun name hname heq => hplace ⟨name, hname, heq⟩)

theorem writtenAt_persist {outcome : Outcome} {directory : Location}
    (htable : tree.leadsTo outcome.config.tableDir directory) :
    WrittenAt (· = tableName :: directory) tree (outcome.persist tree).tree := by
  intro location
  rcases persist_cases htable with ⟨-, hsame⟩ | ⟨-, -, ⟨-, -, hsame⟩ | ⟨hfree, hset⟩⟩
  · rw [hsame]
    exact .inl rfl
  · rw [hsame]
    exact .inl rfl
  · rw [hset]
    by_cases hlocation : tableName :: directory = location
    · subst hlocation
      exact .inr ⟨rfl, hfree, _, _, lookup_set_self ..⟩
    · exact .inl (lookup_set_of_ne tree _ hlocation)

/-- A plan that was made and carried out. -/
structure Executed (config : Config) (planned : FileTree) (made : Plan)
    (input output directory : Location) (table : StampTable) (scripts : List Source) : Prop where
  sited : Sited config planned input output
  tableDir : planned.leadsTo config.tableDir directory
  listed : sources planned config.inputDir = .ok scripts
  made_eq : made = .ofSources config table scripts
  results : (made.execute planned).value.results = verdicts config planned output table scripts
  compiled : Compiled config output planned (staleNames table scripts) (made.execute planned).tree

theorem executed_of_plan {made : Plan} (hwf : tree.WellFormed)
    (h : (plan config tree).value = .ok made) :
    ∃ input output directory table scripts,
      Executed config (plan config tree).tree made input output directory table scripts := by
  obtain ⟨input, output, directory, hsited, htableDir⟩ := sited_of_plan hwf h
  obtain ⟨-, prepared, scripts, -, rfl, hscripts, -, rfl⟩ := plan_eq_ok h
  obtain ⟨hresults, -, hcompiled⟩ := execute_ofSources
    (previous config (plan config tree).tree).1 hsited hscripts
  exact ⟨input, output, directory, _, scripts,
    ⟨hsited, htableDir, hscripts, rfl, hresults, hcompiled⟩⟩

namespace Executed

variable {planned : FileTree} {made : Plan} {input output directory : Location}
  {table : StampTable} {scripts : List Source}

variable (h : Executed config planned made input output directory table scripts)

include h

theorem config_eq : made.config = config := by
  rw [h.made_eq]
  rfl

theorem tableDir_executed :
    (made.execute planned).tree.leadsTo (made.execute planned).value.config.tableDir directory := by
  have hconfig : (made.execute planned).value.config = config := h.config_eq
  rw [hconfig]
  exact h.tableDir.of_keeps h.compiled.home fun _ => h.compiled.directory

theorem stored : Stored directory (made.execute planned).tree
    ((made.execute planned).value.persist (made.execute planned).tree).tree :=
  stored_persist h.compiled.wellFormed h.tableDir_executed

theorem output_eq : output = planned.destination config.outputDir := h.sited.output.eq_destination

theorem isScript {name : RawText} (hname : name ∈ scripts.map Source.name) :
    IsName name ∧ isScriptName name := by
  obtain ⟨source, hsource, rfl⟩ := List.mem_map.mp hname
  obtain ⟨hscript, -, contents, modified, hfile, -⟩ :=
    (mem_sources_iff h.sited.wellFormed h.sited.input h.listed).mp hsource
  exact ⟨h.sited.wellFormed.isName (by rw [hfile]; simp), hscript⟩

theorem destination_artifact {name : RawText} (hname : name ∈ scripts.map Source.name) :
    planned.destination (config.task name).output = artifactName name :: output := by
  obtain ⟨hisName, hscript⟩ := h.isScript hname
  rw [Config.task, destination_join _ _ (isName_artifactName hisName hscript), h.output_eq]

/-- A batch writes its stamp table and the artifacts of its tasks. -/
theorem writtenAt : WrittenAt (made.writesAt planned) planned
    ((made.execute planned).value.persist (made.execute planned).tree).tree := by
  refine (h.compiled.writtenAt.mono ?_).trans ((writtenAt_persist h.tableDir_executed).mono ?_)
  · rintro location ⟨name, hname, rfl⟩
    refine .inr ⟨config.task name, ?_, (h.destination_artifact ?_).symm⟩
    · rw [h.made_eq, tasks_ofSources h.sited.wellFormed h.sited.input h.listed]
      exact List.mem_map_of_mem hname
    · exact mem_names_of_mem_staleNames hname
  · rintro location rfl
    refine .inl ?_
    rw [h.config_eq, Config.tablePath, destination_join _ _ isName_tableName,
      h.tableDir.eq_destination]

theorem source_of_unchanged {script : Path} (hscript : script ∈ made.unchanged) :
    ∃ source ∈ scripts, config.artifactPath script = (config.task source.name).output ∧
      source.name ∉ staleNames table scripts := by
  rw [h.made_eq] at hscript
  obtain ⟨source, hsource, rfl⟩ := List.mem_map.mp hscript
  obtain ⟨hsource, hfresh⟩ := List.mem_filter.mp hsource
  obtain ⟨-, -, contents, modified, -, hof⟩ :=
    (mem_sources_iff h.sited.wellFormed h.sited.input h.listed).mp hsource
  have hpath : source.path = config.inputDir.join ⟨source.name⟩ := congrArg Source.path hof
  refine ⟨source, hsource, ?_, ?_⟩
  · rw [hpath, config.artifactPath_join (h.isScript (List.mem_map_of_mem hsource)).1]
    rfl
  · rw [name_mem_staleNames_iff h.sited.wellFormed h.sited.input h.listed hsource, hfresh]
    simp

/-- An artifact that is not written is what it was. -/
theorem lookup_artifact {name : RawText} (hname : name ∈ scripts.map Source.name)
    (hkept : name ∈ staleNames table scripts → verdict config planned output name ≠ none) :
    ((made.execute planned).value.persist (made.execute planned).tree).tree.lookup
        (artifactName name :: output) = planned.lookup (artifactName name :: output) := by
  rw [h.stored.artifact]
  by_cases hstale : name ∈ staleNames table scripts
  · obtain ⟨fault, hfault⟩ := Option.ne_none_iff_exists'.mp (hkept hstale)
    rw [h.compiled.artifact name hstale, artifactEntry_of_verdict_eq_some hfault]
  · refine h.compiled.artifact_of_not_mem (fun other hother => ?_) (h.isScript hname).2 hstale
    exact (h.isScript (mem_names_of_mem_staleNames hother)).2

/-- An artifact that is written says what its script says. -/
theorem lookup_artifact_of_verdict_eq_none {name : RawText}
    (hstale : name ∈ staleNames table scripts)
    (hverdict : verdict config planned output name = none) :
    ∃ dialogue, (planned.readDialogue (config.task name).input).1 = .ok dialogue ∧
      ((made.execute planned).value.persist (made.execute planned).tree).tree.lookup
        (artifactName name :: output) =
          some (.file (Text.encode dialogue.artifact) planned.clock) := by
  obtain ⟨dialogue, hread, -, hentry⟩ := artifactEntry_of_verdict_eq_none hverdict
  refine ⟨dialogue, hread, ?_⟩
  rw [h.stored.artifact, h.compiled.artifact name hstale, hentry]

end Executed

/-! ## A whole batch -/

theorem run_of_plan_eq_error {fault : Fault} (h : (plan config tree).value = .error fault) :
    (run config tree).tree = (plan config tree).tree ∧
      (run config tree).result = .error fault := by
  unfold run
  dsimp only
  rw [h]
  exact ⟨rfl, rfl⟩

/-- A batch that has a plan goes well, or its stamps cannot be stored. -/
theorem run_of_plan_eq_ok {made : Plan} (h : (plan config tree).value = .ok made) :
    (run config tree).result = .ok (made.execute (plan config tree).tree).value ∨
      ∃ fault, (run config tree).result = .error (.table fault) ∧
        (run config tree).tree = (made.execute (plan config tree).tree).tree := by
  unfold run
  dsimp only
  rw [h]
  dsimp only
  unfold Outcome.persist
  dsimp only
  split
  next fault hfault => exact .inr ⟨fault, rfl, rfl⟩
  next => exact .inl rfl

/-- A batch that has a plan writes where the plan says, and nowhere else. -/
theorem writtenAt_run (config : Config) (hwf : tree.WellFormed) :
    WrittenAt (fun location => ∃ made, (plan config tree).value = .ok made ∧
        made.writesAt tree location)
      (plan config tree).tree (run config tree).tree := by
  cases hplan : (plan config tree).value with
  | error fault =>
      rw [(run_of_plan_eq_error hplan).1]
      exact fun _ => .inl rfl
  | ok made =>
      obtain ⟨input, output, directory, table, scripts, h⟩ := executed_of_plan hwf hplan
      rw [tree_run hplan]
      refine h.writtenAt.mono fun location hwrites => ⟨made, rfl, ?_⟩
      have hhome := (grows_plan config tree).home
      simpa only [Plan.writesAt, destination_congr hhome] using hwrites

theorem lookup_script_run (hwf : tree.WellFormed) {name : RawText} (hscript : isScriptName name)
    (above : Location) :
    (run config tree).tree.lookup (name :: above) =
      (plan config tree).tree.lookup (name :: above) := by
  cases hplan : (plan config tree).value with
  | error fault => rw [(run_of_plan_eq_error hplan).1]
  | ok made =>
      obtain ⟨input, output, directory, table, scripts, h⟩ := executed_of_plan hwf hplan
      rw [tree_run hplan, h.stored.script hscript, h.compiled.script hscript]

/-- An artifact that is not written has the contents that it had. -/
theorem contents?_artifact_run {made : Plan} {input output directory : Location}
    {table : StampTable} {scripts : List Source} (hplan : (plan config tree).value = .ok made)
    (h : Executed config (plan config tree).tree made input output directory table scripts)
    {name : RawText} (hname : name ∈ scripts.map Source.name)
    (hkept : name ∈ staleNames table scripts →
      verdict config (plan config tree).tree output name ≠ none) :
    (run config tree).tree.contents? (tree.destination (config.task name).output) =
      tree.contents? (tree.destination (config.task name).output) := by
  have hgrows := grows_plan config tree
  rw [← destination_congr hgrows.home, h.destination_artifact hname, ← hgrows.contents?, contents?,
    tree_run hplan, h.lookup_artifact hname hkept, contents?]

/-- Planning does not change what a script says. -/
theorem readDialogue_plan {made : Plan} {input output directory : Location}
    {table : StampTable} {scripts : List Source} (hplan : (plan config tree).value = .ok made)
    (h : Executed config (plan config tree).tree made input output directory table scripts)
    {name : RawText} (hname : name ∈ scripts.map Source.name) :
    (plan config tree).tree.readDialogue (config.task name).input =
      tree.readDialogue (config.task name).input := by
  have hgrows := grows_plan config tree
  obtain ⟨location, hfind⟩ := isDirectory_iff.mp (plan_eq_ok hplan).1
  have hinput : tree.leadsTo config.inputDir location := (find_eq_directory_iff.mp hfind).2.2
  have hlocation : location = input := by
    rw [hinput.eq_destination, h.sited.input.eq_destination, destination_congr hgrows.home]
  subst hlocation
  obtain ⟨source, hsource, rfl⟩ := List.mem_map.mp hname
  obtain ⟨-, -, contents, modified, hfile, -⟩ :=
    (mem_sources_iff h.sited.wellFormed h.sited.input h.listed).mp hsource
  refine readDialogue_congr (find_join_congr hinput h.sited.input (h.isScript hname).1 ?_)
  rw [hfile, hgrows.lookup_file hfile]

/-- What a batch leaves of a tree. -/
structure Framed (config : Config) (tree later : FileTree) : Prop where
  /-- Nothing goes away: what is no file stays as it is. -/
  kept : ∀ location entry, tree.lookup location = some entry → tree.contents? location = none →
    later.lookup location = some entry
  /-- A file stays a file. -/
  files : ∀ location, tree.contents? location ≠ none → later.contents? location ≠ none
  /-- Scripts keep their bytes and their modification times. -/
  scripts : ∀ name above contents modified, isScriptName name →
    tree.lookup (name :: above) = some (.file contents modified) →
      later.lookup (name :: above) = some (.file contents modified)
  /-- A file that is new or has other bytes is an artifact of a task or the stamp
  table. -/
  changes : ∀ location, later.contents? location ≠ tree.contents? location →
    ∃ made, (plan config tree).value = .ok made ∧ made.writesAt tree location
  /-- A directory that is new is on the way to the artifacts or to the table. -/
  directories : ∀ location, later.lookup location = some .directory →
    tree.lookup location = some .directory ∨
      (tree.lookup location = none ∧ config.isOnWay tree location)
  /-- The artifact of a script that is passed over stays, or stays missing. -/
  unchanged : ∀ made, (plan config tree).value = .ok made → ∀ script ∈ made.unchanged,
    later.contents? (tree.destination (config.artifactPath script)) =
      tree.contents? (tree.destination (config.artifactPath script))
  /-- So does the artifact of a task that fails. -/
  failed : ∀ made, (plan config tree).value = .ok made →
    ∀ result ∈ (made.execute (plan config tree).tree).value.results, result.isOk = false →
      later.contents? (tree.destination result.task.output) =
        tree.contents? (tree.destination result.task.output)
  /-- The artifact of a task that goes well says what the script says. -/
  compiled : ∀ made, (plan config tree).value = .ok made →
    ∀ result ∈ (made.execute (plan config tree).tree).value.results, result.isOk = true →
      ∃ dialogue, (tree.readDialogue result.task.input).1 = .ok dialogue ∧
        later.contents? (tree.destination result.task.output) =
          some (Text.encode dialogue.artifact)

theorem framed_run_tree (hwf : tree.WellFormed) : Framed config tree (run config tree).tree := by
  have hgrows := grows_plan config tree
  have hwritten := writtenAt_run config hwf
  refine
    { kept := ?kept
      files := ?files
      scripts := ?scripts
      changes := ?changes
      directories := ?directories
      unchanged := ?unchanged
      failed := ?failed
      compiled := ?compiled }
  case kept =>
    intro location entry hentry hfile
    have hobstacle : obstacle ((plan config tree).tree.lookup location) ≠ none := by
      rw [hgrows.lookup_of_some hentry]
      cases entry with
      | file contents modified => simp [contents?, hentry] at hfile
      | _ => simp [obstacle]
    rw [hwritten.lookup_of_obstacle hobstacle, hgrows.lookup_of_some hentry]
  case files =>
    intro location hfile
    rw [← hgrows.contents?] at hfile
    exact hwritten.contents?_ne_none hfile
  case scripts =>
    intro name above contents modified hscript hfile
    rw [lookup_script_run hwf hscript, hgrows.lookup_of_some hfile]
  case changes =>
    intro location hchange
    rw [← hgrows.contents?] at hchange
    exact hwritten.place_of_contents? hchange
  case directories =>
    intro location hmade
    have hplanned := hwritten.lookup_directory hmade
    rcases hgrows.lookup location with hsame | ⟨hnone, -⟩
    · exact .inl (hsame ▸ hplanned)
    · refine .inr ⟨hnone, ((growsAlong_plan config tree).lookup location).resolve_left ?_⟩
      rw [hplanned, hnone]
      simp
  case unchanged =>
    intro made hplan script hscript
    obtain ⟨input, output, directory, table, scripts, h⟩ := executed_of_plan hwf hplan
    obtain ⟨source, hsource, hartifact, hfresh⟩ := h.source_of_unchanged hscript
    rw [hartifact]
    refine contents?_artifact_run hplan h (List.mem_map_of_mem hsource) fun hstale => ?_
    exact absurd hstale hfresh
  case failed =>
    intro made hplan result hresult hfailed
    obtain ⟨input, output, directory, table, scripts, h⟩ := executed_of_plan hwf hplan
    rw [h.results, verdicts] at hresult
    obtain ⟨name, hname, rfl⟩ := List.mem_map.mp hresult
    refine contents?_artifact_run hplan h (mem_names_of_mem_staleNames hname) fun _ hnone => ?_
    simp [TaskResult.isOk, hnone] at hfailed
  case compiled =>
    intro made hplan result hresult hok
    obtain ⟨input, output, directory, table, scripts, h⟩ := executed_of_plan hwf hplan
    rw [h.results, verdicts] at hresult
    obtain ⟨name, hname, rfl⟩ := List.mem_map.mp hresult
    have hlisted := mem_names_of_mem_staleNames hname
    have hverdict : verdict config (plan config tree).tree output name = none := by
      simpa [TaskResult.isOk] using hok
    obtain ⟨dialogue, hread, hentry⟩ := h.lookup_artifact_of_verdict_eq_none hname hverdict
    refine ⟨dialogue, by rw [← readDialogue_plan hplan h hlisted, hread], ?_⟩
    rw [← destination_congr hgrows.home, h.destination_artifact hlisted, tree_run hplan, contents?,
      hentry]

/-- A batch leaves the files of a tree alone but for its artifacts and its stamp
table, and its result tells how far it came. Without an input directory nothing
changes at all, and without a plan nothing but directories is made. A table that
cannot be stored leaves the tree as the tasks have left it. -/
theorem framed_run (config : Config) {tree : FileTree} (hwf : tree.WellFormed) :
    Framed config tree (run config tree).tree ∧
      match (run config tree).result with
      | .ok outcome => ∃ made, (plan config tree).value = .ok made ∧
          outcome = (made.execute (plan config tree).tree).value
      | .error (.missingInput _) => (run config tree).tree = tree
      | .error (.directory _ _) | .error (.noScripts _) =>
          ∀ location, (run config tree).tree.lookup location = tree.lookup location ∨
            (tree.lookup location = none ∧
              (run config tree).tree.lookup location = some .directory ∧
              config.isOnWay tree location)
      | .error (.table _) => ∃ made, (plan config tree).value = .ok made ∧
          (run config tree).tree = (made.execute (plan config tree).tree).tree := by
  refine ⟨framed_run_tree hwf, ?_⟩
  have hmade : ∀ location, (plan config tree).tree.lookup location = tree.lookup location ∨
      (tree.lookup location = none ∧ (plan config tree).tree.lookup location = some .directory ∧
        config.isOnWay tree location) := by
    intro location
    rcases (growsAlong_plan config tree).lookup location with hsame | hway
    · exact .inl hsame
    · exact ((grows_plan config tree).lookup location).imp_right fun hnew => ⟨hnew.1, hnew.2, hway⟩
  cases hplan : (plan config tree).value with
  | error fault =>
      obtain ⟨htree, hresult⟩ := run_of_plan_eq_error hplan
      rw [hresult, htree]
      rcases plan_eq_error hplan with ⟨rfl, hsame⟩ | ⟨⟨dir, cause, rfl⟩ | rfl, -⟩
      · exact hsame
      · exact hmade
      · exact hmade
  | ok made =>
      rcases run_of_plan_eq_ok hplan with hresult | ⟨fault, hresult, htree⟩
      · rw [hresult]
        exact ⟨made, rfl, rfl⟩
      · rw [hresult]
        exact ⟨made, rfl, htree⟩

theorem framed_run_mixedScripts :
    mixedScripts.WellFormed ∧
      Framed mixedConfig mixedScripts (run mixedConfig mixedScripts).tree ∧
      ∃ made, (plan mixedConfig mixedScripts).value = .ok made ∧
        (run mixedConfig mixedScripts).result =
          .ok (made.execute (plan mixedConfig mixedScripts).tree).value := by
  have hwf : mixedScripts.WellFormed := .of_entries (by decide +kernel) (by decide +kernel)
  obtain ⟨hframed, hresult⟩ := framed_run mixedConfig hwf
  refine ⟨hwf, hframed, ?_⟩
  cases hrun : (run mixedConfig mixedScripts).result with
  | error fault => exact absurd hrun (result_run_mixedScripts fault)
  | ok outcome =>
      rw [hrun] at hresult
      obtain ⟨made, hplan, rfl⟩ := hresult
      exact ⟨made, hplan, rfl⟩

end Batch

end Parley
