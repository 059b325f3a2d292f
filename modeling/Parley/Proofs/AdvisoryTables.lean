import Parley.Proofs.Frames
import Parley.Proofs.Partitions
import Parley.Proofs.Records

/-!
# A stamp table is advice

Two trees that differ at one place are told apart only by what passes through
that place. A batch whose directories do not pass through its stamp table reads
the table once, to sort its scripts. So whatever stands there, the same batches
fail, for the same reason, and the same scripts are listed with the same stamps.
Only their division into tasks and unchanged scripts is up to the table.
-/

namespace Parley

namespace FileTree

open Parley.Path

/-! ## Trees that agree but for one place -/

/-- Whether two trees have the same entries everywhere but at one place. -/
structure AgreeBut (place : Location) (tree other : FileTree) : Prop where
  home : other.home = tree.home
  lookup : ∀ location, location ≠ place → other.lookup location = tree.lookup location

/-- The location of a name that a path ends at lies on its way. -/
theorem walk_of_aim {tree : FileTree} {absolute : Bool} {steps : List RawText}
    {directory : Location} {name : RawText}
    (h : tree.aim absolute steps = .ok (.name directory name)) :
    walk (if absolute then [] else tree.home) steps = name :: directory := by
  cases steps with
  | nil => cases absolute <;> simp [aim] at h
  | cons last above =>
      rw [aim] at h
      cases hfollow : tree.follow (if absolute then [] else tree.home) above with
      | error fault => simp [hfollow] at h
      | ok reached =>
          rw [hfollow] at h
          by_cases hhere : last = "."
          · simp [hhere] at h
          · by_cases habove : last = ".."
            · simp [habove] at h
            · simp only [hhere, habove, if_false, Except.ok.injEq, Target.name.injEq] at h
              obtain ⟨rfl, rfl⟩ := h
              rw [walk, ← eq_walk_of_follow hfollow, advance, if_neg hhere, if_neg habove]

/-- Whether two attempts to make directories end alike. -/
structure MadeAlike {φ : Type} (place home : Location) (made other : FileTree × Option φ) :
    Prop where
  agree : AgreeBut place made.1 other.1
  home : made.1.home = home
  fault : other.2 = made.2

theorem MadeAlike.eq_pairs {φ : Type} {place home : Location} {made other : FileTree × Option φ}
    (h : MadeAlike place home made other) :
    ∃ tree tree' fault, made = (tree, fault) ∧ other = (tree', fault) ∧
      AgreeBut place tree tree' ∧ tree.home = home :=
  ⟨made.1, other.1, made.2, rfl, Prod.ext rfl h.fault, h.agree, h.home⟩

namespace AgreeBut

variable {place home : Location} {tree other : FileTree}

section

variable (h : AgreeBut place tree other)

include h

theorem child {directory : Location} {name : RawText} (hoff : name :: directory ≠ place) :
    other.child directory name = tree.child directory name := by
  rw [FileTree.child, FileTree.child, h.lookup _ hoff]

theorem enter {directory : Location} {step : RawText} (hoff : advance directory step ≠ place) :
    other.enter directory step = tree.enter directory step := by
  unfold FileTree.enter
  unfold advance at hoff
  by_cases hhere : step = "."
  · rw [if_pos hhere, if_pos hhere]
  · rw [if_neg hhere] at hoff ⊢
    rw [if_neg hhere]
    by_cases habove : step = ".."
    · rw [if_pos habove, if_pos habove]
    · rw [if_neg habove] at hoff ⊢
      rw [if_neg habove, h.child hoff]

/-- Steps that do not pass the place are followed alike. -/
theorem follow {start : Location} {steps : List RawText} (hoff : ¬ isOnWay start steps place) :
    other.follow start steps = tree.follow start steps := by
  induction steps with
  | nil => rfl
  | cons step above ih =>
      obtain ⟨hplace, habove⟩ := not_or.mp (mt isOnWay_cons_iff.mpr hoff)
      rw [FileTree.follow, FileTree.follow, ih habove]
      cases hfollow : tree.follow start above with
      | error fault => rfl
      | ok directory =>
          apply h.enter
          rw [eq_walk_of_follow hfollow]
          exact Ne.symm hplace

theorem aim {absolute : Bool} {steps : List RawText}
    (hoff : ¬ isOnWay (if absolute then [] else tree.home) steps place) :
    other.aim absolute steps = tree.aim absolute steps := by
  cases steps with
  | nil => rfl
  | cons last above =>
      obtain ⟨-, habove⟩ := not_or.mp (mt isOnWay_cons_iff.mpr hoff)
      rw [FileTree.aim, FileTree.aim, h.home, h.follow habove]

theorem child_of_aim {absolute : Bool} {steps : List RawText} {directory : Location}
    {name : RawText} (hoff : ¬ isOnWay (if absolute then [] else tree.home) steps place)
    (haim : tree.aim absolute steps = .ok (.name directory name)) :
    other.child directory name = tree.child directory name := by
  apply h.child
  rintro rfl
  exact hoff ⟨steps, List.suffix_rfl, (walk_of_aim haim).symm⟩

/-- A path that does not pass the place leads to the same entry. -/
theorem find {path : Path} (hoff : ¬ isOnWay (tree.origin path) path.steps place) :
    other.find path = tree.find path := by
  rw [FileTree.find, FileTree.find, target, target]
  cases path.fault? with
  | some fault => rfl
  | none =>
      dsimp only
      rw [h.aim hoff]
      cases haim : tree.aim path.isAbsolute path.steps with
      | error fault => rfl
      | ok target =>
          cases target with
          | directory location => rfl
          | name directory name =>
              dsimp only
              rw [h.child_of_aim hoff haim]

theorem isDirectory {path : Path} (hoff : ¬ isOnWay (tree.origin path) path.steps place) :
    other.isDirectory path = tree.isDirectory path := by
  rw [FileTree.isDirectory, FileTree.isDirectory, h.find hoff]

theorem set (name : RawText) (directory : Location) (entry : Entry) :
    AgreeBut place (tree.set (name :: directory) entry) (other.set (name :: directory) entry) where
  home := h.home
  lookup location hlocation := by
    rw [lookup_set _ (List.cons_ne_nil _ _), lookup_set _ (List.cons_ne_nil _ _),
      h.lookup location hlocation]

/-- One directory off the place is made in both trees or, for the same reason, in
neither. -/
theorem makeDirectory {absolute : Bool} {steps : List RawText}
    (hoff : ¬ isOnWay (if absolute then [] else tree.home) steps place) :
    (∃ fault, tree.makeDirectory absolute steps = .error fault ∧
        other.makeDirectory absolute steps = .error fault) ∨
      ∃ made made', tree.makeDirectory absolute steps = .ok made ∧
        other.makeDirectory absolute steps = .ok made' ∧ AgreeBut place made made' ∧
        made.home = tree.home := by
  rw [FileTree.makeDirectory, FileTree.makeDirectory, h.aim hoff]
  cases haim : tree.aim absolute steps with
  | error fault => exact .inl ⟨fault, rfl, rfl⟩
  | ok target =>
      cases target with
      | directory location => exact .inl ⟨_, rfl, rfl⟩
      | name directory name =>
          dsimp only
          rw [h.child_of_aim hoff haim]
          cases tree.child directory name with
          | error fault => exact .inl ⟨fault, rfl, rfl⟩
          | ok entry =>
              cases entry with
              | some entry => exact .inl ⟨_, rfl, rfl⟩
              | none => exact .inr ⟨_, _, rfl, rfl, h.set name directory .directory, rfl⟩

theorem reaches {absolute : Bool} {steps : List RawText}
    (hoff : ¬ isOnWay (if absolute then [] else tree.home) steps place) :
    other.reaches absolute steps = tree.reaches absolute steps := by
  rw [FileTree.reaches, FileTree.reaches, h.home, h.follow hoff]

/-- A directory that could not be made is found to be there in both trees or in
neither. -/
theorem settle {absolute : Bool} {steps : List RawText} (hhome : tree.home = home)
    (hoff : ¬ isOnWay (if absolute then [] else home) steps place) (fault : FileFault) :
    MadeAlike place home
      (if tree.reaches absolute steps then (tree, none) else (tree, some fault))
      (if other.reaches absolute steps then (other, none) else (other, some fault)) := by
  rw [h.reaches (hhome ▸ hoff)]
  split
  · exact ⟨h, hhome, rfl⟩
  · exact ⟨h, hhome, rfl⟩

theorem provide {absolute : Bool} {steps : List RawText}
    {above : FileTree → FileTree × Option FileFault} (hhome : tree.home = home)
    (hoff : ¬ isOnWay (if absolute then [] else home) steps place)
    (habove : MadeAlike place home (above tree) (above other)) :
    MadeAlike place home (tree.provide absolute steps above)
      (other.provide absolute steps above) := by
  unfold FileTree.provide
  dsimp only
  rcases h.makeDirectory (hhome ▸ hoff) with
    ⟨fault, hfault, hfault'⟩ | ⟨made, made', hmade, hmade', hagree, hkept⟩
  · rw [hfault, hfault']
    cases fault with
    | notFound =>
        -- What is above comes first. Then the last step is tried once more.
        obtain ⟨higher, higher', failure, htree, hother, hhigher, hkept⟩ := habove.eq_pairs
        rw [htree, hother]
        cases failure with
        | some fault => exact ⟨hhigher, hkept, rfl⟩
        | none =>
            dsimp only
            rcases hhigher.makeDirectory (hkept ▸ hoff) with
              ⟨fault, hfault, hfault'⟩ | ⟨made, made', hmade, hmade', hagree, hkept'⟩
            · rw [hfault, hfault']
              exact hhigher.settle hkept hoff fault
            · rw [hmade, hmade']
              exact ⟨hagree, hkept'.trans hkept, rfl⟩
    | _ => exact h.settle hhome hoff _
  · rw [hmade, hmade']
    exact ⟨hagree, hkept.trans hhome, rfl⟩

end

theorem provideAll (absolute : Bool) {steps : List RawText} (h : AgreeBut place tree other)
    (hhome : tree.home = home) (hoff : ¬ isOnWay (if absolute then [] else home) steps place) :
    MadeAlike place home (provideAll absolute steps tree) (provideAll absolute steps other) := by
  induction steps with
  | nil => exact ⟨h, hhome, rfl⟩
  | cons step above ih =>
      obtain ⟨-, habove⟩ := not_or.mp (mt isOnWay_cons_iff.mpr hoff)
      exact h.provide hhome hoff (ih habove)

/-- Directories off the place are made alike. -/
theorem makeDirectories {path : Path} (h : AgreeBut place tree other)
    (hoff : ¬ isOnWay (tree.origin path) path.steps place) :
    MadeAlike place tree.home (tree.makeDirectories path) (other.makeDirectories path) := by
  unfold FileTree.makeDirectories
  split
  · exact ⟨h, rfl, rfl⟩
  · split
    · exact ⟨h, rfl, rfl⟩
    · apply h.provide rfl hoff
      exact h.provideAll path.isAbsolute rfl fun hway => hoff hway.of_components

/-! Where the place is that of a stamp table, scripts and artifacts are the same. -/

theorem script {above : Location} (h : AgreeBut (Batch.tableName :: above) tree other)
    {name : RawText} (hscript : Batch.isScriptName name) (directory : Location) :
    other.lookup (name :: directory) = tree.lookup (name :: directory) := by
  apply h.lookup
  intro heq
  exact Batch.tableName_ne_of_isScriptName hscript (List.cons.inj heq).1.symm

theorem artifact {above : Location} (h : AgreeBut (Batch.tableName :: above) tree other)
    (name : RawText) (directory : Location) :
    other.lookup (Batch.artifactName name :: directory) =
      tree.lookup (Batch.artifactName name :: directory) := by
  apply h.lookup
  intro heq
  exact Batch.artifactName_ne_tableName name (List.cons.inj heq).1

end AgreeBut

end FileTree

namespace Batch

open FileTree Parley.Path StampTable

-- A path that is joined is known by its lemmas. Its text is not computed.
attribute [local irreducible] Path.join

variable {config : Config} {place : Location} {tree other : FileTree}

/-! ## Batches on such trees -/

theorem madeAlike_prepare (h : AgreeBut place tree other) (hoff : ¬ config.isOnWay tree place) :
    MadeAlike place tree.home (prepare config tree) (prepare config other) := by
  obtain ⟨hout, htable⟩ := not_or.mp hoff
  obtain ⟨made, made', failure, hmade, hmade', hagree, hkept⟩ := (h.makeDirectories hout).eq_pairs
  unfold prepare
  rw [hmade, hmade']
  cases failure with
  | some fault => exact ⟨hagree, hkept, rfl⟩
  | none =>
      dsimp only
      rw [← origin_congr hkept] at htable
      obtain ⟨last, last', failure, hlast, hlast', hagree, hkept'⟩ :=
        (hagree.makeDirectories htable).eq_pairs
      rw [hlast, hlast']
      cases failure with
      | some fault => exact ⟨hagree, hkept'.trans hkept, rfl⟩
      | none => exact ⟨hagree, hkept'.trans hkept, rfl⟩

/-- The scripts of a directory are listed, also once directories were made. -/
theorem exists_sources_of_grows {dir : Path} {later : FileTree} (hgrows : Grows tree later)
    (hdir : tree.isDirectory dir = true) : ∃ scripts, sources later dir = .ok scripts := by
  obtain ⟨input, hfind⟩ := isDirectory_iff.mp hdir
  obtain ⟨hfault, hsteps, hleads⟩ := find_eq_directory_iff.mp hfind
  have hfind' := find_eq_directory_iff.mpr ⟨hfault, hsteps, hgrows.leadsTo hleads⟩
  exact ⟨_, sources_eq_ok_iff.mpr ⟨input, hfind', rfl⟩⟩

/-- The same scripts are listed where the place has no script name. -/
theorem sources_of_agreeBut {dir : Path} {above : Location} {scripts : List Source}
    (h : AgreeBut (tableName :: above) tree other) (hwf : tree.WellFormed)
    (hwf' : other.WellFormed)
    (hoff : ¬ FileTree.isOnWay (tree.origin dir) dir.steps (tableName :: above))
    (hscripts : sources tree dir = .ok scripts) : sources other dir = .ok scripts := by
  obtain ⟨input, hfind, -⟩ := sources_eq_ok_iff.mp hscripts
  have hfind' : other.find dir = .ok (input, .directory) := (h.find hoff).trans hfind
  exact sources_congr hwf hwf' (find_eq_directory_iff.mp hfind).2.2
    (find_eq_directory_iff.mp hfind').2.2 (fun _ hscript => h.script hscript input) hscripts

/-- The stamp table that a plan is made with. -/
def loaded (config : Config) (tree : FileTree) : StampTable :=
  (previous config (plan config tree).tree).1

/-- Whether no directory of a batch lies at a place or beyond it. -/
def Config.avoids (config : Config) (tree : FileTree) (place : Location) : Prop :=
  ¬ FileTree.isOnWay (tree.origin config.inputDir) config.inputDir.steps place ∧
    ¬ config.isOnWay tree place

instance (config : Config) (tree : FileTree) (place : Location) :
    Decidable (config.avoids tree place) :=
  inferInstanceAs (Decidable (_ ∧ _))

/-- Without regard to the stamp table, planning fails for the same reason or lists
the same scripts. -/
theorem plan_of_agreeBut {above : Location} (h : AgreeBut (tableName :: above) tree other)
    (hwf : tree.WellFormed) (hwf' : other.WellFormed)
    (hoff : config.avoids tree (tableName :: above)) :
    (∃ fault, (plan config tree).value = .error fault ∧
        (plan config other).value = .error fault) ∨
      ∃ scripts, AgreeBut (tableName :: above) (plan config tree).tree (plan config other).tree ∧
        sources (plan config tree).tree config.inputDir = .ok scripts ∧
        sources (plan config other).tree config.inputDir = .ok scripts ∧
        (plan config tree).value = .ok (.ofSources config (loaded config tree) scripts) ∧
        (plan config other).value = .ok (.ofSources config (loaded config other) scripts) := by
  obtain ⟨hinput, hways⟩ := hoff
  have hdir' := h.isDirectory hinput
  cases hdir : tree.isDirectory config.inputDir with
  | false =>
      rw [hdir] at hdir'
      exact .inl ⟨.missingInput config.inputDir, by simp [plan, hdir], by simp [plan, hdir']⟩
  | true =>
      rw [hdir] at hdir'
      obtain ⟨prepared, prepared', failure, hprepare, hprepare', hagree, hkept⟩ :=
        (madeAlike_prepare h hways).eq_pairs
      cases failure with
      | some fault =>
          exact .inl ⟨fault, by simp [plan, hdir, hprepare], by simp [plan, hdir', hprepare']⟩
      | none =>
          have hgrows := grows_prepare config tree
          have hgrows' := grows_prepare config other
          rw [hprepare] at hgrows
          rw [hprepare'] at hgrows'
          -- The input directory is still there, so its scripts are listed.
          obtain ⟨scripts, hscripts⟩ := exists_sources_of_grows hgrows hdir
          rw [← origin_congr hgrows.home] at hinput
          have hscripts' := sources_of_agreeBut hagree (hgrows.wellFormed hwf)
            (hgrows'.wellFormed hwf') hinput hscripts
          by_cases hempty : scripts = []
          · subst hempty
            exact .inl ⟨.noScripts config.inputDir, by simp [plan, hdir, hprepare, hscripts],
              by simp [plan, hdir', hprepare', hscripts']⟩
          · right
            rw [loaded, loaded, plan_of_sources hdir hprepare hscripts hempty,
              plan_of_sources hdir' hprepare' hscripts' hempty]
            exact ⟨scripts, hagree, hscripts, hscripts', rfl, rfl⟩

/-- A script that two tables sort differently is known to the one as it is, and
to the other not at all or with another second. -/
theorem isFresh_of_mem_unchanged {input : Location} {scripts : List Source}
    {table table' : StampTable} (hwf : tree.WellFormed)
    (hdir : tree.leadsTo config.inputDir input)
    (h : sources tree config.inputDir = .ok scripts) {script : Path}
    (hunchanged : script ∈ (Plan.ofSources config table scripts).unchanged)
    (htask : script ∈ (Plan.ofSources config table' scripts).tasks.map Task.input) :
    ∃ source ∈ scripts, source.path = script ∧
      table.isFresh source.key source.modified = true ∧
      table'.isFresh source.key source.modified = false := by
  rw [Plan.ofSources, List.mem_map] at hunchanged
  rw [Plan.ofSources, List.map_map, List.mem_map] at htask
  obtain ⟨source, hsource, rfl⟩ := hunchanged
  obtain ⟨stale, hstale, hpath⟩ := htask
  rw [List.mem_filter] at hsource hstale
  obtain rfl := eq_of_path_eq hwf hdir h hstale.1 hsource.1 hpath
  exact ⟨stale, hsource.1, rfl, hsource.2, by simpa using hstale.2⟩

/-- What a plan knows of a script was stored before it was made. -/
theorem get?_loaded {key : String} {seen : Instant}
    (h : (loaded config tree).get? key = some seen) :
    (storedTable tree (tree.destination config.tableDir)).get? key = some seen := by
  have hgrows := grows_plan config tree
  have hstored := get?_previous h
  rwa [destination_congr hgrows.home, storedTable_of_grows hgrows] at hstored

/-- A script that two batches compile ends alike. -/
theorem result_of_agreeBut {planned planned' : FileTree} {made made' : Plan}
    {above input output directory input' output' directory' : Location}
    {table table' : StampTable} {scripts scripts' : List Source}
    (h : Executed config planned made input output directory table scripts)
    (h' : Executed config planned' made' input' output' directory' table' scripts')
    (hagree : AgreeBut (tableName :: above) planned planned') {result result' : TaskResult}
    (hresult : result ∈ (made.execute planned).value.results)
    (hresult' : result' ∈ (made'.execute planned').value.results)
    (htask : result'.task = result.task) : result' = result := by
  rw [h.results, verdicts] at hresult
  rw [h'.results, verdicts] at hresult'
  obtain ⟨name, hname, rfl⟩ := List.mem_map.mp hresult
  obtain ⟨name', hname', rfl⟩ := List.mem_map.mp hresult'
  obtain ⟨hisName, hscript⟩ := h.isScript (mem_names_of_mem_staleNames hname)
  obtain ⟨hisName', -⟩ := h'.isScript (mem_names_of_mem_staleNames hname')
  obtain rfl := join_injective config.inputDir hisName' hisName (congrArg Task.input htask)
  obtain rfl : input' = input := by
    rw [h'.sited.input.eq_destination, destination_congr hagree.home,
      ← h.sited.input.eq_destination]
  obtain rfl : output' = output := by
    rw [h'.output_eq, destination_congr hagree.home, ← h.output_eq]
  apply congrArg (TaskResult.mk (config.task name'))
  exact verdict_congr h.sited h'.sited hisName (hagree.script hscript input')
    (hagree.artifact name' output')

/-- A batch that has a plan fails at the end if the path of its table cannot be
used, provided that the place of the table is free. -/
theorem result_run_eq_error_iff {made : Plan} {fault : Fault} (hwf : tree.WellFormed)
    (hplan : (plan config tree).value = .ok made)
    (hoff : ¬ config.isOnWay tree (tree.destination config.tablePath))
    (hfree : obstacle (tree.lookup (tree.destination config.tablePath)) = none) :
    (run config tree).result = .error fault ↔
      ¬ usable config.tableDir tableName ∧
        fault = .table ⟨config.tablePath, config.tablePath.fault?.getD .nameTooLong⟩ := by
  obtain ⟨input, output, directory, table, scripts, h⟩ := executed_of_plan hwf hplan
  have hplace : tree.destination config.tablePath = tableName :: directory := by
    rw [Config.tablePath, destination_join _ _ isName_tableName, h.tableDir.eq_destination,
      destination_congr (grows_plan config tree).home]
  have hlookup : (made.execute (plan config tree).tree).tree.lookup (tableName :: directory) =
      tree.lookup (tableName :: directory) := by
    rw [h.compiled.others]
    · rw [hplace] at hoff
      exact ((growsAlong_plan config tree).lookup _).resolve_right hoff
    · intro name _ heq
      exact artifactName_ne_tableName name (List.cons.inj heq).1.symm
  have hconfig : (made.execute (plan config tree).tree).value.config = config := h.config_eq
  have htableDir := h.tableDir_executed
  rw [hconfig] at htableDir
  rw [hplace, ← hlookup] at hfree
  unfold run
  dsimp only
  rw [hplan]
  dsimp only
  rw [Outcome.persist, hconfig, saveTable, Config.tablePath]
  by_cases husable : usable config.tableDir tableName
  · rw [write_join_of_usable htableDir isName_tableName husable, hfree]
    simp [husable, Except.mapError, Except.map]
  · rw [write_join_of_not_usable htableDir isName_tableName husable]
    simp [husable, Except.mapError, Except.map, eq_comm]

/-! ## What the table decides -/

/-- Whether the scripts that one plan passes over and the other compiles are those
that the second table does not know as they are. -/
def SortedByTable (config : Config) (tree other : FileTree) (made made' : Plan) : Prop :=
  ∀ script ∈ made.unchanged, script ∈ made'.tasks.map Task.input →
    ∃ name modified, ListsScript tree config.inputDir name modified ∧
      script = config.inputDir.join ⟨name⟩ ∧
      (∃ seen, (loaded config tree).get? name.shown = some seen ∧
        seen.seconds = modified.seconds) ∧
      ∀ seen, (loaded config other).get? name.shown = some seen → seen.seconds ≠ modified.seconds

/-- Two plans that differ in nothing but how they sort their scripts. -/
structure PlannedAlike (config : Config) (tree other : FileTree) (made made' : Plan) : Prop where
  scripts : (made'.tasks.map Task.input ++ made'.unchanged).Perm
    (made.tasks.map Task.input ++ made.unchanged)
  snapshot : made'.snapshot = made.snapshot
  forth : SortedByTable config tree other made made'
  back : SortedByTable config other tree made' made
  /-- A script that both batches compile ends alike. -/
  results : ∀ result ∈ (made.execute (plan config tree).tree).value.results,
    ∀ result' ∈ (made'.execute (plan config other).tree).value.results,
      result'.task = result.task → result' = result

theorem sortedByTable_ofSources {scripts : List Source} (hwf : tree.WellFormed)
    (hscripts : sources (plan config tree).tree config.inputDir = .ok scripts)
    (hplan : (plan config tree).value = .ok (.ofSources config (loaded config tree) scripts)) :
    SortedByTable config tree other (.ofSources config (loaded config tree) scripts)
      (.ofSources config (loaded config other) scripts) := by
  obtain ⟨input, -, hfind, hprepared, hdir, -⟩ := exists_sources_of_plan hwf hplan
  intro script hunchanged htask
  obtain ⟨source, hsource, rfl, hfresh, hstale⟩ :=
    isFresh_of_mem_unchanged hprepared hdir hscripts hunchanged htask
  obtain ⟨modified, hlists, hof⟩ :=
    (mem_sources_iff_listsScript hwf (grows_plan config tree) hfind hscripts).mp hsource
  have hpath := congrArg Source.path hof
  have hmodified : source.modified.seconds = modified.seconds :=
    congrArg (fun source => source.modified.seconds) hof
  refine ⟨source.name, modified, hlists, hpath, ?_, ?_⟩
  · obtain ⟨seen, hseen, hseconds⟩ := isFresh_iff.mp hfresh
    exact ⟨seen, hseen, hseconds.trans hmodified⟩
  · intro seen hseen hseconds
    have hfresh' : (loaded config other).isFresh source.key source.modified = true :=
      isFresh_iff.mpr ⟨seen, hseen, hseconds.trans hmodified.symm⟩
    rw [hstale] at hfresh'
    contradiction

theorem plannedAlike_of_sources {above : Location} {scripts : List Source}
    (hwf : tree.WellFormed) (hwf' : other.WellFormed)
    (hagree : AgreeBut (tableName :: above) (plan config tree).tree (plan config other).tree)
    (hscripts : sources (plan config tree).tree config.inputDir = .ok scripts)
    (hscripts' : sources (plan config other).tree config.inputDir = .ok scripts)
    (hplan : (plan config tree).value = .ok (.ofSources config (loaded config tree) scripts))
    (hplan' : (plan config other).value = .ok (.ofSources config (loaded config other) scripts)) :
    PlannedAlike config tree other (.ofSources config (loaded config tree) scripts)
      (.ofSources config (loaded config other) scripts) where
  scripts := by
    obtain ⟨input, -, -, hprepared, hdir, -⟩ := exists_sources_of_plan hwf hplan
    obtain ⟨input', -, -, hprepared', hdir', -⟩ := exists_sources_of_plan hwf' hplan'
    rw [inputs_eq hprepared hdir hscripts, inputs_eq hprepared' hdir' hscripts']
    exact ((perm_names _ scripts).trans (perm_names _ scripts).symm).map _
  snapshot := rfl
  forth := sortedByTable_ofSources hwf hscripts hplan
  back := sortedByTable_ofSources hwf' hscripts' hplan'
  results := by
    obtain ⟨input, output, directory, table, listed, h⟩ := executed_of_plan hwf hplan
    obtain ⟨input', output', directory', table', listed', h'⟩ := executed_of_plan hwf' hplan'
    intro result hresult result' hresult' htask
    exact result_of_agreeBut h h' hagree hresult hresult' htask

/-- Without a well-formed record in the table every script is compiled. -/
theorem unchanged_of_isMalformed {made : Plan} {bytes : Bytes} {written : Instant}
    (hwf : tree.WellFormed) (hplan : (plan config tree).value = .ok made)
    (hfile : tree.lookup (tree.destination config.tablePath) = some (.file bytes written))
    (hrecords : ∀ record ∈ Text.runs endsRecord (dropMark bytes), IsMalformed record) :
    made.unchanged = [] ∧ ∀ name modified,
      ListsScript tree config.inputDir name modified → config.task name ∈ made.tasks := by
  obtain ⟨input, scripts, hfind, hprepared, hdir, hscripts, rfl⟩ := exists_sources_of_plan hwf hplan
  have hunknown : ∀ key modified, (loaded config tree).isFresh key modified = false := by
    intro key modified
    rw [Bool.eq_false_iff]
    intro hfresh
    obtain ⟨seen, hseen, -⟩ := isFresh_iff.mp hfresh
    have hstored := get?_loaded hseen
    rw [Config.tablePath, destination_join _ _ isName_tableName] at hfile
    rw [storedTable, hfile] at hstored
    obtain ⟨record, hrecord, hwell⟩ := exists_isRecord_of_get?_ofBytes hstored
    exact hrecords record hrecord key seen hwell
  refine ⟨?_, fun name modified hlists => ?_⟩
  · rw [Plan.ofSources, List.map_eq_nil_iff, List.filter_eq_nil_iff]
    intro source _
    exact Bool.eq_false_iff.mp (hunknown source.key source.modified)
  · have hsource : Source.of config.inputDir name modified ∈ scripts :=
      (mem_sources_iff_listsScript hwf (grows_plan config tree) hfind hscripts).mpr
        ⟨modified, hlists, rfl⟩
    exact (task_mem_tasks_iff hprepared hdir hscripts hsource).mpr (hunknown _ _)

/-- The stamp table is advice. On two trees that differ only at the place of the
table, which the directories of the batch do not pass, planning fails for the
same reason, or both plans list the same scripts with the same stamps. A script
is sorted differently only where one table does not know it as it is. No contents
of the table make a batch fail, and without a well-formed record every script
is compiled. -/
theorem plannedAlike_of_agreeBut (config : Config) {tree other : FileTree}
    (hwf : tree.WellFormed) (hwf' : other.WellFormed)
    (h : AgreeBut (tree.destination config.tablePath) tree other)
    (hoff : config.avoids tree (tree.destination config.tablePath)) :
    (match (plan config tree).value, (plan config other).value with
      | .error fault, .error fault' => fault' = fault
      | .ok made, .ok made' => PlannedAlike config tree other made made'
      | _, _ => False) ∧
      (obstacle (tree.lookup (tree.destination config.tablePath)) = none →
        obstacle (other.lookup (tree.destination config.tablePath)) = none →
          ∀ fault, (run config tree).result = .error fault ↔
            (run config other).result = .error fault) ∧
      ∀ bytes written,
        tree.lookup (tree.destination config.tablePath) = some (.file bytes written) →
        (∀ record ∈ Text.runs endsRecord (dropMark bytes), IsMalformed record) →
          ∀ made, (plan config tree).value = .ok made →
            made.unchanged = [] ∧ ∀ name modified,
              ListsScript tree config.inputDir name modified → config.task name ∈ made.tasks := by
  have hplace : tree.destination config.tablePath =
      tableName :: tree.destination config.tableDir := by
    rw [Config.tablePath, destination_join _ _ isName_tableName]
  have hplans := plan_of_agreeBut (hplace ▸ h) hwf hwf' (hplace ▸ hoff)
  refine ⟨?_, fun hfree hfree' fault => ?_, fun bytes written hfile hrecords made hplan => ?_⟩
  · rcases hplans with ⟨fault, hfault, hfault'⟩ |
      ⟨scripts, hagree, hscripts, hscripts', hplan, hplan'⟩
    · rw [hfault, hfault']
    · rw [hplan, hplan']
      exact plannedAlike_of_sources hwf hwf' hagree hscripts hscripts' hplan hplan'
  · rcases hplans with ⟨cause, hfault, hfault'⟩ | ⟨scripts, -, -, -, hplan, hplan'⟩
    · rw [(run_of_plan_eq_error hfault).2, (run_of_plan_eq_error hfault').2]
    · have hplace' := destination_congr h.home config.tablePath
      have hoff' : ¬ config.isOnWay other (other.destination config.tablePath) := by
        rw [hplace', Config.isOnWay, origin_congr h.home, origin_congr h.home]
        exact hoff.2
      rw [← hplace'] at hfree'
      rw [result_run_eq_error_iff hwf hplan hoff.2 hfree,
        result_run_eq_error_iff hwf' hplan' hoff' hfree']
  · exact unchanged_of_isMalformed hwf hplan hfile hrecords

/-- A stamp of a name that is no text, one of a day that is not there, and one
with a field too many. -/
def damagedStamps : Bytes :=
  0xFF :: Text.encode ".oud|1970-01-01T00:00:05Z\n..oud|1970-02-30T00:00:05Z\r\n" ++
    Text.encode "a.b.oud|1969-12-31T00:00:00Z|"

/-- The directory with dots in its names, where the table is damaged. -/
def damagedScripts : FileTree :=
  dottedScripts.set [tableName, "cache"] (.file damagedStamps ⟨9, 0⟩)

theorem wellFormed_damagedScripts : damagedScripts.WellFormed :=
  wellFormed_dottedScripts.set isName_tableName (by decide +kernel) fun h =>
    absurd h (by decide +kernel)

theorem plannedAlike_damagedScripts :
    damagedScripts.WellFormed ∧ dottedScripts.WellFormed ∧
      AgreeBut (damagedScripts.destination mixedConfig.tablePath) damagedScripts dottedScripts ∧
      mixedConfig.avoids damagedScripts (damagedScripts.destination mixedConfig.tablePath) ∧
      ∃ made made', (plan mixedConfig damagedScripts).value = .ok made ∧
        (plan mixedConfig dottedScripts).value = .ok made' ∧
        PlannedAlike mixedConfig damagedScripts dottedScripts made made' ∧
        made.unchanged = [] ∧ made'.unchanged = [⟨"in/a.b.oud"⟩] := by
  have hplace : damagedScripts.destination mixedConfig.tablePath = [tableName, "cache"] := by
    decide +kernel
  have hagree : AgreeBut (damagedScripts.destination mixedConfig.tablePath) damagedScripts
      dottedScripts := by
    rw [hplace]
    refine ⟨rfl, fun location hlocation => ?_⟩
    exact (lookup_set_of_ne dottedScripts _ (Ne.symm hlocation)).symm
  have hoff : mixedConfig.avoids damagedScripts
      (damagedScripts.destination mixedConfig.tablePath) := by decide +kernel
  obtain ⟨hplans, -, hdamaged⟩ := plannedAlike_of_agreeBut mixedConfig wellFormed_damagedScripts
    wellFormed_dottedScripts hagree hoff
  refine ⟨wellFormed_damagedScripts, wellFormed_dottedScripts, hagree, hoff, ?_⟩
  rw [plan_dottedScripts] at hplans ⊢
  cases hplan : (plan mixedConfig damagedScripts).value with
  | error fault => simp [hplan] at hplans
  | ok made =>
      rw [hplan] at hplans
      have hfile : damagedScripts.lookup (damagedScripts.destination mixedConfig.tablePath) =
          some (.file damagedStamps ⟨9, 0⟩) := by decide +kernel
      obtain ⟨hunchanged, -⟩ := hdamaged damagedStamps ⟨9, 0⟩ hfile (by decide +kernel) made hplan
      exact ⟨made, _, rfl, rfl, hplans, hunchanged, by decide +kernel⟩

end Batch

end Parley
