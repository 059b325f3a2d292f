import Parley.Batch.Pool
import Parley.Proofs.Persistence

/-!
# Workspaces and the promises of stamps

Scripts are edited while batches come and go. A batch is planned, executed and
stored in three steps. Edits may fall between any two of them, and the batch
may be abandoned after each.

A stamp is a promise about the second it names: whenever the script is there
with that modification time, its artifact is up to date. A workspace is sound
if all promises are good, those of the stored table and those that the batch
which is going on has taken down. An event that advances a workspace breaks
none of them.
-/

namespace Parley.Batch

open FileTree Parley.Path StampTable

-- A path that is joined is known by its lemmas. Its text is not computed.
attribute [local irreducible] Path.join

/-! ## Events -/

/-- How far a batch has come. -/
inductive Phase where
  | idle
  | planned (plan : Plan)
  | executed (outcome : Outcome)

/-- A file tree on which scripts are edited and batches carried out. -/
structure Workspace where
  tree : FileTree
  phase : Phase := .idle
  /-- The seconds at which scripts were modified so far, by name. -/
  used : List (String × Int)

/-- What can happen to a workspace. -/
inductive Event where
  /-- A script is created or edited. -/
  | edit (name : String) (contents : Bytes) (modified : Instant)
  | delete (name : String)
  /-- Time passes. -/
  | wait (now : Instant)
  | plan
  | execute
  /-- The plan is executed by workers that move in the order of a schedule. -/
  | share (workers : Nat) (schedule : List Nat)
  | persist
  /-- The batch is over, be it that its stamps cannot be stored. -/
  | abandon

namespace Workspace

variable (config : Config)

/-- Where a script of the workspace is. -/
def scriptPlace (workspace : Workspace) (name : String) : Location :=
  name :: workspace.tree.destination config.inputDir

/-- Where an artifact of the workspace is. -/
def artifactPlace (workspace : Workspace) (name : String) : Location :=
  artifactName name :: workspace.tree.destination config.outputDir

/-- The stamp table that the workspace stores. -/
def table (workspace : Workspace) : StampTable :=
  storedTable workspace.tree (workspace.tree.destination config.tableDir)

/-- Whether a script can be written: its name can be told apart in the stamp
table, the input directory is there, and the name is free or that of a file. -/
def CanEdit (workspace : Workspace) (name : String) : Prop :=
  isScriptName name ∧ isStorable name ∧ IsName name ∧
    workspace.tree.lookup (workspace.tree.destination config.inputDir) = some .directory ∧
    obstacle (workspace.tree.lookup (workspace.scriptPlace config name)) = none

instance (workspace : Workspace) (name : String) : Decidable (workspace.CanEdit config name) :=
  inferInstanceAs (Decidable (_ ∧ _ ∧ _ ∧ _ ∧ _))

/-- The workspace after an event, if the event can happen. -/
def step? (workspace : Workspace) : Event → Option Workspace
  | .edit name contents modified =>
      if workspace.CanEdit config name ∧ (name, modified.seconds) ∉ workspace.used then
        some { workspace with
          tree := workspace.tree.set (workspace.scriptPlace config name) (.file contents modified)
          used := (name, modified.seconds) :: workspace.used }
      else none
  | .delete name =>
      match workspace.tree.lookup (workspace.scriptPlace config name) with
      | some (.file _ _) =>
          if isScriptName name then
            some { workspace with tree := workspace.tree.prune (workspace.scriptPlace config name) }
          else none
      | _ => none
  | .wait now => some { workspace with tree := { workspace.tree with clock := now } }
  | .plan =>
      let planned := plan config workspace.tree
      match planned.value with
      | .ok made => some { workspace with tree := planned.tree, phase := .planned made }
      | .error _ => some { workspace with tree := planned.tree, phase := .idle }
  | .execute =>
      match workspace.phase with
      | .planned made =>
          let executed := made.execute workspace.tree
          some { workspace with tree := executed.tree, phase := .executed executed.value }
      | _ => none
  | .share workers schedule =>
      match workspace.phase with
      | .planned made =>
          (made.share workers schedule workspace.tree).map fun (tree, outcome) =>
            { workspace with tree, phase := .executed outcome }
      | _ => none
  | .persist =>
      match workspace.phase with
      | .executed outcome => some { workspace with tree := (outcome.persist workspace.tree).tree }
      | _ => none
  | .abandon => some { workspace with phase := .idle }

/-- The workspace after a history, if the history can happen. -/
def run? : Workspace → List Event → Option Workspace
  | workspace, [] => some workspace
  | workspace, event :: events => (workspace.step? config event).bind (run? · events)

/-- Whether the names of all scripts are texts that can be told apart in the stamp
table and the seconds of their modification are known. -/
def Known (workspace : Workspace) : Prop :=
  ∀ name contents modified, isScriptName name →
    workspace.tree.lookup (name :: workspace.tree.destination config.inputDir) =
      some (.file contents modified) →
    ∃ text : String, name = text ∧ isStorable text ∧ (text, modified.seconds) ∈ workspace.used

/-- Where a history may begin: no batch is going on and no table is stored. -/
structure IsStart (workspace : Workspace) : Prop where
  wellFormed : workspace.tree.WellFormed
  idle : workspace.phase = .idle
  noTable : ∀ contents modified,
    workspace.tree.lookup (tableName :: workspace.tree.destination config.tableDir) ≠
      some (.file contents modified)
  known : workspace.Known config

/-! ## Promises -/

/-- Whether the artifact of a script is what its contents give. -/
structure UpToDate (workspace : Workspace) (name : String) : Prop where
  sited : Sited config workspace.tree (workspace.tree.destination config.inputDir)
    (workspace.tree.destination config.outputDir)
  isName : IsName name
  isScript : isScriptName name
  artifact : ∃ dialogue time,
    (workspace.tree.readDialogue (config.inputDir.join ⟨name⟩)).1 = .ok dialogue ∧
      usable config.outputDir (artifactName name) ∧
      workspace.tree.lookup (workspace.artifactPlace config name) =
        some (.file (Text.encode dialogue.artifact) time)

/-- What a stamp promises: whenever the script is there as it was modified at
that second, its artifact is up to date. -/
structure Backed (workspace : Workspace) (name : String) (second : Int) : Prop where
  isScript : isScriptName name
  used : (name, second) ∈ workspace.used
  upToDate : ∀ contents modified,
    workspace.tree.lookup (workspace.scriptPlace config name) = some (.file contents modified) →
      modified.seconds = second → workspace.UpToDate config name

/-- A stamp that a batch takes down, to be stored or not. -/
structure Noted (workspace : Workspace) (name : String) (seen : Instant) : Prop where
  isStorable : isStorable name
  wholeSecond : seen.nanos = 0
  used : (name, seen.seconds) ∈ workspace.used

/-- A plan whose tasks, if they go well, make good its promises. -/
structure PlanBacked (workspace : Workspace) (made : Plan) (names : List RawText) : Prop where
  sameConfig : made.config = config
  nodup : names.Nodup
  isScript : ∀ name ∈ names, IsName name ∧ isScriptName name
  tasks : made.tasks = names.map config.task
  noted : ∀ name seen, made.snapshot.get? name = some seen → workspace.Noted name seen
  backed : ∀ name seen, made.snapshot.get? name = some seen → (name : RawText) ∉ names →
    workspace.Backed config name seen.seconds

/-- An outcome whose promises are good. -/
structure OutcomeBacked (workspace : Workspace) (outcome : Outcome) : Prop where
  sameConfig : outcome.config = config
  noted : ∀ name seen, outcome.snapshot.get? name = some seen → workspace.Noted name seen
  backed : ∀ name seen, outcome.snapshot.get? name = some seen →
    workspace.Backed config name seen.seconds

/-- The directories of a batch that is going on. -/
structure Ready (workspace : Workspace) : Prop where
  sited : Sited config workspace.tree (workspace.tree.destination config.inputDir)
    (workspace.tree.destination config.outputDir)
  table : workspace.tree.leadsTo config.tableDir (workspace.tree.destination config.tableDir)

/-- Whether the batch that is going on makes promises that it can keep. -/
def PhaseBacked (workspace : Workspace) : Prop :=
  match workspace.phase with
  | .idle => True
  | .planned made => workspace.Ready config ∧ ∃ names, workspace.PlanBacked config made names
  | .executed outcome => workspace.Ready config ∧ workspace.OutcomeBacked config outcome

/-- All promises are good, those of the stored table and those of the batch. -/
structure Sound (workspace : Workspace) : Prop where
  wellFormed : workspace.tree.WellFormed
  known : workspace.Known config
  table : ∀ name seen, (workspace.table config).get? name = some seen →
    workspace.Backed config name seen.seconds
  phase : workspace.PhaseBacked config

/-! ## Advancing -/

/-- What every event does to a workspace. Directories stay, a script that is
found under a second it had before was not edited, and if its artifact was up
to date then it still is. -/
structure Advances (workspace next : Workspace) : Prop where
  wellFormed : next.tree.WellFormed
  home : next.tree.home = workspace.tree.home
  keeps : ∀ place, workspace.tree.lookup place = some .directory →
    next.tree.lookup place = some .directory
  used : ∀ pair ∈ workspace.used, pair ∈ next.used
  known : next.Known config
  script : ∀ (name : String) contents modified, isScriptName name →
    (name, modified.seconds) ∈ workspace.used →
    next.tree.lookup (workspace.scriptPlace config name) = some (.file contents modified) →
      workspace.tree.lookup (workspace.scriptPlace config name) = some (.file contents modified)
  upToDate : ∀ name contents modified, (name, modified.seconds) ∈ workspace.used →
    next.tree.lookup (workspace.scriptPlace config name) = some (.file contents modified) →
      workspace.UpToDate config name → next.UpToDate config name

variable {config} {workspace next : Workspace} {name : String}

theorem UpToDate.of_same (h : workspace.UpToDate config name) (hwf : next.tree.WellFormed)
    (hhome : next.tree.home = workspace.tree.home)
    (hkeeps : ∀ place, workspace.tree.lookup place = some .directory →
      next.tree.lookup place = some .directory)
    (hscript : next.tree.lookup (workspace.scriptPlace config name) =
      workspace.tree.lookup (workspace.scriptPlace config name))
    (hartifact : next.tree.lookup (workspace.artifactPlace config name) =
      workspace.tree.lookup (workspace.artifactPlace config name)) :
    next.UpToDate config name := by
  have hsited := h.sited.of_keeps hwf hhome hkeeps
  obtain ⟨dialogue, time, hread, husable, hfile⟩ := h.artifact
  refine ⟨?_, h.isName, h.isScript, dialogue, time, ?_, husable, ?_⟩
  · rwa [destination_congr hhome, destination_congr hhome]
  · rwa [readDialogue_congr (find_join_congr h.sited.input hsited.input h.isName hscript)]
  · rw [artifactPlace, destination_congr hhome]
    exact hartifact.trans hfile

namespace Advances

/-- An event advances a workspace if it writes over no artifact. -/
theorem of_artifacts_kept (hwf : next.tree.WellFormed)
    (hhome : next.tree.home = workspace.tree.home)
    (hkeeps : ∀ place, workspace.tree.lookup place = some .directory →
      next.tree.lookup place = some .directory)
    (hused : ∀ pair ∈ workspace.used, pair ∈ next.used) (hknown : next.Known config)
    (hscript : ∀ (name : String) contents modified, isScriptName name →
      (name, modified.seconds) ∈ workspace.used →
      next.tree.lookup (workspace.scriptPlace config name) = some (.file contents modified) →
        workspace.tree.lookup (workspace.scriptPlace config name) = some (.file contents modified))
    (hartifact : ∀ (name : String) contents modified,
      workspace.tree.lookup (workspace.artifactPlace config name) =
        some (.file contents modified) →
      next.tree.lookup (workspace.artifactPlace config name) = some (.file contents modified)) :
    workspace.Advances config next where
  wellFormed := hwf
  home := hhome
  keeps := hkeeps
  used := hused
  known := hknown
  script := hscript
  upToDate := by
    intro name contents modified hpair hfile h
    have hsame := hscript name contents modified h.isScript hpair hfile
    obtain ⟨dialogue, time, -, -, hold⟩ := h.artifact
    refine h.of_same hwf hhome hkeeps (hfile.trans hsame.symm) ?_
    rw [hartifact name _ _ hold, hold]

theorem backed (h : workspace.Advances config next) {second : Int}
    (hbacked : workspace.Backed config name second) : next.Backed config name second where
  isScript := hbacked.isScript
  used := h.used _ hbacked.used
  upToDate := by
    rintro contents modified hfile rfl
    rw [scriptPlace, destination_congr h.home] at hfile
    have hsame := h.script name contents modified hbacked.isScript hbacked.used hfile
    exact h.upToDate name contents modified hbacked.used hfile
      (hbacked.upToDate contents modified hsame rfl)

theorem noted (h : workspace.Advances config next) {seen : Instant}
    (hnoted : workspace.Noted name seen) : next.Noted name seen :=
  ⟨hnoted.isStorable, hnoted.wholeSecond, h.used _ hnoted.used⟩

theorem ready (h : workspace.Advances config next) (hready : workspace.Ready config) :
    next.Ready config := by
  constructor
  · rw [destination_congr h.home, destination_congr h.home]
    exact hready.sited.of_keeps h.wellFormed h.home h.keeps
  · rw [destination_congr h.home]
    exact hready.table.of_keeps h.home h.keeps

theorem planBacked (h : workspace.Advances config next) {made : Plan} {names : List RawText}
    (hplan : workspace.PlanBacked config made names) : next.PlanBacked config made names :=
  { hplan with
    noted := fun name seen hseen => h.noted (hplan.noted name seen hseen)
    backed := fun name seen hseen hname => h.backed (hplan.backed name seen hseen hname) }

theorem outcomeBacked (h : workspace.Advances config next) {outcome : Outcome}
    (houtcome : workspace.OutcomeBacked config outcome) : next.OutcomeBacked config outcome :=
  { houtcome with
    noted := fun name seen hseen => h.noted (houtcome.noted name seen hseen)
    backed := fun name seen hseen => h.backed (houtcome.backed name seen hseen) }

theorem phaseBacked (h : workspace.Advances config next) (hsame : next.phase = workspace.phase)
    (hphase : workspace.PhaseBacked config) : next.PhaseBacked config := by
  unfold PhaseBacked at hphase ⊢
  rw [hsame]
  cases hcase : workspace.phase with
  | idle => trivial
  | planned made =>
      rw [hcase] at hphase
      obtain ⟨hready, names, hplan⟩ := hphase
      exact ⟨h.ready hready, names, h.planBacked hplan⟩
  | executed outcome =>
      rw [hcase] at hphase
      exact ⟨h.ready hphase.1, h.outcomeBacked hphase.2⟩

theorem table_backed (h : workspace.Advances config next) (hsound : workspace.Sound config)
    (htable : storedTable next.tree (workspace.tree.destination config.tableDir) =
      workspace.table config) (name : String) (seen : Instant)
    (hseen : (next.table config).get? name = some seen) : next.Backed config name seen.seconds := by
  rw [table, destination_congr h.home, htable] at hseen
  exact h.backed (hsound.table name seen hseen)

/-- An event between two steps of a batch keeps all promises good. -/
theorem sound (h : workspace.Advances config next) (hsound : workspace.Sound config)
    (htable : next.tree.lookup (tableName :: workspace.tree.destination config.tableDir) =
      workspace.tree.lookup (tableName :: workspace.tree.destination config.tableDir))
    (hphase : next.phase = workspace.phase) : next.Sound config :=
  ⟨h.wellFormed, h.known, h.table_backed hsound (storedTable_congr htable),
    h.phaseBacked hphase hsound.phase⟩

end Advances

end Workspace

end Parley.Batch
