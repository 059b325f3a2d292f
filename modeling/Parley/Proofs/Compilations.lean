import Parley.Batch.Compilation
import Parley.Batch.Config
import Parley.Proofs.Encoding
import Parley.Proofs.Writes

/-!
# Compiling the scripts of a directory

Compiling a script reads one location of the input directory and writes at
most one location of the output directory. No artifact is a script, and no two
scripts have one artifact, so scripts that are compiled one after the other do
not notice each other: each ends as it would have ended alone, and in the end
the tree has changed by their artifacts and nothing else.
-/

namespace Parley

theorem Dialogue.artifact_ne_empty (dialogue : Dialogue) : dialogue.artifact ≠ "" := by
  intro hempty
  have hnil := congrArg String.toList hempty
  simp [artifact, Artifact.lines, Artifact.header, Artifact.call] at hnil

theorem Dialogue.encode_artifact_ne_nil (dialogue : Dialogue) :
    Text.encode dialogue.artifact ≠ [] := by
  intro hnil
  exact dialogue.artifact_ne_empty (Text.encode_injective (hnil.trans Text.encode_empty.symm))

/-- What a script describes depends on what is found at its path. -/
theorem FileTree.readDialogue_congr {tree later : FileTree} {path : Path}
    (h : later.find path = tree.find path) : later.readDialogue path = tree.readDialogue path := by
  unfold readDialogue readText
  rw [read_congr h]

namespace Batch

open FileTree Parley.Path

-- A path that is joined is known by its lemmas. Its text is not computed.
attribute [local irreducible] Path.join

/-- The task of a script of the input directory. -/
def Config.task (config : Config) (name : RawText) : Task :=
  ⟨config.inputDir.join ⟨name⟩, config.outputDir.join ⟨artifactName name⟩⟩

/-- Whether the directories of a batch are where the two locations say. -/
structure Sited (config : Config) (tree : FileTree) (input output : Location) : Prop where
  wellFormed : tree.WellFormed
  input : tree.leadsTo config.inputDir input
  output : tree.leadsTo config.outputDir output

theorem Sited.of_keeps {config : Config} {tree later : FileTree} {input output : Location}
    (h : Sited config tree input output) (hwf : later.WellFormed) (hhome : later.home = tree.home)
    (hkeeps : ∀ place, tree.lookup place = some .directory →
      later.lookup place = some .directory) : Sited config later input output where
  wellFormed := hwf
  input := h.input.of_keeps hhome hkeeps
  output := h.output.of_keeps hhome hkeeps

/-- Whether a script can be compiled, or else why not. -/
def verdict (config : Config) (tree : FileTree) (output : Location) (name : RawText) :
    Option CompileFault :=
  match (tree.readDialogue (config.inputDir.join ⟨name⟩)).1 with
  | .error fault => some fault
  | .ok _ =>
      (tree.blockage config.outputDir output (artifactName name)).map
        (.file (config.outputDir.join ⟨artifactName name⟩))

/-- What is at the place of an artifact once its script was compiled. -/
def artifactEntry (config : Config) (tree : FileTree) (output : Location) (name : RawText) :
    Option Entry :=
  match (tree.readDialogue (config.inputDir.join ⟨name⟩)).1,
    tree.blockage config.outputDir output (artifactName name) with
  | .ok dialogue, none => some (.file (Text.encode dialogue.artifact) tree.clock)
  | _, _ => tree.lookup (artifactName name :: output)

section

variable {config : Config} {tree later : FileTree} {input output : Location} {name : RawText}

/-- The result of a script depends on the script, on what is at the place of its
artifact, and on nothing else. -/
theorem verdict_congr (h : Sited config tree input output)
    (hlater : Sited config later input output)
    (hname : IsName name) (hscript : later.lookup (name :: input) = tree.lookup (name :: input))
    (hartifact : later.lookup (artifactName name :: output) =
      tree.lookup (artifactName name :: output)) :
    verdict config later output name = verdict config tree output name := by
  have hfind := find_join_congr h.input hlater.input hname hscript
  unfold verdict
  rw [readDialogue_congr hfind, blockage_congr hartifact]

theorem artifactEntry_congr (h : Sited config tree input output)
    (hlater : Sited config later input output) (hname : IsName name)
    (hclock : later.clock = tree.clock)
    (hscript : later.lookup (name :: input) = tree.lookup (name :: input))
    (hartifact : later.lookup (artifactName name :: output) =
      tree.lookup (artifactName name :: output)) :
    artifactEntry config later output name = artifactEntry config tree output name := by
  have hfind := find_join_congr h.input hlater.input hname hscript
  unfold artifactEntry
  rw [readDialogue_congr hfind, blockage_congr hartifact, hartifact, hclock]

theorem artifactEntry_of_verdict_eq_some {fault : CompileFault}
    (h : verdict config tree output name = some fault) :
    artifactEntry config tree output name = tree.lookup (artifactName name :: output) := by
  unfold verdict at h
  unfold artifactEntry
  split at h
  next hread => rw [hread]
  next hread =>
    obtain ⟨blocked, hblocked, -⟩ := Option.map_eq_some_iff.mp h
    rw [hread, hblocked]

theorem artifactEntry_of_verdict_eq_none (h : verdict config tree output name = none) :
    ∃ dialogue, (tree.readDialogue (config.inputDir.join ⟨name⟩)).1 = .ok dialogue ∧
      usable config.outputDir (artifactName name) ∧
      artifactEntry config tree output name =
        some (.file (Text.encode dialogue.artifact) tree.clock) := by
  unfold verdict at h
  unfold artifactEntry
  split at h
  next => simp at h
  next dialogue hread =>
    have hfree := Option.map_eq_none_iff.mp h
    refine ⟨dialogue, hread, ?_, by rw [hread, hfree]⟩
    unfold blockage at hfree
    split at hfree
    next husable => exact husable
    next => simp at hfree

theorem artifactEntry_directory
    (h : tree.lookup (artifactName name :: output) = some .directory) :
    artifactEntry config tree output name = some .directory := by
  have hblocked : tree.blockage config.outputDir output (artifactName name) ≠ none := by
    unfold blockage
    split
    · simp [h, obstacle]
    · simp
  unfold artifactEntry
  split
  next hfree => exact absurd hfree hblocked
  next => exact h

/-! ## One script -/

/-- A tree after scripts were compiled: their artifacts are in place, and
nothing else has changed. -/
structure Compiled (config : Config) (output : Location) (tree : FileTree) (names : List RawText)
    (later : FileTree) : Prop where
  wellFormed : later.WellFormed
  home : later.home = tree.home
  clock : later.clock = tree.clock
  artifact : ∀ name ∈ names,
    later.lookup (artifactName name :: output) = artifactEntry config tree output name
  others : ∀ location, (∀ name ∈ names, location ≠ artifactName name :: output) →
    later.lookup location = tree.lookup location

namespace Compiled

variable {names : List RawText}

theorem directory (h : Compiled config output tree names later) {place : Location}
    (hplace : tree.lookup place = some .directory) : later.lookup place = some .directory := by
  by_cases hartifact : ∃ name ∈ names, place = artifactName name :: output
  · obtain ⟨name, hname, rfl⟩ := hartifact
    rw [h.artifact name hname, artifactEntry_directory hplace]
  · rw [h.others place fun name hname heq => hartifact ⟨name, hname, heq⟩, hplace]

theorem sited (h : Compiled config output tree names later)
    (hsited : Sited config tree input output) : Sited config later input output :=
  hsited.of_keeps h.wellFormed h.home fun _ => h.directory

theorem script (h : Compiled config output tree names later) (hscript : isScriptName name)
    (directory : Location) :
    later.lookup (name :: directory) = tree.lookup (name :: directory) := by
  apply h.others
  intro other _ heq
  exact artifactName_ne_of_isScriptName hscript other (List.cons.inj heq).1.symm

/-- The artifact of a script that was not compiled is left alone. -/
theorem artifact_of_not_mem (h : Compiled config output tree names later)
    (hscripts : ∀ name ∈ names, isScriptName name) (hscript : isScriptName name)
    (hname : name ∉ names) :
    later.lookup (artifactName name :: output) = tree.lookup (artifactName name :: output) := by
  apply h.others
  intro other hother heq
  have heq' := artifactName_injective hscript (hscripts other hother) (List.cons.inj heq).1
  exact hname (heq' ▸ hother)

end Compiled

/-- Where compiling a script writes nothing, it changes nothing. -/
theorem compiled_self (h : Sited config tree input output) {fault : CompileFault}
    (hverdict : verdict config tree output name = some fault) :
    Compiled config output tree [name] tree where
  wellFormed := h.wellFormed
  home := rfl
  clock := rfl
  artifact := by
    intro other hother
    rw [List.mem_singleton.mp hother, artifactEntry_of_verdict_eq_some hverdict]
  others _ _ := rfl

theorem compiled_set (h : Sited config tree input output) (hname : IsName name)
    (hscript : isScriptName name) {entry : Entry}
    (hentry : artifactEntry config tree output name = some entry) :
    Compiled config output tree [name] (tree.set (artifactName name :: output) entry) where
  wellFormed := by
    refine h.wellFormed.set (isName_artifactName hname hscript)
      (h.wellFormed.lookup_of_leadsTo h.output) ?_
    intro hdirectory
    exact Option.some.inj (hentry.symm.trans (artifactEntry_directory hdirectory))
  home := rfl
  clock := rfl
  artifact := by
    intro other hother
    rw [List.mem_singleton.mp hother, hentry, lookup_set_self]
  others := by
    intro location hlocation
    exact lookup_set_of_ne tree entry (hlocation name (List.mem_singleton_self name)).symm

/-- A script ends with its verdict, and only its artifact is written. -/
theorem compileFile_join (h : Sited config tree input output) (hname : IsName name)
    (hscript : isScriptName name) :
    (tree.compileFile (config.inputDir.join ⟨name⟩)
        (config.outputDir.join ⟨artifactName name⟩)).value = verdict config tree output name ∧
      Compiled config output tree [name] (tree.compileFile (config.inputDir.join ⟨name⟩)
        (config.outputDir.join ⟨artifactName name⟩)).tree := by
  unfold compileFile
  cases hread : tree.readDialogue (config.inputDir.join ⟨name⟩) with
  | mk result log =>
      cases result with
      | error fault =>
          have hverdict : verdict config tree output name = some fault := by
            unfold verdict
            rw [hread]
          exact ⟨hverdict.symm, compiled_self h hverdict⟩
      | ok dialogue =>
          dsimp only
          rw [write_join h.output (isName_artifactName hname hscript)
            dialogue.encode_artifact_ne_nil]
          cases hblockage : tree.blockage config.outputDir output (artifactName name) with
          | some fault =>
              have hverdict : verdict config tree output name =
                  some (.file (config.outputDir.join ⟨artifactName name⟩) fault) := by
                unfold verdict
                rw [hread, hblockage, Option.map_some]
              exact ⟨hverdict.symm, compiled_self h hverdict⟩
          | none =>
              have hverdict : verdict config tree output name = none := by
                unfold verdict
                rw [hread, hblockage, Option.map_none]
              have hentry : artifactEntry config tree output name =
                  some (.file (Text.encode dialogue.artifact) tree.clock) := by
                unfold artifactEntry
                rw [hread, hblockage]
              exact ⟨hverdict.symm, compiled_set h hname hscript hentry⟩

theorem run_task (h : Sited config tree input output) (hname : IsName name)
    (hscript : isScriptName name) (worker : Nat) :
    ((config.task name).run tree worker).value =
        ⟨config.task name, verdict config tree output name⟩ ∧
      Compiled config output tree [name] ((config.task name).run tree worker).tree := by
  obtain ⟨hvalue, hcompiled⟩ := compileFile_join h hname hscript
  exact ⟨congrArg (TaskResult.mk (config.task name)) hvalue, hcompiled⟩

/-! ## One script after the other -/

/-- A script that was not compiled is judged as before. -/
theorem Compiled.verdict_of_not_mem {names : List RawText}
    (h : Compiled config output tree names later) (hsited : Sited config tree input output)
    (hnames : ∀ name ∈ names, isScriptName name) (hname : IsName name)
    (hscript : isScriptName name) (hfresh : name ∉ names) :
    verdict config later output name = verdict config tree output name :=
  verdict_congr hsited (h.sited hsited) hname (h.script hscript input)
    (h.artifact_of_not_mem hnames hscript hfresh)

/-- Compiling scripts and then others that are not among them compiles them all. -/
theorem Compiled.append {names others : List RawText} {last : FileTree}
    (h : Sited config tree input output) (hfirst : Compiled config output tree names later)
    (hrest : Compiled config output later others last) (hfresh : ∀ other ∈ others, other ∉ names)
    (hnames : ∀ name ∈ names, isScriptName name)
    (hothers : ∀ other ∈ others, IsName other ∧ isScriptName other) :
    Compiled config output tree (names ++ others) last where
  wellFormed := hrest.wellFormed
  home := hrest.home.trans hfirst.home
  clock := hrest.clock.trans hfirst.clock
  artifact := by
    intro name hname
    rcases List.mem_append.mp hname with hname | hother
    · rw [hrest.artifact_of_not_mem (fun other hmem => (hothers other hmem).2) (hnames name hname)
        fun hmem => hfresh name hmem hname]
      exact hfirst.artifact name hname
    · obtain ⟨hisName, hscript⟩ := hothers name hother
      rw [hrest.artifact name hother]
      refine artifactEntry_congr h (hfirst.sited h) hisName hfirst.clock
        (hfirst.script hscript input) ?_
      exact hfirst.artifact_of_not_mem hnames hscript (hfresh name hother)
  others := by
    intro location hlocation
    rw [hrest.others location fun other hmem => hlocation other (List.mem_append_right names hmem)]
    exact hfirst.others location fun name hmem => hlocation name (List.mem_append_left others hmem)

/-- Scripts that are compiled one after the other end as if each were alone. -/
theorem runTasks_tasks {names : List RawText} (h : Sited config tree input output)
    (hnodup : names.Nodup) (hnames : ∀ name ∈ names, IsName name ∧ isScriptName name) :
    (runTasks tree (names.map config.task)).value =
        names.map (fun name => ⟨config.task name, verdict config tree output name⟩) ∧
      Compiled config output tree names (runTasks tree (names.map config.task)).tree := by
  induction names generalizing tree with
  | nil => exact ⟨rfl, h.wellFormed, rfl, rfl, by simp, fun _ _ => rfl⟩
  | cons name names ih =>
      obtain ⟨hfresh, hnodup⟩ := List.nodup_cons.mp hnodup
      obtain ⟨⟨hname, hscript⟩, hnames⟩ := List.forall_mem_cons.mp hnames
      obtain ⟨hvalue, hfirst⟩ := run_task h hname hscript 0
      obtain ⟨hvalues, hrest⟩ := ih (hfirst.sited h) hnodup hnames
      have hfirst' : ∀ first ∈ [name], isScriptName first := by simpa using hscript
      have hne : ∀ other ∈ names, other ∉ [name] := by
        intro other hother hmem
        exact hfresh (List.mem_singleton.mp hmem ▸ hother)
      refine ⟨?_, hfirst.append h hrest hne hfirst' hnames⟩
      rw [List.map_cons, runTasks, List.map_cons, hvalue, hvalues]
      -- The first task wrote to its own artifact only, so the others end as if it were not there.
      refine congrArg _ (List.map_congr_left ?_)
      intro other hother
      obtain ⟨hisName, hother'⟩ := hnames other hother
      rw [hfirst.verdict_of_not_mem h hfirst' hisName hother' (hne other hother)]

end

end Batch

end Parley
