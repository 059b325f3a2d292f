import Parley.Proofs.CanonicalScripts
import Parley.Proofs.Compilations

/-!
# Compiling one file

A script file is compiled as its text is. The path of the file is only spoken
of in errors, and its stem is used only where no line names the dialogue. There
are four ways for a compilation to end: the script cannot be read as text, it
has an error, the output cannot be written, or the artifact is at the one
location that the output path leads to. In the first three nothing has changed.
-/

namespace Parley

namespace Script

/-- A dialogue that was read from a source, under a name that the caller gives
if the source gives none. -/
def named (src fallback : String) (dialogue : Dialogue) : Dialogue :=
  if isNamed src then dialogue else dialogue.rename fallback

/-- What is read with a name to fall back on is what is read without one, up to
that name. -/
theorem result_read (file fallback src : String) :
    (read file fallback src).result = (parse file src).map (named src fallback) := by
  cases hparse : parse file src with
  | error error =>
      -- An error ends the reading before any name is fallen back on.
      rw [parse, read] at hparse
      rw [read]
      cases hrun : Assembly.run file {} (readLines src.toList) with
      | mk assembly fault =>
          rw [hrun] at hparse
          cases fault with
          | none => simp at hparse
          | some fault => exact hparse
  | ok dialogue =>
      obtain ⟨directives, hlines, hplaced, hname, hnodes⟩ := read_eq_ok_iff.mp hparse
      have hnamed := isNamed_iff hlines
      refine read_eq_ok_iff.mpr ⟨directives, hlines, hplaced, ?_, ?_⟩
      · unfold named
        cases hlast : lastName? directives with
        | none =>
            have hunnamed : isNamed src ≠ true := by simpa [hlast] using hnamed
            rw [if_neg hunnamed]
            rfl
        | some name =>
            have hnamed : isNamed src = true := by simpa [hlast] using hnamed
            rw [if_pos hnamed, hname, hlast]
            rfl
      · rw [← hnodes, named]
        split <;> rfl

/-- A source that names its dialogue gives the same artifact in every file. -/
theorem compile_of_isNamed {file src : String} {dialogue : Dialogue} (hnamed : isNamed src = true)
    (h : parse file src = .ok dialogue) (other : String) :
    compile other src = .ok dialogue.artifact := by
  have hread : (read file other src).result = .ok dialogue := by
    rw [result_read, h, Except.map, named, if_pos hnamed]
  rw [compile, parse, read_eq_ok_congr hread, Except.map]

end Script

namespace FileTree

/-! ## Where contents go -/

/-- Where contents are put that are written to a path. -/
def place (tree : FileTree) (path : Path) : Except FileFault Location :=
  match tree.target path with
  | .error fault => .error fault
  | .ok (.directory _) => .error .isDirectory
  | .ok (.name directory name) =>
      if path.endsInSlash then .error .isDirectory
      else if nameLimit < name.bytes.length then .error .nameTooLong
      else match obstacle (tree.lookup (name :: directory)) with
        | some fault => .error fault
        | none => .ok (name :: directory)

theorem write_eq_map_place {contents : Bytes} (hcontents : contents ≠ []) (tree : FileTree)
    (path : Path) :
    tree.write path contents =
      (tree.place path).map fun location => tree.set location (.file contents tree.clock) := by
  unfold write place
  cases tree.target path with
  | error fault => rfl
  | ok target =>
      cases target with
      | directory location => rfl
      | name directory name =>
          dsimp only
          by_cases hslash : path.endsInSlash = true
          · rw [if_pos hslash, if_pos hslash]
            rfl
          · rw [if_neg hslash, if_neg hslash, child]
            by_cases hlimit : nameLimit < name.bytes.length
            · simp only [if_pos hlimit, Except.map]
            · rw [if_neg hlimit, if_neg hlimit]
              cases tree.lookup (name :: directory) with
              | none => rfl
              | some entry => cases entry <;> simp [obstacle, hcontents, Except.map]

theorem place_eq_ok_iff {tree : FileTree} {path : Path} {location : Location} :
    tree.place path = .ok location ↔
      ∃ directory name, location = name :: directory ∧
        tree.target path = .ok (.name directory name) ∧ path.endsInSlash = false ∧
        name.bytes.length ≤ nameLimit ∧
        obstacle (tree.lookup (name :: directory)) = none := by
  unfold place
  cases tree.target path with
  | error fault => simp
  | ok target =>
      cases target with
      | directory above => simp
      | name directory name =>
          dsimp only
          cases path.endsInSlash with
          | true => simp
          | false =>
              by_cases hlimit : nameLimit < name.bytes.length
              · simp [hlimit, Nat.not_le.mpr hlimit]
              · cases hfree : obstacle (tree.lookup (name :: directory)) <;>
                  simp [hlimit, Nat.not_lt.mp hlimit, hfree, eq_comm]

/-- A path ends where it ended as long as all directories are still there. -/
theorem target_of_keeps {tree later : FileTree} {path : Path} {target : Target}
    (hhome : later.home = tree.home)
    (hkeeps : ∀ place, tree.lookup place = some .directory → later.lookup place = some .directory)
    (h : tree.target path = .ok target) : later.target path = .ok target := by
  unfold FileTree.target at h ⊢
  cases hfault : path.fault? with
  | some fault => simp [hfault] at h
  | none =>
      rw [hfault] at h
      dsimp only at h ⊢
      cases hsteps : path.steps with
      | nil => simpa [hsteps, aim] using h
      | cons last above =>
          rw [hsteps, aim] at h
          rw [aim, hhome]
          cases hfollow : tree.follow (if path.isAbsolute then [] else tree.home) above with
          | error fault => simp [hfollow] at h
          | ok directory =>
              rw [follow_of_keeps hkeeps hfollow]
              rwa [hfollow] at h

/-- What was put where a path leads is found there. -/
theorem find_set_place {tree : FileTree} {path : Path} {location : Location}
    (h : tree.place path = .ok location) (contents : Bytes) (modified : Instant) :
    (tree.set location (.file contents modified)).find path =
      .ok (location, .file contents modified) := by
  obtain ⟨directory, name, rfl, htarget, hslash, hlimit, hfree⟩ := place_eq_ok_iff.mp h
  -- No directory makes way for the file, so every way there stays open.
  have hkeeps : ∀ place, tree.lookup place = some .directory →
      (tree.set (name :: directory) (.file contents modified)).lookup place = some .directory := by
    intro place hplace
    refine lookup_set_directory ?_ hplace
    intro hdirectory
    rw [hdirectory] at hfree
    contradiction
  have hlater : (tree.set (name :: directory) (.file contents modified)).target path =
      .ok (.name directory name) := by
    refine target_of_keeps ?_ hkeeps htarget
    rfl
  rw [find, hlater]
  simp only [child, if_neg (Nat.not_lt.mpr hlimit), lookup_set_self, hslash]
  rfl

theorem lookup_set_place {tree : FileTree} {path : Path} {location other : Location}
    (h : tree.place path = .ok location) (entry : Entry) (hother : other ≠ location) :
    (tree.set location entry).lookup other = tree.lookup other := by
  obtain ⟨directory, name, rfl, -⟩ := place_eq_ok_iff.mp h
  exact lookup_set_of_ne tree entry hother.symm

/-! ## How a compilation ends -/

theorem readText_eq_ok_iff {tree : FileTree} {path : Path} {src : String} :
    tree.readText path = .ok src ↔ tree.read path = .ok (Text.encode src) := by
  unfold readText
  cases tree.read path with
  | error fault => simp
  | ok contents =>
      simp only [Except.ok.injEq, ← Text.decode?_eq_some_iff]
      cases Text.decode? contents <;> simp

/-- How compiling a script file ends: the tree that it leaves, and the fault. -/
inductive Outcome (tree : FileTree) (input output : Path) :
    FileTree → Option CompileFault → Prop
  | unread {fault : FileFault} (hread : tree.readText input = .error fault) :
      Outcome tree input output tree (some (.file input fault))
  | rejected {src : String} {error : Script.Error} (hread : tree.readText input = .ok src)
      (hparse : Script.parse input.shown src = .error error) :
      Outcome tree input output tree (some (.script error))
  | blocked {src : String} {dialogue : Dialogue} {fault : FileFault}
      (hread : tree.readText input = .ok src)
      (hparse : Script.parse input.shown src = .ok dialogue)
      (hplace : tree.place output = .error fault) :
      Outcome tree input output tree (some (.file output fault))
  | written {src : String} {dialogue : Dialogue} {location : Location}
      (hread : tree.readText input = .ok src)
      (hparse : Script.parse input.shown src = .ok dialogue)
      (hplace : tree.place output = .ok location) :
      Outcome tree input output
        (tree.set location (.file (Text.encode
          (Script.named src (input.stem?.getD "").shown dialogue).artifact) tree.clock))
        none

theorem outcome_compileFile (tree : FileTree) (input output : Path) :
    Outcome tree input output (tree.compileFile input output).tree
      (tree.compileFile input output).value := by
  unfold compileFile readDialogue
  cases hread : tree.readText input with
  | error fault => exact .unread hread
  | ok src =>
      dsimp only
      rw [Script.result_read]
      cases hparse : Script.parse input.shown src with
      | error error => exact .rejected hread hparse
      | ok dialogue =>
          dsimp only [Except.map, Except.mapError]
          rw [write_eq_map_place (Dialogue.encode_artifact_ne_nil _)]
          cases hplace : tree.place output with
          | error fault => exact .blocked hread hparse hplace
          | ok location => exact .written hread hparse hplace

/-- Compiling a script file agrees with compiling its text. The fault is an
error of the script if and only if the file is text and that text cannot be
compiled, with the same error. If there is no fault, the output file holds the
artifact of what was read, and every other location what it held before; a
script that names its dialogue has this artifact in whatever file it is. With a
fault nothing has changed. The two paths may lead to the same file. -/
theorem compileFile_agrees (tree : FileTree) (input output : Path) :
    (∀ error, (tree.compileFile input output).value = some (.script error) ↔
        ∃ src, tree.read input = .ok (Text.encode src) ∧
          Script.compile input.shown src = .error error) ∧
      ((tree.compileFile input output).value = none ↔
        ∃ src text location, tree.read input = .ok (Text.encode src) ∧
          Script.compile input.shown src = .ok text ∧ tree.place output = .ok location) ∧
      ((tree.compileFile input output).value = none →
        ∃ src dialogue text location, tree.read input = .ok (Text.encode src) ∧
          Script.parse input.shown src = .ok dialogue ∧
          text = (Script.named src (input.stem?.getD "").shown dialogue).artifact ∧
          (Script.isNamed src = true → ∀ file, Script.compile file src = .ok text) ∧
          (tree.compileFile input output).tree.find output =
            .ok (location, .file (Text.encode text) tree.clock) ∧
          ∀ other, other ≠ location →
            (tree.compileFile input output).tree.lookup other = tree.lookup other) ∧
      ((tree.compileFile input output).value ≠ none →
        (tree.compileFile input output).tree = tree) := by
  have houtcome := outcome_compileFile tree input output
  generalize (tree.compileFile input output).tree = later at houtcome ⊢
  generalize (tree.compileFile input output).value = value at houtcome ⊢
  simp only [← readText_eq_ok_iff]
  cases houtcome with
  | unread hread => simp [hread]
  | rejected hread hparse => simp [hread, hparse, Script.compile, Except.map]
  | blocked hread hparse hplace => simp [hread, hparse, hplace, Script.compile, Except.map]
  | @written src dialogue location hread hparse hplace =>
      refine ⟨?_, ?_, fun _ => ⟨src, dialogue, _, location, hread, hparse, rfl, ?_, ?_, ?_⟩, ?_⟩
      · simp [hread, hparse, Script.compile, Except.map]
      · simp [hread, hparse, hplace, Script.compile, Except.map]
      · intro hnamed file
        rw [Script.named, if_pos hnamed]
        exact Script.compile_of_isNamed hnamed hparse file
      · exact find_set_place hplace _ _
      · intro other hother
        exact lookup_set_place hplace _ hother
      · intro hfault
        exact absurd rfl hfault

/-- A file that is compiled onto itself, by two spellings of its path. -/
example :
    let tree := (empty ⟨7, 0⟩).set ["gate.scl"]
      (.file (Text.encode "(node s start)\n(text \"Halt.\" quit)\n") ⟨3, 0⟩)
    let compiled := tree.compileFile ⟨"gate.scl"⟩ ⟨"./gate.scl"⟩
    compiled.value = none ∧
      compiled.tree.readText ⟨"gate.scl"⟩ =
        .ok "T_INIT(gate, 1);\nT_STATEMENT(gate, START, \"Halt.\", QUIT);\n" := by
  decide +kernel

end FileTree

end Parley
