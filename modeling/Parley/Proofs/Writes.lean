import Parley.Proofs.Walks

/-!
# What changes a file tree

A file tree changes in three ways: directories are made where there was
nothing, a file is written under a name of a directory, and a file is removed.
None of them takes a directory away, and each leaves every other location as
it was.
-/

namespace Parley.FileTree

open Parley.Path

/-! ## One entry -/

theorem lookup_set_self (tree : FileTree) (name : RawText) (directory : Location) (entry : Entry) :
    (tree.set (name :: directory) entry).lookup (name :: directory) = some entry := by
  rw [lookup_set tree (List.cons_ne_nil _ _), if_pos rfl]

theorem lookup_set_of_ne (tree : FileTree) {name : RawText} {directory other : Location}
    (entry : Entry) (h : name :: directory ≠ other) :
    (tree.set (name :: directory) entry).lookup other = tree.lookup other := by
  rw [lookup_set tree (List.cons_ne_nil _ _), if_neg h]

/-- Directories stay where a file is put over no directory. -/
theorem lookup_set_directory {tree : FileTree} {name : RawText} {directory : Location}
    {entry : Entry}
    (hold : tree.lookup (name :: directory) = some .directory → entry = .directory)
    {place : Location} (h : tree.lookup place = some .directory) :
    (tree.set (name :: directory) entry).lookup place = some .directory := by
  by_cases hplace : name :: directory = place
  · subst hplace
    rw [lookup_set_self, hold h]
  · rw [lookup_set_of_ne tree entry hplace, h]

/-- A proper name in a directory can be given to any entry, as long as no
directory makes way for something else. -/
theorem WellFormed.set {tree : FileTree} (hwf : tree.WellFormed) {name : RawText}
    {directory : Location} {entry : Entry} (hname : IsName name)
    (hdirectory : tree.lookup directory = some .directory)
    (hold : tree.lookup (name :: directory) = some .directory → entry = .directory) :
    (tree.set (name :: directory) entry).WellFormed where
  isName := by
    intro other above hother
    by_cases heq : name :: directory = other :: above
    · exact (List.cons.inj heq).1 ▸ hname
    · rw [lookup_set_of_ne tree entry heq] at hother
      exact hwf.isName hother
  parent := by
    intro other above hother
    apply lookup_set_directory hold
    by_cases heq : name :: directory = other :: above
    · exact (List.cons.inj heq).2 ▸ hdirectory
    · rw [lookup_set_of_ne tree entry heq] at hother
      exact hwf.parent hother
  home := lookup_set_directory hold hwf.home

/-- Below an entry that is no directory there is nothing. -/
theorem WellFormed.lookup_below {tree : FileTree} (hwf : tree.WellFormed) {location : Location}
    (h : tree.lookup location ≠ some .directory) {name : RawText} (names : List RawText) :
    tree.lookup (name :: names ++ location) = none := by
  induction names generalizing name with
  | nil =>
      apply Classical.byContradiction
      intro hsome
      exact h (hwf.parent hsome)
  | cons next names ih =>
      apply Classical.byContradiction
      intro hsome
      have hparent : tree.lookup (next :: names ++ location) = some .directory := hwf.parent hsome
      rw [ih] at hparent
      contradiction

theorem lookup_prune {tree : FileTree} {location : Location} (hlocation : location ≠ [])
    (other : Location) :
    (tree.prune location).lookup other =
      if location.isSuffixOf other then none else tree.lookup other := by
  by_cases hother : other = []
  · subst hother
    have hsuffix : location.isSuffixOf [] = false := by
      rw [Bool.eq_false_iff, Ne, List.isSuffixOf_iff_suffix, List.suffix_nil]
      exact hlocation
    simp [hsuffix]
  · rw [lookup, if_neg hother, lookup, if_neg hother, prune,
      Keyed.find?_filter Prod.fst fun place => !location.isSuffixOf place]
    cases location.isSuffixOf other <;> rfl

/-- Removing a file leaves every other location as it was. -/
theorem WellFormed.lookup_prune_file {tree : FileTree} (hwf : tree.WellFormed) {name : RawText}
    {directory : Location} (hfile : tree.lookup (name :: directory) ≠ some .directory)
    (other : Location) :
    (tree.prune (name :: directory)).lookup other =
      if name :: directory = other then none else tree.lookup other := by
  rw [lookup_prune (List.cons_ne_nil _ _)]
  by_cases heq : name :: directory = other
  · subst heq
    simp
  · rw [if_neg heq]
    split
    next hsuffix =>
      obtain ⟨names, rfl⟩ := List.isSuffixOf_iff_suffix.mp hsuffix
      cases names with
      | nil => exact absurd rfl heq
      | cons first names => exact (hwf.lookup_below hfile names).symm
    next => rfl

theorem WellFormed.lookup_prune_directory {tree : FileTree} (hwf : tree.WellFormed) {name : RawText}
    {directory place : Location} (hfile : tree.lookup (name :: directory) ≠ some .directory)
    (h : tree.lookup place = some .directory) :
    (tree.prune (name :: directory)).lookup place = some .directory := by
  rw [hwf.lookup_prune_file hfile, if_neg, h]
  rintro rfl
  exact hfile h

theorem WellFormed.prune {tree : FileTree} (hwf : tree.WellFormed) {name : RawText}
    {directory : Location} (hfile : tree.lookup (name :: directory) ≠ some .directory) :
    (tree.prune (name :: directory)).WellFormed := by
  have hkept : ∀ {other}, (tree.prune (name :: directory)).lookup other ≠ none →
      tree.lookup other ≠ none := by
    intro other hother
    rw [hwf.lookup_prune_file hfile] at hother
    split at hother
    · exact absurd rfl hother
    · exact hother
  exact
    { isName := fun hother => hwf.isName (hkept hother)
      parent := fun hother => hwf.lookup_prune_directory hfile (hwf.parent (hkept hother))
      home := hwf.lookup_prune_directory hfile hwf.home }

/-! ## Making directories -/

/-- Whether a tree came about by making directories where there was nothing. -/
structure Grows (tree later : FileTree) : Prop where
  home : later.home = tree.home
  clock : later.clock = tree.clock
  lookup : ∀ location, later.lookup location = tree.lookup location ∨
    (tree.lookup location = none ∧ later.lookup location = some .directory)
  wellFormed : tree.WellFormed → later.WellFormed

namespace Grows

theorem refl (tree : FileTree) : Grows tree tree where
  home := rfl
  clock := rfl
  lookup := fun _ => .inl rfl
  wellFormed := id

theorem trans {first second third : FileTree} (h : Grows first second) (h' : Grows second third) :
    Grows first third where
  home := h'.home.trans h.home
  clock := h'.clock.trans h.clock
  lookup := by
    intro location
    rcases h'.lookup location with hkept | ⟨hnone, hmade⟩
    · rw [hkept]
      exact h.lookup location
    · rcases h.lookup location with hkept | ⟨_, hsome⟩
      · exact .inr ⟨hkept ▸ hnone, hmade⟩
      · rw [hsome] at hnone
        contradiction
  wellFormed := fun hwf => h'.wellFormed (h.wellFormed hwf)

theorem lookup_of_some {tree later : FileTree} (h : Grows tree later) {location : Location}
    {entry : Entry} (hentry : tree.lookup location = some entry) :
    later.lookup location = some entry := by
  rcases h.lookup location with hkept | ⟨hnone, -⟩
  · rw [hkept, hentry]
  · rw [hentry] at hnone
    contradiction

theorem lookup_file {tree later : FileTree} (h : Grows tree later) {location : Location}
    {contents : Bytes} {modified : Instant}
    (hfile : later.lookup location = some (.file contents modified)) :
    tree.lookup location = some (.file contents modified) := by
  rcases h.lookup location with hkept | ⟨-, hmade⟩
  · rw [← hkept, hfile]
  · rw [hmade] at hfile
    simp at hfile

theorem leadsTo {tree later : FileTree} (h : Grows tree later) {path : Path} {location : Location}
    (hpath : tree.leadsTo path location) : later.leadsTo path location :=
  hpath.of_keeps h.home fun _ => h.lookup_of_some

end Grows

/-- Whether a raw text can stand between the slashes of a path. -/
def isStep (step : RawText) : Prop := step ≠ "" ∧ slash ∉ step.bytes

theorem isStep_of_mem_steps {path : Path} {step : RawText} (h : step ∈ path.steps) :
    isStep step := by
  rw [steps, List.mem_reverse, List.mem_map] at h
  obtain ⟨piece, hpiece, rfl⟩ := h
  constructor
  · intro hempty
    exact Text.ne_nil_of_mem_runs hpiece (bytes_eq_nil_iff.mpr hempty)
  · intro hslash
    exact absurd (Text.mem_of_mem_runs hpiece hslash).2 (by decide)

/-- A directory is made under a new name of a directory that is there. -/
theorem makeDirectory_eq_ok {tree made : FileTree} {absolute : Bool} {steps : List RawText}
    (h : tree.makeDirectory absolute steps = .ok made) :
    ∃ name above directory, steps = name :: above ∧ name ≠ "." ∧ name ≠ ".." ∧
      tree.follow (if absolute then [] else tree.home) above = .ok directory ∧
      name.bytes.length ≤ nameLimit ∧ tree.lookup (name :: directory) = none ∧
      made = tree.set (name :: directory) .directory := by
  unfold makeDirectory at h
  cases steps with
  | nil => cases absolute <;> simp [aim] at h
  | cons name above =>
      rw [aim] at h
      cases hfollow : tree.follow (if absolute then [] else tree.home) above with
      | error fault => simp [hfollow] at h
      | ok directory =>
          rw [hfollow] at h
          by_cases hhere : name = "."
          · simp [hhere] at h
          · by_cases habove : name = ".."
            · simp [habove] at h
            · simp only [hhere, habove, if_false, child] at h
              by_cases hlimit : nameLimit < name.bytes.length
              · simp [hlimit] at h
              · simp only [hlimit, if_false] at h
                cases hentry : tree.lookup (name :: directory) with
                | some entry => simp [hentry] at h
                | none =>
                    simp only [hentry, Except.ok.injEq] at h
                    exact ⟨name, above, directory, rfl, hhere, habove, hfollow,
                      Nat.not_lt.mp hlimit, hentry, h.symm⟩

theorem grows_makeDirectory {tree made : FileTree} {absolute : Bool} {steps : List RawText}
    (hsteps : ∀ step ∈ steps, isStep step) (h : tree.makeDirectory absolute steps = .ok made) :
    Grows tree made := by
  obtain ⟨name, above, directory, rfl, hhere, habove, hfollow, -, hnone, rfl⟩ :=
    makeDirectory_eq_ok h
  have hname : IsName name := by
    obtain ⟨hempty, hslash⟩ := hsteps name List.mem_cons_self
    exact ⟨hempty, hslash, hhere, habove⟩
  refine ⟨rfl, rfl, ?_, ?_⟩
  · intro location
    by_cases hlocation : name :: directory = location
    · subst hlocation
      exact .inr ⟨hnone, lookup_set_self ..⟩
    · exact .inl (lookup_set_of_ne tree _ hlocation)
  · intro hwf
    refine hwf.set hname (hwf.lookup_of_follow ?_ hfollow) fun _ => rfl
    split
    · exact tree.lookup_root
    · exact hwf.home

theorem follow_of_makeDirectory {tree made : FileTree} {absolute : Bool} {steps : List RawText}
    (h : tree.makeDirectory absolute steps = .ok made) :
    ∃ location, made.follow (if absolute then [] else tree.home) steps = .ok location := by
  obtain ⟨name, above, directory, rfl, hhere, habove, hfollow, hlimit, hnone, rfl⟩ :=
    makeDirectory_eq_ok h
  refine ⟨name :: directory, follow_cons_eq_ok_iff.mpr ⟨directory, ?_, ?_⟩⟩
  · exact follow_of_keeps (fun _ => lookup_set_directory fun _ => rfl) hfollow
  · refine enter_eq_ok_iff.mpr ⟨by simp [advance, hhere, habove], .inr (.inr ⟨hlimit, ?_⟩)⟩
    exact lookup_set_self ..

theorem grows_provide {tree : FileTree} {absolute : Bool} {steps : List RawText}
    {above : FileTree → FileTree × Option FileFault} (hsteps : ∀ step ∈ steps, isStep step)
    (habove : ∀ tree, Grows tree (above tree).1) :
    Grows tree (tree.provide absolute steps above).1 := by
  unfold provide
  dsimp only
  split
  next made hmade => exact grows_makeDirectory hsteps hmade
  next =>
    have hgrows := habove tree
    split
    next higher fault habove => simpa [habove] using hgrows
    next higher habove =>
      rw [habove] at hgrows
      split
      next made hmade => exact hgrows.trans (grows_makeDirectory hsteps hmade)
      next =>
        split
        · exact hgrows
        · exact hgrows
  next =>
    split
    · exact Grows.refl tree
    · exact Grows.refl tree

theorem grows_provideAll (absolute : Bool) {steps : List RawText}
    (hsteps : ∀ step ∈ steps, isStep step) (tree : FileTree) :
    Grows tree (provideAll absolute steps tree).1 := by
  induction steps generalizing tree with
  | nil => exact Grows.refl tree
  | cons step above ih =>
      exact grows_provide hsteps
        (ih fun other hother => hsteps other (List.mem_cons_of_mem _ hother))

theorem isStep_of_mem_components_tail {path : Path} :
    ∀ step ∈ path.components.tail, isStep step := by
  intro step hstep
  exact isStep_of_mem_steps (List.mem_filter.mp (List.mem_of_mem_tail hstep)).1

/-- Making directories changes nothing but where there was nothing. -/
theorem grows_makeDirectories (tree : FileTree) (path : Path) :
    Grows tree (tree.makeDirectories path).1 := by
  unfold makeDirectories
  split
  next => exact Grows.refl tree
  next =>
    split
    next => exact Grows.refl tree
    next =>
      exact grows_provide (fun step => isStep_of_mem_steps)
        (grows_provideAll path.isAbsolute isStep_of_mem_components_tail)

theorem follow_of_reaches {tree : FileTree} {absolute : Bool} {steps : List RawText}
    (h : tree.reaches absolute steps = true) :
    ∃ location, tree.follow (if absolute then [] else tree.home) steps = .ok location := by
  unfold reaches at h
  split at h
  next location hfollow => exact ⟨location, hfollow⟩
  next => simp at h

theorem follow_of_provide {tree : FileTree} {absolute : Bool} {steps : List RawText}
    {above : FileTree → FileTree × Option FileFault}
    (habove : ∀ tree, (above tree).1.home = tree.home)
    (h : (tree.provide absolute steps above).2 = none) :
    ∃ location, (tree.provide absolute steps above).1.follow
      (if absolute then [] else tree.home) steps = .ok location := by
  unfold provide at h ⊢
  dsimp only at h ⊢
  split
  next made hmade => exact follow_of_makeDirectory hmade
  next hmissing =>
    simp only [hmissing] at h
    -- What is above comes first. Then the last step is tried once more.
    have hhome := habove tree
    split
    next higher fault hhigher => simp [hhigher] at h
    next higher hhigher =>
      rw [hhigher] at hhome
      simp only [hhigher] at h
      rw [← hhome]
      split
      next made hmade => exact follow_of_makeDirectory hmade
      next fault hfault =>
        simp only [hfault] at h
        split
        next hreaches => exact follow_of_reaches hreaches
        next hreaches => simp [hreaches] at h
  next fault _ hfault =>
    simp only [hfault] at h
    split
    next hreaches => exact follow_of_reaches hreaches
    next hreaches => simp [hreaches] at h

theorem leadsTo_of_makeDirectories {tree : FileTree} {path : Path}
    (h : (tree.makeDirectories path).2 = none) :
    ∃ location, (tree.makeDirectories path).1.leadsTo path location := by
  have hhome := (tree.grows_makeDirectories path).home
  unfold leadsTo
  rw [origin_congr hhome]
  unfold makeDirectories at h ⊢
  split
  next hempty =>
    have hsteps : path.steps = [] := by
      rw [steps, bytes_eq_nil_iff.mpr hempty]
      rfl
    exact ⟨_, by rw [hsteps]; rfl⟩
  next hpath =>
    simp only [hpath, if_false] at h
    split
    next fault hfault => simp [hfault] at h
    next hfault =>
      simp only [hfault] at h
      exact follow_of_provide
        (fun tree => (grows_provideAll _ isStep_of_mem_components_tail tree).home) h

/-- Nothing is made where a path can be followed already. -/
theorem makeDirectory_of_follow {tree : FileTree} {absolute : Bool} {steps : List RawText}
    {location : Location} (hsteps : steps ≠ [] ∨ absolute = true)
    (h : tree.follow (if absolute then [] else tree.home) steps = .ok location) :
    tree.makeDirectory absolute steps = .error .alreadyExists := by
  obtain ⟨target, haim, hlanding⟩ := (follow_eq_ok_iff_aim hsteps).mp h
  rw [makeDirectory, haim]
  cases target with
  | directory place => rfl
  | name directory name =>
      rw [landing] at hlanding
      dsimp only
      split at hlanding
      next hchild => rw [hchild]
      next => simp at hlanding

theorem provide_of_follow {tree : FileTree} {absolute : Bool} {steps : List RawText}
    {location : Location} (hsteps : steps ≠ [] ∨ absolute = true)
    (above : FileTree → FileTree × Option FileFault)
    (h : tree.follow (if absolute then [] else tree.home) steps = .ok location) :
    tree.provide absolute steps above = (tree, none) := by
  have hreaches : tree.reaches absolute steps = true := by
    rw [reaches, h]
  rw [provide, makeDirectory_of_follow hsteps h]
  simp [hreaches]

theorem isAbsolute_or_steps {path : Path} (h : path.text ≠ "") :
    path.steps ≠ [] ∨ path.isAbsolute = true := by
  rw [isAbsolute]
  cases htext : path.text.bytes with
  | nil => exact absurd (bytes_eq_nil_iff.mp htext) h
  | cons byte bytes =>
      by_cases hslash : isSlash byte = true
      · exact .inr (by simpa using hslash)
      · refine .inl fun hnil => ?_
        have hnone : Text.runs isSlash path.text.bytes = [] := by
          simpa [steps] using hnil
        rw [htext, Text.runs, Text.splitOn_cons] at hnone
        obtain ⟨first, rest, hsplit⟩ :=
          List.exists_cons_of_ne_nil (Text.splitOn_ne_nil isSlash bytes)
        rw [hsplit, Text.attach_cons (by simpa using hslash)] at hnone
        simp at hnone

/-- Making directories that were made before changes nothing. -/
theorem makeDirectories_of_leadsTo {tree : FileTree} {path : Path} {location : Location}
    (hfault : path.text = "" ∨ path.fault? = none) (h : tree.leadsTo path location) :
    tree.makeDirectories path = (tree, none) := by
  unfold makeDirectories
  split
  next => rfl
  next hpath =>
    rw [hfault.resolve_left hpath]
    exact provide_of_follow (isAbsolute_or_steps hpath) _ h

theorem fault?_of_makeDirectories {tree : FileTree} {path : Path}
    (h : (tree.makeDirectories path).2 = none) : path.text = "" ∨ path.fault? = none := by
  by_cases hpath : path.text = ""
  · exact .inl hpath
  · refine .inr ?_
    rw [makeDirectories, if_neg hpath] at h
    cases hfault : path.fault? with
    | none => rfl
    | some fault => simp [hfault] at h

/-! ## Files in a directory -/

/-- What keeps a file from being written where an entry is. -/
def obstacle : Option Entry → Option FileFault
  | some .directory => some .isDirectory
  | some .fullDevice => some .noSpace
  | some (.file _ _) => none
  | none => none

theorem write_join_of_usable {tree : FileTree} {base : Path} {directory : Location} {name : RawText}
    (hbase : tree.leadsTo base directory) (hname : IsName name) (husable : usable base name)
    (contents : Bytes) :
    tree.write (base.join ⟨name⟩) contents =
      match obstacle (tree.lookup (name :: directory)) with
      | some fault => if fault = .noSpace ∧ contents = [] then .ok tree else .error fault
      | none => .ok (tree.set (name :: directory) (.file contents tree.clock)) := by
  rw [write, target_join hbase hname husable.1]
  simp only [endsInSlash_join base hname, child, if_neg (Nat.not_lt.mpr husable.2)]
  cases tree.lookup (name :: directory) with
  | none => rfl
  | some entry => cases entry <;> simp [obstacle]

theorem write_join_of_not_usable {tree : FileTree} {base : Path} {directory : Location}
    {name : RawText} (hbase : tree.leadsTo base directory) (hname : IsName name)
    (husable : ¬ usable base name) (contents : Bytes) :
    tree.write (base.join ⟨name⟩) contents =
      .error ((base.join ⟨name⟩).fault?.getD .nameTooLong) := by
  cases hfault : (base.join ⟨name⟩).fault? with
  | some fault => rw [write, target, hfault]; rfl
  | none =>
      have hlimit : nameLimit < name.bytes.length := by
        apply Nat.not_le.mp
        exact fun hle => husable ⟨hfault, hle⟩
      rw [write, target_join hbase hname hfault]
      simp [endsInSlash_join base hname, child, hlimit]

/-- What keeps contents from being written under a name of a directory. -/
def blockage (tree : FileTree) (base : Path) (directory : Location) (name : RawText) :
    Option FileFault :=
  if usable base name then obstacle (tree.lookup (name :: directory))
  else some ((base.join ⟨name⟩).fault?.getD .nameTooLong)

theorem blockage_congr {tree later : FileTree} {base : Path} {directory : Location} {name : RawText}
    (h : later.lookup (name :: directory) = tree.lookup (name :: directory)) :
    later.blockage base directory name = tree.blockage base directory name := by
  unfold blockage
  rw [h]

/-- A file with contents is written unless something blocks it. -/
theorem write_join {tree : FileTree} {base : Path} {directory : Location} {name : RawText}
    (hbase : tree.leadsTo base directory) (hname : IsName name) {contents : Bytes}
    (hcontents : contents ≠ []) :
    tree.write (base.join ⟨name⟩) contents =
      match tree.blockage base directory name with
      | some fault => .error fault
      | none => .ok (tree.set (name :: directory) (.file contents tree.clock)) := by
  unfold blockage
  by_cases husable : usable base name
  · rw [write_join_of_usable hbase hname husable, if_pos husable]
    cases obstacle (tree.lookup (name :: directory)) <;> simp [hcontents]
  · rw [write_join_of_not_usable hbase hname husable, if_neg husable]

/-- A file that was written, with or without contents. Nothing can be written
to a device, and so nothing changes there. -/
theorem write_join_eq_ok {tree later : FileTree} {base : Path} {directory : Location}
    {name : RawText} {contents : Bytes} (hbase : tree.leadsTo base directory) (hname : IsName name)
    (h : tree.write (base.join ⟨name⟩) contents = .ok later) :
    usable base name ∧
      ((tree.lookup (name :: directory) = some .fullDevice ∧ contents = [] ∧ later = tree) ∨
        (obstacle (tree.lookup (name :: directory)) = none ∧
          later = tree.set (name :: directory) (.file contents tree.clock))) := by
  by_cases husable : usable base name
  · refine ⟨husable, ?_⟩
    rw [write_join_of_usable hbase hname husable] at h
    cases hentry : tree.lookup (name :: directory) with
    | none => exact .inr ⟨rfl, by simpa [hentry, obstacle, eq_comm] using h⟩
    | some entry =>
        cases entry with
        | directory => simp [hentry, obstacle] at h
        | fullDevice =>
            refine .inl ⟨rfl, ?_⟩
            by_cases hempty : contents = []
            · exact ⟨hempty, by simpa [hentry, obstacle, hempty, eq_comm] using h⟩
            · simp [hentry, obstacle, hempty] at h
        | file old modified => exact .inr ⟨rfl, by simpa [hentry, obstacle, eq_comm] using h⟩
  · rw [write_join_of_not_usable hbase hname husable] at h
    simp at h

theorem leadsTo_of_write_join {tree later : FileTree} {base : Path} {name : RawText}
    {contents : Bytes} (hname : IsName name)
    (h : tree.write (base.join ⟨name⟩) contents = .ok later) :
    tree.leadsTo base (tree.destination base) := by
  rw [write] at h
  cases htarget : tree.target (base.join ⟨name⟩) with
  | error fault => simp [htarget] at h
  | ok target => exact leadsTo_of_target_join hname htarget

theorem read_congr {tree later : FileTree} {path : Path} (h : later.find path = tree.find path) :
    later.read path = tree.read path := by
  rw [read, stat, h, read, stat]
  cases tree.find path with
  | error fault => rfl
  | ok found =>
      obtain ⟨location, entry⟩ := found
      cases entry <;> rfl

theorem read_join {tree : FileTree} {base : Path} {directory : Location} {name : RawText}
    (hbase : tree.leadsTo base directory) (hname : IsName name) (husable : usable base name)
    {contents : Bytes} {modified : Instant}
    (hfile : tree.lookup (name :: directory) = some (.file contents modified)) :
    tree.read (base.join ⟨name⟩) = .ok contents := by
  rw [read, stat, find_join hbase hname husable, hfile]
  rfl

end Parley.FileTree
