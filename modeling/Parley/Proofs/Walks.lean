import Parley.Files.Tree
import Parley.Proofs.Names

/-!
# Where paths lead

Whether a path can be followed depends on the tree, but where it leads does
not: each step goes down under its name, up, or nowhere. So a path that can be
followed now leads to the same place for as long as no directory goes away. A
name in a directory that is reached is found, read and written at one
location, and what happens there depends on the entry of that location alone.
-/

namespace Parley.FileTree

open Parley.Path

/-- What every file tree of a system satisfies: entries have proper names and
stand in directories, and home is a directory. -/
structure WellFormed (tree : FileTree) : Prop where
  isName : ∀ {name above}, tree.lookup (name :: above) ≠ none → IsName name
  parent : ∀ {name above}, tree.lookup (name :: above) ≠ none → tree.lookup above = some .directory
  home : tree.lookup tree.home = some .directory

@[simp] theorem lookup_root (tree : FileTree) : tree.lookup [] = some .directory := rfl

theorem mem_entries_of_lookup {tree : FileTree} {name : RawText} {above : Location} {entry : Entry}
    (h : tree.lookup (name :: above) = some entry) : (name :: above, entry) ∈ tree.entries := by
  rw [lookup, if_neg (List.cons_ne_nil _ _)] at h
  obtain ⟨found, hfind, rfl⟩ := Option.map_eq_some_iff.mp h
  have hkey : found.1 = name :: above := by simpa using List.find?_some hfind
  rw [← hkey]
  exact List.mem_of_find?_eq_some hfind

/-- Whether a tree is well formed can be seen from its entries. -/
theorem WellFormed.of_entries {tree : FileTree}
    (hentries : ∀ entry ∈ tree.entries, ∀ name ∈ entry.1.head?,
      IsName name ∧ tree.lookup entry.1.tail = some .directory)
    (hhome : tree.lookup tree.home = some .directory) : tree.WellFormed := by
  have hchecked : ∀ {name above}, tree.lookup (name :: above) ≠ none →
      IsName name ∧ tree.lookup above = some .directory := by
    intro name above h
    obtain ⟨entry, hentry⟩ := Option.ne_none_iff_exists'.mp h
    exact hentries _ (mem_entries_of_lookup hentry) name rfl
  exact ⟨fun h => (hchecked h).1, fun h => (hchecked h).2, hhome⟩

/-! ## Following steps -/

/-- Where one step leads, whatever is there. -/
def advance (location : Location) (step : RawText) : Location :=
  if step = "." then location else if step = ".." then location.tail else step :: location

/-- Where steps, last one first, lead from a location, whatever is there. -/
def walk (start : Location) : List RawText → Location
  | [] => start
  | step :: above => advance (walk start above) step

/-- Where a path starts. -/
def origin (tree : FileTree) (path : Path) : Location :=
  if path.isAbsolute then [] else tree.home

/-- Where a path leads once all directories on its way are there. -/
def destination (tree : FileTree) (path : Path) : Location :=
  walk (tree.origin path) path.steps

/-- Whether a path can be followed to a directory. -/
def leadsTo (tree : FileTree) (path : Path) (location : Location) : Prop :=
  tree.follow (tree.origin path) path.steps = .ok location

theorem enter_eq_ok_iff {tree : FileTree} {directory location : Location} {step : RawText} :
    tree.enter directory step = .ok location ↔
      location = advance directory step ∧
        (step = "." ∨ step = ".." ∨
          (step.bytes.length ≤ nameLimit ∧
            tree.lookup (step :: directory) = some .directory)) := by
  unfold enter advance
  by_cases hhere : step = "."
  · simp [hhere, eq_comm]
  · by_cases habove : step = ".."
    · simp [habove, eq_comm]
    · simp only [hhere, habove, if_false, false_or, child]
      by_cases hlimit : nameLimit < step.bytes.length
      · simp [hlimit, Nat.not_le.mpr hlimit]
      · simp only [hlimit, if_false, Nat.not_lt.mp hlimit, true_and]
        cases hentry : tree.lookup (step :: directory) with
        | none => simp
        | some entry => cases entry <;> simp [eq_comm]

theorem follow_cons_eq_ok_iff {tree : FileTree} {start location : Location} {step : RawText}
    {above : List RawText} :
    tree.follow start (step :: above) = .ok location ↔
      ∃ directory, tree.follow start above = .ok directory ∧
        tree.enter directory step = .ok location := by
  rw [follow]
  cases tree.follow start above <;> simp

/-- Steps that can be followed lead where they lead in any tree. -/
theorem eq_walk_of_follow {tree : FileTree} {start location : Location} {steps : List RawText}
    (h : tree.follow start steps = .ok location) : location = walk start steps := by
  induction steps generalizing location with
  | nil => exact (Except.ok.inj h).symm
  | cons step above ih =>
      obtain ⟨directory, habove, henter⟩ := follow_cons_eq_ok_iff.mp h
      rw [walk, ← ih habove]
      exact (enter_eq_ok_iff.mp henter).1

theorem leadsTo.eq_destination {tree : FileTree} {path : Path} {location : Location}
    (h : tree.leadsTo path location) : location = tree.destination path :=
  eq_walk_of_follow h

/-- Steps that can be followed can still be followed where all directories are
still there. -/
theorem follow_of_keeps {tree later : FileTree} {start location : Location} {steps : List RawText}
    (hkeeps : ∀ place, tree.lookup place = some .directory → later.lookup place = some .directory)
    (h : tree.follow start steps = .ok location) : later.follow start steps = .ok location := by
  induction steps generalizing location with
  | nil => exact h
  | cons step above ih =>
      obtain ⟨directory, habove, henter⟩ := follow_cons_eq_ok_iff.mp h
      refine follow_cons_eq_ok_iff.mpr ⟨directory, ih habove, ?_⟩
      obtain ⟨hlocation, hstep⟩ := enter_eq_ok_iff.mp henter
      refine enter_eq_ok_iff.mpr ⟨hlocation, ?_⟩
      exact hstep.imp_right (Or.imp_right fun hdown => ⟨hdown.1, hkeeps _ hdown.2⟩)

theorem origin_congr {tree later : FileTree} (hhome : later.home = tree.home) (path : Path) :
    later.origin path = tree.origin path := by
  rw [origin, origin, hhome]

theorem destination_congr {tree later : FileTree} (hhome : later.home = tree.home) (path : Path) :
    later.destination path = tree.destination path := by
  rw [destination, destination, origin_congr hhome]

theorem leadsTo.of_keeps {tree later : FileTree} {path : Path} {location : Location}
    (hhome : later.home = tree.home)
    (hkeeps : ∀ place, tree.lookup place = some .directory → later.lookup place = some .directory)
    (h : tree.leadsTo path location) : later.leadsTo path location := by
  rw [leadsTo, origin_congr hhome]
  exact follow_of_keeps hkeeps h

theorem WellFormed.lookup_tail {tree : FileTree} (hwf : tree.WellFormed) {location : Location}
    (h : tree.lookup location = some .directory) :
    tree.lookup location.tail = some .directory := by
  cases location with
  | nil => exact h
  | cons name above =>
      have hsome : tree.lookup (name :: above) ≠ none := by simp [h]
      exact hwf.parent hsome

theorem WellFormed.lookup_of_follow {tree : FileTree} (hwf : tree.WellFormed)
    {start location : Location} {steps : List RawText}
    (hstart : tree.lookup start = some .directory)
    (h : tree.follow start steps = .ok location) : tree.lookup location = some .directory := by
  induction steps generalizing location with
  | nil =>
      obtain rfl := Except.ok.inj h
      exact hstart
  | cons step above ih =>
      obtain ⟨directory, habove, henter⟩ := follow_cons_eq_ok_iff.mp h
      have hdirectory := ih habove
      obtain ⟨rfl, rfl | rfl | ⟨-, hdown⟩⟩ := enter_eq_ok_iff.mp henter
      · simpa [advance] using hdirectory
      · simpa [advance] using hwf.lookup_tail hdirectory
      · have hsome : tree.lookup (step :: directory) ≠ none := by simp [hdown]
        have hname := hwf.isName hsome
        simpa [advance, hname.ne_here, hname.ne_above] using hdown

theorem WellFormed.lookup_origin {tree : FileTree} (hwf : tree.WellFormed) (path : Path) :
    tree.lookup (tree.origin path) = some .directory := by
  unfold origin
  split
  · exact tree.lookup_root
  · exact hwf.home

theorem WellFormed.lookup_of_leadsTo {tree : FileTree} (hwf : tree.WellFormed) {path : Path}
    {location : Location} (h : tree.leadsTo path location) :
    tree.lookup location = some .directory :=
  hwf.lookup_of_follow (hwf.lookup_origin path) h

/-! ## Names in a directory -/

/-- The name that an entry has in a directory, if it stands there. -/
def nameIn (directory : Location) (entry : Location × Entry) : Option RawText :=
  match entry.1 with
  | name :: above => if above = directory then some name else none
  | [] => none

theorem nameIn_eq_some_iff {directory : Location} {entry : Location × Entry} {name : RawText} :
    nameIn directory entry = some name ↔ entry.1 = name :: directory := by
  unfold nameIn
  split
  next first above hentry =>
    rw [hentry]
    by_cases habove : above = directory <;> simp [habove]
  next hentry => simp [hentry]

theorem names_eq_filterMap (tree : FileTree) (directory : Location) :
    tree.names directory = tree.entries.filterMap (nameIn directory) := rfl

theorem mem_names_iff {tree : FileTree} {directory : Location} {name : RawText} :
    name ∈ tree.names directory ↔ tree.lookup (name :: directory) ≠ none := by
  rw [lookup, if_neg (List.cons_ne_nil _ _), names_eq_filterMap, List.mem_filterMap, Keyed.find?,
    Ne, Option.map_eq_none_iff, List.find?_eq_none]
  simp only [nameIn_eq_some_iff, decide_eq_true_eq]
  constructor
  · rintro ⟨entry, hmem, hentry⟩ hnone
    exact hnone entry hmem hentry
  · intro hsome
    apply Classical.byContradiction
    intro hnone
    exact hsome fun entry hmem hentry => hnone ⟨entry, hmem, hentry⟩

theorem nodup_names (tree : FileTree) (directory : Location) : (tree.names directory).Nodup := by
  rw [names_eq_filterMap]
  have hdistinct : tree.entries.Pairwise fun entry other => entry.1 ≠ other.1 :=
    List.pairwise_map.mp tree.nodup_locations
  refine List.Pairwise.filterMap (nameIn directory) ?_ hdistinct
  intro entry other hne name hname otherName hother heq
  subst heq
  exact hne ((nameIn_eq_some_iff.mp hname).trans (nameIn_eq_some_iff.mp hother).symm)

/-- Whether the path of a name in a directory is short enough to be used. -/
def usable (base : Path) (name : RawText) : Prop :=
  (base.join ⟨name⟩).fault? = none ∧ name.bytes.length ≤ nameLimit

instance (base : Path) (name : RawText) : Decidable (usable base name) :=
  inferInstanceAs (Decidable (_ ∧ _))

theorem usable_iff {base : Path} {name : RawText} :
    usable base name ↔ 0 ∉ (base.join ⟨name⟩).text.bytes ∧
      (base.join ⟨name⟩).text.bytes.length ≤ lengthLimit ∧ name.bytes.length ≤ nameLimit := by
  rw [usable, fault?_eq_none_iff, and_assoc]

theorem target_join {tree : FileTree} {base : Path} {directory : Location} {name : RawText}
    (hbase : tree.leadsTo base directory) (hname : IsName name)
    (hfault : (base.join ⟨name⟩).fault? = none) :
    tree.target (base.join ⟨name⟩) = .ok (.name directory name) := by
  have hfollow : tree.follow (if base.isAbsolute then [] else tree.home) base.steps =
      .ok directory := hbase
  rw [target, hfault]
  simp only [isAbsolute_join base hname, steps_join base hname]
  rw [aim, hfollow]
  simp only [hname.ne_here, hname.ne_above, if_false]

/-- A name in a directory that is reached is found if there is an entry. -/
theorem find_join {tree : FileTree} {base : Path} {directory : Location} {name : RawText}
    (hbase : tree.leadsTo base directory) (hname : IsName name) (husable : usable base name) :
    tree.find (base.join ⟨name⟩) =
      match tree.lookup (name :: directory) with
      | none => .error .notFound
      | some entry => .ok (name :: directory, entry) := by
  rw [find, target_join hbase hname husable.1]
  simp only [child, if_neg (Nat.not_lt.mpr husable.2)]
  cases tree.lookup (name :: directory) with
  | none => rfl
  | some entry => cases entry <;> simp [endsInSlash_join base hname]

/-- A path that is too long leads nowhere, whatever the tree. -/
theorem find_join_of_not_usable {tree : FileTree} {base : Path} {directory : Location}
    {name : RawText} (hbase : tree.leadsTo base directory) (hname : IsName name)
    (husable : ¬ usable base name) :
    tree.find (base.join ⟨name⟩) = .error ((base.join ⟨name⟩).fault?.getD .nameTooLong) := by
  cases hfault : (base.join ⟨name⟩).fault? with
  | some fault => rw [find, target, hfault]; rfl
  | none =>
      have hlimit : nameLimit < name.bytes.length := by
        apply Nat.not_le.mp
        exact fun hle => husable ⟨hfault, hle⟩
      rw [find, target_join hbase hname hfault]
      simp only [child, if_pos hlimit]
      rfl

theorem find_join_congr {tree later : FileTree} {base : Path} {directory : Location}
    {name : RawText} (hbase : tree.leadsTo base directory) (hlater : later.leadsTo base directory)
    (hname : IsName name) (h : later.lookup (name :: directory) = tree.lookup (name :: directory)) :
    later.find (base.join ⟨name⟩) = tree.find (base.join ⟨name⟩) := by
  by_cases husable : usable base name
  · rw [find_join hbase hname husable, find_join hlater hname husable, h]
  · rw [find_join_of_not_usable hbase hname husable,
      find_join_of_not_usable hlater hname husable]

theorem find_join_eq_ok_iff {tree : FileTree} {base : Path} {directory location : Location}
    {name : RawText} {entry : Entry} (hbase : tree.leadsTo base directory) (hname : IsName name) :
    tree.find (base.join ⟨name⟩) = .ok (location, entry) ↔
      usable base name ∧ location = name :: directory ∧
        tree.lookup (name :: directory) = some entry := by
  by_cases husable : usable base name
  · rw [find_join hbase hname husable]
    cases tree.lookup (name :: directory) <;> simp [husable, eq_comm]
  · rw [find_join_of_not_usable hbase hname husable]
    simp [husable]

/-- A name that a path ends at is the name of a directory that was reached. -/
theorem leadsTo_of_target_join {tree : FileTree} {base : Path} {name : RawText} {target : Target}
    (hname : IsName name) (h : tree.target (base.join ⟨name⟩) = .ok target) :
    tree.leadsTo base (tree.destination base) := by
  rw [FileTree.target] at h
  cases hfault : (base.join ⟨name⟩).fault? with
  | some fault => simp [hfault] at h
  | none =>
      rw [hfault] at h
      simp only [isAbsolute_join base hname, steps_join base hname] at h
      cases hfollow : tree.follow (tree.origin base) base.steps with
      | error fault =>
          rw [origin] at hfollow
          simp [aim, hfollow] at h
      | ok directory =>
          have hbase : tree.leadsTo base directory := hfollow
          exact hbase.eq_destination ▸ hbase

theorem leadsTo_of_find_join {tree : FileTree} {base : Path} {name : RawText}
    {found : Location × Entry} (hname : IsName name)
    (h : tree.find (base.join ⟨name⟩) = .ok found) : tree.leadsTo base (tree.destination base) := by
  rw [find] at h
  cases htarget : tree.target (base.join ⟨name⟩) with
  | error fault => simp [htarget] at h
  | ok target => exact leadsTo_of_target_join hname htarget

/-! ## Directories -/

/-- The directory that a path ends at, if it ends at one. -/
def landing (tree : FileTree) : Target → Option Location
  | .directory location => some location
  | .name directory name =>
      match tree.child directory name with
      | .ok (some .directory) => some (name :: directory)
      | _ => none

/-- Steps can be followed if they end at a directory that was walked into or at
the name of one. -/
theorem follow_eq_ok_iff_aim {tree : FileTree} {absolute : Bool} {steps : List RawText}
    {location : Location} (hsteps : steps ≠ [] ∨ absolute = true) :
    tree.follow (if absolute then [] else tree.home) steps = .ok location ↔
      ∃ target, tree.aim absolute steps = .ok target ∧ tree.landing target = some location := by
  cases steps with
  | nil =>
      have habsolute : absolute = true := by simpa using hsteps
      simp [habsolute, follow, aim, landing]
  | cons last above =>
      rw [follow, aim]
      cases tree.follow (if absolute then [] else tree.home) above with
      | error fault => simp
      | ok directory =>
          by_cases hhere : last = "."
          · simp [hhere, enter, landing]
          · by_cases habove : last = ".."
            · simp [habove, enter, landing]
            · simp only [enter, hhere, habove, if_false, Except.ok.injEq, exists_eq_left', landing]
              cases tree.child directory last with
              | error fault => simp
              | ok entry =>
                  cases entry with
                  | none => simp
                  | some entry => cases entry <;> simp

/-- A path is a directory if it can be followed and names anything at all. -/
theorem find_eq_directory_iff {tree : FileTree} {path : Path} {location : Location} :
    tree.find path = .ok (location, .directory) ↔
      path.fault? = none ∧ (path.steps ≠ [] ∨ path.isAbsolute = true) ∧
        tree.leadsTo path location := by
  rw [find, target]
  cases hfault : path.fault? with
  | some fault => simp
  | none =>
      by_cases hsteps : path.steps ≠ [] ∨ path.isAbsolute = true
      · rw [leadsTo, origin, follow_eq_ok_iff_aim hsteps]
        simp only [hsteps, true_and]
        cases tree.aim path.isAbsolute path.steps with
        | error fault => simp
        | ok target =>
            cases target with
            | directory place => simp [landing]
            | name directory name =>
                simp only [Except.ok.injEq, exists_eq_left', landing]
                cases tree.child directory name with
                | error fault => simp
                | ok entry =>
                    cases entry with
                    | none => simp
                    | some entry => cases entry <;> cases path.endsInSlash <;> simp
      · -- A path without steps that is not the root names nothing, although it can be followed.
        obtain ⟨hnil, hrelative⟩ := not_or.mp hsteps
        rw [Classical.not_not.mp hnil, aim]
        simp [hrelative]

theorem isDirectory_iff {tree : FileTree} {path : Path} :
    tree.isDirectory path = true ↔ ∃ location, tree.find path = .ok (location, .directory) := by
  unfold isDirectory
  split
  next location hfind => simp [hfind]
  next hother =>
    simp only [Bool.false_eq_true, false_iff]
    rintro ⟨location, hfind⟩
    exact hother location hfind

end Parley.FileTree
