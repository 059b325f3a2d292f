import Parley.Files.Fault
import Parley.Files.Path
import Parley.Keyed
import Parley.Time.Instant

/-!
# File trees

A file tree maps locations to files, directories and devices. A location is
the list of names on the way up from an entry to the root, its own name first;
the root itself is always there. There are no links: a location is the only
way to its entry. Relative paths start at the location that the tree calls
home, and a file that is written takes its modification time from the clock of
the tree.

A path that is faulty as such leads nowhere. Any other path is followed step
by step, and every step but the last one has to lead to a directory. The last
step is looked at by each operation in its own way: a missing file can be
created, a missing directory made, and a slash behind the last name asks for a
directory.
-/

namespace Parley

/-- The names from an entry up to the root. -/
abbrev Location := List RawText

/-- What a location holds. -/
inductive Entry where
  | directory
  | file (contents : Bytes) (modified : Instant)
  /-- A device without room for a single byte. It reads as empty here, while
  the one it stands for gives NUL bytes without end. -/
  | fullDevice
  deriving DecidableEq, Repr

/-- Entries by location, and what the operations on them depend on. -/
structure FileTree where
  entries : List (Location × Entry)
  nodup_locations : (entries.map Prod.fst).Nodup
  home : Location
  clock : Instant

namespace FileTree

/-- The number of bytes that a name may have. -/
def nameLimit : Nat := 255

/-- The tree that holds nothing but the root. -/
def empty (clock : Instant) : FileTree := ⟨[], by simp, [], clock⟩

/-- What is at a location. -/
def lookup (tree : FileTree) (location : Location) : Option Entry :=
  if location = [] then some .directory
  else (Keyed.find? Prod.fst tree.entries location).map Prod.snd

/-- Put an entry at a location. -/
def set (tree : FileTree) (location : Location) (entry : Entry) : FileTree :=
  { tree with
    entries := Keyed.upsert Prod.fst (location, entry) tree.entries
    nodup_locations := Keyed.nodup_upsert Prod.fst (location, entry) tree.nodup_locations }

/-- Remove a location and everything below it. -/
def prune (tree : FileTree) (location : Location) : FileTree :=
  { tree with
    entries := tree.entries.filter fun entry => !location.isSuffixOf entry.1
    nodup_locations := tree.nodup_locations.sublist (List.filter_sublist.map Prod.fst) }

/-- The names in a directory, in no particular order. -/
def names (tree : FileTree) (directory : Location) : List RawText :=
  tree.entries.filterMap fun entry =>
    match entry.1 with
    | name :: above => if above = directory then some name else none
    | [] => none

theorem lookup_set (tree : FileTree) {location : Location} (h : location ≠ []) (entry : Entry)
    (other : Location) :
    (tree.set location entry).lookup other =
      if location = other then some entry else tree.lookup other := by
  by_cases ho : other = []
  · subst ho
    simp [lookup, h]
  · rw [lookup, if_neg ho, lookup, if_neg ho, set, Keyed.find?_upsert]
    by_cases heq : location = other <;> simp [heq]

/-- What a name in a directory stands for. -/
def child (tree : FileTree) (directory : Location) (name : RawText) :
    Except FileFault (Option Entry) :=
  if nameLimit < name.bytes.length then .error .nameTooLong
  else .ok (tree.lookup (name :: directory))

/-- Go one step on from a directory to a directory. -/
def enter (tree : FileTree) (directory : Location) (step : RawText) : Except FileFault Location :=
  if step = "." then .ok directory
  else if step = ".." then .ok directory.tail
  else match tree.child directory step with
    | .error fault => .error fault
    | .ok none => .error .notFound
    | .ok (some .directory) => .ok (step :: directory)
    | .ok (some _) => .error .notDirectory

/-- Follow steps, last one first, through directories. -/
def follow (tree : FileTree) (origin : Location) : List RawText → Except FileFault Location
  | [] => .ok origin
  | step :: above =>
      match tree.follow origin above with
      | .error fault => .error fault
      | .ok directory => tree.enter directory step

/-- Where a path ends: at a directory that was walked into, or at a name in
one, be there an entry or not. -/
inductive Target where
  | directory (location : Location)
  | name (directory : Location) (name : RawText)
  deriving DecidableEq, Repr

/-- Follow steps, last one first, and leave the last name alone. Without a step
a path leads to the root or nowhere. -/
def aim (tree : FileTree) (absolute : Bool) : List RawText → Except FileFault Target
  | [] => if absolute then .ok (.directory []) else .error .notFound
  | last :: above =>
      match tree.follow (if absolute then [] else tree.home) above with
      | .error fault => .error fault
      | .ok directory =>
          if last = "." then .ok (.directory directory)
          else if last = ".." then .ok (.directory directory.tail)
          else .ok (.name directory last)

/-- Where a path ends. -/
def target (tree : FileTree) (path : Path) : Except FileFault Target :=
  match path.fault? with
  | some fault => .error fault
  | none => tree.aim path.isAbsolute path.steps

/-- The entry that a path leads to. -/
def find (tree : FileTree) (path : Path) : Except FileFault (Location × Entry) :=
  match tree.target path with
  | .error fault => .error fault
  | .ok (.directory location) => .ok (location, .directory)
  | .ok (.name directory name) =>
      match tree.child directory name with
      | .error fault => .error fault
      | .ok none => .error .notFound
      | .ok (some .directory) => .ok (name :: directory, .directory)
      | .ok (some entry) =>
          if path.endsInSlash then .error .notDirectory else .ok (name :: directory, entry)

/-- Whether a path leads to a directory. -/
def isDirectory (tree : FileTree) (path : Path) : Bool :=
  match tree.find path with
  | .ok (_, .directory) => true
  | _ => false

/-- The contents and the modification time of a file. -/
def stat (tree : FileTree) (path : Path) : Except FileFault (Bytes × Instant) :=
  match tree.find path with
  | .error fault => .error fault
  | .ok (_, .directory) => .error .isDirectory
  | .ok (_, .file contents modified) => .ok (contents, modified)
  | .ok (_, .fullDevice) => .ok ([], tree.clock)

/-- The contents of a file. -/
def read (tree : FileTree) (path : Path) : Except FileFault Bytes :=
  (tree.stat path).map Prod.fst

/-- The contents of a file as text. -/
def readText (tree : FileTree) (path : Path) : Except FileFault String :=
  match tree.read path with
  | .error fault => .error fault
  | .ok contents =>
      match Text.decode? contents with
      | some text => .ok text
      | none => .error .notText

/-- Replace the contents of a file, which need not exist. -/
def write (tree : FileTree) (path : Path) (contents : Bytes) : Except FileFault FileTree :=
  match tree.target path with
  | .error fault => .error fault
  | .ok (.directory _) => .error .isDirectory
  | .ok (.name directory name) =>
      if path.endsInSlash then .error .isDirectory
      else match tree.child directory name with
        | .error fault => .error fault
        | .ok (some .directory) => .error .isDirectory
        | .ok (some .fullDevice) => if contents.isEmpty then .ok tree else .error .noSpace
        | .ok _ => .ok (tree.set (name :: directory) (.file contents tree.clock))

/-- The names in a directory. -/
def list (tree : FileTree) (path : Path) : Except FileFault (List RawText) :=
  match tree.find path with
  | .error fault => .error fault
  | .ok (location, .directory) => .ok (tree.names location)
  | .ok _ => .error .notDirectory

/-- Make one directory at the end of steps, last one first. -/
def makeDirectory (tree : FileTree) (absolute : Bool) (steps : List RawText) :
    Except FileFault FileTree :=
  match tree.aim absolute steps with
  | .error fault => .error fault
  | .ok (.directory _) => .error .alreadyExists
  | .ok (.name directory name) =>
      match tree.child directory name with
      | .error fault => .error fault
      | .ok (some _) => .error .alreadyExists
      | .ok none => .ok (tree.set (name :: directory) .directory)

/-- Whether steps, last one first, lead to a directory. -/
def reaches (tree : FileTree) (absolute : Bool) (steps : List RawText) : Bool :=
  match tree.follow (if absolute then [] else tree.home) steps with
  | .ok _ => true
  | .error _ => false

/-- Make a directory unless it is there, given how to make what is above it. -/
def provide (tree : FileTree) (absolute : Bool) (steps : List RawText)
    (above : FileTree → FileTree × Option FileFault) : FileTree × Option FileFault :=
  let settle (tree : FileTree) (fault : FileFault) : FileTree × Option FileFault :=
    if tree.reaches absolute steps then (tree, none) else (tree, some fault)
  match tree.makeDirectory absolute steps with
  | .ok made => (made, none)
  | .error .notFound =>
      match above tree with
      | (higher, some fault) => (higher, some fault)
      | (higher, none) =>
          match higher.makeDirectory absolute steps with
          | .ok made => (made, none)
          | .error fault => settle higher fault
  | .error fault => settle tree fault

/-- Make the directories at the end of steps, last one first, from the top. -/
def provideAll (absolute : Bool) : List RawText → FileTree → FileTree × Option FileFault
  | [], tree => (tree, none)
  | step :: above, tree => tree.provide absolute (step :: above) (provideAll absolute above)

/-- Make a directory and all that is missing above it. A fault may leave some
of them made. The empty path asks for nothing. -/
def makeDirectories (tree : FileTree) (path : Path) : FileTree × Option FileFault :=
  if path.text = "" then (tree, none)
  else match path.fault? with
    | some fault => (tree, some fault)
    | none => tree.provide path.isAbsolute path.steps
        (provideAll path.isAbsolute path.components.tail)

/-- Give a file another modification time. -/
def touch (tree : FileTree) (path : Path) (modified : Instant) : Except FileFault FileTree :=
  match tree.find path with
  | .error fault => .error fault
  | .ok (location, .file contents _) => .ok (tree.set location (.file contents modified))
  | .ok _ => .ok tree

/-- Remove a file, or a directory with everything in it. -/
def remove (tree : FileTree) (path : Path) : Except FileFault FileTree :=
  (tree.find path).map fun (location, _) => tree.prune location

/-- Everything below a directory, as its path from there is shown; that of a
directory ends in a slash. -/
def listing (tree : FileTree) (directory : Location) : List String :=
  tree.entries.filterMap fun (location, entry) =>
    if directory.isSuffixOf location && location.length ≠ directory.length then
      let names := (location.take (location.length - directory.length)).reverse
      let way := "/".intercalate (names.map RawText.shown)
      some (if entry = .directory then way ++ "/" else way)
    else none

end FileTree

end Parley
