import Parley.Files.Tree
import Parley.Text.Blank
import Parley.Text.Hex

/-!
# Manifests

A manifest describes a file tree in plain lines, so that a tree can be handed
over as text. A directory is written `dir PATH` and a file
`file SECONDS NANOS HEX PATH`, where `HEX` are its contents and may be empty.
The path takes up the rest of the line.
-/

namespace Parley.Manifest

open Text

/-- What one line of a manifest describes. -/
inductive Item where
  | directory (path : Path)
  | file (path : Path) (contents : Bytes) (modified : Instant)
  deriving DecidableEq, Repr

namespace Item

/-- Whether a character divides the parts of a line. -/
def isGap (c : Char) : Bool := c == ' '

/-- The path that takes up the rest of a line. -/
def restPath (parts : List (List Char)) : Path :=
  ⟨" ".intercalate (parts.map String.ofList)⟩

/-- Read one line. -/
def read? (line : List Char) : Option Item :=
  match splitOn isGap line with
  | ['d', 'i', 'r'] :: part :: parts => some (.directory (restPath (part :: parts)))
  | ['f', 'i', 'l', 'e'] :: seconds :: nanos :: hex :: part :: parts => do
      let seconds ← (String.ofList seconds).toInt?
      let nanos ← (String.ofList nanos).toNat?
      let contents ← ofHex? hex
      some (.file (restPath (part :: parts)) contents ⟨seconds, nanos⟩)
  | _ => none

/-- The line of an entry. A device has none. -/
def text? (location : Location) : Entry → Option String
  | .directory => some ("dir " ++ way)
  | .file contents modified =>
      some ("file " ++ toString modified.seconds ++ " " ++ toString modified.nanos ++ " " ++
        String.ofList (toHex contents) ++ " " ++ way)
  | .fullDevice => none
where
  way : String := "/" ++ "/".intercalate (location.reverse.map RawText.shown)

/-- Add what a line describes to a tree, with the directories above it. -/
def addTo (tree : FileTree) : Item → Except FileFault FileTree
  | directory path =>
      match tree.makeDirectories path with
      | (tree, none) => .ok tree
      | (_, some fault) => .error fault
  | file path contents modified =>
      match tree.write path contents with
      | .error fault => .error fault
      | .ok tree => tree.touch path modified

end Item

/-- The tree that lines describe. Lines that describe nothing are passed over,
and so is what cannot be added. -/
def read (tree : FileTree) (lines : List (List Char)) : FileTree :=
  (lines.filterMap Item.read?).foldl (fun tree item => (item.addTo tree).toOption.getD tree) tree

/-- The lines that describe a tree. -/
def lines (tree : FileTree) : List String :=
  tree.entries.filterMap fun (location, entry) => Item.text? location entry

end Parley.Manifest
