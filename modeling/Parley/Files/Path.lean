import Parley.Files.Fault
import Parley.Text.Raw
import Parley.Text.Split

/-!
# Paths

A path is kept as it was given, because that is how messages show it. It is a
raw text, as are the names on it. Its steps are the names between the slashes,
the last one first: the tail of the steps leads to the directory that holds
what the path names. Repeated and trailing slashes give no step, and neither
does a step `.` count where a path is taken apart into names.
-/

namespace Parley

/-- A way to a file or directory, as written. -/
structure Path where
  text : RawText
  deriving DecidableEq, Repr

namespace Path

open Text

/-- A path as messages show it. -/
def shown (path : Path) : String := path.text.shown

/-- The slash. -/
def slash : UInt8 := 0x2F

/-- The dot. -/
def dot : UInt8 := 0x2E

/-- Whether a byte divides the steps of a path. -/
def isSlash (byte : UInt8) : Bool := byte == slash

/-- Whether a path starts at the root. -/
def isAbsolute (path : Path) : Bool := path.text.bytes.head?.any isSlash

/-- Whether a path ends in a slash, which only directories may. -/
def endsInSlash (path : Path) : Bool := path.text.bytes.getLast?.any isSlash

/-- The number of bytes that a path may have. -/
def lengthLimit : Nat := 4095

/-- What is wrong with a path as such, whatever it leads to. A path cannot hold
a NUL, and its length is bounded as a whole. -/
def fault? (path : Path) : Option FileFault :=
  if 0 ∈ path.text.bytes then some .nulInPath
  else if lengthLimit < path.text.bytes.length then some .nameTooLong
  else none

/-- The names between the slashes, last one first. -/
def steps (path : Path) : List RawText := ((runs isSlash path.text.bytes).map RawText.mk).reverse

/-- The steps that lead somewhere, last one first. -/
def components (path : Path) : List RawText := path.steps.filter (· ≠ ".")

/-- The last name of a path, unless it leads upwards or nowhere. -/
def fileName? (path : Path) : Option RawText :=
  match path.components with
  | name :: _ => if name = ".." then none else some name
  | [] => none

/-- Whether a byte divides a file name from its extension. -/
def isDot (byte : UInt8) : Bool := byte == dot

/-- A file name in front of and behind its last dot. A dot at the front alone
divides nothing. -/
def splitName (name : RawText) : RawText × Option RawText :=
  match (dropEndWhile (!isDot ·) name.bytes).dropLast with
  | [] => (name, none)
  | byte :: rest => (⟨byte :: rest⟩, some ⟨takeEndWhile (!isDot ·) name.bytes⟩)

/-- The last name without its extension. -/
def stem? (path : Path) : Option RawText := path.fileName?.map fun name => (splitName name).1

/-- The extension of the last name. -/
def extension? (path : Path) : Option RawText := path.fileName?.bind fun name => (splitName name).2

/-- Follow one path from the end of another. An absolute path starts afresh. -/
def join (base path : Path) : Path :=
  if path.isAbsolute then path
  else if base.text = "" || base.endsInSlash then ⟨base.text ++ path.text⟩
  else ⟨base.text ++ "/" ++ path.text⟩

/-- Skip slashes and steps `.` at the front of a path. -/
def skipEmptySteps : Bytes → Bytes
  | 0x2F :: rest => skipEmptySteps rest
  | [0x2E] => []
  | 0x2E :: 0x2F :: rest => skipEmptySteps rest
  | rest => rest

/-- What is left of a path behind the given steps, first one first. -/
def dropSteps? : List RawText → Bytes → Option Bytes
  | [], bytes => some (skipEmptySteps bytes)
  | name :: names, bytes =>
      let here := skipEmptySteps bytes
      if here.takeWhile (!isSlash ·) = name.bytes then
        dropSteps? names (here.dropWhile (!isSlash ·))
      else none

/-- A path as seen from the directory with the given names, first one first:
relative if it leads below that directory, else as it is. -/
def relativeTo (path : Path) (names : List RawText) : Path :=
  if path.isAbsolute then
    match dropSteps? names path.text.bytes with
    | some rest => ⟨⟨rest⟩⟩
    | none => path
  else path

end Path

end Parley
