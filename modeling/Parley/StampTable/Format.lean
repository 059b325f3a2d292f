import Parley.Log
import Parley.StampTable.Basic
import Parley.Text.Split
import Parley.Text.Utf8
import Parley.Time.Timestamp

/-!
# The file of a stamp table

A table is stored as one record per file: the file name, a bar, the timestamp,
and a line feed. Names are written as they are. Reading works on bytes, takes
a line feed or a carriage return as the end of a record, skips empty records
and one byte order mark at the front, and passes over every record that it
cannot use, so that damage costs no more than the records it hits.
-/

namespace Parley

namespace StampTable

open Text

/-- The byte between the fields of a record. -/
def bar : UInt8 := 0x7C

/-- The byte written after a record. -/
def lineFeed : UInt8 := 0x0A

/-- The other byte that ends a record. -/
def carriageReturn : UInt8 := 0x0D

/-- Whether a byte divides fields. -/
def isBar (byte : UInt8) : Bool := byte == bar

/-- Whether a byte ends a record. -/
def endsRecord (byte : UInt8) : Bool := byte == lineFeed || byte == carriageReturn

/-- The record of one file. -/
def recordBytes (stamp : Stamp) : Bytes :=
  encode stamp.1 ++ bar :: encode (String.ofList (Timestamp.text stamp.2)) ++ [lineFeed]

/-- The file that stores a table. -/
def bytes (table : StampTable) : Bytes := table.stamps.flatMap recordBytes

/-- What a record says. -/
inductive Record where
  /-- There are not two fields, or one of them is no text. -/
  | malformed
  /-- The second field is no timestamp. -/
  | untimed (name : String)
  | stamp (name : String) (modified : Instant)
  deriving DecidableEq, Repr

namespace Record

/-- Read the two fields of a record. -/
def ofFields (name time : Bytes) : Record :=
  match decode? name, decode? time with
  | some name, some time =>
      match Timestamp.read? time.toList with
      | some modified => .stamp name modified
      | none => .untimed name
  | _, _ => .malformed

/-- Read a record. -/
def ofBytes (bytes : Bytes) : Record :=
  match splitOn isBar bytes with
  | [name, time] => ofFields name time
  | _ => .malformed

/-- Add what a record says to a table. -/
def addTo (table : StampTable) : Record → StampTable
  | stamp name modified => table.insert name modified
  | _ => table

/-- The remark on a record that is passed over. -/
def remarks : Record → Log
  | malformed => [⟨.debug, .table, "Skipping malformed cache line"⟩]
  | untimed name => [⟨.debug, .table, "Skipping cache entry for " ++ name⟩]
  | stamp _ _ => []

end Record

/-- Drop a byte order mark at the front. -/
def dropMark : Bytes → Bytes
  | 0xEF :: 0xBB :: 0xBF :: rest => rest
  | bytes => bytes

/-- What the records of a file say. -/
def records (bytes : Bytes) : List Record :=
  (runs endsRecord (dropMark bytes)).map Record.ofBytes

/-- The table that a file stores. A later record for a name overrides an
earlier one. -/
def ofBytes (bytes : Bytes) : StampTable :=
  (records bytes).foldl Record.addTo empty

/-- The remarks made on reading a file. -/
def remarks (bytes : Bytes) : Log :=
  (records bytes).flatMap Record.remarks

end StampTable

end Parley
