/-!
# Comments

A comment begins at two semicolons that stand outside quotes and reaches to
the end of the line. A double quote opens or closes a quotation; nothing
escapes it.
-/

namespace Parley.Script

/-- The part of a line in front of its comment, given whether the line begins
inside a quotation. -/
def beforeComment : Bool → List Char → List Char
  | _, [] => []
  | quoted, '"' :: rest => '"' :: beforeComment (!quoted) rest
  | false, ';' :: ';' :: _ => []
  | quoted, c :: rest => c :: beforeComment quoted rest

/-- Cut a line at its comment. -/
def stripComment (line : List Char) : List Char := beforeComment false line

end Parley.Script
