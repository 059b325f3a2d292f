import Parley.Text.Split

/-!
# Blank characters, words and lines

Scripts are laid out with every character that Unicode classes as white space,
not only those of ASCII. Zero width spaces and the byte order mark are not
blank. A line ends at a line feed; a carriage return in front of it is a blank
like any other and goes when the line is trimmed.
-/

namespace Parley.Text

/-- The code points with the Unicode property `White_Space`, as closed ranges. -/
def blankRanges : List (Nat × Nat) :=
  [(0x0009, 0x000D), (0x0020, 0x0020), (0x0085, 0x0085), (0x00A0, 0x00A0), (0x1680, 0x1680),
    (0x2000, 0x200A), (0x2028, 0x2029), (0x202F, 0x202F), (0x205F, 0x205F), (0x3000, 0x3000)]

/-- Whether a character is blank. -/
def isBlank (c : Char) : Bool :=
  blankRanges.any fun range => range.1 ≤ c.toNat && c.toNat ≤ range.2

/-- Remove the blanks at both ends. -/
def trim (cs : List Char) : List Char :=
  dropEndWhile isBlank (cs.dropWhile isBlank)

/-- The maximal runs of characters that are not blank. -/
def words (cs : List Char) : List (List Char) :=
  runs isBlank cs

/-- Whether a character ends a line. -/
def isLineFeed (c : Char) : Bool := c == '\n'

/-- The lines of a text, without their line feeds. A final line feed opens no
further line. -/
def lines (cs : List Char) : List (List Char) :=
  terminated isLineFeed cs

end Parley.Text
