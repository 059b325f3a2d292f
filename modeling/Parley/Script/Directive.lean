import Parley.Dialogue.Node
import Parley.Script.Fault
import Parley.Text.Blank

/-!
# Directives

A directive is one line `(keyword fields)`. The fields are words, and `text`,
`resp` and `trig` begin with a quotation that reaches from the first double
quote of the line to the last one. The closing parenthesis may be missing or
repeated, and fields that no directive asks for are ignored.
-/

namespace Parley.Script

open Text

/-- One line of a script. -/
inductive Directive where
  | name (identifier : String)
  | node (kind : NodeKind) (label : String)
  | text (text next : String)
  | response (text next : String) (trigger : Option String)
  deriving DecidableEq, Repr

namespace Directive

/-- The keyword that spells a directive. -/
def keyword : Directive → Keyword
  | name _ => .name
  | node _ _ => .node
  | text _ _ => .text
  | response _ _ none => .resp
  | response _ _ (some _) => .trig

/-- Whether a character belongs to the keyword at the front of a directive. -/
def isKeywordChar (c : Char) : Bool := !(isBlank c || c == ')' || c == '"')

/-- Whether a character is a double quote. -/
def isQuote (c : Char) : Bool := c == '"'

/-- Whether a character is a closing parenthesis. -/
def isClosing (c : Char) : Bool := c == ')'

/-- The words of an argument list, without the closing parentheses at its end. -/
def fields (args : List Char) : List String :=
  (words (dropEndWhile isClosing (trim args))).map String.ofList

/-- The text between the first and the last quote, and what follows it. One
quote alone encloses nothing. -/
def quotation? (args : List Char) : Option (String × List Char) :=
  match args.dropWhile (!isQuote ·) with
  | [] => none
  | _ :: body =>
      match body.reverse.dropWhile (!isQuote ·) with
      | [] => none
      | _ :: inner => some (String.ofList inner.reverse, takeEndWhile (!isQuote ·) body)

/-- A `name` directive takes the first word. -/
def readName (args : List Char) : Except Fault Directive :=
  match fields args with
  | identifier :: _ => .ok (.name identifier)
  | [] => .error (.missing .name .identifier)

/-- A `node` directive takes a kind and a label. A missing label is noticed
before an unknown kind. -/
def readNode (args : List Char) : Except Fault Directive :=
  match fields args with
  | [] => .error (.missing .node .kind)
  | [_] => .error (.missing .node .label)
  | tag :: label :: _ =>
      match NodeKind.ofTag? tag with
      | some kind => .ok (.node kind label)
      | none => .error (.unknownKind tag)

/-- A `text` directive takes a quotation and the last word behind it. -/
def readText (args : List Char) : Except Fault Directive :=
  match quotation? args with
  | none => .error (.missing .text .quotedText)
  | some (said, rest) =>
      match (fields rest).getLast? with
      | some next => .ok (.text said next)
      | none => .error (.missing .text .successor)

/-- A `resp` directive takes a quotation and the first word behind it. -/
def readResp (args : List Char) : Except Fault Directive :=
  match quotation? args with
  | none => .error (.missing .resp .quotedText)
  | some (said, rest) =>
      match fields rest with
      | next :: _ => .ok (.response said next none)
      | [] => .error (.missing .resp .successor)

/-- A `trig` directive takes a quotation and the first two words behind it. -/
def readTrig (args : List Char) : Except Fault Directive :=
  match quotation? args with
  | none => .error (.missing .trig .quotedText)
  | some (said, rest) =>
      match fields rest with
      | next :: trigger :: _ => .ok (.response said next (some trigger))
      | [_] => .error (.missing .trig .trigger)
      | [] => .error (.missing .trig .successor)

/-- Read the arguments that a keyword asks for. -/
def readArgs : Keyword → List Char → Except Fault Directive
  | .name => readName
  | .node => readNode
  | .text => readText
  | .resp => readResp
  | .trig => readTrig

/-- Read a line that has neither a comment nor blanks around it. -/
def read : List Char → Except Fault Directive
  | '(' :: body =>
      match Keyword.ofWord? (String.ofList (body.takeWhile isKeywordChar)) with
      | some keyword => readArgs keyword (body.dropWhile isKeywordChar)
      | none => .error .unrecognized
  | _ => .error .unrecognized

end Directive

end Parley.Script
