import Parley.Dialogue.Basic
import Parley.Log
import Parley.Script.Comment
import Parley.Script.Directive

/-!
# Assembling a dialogue from directives

A script is read line by line. A `node` opens a draft that collects the
`text`, `resp` and `trig` lines up to the next `node` or the end; closing the
draft turns it into a node of the dialogue. The last `text` of a draft counts,
and a draft without one cannot be closed. The last `name` counts, wherever it
stands.
-/

namespace Parley.Script

open Text

/-- Where a directive stands. -/
structure Place where
  line : Nat
  raw : String
  deriving DecidableEq, Repr

/-- The error that a fault at a place of a file amounts to. -/
def Place.error (place : Place) (file : String) (fault : Fault) : Error :=
  ⟨file, place.line, place.raw, fault⟩

/-- A line that is not empty once its comment is gone, with what it says. -/
structure Line where
  place : Place
  content : Except Fault Directive

/-- Read one line, unless nothing but blanks and a comment is on it. -/
def Line.read? (raw : List Char) (number : Nat) : Option Line :=
  match trim (stripComment raw) with
  | [] => none
  | c :: cs => some ⟨⟨number, String.ofList (trim raw)⟩, Directive.read (c :: cs)⟩

/-- The lines of a source that say something. All lines count for the numbers. -/
def readLines (src : List Char) : List Line :=
  ((lines src).zipIdx 1).filterMap fun (raw, number) => Line.read? raw number

/-- A node whose end has not been seen. -/
structure Draft where
  /-- Where the node was declared. -/
  place : Place
  kind : NodeKind
  label : String
  /-- The text and the successor of the last `text` line. -/
  body : Option (String × String) := none
  responses : List Response := []
  deriving DecidableEq, Repr

namespace Draft

/-- The node that a draft describes, once it has a text. -/
def node? (draft : Draft) : Option Node :=
  draft.body.map fun (text, next) => ⟨draft.label, draft.kind, text, next, draft.responses⟩

/-- What a finished draft carries in vain: the responses of a statement, the
successor of a question. -/
def remarks (draft : Draft) (file : String) : Log :=
  let site := file ++ ":" ++ toString draft.place.line ++ ": "
  match draft.kind with
  | .statement =>
      if draft.responses.isEmpty then []
      else [⟨.warn, .script,
        site ++ "statement `" ++ draft.label ++ "` has responses, they will be ignored"⟩]
  | .question =>
      [⟨.debug, .script,
        site ++ "question `" ++ draft.label ++ "` has a successor, it will be ignored"⟩]

end Draft

/-- What has been read of a script. -/
structure Assembly where
  name : Option String := none
  dialogue : Dialogue := .empty ""
  draft : Option Draft := none
  log : Log := []

namespace Assembly

/-- The remark on a node that takes the place of an earlier one. -/
def redefinition (assembly : Assembly) (file : String) (node : Node) : Log :=
  match assembly.dialogue.get? node.label with
  | none => []
  | some old => [⟨.debug, .script, file ++ ": node `" ++ old.label ++ "` redefined"⟩]

/-- Close the open draft, if there is one. -/
def close (assembly : Assembly) (file : String) : Except Error Assembly :=
  match assembly.draft with
  | none => .ok assembly
  | some draft =>
      match draft.node? with
      | none => .error (draft.place.error file (.noText draft.label))
      | some node => .ok { assembly with
          dialogue := assembly.dialogue.insert node
          draft := none
          log := assembly.log ++ draft.remarks file ++ assembly.redefinition file node }

/-- Change the open draft as a directive says. -/
def amend (assembly : Assembly) (file : String) (place : Place) (keyword : Keyword)
    (change : Draft → Draft) : Except Error Assembly :=
  match assembly.draft with
  | none => .error (place.error file (.outsideNode keyword))
  | some draft => .ok { assembly with draft := some (change draft) }

/-- Follow one directive. -/
def apply (assembly : Assembly) (file : String) (place : Place) (directive : Directive) :
    Except Error Assembly :=
  match directive with
  | .name identifier => .ok { assembly with name := some identifier }
  | .node kind label =>
      match assembly.close file with
      | .error error => .error error
      | .ok closed => .ok { closed with draft := some { place, kind, label := Label.ofNode label } }
  | .text text next =>
      assembly.amend file place directive.keyword fun draft =>
        { draft with body := some (text, Label.ofSuccessor next) }
  | .response text next trigger =>
      assembly.amend file place directive.keyword fun draft =>
        { draft with
          responses := draft.responses ++ [⟨text, Label.ofSuccessor next, trigger⟩] }

/-- Follow one line. -/
def step (assembly : Assembly) (file : String) (line : Line) : Except Error Assembly :=
  match line.content with
  | .error fault => .error (line.place.error file fault)
  | .ok directive => assembly.apply file line.place directive

/-- Follow all lines and close the last draft. An error ends the assembly as it
was in front of the error. -/
def run (file : String) : Assembly → List Line → Assembly × Option Error
  | assembly, [] =>
      match assembly.close file with
      | .ok closed => (closed, none)
      | .error error => (assembly, some error)
  | assembly, line :: rest =>
      match assembly.step file line with
      | .ok next => run file next rest
      | .error error => (assembly, some error)

end Assembly

end Parley.Script
