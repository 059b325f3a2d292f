import Parley.Dialogue.Basic
import Parley.Script.Basic
import Parley.Text.Utf8

/-!
# Artifacts

A dialogue is compiled to one macro call per line: a header with its name and
its size, then the node that it begins at, then all others in order. A
question is followed by its responses, numbered from zero. Texts are copied
as they are; nothing is escaped.
-/

namespace Parley

namespace Artifact

/-- One macro call, with its line feed. -/
def call (callee : String) (arguments : List String) : String :=
  callee ++ "(" ++ String.intercalate ", " arguments ++ ");\n"

/-- A text in double quotes. -/
def quote (text : String) : String := "\"" ++ text ++ "\""

/-- The line that opens an artifact, with the name of its dialogue and the number
of nodes. -/
def header (name : String) (size : Nat) : String :=
  call "T_INIT" [name, toString size]

/-- The line of the response at a position of a question. -/
def responseLine (name label : String) (position : Nat) (response : Response) : String :=
  match response.trigger with
  | some trigger =>
      call "T_RESPONSE_TRIGGER" [name, label, "trigger_" ++ toString position,
        quote response.text, response.next, "cb_trigger_" ++ trigger, "null"]
  | none =>
      call "T_RESPONSE" [name, label, "option_" ++ toString position,
        quote response.text, response.next]

/-- The lines of a node. -/
def nodeLines (name : String) (node : Node) : List String :=
  match node.kind with
  | .statement => [call "T_STATEMENT" [name, node.label, quote node.text, node.next]]
  | .question =>
      call "T_QUESTION" [name, node.label, quote node.text, toString node.responses.length] ::
        node.responses.zipIdx.map fun (response, position) =>
          responseLine name node.label position response

/-- The nodes in the order in which an artifact shows them. -/
def order (dialogue : Dialogue) : List Node :=
  dialogue.start?.toList ++ dialogue.others

/-- All lines of an artifact. -/
def lines (dialogue : Dialogue) : List String :=
  header dialogue.name dialogue.size :: (order dialogue).flatMap (nodeLines dialogue.name)

end Artifact

/-- The artifact of a dialogue. -/
def Dialogue.artifact (dialogue : Dialogue) : String :=
  String.join (Artifact.lines dialogue)

/-- The artifact of a source. -/
def Script.compile (file src : String) : Except Script.Error String :=
  (Script.parse file src).map Dialogue.artifact

end Parley
