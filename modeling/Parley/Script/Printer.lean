import Parley.Dialogue.Basic
import Parley.Script.Directive

/-!
# Writing scripts

A dialogue is written as a script with one directive per line: its name, and
for each node the declaration, the text and the responses. A gap may be left
in front of each closing parenthesis, which keeps it apart from a last field
that ends in a parenthesis itself.
-/

namespace Parley

namespace Script

/-- The fields of a directive, as they stand behind its keyword. -/
def Directive.fieldTexts : Directive → List String
  | name identifier => [identifier]
  | node kind label => [kind.tag, label]
  | text said next => ["\"" ++ said ++ "\"", next]
  | response said next trigger => ["\"" ++ said ++ "\"", next] ++ trigger.toList

/-- The line of a directive. -/
def Directive.render (gap : String) (directive : Directive) : String :=
  "(" ++ " ".intercalate (directive.keyword.word :: directive.fieldTexts) ++ gap ++ ")"

/-- The lines of directives. -/
def render (gap : String) (directives : List Directive) : String :=
  String.join (directives.map fun directive => directive.render gap ++ "\n")

end Script

/-- The directives that declare a node. -/
def Node.directives (node : Node) : List Script.Directive :=
  .node node.kind node.label :: .text node.text node.next ::
    node.responses.map fun response => .response response.text response.next response.trigger

/-- The directives that declare the nodes of a dialogue. -/
def Dialogue.nodeDirectives (dialogue : Dialogue) : List Script.Directive :=
  dialogue.nodes.flatMap Node.directives

/-- The directives of a dialogue, its name first. -/
def Dialogue.directives (dialogue : Dialogue) : List Script.Directive :=
  .name dialogue.name :: dialogue.nodeDirectives

end Parley
