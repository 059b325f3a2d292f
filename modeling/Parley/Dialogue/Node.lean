/-!
# Nodes of a dialogue

A dialogue is a graph of labelled nodes. A statement says its text and goes on
to its successor; a question says its text and goes on to the successor of the
response that is picked. Both carry all fields: a question keeps the successor
it was declared with and a statement its responses, although neither is used.

Two labels have a fixed meaning. A dialogue begins at `START`, which scripts
may spell `start`, and ends when a successor is `QUIT`, which scripts may
spell `quit`. No node is declared under the second alias: a node called `quit`
keeps that label, and no successor leads to it.
-/

namespace Parley

namespace Label

/-- The label that a dialogue begins at. -/
def start : String := "START"

/-- The successor that ends a dialogue. -/
def quit : String := "QUIT"

/-- The label a node is declared under. -/
def ofNode (label : String) : String :=
  if label = "start" then start else label

/-- The label a successor leads to. -/
def ofSuccessor (label : String) : String :=
  if label = "start" then start else if label = "quit" then quit else label

theorem ofNode_ne_alias (label : String) : ofNode label ≠ "start" := by
  unfold ofNode
  split
  · decide
  · assumption

theorem ofSuccessor_ne_alias (label : String) :
    ofSuccessor label ≠ "start" ∧ ofSuccessor label ≠ "quit" := by
  unfold ofSuccessor
  split
  · decide
  · split
    · decide
    · constructor <;> assumption

end Label

/-- What a node does once its text is said. -/
inductive NodeKind where
  | statement
  | question
  deriving DecidableEq, Repr

namespace NodeKind

/-- The letter that declares a kind in a script. -/
def tag : NodeKind → String
  | statement => "s"
  | question => "q"

/-- The kind that a letter declares. -/
def ofTag? (tag : String) : Option NodeKind :=
  if tag = "s" then some statement else if tag = "q" then some question else none

@[simp] theorem ofTag?_tag (kind : NodeKind) : ofTag? kind.tag = some kind := by
  cases kind <;> rfl

end NodeKind

/-- One answer to a question. -/
structure Response where
  text : String
  next : String
  /-- The callback that fires when this response is picked. -/
  trigger : Option String := none
  deriving DecidableEq, Repr

/-- One step of a dialogue. -/
structure Node where
  label : String
  kind : NodeKind
  text : String
  next : String
  responses : List Response := []
  deriving DecidableEq, Repr

end Parley
