import Parley.Dialogue.Basic
import Std.Data.ExtHashMap

/-!
# Dialogues with an index

A dialogue that is looked up often keeps its nodes in an array and the position
of every label beside them. Nothing but the way it is built ties the index to
the nodes. Going to a position that has no node is therefore an error of its
own, and every look-up can end in it.
-/

namespace Parley

/-- Nodes in first-seen order, and where the node of a label is. -/
structure IndexedDialogue where
  name : String
  nodes : Array Node
  index : Std.ExtHashMap String Nat

namespace IndexedDialogue

/-- A position without a node. -/
structure OutOfRange where
  position : Nat
  deriving DecidableEq, Repr

/-- A dialogue without nodes. -/
def empty (name : String) : IndexedDialogue := ⟨name, #[], ∅⟩

/-- The node at a position. -/
def nodeAt (dialogue : IndexedDialogue) (position : Nat) : Except OutOfRange Node :=
  match dialogue.nodes[position]? with
  | some node => .ok node
  | none => .error ⟨position⟩

/-- The position that the index has for a label. -/
def position? (dialogue : IndexedDialogue) (label : String) : Option Nat :=
  dialogue.index[label]?

/-- The node under a label. -/
def get (dialogue : IndexedDialogue) (label : String) : Except OutOfRange (Option Node) :=
  match dialogue.position? label with
  | none => .ok none
  | some position => (dialogue.nodeAt position).map some

/-- Put a node behind all others. -/
def append (dialogue : IndexedDialogue) (node : Node) : IndexedDialogue :=
  { dialogue with
    nodes := dialogue.nodes.push node
    index := dialogue.index.insert node.label dialogue.nodes.size }

/-- Put a node at a position. -/
def replace (dialogue : IndexedDialogue) (position : Nat) (node : Node) : IndexedDialogue :=
  { dialogue with nodes := dialogue.nodes.setIfInBounds position node }

/-- Insert a node. The node that has its label, if there is one, makes way for
it and is handed out. -/
def insert (dialogue : IndexedDialogue) (node : Node) :
    Except OutOfRange (Option Node × IndexedDialogue) :=
  match dialogue.position? node.label with
  | none => .ok (none, dialogue.append node)
  | some position =>
      (dialogue.nodeAt position).map fun old => (some old, dialogue.replace position node)

/-- The number of nodes. -/
def size (dialogue : IndexedDialogue) : Nat := dialogue.nodes.size

/-- Give the dialogue another name. -/
def rename (dialogue : IndexedDialogue) (name : String) : IndexedDialogue :=
  { dialogue with name }

/-- The dialogue without its index, unless two of its nodes share a label. -/
def toDialogue? (dialogue : IndexedDialogue) : Option Dialogue :=
  if h : (dialogue.nodes.toList.map Node.label).Nodup then
    some ⟨dialogue.name, dialogue.nodes.toList, h⟩
  else none

end IndexedDialogue

end Parley
