import Parley.Dialogue.Node
import Parley.Keyed

/-!
# Dialogues

A dialogue keeps its nodes in the order in which their labels were first seen.
No two nodes share a label: inserting a node under a known label replaces the
old node where it stands.
-/

namespace Parley

/-- A named graph of nodes with distinct labels, in first-seen order. -/
structure Dialogue where
  name : String
  nodes : List Node
  nodup_labels : (nodes.map Node.label).Nodup
  deriving DecidableEq

namespace Dialogue

/-- A dialogue without nodes. -/
def empty (name : String) : Dialogue := ⟨name, [], by simp⟩

/-- The node under a label. -/
def get? (dialogue : Dialogue) (label : String) : Option Node :=
  Keyed.find? Node.label dialogue.nodes label

/-- The position of the node under a label. -/
def indexOf? (dialogue : Dialogue) (label : String) : Option Nat :=
  dialogue.nodes.findIdx? fun node => node.label = label

/-- Insert a node, over the node that has its label if there is one. -/
def insert (dialogue : Dialogue) (node : Node) : Dialogue :=
  { dialogue with
    nodes := Keyed.upsert Node.label node dialogue.nodes
    nodup_labels := Keyed.nodup_upsert Node.label node dialogue.nodup_labels }

/-- The node that the dialogue begins at. -/
def start? (dialogue : Dialogue) : Option Node := dialogue.get? Label.start

/-- The number of nodes. -/
def size (dialogue : Dialogue) : Nat := dialogue.nodes.length

/-- The nodes other than the one that the dialogue begins at. -/
def others (dialogue : Dialogue) : List Node :=
  dialogue.nodes.filter fun node => node.label ≠ Label.start

/-- Give the dialogue another name. -/
def rename (dialogue : Dialogue) (name : String) : Dialogue := { dialogue with name }

/-- A dialogue is its name and its nodes. -/
theorem eq_iff {d e : Dialogue} : d = e ↔ d.name = e.name ∧ d.nodes = e.nodes := by
  cases d
  cases e
  simp

/-- An inserted node is found under its label, and no other label is affected. -/
theorem get?_insert (dialogue : Dialogue) (node : Node) (label : String) :
    (dialogue.insert node).get? label =
      if node.label = label then some node else dialogue.get? label :=
  Keyed.find?_upsert Node.label node dialogue.nodes label

/-- Inserting keeps the order of the labels and puts a new one at the end. -/
theorem labels_insert (dialogue : Dialogue) (node : Node) :
    (dialogue.insert node).nodes.map Node.label =
      if node.label ∈ dialogue.nodes.map Node.label then dialogue.nodes.map Node.label
      else dialogue.nodes.map Node.label ++ [node.label] :=
  Keyed.map_key_upsert Node.label node dialogue.nodes

end Dialogue

end Parley
