import Parley.Artifact.Buffer
import Parley.Dialogue.Indexed

/-!
# Artifacts of indexed dialogues

The node that an artifact begins with is looked up in the index. All others are
taken from the nodes as they stand. An index that points beside its nodes would
therefore show here, as a node that is missing or shown twice, or as a position
without a node.
-/

namespace Parley.IndexedDialogue

/-- The node that the dialogue begins at. -/
def start (dialogue : IndexedDialogue) : Except OutOfRange (Option Node) :=
  dialogue.get Label.start

/-- The nodes other than the one that the dialogue begins at. -/
def others (dialogue : IndexedDialogue) : List Node :=
  dialogue.nodes.toList.filter fun node => node.label ≠ Label.start

/-- All lines of the artifact. -/
def lines (dialogue : IndexedDialogue) : Except OutOfRange (List String) :=
  dialogue.start.map fun start =>
    Artifact.header dialogue.name dialogue.size ::
      (start.toList ++ dialogue.others).flatMap (Artifact.nodeLines dialogue.name)

/-- The artifact of the dialogue. -/
def artifact (dialogue : IndexedDialogue) : Except OutOfRange String :=
  dialogue.lines.map String.join

/-- Write the artifact into a space of bounded size. -/
def writeInto (dialogue : IndexedDialogue) (capacity : Nat) : Except OutOfRange (Buffer × Bool) :=
  dialogue.lines.map fun lines => (Buffer.empty capacity).writeAll (lines.map Text.encode)

end Parley.IndexedDialogue
