import Parley.Artifact.Indexed
import Parley.Proofs.Artifacts
import Parley.Proofs.RoundTrips

/-!
# The index of a dialogue

An indexed dialogue keeps a dialogue if both have the same nodes and the index
knows the position of each label among them. Inserting a node on both sides
keeps this, and so an index that was built up from nothing never points beside
its node. All that is known about dialogues then holds of indexed ones: what a
label means, which node makes way, in which order the labels stand, and what
the artifact is.
-/

namespace Parley

/-! ## Positions of labels -/

/-- An element goes to the position of its key. -/
theorem Keyed.upsert_eq_set {α κ : Type} [DecidableEq κ] {key : α → κ} {a : α} {l : List α}
    {position : Nat} (h : l.findIdx? (fun b => key b = key a) = some position) :
    upsert key a l = l.set position a := by
  induction l generalizing position with
  | nil => simp at h
  | cons b rest ih =>
      rw [List.findIdx?_cons] at h
      by_cases hkey : key b = key a
      · have hfirst : position = 0 := by simpa [hkey, eq_comm] using h
        rw [upsert, if_pos hkey, hfirst, List.set_cons_zero]
      · rw [if_neg (by simpa using hkey)] at h
        obtain ⟨before, hbefore, rfl⟩ := Option.map_eq_some_iff.mp h
        rw [upsert, if_neg hkey, ih hbefore, List.set_cons_succ]

namespace Dialogue

theorem indexOf?_eq_findIdx? (dialogue : Dialogue) (label : String) :
    dialogue.indexOf? label = (dialogue.nodes.map Node.label).findIdx? (· = label) := by
  rw [List.findIdx?_map]
  rfl

/-- A label is at a position if the node there has it. No other node does. -/
theorem indexOf?_eq_some_iff {dialogue : Dialogue} {label : String} {position : Nat} :
    dialogue.indexOf? label = some position ↔
      ∃ h : position < dialogue.nodes.length, dialogue.nodes[position].label = label := by
  rw [indexOf?_eq_findIdx?, List.findIdx?_eq_some_iff_getElem]
  simp only [List.length_map, List.getElem_map, decide_eq_true_eq]
  constructor
  · rintro ⟨hposition, hlabel, -⟩
    exact ⟨hposition, hlabel⟩
  · rintro ⟨hposition, hlabel⟩
    refine ⟨hposition, hlabel, ?_⟩
    intro earlier hearlier hsame
    have hdistinct := List.nodup_iff_getElem?_ne_getElem?.mp dialogue.nodup_labels earlier position
      hearlier (by simpa using hposition)
    apply hdistinct
    simp [hposition, Nat.lt_trans hearlier hposition, hsame, hlabel]

theorem get?_eq_bind_indexOf? (dialogue : Dialogue) (label : String) :
    dialogue.get? label = (dialogue.indexOf? label).bind (dialogue.nodes[·]?) :=
  List.find?_eq_bind_findIdx?_getElem?

theorem get?_eq_none {dialogue : Dialogue} {label : String}
    (h : dialogue.indexOf? label = none) : dialogue.get? label = none := by
  rw [get?_eq_bind_indexOf?, h, Option.bind_none]

/-- Inserting replaces a node at the position of its label. -/
theorem nodes_insert_of_indexOf? {dialogue : Dialogue} {node : Node} {position : Nat}
    (h : dialogue.indexOf? node.label = some position) :
    (dialogue.insert node).nodes = dialogue.nodes.set position node :=
  Keyed.upsert_eq_set h

theorem not_mem_labels_of_indexOf? {dialogue : Dialogue} {label : String}
    (h : dialogue.indexOf? label = none) : label ∉ dialogue.nodes.map Node.label := by
  rw [indexOf?_eq_findIdx?, List.findIdx?_eq_none_iff] at h
  intro hmem
  simpa using h label hmem

/-- A new label gets the position behind all others. -/
theorem indexOf?_insert_of_none {dialogue : Dialogue} {node : Node}
    (h : dialogue.indexOf? node.label = none) (label : String) :
    (dialogue.insert node).indexOf? label =
      if node.label = label then some dialogue.size else dialogue.indexOf? label := by
  have hnew := not_mem_labels_of_indexOf? h
  rw [indexOf?_eq_findIdx?, labels_insert, if_neg hnew, List.findIdx?_append,
    ← indexOf?_eq_findIdx?]
  by_cases hlabel : node.label = label
  · rw [← hlabel, h]
    simp [size]
  · simp [hlabel]

/-- A known label stays where it is. -/
theorem indexOf?_insert_of_some {dialogue : Dialogue} {node : Node} {position : Nat}
    (h : dialogue.indexOf? node.label = some position) (label : String) :
    (dialogue.insert node).indexOf? label = dialogue.indexOf? label := by
  obtain ⟨hposition, hlabel⟩ := indexOf?_eq_some_iff.mp h
  have hknown : node.label ∈ dialogue.nodes.map Node.label := by
    rw [← hlabel]
    exact List.mem_map_of_mem (List.getElem_mem hposition)
  rw [indexOf?_eq_findIdx?, labels_insert, if_pos hknown, ← indexOf?_eq_findIdx?]

end Dialogue

namespace IndexedDialogue

open Dialogue

/-! ## Positions -/

/-- An index is what it has for the labels. -/
theorem index_ext {indexed other : IndexedDialogue}
    (h : ∀ label, indexed.position? label = other.position? label) :
    indexed.index = other.index := by
  apply Std.ExtHashMap.ext_getElem?
  exact h

theorem position?_append (indexed : IndexedDialogue) (node : Node) (label : String) :
    (indexed.append node).position? label =
      if node.label = label then some indexed.nodes.size else indexed.position? label := by
  rw [position?, append, Std.ExtHashMap.getElem?_insert, position?]
  simp only [beq_iff_eq]

theorem position?_replace (indexed : IndexedDialogue) (position : Nat) (node : Node)
    (label : String) :
    (indexed.replace position node).position? label = indexed.position? label := rfl

/-! ## Keeping a dialogue -/

/-- Whether an indexed dialogue is a dialogue with the positions of its labels. -/
structure Keeps (indexed : IndexedDialogue) (dialogue : Dialogue) : Prop where
  name : indexed.name = dialogue.name
  nodes : indexed.nodes.toList = dialogue.nodes
  index : ∀ label, indexed.position? label = dialogue.indexOf? label

theorem keeps_empty (name : String) : (empty name).Keeps (Dialogue.empty name) where
  name := rfl
  nodes := rfl
  index _ := Std.ExtHashMap.getElem?_empty

namespace Keeps

variable {indexed : IndexedDialogue} {dialogue : Dialogue}

theorem nodes_eq (h : indexed.Keeps dialogue) : indexed.nodes = dialogue.nodes.toArray := by
  rw [← h.nodes, Array.toArray_toList]

theorem size_eq (h : indexed.Keeps dialogue) : indexed.nodes.size = dialogue.size := by
  rw [h.nodes_eq, List.size_toArray, Dialogue.size]

/-- The index points to the node that has the label. -/
theorem index_iff (h : indexed.Keeps dialogue) (label : String) (position : Nat) :
    indexed.position? label = some position ↔
      ∃ hposition : position < indexed.nodes.size, indexed.nodes[position].label = label := by
  rw [h.index, indexOf?_eq_some_iff]
  simp only [h.nodes_eq, List.size_toArray, List.getElem_toArray]

/-- No position that the index knows is out of range. -/
theorem nodeAt (h : indexed.Keeps dialogue) {label : String} {position : Nat}
    (hposition : dialogue.indexOf? label = some position) :
    ∃ node, indexed.nodeAt position = .ok node ∧ dialogue.get? label = some node := by
  obtain ⟨hrange, -⟩ := indexOf?_eq_some_iff.mp hposition
  have hnode := List.getElem?_eq_getElem hrange
  refine ⟨dialogue.nodes[position], ?_, ?_⟩
  · rw [IndexedDialogue.nodeAt, h.nodes_eq, List.getElem?_toArray, hnode]
  · rw [get?_eq_bind_indexOf?, hposition, Option.bind_some, hnode]

theorem get (h : indexed.Keeps dialogue) (label : String) :
    indexed.get label = .ok (dialogue.get? label) := by
  unfold IndexedDialogue.get
  rw [h.index]
  cases hposition : dialogue.indexOf? label with
  | none => rw [get?_eq_none hposition]
  | some position =>
      obtain ⟨node, hnode, hget⟩ := h.nodeAt hposition
      simp only [hget, hnode, Except.map]

theorem others (h : indexed.Keeps dialogue) : indexed.others = dialogue.others := by
  rw [IndexedDialogue.others, h.nodes, Dialogue.others]

/-- The index leads to the node that the artifact begins with, so the lines are
those of the dialogue. -/
theorem lines (h : indexed.Keeps dialogue) : indexed.lines = .ok (Artifact.lines dialogue) := by
  rw [IndexedDialogue.lines, start, h.get, Except.map, h.others, h.name, IndexedDialogue.size,
    h.size_eq]
  rfl

theorem artifact (h : indexed.Keeps dialogue) : indexed.artifact = .ok dialogue.artifact := by
  rw [IndexedDialogue.artifact, h.lines]
  rfl

theorem writeInto (h : indexed.Keeps dialogue) (capacity : Nat) :
    indexed.writeInto capacity = .ok (dialogue.writeInto capacity) := by
  rw [IndexedDialogue.writeInto, h.lines]
  rfl

theorem append (h : indexed.Keeps dialogue) {node : Node}
    (hnew : dialogue.indexOf? node.label = none) :
    (indexed.append node).Keeps (dialogue.insert node) where
  name := h.name
  nodes := by
    rw [IndexedDialogue.append, Array.toList_push, h.nodes]
    exact (Keyed.upsert_of_not_mem (not_mem_labels_of_indexOf? hnew)).symm
  index label := by
    rw [position?_append, h.index, h.size_eq, indexOf?_insert_of_none hnew]

theorem replace (h : indexed.Keeps dialogue) {node : Node} {position : Nat}
    (hposition : dialogue.indexOf? node.label = some position) :
    (indexed.replace position node).Keeps (dialogue.insert node) where
  name := h.name
  nodes := by
    rw [IndexedDialogue.replace, Array.toList_setIfInBounds, h.nodes,
      nodes_insert_of_indexOf? hposition]
  index label := by
    rw [position?_replace, h.index, indexOf?_insert_of_some hposition]

/-- Inserting never fails, hands out the node that makes way, and goes on
keeping the dialogue. -/
theorem insert (h : indexed.Keeps dialogue) (node : Node) :
    ∃ next, indexed.insert node = .ok (dialogue.get? node.label, next) ∧
      next.Keeps (dialogue.insert node) := by
  unfold IndexedDialogue.insert
  rw [h.index]
  cases hposition : dialogue.indexOf? node.label with
  | none => exact ⟨indexed.append node, by rw [get?_eq_none hposition], h.append hposition⟩
  | some position =>
      obtain ⟨old, hold, hget⟩ := h.nodeAt hposition
      refine ⟨indexed.replace position node, ?_, h.replace hposition⟩
      simp only [hget, hold, Except.map]

theorem rename (h : indexed.Keeps dialogue) (name : String) :
    (indexed.rename name).Keeps (dialogue.rename name) where
  name := rfl
  nodes := h.nodes
  index := h.index

theorem toDialogue? (h : indexed.Keeps dialogue) : indexed.toDialogue? = some dialogue := by
  have hlabels : (indexed.nodes.toList.map Node.label).Nodup := h.nodes ▸ dialogue.nodup_labels
  rw [IndexedDialogue.toDialogue?, dif_pos hlabels]
  exact congrArg some (Dialogue.eq_iff.mpr ⟨h.name, h.nodes⟩)

/-- There is one index for the nodes of a dialogue. -/
theorem eq_iff {other : IndexedDialogue} {dialogue' : Dialogue} (h : indexed.Keeps dialogue)
    (h' : other.Keeps dialogue') :
    indexed = other ↔ indexed.name = other.name ∧ indexed.nodes = other.nodes := by
  constructor
  · rintro rfl
    exact ⟨rfl, rfl⟩
  · rintro ⟨hname, hnodes⟩
    have hdialogue : dialogue = dialogue' := by
      rw [Dialogue.eq_iff, ← h.name, ← h'.name, ← h.nodes, ← h'.nodes, hname, hnodes]
      exact ⟨rfl, rfl⟩
    have hindex : indexed.index = other.index := by
      apply index_ext
      intro label
      rw [h.index, h'.index, hdialogue]
    cases indexed
    cases other
    simp_all

end Keeps

/-! ## Dialogues by their changes -/

/-- The indexed dialogue after a change. -/
def change (indexed : IndexedDialogue) : Change → Except OutOfRange IndexedDialogue
  | .insert node => (indexed.insert node).map Prod.snd
  | .rename name => .ok (indexed.rename name)

/-- The indexed dialogue after changes, one after the other. -/
def changeAll : IndexedDialogue → List Change → Except OutOfRange IndexedDialogue
  | indexed, [] => .ok indexed
  | indexed, change :: rest =>
      match indexed.change change with
      | .ok next => next.changeAll rest
      | .error fault => .error fault

theorem Keeps.change {indexed : IndexedDialogue} {dialogue : Dialogue}
    (h : indexed.Keeps dialogue) (change : Change) :
    ∃ next, indexed.change change = .ok next ∧ next.Keeps (dialogue.change change) := by
  cases change with
  | insert node =>
      obtain ⟨next, hinsert, hnext⟩ := h.insert node
      exact ⟨next, by rw [IndexedDialogue.change, hinsert]; rfl, hnext⟩
  | rename name => exact ⟨indexed.rename name, rfl, h.rename name⟩

theorem Keeps.changeAll {indexed : IndexedDialogue} {dialogue : Dialogue}
    (h : indexed.Keeps dialogue) (changes : List Change) :
    ∃ last, indexed.changeAll changes = .ok last ∧
      last.Keeps (changes.foldl Dialogue.change dialogue) := by
  induction changes generalizing indexed dialogue with
  | nil => exact ⟨indexed, rfl, h⟩
  | cons change rest ih =>
      obtain ⟨next, hchange, hnext⟩ := h.change change
      obtain ⟨last, hlast, hkeeps⟩ := ih hnext
      exact ⟨last, by rw [IndexedDialogue.changeAll, hchange]; exact hlast, hkeeps⟩

theorem changeAll_append (indexed : IndexedDialogue) (changes more : List Change) :
    indexed.changeAll (changes ++ more) =
      match indexed.changeAll changes with
      | .ok next => next.changeAll more
      | .error fault => .error fault := by
  induction changes generalizing indexed with
  | nil => rfl
  | cons change rest ih =>
      rw [List.cons_append, changeAll, changeAll]
      cases indexed.change change with
      | error fault => rfl
      | ok next => exact ih next

/-- The indexed dialogue that changes make of an empty one. -/
def ofChanges (name : String) (changes : List Change) : Except OutOfRange IndexedDialogue :=
  (empty name).changeAll changes

theorem exists_keeps_ofChanges (name : String) (changes : List Change) :
    ∃ indexed, ofChanges name changes = .ok indexed ∧
      indexed.Keeps (Dialogue.ofChanges name changes) :=
  (keeps_empty name).changeAll changes

/-- What an indexed dialogue is after changes, by the nodes that they insert. -/
structure Describes (name : String) (changes : List Change) (indexed : IndexedDialogue) : Prop where
  /-- The index knows the position of every node, and no other. -/
  index : ∀ label position, indexed.position? label = some position ↔
    ∃ h : position < indexed.nodes.size, indexed.nodes[position].label = label
  nodup_labels : (indexed.nodes.toList.map Node.label).Nodup
  /-- A label means the last node that was inserted with it. -/
  get : ∀ label, indexed.get label =
    .ok ((inserted changes).filter fun node => node.label = label).getLast?
  /-- One more node replaces what its label meant. -/
  insert : ∀ node, ∃ replaced next, indexed.get node.label = .ok replaced ∧
    indexed.insert node = .ok (replaced, next) ∧
    ofChanges name (changes ++ [.insert node]) = .ok next
  /-- Labels stand in the order in which they were first inserted. -/
  labels : indexed.nodes.toList.map Node.label = ((inserted changes).map Node.label).eraseDups
  size : indexed.size = ((inserted changes).map Node.label).toFinset.card
  /-- The artifact that begins where the index leads is that of the dialogue. -/
  artifact : indexed.artifact = .ok (Dialogue.ofChanges name changes).artifact
  writeInto : ∀ capacity,
    indexed.writeInto capacity = .ok ((Dialogue.ofChanges name changes).writeInto capacity)
  dialogue : indexed.toDialogue? = some (Dialogue.ofChanges name changes)

theorem describes_ofChanges {name : String} {changes : List Change} {indexed : IndexedDialogue}
    (hmade : ofChanges name changes = .ok indexed)
    (h : indexed.Keeps (Dialogue.ofChanges name changes)) : Describes name changes indexed where
  index := h.index_iff
  nodup_labels := h.nodes ▸ (Dialogue.ofChanges name changes).nodup_labels
  get label := by rw [h.get, get?_ofChanges]
  insert node := by
    obtain ⟨next, hinsert, -⟩ := h.insert node
    refine ⟨_, next, h.get node.label, hinsert, ?_⟩
    rw [ofChanges, changeAll_append, ← ofChanges, hmade]
    simp [changeAll, change, hinsert, Except.map]
  labels := by rw [h.nodes, labels_ofChanges]
  size := by
    rw [size, h.size_eq, size_ofChanges]
  artifact := h.artifact
  writeInto := h.writeInto
  dialogue := h.toDialogue?

/-- No sequence of insertions goes out of range. The index of the dialogue that
it leaves is right, and two such dialogues are equal, index and all, if they
have the same name and the same nodes. -/
theorem exists_ofChanges_describes (name : String) (changes : List Change) :
    ∃ indexed, ofChanges name changes = .ok indexed ∧ Describes name changes indexed ∧
      ∀ name' changes' other, ofChanges name' changes' = .ok other →
        (indexed = other ↔ indexed.name = other.name ∧ indexed.nodes = other.nodes) := by
  obtain ⟨indexed, hmade, hkeeps⟩ := exists_keeps_ofChanges name changes
  refine ⟨indexed, hmade, describes_ofChanges hmade hkeeps, ?_⟩
  intro name' changes' other hother
  obtain ⟨made, hmade', hkeeps'⟩ := exists_keeps_ofChanges name' changes'
  have hsame : made = other := Except.ok.inj (hmade'.symm.trans hother)
  exact hkeeps.eq_iff (hsame ▸ hkeeps')

end IndexedDialogue

end Parley
