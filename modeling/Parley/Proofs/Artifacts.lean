import Mathlib.Data.Finset.Card
import Mathlib.Data.Finset.Dedup
import Parley.Proofs.Unambiguity

/-!
# What an artifact shows

A dialogue comes about by inserting nodes and giving names, in any order. Its
artifact shows as many nodes as labels were used, `START` first and all others
in the order in which their labels were first used, and of the nodes under one
label the last. What each node contributes is spelled out here line by line. A
statement is shown without its responses and a question without its successor,
so dialogues that differ in nothing else have the same artifact.
-/

namespace Parley

namespace Dialogue

/-! ## Dialogues by their changes -/

/-- One change of a dialogue. -/
inductive Change where
  | insert (node : Node)
  | rename (name : String)
  deriving DecidableEq, Repr

/-- The dialogue after a change. -/
def change (dialogue : Dialogue) : Change → Dialogue
  | .insert node => dialogue.insert node
  | .rename name => dialogue.rename name

/-- The dialogue that changes make of an empty one. -/
def ofChanges (name : String) (changes : List Change) : Dialogue :=
  changes.foldl change (empty name)

/-- The node that a change inserts. -/
def Change.node? : Change → Option Node
  | insert node => some node
  | rename _ => none

/-- The name that a change gives. -/
def Change.name? : Change → Option String
  | insert _ => none
  | rename name => some name

/-- The nodes that changes insert, first one first. -/
def inserted (changes : List Change) : List Node := changes.filterMap Change.node?

/-- The name that is given last. -/
def lastName (name : String) (changes : List Change) : String :=
  (changes.filterMap Change.name?).getLast?.getD name

theorem name_ofChanges (name : String) (changes : List Change) :
    (ofChanges name changes).name = lastName name changes := by
  induction changes using List.reverseRecOn with
  | nil => rfl
  | append_singleton front last ih =>
      rw [ofChanges, List.foldl_append, List.foldl_cons, List.foldl_nil, ← ofChanges, lastName,
        List.filterMap_append, List.getLast?_append]
      cases last with
      | insert node => exact ih
      | rename given => rfl

/-- Names have no part in what the nodes of a dialogue are. -/
theorem nodes_ofChanges (name : String) (changes : List Change) :
    (ofChanges name changes).nodes = ((inserted changes).foldl insert (empty name)).nodes := by
  induction changes using List.reverseRecOn with
  | nil => rfl
  | append_singleton front last ih =>
      rw [ofChanges, List.foldl_append, List.foldl_cons, List.foldl_nil, ← ofChanges, inserted,
        List.filterMap_append, ← inserted, List.foldl_append]
      cases last with
      | insert node => exact congrArg (Keyed.upsert Node.label node) ih
      | rename given => exact ih

theorem labels_ofChanges (name : String) (changes : List Change) :
    (ofChanges name changes).nodes.map Node.label =
      ((inserted changes).map Node.label).eraseDups := by
  rw [nodes_ofChanges, labels_foldl_insert]

theorem get?_ofChanges (name : String) (changes : List Change) (label : String) :
    (ofChanges name changes).get? label =
      ((inserted changes).filter fun node => node.label = label).getLast? := by
  rw [← get?_foldl_insert name, get?, nodes_ofChanges, get?]

/-- A dialogue has as many nodes as labels were used. -/
theorem size_ofChanges (name : String) (changes : List Change) :
    (ofChanges name changes).size = ((inserted changes).map Node.label).toFinset.card := by
  have hsame : ((inserted changes).map Node.label).toFinset =
      ((ofChanges name changes).nodes.map Node.label).toFinset := by
    ext label
    rw [labels_ofChanges, List.mem_toFinset, List.mem_toFinset, List.mem_eraseDups]
  rw [hsame, List.toFinset_card_of_nodup (ofChanges name changes).nodup_labels, List.length_map]
  rfl

/-- Whether a node is the last one of a list under its label. -/
def IsLast (nodes : List Node) (node : Node) : Prop :=
  ∃ earlier later, nodes = earlier ++ node :: later ∧ ∀ other ∈ later, other.label ≠ node.label

theorem isLast_of_mem_ofChanges {name : String} {changes : List Change} {node : Node}
    (h : node ∈ (ofChanges name changes).nodes) : IsLast (inserted changes) node := by
  have hlast := get?_of_mem h
  rw [get?_ofChanges] at hlast
  obtain ⟨front, hfront⟩ := List.getLast?_eq_some_iff.mp hlast
  obtain ⟨earlier, rest, hsplit, -, hrest⟩ := List.filter_eq_append_iff.mp hfront
  obtain ⟨skipped, later, rfl, -, -, hlater⟩ := List.filter_eq_cons_iff.mp hrest
  refine ⟨earlier ++ skipped, later, by rw [hsplit, List.append_assoc], ?_⟩
  simpa using hlater

/-- Labels in the order in which an artifact shows them: `START` first, and all
others as they were first used. -/
def startFirstLabels (labels : List String) : List String :=
  (if Label.start ∈ labels then [Label.start] else []) ++
    labels.eraseDups.filter (· ≠ Label.start)

theorem length_order (dialogue : Dialogue) : (Artifact.order dialogue).length = dialogue.size := by
  rw [Artifact.order_eq_startFirst, dialogue.startFirst_perm.length_eq]
  rfl

theorem map_label_order (dialogue : Dialogue) :
    (Artifact.order dialogue).map Node.label =
      (if Label.start ∈ dialogue.nodes.map Node.label then [Label.start] else []) ++
        (dialogue.nodes.map Node.label).filter (· ≠ Label.start) := by
  -- Labels are distinct, so there is one node at most to come first.
  have hstart : (dialogue.nodes.map Node.label).filter (· = Label.start) =
      if Label.start ∈ dialogue.nodes.map Node.label then [Label.start] else [] := by
    rw [List.filter_eq, dialogue.nodup_labels.count]
    split <;> rfl
  rw [← hstart, List.filter_map, List.filter_map, ← List.map_append, Artifact.order_eq_startFirst]
  rfl

theorem map_label_order_ofChanges (name : String) (changes : List Change) :
    (Artifact.order (ofChanges name changes)).map Node.label =
      startFirstLabels ((inserted changes).map Node.label) := by
  rw [map_label_order, labels_ofChanges, startFirstLabels]
  simp only [List.mem_eraseDups]

end Dialogue

/-! ## Lines -/

namespace Artifact

/-- Whether a line shows the response at a position of a question. -/
inductive IsResponseLine (name label : String) (position : Nat) : Response → String → Prop where
  | triggered (said next trigger : String) :
      IsResponseLine name label position ⟨said, next, some trigger⟩
        ("T_RESPONSE_TRIGGER(" ++ name ++ ", " ++ label ++ ", trigger_" ++ toString position ++
          ", \"" ++ said ++ "\", " ++ next ++ ", cb_trigger_" ++ trigger ++ ", null);\n")
  | plain (said next : String) :
      IsResponseLine name label position ⟨said, next, none⟩
        ("T_RESPONSE(" ++ name ++ ", " ++ label ++ ", option_" ++ toString position ++
          ", \"" ++ said ++ "\", " ++ next ++ ");\n")

/-- Whether lines show a node: one line for a statement, and for a question one
line with the number of its responses and then as many lines, each for the
response at its position. -/
inductive IsBlock (name : String) : Node → List String → Prop where
  | statement (label said next : String) (responses : List Response) :
      IsBlock name ⟨label, .statement, said, next, responses⟩
        ["T_STATEMENT(" ++ name ++ ", " ++ label ++ ", \"" ++ said ++ "\", " ++ next ++ ");\n"]
  | question (label said next : String) (responses : List Response) (lines : List String)
      (hcount : lines.length = responses.length)
      (hlines : ∀ position response, responses[position]? = some response →
        ∃ line, lines[position]? = some line ∧
          IsResponseLine name label position response line) :
      IsBlock name ⟨label, .question, said, next, responses⟩
        (("T_QUESTION(" ++ name ++ ", " ++ label ++ ", \"" ++ said ++ "\", " ++
          toString responses.length ++ ");\n") :: lines)

theorem isResponseLine_responseLine (name label : String) (position : Nat) (response : Response) :
    IsResponseLine name label position response
      (responseLine name label position response) := by
  obtain ⟨said, next, trigger⟩ := response
  cases trigger with
  | none =>
      convert IsResponseLine.plain said next using 1
      apply String.toList_inj.mp
      simp [responseLine, call, quote]
  | some trigger =>
      convert IsResponseLine.triggered said next trigger using 1
      apply String.toList_inj.mp
      simp [responseLine, call, quote]

theorem header_eq (name : String) (size : Nat) :
    header name size = "T_INIT(" ++ name ++ ", " ++ toString size ++ ");\n" := by
  apply String.toList_inj.mp
  simp [header, call]

theorem nodeCall_eq (callee name label said last : String) :
    call callee [name, label, quote said, last] =
      callee ++ "(" ++ name ++ ", " ++ label ++ ", \"" ++ said ++ "\", " ++ last ++ ");\n" := by
  apply String.toList_inj.mp
  simp [call, quote]

theorem isBlock_nodeLines (name : String) (node : Node) :
    IsBlock name node (nodeLines name node) := by
  obtain ⟨label, kind, said, next, responses⟩ := node
  cases kind with
  | statement =>
      simp only [nodeLines, nodeCall_eq]
      exact .statement label said next responses
  | question =>
      simp only [nodeLines, nodeCall_eq]
      refine .question label said next responses _ (by simp) ?_
      intro position response hresponse
      refine ⟨responseLine name label position response, ?_,
        isResponseLine_responseLine name label position response⟩
      rw [List.getElem?_map, List.getElem?_zipIdx, hresponse]
      simp

end Artifact

/-! ## Nodes that are shown alike -/

namespace Dialogue

/-- Whether two changes differ at most in what no artifact shows. -/
inductive Change.Alike : Change → Change → Prop where
  | insert {node other : Node} (h : node.Alike other) : Alike (.insert node) (.insert other)
  | rename (name : String) : Alike (.rename name) (.rename name)

theorem forall₂_alike_upsert {node other : Node} (h : node.Alike other) {nodes others : List Node}
    (hnodes : List.Forall₂ Node.Alike nodes others) :
    List.Forall₂ Node.Alike (Keyed.upsert Node.label node nodes)
      (Keyed.upsert Node.label other others) := by
  induction hnodes with
  | nil => exact .cons h .nil
  | @cons first first' rest rest' hfirst hrest ih =>
      unfold Keyed.upsert
      rw [← hfirst.label, ← h.label]
      split
      · exact .cons h hrest
      · exact .cons hfirst ih

/-- Alike changes keep dialogues alike. -/
theorem alike_foldl_change {changes others : List Change}
    (h : List.Forall₂ Change.Alike changes others) {d e : Dialogue} (hname : d.name = e.name)
    (hnodes : List.Forall₂ Node.Alike d.nodes e.nodes) :
    (changes.foldl change d).name = (others.foldl change e).name ∧
      List.Forall₂ Node.Alike (changes.foldl change d).nodes (others.foldl change e).nodes := by
  induction h generalizing d e with
  | nil => exact ⟨hname, hnodes⟩
  | cons hchange _ ih =>
      rw [List.foldl_cons, List.foldl_cons]
      cases hchange with
      | insert halike => exact ih hname (forall₂_alike_upsert halike hnodes)
      | rename name => exact ih rfl hnodes

theorem forall₂_alike_startFirst {d e : Dialogue} (h : List.Forall₂ Node.Alike d.nodes e.nodes) :
    List.Forall₂ Node.Alike d.startFirst e.startFirst := by
  have hstart {node other : Node} (halike : node.Alike other) :
      (node.label = Label.start ↔ other.label = Label.start) := by rw [halike.label]
  refine List.rel_append (List.rel_filter ?_ h) (List.rel_filter ?_ h)
  · intro node other halike
    simpa using hstart halike
  · intro node other halike
    simpa using not_congr (hstart halike)

theorem artifact_ofChanges_congr (name : String) {changes others : List Change}
    (h : List.Forall₂ Change.Alike changes others) :
    (ofChanges name changes).artifact = (ofChanges name others).artifact := by
  obtain ⟨hname, hnodes⟩ := alike_foldl_change h (d := empty name) rfl .nil
  exact congrArg String.join (Artifact.lines_congr hname (forall₂_alike_startFirst hnodes))

/-- The artifact of a dialogue is a header with its name and the number of labels
that were used, and then one block for each label. What the blocks do not show
makes no difference to the artifact. -/
theorem artifact_ofChanges (first : String) (changes : List Change) :
    (∃ shown blocks,
      (ofChanges first changes).artifact =
        "T_INIT(" ++ lastName first changes ++ ", " ++
          toString ((inserted changes).map Node.label).toFinset.card ++ ");\n" ++
          String.join (List.flatten blocks) ∧
      blocks.length = ((inserted changes).map Node.label).toFinset.card ∧
      shown.map Node.label = startFirstLabels ((inserted changes).map Node.label) ∧
      (∀ node ∈ shown, IsLast (inserted changes) node) ∧
      List.Forall₂ (Artifact.IsBlock (lastName first changes)) shown blocks) ∧
    ∀ others, List.Forall₂ Change.Alike changes others →
      (ofChanges first others).artifact = (ofChanges first changes).artifact := by
  refine ⟨⟨Artifact.order (ofChanges first changes),
    (Artifact.order (ofChanges first changes)).map (Artifact.nodeLines (lastName first changes)),
    ?_, ?_, map_label_order_ofChanges first changes, ?_, ?_⟩, ?_⟩
  · rw [artifact, Artifact.lines, String.join_cons, Artifact.header_eq, name_ofChanges,
      size_ofChanges, List.flatMap_def]
  · rw [List.length_map, length_order, size_ofChanges]
  · intro node hnode
    rw [Artifact.order_eq_startFirst, (startFirst_perm _).mem_iff] at hnode
    exact isLast_of_mem_ofChanges hnode
  · rw [List.forall₂_map_right_iff, List.forall₂_same]
    exact fun node _ => Artifact.isBlock_nodeLines _ node
  · intro others halike
    exact (artifact_ofChanges_congr first halike).symm

end Dialogue

end Parley
