import Mathlib.Data.List.Basic
import Mathlib.Data.List.Induction
import Parley.Script.Basic

/-!
# Scripts as sequences of blocks

A script can be understood without following its assembly. Its lines give a
sequence of directives, which is cut at the `node` lines: each `node` opens a
block that reaches to the next one. A block describes a node on its own, by its
last `text` line and all its responses. Blocks under one label leave one node:
the last block says what it is, the first one where it stands.

The assembly of a script arrives at exactly this reading. What an open draft
still makes of the lines ahead carries the induction.
-/

namespace Parley

namespace Dialogue

/-- The nodes of a list under distinct labels: each label stands where it is
first seen and means what it is given last. -/
def collapse (nodes : List Node) : List Node :=
  (nodes.map Node.label).eraseDups.filterMap fun label =>
    (nodes.filter fun node => node.label = label).getLast?

theorem get?_of_mem {dialogue : Dialogue} {node : Node} (h : node ∈ dialogue.nodes) :
    dialogue.get? node.label = some node := by
  obtain ⟨name, nodes, hnodup⟩ := dialogue
  unfold get? Keyed.find?
  induction nodes with
  | nil => simp at h
  | cons first rest ih =>
      obtain ⟨hfirst, hrest⟩ := List.nodup_cons.mp hnodup
      rcases List.mem_cons.mp h with rfl | h
      · simp
      · have hne : first.label ≠ node.label := by
          intro heq
          exact hfirst (heq ▸ List.mem_map_of_mem h)
        simpa [hne] using ih hrest h

/-- A dialogue is determined by the order of its labels and the node under each. -/
theorem nodes_eq_filterMap (dialogue : Dialogue) :
    dialogue.nodes = (dialogue.nodes.map Node.label).filterMap dialogue.get? := by
  rw [List.filterMap_map]
  have hfound : dialogue.nodes.filterMap (dialogue.get? ∘ Node.label) = dialogue.nodes.map id :=
    List.filterMap_eq_map_iff_forall_eq_some.mpr fun node hnode => get?_of_mem hnode
  rw [hfound, List.map_id]

theorem eraseDups_concat (labels : List String) (label : String) :
    (labels ++ [label]).eraseDups =
      if label ∈ labels then labels.eraseDups else labels.eraseDups ++ [label] := by
  rw [List.eraseDups_append]
  by_cases hmem : label ∈ labels
  · simp [List.removeAll, hmem]
  · simp [List.removeAll, hmem, List.eraseDups_cons]

/-- Labels that are there keep their places, and new ones follow in the order in
which they are first seen. -/
theorem labels_foldl_insert_append (dialogue : Dialogue) (nodes : List Node) :
    (nodes.foldl insert dialogue).nodes.map Node.label = dialogue.nodes.map Node.label ++
      (nodes.map Node.label).eraseDups.filter (· ∉ dialogue.nodes.map Node.label) := by
  induction nodes using List.reverseRecOn with
  | nil => simp
  | append_singleton front node ih =>
      rw [List.foldl_append, List.foldl_cons, List.foldl_nil, labels_insert, ih, List.map_append,
        List.map_singleton, eraseDups_concat]
      generalize dialogue.nodes.map Node.label = labels, front.map Node.label = seen
      by_cases hold : node.label ∈ labels <;> by_cases hseen : node.label ∈ seen <;>
        simp [hold, hseen]

/-- A label means what the last inserted node with it says, or else what it
meant. -/
theorem get?_foldl_insert_or (dialogue : Dialogue) (nodes : List Node) (label : String) :
    (nodes.foldl insert dialogue).get? label =
      (nodes.filter fun node => node.label = label).getLast?.or (dialogue.get? label) := by
  induction nodes using List.reverseRecOn with
  | nil => rfl
  | append_singleton front node ih =>
      rw [List.foldl_append, List.foldl_cons, List.foldl_nil, get?_insert, ih, List.filter_append,
        List.getLast?_append]
      by_cases hlabel : node.label = label <;> simp [hlabel]

theorem labels_foldl_insert (name : String) (nodes : List Node) :
    (nodes.foldl insert (empty name)).nodes.map Node.label = (nodes.map Node.label).eraseDups := by
  rw [labels_foldl_insert_append]
  simp [empty]

theorem get?_foldl_insert (name : String) (nodes : List Node) (label : String) :
    (nodes.foldl insert (empty name)).get? label =
      (nodes.filter fun node => node.label = label).getLast? := by
  have hempty : (empty name).get? label = none := rfl
  rw [get?_foldl_insert_or, hempty, Option.or_none]

/-- Inserting nodes one after the other collapses them. -/
theorem nodes_foldl_insert (name : String) (nodes : List Node) :
    (nodes.foldl insert (empty name)).nodes = collapse nodes := by
  have hget : (nodes.foldl insert (empty name)).get? = fun label =>
      (nodes.filter fun node => node.label = label).getLast? := by
    funext label
    exact get?_foldl_insert name nodes label
  rw [nodes_eq_filterMap, labels_foldl_insert, hget, collapse]

end Dialogue

namespace Script

open Text

/-! ## Directives and blocks -/

namespace Directive

/-- Whether a directive opens a block. -/
def isNode : Directive → Bool
  | .node _ _ => true
  | _ => false

/-- The name that a directive gives to the dialogue. -/
def identifier? : Directive → Option String
  | .name identifier => some identifier
  | _ => none

/-- The text that a directive gives to its block, and the successor. -/
def body? : Directive → Option (String × String)
  | .text said next => some (said, Label.ofSuccessor next)
  | _ => none

/-- The response that a directive adds to its block. -/
def response? : Directive → Option Response
  | .response said next trigger => some ⟨said, Label.ofSuccessor next, trigger⟩
  | _ => none

end Directive

/-- The directives in front of the first block, or up to the next one. -/
def opening (directives : List Directive) : List Directive :=
  directives.takeWhile (!·.isNode)

/-- A `node` line and the lines up to the next one. -/
structure Block where
  kind : NodeKind
  label : String
  lines : List Directive
  deriving DecidableEq, Repr

namespace Block

/-- What the `text` lines of a block say. -/
def bodies (block : Block) : List (String × String) := block.lines.filterMap Directive.body?

/-- The node that a block describes. Its last `text` line counts. -/
def node? (block : Block) : Option Node :=
  block.bodies.getLast?.map fun (text, next) =>
    ⟨Label.ofNode block.label, block.kind, text, next, block.lines.filterMap Directive.response?⟩

end Block

/-- Directives cut at the `node` lines. -/
def blocks : List Directive → List Block
  | [] => []
  | .node kind label :: rest => ⟨kind, label, opening rest⟩ :: blocks rest
  | _ :: rest => blocks rest

/-- What a line says without its comment and the blanks around it. -/
def contentOf (raw : List Char) : Except Fault Directive :=
  Directive.read (trim (stripComment raw))

/-- What lines say that are not blank without their comments. -/
def said (raws : List (List Char)) : List (Except Fault Directive) :=
  (raws.filter fun raw => trim (stripComment raw) ≠ []).map contentOf

/-- What the lines of a source say. -/
def contents (src : String) : List (Except Fault Directive) := said (lines src.toList)

/-- Whether each directive stands where it has a meaning: only names in front of
the first block, and a `text` line in every block. -/
structure Placed (directives : List Directive) : Prop where
  opening : ∀ directive ∈ opening directives, ∃ identifier, directive = .name identifier
  bodies : ∀ block ∈ blocks directives, block.bodies ≠ []

/-- The name of a dialogue, by its last `name` line. -/
def lastName? (directives : List Directive) : Option String :=
  (directives.filterMap Directive.identifier?).getLast?

/-- The nodes of a dialogue, by its blocks. -/
def blockNodes (directives : List Directive) : List Node :=
  Dialogue.collapse ((blocks directives).filterMap Block.node?)

@[simp] theorem said_append (front rest : List (List Char)) :
    said (front ++ rest) = said front ++ said rest := by
  simp [said]

theorem said_cons (raw : List Char) (rest : List (List Char)) :
    said (raw :: rest) = said [raw] ++ said rest :=
  said_append [raw] rest

/-- Each directive of a source is what one of its lines says. -/
theorem exists_contentOf {src : String} {directives : List Directive}
    (h : contents src = directives.map .ok) {directive : Directive}
    (hmem : directive ∈ directives) :
    ∃ raw ∈ lines src.toList, contentOf raw = .ok directive := by
  have hcontent : .ok directive ∈ contents src := h ▸ List.mem_map_of_mem hmem
  obtain ⟨raw, hraw, hread⟩ := List.mem_map.mp hcontent
  exact ⟨raw, (List.mem_filter.mp hraw).1, hread⟩

theorem read?_eq (raw : List Char) (number : Nat) :
    Line.read? raw number =
      (said [raw]).head?.map (Line.mk ⟨number, String.ofList (trim raw)⟩) := by
  cases hline : trim (stripComment raw) <;> simp [Line.read?, said, contentOf, hline]

theorem toList_map_content_read? (raw : List Char) (number : Nat) :
    ((Line.read? raw number).map Line.content).toList = said [raw] := by
  rw [read?_eq]
  cases hline : trim (stripComment raw) <;> simp [said, hline]

theorem map_content_readLines (src : String) :
    (readLines src.toList).map Line.content = contents src := by
  unfold readLines contents
  generalize 1 = number
  induction lines src.toList generalizing number with
  | nil => rfl
  | cons raw rest ih =>
      rw [List.zipIdx_cons, said_cons, ← ih (number + 1), ← toList_map_content_read? raw number]
      cases hread : Line.read? raw number <;> simp [hread]

theorem blocks_append {lines : List Directive} (h : ∀ line ∈ lines, line.isNode = false)
    (rest : List Directive) : blocks (lines ++ rest) = blocks rest := by
  induction lines with
  | nil => rfl
  | cons line lines ih =>
      obtain ⟨hline, hlines⟩ := List.forall_mem_cons.mp h
      cases line with
      | node kind label => contradiction
      | name => exact ih hlines
      | text => exact ih hlines
      | response => exact ih hlines

theorem opening_append {lines : List Directive} (h : ∀ line ∈ lines, line.isNode = false)
    (rest : List Directive) : opening (lines ++ rest) = lines ++ opening rest := by
  rw [opening, List.takeWhile_append_of_pos (fun line hline => by simp [h line hline]), opening]

/-! ## What lies ahead of an assembly -/

/-- A draft with the lines of its block that are ahead. -/
def Draft.extend (draft : Draft) (directives : List Directive) : Draft :=
  { draft with
    body := (directives.filterMap Directive.body?).getLast?.or draft.body
    responses := draft.responses ++ directives.filterMap Directive.response? }

theorem Draft.extend_nil (draft : Draft) : draft.extend [] = draft := by
  simp [extend]

theorem Draft.extend_text (draft : Draft) (said next : String) (lines : List Directive) :
    Draft.extend { draft with body := some (said, Label.ofSuccessor next) } lines =
      draft.extend (.text said next :: lines) := by
  have hbody : (Directive.text said next).body? = some (said, Label.ofSuccessor next) := rfl
  have hresponse : (Directive.text said next).response? = none := rfl
  simp only [extend, List.filterMap_cons_some hbody, List.filterMap_cons_none hresponse,
    List.getLast?_cons]
  cases (lines.filterMap Directive.body?).getLast? <;> rfl

theorem Draft.extend_response (draft : Draft) (said next : String) (trigger : Option String)
    (lines : List Directive) :
    Draft.extend { draft with
        responses := draft.responses ++ [⟨said, Label.ofSuccessor next, trigger⟩] } lines =
      draft.extend (.response said next trigger :: lines) := by
  have hbody : (Directive.response said next trigger).body? = none := rfl
  have hresponse : (Directive.response said next trigger).response? =
      some ⟨said, Label.ofSuccessor next, trigger⟩ := rfl
  simp [extend, List.filterMap_cons_none hbody, List.filterMap_cons_some hresponse]

/-- A draft that was just opened describes the node of its block. -/
theorem Draft.node?_extend (place : Place) (kind : NodeKind) (label : String)
    (directives : List Directive) :
    (Draft.extend { place, kind, label := Label.ofNode label } directives).node? =
      (Block.mk kind label directives).node? := by
  simp [Draft.extend, Draft.node?, Block.node?, Block.bodies]

namespace Assembly

/-- The nodes that the open draft and the blocks ahead will give. A block
without a text gives none. -/
def ahead (assembly : Assembly) (directives : List Directive) : List (Option Node) :=
  (assembly.draft.map fun draft => (draft.extend (opening directives)).node?).toList ++
    (blocks directives).map Block.node?

/-- Whether the directives ahead can all be followed. -/
structure Follows (assembly : Assembly) (directives : List Directive) : Prop where
  opening : assembly.draft = none →
    ∀ directive ∈ opening directives, ∃ identifier, directive = .name identifier
  bodies : none ∉ assembly.ahead directives

/-- The name that the dialogue is going to have. -/
def nameAhead (assembly : Assembly) (directives : List Directive) : Option String :=
  (lastName? directives).or assembly.name

/-- The dialogue that the nodes ahead are going to make. -/
def dialogueAhead (assembly : Assembly) (directives : List Directive) : Dialogue :=
  ((assembly.ahead directives).filterMap id).foldl Dialogue.insert assembly.dialogue

theorem ahead_of_not_isNode (assembly : Assembly) {directive : Directive}
    (h : directive.isNode = false) (rest : List Directive) :
    assembly.ahead (directive :: rest) =
      (assembly.draft.map fun draft => (draft.extend (directive :: opening rest)).node?).toList ++
        (blocks rest).map Block.node? := by
  have hopening : opening (directive :: rest) = directive :: opening rest := by
    simp [opening, h]
  have hblocks : blocks (directive :: rest) = blocks rest := by
    cases directive <;> simp_all [blocks, Directive.isNode]
  rw [ahead, hopening, hblocks]

theorem ahead_node (assembly : Assembly) (kind : NodeKind) (label : String)
    (rest : List Directive) :
    assembly.ahead (.node kind label :: rest) =
      (assembly.draft.map Draft.node?).toList ++
        (Block.mk kind label (opening rest)).node? :: (blocks rest).map Block.node? := by
  have hopening : opening (.node kind label :: rest) = [] := rfl
  simp only [ahead, hopening, Draft.extend_nil, blocks, List.map_cons]

/-- Whether an assembly expects of its directives what another expects of its
own. -/
structure Agrees (assembly : Assembly) (directives : List Directive) (next : Assembly)
    (rest : List Directive) : Prop where
  follows : next.Follows rest ↔ assembly.Follows directives
  name : next.nameAhead rest = assembly.nameAhead directives
  dialogue : next.dialogueAhead rest = assembly.dialogueAhead directives

theorem agrees_name (assembly : Assembly) (identifier : String) (rest : List Directive) :
    assembly.Agrees (.name identifier :: rest) { assembly with name := some identifier } rest := by
  have hahead : Assembly.ahead { assembly with name := some identifier } rest =
      assembly.ahead (.name identifier :: rest) := by
    rw [ahead_of_not_isNode assembly rfl]
    rfl
  refine ⟨?_, ?_, ?_⟩
  · constructor
    · rintro ⟨hopening, hbodies⟩
      refine ⟨fun hdraft directive hmem => ?_, hahead ▸ hbodies⟩
      rcases List.mem_cons.mp (show directive ∈ .name identifier :: opening rest from hmem)
        with rfl | hmem
      · exact ⟨identifier, rfl⟩
      · exact hopening hdraft directive hmem
    · rintro ⟨hopening, hbodies⟩
      refine ⟨fun hdraft directive hmem => ?_, hahead ▸ hbodies⟩
      exact hopening hdraft directive (List.mem_cons_of_mem _ hmem)
  · simp only [nameAhead, lastName?]
    rw [List.filterMap_cons_some (show (Directive.name identifier).identifier? = _ from rfl),
      List.getLast?_cons]
    cases (rest.filterMap Directive.identifier?).getLast? <;> rfl
  · rw [dialogueAhead, hahead]
    rfl

theorem agrees_amend {assembly : Assembly} {draft changed : Draft} {directive : Directive}
    (hdraft : assembly.draft = some draft) (hnode : directive.isNode = false)
    (hname : directive.identifier? = none)
    (hchanged : ∀ lines, changed.extend lines = draft.extend (directive :: lines))
    (rest : List Directive) :
    assembly.Agrees (directive :: rest) { assembly with draft := some changed } rest := by
  have hahead : Assembly.ahead { assembly with draft := some changed } rest =
      assembly.ahead (directive :: rest) := by
    rw [ahead_of_not_isNode assembly hnode, ahead, hdraft]
    simp only [Option.map_some, hchanged]
  refine ⟨?_, ?_, ?_⟩
  · constructor
    · rintro ⟨-, hbodies⟩
      refine ⟨fun hnone => ?_, hahead ▸ hbodies⟩
      rw [hdraft] at hnone
      contradiction
    · rintro ⟨-, hbodies⟩
      exact ⟨nofun, hahead ▸ hbodies⟩
  · simp [nameAhead, lastName?, hname]
  · rw [dialogueAhead, hahead]
    rfl

/-- The node of the open draft, if there is one. -/
def pending (assembly : Assembly) : List (Option Node) := (assembly.draft.map Draft.node?).toList

theorem ahead_nil (assembly : Assembly) : assembly.ahead [] = assembly.pending := by
  simp only [ahead, opening, List.takeWhile_nil, Draft.extend_nil, blocks, List.map_nil,
    List.append_nil]
  rfl

theorem close_eq_ok {assembly closed : Assembly} {file : String}
    (h : assembly.close file = .ok closed) :
    none ∉ assembly.pending ∧ closed.name = assembly.name ∧
      closed.dialogue =
        (assembly.pending.filterMap id).foldl Dialogue.insert assembly.dialogue := by
  unfold close at h
  unfold pending
  cases hdraft : assembly.draft with
  | none =>
      rw [hdraft] at h
      obtain rfl := Except.ok.inj h
      simp
  | some draft =>
      rw [hdraft] at h
      dsimp only at h
      cases hnode : draft.node? with
      | none => simp [hnode] at h
      | some node =>
          rw [hnode] at h
          obtain rfl := Except.ok.inj h
          simp [hnode]

theorem close_eq_error {assembly : Assembly} {file : String} {error : Error}
    (h : assembly.close file = .error error) : none ∈ assembly.pending := by
  unfold close at h
  unfold pending
  cases hdraft : assembly.draft with
  | none => simp [hdraft] at h
  | some draft =>
      rw [hdraft] at h
      cases hnode : draft.node? with
      | none => simp [hnode]
      | some node => simp [hnode] at h

theorem agrees_node {assembly closed : Assembly} {file : String} (kind : NodeKind) (label : String)
    (place : Place) (h : assembly.close file = .ok closed) (rest : List Directive) :
    assembly.Agrees (.node kind label :: rest)
      { closed with draft := some { place, kind, label := Label.ofNode label } } rest := by
  -- The pending node is complete, so a text can only be missing from the blocks that follow.
  obtain ⟨hpending, hname, hdialogue⟩ := close_eq_ok h
  have hnext : Assembly.ahead
      { closed with draft := some { place, kind, label := Label.ofNode label } } rest =
        (Block.mk kind label (opening rest)).node? :: (blocks rest).map Block.node? := by
    simp only [ahead, Option.map_some, Draft.node?_extend]
    rfl
  have hahead : assembly.ahead (.node kind label :: rest) = assembly.pending ++
      (Block.mk kind label (opening rest)).node? :: (blocks rest).map Block.node? :=
    assembly.ahead_node kind label rest
  refine ⟨?_, ?_, ?_⟩
  · constructor
    · rintro ⟨-, hbodies⟩
      refine ⟨fun _ _ hmem => absurd hmem List.not_mem_nil, ?_⟩
      rw [hahead, List.mem_append, not_or]
      exact ⟨hpending, hnext ▸ hbodies⟩
    · rintro ⟨-, hbodies⟩
      rw [hahead, List.mem_append, not_or] at hbodies
      exact ⟨nofun, hnext ▸ hbodies.2⟩
  · simp only [nameAhead, lastName?, hname]
    rfl
  · rw [dialogueAhead, hnext, dialogueAhead, hahead, List.filterMap_append, List.foldl_append,
      hdialogue]

/-! ## Following directives -/

/-- A directive that is followed leaves the outlook as it was. -/
theorem apply_eq_ok {assembly next : Assembly} {file : String} {place : Place}
    {directive : Directive} (h : assembly.apply file place directive = .ok next)
    (rest : List Directive) : assembly.Agrees (directive :: rest) next rest := by
  cases directive with
  | name identifier =>
      obtain rfl := Except.ok.inj h
      exact assembly.agrees_name identifier rest
  | node kind label =>
      unfold apply at h
      dsimp only at h
      cases hclose : assembly.close file with
      | error error => simp [hclose] at h
      | ok closed =>
          rw [hclose] at h
          obtain rfl := Except.ok.inj h
          exact agrees_node kind label place hclose rest
  | text said next =>
      unfold apply amend at h
      dsimp only at h
      cases hdraft : assembly.draft with
      | none => simp [hdraft] at h
      | some draft =>
          rw [hdraft] at h
          obtain rfl := Except.ok.inj h
          exact agrees_amend hdraft rfl rfl (draft.extend_text said next) rest
  | response said next trigger =>
      unfold apply amend at h
      dsimp only at h
      cases hdraft : assembly.draft with
      | none => simp [hdraft] at h
      | some draft =>
          rw [hdraft] at h
          obtain rfl := Except.ok.inj h
          exact agrees_amend hdraft rfl rfl (draft.extend_response said next trigger) rest

/-- A line without a draft to amend stands in front of the first block. -/
theorem not_follows_of_draft_eq_none {assembly : Assembly} {directive : Directive}
    (hdraft : assembly.draft = none) (hnode : directive.isNode = false)
    (hname : directive.identifier? = none) (rest : List Directive) :
    ¬ assembly.Follows (directive :: rest) := by
  rintro ⟨hopening, -⟩
  have hmem : directive ∈ opening (directive :: rest) := by simp [opening, hnode]
  obtain ⟨identifier, rfl⟩ := hopening hdraft directive hmem
  contradiction

theorem apply_eq_error {assembly : Assembly} {file : String} {place : Place}
    {directive : Directive} {error : Error}
    (h : assembly.apply file place directive = .error error) (rest : List Directive) :
    ¬ assembly.Follows (directive :: rest) := by
  cases directive with
  | name identifier => contradiction
  | node kind label =>
      unfold apply at h
      dsimp only at h
      cases hclose : assembly.close file with
      | error error =>
          rintro ⟨-, hbodies⟩
          rw [ahead_node] at hbodies
          exact hbodies (List.mem_append_left _ (close_eq_error hclose))
      | ok closed => simp [hclose] at h
  | text said next =>
      unfold apply amend at h
      dsimp only at h
      cases hdraft : assembly.draft with
      | none => exact not_follows_of_draft_eq_none hdraft rfl rfl rest
      | some draft => simp [hdraft] at h
  | response said next trigger =>
      unfold apply amend at h
      dsimp only at h
      cases hdraft : assembly.draft with
      | none => exact not_follows_of_draft_eq_none hdraft rfl rfl rest
      | some draft => simp [hdraft] at h

/-- A run without an error followed every line, and arrived at what was ahead. -/
theorem run_eq_ok {file : String} {assembly last : Assembly} {lines : List Line}
    (h : run file assembly lines = (last, none)) :
    ∃ directives, lines.map Line.content = directives.map .ok ∧ assembly.Follows directives ∧
      last.name = assembly.nameAhead directives ∧
      last.dialogue = assembly.dialogueAhead directives := by
  induction lines generalizing assembly with
  | nil =>
      unfold run at h
      split at h
      next closed hclose =>
        obtain ⟨rfl, -⟩ := Prod.mk.inj h
        obtain ⟨hpending, hname, hdialogue⟩ := close_eq_ok hclose
        rw [← ahead_nil] at hpending hdialogue
        exact ⟨[], rfl, ⟨fun _ _ hmem => absurd hmem List.not_mem_nil, hpending⟩, hname, hdialogue⟩
      next => simp at h
  | cons line lines ih =>
      unfold run at h
      split at h
      next next hstep =>
        unfold step at hstep
        split at hstep
        next => contradiction
        next directive hcontent =>
          -- What lies ahead of the next assembly lay ahead of this one, its own line included.
          obtain ⟨directives, hlines, hfollows, hname, hdialogue⟩ := ih h
          have hagrees := apply_eq_ok hstep directives
          exact ⟨directive :: directives, by simp [hcontent, hlines],
            hagrees.follows.mp hfollows, hname.trans hagrees.name,
            hdialogue.trans hagrees.dialogue⟩
      next => simp at h

theorem run_eq_error {file : String} {assembly last : Assembly} {lines : List Line}
    {error : Error} (h : run file assembly lines = (last, some error))
    {directives : List Directive} (hlines : lines.map Line.content = directives.map .ok) :
    ¬ assembly.Follows directives := by
  induction lines generalizing assembly directives with
  | nil =>
      obtain rfl := List.map_eq_nil_iff.mp hlines.symm
      unfold run at h
      split at h
      next => simp at h
      next hclose =>
        rintro ⟨-, hbodies⟩
        rw [ahead_nil] at hbodies
        exact hbodies (close_eq_error hclose)
  | cons line lines ih =>
      cases directives with
      | nil => simp at hlines
      | cons directive directives =>
          obtain ⟨hcontent, hlines⟩ := List.cons.inj hlines
          rw [run, step, hcontent] at h
          dsimp only at h
          split at h
          next next happly => exact mt (apply_eq_ok happly directives).follows.mpr (ih h hlines)
          next happly => exact apply_eq_error happly directives

end Assembly

/-! ## Scripts -/

theorem Block.node?_eq_none_iff {block : Block} : block.node? = none ↔ block.bodies = [] := by
  rw [node?, Option.map_eq_none_iff, List.getLast?_eq_none_iff]

/-- An empty assembly can follow what is well placed. -/
theorem follows_iff_placed {directives : List Directive} :
    Assembly.Follows {} directives ↔ Placed directives := by
  have hbodies : none ∉ Assembly.ahead {} directives ↔
      ∀ block ∈ blocks directives, block.bodies ≠ [] := by
    simp [Assembly.ahead, Block.node?_eq_none_iff]
  constructor
  · rintro ⟨hopening, hahead⟩
    exact ⟨hopening rfl, hbodies.mp hahead⟩
  · rintro ⟨hopening, hblocks⟩
    exact ⟨fun _ => hopening, hbodies.mpr hblocks⟩

theorem nodes_dialogueAhead (directives : List Directive) :
    (Assembly.dialogueAhead {} directives).nodes = blockNodes directives := by
  have hahead : Assembly.ahead {} directives = (blocks directives).map Block.node? := rfl
  rw [Assembly.dialogueAhead, hahead, List.filterMap_map, Function.id_comp,
    Dialogue.nodes_foldl_insert]
  rfl

/-- A source gives a dialogue if its lines can be read and are well placed. The
dialogue is that of its blocks. -/
theorem read_eq_ok_iff {file fallback src : String} {dialogue : Dialogue} :
    (read file fallback src).result = .ok dialogue ↔
      ∃ directives, contents src = directives.map .ok ∧ Placed directives ∧
        dialogue.name = (lastName? directives).getD fallback ∧
        dialogue.nodes = blockNodes directives := by
  rw [← map_content_readLines, read]
  cases hrun : Assembly.run file {} (readLines src.toList) with
  | mk last error =>
      cases error with
      | some error =>
          refine ⟨nofun, ?_⟩
          rintro ⟨directives, hlines, hplaced, -⟩
          exact absurd (follows_iff_placed.mpr hplaced) (Assembly.run_eq_error hrun hlines)
      | none =>
          obtain ⟨directives, hlines, hfollows, hname, hdialogue⟩ := Assembly.run_eq_ok hrun
          have hname' : last.name = lastName? directives := by
            simpa [Assembly.nameAhead] using hname
          have hnodes : last.dialogue.nodes = blockNodes directives := by
            rw [hdialogue, nodes_dialogueAhead]
          simp only [Except.ok.injEq]
          constructor
          · rintro rfl
            exact ⟨directives, hlines, follows_iff_placed.mp hfollows, by rw [← hname']; rfl,
              hnodes⟩
          · rintro ⟨others, hothers, -, hothersName, hothersNodes⟩
            -- The lines leave no choice of directives, so both are about the same blocks.
            have heq : others = directives := by
              have hmap := hothers.symm.trans hlines
              exact List.map_injective_iff.mpr (fun _ _ => Except.ok.inj) hmap
            subst heq
            refine Dialogue.eq_iff.mpr ⟨?_, hnodes.trans hothersNodes.symm⟩
            rw [hothersName, ← hname']
            rfl

/-- Reading succeeds or fails whatever the file is called. -/
theorem read_eq_ok_congr {file other fallback src : String} {dialogue : Dialogue}
    (h : (read file fallback src).result = .ok dialogue) :
    (read other fallback src).result = .ok dialogue :=
  read_eq_ok_iff.mpr (read_eq_ok_iff.mp h)

/-- Following a script line by line gives what its blocks say. A script is
accepted if each line that says something is a directive in its place. Then its
last `name` line names the dialogue, or else the file does, and the nodes are
those of its blocks. -/
theorem parse_eq_ok_iff_blocks (file src : String) :
    ((∃ dialogue, parse file src = .ok dialogue) ↔
        ∃ directives, contents src = directives.map .ok ∧ Placed directives) ∧
      ∀ dialogue, parse file src = .ok dialogue ↔
        ∃ directives, contents src = directives.map .ok ∧ Placed directives ∧
          dialogue.name = (lastName? directives).getD file ∧
          dialogue.nodes = blockNodes directives := by
  refine ⟨?_, fun dialogue => read_eq_ok_iff⟩
  constructor
  · rintro ⟨dialogue, hparse⟩
    obtain ⟨directives, hlines, hplaced, -⟩ := read_eq_ok_iff.mp hparse
    exact ⟨directives, hlines, hplaced⟩
  · rintro ⟨directives, hlines, hplaced⟩
    -- The nodes of the blocks are the nodes of a dialogue: the one that they are inserted into.
    exact ⟨(Assembly.dialogueAhead {} directives).rename ((lastName? directives).getD file),
      read_eq_ok_iff.mpr ⟨directives, hlines, hplaced, rfl, nodes_dialogueAhead directives⟩⟩

end Script

end Parley
