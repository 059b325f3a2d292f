import Parley.Proofs.Printing

/-!
# Dialogues are read back from their scripts

The script of a dialogue names it first and has one block for each node, with
one `text` line and a line for each response. Such a script gives the dialogue
again if its words and texts can be written and no label is spelled with an
alias, which reading would replace.
-/

namespace Parley

theorem Keyed.upsert_of_not_mem {α κ : Type} [DecidableEq κ] {key : α → κ} {a : α} {l : List α}
    (h : key a ∉ l.map key) : upsert key a l = l ++ [a] := by
  induction l with
  | nil => rfl
  | cons b l ih =>
      rw [List.map_cons, List.mem_cons, not_or] at h
      rw [upsert, if_neg (Ne.symm h.1), ih h.2, List.cons_append]

/-- Nodes under distinct labels stay as they are. -/
theorem Dialogue.collapse_eq_self {nodes : List Node} (h : (nodes.map Node.label).Nodup) :
    collapse nodes = nodes := by
  rw [← nodes_foldl_insert ""]
  induction nodes using List.reverseRecOn with
  | nil => rfl
  | append_singleton nodes node ih =>
      rw [List.map_append, List.map_singleton, List.nodup_append] at h
      obtain ⟨hnodes, -, hdisjoint⟩ := h
      have hnew : node.label ∉ nodes.map Node.label :=
        fun hmem => hdisjoint _ hmem _ List.mem_cons_self rfl
      rw [List.foldl_append, List.foldl_cons, List.foldl_nil]
      change Keyed.upsert Node.label node (nodes.foldl insert (empty "")).nodes = _
      rw [ih hnodes, Keyed.upsert_of_not_mem hnew]

/-- The block that declares a node. -/
def Node.block (node : Node) : Script.Block :=
  ⟨node.kind, node.label, .text node.text node.next ::
    node.responses.map fun response => .response response.text response.next response.trigger⟩

/-- Whether the labels of a node are spelled without an alias. -/
structure Node.Resolved (node : Node) : Prop where
  label : Label.ofNode node.label = node.label
  next : Label.ofSuccessor node.next = node.next
  responses : ∀ response ∈ node.responses, Label.ofSuccessor response.next = response.next

namespace Script

/-! ## Blocks -/

theorem isNode_of_mem_lines {node : Node} {line : Directive} (h : line ∈ node.block.lines) :
    line.isNode = false := by
  rcases List.mem_cons.mp h with rfl | h
  · rfl
  · obtain ⟨response, -, rfl⟩ := List.mem_map.mp h
    rfl

theorem opening_flatMap_directives (nodes : List Node) :
    opening (nodes.flatMap Node.directives) = [] := by
  cases nodes <;> rfl

theorem blocks_flatMap_directives (nodes : List Node) :
    blocks (nodes.flatMap Node.directives) = nodes.map Node.block := by
  induction nodes with
  | nil => rfl
  | cons node nodes ih =>
      have hlines : ∀ line ∈ node.block.lines, line.isNode = false := fun _ => isNode_of_mem_lines
      have hsplit : (node :: nodes).flatMap Node.directives = .node node.kind node.label ::
          (node.block.lines ++ nodes.flatMap Node.directives) := rfl
      rw [hsplit, blocks, opening_append hlines, opening_flatMap_directives, List.append_nil,
        blocks_append hlines, ih, List.map_cons]
      rfl

theorem bodies_block (node : Node) :
    node.block.bodies = [(node.text, Label.ofSuccessor node.next)] := by
  have hresponses : (node.responses.map fun response =>
      Directive.response response.text response.next response.trigger).filterMap
        Directive.body? = [] := by
    rw [List.filterMap_map, List.filterMap_eq_nil_iff]
    exact fun _ _ => rfl
  rw [Block.bodies, Node.block, List.filterMap_cons, hresponses]
  rfl

/-- The block of a node describes that node. -/
theorem node?_block {node : Node} (h : node.Resolved) : node.block.node? = some node := by
  have hresponses : node.block.lines.filterMap Directive.response? = node.responses := by
    have hall : node.responses.filterMap (Directive.response? ∘ fun response =>
        .response response.text response.next response.trigger) = node.responses.map id := by
      refine List.filterMap_eq_map_iff_forall_eq_some.mpr fun response hresponse => ?_
      simp [Directive.response?, h.responses response hresponse]
    rw [Node.block, List.filterMap_cons, List.filterMap_map, hall, List.map_id]
    rfl
  rw [Block.node?, bodies_block, hresponses]
  simp [Node.block, h.label, h.next]

/-! ## Scripts -/

section

variable (names : List String) (dialogue : Dialogue)

theorem isNode_of_mem_names {line : Directive} (h : line ∈ names.map Directive.name) :
    line.isNode = false := by
  obtain ⟨identifier, -, rfl⟩ := List.mem_map.mp h
  rfl

theorem placed_nodeDirectives :
    Placed (names.map Directive.name ++ dialogue.nodeDirectives) where
  opening := by
    rw [opening_append fun _ => isNode_of_mem_names names, Dialogue.nodeDirectives,
      opening_flatMap_directives, List.append_nil]
    intro directive hmem
    obtain ⟨identifier, -, rfl⟩ := List.mem_map.mp hmem
    exact ⟨identifier, rfl⟩
  bodies := by
    rw [blocks_append fun _ => isNode_of_mem_names names, Dialogue.nodeDirectives,
      blocks_flatMap_directives]
    intro block hmem
    obtain ⟨node, -, rfl⟩ := List.mem_map.mp hmem
    simp [bodies_block]

theorem lastName?_nodeDirectives :
    lastName? (names.map Directive.name ++ dialogue.nodeDirectives) = names.getLast? := by
  have hnodes : dialogue.nodeDirectives.filterMap Directive.identifier? = [] := by
    rw [List.filterMap_eq_nil_iff]
    intro directive hmem
    obtain ⟨node, -, hmem⟩ := List.mem_flatMap.mp hmem
    rcases List.mem_cons.mp hmem with rfl | hmem
    · rfl
    rcases List.mem_cons.mp hmem with rfl | hmem
    · rfl
    obtain ⟨response, -, rfl⟩ := List.mem_map.mp hmem
    rfl
  rw [lastName?, List.filterMap_append, hnodes, List.append_nil, List.filterMap_map]
  exact congrArg List.getLast? (List.filterMap_some)

variable {dialogue}

theorem blockNodes_nodeDirectives (h : ∀ node ∈ dialogue.nodes, node.Resolved) :
    blockNodes (names.map Directive.name ++ dialogue.nodeDirectives) = dialogue.nodes := by
  rw [blockNodes, blocks_append fun _ => isNode_of_mem_names names, Dialogue.nodeDirectives,
    blocks_flatMap_directives, List.filterMap_map]
  have hnodes : dialogue.nodes.filterMap (Block.node? ∘ Node.block) = dialogue.nodes.map id :=
    List.filterMap_eq_map_iff_forall_eq_some.mpr fun node hnode => node?_block (h node hnode)
  rw [hnodes, List.map_id, Dialogue.collapse_eq_self dialogue.nodup_labels]

/-- A source that says what a dialogue is made of gives that dialogue. -/
theorem parse_of_contents {file src : String} (hresolved : ∀ node ∈ dialogue.nodes, node.Resolved)
    (hsrc : contents src = (names.map Directive.name ++ dialogue.nodeDirectives).map .ok)
    (hname : dialogue.name = names.getLast?.getD file) : parse file src = .ok dialogue := by
  refine read_eq_ok_iff.mpr ⟨_, hsrc, placed_nodeDirectives names dialogue, ?_, ?_⟩
  · rw [lastName?_nodeDirectives, hname]
  · rw [blockNodes_nodeDirectives names hresolved]

end

end Script

/-! ## Dialogues that can be written -/

/-- Whether a response can be written. -/
@[mk_iff] structure Response.Writable (response : Response) : Prop where
  text : Script.Quotable response.text
  next : Script.Identifier response.next
  next_ne : response.next ≠ "start" ∧ response.next ≠ "quit"
  trigger : ∀ word ∈ response.trigger, Script.Identifier word

/-- Whether a node can be written. -/
@[mk_iff] structure Node.Writable (node : Node) : Prop where
  label : Script.Identifier node.label
  label_ne : node.label ≠ "start"
  text : Script.Quotable node.text
  next : Script.Identifier node.next
  next_ne : node.next ≠ "start" ∧ node.next ≠ "quit"
  responses : ∀ response ∈ node.responses, response.Writable

/-- Whether a dialogue can be written. -/
@[mk_iff] structure Dialogue.Writable (dialogue : Dialogue) : Prop where
  name : Script.Identifier dialogue.name
  nodes : ∀ node ∈ dialogue.nodes, node.Writable

instance (response : Response) : Decidable response.Writable :=
  decidable_of_iff' _ (Response.writable_iff response)

instance (node : Node) : Decidable node.Writable := decidable_of_iff' _ (Node.writable_iff node)

instance (dialogue : Dialogue) : Decidable dialogue.Writable :=
  decidable_of_iff' _ (Dialogue.writable_iff dialogue)

theorem Label.ofSuccessor_eq_self {label : String} (h : label ≠ "start" ∧ label ≠ "quit") :
    Label.ofSuccessor label = label := by
  rw [Label.ofSuccessor, if_neg h.1, if_neg h.2]

theorem Node.Writable.resolved {node : Node} (h : node.Writable) : node.Resolved where
  label := by rw [Label.ofNode, if_neg h.label_ne]
  next := Label.ofSuccessor_eq_self h.next_ne
  responses response hresponse := Label.ofSuccessor_eq_self (h.responses response hresponse).next_ne

theorem Dialogue.Writable.directives {dialogue : Dialogue} (h : dialogue.Writable)
    {directive : Script.Directive} (hmem : directive ∈ dialogue.directives) :
    directive.Writable := by
  rcases List.mem_cons.mp hmem with rfl | hmem
  · exact ⟨by simpa [Script.Directive.words] using h.name, nofun⟩
  obtain ⟨node, hnode, hmem⟩ := List.mem_flatMap.mp hmem
  have hnode := h.nodes node hnode
  rcases List.mem_cons.mp hmem with rfl | hmem
  · exact ⟨by simpa [Script.Directive.words] using hnode.label, nofun⟩
  rcases List.mem_cons.mp hmem with rfl | hmem
  · exact ⟨by simpa [Script.Directive.words] using hnode.next,
      by simpa [Script.Directive.said?] using hnode.text⟩
  obtain ⟨response, hresponse, rfl⟩ := List.mem_map.mp hmem
  have hresponse := hnode.responses response hresponse
  exact ⟨by simpa [Script.Directive.words] using ⟨hresponse.next, hresponse.trigger⟩,
    by simpa [Script.Directive.said?] using hresponse.text⟩

/-- A dialogue that can be written is read back from its script, whatever the
file is called. -/
theorem Script.parse_render (file : String) {dialogue : Dialogue} (h : dialogue.Writable) :
    parse file (render "" dialogue.directives) = .ok dialogue := by
  have hgap : ∀ c ∈ "".toList, Text.isBlank c = true := by simp
  apply parse_of_contents [dialogue.name] fun node hnode => (h.nodes node hnode).resolved
  · exact contents_render (fun directive hmem => (h.directives hmem).plain)
      (fun directive hmem => (h.directives hmem).legible hgap)
      (fun directive hmem => (h.directives hmem).stripComment_render hgap) (by decide)
  · rfl

namespace Dialogue

/-- A dialogue with texts that look like other parts of a script. -/
def tavern : Dialogue where
  name := "tavern"
  nodes :=
    [⟨"START", .question, "\"Ale\" (or wine)?", "QUIT",
        [⟨"Ale ;; a large one", "(bar", some "pay"⟩, ⟨"", "START", none⟩]⟩,
      ⟨"(bar", .statement, "So be it)\r", "quit;", []⟩]
  nodup_labels := by decide

end Dialogue

theorem Script.parse_render_tavern : Dialogue.tavern.Writable ∧
    parse "tavern.scl" (render "" Dialogue.tavern.directives) = .ok Dialogue.tavern :=
  ⟨by decide, parse_render "tavern.scl" (by decide)⟩

end Parley
