import Parley.Proofs.CanonicalScripts
import Parley.Proofs.Errors

/-!
# Scripts one after the other

Two scripts that are read on their own are read together when one is put behind
the other, and the nodes of the second are inserted into the dialogue of the
first. The end of the first script may be inside a block. Names in front of the
first block of the second then fall into that block, where they say nothing about
its node.

A script inserts all of its blocks, also those that a later one replaces.
Inserting only the nodes that remain comes to the same.
-/

namespace Parley

namespace Dialogue

/-! ## Inserting into a dialogue that has nodes -/

theorem rename_foldl_insert (dialogue : Dialogue) (nodes : List Node) (name : String) :
    nodes.foldl insert (dialogue.rename name) = (nodes.foldl insert dialogue).rename name := by
  induction nodes generalizing dialogue with
  | nil => rfl
  | cons node nodes ih => exact ih (dialogue.insert node)

theorem eraseDups_labels (dialogue : Dialogue) :
    (dialogue.nodes.map Node.label).eraseDups = dialogue.nodes.map Node.label := by
  rw [← labels_foldl_insert "", nodes_foldl_insert, collapse_eq_self dialogue.nodup_labels]

/-- The nodes of a dialogue answer to their labels. -/
theorem getLast?_filter_nodes (dialogue : Dialogue) (label : String) :
    (dialogue.nodes.filter fun node => node.label = label).getLast? = dialogue.get? label := by
  rw [← get?_foldl_insert "", get?, nodes_foldl_insert, collapse_eq_self dialogue.nodup_labels,
    get?]

/-- Inserting all nodes comes to inserting those that remain of them. -/
theorem nodes_foldl_insert_collapse (dialogue : Dialogue) (nodes : List Node) :
    ((collapse nodes).foldl insert dialogue).nodes = (nodes.foldl insert dialogue).nodes := by
  rw [← nodes_foldl_insert ""]
  -- Both sides have the same labels in the same order, and the same node under each.
  have hlabels :
      ((nodes.foldl insert (empty "")).nodes.foldl insert dialogue).nodes.map Node.label =
        (nodes.foldl insert dialogue).nodes.map Node.label := by
    rw [labels_foldl_insert_append dialogue, eraseDups_labels, labels_foldl_insert,
      labels_foldl_insert_append]
  have hget : ((nodes.foldl insert (empty "")).nodes.foldl insert dialogue).get? =
      (nodes.foldl insert dialogue).get? := by
    funext label
    rw [get?_foldl_insert_or, get?_foldl_insert_or, getLast?_filter_nodes, get?_foldl_insert]
  rw [nodes_eq_filterMap, hlabels, hget, ← nodes_eq_filterMap]

end Dialogue

namespace Script

open Text

/-! ## Blocks of scripts one after the other -/

/-- Names at the end of a block add neither texts nor responses to it. -/
theorem filterMap_opening_append {α : Type} {f : Directive → Option α}
    (hf : ∀ identifier, f (.name identifier) = none) (directives : List Directive)
    {more : List Directive}
    (hmore : ∀ directive ∈ opening more, ∃ identifier, directive = .name identifier) :
    (opening (directives ++ more)).filterMap f = (opening directives).filterMap f := by
  induction directives with
  | nil =>
      refine List.filterMap_eq_nil_iff.mpr fun directive hmem => ?_
      obtain ⟨identifier, rfl⟩ := hmore directive hmem
      exact hf identifier
  | cons directive directives ih =>
      cases hnode : directive.isNode with
      | true => simp [opening, hnode]
      | false =>
          have hopening : ∀ rest, opening (directive :: rest) = directive :: opening rest :=
            fun rest => by simp [opening, hnode]
          rw [List.cons_append, hopening, hopening, List.filterMap_cons, ih, ← List.filterMap_cons]

theorem node?_opening_append (kind : NodeKind) (label : String) (directives : List Directive)
    {more : List Directive}
    (hmore : ∀ directive ∈ opening more, ∃ identifier, directive = .name identifier) :
    (Block.mk kind label (opening (directives ++ more))).node? =
      (Block.mk kind label (opening directives)).node? := by
  have hbody := filterMap_opening_append (fun _ => rfl : ∀ _, (Directive.name _).body? = none)
    directives hmore
  have hresponse := filterMap_opening_append
    (fun _ => rfl : ∀ _, (Directive.name _).response? = none) directives hmore
  simp only [Block.node?, Block.bodies, hbody, hresponse]

theorem map_node?_blocks_append (directives : List Directive) {more : List Directive}
    (hmore : ∀ directive ∈ opening more, ∃ identifier, directive = .name identifier) :
    (blocks (directives ++ more)).map Block.node? =
      (blocks directives).map Block.node? ++ (blocks more).map Block.node? := by
  induction directives with
  | nil => rfl
  | cons directive directives ih =>
      cases directive with
      | node kind label =>
          simp only [List.cons_append, blocks, List.map_cons, ih,
            node?_opening_append kind label directives hmore]
      | name => exact ih
      | text => exact ih
      | response => exact ih

theorem placed_iff {directives : List Directive} :
    Placed directives ↔
      (∀ directive ∈ opening directives, ∃ identifier, directive = .name identifier) ∧
        none ∉ (blocks directives).map Block.node? := by
  have hbodies : none ∉ (blocks directives).map Block.node? ↔
      ∀ block ∈ blocks directives, block.bodies ≠ [] := by
    simp [Block.node?_eq_none_iff]
  rw [hbodies]
  exact ⟨fun h => ⟨h.opening, h.bodies⟩, fun h => ⟨h.1, h.2⟩⟩

theorem mem_opening_append {directives more : List Directive} {directive : Directive}
    (h : directive ∈ opening (directives ++ more)) :
    directive ∈ opening directives ∨ directive ∈ opening more := by
  induction directives with
  | nil => exact .inr h
  | cons first directives ih =>
      cases hnode : first.isNode with
      | true => simp [opening, hnode] at h
      | false =>
          simp only [opening, List.cons_append, List.takeWhile_cons, hnode] at h ⊢
          rcases List.mem_cons.mp h with rfl | h
          · exact .inl List.mem_cons_self
          · exact (ih h).imp_left (List.mem_cons_of_mem _)

theorem Placed.append {directives more : List Directive} (h : Placed directives)
    (hmore : Placed more) : Placed (directives ++ more) := by
  rw [placed_iff] at h hmore ⊢
  refine ⟨fun directive hmem => ?_, ?_⟩
  · exact (mem_opening_append hmem).elim (h.1 directive) (hmore.1 directive)
  · rw [map_node?_blocks_append directives hmore.1, List.mem_append, not_or]
    exact ⟨h.2, hmore.2⟩

theorem filterMap_node?_blocks_append (directives : List Directive) {more : List Directive}
    (hmore : Placed more) :
    (blocks (directives ++ more)).filterMap Block.node? =
      (blocks directives).filterMap Block.node? ++ (blocks more).filterMap Block.node? := by
  have hmap := congrArg (List.filterMap id) (map_node?_blocks_append directives hmore.opening)
  simpa [List.filterMap_map] using hmap

theorem lastName?_append (directives more : List Directive) :
    lastName? (directives ++ more) = (lastName? more).or (lastName? directives) := by
  rw [lastName?, List.filterMap_append, List.getLast?_append]
  rfl

/-- The nodes of both scripts are the nodes of the first one with those of the
second inserted. -/
theorem blockNodes_append {directives more : List Directive} {dialogue : Dialogue}
    (h : dialogue.nodes = blockNodes directives) (hmore : Placed more) :
    blockNodes (directives ++ more) =
      ((blockNodes more).foldl Dialogue.insert dialogue).nodes := by
  let start := ((blocks directives).filterMap Block.node?).foldl Dialogue.insert (.empty "")
  have hstart : dialogue = start.rename dialogue.name :=
    Dialogue.eq_iff.mpr ⟨rfl, h.trans (Dialogue.nodes_foldl_insert "" _).symm⟩
  rw [blockNodes, filterMap_node?_blocks_append directives hmore, ← Dialogue.nodes_foldl_insert "",
    List.foldl_append, blockNodes, Dialogue.nodes_foldl_insert_collapse, hstart,
    Dialogue.rename_foldl_insert]
  rfl

/-! ## Sources one after the other -/

/-- A line end cuts a source. -/
theorem lines_append {front : List Char} (h : front = [] ∨ front.getLast? = some '\n')
    (back : List Char) : lines (front ++ back) = lines front ++ lines back := by
  rcases h with rfl | h
  · rfl
  · obtain ⟨most, rfl⟩ := List.getLast?_eq_some_iff.mp h
    rw [List.append_assoc, List.singleton_append]
    exact terminated_append_separator rfl most back

example : lines "a\n\nb\n".toList = ["a".toList, [], "b".toList] := by decide

theorem contents_append {front : String} (h : front = "" ∨ front.toList.getLast? = some '\n')
    (back : String) : contents (front ++ back) = contents front ++ contents back := by
  have hlines : lines (front ++ back).toList = lines front.toList ++ lines back.toList := by
    rw [String.toList_append]
    exact lines_append (h.imp_left fun hempty => by rw [hempty]; rfl) back.toList
  rw [contents, hlines, said_append]
  rfl

/-- Two scripts can be read together if both can be read on their own, and the
first is empty or ends with its last line. The second names the dialogue if it
has a `name` line. The nodes are those of the first with those of the second
inserted: labels of the first keep their places, new ones follow in their order,
and a label that both have means what the second says. -/
theorem parse_append {file front back : String} {first second : Dialogue}
    (hend : front = "" ∨ front.toList.getLast? = some '\n')
    (hfirst : parse file front = .ok first) (hsecond : parse file back = .ok second) :
    ∃ dialogue, parse file (front ++ back) = .ok dialogue ∧
      dialogue.name = (if isNamed back then second.name else first.name) ∧
      dialogue.nodes = (second.nodes.foldl Dialogue.insert first).nodes ∧
      dialogue.nodes.map Node.label = first.nodes.map Node.label ++
        (second.nodes.map Node.label).filter (· ∉ first.nodes.map Node.label) ∧
      ∀ label, dialogue.get? label = (second.get? label).or (first.get? label) := by
  obtain ⟨directives, hlines, hplaced, hname, hnodes⟩ := read_eq_ok_iff.mp hfirst
  obtain ⟨more, hmoreLines, hmorePlaced, hmoreName, hmoreNodes⟩ := read_eq_ok_iff.mp hsecond
  have hcontents : contents (front ++ back) = (directives ++ more).map .ok := by
    rw [contents_append hend, hlines, hmoreLines, List.map_append]
  obtain ⟨dialogue, hjoinedName, hjoinedNodes⟩ : ∃ dialogue : Dialogue,
      dialogue.name = (if isNamed back then second.name else first.name) ∧
        dialogue.nodes = (second.nodes.foldl Dialogue.insert first).nodes :=
    ⟨(second.nodes.foldl Dialogue.insert first).rename _, rfl, rfl⟩
  have hlast : dialogue.name = (lastName? (directives ++ more)).getD file := by
    have hnamed := isNamed_iff hmoreLines
    rw [hjoinedName, lastName?_append]
    cases hlast : lastName? more with
    | none => simp [hnamed, hlast, hname]
    | some identifier => simp [hnamed, hlast, hmoreName]
  have hblocks : dialogue.nodes = blockNodes (directives ++ more) := by
    rw [hjoinedNodes, blockNodes_append hnodes hmorePlaced, ← hmoreNodes]
  refine ⟨dialogue, read_eq_ok_iff.mpr ⟨directives ++ more, hcontents, hplaced.append hmorePlaced,
    hlast, hblocks⟩, hjoinedName, hjoinedNodes, ?_, fun label => ?_⟩
  · rw [hjoinedNodes, Dialogue.labels_foldl_insert_append, Dialogue.eraseDups_labels]
  · rw [Dialogue.get?, hjoinedNodes, ← Dialogue.get?, Dialogue.get?_foldl_insert_or,
      Dialogue.getLast?_filter_nodes]

/-- A mill by day, cut off inside a block. -/
def millScript : String :=
  "(node s start)\n(text \"Grain?\" yard)\n(node q yard)\n(text \"Mud.\" quit)\n"

/-- What changes at night. The yard is described twice. -/
def nightScript : String :=
  "(name night)\n(node s loft)\n(text \"Dust.\" yard)\n(node q yard)\n(text \"Dark.\" quit)\n" ++
    "(node s yard)\n(text \"Fog.\" loft)"

def mill : Dialogue where
  name := "mill.scl"
  nodes := [⟨"START", .statement, "Grain?", "yard", []⟩, ⟨"yard", .question, "Mud.", "QUIT", []⟩]
  nodup_labels := by decide

def night : Dialogue where
  name := "night"
  nodes := [⟨"loft", .statement, "Dust.", "yard", []⟩, ⟨"yard", .statement, "Fog.", "loft", []⟩]
  nodup_labels := by decide

theorem parse_append_mill :
    parse "mill.scl" millScript = .ok mill ∧ parse "mill.scl" nightScript = .ok night ∧
      ∃ dialogue, parse "mill.scl" (millScript ++ nightScript) = .ok dialogue ∧
        dialogue.name = "night" ∧ dialogue.nodes.map Node.label = ["START", "yard", "loft"] ∧
        dialogue.get? "yard" = some ⟨"yard", .statement, "Fog.", "loft", []⟩ := by
  have hmill : parse "mill.scl" millScript = .ok mill := by decide +kernel
  have hnight : parse "mill.scl" nightScript = .ok night := by decide +kernel
  have hnamed : isNamed nightScript = true := by decide +kernel
  have hend : millScript.toList.getLast? = some '\n' := by decide +kernel
  obtain ⟨dialogue, hparse, hname, -, hlabels, hget⟩ := parse_append (.inr hend) hmill hnight
  rw [if_pos hnamed] at hname
  exact ⟨hmill, hnight, dialogue, hparse, hname, hlabels.trans (by decide), hget "yard"⟩

end Script

end Parley
