import Mathlib.Data.List.Forall2
import Parley.Proofs.CanonicalScripts

/-!
# Clean dialogues

A dialogue that was read from a script has no empty words in it and none with
blanks, and no alias is left in it. Successors and triggers hold no quotes, and
every text stays on one line. In particular no successor is spelled `quit`, so
a node under that label cannot be reached.

Responses are followed back to their lines: each response of a node was said by
a line of its own, in the order of the script, and it has a trigger if and only
if that line is a `trig`.
-/

namespace Parley

/-! ## Words of a node -/

/-- The labels that a node can go on to. -/
def Node.successors (node : Node) : List String :=
  node.next :: node.responses.map Response.next

/-- What a node says and what can be answered. -/
def Node.texts (node : Node) : List String :=
  node.text :: node.responses.map Response.text

/-- The triggers of the responses of a node. -/
def Node.triggers (node : Node) : List String :=
  node.responses.filterMap Response.trigger

/-- Whether the words of a node are as a script can have them, without aliases. -/
structure Node.Clean (node : Node) : Prop where
  label : node.label ≠ "" ∧ Text.isWord node.label ∧ node.label ≠ "start"
  successors : ∀ label ∈ node.successors,
    label ≠ "" ∧ Text.isBareWord label ∧ label ≠ "start" ∧ label ≠ "quit"
  triggers : ∀ word ∈ node.triggers, word ≠ "" ∧ Text.isBareWord word
  texts : ∀ text ∈ node.texts, Text.isLine text

namespace Script

open Text

/-- Whether a directive can be written again: its words are those of one line,
and none of them is an alias. -/
structure Directive.Tidy (directive : Directive) : Prop where
  plain : directive.Plain
  lettered : directive.Lettered
  resolved : directive.resolve = directive

/-- A successor that was read is no alias. -/
theorem ne_alias_of_ofSuccessor {label : String} (h : Label.ofSuccessor label = label) :
    label ≠ "start" ∧ label ≠ "quit" := by
  rw [← h]
  exact Label.ofSuccessor_ne_alias label

section

variable {node : Node} (h : ∀ directive ∈ node.directives, directive.Tidy)

include h

theorem tidy_node : (Directive.node node.kind node.label).Tidy :=
  h _ List.mem_cons_self

theorem tidy_text : (Directive.text node.text node.next).Tidy :=
  h _ (List.mem_cons_of_mem _ List.mem_cons_self)

theorem tidy_response {response : Response} (hresponse : response ∈ node.responses) :
    (Directive.response response.text response.next response.trigger).Tidy := by
  apply h
  apply List.mem_cons_of_mem
  apply List.mem_cons_of_mem
  exact List.mem_map_of_mem hresponse

/-- A node is clean if the directives that declare it are tidy. -/
theorem clean_of_tidy : node.Clean where
  label := by
    have htidy := tidy_node h
    have hlabel : Label.ofNode node.label = node.label := (Directive.node.inj htidy.resolved).2
    refine ⟨(htidy.lettered.words node.label List.mem_cons_self).1, htidy.plain, ?_⟩
    rw [← hlabel]
    exact Label.ofNode_ne_alias node.label
  successors := by
    intro label hlabel
    rcases List.mem_cons.mp hlabel with rfl | hlabel
    · have htidy := tidy_text h
      exact ⟨(htidy.lettered.words node.next List.mem_cons_self).1, htidy.plain.2,
        ne_alias_of_ofSuccessor (Directive.text.inj htidy.resolved).2⟩
    · obtain ⟨response, hresponse, rfl⟩ := List.mem_map.mp hlabel
      have htidy := tidy_response h hresponse
      exact ⟨(htidy.lettered.words response.next List.mem_cons_self).1, htidy.plain.2.1,
        ne_alias_of_ofSuccessor (Directive.response.inj htidy.resolved).2.1⟩
  triggers := by
    intro word hword
    obtain ⟨response, hresponse, htrigger⟩ := List.mem_filterMap.mp hword
    have htidy := tidy_response h hresponse
    have hmem : word ∈ response.trigger.toList := Option.mem_toList.mpr htrigger
    exact ⟨(htidy.lettered.words word (List.mem_cons_of_mem _ hmem)).1,
      htidy.plain.2.2 word htrigger⟩
  texts := by
    intro text htext
    rcases List.mem_cons.mp htext with rfl | htext
    · exact (tidy_text h).plain.1
    · obtain ⟨response, hresponse, rfl⟩ := List.mem_map.mp htext
      exact (tidy_response h hresponse).plain.1

end

/-- The directives of a dialogue that was read are tidy. -/
theorem tidy_of_mem_nodeDirectives {src : String} {directives : List Directive}
    {dialogue : Dialogue} (hlines : contents src = directives.map .ok)
    (hnodes : dialogue.nodes = blockNodes directives) {directive : Directive}
    (h : directive ∈ dialogue.nodeDirectives) : directive.Tidy := by
  obtain ⟨line, hline, rfl⟩ := exists_of_mem_nodeDirectives hnodes h
  exact ⟨(plain_of_contents hlines line hline).resolve,
    (lettered_of_contents hlines line hline).resolve, line.resolve_resolve⟩

/-! ## The lines of responses -/

/-- The keyword that a line begins with. -/
def keyword? : List Char → Option Keyword
  | '(' :: body => Keyword.ofWord? (String.ofList (body.takeWhile Directive.isKeywordChar))
  | _ => none

/-- Whether a line says a response. It is a `trig` if the response has a trigger
and a `resp` otherwise. -/
structure SaysResponse (raw : List Char) (response : Response) : Prop where
  keyword : keyword? (trim (stripComment raw)) =
    some (if response.trigger.isSome then .trig else .resp)
  content : ∃ next, contentOf raw = .ok (.response response.text next response.trigger) ∧
    Label.ofSuccessor next = response.next

/-- Arguments are read to a directive of their keyword. -/
theorem keyword_of_readArgs {keyword : Keyword} {args : List Char} {directive : Directive}
    (h : Directive.readArgs keyword args = .ok directive) : directive.keyword = keyword := by
  cases keyword <;>
    simp only [Directive.readArgs, Directive.readName, Directive.readNode, Directive.readText,
      Directive.readResp, Directive.readTrig] at h <;>
    repeat' split at h
  all_goals first
    | contradiction
    | (obtain rfl := Except.ok.inj h; rfl)

theorem keyword?_of_read {line : List Char} {directive : Directive}
    (h : Directive.read line = .ok directive) : keyword? line = some directive.keyword := by
  unfold Directive.read at h
  split at h
  next body =>
    split at h
    next keyword hkeyword => rw [keyword?, hkeyword, keyword_of_readArgs h]
    next => contradiction
  next => contradiction

/-- The response that a line says, if it says one. -/
def responseOf? (raw : List Char) : Option Response :=
  (contentOf raw).toOption.bind Directive.response?

theorem saysResponse_of_responseOf? {raw : List Char} {response : Response}
    (h : responseOf? raw = some response) : SaysResponse raw response := by
  unfold responseOf? at h
  cases hcontent : contentOf raw with
  | error fault => simp [hcontent, Except.toOption] at h
  | ok directive =>
      have hresponse : directive.response? = some response := by
        simpa [hcontent, Except.toOption] using h
      cases directive with
      | response said next trigger =>
          obtain rfl := Option.some.inj hresponse
          refine ⟨?_, next, hcontent, rfl⟩
          rw [keyword?_of_read hcontent]
          cases trigger <;> rfl
      | name => contradiction
      | node => contradiction
      | text => contradiction

/-- The lines of a block follow each other in the script. -/
theorem lines_sublist_of_mem_blocks {directives : List Directive} {block : Block}
    (h : block ∈ blocks directives) : block.lines.Sublist directives := by
  fun_induction blocks directives with
  | case1 => simp at h
  | case2 kind label rest ih =>
      rcases List.mem_cons.mp h with rfl | h
      · exact (List.takeWhile_sublist _).cons _
      · exact (ih h).cons _
  | case3 first rest _ ih => exact (ih h).cons _

/-- Directives of a script are said by lines of its source, in their order. -/
theorem exists_sublist_lines {src : String} {directives chosen : List Directive}
    (hlines : contents src = directives.map .ok) (h : chosen.Sublist directives) :
    ∃ raws : List (List Char),
      raws.Sublist (lines src.toList) ∧ raws.map contentOf = chosen.map .ok := by
  have hsublist : (chosen.map .ok).Sublist (contents src) := by
    rw [hlines]
    exact h.map _
  obtain ⟨raws, hraws, hread⟩ := List.sublist_map_iff.mp hsublist
  exact ⟨raws, hraws.trans List.filter_sublist, hread.symm⟩

/-- Each element that a list is mapped to has its own origin in the list. -/
theorem forall₂_filter_filterMap {α β : Type} (f : α → Option β) (l : List α) :
    List.Forall₂ (fun a b => f a = some b) (l.filter fun a => (f a).isSome) (l.filterMap f) := by
  induction l with
  | nil => exact .nil
  | cons a l ih =>
      cases ha : f a with
      | none => simpa [ha] using ih
      | some b => simpa [ha] using ih

/-- The responses of a block are said by lines of the source, one each. -/
theorem exists_saysResponse {src : String} {directives : List Directive} {block : Block}
    (hlines : contents src = directives.map .ok) (h : block ∈ blocks directives) :
    ∃ raws : List (List Char), raws.Sublist (lines src.toList) ∧
      List.Forall₂ SaysResponse raws (block.lines.filterMap Directive.response?) := by
  obtain ⟨raws, hraws, hcontent⟩ :=
    exists_sublist_lines hlines (lines_sublist_of_mem_blocks h)
  have hresponses : block.lines.filterMap Directive.response? = raws.filterMap responseOf? := by
    have hmap := congrArg (List.filterMap fun content =>
      content.toOption.bind Directive.response?) hcontent
    rw [List.filterMap_map, List.filterMap_map] at hmap
    exact hmap.symm
  rw [hresponses]
  exact ⟨_, List.filter_sublist.trans hraws,
    (forall₂_filter_filterMap responseOf? raws).imp fun _ _ => saysResponse_of_responseOf?⟩

/-! ## Dialogues -/

theorem exists_saysResponse_of_mem {src : String} {directives : List Directive} {node : Node}
    (hlines : contents src = directives.map .ok) (h : node ∈ blockNodes directives) :
    ∃ raws : List (List Char), raws.Sublist (lines src.toList) ∧
      List.Forall₂ SaysResponse raws node.responses := by
  obtain ⟨block, hblock, hnode⟩ := List.mem_filterMap.mp (mem_of_mem_collapse h)
  obtain ⟨⟨said, next⟩, -, rfl⟩ := Option.map_eq_some_iff.mp hnode
  exact exists_saysResponse hlines hblock

/-- A name that was read is a word. -/
theorem isWord_of_lastName? {src : String} {directives : List Directive} {identifier : String}
    (hlines : contents src = directives.map .ok) (h : lastName? directives = some identifier) :
    identifier ≠ "" ∧ isWord identifier := by
  have hmem := mem_of_lastName? h
  exact ⟨((lettered_of_contents hlines _ hmem).words identifier List.mem_cons_self).1,
    plain_of_contents hlines _ hmem⟩

/-- A dialogue that was read from a script is clean. Its labels are distinct, its
words are words, and every response comes from a line of its own. A name that
was given in the script is a word. No successor leads to a node under `quit`. -/
theorem clean_of_parse {file src : String} {dialogue : Dialogue}
    (h : parse file src = .ok dialogue) :
    (dialogue.nodes.map Node.label).Nodup ∧
      (∀ node ∈ dialogue.nodes, node.Clean ∧
        ∃ raws : List (List Char), raws.Sublist (lines src.toList) ∧
          List.Forall₂ SaysResponse raws node.responses) ∧
      (isNamed src = true → dialogue.name ≠ "" ∧ isWord dialogue.name) ∧
      ∀ node ∈ dialogue.nodes, ∀ other ∈ dialogue.nodes,
        other.label = "quit" → other.label ∉ node.successors := by
  obtain ⟨directives, hlines, -, hname, hnodes⟩ := read_eq_ok_iff.mp h
  have hclean : ∀ node ∈ dialogue.nodes, node.Clean := by
    intro node hnode
    apply clean_of_tidy
    intro directive hdirective
    apply tidy_of_mem_nodeDirectives hlines hnodes
    exact List.mem_flatMap.mpr ⟨node, hnode, hdirective⟩
  refine ⟨dialogue.nodup_labels, ?_, ?_, ?_⟩
  · intro node hnode
    exact ⟨hclean node hnode, exists_saysResponse_of_mem hlines (hnodes ▸ hnode)⟩
  · intro hnamed
    obtain ⟨identifier, hidentifier⟩ :=
      Option.ne_none_iff_exists'.mp ((isNamed_iff hlines).mp hnamed)
    rw [hname, hidentifier, Option.getD_some]
    exact isWord_of_lastName? hlines hidentifier
  · intro node hnode other _ hquit hsuccessor
    exact ((hclean node hnode).successors other.label hsuccessor).2.2.2 hquit

/-- A toll gate, with a node behind it that nothing leads to. -/
def tollScript : String :=
  "(node q start)\n(text \"Pay;; or \"swim?\" quit)\n(trig \"Pay\" quit open_gate) ;; a coin\n" ++
    "(resp \"Swim\" start)\n(node s quit)\n(text \"Gone.\" quit)\n(name toll)\n"

def toll : Dialogue where
  name := "toll"
  nodes := [⟨"START", .question, "Pay;; or \"swim?", "QUIT",
      [⟨"Pay", "QUIT", some "open_gate"⟩, ⟨"Swim", "START", none⟩]⟩,
    ⟨"quit", .statement, "Gone.", "QUIT", []⟩]
  nodup_labels := by decide

theorem clean_of_parse_toll : parse "toll.scl" tollScript = .ok toll ∧ isNamed tollScript = true ∧
    toll.name ≠ "" ∧ (∀ node ∈ toll.nodes, node.Clean) ∧
      (toll.get? "quit").isSome = true ∧ ∀ node ∈ toll.nodes, "quit" ∉ node.successors := by
  have hparse : parse "toll.scl" tollScript = .ok toll := by decide +kernel
  have hnamed : isNamed tollScript = true := by decide +kernel
  obtain ⟨-, hnodes, hname, hquit⟩ := clean_of_parse hparse
  refine ⟨hparse, hnamed, (hname hnamed).1, fun node hnode => (hnodes node hnode).1, rfl, ?_⟩
  intro node hnode
  have hmem : ⟨"quit", .statement, "Gone.", "QUIT", []⟩ ∈ toll.nodes := by decide
  exact hquit node hnode _ hmem rfl

end Script

end Parley
