import Parley.Proofs.Blocks
import Parley.Proofs.Pieces

/-!
# What the words of a script can be

Names, labels, successors and triggers are words of one line, so they hold no
blanks. Successors and triggers stand behind the last quote of their line, so
they hold no quotes either. A text may hold anything but a line feed. All nodes
of a dialogue that was read from a script are made of such words and texts.
-/

namespace Parley

namespace Text

/-- Whether a text holds no blanks. -/
def isWord (text : String) : Prop := ∀ c ∈ text.toList, isBlank c = false

/-- Whether a text holds neither blanks nor double quotes. -/
def isBareWord (text : String) : Prop := isWord text ∧ '"' ∉ text.toList

/-- Whether a text stays on one line. -/
def isLine (text : String) : Prop := '\n' ∉ text.toList

instance (text : String) : Decidable (isWord text) := List.decidableBAll _ text.toList

instance (text : String) : Decidable (isBareWord text) := inferInstanceAs (Decidable (_ ∧ _))

instance (text : String) : Decidable (isLine text) := inferInstanceAs (Decidable (_ ∉ _))

theorem isWord.not_mem {text : String} (h : isWord text) {c : Char} (hc : isBlank c = true) :
    c ∉ text.toList := by
  intro hmem
  rw [h c hmem] at hc
  contradiction

theorem isWord.isLine {text : String} (h : isWord text) : isLine text := h.not_mem (by decide)

end Text

namespace Script

open Text

/-! ## Lexing -/

theorem mem_of_mem_fields {args : List Char} {field : String} (h : field ∈ Directive.fields args) :
    ∀ c ∈ field.toList, c ∈ args ∧ isBlank c = false := by
  obtain ⟨cs, hcs, rfl⟩ := List.mem_map.mp h
  intro c hc
  rw [String.toList_ofList] at hc
  obtain ⟨hmem, hblank⟩ := mem_of_mem_runs hcs hc
  exact ⟨mem_of_mem_trim (mem_of_mem_dropEndWhile hmem), hblank⟩

theorem isWord_of_mem_fields {args : List Char} {field : String}
    (h : field ∈ Directive.fields args) : isWord field :=
  fun c hc => (mem_of_mem_fields h c hc).2

/-- A quotation is part of its line, and what follows it holds no quote. -/
theorem quotation?_eq_some {args rest : List Char} {said : String}
    (h : Directive.quotation? args = some (said, rest)) :
    (∀ c ∈ said.toList, c ∈ args) ∧ '"' ∉ rest := by
  unfold Directive.quotation? at h
  split at h
  next => contradiction
  next opening body hbody =>
    split at h
    next => contradiction
    next closing inner hinner =>
      obtain ⟨rfl, rfl⟩ := Prod.mk.inj (Option.some.inj h)
      constructor
      · intro c hc
        rw [String.toList_ofList, List.mem_reverse] at hc
        have hinner' : c ∈ body.reverse.dropWhile (!Directive.isQuote ·) := by
          rw [hinner]
          exact List.mem_cons_of_mem _ hc
        have hbody' : c ∈ args.dropWhile (!Directive.isQuote ·) := by
          rw [hbody]
          exact List.mem_cons_of_mem _
            (List.mem_reverse.mp ((List.dropWhile_sublist _).subset hinner'))
        exact (List.dropWhile_sublist _).subset hbody'
      · intro hquote
        exact absurd (of_mem_takeEndWhile hquote) (by decide)

theorem isBareWord_of_mem_fields {rest : List Char} {field : String} (hrest : '"' ∉ rest)
    (h : field ∈ Directive.fields rest) : isBareWord field :=
  ⟨isWord_of_mem_fields h, fun hquote => hrest (mem_of_mem_fields h _ hquote).1⟩

/-- Whether a directive is made of words and texts as they are found on one line. -/
def Directive.Plain : Directive → Prop
  | .name identifier => isWord identifier
  | .node _ label => isWord label
  | .text said next => isLine said ∧ isBareWord next
  | .response said next trigger =>
      isLine said ∧ isBareWord next ∧ ∀ word ∈ trigger, isBareWord word

theorem plain_of_readName {args : List Char} {directive : Directive}
    (h : Directive.readName args = .ok directive) : directive.Plain := by
  unfold Directive.readName at h
  split at h
  next identifier more hfields =>
    have hmem : identifier ∈ Directive.fields args := by
      rw [hfields]
      exact List.mem_cons_self
    obtain rfl := Except.ok.inj h
    exact isWord_of_mem_fields hmem
  next => contradiction

theorem plain_of_readNode {args : List Char} {directive : Directive}
    (h : Directive.readNode args = .ok directive) : directive.Plain := by
  unfold Directive.readNode at h
  split at h
  next => contradiction
  next => contradiction
  next tag label more hfields =>
    split at h
    next kind _ =>
      have hmem : label ∈ Directive.fields args := by
        rw [hfields]
        exact List.mem_cons_of_mem tag List.mem_cons_self
      obtain rfl := Except.ok.inj h
      exact isWord_of_mem_fields hmem
    next => contradiction

section

variable {args rest : List Char} {said field : String} {directive : Directive}

theorem isLine_of_quotation? (hline : '\n' ∉ args)
    (h : Directive.quotation? args = some (said, rest)) : isLine said :=
  fun hfeed => hline ((quotation?_eq_some h).1 _ hfeed)

theorem isBareWord_of_quotation? (h : Directive.quotation? args = some (said, rest))
    (hmem : field ∈ Directive.fields rest) : isBareWord field :=
  isBareWord_of_mem_fields (quotation?_eq_some h).2 hmem

theorem plain_of_readText (hline : '\n' ∉ args) (h : Directive.readText args = .ok directive) :
    directive.Plain := by
  unfold Directive.readText at h
  split at h
  next => contradiction
  next said rest hquotation =>
    split at h
    next next hnext =>
      obtain rfl := Except.ok.inj h
      exact ⟨isLine_of_quotation? hline hquotation,
        isBareWord_of_quotation? hquotation (List.mem_of_getLast? hnext)⟩
    next => contradiction

theorem plain_of_readResp (hline : '\n' ∉ args) (h : Directive.readResp args = .ok directive) :
    directive.Plain := by
  unfold Directive.readResp at h
  split at h
  next => contradiction
  next said rest hquotation =>
    split at h
    next next more hfields =>
      obtain rfl := Except.ok.inj h
      exact ⟨isLine_of_quotation? hline hquotation,
        isBareWord_of_quotation? hquotation (by rw [hfields]; simp), nofun⟩
    next => contradiction

theorem plain_of_readTrig (hline : '\n' ∉ args) (h : Directive.readTrig args = .ok directive) :
    directive.Plain := by
  unfold Directive.readTrig at h
  split at h
  next => contradiction
  next said rest hquotation =>
    split at h
    next next trigger more hfields =>
      obtain rfl := Except.ok.inj h
      refine ⟨isLine_of_quotation? hline hquotation,
        isBareWord_of_quotation? hquotation (by rw [hfields]; simp), ?_⟩
      intro word hword
      obtain rfl := Option.mem_some_iff.mp hword
      exact isBareWord_of_quotation? hquotation (by rw [hfields]; simp)
    next => contradiction
    next => contradiction

theorem plain_of_readArgs {keyword : Keyword} (hline : '\n' ∉ args)
    (h : Directive.readArgs keyword args = .ok directive) : directive.Plain := by
  cases keyword with
  | name => exact plain_of_readName h
  | node => exact plain_of_readNode h
  | text => exact plain_of_readText hline h
  | resp => exact plain_of_readResp hline h
  | trig => exact plain_of_readTrig hline h

end

theorem plain_of_read {cs : List Char} {directive : Directive} (hline : '\n' ∉ cs)
    (h : Directive.read cs = .ok directive) : directive.Plain := by
  unfold Directive.read at h
  split at h
  next body =>
    split at h
    next keyword hkeyword =>
      refine plain_of_readArgs ?_ h
      intro hfeed
      exact hline (List.mem_cons_of_mem _ ((List.dropWhile_sublist _).subset hfeed))
    next => contradiction
  next => contradiction

theorem beforeComment_sublist (quoted : Bool) (line : List Char) :
    (beforeComment quoted line).Sublist line := by
  fun_induction beforeComment quoted line with
  | case1 => exact List.Sublist.refl _
  | case2 quoted rest ih => exact ih.cons_cons _
  | case3 => exact List.nil_sublist _
  | case4 quoted c rest _ _ ih => exact ih.cons_cons _

theorem plain_of_contents {src : String} {directives : List Directive}
    (h : contents src = directives.map .ok) : ∀ directive ∈ directives, directive.Plain := by
  intro directive hmem
  obtain ⟨raw, hraw, hread⟩ := exists_contentOf h hmem
  refine plain_of_read ?_ hread
  intro hfeed
  have hmem := (beforeComment_sublist false raw).subset (mem_of_mem_trim hfeed)
  exact absurd (mem_of_mem_terminated hraw hmem).2 (by decide)

end Script

/-! ## Nodes -/

/-- Whether a response is made of words and texts as a script has them. -/
structure Response.Plain (response : Response) : Prop where
  text : Text.isLine response.text
  next : Text.isBareWord response.next
  trigger : ∀ word ∈ response.trigger, Text.isBareWord word

/-- Whether a node is made of words and texts as a script has them. -/
structure Node.Plain (node : Node) : Prop where
  label : Text.isWord node.label
  text : Text.isLine node.text
  next : Text.isBareWord node.next
  responses : ∀ response ∈ node.responses, response.Plain

theorem Label.isWord_ofNode {label : String} (h : Text.isWord label) :
    Text.isWord (Label.ofNode label) := by
  unfold Label.ofNode
  split
  · decide
  · exact h

theorem Label.isBareWord_ofSuccessor {label : String} (h : Text.isBareWord label) :
    Text.isBareWord (Label.ofSuccessor label) := by
  unfold Label.ofSuccessor
  split
  · decide
  · split
    · decide
    · exact h

namespace Script

theorem opening_subset {directives : List Directive} : opening directives ⊆ directives :=
  (List.takeWhile_sublist _).subset

/-- The lines of a block are lines of the script, and so is the line above them. -/
theorem mem_of_mem_blocks {directives : List Directive} {block : Block}
    (h : block ∈ blocks directives) :
    .node block.kind block.label ∈ directives ∧ block.lines ⊆ directives := by
  fun_induction blocks directives with
  | case1 => simp at h
  | case2 kind label rest ih =>
      rcases List.mem_cons.mp h with rfl | h
      · exact ⟨List.mem_cons_self, List.subset_cons_of_subset _ opening_subset⟩
      · obtain ⟨hnode, hlines⟩ := ih h
        exact ⟨List.mem_cons_of_mem _ hnode, List.subset_cons_of_subset _ hlines⟩
  | case3 first rest _ ih =>
      obtain ⟨hnode, hlines⟩ := ih h
      exact ⟨List.mem_cons_of_mem _ hnode, List.subset_cons_of_subset _ hlines⟩

theorem plain_of_body? {directive : Directive} (h : directive.Plain) {said next : String}
    (hbody : directive.body? = some (said, next)) : Text.isLine said ∧ Text.isBareWord next := by
  cases directive with
  | text said' next' =>
      obtain ⟨rfl, rfl⟩ := Prod.mk.inj (Option.some.inj hbody)
      exact ⟨h.1, Label.isBareWord_ofSuccessor h.2⟩
  | name => contradiction
  | node => contradiction
  | response => contradiction

theorem plain_of_response? {directive : Directive} (h : directive.Plain) {response : Response}
    (hresponse : directive.response? = some response) : response.Plain := by
  cases directive with
  | response said next trigger =>
      obtain rfl := Option.some.inj hresponse
      exact ⟨h.1, Label.isBareWord_ofSuccessor h.2.1, h.2.2⟩
  | name => contradiction
  | node => contradiction
  | text => contradiction

theorem plain_of_node? {block : Block} {node : Node}
    (hlabel : Text.isWord block.label) (hlines : ∀ directive ∈ block.lines, directive.Plain)
    (h : block.node? = some node) : node.Plain := by
  obtain ⟨⟨said, next⟩, hbody, rfl⟩ := Option.map_eq_some_iff.mp h
  obtain ⟨directive, hdirective, hbody⟩ := List.mem_filterMap.mp (List.mem_of_getLast? hbody)
  obtain ⟨hsaid, hnext⟩ := plain_of_body? (hlines directive hdirective) hbody
  refine ⟨Label.isWord_ofNode hlabel, hsaid, hnext, ?_⟩
  intro response hresponse
  obtain ⟨line, hline, hresponse⟩ := List.mem_filterMap.mp hresponse
  exact plain_of_response? (hlines line hline) hresponse

theorem mem_of_mem_collapse {nodes : List Node} {node : Node}
    (h : node ∈ Dialogue.collapse nodes) : node ∈ nodes := by
  obtain ⟨label, -, hnode⟩ := List.mem_filterMap.mp h
  exact (List.mem_filter.mp (List.mem_of_getLast? hnode)).1

/-- A dialogue that was read from a script is named by a word, if the file is,
and all its nodes are plain. -/
theorem plain_of_parse {file src : String} {dialogue : Dialogue} (hfile : Text.isWord file)
    (h : parse file src = .ok dialogue) :
    Text.isWord dialogue.name ∧ ∀ node ∈ dialogue.nodes, node.Plain := by
  obtain ⟨directives, hlines, -, hname, hnodes⟩ := read_eq_ok_iff.mp h
  have hplain := plain_of_contents hlines
  constructor
  · rw [hname]
    cases hlast : lastName? directives with
    | none => exact hfile
    | some identifier =>
        obtain ⟨directive, hmem, hidentifier⟩ :=
          List.mem_filterMap.mp (List.mem_of_getLast? hlast)
        cases directive with
        | name identifier' =>
            obtain rfl := Option.some.inj hidentifier
            exact hplain _ hmem
        | node => contradiction
        | text => contradiction
        | response => contradiction
  · intro node hnode
    rw [hnodes] at hnode
    obtain ⟨block, hblock, hnode⟩ := List.mem_filterMap.mp (mem_of_mem_collapse hnode)
    obtain ⟨hlabel, hsubset⟩ := mem_of_mem_blocks hblock
    exact plain_of_node? (hplain _ hlabel) (fun line hline => hplain line (hsubset hline)) hnode

end Script

end Parley
