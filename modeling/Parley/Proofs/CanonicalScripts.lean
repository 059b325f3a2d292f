import Mathlib.Data.List.TakeWhile
import Parley.Proofs.RoundTrips

/-!
# Canonical scripts

Scripts may be laid out in many ways: parentheses are missing or repeated, junk
stands in front of a text, quotes turn up in labels, and two semicolons are no
comment where a quote was left open. Every dialogue that is read from a script
can nevertheless be written in one way, with a gap in front of each closing
parenthesis, and is read back from that.

The comment cut depends on where a line is inside quotes, and reading a line
finds words and texts in places where this is known. The written line puts each
of them into a place of the same kind, so what the cut left alone in the one it
leaves alone in the other.
-/

namespace Parley

namespace Text

/-! ## The place of a run -/

section

variable {α : Type} {sep : α → Bool}

/-- Nothing but separators stands in front of the first run. -/
theorem runs_eq_cons {l run : List α} {more : List (List α)} (h : runs sep l = run :: more) :
    ∃ front rest, l = front ++ (run ++ rest) ∧ (∀ a ∈ front, sep a = true) ∧
      runs sep rest = more := by
  have hfront : ∀ a ∈ l.takeWhile sep, sep a = true := fun _ => List.mem_takeWhile_imp
  have hsplit : l = l.takeWhile sep ++ l.dropWhile sep := List.takeWhile_append_dropWhile.symm
  rw [hsplit, runs_append_of_sep hfront] at h
  cases hinner : l.dropWhile sep with
  | nil => simp [hinner] at h
  | cons b inner =>
      have hb : sep b = false := by
        have hhead := List.head?_dropWhile_not sep l
        rw [hinner] at hhead
        simpa using hhead
      rw [hinner] at h
      -- The run reaches from here to the next separator.
      have hcut : b :: inner = (b :: inner).takeWhile (!sep ·) ++ (b :: inner).dropWhile (!sep ·) :=
        List.takeWhile_append_dropWhile.symm
      have hrun : ∀ a ∈ (b :: inner).takeWhile (!sep ·), sep a = false := by
        intro a ha
        simpa using List.mem_takeWhile_imp ha
      have hrest : ∀ a ∈ ((b :: inner).dropWhile (!sep ·)).head?, sep a = true := by
        intro a ha
        have hhead := List.head?_dropWhile_not (!sep ·) (b :: inner)
        rw [Option.mem_def.mp ha] at hhead
        simpa using hhead
      have hne : (b :: inner).takeWhile (!sep ·) ≠ [] := by simp [hb]
      rw [hcut, runs_append hne hrun hrest] at h
      obtain ⟨rfl, rfl⟩ := List.cons.inj h
      exact ⟨l.takeWhile sep, _, by rw [← hcut, ← hinner, ← hsplit], hfront, rfl⟩

/-- In front of a run stand separators and the runs before it. -/
theorem runs_eq_append_cons {l run : List α} {before more : List (List α)}
    (h : runs sep l = before ++ run :: more) :
    ∃ front rest, l = front ++ (run ++ rest) ∧
      ∀ a ∈ front, sep a = true ∨ ∃ other ∈ before, a ∈ other := by
  induction before generalizing l with
  | nil =>
      obtain ⟨front, rest, hl, hfront, -⟩ := runs_eq_cons h
      exact ⟨front, rest, hl, fun a ha => .inl (hfront a ha)⟩
  | cons first before ih =>
      obtain ⟨front, rest, rfl, hfront, hmore⟩ := runs_eq_cons h
      obtain ⟨inner, last, rfl, hinner⟩ := ih hmore
      refine ⟨front ++ (first ++ inner), last, by simp, ?_⟩
      intro a ha
      rcases List.mem_append.mp ha with ha | ha
      · exact .inl (hfront a ha)
      · rcases List.mem_append.mp ha with ha | ha
        · exact .inr ⟨first, List.mem_cons_self, ha⟩
        · refine (hinner a ha).imp_right ?_
          rintro ⟨other, hother, hmem⟩
          exact ⟨other, List.mem_cons_of_mem _ hother, hmem⟩

end

theorem exists_append_trim (cs : List Char) :
    ∃ front rest, cs = front ++ (trim cs ++ rest) ∧ ∀ c ∈ front, isBlank c = true := by
  refine ⟨cs.takeWhile isBlank, takeEndWhile isBlank (cs.dropWhile isBlank), ?_,
    fun _ => List.mem_takeWhile_imp⟩
  rw [trim, dropEndWhile_append_takeEndWhile, List.takeWhile_append_dropWhile]

end Text

namespace Script

open Text

/-! ## What the comment cut leaves -/

theorem beforeComment_prefix (quoted : Bool) (line : List Char) :
    beforeComment quoted line <+: line := by
  fun_induction beforeComment quoted line with
  | case1 => exact List.prefix_rfl
  | case2 quoted rest ih => exact List.cons_prefix_cons.mpr ⟨rfl, ih⟩
  | case3 => exact List.nil_prefix
  | case4 quoted c rest _ _ ih => exact List.cons_prefix_cons.mpr ⟨rfl, ih⟩

/-- Nothing is left to be cut once a comment is gone. -/
theorem uncut_beforeComment (quoted : Bool) (line : List Char) :
    Uncut quoted (beforeComment quoted line) := by
  fun_induction beforeComment quoted line with
  | case1 => rfl
  | case2 quoted rest ih => exact uncut_cons_iff.mpr ⟨.inr (by simp), ih⟩
  | case3 => rfl
  | case4 quoted c rest hquote hcomment ih =>
      have hafter : quotedAfter quoted [c] = quoted := by simpa [quotedAfter] using hquote
      refine uncut_cons_iff.mpr ⟨?_, by rwa [hafter]⟩
      cases quoted with
      | true => exact .inl rfl
      | false =>
          refine .inr ?_
          rintro ⟨rfl, hnext⟩
          obtain ⟨more, hmore⟩ := List.head?_eq_some_iff.mp hnext
          obtain ⟨tail, htail⟩ := beforeComment_prefix false rest
          rw [hmore] at htail
          exact hcomment _ rfl rfl htail.symm

theorem not_mem_of_isBlank {cs : List Char} (h : ∀ c ∈ cs, isBlank c = true) : '"' ∉ cs := by
  intro hquote
  exact absurd (h _ hquote) (by decide)

theorem uncut_trim_stripComment (raw : List Char) : Uncut false (trim (stripComment raw)) := by
  obtain ⟨front, rest, hsplit, hfront⟩ := exists_append_trim (stripComment raw)
  have huncut := uncut_beforeComment false raw
  rw [← stripComment, hsplit] at huncut
  exact huncut.infix (not_mem_of_isBlank hfront)

/-! ## The words and texts of a line that was read -/

/-- In front of a field stand blanks and the fields before it. -/
theorem fields_eq_append_cons {args : List Char} {before more : List String} {field : String}
    (h : Directive.fields args = before ++ field :: more) :
    ∃ front rest, args = front ++ (field.toList ++ rest) ∧
      ∀ c ∈ front, isBlank c = true ∨ ∃ other ∈ before, c ∈ other.toList := by
  obtain ⟨outer, tail, hargs, houter⟩ := exists_append_trim args
  have hclosing := dropEndWhile_append_takeEndWhile Directive.isClosing (trim args)
  obtain ⟨runsBefore, runsAfter, hruns, hbefore, hafter⟩ := List.map_eq_append_iff.mp h
  obtain ⟨run, runsMore, rfl, hfield, -⟩ := List.map_eq_cons_iff.mp hafter
  obtain ⟨front, rest, hinner, hfront⟩ := runs_eq_append_cons hruns
  have hrun : run = field.toList := by rw [← hfield, String.toList_ofList]
  refine ⟨outer ++ front, rest ++ takeEndWhile Directive.isClosing (trim args) ++ tail, ?_, ?_⟩
  · calc args = outer ++ (trim args ++ tail) := hargs
      _ = outer ++ ((front ++ (run ++ rest)) ++ takeEndWhile Directive.isClosing (trim args) ++
          tail) := by rw [← hinner, hclosing]
      _ = _ := by simp [hrun]
  · intro c hc
    rcases List.mem_append.mp hc with hc | hc
    · exact .inl (houter c hc)
    · refine (hfront c hc).imp_right ?_
      rintro ⟨other, hother, hmem⟩
      refine ⟨String.ofList other, hbefore ▸ List.mem_map_of_mem hother, ?_⟩
      rwa [String.toList_ofList]

theorem ne_empty_of_mem_fields {args : List Char} {field : String}
    (h : field ∈ Directive.fields args) : field ≠ "" := by
  obtain ⟨run, hrun, rfl⟩ := List.mem_map.mp h
  intro hempty
  apply ne_nil_of_mem_runs hrun
  rw [← String.toList_ofList (l := run), hempty, String.toList_empty]

/-- A quotation stands between the first quote and the last one. -/
theorem eq_append_of_quotation? {args rest : List Char} {said : String}
    (h : Directive.quotation? args = some (said, rest)) :
    ∃ front, '"' ∉ front ∧ args = front ++ '"' :: (said.toList ++ '"' :: rest) := by
  unfold Directive.quotation? at h
  split at h
  next => contradiction
  next opening body hbody =>
    split at h
    next => contradiction
    next closing inner hinner =>
      obtain ⟨rfl, rfl⟩ := Prod.mk.inj (Option.some.inj h)
      have hquote {cs more : List Char} {c : Char}
          (hdrop : cs.dropWhile (!Directive.isQuote ·) = c :: more) : c = '"' := by
        have hhead := List.head?_dropWhile_not (!Directive.isQuote ·) cs
        rw [hdrop] at hhead
        simpa [Directive.isQuote] using hhead
      have hlast : inner.reverse ++ '"' :: takeEndWhile (!Directive.isQuote ·) body = body := by
        have hsplit := dropEndWhile_append_takeEndWhile (!Directive.isQuote ·) body
        rw [dropEndWhile, hinner, hquote hinner] at hsplit
        simpa using hsplit
      refine ⟨args.takeWhile (!Directive.isQuote ·), ?_, ?_⟩
      · intro hmem
        exact absurd (List.mem_takeWhile_imp hmem) (by decide)
      · rw [String.toList_ofList, hlast, ← hquote hbody, ← hbody,
          List.takeWhile_append_dropWhile]

section

variable {args : List Char} {directive : Directive}

theorem uncut_of_fields {before more : List String} {field : String} {quoted : Bool}
    (hargs : Uncut quoted args) (h : Directive.fields args = before ++ field :: more)
    (hbefore : ∀ other ∈ before, '"' ∉ other.toList) : Uncut quoted field.toList := by
  obtain ⟨front, rest, rfl, hfront⟩ := fields_eq_append_cons h
  refine hargs.infix ?_
  intro hquote
  rcases hfront _ hquote with hblank | ⟨other, hother, hmem⟩
  · exact absurd hblank (by decide)
  · exact hbefore other hother hmem

theorem uncut_of_mem_fields {field : String} {quoted : Bool} (hargs : Uncut quoted args)
    (hquote : '"' ∉ args) (h : field ∈ Directive.fields args) : Uncut quoted field.toList := by
  obtain ⟨before, more, hfields⟩ := List.append_of_mem h
  refine uncut_of_fields hargs hfields fun other hother hmem => hquote ?_
  exact (mem_of_mem_fields (hfields ▸ List.mem_append_left _ hother) _ hmem).1

theorem uncut_of_quotation? {rest : List Char} {said : String} (hargs : Uncut false args)
    (h : Directive.quotation? args = some (said, rest)) :
    Uncut true said.toList ∧ Uncut (!quotedAfter true said.toList) rest := by
  obtain ⟨front, hquote, rfl⟩ := eq_append_of_quotation? h
  have hopen := (uncut_of_append hargs).2
  rw [quotedAfter_of_not_mem hquote, uncut_cons_iff] at hopen
  obtain ⟨hsaid, hclose⟩ := uncut_of_append hopen.2
  exact ⟨hsaid, (uncut_cons_iff.mp hclose).2⟩

theorem lettered_of_readName (hargs : Uncut false args)
    (h : Directive.readName args = .ok directive) : directive.Lettered := by
  unfold Directive.readName at h
  split at h
  next identifier more hfields =>
    obtain rfl := Except.ok.inj h
    have hmem : identifier ∈ Directive.fields args := by simp [hfields]
    have hfirst : Directive.fields args = [] ++ identifier :: more := hfields
    have huncut := uncut_of_fields hargs hfirst (by simp)
    exact ⟨by simpa [Directive.words] using ⟨ne_empty_of_mem_fields hmem, huncut⟩, nofun⟩
  next => contradiction

theorem lettered_of_readNode (hargs : Uncut false args)
    (h : Directive.readNode args = .ok directive) : directive.Lettered := by
  unfold Directive.readNode at h
  split at h
  next => contradiction
  next => contradiction
  next tag label more hfields =>
    split at h
    next kind hkind =>
      obtain rfl := Except.ok.inj h
      have hmem : label ∈ Directive.fields args := by simp [hfields]
      have htag : '"' ∉ tag.toList := by
        unfold NodeKind.ofTag? at hkind
        split at hkind
        next htag => rw [htag]; decide
        next =>
          split at hkind
          next htag => rw [htag]; decide
          next => contradiction
      have hsecond : Directive.fields args = [tag] ++ label :: more := hfields
      have huncut := uncut_of_fields hargs hsecond (by simpa using htag)
      exact ⟨by simpa [Directive.words] using ⟨ne_empty_of_mem_fields hmem, huncut⟩, nofun⟩
    next => contradiction

/-- What is read behind a quotation stands where the quotation leaves off. -/
theorem lettered_of_quotation? {rest : List Char} {said : String} (hargs : Uncut false args)
    (h : Directive.quotation? args = some (said, rest)) (hsaid : directive.said? = some said)
    (hwords : directive.words ⊆ Directive.fields rest) : directive.Lettered := by
  obtain ⟨htext, hrest⟩ := uncut_of_quotation? hargs h
  have hquote := (quotation?_eq_some h).2
  refine ⟨fun word hword => ⟨ne_empty_of_mem_fields (hwords hword), ?_⟩, ?_⟩
  · rw [Directive.quotedWords, hsaid]
    exact uncut_of_mem_fields hrest hquote (hwords hword)
  · intro other hother
    rw [hsaid] at hother
    exact Option.mem_some_iff.mp hother ▸ htext

theorem lettered_of_readText (hargs : Uncut false args)
    (h : Directive.readText args = .ok directive) : directive.Lettered := by
  unfold Directive.readText at h
  split at h
  next => contradiction
  next said rest hquotation =>
    split at h
    next next hnext =>
      obtain rfl := Except.ok.inj h
      apply lettered_of_quotation? hargs hquotation rfl
      simpa [Directive.words] using List.mem_of_getLast? hnext
    next => contradiction

theorem lettered_of_readResp (hargs : Uncut false args)
    (h : Directive.readResp args = .ok directive) : directive.Lettered := by
  unfold Directive.readResp at h
  split at h
  next => contradiction
  next said rest hquotation =>
    split at h
    next next more hfields =>
      obtain rfl := Except.ok.inj h
      apply lettered_of_quotation? hargs hquotation rfl
      simp [Directive.words, hfields]
    next => contradiction

theorem lettered_of_readTrig (hargs : Uncut false args)
    (h : Directive.readTrig args = .ok directive) : directive.Lettered := by
  unfold Directive.readTrig at h
  split at h
  next => contradiction
  next said rest hquotation =>
    split at h
    next next trigger more hfields =>
      obtain rfl := Except.ok.inj h
      apply lettered_of_quotation? hargs hquotation rfl
      simp [Directive.words, hfields]
    next => contradiction
    next => contradiction

theorem lettered_of_readArgs {keyword : Keyword} (hargs : Uncut false args)
    (h : Directive.readArgs keyword args = .ok directive) : directive.Lettered := by
  cases keyword with
  | name => exact lettered_of_readName hargs h
  | node => exact lettered_of_readNode hargs h
  | text => exact lettered_of_readText hargs h
  | resp => exact lettered_of_readResp hargs h
  | trig => exact lettered_of_readTrig hargs h

end

theorem lettered_of_read {cs : List Char} {directive : Directive} (hcs : Uncut false cs)
    (h : Directive.read cs = .ok directive) : directive.Lettered := by
  unfold Directive.read at h
  split at h
  next body =>
    split at h
    next keyword hkeyword =>
      refine lettered_of_readArgs ?_ h
      -- A keyword ends at the first quote, so the arguments begin outside quotes.
      have hquote : '"' ∉ body.takeWhile Directive.isKeywordChar := by
        intro hmem
        exact absurd (List.mem_takeWhile_imp hmem) (by decide)
      have hbody := (uncut_cons_iff.mp hcs).2
      rw [← List.takeWhile_append_dropWhile (p := Directive.isKeywordChar) (l := body)] at hbody
      have hargs := (uncut_of_append hbody).2
      rwa [quotedAfter_of_not_mem hquote] at hargs
    next => contradiction
  next => contradiction

theorem lettered_of_contents {src : String} {directives : List Directive}
    (h : contents src = directives.map .ok) : ∀ directive ∈ directives, directive.Lettered := by
  intro directive hmem
  obtain ⟨raw, -, hread⟩ := exists_contentOf h hmem
  exact lettered_of_read (uncut_trim_stripComment raw) hread

/-! ## From lines to the nodes of a dialogue -/

namespace Directive

/-- A directive with its label or successor spelled without an alias. -/
def resolve : Directive → Directive
  | name identifier => name identifier
  | node kind label => node kind (Label.ofNode label)
  | text said next => text said (Label.ofSuccessor next)
  | response said next trigger => response said (Label.ofSuccessor next) trigger

theorem Plain.resolve {directive : Directive} (h : directive.Plain) : directive.resolve.Plain := by
  cases directive with
  | name identifier => exact h
  | node kind label => exact Label.isWord_ofNode h
  | text said next => exact ⟨h.1, Label.isBareWord_ofSuccessor h.2⟩
  | response said next trigger => exact ⟨h.1, Label.isBareWord_ofSuccessor h.2.1, h.2.2⟩

theorem isLettered_ofNode {quoted : Bool} {label : String} (h : isLettered quoted label) :
    isLettered quoted (Label.ofNode label) := by
  unfold Label.ofNode
  split
  · exact ⟨by decide, uncut_of_not_holdsComment (by decide) quoted⟩
  · exact h

theorem isLettered_ofSuccessor {quoted : Bool} {label : String} (h : isLettered quoted label) :
    isLettered quoted (Label.ofSuccessor label) := by
  unfold Label.ofSuccessor
  split
  · exact ⟨by decide, uncut_of_not_holdsComment (by decide) quoted⟩
  · split
    · exact ⟨by decide, uncut_of_not_holdsComment (by decide) quoted⟩
    · exact h

theorem Lettered.resolve {directive : Directive} (h : directive.Lettered) :
    directive.resolve.Lettered := by
  cases directive with
  | name identifier => exact h
  | node kind label =>
      refine ⟨?_, nofun⟩
      intro word hword
      obtain rfl := List.mem_singleton.mp hword
      exact isLettered_ofNode (h.words label List.mem_cons_self)
  | text said next =>
      refine ⟨?_, h.said⟩
      intro word hword
      obtain rfl := List.mem_singleton.mp hword
      exact isLettered_ofSuccessor (h.words next List.mem_cons_self)
  | response said next trigger =>
      refine ⟨?_, h.said⟩
      intro word hword
      rcases List.mem_cons.mp hword with rfl | hword
      · exact isLettered_ofSuccessor (h.words next List.mem_cons_self)
      · exact h.words word (List.mem_cons_of_mem _ hword)

/-- No alias is left once all are replaced. -/
theorem resolve_resolve (directive : Directive) :
    directive.resolve.resolve = directive.resolve := by
  cases directive with
  | name identifier => rfl
  | node kind label =>
      have hlabel : Label.ofNode (Label.ofNode label) = Label.ofNode label :=
        if_neg (Label.ofNode_ne_alias label)
      simp [resolve, hlabel]
  | text said next =>
      simp [resolve, Label.ofSuccessor_eq_self (Label.ofSuccessor_ne_alias next)]
  | response said next trigger =>
      simp [resolve, Label.ofSuccessor_eq_self (Label.ofSuccessor_ne_alias next)]

theorem Plain.isWord_of_mem_words {directive : Directive} (h : directive.Plain) {word : String}
    (hword : word ∈ directive.words) : isWord word := by
  cases directive with
  | name identifier => exact List.mem_singleton.mp hword ▸ h
  | node kind label => exact List.mem_singleton.mp hword ▸ h
  | text said next => exact List.mem_singleton.mp hword ▸ h.2.1
  | response said next trigger =>
      rcases List.mem_cons.mp hword with rfl | hword
      · exact h.2.1.1
      · exact (h.2.2 word (Option.mem_toList.mp hword)).1

theorem isBlank_of_mem_gap : ∀ c ∈ " ".toList, isBlank c = true := by
  have hgap : " ".toList = [' '] := rfl
  intro c hc
  rw [hgap, List.mem_singleton] at hc
  rw [hc]
  rfl

/-- A gap keeps the last word apart from the closing parenthesis. -/
theorem Lettered.legible {directive : Directive} (h : directive.Lettered)
    (hplain : directive.Plain) : Legible " ".toList directive.words where
  blank := isBlank_of_mem_gap
  ne_empty word hword := (h.words word hword).1
  isWord _ hword := hplain.isWord_of_mem_words hword
  apart := .inl (by decide)

end Directive

theorem Node.resolved_of_directives {node : Node}
    (h : ∀ directive ∈ node.directives, directive.resolve = directive) : node.Resolved where
  label := by
    have hnode := h _ List.mem_cons_self
    exact (Directive.node.inj hnode).2
  next := by
    have htext := h _ (List.mem_cons_of_mem _ List.mem_cons_self)
    exact (Directive.text.inj htext).2
  responses response hresponse := by
    have hline := h _ (List.mem_cons_of_mem _ (List.mem_cons_of_mem _
      (List.mem_map_of_mem hresponse)))
    exact (Directive.response.inj hline).2.1

/-- The directives of a node are lines of its block, with their aliases replaced. -/
theorem exists_of_mem_directives {block : Block} {node : Node} (h : block.node? = some node)
    {directive : Directive} (hmem : directive ∈ node.directives) :
    ∃ line, (line = .node block.kind block.label ∨ line ∈ block.lines) ∧
      directive = line.resolve := by
  obtain ⟨⟨said, next⟩, hbody, rfl⟩ := Option.map_eq_some_iff.mp h
  rcases List.mem_cons.mp hmem with rfl | hmem
  · exact ⟨_, .inl rfl, rfl⟩
  rcases List.mem_cons.mp hmem with rfl | hmem
  · obtain ⟨line, hline, hbody⟩ := List.mem_filterMap.mp (List.mem_of_getLast? hbody)
    refine ⟨line, .inr hline, ?_⟩
    cases line with
    | text said' next' =>
        obtain ⟨rfl, rfl⟩ := Prod.mk.inj (Option.some.inj hbody)
        rfl
    | name => contradiction
    | node => contradiction
    | response => contradiction
  · obtain ⟨response, hresponse, rfl⟩ := List.mem_map.mp hmem
    obtain ⟨line, hline, hresponse⟩ := List.mem_filterMap.mp hresponse
    refine ⟨line, .inr hline, ?_⟩
    cases line with
    | response said' next' trigger =>
        obtain rfl := Option.some.inj hresponse
        rfl
    | name => contradiction
    | node => contradiction
    | text => contradiction

theorem exists_of_mem_nodeDirectives {directives : List Directive} {dialogue : Dialogue}
    (h : dialogue.nodes = blockNodes directives) {directive : Directive}
    (hmem : directive ∈ dialogue.nodeDirectives) :
    ∃ line ∈ directives, directive = line.resolve := by
  obtain ⟨node, hnode, hmem⟩ := List.mem_flatMap.mp hmem
  rw [h] at hnode
  obtain ⟨block, hblock, hnode⟩ := List.mem_filterMap.mp (mem_of_mem_collapse hnode)
  obtain ⟨hopener, hlines⟩ := mem_of_mem_blocks hblock
  obtain ⟨line, rfl | hline, hresolve⟩ := exists_of_mem_directives hnode hmem
  · exact ⟨_, hopener, hresolve⟩
  · exact ⟨line, hlines hline, hresolve⟩

/-! ## The canonical script -/

/-- Whether a line of a source names the dialogue. -/
def isNamed (src : String) : Bool :=
  (contents src).any fun content =>
    match content with
    | .ok (.name _) => true
    | _ => false

/-- The canonical script of a dialogue that was read from a source. It has a
`name` line if the source has one. -/
def canonical (src : String) (dialogue : Dialogue) : String :=
  render " " (if isNamed src then dialogue.directives else dialogue.nodeDirectives)

theorem isNamed_iff {src : String} {directives : List Directive}
    (h : contents src = directives.map .ok) :
    isNamed src = true ↔ lastName? directives ≠ none := by
  rw [isNamed, h, List.any_map, List.any_eq_true, lastName?, Ne, List.getLast?_eq_none_iff,
    List.filterMap_eq_nil_iff]
  constructor
  · rintro ⟨directive, hmem, hname⟩ hnone
    cases directive with
    | name identifier => exact absurd (hnone _ hmem) (by simp [Directive.identifier?])
    | node => contradiction
    | text => contradiction
    | response => contradiction
  · intro hsome
    apply Classical.byContradiction
    intro hnot
    refine hsome fun directive hmem => ?_
    cases directive with
    | name identifier => exact absurd ⟨_, hmem, rfl⟩ hnot
    | node => rfl
    | text => rfl
    | response => rfl

theorem mem_of_lastName? {directives : List Directive} {identifier : String}
    (h : lastName? directives = some identifier) : .name identifier ∈ directives := by
  obtain ⟨directive, hmem, hidentifier⟩ := List.mem_filterMap.mp (List.mem_of_getLast? h)
  cases directive with
  | name identifier' => exact Option.some.inj hidentifier ▸ hmem
  | node => contradiction
  | text => contradiction
  | response => contradiction

/-- The canonical script has the name that was read, if any, in front of the
nodes. -/
theorem canonical_eq {file src : String} {directives : List Directive} {dialogue : Dialogue}
    (hlines : contents src = directives.map .ok)
    (hname : dialogue.name = (lastName? directives).getD file) :
    canonical src dialogue =
      render " " ((lastName? directives).toList.map Directive.name ++ dialogue.nodeDirectives) := by
  have hnamed := isNamed_iff hlines
  rw [canonical]
  cases hlast : lastName? directives with
  | none =>
      rw [hlast] at hnamed
      rw [if_neg (by simp [hnamed])]
      rfl
  | some identifier =>
      rw [hlast] at hnamed hname
      rw [if_pos (hnamed.mpr (by simp)), Dialogue.directives, hname]
      rfl

/-- A dialogue that was read from a script is read back from its canonical one. -/
theorem parse_canonical {file src : String} {dialogue : Dialogue}
    (h : parse file src = .ok dialogue) : parse file (canonical src dialogue) = .ok dialogue := by
  obtain ⟨directives, hlines, -, hname, hnodes⟩ := read_eq_ok_iff.mp h
  have hresolve : ∀ directive ∈
      (lastName? directives).toList.map Directive.name ++ dialogue.nodeDirectives,
        ∃ line ∈ directives, directive = line.resolve := by
    intro directive hmem
    rcases List.mem_append.mp hmem with hmem | hmem
    · obtain ⟨identifier, hidentifier, rfl⟩ := List.mem_map.mp hmem
      exact ⟨_, mem_of_lastName? (Option.mem_toList.mp hidentifier), rfl⟩
    · exact exists_of_mem_nodeDirectives hnodes hmem
  -- What is written was on a line of the source, but for aliases.
  have hplain : ∀ directive ∈
      (lastName? directives).toList.map Directive.name ++ dialogue.nodeDirectives,
        directive.Plain ∧ directive.Lettered := by
    intro directive hmem
    obtain ⟨line, hline, rfl⟩ := hresolve directive hmem
    exact ⟨(plain_of_contents hlines line hline).resolve,
      (lettered_of_contents hlines line hline).resolve⟩
  refine parse_of_contents (lastName? directives).toList ?_ ?_ ?_
  · intro node hnode
    refine Node.resolved_of_directives fun directive hmem => ?_
    obtain ⟨line, -, rfl⟩ :=
      hresolve directive (List.mem_append_right _ (List.mem_flatMap.mpr ⟨node, hnode, hmem⟩))
    exact line.resolve_resolve
  · rw [canonical_eq hlines hname]
    refine contents_render (fun directive hmem => (hplain directive hmem).1) ?_ ?_ (by decide)
    · intro directive hmem
      exact (hplain directive hmem).2.legible (hplain directive hmem).1
    · intro directive hmem
      exact (hplain directive hmem).2.stripComment_render (hplain directive hmem).1
        Directive.isBlank_of_mem_gap
  · rw [hname]
    cases lastName? directives <;> rfl

/-- A script with quotes, semicolons and parentheses where none belong. -/
def cellarScript : String :=
  "(name in\"n;;) ;; down\n\n(node q start\n" ++
    " (text so \"Hm? \"\" ;; \"really\" ok;;)) go)) \n(resp \"x\" y\" ok;;)) no) ;; (\n"

def cellar : Dialogue where
  name := "in\"n;;)"
  nodes := [⟨"START", .question, "Hm? \"\" ;; \"really", "go", [⟨"x\" y", "ok;;))", none⟩]⟩]
  nodup_labels := by decide

theorem parse_canonical_cellar : parse "cellar.scl" cellarScript = .ok cellar ∧
    parse "cellar.scl" (canonical cellarScript cellar) = .ok cellar := by
  have hparse : parse "cellar.scl" cellarScript = .ok cellar := by decide +kernel
  exact ⟨hparse, parse_canonical hparse⟩

end Script

end Parley
