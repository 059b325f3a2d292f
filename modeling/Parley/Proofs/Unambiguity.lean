import Mathlib.Data.List.Forall2
import Parley.Artifact.Basic
import Parley.Proofs.Vocabulary

/-!
# Artifacts are unambiguous

Texts, names and labels go into an artifact as they are, quotes, commas,
parentheses and semicolons included. An artifact can be read back all the
same. It falls into lines, since nothing in it holds a line feed. A line falls
into its fields: a word reaches to the next blank, and a text, whatever it
holds, to the last quote of its line, since only words without quotes follow.
How many responses belong to a question is written in its line.
-/

namespace Parley

/-! ## Cutting at the first or the last occurrence -/

namespace Text

variable {α : Type}

theorem append_cons_inj_of_not_mem {x : α} {front front' rest rest' : List α} (hx : x ∉ front)
    (hx' : x ∉ front') (h : front ++ x :: rest = front' ++ x :: rest') :
    front = front' ∧ rest = rest' := by
  induction front generalizing front' with
  | nil =>
      cases front' with
      | nil => exact ⟨rfl, (List.cons.inj h).2⟩
      | cons a front' =>
          rw [(List.cons.inj h).1] at hx'
          exact absurd List.mem_cons_self hx'
  | cons a front ih =>
      cases front' with
      | nil =>
          rw [(List.cons.inj h).1] at hx
          exact absurd List.mem_cons_self hx
      | cons b front' =>
          obtain ⟨rfl, htail⟩ := List.cons.inj h
          obtain ⟨rfl, hrest⟩ := ih (mt (List.mem_cons_of_mem a) hx)
            (mt (List.mem_cons_of_mem a) hx') htail
          exact ⟨rfl, hrest⟩

theorem append_cons_inj_of_not_mem_right {x : α} {front front' rest rest' : List α}
    (hx : x ∉ rest) (hx' : x ∉ rest') (h : front ++ x :: rest = front' ++ x :: rest') :
    front = front' ∧ rest = rest' := by
  have hreverse := congrArg List.reverse h
  simp only [List.reverse_append, List.reverse_cons, List.append_assoc, List.singleton_append]
    at hreverse
  obtain ⟨hrest, hfront⟩ := append_cons_inj_of_not_mem (mt List.mem_reverse.mp hx)
    (mt List.mem_reverse.mp hx') hreverse
  exact ⟨List.reverse_inj.mp hfront, List.reverse_inj.mp hrest⟩

/-- Whether a text is one line and the line feed that ends it. -/
def isEndedLine (text : String) : Prop := ∃ body, text.toList = body ++ ['\n'] ∧ '\n' ∉ body

/-- Lines can be told apart when they are joined. -/
theorem eq_of_join_eq {lines others : List String} (hlines : ∀ line ∈ lines, isEndedLine line)
    (hothers : ∀ line ∈ others, isEndedLine line) (h : String.join lines = String.join others) :
    lines = others := by
  induction lines generalizing others with
  | nil =>
      cases others with
      | nil => rfl
      | cons other others =>
          obtain ⟨body, hbody, -⟩ := hothers other List.mem_cons_self
          have hnil := congrArg String.toList h
          simp [hbody] at hnil
  | cons line lines ih =>
      obtain ⟨body, hbody, hfeed⟩ := hlines line List.mem_cons_self
      cases others with
      | nil =>
          have hnil := congrArg String.toList h
          simp [hbody] at hnil
      | cons other others =>
          obtain ⟨body', hbody', hfeed'⟩ := hothers other List.mem_cons_self
          have hlist := congrArg String.toList h
          simp only [String.join_cons, String.toList_append, hbody, hbody', List.append_assoc,
            List.singleton_append] at hlist
          obtain ⟨rfl, hrest⟩ := append_cons_inj_of_not_mem hfeed hfeed' hlist
          have hline : line = other := String.toList_inj.mp (hbody.trans hbody'.symm)
          rw [hline, ih (fun line hmem => hlines line (List.mem_cons_of_mem _ hmem))
            (fun line hmem => hothers line (List.mem_cons_of_mem _ hmem))
            (String.toList_inj.mp hrest)]

theorem isWord.append {text more : String} (h : isWord text) (hmore : isWord more) :
    isWord (text ++ more) := by
  intro c hc
  rw [String.toList_append] at hc
  exact (List.mem_append.mp hc).elim (h c) (hmore c)

theorem isBareWord.append {text more : String} (h : isBareWord text) (hmore : isBareWord more) :
    isBareWord (text ++ more) := by
  refine ⟨h.1.append hmore.1, ?_⟩
  rw [String.toList_append]
  exact fun hc => (List.mem_append.mp hc).elim h.2 hmore.2

theorem isBlank_of_isDigit {c : Char} (h : c.isDigit = true) : isBlank c = false := by
  have hrange : 48 ≤ c.toNat ∧ c.toNat ≤ 57 := by
    simpa [Char.isDigit, Char.le_def, UInt32.le_iff_toNat_le] using h
  simp only [isBlank, blankRanges, List.any_cons, List.any_nil, Bool.or_false,
    Bool.or_eq_false_iff, Bool.and_eq_false_iff, decide_eq_false_iff_not]
  omega

theorem isBareWord_toString (n : Nat) : isBareWord (toString n) := by
  have hdigit : ∀ c ∈ (toString n).toList, c.isDigit = true := by
    intro c hc
    rw [Nat.toString_eq_repr, Nat.toList_repr] at hc
    exact Nat.isDigit_of_mem_toDigits (by decide) (by decide) hc
  refine ⟨fun c hc => isBlank_of_isDigit (hdigit c hc), ?_⟩
  exact fun hquote => absurd (hdigit _ hquote) (by decide)

theorem toString_injective {n m : Nat} (h : toString n = toString m) : n = m := by
  have hdigits := congrArg String.toList h
  rw [Nat.toString_eq_repr, Nat.toString_eq_repr, Nat.toList_repr, Nat.toList_repr] at hdigits
  rw [← Nat.ofDigitChars_toDigits (b := 10) (n := n) (by decide) (by decide), hdigits,
    Nat.ofDigitChars_toDigits (by decide) (by decide)]

end Text

namespace Artifact

open Text

/-! ## Calls -/

/-- What stands between the parentheses of a call. -/
def inside (arguments : List String) : List Char := (String.intercalate ", " arguments).toList

theorem toList_call (callee : String) (arguments : List String) :
    (call callee arguments).toList =
      callee.toList ++ '(' :: (inside arguments ++ [')', ';', '\n']) := by
  simp [call, inside]

@[simp] theorem inside_singleton (a : String) : inside [a] = a.toList := by
  simp [inside]

theorem inside_cons_cons (a b : String) (rest : List String) :
    inside (a :: b :: rest) = a.toList ++ ',' :: ' ' :: inside (b :: rest) := by
  simp [inside, String.intercalate_cons_cons]

theorem not_mem_inside {c : Char} (hc : c ∉ [',', ' ']) {arguments : List String}
    (h : ∀ a ∈ arguments, c ∉ a.toList) : c ∉ inside arguments := by
  match arguments with
  | [] => exact List.not_mem_nil
  | [a] =>
      rw [inside_singleton]
      exact h a List.mem_cons_self
  | a :: b :: rest =>
      have hrest := not_mem_inside hc fun x hx => h x (List.mem_cons_of_mem a hx)
      have ha := h a List.mem_cons_self
      rw [inside_cons_cons]
      simp only [List.mem_append, List.mem_cons, List.not_mem_nil, not_or] at hc ⊢
      exact ⟨ha, hc.1, hc.2.1, hrest⟩

theorem isLine_quote {said : String} (h : isLine said) : isLine (quote said) := by
  simpa [isLine, quote] using h

theorem isEndedLine_call {callee : String} {arguments : List String} (hcallee : isLine callee)
    (harguments : ∀ a ∈ arguments, isLine a) : isEndedLine (call callee arguments) := by
  refine ⟨callee.toList ++ '(' :: (inside arguments ++ [')', ';']), ?_, ?_⟩
  · simp [toList_call]
  · have hinside : '\n' ∉ inside arguments := not_mem_inside (by decide) harguments
    simp [hinside, show '\n' ∉ callee.toList from hcallee]

theorem call_inj {callee callee' : String} {arguments arguments' : List String}
    (hcallee : '(' ∉ callee.toList) (hcallee' : '(' ∉ callee'.toList)
    (h : call callee arguments = call callee' arguments') :
    callee = callee' ∧ inside arguments = inside arguments' := by
  have hlist := congrArg String.toList h
  rw [toList_call, toList_call] at hlist
  obtain ⟨hname, hinside⟩ := append_cons_inj_of_not_mem hcallee hcallee' hlist
  exact ⟨String.toList_inj.mp hname, List.append_cancel_right hinside⟩

/-- A word reaches to the first blank. -/
theorem inside_word_inj {a a' b b' : String} {rest rest' : List String} (ha : isWord a)
    (ha' : isWord a') (h : inside (a :: b :: rest) = inside (a' :: b' :: rest')) :
    a = a' ∧ inside (b :: rest) = inside (b' :: rest') := by
  have hblank {word : String} (hword : isWord word) : ' ' ∉ word.toList ++ [','] := by
    simp [hword.not_mem (show isBlank ' ' = true by decide)]
  rw [inside_cons_cons, inside_cons_cons, List.append_cons, List.append_cons a'.toList] at h
  obtain ⟨hfront, hinside⟩ := append_cons_inj_of_not_mem (hblank ha) (hblank ha') h
  exact ⟨String.toList_inj.mp (List.append_cancel_right hfront), hinside⟩

theorem inside_words_inj {words words' : List String} (hlength : words.length = words'.length)
    (hwords : ∀ word ∈ words, isWord word) (hwords' : ∀ word ∈ words', isWord word)
    (h : inside words = inside words') : words = words' := by
  match words, words', hlength with
  | [], [], _ => rfl
  | [a], [b], _ =>
      rw [inside_singleton, inside_singleton] at h
      rw [String.toList_inj.mp h]
  | a :: b :: rest, a' :: b' :: rest', hlength =>
      obtain ⟨rfl, hrest⟩ := inside_word_inj (hwords a List.mem_cons_self)
        (hwords' a' List.mem_cons_self) h
      rw [inside_words_inj (by simpa using hlength)
        (fun word hword => hwords word (List.mem_cons_of_mem _ hword))
        (fun word hword => hwords' word (List.mem_cons_of_mem _ hword)) hrest]

/-- A text reaches to the last quote, if only words without quotes follow. -/
theorem inside_quote_inj {said said' a a' : String} {rest rest' : List String}
    (hbare : ∀ word ∈ a :: rest, isBareWord word) (hbare' : ∀ word ∈ a' :: rest', isBareWord word)
    (h : inside (quote said :: a :: rest) = inside (quote said' :: a' :: rest')) :
    said = said' ∧ inside (a :: rest) = inside (a' :: rest') := by
  have hquote {words : List String} (hwords : ∀ word ∈ words, isBareWord word) :
      '"' ∉ ',' :: ' ' :: inside words := by
    have hinside : '"' ∉ inside words :=
      not_mem_inside (by decide) fun word hword => (hwords word hword).2
    simp [hinside]
  have hopen (text : String) (more : List Char) :
      (quote text).toList ++ more = '"' :: (text.toList ++ '"' :: more) := by
    simp [quote]
  rw [inside_cons_cons, inside_cons_cons, hopen, hopen] at h
  obtain ⟨hsaid, hinside⟩ :=
    append_cons_inj_of_not_mem_right (hquote hbare) (hquote hbare') (List.cons.inj h).2
  exact ⟨String.toList_inj.mp hsaid, (List.cons.inj (List.cons.inj hinside).2).2⟩

/-- The arguments of a call can be told apart when words come first, then a
text, and then words without quotes. -/
theorem arguments_inj {words words' : List String} {said said' a a' : String}
    {rest rest' : List String}
    (h : inside (words ++ quote said :: a :: rest) = inside (words' ++ quote said' :: a' :: rest'))
    (hlength : words.length = words'.length) (hrest : rest.length = rest'.length)
    (hwords : ∀ word ∈ words, isWord word) (hwords' : ∀ word ∈ words', isWord word)
    (hbare : ∀ word ∈ a :: rest, isBareWord word)
    (hbare' : ∀ word ∈ a' :: rest', isBareWord word) :
    words = words' ∧ said = said' ∧ a :: rest = a' :: rest' := by
  induction words generalizing words' with
  | nil =>
      obtain rfl := List.length_eq_zero_iff.mp hlength.symm
      obtain ⟨hsaid, hinside⟩ := inside_quote_inj hbare hbare' h
      exact ⟨rfl, hsaid, inside_words_inj (by simpa using hrest)
        (fun word hword => (hbare word hword).1) (fun word hword => (hbare' word hword).1) hinside⟩
  | cons word words ih =>
      cases words' with
      | nil => simp at hlength
      | cons word' words' =>
          -- Whether a word or the text comes next, it is not the last argument.
          obtain ⟨b, more, hmore⟩ := List.exists_cons_of_ne_nil
            (show words ++ quote said :: a :: rest ≠ [] by simp)
          obtain ⟨b', more', hmore'⟩ := List.exists_cons_of_ne_nil
            (show words' ++ quote said' :: a' :: rest' ≠ [] by simp)
          rw [List.cons_append, List.cons_append, hmore, hmore'] at h
          obtain ⟨rfl, hinside⟩ := inside_word_inj (hwords word List.mem_cons_self)
            (hwords' word' List.mem_cons_self) h
          rw [← hmore, ← hmore'] at hinside
          obtain ⟨rfl, htail⟩ := ih hinside (by simpa using hlength)
            (fun w hw => hwords w (List.mem_cons_of_mem _ hw))
            (fun w hw => hwords' w (List.mem_cons_of_mem _ hw))
          exact ⟨rfl, htail⟩

/-! ## Lines -/

theorem name_of_header {name other : String} {size size' : Nat} (hname : isWord name)
    (hother : isWord other) (h : header name size = header other size') : name = other :=
  (inside_word_inj hname hother (call_inj (by decide) (by decide) h).2).1

theorem responseLine_inj {name label : String} {position : Nat} {response other : Response}
    (hname : isWord name) (hlabel : isWord label) (hresponse : response.Plain)
    (hother : other.Plain)
    (h : responseLine name label position response = responseLine name label position other) :
    response = other := by
  have hwords {tag : String} (htag : isWord tag) :
      ∀ word ∈ [name, label, tag ++ toString position], isWord word := by
    simp only [List.forall_mem_cons]
    exact ⟨hname, hlabel, htag.append (isBareWord_toString position).1, nofun⟩
  have hbare {next trigger : String} (hnext : isBareWord next) (htrigger : isBareWord trigger) :
      ∀ word ∈ [next, "cb_trigger_" ++ trigger, "null"], isBareWord word := by
    simp only [List.forall_mem_cons]
    exact ⟨hnext, isBareWord.append (by decide) htrigger, by decide, nofun⟩
  obtain ⟨said, next, trigger⟩ := response
  obtain ⟨said', next', trigger'⟩ := other
  cases trigger with
  | none =>
      cases trigger' with
      | none =>
          have hinside : inside ([name, label, "option_" ++ toString position] ++
              quote said :: next :: []) = inside ([name, label, "option_" ++ toString position] ++
              quote said' :: next' :: []) := (call_inj (by decide) (by decide) h).2
          obtain ⟨-, rfl, hrest⟩ := arguments_inj hinside rfl rfl (hwords (by decide))
            (hwords (by decide)) (List.forall_mem_singleton.mpr hresponse.next)
            (List.forall_mem_singleton.mpr hother.next)
          rw [(List.cons.inj hrest).1]
      | some trigger' => exact absurd (call_inj (by decide) (by decide) h).1 (by decide)
  | some trigger =>
      cases trigger' with
      | none => exact absurd (call_inj (by decide) (by decide) h).1 (by decide)
      | some trigger' =>
          have hinside : inside ([name, label, "trigger_" ++ toString position] ++
              quote said :: next :: ["cb_trigger_" ++ trigger, "null"]) =
              inside ([name, label, "trigger_" ++ toString position] ++
              quote said' :: next' :: ["cb_trigger_" ++ trigger', "null"]) :=
            (call_inj (by decide) (by decide) h).2
          obtain ⟨-, rfl, hrest⟩ := arguments_inj hinside rfl rfl (hwords (by decide))
            (hwords (by decide)) (hbare hresponse.next (hresponse.trigger trigger rfl))
            (hbare hother.next (hother.trigger trigger' rfl))
          simp only [List.cons.injEq, String.append_right_inj] at hrest
          rw [hrest.1, hrest.2.1]

theorem responses_inj {name label : String} (hname : isWord name) (hlabel : isWord label)
    {responses others : List Response} (hresponses : ∀ response ∈ responses, response.Plain)
    (hothers : ∀ response ∈ others, response.Plain) (position : Nat)
    (h : (responses.zipIdx position).map (fun (response, i) => responseLine name label i response) =
      (others.zipIdx position).map fun (response, i) => responseLine name label i response) :
    responses = others := by
  induction responses generalizing others position with
  | nil => simpa using h.symm
  | cons response responses ih =>
      cases others with
      | nil => simp at h
      | cons other others =>
          obtain ⟨hline, hlines⟩ := List.cons.inj h
          rw [responseLine_inj hname hlabel (hresponses response List.mem_cons_self)
            (hothers other List.mem_cons_self) hline,
            ih (fun r hr => hresponses r (List.mem_cons_of_mem _ hr))
              (fun r hr => hothers r (List.mem_cons_of_mem _ hr)) (position + 1) hlines]

end Artifact

/-! ## Nodes -/

/-- Whether two nodes differ at most in what is not used: the successor of a
question and the responses of a statement. -/
structure Node.Alike (node other : Node) : Prop where
  label : node.label = other.label
  kind : node.kind = other.kind
  text : node.text = other.text
  next : node.kind = .statement → node.next = other.next
  responses : node.kind = .question → node.responses = other.responses

namespace Artifact

open Text

theorem nodeLines_congr {node other : Node} (h : node.Alike other) (name : String) :
    nodeLines name node = nodeLines name other := by
  unfold nodeLines
  rw [← h.kind, h.label, h.text]
  split
  next hkind => rw [h.next hkind]
  next hkind => rw [h.responses hkind]

theorem nodeLines_ne_nil (name : String) (node : Node) : nodeLines name node ≠ [] := by
  unfold nodeLines
  split <;> simp

/-- The first line of a node shows all that it is made from. -/
theorem nodeCall_inj {callee callee' name label label' said said' last last' : String}
    (hcallee : '(' ∉ callee.toList) (hcallee' : '(' ∉ callee'.toList) (hname : isWord name)
    (hlabel : isWord label) (hlabel' : isWord label') (hlast : isBareWord last)
    (hlast' : isBareWord last')
    (h : call callee [name, label, quote said, last] =
      call callee' [name, label', quote said', last']) :
    callee = callee' ∧ label = label' ∧ said = said' ∧ last = last' := by
  have hwords {word : String} (hword : isWord word) : ∀ w ∈ [name, word], isWord w := by
    simp only [List.forall_mem_cons]
    exact ⟨hname, hword, nofun⟩
  obtain ⟨hcallees, hinside⟩ := call_inj hcallee hcallee' h
  have hsplit : inside ([name, label] ++ quote said :: last :: []) =
      inside ([name, label'] ++ quote said' :: last' :: []) := hinside
  obtain ⟨hfront, hsaid, hback⟩ := arguments_inj hsplit rfl rfl (hwords hlabel) (hwords hlabel')
    (List.forall_mem_singleton.mpr hlast) (List.forall_mem_singleton.mpr hlast')
  simp only [List.cons.injEq, and_true, true_and] at hfront hback
  exact ⟨hcallees, hfront, hsaid, hback⟩

/-- The lines of a node show where they end, and all of the node that is used. -/
theorem nodeLines_append_inj {name : String} {node other : Node} {rest rest' : List String}
    (hname : isWord name) (hnode : node.Plain) (hother : other.Plain)
    (h : nodeLines name node ++ rest = nodeLines name other ++ rest') :
    node.Alike other ∧ rest = rest' := by
  obtain ⟨label, kind, said, next, responses⟩ := node
  obtain ⟨label', kind', said', next', responses'⟩ := other
  have hcount (count : Nat) := isBareWord_toString count
  cases kind with
  | statement =>
      cases kind' with
      | statement =>
          simp only [nodeLines, List.cons_append, List.nil_append, List.cons.injEq] at h
          obtain ⟨hline, hrest⟩ := h
          obtain ⟨-, hlabel, hsaid, hnext⟩ := nodeCall_inj (by decide) (by decide) hname
            hnode.label hother.label hnode.next hother.next hline
          exact ⟨⟨hlabel, rfl, hsaid, fun _ => hnext, nofun⟩, hrest⟩
      | question =>
          simp only [nodeLines, List.cons_append, List.cons.injEq] at h
          obtain ⟨hcallee, -⟩ := nodeCall_inj (by decide) (by decide) hname hnode.label
            hother.label hnode.next (hcount _) h.1
          exact absurd hcallee (by decide)
  | question =>
      cases kind' with
      | statement =>
          simp only [nodeLines, List.cons_append, List.cons.injEq] at h
          obtain ⟨hcallee, -⟩ := nodeCall_inj (by decide) (by decide) hname hnode.label
            hother.label (hcount _) hother.next h.1
          exact absurd hcallee (by decide)
      | question =>
          simp only [nodeLines, List.cons_append, List.cons.injEq] at h
          obtain ⟨hline, hrest⟩ := h
          obtain ⟨-, rfl, hsaid, hnumber⟩ := nodeCall_inj (by decide) (by decide) hname
            hnode.label hother.label (hcount _) (hcount _) hline
          -- The count says how many of the lines that follow are responses.
          obtain ⟨hlines, hrest⟩ := List.append_inj hrest
            (by simpa using toString_injective hnumber)
          exact ⟨⟨rfl, rfl, hsaid, nofun, fun _ => responses_inj hname hnode.label hnode.responses
            hother.responses 0 hlines⟩, hrest⟩

theorem alike_of_flatMap_nodeLines {name : String} (hname : isWord name) {nodes others : List Node}
    (hnodes : ∀ node ∈ nodes, node.Plain) (hothers : ∀ node ∈ others, node.Plain)
    (h : nodes.flatMap (nodeLines name) = others.flatMap (nodeLines name)) :
    List.Forall₂ Node.Alike nodes others := by
  induction nodes generalizing others with
  | nil =>
      cases others with
      | nil => exact .nil
      | cons other others => simp [nodeLines_ne_nil] at h
  | cons node nodes ih =>
      cases others with
      | nil => simp [nodeLines_ne_nil] at h
      | cons other others =>
          rw [List.flatMap_cons, List.flatMap_cons] at h
          obtain ⟨halike, hrest⟩ := nodeLines_append_inj hname (hnodes node List.mem_cons_self)
            (hothers other List.mem_cons_self) h
          exact .cons halike (ih (fun n hn => hnodes n (List.mem_cons_of_mem _ hn))
            (fun n hn => hothers n (List.mem_cons_of_mem _ hn)) hrest)

theorem flatMap_nodeLines_congr (name : String) {nodes others : List Node}
    (h : List.Forall₂ Node.Alike nodes others) :
    nodes.flatMap (nodeLines name) = others.flatMap (nodeLines name) := by
  induction h with
  | nil => rfl
  | cons halike _ ih => rw [List.flatMap_cons, List.flatMap_cons, nodeLines_congr halike, ih]

/-! ## Artifacts -/

theorem isEndedLine_responseLine {name label : String} (hname : isWord name)
    (hlabel : isWord label) {response : Response} (h : response.Plain) (position : Nat) :
    isEndedLine (responseLine name label position response) := by
  have hnumbered {tag : String} (htag : isWord tag) : isLine (tag ++ toString position) :=
    (htag.append (isBareWord_toString position).1).isLine
  unfold responseLine
  split
  next trigger htrigger =>
    have hbare := h.trigger trigger htrigger
    refine isEndedLine_call (by decide) ?_
    simp only [List.forall_mem_cons]
    exact ⟨hname.isLine, hlabel.isLine, hnumbered (by decide), isLine_quote h.text, h.next.1.isLine,
      (isWord.append (by decide) hbare.1).isLine, by decide, nofun⟩
  next =>
    refine isEndedLine_call (by decide) ?_
    simp only [List.forall_mem_cons]
    exact ⟨hname.isLine, hlabel.isLine, hnumbered (by decide), isLine_quote h.text,
      h.next.1.isLine, nofun⟩

theorem isEndedLine_of_mem_nodeLines {name line : String} {node : Node} (hname : isWord name)
    (hnode : node.Plain) (h : line ∈ nodeLines name node) : isEndedLine line := by
  have hcall {callee last : String} (hcallee : isLine callee) (hlast : isWord last) :
      isEndedLine (call callee [name, node.label, quote node.text, last]) := by
    refine isEndedLine_call hcallee ?_
    simp only [List.forall_mem_cons]
    exact ⟨hname.isLine, hnode.label.isLine, isLine_quote hnode.text, hlast.isLine, nofun⟩
  unfold nodeLines at h
  split at h
  next =>
    rw [List.mem_singleton.mp h]
    exact hcall (by decide) hnode.next.1
  next =>
    rcases List.mem_cons.mp h with rfl | h
    · exact hcall (by decide) (isBareWord_toString _).1
    · obtain ⟨⟨response, position⟩, hmem, rfl⟩ := List.mem_map.mp h
      exact isEndedLine_responseLine hname hnode.label
        (hnode.responses response (List.fst_mem_of_mem_zipIdx hmem)) position

end Artifact

/-- The nodes of a dialogue, the one that it begins at before all others. -/
def Dialogue.startFirst (dialogue : Dialogue) : List Node :=
  dialogue.nodes.filter (·.label = Label.start) ++ dialogue.nodes.filter (·.label ≠ Label.start)

theorem Dialogue.toList_start? (dialogue : Dialogue) :
    dialogue.start?.toList = dialogue.nodes.filter (·.label = Label.start) := by
  obtain ⟨name, nodes, hnodup⟩ := dialogue
  change (Keyed.find? Node.label nodes Label.start).toList = nodes.filter (·.label = Label.start)
  induction nodes with
  | nil => rfl
  | cons node nodes ih =>
      obtain ⟨hnew, hnodup⟩ := List.nodup_cons.mp hnodup
      by_cases hstart : node.label = Label.start
      · have hrest : nodes.filter (·.label = Label.start) = [] := by
          rw [List.filter_eq_nil_iff]
          intro other hother hlabel
          rw [hstart, ← of_decide_eq_true hlabel] at hnew
          exact hnew (List.mem_map_of_mem hother)
        simp [Keyed.find?, hstart, hrest]
      · have htail := ih hnodup
        rw [Keyed.find?] at htail ⊢
        simp [hstart, htail]

theorem Artifact.order_eq_startFirst (dialogue : Dialogue) :
    order dialogue = dialogue.startFirst := by
  rw [order, Dialogue.toList_start?]
  rfl

theorem Dialogue.startFirst_perm (dialogue : Dialogue) :
    dialogue.startFirst.Perm dialogue.nodes := by
  have hperm := List.filter_append_perm (fun node : Node => decide (node.label = Label.start))
    dialogue.nodes
  simpa [startFirst] using hperm

namespace Artifact

open Text

theorem isEndedLine_of_mem_lines {dialogue : Dialogue} {line : String}
    (hname : isWord dialogue.name) (hnodes : ∀ node ∈ dialogue.nodes, node.Plain)
    (h : line ∈ lines dialogue) : isEndedLine line := by
  rcases List.mem_cons.mp h with rfl | h
  · refine isEndedLine_call (by decide) ?_
    simp only [List.forall_mem_cons]
    exact ⟨hname.isLine, (isBareWord_toString _).1.isLine, nofun⟩
  · obtain ⟨node, hnode, hline⟩ := List.mem_flatMap.mp h
    rw [order_eq_startFirst] at hnode
    exact isEndedLine_of_mem_nodeLines hname
      (hnodes node (dialogue.startFirst_perm.mem_iff.mp hnode)) hline

theorem lines_congr {d e : Dialogue} (hname : d.name = e.name)
    (halike : List.Forall₂ Node.Alike d.startFirst e.startFirst) : lines d = lines e := by
  have hsize : d.size = e.size := by
    rw [Dialogue.size, Dialogue.size, ← d.startFirst_perm.length_eq, ← e.startFirst_perm.length_eq]
    exact halike.length_eq
  rw [lines, lines, order_eq_startFirst, order_eq_startFirst, hname, hsize,
    flatMap_nodeLines_congr _ halike]

end Artifact

/-- An artifact shows the name of its dialogue and all of its nodes that is used. -/
theorem Dialogue.artifact_eq_iff {d e : Dialogue} (hd : Text.isWord d.name)
    (hdnodes : ∀ node ∈ d.nodes, node.Plain) (he : Text.isWord e.name)
    (henodes : ∀ node ∈ e.nodes, node.Plain) :
    d.artifact = e.artifact ↔
      d.name = e.name ∧ List.Forall₂ Node.Alike d.startFirst e.startFirst := by
  constructor
  · intro h
    have hlines := Text.eq_of_join_eq (fun _ => Artifact.isEndedLine_of_mem_lines hd hdnodes)
      (fun _ => Artifact.isEndedLine_of_mem_lines he henodes) h
    rw [Artifact.lines, Artifact.lines, Artifact.order_eq_startFirst,
      Artifact.order_eq_startFirst] at hlines
    obtain ⟨hheader, hnodes⟩ := List.cons.inj hlines
    have hname := Artifact.name_of_header hd he hheader
    refine ⟨hname, Artifact.alike_of_flatMap_nodeLines hd ?_ ?_ (hname ▸ hnodes)⟩
    · exact fun node hnode => hdnodes node (d.startFirst_perm.mem_iff.mp hnode)
    · exact fun node hnode => henodes node (e.startFirst_perm.mem_iff.mp hnode)
  · intro ⟨hname, halike⟩
    rw [artifact, artifact, Artifact.lines_congr hname halike]

/-- Two scripts are compiled to the same text exactly when their dialogues have
the same name and, beginning with `START`, the same nodes, up to the successors
of questions and the responses of statements. -/
theorem Script.compile_eq_iff_alike {file src src' text text' : String} (hfile : Text.isWord file)
    (h : compile file src = .ok text) (h' : compile file src' = .ok text') :
    ∃ d e, parse file src = .ok d ∧ parse file src' = .ok e ∧
      (text = text' ↔ d.name = e.name ∧ List.Forall₂ Node.Alike d.startFirst e.startFirst) := by
  unfold compile at h h'
  cases hd : parse file src with
  | error error => simp [hd, Except.map] at h
  | ok d =>
      cases he : parse file src' with
      | error error => simp [he, Except.map] at h'
      | ok e =>
          rw [hd] at h
          rw [he] at h'
          obtain rfl := Except.ok.inj h
          obtain rfl := Except.ok.inj h'
          obtain ⟨hdname, hdnodes⟩ := plain_of_parse hfile hd
          obtain ⟨hename, henodes⟩ := plain_of_parse hfile he
          exact ⟨d, e, rfl, rfl, Dialogue.artifact_eq_iff hdname hdnodes hename henodes⟩

/-- Two scripts that differ in all that an artifact does not show. -/
def Script.spoken : String × String :=
  ("(node s a)\n(text \"so, \"b\");\" quit)\n(resp \"c\" a)\n" ++
    "(node q start)\n(text \"\"d\"?\" quit)\n(trig \"e\", \" a f)\n",
  "(node q START)\n(text \"\"d\"?\" a)\n(trig \"e\", \" a f)\n" ++
    "(node s a)\n(text \"so, \"b\");\" quit)\n")

theorem Script.compile_eq_iff_alike_spoken :
    ∃ text, compile "a,\"b\"" spoken.1 = .ok text ∧ compile "a,\"b\"" spoken.2 = .ok text ∧
      ∃ d e, parse "a,\"b\"" spoken.1 = .ok d ∧ parse "a,\"b\"" spoken.2 = .ok e ∧
        d.name = e.name ∧ List.Forall₂ Node.Alike d.startFirst e.startFirst := by
  have hsame : ((compile "a,\"b\"" spoken.1).toOption.any fun text =>
      (compile "a,\"b\"" spoken.2).toOption = some text) = true := by
    decide +kernel
  cases hfirst : compile "a,\"b\"" spoken.1 with
  | error error => simp [hfirst, Except.toOption] at hsame
  | ok text =>
      cases hsecond : compile "a,\"b\"" spoken.2 with
      | error error => simp [hfirst, hsecond, Except.toOption] at hsame
      | ok other =>
          simp only [hfirst, hsecond, Except.toOption, Option.any_some, decide_eq_true_eq,
            Option.some.injEq] at hsame
          obtain ⟨d, e, hd, he, hiff⟩ := compile_eq_iff_alike (by decide) hfirst hsecond
          exact ⟨text, rfl, by rw [hsame], d, e, hd, he, hiff.mp hsame.symm⟩

end Parley
