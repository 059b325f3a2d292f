import Mathlib.Tactic.MkIffOfInductiveProp
import Parley.Proofs.Vocabulary
import Parley.Script.Printer

/-!
# Written lines are read back

A directive is written as a keyword, its fields with one space in front of each,
a gap and a closing parenthesis. Reading such a line gives the directive again
as long as its words are not empty and a parenthesis at the end of the last one
is kept apart from the closing one. The comment cut leaves the line alone if no
two semicolons meet in it, or if they only do so in a text without quotes.
-/

namespace Parley

namespace Text

/-! ## Cutting what was joined -/

section

variable {α : Type}

theorem dropEndWhile_concat_of_pos {p : α → Bool} {a : α} (ha : p a = true) (l : List α) :
    dropEndWhile p (l ++ [a]) = dropEndWhile p l := by
  simp [dropEndWhile, ha]

theorem dropWhile_eq_self {p : α → Bool} {l : List α} (h : ∀ a ∈ l.head?, p a = false) :
    l.dropWhile p = l := by
  cases l with
  | nil => rfl
  | cons a l => simp [h a rfl]

theorem dropEndWhile_eq_self {p : α → Bool} {l : List α} (h : ∀ a ∈ l.getLast?, p a = false) :
    dropEndWhile p l = l := by
  rw [← List.head?_reverse] at h
  rw [dropEndWhile, dropWhile_eq_self h, List.reverse_reverse]

end

theorem trim_blank_cons {c : Char} (hc : isBlank c = true) (cs : List Char) :
    trim (c :: cs) = trim cs := by
  rw [trim, List.dropWhile_cons_of_pos hc, trim]

/-- Blanks go at both ends only. -/
theorem trim_eq_self {cs : List Char} (hhead : ∀ c ∈ cs.head?, isBlank c = false)
    (hlast : ∀ c ∈ cs.getLast?, isBlank c = false) : trim cs = cs := by
  rw [trim, dropWhile_eq_self hhead, dropEndWhile_eq_self hlast]

end Text

namespace Script

open Text

/-! ## Comments -/

/-- Whether two semicolons meet. -/
def holdsComment (cs : List Char) : Prop := [';', ';'] <:+: cs

theorem holdsComment_cons {c : Char} {cs : List Char} :
    holdsComment (c :: cs) ↔ (c = ';' ∧ cs.head? = some ';') ∨ holdsComment cs := by
  rw [holdsComment, List.infix_cons_iff, List.cons_prefix_cons]
  cases cs with
  | nil => simp [holdsComment]
  | cons d cs => simp [holdsComment, List.cons_prefix_cons, @eq_comm _ ';']

-- The instance for parts of a list searches the rest of the list twice at each step.
instance decidableHoldsComment : (cs : List Char) → Decidable (holdsComment cs)
  | [] => isFalse (by simp [holdsComment])
  | _ :: cs =>
      have := decidableHoldsComment cs
      decidable_of_iff' _ holdsComment_cons

/-- A character other than a quote stays, unless a comment begins at it. -/
theorem beforeComment_cons {quoted : Bool} {c : Char} {cs : List Char} (hc : c ≠ '"')
    (h : quoted = true ∨ ¬ (c = ';' ∧ cs.head? = some ';')) :
    beforeComment quoted (c :: cs) = c :: beforeComment quoted cs := by
  rw [beforeComment]
  · exact hc
  · rintro rest rfl rfl rfl
    simp at h

/-- A comment is cut off as a whole. -/
theorem beforeComment_eq_nil {quoted : Bool} {c : Char} {cs : List Char}
    (h : ¬ (quoted = true ∨ ¬ (c = ';' ∧ cs.head? = some ';'))) :
    beforeComment quoted (c :: cs) = [] := by
  obtain ⟨hquoted, hmeet⟩ := not_or.mp h
  obtain ⟨rfl, hnext⟩ := Classical.not_not.mp hmeet
  obtain ⟨more, rfl⟩ := List.head?_eq_some_iff.mp hnext
  obtain rfl : quoted = false := by simpa using hquoted
  simp [beforeComment]

/-- Whether a line is inside quotes behind some text, given whether it was in
front of it. -/
def quotedAfter (quoted : Bool) (cs : List Char) : Bool :=
  cs.foldl (fun quoted c => if c = '"' then !quoted else quoted) quoted

theorem quotedAfter_append (quoted : Bool) (x y : List Char) :
    quotedAfter quoted (x ++ y) = quotedAfter (quotedAfter quoted x) y :=
  List.foldl_append

theorem quotedAfter_cons (quoted : Bool) (c : Char) (cs : List Char) :
    quotedAfter quoted (c :: cs) = quotedAfter (quotedAfter quoted [c]) cs :=
  quotedAfter_append quoted [c] cs

theorem quotedAfter_of_not_mem {cs : List Char} (h : '"' ∉ cs) (quoted : Bool) :
    quotedAfter quoted cs = quoted := by
  induction cs with
  | nil => rfl
  | cons c cs ih =>
      obtain ⟨hc, hcs⟩ := not_or.mp (mt List.mem_cons.mpr h)
      rw [quotedAfter, List.foldl_cons, if_neg (Ne.symm hc)]
      exact ih hcs

/-- Behind a character that stays the cut goes on, inside or outside of quotes. -/
theorem beforeComment_cons_quotedAfter {quoted : Bool} {c : Char} {cs : List Char}
    (h : quoted = true ∨ ¬ (c = ';' ∧ cs.head? = some ';')) :
    beforeComment quoted (c :: cs) = c :: beforeComment (quotedAfter quoted [c]) cs := by
  by_cases hc : c = '"'
  · subst hc
    simp [beforeComment, quotedAfter]
  · rw [beforeComment_cons hc h, quotedAfter_of_not_mem (by simpa using Ne.symm hc)]

/-- Whether the comment cut leaves a text alone, given whether it begins inside
quotes. -/
def Uncut (quoted : Bool) (cs : List Char) : Prop := beforeComment quoted cs = cs

instance (quoted : Bool) (cs : List Char) : Decidable (Uncut quoted cs) :=
  inferInstanceAs (Decidable (_ = _))

theorem uncut_cons_iff {quoted : Bool} {c : Char} {cs : List Char} :
    Uncut quoted (c :: cs) ↔
      (quoted = true ∨ ¬ (c = ';' ∧ cs.head? = some ';')) ∧ Uncut (quotedAfter quoted [c]) cs := by
  unfold Uncut
  by_cases hstays : quoted = true ∨ ¬ (c = ';' ∧ cs.head? = some ';')
  · rw [beforeComment_cons_quotedAfter hstays, and_iff_right hstays, List.cons.injEq,
      and_iff_right rfl]
  · rw [beforeComment_eq_nil hstays]
    exact iff_of_false (List.cons_ne_nil c cs).symm fun h => hstays h.1

/-- A part of a text that is left alone is left alone in its place. -/
theorem uncut_of_append {quoted : Bool} {x y : List Char} (h : Uncut quoted (x ++ y)) :
    Uncut quoted x ∧ Uncut (quotedAfter quoted x) y := by
  induction x generalizing quoted with
  | nil => exact ⟨rfl, h⟩
  | cons c x ih =>
      rw [List.cons_append, uncut_cons_iff] at h
      obtain ⟨hstays, hrest⟩ := h
      obtain ⟨hx, hy⟩ := ih hrest
      refine ⟨uncut_cons_iff.mpr ⟨hstays.imp_right ?_, hx⟩, ?_⟩
      · rintro hnot ⟨rfl, hnext⟩
        obtain ⟨more, rfl⟩ := List.head?_eq_some_iff.mp hnext
        exact hnot ⟨rfl, rfl⟩
      · rwa [quotedAfter_cons]

/-- Parts that are left alone in their places are left alone together, if no
semicolon follows the cut. -/
theorem Uncut.append {quoted : Bool} {x y : List Char} (hx : Uncut quoted x)
    (hy : Uncut (quotedAfter quoted x) y) (hhead : y.head? ≠ some ';') :
    Uncut quoted (x ++ y) := by
  induction x generalizing quoted with
  | nil => exact hy
  | cons c x ih =>
      obtain ⟨hstays, hrest⟩ := uncut_cons_iff.mp hx
      rw [quotedAfter_cons] at hy
      refine uncut_cons_iff.mpr ⟨hstays.imp_right ?_, ih hrest hy⟩
      rintro hnot ⟨rfl, hnext⟩
      cases x with
      | nil => exact hhead hnext
      | cons d x => exact hnot ⟨rfl, hnext⟩

/-- What stands in its place in front of something else that is left alone. -/
theorem Uncut.infix {quoted : Bool} {front x rest : List Char}
    (h : Uncut quoted (front ++ (x ++ rest))) (hquote : '"' ∉ front) : Uncut quoted x := by
  have hplace := (uncut_of_append h).2
  rw [quotedAfter_of_not_mem hquote] at hplace
  exact (uncut_of_append hplace).1

theorem uncut_of_not_holdsComment {cs : List Char} (h : ¬ holdsComment cs) (quoted : Bool) :
    Uncut quoted cs := by
  induction cs generalizing quoted with
  | nil => rfl
  | cons c cs ih =>
      rw [holdsComment_cons, not_or] at h
      exact uncut_cons_iff.mpr ⟨.inr h.1, ih h.2 _⟩

theorem uncut_true_of_not_mem {cs : List Char} (h : '"' ∉ cs) : Uncut true cs := by
  induction cs with
  | nil => rfl
  | cons c cs ih =>
      obtain ⟨hc, hcs⟩ := not_or.mp (mt List.mem_cons.mpr h)
      refine uncut_cons_iff.mpr ⟨.inl rfl, ?_⟩
      rw [quotedAfter_of_not_mem (by simpa using hc)]
      exact ih hcs

theorem uncut_cons_of_ne {quoted : Bool} {c : Char} {cs : List Char} (hc : c ≠ ';') :
    Uncut quoted (c :: cs) ↔ Uncut (quotedAfter quoted [c]) cs := by
  simp [uncut_cons_iff, hc]

/-! ## Fields -/

/-- Words with one space in front of each. -/
def spaced (words : List String) : List Char := words.flatMap fun word => ' ' :: word.toList

theorem spaced_cons (word : String) (words : List String) :
    spaced (word :: words) = ' ' :: (word.toList ++ spaced words) := rfl

theorem toList_render (gap : String) (directive : Directive) :
    (directive.render gap).toList = '(' :: (directive.keyword.word.toList ++
      (spaced directive.fieldTexts ++ gap.toList ++ [')'])) := by
  have hspaced (word : String) (words : List String) :
      [' '].intercalate (word.toList :: words.map String.toList) = word.toList ++ spaced words := by
    induction words generalizing word with
    | nil => simp [spaced]
    | cons next words ih =>
        rw [List.map_cons, List.intercalate_cons_cons, ih, spaced_cons]
        simp
  simp [Directive.render, String.toList_intercalate, hspaced]

/-- Whether words can be told apart once they are written in front of a gap and a
closing parenthesis. -/
structure Legible (gap : List Char) (words : List String) : Prop where
  blank : ∀ c ∈ gap, isBlank c = true
  ne_empty : ∀ word ∈ words, word ≠ ""
  isWord : ∀ word ∈ words, isWord word
  apart : gap ≠ [] ∨ ∀ word ∈ words, word.toList.getLast? ≠ some ')'

namespace Legible

variable {gap : List Char} {words : List String}

theorem tail {word : String} (h : Legible gap (word :: words)) : Legible gap words where
  blank := h.blank
  ne_empty w hw := h.ne_empty w (List.mem_cons_of_mem _ hw)
  isWord w hw := h.isWord w (List.mem_cons_of_mem _ hw)
  apart := h.apart.imp_right fun hall w hw => hall w (List.mem_cons_of_mem _ hw)

theorem cons_tag (h : Legible gap words) (kind : NodeKind) : Legible gap (kind.tag :: words) where
  blank := h.blank
  ne_empty := List.forall_mem_cons.mpr ⟨by cases kind <;> decide, h.ne_empty⟩
  isWord := List.forall_mem_cons.mpr ⟨by cases kind <;> decide, h.isWord⟩
  apart := h.apart.imp_right fun hall =>
    List.forall_mem_cons.mpr ⟨by cases kind <;> decide, hall⟩

theorem toList_ne_nil (h : Legible gap words) {word : String} (hword : word ∈ words) :
    word.toList ≠ [] := by
  simpa using h.ne_empty word hword

theorem words_spaced (h : Legible gap words) :
    Text.words (spaced words ++ gap) = words.map String.toList := by
  induction words with
  | nil => exact runs_eq_nil h.blank
  | cons word words ih =>
      have hrest : ∀ c ∈ (spaced words ++ gap).head?, isBlank c = true := by
        cases words with
        | nil => exact fun c hc => h.blank c (List.mem_of_head? hc)
        | cons next words =>
            intro c hc
            obtain rfl : ' ' = c := Option.some.inj hc
            decide
      have hfirst := h.toList_ne_nil List.mem_cons_self
      rw [Text.words, spaced_cons, List.cons_append, runs_separator_cons (by decide),
        List.append_assoc, runs_append hfirst (h.isWord word List.mem_cons_self) hrest,
        ← Text.words, ih h.tail, List.map_cons]

/-- No parenthesis stands in front of the closing one. -/
theorem getLast?_ne (h : Legible gap words) : (spaced words ++ gap).getLast? ≠ some ')' := by
  rw [List.getLast?_append]
  rcases List.eq_nil_or_concat' gap with rfl | ⟨front, c, rfl⟩
  · have hwords := h.apart.resolve_left (by simp)
    clear h
    induction words with
    | nil => simp [spaced]
    | cons word words ih =>
        obtain ⟨hword, hwords⟩ := List.forall_mem_cons.mp hwords
        have hrest := ih hwords
        rw [spaced_cons, List.getLast?_cons, List.getLast?_append]
        cases hlast : (spaced words).getLast? with
        | some c => simpa [hlast] using hrest
        | none =>
            cases hend : word.toList.getLast? with
            | some c => simpa [hend] using hword
            | none => simp
  · rw [List.getLast?_concat, Option.some_or]
    intro heq
    have hblank := h.blank c (by simp)
    rw [Option.some.inj heq] at hblank
    exact absurd hblank (by decide)

/-- The fields of an argument list are the words it was written with. -/
theorem fields_spaced (h : Legible gap words) (hsome : words ≠ []) :
    Directive.fields (spaced words ++ gap ++ [')']) = words := by
  have hwords := h.words_spaced
  have hlast := h.getLast?_ne
  obtain ⟨word, more, rfl⟩ := List.exists_cons_of_ne_nil hsome
  have hfirst : ∀ c ∈ (word.toList ++ spaced more ++ gap ++ [')']).head?, isBlank c = false := by
    obtain ⟨d, cs, hcs⟩ := List.exists_cons_of_ne_nil (h.toList_ne_nil List.mem_cons_self)
    rw [hcs]
    intro c hc
    obtain rfl : d = c := Option.some.inj hc
    exact h.isWord word List.mem_cons_self d (by rw [hcs]; exact List.mem_cons_self)
  rw [spaced_cons, List.cons_append] at hwords hlast ⊢
  generalize word.toList ++ spaced more ++ gap = inner at hwords hlast hfirst ⊢
  -- Only the space at the front is trimmed, and only one parenthesis at the end.
  have htrim : trim (' ' :: inner ++ [')']) = inner ++ [')'] := by
    rw [List.cons_append, trim_blank_cons (by decide)]
    refine trim_eq_self hfirst fun c hc => ?_
    rw [List.getLast?_concat] at hc
    obtain rfl : ')' = c := Option.some.inj hc
    decide
  have hclosing : dropEndWhile Directive.isClosing (inner ++ [')']) = inner := by
    rw [dropEndWhile_concat_of_pos (by decide)]
    refine dropEndWhile_eq_self fun c hc => ?_
    rw [Directive.isClosing, beq_eq_false_iff_ne]
    rintro rfl
    rw [List.getLast?_cons, Option.mem_def.mp hc] at hlast
    exact hlast rfl
  rw [Text.words, runs_separator_cons (by decide), ← Text.words] at hwords
  rw [Directive.fields, htrim, hclosing, hwords, List.map_map]
  exact List.map_id'' (fun _ => String.ofList_toList) _

end Legible

/-! ## Quotations -/

theorem not_mem_spaced {words : List String} (h : ∀ word ∈ words, '"' ∉ word.toList) :
    '"' ∉ spaced words := by
  intro hmem
  obtain ⟨word, hword, hquote⟩ := List.mem_flatMap.mp hmem
  rcases List.mem_cons.mp hquote with hspace | hquote
  · exact absurd hspace (by decide)
  · exact h word hword hquote

/-- A text between quotes is found there whatever it holds, if no quote follows. -/
theorem quotation?_append {said rest : List Char} (hrest : '"' ∉ rest) :
    Directive.quotation? (' ' :: '"' :: (said ++ '"' :: rest)) =
      some (String.ofList said, rest) := by
  have hback : (said ++ '"' :: rest).reverse = rest.reverse ++ '"' :: said.reverse := by simp
  have hall : ∀ c ∈ rest.reverse, (!Directive.isQuote c) = true := by
    intro c hc
    rw [List.mem_reverse] at hc
    rw [Bool.not_eq_true', Directive.isQuote, beq_eq_false_iff_ne]
    rintro rfl
    exact hrest hc
  have hopen : (' ' :: '"' :: (said ++ '"' :: rest)).dropWhile (!Directive.isQuote ·) =
      '"' :: (said ++ '"' :: rest) := by
    simp [Directive.isQuote]
  have hclose : (said ++ '"' :: rest).reverse.dropWhile (!Directive.isQuote ·) =
      '"' :: said.reverse := by
    rw [hback, List.dropWhile_append_of_pos hall]
    simp [Directive.isQuote]
  have hafter : takeEndWhile (!Directive.isQuote ·) (said ++ '"' :: rest) = rest := by
    rw [takeEndWhile, hback, List.takeWhile_append_of_pos hall]
    simp [Directive.isQuote]
  rw [Directive.quotation?, hopen]
  simp only [hclose, hafter, List.reverse_reverse]

/-! ## Directives -/

theorem read_keyword (keyword : Keyword) {args : List Char} (hargs : args.head? = some ' ') :
    Directive.read ('(' :: (keyword.word.toList ++ args)) = Directive.readArgs keyword args := by
  have hall : ∀ c ∈ keyword.word.toList, Directive.isKeywordChar c = true := by
    rw [← List.all_eq_true]
    cases keyword <;> decide
  obtain ⟨rest, rfl⟩ := List.head?_eq_some_iff.mp hargs
  have htake : (keyword.word.toList ++ ' ' :: rest).takeWhile Directive.isKeywordChar =
      keyword.word.toList := by
    rw [List.takeWhile_append_of_pos hall, List.takeWhile_cons_of_neg (by decide), List.append_nil]
  have hdrop : (keyword.word.toList ++ ' ' :: rest).dropWhile Directive.isKeywordChar =
      ' ' :: rest := by
    rw [List.dropWhile_append_of_pos hall, List.dropWhile_cons_of_neg (by decide)]
  rw [Directive.read, htake, hdrop, String.ofList_toList, Keyword.ofWord?_word]

namespace Directive

/-- The words of a directive, without its kind and its text. -/
def words : Directive → List String
  | name identifier => [identifier]
  | node _ label => [label]
  | text _ next => [next]
  | response _ next trigger => next :: trigger.toList

/-- The text of a directive. -/
def said? : Directive → Option String
  | text said _ => some said
  | response said _ _ => some said
  | _ => none

theorem fieldTexts_of_said? {directive : Directive} {said : String}
    (h : directive.said? = some said) :
    directive.fieldTexts = ("\"" ++ said ++ "\"") :: directive.words := by
  cases directive with
  | name => contradiction
  | node => contradiction
  | text said' next =>
      obtain rfl := Option.some.inj h
      rfl
  | response said' next trigger =>
      obtain rfl := Option.some.inj h
      rfl

/-- The line of a directive with a text, cut at the quotes around it. -/
theorem line_of_said? {said : String} (directive : Directive) (h : directive.said? = some said)
    (rest : List Char) :
    '(' :: (directive.keyword.word.toList ++ (spaced directive.fieldTexts ++ rest)) =
      ('(' :: (directive.keyword.word.toList ++ [' '])) ++ '"' ::
        (said.toList ++ '"' :: (spaced directive.words ++ rest)) := by
  rw [fieldTexts_of_said? h]
  simp [spaced_cons]

theorem Plain.not_mem_of_said? {directive : Directive} (hplain : directive.Plain) {said : String}
    (hsaid : directive.said? = some said) {word : String} (hword : word ∈ directive.words) :
    '"' ∉ word.toList := by
  cases directive with
  | name => contradiction
  | node => contradiction
  | text said' next =>
      obtain rfl := List.mem_singleton.mp hword
      exact hplain.2.2
  | response said' next trigger =>
      obtain ⟨-, hnext, htrigger⟩ := hplain
      rcases List.mem_cons.mp hword with rfl | hword
      · exact hnext.2
      · exact (htrigger word (Option.mem_toList.mp hword)).2

variable {gap : List Char}

theorem quotation?_spaced {said : String} {words : List String} (h : Legible gap words)
    (hbare : ∀ word ∈ words, isBareWord word) :
    quotation? (spaced (("\"" ++ said ++ "\"") :: words) ++ gap ++ [')']) =
      some (said, spaced words ++ gap ++ [')']) := by
  have hrest : '"' ∉ spaced words ++ gap ++ [')'] := by
    have hwords := not_mem_spaced fun word hword => (hbare word hword).2
    have hgap : '"' ∉ gap := fun hmem => absurd (h.blank _ hmem) (by decide)
    simp [hwords, hgap]
  have hargs : spaced (("\"" ++ said ++ "\"") :: words) ++ gap ++ [')'] =
      ' ' :: '"' :: (said.toList ++ '"' :: (spaced words ++ gap ++ [')'])) := by
    simp [spaced_cons]
  rw [hargs, quotation?_append hrest, String.ofList_toList]

section

variable {said identifier label next trigger : String}

theorem readName_spaced (h : Legible gap [identifier]) :
    readName (spaced [identifier] ++ gap ++ [')']) = .ok (name identifier) := by
  rw [readName, h.fields_spaced (by simp)]

theorem readNode_spaced (kind : NodeKind) (h : Legible gap [label]) :
    readNode (spaced [kind.tag, label] ++ gap ++ [')']) = .ok (node kind label) := by
  rw [readNode, (h.cons_tag kind).fields_spaced (by simp)]
  simp

theorem readText_spaced (h : Legible gap [next]) (hnext : isBareWord next) :
    readText (spaced ["\"" ++ said ++ "\"", next] ++ gap ++ [')']) = .ok (text said next) := by
  rw [readText, quotation?_spaced h (by simpa using hnext)]
  simp only [h.fields_spaced, ne_eq, reduceCtorEq, not_false_eq_true, List.getLast?_singleton]

theorem readResp_spaced (h : Legible gap [next]) (hnext : isBareWord next) :
    readResp (spaced ["\"" ++ said ++ "\"", next] ++ gap ++ [')']) =
      .ok (response said next none) := by
  rw [readResp, quotation?_spaced h (by simpa using hnext)]
  simp only [h.fields_spaced, ne_eq, reduceCtorEq, not_false_eq_true]

theorem readTrig_spaced (h : Legible gap [next, trigger]) (hnext : isBareWord next)
    (htrigger : isBareWord trigger) :
    readTrig (spaced ["\"" ++ said ++ "\"", next, trigger] ++ gap ++ [')']) =
      .ok (response said next (some trigger)) := by
  rw [readTrig, quotation?_spaced h (by simpa using ⟨hnext, htrigger⟩)]
  simp only [h.fields_spaced, ne_eq, reduceCtorEq, not_false_eq_true]

end

/-- A directive is read from the line it is written as. -/
theorem read_render {gap : String} {directive : Directive} (hplain : directive.Plain)
    (h : Legible gap.toList directive.words) :
    read (directive.render gap).toList = .ok directive := by
  have hargs : (spaced directive.fieldTexts ++ gap.toList ++ [')']).head? = some ' ' := by
    cases directive <;> rfl
  rw [toList_render, read_keyword _ hargs]
  cases directive with
  | name identifier =>
      rw [keyword, readArgs, fieldTexts]
      exact readName_spaced h
  | node kind label =>
      rw [keyword, readArgs, fieldTexts]
      exact readNode_spaced kind h
  | text said next =>
      rw [keyword, readArgs, fieldTexts]
      exact readText_spaced h hplain.2
  | response said next trigger =>
      obtain ⟨-, hnext, htrigger⟩ := hplain
      rw [fieldTexts]
      cases trigger with
      | none =>
          rw [keyword, readArgs]
          exact readResp_spaced h hnext
      | some trigger =>
          rw [keyword, readArgs]
          exact readTrig_spaced h hnext (htrigger trigger rfl)

/-! ## Lines -/

theorem isLine_of_mem_fieldTexts {directive : Directive} (hplain : directive.Plain)
    {field : String} (h : field ∈ directive.fieldTexts) : isLine field := by
  have hquoted {said : String} (hsaid : isLine said) : isLine ("\"" ++ said ++ "\"") := by
    simpa [isLine] using hsaid
  cases directive with
  | name identifier =>
      obtain rfl := List.mem_singleton.mp h
      exact hplain.isLine
  | node kind label =>
      rcases List.mem_pair.mp h with rfl | rfl
      · cases kind <;> decide
      · exact hplain.isLine
  | text said next =>
      rcases List.mem_pair.mp h with rfl | rfl
      · exact hquoted hplain.1
      · exact hplain.2.1.isLine
  | response said next trigger =>
      obtain ⟨hsaid, hnext, htrigger⟩ := hplain
      rcases List.mem_append.mp h with h | h
      · rcases List.mem_pair.mp h with rfl | rfl
        · exact hquoted hsaid
        · exact hnext.1.isLine
      · exact (htrigger field (Option.mem_toList.mp h)).1.isLine

theorem Plain.isLine_render {gap : String} {directive : Directive} (hplain : directive.Plain)
    (hgap : isLine gap) : isLine (directive.render gap) := by
  have hkeyword : '\n' ∉ directive.keyword.word.toList := by
    cases directive.keyword <;> decide
  have hfields : '\n' ∉ spaced directive.fieldTexts := by
    intro hmem
    obtain ⟨field, hfield, hfeed⟩ := List.mem_flatMap.mp hmem
    rcases List.mem_cons.mp hfeed with hspace | hfeed
    · exact absurd hspace (by decide)
    · exact isLine_of_mem_fieldTexts hplain hfield hfeed
  unfold isLine at hgap ⊢
  simp [toList_render, hkeyword, hfields, hgap]

end Directive

theorem trim_render (gap : String) (directive : Directive) :
    trim (directive.render gap).toList = (directive.render gap).toList := by
  rw [toList_render]
  apply trim_eq_self
  · intro c hc
    obtain rfl : '(' = c := Option.some.inj hc
    decide
  · intro c hc
    rw [← List.append_assoc, ← List.cons_append, List.getLast?_concat] at hc
    obtain rfl : ')' = c := Option.some.inj hc
    decide

theorem lines_render {gap : String} {directives : List Directive}
    (h : ∀ directive ∈ directives, isLine (directive.render gap)) :
    lines (render gap directives).toList =
      directives.map fun directive => (directive.render gap).toList := by
  induction directives with
  | nil => rfl
  | cons directive rest ih =>
      obtain ⟨hfirst, hrest⟩ := List.forall_mem_cons.mp h
      have hline : ∀ c ∈ (directive.render gap).toList, isLineFeed c = false := by
        intro c hc
        rw [isLineFeed, beq_eq_false_iff_ne]
        rintro rfl
        exact hfirst hc
      have hsplit : (render gap (directive :: rest)).toList =
          (directive.render gap).toList ++ '\n' :: (render gap rest).toList := by
        simp [render]
      rw [hsplit, lines, terminated_append_separator (by decide),
        terminated_concat hline (by decide), ← lines, ih hrest]
      rfl

/-- Written directives are what their script says, if no comment cuts them off. -/
theorem contents_render {gap : String} {directives : List Directive}
    (hplain : ∀ directive ∈ directives, directive.Plain)
    (hlegible : ∀ directive ∈ directives, Legible gap.toList directive.words)
    (hcomment : ∀ directive ∈ directives,
      stripComment (directive.render gap).toList = (directive.render gap).toList)
    (hgap : isLine gap) :
    contents (render gap directives) = directives.map .ok := by
  have hlines := lines_render fun directive hmem => (hplain directive hmem).isLine_render hgap
  have htrim : ∀ directive ∈ directives, trim (stripComment (directive.render gap).toList) =
      (directive.render gap).toList := by
    intro directive hmem
    rw [hcomment directive hmem, trim_render]
  have hfull : (directives.map fun directive => (directive.render gap).toList).filter
      (fun raw => trim (stripComment raw) ≠ []) =
        directives.map fun directive => (directive.render gap).toList := by
    refine List.filter_eq_self.mpr fun line hline => ?_
    obtain ⟨directive, hmem, rfl⟩ := List.mem_map.mp hline
    rw [htrim directive hmem]
    simp [toList_render]
  rw [contents, said, hlines, hfull, List.map_map]
  refine List.map_congr_left fun directive hmem => ?_
  rw [Function.comp_apply, contentOf, htrim directive hmem]
  exact Directive.read_render (hplain directive hmem) (hlegible directive hmem)

/-! ## Lines that no comment cuts -/

/-- Whether the words of a directive begin inside quotes: behind a text that
opens a quotation of its own they do. -/
def Directive.quotedWords (directive : Directive) : Bool :=
  match directive.said? with
  | some said => !quotedAfter true said.toList
  | none => false

/-- Whether a word is not empty and no comment begins in it where it stands. -/
def isLettered (quoted : Bool) (word : String) : Prop := word ≠ "" ∧ Uncut quoted word.toList

/-- Whether a directive is made of words and texts that no comment cuts where
they stand. -/
structure Directive.Lettered (directive : Directive) : Prop where
  words : ∀ word ∈ directive.words, isLettered directive.quotedWords word
  said : ∀ said ∈ directive.said?, Uncut true said.toList

theorem uncut_spaced {quoted : Bool} {words : List String} {rest : List Char}
    (hwords : ∀ word ∈ words, Uncut quoted word.toList)
    (hbare : ∀ word ∈ words.dropLast, '"' ∉ word.toList) (hrest : ∀ quoted, Uncut quoted rest)
    (hhead : rest.head? ≠ some ';') : Uncut quoted (spaced words ++ rest) := by
  induction words with
  | nil => exact hrest quoted
  | cons word words ih =>
      obtain ⟨hword, hwords⟩ := List.forall_mem_cons.mp hwords
      rw [spaced_cons, List.cons_append, uncut_cons_of_ne (by decide), List.append_assoc]
      cases words with
      | nil => exact hword.append (hrest _) hhead
      | cons next words =>
          -- Only the last word may hold a quote, so the next one begins where this one did.
          obtain ⟨hquote, hbare⟩ := List.forall_mem_cons.mp hbare
          refine hword.append ?_ (by simp [spaced_cons])
          rw [quotedAfter_of_not_mem hquote]
          exact ih hwords hbare

/-- No comment begins in the line of a directive. -/
theorem Directive.Lettered.stripComment_render {gap : String} {directive : Directive}
    (h : directive.Lettered) (hplain : directive.Plain)
    (hgap : ∀ c ∈ gap.toList, isBlank c = true) :
    stripComment (directive.render gap).toList = (directive.render gap).toList := by
  have hkeyword : '"' ∉ directive.keyword.word.toList ∧
      ¬ holdsComment directive.keyword.word.toList := by
    cases directive.keyword <;> decide
  have hsemicolon : ';' ∉ gap.toList ++ [')'] := by
    have hnot : ';' ∉ gap.toList := fun hmem => absurd (hgap _ hmem) (by decide)
    simp [hnot]
  have hend : ∀ quoted, Uncut quoted (gap.toList ++ [')']) :=
    uncut_of_not_holdsComment fun hholds => hsemicolon (hholds.subset List.mem_cons_self)
  have hhead : (gap.toList ++ [')']).head? ≠ some ';' :=
    fun heq => hsemicolon (List.mem_of_head? heq)
  rw [toList_render, List.append_assoc]
  change Uncut false _
  cases hsaid : directive.said? with
  | none =>
      have hquoted : directive.quotedWords = false := by rw [quotedWords, hsaid]
      have hwords : ∀ word ∈ directive.words, Uncut _ word.toList :=
        fun word hword => (h.words word hword).2
      rw [hquoted] at hwords
      refine (uncut_cons_of_ne (by decide)).mpr ((uncut_of_not_holdsComment hkeyword.2 _).append ?_
        (by cases directive <;> simp [fieldTexts, spaced_cons]))
      rw [quotedAfter_of_not_mem hkeyword.1]
      cases directive with
      | name identifier => exact uncut_spaced hwords (by simp [fieldTexts]) hend hhead
      | node kind label =>
          have htag : Uncut false kind.tag.toList ∧ '"' ∉ kind.tag.toList := by
            cases kind <;> decide
          refine uncut_spaced (List.forall_mem_cons.mpr ⟨htag.1, hwords⟩) ?_ hend hhead
          simpa [fieldTexts] using htag.2
      | text => contradiction
      | response => contradiction
  | some said =>
      have hquoted : directive.quotedWords = !quotedAfter true said.toList := by
        rw [quotedWords, hsaid]
      have hwords : ∀ word ∈ directive.words, Uncut _ word.toList :=
        fun word hword => (h.words word hword).2
      rw [hquoted] at hwords
      have hfront : '"' ∉ '(' :: (directive.keyword.word.toList ++ [' ']) := by simp [hkeyword.1]
      rw [directive.line_of_said? hsaid]
      refine Uncut.append ?_ ?_ (by simp)
      · refine (uncut_cons_of_ne (by decide)).mpr ?_
        exact (uncut_of_not_holdsComment hkeyword.2 _).append
          (uncut_of_not_holdsComment (by decide) _) (by decide)
      · rw [quotedAfter_of_not_mem hfront, uncut_cons_of_ne (by decide)]
        refine (h.said said hsaid).append ?_ (by simp)
        rw [uncut_cons_of_ne (by decide)]
        refine uncut_spaced hwords (fun word hword => ?_) hend hhead
        exact hplain.not_mem_of_said? hsaid ((List.dropLast_sublist _).subset hword)

/-! ## Words and texts that no comment cuts -/

/-- Whether a text can be a word of a directive, the last one included. -/
@[mk_iff] structure Identifier (text : String) : Prop where
  ne_empty : text ≠ ""
  bare : isBareWord text
  uncut : ¬ holdsComment text.toList
  unclosed : text.toList.getLast? ≠ some ')'

/-- Whether a text can stand between quotes. -/
def Quotable (said : String) : Prop :=
  isLine said ∧ ('"' ∉ said.toList ∨ ¬ holdsComment said.toList)

instance (text : String) : Decidable (Identifier text) := decidable_of_iff' _ (identifier_iff text)

instance (said : String) : Decidable (Quotable said) := inferInstanceAs (Decidable (_ ∧ _))

/-- Whether a directive is made of words and texts that can be written. -/
structure Directive.Writable (directive : Directive) : Prop where
  words : ∀ word ∈ directive.words, Identifier word
  said : ∀ said ∈ directive.said?, Quotable said

namespace Directive.Writable

variable {gap : String} {directive : Directive}

theorem plain (h : directive.Writable) : directive.Plain := by
  cases directive with
  | name identifier => exact (h.words identifier List.mem_cons_self).bare.1
  | node kind label => exact (h.words label List.mem_cons_self).bare.1
  | text said next => exact ⟨(h.said said rfl).1, (h.words next List.mem_cons_self).bare⟩
  | response said next trigger =>
      refine ⟨(h.said said rfl).1, (h.words next List.mem_cons_self).bare, ?_⟩
      intro word hword
      exact (h.words word (List.mem_cons_of_mem _ (Option.mem_toList.mpr hword))).bare

theorem legible (h : directive.Writable) (hgap : ∀ c ∈ gap.toList, isBlank c = true) :
    Legible gap.toList directive.words where
  blank := hgap
  ne_empty word hword := (h.words word hword).ne_empty
  isWord word hword := (h.words word hword).bare.1
  apart := .inr fun word hword => (h.words word hword).unclosed

theorem lettered (h : directive.Writable) : directive.Lettered where
  words word hword :=
    ⟨(h.words word hword).ne_empty, uncut_of_not_holdsComment (h.words word hword).uncut _⟩
  said said hsaid :=
    (h.said said hsaid).2.elim uncut_true_of_not_mem fun huncut =>
      uncut_of_not_holdsComment huncut _

theorem stripComment_render (h : directive.Writable) (hgap : ∀ c ∈ gap.toList, isBlank c = true) :
    stripComment (directive.render gap).toList = (directive.render gap).toList :=
  h.lettered.stripComment_render h.plain hgap

end Directive.Writable

end Script

end Parley
