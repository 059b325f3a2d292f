import Mathlib.Data.List.Forall2
import Parley.Proofs.CanonicalScripts
import Parley.Proofs.Errors

/-!
# Layout has no meaning

Blank lines, comments and the blanks around a line can be changed freely. The
lines that say something still say the same, in the same order, and only their
numbers move. An assembly never looks at these numbers: it keeps the place of
the open draft to quote it in an error. So two runs over lines that say the same
at different places go side by side, and end with the same dialogue or with the
same fault, at the place that the line to blame has moved to.
-/

namespace Parley

namespace Text

theorem trim_blanks_append {blanks : List Char} (h : ∀ c ∈ blanks, isBlank c = true)
    (cs : List Char) : trim (blanks ++ cs) = trim cs := by
  rw [trim, List.dropWhile_append_of_pos h, trim]

theorem trim_append_blanks {blanks : List Char} (h : ∀ c ∈ blanks, isBlank c = true)
    (cs : List Char) : trim (cs ++ blanks) = trim cs := by
  have hall : blanks.dropWhile isBlank = [] := by
    rw [← List.append_nil blanks, List.dropWhile_append_of_pos h, List.dropWhile_nil]
  rw [trim, List.dropWhile_append, trim]
  split
  next hblank => rw [hall, List.isEmpty_iff.mp hblank]
  next =>
    rw [dropEndWhile, List.reverse_append, List.dropWhile_append_of_pos (by simpa using h),
      dropEndWhile]

end Text

namespace Script

open Text

/-! ## One line -/

/-- Behind a part that is left alone, the cut goes on, if no pair of semicolons
stands across. -/
theorem Uncut.beforeComment_append {quoted : Bool} {x y : List Char} (hx : Uncut quoted x)
    (hacross : x.getLast? = some ';' → y.head? ≠ some ';') :
    beforeComment quoted (x ++ y) = x ++ beforeComment (quotedAfter quoted x) y := by
  induction x generalizing quoted with
  | nil => rfl
  | cons c x ih =>
      obtain ⟨hstays, hrest⟩ := uncut_cons_iff.mp hx
      have hacross' : x.getLast? = some ';' → y.head? ≠ some ';' := by
        intro hlast
        exact hacross (by rw [List.getLast?_cons, hlast]; rfl)
      have hstays' : quoted = true ∨ ¬ (c = ';' ∧ (x ++ y).head? = some ';') := by
        refine hstays.imp_right ?_
        rintro hnot ⟨rfl, hnext⟩
        cases x with
        | nil => exact hacross rfl hnext
        | cons d x => exact hnot ⟨rfl, hnext⟩
      rw [List.cons_append, beforeComment_cons_quotedAfter hstays', ih hrest hacross',
        ← quotedAfter_cons, List.cons_append]

/-- Behind a comment nothing counts. -/
theorem beforeComment_append_of_not_uncut {quoted : Bool} {x : List Char} (hx : ¬ Uncut quoted x)
    (y : List Char) : beforeComment quoted (x ++ y) = beforeComment quoted x := by
  induction x generalizing quoted with
  | nil => exact absurd rfl hx
  | cons c x ih =>
      cases x with
      | nil => exact (hx (uncut_cons_iff.mpr ⟨.inr (by simp), rfl⟩)).elim
      | cons d x =>
          by_cases hstays : quoted = true ∨ ¬ (c = ';' ∧ (d :: x).head? = some ';')
          · have hrest : ¬ Uncut (quotedAfter quoted [c]) (d :: x) :=
              fun hrest => hx (uncut_cons_iff.mpr ⟨hstays, hrest⟩)
            rw [beforeComment_cons_quotedAfter hstays, ← ih hrest]
            exact beforeComment_cons_quotedAfter hstays
          · rw [beforeComment_eq_nil hstays]
            exact beforeComment_eq_nil hstays

/-- A line is outside of quotes once they have come in pairs. -/
theorem quotedAfter_eq_count (quoted : Bool) (cs : List Char) :
    quotedAfter quoted cs = (quoted ^^ decide (cs.count '"' % 2 = 1)) := by
  induction cs generalizing quoted with
  | nil => simp [quotedAfter]
  | cons c cs ih =>
      rw [quotedAfter_cons, ih, List.count_cons]
      by_cases hc : c = '"'
      · have hodd : decide ((cs.count '"' + 1) % 2 = 1) = !decide (cs.count '"' % 2 = 1) := by
          rw [← decide_not, decide_eq_decide]
          omega
        simp [quotedAfter, hc, hodd]
      · simp [quotedAfter, hc]

theorem uncut_of_isBlank {cs : List Char} (h : ∀ c ∈ cs, isBlank c = true) (quoted : Bool) :
    Uncut quoted cs := by
  refine uncut_of_not_holdsComment (fun hholds => ?_) quoted
  exact absurd (h ';' (hholds.subset List.mem_cons_self)) (by decide)

theorem said_congr {raw other : List Char}
    (h : trim (stripComment other) = trim (stripComment raw)) : said [other] = said [raw] := by
  by_cases hblank : trim (stripComment raw) = [] <;> simp [said, contentOf, h, hblank]

theorem said_blanks_append {blanks : List Char} (h : ∀ c ∈ blanks, isBlank c = true)
    (raw : List Char) : said [blanks ++ raw] = said [raw] := by
  have hlast : blanks.getLast? ≠ some ';' := fun heq =>
    absurd (h ';' (List.mem_of_getLast? heq)) (by decide)
  apply said_congr
  rw [stripComment, (uncut_of_isBlank h false).beforeComment_append fun heq => absurd heq hlast,
    quotedAfter_of_not_mem (not_mem_of_isBlank h), trim_blanks_append h, stripComment]

theorem said_append_blanks {blanks : List Char} (h : ∀ c ∈ blanks, isBlank c = true)
    (raw : List Char) : said [raw ++ blanks] = said [raw] := by
  have hhead : blanks.head? ≠ some ';' := fun heq =>
    absurd (h ';' (List.mem_of_head? heq)) (by decide)
  apply said_congr
  by_cases hraw : Uncut false raw
  · rw [stripComment, hraw.beforeComment_append fun _ => hhead, uncut_of_isBlank h _,
      trim_append_blanks h, stripComment, hraw]
  · rw [stripComment, beforeComment_append_of_not_uncut hraw, stripComment]

/-- A comment behind quotes that are all closed does not count. -/
theorem said_append_comment {raw : List Char} (hraw : raw.count '"' % 2 = 0)
    (comment : List Char) : said [raw ++ ' ' :: ';' :: ';' :: comment] = said [raw] := by
  apply said_congr
  by_cases huncut : Uncut false raw
  · have hquoted : quotedAfter false raw = false := by simp [quotedAfter_eq_count, hraw]
    have hcomment : beforeComment false (' ' :: ';' :: ';' :: comment) = [' '] := by
      simp [beforeComment]
    have hspace : ∀ c ∈ [' '], isBlank c = true := List.forall_mem_singleton.mpr (by decide)
    rw [stripComment, huncut.beforeComment_append (by simp), hquoted, hcomment,
      trim_append_blanks hspace, stripComment, huncut]
  · rw [stripComment, beforeComment_append_of_not_uncut huncut, stripComment]

/-- A line of blanks, with or without a comment behind them. -/
inductive Idle : List Char → Prop
  | blank {blanks : List Char} (h : ∀ c ∈ blanks, isBlank c = true) : Idle blanks
  | comment {blanks : List Char} (h : ∀ c ∈ blanks, isBlank c = true) (comment : List Char) :
      Idle (blanks ++ ';' :: ';' :: comment)

theorem Idle.said_eq {line : List Char} (h : Idle line) : said [line] = [] := by
  cases h with
  | blank h =>
      rw [← List.append_nil line, said_blanks_append h]
      rfl
  | comment h comment =>
      rw [said_blanks_append h]
      rfl

/-! ## Edits -/

/-- One change to the layout of lines, and where it moves their numbers. -/
inductive Edit : List (List Char) → (Nat → Nat) → List (List Char) → Prop
  /-- Insert a line that says nothing. -/
  | insert {front rest : List (List Char)} {line : List Char} (h : Idle line) :
      Edit (front ++ rest) (fun number => if number ≤ front.length then number else number + 1)
        (front ++ line :: rest)
  /-- Put other blanks around a line. -/
  | space {front rest : List (List Char)} {line before after left right : List Char}
      (hbefore : ∀ c ∈ before, isBlank c = true) (hafter : ∀ c ∈ after, isBlank c = true)
      (hleft : ∀ c ∈ left, isBlank c = true) (hright : ∀ c ∈ right, isBlank c = true) :
      Edit (front ++ (before ++ line ++ after) :: rest) id
        (front ++ (left ++ line ++ right) :: rest)
  /-- Add a comment to a line that has closed its quotes. -/
  | remark {front rest : List (List Char)} {line : List Char} (h : line.count '"' % 2 = 0)
      (comment : List Char) :
      Edit (front ++ line :: rest) id (front ++ (line ++ ' ' :: ';' :: ';' :: comment) :: rest)

/-- Changes made one after the other. -/
inductive Edits : List (List Char) → (Nat → Nat) → List (List Char) → Prop
  | refl (raws : List (List Char)) : Edits raws id raws
  | step {raws next last : List (List Char)} {move moves : Nat → Nat} (h : Edit raws move next)
      (hs : Edits next moves last) : Edits raws (moves ∘ move) last

/-! ## Lines that have moved -/

/-- Whether a line says what another one said, at the number that it moved to. -/
structure Line.Moved (move : Nat → Nat) (line moved : Line) : Prop where
  number : moved.place.line = move line.place.line
  content : moved.content = line.content

/-- The lines that say something, among lines numbered from a given number on. -/
def sayings (number : Nat) (raws : List (List Char)) : List Line :=
  (raws.zipIdx number).filterMap fun (raw, number) => Line.read? raw number

theorem sayings_cons (number : Nat) (raw : List Char) (rest : List (List Char)) :
    sayings number (raw :: rest) =
      (Line.read? raw number).toList ++ sayings (number + 1) rest := by
  simp only [sayings, List.zipIdx_cons, List.filterMap_cons]
  cases Line.read? raw number <;> rfl

theorem sayings_append (number : Nat) (front rest : List (List Char)) :
    sayings number (front ++ rest) =
      sayings number front ++ sayings (number + front.length) rest := by
  rw [sayings, List.zipIdx_append, List.filterMap_append]
  rfl

theorem forall₂_moved_read? {move : Nat → Nat} {number target : Nat} {raw other : List Char}
    (hsaid : said [other] = said [raw]) (hnumber : move number = target) :
    List.Forall₂ (Line.Moved move) (Line.read? raw number).toList
      (Line.read? other target).toList := by
  rw [read?_eq, read?_eq, hsaid]
  cases (said [raw]).head? with
  | none => exact .nil
  | some content => exact .cons ⟨hnumber.symm, rfl⟩ .nil

/-- Lines that say the same have moved if their numbers have. -/
theorem forall₂_moved_sayings {move : Nat → Nat} {number target : Nat}
    {raws others : List (List Char)}
    (hsaid : List.Forall₂ (fun raw other => said [other] = said [raw]) raws others)
    (hmove : ∀ offset < raws.length, move (number + offset) = target + offset) :
    List.Forall₂ (Line.Moved move) (sayings number raws) (sayings target others) := by
  induction hsaid generalizing number target with
  | nil => exact .nil
  | @cons raw other raws others hraw hrest ih =>
      rw [sayings_cons, sayings_cons]
      refine List.rel_append (forall₂_moved_read? hraw (hmove 0 (by simp))) (ih ?_)
      intro offset hoffset
      have hnext := hmove (offset + 1) (by simpa using hoffset)
      rwa [← Nat.add_assoc, Nat.add_right_comm, ← Nat.add_assoc, Nat.add_right_comm target] at hnext

theorem forall₂_said_refl (raws : List (List Char)) :
    List.Forall₂ (fun raw other => said [other] = said [raw]) raws raws :=
  List.forall₂_same.mpr fun _ _ => rfl

/-- Where one line is replaced by another that says the same, nothing moves. -/
theorem forall₂_moved_replace {line other : List Char} (h : said [other] = said [line])
    (front rest : List (List Char)) :
    List.Forall₂ (Line.Moved id) (sayings 1 (front ++ line :: rest))
      (sayings 1 (front ++ other :: rest)) :=
  forall₂_moved_sayings
    (List.rel_append (forall₂_said_refl front) (.cons h (forall₂_said_refl rest))) fun _ _ => rfl

theorem Edit.moved {raws edited : List (List Char)} {move : Nat → Nat} (h : Edit raws move edited) :
    List.Forall₂ (Line.Moved move) (sayings 1 raws) (sayings 1 edited) := by
  cases h with
  | @insert front rest line hidle =>
      have hline : Line.read? line (1 + front.length) = none := by
        rw [read?_eq, hidle.said_eq]
        rfl
      rw [sayings_append, sayings_append, sayings_cons, hline]
      refine List.rel_append (forall₂_moved_sayings (forall₂_said_refl front) ?_)
        (forall₂_moved_sayings (forall₂_said_refl rest) ?_)
      · intro offset hoffset
        exact if_pos (by omega)
      · intro offset hoffset
        rw [if_neg (by omega)]
        omega
  | space hbefore hafter hleft hright =>
      refine forall₂_moved_replace ?_ _ _
      rw [said_append_blanks hright, said_blanks_append hleft, said_append_blanks hafter,
        said_blanks_append hbefore]
  | remark hclosed comment => exact forall₂_moved_replace (said_append_comment hclosed comment) _ _

theorem forall₂_moved_trans {move moves : Nat → Nat} {lines others lasts : List Line}
    (h : List.Forall₂ (Line.Moved move) lines others)
    (hs : List.Forall₂ (Line.Moved moves) others lasts) :
    List.Forall₂ (Line.Moved (moves ∘ move)) lines lasts := by
  induction h generalizing lasts with
  | nil =>
      cases hs
      exact .nil
  | cons hline _ ih =>
      cases hs with
      | cons hother hrest =>
          refine .cons ⟨?_, hother.content.trans hline.content⟩ (ih hrest)
          rw [hother.number, hline.number, Function.comp]

/-- Edits leave all that the lines say, and move it. -/
theorem Edits.moved {raws edited : List (List Char)} {move : Nat → Nat}
    (h : Edits raws move edited) :
    List.Forall₂ (Line.Moved move) (sayings 1 raws) (sayings 1 edited) := by
  induction h with
  | refl raws => exact List.forall₂_same.mpr fun _ _ => ⟨rfl, rfl⟩
  | step h _ ih => exact forall₂_moved_trans h.moved ih

/-! ## Two runs side by side -/

/-- Whether a draft is another one that was opened elsewhere. -/
structure Draft.Moved (move : Nat → Nat) (draft moved : Draft) : Prop where
  number : moved.place.line = move draft.place.line
  same : moved = { draft with place := moved.place }

theorem Draft.Moved.node?_eq {move : Nat → Nat} {draft moved : Draft} (h : draft.Moved move moved) :
    moved.node? = draft.node? := by
  rw [h.same]
  rfl

/-- Whether an error is another one about a line that has moved. -/
structure Error.Moved (move : Nat → Nat) (error moved : Error) : Prop where
  file : moved.file = error.file
  line : moved.line = move error.line
  fault : moved.fault = error.fault

namespace Assembly

/-- Whether an assembly is another one of lines that have moved. The remarks may
differ, since they speak of places. -/
structure Moved (move : Nat → Nat) (assembly moved : Assembly) : Prop where
  name : moved.name = assembly.name
  dialogue : moved.dialogue = assembly.dialogue
  draft : Option.Rel (Draft.Moved move) assembly.draft moved.draft

/-- Two steps that go the same way. -/
inductive Parallel (move : Nat → Nat) : Except Error Assembly → Except Error Assembly → Prop
  | ok {assembly moved : Assembly} (h : assembly.Moved move moved) :
      Parallel move (.ok assembly) (.ok moved)
  | error {error moved : Error} (h : error.Moved move moved) :
      Parallel move (.error error) (.error moved)

variable {move : Nat → Nat} {assembly moved : Assembly} (file : String) {place target : Place}

theorem Moved.close (h : assembly.Moved move moved) :
    Parallel move (assembly.close file) (moved.close file) := by
  unfold Assembly.close
  have hdraft := h.draft
  generalize assembly.draft = draft? at hdraft ⊢
  generalize moved.draft = moved? at hdraft ⊢
  cases hdraft with
  | none => exact .ok h
  | @some draft other hdraft =>
      dsimp only
      rw [hdraft.node?_eq]
      cases draft.node? with
      | none =>
          refine .error ⟨rfl, hdraft.number, ?_⟩
          rw [hdraft.same]
          rfl
      | some node => exact .ok ⟨h.name, by rw [h.dialogue], .none⟩

theorem Moved.amend (h : assembly.Moved move moved) (hplace : target.line = move place.line)
    (keyword : Keyword) {change : Draft → Draft}
    (hchange : ∀ draft other, draft.Moved move other → (change draft).Moved move (change other)) :
    Parallel move (assembly.amend file place keyword change)
      (moved.amend file target keyword change) := by
  unfold Assembly.amend
  have hdraft := h.draft
  generalize assembly.draft = draft? at hdraft ⊢
  generalize moved.draft = moved? at hdraft ⊢
  cases hdraft with
  | none => exact .error ⟨rfl, hplace, rfl⟩
  | some hdraft => exact .ok ⟨h.name, h.dialogue, .some (hchange _ _ hdraft)⟩

theorem Moved.apply (h : assembly.Moved move moved) (hplace : target.line = move place.line)
    (directive : Directive) :
    Parallel move (assembly.apply file place directive) (moved.apply file target directive) := by
  cases directive with
  | name identifier => exact .ok ⟨rfl, h.dialogue, h.draft⟩
  | node kind label =>
      unfold Assembly.apply
      dsimp only
      have hclose := h.close file
      generalize assembly.close file = result at hclose ⊢
      generalize moved.close file = other at hclose ⊢
      cases hclose with
      | ok hclosed => exact .ok ⟨hclosed.name, hclosed.dialogue, .some ⟨hplace, rfl⟩⟩
      | error herror => exact .error herror
  | text said next =>
      refine h.amend file hplace _ fun draft other hdraft => ⟨hdraft.number, ?_⟩
      rw [hdraft.same]
  | response said next trigger =>
      refine h.amend file hplace _ fun draft other hdraft => ⟨hdraft.number, ?_⟩
      rw [hdraft.same]

theorem Moved.step (h : assembly.Moved move moved) {line other : Line}
    (hline : line.Moved move other) :
    Parallel move (assembly.step file line) (moved.step file other) := by
  unfold Assembly.step
  rw [hline.content]
  cases line.content with
  | error fault => exact .error ⟨rfl, hline.number, rfl⟩
  | ok directive => exact h.apply file hline.number directive

/-- Runs over lines that have moved end in the same way. -/
theorem Moved.run (h : assembly.Moved move moved) {lines others : List Line}
    (hlines : List.Forall₂ (Line.Moved move) lines others) :
    (run file assembly lines).1.Moved move (run file moved others).1 ∧
      Option.Rel (Error.Moved move) (run file assembly lines).2 (run file moved others).2 := by
  induction hlines generalizing assembly moved with
  | nil =>
      unfold Assembly.run
      have hclose := h.close file
      generalize assembly.close file = result at hclose ⊢
      generalize moved.close file = other at hclose ⊢
      cases hclose with
      | ok hclosed => exact ⟨hclosed, .none⟩
      | error herror => exact ⟨h, .some herror⟩
  | @cons line other lines others hline _ ih =>
      unfold Assembly.run
      have hstep := h.step file hline
      generalize assembly.step file line = result at hstep ⊢
      generalize moved.step file other = follower at hstep ⊢
      cases hstep with
      | ok hnext => exact ih hnext
      | error herror => exact ⟨h, .some herror⟩

end Assembly

/-- Sources whose lines say the same give the same dialogue or the same fault. -/
theorem parse_of_moved (file : String) {src edited : String} {move : Nat → Nat}
    (h : List.Forall₂ (Line.Moved move) (readLines src.toList) (readLines edited.toList)) :
    (∃ dialogue, parse file src = .ok dialogue ∧ parse file edited = .ok dialogue) ∨
      ∃ error moved, parse file src = .error error ∧ parse file edited = .error moved ∧
        error.Moved move moved := by
  have hstart : Assembly.Moved move {} {} := ⟨rfl, rfl, .none⟩
  obtain ⟨hlast, herror⟩ := hstart.run file h
  unfold parse read
  generalize Assembly.run file {} (readLines src.toList) = result at hlast herror ⊢
  generalize Assembly.run file {} (readLines edited.toList) = other at hlast herror ⊢
  obtain ⟨last, error?⟩ := result
  obtain ⟨moved, other?⟩ := other
  cases herror with
  | none =>
      refine .inl ⟨_, rfl, ?_⟩
      dsimp only at hlast ⊢
      rw [hlast.dialogue, hlast.name]
  | some herror => exact .inr ⟨_, _, rfl, rfl, herror⟩

/-- Edits to the layout of a script change neither the dialogue nor the fault
that it gives. The line of the fault is found where the edits moved it. -/
theorem parse_of_edits (file : String) {src edited : String} {move : Nat → Nat}
    (h : Edits (lines src.toList) move (lines edited.toList)) :
    (∀ dialogue, parse file edited = .ok dialogue ↔ parse file src = .ok dialogue) ∧
      ∀ error, parse file src = .error error →
        ∃ moved, parse file edited = .error moved ∧ moved.file = error.file ∧
          moved.fault = error.fault ∧ moved.line = move error.line := by
  obtain ⟨dialogue, hsrc, hedited⟩ | ⟨error, moved, hsrc, hedited, hmoved⟩ :=
    parse_of_moved file h.moved
  · simp [hsrc, hedited]
  · refine ⟨by simp [hsrc, hedited], fun other hother => ?_⟩
    obtain rfl := Except.error.inj (hsrc.symm.trans hother)
    exact ⟨moved, hedited, hmoved.file, hmoved.fault, hmoved.line⟩

/-- A script whose last response leads nowhere. -/
def ferryScript : String := "(node q start)\n(text \"Hm; well\" go);\n(resp \"ok\" ))"

/-- The same script with a comment in front, another one behind the text, and
blanks around. -/
def ferryScriptSpaced : String :=
  ";; the \"crossing\n(node q start)\n\t(text \"Hm; well\" go);  ;; (\"\n \n(resp \"ok\" ))"

theorem edits_ferryScript : ∃ move, move 3 = 5 ∧
    Edits (lines ferryScript.toList) move (lines ferryScriptSpaced.toList) := by
  let node := "(node q start)".toList
  let text := "(text \"Hm; well\" go);".toList
  let resp := "(resp \"ok\" ))".toList
  have hlines : lines ferryScript.toList = [node] ++ ([] ++ text ++ []) :: [resp] := by
    decide +kernel
  have hspaced : lines ferryScriptSpaced.toList =
      [] ++ ([] ++ ';' :: ';' :: " the \"crossing".toList) :: [node,
        ['\t'] ++ text ++ [' '] ++ ' ' :: ';' :: ';' :: " (\"".toList, [' '], resp] := by
    decide +kernel
  have hclosed : (['\t'] ++ text ++ [' ']).count '"' % 2 = 0 := by decide +kernel
  have hnone : ∀ c ∈ ([] : List Char), isBlank c = true := by simp
  have htab : ∀ c ∈ ['\t'], isBlank c = true := List.forall_mem_singleton.mpr (by decide)
  have hblank : ∀ c ∈ [' '], isBlank c = true := List.forall_mem_singleton.mpr (by decide)
  rw [hlines, hspaced]
  exact ⟨_, rfl, .step (.space hnone hnone htab hblank) (.step (.remark hclosed _)
    (.step (@Edit.insert [node, _] [resp] _ (.blank hblank))
      (.step (@Edit.insert [] _ _ (.comment hnone _)) (.refl _))))⟩

theorem parse_of_edits_ferryScript : ∃ move moved,
    Edits (lines ferryScript.toList) move (lines ferryScriptSpaced.toList) ∧
      parse "ferry.scl" ferryScript =
        .error ⟨"ferry.scl", 3, "(resp \"ok\" ))", .missing .resp .successor⟩ ∧
      parse "ferry.scl" ferryScriptSpaced = .error moved ∧
      moved.fault = .missing .resp .successor ∧ moved.line = move 3 ∧ move 3 = 5 := by
  have hparse : parse "ferry.scl" ferryScript =
      .error ⟨"ferry.scl", 3, "(resp \"ok\" ))", .missing .resp .successor⟩ := by
    decide +kernel
  obtain ⟨move, hmove, hedits⟩ := edits_ferryScript
  obtain ⟨moved, hmoved, -, hfault, hline⟩ := (parse_of_edits "ferry.scl" hedits).2 _ hparse
  exact ⟨move, moved, hedits, hparse, hmoved, hfault, hline, hmove⟩

end Script

end Parley
