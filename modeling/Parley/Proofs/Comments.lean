import Parley.Proofs.Layout

/-!
# Where a line is cut

A comment begins where two semicolons stand behind quotes that come in pairs. A
line has one cut: no comment begins in front of it, and one begins right behind
it unless the line ends there. What cutting leaves is the front up to this cut,
so other fronts are compared with it by showing that they end there as well.
-/

namespace Parley.Script

/-- Whether a comment begins at a position of a line: two semicolons stand there,
and the quotes in front of them come in pairs. -/
def commentAt (line : List Char) (position : Nat) : Prop :=
  (line.take position).count '"' % 2 = 0 ∧ [';', ';'] <+: line.drop position

instance (line : List Char) (position : Nat) : Decidable (commentAt line position) :=
  inferInstanceAs (Decidable (_ ∧ _))

/-- Whether a line is cut behind one of its fronts. -/
structure IsCut (line front : List Char) : Prop where
  isFront : front <+: line
  /-- No comment begins in front of the cut. -/
  within : ∀ position < front.length, ¬ commentAt line position
  /-- The line ends at the cut, or else a comment begins there. -/
  behind : front = line ∨
    front.count '"' % 2 = 0 ∧ ∃ comment, line = front ++ ';' :: ';' :: comment

/-! ## Comments and positions -/

theorem quotedAfter_false_iff {cs : List Char} :
    quotedAfter false cs = false ↔ cs.count '"' % 2 = 0 := by
  rw [quotedAfter_eq_count, Bool.false_xor, decide_eq_false_iff_not]
  omega

theorem commentAt_length {front : List Char} (hfront : front.count '"' % 2 = 0)
    (comment : List Char) : commentAt (front ++ ';' :: ';' :: comment) front.length := by
  constructor
  · rwa [List.take_left]
  · rw [List.drop_left]
    exact List.prefix_append [';', ';'] comment

theorem commentAt.add_two_le {line : List Char} {position : Nat} (h : commentAt line position) :
    position + 2 ≤ line.length := by
  have hlength := h.2.length_le
  rw [List.length_drop, List.length_cons, List.length_singleton] at hlength
  omega

/-- Where a comment begins is decided by the line up to its semicolons. -/
theorem commentAt_append_iff {front : List Char} {position : Nat}
    (h : position + 2 ≤ front.length) (rest : List Char) :
    commentAt (front ++ rest) position ↔ commentAt front position := by
  have hdrop : [';', ';'].length ≤ (front.drop position).length := by
    simp only [List.length_cons, List.length_nil, List.length_drop]
    omega
  rw [commentAt, commentAt, List.take_append_of_le_length (by omega),
    List.drop_append_of_le_length (by omega), List.prefix_iff_eq_take, List.prefix_iff_eq_take,
    List.take_append_of_le_length hdrop]

/-! ## The cut of a line -/

/-- A line is cut at a comment or in front of it. -/
theorem length_beforeComment_le {quoted : Bool} {line : List Char} {position : Nat}
    (hquoted : quotedAfter quoted (line.take position) = false)
    (hmeet : [';', ';'] <+: line.drop position) :
    (beforeComment quoted line).length ≤ position := by
  induction line generalizing quoted position with
  | nil => exact Nat.zero_le position
  | cons c rest ih =>
      by_cases hstays : quoted = true ∨ ¬ (c = ';' ∧ rest.head? = some ';')
      · rw [beforeComment_cons_quotedAfter hstays, List.length_cons]
        cases position with
        | zero =>
            -- The line is not inside quotes here, so a comment begins at once.
            obtain ⟨more, hmore⟩ := hmeet
            obtain ⟨rfl, rfl⟩ := List.cons.inj hmore
            rcases hstays with rfl | hnot
            · contradiction
            · exact absurd ⟨rfl, rfl⟩ hnot
        | succ position =>
            rw [List.take_succ_cons, quotedAfter_cons] at hquoted
            exact Nat.succ_le_succ (ih hquoted hmeet)
      · rw [beforeComment_eq_nil hstays]
        exact Nat.zero_le position

/-- Nothing is cut off a line but a comment. -/
theorem beforeComment_cases (quoted : Bool) (line : List Char) :
    beforeComment quoted line = line ∨
      quotedAfter quoted (beforeComment quoted line) = false ∧
        ∃ comment, line = beforeComment quoted line ++ ';' :: ';' :: comment := by
  induction line generalizing quoted with
  | nil => exact .inl rfl
  | cons c rest ih =>
      by_cases hstays : quoted = true ∨ ¬ (c = ';' ∧ rest.head? = some ';')
      · rw [beforeComment_cons_quotedAfter hstays]
        refine (ih (quotedAfter quoted [c])).imp (congrArg _) ?_
        rintro ⟨hquoted, comment, hcomment⟩
        exact ⟨by rwa [quotedAfter_cons], comment, congrArg _ hcomment⟩
      · rw [beforeComment_eq_nil hstays]
        obtain ⟨hquoted, hmeet⟩ := not_or.mp hstays
        obtain ⟨rfl, hnext⟩ := Classical.not_not.mp hmeet
        obtain ⟨comment, rfl⟩ := List.head?_eq_some_iff.mp hnext
        exact .inr ⟨Bool.eq_false_iff.mpr hquoted, comment, rfl⟩

theorem isCut_stripComment (line : List Char) : IsCut line (stripComment line) where
  isFront := beforeComment_prefix false line
  within position hposition hcomment := by
    have hle := length_beforeComment_le (quotedAfter_false_iff.mpr hcomment.1) hcomment.2
    exact absurd hposition (Nat.not_lt.mpr hle)
  behind := (beforeComment_cases false line).imp_right (And.imp_left quotedAfter_false_iff.mp)

example : stripComment "\";;\";;\";;\"".toList = "\";;\"".toList := by decide

namespace IsCut

variable {line front other : List Char}

theorem length_le (h : IsCut line front) (hother : IsCut line other) :
    front.length ≤ other.length := by
  rcases hother.behind with rfl | ⟨hquotes, comment, rfl⟩
  · exact h.isFront.length_le
  · apply Nat.not_lt.mp
    intro hlt
    exact h.within _ hlt (commentAt_length hquotes comment)

/-- A line has one cut. -/
theorem eq (h : IsCut line front) (hother : IsCut line other) : front = other := by
  have hlength : front.length = other.length :=
    Nat.le_antisymm (h.length_le hother) (hother.length_le h)
  rw [List.prefix_iff_eq_take.mp h.isFront, List.prefix_iff_eq_take.mp hother.isFront, hlength]

end IsCut

/-- The first comment of a line is where it is cut. -/
theorem stripComment_eq_take {line : List Char} {position : Nat} (hat : commentAt line position)
    (hfirst : ∀ earlier < position, ¬ commentAt line earlier) :
    stripComment line = line.take position := by
  apply (isCut_stripComment line).eq
  refine ⟨List.take_prefix position line, ?_, .inr ⟨hat.1, ?_⟩⟩
  · intro earlier hearlier
    rw [List.length_take] at hearlier
    exact hfirst earlier (by omega)
  · obtain ⟨comment, hcomment⟩ := hat.2
    have hsplit := List.take_append_drop position line
    rw [← hcomment] at hsplit
    exact ⟨comment, hsplit.symm⟩

/-- Lines that agree up to the semicolons of the first comment are cut alike. -/
theorem stripComment_congr {line other : List Char} {position : Nat}
    (hat : commentAt line position) (hfirst : ∀ earlier < position, ¬ commentAt line earlier)
    (hother : line.take (position + 2) <+: other) : stripComment other = stripComment line := by
  have hlength : (line.take (position + 2)).length = position + 2 :=
    List.length_take_of_le hat.add_two_le
  obtain ⟨rest, rfl⟩ := hother
  have hsame : ∀ place ≤ position,
      commentAt (line.take (position + 2) ++ rest) place ↔ commentAt line place := by
    intro place hplace
    rw [commentAt_append_iff (by omega),
      ← commentAt_append_iff (by omega) (line.drop (position + 2)), List.take_append_drop]
  have hfirst' : ∀ earlier < position,
      ¬ commentAt (line.take (position + 2) ++ rest) earlier := by
    intro earlier hearlier
    rw [hsame earlier hearlier.le]
    exact hfirst earlier hearlier
  rw [stripComment_eq_take ((hsame position le_rfl).mpr hat) hfirst',
    stripComment_eq_take hat hfirst, List.take_append_of_le_length (by omega), List.take_take,
    Nat.min_eq_left (by omega)]

/-- A line is cut at its first comment outside of quotes and nowhere else. What is
left has no comment to cut, and nothing behind the semicolons of the comment has
a part in where it is cut. -/
theorem isCut_iff_eq_stripComment (line : List Char) :
    (∀ front, IsCut line front ↔ front = stripComment line) ∧
      stripComment (stripComment line) = stripComment line ∧
      ∀ position, commentAt line position →
        (∀ earlier < position, ¬ commentAt line earlier) →
        ∀ other, line.take (position + 2) <+: other → stripComment other = stripComment line := by
  refine ⟨?_, uncut_beforeComment false line, ?_⟩
  · intro front
    constructor
    · intro hfront
      exact hfront.eq (isCut_stripComment line)
    · rintro rfl
      exact isCut_stripComment line
  · intro position hat hfirst other hother
    exact stripComment_congr hat hfirst hother

/-- A line with semicolons inside quotes, a single one, and three in a row. The
quote behind the comment would open a quotation that is never closed. -/
def ferrymanLine : List Char := "(text \"a;;b\" ;go) ;;; \"late".toList

theorem isCut_ferrymanLine :
    IsCut ferrymanLine "(text \"a;;b\" ;go) ".toList ∧ commentAt ferrymanLine 18 ∧
      stripComment (ferrymanLine.take 20 ++ "(name x)".toList) =
        "(text \"a;;b\" ;go) ".toList := by
  have hat : commentAt ferrymanLine 18 := by decide +kernel
  have hfirst : ∀ earlier < 18, ¬ commentAt ferrymanLine earlier := by decide +kernel
  have hleft : "(text \"a;;b\" ;go) ".toList = stripComment ferrymanLine := by decide +kernel
  obtain ⟨hcut, -, hcongr⟩ := isCut_iff_eq_stripComment ferrymanLine
  refine ⟨(hcut _).mpr hleft, hat, ?_⟩
  rw [hleft]
  exact hcongr 18 hat hfirst _ (List.prefix_append _ _)

end Parley.Script
