import Parley.Proofs.CanonicalScripts

/-!
# Closing parentheses

Reading a line meets a closing parenthesis in three places: it ends the keyword,
it is dropped with all others behind the last field, and it stands behind the
last quote without a part in the quotation. So one more of them at the end of a
line changes nothing, as long as no blank keeps it apart from what it follows,
and neither does any number of them.
-/

namespace Parley

namespace Text

/-! ## One element more -/

section

variable {α : Type} {p : α → Bool} {a : α}

theorem takeWhile_concat_of_neg (ha : p a = false) (l : List α) :
    (l ++ [a]).takeWhile p = l.takeWhile p := by
  induction l with
  | nil => simp [ha]
  | cons b l ih => cases hb : p b <;> simp [hb, ih]

theorem dropWhile_concat_of_neg (ha : p a = false) (l : List α) :
    (l ++ [a]).dropWhile p = l.dropWhile p ++ [a] := by
  induction l with
  | nil => simp [ha]
  | cons b l ih => cases hb : p b <;> simp [hb, ih]

theorem takeEndWhile_concat_of_pos (ha : p a = true) (l : List α) :
    takeEndWhile p (l ++ [a]) = takeEndWhile p l ++ [a] := by
  simp [takeEndWhile, ha]

end

/-- Whether no blank stands at the end of a text. -/
def isEndTrimmed (cs : List Char) : Prop := ∀ c ∈ cs.getLast?, isBlank c = false

-- Searching for an instance may find the one that goes through all characters.
instance (cs : List Char) : Decidable (isEndTrimmed cs) := Option.decidableForallMem cs.getLast?

theorem isEndTrimmed_concat {c : Char} (hc : isBlank c = false) (cs : List Char) :
    isEndTrimmed (cs ++ [c]) := by
  intro last hlast
  rw [List.getLast?_concat, Option.mem_some_iff] at hlast
  rwa [← hlast]

theorem isEndTrimmed.of_suffix {cs rest : List Char} (h : isEndTrimmed cs) (hrest : rest <:+ cs) :
    isEndTrimmed rest := by
  obtain ⟨front, rfl⟩ := hrest
  intro last hlast
  apply h
  rw [List.getLast?_append, Option.mem_def.mp hlast, Option.some_or, Option.mem_some_iff]

theorem isEndTrimmed_trim (cs : List Char) : isEndTrimmed (trim cs) := by
  unfold trim
  rcases dropEndWhile_cases isBlank (cs.dropWhile isBlank) with hnil | ⟨front, last, hlast, hblank⟩
  · rw [hnil]
    nofun
  · rw [hlast]
    exact isEndTrimmed_concat hblank front

theorem trim_concat {cs : List Char} {c : Char} (h : isEndTrimmed cs) (hc : isBlank c = false) :
    trim (cs ++ [c]) = trim cs ++ [c] := by
  have hinner : isEndTrimmed (cs.dropWhile isBlank) := h.of_suffix (List.dropWhile_suffix isBlank)
  rw [trim, trim, dropWhile_concat_of_neg hc, dropEndWhile_eq_self (isEndTrimmed_concat hc _),
    dropEndWhile_eq_self hinner]

end Text

namespace Script

open Text

namespace Directive

/-! ## One parenthesis more -/

theorem fields_concat_closing {args : List Char} (h : isEndTrimmed args) :
    fields (args ++ [')']) = fields args := by
  rw [fields, trim_concat h (by decide), dropEndWhile_concat_of_pos (by decide), fields]

/-- A character at the end that is no quote belongs to what follows the quotation. -/
theorem quotation?_concat {c : Char} (hc : isQuote c = false) (args : List Char) :
    quotation? (args ++ [c]) =
      (quotation? args).map fun (said, rest) => (said, rest ++ [c]) := by
  unfold quotation?
  cases hbody : args.dropWhile (!isQuote ·) with
  | nil =>
      have hnone : (args ++ [c]).dropWhile (!isQuote ·) = [] := by
        rw [List.dropWhile_append, hbody]
        simp [hc]
      rw [hnone, Option.map_none]
  | cons opening body =>
      have hbody' : (args ++ [c]).dropWhile (!isQuote ·) = opening :: (body ++ [c]) := by
        rw [List.dropWhile_append, hbody]
        rfl
      have hinner : (body ++ [c]).reverse.dropWhile (!isQuote ·) =
          body.reverse.dropWhile (!isQuote ·) := by simp [hc]
      have hrest : takeEndWhile (!isQuote ·) (body ++ [c]) =
          takeEndWhile (!isQuote ·) body ++ [c] := takeEndWhile_concat_of_pos (by simp [hc]) body
      simp only [hbody', hinner, hrest]
      cases body.reverse.dropWhile (!isQuote ·) with
      | nil => rw [Option.map_none]
      | cons closing inner => rw [Option.map_some]

theorem readArgs_concat_closing (keyword : Keyword) {args : List Char} (h : isEndTrimmed args) :
    readArgs keyword (args ++ [')']) = readArgs keyword args := by
  have hfields := fields_concat_closing h
  have hquotation := quotation?_concat (c := ')') (by decide) args
  cases hfound : quotation? args with
  | none =>
      rw [hfound, Option.map_none] at hquotation
      cases keyword <;>
        simp only [readArgs, readName, readNode, readText, readResp, readTrig, hfields, hfound,
          hquotation]
  | some found =>
      obtain ⟨said, rest⟩ := found
      rw [hfound, Option.map_some] at hquotation
      have hrest : isEndTrimmed rest := by
        obtain ⟨front, -, rfl⟩ := eq_append_of_quotation? hfound
        apply h.of_suffix
        exact ⟨front ++ '"' :: (said.toList ++ ['"']), by simp⟩
      cases keyword <;>
        simp only [readArgs, readName, readNode, readText, readResp, readTrig, hfields, hfound,
          hquotation, fields_concat_closing hrest]

theorem read_concat_closing {line : List Char} (h : isEndTrimmed line) :
    read (line ++ [')']) = read line := by
  cases line with
  | nil => rfl
  | cons c body =>
      by_cases hc : c = '('
      · subst hc
        have hargs : isEndTrimmed (body.dropWhile isKeywordChar) :=
          h.of_suffix ((List.dropWhile_suffix isKeywordChar).trans (List.suffix_cons '(' body))
        have hend : isKeywordChar ')' = false := by decide
        simp only [List.cons_append, read, takeWhile_concat_of_neg hend,
          dropWhile_concat_of_neg hend, readArgs_concat_closing _ hargs]
      · rw [List.cons_append, read, read]
        · simpa using hc
        · simpa using hc

/-- Closing parentheses are optional and may be repeated: behind a line that does
not end in a blank any number of them goes unnoticed, and no line that is read
ends in a blank. -/
theorem read_append_closings :
    (∀ line, isEndTrimmed line →
      ∀ count, read (line ++ List.replicate count ')') = read line) ∧
      ∀ raw, isEndTrimmed (trim (stripComment raw)) := by
  refine ⟨?_, fun raw => isEndTrimmed_trim (stripComment raw)⟩
  intro line hline count
  induction count generalizing line with
  | zero => rw [List.replicate_zero, List.append_nil]
  | succ count ih =>
      have hnext : isEndTrimmed (line ++ [')']) := isEndTrimmed_concat (by decide) line
      rw [List.replicate_succ, List.append_cons, ih _ hnext, read_concat_closing hline]

/-- A parenthesis inside the quotation stays, and so does one inside a label. -/
theorem read_append_closings_bell :
    isEndTrimmed "(trig \"Ring :)\" be)ll chime".toList ∧
      read ("(trig \"Ring :)\" be)ll chime".toList ++ List.replicate 3 ')') =
        .ok (.response "Ring :)" "be)ll" (some "chime")) := by
  have hline : isEndTrimmed "(trig \"Ring :)\" be)ll chime".toList := by decide +kernel
  refine ⟨hline, ?_⟩
  rw [read_append_closings.1 _ hline]
  decide +kernel

end Directive

end Script

end Parley
