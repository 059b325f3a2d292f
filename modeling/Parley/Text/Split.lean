/-!
# Cutting a list at separators

Lines, words, record fields and path names are all pieces of a list cut at the
elements a test picks out. The pieces are built from the right: a separator
opens a new piece, any other element joins the piece that stands first. What
differs is the end of the list: between separators the last piece is there
even when it is empty (`splitOn`), after terminators it is not (`terminated`).
-/

namespace Parley.Text

variable {α : Type}

/-- Put one element in front of a list of pieces. -/
def attach (sep : α → Bool) (a : α) (pieces : List (List α)) : List (List α) :=
  if sep a then [] :: pieces
  else match pieces with
    | [] => [[a]]
    | piece :: rest => (a :: piece) :: rest

/-- The pieces between separators: always one more than there are separators. -/
def splitOn (sep : α → Bool) (l : List α) : List (List α) :=
  l.foldr (attach sep) [[]]

/-- The pieces ended by a terminator, and what follows the last terminator
unless that is empty. -/
def terminated (sep : α → Bool) (l : List α) : List (List α) :=
  l.foldr (attach sep) []

/-- The maximal runs without a separator. -/
def runs (sep : α → Bool) (l : List α) : List (List α) :=
  (splitOn sep l).filter (!·.isEmpty)

/-- Remove the longest final part whose elements all pass the test. -/
def dropEndWhile (p : α → Bool) (l : List α) : List α :=
  (l.reverse.dropWhile p).reverse

/-- The longest final part whose elements all pass the test. -/
def takeEndWhile (p : α → Bool) (l : List α) : List α :=
  (l.reverse.takeWhile p).reverse

theorem attach_separator {sep : α → Bool} {a : α} (ha : sep a = true)
    (pieces : List (List α)) : attach sep a pieces = [] :: pieces := by
  simp [attach, ha]

theorem attach_cons {sep : α → Bool} {a : α} (ha : sep a = false) (piece : List α)
    (rest : List (List α)) : attach sep a (piece :: rest) = (a :: piece) :: rest := by
  simp [attach, ha]

@[simp] theorem splitOn_nil (sep : α → Bool) : splitOn sep [] = [[]] := rfl

theorem splitOn_cons (sep : α → Bool) (a : α) (l : List α) :
    splitOn sep (a :: l) = attach sep a (splitOn sep l) := rfl

@[simp] theorem terminated_nil (sep : α → Bool) : terminated sep [] = [] := rfl

/-- Pieces behind the first one are never touched again. -/
theorem foldr_attach_append (sep : α → Bool) (l : List α) (piece : List α)
    (rest : List (List α)) :
    l.foldr (attach sep) (piece :: rest) = l.foldr (attach sep) [piece] ++ rest := by
  suffices h : ∃ first more, l.foldr (attach sep) [piece] = first :: more ∧
      l.foldr (attach sep) (piece :: rest) = first :: (more ++ rest) by
    obtain ⟨first, more, hone, hall⟩ := h
    rw [hone, hall, List.cons_append]
  induction l with
  | nil => exact ⟨piece, [], rfl, rfl⟩
  | cons a l ih =>
      obtain ⟨first, more, hone, hall⟩ := ih
      rw [List.foldr_cons, List.foldr_cons, hone, hall]
      cases ha : sep a with
      | true => exact ⟨[], first :: more, attach_separator ha _, attach_separator ha _⟩
      | false => exact ⟨a :: first, more, attach_cons ha _ _, attach_cons ha _ _⟩

/-- A separator cuts: the pieces of both sides stand next to each other. -/
theorem splitOn_append_separator {sep : α → Bool} {a : α} (ha : sep a = true) (x y : List α) :
    splitOn sep (x ++ a :: y) = splitOn sep x ++ splitOn sep y := by
  rw [splitOn, List.foldr_append, List.foldr_cons, attach_separator ha, foldr_attach_append]
  rfl

/-- A terminator cuts, and belongs to the pieces on its left. -/
theorem terminated_append_separator {sep : α → Bool} {a : α} (ha : sep a = true)
    (x y : List α) :
    terminated sep (x ++ a :: y) = terminated sep (x ++ [a]) ++ terminated sep y := by
  rw [terminated, List.foldr_append, List.foldr_cons, attach_separator ha, foldr_attach_append,
    terminated, List.foldr_append, List.foldr_cons, attach_separator ha]
  rfl

/-- A separator cuts the runs as well. -/
theorem runs_append_separator {sep : α → Bool} {a : α} (ha : sep a = true) (x y : List α) :
    runs sep (x ++ a :: y) = runs sep x ++ runs sep y := by
  rw [runs, splitOn_append_separator ha, List.filter_append]
  rfl

/-- Without a separator there is one piece. -/
theorem splitOn_eq_singleton {sep : α → Bool} {l : List α} (hl : ∀ a ∈ l, sep a = false) :
    splitOn sep l = [l] := by
  induction l with
  | nil => rfl
  | cons a l ih =>
      rw [splitOn_cons, ih (fun b hb => hl b (List.mem_cons_of_mem a hb)),
        attach_cons (hl a List.mem_cons_self)]

end Parley.Text
