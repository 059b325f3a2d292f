import Parley.Keyed
import Parley.Text.Blank

/-!
# Pieces of a list

The pieces of a list hold nothing but elements of that list, and no separator.
A final part that is cut off by a test is followed back from the end of the
list: what is left is empty or ends in an element that fails the test. What a
list says under a key is not changed by dropping other keys.
-/

namespace Parley

/-- Dropping keys leaves what is found under all others. -/
theorem Keyed.find?_filter {α κ : Type} [DecidableEq κ] (key : α → κ) (keeps : κ → Bool)
    (l : List α) (k : κ) :
    find? key (l.filter fun a => keeps (key a)) k = if keeps k then find? key l k else none := by
  rw [find?, List.find?_filter]
  by_cases hk : keeps k = true
  · rw [if_pos hk, find?]
    congr 1
    funext a
    by_cases ha : key a = k <;> simp [ha, hk]
  · rw [if_neg hk, List.find?_eq_none]
    intro a _ ha
    simp only [decide_eq_true_eq] at ha
    exact hk (ha.2 ▸ ha.1)

namespace Text

variable {α : Type} {sep : α → Bool}

/-- What is attached to pieces is an element that is put into one of them. -/
theorem mem_of_mem_attach {a b : α} {pieces : List (List α)} {piece : List α}
    (hpiece : piece ∈ attach sep a pieces) (hb : b ∈ piece) :
    (b = a ∧ sep a = false) ∨ ∃ old ∈ pieces, b ∈ old := by
  unfold attach at hpiece
  split at hpiece
  next =>
    rcases List.mem_cons.mp hpiece with rfl | hold
    · simp at hb
    · exact .inr ⟨piece, hold, hb⟩
  next hsep =>
    have hsep : sep a = false := by simpa using hsep
    cases pieces with
    | nil =>
        obtain rfl := List.mem_singleton.mp hpiece
        exact .inl ⟨List.mem_singleton.mp hb, hsep⟩
    | cons first rest =>
        rcases List.mem_cons.mp hpiece with rfl | hold
        · rcases List.mem_cons.mp hb with rfl | hfirst
          · exact .inl ⟨rfl, hsep⟩
          · exact .inr ⟨first, List.mem_cons_self, hfirst⟩
        · exact .inr ⟨piece, List.mem_cons_of_mem _ hold, hb⟩

/-- Pieces that begin empty hold elements of the list that are no separators. -/
theorem mem_of_mem_foldr_attach {l : List α} {pieces : List (List α)}
    (hempty : ∀ old ∈ pieces, old = []) {piece : List α} {b : α}
    (hpiece : piece ∈ l.foldr (attach sep) pieces) (hb : b ∈ piece) :
    b ∈ l ∧ sep b = false := by
  induction l generalizing piece with
  | nil =>
      rw [hempty piece hpiece] at hb
      simp at hb
  | cons a l ih =>
      rw [List.foldr_cons] at hpiece
      rcases mem_of_mem_attach hpiece hb with ⟨rfl, hsep⟩ | ⟨old, hold, hmem⟩
      · exact ⟨List.mem_cons_self, hsep⟩
      · obtain ⟨hin, hsep⟩ := ih hold hmem
        exact ⟨List.mem_cons_of_mem _ hin, hsep⟩

theorem splitOn_ne_nil (sep : α → Bool) (l : List α) : splitOn sep l ≠ [] := by
  cases l with
  | nil => simp
  | cons a l =>
      rw [splitOn_cons]
      unfold attach
      split
      · simp
      · split <;> simp

theorem mem_of_mem_splitOn {l piece : List α} {b : α} (hpiece : piece ∈ splitOn sep l)
    (hb : b ∈ piece) : b ∈ l ∧ sep b = false :=
  mem_of_mem_foldr_attach (fun _ hold => List.mem_singleton.mp hold) hpiece hb

theorem mem_of_mem_terminated {l piece : List α} {b : α} (hpiece : piece ∈ terminated sep l)
    (hb : b ∈ piece) : b ∈ l ∧ sep b = false :=
  mem_of_mem_foldr_attach (fun _ hold => absurd hold List.not_mem_nil) hpiece hb

theorem terminated_concat {a : α} {l : List α} (hl : ∀ b ∈ l, sep b = false)
    (ha : sep a = true) : terminated sep (l ++ [a]) = [l] := by
  rw [terminated, List.foldr_append, List.foldr_cons, attach_separator ha]
  exact splitOn_eq_singleton hl

theorem mem_of_mem_runs {l piece : List α} {b : α} (hpiece : piece ∈ runs sep l)
    (hb : b ∈ piece) : b ∈ l ∧ sep b = false :=
  mem_of_mem_splitOn (List.mem_filter.mp hpiece).1 hb

theorem ne_nil_of_mem_runs {l piece : List α} (hpiece : piece ∈ runs sep l) : piece ≠ [] := by
  have hfull := (List.mem_filter.mp hpiece).2
  simpa using hfull

@[simp] theorem runs_nil (sep : α → Bool) : runs sep [] = [] := rfl

theorem runs_eq_singleton {l : List α} (hne : l ≠ []) (hl : ∀ a ∈ l, sep a = false) :
    runs sep l = [l] := by
  rw [runs, splitOn_eq_singleton hl]
  simp [hne]

theorem runs_separator_cons {a : α} (ha : sep a = true) (l : List α) :
    runs sep (a :: l) = runs sep l := runs_append_separator ha [] l

theorem runs_eq_nil {l : List α} (hl : ∀ a ∈ l, sep a = true) : runs sep l = [] := by
  induction l with
  | nil => rfl
  | cons a l ih =>
      rw [runs_separator_cons (hl a List.mem_cons_self)]
      exact ih fun b hb => hl b (List.mem_cons_of_mem a hb)

/-- A run ends where a separator follows, or nothing. -/
theorem runs_append {run rest : List α} (hne : run ≠ []) (hrun : ∀ a ∈ run, sep a = false)
    (hrest : ∀ a ∈ rest.head?, sep a = true) : runs sep (run ++ rest) = run :: runs sep rest := by
  cases rest with
  | nil => rw [List.append_nil, runs_eq_singleton hne hrun, runs_nil]
  | cons a rest =>
      have ha : sep a = true := hrest a rfl
      rw [runs_append_separator ha, runs_separator_cons ha, runs_eq_singleton hne hrun]
      rfl

theorem runs_append_of_sep {front l : List α} (h : ∀ a ∈ front, sep a = true) :
    runs sep (front ++ l) = runs sep l := by
  induction front with
  | nil => rfl
  | cons a front ih =>
      obtain ⟨ha, hfront⟩ := List.forall_mem_cons.mp h
      rw [List.cons_append, runs_separator_cons ha, ih hfront]

/-- There is one piece more than there are separators. -/
theorem length_splitOn (sep : α → Bool) (l : List α) :
    (splitOn sep l).length = l.countP sep + 1 := by
  induction l with
  | nil => rfl
  | cons a l ih =>
      cases ha : sep a with
      | true =>
          rw [splitOn_cons, attach_separator ha, List.length_cons, ih, List.countP_cons_of_pos ha]
      | false =>
          obtain ⟨piece, rest, hpieces⟩ := List.exists_cons_of_ne_nil (splitOn_ne_nil sep l)
          rw [splitOn_cons, hpieces, attach_cons ha, List.length_cons, ← List.length_cons,
            ← hpieces, ih, List.countP_cons_of_neg (by simp [ha])]

/-- A list of one piece is that piece. -/
theorem eq_of_splitOn_eq_singleton {l piece : List α} (h : splitOn sep l = [piece]) :
    l = piece := by
  have hcount : l.countP sep = 0 := by
    have hlength := length_splitOn sep l
    rw [h, List.length_singleton] at hlength
    omega
  have hl : ∀ a ∈ l, sep a = false := by simpa [List.countP_eq_zero] using hcount
  rw [splitOn_eq_singleton hl] at h
  exact (List.cons.inj h).1

/-- A list of two pieces is cut at one separator. -/
theorem eq_append_of_splitOn_eq_pair {l first second : List α}
    (h : splitOn sep l = [first, second]) :
    ∃ a, sep a = true ∧ l = first ++ a :: second := by
  have hcount : 0 < l.countP sep := by
    have hlength := length_splitOn sep l
    rw [h, List.length_cons, List.length_singleton] at hlength
    omega
  obtain ⟨a, ha, hsep⟩ := List.countP_pos_iff.mp hcount
  obtain ⟨front, rest, rfl⟩ := List.append_of_mem ha
  obtain ⟨piece, pieces, hpieces⟩ := List.exists_cons_of_ne_nil (splitOn_ne_nil sep front)
  obtain ⟨other, others, hothers⟩ := List.exists_cons_of_ne_nil (splitOn_ne_nil sep rest)
  rw [splitOn_append_separator hsep, hpieces, hothers] at h
  -- Both sides have a piece, so neither has two.
  cases pieces with
  | nil =>
      obtain ⟨rfl, hsecond⟩ := List.cons.inj h
      obtain ⟨rfl, rfl⟩ := List.cons.inj hsecond
      refine ⟨a, hsep, ?_⟩
      rw [eq_of_splitOn_eq_singleton hpieces, eq_of_splitOn_eq_singleton hothers]
  | cons next pieces => simp at h

theorem dropEndWhile_append_takeEndWhile (p : α → Bool) (l : List α) :
    dropEndWhile p l ++ takeEndWhile p l = l := by
  rw [dropEndWhile, takeEndWhile, ← List.reverse_append, List.takeWhile_append_dropWhile,
    List.reverse_reverse]

theorem of_mem_takeEndWhile {p : α → Bool} {l : List α} {a : α} (ha : a ∈ takeEndWhile p l) :
    p a = true := by
  rw [takeEndWhile, List.mem_reverse] at ha
  exact List.all_eq_true.mp List.all_takeWhile a ha

theorem mem_of_mem_dropEndWhile {p : α → Bool} {l : List α} {a : α}
    (ha : a ∈ dropEndWhile p l) : a ∈ l := by
  rw [← dropEndWhile_append_takeEndWhile p l]
  exact List.mem_append_left _ ha

/-- What is left is empty or ends in an element that fails the test. -/
theorem dropEndWhile_cases (p : α → Bool) (l : List α) :
    dropEndWhile p l = [] ∨ ∃ front last, dropEndWhile p l = front ++ [last] ∧ p last = false := by
  rw [dropEndWhile]
  cases hrest : l.reverse.dropWhile p with
  | nil => exact .inl rfl
  | cons last front =>
      refine .inr ⟨front.reverse, last, by simp, ?_⟩
      have hhead := List.head?_dropWhile_not p l.reverse
      rw [hrest] at hhead
      simpa using hhead

theorem mem_of_mem_trim {cs : List Char} {c : Char} (hc : c ∈ trim cs) : c ∈ cs :=
  (List.dropWhile_sublist isBlank).subset (mem_of_mem_dropEndWhile hc)

end Text

end Parley
