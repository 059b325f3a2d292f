/-!
# Lists with distinct keys

The nodes of a dialogue and the entries of a file tree are lists in which no
two elements have the same key. Putting an element in replaces the element
with its key where it stands, and only a new key makes the list longer.
-/

namespace Parley.Keyed

variable {α κ : Type} [DecidableEq κ] (key : α → κ)

/-- Put an element over the one that has its key, or else at the end. -/
def upsert (a : α) : List α → List α
  | [] => [a]
  | b :: rest => if key b = key a then a :: rest else b :: upsert a rest

/-- The element with a key. -/
def find? (l : List α) (k : κ) : Option α := l.find? (fun a => key a = k)

/-- Replacing keeps all keys; a new key goes to the end. -/
theorem map_key_upsert (a : α) (l : List α) :
    (upsert key a l).map key = if key a ∈ l.map key then l.map key else l.map key ++ [key a] := by
  induction l with
  | nil => rfl
  | cons b rest ih =>
      by_cases h : key b = key a
      · simp [upsert, h]
      · rw [upsert, if_neg h, List.map_cons, ih]
        have h' : ¬ key a = key b := fun e => h e.symm
        by_cases hmem : key a ∈ rest.map key <;> simp [hmem, h']

theorem nodup_upsert (a : α) {l : List α} (h : (l.map key).Nodup) :
    ((upsert key a l).map key).Nodup := by
  rw [map_key_upsert]
  split
  · exact h
  · next hnew =>
      rw [List.nodup_append]
      refine ⟨h, by simp, ?_⟩
      intro k hk j hj
      obtain rfl := List.mem_singleton.mp hj
      rintro rfl
      exact hnew hk

/-- The element put in is found under its key, and no other key is affected. -/
theorem find?_upsert (a : α) (l : List α) (k : κ) :
    find? key (upsert key a l) k = if key a = k then some a else find? key l k := by
  induction l with
  | nil => by_cases h : key a = k <;> simp [upsert, find?, h]
  | cons b rest ih =>
      unfold find? at ih ⊢
      by_cases h : key b = key a
      · by_cases hk : key a = k <;> simp [upsert, h, hk]
      · rw [upsert, if_neg h, List.find?_cons, ih, List.find?_cons]
        by_cases hk : key a = k
        · subst hk
          simp [h]
        · simp [hk]

end Parley.Keyed
