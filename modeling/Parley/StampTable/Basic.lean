import Parley.Time.Instant

/-!
# Stamp tables

A stamp table remembers when each script was last modified, by file name. It
is kept in strictly increasing order of the names, so that a table is
determined by what it says about each name. Names are ordered by their code
points, which is the order of their UTF-8 bytes.
-/

namespace Parley

/-- A file name with the modification time seen last. -/
abbrev Stamp := String × Instant

namespace Stamp

/-- Put a time, or nothing, in the place of a name in an ordered list, and hand out
the time that was there. -/
def replaceIn (name : String) (time : Option Instant) :
    List Stamp → Option Instant × List Stamp
  | [] => (none, (time.map (name, ·)).toList)
  | first :: rest =>
      if name < first.1 then (none, (time.map (name, ·)).toList ++ first :: rest)
      else if name = first.1 then (some first.2, (time.map (name, ·)).toList ++ rest)
      else
        let (old, others) := replaceIn name time rest
        (old, first :: others)

theorem fst_of_mem_placed {name : String} {time : Option Instant} {stamp : Stamp}
    (h : stamp ∈ (time.map (name, ·)).toList) : stamp.1 = name := by
  obtain ⟨modified, -, rfl⟩ := Option.map_eq_some_iff.mp (Option.mem_toList.mp h)
  rfl

theorem mem_of_mem_replaceIn {name : String} {time : Option Instant} {stamps : List Stamp}
    {stamp : Stamp} (h : stamp ∈ (replaceIn name time stamps).2) :
    stamp.1 = name ∨ stamp ∈ stamps := by
  fun_induction replaceIn name time stamps with
  | case1 => exact .inl (fst_of_mem_placed h)
  | case2 first rest hlt => exact (List.mem_append.mp h).imp_left fst_of_mem_placed
  | case3 first rest hnot heq =>
      exact (List.mem_append.mp h).imp fst_of_mem_placed (List.mem_cons_of_mem first)
  | case4 first rest hnot hne old others hrest ih =>
      rw [hrest] at ih
      rcases List.mem_cons.mp h with rfl | hother
      · exact .inr List.mem_cons_self
      · exact (ih hother).imp_right (List.mem_cons_of_mem first)

theorem lt_of_mem {name : String} {first : Stamp} {rest : List Stamp}
    (h : (first :: rest).Pairwise (·.1 < ·.1)) (hname : name < first.1) :
    ∀ stamp ∈ first :: rest, name < stamp.1 := by
  intro stamp hstamp
  rcases List.mem_cons.mp hstamp with rfl | hrest
  · exact hname
  · exact String.lt_trans hname ((List.pairwise_cons.mp h).1 stamp hrest)

theorem pairwise_placed {name : String} (time : Option Instant) {stamps : List Stamp}
    (h : stamps.Pairwise (·.1 < ·.1)) (hname : ∀ stamp ∈ stamps, name < stamp.1) :
    ((time.map (name, ·)).toList ++ stamps).Pairwise (·.1 < ·.1) := by
  cases time with
  | none => exact h
  | some modified => exact List.pairwise_cons.mpr ⟨hname, h⟩

theorem pairwise_replaceIn (name : String) (time : Option Instant) {stamps : List Stamp}
    (h : stamps.Pairwise (·.1 < ·.1)) :
    (replaceIn name time stamps).2.Pairwise (·.1 < ·.1) := by
  fun_induction replaceIn name time stamps with
  | case1 => simp
  | case2 first rest hlt => exact pairwise_placed time h (lt_of_mem h hlt)
  | case3 first rest hnot heq =>
      obtain ⟨hfirst, hrest⟩ := List.pairwise_cons.mp h
      exact pairwise_placed time hrest (heq ▸ hfirst)
  | case4 first rest hnot hne old others hrest ih =>
      rw [hrest] at ih
      obtain ⟨hfirst, hordered⟩ := List.pairwise_cons.mp h
      refine List.pairwise_cons.mpr ⟨?_, ih hordered⟩
      intro stamp hstamp
      have hplace : stamp.1 = name ∨ stamp ∈ rest := by
        refine mem_of_mem_replaceIn (?_ : stamp ∈ (replaceIn name time rest).2)
        rwa [hrest]
      rcases hplace with hname | hmem
      · rw [hname]
        apply Classical.byContradiction
        intro hge
        exact hne (String.le_antisymm (String.not_lt.mp hge) (String.not_lt.mp hnot))
      · exact hfirst stamp hmem

end Stamp

/-- Modification times by file name, in increasing order of the names. -/
structure StampTable where
  stamps : List Stamp
  increasing : stamps.Pairwise (·.1 < ·.1)
  deriving DecidableEq

namespace StampTable

/-- The table that knows no file. -/
def empty : StampTable := ⟨[], .nil⟩

/-- The modification time seen last for a file. -/
def get? (table : StampTable) (name : String) : Option Instant :=
  (table.stamps.find? (·.1 = name)).map Prod.snd

/-- Change what is recorded for a file, and hand out what was recorded before. -/
def replace (table : StampTable) (name : String) (time : Option Instant) :
    Option Instant × StampTable :=
  let replaced := Stamp.replaceIn name time table.stamps
  (replaced.1, ⟨replaced.2, Stamp.pairwise_replaceIn name time table.increasing⟩)

/-- Record a modification time, and hand out the one that makes way for it. -/
def exchange (table : StampTable) (name : String) (modified : Instant) :
    Option Instant × StampTable :=
  table.replace name (some modified)

/-- Forget a file, and hand out the modification time recorded for it. -/
def remove (table : StampTable) (name : String) : Option Instant × StampTable :=
  table.replace name none

/-- Record a modification time, over the one recorded for the file before. -/
def insert (table : StampTable) (name : String) (modified : Instant) : StampTable :=
  (table.exchange name modified).2

/-- Forget a file. -/
def erase (table : StampTable) (name : String) : StampTable := (table.remove name).2

/-- The number of files in the table. -/
def size (table : StampTable) : Nat := table.stamps.length

/-- Whether a file was last seen with the same modification time, to the
second. -/
def isFresh (table : StampTable) (name : String) (modified : Instant) : Bool :=
  match table.get? name with
  | some seen => seen.seconds = modified.seconds
  | none => false

end StampTable

end Parley
