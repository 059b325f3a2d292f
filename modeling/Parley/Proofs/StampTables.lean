import Parley.Proofs.Encoding
import Parley.Proofs.Pieces
import Parley.Proofs.Timestamps
import Parley.StampTable.Format

/-!
# What a stamp table says, and what its file says

A table answers for each name on its own: recording and forgetting one name
leaves all others alone. The file of a table is read back record by record.
Nothing is quoted in it, so this needs names without a bar and without the
characters that end a record, and no byte order mark in front of the first
name. A stamp outside the years of four digits is then the only thing lost.
-/

namespace Parley

namespace Stamp

/-- No stamp is found under a name that stands in front of all others. -/
theorem find?_eq_none_of_lt {name : String} {stamps : List Stamp}
    (h : ∀ stamp ∈ stamps, name < stamp.1) : stamps.find? (·.1 = name) = none := by
  rw [List.find?_eq_none]
  intro stamp hstamp
  simpa using (String.ne_of_lt (h stamp hstamp)).symm

theorem find?_placed {name : String} (time : Option Instant) {stamps : List Stamp}
    (h : ∀ stamp ∈ stamps, name < stamp.1) (other : String) :
    ((time.map (name, ·)).toList ++ stamps).find? (·.1 = other) =
      if name = other then time.map (name, ·) else stamps.find? (·.1 = other) := by
  by_cases hname : name = other
  · subst hname
    cases time with
    | none => simpa using find?_eq_none_of_lt h
    | some modified => simp
  · cases time <;> simp [hname]

/-- What is handed out is what would have been found. -/
theorem replaceIn_fst (name : String) (time : Option Instant) {stamps : List Stamp}
    (h : stamps.Pairwise (·.1 < ·.1)) :
    (replaceIn name time stamps).1 = (stamps.find? (·.1 = name)).map Prod.snd := by
  fun_induction replaceIn name time stamps with
  | case1 => rfl
  | case2 first rest hlt => rw [find?_eq_none_of_lt (lt_of_mem h hlt), Option.map_none]
  | case3 first rest hnot heq =>
      rw [List.find?_cons_of_pos (by simpa using heq.symm), Option.map_some]
  | case4 first rest hnot hne old others hrest ih =>
      rw [hrest] at ih
      rw [List.find?_cons_of_neg (by simpa using Ne.symm hne)]
      exact ih (List.pairwise_cons.mp h).2

/-- What is put in the place of a name is found under it, and no other name is
found differently. -/
theorem find?_replaceIn (name : String) (time : Option Instant) {stamps : List Stamp}
    (h : stamps.Pairwise (·.1 < ·.1)) (other : String) :
    (replaceIn name time stamps).2.find? (·.1 = other) =
      if name = other then time.map (name, ·) else stamps.find? (·.1 = other) := by
  fun_induction replaceIn name time stamps with
  | case1 => cases time <;> simp [eq_comm]
  | case2 first rest hlt => exact find?_placed time (lt_of_mem h hlt) other
  | case3 first rest hnot heq =>
      rw [find?_placed time (heq ▸ (List.pairwise_cons.mp h).1) other]
      split
      next => rfl
      next hname => rw [List.find?_cons_of_neg (by simpa [← heq] using hname)]
  | case4 first rest hnot hne old others hrest ih =>
      rw [hrest] at ih
      rw [List.find?_cons, List.find?_cons, ih (List.pairwise_cons.mp h).2]
      by_cases hname : name = other
      · have hother : ¬ first.1 = other := fun hsame => hne (hname.trans hsame.symm)
        simp [hname, hother]
      · simp [hname]

end Stamp

namespace StampTable

open Text

@[simp] theorem get?_empty (name : String) : empty.get? name = none := rfl

theorem get?_replace (table : StampTable) (name : String) (time : Option Instant)
    (other : String) :
    (table.replace name time).2.get? other = if name = other then time else table.get? other := by
  rw [get?, replace, Stamp.find?_replaceIn name time table.increasing]
  split
  next => cases time <;> rfl
  next => rfl

theorem get?_insert (table : StampTable) (name : String) (modified : Instant) (other : String) :
    (table.insert name modified).get? other =
      if name = other then some modified else table.get? other :=
  get?_replace table name (some modified) other

theorem get?_erase (table : StampTable) (name other : String) :
    (table.erase name).get? other = if name = other then none else table.get? other :=
  get?_replace table name none other

/-- The names of a table are distinct, so each stamp is found under its name. -/
theorem get?_of_mem_stamps {table : StampTable} {stamp : Stamp} (h : stamp ∈ table.stamps) :
    table.get? stamp.1 = some stamp.2 := by
  obtain ⟨stamps, hincreasing⟩ := table
  simp only [get?]
  induction stamps with
  | nil => simp at h
  | cons first rest ih =>
      obtain ⟨hfirst, hrest⟩ := List.pairwise_cons.mp hincreasing
      rcases List.mem_cons.mp h with rfl | hmem
      · simp
      · have hne : ¬ first.1 = stamp.1 := String.ne_of_lt (hfirst stamp hmem)
        simpa [hne] using ih hrest hmem

theorem isFresh_iff {table : StampTable} {name : String} {modified : Instant} :
    table.isFresh name modified = true ↔
      ∃ seen, table.get? name = some seen ∧ seen.seconds = modified.seconds := by
  unfold isFresh
  cases table.get? name with
  | none => simp
  | some seen => simp

/-! ## The records of a file -/

/-- Whether a name has no character that means something in the file. -/
def isSeparable (name : String) : Prop :=
  '|' ∉ name.toList ∧ '\n' ∉ name.toList ∧ '\r' ∉ name.toList

/-- Whether a name begins with the byte order mark. -/
def isMarked (name : String) : Prop := name.toList.head? = some mark

instance (name : String) : Decidable (isSeparable name) := inferInstanceAs (Decidable (_ ∧ _))

instance (name : String) : Decidable (isMarked name) := inferInstanceAs (Decidable (_ = _))

/-- A record without the byte that ends it. -/
def recordBody (stamp : Stamp) : Bytes :=
  encode stamp.1 ++ bar :: encode (String.ofList (Timestamp.text stamp.2))

theorem recordBytes_eq (stamp : Stamp) : recordBytes stamp = recordBody stamp ++ [lineFeed] := rfl

/-- What is read back from the record of a stamp. -/
def Record.ofStamp (stamp : Stamp) : Record :=
  match Timestamp.read? (Timestamp.text stamp.2) with
  | some modified => .stamp stamp.1 modified
  | none => .untimed stamp.1

/-- A character of a separator occurs in no timestamp. -/
theorem not_mem_text {c : Char} (hc : Timestamp.isStampChar c = false) (instant : Instant) :
    c ∉ Timestamp.text instant := by
  intro hmem
  rw [Timestamp.isStampChar_of_mem_text hmem] at hc
  contradiction

theorem isBar_eq_false {bytes : Bytes} (h : UInt8.ofNat '|'.toNat ∉ bytes) :
    ∀ byte ∈ bytes, isBar byte = false := by
  intro byte hbyte
  rw [isBar, beq_eq_false_iff_ne]
  rintro rfl
  exact h hbyte

/-- Two texts without a bar are read as the fields that they are. -/
theorem Record.ofBytes_encode {name time : String} (hname : '|' ∉ name.toList)
    (htime : '|' ∉ time.toList) :
    Record.ofBytes (encode name ++ bar :: encode time) =
      Record.ofFields (encode name) (encode time) := by
  have hbar : isBar bar = true := by decide
  have hfirst := splitOn_eq_singleton (isBar_eq_false (not_mem_encode (by decide) hname))
  have hsecond := splitOn_eq_singleton (isBar_eq_false (not_mem_encode (by decide) htime))
  rw [Record.ofBytes, splitOn_append_separator hbar, hfirst, hsecond]
  rfl

/-- The record of a separable name is read as what it was written for. -/
theorem ofBytes_recordBody {stamp : Stamp} (h : isSeparable stamp.1) :
    Record.ofBytes (recordBody stamp) = Record.ofStamp stamp := by
  have htime : '|' ∉ (String.ofList (Timestamp.text stamp.2)).toList := by
    rw [String.toList_ofList]
    exact not_mem_text (by decide) stamp.2
  rw [recordBody, Record.ofBytes_encode h.1 htime, Record.ofFields, decode?_encode, decode?_encode]
  simp only [String.toList_ofList]
  rfl

theorem endsRecord_eq_false {bytes : Bytes} (hfeed : UInt8.ofNat '\n'.toNat ∉ bytes)
    (hreturn : UInt8.ofNat '\r'.toNat ∉ bytes) : ∀ byte ∈ bytes, endsRecord byte = false := by
  intro byte hbyte
  rw [endsRecord, Bool.or_eq_false_iff, beq_eq_false_iff_ne, beq_eq_false_iff_ne]
  constructor
  · rintro rfl
    exact hfeed hbyte
  · rintro rfl
    exact hreturn hbyte

/-- A record of a separable name does not end before its end. -/
theorem runs_encode_fields {name time : String} (hname : isSeparable name)
    (hfeed : '\n' ∉ time.toList) (hreturn : '\r' ∉ time.toList) :
    runs endsRecord (encode name ++ bar :: encode time) = [encode name ++ bar :: encode time] := by
  apply runs_eq_singleton (by simp)
  intro byte hbyte
  rw [List.mem_append, List.mem_cons] at hbyte
  rcases hbyte with hbyte | rfl | hbyte
  · exact endsRecord_eq_false (not_mem_encode (by decide) hname.2.1)
      (not_mem_encode (by decide) hname.2.2) byte hbyte
  · decide
  · exact endsRecord_eq_false (not_mem_encode (by decide) hfeed)
      (not_mem_encode (by decide) hreturn) byte hbyte

theorem runs_recordBody {stamp : Stamp} (h : isSeparable stamp.1) :
    runs endsRecord (recordBody stamp) = [recordBody stamp] := by
  apply runs_encode_fields h
  · rw [String.toList_ofList]
    exact not_mem_text (by decide) stamp.2
  · rw [String.toList_ofList]
    exact not_mem_text (by decide) stamp.2

theorem runs_flatMap_recordBytes {stamps : List Stamp} (h : ∀ stamp ∈ stamps, isSeparable stamp.1) :
    runs endsRecord (stamps.flatMap recordBytes) = stamps.map recordBody := by
  induction stamps with
  | nil => rfl
  | cons stamp rest ih =>
      have hfeed : endsRecord lineFeed = true := by decide
      rw [List.flatMap_cons, recordBytes_eq, List.append_assoc, List.singleton_append,
        runs_append_separator hfeed, runs_recordBody (h stamp List.mem_cons_self),
        ih fun other hother => h other (List.mem_cons_of_mem _ hother)]
      rfl

/-- Whether a file begins with the byte order mark. -/
def beginsWithMark (bytes : Bytes) : Prop := [0xEF, 0xBB, 0xBF] <+: bytes

instance (bytes : Bytes) : Decidable (beginsWithMark bytes) :=
  inferInstanceAs (Decidable (_ <+: _))

theorem dropMark_eq_self {bytes : Bytes} (h : ¬ beginsWithMark bytes) : dropMark bytes = bytes := by
  unfold dropMark
  split
  next rest => exact absurd ⟨rest, rfl⟩ h
  next => rfl

/-- A record begins with the byte order mark if its name does. -/
theorem not_beginsWithMark_encode {name : String} (h : ¬ isMarked name) (rest : Bytes) :
    ¬ beginsWithMark (encode name ++ bar :: rest) := by
  rintro ⟨more, hbytes⟩
  cases hname : name.toList with
  | nil =>
      -- Without a name the first byte is the bar.
      rw [encode_eq_flatMap, hname] at hbytes
      exact absurd (List.cons.inj hbytes).1 (by decide)
  | cons c cs =>
      rw [← String.ofList_toList (s := name), hname] at hbytes
      exact h (by rw [isMarked, hname, eq_mark_of_encode_eq hbytes.symm]; rfl)

/-- A file whose first name is not marked has no byte order mark to drop. -/
theorem dropMark_bytes {table : StampTable}
    (h : ∀ stamp ∈ table.stamps.head?, ¬ isMarked stamp.1) :
    dropMark table.bytes = table.bytes := by
  apply dropMark_eq_self
  cases hstamps : table.stamps with
  | nil =>
      rw [bytes, hstamps]
      decide
  | cons stamp others =>
      rw [bytes, hstamps, List.flatMap_cons, recordBytes, List.append_assoc, List.append_assoc]
      exact not_beginsWithMark_encode (h stamp (by simp [hstamps])) _

/-- The file of a table is read as the records it was written for. -/
theorem records_bytes {table : StampTable} (hnames : ∀ stamp ∈ table.stamps, isSeparable stamp.1)
    (hmark : ∀ stamp ∈ table.stamps.head?, ¬ isMarked stamp.1) :
    records table.bytes = table.stamps.map Record.ofStamp := by
  rw [records, dropMark_bytes hmark, bytes, runs_flatMap_recordBytes hnames, List.map_map]
  apply List.map_congr_left
  intro stamp hstamp
  exact ofBytes_recordBody (hnames stamp hstamp)

theorem get?_foldl_addTo {stamps : List Stamp} (h : stamps.Pairwise (·.1 < ·.1))
    (table : StampTable) (name : String) :
    ((stamps.map Record.ofStamp).foldl Record.addTo table).get? name =
      (((stamps.find? (·.1 = name)).bind fun stamp =>
        Timestamp.read? (Timestamp.text stamp.2)).or (table.get? name)) := by
  induction stamps generalizing table with
  | nil => rfl
  | cons stamp rest ih =>
      obtain ⟨hfirst, hrest⟩ := List.pairwise_cons.mp h
      rw [List.map_cons, List.foldl_cons, ih hrest]
      by_cases hname : stamp.1 = name
      · -- No later stamp has this name, so this one decides unless its text cannot be read.
        have hnone : rest.find? (·.1 = name) = none := by
          rw [List.find?_eq_none]
          intro other hother
          have hne := String.ne_of_lt (hfirst other hother)
          simpa using fun hsame => hne (hname.trans hsame.symm)
        rw [hnone, List.find?_cons_of_pos (by simpa using hname)]
        simp only [Option.bind_none, Option.none_or, Option.bind_some, Record.ofStamp]
        cases Timestamp.read? (Timestamp.text stamp.2) with
        | none => simp [Record.addTo]
        | some modified => simp [Record.addTo, get?_insert, hname]
      · rw [List.find?_cons_of_neg (by simpa using hname)]
        congr 1
        simp only [Record.ofStamp]
        cases Timestamp.read? (Timestamp.text stamp.2) with
        | none => rfl
        | some modified => simp [Record.addTo, get?_insert, hname]

/-- The table that is read back says of each name what its timestamp says. -/
theorem get?_ofBytes_bytes {table : StampTable}
    (hnames : ∀ stamp ∈ table.stamps, isSeparable stamp.1)
    (hmark : ∀ stamp ∈ table.stamps.head?, ¬ isMarked stamp.1) (name : String) :
    (ofBytes table.bytes).get? name =
      (table.get? name).bind fun seen => Timestamp.read? (Timestamp.text seen) := by
  rw [ofBytes, records_bytes hnames hmark, get?_foldl_addTo table.increasing, get?_empty,
    Option.or_none, get?, Option.bind_map]
  rfl

end StampTable

end Parley
