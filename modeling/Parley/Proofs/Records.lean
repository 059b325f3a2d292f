import Parley.Proofs.StoredTables

/-!
# Records of a file of stamps

The reader takes the well-formed records of a file and passes over all others.
What a file says is put together from them one after the other, so a file that
is cut behind a record says what its second part says, and for all other names
what its first part says. A record that is not well formed changes nothing,
wherever it stands. A file of one record says one thing, in whatever way its
instant is spelled.
-/

namespace Parley.StampTable

open Text Timestamp

/-! ## Records that are passed over -/

/-- Whether a record is passed over. -/
def IsMalformed (record : Bytes) : Prop := ∀ name seen, ¬ IsRecord record name seen

theorem isMalformed_iff {record : Bytes} :
    IsMalformed record ↔ ∀ name seen, Record.ofBytes record ≠ .stamp name seen := by
  simp only [IsMalformed, ← Record.ofBytes_eq_stamp_iff, ne_eq]

instance (record : Bytes) : Decidable (IsMalformed record) :=
  match h : Record.ofBytes record with
  | .malformed => isTrue (isMalformed_iff.mpr (by simp [h]))
  | .untimed _ => isTrue (isMalformed_iff.mpr (by simp [h]))
  | .stamp name seen => isFalse fun hmalformed => isMalformed_iff.mp hmalformed name seen h

theorem IsMalformed.addTo {record : Bytes} (h : IsMalformed record) (table : StampTable) :
    (Record.ofBytes record).addTo table = table := by
  have hother := isMalformed_iff.mp h
  cases hrecord : Record.ofBytes record with
  | malformed => rfl
  | untimed name => rfl
  | stamp name seen => exact absurd hrecord (hother name seen)

theorem foldl_addTo_of_isMalformed {pieces : List Bytes} (h : ∀ piece ∈ pieces, IsMalformed piece)
    (table : StampTable) : (pieces.map Record.ofBytes).foldl Record.addTo table = table := by
  induction pieces with
  | nil => rfl
  | cons piece pieces ih =>
      obtain ⟨hpiece, hpieces⟩ := List.forall_mem_cons.mp h
      rw [List.map_cons, List.foldl_cons, hpiece.addTo, ih hpieces]

/-- The byte order mark is a character like any other where a record begins with
it. -/
theorem IsMalformed.of_mark {rest : Bytes} (h : IsMalformed (0xEF :: 0xBB :: 0xBF :: rest)) :
    IsMalformed rest := by
  rintro name seen ⟨hname, spelling, hinstant, rfl⟩
  refine h (String.ofList (mark :: name.toList)) seen ⟨?_, spelling, hinstant, ?_⟩
  · have hmark : '|' ≠ mark := by decide
    rw [String.toList_ofList, List.mem_cons, not_or]
    exact ⟨hmark, hname⟩
  · rw [recordOf, recordOf, encode_mark_cons, String.ofList_toList]
    rfl

theorem dropMark_suffix (bytes : Bytes) : dropMark bytes <:+ bytes := by
  unfold dropMark
  split
  next rest => exact ⟨[0xEF, 0xBB, 0xBF], rfl⟩
  next => exact List.suffix_rfl

theorem IsMalformed.dropMark {record : Bytes} (h : IsMalformed record) :
    IsMalformed (dropMark record) := by
  unfold StampTable.dropMark
  split
  next => exact h.of_mark
  next => exact h

/-! ## Files in two parts -/

/-- Whether a file is empty or ends behind a record. -/
def endsAtRecord (bytes : Bytes) : Prop := ∀ last ∈ bytes.getLast?, endsRecord last = true

instance (bytes : Bytes) : Decidable (endsAtRecord bytes) :=
  match h : bytes.getLast? with
  | none => isTrue (by simp [endsAtRecord, h])
  | some last => decidable_of_iff (endsRecord last = true) (by simp [endsAtRecord, h])

/-- The byte order mark goes on over no end of a record. -/
theorem beginsWithMark_of_append {front back : Bytes} {last : UInt8}
    (hlast : endsRecord last = true) (h : beginsWithMark (front ++ last :: back)) :
    beginsWithMark front := by
  rcases Nat.lt_or_ge front.length 3 with hshort | hlong
  · exfalso
    have hfront : front ++ [last] <+: front ++ last :: back := ⟨back, by simp⟩
    have hlength : (front ++ [last]).length ≤ 3 := by
      rw [List.length_append]
      exact hshort
    have hwithin := List.prefix_of_prefix_length_le hfront h hlength
    have hmem := hwithin.subset (List.mem_append_right front (List.mem_singleton_self last))
    simp only [List.mem_cons, List.not_mem_nil, or_false] at hmem
    rcases hmem with rfl | rfl | rfl <;> contradiction
  · exact List.prefix_of_prefix_length_le h (List.prefix_append _ _) hlong

theorem dropMark_append {last : UInt8} (hlast : endsRecord last = true) (front back : Bytes) :
    dropMark (front ++ last :: back) = dropMark front ++ last :: back := by
  by_cases hmark : beginsWithMark front
  · obtain ⟨rest, rfl⟩ := hmark
    rfl
  · rw [dropMark_eq_self hmark, dropMark_eq_self (mt (beginsWithMark_of_append hlast) hmark)]

/-- The end of a record cuts the records of a file. -/
theorem records_append_end {last : UInt8} (hlast : endsRecord last = true) (front back : Bytes) :
    records (front ++ last :: back) =
      records front ++ (runs endsRecord back).map Record.ofBytes := by
  rw [records, dropMark_append hlast, runs_append_separator hlast, List.map_append, records]

theorem endsAtRecord_cases {bytes : Bytes} (h : endsAtRecord bytes) :
    bytes = [] ∨ ∃ front last, bytes = front ++ [last] ∧ endsRecord last = true := by
  cases hlast : bytes.getLast? with
  | none => exact .inl (List.getLast?_eq_none_iff.mp hlast)
  | some last =>
      obtain ⟨front, hfront⟩ := List.getLast?_eq_some_iff.mp hlast
      exact .inr ⟨front, last, hfront, h last hlast⟩

/-- The records of a file in two parts are those of its parts. -/
theorem records_append {front back : Bytes} (hfront : endsAtRecord front)
    (hback : ¬ beginsWithMark back) : records (front ++ back) = records front ++ records back := by
  have hpieces : records back = (runs endsRecord back).map Record.ofBytes := by
    rw [records, dropMark_eq_self hback]
  rcases endsAtRecord_cases hfront with rfl | ⟨init, last, rfl, hlast⟩
  · rfl
  · rw [List.append_assoc, List.singleton_append, records_append_end hlast,
      records_append_end hlast, runs_nil, List.map_nil, List.append_nil, hpieces]

theorem get?_addTo (record : Record) (table : StampTable) (name : String) :
    (record.addTo table).get? name = ((record.addTo empty).get? name).or (table.get? name) := by
  cases record with
  | malformed => rfl
  | untimed other => rfl
  | stamp other seen =>
      rw [Record.addTo, Record.addTo, get?_insert, get?_insert]
      by_cases hname : other = name
      · rw [if_pos hname, if_pos hname, Option.some_or]
      · rw [if_neg hname, if_neg hname, get?_empty, Option.none_or]

/-- Records override what a table says, each for its own name. -/
theorem get?_foldl_addTo_or (records : List Record) (table : StampTable) (name : String) :
    (records.foldl Record.addTo table).get? name =
      ((records.foldl Record.addTo empty).get? name).or (table.get? name) := by
  induction records generalizing table with
  | nil => rfl
  | cons record records ih =>
      rw [List.foldl_cons, List.foldl_cons, ih (record.addTo table), ih (record.addTo empty),
        get?_addTo, Option.or_assoc]

theorem get?_ofBytes_append {front back : Bytes} (hfront : endsAtRecord front)
    (hback : ¬ beginsWithMark back) (name : String) :
    (ofBytes (front ++ back)).get? name =
      ((ofBytes back).get? name).or ((ofBytes front).get? name) := by
  rw [ofBytes, records_append hfront hback, List.foldl_append, get?_foldl_addTo_or]
  rfl

/-- Further ends of records say nothing. -/
theorem ofBytes_append_ending (bytes : Bytes) {ending : Bytes}
    (hending : ∀ byte ∈ ending, endsRecord byte = true) :
    ofBytes (bytes ++ ending) = ofBytes bytes := by
  cases ending with
  | nil => rw [List.append_nil]
  | cons last more =>
      obtain ⟨hlast, hmore⟩ := List.forall_mem_cons.mp hending
      rw [ofBytes, records_append_end hlast, runs_eq_nil hmore, List.map_nil, List.append_nil]
      rfl

/-- A record that is not well formed says nothing. -/
theorem ofBytes_append_malformed {front record : Bytes} (hfront : endsAtRecord front)
    (hrecord : ∀ byte ∈ record, endsRecord byte = false) (hmalformed : IsMalformed record) :
    ofBytes (front ++ record) = ofBytes front := by
  have hpieces : ∀ {bytes : Bytes}, IsMalformed bytes → (∀ byte ∈ bytes, endsRecord byte = false) →
      ∀ piece ∈ runs endsRecord bytes, IsMalformed piece := by
    intro bytes hbad hbytes piece hpiece
    rw [runs, splitOn_eq_singleton hbytes] at hpiece
    rw [List.mem_singleton.mp (List.mem_filter.mp hpiece).1]
    exact hbad
  rcases endsAtRecord_cases hfront with rfl | ⟨init, last, rfl, hlast⟩
  · -- At the front of the file the byte order mark is dropped from the record.
    have hbytes : ∀ byte ∈ dropMark record, endsRecord byte = false :=
      fun byte hbyte => hrecord byte ((dropMark_suffix record).subset hbyte)
    exact foldl_addTo_of_isMalformed (hpieces hmalformed.dropMark hbytes) empty
  · rw [List.append_assoc, List.singleton_append, ofBytes, records_append_end hlast,
      List.foldl_append, foldl_addTo_of_isMalformed (hpieces hmalformed hrecord), ofBytes,
      records_append_end hlast, runs_nil, List.map_nil, List.append_nil]

/-- A file that is cut behind a record says of each name what its second part
says, or else its first part. A record that is not well formed can be put in
there, or at the front of the file, and changes nothing. -/
theorem ofBytes_append {front back : Bytes} (hfront : endsAtRecord front)
    (hback : ¬ beginsWithMark back) :
    (∀ name, (ofBytes (front ++ back)).get? name =
      ((ofBytes back).get? name).or ((ofBytes front).get? name)) ∧
      ∀ record ending : Bytes, (∀ byte ∈ record, endsRecord byte = false) →
        IsMalformed record → ending ≠ [] → (∀ byte ∈ ending, endsRecord byte = true) →
          ofBytes (front ++ record ++ ending ++ back) = ofBytes (front ++ back) := by
  refine ⟨get?_ofBytes_append hfront hback, ?_⟩
  intro record ending hrecord hmalformed hne hending
  have hends : endsAtRecord (front ++ record ++ ending) := by
    intro last hlast
    rw [List.getLast?_append, List.getLast?_eq_some_getLast hne, Option.some_or] at hlast
    rw [← Option.some.inj hlast]
    exact hending _ (List.getLast_mem hne)
  apply eq_of_get?_eq
  intro name
  rw [get?_ofBytes_append hends hback, get?_ofBytes_append hfront hback,
    ofBytes_append_ending _ hending, ofBytes_append_malformed hfront hrecord hmalformed]

/-- Two stamps, with either end of a record. -/
def knownStamps : Bytes :=
  encode "a.oud|2020-09-13T12:26:40Z\r\nb.oud|2020-09-13T12:26:40Z\r"

/-- A record that is not well formed, and a stamp at the end of the file. -/
def brokenStamps : Bytes := encode "a.oud|yesterday\nb.oud|1969-12-31 23:59:59.5+00:00"

/-- A quote that is not closed and a field too many. -/
def quotedRecord : Bytes := encode "\"b.oud|2020-09-13T12:26:40Z|more"

theorem ofBytes_append_knownStamps :
    endsAtRecord knownStamps ∧ ¬ beginsWithMark brokenStamps ∧
      (ofBytes (knownStamps ++ brokenStamps)).get? "a.oud" = some ⟨1600000000, 0⟩ ∧
      (ofBytes (knownStamps ++ brokenStamps)).get? "b.oud" = some ⟨-1, 0⟩ ∧
      IsMalformed quotedRecord ∧
      ofBytes (knownStamps ++ quotedRecord ++ [lineFeed] ++ brokenStamps) =
        ofBytes (knownStamps ++ brokenStamps) := by
  have hfront : endsAtRecord knownStamps := by decide +kernel
  have hback : ¬ beginsWithMark brokenStamps := by decide +kernel
  have hbody : ∀ byte ∈ quotedRecord, endsRecord byte = false := by
    have hall : quotedRecord.all (!endsRecord ·) = true := by decide +kernel
    simpa using hall
  have hmalformed : IsMalformed quotedRecord := by decide +kernel
  obtain ⟨hsaid, hinserted⟩ := ofBytes_append hfront hback
  refine ⟨hfront, hback, ?_, ?_, hmalformed, ?_⟩
  · rw [hsaid]
    decide +kernel
  · rw [hsaid]
    decide +kernel
  · exact hinserted quotedRecord [lineFeed] hbody hmalformed (by simp) (by simp [endsRecord])

/-! ## A file of one record -/

theorem ofBytes_recordOf {name : String} (hname : isSeparable name) (hmark : ¬ isMarked name)
    (spelling : Spelling) :
    ofBytes (recordOf name spelling) = empty.insert name spelling.instant := by
  have hrecord : Record.ofBytes (recordOf name spelling) = .stamp name spelling.instant :=
    Record.ofBytes_eq_stamp_iff.mpr ⟨hname.1, spelling, rfl, rfl⟩
  have hruns : runs endsRecord (recordOf name spelling) = [recordOf name spelling] :=
    runs_encode_fields hname (not_mem_spelling (by decide) spelling)
      (not_mem_spelling (by decide) spelling)
  have hplain : ¬ beginsWithMark (recordOf name spelling) := not_beginsWithMark_encode hmark _
  rw [ofBytes, records, dropMark_eq_self hplain, hruns, List.map_singleton, hrecord]
  rfl

/-- A file of one record says when its file was modified, however the instant is
spelled: with any offset for which the local year has four digits, with any
separator, sign and letter, and with any fraction. -/
theorem ofBytes_spelling {name : String} (hname : isSeparable name) (hmark : ¬ isMarked name)
    {instant : Instant} {zone : Zone} (hyear : (localTime instant zone.offset).hasPlainYear)
    (separator : Separator) (fraction : List (Fin 10)) {ending : Bytes}
    (hending : ∀ byte ∈ ending, endsRecord byte = true) {file : Bytes}
    (hfile : file =
      recordOf name (Spelling.ofInstant instant zone hyear separator fraction) ++ ending) :
    (ofBytes file).stamps = [(name, instant.wholeSecond)] ∧
      ∀ modified, (ofBytes file).isFresh name modified = true ↔
        modified.seconds = instant.seconds := by
  rw [hfile, ofBytes_append_ending _ hending, ofBytes_recordOf hname hmark,
    Spelling.instant_ofInstant]
  refine ⟨rfl, fun modified => ?_⟩
  rw [isFresh_iff, get?_insert, if_pos rfl]
  simp [Instant.wholeSecond, eq_comm]

/-- The last second of 1969, where the new year has come already. -/
theorem ofBytes_spelling_newYear :
    isSeparable "tea house.oud" ∧ ¬ isMarked "tea house.oud" ∧
      (localTime ⟨-1, 0⟩ (Zone.signed .plus 0 30).offset).hasPlainYear ∧
      (ofBytes (encode "tea house.oud|1970-01-01 00:29:59.75+00:30\r\n")).stamps =
        [("tea house.oud", ⟨-1, 0⟩)] := by
  have hyear : (localTime ⟨-1, 0⟩ (Zone.signed .plus 0 30).offset).hasPlainYear := by decide
  have hfile : encode "tea house.oud|1970-01-01 00:29:59.75+00:30\r\n" =
      recordOf "tea house.oud" (Spelling.ofInstant ⟨-1, 0⟩ (.signed .plus 0 30) hyear .blank
        [7, 5]) ++ [carriageReturn, lineFeed] := by decide +revert
  obtain ⟨hstamps, -⟩ :=
    ofBytes_spelling (by decide) (by decide) hyear .blank [7, 5] (by simp [endsRecord]) hfile
  exact ⟨by decide, by decide, hyear, hstamps⟩

end Parley.StampTable
