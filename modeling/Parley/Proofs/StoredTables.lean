import Parley.Proofs.Spellings
import Parley.Proofs.StampTables

/-!
# Tables that survive their file

A record is read if it is a name and a timestamp with a bar between them, in any
spelling of the timestamp. So whatever a file of stamps holds, the names that
are read from it have no separators in them and the stamps are whole seconds. A
table with any other name or stamp is never read back as it was, even where its
broken records look like those of other files. For all other tables the file is
exact, but for a byte order mark in front of the first name and for years that
are written with a sign.
-/

namespace Parley

namespace Text

theorem utf8EncodeChar_of_lt {c : Char} (hc : c.toNat < 128) :
    String.utf8EncodeChar c = [UInt8.ofNat c.toNat] := by
  have hcode : c.val.toNat = c.toNat := rfl
  unfold String.utf8EncodeChar
  rw [hcode]
  exact if_pos (Nat.le_of_lt_succ hc)

/-- A character below 128 that a text holds is one of its bytes. -/
theorem mem_encode {s : String} {c : Char} (hc : c.toNat < 128) (hs : c ∈ s.toList) :
    UInt8.ofNat c.toNat ∈ encode s := by
  rw [encode_eq_flatMap, List.mem_flatMap]
  exact ⟨c, hs, by rw [utf8EncodeChar_of_lt hc]; exact List.mem_singleton_self _⟩

theorem encode_mark_cons (cs : List Char) :
    encode (String.ofList (mark :: cs)) = 0xEF :: 0xBB :: 0xBF :: encode (String.ofList cs) := by
  have hmark : String.utf8EncodeChar mark = [0xEF, 0xBB, 0xBF] := by decide
  rw [encode_eq_flatMap, encode_eq_flatMap, String.toList_ofList, String.toList_ofList,
    List.flatMap_cons, hmark]
  rfl

end Text

namespace StampTable

open Text Timestamp

/-! ## Tables and what they say -/

theorem mem_stamps_iff {table : StampTable} {stamp : Stamp} :
    stamp ∈ table.stamps ↔ table.get? stamp.1 = some stamp.2 := by
  refine ⟨get?_of_mem_stamps, ?_⟩
  intro h
  obtain ⟨found, hfind, hseen⟩ := Option.map_eq_some_iff.mp h
  have hname : found.1 = stamp.1 := by simpa using List.find?_some hfind
  obtain rfl : found = stamp := Prod.ext hname hseen
  exact List.mem_of_find?_eq_some hfind

theorem mem_map_fst_iff {table : StampTable} {name : String} :
    name ∈ table.stamps.map Prod.fst ↔ ∃ seen, table.get? name = some seen := by
  simp only [List.mem_map, mem_stamps_iff]
  constructor
  · rintro ⟨stamp, hseen, rfl⟩
    exact ⟨stamp.2, hseen⟩
  · rintro ⟨seen, hseen⟩
    exact ⟨(name, seen), hseen, rfl⟩

theorem nodup_map_fst (table : StampTable) : (table.stamps.map Prod.fst).Nodup :=
  List.pairwise_map.mpr (table.increasing.imp String.ne_of_lt)

/-- A table is determined by what it says about each name. -/
theorem eq_of_get?_eq {table other : StampTable} (h : ∀ name, table.get? name = other.get? name) :
    table = other := by
  have hmem : ∀ stamp, stamp ∈ table.stamps ↔ stamp ∈ other.stamps := by
    intro stamp
    rw [mem_stamps_iff, mem_stamps_iff, h]
  have hnodup (table : StampTable) : table.stamps.Nodup := by
    refine table.increasing.imp ?_
    rintro stamp other hlt rfl
    exact String.lt_irrefl _ hlt
  -- Both lists have the same members, and there is one increasing order of them.
  have hperm := (List.perm_ext_iff_of_nodup (hnodup table) (hnodup other)).mpr hmem
  have hstamps : table.stamps = other.stamps := by
    refine List.Perm.eq_of_pairwise ?_ table.increasing other.increasing hperm
    intro stamp other _ _ hlt hgt
    exact absurd hgt (String.lt_asymm hlt)
  cases table
  cases other
  cases hstamps
  rfl

/-- One change of a table. -/
inductive Change where
  | record (name : String) (modified : Instant)
  | forget (name : String)
  deriving DecidableEq, Repr

/-- The table after a change. -/
def change (table : StampTable) : Change → StampTable
  | .record name modified => table.insert name modified
  | .forget name => table.erase name

/-- The table that changes make of the empty one. -/
def ofChanges (changes : List Change) : StampTable := changes.foldl change empty

/-- Whether a name is the least one of a table. -/
def isLeast (table : StampTable) (name : String) : Prop :=
  table.get? name ≠ none ∧ ∀ other, table.get? other ≠ none → name ≤ other

/-- The least name is the one that stands first. -/
theorem isLeast_iff {table : StampTable} {name : String} :
    table.isLeast name ↔ ∃ seen, table.stamps.head? = some (name, seen) := by
  constructor
  · rintro ⟨hname, hleast⟩
    obtain ⟨seen, hseen⟩ := Option.ne_none_iff_exists'.mp hname
    have hmem : (name, seen) ∈ table.stamps := mem_stamps_iff.mpr hseen
    cases hstamps : table.stamps with
    | nil => simp [hstamps] at hmem
    | cons first rest =>
        have hfirst : first ∈ table.stamps := by simp [hstamps]
        have hle := hleast first.1 (by rw [get?_of_mem_stamps hfirst]; simp)
        rw [hstamps] at hmem
        rcases List.mem_cons.mp hmem with rfl | hmem
        · exact ⟨seen, rfl⟩
        · have hincreasing := table.increasing
          rw [hstamps] at hincreasing
          exact absurd ((List.pairwise_cons.mp hincreasing).1 _ hmem) (String.not_lt.mpr hle)
  · rintro ⟨seen, hhead⟩
    obtain ⟨rest, hstamps⟩ := List.head?_eq_some_iff.mp hhead
    have hincreasing := table.increasing
    rw [hstamps] at hincreasing
    have hsaid {stamp : Stamp} (hmem : stamp ∈ (name, seen) :: rest) :
        table.get? stamp.1 = some stamp.2 := get?_of_mem_stamps (hstamps ▸ hmem)
    refine ⟨by rw [hsaid List.mem_cons_self]; simp, ?_⟩
    intro other hother
    obtain ⟨modified, hmodified⟩ := Option.ne_none_iff_exists'.mp hother
    have hmem : (other, modified) ∈ table.stamps := mem_stamps_iff.mpr hmodified
    rw [hstamps] at hmem
    rcases List.mem_cons.mp hmem with heq | hmem
    · obtain ⟨rfl, -⟩ := Prod.mk.inj heq
      exact String.le_refl _
    · exact String.not_lt.mp (String.lt_asymm ((List.pairwise_cons.mp hincreasing).1 _ hmem))

/-! ## Well-formed records -/

/-- The record of a file with a timestamp. -/
def recordOf (name : String) (spelling : Spelling) : Bytes :=
  encode name ++ bar :: encode (String.ofList spelling.text)

/-- Whether bytes are a well-formed record for a file and an instant: the name has
no bar, and the instant may be spelled in any way. -/
def IsRecord (record : Bytes) (name : String) (seen : Instant) : Prop :=
  '|' ∉ name.toList ∧ ∃ spelling : Spelling, spelling.instant = seen ∧
    record = recordOf name spelling

theorem not_mem_spelling {c : Char} (hc : isSpellingChar c = false) (spelling : Spelling) :
    c ∉ (String.ofList spelling.text).toList := by
  intro hmem
  rw [String.toList_ofList] at hmem
  rw [Spelling.isSpellingChar_of_mem_text hmem] at hc
  contradiction

/-- The reader takes the records that are well formed. -/
theorem Record.ofBytes_eq_stamp_iff {record : Bytes} {name : String} {seen : Instant} :
    Record.ofBytes record = .stamp name seen ↔ IsRecord record name seen := by
  constructor
  · intro h
    unfold Record.ofBytes at h
    split at h
    next first second hfields =>
      unfold Record.ofFields at h
      split at h
      next decoded time hfirst hsecond =>
        split at h
        next modified hread =>
          obtain ⟨rfl, rfl⟩ := Record.stamp.inj h
          obtain ⟨spelling, htext, hinstant⟩ := read?_eq_some_iff.mp hread
          refine ⟨?_, spelling, hinstant.symm, ?_⟩
          · intro hbar
            -- A bar in the name would be a byte of the first field.
            have hmem := mem_encode (by decide) hbar
            rw [← eq_encode_of_decode? hfirst] at hmem
            have hfield : first ∈ splitOn isBar record := by
              rw [hfields]
              exact List.mem_cons_self
            exact absurd (mem_of_mem_splitOn hfield hmem).2 (by decide)
          · obtain ⟨byte, hbyte, rfl⟩ := eq_append_of_splitOn_eq_pair hfields
            rw [recordOf, ← htext, String.ofList_toList, ← eq_encode_of_decode? hfirst,
              ← eq_encode_of_decode? hsecond, eq_of_beq hbyte]
        next => contradiction
      next => contradiction
    next => contradiction
  · rintro ⟨hname, spelling, rfl, rfl⟩
    have hread : read? (String.ofList spelling.text).toList = some spelling.instant := by
      apply read?_eq_some_iff.mpr
      exact ⟨spelling, String.toList_ofList, rfl⟩
    rw [recordOf, Record.ofBytes_encode hname (not_mem_spelling (by decide) spelling),
      Record.ofFields, decode?_encode, decode?_encode]
    simp only [hread]

/-! ## What any file can say -/

/-- What a table says after records were added was said by a record, or before. -/
theorem mem_of_get?_foldl_addTo {records : List Record} {table : StampTable} {name : String}
    {seen : Instant} (h : (records.foldl Record.addTo table).get? name = some seen) :
    .stamp name seen ∈ records ∨ table.get? name = some seen := by
  induction records generalizing table with
  | nil => exact .inr h
  | cons record records ih =>
      rw [List.foldl_cons] at h
      rcases ih h with hmem | hbefore
      · exact .inl (List.mem_cons_of_mem _ hmem)
      · cases record with
        | malformed => exact .inr hbefore
        | untimed other => exact .inr hbefore
        | stamp other modified =>
            rw [Record.addTo, get?_insert] at hbefore
            split at hbefore
            next hname =>
              obtain rfl := Option.some.inj hbefore
              rw [hname]
              exact .inl List.mem_cons_self
            next => exact .inr hbefore

theorem mem_records_of_get?_ofBytes {bytes : Bytes} {name : String} {seen : Instant}
    (h : (ofBytes bytes).get? name = some seen) : .stamp name seen ∈ records bytes := by
  rcases mem_of_get?_foldl_addTo h with hmem | hempty
  · exact hmem
  · rw [get?_empty] at hempty
    contradiction

/-- What a file says of a name stands in one of its records. -/
theorem exists_isRecord_of_get?_ofBytes {bytes : Bytes} {name : String} {seen : Instant}
    (h : (ofBytes bytes).get? name = some seen) :
    ∃ record ∈ runs endsRecord (dropMark bytes), IsRecord record name seen := by
  obtain ⟨record, hmem, hrecord⟩ := List.mem_map.mp (mem_records_of_get?_ofBytes h)
  exact ⟨record, hmem, Record.ofBytes_eq_stamp_iff.mp hrecord⟩

/-- The names that are read from a file hold no separators, and the stamps are
whole seconds. -/
theorem isSeparable_of_mem_records {bytes : Bytes} {name : String} {seen : Instant}
    (h : .stamp name seen ∈ records bytes) : isSeparable name ∧ seen.nanos = 0 := by
  obtain ⟨record, hrecord, hstamp⟩ := List.mem_map.mp h
  obtain ⟨hbar, spelling, rfl, rfl⟩ := Record.ofBytes_eq_stamp_iff.mp hstamp
  -- A byte of the name stands in a record, where no end of a record can stand.
  have habsent {c : Char} (hc : c.toNat < 128)
      (hend : endsRecord (UInt8.ofNat c.toNat) = true) : c ∉ name.toList := by
    intro hmem
    have hbyte : UInt8.ofNat c.toNat ∈ recordOf name spelling :=
      List.mem_append_left _ (mem_encode hc hmem)
    rw [(mem_of_mem_runs hrecord hbyte).2] at hend
    contradiction
  exact ⟨⟨hbar, habsent (by decide) (by decide), habsent (by decide) (by decide)⟩, rfl⟩

/-! ## What the file of a table says -/

/-- A byte order mark in front of the first name is not part of the name that is
read. -/
theorem records_of_isMarked {cs : List Char} {modified : Instant} {rest : List Stamp}
    (hnames : ∀ stamp ∈ (String.ofList (mark :: cs), modified) :: rest, isSeparable stamp.1) :
    records (List.flatMap recordBytes ((String.ofList (mark :: cs), modified) :: rest)) =
      ((String.ofList cs, modified) :: rest).map Record.ofStamp := by
  obtain ⟨hfirst, hrest⟩ := List.forall_mem_cons.mp hnames
  have hunmarked : isSeparable (String.ofList cs) := by
    simp only [isSeparable, String.toList_ofList] at hfirst ⊢
    exact ⟨mt (List.mem_cons_of_mem _) hfirst.1, mt (List.mem_cons_of_mem _) hfirst.2.1,
      mt (List.mem_cons_of_mem _) hfirst.2.2⟩
  have hnames' : ∀ stamp ∈ (String.ofList cs, modified) :: rest, isSeparable stamp.1 :=
    List.forall_mem_cons.mpr ⟨hunmarked, hrest⟩
  have hdrop :
      dropMark (List.flatMap recordBytes ((String.ofList (mark :: cs), modified) :: rest)) =
        List.flatMap recordBytes ((String.ofList cs, modified) :: rest) := by
    rw [List.flatMap_cons, recordBytes, encode_mark_cons]
    rfl
  rw [records, hdrop, runs_flatMap_recordBytes hnames', List.map_map]
  apply List.map_congr_left
  intro stamp hstamp
  exact ofBytes_recordBody (hnames' stamp hstamp)

theorem stamp_of_mem_ofStamp {stamps : List Stamp} {name : String} {seen : Instant}
    (h : .stamp name seen ∈ stamps.map Record.ofStamp) : name ∈ stamps.map Prod.fst := by
  obtain ⟨stamp, hstamp, hrecord⟩ := List.mem_map.mp h
  unfold Record.ofStamp at hrecord
  split at hrecord
  next =>
    obtain ⟨rfl, -⟩ := Record.stamp.inj hrecord
    exact List.mem_map_of_mem hstamp
  next => contradiction

/-- A table whose first name is marked loses that name. -/
theorem not_isMarked_of_ofBytes_bytes {table : StampTable} (h : ofBytes table.bytes = table)
    (hnames : ∀ stamp ∈ table.stamps, isSeparable stamp.1) :
    ∀ stamp ∈ table.stamps.head?, ¬ isMarked stamp.1 := by
  obtain ⟨stamps, hincreasing⟩ := table
  intro first hhead hmarked
  obtain ⟨rest, rfl⟩ : ∃ rest, stamps = first :: rest := by
    cases stamps with
    | nil => simp at hhead
    | cons stamp rest =>
        obtain rfl : stamp = first := by simpa using hhead
        exact ⟨rest, rfl⟩
  obtain ⟨name, modified⟩ := first
  obtain ⟨cs, hname⟩ : ∃ cs, name = String.ofList (mark :: cs) := by
    obtain ⟨cs, hcs⟩ := List.head?_eq_some_iff.mp hmarked
    exact ⟨cs, by rw [← hcs, String.ofList_toList]⟩
  subst hname
  have hfirst : (String.ofList (mark :: cs), modified) ∈ (StampTable.mk _ hincreasing).stamps :=
    List.mem_cons_self
  have hsaid := get?_of_mem_stamps hfirst
  rw [← h] at hsaid
  have hmem := mem_records_of_get?_ofBytes hsaid
  rw [bytes, records_of_isMarked hnames] at hmem
  rcases List.mem_cons.mp (stamp_of_mem_ofStamp hmem) with heq | hmem
  · have hlength := congrArg (fun name => name.toList.length) heq
    simp at hlength
  · -- The first name is not among the others, which are greater.
    obtain ⟨other, hother, heq⟩ := List.mem_map.mp hmem
    have hlt := (List.pairwise_cons.mp hincreasing).1 other hother
    rw [heq] at hlt
    exact String.lt_irrefl _ hlt

/-- A table is read back from its file exactly when nothing in it is lost there:
no name holds a separator, the least one does not begin with the byte order
mark, and all stamps are whole seconds of years with four digits. -/
theorem ofBytes_bytes_ofChanges_iff (changes : List Change) :
    ofBytes (ofChanges changes).bytes = ofChanges changes ↔
      (∀ name seen, (ofChanges changes).get? name = some seen →
        isSeparable name ∧ seen.nanos = 0 ∧ seen.hasPlainYear) ∧
      ∀ name, (ofChanges changes).isLeast name → ¬ isMarked name := by
  -- How the table came about plays no part.
  generalize ofChanges changes = table
  constructor
  · intro h
    have hread {name : String} {seen : Instant} (hseen : table.get? name = some seen) :
        isSeparable name ∧ seen.nanos = 0 := by
      rw [← h] at hseen
      exact isSeparable_of_mem_records (mem_records_of_get?_ofBytes hseen)
    have hnames : ∀ stamp ∈ table.stamps, isSeparable stamp.1 :=
      fun stamp hstamp => (hread (get?_of_mem_stamps hstamp)).1
    have hmark := not_isMarked_of_ofBytes_bytes h hnames
    refine ⟨fun name seen hseen => ?_, fun name hleast => ?_⟩
    · obtain ⟨hname, hnanos⟩ := hread hseen
      refine ⟨hname, hnanos, Classical.byContradiction fun hyear => ?_⟩
      have hback := get?_ofBytes_bytes hnames hmark name
      rw [h, hseen, Option.bind_some, Timestamp.read?_text_of_not_hasPlainYear hyear] at hback
      contradiction
    · obtain ⟨seen, hhead⟩ := isLeast_iff.mp hleast
      exact hmark (name, seen) hhead
  · rintro ⟨hsaid, hleast⟩
    have hnames : ∀ stamp ∈ table.stamps, isSeparable stamp.1 :=
      fun stamp hstamp => (hsaid _ _ (get?_of_mem_stamps hstamp)).1
    have hmark : ∀ stamp ∈ table.stamps.head?, ¬ isMarked stamp.1 :=
      fun stamp hhead => hleast _ (isLeast_iff.mpr ⟨stamp.2, hhead⟩)
    apply eq_of_get?_eq
    intro name
    rw [get?_ofBytes_bytes hnames hmark]
    cases hseen : table.get? name with
    | none => rfl
    | some seen =>
        obtain ⟨-, hnanos, hyear⟩ := hsaid name seen hseen
        have hlimit : seen.nanos < Instant.nanosPerSecond := by
          rw [hnanos]
          decide
        rw [Option.bind_some, Timestamp.read?_text hlimit hyear, Instant.wholeSecond, ← hnanos]

end StampTable

end Parley
