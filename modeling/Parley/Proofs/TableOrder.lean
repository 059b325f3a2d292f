import Mathlib.Data.Set.Card
import Mathlib.Tactic.SplitIfs
import Parley.Proofs.StoredTables

/-!
# The file of a table by what the table says

A table keeps its names in the order of their characters. Files are compared byte
by byte, and this gives the same order: where the encodings of two characters
first differ, the greater character has the greater byte. A table that was changed
in any way is therefore stored as one record for each name it knows, in the order
of their bytes, and tables that say the same are stored alike.
-/

namespace Parley

namespace Text

/-! ## The order of bytes -/

/-- Bytes are compared as the numbers that they are. -/
theorem ofNat_cons_lt_iff {m n : Nat} (hm : m < UInt8.size) (hn : n < UInt8.size) (x y : Bytes) :
    UInt8.ofNat m :: x < UInt8.ofNat n :: y ↔ m < n ∨ m = n ∧ x < y := by
  rw [List.cons_lt_cons_iff, UInt8.ofNat_lt_iff_lt hm hn, ← UInt8.toNat_inj,
    UInt8.toNat_ofNat_of_lt' hm, UInt8.toNat_ofNat_of_lt' hn]

/-- A greater character has greater bytes, whatever follows. -/
theorem utf8EncodeChar_append_lt {c d : Char} (h : c < d) (x y : Bytes) :
    String.utf8EncodeChar c ++ x < String.utf8EncodeChar d ++ y := by
  have hcode : c.val.toNat < d.val.toNat := h
  have hlimit : d.val.toNat < 0x110000 := by
    have hvalid := d.valid
    simp only [UInt32.isValidChar, Nat.isValidChar] at hvalid
    omega
  have hsize : UInt8.size = 256 := rfl
  -- All bytes but the first are digits to the base 64.
  have htwo (n : Nat) : n / 4096 = n / 64 / 64 := by omega
  have hthree (n : Nat) : n / 262144 = n / 64 / 64 / 64 := by omega
  unfold String.utf8EncodeChar
  generalize c.val.toNat = v at *
  generalize d.val.toNat = w at *
  dsimp only
  split_ifs <;>
    simp (disch := omega) only [List.cons_append, List.nil_append, ofNat_cons_lt_iff, htwo,
      hthree] <;>
    omega

theorem flatMap_utf8EncodeChar_lt {cs ds : List Char} (h : cs < ds) :
    cs.flatMap String.utf8EncodeChar < ds.flatMap String.utf8EncodeChar := by
  induction cs generalizing ds with
  | nil =>
      cases ds with
      | nil => exact absurd h (List.lt_irrefl [])
      | cons d ds =>
          obtain ⟨byte, more, hbytes⟩ :=
            List.exists_cons_of_ne_nil (String.utf8EncodeChar_ne_nil (c := d))
          rw [List.flatMap_nil, List.flatMap_cons, hbytes]
          exact List.nil_lt_cons byte _
  | cons c cs ih =>
      cases ds with
      | nil => exact absurd h (List.not_lt_nil _)
      | cons d ds =>
          rw [List.flatMap_cons, List.flatMap_cons]
          rcases List.cons_lt_cons_iff.mp h with hlt | ⟨rfl, hrest⟩
          · exact utf8EncodeChar_append_lt hlt _ _
          · exact List.append_left_lt (ih hrest)

/-- The order of texts is the order of their bytes. -/
theorem encode_lt_encode {s t : String} (h : s < t) : encode s < encode t := by
  rw [encode_eq_flatMap, encode_eq_flatMap]
  exact flatMap_utf8EncodeChar_lt (String.lt_iff.mp h)

end Text

namespace StampTable

open Text

/-! ## Changes that hand out what they replace -/

theorem exchange_eq (table : StampTable) (name : String) (modified : Instant) :
    table.exchange name modified = (table.get? name, table.insert name modified) :=
  Prod.ext (Stamp.replaceIn_fst name (some modified) table.increasing) rfl

theorem remove_eq (table : StampTable) (name : String) :
    table.remove name = (table.get? name, table.erase name) :=
  Prod.ext (Stamp.replaceIn_fst name none table.increasing) rfl

/-- Make a change, and hand out what the table said about its name. -/
def perform (table : StampTable) : Change → Option Instant × StampTable
  | .record name modified => table.exchange name modified
  | .forget name => table.remove name

/-- The name that a change is about. -/
def Change.name : Change → String
  | record name _ => name
  | forget name => name

/-- What is known about the name after a change. -/
def Change.time? : Change → Option Instant
  | record _ modified => some modified
  | forget _ => none

theorem perform_eq (table : StampTable) (change : Change) :
    table.perform change = (table.get? change.name, table.change change) := by
  cases change with
  | record name modified => exact exchange_eq table name modified
  | forget name => exact remove_eq table name

theorem get?_change (table : StampTable) (change : Change) (name : String) :
    (table.change change).get? name =
      if change.name = name then change.time? else table.get? name := by
  cases change with
  | record known modified => exact get?_insert table known modified name
  | forget known => exact get?_erase table known name

theorem ofChanges_concat (changes : List Change) (change : Change) :
    ofChanges (changes ++ [change]) = (ofChanges changes).change change := by
  rw [ofChanges, List.foldl_append, ofChanges, List.foldl_cons, List.foldl_nil]

/-- What a change hands out, and how the table after it differs. -/
structure Answers (table : StampTable) (change : Change) (found : Option Instant)
    (next : StampTable) : Prop where
  found : found = table.get? change.name
  changed : next.get? change.name = change.time?
  unchanged : ∀ name, name ≠ change.name → next.get? name = table.get? name

theorem answers_perform (table : StampTable) (change : Change) :
    Answers table change (table.perform change).1 (table.perform change).2 := by
  rw [perform_eq]
  constructor
  · rfl
  · rw [get?_change, if_pos rfl]
  · intro name hname
    rw [get?_change, if_neg (Ne.symm hname)]

/-! ## The records of a table -/

/-- Whether a byte is a line feed. -/
def isFeed (byte : UInt8) : Bool := byte == lineFeed

theorem lineFeed_not_mem_recordBody {stamp : Stamp} (h : '\n' ∉ stamp.1.toList) :
    lineFeed ∉ recordBody stamp := by
  have htime : '\n' ∉ (String.ofList (Timestamp.text stamp.2)).toList := by
    rw [String.toList_ofList]
    exact not_mem_text (by decide) stamp.2
  rw [recordBody, List.mem_append, List.mem_cons]
  rintro (hname | hbar | hstamp)
  · exact not_mem_encode (by decide) h hname
  · exact absurd hbar (by decide)
  · exact not_mem_encode (by decide) htime hstamp

/-- Names without a line feed have a line each. -/
theorem terminated_flatMap_recordBytes {stamps : List Stamp}
    (h : ∀ stamp ∈ stamps, '\n' ∉ stamp.1.toList) :
    terminated isFeed (stamps.flatMap recordBytes) = stamps.map recordBody := by
  induction stamps with
  | nil => rfl
  | cons stamp rest ih =>
      obtain ⟨hstamp, hrest⟩ := List.forall_mem_cons.mp h
      have hbody : ∀ byte ∈ recordBody stamp, isFeed byte = false := by
        intro byte hbyte
        rw [isFeed, beq_eq_false_iff_ne]
        rintro rfl
        exact lineFeed_not_mem_recordBody hstamp hbyte
      have hfeed : isFeed lineFeed = true := by decide
      rw [List.flatMap_cons, recordBytes_eq, List.append_assoc, List.singleton_append,
        terminated_append_separator hfeed, terminated_concat hbody hfeed, ih hrest,
        List.singleton_append, List.map_cons]

/-- Whether a table is stored as a list of stamps. -/
structure Lists (table : StampTable) (stamps : List Stamp) : Prop where
  bytes : table.bytes = stamps.flatMap recordBytes
  /-- The names go up in the order of their bytes, so none is there twice. -/
  increasing : stamps.Pairwise fun stamp later => encode stamp.1 < encode later.1
  /-- There is a record for each name that the table knows, and no other. -/
  mem_iff : ∀ name seen, (name, seen) ∈ stamps ↔ table.get? name = some seen
  /-- A record is a line of the file, if no name holds a line feed. -/
  lines : (∀ stamp ∈ stamps, '\n' ∉ stamp.1.toList) →
    terminated isFeed table.bytes = stamps.map recordBody

theorem lists_stamps (table : StampTable) : Lists table table.stamps where
  bytes := rfl
  increasing := table.increasing.imp encode_lt_encode
  mem_iff _ _ := mem_stamps_iff
  lines := terminated_flatMap_recordBytes

theorem encard_names (table : StampTable) :
    {name | table.get? name ≠ none}.encard = table.size := by
  have hnames : {name | table.get? name ≠ none} = (table.stamps.map Prod.fst).toFinset := by
    ext name
    rw [List.coe_toFinset, Set.mem_ofPred_eq, Set.mem_ofPred_eq, mem_map_fst_iff,
      Option.ne_none_iff_exists']
  rw [hnames, Set.encard_coe_eq_coe_finsetCard, List.toFinset_card_of_nodup table.nodup_map_fst,
    List.length_map, size]

/-- However a table came about, its file has one record for each name that it
knows, in the order of their bytes. Each change on the way hands out what the
table said about its name and leaves all other names alone. Two tables that say
the same have the same file. -/
theorem lists_ofChanges (changes : List Change) :
    (∃ stamps, Lists (ofChanges changes) stamps) ∧
      {name | (ofChanges changes).get? name ≠ none}.encard = (ofChanges changes).size ∧
      (∀ change, ∃ found next, (ofChanges changes).perform change = (found, next) ∧
        Answers (ofChanges changes) change found next ∧ next = ofChanges (changes ++ [change])) ∧
      ∀ others, (∀ name, (ofChanges others).get? name = (ofChanges changes).get? name) →
        (ofChanges others).bytes = (ofChanges changes).bytes := by
  refine ⟨⟨_, lists_stamps _⟩, encard_names _, ?_, ?_⟩
  · intro change
    have hnext : ((ofChanges changes).perform change).2 = ofChanges (changes ++ [change]) := by
      rw [perform_eq, ofChanges_concat]
    exact ⟨_, _, rfl, answers_perform _ change, hnext⟩
  · intro others hsame
    rw [eq_of_get?_eq hsame]

/-- Names that are recorded twice, forgotten, and recorded again. -/
def restlessChanges : List Change :=
  [.record "zoo.oud" ⟨5, 0⟩, .record "élan.oud" ⟨7, 0⟩, .forget "zoo.oud", .forget "inn.oud",
    .record "zoo.oud" ⟨8, 0⟩, .record "zoo.oud" ⟨9, 0⟩]

theorem lists_ofChanges_restlessChanges :
    (∀ name, (ofChanges [.record "élan.oud" ⟨7, 0⟩, .record "zoo.oud" ⟨9, 0⟩]).get? name =
        (ofChanges restlessChanges).get? name) ∧
      (ofChanges restlessChanges).bytes =
        encode "zoo.oud|1970-01-01T00:00:09Z\nélan.oud|1970-01-01T00:00:07Z\n" := by
  have hsame : ∀ name,
      (ofChanges [.record "élan.oud" ⟨7, 0⟩, .record "zoo.oud" ⟨9, 0⟩]).get? name =
        (ofChanges restlessChanges).get? name := by
    intro name
    simp only [restlessChanges, ofChanges, List.foldl_cons, List.foldl_nil, change, get?_insert,
      get?_erase, get?_empty]
    by_cases hzoo : "zoo.oud" = name
    · rw [if_pos hzoo, if_pos hzoo]
    · by_cases hinn : "inn.oud" = name
      · subst hinn
        rfl
      · simp only [if_neg hzoo, if_neg hinn]
  obtain ⟨-, -, -, hbytes⟩ := lists_ofChanges restlessChanges
  refine ⟨hsame, ?_⟩
  rw [← hbytes _ hsame]
  decide +kernel

end StampTable

end Parley
