import Parley.Proofs.NextRun
import Parley.Proofs.StoredTables

/-!
# Scripts that are tried again

A script that failed is left out of the stored stamps, so the next plan has it
compiled. Names are stored as they are, however, and the lines of another name
may spell a stamp for the script that failed. If that stamp is right to the
second, the script is passed over. This is the only way to miss it: what a file
of stamps says is said here line by line, whatever the names are.
-/

namespace Parley

namespace Text

/-- A test for characters of one byte and the same test for bytes. -/
structure SameCut (sep : Char → Bool) (byteSep : UInt8 → Bool) : Prop where
  separator : ∀ c, sep c = true → ∃ byte, String.utf8EncodeChar c = [byte] ∧ byteSep byte = true
  other : ∀ c, sep c = false → ∀ byte ∈ String.utf8EncodeChar c, byteSep byte = false

namespace SameCut

variable {sep : Char → Bool} {byteSep : UInt8 → Bool}

theorem ofNat_toNat_eq_iff {c d : Char} (hc : c.toNat < 128) (hd : d.toNat < 128) :
    UInt8.ofNat c.toNat = UInt8.ofNat d.toNat ↔ c = d := by
  refine ⟨fun h => Char.toNat_inj.mp ?_, fun h => by rw [h]⟩
  have hcodes := congrArg UInt8.toNat h
  rw [UInt8.toNat_ofNat', UInt8.toNat_ofNat'] at hcodes
  omega

theorem of_codes (hchar : ∀ c, sep c = true → c.toNat < 128)
    (hbyte : ∀ byte, byteSep byte = true → byte.toNat < 128)
    (hsame : ∀ c, c.toNat < 128 → byteSep (UInt8.ofNat c.toNat) = sep c) :
    SameCut sep byteSep where
  separator c hc :=
    ⟨_, utf8EncodeChar_of_lt (hchar c hc), (hsame c (hchar c hc)).trans hc⟩
  other c hc byte hmem := by
    rw [← Bool.not_eq_true]
    intro hsep
    have hcode := toNat_eq_of_mem_utf8EncodeChar (hbyte byte hsep) hmem
    have hother := hsame c (hcode ▸ hbyte byte hsep)
    rw [← hcode, UInt8.ofNat_toNat, hsep, hc] at hother
    contradiction

theorem foldr_attach {bytes : Bytes} (h : ∀ byte ∈ bytes, byteSep byte = false) (first : Bytes)
    (rest : List Bytes) :
    bytes.foldr (attach byteSep) (first :: rest) = (bytes ++ first) :: rest := by
  induction bytes with
  | nil => rfl
  | cons byte bytes ih =>
      obtain ⟨hbyte, hbytes⟩ := List.forall_mem_cons.mp h
      rw [List.foldr_cons, ih hbytes, attach_cons hbyte, List.cons_append]

/-- The bytes of a text are cut where the text is. -/
theorem splitOn_encode (h : SameCut sep byteSep) (cs : List Char) :
    splitOn byteSep (cs.flatMap String.utf8EncodeChar) =
      (splitOn sep cs).map (·.flatMap String.utf8EncodeChar) := by
  induction cs with
  | nil => rfl
  | cons c cs ih =>
      obtain ⟨piece, rest, hpieces⟩ := List.exists_cons_of_ne_nil (splitOn_ne_nil sep cs)
      rw [List.flatMap_cons, splitOn_cons, splitOn, List.foldr_append, ← splitOn, ih, hpieces]
      cases hc : sep c with
      | true =>
          obtain ⟨byte, hbyte, hbyteSep⟩ := h.separator c hc
          rw [hbyte, attach_separator hc]
          simp [attach_separator hbyteSep]
      | false =>
          rw [List.map_cons, foldr_attach (h.other c hc), attach_cons hc, List.map_cons,
            List.flatMap_cons]

theorem runs_encode (h : SameCut sep byteSep) (cs : List Char) :
    runs byteSep (cs.flatMap String.utf8EncodeChar) =
      (runs sep cs).map (·.flatMap String.utf8EncodeChar) := by
  rw [runs, h.splitOn_encode, List.filter_map, runs]
  refine congrArg _ (List.filter_congr fun piece _ => ?_)
  cases piece with
  | nil => rfl
  | cons c cs =>
      have hne : String.utf8EncodeChar c ≠ [] := String.utf8EncodeChar_ne_nil
      simp [hne]

end SameCut

end Text

namespace StampTable

open Text

/-! ## Lines of a file -/

/-- Whether a character divides the fields of a record. -/
def isBarChar (c : Char) : Bool := c == '|'

/-- Whether a character ends a record. -/
def endsLine (c : Char) : Bool := c == '\n' || c == '\r'

/-- The stamp that a line spells: a name, a bar and a timestamp. -/
def spelling? (line : List Char) : Option Stamp :=
  match splitOn isBarChar line with
  | [name, time] => (Timestamp.read? time).map (String.ofList name, ·)
  | _ => none

/-- The text of a record. -/
def recordText (stamp : Stamp) : List Char := stamp.1.toList ++ '|' :: Timestamp.text stamp.2

/-- A text without the byte order mark in front of it. -/
def unmarked : List Char → List Char
  | [] => []
  | c :: cs => if c = mark then cs else c :: cs

/-- The stamps that the file of a table spells, line by line. -/
def spelled (table : StampTable) : List Stamp :=
  (runs endsLine (unmarked (table.stamps.flatMap (recordText · ++ ['\n'])))).filterMap spelling?

/-- What the file of a table says of a name. The last line about it counts. -/
def spelled? (table : StampTable) (name : String) : Option Instant :=
  (table.spelled.reverse.find? (·.1 = name)).map Prod.snd

theorem sameCut_bar : SameCut isBarChar isBar := by
  have hbar : bar = UInt8.ofNat '|'.toNat := by decide
  refine .of_codes ?_ ?_ ?_
  · intro c hc
    rw [isBarChar, beq_iff_eq] at hc
    rw [hc]
    decide
  · intro byte hbyte
    rw [isBar, beq_iff_eq] at hbyte
    rw [hbyte]
    decide
  · intro c hc
    rw [Bool.eq_iff_iff, isBar, isBarChar, beq_iff_eq, beq_iff_eq, hbar,
      SameCut.ofNat_toNat_eq_iff hc (by decide)]

theorem sameCut_endsLine : SameCut endsLine endsRecord := by
  have hfeed : lineFeed = UInt8.ofNat '\n'.toNat := by decide
  have hreturn : carriageReturn = UInt8.ofNat '\r'.toNat := by decide
  refine .of_codes ?_ ?_ ?_
  · intro c hc
    rw [endsLine, Bool.or_eq_true, beq_iff_eq, beq_iff_eq] at hc
    rcases hc with rfl | rfl <;> decide
  · intro byte hbyte
    rw [endsRecord, Bool.or_eq_true, beq_iff_eq, beq_iff_eq] at hbyte
    rcases hbyte with rfl | rfl <;> decide
  · intro c hc
    rw [Bool.eq_iff_iff, endsRecord, endsLine, Bool.or_eq_true, Bool.or_eq_true, beq_iff_eq,
      beq_iff_eq, beq_iff_eq, beq_iff_eq, hfeed, hreturn,
      SameCut.ofNat_toNat_eq_iff hc (by decide), SameCut.ofNat_toNat_eq_iff hc (by decide)]

theorem bytes_eq_flatMap (table : StampTable) :
    table.bytes =
      (table.stamps.flatMap (recordText · ++ ['\n'])).flatMap String.utf8EncodeChar := by
  have hbar : String.utf8EncodeChar '|' = [bar] := by decide
  have hfeed : String.utf8EncodeChar '\n' = [lineFeed] := by decide
  rw [bytes, List.flatMap_assoc]
  congr 1
  funext stamp
  simp [recordBytes, recordText, encode_eq_flatMap, hbar, hfeed]

theorem dropMark_encode (cs : List Char) :
    dropMark (cs.flatMap String.utf8EncodeChar) =
      (unmarked cs).flatMap String.utf8EncodeChar := by
  have hencode : ∀ cs : List Char, cs.flatMap String.utf8EncodeChar = encode (String.ofList cs) :=
    fun cs => by rw [encode_eq_flatMap, String.toList_ofList]
  rw [hencode, hencode]
  cases cs with
  | nil => rfl
  | cons c cs =>
      by_cases hc : c = mark
      · rw [hc, encode_mark_cons, unmarked, if_pos rfl]
        rfl
      · rw [unmarked, if_neg hc]
        unfold dropMark
        split
        next rest hbytes =>
          rw [← List.append_nil (encode _)] at hbytes
          exact absurd (eq_mark_of_encode_eq hbytes) hc
        next => rfl

theorem addTo_ofBytes_encode (table : StampTable) (line : List Char) :
    Record.addTo table (Record.ofBytes (line.flatMap String.utf8EncodeChar)) =
      match spelling? line with
      | some stamp => table.insert stamp.1 stamp.2
      | none => table := by
  have hdecode : ∀ cs : List Char, decode? (cs.flatMap String.utf8EncodeChar) =
      some (String.ofList cs) := fun cs => by
    rw [← decode?_encode, encode_eq_flatMap, String.toList_ofList]
  rw [Record.ofBytes, sameCut_bar.splitOn_encode, spelling?]
  rcases splitOn isBarChar line with _ | ⟨name, _ | ⟨time, _ | ⟨more, rest⟩⟩⟩
  · rfl
  · rfl
  · simp only [List.map_cons, List.map_nil, Record.ofFields, hdecode, String.toList_ofList]
    cases Timestamp.read? time <;> rfl
  · rfl

/-- The last of the stamps for a name counts. -/
theorem get?_foldl_insert (stamps : List Stamp) (table : StampTable) (name : String) :
    (stamps.foldl (fun table stamp => table.insert stamp.1 stamp.2) table).get? name =
      ((stamps.reverse.find? (·.1 = name)).map Prod.snd).or (table.get? name) := by
  induction stamps generalizing table with
  | nil => rfl
  | cons stamp stamps ih =>
      rw [List.foldl_cons, ih, List.reverse_cons, List.find?_append, get?_insert]
      cases stamps.reverse.find? (·.1 = name) with
      | some last => rfl
      | none => by_cases hname : stamp.1 = name <;> simp [hname]

/-- A table that is read back says of each name what its file spells. -/
theorem get?_ofBytes_eq_spelled? (table : StampTable) (name : String) :
    (ofBytes table.bytes).get? name = table.spelled? name := by
  have hlines : ∀ (lines : List (List Char)) (table : StampTable),
      ((lines.map (·.flatMap String.utf8EncodeChar)).map Record.ofBytes).foldl Record.addTo table =
        (lines.filterMap spelling?).foldl (fun table stamp => table.insert stamp.1 stamp.2)
          table := by
    intro lines
    induction lines with
    | nil => exact fun _ => rfl
    | cons line lines ih =>
        intro table
        rw [List.map_cons, List.map_cons, List.foldl_cons, addTo_ofBytes_encode, ih,
          List.filterMap_cons]
        cases spelling? line <;> rfl
  rw [ofBytes, records, bytes_eq_flatMap, dropMark_encode, sameCut_endsLine.runs_encode, hlines,
    get?_foldl_insert, get?_empty, Option.or_none]
  rfl

/-! ## Names that keep to their lines -/

/-- A record that keeps to its line spells a stamp for its own name, if any. -/
theorem name_of_spelling? {stamp other : Stamp} (h : spelling? (recordText stamp) = some other) :
    other.1 = stamp.1 := by
  have hbar : isBarChar '|' = true := rfl
  have htime : splitOn isBarChar (Timestamp.text stamp.2) = [Timestamp.text stamp.2] := by
    refine splitOn_eq_singleton fun c hc => ?_
    rw [isBarChar, beq_eq_false_iff_ne]
    rintro rfl
    exact not_mem_text (by decide) stamp.2 hc
  rw [spelling?, recordText, splitOn_append_separator hbar, htime] at h
  by_cases hname : '|' ∈ stamp.1.toList
  · -- A bar in the name makes at least three fields.
    obtain ⟨front, rest, hsplit⟩ := List.append_of_mem hname
    obtain ⟨first, more, hfirst⟩ := List.exists_cons_of_ne_nil (splitOn_ne_nil isBarChar front)
    obtain ⟨second, others, hsecond⟩ := List.exists_cons_of_ne_nil (splitOn_ne_nil isBarChar rest)
    rw [hsplit, splitOn_append_separator hbar, hfirst, hsecond] at h
    cases more <;> simp at h
  · have hone : splitOn isBarChar stamp.1.toList = [stamp.1.toList] := by
      refine splitOn_eq_singleton fun c hc => ?_
      rw [isBarChar, beq_eq_false_iff_ne]
      rintro rfl
      exact hname hc
    rw [hone] at h
    obtain ⟨seen, -, rfl⟩ := Option.map_eq_some_iff.mp h
    exact String.ofList_toList

theorem runs_flatMap_recordText {stamps : List Stamp}
    (h : ∀ stamp ∈ stamps, '\n' ∉ stamp.1.toList ∧ '\r' ∉ stamp.1.toList) :
    runs endsLine (stamps.flatMap (recordText · ++ ['\n'])) = stamps.map recordText := by
  induction stamps with
  | nil => rfl
  | cons stamp stamps ih =>
      obtain ⟨⟨hfeed, hreturn⟩, hrest⟩ := List.forall_mem_cons.mp h
      have hline : ∀ c ∈ recordText stamp, endsLine c = false := by
        intro c hc
        rw [endsLine, Bool.or_eq_false_iff, beq_eq_false_iff_ne, beq_eq_false_iff_ne]
        rcases List.mem_append.mp hc with hname | htime
        · exact ⟨fun heq => hfeed (heq ▸ hname), fun heq => hreturn (heq ▸ hname)⟩
        · rcases List.mem_cons.mp htime with rfl | htime
          · decide
          · constructor <;> rintro rfl <;> exact not_mem_text (by decide) stamp.2 htime
      have hne : recordText stamp ≠ [] := by simp [recordText]
      rw [List.flatMap_cons, List.append_assoc, List.singleton_append,
        runs_append_separator (by decide), runs_eq_singleton hne hline, ih hrest]
      rfl

theorem unmarked_eq_self {table : StampTable}
    (h : ∀ stamp ∈ table.stamps.head?, ¬ isMarked stamp.1) :
    unmarked (table.stamps.flatMap (recordText · ++ ['\n'])) =
      table.stamps.flatMap (recordText · ++ ['\n']) := by
  cases hstamps : table.stamps with
  | nil => rfl
  | cons stamp stamps =>
      have hunmarked : stamp.1.toList.head? ≠ some mark := h stamp (by simp [hstamps])
      rw [List.flatMap_cons, recordText]
      cases hname : stamp.1.toList with
      | nil =>
          have hbar : ¬ '|' = mark := by decide
          simp [unmarked, hbar]
      | cons c cs =>
          rw [hname, List.head?_cons] at hunmarked
          exact if_neg fun hc => hunmarked (congrArg some hc)

/-- A file in which every name keeps to its line spells no stamp for a name that
the table does not know. -/
theorem spelled?_eq_none {table : StampTable} {name : String}
    (hends : ∀ stamp ∈ table.stamps, '\n' ∉ stamp.1.toList ∧ '\r' ∉ stamp.1.toList)
    (hmark : ∀ stamp ∈ table.stamps.head?, ¬ isMarked stamp.1) (hname : table.get? name = none) :
    table.spelled? name = none := by
  rw [spelled?, Option.map_eq_none_iff, List.find?_eq_none]
  intro other hother hsame
  rw [List.mem_reverse, spelled, unmarked_eq_self hmark, runs_flatMap_recordText hends,
    List.mem_filterMap] at hother
  obtain ⟨line, hline, hspelling⟩ := hother
  obtain ⟨stamp, hstamp, rfl⟩ := List.mem_map.mp hline
  have hknown := get?_of_mem_stamps hstamp
  rw [← name_of_spelling? hspelling, of_decide_eq_true hsame, hname] at hknown
  contradiction

end StampTable

namespace Batch

open FileTree Parley.Path StampTable

-- A path that is joined is known by its lemmas. Its text is not computed.
attribute [local irreducible] Path.join

/-- Whether the stored stamps are read as if they said of a script that it has
not changed. -/
def Outcome.vouchesFor (outcome : Outcome) (source : Source) : Prop :=
  ∃ seen, outcome.snapshot.spelled? source.key = some seen ∧
    seen.seconds = source.modified.seconds

section

variable {config : Config} {planned executed later : FileTree} {input output directory : Location}
  {table : StampTable} {scripts : List Source} {outcome : Outcome}

/-- A script is passed over next time if the stored stamps vouch for it. -/
theorem Completed.isFresh_previous_iff_vouchesFor
    (h : Completed config planned executed later input output directory table scripts outcome)
    (source : Source) :
    (previous config later).1.isFresh source.key source.modified = true ↔
      outcome.vouchesFor source := by
  rw [isFresh_iff, h.previous_later, storedTable_congr (h.lookup _),
    storedTable_persist h.tableDir_executed h.persisted, get?_ofBytes_eq_spelled?]
  rfl

/-- A task that failed is that of a script that the stored stamps leave out. -/
theorem Completed.exists_source_of_failed
    (h : Completed config planned executed later input output directory table scripts outcome)
    (hforget : config.rememberFailures = false) {result : TaskResult}
    (hresult : result ∈ outcome.results) (hfailed : result.isOk = false) :
    ∃ source ∈ scripts, source.path = result.task.input ∧ result.task = config.task source.name ∧
      outcome.snapshot.get? source.key = none := by
  rw [h.results, verdicts] at hresult
  obtain ⟨name, hname, rfl⟩ := List.mem_map.mp hresult
  have hfailure : name ∈ failedNames outcome.results := by
    rw [h.failedNames_results]
    exact List.mem_filter.mpr ⟨hname, by simpa [TaskResult.isOk] using hfailed⟩
  obtain ⟨source, hsource, rfl, -⟩ := mem_staleNames_iff.mp hname
  obtain ⟨-, -, contents, modified, -, hof⟩ :=
    (mem_sources_iff h.sited.wellFormed h.sited.input h.listed).mp hsource
  refine ⟨source, hsource, congrArg Source.path hof, rfl, ?_⟩
  rw [h.get?_snapshot, if_pos ⟨hforget, List.mem_map_of_mem hfailure⟩]

/-- Stamps whose names keep to their lines do not vouch for a script that they
leave out. -/
theorem not_vouchesFor {source : Source} (hunstored : outcome.snapshot.get? source.key = none)
    (hends : ∀ name, outcome.snapshot.get? name ≠ none → '\n' ∉ name.toList ∧ '\r' ∉ name.toList)
    (hmark : ∀ name, outcome.snapshot.isLeast name → ¬ isMarked name) :
    ¬ outcome.vouchesFor source := by
  have hnone : outcome.snapshot.spelled? source.key = none := by
    refine spelled?_eq_none (fun stamp hstamp => ?_) (fun stamp hstamp => ?_) hunstored
    · exact hends stamp.1 (by rw [get?_of_mem_stamps hstamp]; simp)
    · exact hmark stamp.1 (isLeast_iff.mpr ⟨stamp.2, hstamp⟩)
  rintro ⟨seen, hseen, -⟩
  rw [hnone] at hseen
  contradiction

/-- A script that failed is listed next time by what the stored stamps vouch for. -/
theorem Completed.failed_later
    (h : Completed config planned executed later input output directory table scripts outcome)
    (hforget : config.rememberFailures = false) {result : TaskResult}
    (hresult : result ∈ outcome.results) (hfailed : result.isOk = false) {next : Plan}
    (hnext : next = .ofSources config (previous config later).1 scripts) :
    ∃ source ∈ scripts, source.path = result.task.input ∧
      (result.task ∈ next.tasks ↔ ¬ outcome.vouchesFor source) ∧
      (source.path ∈ next.unchanged ↔ outcome.vouchesFor source) ∧
      outcome.snapshot.get? source.key = none := by
  obtain ⟨source, hsource, hpath, htask, hunstored⟩ :=
    h.exists_source_of_failed hforget hresult hfailed
  have hfresh := h.isFresh_previous_iff_vouchesFor source
  refine ⟨source, hsource, hpath, ?_, ?_, hunstored⟩
  · rw [hnext, htask, task_mem_tasks_iff h.wellFormed h.sited_later.input h.sources_later hsource,
      ← hfresh, Bool.not_eq_true]
  · rw [hnext, path_mem_unchanged_iff h.wellFormed h.sited_later.input h.sources_later hsource,
      hfresh]

end

/-- A script that failed is tried again unless the stored stamps vouch for it by
mistake. They do not if all names that are stored keep to their lines: they do
not hold the end of a line, and the least one does not begin with the byte order
mark. -/
theorem failed_mem_tasks_iff {config : Config} {tree : FileTree} (hwf : tree.WellFormed)
    {outcome : Outcome} (hrun : (run config tree).result = .ok outcome)
    (hforget : config.rememberFailures = false) {result : TaskResult}
    (hresult : result ∈ outcome.results) (hfailed : result.isOk = false) :
    ∃ next source scripts, (plan config (run config tree).tree).value = .ok next ∧
      sources (run config tree).tree config.inputDir = .ok scripts ∧ source ∈ scripts ∧
      source.path = result.task.input ∧
      (result.task ∈ next.tasks ↔ ¬ outcome.vouchesFor source) ∧
      (source.path ∈ next.unchanged ↔ outcome.vouchesFor source) ∧
      ((∀ name, outcome.snapshot.get? name ≠ none → '\n' ∉ name.toList ∧ '\r' ∉ name.toList) →
        (∀ name, outcome.snapshot.isLeast name → ¬ isMarked name) →
        result.task ∈ next.tasks ∧ source.path ∉ next.unchanged) := by
  obtain ⟨planned, executed, input, output, directory, table, scripts, h, hinput, hprepare, hne,
    -⟩ := completed_of_run hwf hrun (fun _ => rfl) rfl
  have hplan := h.plan_later hinput hprepare hne
  obtain ⟨source, hsource, hpath, htasks, hunchanged, hunstored⟩ :=
    h.failed_later hforget hresult hfailed rfl
  refine ⟨_, source, scripts, by rw [hplan], h.sources_later, hsource, hpath, htasks, hunchanged,
    ?_⟩
  intro hends hmark
  have hnot := not_vouchesFor hunstored hends hmark
  exact ⟨htasks.mpr hnot, mt hunchanged.mp hnot⟩

theorem failed_mem_tasks_mixedScripts :
    ∃ outcome, (run mixedConfig mixedScripts).result = .ok outcome ∧
      ∃ result ∈ outcome.results, result.isOk = false ∧ ∃ next,
        (plan mixedConfig (run mixedConfig mixedScripts).tree).value = .ok next ∧
          result.task ∈ next.tasks ∧ result.task.input ∉ next.unchanged := by
  have hwf : mixedScripts.WellFormed := .of_entries (by decide +kernel) (by decide +kernel)
  have hfacts : (run mixedConfig mixedScripts).result.toOption.any (fun outcome =>
      outcome.results.any (!·.isOk) && outcome.snapshot.stamps.all fun stamp =>
        decide (isStorable stamp.1)) = true := by
    unfold run
    rw [plan_mixedScripts]
    decide +kernel
  cases hrun : (run mixedConfig mixedScripts).result with
  | error fault => exact absurd hrun (result_run_mixedScripts fault)
  | ok outcome =>
      simp only [hrun, Except.toOption, Option.any_some, Bool.and_eq_true, List.any_eq_true,
        List.all_eq_true, Bool.not_eq_true', decide_eq_true_eq] at hfacts
      obtain ⟨⟨result, hresult, hfailed⟩, hstorable⟩ := hfacts
      have hname : ∀ name, outcome.snapshot.get? name ≠ none → isStorable name := by
        intro name hknown
        obtain ⟨seen, hseen⟩ := Option.ne_none_iff_exists'.mp hknown
        exact hstorable (name, seen) (mem_stamps_iff.mpr hseen)
      obtain ⟨next, source, scripts, hnext, -, -, hpath, -, -, hretried⟩ :=
        failed_mem_tasks_iff hwf hrun rfl hresult hfailed
      obtain ⟨htask, hunchanged⟩ := hretried (fun name hknown => (hname name hknown).1.2)
        fun name hleast => (hname name hleast.1).2
      exact ⟨outcome, rfl, result, hresult, hfailed, next, hnext, htask, hpath ▸ hunchanged⟩

/-- A directory with a script that is none and a script whose name has a second
line, which is the name of the other one. -/
def twoLineName : FileTree where
  entries :=
    [(["in"], .directory),
      (["p.oud", "in"], .file (Text.encode "(oops)\n") ⟨1000000000, 0⟩),
      (["x\np.oud", "in"],
        .file (Text.encode "(node s start)\n(text \"Hi\" quit)\n") ⟨1000000000, 0⟩)]
  nodup_locations := by decide +kernel
  home := []
  clock := ⟨1700000100, 0⟩

/-- The scripts of this directory, as they are listed. -/
def twoLineSources : List Source :=
  [Source.of mixedConfig.inputDir "p.oud" ⟨1000000000, 0⟩,
    Source.of mixedConfig.inputDir "x\np.oud" ⟨1000000000, 0⟩]

theorem plan_twoLineName : plan mixedConfig twoLineName =
    ⟨(prepare mixedConfig twoLineName).1,
      (previous mixedConfig (prepare mixedConfig twoLineName).1).2,
      .ok (.ofSources mixedConfig (previous mixedConfig (prepare mixedConfig twoLineName).1).1
        twoLineSources)⟩ := by
  have hfind : (prepare mixedConfig twoLineName).1.find mixedConfig.inputDir =
      .ok (["in"], .directory) := by decide +kernel
  have hnames : ((prepare mixedConfig twoLineName).1.names ["in"]).Perm
      ["p.oud", "x\np.oud"] := by decide +kernel
  refine plan_of_sources (by decide +kernel) (Prod.ext rfl ?_) ?_ (by simp [twoLineSources])
  · decide +kernel
  · rw [sources_of_perm hfind hnames (by decide +kernel)]
    decide +kernel

/-- The stamp of a name with two lines vouches for the script that its second
line names. That script failed, but the next plan passes over it. -/
theorem failed_mem_unchanged_twoLineName :
    ∃ outcome next, (run mixedConfig twoLineName).result = .ok outcome ∧
      outcome.failures.map Prod.fst = [mixedConfig.inputDir.join ⟨"p.oud"⟩] ∧
      (plan mixedConfig (run mixedConfig twoLineName).tree).value = .ok next ∧
      next.tasks.map Task.input = [mixedConfig.inputDir.join ⟨"x\np.oud"⟩] ∧
      next.unchanged = [mixedConfig.inputDir.join ⟨"p.oud"⟩] := by
  have hwf : twoLineName.WellFormed := .of_entries (by decide +kernel) (by decide +kernel)
  have htree := tree_run (congrArg Effect.value plan_twoLineName)
  rw [plan_twoLineName] at htree
  have hfailures : ((run mixedConfig twoLineName).result.toOption.map fun outcome =>
      outcome.failures.map Prod.fst) = some [mixedConfig.inputDir.join ⟨"p.oud"⟩] := by
    unfold run
    rw [plan_twoLineName]
    decide +kernel
  cases hrun : (run mixedConfig twoLineName).result with
  | error fault => simp [hrun, Except.toOption] at hfailures
  | ok outcome =>
      obtain ⟨planned, executed, input, output, directory, table, scripts, h, hinput, hprepare,
        hne, -⟩ := completed_of_run hwf hrun (fun _ => rfl) rfl
      have hscripts : scripts = twoLineSources := by
        have hfind : (run mixedConfig twoLineName).tree.find mixedConfig.inputDir =
            .ok (["in"], .directory) := by
          rw [htree]
          decide +kernel
        have hnames : ((run mixedConfig twoLineName).tree.names ["in"]).Perm
            ["p.oud", "x\np.oud"] := by
          rw [htree]
          decide +kernel
        have hlisted := h.sources_later
        rw [sources_of_perm hfind hnames (by decide +kernel), htree] at hlisted
        rw [← Except.ok.inj hlisted]
        decide +kernel
      subst hscripts
      refine ⟨outcome, _, rfl, ?_, congrArg Effect.value (h.plan_later hinput hprepare hne), ?_, ?_⟩
      · simpa [hrun, Except.toOption] using hfailures
      · rw [htree]
        decide +kernel
      · rw [htree]
        decide +kernel

end Batch

end Parley
