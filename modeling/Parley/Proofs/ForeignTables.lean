import Parley.Proofs.Records

/-!
# Files of stamps from elsewhere

A file that was not written here may spell its instants with offsets and may
hold records that say nothing. Reading it and writing what was read gives a file
in the one form that is written here. This loses only instants that leave the
years with four digits when their offset is taken off, and a second time
nothing.
-/

namespace Parley

/-! ## Offsets across the first and the last year -/

/-- The days of the years with four digits. -/
theorem Date.yearOf_plain_iff {day : Int} :
    (0 ≤ yearOf day ∧ yearOf day ≤ 9999) ↔ 0 ≤ day ∧ day < 3652425 := by
  have hbegin : 0 ≤ yearOf day ↔ daysBeforeYear 0 ≤ day := le_yearOf_iff
  have hend : 10000 ≤ yearOf day ↔ daysBeforeYear 10000 ≤ day := le_yearOf_iff
  have hdays : daysBeforeYear 0 = 0 ∧ daysBeforeYear 10000 = 3652425 := by decide
  omega

namespace Timestamp

/-- An offset is shorter than a day. -/
theorem Zone.offset_bounds (zone : Zone) : -86400 < zone.offset ∧ zone.offset < 86400 := by
  cases zone with
  | capital => decide
  | small => decide
  | signed sign hours minutes =>
      have hhours := hours.isLt
      have hminutes := minutes.isLt
      cases sign <;> simp only [Zone.offset, Sign.factor] <;> omega

namespace Spelling

/-- The number of the day that is spelled, counted from the year zero. -/
def localDay (spelling : Spelling) : Int := spelling.date.number + Date.epoch

/-- The number of the day on which the instant falls. -/
def day (spelling : Spelling) : Int :=
  spelling.instant.seconds / Instant.secondsPerDay + Date.epoch

theorem yearOf_localDay (spelling : Spelling) :
    Date.yearOf spelling.localDay = spelling.date.year :=
  Date.yearOf_number spelling.exists_date

theorem yearOf_day (spelling : Spelling) :
    Date.yearOf spelling.day = spelling.instant.date.year := by
  rw [Instant.date, Date.year_ofNumber, day]

/-- The instant falls on the day that is spelled or, with an offset, on the one
before it or behind it. -/
theorem day_cases (spelling : Spelling) :
    spelling.day = spelling.localDay ∨
      (spelling.day = spelling.localDay - 1 ∧ 0 < spelling.zone.offset) ∨
      (spelling.day = spelling.localDay + 1 ∧ spelling.zone.offset < 0) := by
  have hclock := spelling.clock.secondOfDay_lt
  have hoffset := spelling.zone.offset_bounds
  simp only [day, localDay, instant, Instant.secondsPerDay]
  omega

/-- Whether the offset takes the instant over the start of the first year with
four digits or over the end of the last one. -/
def isMovedOut (spelling : Spelling) : Prop :=
  (spelling.date.year = 0 ∧ spelling.instant.date.year = -1 ∧ 0 < spelling.zone.offset) ∨
    (spelling.date.year = 9999 ∧ spelling.instant.date.year = 10000 ∧ spelling.zone.offset < 0)

theorem isMovedOut_of_not_hasPlainYear {spelling : Spelling}
    (h : ¬ spelling.instant.hasPlainYear) : spelling.isMovedOut := by
  have hlocal := Date.yearOf_plain_iff.mp (spelling.yearOf_localDay ▸ spelling.plain_year)
  have hday : ¬ (0 ≤ spelling.day ∧ spelling.day < 3652425) := mt Date.yearOf_plain_iff.mpr h
  rw [isMovedOut, ← yearOf_localDay, ← yearOf_day]
  rcases spelling.day_cases with hsame | ⟨hbefore, hoffset⟩ | ⟨hbehind, hoffset⟩
  · rw [hsame] at hday
    exact absurd hlocal hday
  · obtain ⟨hfirst, hearly⟩ : spelling.localDay = 0 ∧ spelling.day = -1 := by omega
    rw [hfirst, hearly]
    exact .inl ⟨by decide, by decide, hoffset⟩
  · obtain ⟨hlast, hlate⟩ : spelling.localDay = 3652424 ∧ spelling.day = 3652425 := by omega
    rw [hlast, hlate]
    exact .inr ⟨by decide, by decide, hoffset⟩

end Spelling

/-- A whole second is read back from its text if its year has four digits. -/
theorem read?_text_eq_some_iff {instant seen : Instant} (hnanos : instant.nanos = 0) :
    read? (text instant) = some seen ↔ instant = seen ∧ seen.hasPlainYear := by
  by_cases hyear : instant.hasPlainYear
  · have hlimit : instant.nanos < Instant.nanosPerSecond := by
      rw [hnanos]
      decide
    have hwhole : instant.wholeSecond = instant := by rw [Instant.wholeSecond, ← hnanos]
    rw [read?_text hlimit hyear, hwhole, Option.some.injEq]
    exact (and_iff_left_of_imp fun h => h ▸ hyear).symm
  · rw [read?_text_of_not_hasPlainYear hyear]
    refine iff_of_false (by simp) ?_
    rintro ⟨rfl, h⟩
    exact hyear h

end Timestamp

namespace StampTable

open Text Timestamp

/-! ## Reading and writing again -/

/-- What is written in place of a file that was read. -/
def resaved (bytes : Bytes) : Bytes := (ofBytes bytes).bytes

/-- Whether no name begins with the byte order mark. -/
def isUnmarked (table : StampTable) : Prop :=
  ∀ name seen, table.get? name = some seen → ¬ isMarked name

theorem isSeparable_of_get?_ofBytes {bytes : Bytes} {name : String} {seen : Instant}
    (h : (ofBytes bytes).get? name = some seen) : isSeparable name ∧ seen.nanos = 0 :=
  isSeparable_of_mem_records (mem_records_of_get?_ofBytes h)

/-- What was read is read again if its year has four digits. -/
theorem get?_ofBytes_resaved {bytes : Bytes} (h : (ofBytes bytes).isUnmarked) {name : String}
    {seen : Instant} :
    (ofBytes (resaved bytes)).get? name = some seen ↔
      (ofBytes bytes).get? name = some seen ∧ seen.hasPlainYear := by
  have hnames : ∀ stamp ∈ (ofBytes bytes).stamps, isSeparable stamp.1 :=
    fun stamp hstamp => (isSeparable_of_get?_ofBytes (get?_of_mem_stamps hstamp)).1
  have hmark : ∀ stamp ∈ (ofBytes bytes).stamps.head?, ¬ isMarked stamp.1 :=
    fun stamp hhead => h _ _ (get?_of_mem_stamps (List.mem_of_head? hhead))
  rw [resaved, get?_ofBytes_bytes hnames hmark]
  cases hsaid : (ofBytes bytes).get? name with
  | none => simp
  | some modified =>
      rw [Option.bind_some, Option.some.injEq]
      exact read?_text_eq_some_iff (isSeparable_of_get?_ofBytes hsaid).2

theorem isUnmarked_resaved {bytes : Bytes} (h : (ofBytes bytes).isUnmarked) :
    (ofBytes (resaved bytes)).isUnmarked :=
  fun name seen hsaid => h name seen ((get?_ofBytes_resaved h).mp hsaid).1

/-- What is written in place of a file is read as it was written. -/
theorem ofBytes_resaved_resaved {bytes : Bytes} (h : (ofBytes bytes).isUnmarked) :
    ofBytes (resaved (resaved bytes)) = ofBytes (resaved bytes) := by
  apply eq_of_get?_eq
  intro name
  apply Option.ext
  intro seen
  rw [get?_ofBytes_resaved (isUnmarked_resaved h)]
  refine and_iff_left_of_imp fun hsaid => ?_
  exact ((get?_ofBytes_resaved h).mp hsaid).2

/-- A file of any bytes says names without separators and whole seconds. When it
is read and written, exactly the years with four digits are kept. So what is
lost was spelled with an offset that takes it out of these years, and reading
and writing once more changes nothing. -/
theorem ofBytes_resaved {bytes : Bytes} (h : (ofBytes bytes).isUnmarked) :
    (∀ name seen, (ofBytes bytes).get? name = some seen → isSeparable name ∧ seen.nanos = 0) ∧
      (∀ name seen, (ofBytes (resaved bytes)).get? name = some seen ↔
        (ofBytes bytes).get? name = some seen ∧ seen.hasPlainYear) ∧
      (∀ name seen, (ofBytes bytes).get? name = some seen →
        (ofBytes (resaved bytes)).get? name = none →
          ∃ spelling : Spelling, recordOf name spelling ∈ runs endsRecord (dropMark bytes) ∧
            spelling.instant = seen ∧ spelling.isMovedOut) ∧
      ofBytes (resaved (resaved bytes)) = ofBytes (resaved bytes) := by
  refine ⟨fun name seen => isSeparable_of_get?_ofBytes, fun name seen => get?_ofBytes_resaved h,
    ?_, ofBytes_resaved_resaved h⟩
  intro name seen hsaid hlost
  obtain ⟨record, hmem, -, spelling, rfl, rfl⟩ := exists_isRecord_of_get?_ofBytes hsaid
  refine ⟨spelling, hmem, rfl, Spelling.isMovedOut_of_not_hasPlainYear fun hyear => ?_⟩
  have hkept := (get?_ofBytes_resaved h).mpr ⟨hsaid, hyear⟩
  rw [hlost] at hkept
  contradiction

/-- A file with a byte order mark, a stamp of the last minute of the year before
zero, one of the year 10000, a name that is no text and a stamp with an offset. -/
def foreignStamps : Bytes :=
  encode "\uFEFFearly.oud|0000-01-01T00:00:00+00:01\r\n" ++
    encode "late.oud|9999-12-31 23:59:59.9\u221200:01\n" ++
    0xFF :: encode ".oud|2020-09-13T12:26:40Z\nkept.oud|2020-09-13t14:26:40+02:00"

theorem stamps_foreignStamps :
    (ofBytes foreignStamps).stamps =
      [("early.oud", ⟨-62167219260, 0⟩), ("kept.oud", ⟨1600000000, 0⟩),
        ("late.oud", ⟨253402300859, 0⟩)] := by
  decide +kernel

theorem ofBytes_resaved_foreignStamps :
    (ofBytes foreignStamps).isUnmarked ∧
      (ofBytes foreignStamps).get? "early.oud" = some ⟨-62167219260, 0⟩ ∧
      (ofBytes (resaved foreignStamps)).get? "early.oud" = none ∧
      (ofBytes (resaved foreignStamps)).get? "kept.oud" = some ⟨1600000000, 0⟩ ∧
      (∃ spelling : Spelling, spelling.instant = ⟨-62167219260, 0⟩ ∧ spelling.isMovedOut) ∧
      ofBytes (resaved (resaved foreignStamps)) = ofBytes (resaved foreignStamps) := by
  have hunmarked : (ofBytes foreignStamps).isUnmarked := by
    have hnames : ∀ stamp ∈ (ofBytes foreignStamps).stamps, ¬ isMarked stamp.1 := by
      rw [stamps_foreignStamps]
      decide
    intro name seen hsaid
    exact hnames (name, seen) (mem_stamps_iff.mpr hsaid)
  have hearly : (ofBytes foreignStamps).get? "early.oud" = some ⟨-62167219260, 0⟩ := by
    rw [get?, stamps_foreignStamps]
    decide
  have hlater : (ofBytes foreignStamps).get? "kept.oud" = some ⟨1600000000, 0⟩ := by
    rw [get?, stamps_foreignStamps]
    decide
  obtain ⟨-, hkept, hmoved, hagain⟩ := ofBytes_resaved hunmarked
  have hlost : (ofBytes (resaved foreignStamps)).get? "early.oud" = none := by
    apply Option.eq_none_iff_forall_ne_some.mpr
    intro seen hsaid
    obtain ⟨hsame, hyear⟩ := (hkept "early.oud" seen).mp hsaid
    rw [← Option.some.inj (hearly.symm.trans hsame)] at hyear
    exact absurd hyear (by decide)
  obtain ⟨spelling, -, hinstant, hout⟩ := hmoved "early.oud" _ hearly hlost
  exact ⟨hunmarked, hearly, hlost, (hkept _ _).mpr ⟨hlater, by decide⟩,
    ⟨spelling, hinstant, hout⟩, hagain⟩

end StampTable

end Parley
