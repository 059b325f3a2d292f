import Parley.Proofs.Timestamps

/-!
# Spellings of an instant

A timestamp is put together from a date and a time of the day, a separator, an
offset and perhaps a fraction of a second. The reader takes the texts that are
spelled from such parts and no others, and understands them as the local time
less the offset. So there are many spellings of an instant, one for each offset
and for each choice that the format leaves open, and all of them are read as
that instant, on whatever day of the calendar the local time falls.
-/

namespace Parley

namespace Text

theorem expect?_eq_some_iff {c : Char} {cs rest : List Char} :
    expect? c cs = some rest ↔ cs = c :: rest := by
  cases cs with
  | nil => simp [expect?]
  | cons d cs => by_cases hd : d = c <;> simp [expect?, hd]

theorem digitValue?_eq_some_iff {c : Char} {d : Nat} :
    digitValue? c = some d ↔ d < 10 ∧ c = digit d := by
  constructor
  · intro h
    unfold digitValue? at h
    split at h
    next hdigit =>
      obtain rfl := Option.some.inj h
      have hbounds : 48 ≤ c.toNat ∧ c.toNat ≤ 57 := by
        simpa [Char.isDigit, UInt32.le_iff_toNat_le] using hdigit
      have hzero : '0'.toNat = 48 := rfl
      refine ⟨by omega, ?_⟩
      have hcode : '0'.toNat + (c.toNat - '0'.toNat) % 10 = c.toNat := by omega
      rw [digit, hcode, Char.ofNat_toNat]
    next => contradiction
  · rintro ⟨hd, rfl⟩
    rw [digitValue?_digit, Nat.mod_eq_of_lt hd]

theorem digit_congr {n m : Nat} (h : n % 10 = m % 10) : digit n = digit m := by
  rw [digit, digit, h]

/-- The digits of a number, first one first. -/
theorem fixedDigits_eq_cons {width n : Nat} (d : Nat) (hn : n < Nat.pow 10 width) :
    fixedDigits (width + 1) (d * Nat.pow 10 width + n) = digit d :: fixedDigits width n := by
  induction width generalizing n with
  | zero =>
      have hzero : n = 0 := Nat.lt_one_iff.mp hn
      have hone : d * Nat.pow 10 0 = d := Nat.mul_one d
      rw [hzero, hone]
      rfl
  | succ width ih =>
      have hpow : Nat.pow 10 (width + 1) = Nat.pow 10 width * 10 := rfl
      rw [hpow] at hn ⊢
      have hquotient : (d * (Nat.pow 10 width * 10) + n) / 10 = d * Nat.pow 10 width + n / 10 := by
        rw [← Nat.mul_assoc]
        omega
      have hlast : digit (d * (Nat.pow 10 width * 10) + n) = digit n := by
        refine digit_congr ?_
        rw [← Nat.mul_assoc]
        omega
      rw [fixedDigits, hquotient, ih (by omega), hlast, List.cons_append, fixedDigits]

theorem eq_fixedDigits_of_readDigits {width n m : Nat} {cs rest : List Char}
    (h : readDigits width m cs = some (n, rest)) :
    ∃ k, k < Nat.pow 10 width ∧ n = m * Nat.pow 10 width + k ∧
      cs = fixedDigits width k ++ rest := by
  induction width generalizing m cs with
  | zero =>
      obtain ⟨rfl, rfl⟩ := Prod.mk.inj (Option.some.inj h)
      exact ⟨0, Nat.one_pos, (Nat.mul_one m).symm, rfl⟩
  | succ width ih =>
      cases cs with
      | nil => contradiction
      | cons c cs =>
          obtain ⟨d, hd, hrest⟩ := Option.bind_eq_some_iff.mp h
          obtain ⟨hten, rfl⟩ := digitValue?_eq_some_iff.mp hd
          obtain ⟨k, hk, rfl, rfl⟩ := ih hrest
          have hpow : Nat.pow 10 (width + 1) = Nat.pow 10 width * 10 := rfl
          refine ⟨d * Nat.pow 10 width + k, ?_, ?_, ?_⟩
          · have hle : d * Nat.pow 10 width ≤ 9 * Nat.pow 10 width :=
              Nat.mul_le_mul_right _ (Nat.le_of_lt_succ hten)
            omega
          · rw [hpow, Nat.add_mul, Nat.mul_comm 10 m, Nat.mul_assoc, Nat.mul_comm 10, Nat.add_assoc]
          · rw [fixedDigits_eq_cons d hk, List.cons_append]

/-- A number is read where its digits stand, and nowhere else. -/
theorem number?_eq_some_iff {width n : Nat} {cs rest : List Char} :
    number? width cs = some (n, rest) ↔
      n < Nat.pow 10 width ∧ cs = fixedDigits width n ++ rest := by
  constructor
  · intro h
    obtain ⟨k, hk, rfl, rfl⟩ := eq_fixedDigits_of_readDigits h
    rw [Nat.zero_mul, Nat.zero_add]
    exact ⟨hk, rfl⟩
  · rintro ⟨hn, rfl⟩
    exact number?_fixedDigits hn rest

end Text

namespace Timestamp

open Text

/-! ## Dates and times of the day -/

/-- A date with a year of four digits. -/
def dateText (date : Date) : List Char :=
  fixedDigits 4 date.year.toNat ++ '-' :: (fixedDigits 2 date.month ++
    '-' :: fixedDigits 2 date.day)

theorem date?_eq_some_iff {cs rest : List Char} {date : Date} :
    date? cs = some (date, rest) ↔
      (date.exists? = true ∧ 0 ≤ date.year ∧ date.year ≤ 9999) ∧ cs = dateText date ++ rest := by
  constructor
  · intro h
    simp only [date?, Option.bind_eq_bind, Option.bind_eq_some_iff, Prod.exists,
      number?_eq_some_iff, expect?_eq_some_iff] at h
    obtain ⟨year, _, ⟨hyear, rfl⟩, _, rfl, month, _, ⟨-, rfl⟩, _, rfl, day, _, ⟨-, rfl⟩, h⟩ := h
    split at h
    next hexists =>
      obtain ⟨rfl, rfl⟩ := Prod.mk.inj (Option.some.inj h)
      have hfour : year < 10000 := hyear
      refine ⟨⟨hexists, Int.natCast_nonneg year, ?_⟩, ?_⟩
      · dsimp only
        omega
      · simp [dateText]
    next => contradiction
  · rintro ⟨⟨hexists, hyear, hlimit⟩, rfl⟩
    simp only [dateText, List.append_assoc, List.cons_append]
    exact date?_fixedDigits hexists hyear hlimit rest

theorem pair?_eq_some_iff {most n : Nat} {cs rest : List Char} (hmost : most < 100) :
    pair? 0 most cs = some (n, rest) ↔ n ≤ most ∧ cs = fixedDigits 2 n ++ rest := by
  constructor
  · intro h
    unfold pair? at h
    split at h
    next m rest' hnumber =>
      split at h
      next hbounds =>
        obtain ⟨rfl, rfl⟩ := Prod.mk.inj (Option.some.inj h)
        exact ⟨hbounds.2, (number?_eq_some_iff.mp hnumber).2⟩
      next => contradiction
    next => contradiction
  · rintro ⟨hn, rfl⟩
    exact pair?_fixedDigits (Nat.zero_le n) hn (by omega) rest

/-- A time of the day as it is spelled. The second 60 is that of a leap second. -/
structure Clock where
  hour : Fin 24
  minute : Fin 60
  second : Fin 61
  deriving DecidableEq, Repr

namespace Clock

/-- The text of a time of the day. -/
def text (clock : Clock) : List Char :=
  fixedDigits 2 clock.hour ++ ':' :: (fixedDigits 2 clock.minute ++
    ':' :: fixedDigits 2 clock.second)

/-- The second of the day that is meant. A leap second is the one in front of it. -/
def secondOfDay (clock : Clock) : Nat :=
  3600 * clock.hour + 60 * clock.minute + min clock.second.val 59

theorem secondOfDay_lt (clock : Clock) : clock.secondOfDay < 86400 := by
  have hhour := clock.hour.isLt
  have hminute := clock.minute.isLt
  simp only [secondOfDay]
  omega

/-- The time of a second of the day. -/
def ofSecond (second : Nat) (h : second < 86400) : Clock where
  hour := ⟨second / 3600, by omega⟩
  minute := ⟨second / 60 % 60, by omega⟩
  second := ⟨second % 60, by omega⟩

theorem secondOfDay_ofSecond {second : Nat} (h : second < 86400) :
    (ofSecond second h).secondOfDay = second := by
  simp only [secondOfDay, ofSecond]
  omega

end Clock

theorem clock?_eq_some_iff {cs rest : List Char} {second : Nat} :
    clock? cs = some (second, rest) ↔
      ∃ clock : Clock, cs = clock.text ++ rest ∧ second = clock.secondOfDay := by
  simp only [clock?, Option.bind_eq_bind, Option.bind_eq_some_iff, Prod.exists,
    expect?_eq_some_iff, pair?_eq_some_iff (show 23 < 100 by decide),
    pair?_eq_some_iff (show 59 < 100 by decide), pair?_eq_some_iff (show 60 < 100 by decide)]
  constructor
  · rintro ⟨hour, _, ⟨hhour, rfl⟩, _, rfl, minute, _, ⟨hminute, rfl⟩, _, rfl, last, _,
      ⟨hlast, rfl⟩, h⟩
    obtain ⟨rfl, rfl⟩ := Prod.mk.inj (Option.some.inj h)
    refine ⟨⟨⟨hour, Nat.lt_succ_of_le hhour⟩, ⟨minute, Nat.lt_succ_of_le hminute⟩,
      ⟨last, Nat.lt_succ_of_le hlast⟩⟩, ?_, rfl⟩
    simp [Clock.text]
  · rintro ⟨clock, rfl, rfl⟩
    refine ⟨clock.hour, _, ⟨Nat.le_of_lt_succ clock.hour.isLt, ?_⟩, _, rfl, clock.minute, _,
      ⟨Nat.le_of_lt_succ clock.minute.isLt, rfl⟩, _, rfl, clock.second, rest,
      ⟨Nat.le_of_lt_succ clock.second.isLt, rfl⟩, rfl⟩
    simp [Clock.text]

/-- What may stand between date and time. -/
inductive Separator where
  | capital
  | small
  | blank
  deriving DecidableEq, Repr

/-- The character of a separator. -/
def Separator.char : Separator → Char
  | capital => 'T'
  | small => 't'
  | blank => ' '

theorem separator?_eq_some_iff {cs rest : List Char} :
    separator? cs = some rest ↔ ∃ separator : Separator, cs = separator.char :: rest := by
  constructor
  · intro h
    unfold separator? at h
    split at h
    next => exact ⟨.capital, by rw [Option.some.inj h]; rfl⟩
    next => exact ⟨.small, by rw [Option.some.inj h]; rfl⟩
    next => exact ⟨.blank, by rw [Option.some.inj h]; rfl⟩
    next => contradiction
  · rintro ⟨separator, rfl⟩
    cases separator <;> rfl

/-! ## Fractions and offsets -/

/-- A fraction of a second by its digits, of which there may be none. -/
def fractionText : List (Fin 10) → List Char
  | [] => []
  | digits => '.' :: digits.map fun d : Fin 10 => digit d

theorem exists_digits {cs : List Char} (h : ∀ c ∈ cs, c.isDigit = true) :
    ∃ digits : List (Fin 10), cs = digits.map fun d : Fin 10 => digit d := by
  induction cs with
  | nil => exact ⟨[], rfl⟩
  | cons c cs ih =>
      obtain ⟨hc, hcs⟩ := List.forall_mem_cons.mp h
      obtain ⟨digits, rfl⟩ := ih hcs
      obtain ⟨d, hd⟩ : ∃ d, digitValue? c = some d := ⟨_, if_pos hc⟩
      obtain ⟨hten, rfl⟩ := digitValue?_eq_some_iff.mp hd
      exact ⟨⟨d, hten⟩ :: digits, rfl⟩

theorem exists_fraction_of_skipFraction? {cs rest : List Char}
    (h : skipFraction? cs = some rest) : ∃ fraction, cs = fractionText fraction ++ rest := by
  unfold skipFraction? at h
  split at h
  next c cs =>
    split at h
    next hc =>
      obtain rfl := Option.some.inj h
      have hdigits : ∀ d ∈ c :: cs.takeWhile Char.isDigit, d.isDigit = true :=
        List.forall_mem_cons.mpr ⟨hc, List.all_eq_true.mp List.all_takeWhile⟩
      obtain ⟨fraction, hfraction⟩ := exists_digits hdigits
      cases fraction with
      | nil => contradiction
      | cons d fraction =>
          refine ⟨d :: fraction, ?_⟩
          rw [fractionText, ← hfraction, List.cons_append, List.cons_append,
            List.takeWhile_append_dropWhile]
          simp
    next => contradiction
  next => contradiction
  next => exact ⟨[], (Option.some.inj h)⟩

/-- A fraction ends in front of anything but a digit. -/
theorem skipFraction?_fractionText (fraction : List (Fin 10)) {c : Char}
    (hpoint : c ≠ '.') (hdigit : c.isDigit = false) (rest : List Char) :
    skipFraction? (fractionText fraction ++ c :: rest) = some (c :: rest) := by
  cases fraction with
  | nil =>
      unfold skipFraction? fractionText
      split
      next heq => exact absurd (List.cons.inj heq).1 hpoint
      next heq => exact absurd (List.cons.inj heq).1 hpoint
      next => rfl
  | cons d fraction =>
      have hdigits : ∀ e ∈ fraction.map fun e : Fin 10 => digit e, e.isDigit = true := by
        intro e he
        obtain ⟨value, -, rfl⟩ := List.mem_map.mp he
        exact isDigit_digit value
      simp only [fractionText, List.map_cons, List.cons_append, skipFraction?, isDigit_digit,
        if_true]
      rw [List.dropWhile_append_of_pos hdigits, List.dropWhile_cons_of_neg (by simp [hdigit])]

/-- The sign of an offset: a plus, a hyphen or a true minus. -/
inductive Sign where
  | plus
  | hyphen
  | minus
  deriving DecidableEq, Repr

namespace Sign

/-- The character of a sign. -/
def char : Sign → Char
  | plus => '+'
  | hyphen => '-'
  | minus => '\u2212'

/-- What an offset with a sign is multiplied by. -/
def factor : Sign → Int
  | plus => 1
  | hyphen => -1
  | minus => -1

end Sign

/-- An offset from universal time as it is spelled: a letter for none, or a sign
with hours and minutes. -/
inductive Zone where
  | capital
  | small
  | signed (sign : Sign) (hours : Fin 24) (minutes : Fin 60)
  deriving DecidableEq, Repr

namespace Zone

/-- The text of an offset. -/
def text : Zone → List Char
  | capital => ['Z']
  | small => ['z']
  | signed sign hours minutes => sign.char :: (fixedDigits 2 hours ++ ':' :: fixedDigits 2 minutes)

/-- The seconds by which local time is ahead of universal time. -/
def offset : Zone → Int
  | capital => 0
  | small => 0
  | signed sign hours minutes => sign.factor * (3600 * hours + 60 * minutes : Nat)

end Zone

theorem offsetSize?_eq_some_iff {cs : List Char} {size : Int} :
    offsetSize? cs = some size ↔ ∃ (hours : Fin 24) (minutes : Fin 60),
      cs = fixedDigits 2 hours ++ ':' :: fixedDigits 2 minutes ∧
        size = (3600 * hours + 60 * minutes : Nat) := by
  simp only [offsetSize?, Option.bind_eq_bind, Option.bind_eq_some_iff, Prod.exists,
    expect?_eq_some_iff, pair?_eq_some_iff (show 23 < 100 by decide),
    pair?_eq_some_iff (show 59 < 100 by decide)]
  constructor
  · rintro ⟨hours, _, ⟨hhours, rfl⟩, _, rfl, minutes, rest, ⟨hminutes, rfl⟩, h⟩
    split at h
    next hend =>
      obtain rfl := List.isEmpty_iff.mp hend
      refine ⟨⟨hours, Nat.lt_succ_of_le hhours⟩, ⟨minutes, Nat.lt_succ_of_le hminutes⟩, ?_,
        (Option.some.inj h).symm⟩
      rw [List.append_nil]
    next => contradiction
  · rintro ⟨hours, minutes, rfl, rfl⟩
    refine ⟨hours, _, ⟨Nat.le_of_lt_succ hours.isLt, rfl⟩, _, rfl, minutes, [],
      ⟨Nat.le_of_lt_succ minutes.isLt, (List.append_nil _).symm⟩, rfl⟩

theorem offset?_eq_some_iff {cs : List Char} {offset : Int} :
    offset? cs = some offset ↔ ∃ zone : Zone, cs = zone.text ∧ offset = zone.offset := by
  constructor
  · intro h
    unfold offset? at h
    split at h
    next => exact ⟨.capital, rfl, (Option.some.inj h).symm⟩
    next => exact ⟨.small, rfl, (Option.some.inj h).symm⟩
    next =>
      obtain ⟨hours, minutes, rfl, rfl⟩ := offsetSize?_eq_some_iff.mp h
      exact ⟨.signed .plus hours minutes, rfl, (Int.one_mul _).symm⟩
    next =>
      obtain ⟨size, hsize, rfl⟩ := Option.map_eq_some_iff.mp h
      obtain ⟨hours, minutes, rfl, rfl⟩ := offsetSize?_eq_some_iff.mp hsize
      exact ⟨.signed .hyphen hours minutes, rfl, (Int.neg_one_mul _).symm⟩
    next =>
      obtain ⟨size, hsize, rfl⟩ := Option.map_eq_some_iff.mp h
      obtain ⟨hours, minutes, rfl, rfl⟩ := offsetSize?_eq_some_iff.mp hsize
      exact ⟨.signed .minus hours minutes, rfl, (Int.neg_one_mul _).symm⟩
    next => contradiction
  · rintro ⟨zone, rfl, rfl⟩
    cases zone with
    | capital => rfl
    | small => rfl
    | signed sign hours minutes =>
        have hsize := offsetSize?_eq_some_iff.mpr ⟨hours, minutes, rfl, rfl⟩
        cases sign with
        | plus => simp [offset?, Zone.text, Zone.offset, Sign.char, Sign.factor, hsize]
        | hyphen => simp [offset?, Zone.text, Zone.offset, Sign.char, Sign.factor, hsize]
        | minus => simp [offset?, Zone.text, Zone.offset, Sign.char, Sign.factor, hsize]

/-- An offset begins with a letter or a sign, where no fraction goes on. -/
theorem Zone.text_eq_cons (zone : Zone) :
    ∃ c rest, zone.text = c :: rest ∧ c ≠ '.' ∧ c.isDigit = false := by
  cases zone with
  | capital => exact ⟨_, _, rfl, by decide, by decide⟩
  | small => exact ⟨_, _, rfl, by decide, by decide⟩
  | signed sign hours minutes =>
      exact ⟨_, _, rfl, by cases sign <;> decide, by cases sign <;> decide⟩

/-! ## Whole timestamps -/

/-- A timestamp by its parts, with a date that the calendar has and a year of
four digits. -/
structure Spelling where
  date : Date
  separator : Separator
  clock : Clock
  fraction : List (Fin 10)
  zone : Zone
  exists_date : date.exists? = true
  plain_year : 0 ≤ date.year ∧ date.year ≤ 9999

namespace Spelling

/-- The text of a timestamp. -/
def text (spelling : Spelling) : List Char :=
  dateText spelling.date ++ spelling.separator.char :: (spelling.clock.text ++
    (fractionText spelling.fraction ++ spelling.zone.text))

/-- The instant that is meant: the local time less the offset. -/
def instant (spelling : Spelling) : Instant :=
  ⟨spelling.date.number * Instant.secondsPerDay + spelling.clock.secondOfDay -
    spelling.zone.offset, 0⟩

end Spelling

/-- A text is read if it is the text of a timestamp, as the instant that is meant. -/
theorem read?_eq_some_iff {cs : List Char} {seen : Instant} :
    read? cs = some seen ↔ ∃ spelling : Spelling, cs = spelling.text ∧ seen = spelling.instant := by
  simp only [read?, Option.bind_eq_bind, Option.bind_eq_some_iff, Prod.exists,
    date?_eq_some_iff, separator?_eq_some_iff, clock?_eq_some_iff, offset?_eq_some_iff]
  constructor
  · rintro ⟨date, _, ⟨⟨hexists, hyear⟩, rfl⟩, _, ⟨separator, rfl⟩, _, _, ⟨clock, rfl, rfl⟩, _,
      hfraction, _, ⟨zone, rfl, rfl⟩, h⟩
    obtain ⟨fraction, rfl⟩ := exists_fraction_of_skipFraction? hfraction
    exact ⟨⟨date, separator, clock, fraction, zone, hexists, hyear⟩, rfl, (Option.some.inj h).symm⟩
  · rintro ⟨spelling, rfl, rfl⟩
    obtain ⟨c, rest, hzone, hpoint, hdigit⟩ := spelling.zone.text_eq_cons
    refine ⟨spelling.date, _, ⟨⟨spelling.exists_date, spelling.plain_year⟩, rfl⟩, _,
      ⟨spelling.separator, rfl⟩, _, _, ⟨spelling.clock, rfl, rfl⟩, spelling.zone.text, ?_, _,
      ⟨spelling.zone, rfl, rfl⟩, rfl⟩
    rw [hzone]
    exact skipFraction?_fractionText spelling.fraction hpoint hdigit rest

/-! ## The spellings of one instant -/

/-- What clocks show that are ahead of universal time by some seconds. -/
def localTime (instant : Instant) (offset : Int) : Instant :=
  ⟨instant.seconds + offset, instant.nanos⟩

namespace Spelling

/-- The spelling of an instant with an offset, which gives the local time to the
second. -/
def ofInstant (instant : Instant) (zone : Zone)
    (h : (localTime instant zone.offset).hasPlainYear) (separator : Separator)
    (fraction : List (Fin 10)) : Spelling where
  date := (localTime instant zone.offset).date
  separator := separator
  clock := .ofSecond (localTime instant zone.offset).secondOfDay (Instant.secondOfDay_lt _)
  fraction := fraction
  zone := zone
  exists_date := Date.exists?_ofNumber _
  plain_year := h

/-- Whatever the offset, the instant is meant that was spelled. -/
theorem instant_ofInstant (instant : Instant) (zone : Zone)
    (h : (localTime instant zone.offset).hasPlainYear) (separator : Separator)
    (fraction : List (Fin 10)) :
    (ofInstant instant zone h separator fraction).instant = instant.wholeSecond := by
  have hlocal : (localTime instant zone.offset).date.number * Instant.secondsPerDay +
      (localTime instant zone.offset).secondOfDay = instant.seconds + zone.offset :=
    (localTime instant zone.offset).number_date_add_secondOfDay
  rw [Spelling.instant, Instant.wholeSecond]
  simp only [ofInstant, Clock.secondOfDay_ofSecond, hlocal, Int.add_sub_cancel]

end Spelling

/-- The characters that a timestamp may be spelled with. -/
def isSpellingChar (c : Char) : Bool :=
  c.isDigit || c ∈ ['-', '+', '\u2212', ':', '.', 'T', 't', ' ', 'Z', 'z']

theorem isSpellingChar_of_isDigit {c : Char} (h : c.isDigit = true) : isSpellingChar c = true := by
  rw [isSpellingChar, h, Bool.true_or]

theorem isSpellingChar_of_mem_fixedDigits {width n : Nat} {c : Char}
    (h : c ∈ fixedDigits width n) : isSpellingChar c = true :=
  isSpellingChar_of_isDigit (isDigit_of_mem_fixedDigits h)

theorem isSpellingChar_of_mem_fractionText {fraction : List (Fin 10)} {c : Char}
    (h : c ∈ fractionText fraction) : isSpellingChar c = true := by
  cases fraction with
  | nil => contradiction
  | cons d fraction =>
      rcases List.mem_cons.mp h with rfl | h
      · decide
      · obtain ⟨e, -, rfl⟩ := List.mem_map.mp h
        exact isSpellingChar_of_isDigit (isDigit_digit e)

theorem isSpellingChar_of_mem_zoneText {zone : Zone} {c : Char} (h : c ∈ zone.text) :
    isSpellingChar c = true := by
  cases zone with
  | capital =>
      obtain rfl := List.mem_singleton.mp h
      decide
  | small =>
      obtain rfl := List.mem_singleton.mp h
      decide
  | signed sign hours minutes =>
      simp only [Zone.text, List.mem_cons, List.mem_append] at h
      rcases h with rfl | h | rfl | h
      · cases sign <;> decide
      · exact isSpellingChar_of_mem_fixedDigits h
      · decide
      · exact isSpellingChar_of_mem_fixedDigits h

theorem Spelling.isSpellingChar_of_mem_text {spelling : Spelling} {c : Char}
    (h : c ∈ spelling.text) : isSpellingChar c = true := by
  simp only [Spelling.text, dateText, Clock.text, List.mem_append, List.mem_cons, or_assoc] at h
  rcases h with h | rfl | h | rfl | h | rfl | h | rfl | h | rfl | h | h | h
  · exact isSpellingChar_of_mem_fixedDigits h
  · decide
  · exact isSpellingChar_of_mem_fixedDigits h
  · decide
  · exact isSpellingChar_of_mem_fixedDigits h
  · cases spelling.separator <;> decide
  · exact isSpellingChar_of_mem_fixedDigits h
  · decide
  · exact isSpellingChar_of_mem_fixedDigits h
  · decide
  · exact isSpellingChar_of_mem_fixedDigits h
  · exact isSpellingChar_of_mem_fractionText h
  · exact isSpellingChar_of_mem_zoneText h

end Timestamp

end Parley
