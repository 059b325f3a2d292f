import Parley.Proofs.Calendar
import Parley.Time.Timestamp

/-!
# Timestamps that are read back

A written instant is read back to the second if its year has four digits.
Earlier and later years are written with a sign, and such a timestamp is not
read at all: it is never taken for another instant.
-/

namespace Parley

namespace Text

@[simp] theorem expect?_cons (c : Char) (cs : List Char) : expect? c (c :: cs) = some cs := by
  simp [expect?]

theorem number?_cons_of_not_isDigit {c : Char} (hc : c.isDigit = false) (width : Nat)
    (cs : List Char) : number? (width + 1) (c :: cs) = none := by
  simp [number?, readDigits, digitValue?, hc]

theorem isDigit_digit (n : Nat) : (digit n).isDigit = true := by
  have hvalue := digitValue?_digit n
  unfold digitValue? at hvalue
  split at hvalue
  next hdigit => exact hdigit
  next => simp at hvalue

theorem isDigit_of_mem_fixedDigits {width n : Nat} {c : Char} (hc : c ∈ fixedDigits width n) :
    c.isDigit = true := by
  induction width generalizing n with
  | zero => simp [fixedDigits] at hc
  | succ width ih =>
      rw [fixedDigits, List.mem_append, List.mem_singleton] at hc
      rcases hc with hc | rfl
      · exact ih hc
      · exact isDigit_digit n

end Text

namespace Instant

/-- Whether the year of an instant is written with four digits and no sign. -/
def hasPlainYear (instant : Instant) : Prop :=
  0 ≤ instant.date.year ∧ instant.date.year ≤ 9999

instance (instant : Instant) : Decidable instant.hasPlainYear :=
  inferInstanceAs (Decidable (_ ∧ _))

theorem secondOfDay_lt (instant : Instant) : instant.secondOfDay < 86400 := by
  simp only [secondOfDay, secondsPerDay]
  omega

/-- The day and the second of the day make up an instant. -/
theorem number_date_add_secondOfDay (instant : Instant) :
    instant.date.number * secondsPerDay + instant.secondOfDay = instant.seconds := by
  rw [date, Date.number_ofNumber]
  simp only [secondOfDay, secondsPerDay]
  omega

end Instant

namespace Timestamp

open Text

theorem pair?_fixedDigits {least most n : Nat} (hleast : least ≤ n) (hmost : n ≤ most)
    (hn : n < 100) (rest : List Char) :
    pair? least most (fixedDigits 2 n ++ rest) = some (n, rest) := by
  have hread : number? 2 (fixedDigits 2 n ++ rest) = some (n, rest) := number?_fixedDigits hn rest
  simp only [pair?, hread, hleast, hmost, and_self, if_true]

theorem date?_fixedDigits {date : Date} (hexists : date.exists? = true) (hyear : 0 ≤ date.year)
    (hlimit : date.year ≤ 9999) (rest : List Char) :
    date? (fixedDigits 4 date.year.toNat ++ '-' :: (fixedDigits 2 date.month ++
      '-' :: (fixedDigits 2 date.day ++ rest))) = some (date, rest) := by
  obtain ⟨hmonth, hday⟩ := Date.two_digits_of_exists? hexists
  have hnat : (date.year.toNat : Int) = date.year := Int.toNat_of_nonneg hyear
  have hfour : date.year.toNat < 10000 := by omega
  rw [date?, number?_fixedDigits hfour]
  simp only [Option.bind_eq_bind, Option.bind_some, expect?_cons]
  rw [number?_fixedDigits hmonth]
  simp only [Option.bind_some, expect?_cons]
  rw [number?_fixedDigits hday]
  simp only [Option.bind_some, hnat, hexists, if_true]

theorem clock?_fixedDigits {second : Nat} (h : second < 86400) (rest : List Char) :
    clock? (fixedDigits 2 (second / 3600) ++ ':' :: (fixedDigits 2 (second / 60 % 60) ++
      ':' :: (fixedDigits 2 (second % 60) ++ rest))) = some (second, rest) := by
  rw [clock?, pair?_fixedDigits (by omega) (by omega) (by omega)]
  simp only [Option.bind_eq_bind, Option.bind_some, expect?_cons]
  rw [pair?_fixedDigits (by omega) (by omega) (by omega)]
  simp only [Option.bind_some, expect?_cons]
  rw [pair?_fixedDigits (by omega) (by omega) (by omega)]
  have hsum : 3600 * (second / 3600) + 60 * (second / 60 % 60) + min (second % 60) 59 = second := by
    omega
  simp only [Option.bind_some, hsum]

theorem yearText_of_hasPlainYear {instant : Instant} (hyear : instant.hasPlainYear) :
    yearText instant.date.year = fixedDigits 4 instant.date.year.toNat :=
  if_pos hyear

theorem yearText_of_not_hasPlainYear {instant : Instant} (hyear : ¬ instant.hasPlainYear) :
    ∃ sign digits, (sign = '-' ∨ sign = '+') ∧ yearText instant.date.year = sign :: digits := by
  refine ⟨if instant.date.year < 0 then '-' else '+', _, ?_, if_neg hyear⟩
  split
  · exact .inl rfl
  · exact .inr rfl

/-- An instant with a plain year is read back to the second. -/
theorem read?_text {instant : Instant} (hnanos : instant.nanos < Instant.nanosPerSecond)
    (hyear : instant.hasPlainYear) : read? (text instant) = some instant.wholeSecond := by
  have hexists : instant.date.exists? = true := Date.exists?_ofNumber _
  have hclock := clock?_fixedDigits instant.secondOfDay_lt ['Z']
  have hdate := date?_fixedDigits hexists hyear.1 hyear.2
  rw [text, if_neg (Nat.not_le.mpr hnanos), yearText_of_hasPlainYear hyear]
  simp only [Nat.add_zero, List.append_assoc, List.cons_append]
  rw [read?, hdate]
  have hfraction : skipFraction? ['Z'] = some ['Z'] := rfl
  have hoffset : offset? ['Z'] = some 0 := rfl
  simp only [Option.bind_eq_bind, Option.bind_some, separator?, hclock, hfraction, hoffset]
  rw [Int.sub_zero, instant.number_date_add_secondOfDay, Instant.wholeSecond]

/-- An instant with any other year is not read at all. -/
theorem read?_text_of_not_hasPlainYear {instant : Instant} (hyear : ¬ instant.hasPlainYear) :
    read? (text instant) = none := by
  obtain ⟨sign, digits, hsign, hyearText⟩ := yearText_of_not_hasPlainYear hyear
  have hdigit : sign.isDigit = false := by
    rcases hsign with rfl | rfl <;> decide
  rw [text, hyearText]
  simp only [List.cons_append]
  rw [read?, date?, number?_cons_of_not_isDigit hdigit]
  rfl

/-- The characters of timestamps. -/
def isStampChar (c : Char) : Bool := c.isDigit || c ∈ ['-', '+', ':', 'T', 'Z']

theorem isStampChar_of_mem_yearText {year : Int} {c : Char} (hc : c ∈ yearText year) :
    isStampChar c = true := by
  unfold yearText at hc
  split at hc
  · simp [isStampChar, isDigit_of_mem_fixedDigits hc]
  · rw [List.mem_cons, List.mem_append, List.mem_replicate] at hc
    rcases hc with hsign | ⟨-, rfl⟩ | hc
    · split at hsign <;> subst hsign <;> decide
    · decide
    · rw [Nat.toString_eq_repr, Nat.toList_repr] at hc
      simp [isStampChar, Nat.isDigit_of_mem_toDigits (by decide) (by decide) hc]

/-- A timestamp is made up of digits and a few marks. -/
theorem isStampChar_of_mem_text {instant : Instant} {c : Char} (hc : c ∈ text instant) :
    isStampChar c = true := by
  have hdigits : ∀ {n}, c ∈ fixedDigits 2 n → isStampChar c = true := by
    intro n hmem
    simp [isStampChar, isDigit_of_mem_fixedDigits hmem]
  simp only [text, List.mem_append, List.mem_cons, List.not_mem_nil, or_false, or_assoc] at hc
  rcases hc with hc | rfl | hc | rfl | hc | rfl | hc | rfl | hc | rfl | hc | rfl
  · exact isStampChar_of_mem_yearText hc
  all_goals first
    | decide
    | exact hdigits hc

end Timestamp

end Parley
