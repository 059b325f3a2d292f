import Parley.Time.Calendar

/-!
# Dates and day numbers

The day with a number is a day of the calendar, and it has that number. So the
date of a day says everything about it, before and after 1970 and over all
leap years, and a date that is written down leads back to its day.
-/

namespace Parley.Date

theorem isLeap_iff (year : Int) :
    isLeap year = true ↔ year % 4 = 0 ∧ (year % 100 ≠ 0 ∨ year % 400 = 0) := by
  simp [isLeap]

@[simp] theorem totalDays_nil : totalDays [] = 0 := rfl

@[simp] theorem totalDays_cons (length : Nat) (rest : List Nat) :
    totalDays (length :: rest) = length + totalDays rest := rfl

/-- A year has as many days as its months together. -/
theorem totalDays_monthLengths (year : Int) :
    (totalDays (monthLengths year) : Int) = daysBeforeYear (year + 1) - daysBeforeYear year := by
  unfold monthLengths daysBeforeYear
  by_cases hleap : isLeap year = true
  · have hrule := (isLeap_iff year).mp hleap
    simp only [hleap, if_true, totalDays_cons, totalDays_nil]
    omega
  · have hrule := mt (isLeap_iff year).mpr hleap
    simp only [hleap, Bool.false_eq_true, if_false, totalDays_cons, totalDays_nil]
    omega

theorem length_monthLengths (year : Int) : (monthLengths year).length = 12 := rfl

/-- The mean length of a year leads to the right year or to one next to it. -/
theorem daysBeforeYear_guess (days : Int) :
    daysBeforeYear (400 * days / 146097 - 1) ≤ days ∧
      days < daysBeforeYear (400 * days / 146097 + 2) := by
  unfold daysBeforeYear
  constructor <;> omega

theorem yearOf_spec (days : Int) :
    daysBeforeYear (yearOf days) ≤ days ∧ days < daysBeforeYear (yearOf days + 1) := by
  -- The guess is off by one at most, and the two comparisons tell which way.
  obtain ⟨hlow, hhigh⟩ := daysBeforeYear_guess days
  unfold yearOf
  dsimp only
  split
  next hlate =>
    refine ⟨hlate, ?_⟩
    rw [Int.add_assoc]
    exact hhigh
  next hlate =>
    split
    next hearly =>
      refine ⟨hlow, ?_⟩
      rw [Int.sub_add_cancel]
      exact hearly
    next hearly => exact ⟨Int.not_lt.mp hearly, Int.not_le.mp hlate⟩

theorem daysBeforeYear_mono {year other : Int} (h : year ≤ other) :
    daysBeforeYear year ≤ daysBeforeYear other := by
  unfold daysBeforeYear
  omega

/-- A day falls into a year or a later one if the year has begun. -/
theorem le_yearOf_iff {year days : Int} : year ≤ yearOf days ↔ daysBeforeYear year ≤ days := by
  obtain ⟨hfirst, hlast⟩ := yearOf_spec days
  constructor
  · intro h
    exact Int.le_trans (daysBeforeYear_mono h) hfirst
  · intro h
    apply Int.not_lt.mp
    intro hlate
    have hover := daysBeforeYear_mono (Int.add_one_le_of_lt hlate)
    omega

/-- Counting a day through the lengths of months ends in the month that holds
it: the months in front are over, and this one is not. -/
theorem monthAndDay_spec {lengths : List Nat} {days : Nat} (h : days < totalDays lengths)
    (month : Nat) :
    ∃ past, past < lengths.length ∧
      monthAndDay month lengths days = (month + past, days - totalDays (lengths.take past) + 1) ∧
      totalDays (lengths.take past) ≤ days ∧
      days < totalDays (lengths.take past) + lengths.getD past 0 := by
  induction lengths generalizing days month with
  | nil => simp at h
  | cons length rest ih =>
      rw [totalDays_cons] at h
      unfold monthAndDay
      split
      next hday => exact ⟨0, by simp, by simp, by simp, by simpa using hday⟩
      next hday =>
        have hleft : days - length < totalDays rest := by omega
        obtain ⟨past, hpast, hcount, hover, hin⟩ := ih hleft (month + 1)
        refine ⟨past + 1, by simpa using hpast, ?_, ?_, ?_⟩
        · rw [hcount, List.take_succ_cons, totalDays_cons, Nat.add_assoc, Nat.add_comm 1,
            Nat.sub_sub]
        · rw [List.take_succ_cons, totalDays_cons]
          omega
        · rw [List.take_succ_cons, totalDays_cons, List.getD_cons_succ]
          omega

/-- The parts of the day with a number: the month and the day of the month are
those that the day of the year counts up to. -/
theorem ofNumber_parts (number : Int) :
    ∃ past dayOfYear : Nat,
      ofNumber number = ⟨yearOf (number + epoch), 1 + past,
        dayOfYear - totalDays ((monthLengths (yearOf (number + epoch))).take past) + 1⟩ ∧
      (dayOfYear : Int) = number + epoch - daysBeforeYear (yearOf (number + epoch)) ∧
      past < 12 ∧
      totalDays ((monthLengths (yearOf (number + epoch))).take past) ≤ dayOfYear ∧
      dayOfYear < totalDays ((monthLengths (yearOf (number + epoch))).take past) +
        (monthLengths (yearOf (number + epoch))).getD past 0 := by
  obtain ⟨hfirst, hlast⟩ := yearOf_spec (number + epoch)
  have hsum := totalDays_monthLengths (yearOf (number + epoch))
  have hday : (number + epoch - daysBeforeYear (yearOf (number + epoch))).toNat <
      totalDays (monthLengths (yearOf (number + epoch))) := by omega
  obtain ⟨past, hpast, hcount, hover, hin⟩ := monthAndDay_spec hday 1
  refine ⟨past, _, ?_, ?_, hpast, hover, hin⟩
  · rw [ofNumber, hcount]
  · omega

theorem number_ofNumber (n : Int) : (ofNumber n).number = n := by
  obtain ⟨past, dayOfYear, hdate, hday, -, hover, -⟩ := ofNumber_parts n
  rw [hdate, number]
  simp only [Nat.add_sub_cancel_left]
  omega

example : ofNumber 11016 = ⟨2000, 2, 29⟩ ∧ ofNumber (-719529) = ⟨-1, 12, 31⟩ := by decide

theorem exists?_ofNumber (n : Int) : (ofNumber n).exists? = true := by
  obtain ⟨past, dayOfYear, hdate, hday, -, hover, hin⟩ := ofNumber_parts n
  rw [hdate]
  simp only [exists?, monthLength, Nat.add_sub_cancel_left, Bool.and_eq_true, decide_eq_true_eq]
  rw [if_neg (by omega)]
  omega

theorem year_ofNumber (n : Int) : (ofNumber n).year = yearOf (n + epoch) := rfl

/-- A month is over when the year is, or before. -/
theorem totalDays_take_add_getD_le (lengths : List Nat) (past : Nat) :
    totalDays (lengths.take past) + lengths.getD past 0 ≤ totalDays lengths := by
  induction lengths generalizing past with
  | nil => simp
  | cons length rest ih =>
      cases past with
      | zero => simp
      | succ past =>
          have hrest := ih past
          rw [List.take_succ_cons, totalDays_cons, totalDays_cons, List.getD_cons_succ]
          omega

/-- A day of the calendar has a number within its year. -/
theorem number_bounds {date : Date} (h : date.exists? = true) :
    daysBeforeYear date.year ≤ date.number + epoch ∧
      date.number + epoch < daysBeforeYear (date.year + 1) := by
  simp only [exists?, Bool.and_eq_true, decide_eq_true_eq] at h
  obtain ⟨hday, hlength⟩ := h
  have hsum := totalDays_monthLengths date.year
  have hover := totalDays_take_add_getD_le (monthLengths date.year) (date.month - 1)
  unfold monthLength at hlength
  unfold number
  split at hlength
  · omega
  · omega

/-- The year of a day of the calendar is found again from its number. -/
theorem yearOf_number {date : Date} (h : date.exists? = true) :
    yearOf (date.number + epoch) = date.year := by
  obtain ⟨hfirst, hlast⟩ := number_bounds h
  apply Int.le_antisymm
  · apply Int.le_of_lt_add_one
    exact Int.not_le.mp (mt le_yearOf_iff.mp (Int.not_le.mpr hlast))
  · exact le_yearOf_iff.mpr hfirst

theorem monthLength_le (year : Int) (month : Nat) : monthLength year month ≤ 31 := by
  unfold monthLength
  split
  · omega
  · have hall : ∀ length ∈ monthLengths year, length ≤ 31 := by
      intro length hlength
      by_cases hleap : isLeap year = true <;> simp [monthLengths, hleap] at hlength <;> omega
    rw [List.getD_eq_getElem?_getD]
    cases hget : (monthLengths year)[month - 1]? with
    | none => simp
    | some length => exact hall length (List.mem_of_getElem? hget)

/-- Months and days of the calendar have two digits. -/
theorem two_digits_of_exists? {date : Date} (h : date.exists? = true) :
    date.month < 100 ∧ date.day < 100 := by
  simp only [exists?, Bool.and_eq_true, decide_eq_true_eq] at h
  have hle := monthLength_le date.year date.month
  refine ⟨?_, by omega⟩
  apply Classical.byContradiction
  intro hmonth
  have hnone : monthLength date.year date.month = 0 := by
    rw [monthLength, if_neg (by omega), List.getD_eq_getElem?_getD,
      List.getElem?_eq_none (by rw [length_monthLengths]; omega)]
    rfl
  omega

end Parley.Date
