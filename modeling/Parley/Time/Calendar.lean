/-!
# The Gregorian calendar

Days are numbered from 1 January 1970, forwards and backwards without limit.
Years are counted astronomically: the year before year one is year zero, and
the rule for leap years applies to all of them.
-/

namespace Parley

/-- A day named by year, month and day of the month, both counted from one. -/
structure Date where
  year : Int
  month : Nat
  day : Nat
  deriving DecidableEq, Repr

namespace Date

/-- Whether a year has a 29 February. -/
def isLeap (year : Int) : Bool :=
  year % 4 = 0 && (year % 100 ≠ 0 || year % 400 = 0)

/-- The lengths of the months of a year. -/
def monthLengths (year : Int) : List Nat :=
  [31, if isLeap year then 29 else 28, 31, 30, 31, 30, 31, 31, 30, 31, 30, 31]

/-- The days of months with given lengths. -/
def totalDays (lengths : List Nat) : Nat := lengths.foldr (· + ·) 0

/-- The length of a month, zero if there is no such month. -/
def monthLength (year : Int) (month : Nat) : Nat :=
  if month = 0 then 0 else (monthLengths year).getD (month - 1) 0

/-- Whether the calendar has the day. -/
def exists? (date : Date) : Bool :=
  0 < date.day && date.day ≤ monthLength date.year date.month

/-- The days from 1 January of year zero to 1 January of a year. -/
def daysBeforeYear (year : Int) : Int :=
  365 * year + (year + 3) / 4 - (year + 99) / 100 + (year + 399) / 400

/-- The days from 1 January of year zero to 1 January 1970. -/
def epoch : Int := daysBeforeYear 1970

/-- The number of a day. -/
def number (date : Date) : Int :=
  daysBeforeYear date.year + totalDays ((monthLengths date.year).take (date.month - 1)) +
    (date.day - 1 : Int) - epoch

/-- The year that holds the day which comes so many days after 1 January of
year zero. The mean length of a year gives it up to one. -/
def yearOf (days : Int) : Int :=
  let guess := 400 * days / 146097
  if daysBeforeYear (guess + 1) ≤ days then guess + 1
  else if days < daysBeforeYear guess then guess - 1
  else guess

/-- Count a day of the year through the lengths of the months from `month` on. -/
def monthAndDay (month : Nat) : List Nat → Nat → Nat × Nat
  | [], days => (month, days + 1)
  | length :: rest, days =>
      if days < length then (month, days + 1) else monthAndDay (month + 1) rest (days - length)

/-- The day with a number. -/
def ofNumber (number : Int) : Date :=
  let days := number + epoch
  let year := yearOf days
  let (month, day) := monthAndDay 1 (monthLengths year) (days - daysBeforeYear year).toNat
  ⟨year, month, day⟩

end Date

end Parley
