import Parley.Text.Decimal
import Parley.Time.Instant

/-!
# Timestamps

The written form of an instant follows RFC 3339. Instants are written in
universal time to the second. Reading also takes other offsets, a fraction of
a second, which is dropped, and the spellings that the standard leaves open:
small letters, a blank between date and time, and a true minus sign. A leap
second counts as the second in front of it.
-/

namespace Parley.Timestamp

open Text

/-- A year: four digits where they suffice, else a sign and at least four. -/
def yearText (year : Int) : List Char :=
  if 0 ≤ year ∧ year ≤ 9999 then fixedDigits 4 year.toNat
  else
    let digits := (toString year.natAbs).toList
    (if year < 0 then '-' else '+') :: (List.replicate (4 - digits.length) '0' ++ digits)

/-- The written form of an instant. -/
def text (instant : Instant) : List Char :=
  let date := instant.date
  let second := instant.secondOfDay
  let leap := if Instant.nanosPerSecond ≤ instant.nanos then 1 else 0
  yearText date.year ++ '-' :: fixedDigits 2 date.month ++ '-' :: fixedDigits 2 date.day ++
    'T' :: fixedDigits 2 (second / 3600) ++ ':' :: fixedDigits 2 (second / 60 % 60) ++
    ':' :: fixedDigits 2 (second % 60 + leap) ++ ['Z']

/-- Read a number of two digits within bounds. -/
def pair? (least most : Nat) (cs : List Char) : Option (Nat × List Char) :=
  match number? 2 cs with
  | some (n, rest) => if least ≤ n ∧ n ≤ most then some (n, rest) else none
  | none => none

/-- Read a date of the calendar. -/
def date? (cs : List Char) : Option (Date × List Char) := do
  let (year, cs) ← number? 4 cs
  let cs ← expect? '-' cs
  let (month, cs) ← number? 2 cs
  let cs ← expect? '-' cs
  let (day, cs) ← number? 2 cs
  let date : Date := ⟨year, month, day⟩
  if date.exists? then some (date, cs) else none

/-- Read what stands between date and time. -/
def separator? : List Char → Option (List Char)
  | 'T' :: cs => some cs
  | 't' :: cs => some cs
  | ' ' :: cs => some cs
  | _ => none

/-- Read a time of the day as the number of its second. -/
def clock? (cs : List Char) : Option (Nat × List Char) := do
  let (hour, cs) ← pair? 0 23 cs
  let cs ← expect? ':' cs
  let (minute, cs) ← pair? 0 59 cs
  let cs ← expect? ':' cs
  let (second, cs) ← pair? 0 60 cs
  some (3600 * hour + 60 * minute + min second 59, cs)

/-- Skip a fraction of a second. A point needs a digit behind it. -/
def skipFraction? : List Char → Option (List Char)
  | '.' :: c :: cs => if c.isDigit then some (cs.dropWhile Char.isDigit) else none
  | ['.'] => none
  | cs => some cs

/-- Read hours and minutes of an offset, in seconds, up to the end. -/
def offsetSize? (cs : List Char) : Option Int := do
  let (hours, cs) ← pair? 0 23 cs
  let cs ← expect? ':' cs
  let (minutes, cs) ← pair? 0 59 cs
  if cs.isEmpty then some (3600 * hours + 60 * minutes : Nat) else none

/-- Read an offset from universal time, in seconds, up to the end. -/
def offset? : List Char → Option Int
  | ['Z'] => some 0
  | ['z'] => some 0
  | '+' :: cs => offsetSize? cs
  | '-' :: cs => (offsetSize? cs).map (- ·)
  | '\u2212' :: cs => (offsetSize? cs).map (- ·)
  | _ => none

/-- Read an instant, to the whole second. -/
def read? (cs : List Char) : Option Instant := do
  let (date, cs) ← date? cs
  let cs ← separator? cs
  let (second, cs) ← clock? cs
  let cs ← skipFraction? cs
  let offset ← offset? cs
  some ⟨date.number * Instant.secondsPerDay + second - offset, 0⟩

end Parley.Timestamp
