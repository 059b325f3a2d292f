import Parley.Time.Calendar

/-!
# Instants

An instant is a number of whole seconds from the start of 1970 and a part of a
second in nanoseconds. During a leap second the seconds stay at the last
second of the minute and the nanoseconds run on past a whole second.
-/

namespace Parley

/-- A point in time. -/
structure Instant where
  seconds : Int
  nanos : Nat := 0
  deriving DecidableEq, Repr

namespace Instant

/-- The nanoseconds of a second. -/
def nanosPerSecond : Nat := 1000000000

/-- The seconds of a day. -/
def secondsPerDay : Int := 86400

/-- The first second that an instant may have, in the year -262143. -/
def firstSecond : Int := -8334601228800

/-- The last second that an instant may have, in the year 262142. -/
def lastSecond : Int := 8210266876799

/-- The instant so many nanoseconds after a second. -/
def after (seconds : Int) (nanos : Nat) : Instant :=
  ⟨seconds + (nanos / nanosPerSecond : Nat), nanos % nanosPerSecond⟩

/-- Whether the seconds are within the range of the calendar in use. -/
def inRange (instant : Instant) : Bool :=
  firstSecond ≤ instant.seconds && instant.seconds ≤ lastSecond

/-- The instant with these parts. Nanoseconds past a whole second need a leap
second, which only the last second of a minute can have. -/
def ofParts? (seconds : Int) (nanos : Nat) : Option Instant :=
  let instant : Instant := ⟨seconds, nanos⟩
  if instant.inRange && (nanos < nanosPerSecond ||
      (nanos < 2 * nanosPerSecond && seconds % 60 = 59)) then
    some instant
  else none

/-- The instant without its part of a second. -/
def wholeSecond (instant : Instant) : Instant := ⟨instant.seconds, 0⟩

/-- The day of an instant. -/
def date (instant : Instant) : Date := Date.ofNumber (instant.seconds / secondsPerDay)

/-- The seconds since the day began. -/
def secondOfDay (instant : Instant) : Nat := (instant.seconds % secondsPerDay).toNat

end Instant

end Parley
