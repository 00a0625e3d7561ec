import LeaseLock.Text.Numeral
import LeaseLock.Time.Calendar
import LeaseLock.Time.Instant

/-!
# Time stamps

Instants written as dates and times of the day.

## The model

Three written forms share the date, the time of the day and the rule for years: `stored`, with a
blank in between and milliseconds, is what a text column holds; `rfc`, with `T`, milliseconds and
`Z`, is what a key's value holds; `exact` gives as many groups of three fraction digits as the
instant needs. The years 0 to 9999 have four digits and no sign, all others a sign and at least
four digits. Milliseconds are cut, not rounded.
-/

namespace LeaseLock

namespace Instant

/-- The day number of an instant. -/
def dayNumber (t : Instant) : Int := t.seconds / 86400

/-- The date of an instant. -/
def date (t : Instant) : Date := Date.ofDays t.dayNumber

/-- The time of the day of an instant. -/
def timeOfDay (t : Instant) : TimeOfDay := TimeOfDay.ofSeconds (t.seconds % 86400)

end Instant

namespace Stamp

open Text.Numeral

/-- A year, with a sign outside the range 0 to 9999. -/
def yearText (y : Int) : List Char :=
  if 0 ≤ y ∧ y ≤ 9999 then padded 4 y.toNat
  else (if y < 0 then '-' else '+') :: padded 4 y.natAbs

/-- Two digits. -/
def pair (n : Int) : List Char := padded 2 n.toNat

/-- Year, month and day, with hyphens. -/
def dateText (d : Date) : List Char := yearText d.year ++ '-' :: pair d.month ++ '-' :: pair d.day

/-- Hour, minute and second, with colons. -/
def clockText (t : TimeOfDay) : List Char :=
  pair t.hour ++ ':' :: pair t.minute ++ ':' :: pair t.second

/-- The milliseconds of a number of nanoseconds, as three digits. -/
def millisText (nanos : Int) : List Char := padded 3 (nanos / nanosPerMilli).toNat

/-- The text form of a stamp in a column. -/
def storedChars (t : Instant) : List Char :=
  dateText t.date ++ ' ' :: clockText t.timeOfDay ++ '.' :: millisText t.subsecond

/-- The text form of a stamp in a column. -/
def stored (t : Instant) : String := String.ofList (storedChars t)

/-- The internet form of a stamp, in milliseconds. -/
def rfcChars (t : Instant) : List Char :=
  dateText t.date ++ 'T' :: clockText t.timeOfDay ++ '.' :: millisText t.subsecond ++ ['Z']

/-- The internet form of a stamp, in milliseconds. -/
def rfc (t : Instant) : String := String.ofList (rfcChars t)

/-- A fraction of a second in the fewest groups of three digits. -/
def fractionText (nanos : Int) : List Char :=
  if nanos = 0 then []
  else if nanos % 1000000 = 0 then '.' :: padded 3 (nanos / 1000000).toNat
  else if nanos % 1000 = 0 then '.' :: padded 6 (nanos / 1000).toNat
  else '.' :: padded 9 nanos.toNat

/-- The internet form of a stamp with as many fraction digits as it needs. -/
def exact (t : Instant) : String :=
  String.ofList
    (dateText t.date ++ 'T' :: clockText t.timeOfDay ++ fractionText t.subsecond ++ ['Z'])

end Stamp
end LeaseLock
