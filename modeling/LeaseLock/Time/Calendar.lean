/-!
# The calendar

Days since the start of 1970 as dates of the Gregorian calendar, extended without end in both
directions, with a year zero.

## The model

A year is taken to begin in March, so that the leap day is its last day. Four hundred such years
form a cycle of 146097 days: four centuries, each of twenty-five groups of four years, of which
the last day of a group, of a century but the fourth, and of the cycle are the irregular ones.
`yearOf` reads the cycle, century, group and year off a day number; `yearStart` is the closed form
for the first day of a year. `Date.ofDays` and `Date.toDays` add the months.
-/

namespace LeaseLock

/-- A date of the calendar. -/
structure Date where
  year : Int
  /-- One to twelve. -/
  month : Int
  /-- One to thirty-one. -/
  day : Int
  deriving DecidableEq

namespace Date

/-- Days from the first of March of the year zero to the start of 1970. -/
def marchZero : Int := 719468

/-- The days from the first of March of the year zero to that of the year `y`. -/
def yearStart (y : Int) : Int := 365 * y + y / 4 - y / 100 + y / 400

/-- The March year that holds the day `z`, counted from the first of March of the year zero. -/
def yearOf (z : Int) : Int :=
  let inCycle := z % 146097
  let century := min (inCycle / 36524) 3
  let inCentury := inCycle - 36524 * century
  400 * (z / 146097) + 100 * century + 4 * (inCentury / 1461) + min (inCentury % 1461 / 365) 3

/-- The days of a March year before its month `m`, March being month zero. -/
def daysBefore (m : Int) : Int := (153 * m + 2) / 5

/-- The month that the day `n` of a March year falls in, both counted from zero. -/
def monthOf (n : Int) : Int := (5 * n + 2) / 153

/-- The date of a day number. -/
def ofDays (n : Int) : Date :=
  let z := n + marchZero
  let y := yearOf z
  let inYear := z - yearStart y
  let m := monthOf inYear
  { year := if m < 10 then y else y + 1
    month := if m < 10 then m + 3 else m - 9
    day := inYear - daysBefore m + 1 }

/-- The day number of a date. -/
def toDays (d : Date) : Int :=
  if d.month ≤ 2 then
    yearStart (d.year - 1) + daysBefore (d.month + 9) + d.day - 1 - marchZero
  else
    yearStart d.year + daysBefore (d.month - 3) + d.day - 1 - marchZero

/-- The year has a leap day. -/
def isLeap (year : Int) : Bool := year % 4 == 0 && (year % 100 != 0 || year % 400 == 0)

/-- The number of days in a month. -/
def daysInMonth (year month : Int) : Int :=
  if month == 2 then if isLeap year then 29 else 28
  else if month == 4 || month == 6 || month == 9 || month == 11 then 30 else 31

/-- The date is a day of the calendar. -/
def isValid (d : Date) : Bool :=
  1 ≤ d.month && d.month ≤ 12 && 1 ≤ d.day && d.day ≤ daysInMonth d.year d.month

/-- The first day of a year given by cycle, century, group and place in the group. -/
theorem yearStart_mixed {k c g a : Int} (hc : 0 ≤ c ∧ c ≤ 3) (hg : 0 ≤ g ∧ g ≤ 24)
    (ha : 0 ≤ a ∧ a ≤ 3) :
    yearStart (400 * k + 100 * c + 4 * g + a) = 146097 * k + 36524 * c + 1461 * g + 365 * a := by
  have h4 : (400 * k + 100 * c + 4 * g + a) / 4 = 100 * k + 25 * c + g := by omega
  have h100 : (400 * k + 100 * c + 4 * g + a) / 100 = 4 * k + c := by omega
  have h400 : (400 * k + 100 * c + 4 * g + a) / 400 = k := by omega
  rw [yearStart, h4, h100, h400]; omega

/-- A day lies in its year, at most 365 days after the first. -/
theorem yearStart_yearOf (z : Int) :
    yearStart (yearOf z) ≤ z ∧ z - yearStart (yearOf z) ≤ 365 := by
  have hc : 0 ≤ min (z % 146097 / 36524) 3 ∧ min (z % 146097 / 36524) 3 ≤ 3 := by omega
  have hi : 0 ≤ z % 146097 - 36524 * min (z % 146097 / 36524) 3 ∧
      z % 146097 - 36524 * min (z % 146097 / 36524) 3 ≤ 36524 := by omega
  rw [yearOf, yearStart_mixed hc (by omega) (by omega)]
  omega

/-- A day number survives the way to a date and back. -/
theorem toDays_ofDays (n : Int) : (ofDays n).toDays = n := by
  obtain ⟨h1, h2⟩ := yearStart_yearOf (n + marchZero)
  simp only [ofDays, toDays]
  have h3 : 0 ≤ monthOf (n + marchZero - yearStart (yearOf (n + marchZero))) ∧
      monthOf (n + marchZero - yearStart (yearOf (n + marchZero))) ≤ 11 := by
    simp only [monthOf]; omega
  by_cases h : monthOf (n + marchZero - yearStart (yearOf (n + marchZero))) < 10 <;>
    simp only [h, if_true, if_false, Int.add_sub_cancel, Int.sub_add_cancel]
  · rw [if_neg (by omega)]; omega
  · rw [if_pos (by omega)]; omega

end Date

/-- A time of the day. -/
structure TimeOfDay where
  hour : Int
  minute : Int
  second : Int
  deriving DecidableEq

namespace TimeOfDay

/-- The time a number of seconds after midnight. -/
def ofSeconds (n : Int) : TimeOfDay := ⟨n / 3600, n % 3600 / 60, n % 60⟩

/-- The seconds since midnight. -/
def toSeconds (t : TimeOfDay) : Int := 3600 * t.hour + 60 * t.minute + t.second

theorem toSeconds_ofSeconds (n : Int) : (ofSeconds n).toSeconds = n := by
  simp only [ofSeconds, toSeconds]; omega

end TimeOfDay
end LeaseLock
