import LeaseLock.Text.Blank
import LeaseLock.Time.Stamp

/-!
# Reading time stamps

The reader for stamps as a text column holds them.

## The model

A stamp is a year, month and day with hyphens, a blank, and hour, minute and second with colons,
optionally followed by a point and a fraction. Each number may be shorter than the written form
has it, and any blanks may stand before it. A year has at most four digits unless a sign precedes
it. A number outside its range is refused where it stands, a day that the month does not have at
the end. The second may be the sixtieth: a `Moment` then counts on past the last nanosecond of the
second before.
-/

namespace LeaseLock

/-- A second since 1970 and the nanoseconds after its start, a thousand million or more of them
inside a leap second. -/
structure Moment where
  seconds : Int
  nanos : Nat
  deriving DecidableEq

namespace Moment

/-- An instant as a moment outside any leap second. -/
def ofInstant (t : Instant) : Moment := ⟨t.seconds, t.subsecond.toNat⟩

/-- The nanoseconds since the start of 1970. -/
def toNanos (m : Moment) : Int := m.seconds * nanosPerSecond + m.nanos

end Moment

/-- Why a text is not a time stamp. -/
inductive StampFault where
  /-- The text ends too early. -/
  | tooShort
  /-- A character is not the one expected. -/
  | unexpected
  /-- Something follows the stamp. -/
  | tooLong
  /-- A number is outside its range. -/
  | outOfRange
  deriving DecidableEq

namespace StampFault

/-- The words for a fault. -/
def message : StampFault → String
  | tooShort => "premature end of input"
  | unexpected => "input contains invalid characters"
  | tooLong => "trailing input"
  | outOfRange => "input is out of range"

end StampFault

namespace Stamp

open Text Text.Numeral

/-- Takes one given character. -/
def expect (c : Char) : List Char → Except StampFault (List Char)
  | [] => .error .tooShort
  | d :: rest => if d = c then .ok rest else .error .unexpected

/-- Takes a number of at most `width` digits and at least one. -/
def number (width : Nat) (cs : List Char) : Except StampFault (Nat × List Char) :=
  let ds := (cs.take width).takeWhile Char.isDigit
  match cs, ds with
  | [], _ => .error .tooShort
  | _ :: _, [] => .error .unexpected
  | _, d :: more =>
    if value (d :: more) ≤ word63 then .ok (value (d :: more), cs.drop (d :: more).length)
    else .error .outOfRange

/-- Takes a number after any blanks, and refuses one outside the bounds. -/
def field (low high : Nat) (cs : List Char) : Except StampFault (Nat × List Char) := do
  let (n, rest) ← number 2 (cs.dropWhile isBlank)
  if low ≤ n ∧ n ≤ high then return (n, rest) else throw .outOfRange

/-- A year as a signed 32-bit number. -/
def boundedYear (y : Int) : Except StampFault Int :=
  if -2147483648 ≤ y ∧ y ≤ 2147483647 then .ok y else .error .outOfRange

/-- Takes a year after any blanks: four digits at most, or any number of them after a sign. -/
def year (cs : List Char) : Except StampFault (Int × List Char) := do
  match cs.dropWhile isBlank with
  | '-' :: cs => let (n, rest) ← number cs.length cs; return (← boundedYear (-n), rest)
  | '+' :: cs => let (n, rest) ← number cs.length cs; return (← boundedYear n, rest)
  | cs => let (n, rest) ← number 4 cs; return (← boundedYear n, rest)

/-- Takes the nanoseconds of a fraction, if there is one; digits after the ninth are dropped. -/
def fraction : List Char → Except StampFault (Nat × List Char)
  | '.' :: cs => do
    let (n, rest) ← number 9 cs
    return (n * Nat.pow 10 (9 - (cs.length - rest.length)), rest.dropWhile Char.isDigit)
  | cs => .ok (0, cs)

/-- The years that instants reach. -/
def yearInReach (y : Int) : Bool := -262143 ≤ y && y ≤ 262142

/-- Reads a whole text as a stamp. -/
def readChars (cs : List Char) : Except StampFault Moment := do
  let (y, cs) ← year cs
  let (month, cs) ← field 1 12 (← expect '-' cs)
  let (day, cs) ← field 1 31 (← expect '-' cs)
  let (hour, cs) ← field 0 23 cs
  let (minute, cs) ← field 0 59 (← expect ':' cs)
  let (second, cs) ← field 0 60 (← expect ':' cs)
  let (nanos, cs) ← fraction cs
  if cs ≠ [] then throw .tooLong
  let date : Date := ⟨y, month, day⟩
  if !(yearInReach y && date.isValid) then throw .outOfRange
  let seconds (s : Nat) : Int := date.toDays * 86400 + TimeOfDay.toSeconds ⟨hour, minute, s⟩
  if second = 60 then return ⟨seconds 59, 1000000000 + nanos⟩
  else return ⟨seconds second, nanos⟩

/-- Reads a whole text as a stamp. -/
def read (s : String) : Except StampFault Moment := readChars s.toList

end Stamp
end LeaseLock
