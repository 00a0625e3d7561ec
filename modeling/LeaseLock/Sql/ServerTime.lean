import LeaseLock.Text.Blank
import LeaseLock.Time.Stamp

/-!
# Times inside the database

What the database makes of the texts that it reads as times, and how it adds to them.

## The model

The database has no type for times. It reads a text as a date and a time of the day, counts in
milliseconds, and writes the result as a stored stamp again. A number of microseconds that is
added is rounded to milliseconds first, half of one upwards. Where a text is no time, or the sum
lies beyond the year 9999, there is no result.
-/

namespace LeaseLock.Sql.ServerTime

open Text Text.Numeral

/-- White space of the ASCII range. -/
def isSpace (c : Char) : Bool := c.toNat < 128 && isBlank c

/-- The first millisecond that the database knows, at noon of a November day in the year -4713. -/
def firstMilli : Int := -210866760000000

/-- The last millisecond that the database knows, at the end of the year 9999. -/
def lastMilli : Int := 253402300799999

/-- Takes a number of exactly `width` digits within bounds. -/
def digits? (width low high : Nat) (cs : List Char) : Option (Nat × List Char) :=
  let ds := cs.take width
  if ds.length = width ∧ isRun ds ∧ low ≤ value ds ∧ value ds ≤ high then
    some (value ds, cs.drop width)
  else none

/-- Takes one given character. -/
def mark? (c : Char) : List Char → Option (List Char)
  | [] => none
  | d :: rest => if d = c then some rest else none

/-- Takes a date as a number of days since 1970. -/
def date? (cs : List Char) : Option (Int × List Char) := do
  let (sign, cs) : Int × List Char := match cs with
    | '-' :: rest => (-1, rest)
    | _ => (1, cs)
  let (y, cs) ← digits? 4 0 9999 cs
  let (m, cs) ← digits? 2 1 12 (← mark? '-' cs)
  let (d, cs) ← digits? 2 1 31 (← mark? '-' cs)
  return (Date.toDays ⟨sign * y, m, d⟩, cs)

/-- Takes the milliseconds of a fraction of a second, rounded, if there is one. -/
def fraction : List Char → Int × List Char
  | '.' :: cs =>
    let ds := cs.takeWhile Char.isDigit
    if ds = [] then (0, '.' :: cs)
    else
      let size := Nat.pow 10 ds.length
      ((value ds * 2000 + size) / (2 * size), cs.dropWhile Char.isDigit)
  | cs => (0, cs)

/-- Takes the seconds of a time of the day in milliseconds, if there are any. -/
def secondMillis (cs : List Char) : Option (Int × List Char) :=
  match cs with
  | ':' :: rest => do
    let (s, rest) ← digits? 2 0 59 rest
    let (f, rest) := fraction rest
    return ((s : Int) * 1000 + f, rest)
  | _ => some (0, cs)

/-- Reads the rest of a text as the minutes of an offset from universal time. -/
def offset? (cs : List Char) : Option Int :=
  let close (n : Int) (rest : List Char) : Option Int := if rest.all isSpace then some n else none
  let distance (sign : Int) (rest : List Char) : Option Int := do
    let (h, rest) ← digits? 2 0 14 rest
    let (m, rest) ← digits? 2 0 59 (← mark? ':' rest)
    close (sign * (h * 60 + m)) rest
  match cs.dropWhile isSpace with
  | [] => some 0
  | 'Z' :: rest => close 0 rest
  | 'z' :: rest => close 0 rest
  | '+' :: rest => distance 1 rest
  | '-' :: rest => distance (-1) rest
  | _ => none

/-- Reads the rest of a text as a time of the day, in milliseconds. -/
def time? (cs : List Char) : Option Int := do
  let (h, cs) ← digits? 2 0 24 cs
  let (m, cs) ← digits? 2 0 59 (← mark? ':' cs)
  let (s, cs) ← secondMillis cs
  let away ← offset? cs
  return ((h : Int) * 60 + m - away) * 60000 + s

/-- Reads a text as a time, in milliseconds since 1970. -/
def millis? (cs : List Char) : Option Int := do
  let (days, cs) ← date? cs
  let rest := cs.dropWhile fun c => isSpace c || c == 'T'
  let inDay ← if rest = [] then some 0 else time? rest
  return days * 86400000 + inDay

/-- The stored stamp of a millisecond that the database knows. -/
def stamp? (millis : Int) : Option String :=
  if firstMilli ≤ millis ∧ millis ≤ lastMilli then
    (Instant.ofNanos? (millis * nanosPerMilli)).map Stamp.stored
  else none

/-- The stored stamp of a number of microseconds after a millisecond. -/
def later? (millis micros : Int) : Option String := stamp? (millis + (micros + 500) / 1000)

end LeaseLock.Sql.ServerTime
