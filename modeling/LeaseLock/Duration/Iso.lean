import LeaseLock.Outcome
import LeaseLock.Text.Numeral
import LeaseLock.Time.Span

/-!
# Durations in the international notation

The reader for durations such as `P1DT2H30M` and `PT0.5S`.

## The model

A duration is `P`, then components of days, then optionally `T` and components of hours, minutes
and seconds; letters may be small. A component is a run of digits and a unit letter; seconds may
have a fraction, of which nine digits count. Components may come in any order and repeat, and
their sum is the result. A single component out of range makes the text invalid. A sum out of
range breaks the reading off, before later components are looked at.
-/

namespace LeaseLock.Duration.Iso

open Text.Numeral

/-- The letters `A` to `Z`, large or small. -/
def isLetter (c : Char) : Bool := c.isAlpha

/-- Splits a text into components, each the characters before a letter and the letter.
A component without characters, or characters after the last letter, spoil the text; `seen` holds
the characters since the last letter in reverse. -/
def components (seen : List Char) : List Char → Option (List (List Char × Char))
  | [] => if seen = [] then some [] else none
  | c :: cs =>
    if isLetter c then
      if seen = [] then none else (components [] cs).map ((seen.reverse, c) :: ·)
    else components (c :: seen) cs

/-- A number of units of so many milliseconds each. The milliseconds are a signed 64-bit number. -/
def wholeUnits (millisPerUnit : Nat) (cs : List Char) : Option Span :=
  if isRun cs then do
    let n ← signedWord? cs
    if n * millisPerUnit ≤ word63 then Span.ofNanos? (n * millisPerUnit * nanosPerMilli) else none
  else none

/-- The nanoseconds of a fraction of a second, from its first nine digits. -/
def fractionNanos (ds : List Char) : Nat :=
  value (ds.take 9) * Nat.pow 10 (9 - (ds.take 9).length)

/-- A number of seconds, with or without a point and a fraction. -/
def fractionalSeconds (cs : List Char) : Option Span :=
  let whole := cs.takeWhile (· != '.')
  let frac := (cs.dropWhile (· != '.')).drop 1
  if whole ≠ [] ∧ isRun whole ∧ isRun frac then do
    let n ← signedWord? whole
    let seconds ← Span.ofNanos? (n * nanosPerSecond)
    let rest ← Span.ofNanos? (fractionNanos frac)
    seconds.add? rest
  else none

/-- The span of a component of days. -/
def dateComponent : List Char × Char → Option Span
  | (cs, 'D') => wholeUnits 86400000 cs
  | _ => none

/-- The span of a component of hours, minutes or seconds. -/
def timeComponent : List Char × Char → Option Span
  | (cs, 'H') => wholeUnits 3600000 cs
  | (cs, 'M') => wholeUnits 60000 cs
  | (cs, 'S') => fractionalSeconds cs
  | _ => none

/-- Adds the spans of components up, in order. -/
def addAll (span : List Char × Char → Option Span) :
    Span → List (List Char × Char) → Outcome Unit Span
  | total, [] => .value total
  | total, c :: cs => do
    let d ← .ofOption () (span c)
    let total ← .orBreak (total.add? d)
    addAll span total cs

/-- Reads what follows the `P`, in large letters. -/
def readBody (body : List Char) : Outcome Unit Span := do
  let datePart := body.takeWhile (· != 'T')
  let timePart := (body.dropWhile (· != 'T')).tail?
  if timePart = some [] ∨ (datePart = [] ∧ timePart = none) then .fault ()
  else
    let days ← .ofOption () (components [] datePart)
    let total ← addAll dateComponent Span.zero days
    match timePart with
    | none => .value total
    | some cs =>
      let times ← .ofOption () (components [] cs)
      addAll timeComponent total times

/-- Reads a duration in the international notation. -/
def read (cs : List Char) : Outcome Unit Span :=
  match cs.map Char.toUpper with
  | 'P' :: body => readBody body
  | _ => .fault ()

end LeaseLock.Duration.Iso
