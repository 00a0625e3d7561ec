import LeaseLock.Duration.Human
import LeaseLock.Duration.Iso

/-!
# Durations as text

The reader for durations in any of the accepted notations.

## The model

Blanks at both ends are dropped. A text of digits alone is a number of milliseconds, one that
starts with `P` is in the international notation, and any other is in words. A duration is never
negative. Only the international notation and the words can break off, each where a running sum
leaves its range.
-/

namespace LeaseLock

/-- Why a text is not a duration; the texts are those without the blanks around them. -/
inductive DurationFault where
  /-- There is nothing but blanks. -/
  | empty
  /-- A number of milliseconds does not fit 64 bits. -/
  | tooManyDigits (text : String)
  /-- The text is not in the international notation. -/
  | notIso (text : String)
  /-- The text is not in words. -/
  | notHuman (text : String) (fault : Duration.HumanFault)
  /-- The duration is longer than any span. -/
  | outOfRange (text : String)
  deriving DecidableEq

namespace DurationFault

/-- The words for a fault. -/
def message : DurationFault → String
  | empty => "empty duration"
  | tooManyDigits s => "invalid duration '" ++ s ++ "': number too large to fit in target type"
  | notIso s => "invalid ISO-8601 duration '" ++ s ++ "'"
  | notHuman s f => "invalid duration '" ++ s ++ "': " ++ f.message
  | outOfRange s =>
    "invalid duration '" ++ s ++ "': Source duration value is out of range for the target type"

end DurationFault

namespace Duration

open Text Text.Numeral

/-- A number of milliseconds. -/
def ofMillis? (cs : List Char) : Option Span := do
  let n ← signedWord? cs
  Span.ofNanos? (n * nanosPerMilli)

/-- Reads a duration from which the blanks at both ends are gone. -/
def readTrimmed (cs : List Char) : Outcome DurationFault Span :=
  let text := String.ofList cs
  if cs = [] then .fault .empty
  else if isRun cs then .ofOption (.tooManyDigits text) (ofMillis? cs)
  else if cs.head? = some 'P' ∨ cs.head? = some 'p' then
    (Iso.read cs).mapFault fun _ => .notIso text
  else do
    let e ← (Human.read cs).mapFault (.notHuman text)
    .ofOption (.outOfRange text) (Span.ofNanos? (e.seconds * nanosPerSecond + e.nanos))

/-- Reads a duration. -/
def read (s : String) : Outcome DurationFault Span := readTrimmed (trimChars s.toList)

end Duration
end LeaseLock
