import LeaseLock.Outcome
import LeaseLock.Text.Blank
import LeaseLock.Text.Numeral
import LeaseLock.Time.Span

/-!
# Durations in words

The reader for durations such as `1h 30m`, `250 ms` and `1.5 days`.

## The model

A duration is a sequence of amounts, each a number and a unit. Blanks may stand before and within
a number and after a unit. A number may have a fraction, which has to come out exactly: in
nanoseconds for units up to the minute, in seconds for longer ones. The reader moves through the
text one character at a time in one of four phases and keeps count of the bytes it has passed, by
which faults are located. The sum is kept as seconds and nanoseconds in unsigned 64-bit numbers.
-/

namespace LeaseLock.Duration

/-- Why a text is not a duration in words. -/
inductive HumanFault where
  /-- There is nothing to read. -/
  | empty
  /-- A number has to start at this byte. -/
  | numberExpected (offset : Nat)
  /-- The character at this byte does not belong there. -/
  | invalidCharacter (offset : Nat)
  /-- A number is too large, or its fraction does not come out exactly. -/
  | inexact
  /-- The number has no unit. -/
  | unitNeeded (number : Nat)
  /-- The word is not the name of a unit. -/
  | unknownUnit (word : String)
  deriving DecidableEq

namespace HumanFault

/-- The words for a fault. -/
def message : HumanFault → String
  | empty => "value was empty"
  | numberExpected n => "expected number at " ++ toString n
  | invalidCharacter n => "invalid character at " ++ toString n
  | inexact =>
    "number is too large or cannot be represented without a lack of precision " ++
      "(values below 1ns are not supported)"
  | unitNeeded n =>
    "time unit needed, for example " ++ toString n ++ "sec or " ++ toString n ++ "ms"
  | unknownUnit w =>
    "unknown time unit \"" ++ w ++ "\", supported units: ns, us/µs, ms, sec, min, hours, days, " ++
      "weeks, months, years (and few variations)"

end HumanFault

namespace Human

open Text.Numeral

/-- The units of a duration in words. -/
inductive Measure where
  | nanosecond | microsecond | millisecond | second | minute | hour | day | week | month | year
  deriving DecidableEq

namespace Measure

/-- The unit of a name. -/
def named? : List Char → Option Measure := fun cs =>
  let word := String.ofList cs
  if word ∈ ["nanos", "nsec", "ns"] then some nanosecond
  else if word ∈ ["usec", "us", "µs"] then some microsecond
  else if word ∈ ["millis", "msec", "ms"] then some millisecond
  else if word ∈ ["seconds", "second", "secs", "sec", "s"] then some second
  else if word ∈ ["minutes", "minute", "min", "mins", "m"] then some minute
  else if word ∈ ["hours", "hour", "hr", "hrs", "h"] then some hour
  else if word ∈ ["days", "day", "d"] then some day
  else if word ∈ ["weeks", "week", "wk", "wks", "w"] then some week
  else if word ∈ ["months", "month", "M"] then some month
  else if word ∈ ["years", "year", "yr", "yrs", "y"] then some year
  else none

/-- What a whole number of the unit adds: seconds and nanoseconds. -/
def whole (n : Nat) : Measure → Nat × Nat
  | nanosecond => (0, n)
  | microsecond => (0, n * 1000)
  | millisecond => (0, n * 1000000)
  | second => (n, 0)
  | minute => (n * 60, 0)
  | hour => (n * 3600, 0)
  | day => (n * 86400, 0)
  | week => (n * 604800, 0)
  | month => (n * 2630016, 0)
  | year => (n * 31557600, 0)

/-- The unit in the measure that a fraction of it is counted in: seconds (`true`) or
nanoseconds. Fractions of a nanosecond are not counted. -/
def fine? : Measure → Option (Bool × Nat)
  | nanosecond => none
  | microsecond => some (false, 1000)
  | millisecond => some (false, 1000000)
  | second => some (false, 1000000000)
  | minute => some (false, 60000000000)
  | hour => some (true, 3600)
  | day => some (true, 86400)
  | week => some (true, 604800)
  | month => some (true, 2630016)
  | year => some (true, 31557600)

end Measure

/-- A sum so far, in seconds and nanoseconds below a second. -/
structure Elapsed where
  seconds : Nat
  nanos : Nat
  deriving DecidableEq

/-- A fraction of a unit. -/
structure Fraction where
  numerator : Nat
  denominator : Nat
  deriving DecidableEq

/-- Adds seconds and nanoseconds to a sum. More than a thousand million nanoseconds are carried
with a check of the range; exactly as many are carried without, and break off at its end. -/
def Elapsed.add (e : Elapsed) (seconds nanos : Nat) : Outcome HumanFault Elapsed :=
  if word64 < seconds ∨ word64 < nanos ∨ word64 < e.nanos + nanos then .fault .inexact
  else
    let n := e.nanos + nanos
    let carry := if 1000000000 < n then n / 1000000000 else 0
    let n := if 1000000000 < n then n % 1000000000 else n
    let s := e.seconds + seconds + carry
    if word64 < s then .fault .inexact
    else if n < 1000000000 then .value ⟨s, n⟩
    else if word64 < s + 1 then .breakdown
    else .value ⟨s + 1, 0⟩

/-- Adds a fraction of a unit to a sum. -/
def Elapsed.addFraction (e : Elapsed) (f : Fraction) (u : Measure) : Outcome HumanFault Elapsed :=
  match u.fine? with
  | none => .fault .inexact
  | some (inSeconds, size) =>
    if word64 < f.numerator * size ∨ f.numerator * size % f.denominator ≠ 0 then .fault .inexact
    else
      let n := f.numerator * size / f.denominator
      if inSeconds then e.add n 0 else e.add 0 n

/-- Adds a number, with its fraction if it has one, of the unit of a name. -/
def Elapsed.addAmount (e : Elapsed) (n : Nat) (f : Option Fraction) (word : List Char) :
    Outcome HumanFault Elapsed := do
  match Measure.named? word with
  | none => if word = [] then .fault (.unitNeeded n) else .fault (.unknownUnit (String.ofList word))
  | some u =>
    let (s, ns) := u.whole n
    let e ← e.add s ns
    match f with
    | none => .value e
    | some f => e.addFraction f u

/-- Where the reader is. -/
inductive Phase where
  /-- Before a number, with the byte where this began. -/
  | gap (start : Nat)
  /-- In a number. -/
  | number (n : Nat)
  /-- In the fraction of a number, with the byte after its last character. -/
  | fraction (n : Nat) (f : Fraction) (last : Nat)
  /-- In a unit, with its letters in reverse. -/
  | letters (n : Nat) (f : Option Fraction) (word : List Char)

/-- The letters of units. -/
def isUnitLetter (c : Char) : Bool := c.isAlpha || c == 'µ'

/-- The value of a digit. -/
def digit (c : Char) : Nat := c.toNat - '0'.toNat

/-- The number with one more digit, if it is a 64-bit number. -/
def extend? (n : Nat) (c : Char) : Option Nat :=
  if n * 10 + digit c ≤ word64 then some (n * 10 + digit c) else none

/-- The fraction with one more digit, if both its parts are 64-bit numbers. -/
def Fraction.extend? (f : Fraction) (c : Char) : Option Fraction :=
  if f.denominator * 10 ≤ word64 ∧ f.numerator * 10 + digit c ≤ word64 then
    some ⟨f.numerator * 10 + digit c, f.denominator * 10⟩
  else none

/-- Reads the rest of a text from the byte `pos` on, with the sum so far. -/
def scan (phase : Phase) (pos : Nat) (e : Elapsed) : List Char → Outcome HumanFault Elapsed
  | [] =>
    match phase with
    | .gap _ => .value e
    | .number n => e.addAmount n none []
    | .fraction n f last =>
      if f.denominator = 1 then .fault (.invalidCharacter last) else e.addAmount n (some f) []
    | .letters n f word => e.addAmount n f word.reverse
  | c :: cs =>
    let next := pos + c.utf8Size
    match phase with
    | .gap start =>
      if c.isDigit then scan (.number (digit c)) next e cs
      else if Text.isBlank c then scan (.gap start) next e cs
      else .fault (.numberExpected start)
    | .number n =>
      if c.isDigit then
        match extend? n c with
        | some n => scan (.number n) next e cs
        | none => .fault .inexact
      else if Text.isBlank c then scan (.number n) next e cs
      else if isUnitLetter c then scan (.letters n none [c]) next e cs
      else if c = '.' then scan (.fraction n ⟨0, 1⟩ pos) next e cs
      else .fault (.invalidCharacter pos)
    | .fraction n f last =>
      if c.isDigit then
        match f.extend? c with
        | some f => scan (.fraction n f next) next e cs
        | none => .fault .inexact
      else if Text.isBlank c then scan (.fraction n f next) next e cs
      else if isUnitLetter c then
        if f.denominator = 1 then .fault (.invalidCharacter last)
        else scan (.letters n (some f) [c]) next e cs
      else .fault (.invalidCharacter last)
    | .letters n f word =>
      if c.isDigit then do
        let e ← e.addAmount n f word.reverse
        scan (.number (digit c)) next e cs
      else if Text.isBlank c then do
        let e ← e.addAmount n f word.reverse
        scan (.gap next) next e cs
      else if isUnitLetter c then scan (.letters n f (c :: word)) next e cs
      else .fault (.invalidCharacter pos)

/-- Reads a duration in words. -/
def read (cs : List Char) : Outcome HumanFault Elapsed :=
  if cs.all Text.isBlank then .fault .empty else scan (.gap 0) 0 ⟨0, 0⟩ cs

end Human
end LeaseLock.Duration
