import LeaseLock.Text.Numeral
import LeaseLock.Time.Span

/-!
# Written durations

The standard text form of a span.

## The model

A span of no time is written `P0D`. Any other is written as `PT`, its seconds, and `S`, with a
minus in front if it is negative. A fraction of a second follows a point and has no trailing zeros.
-/

namespace LeaseLock.Duration

open Text.Numeral

/-- The digits of a fraction without the zeros at their end. -/
def withoutTrailingZeros (ds : List Char) : List Char :=
  (ds.reverse.dropWhile (· == '0')).reverse

/-- The fraction of a second, with its point, for a number of nanoseconds below a second. -/
def fractionText (nanos : Nat) : List Char :=
  if nanos = 0 then [] else '.' :: withoutTrailingZeros (padded 9 nanos)

/-- The text of a span. -/
def writtenChars (d : Span) : List Char :=
  if d.nanos = 0 then ['P', '0', 'D']
  else
    let n := d.nanos.natAbs
    (if d.nanos < 0 then ['-'] else []) ++ 'P' :: 'T' :: digits (n / 1000000000) ++
      fractionText (n % 1000000000) ++ ['S']

/-- The text of a span. -/
def written (d : Span) : String := String.ofList (writtenChars d)

end LeaseLock.Duration
