/-!
# Spans of time

Signed lengths of time with nanosecond resolution.

## The model

A `Span` is a whole number of nanoseconds within plus or minus `2 ^ 63 - 1` milliseconds. The
bounds are part of the type, so an operation that could leave them answers `none`. Whole
milliseconds and microseconds are counted towards zero.
-/

namespace LeaseLock

/-- Nanoseconds in a millisecond. -/
def nanosPerMilli : Int := 1000000

/-- Nanoseconds in a second. -/
def nanosPerSecond : Int := 1000000000

/-- The greatest length of a span in nanoseconds. -/
def Span.limit : Int := 9223372036854775807 * nanosPerMilli

/-- A signed length of time. -/
structure Span where
  /-- The length in nanoseconds. -/
  nanos : Int
  lower : -Span.limit ≤ nanos
  upper : nanos ≤ Span.limit
  deriving DecidableEq

namespace Span

@[ext] theorem ext {d e : Span} (h : d.nanos = e.nanos) : d = e := by
  cases d; cases e; cases h; rfl

/-- The span of `n` nanoseconds, if it is within the bounds. -/
def ofNanos? (n : Int) : Option Span :=
  if h : -limit ≤ n ∧ n ≤ limit then some ⟨n, h.1, h.2⟩ else none

theorem ofNanos?_eq_some_iff {n : Int} {d : Span} : ofNanos? n = some d ↔ d.nanos = n := by
  unfold ofNanos?
  split
  · exact ⟨fun h => by cases h; rfl, fun h => by cases d; cases h; rfl⟩
  · rename_i hn
    exact ⟨(nomatch ·), fun h => (hn (h ▸ ⟨d.lower, d.upper⟩)).elim⟩

theorem ofNanos?_eq_none_iff {n : Int} : ofNanos? n = none ↔ n < -limit ∨ limit < n := by
  unfold ofNanos?
  constructor
  · intro h
    split at h
    · exact nomatch h
    · omega
  · intro h
    rw [dif_neg (by omega)]

@[simp] theorem ofNanos?_nanos (d : Span) : ofNanos? d.nanos = some d :=
  ofNanos?_eq_some_iff.2 rfl

/-- No time at all. -/
def zero : Span := ⟨0, by decide, by decide⟩

/-- Half a minute. -/
def halfMinute : Span := ⟨30 * nanosPerSecond, by decide, by decide⟩

/-- A span of some seconds. -/
def ofSeconds (n : UInt16) : Span :=
  ⟨n.toNat * nanosPerSecond,
    by simp only [limit, nanosPerSecond, nanosPerMilli]; omega,
    by have := n.toNat_lt; simp only [limit, nanosPerSecond, nanosPerMilli]; omega⟩

instance : LE Span := ⟨fun d e => d.nanos ≤ e.nanos⟩
instance : LT Span := ⟨fun d e => d.nanos < e.nanos⟩
instance (d e : Span) : Decidable (d ≤ e) := inferInstanceAs (Decidable (d.nanos ≤ e.nanos))
instance (d e : Span) : Decidable (d < e) := inferInstanceAs (Decidable (d.nanos < e.nanos))

theorem le_def {d e : Span} : d ≤ e ↔ d.nanos ≤ e.nanos := Iff.rfl
theorem lt_def {d e : Span} : d < e ↔ d.nanos < e.nanos := Iff.rfl

/-- The sum, if it is within the bounds. -/
def add? (d e : Span) : Option Span := ofNanos? (d.nanos + e.nanos)

theorem add?_eq_some_iff {d e f : Span} : d.add? e = some f ↔ f.nanos = d.nanos + e.nanos :=
  ofNanos?_eq_some_iff

/-- The whole milliseconds in a span, counted towards zero. -/
def wholeMillis (d : Span) : Int := d.nanos.tdiv nanosPerMilli

/-- The whole microseconds in a span, counted towards zero. -/
def wholeMicros (d : Span) : Int := d.nanos.tdiv 1000

/-- The microseconds of the span fit a signed 64-bit number. -/
def microsFit (d : Span) : Prop :=
  -9223372036854775808 ≤ d.wholeMicros ∧ d.wholeMicros ≤ 9223372036854775807

instance (d : Span) : Decidable d.microsFit := inferInstanceAs (Decidable (_ ∧ _))

/-- The whole microseconds of the span, if they fit a signed 64-bit number. -/
def micros? (d : Span) : Option Int := if d.microsFit then some d.wholeMicros else none

/-- The whole microseconds of the span, or the greatest signed 64-bit number in their place. -/
def cappedMicros (d : Span) : Int := d.micros?.getD 9223372036854775807

theorem micros?_eq_some {d : Span} (h : d.microsFit) : d.micros? = some d.wholeMicros := if_pos h

theorem cappedMicros_eq {d : Span} (h : d.microsFit) : d.cappedMicros = d.wholeMicros := by
  rw [cappedMicros, micros?_eq_some h, Option.getD_some]

theorem wholeMicros_mono {d e : Span} (h : d ≤ e) : d.wholeMicros ≤ e.wholeMicros :=
  Int.tdiv_le_tdiv (by decide) h

/-- The whole seconds of a span, counted downwards. -/
def seconds (d : Span) : Int := d.nanos / nanosPerSecond

/-- The nanoseconds left over by `seconds`. -/
def subsecond (d : Span) : Int := d.nanos % nanosPerSecond

theorem seconds_subsecond (d : Span) :
    d.seconds * nanosPerSecond + d.subsecond = d.nanos := by
  rw [seconds, subsecond, Int.mul_comm]; exact Int.mul_ediv_add_emod ..

end Span
end LeaseLock
