import LeaseLock.Time.Instant

/-!
# The clock

A clock that moves only when told to.

## The model

The reading is always a whole millisecond: whatever instant the clock is moved to is cut down to
one. Moving it beyond the first or last instant is not possible and answers `none`.
-/

namespace LeaseLock

/-- A clock. -/
structure Clock where
  /-- What the clock shows. -/
  reading : Instant
  deriving DecidableEq

namespace Clock

/-- The clock showing an instant. -/
def showing (t : Instant) : Clock := ⟨t.floorMillis⟩

/-- The clock moved to an instant. -/
def set (_ : Clock) (t : Instant) : Clock := .showing t

/-- The clock moved on by a span, or back by a negative one. -/
def advance? (c : Clock) (d : Span) : Option Clock := (c.reading.add? d).map .showing

@[simp] theorem reading_set (c : Clock) (t : Instant) : (c.set t).reading = t.floorMillis := rfl

theorem advance?_eq_none_iff {c : Clock} {d : Span} :
    c.advance? d = none ↔ c.reading.add? d = none := by simp [advance?]

end Clock
end LeaseLock
