import LeaseLock.Error

/-!
# Default durations

The durations for lock definitions that leave them out.

## The model

A lock definition gives its durations as text. A missing or blank one is taken from the defaults;
any other is read, the maximum first.
-/

namespace LeaseLock

/-- The durations of leases whose definition gives none. -/
structure Defaults where
  atMostFor : Span
  atLeastFor : Span
  deriving DecidableEq

namespace Defaults

/-- Half a minute at most, and no minimum. -/
def standard : Defaults := ⟨Span.halfMinute, Span.zero⟩

/-- The duration of a text, or the given one if there is none. -/
def duration (default : Span) : Option String → Outcome LockError Span
  | none => .value default
  | some s => if Text.isAllBlank s then .value default else (Duration.read s).mapFault .duration

/-- The terms for a lock definition with durations as text. -/
def terms (d : Defaults) (now : Instant) (name : String) (atMostFor atLeastFor : Option String) :
    Outcome LockError Terms := do
  let most ← duration d.atMostFor atMostFor
  let least ← duration d.atLeastFor atLeastFor
  (Outcome.ofExcept (Terms.make now name most least)).mapFault .terms

end Defaults
end LeaseLock
