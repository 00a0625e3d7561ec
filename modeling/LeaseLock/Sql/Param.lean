import LeaseLock.Terms

/-!
# Statement parameters

The values that statements on the lock table take, by name.

## The model

Seven parameters suffice for all statements. Each has a name under which statement templates
mention it, and a value for given terms, holder and reading of the clock. Durations are whole
microseconds, capped at 64 bits.
-/

namespace LeaseLock.Sql

/-- The parameters of statements. -/
inductive Param where
  /-- The name of the lock. -/
  | name
  /-- Who takes it. -/
  | lockedBy
  /-- When the lease lapses. -/
  | lockUntil
  /-- The reading of the clock. -/
  | now
  /-- When a lease that is given back now ends. -/
  | unlockTime
  /-- The greatest length of the lease. -/
  | atMostMicros
  /-- The least length of the lease. -/
  | atLeastMicros
  deriving DecidableEq

/-- The value of a parameter. -/
inductive Bound where
  | text (s : String)
  | time (t : Instant)
  | micros (n : Int)
  deriving DecidableEq

namespace Param

/-- All parameters. -/
def all : List Param :=
  [name, lockedBy, lockUntil, now, unlockTime, atMostMicros, atLeastMicros]

/-- The name under which templates mention a parameter. -/
def token : Param → String
  | name => "name"
  | lockedBy => "lockedBy"
  | lockUntil => "lockUntil"
  | now => "now"
  | unlockTime => "unlockTime"
  | atMostMicros => "lockAtMostForMicros"
  | atLeastMicros => "lockAtLeastForMicros"

/-- The parameter of a name. -/
def ofToken? (cs : List Char) : Option Param := all.find? fun p => p.token.toList == cs

/-- The value of a parameter. -/
def bound (p : Param) (t : Terms) (holder : String) (clock : Instant) : Bound :=
  match p with
  | name => .text t.name
  | lockedBy => .text holder
  | lockUntil => .time t.atMostUntil
  | now => .time clock
  | unlockTime => .time (t.releaseAt clock)
  | atMostMicros => .micros t.atMostFor.cappedMicros
  | atLeastMicros => .micros t.atLeastFor.cappedMicros

theorem ofToken?_token (p : Param) : ofToken? p.token.toList = some p := by
  cases p <;> decide

end Param
end LeaseLock.Sql
