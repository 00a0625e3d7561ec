import LeaseLock.Time.Instant

/-!
# Lock records

What a storage service keeps of a named lock.

## The model

A record says until when the lock is taken, since when, and by whom. Records are kept under the
names of the locks.
-/

namespace LeaseLock

/-- The stored state of a named lock. -/
structure Record where
  lockUntil : Instant
  lockedAt : Instant
  lockedBy : String
  deriving DecidableEq

end LeaseLock
