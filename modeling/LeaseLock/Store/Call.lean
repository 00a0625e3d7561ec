import LeaseLock.Error

/-!
# Storage calls

The calls that take, extend and give back a lock at a storage service.

## The model

Four calls change records, each in one step: creating one that is absent, claiming one whose lease
has lapsed, moving its end to the time of release, and extending a lease that still runs. Each is
made for a holder and bears the terms of the lease. Creating and claiming tell whether they did it;
an extension may also be something that the service cannot do. Any call may fail instead.
-/

namespace LeaseLock

/-- The answer to an extension. -/
inductive Extension where
  /-- The lease has a new end. -/
  | extended
  /-- The lease has lapsed or is somebody else's. -/
  | lost
  /-- The service cannot extend leases. -/
  | unsupported
  deriving DecidableEq

/-- The kinds of storage calls. -/
inductive CallKind where
  /-- Creates the record of a lock that has none. -/
  | insert
  /-- Claims a record whose lease has lapsed. -/
  | claim
  /-- Moves the end of a lease to the time of its release. -/
  | release
  /-- Moves the end of a running lease. -/
  | extend
  deriving DecidableEq

/-- What a call of a kind answers if it does not fail. -/
abbrev CallKind.Result : CallKind → Type
  | insert => Bool
  | claim => Bool
  | release => Unit
  | extend => Extension

/-- A call to a storage service. -/
structure Call where
  kind : CallKind
  /-- For whom it is made. -/
  holder : String
  terms : Terms
  deriving DecidableEq

/-- What a call comes to. -/
abbrev Call.Answer (c : Call) : Type := Except LockError c.kind.Result

end LeaseLock
