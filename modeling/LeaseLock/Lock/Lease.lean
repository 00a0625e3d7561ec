import LeaseLock.Dialog
import LeaseLock.Store.Call

/-!
# Leases at a storage service

Taking a lock by storage calls, and what can be done with the lease.

## The model

To take a lock, its record is created; where there is one already, it is claimed. A lease is good
for one release or one extension, which hands out another lease in its place or finds that there
is nothing to extend any more. A call that fails, or that the service cannot do, leaves the lease
as it was. Spent leases make no calls.
-/

namespace LeaseLock

/-- What an extension hands out. -/
inductive Renewal (L : Type) where
  /-- A new lease in place of the old one. -/
  | extended (lease : L)
  /-- The lease had lapsed or was somebody else's. -/
  | lost
  /-- The service cannot extend leases. -/
  | unsupported

/-- The renewal with its lease in another form. -/
def Renewal.map {L M : Type} (f : L → M) : Renewal L → Renewal M
  | extended l => extended (f l)
  | lost => lost
  | unsupported => unsupported

/-- A lease at a storage service. -/
structure Lease where
  /-- For whom it was taken. -/
  holder : String
  /-- The terms on which it was taken or last extended. -/
  terms : Terms
  /-- It was neither given back nor extended. -/
  valid : Bool
  deriving DecidableEq

namespace Lease

/-- A conversation with a storage service. -/
abbrev Talk (α : Type) : Type := Dialog Call Call.Answer α

/-- Takes the lock; `false` if somebody else has it. -/
def secure (holder : String) (t : Terms) : Talk (Except LockError Bool) :=
  .ask ⟨.insert, holder, t⟩ fun
    | .error e => .done (.error e)
    | .ok true => .done (.ok true)
    | .ok false => .ask ⟨.claim, holder, t⟩ .done

/-- Takes a lease, or none if somebody else has the lock. An error that says no more than that is
none. -/
def acquire (holder : String) (t : Terms) : Talk (Except LockError (Option Lease)) :=
  (secure holder t).map fun
    | .ok true => .ok (some ⟨holder, t, true⟩)
    | .ok false => .ok none
    | .error e => if e.isConflict then .ok none else .error e

/-- The lease after it was used up. -/
def spent (l : Lease) : Lease := { l with valid := false }

/-- Gives the lease back. -/
def release (l : Lease) : Talk (Except LockError Unit × Lease) :=
  if l.valid then
    .ask ⟨.release, l.holder, l.terms⟩ fun
      | .error e => .done (.error e, l)
      | .ok () => .done (.ok (), l.spent)
  else .done (.error (.handleSpent l.terms.name), l)

/-- Extends the lease to new durations from now on. -/
def extend (l : Lease) (now : Instant) (atMostFor atLeastFor : Span) :
    Talk (Except LockError (Renewal Lease) × Lease) :=
  if l.valid then
    match Terms.make now l.terms.name atMostFor atLeastFor with
    | .error f => .done (.error (.terms f), l)
    | .ok t => .ask ⟨.extend, l.holder, t⟩ fun
      | .error e => .done (.error e, l)
      | .ok .extended => .done (.ok (.extended { l with terms := t }), l.spent)
      | .ok .lost => .done (.ok .lost, l.spent)
      | .ok .unsupported => .done (.ok .unsupported, l)
  else .done (.error (.handleSpent l.terms.name), l)

end Lease
end LeaseLock
