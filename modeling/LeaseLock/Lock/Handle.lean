import LeaseLock.Redis.Lease

/-!
# Handles

Leases of either family under one interface.

## The model

A provider takes locks for a holder, at a storage service or at a key-value server. What it hands
out is used in the same way in both cases; the questions asked on the way are those of the family.
-/

namespace LeaseLock

/-- A question to the service that keeps the locks. -/
inductive Query where
  /-- A call to a storage service. -/
  | store (call : Call)
  /-- A command to a key-value server. -/
  | send (command : Redis.Command)

/-- What a question is answered with. -/
abbrev Query.Answer : Query → Type
  | store c => c.Answer
  | send _ => Redis.Reply

/-- A conversation with the service that keeps the locks. -/
abbrev Talk (α : Type) : Type := Dialog Query Query.Answer α

/-- A conversation with a storage service. -/
def Lease.Talk.lift {α : Type} (d : Lease.Talk α) : LeaseLock.Talk α :=
  d.via Query.store fun _ a => a

/-- A conversation with a key-value server. -/
def Redis.Talk.lift {α : Type} (d : Redis.Talk α) : LeaseLock.Talk α :=
  d.via Query.send fun _ a => a

/-- A lease in somebody's hands. -/
inductive Handle where
  /-- A lease at a storage service. -/
  | stored (lease : Lease)
  /-- A lease at a key-value server. -/
  | keyed (lease : Redis.Lease)
  deriving DecidableEq

namespace Handle

/-- The terms on which the lease was taken or last extended. -/
def terms : Handle → Terms
  | stored l => l.terms
  | keyed l => l.terms

/-- The lease was neither given back nor extended. -/
def valid : Handle → Bool
  | stored l => l.valid
  | keyed l => l.valid

/-- Gives the lease back. -/
def release (now : Instant) : Handle → Talk (Except LockError Unit × Handle)
  | stored l => (Lease.Talk.lift l.release).map fun r => (r.1, stored r.2)
  | keyed l => (Redis.Talk.lift (l.release now)).map fun r => (r.1, keyed r.2)

/-- Extends the lease to new durations from now on. -/
def extend (now : Instant) (atMostFor atLeastFor : Span) :
    Handle → Talk (Except LockError (Renewal Handle) × Handle)
  | stored l => (Lease.Talk.lift (l.extend now atMostFor atLeastFor)).map fun r =>
    (r.1.map (·.map stored), stored r.2)
  | keyed l => (Redis.Talk.lift (l.extend now atMostFor atLeastFor)).map fun r =>
    (r.1.map (·.map keyed), keyed r.2)

end Handle

/-- Where locks are taken. -/
inductive Provider where
  /-- At a storage service, for a holder. -/
  | stored (holder : String)
  /-- At a key-value server, in an environment and for a holder. -/
  | keyed (environment holder : String)
  deriving DecidableEq

/-- Takes a lease, or none if somebody else has the lock. -/
def Provider.acquire (now : Instant) (t : Terms) :
    Provider → Talk (Except LockError (Option Handle))
  | stored holder =>
    (Lease.Talk.lift (Lease.acquire holder t)).map fun r => r.map (·.map Handle.stored)
  | keyed environment holder =>
    (Redis.Talk.lift (Redis.Lease.acquire environment holder now t)).map fun r =>
      r.map (·.map Handle.keyed)

end LeaseLock
