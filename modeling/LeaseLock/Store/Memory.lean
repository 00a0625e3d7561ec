import LeaseLock.Registry
import LeaseLock.Store.Call
import LeaseLock.Store.Record

/-!
# The store in memory

Lock records kept under the names of the locks.

## The model

Each operation is one step on the whole store. It is carried out for a holder at a reading of the
clock, on the terms of a lease. Releasing does not ask who holds the lock; extending does, and
leaves everything but the end of the lease as it is.
-/

namespace LeaseLock

/-- Lock records under the names of the locks. -/
abbrev Store := Registry String Record

namespace Store

/-- Creates the record if there is none. -/
def insert (s : Store) (holder : String) (now : Instant) (t : Terms) : Bool × Store :=
  match s.get? t.name with
  | some _ => (false, s)
  | none => (true, s.put t.name ⟨t.atMostUntil, now, holder⟩)

/-- Claims the record if its lease has lapsed. -/
def claim (s : Store) (holder : String) (now : Instant) (t : Terms) : Bool × Store :=
  match s.get? t.name with
  | some r =>
    if r.lockUntil ≤ now then (true, s.put t.name ⟨t.atMostUntil, now, holder⟩) else (false, s)
  | none => (false, s)

/-- Moves the end of the lease to the time of its release. -/
def release (s : Store) (now : Instant) (t : Terms) : Store :=
  match s.get? t.name with
  | some r => s.put t.name { r with lockUntil := t.releaseAt now }
  | none => s

/-- Moves the end of the lease if it still runs and is the holder's. -/
def extend (s : Store) (holder : String) (now : Instant) (t : Terms) : Extension × Store :=
  match s.get? t.name with
  | some r =>
    if r.lockedBy = holder ∧ now < r.lockUntil then
      (.extended, s.put t.name { r with lockUntil := t.atMostUntil })
    else (.lost, s)
  | none => (.lost, s)

/-- Carries out a call. It never fails. -/
def perform (s : Store) (now : Instant) : (c : Call) → c.kind.Result × Store
  | ⟨.insert, holder, t⟩ => s.insert holder now t
  | ⟨.claim, holder, t⟩ => s.claim holder now t
  | ⟨.release, _, t⟩ => ((), s.release now t)
  | ⟨.extend, holder, t⟩ => s.extend holder now t

end Store
end LeaseLock
