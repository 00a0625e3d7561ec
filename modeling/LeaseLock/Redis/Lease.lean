import LeaseLock.Lock.Lease
import LeaseLock.Redis.Command
import LeaseLock.Redis.Key

/-!
# Leases at a key-value server

Taking a lock as an expiring key, and what can be done with the lease.

## The model

The lease remembers the key and the value that marks its acquisition; its extensions keep both.
Every script call carries them, so that a key that somebody else has set since is left alone. A
lease is good for one release or one extension. The server accepts no time to expire below one
millisecond. A script that the server does not know is loaded and run again, once.
-/

namespace LeaseLock.Redis

/-- A lease at a key-value server. -/
structure Lease where
  /-- The terms on which it was taken or last extended. -/
  terms : Terms
  key : String
  /-- The value that marks the acquisition. -/
  value : String
  /-- It was neither given back nor extended. -/
  valid : Bool
  deriving DecidableEq

/-- A conversation with a key-value server. -/
abbrev Talk (α : Type) : Type := Dialog Command (fun _ => Reply) α

/-- The milliseconds after which a key expires that is taken for a span. -/
def expiryMillis (d : Span) : Int := max d.wholeMillis 1

/-- The milliseconds for which a key is kept that is given back at `now`. -/
def keepMillis (t : Terms) (now : Instant) : Int := max (t.atLeastUntil.since now).wholeMillis 0

/-- The integer in the reply to a script. -/
def scriptResult (r : Reply) : Except LockError Int :=
  match r.integer? with
  | some n => .ok n
  | none => .error (.backend .command)

/-- Runs a script; one that is not known is loaded first. -/
def runScript (s : Script) (key value : String) (millis : Int) : Talk (Except LockError Int) :=
  .ask (.run s key value millis) fun r =>
    if r.isUnknownScript then
      .ask (.load s) fun
        | .failure _ => .done (.error (.backend .command))
        | _ => .ask (.run s key value millis) fun r => .done (scriptResult r)
    else .done (scriptResult r)

namespace Lease

/-- Takes a lease, or none if the key is there. -/
def acquire (environment holder : String) (now : Instant) (t : Terms) :
    Talk (Except LockError (Option Lease)) :=
  let key := lockKey environment t.name
  let value := lockValue now holder
  .ask (.set key value (expiryMillis t.atMostFor)) fun
    | .failure _ => .done (.error (.backend .command))
    | .nil => .done (.ok none)
    | _ => .done (.ok (some ⟨t, key, value, true⟩))

/-- The lease after it was used up. -/
def spent (l : Lease) : Lease := { l with valid := false }

/-- Gives the lease back. A key that is somebody else's by now is left alone. -/
def release (l : Lease) (now : Instant) : Talk (Except LockError Unit × Lease) :=
  if l.valid then
    (runScript .release l.key l.value (keepMillis l.terms now)).map fun
      | .error e => (.error e, l)
      | .ok _ => (.ok (), l.spent)
  else .done (.error (.handleSpent l.terms.name), l)

/-- Extends the lease to new durations from now on. -/
def extend (l : Lease) (now : Instant) (atMostFor atLeastFor : Span) :
    Talk (Except LockError (Renewal Lease) × Lease) :=
  if l.valid then
    match Terms.make now l.terms.name atMostFor atLeastFor with
    | .error f => .done (.error (.terms f), l)
    | .ok t => (runScript .extend l.key l.value (expiryMillis atMostFor)).map fun
      | .error e => (.error e, l)
      | .ok n =>
        if n = 1 then (.ok (.extended { l with terms := t }), l.spent) else (.ok .lost, l.spent)
  else .done (.error (.handleSpent l.terms.name), l)

end Lease
end LeaseLock.Redis
