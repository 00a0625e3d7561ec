import LeaseLock.Scenario.Event
import LeaseLock.Store.Memory

/-!
# Backends of scenarios

The services that keep the locks of a scenario.

## The model

The locks are kept in memory, in a database, or by a service that only plays back answers: storage
calls take theirs from a list for each kind of call, commands from a single list. An answer that is
played back may take some turns to arrive. When a list is used up, calls do what is most common
and commands find nothing.
-/

namespace LeaseLock.Scenario

/-- An answer to play back, and the turns it takes. -/
structure Scripted (α : Type) where
  turns : Nat
  answer : Except LockError α

/-- Answers to play back. -/
structure Playback where
  insert : List (Scripted Bool) := []
  claim : List (Scripted Bool) := []
  release : List (Scripted Unit) := []
  /-- If there is no such list, the service cannot extend leases. -/
  extend : Option (List (Scripted Extension)) := none

/-- The next of a list of answers, or a common one. -/
def next {α : Type} (common : α) : List (Scripted α) → Scripted α × List (Scripted α)
  | [] => (⟨0, .ok common⟩, [])
  | r :: rs => (r, rs)

/-- The next answer to a call of a kind. -/
def Playback.take (p : Playback) : (k : CallKind) → Scripted k.Result × Playback
  | .insert => let (r, rs) := next true p.insert; (r, { p with insert := rs })
  | .claim => let (r, rs) := next false p.claim; (r, { p with claim := rs })
  | .release => let (r, rs) := next () p.release; (r, { p with release := rs })
  | .extend => match p.extend with
    | none => (⟨0, .ok .unsupported⟩, p)
    | some rs => let (r, rs) := next .extended rs; (r, { p with extend := some rs })

/-- What keeps the locks. -/
inductive Backend where
  /-- Records in memory, in stores that are kept under names. -/
  | memory (stores : Registry String Store) (storeOf : String → String)
  /-- Tables on a disk, with a service for each node and the clock of the database. -/
  | tables (disk : Sql.Disk) (services : Registry String Sql.Storage) (clock : Instant)
  /-- Answers to storage calls, played back. -/
  | playback (answers : Playback)
  /-- Replies to commands, played back. -/
  | replies (environment : String) (replies : List Redis.Reply)

/-- What is read of a record in memory. -/
def foundRecord (name : String) (r : Record) : Sql.FoundRecord :=
  ⟨name, .ofInstant r.lockUntil, .ofInstant r.lockedAt, r.lockedBy⟩

namespace Backend

/-- Where a node takes locks. -/
def provider (node : String) : Backend → Provider
  | replies environment _ => .keyed environment node
  | _ => .stored node

/-- The store that a node uses. -/
def storeFor (stores : Registry String Store) (name : String) : Store := (stores.get? name).getD []

/-- The record of a lock, as a node sees it. -/
def find (node name : String) : Backend → Except LockError (Option Sql.FoundRecord)
  | memory stores storeOf =>
    .ok (((storeFor stores (storeOf node)).get? name).map (foundRecord name))
  | tables disk services _ => match services.get? node with
    | some s => s.find disk name
    | none => .ok none
  | _ => .ok none

/-- The record after a call, if the service lets one look and its times are those of the
application. -/
def recordAfter (c : Call) (b : Backend) : Option (Except LockError (Option Sql.FoundRecord)) :=
  match b with
  | memory _ _ => some (b.find c.holder c.terms.name)
  | tables _ services _ => match services.get? c.holder with
    | some s => if s.dialect.usesServerTime then none else some (b.find c.holder c.terms.name)
    | none => none
  | _ => none

/-- Answers a storage call at a reading of the clock: an answer with the turns it takes. -/
def answer (c : Call) (now : Instant) : Backend → Scripted c.kind.Result × Backend
  | memory stores storeOf =>
    let (a, store) := (storeFor stores (storeOf c.holder)).perform now c
    (⟨0, .ok a⟩, memory (stores.put (storeOf c.holder) store) storeOf)
  | tables disk services clock => match services.get? c.holder with
    | some s =>
      let (a, disk) := s.perform disk now clock c
      (⟨0, a⟩, tables disk services clock)
    | none => (⟨0, .error (.backend .statement)⟩, tables disk services clock)
  | playback p => let (a, p) := p.take c.kind; (a, playback p)
  | replies environment rs => (⟨0, .error (.backend .command)⟩, replies environment rs)

/-- The reply to a command. -/
def reply : Backend → Redis.Reply × Backend
  | replies environment (r :: rs) => (r, replies environment rs)
  | b => (.nil, b)

end Backend

end LeaseLock.Scenario
