import LeaseLock.Scenario.Play
import LeaseLock.Scenario.Setup

/-!
# Rehearsals

A short scenario that shows whether locks by given settings exclude each other.

## The model

A task takes a lock and tries to take it once more in a context that does not know of the first
time. When it is over, the lock is tried again. All is done at a single instant, so that a minimum
duration keeps the lock from being taken again.
-/

namespace LeaseLock.Scenario

/-- What a rehearsal comes to. -/
structure Rehearsal where
  /-- The task with the lock, which has what the attempt within came to. -/
  first : Ending ExecutionError (TaskResult (Ending ExecutionError (TaskResult Unit)))
  /-- The attempt after it. -/
  second : Ending ExecutionError (TaskResult Unit)

namespace Rehearsal

/-- Runs a task under a lock in a context on a new chain. -/
def attempt {α : Type} (provider : Provider) (t : Terms) (task : Script Unit α) :
    Script Unit (Ending ExecutionError (TaskResult α)) := do
  let x ← freshContext
  execute service provider x t fun _ => do return .value (← task)

/-- A rehearsal as a program. -/
def program (provider : Provider) (t : Terms) : Script Unit Rehearsal := do
  let first ← attempt provider t (attempt provider t (pure ()))
  let second ← attempt provider t (pure ())
  return ⟨first, second⟩

/-- A rehearsal on a backend at an instant. -/
def run (holder : String) (now : Instant) (t : Terms) (b : Backend) : Rehearsal :=
  let w : World Unit := { backend := b, transparent := false }
  ((program (b.provider holder) t).finish ⟨.showing now, [], w⟩).1

/-- A rehearsal by settings for terms that may be refused. -/
def ofSettings (s : Settings) (holder : String) (d : Sql.Disk) (now : Instant)
    (t : Except TermsFault Terms) : Except LockError Rehearsal := do
  let b ← Backend.ofSettings s d now [holder]
  return run holder now (← t.mapError .terms) b

end Rehearsal
end LeaseLock.Scenario
