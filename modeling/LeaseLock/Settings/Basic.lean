import LeaseLock.Defaults
import LeaseLock.Settings.Choice
import LeaseLock.Sql.Product

/-!
# Settings

What can be set up without a change to the program.

## The model

The settings choose a backend, say how it keeps the locks, and give default durations as text. The
durations are only read when they are asked for.
-/

namespace LeaseLock

/-- The settings of the lock service. -/
structure Settings where
  backend : BackendChoice := .memory
  tableName : String := "shedlock"
  /-- Deadlines are to come from the clock of the database. -/
  useServerTime : Bool := false
  /-- Who takes the locks, if not the process by its own name. -/
  lockedBy : Option String := none
  /-- The product of the database, if it need not be asked for. -/
  product : Option Sql.Product := none
  /-- The table is created if it is not there. -/
  createTable : Bool := false
  atMostFor : String := "30s"
  atLeastFor : String := "0s"
  deriving DecidableEq

namespace Settings

/-- The settings if nothing is set. -/
def standard : Settings := {}

/-- The default durations, of which the minimum may not be the longer one. -/
def defaults (s : Settings) : Outcome LockError Defaults := do
  let most ← (Duration.read s.atMostFor).mapFault .duration
  let least ← (Duration.read s.atLeastFor).mapFault .duration
  if most < least then .fault (.settings (.atLeastLonger s.atLeastFor s.atMostFor))
  else return ⟨most, least⟩

/-- Who takes the locks, given the name of the process. -/
def holder (s : Settings) (process : String) : String := s.lockedBy.getD process

/-- How locks are kept in a table. -/
def table (s : Settings) (holder : String) : Sql.TableSettings where
  schema := { tableName := s.tableName }
  lockedBy := holder
  useServerTime := s.useServerTime
  product := s.product

end Settings
end LeaseLock
