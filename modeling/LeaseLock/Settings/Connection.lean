import LeaseLock.Redis.Url
import LeaseLock.Settings.Basic
import LeaseLock.Sql.Disk

/-!
# Connections by settings

What keeps the locks of a holder, by the settings.

## The model

A store in memory is there at once. A database is opened, and its table created where that is set.
The drivers for database servers are not part of this build, and no key-value server is reached.
-/

namespace LeaseLock

/-- What keeps the locks of a holder. -/
inductive Keeper where
  /-- A store in memory of its own. -/
  | memory
  /-- A table in a database. -/
  | table (storage : Sql.Storage)
  deriving DecidableEq

/-- Connects a holder by its settings, with a pool of the given number if there is need of one. -/
def Settings.connect (s : Settings) (holder : String) (pool : Nat) (d : Sql.Disk) :
    Except LockError (Keeper × Sql.Disk) :=
  match s.backend with
  | .memory => .ok (.memory, d)
  | .sqlite url => do
    let (p, d) ← d.connect pool url
    let table := s.table holder
    let d ← if s.createTable then d.create p table.schema else pure d
    return (.table (.ofSettings p table), d)
  | .redis url _ =>
    if Redis.Url.isValid url then .error (.backend .serverNotReached)
    else .error (.settings .serverUrl)
  | b => .error (.settings (.notBuilt b.kind))

end LeaseLock
