import LeaseLock.Time.Stamp

/-!
# Keys and values

How a lock appears in a key-value server: its key and the value that marks one acquisition.

## The model

The key joins a fixed word, the environment and the name of the lock. The value joins the
instant of the acquisition, in milliseconds, and the holder.
-/

namespace LeaseLock.Redis

/-- The environment of locks that name none. -/
def defaultEnvironment : String := "default"

/-- The key of a lock in an environment. -/
def lockKey (environment name : String) : String := "job-lock:" ++ environment ++ ":" ++ name

/-- The value that marks an acquisition by a holder. -/
def lockValue (now : Instant) (holder : String) : String :=
  "ADDED:" ++ Stamp.rfc now ++ "@" ++ holder

end LeaseLock.Redis
