import LeaseLock.Duration.Notation
import LeaseLock.Terms
import LeaseLock.Time.StampReader

/-!
# Errors

What can go wrong when locks are configured, taken, extended and given back.

## The model

`LockError` names causes. Seven kinds group them, and the words for an error are the heading of
its kind followed by those for the cause. An error that somebody else worded, such as a storage
service, is carried along as it was reported.
-/

namespace LeaseLock

/-- The kinds of errors. -/
inductive ErrorKind where
  /-- Terms or durations are not acceptable. -/
  | invalidConfiguration
  /-- Something is used when its time is over or not yet come. -/
  | invalidState
  /-- Somebody else holds the lock. -/
  | alreadyHeld
  /-- There is no lease to work on. -/
  | noActiveLock
  /-- The storage service failed. -/
  | backend
  /-- The settings are wrong. -/
  | settings
  /-- A file cannot be read. -/
  | file
  deriving DecidableEq

/-- What is wrong with settings. -/
inductive SettingsFault where
  /-- The document is not one of settings. -/
  | document
  /-- A backend needs a URL and has none. -/
  | urlRequired (backend : String)
  /-- There is no backend of this name. -/
  | unknownBackend (backend : String)
  /-- A switch is neither on nor off. -/
  | notBoolean (text : String)
  /-- The default minimum is longer than the default maximum. -/
  | atLeastLonger (atLeast atMost : String)
  /-- The backend is not part of this build. -/
  | notBuilt (backend : String)
  /-- No database is known by this scheme. -/
  | unknownScheme (scheme : String)
  /-- The URL of a database file is malformed. -/
  | databaseUrl
  /-- The URL of a key-value server is malformed. -/
  | serverUrl
  deriving DecidableEq

namespace SettingsFault

/-- The words for a fault. -/
def message : SettingsFault → String
  | document => "YAML error"
  | urlRequired b => "DCS_LOCK_URL environment variable required for " ++ b ++ " backend"
  | unknownBackend b => "unknown lock backend '" ++ b ++ "'"
  | notBoolean s => "DCS_LOCK_USE_DB_TIME: expected a boolean, got '" ++ s ++ "'"
  | atLeastLonger l m =>
    "lock_at_least_for (" ++ l ++ ") is longer than lock_at_most_for (" ++ m ++ ")"
  | notBuilt b => b ++ " backend requires '" ++ b ++ "-backend' feature"
  | unknownScheme s =>
    "unsupported database scheme '" ++ s ++ "' (is the backend feature enabled?)"
  | databaseUrl => "invalid SQLite URL"
  | serverUrl => "failed to create redis client"

end SettingsFault

/-- What fails in a storage service. -/
inductive BackendFault where
  /-- A statement fails. -/
  | statement
  /-- A command fails, or its reply is not of the expected form. -/
  | command
  /-- A column does not hold a time stamp. -/
  | stamp (text : String) (fault : StampFault)
  /-- The database cannot be opened. -/
  | notConnected
  /-- The table cannot be created. -/
  | tableNotCreated
  /-- The key-value server cannot be reached. -/
  | serverNotReached
  deriving DecidableEq

namespace BackendFault

/-- The words for a fault. -/
def message : BackendFault → String
  | statement => "SQL error"
  | command => "Redis error"
  | stamp s f => "invalid timestamp '" ++ s ++ "': " ++ f.message
  | notConnected => "failed to connect SQLite"
  | tableNotCreated => "failed to create lock table"
  | serverNotReached => "failed to connect redis: Connection refused (os error 111)"

end BackendFault

/-- Why a file cannot be read. -/
inductive FileFault where
  /-- There is no such file. -/
  | missing
  /-- The bytes are not text. -/
  | notText
  deriving DecidableEq

namespace FileFault

/-- The words for a fault. -/
def message : FileFault → String
  | missing => "No such file or directory (os error 2)"
  | notText => "stream did not contain valid UTF-8"

end FileFault

/-- An error of the lock service. -/
inductive LockError where
  /-- Terms are refused. -/
  | terms (fault : TermsFault)
  /-- A duration cannot be read. -/
  | duration (fault : DurationFault)
  /-- A handle is used after it was given back or extended. -/
  | handleSpent (name : String)
  /-- A lease is already being extended. -/
  | extensionInFlight (name : String)
  /-- An extension is asked for outside of any locked task. -/
  | noActiveLock
  /-- The storage service fails. -/
  | backend (fault : BackendFault)
  /-- The settings are wrong. -/
  | settings (fault : SettingsFault)
  /-- A file cannot be read. -/
  | file (fault : FileFault)
  /-- Somebody else's error, in their words. -/
  | reported (kind : ErrorKind) (text : String)
  deriving DecidableEq

namespace ErrorKind

/-- The heading of the errors of a kind. -/
def heading : ErrorKind → String
  | invalidConfiguration => "Invalid lock configuration: "
  | invalidState => "Invalid lock state: "
  | alreadyHeld => "Lock already held: "
  | noActiveLock => "No active lock in the current execution context"
  | backend => "Backend error: "
  | settings => "Configuration error: "
  | file => "IO error: "

end ErrorKind

namespace LockError

/-- The kind of an error. -/
def kind : LockError → ErrorKind
  | terms _ => .invalidConfiguration
  | duration _ => .invalidConfiguration
  | handleSpent _ => .invalidState
  | extensionInFlight _ => .invalidState
  | noActiveLock => .noActiveLock
  | backend _ => .backend
  | settings _ => .settings
  | file _ => .file
  | reported k _ => k

/-- The words for the cause of an error. -/
def detail : LockError → String
  | terms f => f.message
  | duration f => f.message
  | handleSpent n => "Lock " ++ n ++ " is not valid, it has already been unlocked or extended"
  | extensionInFlight n => "extension of lock '" ++ n ++ "' already in progress"
  | noActiveLock => ""
  | backend f => f.message
  | settings f => f.message
  | file f => f.message
  | reported .noActiveLock _ => ""
  | reported _ s => s

/-- The words for an error. -/
def message (e : LockError) : String := e.kind.heading ++ e.detail

/-- The error says no more than that somebody else holds the lock. -/
def isConflict (e : LockError) : Bool := e.kind = .alreadyHeld

end LockError

/-- How a locked task fails. -/
inductive ExecutionError where
  /-- The lock service failed. -/
  | lock (error : LockError)
  /-- The task itself failed. -/
  | task (text : String)
  deriving DecidableEq

namespace ExecutionError

/-- The words for a failure. -/
def message : ExecutionError → String
  | lock e => e.message
  | task s => "Task failed: " ++ s

end ExecutionError
end LeaseLock
