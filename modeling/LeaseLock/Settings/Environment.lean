import LeaseLock.Registry
import LeaseLock.Settings.Basic

/-!
# Settings from the environment

Variables that take precedence over other settings.

## The model

An environment gives texts to variables; a blank text counts as none. What has no variable set keeps
its value. The backend is chosen anew if any of the three variables that belong to it is set, and
what these leave out is taken from the choice before.
-/

namespace LeaseLock

/-- The texts of variables, by their names. -/
abbrev Environment := Registry String String

/-- The variables that settings are read from. -/
inductive Variable where
  | backend | url | environment | table | useServerTime | lockedBy | atMostFor | atLeastFor
  deriving DecidableEq

/-- The name of a variable. -/
def Variable.name : Variable → String
  | backend => "DCS_LOCK_BACKEND"
  | url => "DCS_LOCK_URL"
  | environment => "DCS_LOCK_REDIS_ENV"
  | table => "DCS_LOCK_TABLE"
  | useServerTime => "DCS_LOCK_USE_DB_TIME"
  | lockedBy => "DCS_LOCK_LOCKED_BY"
  | atMostFor => "DCS_LOCK_AT_MOST_FOR"
  | atLeastFor => "DCS_LOCK_AT_LEAST_FOR"

/-- The text of a variable, unless it is blank. -/
def Environment.text? (e : Environment) (v : Variable) : Option String :=
  (Registry.get? v.name e).filter fun s => !Text.isAllBlank s

/-- The value of a switch. -/
def switch (s : String) : Except SettingsFault Bool :=
  let word := Text.lower (Text.trim s)
  if word ∈ ["true", "1", "yes", "on"] then .ok true
  else if word ∈ ["false", "0", "no", "off"] then .ok false
  else .error (.notBoolean word)

namespace Settings

/-- The choice of a backend that an environment makes. -/
def overlaidBackend (b : BackendChoice) (e : Environment) : Except SettingsFault BackendChoice :=
  match e.text? .backend, e.text? .url, e.text? .environment with
  | none, none, none => .ok b
  | kind, url, environment =>
    BackendChoice.make (kind.getD b.kind) (url.or b.url?) (environment.or b.environment?)

/-- The value of a switch in an environment. -/
def overlaidSwitch (b : Bool) (e : Environment) : Except SettingsFault Bool :=
  match e.text? .useServerTime with
  | none => .ok b
  | some s => switch s

/-- The settings with what an environment sets. -/
def overlay (s : Settings) (e : Environment) : Except SettingsFault Settings := do
  let backend ← overlaidBackend s.backend e
  let useServerTime ← overlaidSwitch s.useServerTime e
  return { s with
    backend := backend
    useServerTime := useServerTime
    tableName := (e.text? .table).getD s.tableName
    lockedBy := (e.text? .lockedBy).or s.lockedBy
    atMostFor := (e.text? .atMostFor).getD s.atMostFor
    atLeastFor := (e.text? .atLeastFor).getD s.atLeastFor }

end Settings
end LeaseLock
