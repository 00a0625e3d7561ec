import LeaseLock.Error
import LeaseLock.Redis.Key
import LeaseLock.Text.Blank

/-!
# Choosing a backend

What settings say of the service that keeps the locks.

## The model

Locks are kept in memory, in a database, or by a key-value server. Every backend but memory needs a
URL, and those of a key-value server have an environment. `make` puts a choice together from the
name of a backend, for which there are several spellings, and what else is known.
-/

namespace LeaseLock

/-- Where locks are kept. -/
inductive BackendChoice where
  | memory
  | sqlite (url : String)
  | postgres (url : String)
  | mysql (url : String)
  | redis (url environment : String)
  deriving DecidableEq

namespace BackendChoice

/-- The name of the backend. -/
def kind : BackendChoice → String
  | memory => "memory"
  | sqlite _ => "sqlite"
  | postgres _ => "postgres"
  | mysql _ => "mysql"
  | redis _ _ => "redis"

/-- The URL, if the backend has one. -/
def url? : BackendChoice → Option String
  | memory => none
  | sqlite u => some u
  | postgres u => some u
  | mysql u => some u
  | redis u _ => some u

/-- The environment, if the backend has one. -/
def environment? : BackendChoice → Option String
  | redis _ e => some e
  | _ => none

/-- The choice with another URL, if the backend has one. -/
def mapUrl (f : String → String) : BackendChoice → BackendChoice
  | memory => memory
  | sqlite u => sqlite (f u)
  | postgres u => postgres (f u)
  | mysql u => mysql (f u)
  | redis u e => redis (f u) e

/-- The name of a backend in its usual form. -/
def normalized (kind : String) : String := Text.lower (Text.trim kind)

/-- The backend of a name in its usual form, with a URL. -/
def withUrl (kind url : String) (environment : Option String) :
    Except SettingsFault BackendChoice :=
  match kind with
  | "sqlite" => .ok (sqlite url)
  | "postgres" => .ok (postgres url)
  | "postgresql" => .ok (postgres url)
  | "mysql" => .ok (mysql url)
  | "mariadb" => .ok (mysql url)
  | "redis" => .ok (redis url (environment.getD Redis.defaultEnvironment))
  | other => .error (.unknownBackend other)

/-- The choice of a backend by name. A URL is asked for before the name is looked at any closer. -/
def make (kind : String) (url environment : Option String) : Except SettingsFault BackendChoice :=
  let kind := normalized kind
  if kind ∈ ["memory", "in-memory", "in_memory"] then .ok memory
  else match url with
    | none => .error (.urlRequired kind)
    | some u => withUrl kind u environment

end BackendChoice
end LeaseLock
