import LeaseLock.Settings.Document
import LeaseLock.Settings.Environment

/-!
# Sources of settings

Settings from files and from the environment.

## The model

A file has bytes, or is not there. Its text is a document; the environment comes on top of it, or
of the standard settings if no file is named.
-/

namespace LeaseLock

/-- A file: its bytes, if it is there. -/
abbrev File := Option ByteArray

/-- The text of a file. -/
def File.text (f : File) : Except FileFault String :=
  match f with
  | none => .error .missing
  | some bytes => match String.fromUTF8? bytes with
    | some s => .ok s
    | none => .error .notText

namespace Settings

/-- The settings in a file. -/
def ofFile (f : File) : Except LockError Settings := do
  let s ← f.text.mapError .file
  match ofDocument? s with
  | some s => return s
  | none => throw (.settings .document)

/-- The standard settings with what the environment sets. -/
def ofEnvironment (e : Environment) : Except LockError Settings :=
  (standard.overlay e).mapError .settings

/-- The standard settings with what the environment sets, or none of it if it is at fault. -/
def ofEnvironmentOrStandard (e : Environment) : Settings :=
  match standard.overlay e with
  | .ok s => s
  | .error _ => standard

/-- The settings in a file, if one is named, with what the environment sets. -/
def load (file : Option File) (e : Environment) : Except LockError Settings := do
  match file with
  | none => ofEnvironment e
  | some f => ((← ofFile f).overlay e).mapError .settings

end Settings
end LeaseLock
