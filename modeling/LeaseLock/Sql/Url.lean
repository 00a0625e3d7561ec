import LeaseLock.Error
import LeaseLock.Text.Percent
import LeaseLock.Text.Separated

/-!
# Database URLs

Where the tables are kept, and how.

## The model

A URL has a scheme, of which one is supported, then the name of a file, and after a question mark
options with their values. A special name is that of a database in memory. The name is
percent-encoded; so are the options. An option or a value that is not known makes the whole URL
malformed.
-/

namespace LeaseLock.Sql

open Text

/-- Where a database is, and how it is opened. -/
structure Url where
  /-- The name of the file; none for a database in memory that nobody else sees. -/
  file : Option String
  /-- The file may not be changed or created. -/
  readOnly : Bool := false
  /-- The database is kept in memory, under the name of the file. -/
  inMemory : Bool := false
  /-- A database in memory can be shared. -/
  shared : Bool := false
  /-- The file is taken to be one that never changes. -/
  immutable : Bool := false
  /-- The way to access files, if it is not the usual one. -/
  access : Option String := none
  deriving DecidableEq

namespace Url

/-- The text without repetitions of another one at its start; `fuel` bounds their number. -/
def stripAll (start : List Char) : Nat → List Char → List Char
  | 0, cs => cs
  | n + 1, cs =>
    if start.isPrefixOf cs then stripAll start n (cs.drop start.length) else cs

/-- The word that a name or value of an option stands for. -/
def optionWord (cs : List Char) : String :=
  ((Percent.decode? (cs.map fun c => if c = '+' then ' ' else c)).getD "\ufffd")

/-- The URL with one more option. -/
def withOption (u : Url) (name value : String) : Option Url :=
  match name, value with
  | "mode", "ro" => some { u with readOnly := true }
  | "mode", "rw" => some u
  | "mode", "rwc" => some u
  | "mode", "memory" => some { u with inMemory := true, shared := true }
  | "cache", "private" => some { u with shared := false }
  | "cache", "shared" => some { u with shared := true }
  | "immutable", "true" => some { u with immutable := true }
  | "immutable", "1" => some { u with immutable := true }
  | "immutable", "false" => some { u with immutable := false }
  | "immutable", "0" => some { u with immutable := false }
  | "vfs", s => some { u with access := some s }
  | _, _ => none

/-- Adds the options of a URL. -/
def withOptions (u : Url) (cs : List Char) : Option Url :=
  ((split '&' cs).filter (· ≠ [])).foldlM (fun u part =>
    let (name, value) := cut '=' part
    u.withOption (optionWord name) (optionWord (value.getD []))) u

/-- The URL of a database in memory that has a name of its own. -/
def privateMemory : Url := { file := none, inMemory := true, shared := true }

/-- The URL of a file by its percent-encoded name. -/
def ofName? (cs : List Char) : Option Url :=
  if cs = ":memory:".toList then some privateMemory
  else (Percent.decode? cs).map fun s => { file := some s }

/-- Reads what follows the scheme. -/
def ofRest? (cs : List Char) : Option Url := do
  let (name, options) := cut '?' cs
  (← ofName? name).withOptions (options.getD [])

/-- Reads a URL. -/
def read (s : String) : Except LockError Url :=
  let cs := s.toList
  let scheme := lower (String.ofList (cut ':' cs).1)
  if scheme = "sqlite" then
    let rest := stripAll "sqlite://".toList cs.length cs
    match ofRest? (stripAll "sqlite:".toList rest.length rest) with
    | some u => .ok u
    | none => .error (.settings .databaseUrl)
  else .error (.settings (.unknownScheme scheme))

end Url
end LeaseLock.Sql
