import LeaseLock.Sql.Database
import LeaseLock.Sql.Url

/-!
# Where databases are

Opening databases by their URLs.

## The model

A disk has directories, and databases in files, in memory under a name, or in memory for one pool
of connections alone. A file can be opened if it is in a directory that is there and is not one
itself; one that must not be created has to be there. A pool refers to a database by its location.
-/

namespace LeaseLock.Sql

/-- Where a database is. -/
inductive Location where
  /-- In memory, for the pool of this number alone. -/
  | alone (pool : Nat)
  /-- In memory, under a name. -/
  | memory (name : String)
  /-- In a file, by the parts of its path. -/
  | file (path : List String)
  deriving DecidableEq

/-- Databases and directories. -/
structure Disk where
  /-- The directories that are there, by the parts of their paths. -/
  directories : List (List String)
  databases : Registry Location Database := []

/-- Connections to a database. -/
structure Pool where
  location : Location
  writable : Bool
  deriving DecidableEq

namespace Disk

/-- Follows one part of a path. -/
def follow (path : List String) (part : String) : List String :=
  if part = "" ∨ part = "." then path
  else if part = ".." then path.dropLast
  else path ++ [part]

/-- The parts of a path; the first tells where it starts. -/
def parts (s : String) : List String :=
  let cs := s.toList
  ((Text.split '/' cs).map String.ofList).foldl follow [if cs.head? = some '/' then "/" else "."]

/-- The last part of a path names a file. -/
def endsInName (s : String) : Bool :=
  match (Text.split '/' s.toList).getLast? with
  | some name => String.ofList name ∉ ["", ".", ".."]
  | none => false

/-- A file of this name can be opened, or created unless it has to be there. -/
def opens (d : Disk) (s : String) (create : Bool) : Bool :=
  let path := parts s
  endsInName s && !s.toList.contains '\x00' && d.directories.contains path.dropLast &&
    !d.directories.contains path && (create || d.databases.has (.file path))

/-- The ways to access files. -/
def accesses : List String := ["unix", "unix-dotfile", "unix-excl", "unix-none"]

/-- Where the database of a URL is for a pool of this number, if it can be opened. -/
def locate (d : Disk) (pool : Nat) (u : Url) : Option Location :=
  if u.access.any (· ∉ accesses) then none
  else match u.file with
    | none => some (.alone pool)
    | some "" => some (.alone pool)
    | some s =>
      if u.inMemory then some (if u.shared then .memory s else .alone pool)
      else if d.opens s (!u.readOnly) then some (.file (parts s))
      else none

/-- Opens the database of a URL for a pool of this number. -/
def connect (d : Disk) (pool : Nat) (url : String) : Except LockError (Pool × Disk) := do
  let u ← Url.read url
  match d.locate pool u with
  | none => throw (.backend .notConnected)
  | some l =>
    let opened := (d.databases.get? l).getD []
    return (⟨l, !u.readOnly && !u.immutable⟩, { d with databases := d.databases.put l opened })

/-- The database of a pool. -/
def database (d : Disk) (p : Pool) : Database := (d.databases.get? p.location).getD []

/-- Replaces the database of a pool. -/
def update (d : Disk) (p : Pool) (db : Database) : Disk :=
  { d with databases := d.databases.put p.location db }

/-- Creates the table of a schema in the database of a pool, if it is not there. -/
def create (d : Disk) (p : Pool) (s : Schema) : Except LockError Disk :=
  if p.writable then return d.update p (← (d.database p).create s)
  else throw (.backend .tableNotCreated)

end Disk

/-- A storage service on a table in a database. -/
structure Storage where
  pool : Pool
  schema : Schema
  dialect : Dialect
  deriving DecidableEq

namespace Storage

/-- The name of its product that a connection reports. -/
def reportedName : String := "SQLite"

/-- The service for settings on a pool. -/
def ofSettings (p : Pool) (s : TableSettings) : Storage := ⟨p, s.schema, s.dialect reportedName⟩

/-- Carries out a call on the disk, at the readings of the application's clock and of the clock of
the database. -/
def perform (s : Storage) (d : Disk) (now clock : Instant) (c : Call) : c.Answer × Disk :=
  let (a, db) := (d.database s.pool).perform s.dialect s.schema now clock c
  (a, d.update s.pool db)

/-- The record of a lock. -/
def find (s : Storage) (d : Disk) (name : String) : Except LockError (Option FoundRecord) :=
  (d.database s.pool).find s.schema name

end Storage
end LeaseLock.Sql
