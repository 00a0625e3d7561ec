import LeaseLock.Registry
import LeaseLock.Sql.Identifier
import LeaseLock.Sql.Product
import LeaseLock.Sql.Statement
import LeaseLock.Sql.Table
import LeaseLock.Store.Call
import LeaseLock.Time.StampReader

/-!
# Databases

Storage calls on lock tables in a database.

## The model

A database has tables under their names, each with the names of its four columns. A statement
works if the schema names a table that is there and its columns; otherwise it fails. `perform`
carries out a storage call: it runs the command of the dialect and tells from the number of rows
that it touched whether the call did what it is for. A row that is there already when one is
inserted is no failure.
-/

namespace LeaseLock.Sql

/-- A lock table. -/
structure Table where
  columns : List String
  rows : List Row
  deriving DecidableEq

/-- The tables of a database. -/
abbrev Database := Registry String Table

namespace Schema

/-- The names of the columns as statements have them. -/
def columns? (s : Schema) : Option (List String) :=
  (Column.all.map s.column).mapM Identifier.only?

/-- No name of the schema has a parameter's mention in it. -/
def isFreeOfParams (s : Schema) : Bool :=
  (s.tableName :: Column.all.map s.column).all fun n => (Piece.params (pieces n.toList)).isEmpty

/-- The names of the columns as the creation of the table has them. -/
def createdColumns? (s : Schema) : Option (List String) := do
  return [← Identifier.created? none s.name, ← Identifier.created? (some "text") s.lockUntil,
    ← Identifier.created? (some "text") s.lockedAt, ← Identifier.created? none s.lockedBy]

end Schema

/-- A name that the database keeps for itself. -/
def isInternal (table : String) : Bool := "sqlite_".toList.isPrefixOf table.toList

/-- A record as it is read from a row. -/
structure FoundRecord where
  name : String
  lockUntil : Moment
  lockedAt : Moment
  lockedBy : String
  deriving DecidableEq

namespace FoundRecord

/-- The span from taking the lock to the end of the lease, in whole milliseconds. -/
def spanMillis (r : FoundRecord) : Int :=
  (r.lockUntil.toNanos - r.lockedAt.toNanos).tdiv nanosPerMilli

end FoundRecord

/-- The stamp in a column. -/
def readStamp (s : String) : Except LockError Moment :=
  match Stamp.read s with
  | .ok m => .ok m
  | .error f => .error (.backend (.stamp s f))

/-- The record of a row. -/
def Row.record (r : Row) : Except LockError FoundRecord := do
  return ⟨r.name, ← readStamp r.lockUntil, ← readStamp r.lockedAt, r.lockedBy⟩

namespace Database

/-- The table of a schema, with its name, for a statement. -/
def table? (db : Database) (s : Schema) : Option (String × Table) := do
  let name ← Identifier.table? s.tableName
  let columns ← s.columns?
  let t ← db.get? name
  if t.columns = columns then some (name, t) else none

/-- Creates the table of a schema, if it is not there. -/
def create (db : Database) (s : Schema) : Except LockError Database :=
  match Identifier.table? s.tableName, s.createdColumns? with
  | some name, some columns =>
    if db.has name then .ok db
    else if isInternal name ∨ ¬columns.Nodup then .error (.backend .tableNotCreated)
    else .ok (db.put name ⟨columns, []⟩)
  | _, _ => .error (.backend .tableNotCreated)

/-- The record of a lock. -/
def find (db : Database) (s : Schema) (name : String) : Except LockError (Option FoundRecord) :=
  match db.table? s with
  | none => .error (.backend .statement)
  | some (_, t) => match t.rows.find? (·.name = name) with
    | none => .ok none
    | some r => some <$> r.record

/-- Puts a row into the table of a schema, in place of one of the same name. -/
def putRow (db : Database) (s : Schema) (r : Row) : Except LockError Database :=
  match db.table? s with
  | none => .error (.backend .statement)
  | some (name, t) =>
    .ok (db.put name { t with rows := t.rows.filter (·.name ≠ r.name) ++ [r] })

/-- Runs a command on the table of a schema. -/
def run (db : Database) (s : Schema) (v : Values) (c : Command) :
    Option (Except TableFault (Nat × Database)) :=
  match if s.isFreeOfParams then db.table? s else none with
  | none => none
  | some (name, t) => some <| (c.perform v t.rows).map fun r =>
    (r.1, db.put name { t with rows := r.2 })

end Database

/-- The command for a call of a kind. -/
def Commands.ofKind (cs : Commands) : CallKind → Command
  | .insert => cs.insert
  | .claim => cs.claim
  | .release => cs.release
  | .extend => cs.extend

/-- The dialects whose commands this database understands. -/
def Dialect.isUnderstood (d : Dialect) : Bool := d = .generic ∨ d = .sqlite

/-- What a call of a kind answers when its command touched a number of rows. -/
def answerOfTouched (n : Nat) : (k : CallKind) → k.Result
  | .insert => 0 < n
  | .claim => 0 < n
  | .release => ()
  | .extend => if 0 < n then .extended else .lost

/-- What a call of a kind answers when its command fails. -/
def answerOfFault : (k : CallKind) → TableFault → Except LockError k.Result
  | .insert, .notUnique => .ok false
  | _, _ => .error (.backend .statement)

namespace Database

/-- Carries out a storage call in a dialect, at a reading of the application's clock and one of the
clock of the database. -/
def perform (db : Database) (d : Dialect) (s : Schema) (now clock : Instant) (c : Call) :
    c.Answer × Database :=
  let v := Values.ofTerms c.terms c.holder now clock
  match if d.isUnderstood then db.run s v (d.commands.ofKind c.kind) else none with
  | none => (.error (.backend .statement), db)
  | some (.error f) => (answerOfFault c.kind f, db)
  | some (.ok (n, new)) => (.ok (answerOfTouched n c.kind), new)

end Database
end LeaseLock.Sql
