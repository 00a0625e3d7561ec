/-!
# The lock table

The names of the table that holds lock records and of its columns.

## The model

A schema gives a name to the table and to each of the four columns. Names go into statements as
they are, so they may be written in any way the database reads as a name.
-/

namespace LeaseLock.Sql

/-- The columns of the lock table. -/
inductive Column where
  | name | lockUntil | lockedAt | lockedBy
  deriving DecidableEq

/-- The columns in the order of the table. -/
def Column.all : List Column := [.name, .lockUntil, .lockedAt, .lockedBy]

/-- The names of the lock table and its columns. -/
structure Schema where
  tableName : String := "shedlock"
  name : String := "name"
  lockUntil : String := "lock_until"
  lockedAt : String := "locked_at"
  lockedBy : String := "locked_by"
  deriving DecidableEq

/-- The name of a column. -/
def Schema.column (s : Schema) : Column → String
  | .name => s.name
  | .lockUntil => s.lockUntil
  | .lockedAt => s.lockedAt
  | .lockedBy => s.lockedBy

end LeaseLock.Sql
