import LeaseLock.Sql.Param
import LeaseLock.Sql.Schema

/-!
# Commands on the lock table

The four conditional writes that take, extend and give back locks, as trees.

## The model

A command inserts a row or updates the rows that meet its conditions; both compute columns from
terms over parameters, columns and, if the database is to tell the time, its clock. There are two
families. The plain family binds instants that the application computed. The server family binds
durations and adds them to the clock of the database, and its release also asks who holds the lock.
-/

namespace LeaseLock.Sql

/-- What a column is set to or compared with. -/
inductive Quantity where
  /-- A parameter. -/
  | bound (p : Param)
  /-- The column of the row at hand. -/
  | column (c : Column)
  /-- The clock of the database. -/
  | serverNow
  /-- A time, and a parameter of microseconds later. -/
  | later (start : Quantity) (length : Param)
  /-- The later of two times. -/
  | latest (x y : Quantity)
  deriving DecidableEq

/-- A condition on a row. -/
inductive Condition where
  /-- The column is the quantity. -/
  | equal (c : Column) (x : Quantity)
  /-- The column is at or before the quantity. -/
  | atMost (c : Column) (x : Quantity)
  /-- The column is after the quantity. -/
  | after (c : Column) (x : Quantity)
  deriving DecidableEq

/-- A write to the lock table. -/
inductive Command where
  /-- Inserts a row with these columns; if `quiet`, a row that is there already is no error. -/
  | insert (quiet : Bool) (name lockUntil lockedAt lockedBy : Quantity)
  /-- Sets columns of the rows that meet all the conditions. -/
  | update (sets : List (Column × Quantity)) (conditions : List Condition)
  deriving DecidableEq

/-- The writes that a storage service on a table is made of. -/
structure Commands where
  insert : Command
  claim : Command
  release : Command
  extend : Command

namespace Commands

/-- The writes with instants computed by the application. -/
def plain : Commands where
  insert := .insert false (.bound .name) (.bound .lockUntil) (.bound .now) (.bound .lockedBy)
  claim := .update
    [(.lockUntil, .bound .lockUntil), (.lockedAt, .bound .now), (.lockedBy, .bound .lockedBy)]
    [.equal .name (.bound .name), .atMost .lockUntil (.bound .now)]
  release := .update [(.lockUntil, .bound .unlockTime)] [.equal .name (.bound .name)]
  extend := .update [(.lockUntil, .bound .lockUntil)]
    [.equal .name (.bound .name), .equal .lockedBy (.bound .lockedBy),
      .after .lockUntil (.bound .now)]

/-- The end of a lease that starts now by the clock of the database. -/
def serverUntil : Quantity := .later .serverNow .atMostMicros

/-- The writes with instants computed by the database. -/
def server : Commands where
  insert := .insert true (.bound .name) serverUntil .serverNow (.bound .lockedBy)
  claim := .update
    [(.lockUntil, serverUntil), (.lockedAt, .serverNow), (.lockedBy, .bound .lockedBy)]
    [.equal .name (.bound .name), .atMost .lockUntil .serverNow]
  release := .update
    [(.lockUntil, .latest (.later (.column .lockedAt) .atLeastMicros) .serverNow)]
    [.equal .name (.bound .name), .equal .lockedBy (.bound .lockedBy)]
  extend := .update [(.lockUntil, serverUntil)]
    [.equal .name (.bound .name), .equal .lockedBy (.bound .lockedBy),
      .after .lockUntil .serverNow]

end Commands
end LeaseLock.Sql
