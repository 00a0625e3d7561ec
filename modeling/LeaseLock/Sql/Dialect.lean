import LeaseLock.Sql.Command
import LeaseLock.Sql.Layout

/-!
# Dialects

The wording of commands in the dialects of different databases.

## The model

A dialect is plain or that of a database whose clock is to be used. `Wording` lists what dialects
word differently; the rest of a command's layout is common. The template of a command is the text of
its layout for a schema.
-/

namespace LeaseLock.Sql

/-- The dialects of commands. -/
inductive Dialect where
  /-- Any database, with instants computed by the application. -/
  | generic
  | postgres
  | mysql
  | sqlite
  deriving DecidableEq

/-- What dialects word differently. -/
structure Wording where
  /-- The clock of the database. -/
  now : Layout
  /-- A time and a number of microseconds later. -/
  later : Layout → Layout → Layout
  /-- The later of two times. -/
  latest : Layout → Layout → Layout
  /-- How an insertion starts that leaves a row alone that is there already. -/
  quietInsert : Layout
  /-- How such an insertion ends, given the column of names. -/
  quietEnd : Layout → Layout

namespace Dialect

/-- Deadlines come from the clock of the database. -/
def usesServerTime (d : Dialect) : Bool := d ≠ .generic

/-- The commands of a dialect. -/
def commands : Dialect → Commands
  | generic => .plain
  | _ => .server

/-- The wording of a dialect. -/
def wording : Dialect → Wording
  | generic =>
    { now := "CURRENT_TIMESTAMP"
      later := fun t p => t ++ " + " ++ p
      latest := fun x y => "MAX(" ++ x ++ ", " ++ y ++ ")"
      quietInsert := "INSERT INTO "
      quietEnd := fun _ => [] }
  | postgres =>
    { now := "timezone('utc', CURRENT_TIMESTAMP)"
      later := fun t p => t ++ " + " ++ p ++ " * INTERVAL '1 microsecond'"
      latest := fun x y => "GREATEST(" ++ x ++ ", " ++ y ++ ")"
      quietInsert := "INSERT INTO "
      quietEnd := fun name => " ON CONFLICT (" ++ name ++ ") DO NOTHING" }
  | mysql =>
    { now := "UTC_TIMESTAMP(3)"
      later := fun t p => "TIMESTAMPADD(MICROSECOND, " ++ p ++ ", " ++ t ++ ")"
      latest := fun x y => "IF(" ++ x ++ " > " ++ y ++ ", " ++ x ++ ", " ++ y ++ ")"
      quietInsert := "INSERT IGNORE INTO "
      quietEnd := fun _ => [] }
  | sqlite =>
    { now := "STRFTIME('%Y-%m-%d %H:%M:%f', 'now')"
      later := fun t p =>
        "STRFTIME('%Y-%m-%d %H:%M:%f', " ++ t ++ ", '+' || (" ++ p ++
          " / 1000000.0) || ' seconds')"
      latest := fun x y => "MAX(" ++ x ++ ", " ++ y ++ ")"
      quietInsert := "INSERT OR IGNORE INTO "
      quietEnd := fun _ => [] }

end Dialect

namespace Quantity

/-- The layout of the time that a number of microseconds is added to. -/
def startLayout (d : Dialect) : Quantity → Layout
  | serverNow => if d = .sqlite then "'now'" else d.wording.now
  | column c => [.column c]
  | bound p => [.param p]
  | _ => []

/-- The layout of a quantity. -/
def layout (d : Dialect) : Quantity → Layout
  | bound p => [.param p]
  | column c => [.column c]
  | serverNow => d.wording.now
  | later x p => d.wording.later (x.startLayout d) [.param p]
  | latest x y => d.wording.latest (x.layout d) (y.layout d)

end Quantity

/-- The layout of a condition. -/
def Condition.layout (d : Dialect) : Condition → Layout
  | equal c x => .column c :: " = " ++ x.layout d
  | atMost c x => .column c :: " <= " ++ x.layout d
  | after c x => .column c :: " > " ++ x.layout d

namespace Command

/-- The layout of a setting of a column. -/
def setLayout (d : Dialect) : Column × Quantity → Layout
  | (c, x) => .column c :: " = " ++ x.layout d

/-- The layout of a command. -/
def layout (d : Dialect) : Command → Layout
  | insert quiet n u a b =>
    let opening : Layout := if quiet then d.wording.quietInsert else "INSERT INTO "
    let ending : Layout := if quiet then d.wording.quietEnd [.column .name] else []
    opening ++ [Part.table] ++ "(" ++ .separated ", " (Column.all.map fun c => [.column c]) ++
      ") VALUES(" ++ .separated ", " ([n, u, a, b].map (Quantity.layout d)) ++ ")" ++ ending
  | update sets conditions =>
    "UPDATE " ++ [Part.table] ++ " SET " ++ .separated ", " (sets.map (setLayout d)) ++ " WHERE " ++
      .separated " AND " (conditions.map (Condition.layout d))

/-- The template of a command. -/
def template (d : Dialect) (s : Schema) (c : Command) : String := (c.layout d).text s

end Command
end LeaseLock.Sql
