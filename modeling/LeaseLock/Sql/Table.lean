import LeaseLock.Sql.Command
import LeaseLock.Sql.ServerTime

/-!
# The rows of the lock table

What commands do to the rows of a table of texts.

## The model

A row has four texts, and no two rows have the same name. Instants are bound as stored stamps.
Texts are compared character by character, so stamps are compared as texts, too. A command whose
quantity has no value cannot write it: no column may be empty. An insertion that must not disturb a
row that is there, or that has no value to write, is refused or, if it is a quiet one, leaves the
table as it is. An update answers how many rows it changed.
-/

namespace LeaseLock.Sql

/-- A row of the lock table. -/
structure Row where
  name : String
  lockUntil : String
  lockedAt : String
  lockedBy : String
  deriving DecidableEq

namespace Row

/-- The text in a column. -/
def get (r : Row) : Column → String
  | .name => r.name
  | .lockUntil => r.lockUntil
  | .lockedAt => r.lockedAt
  | .lockedBy => r.lockedBy

/-- The row with another text in a column. -/
def set (r : Row) (c : Column) (s : String) : Row :=
  match c with
  | .name => { r with name := s }
  | .lockUntil => { r with lockUntil := s }
  | .lockedAt => { r with lockedAt := s }
  | .lockedBy => { r with lockedBy := s }

end Row

/-- What the quantities of a command are computed from. -/
structure Values where
  /-- The values of the parameters. -/
  bound : Param → Bound
  /-- The clock of the database. -/
  clock : Instant

/-- The values for a call on given terms. -/
def Values.ofTerms (t : Terms) (holder : String) (now clock : Instant) : Values :=
  ⟨fun p => p.bound t holder now, clock⟩

/-- The text of a value that is bound to a parameter. -/
def Bound.column : Bound → String
  | text s => s
  | time t => Stamp.stored t
  | micros n => String.ofList (Text.Numeral.signed n)

/-- The microseconds of a value that is bound to a parameter. -/
def Bound.count : Bound → Int
  | micros n => n
  | _ => 0

/-- The greater of two texts. -/
def greater (a b : String) : String := if a ≤ b then b else a

namespace Quantity

/-- The milliseconds since 1970 of the time that a number of microseconds is added to. -/
def start? (v : Values) (r : Option Row) : Quantity → Option Int
  | serverNow => some (v.clock.nanos / nanosPerMilli)
  | bound p => ServerTime.millis? (v.bound p).column.toList
  | column c => r.bind fun r => ServerTime.millis? (r.get c).toList
  | _ => none

/-- The value of a quantity, for the row at hand. -/
def value? (v : Values) (r : Option Row) : Quantity → Option String
  | bound p => some (v.bound p).column
  | column c => r.map (·.get c)
  | serverNow => ServerTime.stamp? (v.clock.nanos / nanosPerMilli)
  | later x p => (x.start? v r).bind fun n => ServerTime.later? n (v.bound p).count
  | latest x y => (x.value? v r).bind fun a => (y.value? v r).map fun b => greater a b

end Quantity

/-- The row meets a condition. A quantity without a value passes none. -/
def Condition.holds (v : Values) (r : Row) : Condition → Bool
  | equal c x => (x.value? v r).any fun a => r.get c = a
  | atMost c x => (x.value? v r).any fun a => r.get c ≤ a
  | after c x => (x.value? v r).any fun a => a < r.get c

/-- Why a command fails on a table. -/
inductive TableFault where
  /-- There is a row of this name. -/
  | notUnique
  /-- There is no value for a column. -/
  | noValue
  deriving DecidableEq

/-- The row with its columns set, if there are values for all of them. -/
def Row.assign (v : Values) (r : Row) (sets : List (Column × Quantity)) : Option Row :=
  sets.foldlM (fun new set => (set.2.value? v r).map (new.set set.1)) r

namespace Command

/-- Updates one row, and tells whether it met the conditions. -/
def updateRow (v : Values) (sets : List (Column × Quantity)) (conditions : List Condition)
    (r : Row) : Except TableFault (Bool × Row) :=
  if conditions.all (·.holds v r) then
    match r.assign v sets with
    | some new => .ok (true, new)
    | none => .error .noValue
  else .ok (false, r)

/-- The row that an insertion writes, if there are values for all columns. -/
def newRow? (v : Values) (name lockUntil lockedAt lockedBy : Quantity) : Option Row := do
  return ⟨← name.value? v none, ← lockUntil.value? v none, ← lockedAt.value? v none,
    ← lockedBy.value? v none⟩

/-- Carries out a command, and answers how many rows it touched. -/
def perform (v : Values) (rows : List Row) : Command → Except TableFault (Nat × List Row)
  | insert quiet name lockUntil lockedAt lockedBy =>
    match newRow? v name lockUntil lockedAt lockedBy with
    | none => if quiet then .ok (0, rows) else .error .noValue
    | some r =>
      if rows.any (·.name = r.name) then if quiet then .ok (0, rows) else .error .notUnique
      else .ok (1, rows ++ [r])
  | update sets conditions => do
    let touched ← rows.mapM (updateRow v sets conditions)
    return ((touched.filter Prod.fst).length, touched.map Prod.snd)

end Command
end LeaseLock.Sql
