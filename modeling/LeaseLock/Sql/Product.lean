import LeaseLock.Sql.Dialect
import LeaseLock.Text.Blank

/-!
# Database products

The databases that can be told apart, and the dialect for each.

## The model

A connection reports the name of its product in its own way. Some products are known by the first
word of the name, others by all of it, and the case of letters does not matter. The dialect that
uses the clock of the database is chosen only where that is asked for and there is one.
-/

namespace LeaseLock.Sql

/-- Database products. -/
inductive Product where
  | postgres | mysql | mariadb | sqlite | unknown
  deriving DecidableEq

namespace Product

/-- The products that can be recognised, in the order in which they are tried. -/
def known : List Product := [postgres, mysql, mariadb, sqlite]

/-- The reported name is one of this product. -/
def isNamedBy (p : Product) (reported : String) : Bool :=
  let cs := Text.trimChars reported.toList
  let whole := String.ofList cs
  let first := String.ofList (Text.firstWord cs)
  match p with
  | postgres => Text.sameLetters first "PostgreSQL"
  | mysql => Text.sameLetters whole "MySQL"
  | mariadb => Text.sameLetters whole "MariaDB"
  | sqlite => Text.sameLetters first "SQLite"
  | unknown => false

/-- The first product that the reported name fits. -/
def named (reported : String) : Product :=
  (known.find? (isNamedBy · reported)).getD unknown

/-- The word for a product in settings. -/
def word : Product → String
  | postgres => "postgres"
  | mysql => "mysql"
  | mariadb => "mariadb"
  | sqlite => "sqlite"
  | unknown => "unknown"

/-- The product that a word in settings is for. -/
def ofWord? (s : String) : Option Product := (known ++ [unknown]).find? (·.word = s)

@[simp] theorem ofWord?_word (p : Product) : ofWord? p.word = some p := by
  cases p <;> decide

/-- The dialect that uses the clock of the database. -/
def serverDialect? : Product → Option Dialect
  | postgres => some .postgres
  | mysql => some .mysql
  | mariadb => some .mysql
  | sqlite => some .sqlite
  | unknown => none

end Product

/-- How locks are kept in a table. -/
structure TableSettings where
  schema : Schema
  /-- Who takes the locks. -/
  lockedBy : String
  /-- Deadlines are to come from the clock of the database. -/
  useServerTime : Bool
  /-- The product, if it need not be asked for. -/
  product : Option Product
  deriving DecidableEq

namespace TableSettings

/-- The dialect for a product. -/
def dialectFor (s : TableSettings) (p : Product) : Dialect :=
  if s.useServerTime then p.serverDialect?.getD .generic else .generic

/-- The dialect for a connection that reports the given name. -/
def dialect (s : TableSettings) (reported : String) : Dialect :=
  s.dialectFor <| match s.product with
    | some p => p
    | none => if s.useServerTime then Product.named reported else .unknown

end TableSettings
end LeaseLock.Sql
