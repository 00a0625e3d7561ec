import LeaseLock.Sql.Param
import LeaseLock.Sql.Schema

/-!
# Layouts

Templates of statements before the names of a schema are put into them.

## The model

A layout is a list of parts: words, the name of the table or of a column, and parameters. Its text for
a schema is the template that statements are made from. The names stand in it as they are, and a
parameter is mentioned by a colon and its own name; so the text alone does not tell a name from the
words around it, nor from a parameter.
-/

namespace LeaseLock.Sql

/-- A part of a template. -/
inductive Part where
  /-- Words that are the same for all schemas. -/
  | words (s : String)
  /-- The name of the table. -/
  | table
  /-- The name of a column. -/
  | column (c : Column)
  /-- A parameter. -/
  | param (p : Param)
  deriving DecidableEq

/-- A template in which the names are left open. -/
abbrev Layout := List Part

/-- Words alone. -/
instance : Coe String Layout := ⟨fun s => [.words s]⟩

/-- Layouts one after the other, with another one between any two. -/
def Layout.separated (between : Layout) (ls : List Layout) : Layout := List.intercalate between ls

/-- A parameter as templates mention it. -/
def Param.mention (p : Param) : String := ":" ++ p.token

/-- The text of a part. -/
def Part.text (s : Schema) : Part → String
  | words w => w
  | table => s.tableName
  | column c => s.column c
  | param p => p.mention

/-- The template for a schema. -/
def Layout.text (s : Schema) : Layout → String
  | [] => ""
  | x :: l => x.text s ++ Layout.text s l

end LeaseLock.Sql
