import LeaseLock.Sql.Dialect

/-!
# Statements

Templates turned into statements with numbered places for their parameters.

## The model

A template is cut into pieces: its parameters and all other characters. A colon starts a
parameter if the longest run of letters, digits and underscores after it is the name of one; any
other colon stands for itself. The statement has a placeholder in place of each parameter, counted
from one, and lists the parameters in the same order, repeated ones each time.
-/

namespace LeaseLock.Sql

/-- How a driver marks the place of a parameter. -/
inductive Placeholder where
  /-- A question mark. -/
  | question
  /-- A dollar sign and the number of the place. -/
  | dollar
  deriving DecidableEq

/-- The mark for the place of a number. -/
def Placeholder.mark : Placeholder → Nat → List Char
  | question, _ => ['?']
  | dollar, n => '$' :: Nat.toDigits 10 n

/-- A piece of a template. -/
inductive Piece where
  | char (c : Char)
  | param (p : Param)
  deriving DecidableEq

/-- The characters of names: letters, digits and the underscore of the ASCII range. -/
def isWordChar (c : Char) : Bool := c.isAlphanum || c == '_'

/-- The pieces of a template after its first `skip` characters. -/
def piecesFrom (skip : Nat) : List Char → List Piece
  | [] => []
  | c :: cs =>
    match skip with
    | n + 1 => piecesFrom n cs
    | 0 =>
      if c = ':' then
        match Param.ofToken? (cs.takeWhile isWordChar) with
        | some p => .param p :: piecesFrom (cs.takeWhile isWordChar).length cs
        | none => .char c :: piecesFrom 0 cs
      else .char c :: piecesFrom 0 cs

/-- The pieces of a template. -/
def pieces (cs : List Char) : List Piece := piecesFrom 0 cs

/-- The parameters among pieces, in order. -/
def Piece.params : List Piece → List Param
  | [] => []
  | .char _ :: ps => params ps
  | .param p :: ps => p :: params ps

/-- The text of pieces, with marks for the parameters, of which `n` came before. -/
def Piece.text (style : Placeholder) (n : Nat) : List Piece → List Char
  | [] => []
  | .char c :: ps => c :: text style n ps
  | .param _ :: ps => style.mark (n + 1) ++ text style (n + 1) ps

/-- A statement and the parameters of its places. -/
@[ext]
structure Statement where
  sql : String
  params : List Param
  deriving DecidableEq

namespace Statement

/-- The statement of a template. -/
def render (style : Placeholder) (template : String) : Statement :=
  let ps := pieces template.toList
  ⟨String.ofList (Piece.text style 0 ps), Piece.params ps⟩

/-- The values for the places of a statement. -/
def values (s : Statement) (t : Terms) (holder : String) (now : Instant) : List Bound :=
  s.params.map fun p => p.bound t holder now

end Statement

/-- The statements of a storage service on a table. -/
structure Statements where
  dialect : Dialect
  insert : Statement
  claim : Statement
  release : Statement
  extend : Statement

/-- The statements for a dialect, a table and a driver. -/
def Statements.make (d : Dialect) (s : Schema) (style : Placeholder) : Statements where
  dialect := d
  insert := .render style (d.commands.insert.template d s)
  claim := .render style (d.commands.claim.template d s)
  release := .render style (d.commands.release.template d s)
  extend := .render style (d.commands.extend.template d s)

end LeaseLock.Sql
