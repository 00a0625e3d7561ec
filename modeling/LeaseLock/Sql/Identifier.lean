import LeaseLock.Text.Blank

/-!
# Names in statements

How the database reads the names of a table and its columns where they stand in a statement.

## The model

A name is a word of letters, digits, underscores and dollars that does not start with a digit or a
dollar and is not reserved, or anything between quotes: double ones, backward ones, or brackets.
The case of ASCII letters does not matter. Text that is not one name is an error in most places;
where a column is created, more words may follow its name and are part of the type, and without a
name the type itself is taken for one.
-/

namespace LeaseLock.Sql.Identifier

open Text

/-- White space between the words of a statement. -/
def isSpace (c : Char) : Bool := c.toNat < 128 && isBlank c

/-- The character may start a word. -/
def startsWord (c : Char) : Bool := c.isAlpha || c == '_' || 128 ≤ c.toNat

/-- The character may go on a word. -/
def continuesWord (c : Char) : Bool := startsWord c || c.isDigit || c == '$'

/-- The words that are no names unless they are quoted. -/
def reserved : List String :=
  ["add", "all", "alter", "and", "as", "autoincrement", "between", "case", "check", "collate",
    "commit", "constraint", "create", "default", "deferrable", "delete", "distinct", "drop",
    "else", "escape", "except", "exists", "foreign", "from", "group", "having", "in", "index",
    "insert", "intersect", "into", "is", "isnull", "join", "limit", "not", "nothing", "notnull",
    "null", "on", "or", "order", "primary", "references", "returning", "select", "set", "table",
    "then", "to", "transaction", "union", "unique", "update", "using", "values", "when", "where"]

/-- The character that closes a quotation opened by another one. -/
def closing? : Char → Option Char
  | '"' => some '"'
  | '\x60' => some '\x60'
  | '[' => some ']'
  | _ => none

/-- The text up to a closing character, and what follows it. A doubled one stands for itself, but
not that of brackets. -/
def quoted? (close : Char) : List Char → Option (List Char × List Char)
  | [] => none
  | [c] => if c = close then some ([], []) else none
  | c :: d :: rest =>
    if c = close then
      if d = close ∧ close ≠ ']' then (quoted? close rest).map fun r => (close :: r.1, r.2)
      else some ([], d :: rest)
    else (quoted? close (d :: rest)).map fun r => (c :: r.1, r.2)

/-- Takes a name, in small letters. -/
def take? (cs : List Char) : Option (String × List Char) :=
  match cs with
  | [] => none
  | c :: rest =>
    match closing? c with
    | some close => (quoted? close rest).map fun r => (lower (String.ofList r.1), r.2)
    | none =>
      let word := lower (String.ofList (cs.takeWhile continuesWord))
      if startsWord c ∧ word ∉ reserved then some (word, cs.dropWhile continuesWord) else none

/-- The one name of a table that a text is. It may say that the table is in the main database, and
single quotes do as well. -/
def table? (s : String) : Option String :=
  let ends (r : Option (List Char × List Char)) : Option String := match r with
    | some (name, rest) => if rest.all isSpace then some (lower (String.ofList name)) else none
    | none => none
  let own (cs : List Char) : Option String := match cs with
    | '\x27' :: rest => ends (quoted? '\x27' rest)
    | cs => ends ((take? cs).map fun r => (r.1.toList, r.2))
  let cs := s.toList.dropWhile isSpace
  match take? cs with
  | some ("main", '.' :: rest) => own rest
  | _ => own cs

/-- The one name that a text is. -/
def only? (s : String) : Option String :=
  match take? (s.toList.dropWhile isSpace) with
  | some (name, rest) => if rest.all isSpace then some name else none
  | none => none

/-- The text is a number of words, counted by `n` at most. -/
def areWords : Nat → List Char → Bool
  | 0, cs => cs.all isSpace
  | n + 1, cs =>
    match cs.dropWhile isSpace with
    | [] => true
    | c :: rest => match take? (c :: rest) with
      | some (_, more) => areWords n more
      | none => false

/-- The name of a column that is created by a text. `type` is what follows it. -/
def created? (type : Option String) (s : String) : Option String :=
  match s.toList.dropWhile isSpace with
  | [] => type
  | c :: rest => match take? (c :: rest) with
    | some (name, more) => if areWords more.length more then some name else none
    | none => none

end LeaseLock.Sql.Identifier
