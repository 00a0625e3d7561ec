/-!
# Places in a text

Where a reader of a document stands.

## The model

A cursor has the characters that are left and counts those before it: all of them, the lines, and
those on its line. Line breaks are carriage returns, line feeds, both together, and the three
further line and paragraph separators. Where a break becomes part of a value, it is a line feed,
except that the separators of the general punctuation stay what they are.
-/

namespace LeaseLock.Yaml

/-- A line break, or the start of one. -/
def isBreak (c : Char) : Bool :=
  c == '\r' || c == '\n' || c == '\u0085' || c == '\u2028' || c == '\u2029'

/-- A blank or a tabulator. -/
def isBlank (c : Char) : Bool := c == ' ' || c == '\t'

/-- A letter, a digit, an underscore or a hyphen. -/
def isWord (c : Char) : Bool := c.isAlphanum || c == '_' || c == '-'

/-- A place in a text. -/
structure Cursor where
  rest : List Char
  /-- The characters before it. -/
  index : Nat := 0
  /-- The lines before its own. -/
  line : Nat := 0
  /-- The characters before it on its line. -/
  column : Nat := 0

namespace Cursor

/-- The character at a distance. -/
def at? (c : Cursor) (n : Nat) : Option Char := c.rest[n]?

/-- The character at a distance is the given one. -/
def looksAt (c : Cursor) (x : Char) (n : Nat) : Bool := c.at? n == some x

/-- A line or the text ends at a distance. -/
def endsLine (c : Cursor) (n : Nat) : Bool := (c.at? n).all isBreak

/-- A word ends at a distance. -/
def endsWord (c : Cursor) (n : Nat) : Bool := (c.at? n).all fun x => isBreak x || isBlank x

/-- The text goes on with the given one. -/
def startsWith (c : Cursor) (s : String) : Bool := s.toList.isPrefixOf c.rest

/-- The place after a number of characters on the line. -/
def skip (c : Cursor) (n : Nat) : Cursor :=
  { c with rest := c.rest.drop n, index := c.index + n, column := c.column + n }

/-- The place after the characters that have a property. -/
def skipWhile (p : Char → Bool) (c : Cursor) : Cursor := c.skip (c.rest.takeWhile p).length

/-- How many characters a line break has here. -/
def breakLength (c : Cursor) : Nat :=
  match c.rest with
  | '\r' :: '\n' :: _ => 2
  | x :: _ => if isBreak x then 1 else 0
  | [] => 0

/-- The place after a line break, if there is one. -/
def skipBreak (c : Cursor) : Cursor :=
  if c.breakLength = 0 then c
  else { rest := c.rest.drop c.breakLength, index := c.index + c.breakLength, line := c.line + 1 }

/-- What the line break here becomes in a value. -/
def breakText (c : Cursor) : List Char :=
  match c.rest with
  | x :: _ => if x == '\u2028' || x == '\u2029' then [x] else if isBreak x then ['\n'] else []
  | [] => []

/-- A line that separates documents starts here. -/
def startsMarker (c : Cursor) : Bool :=
  c.column == 0 && (c.startsWith "---" || c.startsWith "...") && c.endsWord 3

end Cursor
end LeaseLock.Yaml
