import LeaseLock.Text.Percent
import LeaseLock.Yaml.Cursor

/-!
# Scalars

The five ways to write a text in a document.

## The model

A plain or quoted scalar may go on for several lines. The blanks and breaks between its words are a
`Gap`: within a line the blanks are kept, and across lines a single break becomes a blank, and of
several breaks the first is left out. In double quotes there are escapes as well. A block scalar is
made of whole lines that are indented; a literal one keeps its breaks, a folded one joins lines
that start with a word. What follows the last line is kept, cut to one break, or dropped.

Each reader answers the text and the place after it, or nothing if the scalar is malformed. The
readers go through the characters, of which there are at most as many as their first argument says.
-/

namespace LeaseLock.Yaml

/-! ### Gaps between words -/

/-- The blanks and breaks between two words. -/
structure Gap where
  /-- The blanks on the line of the word before. -/
  blanks : List Char := []
  /-- The first break, if there is one. -/
  first : Option (List Char) := none
  /-- The breaks after it. -/
  more : List Char := []

namespace Gap

/-- The gap goes over a break. -/
def spansLines (g : Gap) : Bool := g.first.isSome

/-- What the gap becomes in the value. -/
def text (g : Gap) : List Char :=
  match g.first with
  | none => g.blanks
  | some ['\n'] => if g.more = [] then [' '] else g.more
  | some first => first ++ g.more

/-- Reads the rest of a gap. On its further lines a tabulator before the column `limit` is an
error. -/
def read (limit : Nat) : Nat → Gap → Cursor → Option (Gap × Cursor)
  | 0, g, c => some (g, c)
  | n + 1, g, c =>
    if c.rest.head?.any isBlank then
      if g.spansLines then
        if c.column < limit && c.looksAt '\t' 0 then none else read limit n g (c.skip 1)
      else read limit n { g with blanks := g.blanks ++ c.rest.take 1 } (c.skip 1)
    else if c.rest.head?.any isBreak then
      let g : Gap := match g.first with
        | none => { first := some c.breakText }
        | some _ => { g with more := g.more ++ c.breakText }
      read limit n g c.skipBreak
    else some (g, c)

end Gap

/-! ### Quoted scalars -/

namespace Quoted

/-- Reads the rest of a text in single quotes, where a quote is written twice. -/
def single : Nat → List Char → Cursor → Option (List Char × Cursor)
  | 0, _, _ => none
  | n + 1, text, c =>
    if c.startsMarker then none
    else match c.rest with
      | [] => none
      | '\x27' :: '\x27' :: _ => single n (text ++ ['\x27']) (c.skip 2)
      | '\x27' :: _ => some (text, c.skip 1)
      | x :: _ =>
        if isBlank x || isBreak x then
          (Gap.read 0 c.rest.length {} c).bind fun (g, c) => single n (text ++ g.text) c
        else single n (text ++ [x]) (c.skip 1)

/-- The characters that an escape with one letter stands for. -/
def escaped? : Char → Option Char
  | '0' => some '\x00'
  | 'a' => some '\x07'
  | 'b' => some '\x08'
  | 't' => some '\t'
  | '\t' => some '\t'
  | 'n' => some '\n'
  | 'v' => some '\x0b'
  | 'f' => some '\x0c'
  | 'r' => some '\r'
  | 'e' => some '\x1b'
  | ' ' => some ' '
  | '"' => some '"'
  | '/' => some '/'
  | '\\' => some '\\'
  | 'N' => some '\u0085'
  | '_' => some '\u00a0'
  | 'L' => some '\u2028'
  | 'P' => some '\u2029'
  | _ => none

/-- How many hexadecimal digits follow the letter of an escape. -/
def digitCount? : Char → Option Nat
  | 'x' => some 2
  | 'u' => some 4
  | 'U' => some 8
  | _ => none

/-- The code point of a number of hexadecimal digits. -/
def codePoint? (count : Nat) (cs : List Char) : Option Char := do
  let ds := cs.take count
  if ds.length < count then none
  let n ← ds.foldlM (fun n d => (Text.Percent.digit? d).map (16 * n + ·)) 0
  if h : n.isValidChar then some (Char.ofNatAux n h) else none

/-- Reads the rest of a text in double quotes. -/
def double : Nat → List Char → Cursor → Option (List Char × Cursor)
  | 0, _, _ => none
  | n + 1, text, c =>
    if c.startsMarker then none
    else match c.rest with
      | [] => none
      | '"' :: _ => some (text, c.skip 1)
      | '\\' :: x :: more =>
        if isBreak x then
          (Gap.read 0 c.rest.length { first := some [] } (c.skip 1).skipBreak).bind
            fun (g, c) => double n (text ++ g.text) c
        else match escaped? x, digitCount? x with
          | some y, _ => double n (text ++ [y]) (c.skip 2)
          | none, some count =>
            (codePoint? count more).bind fun y => double n (text ++ [y]) (c.skip (2 + count))
          | none, none => none
      | x :: _ =>
        if isBlank x || isBreak x then
          (Gap.read 0 c.rest.length {} c).bind fun (g, c) => double n (text ++ g.text) c
        else if x = '\\' then none
        else double n (text ++ [x]) (c.skip 1)

end Quoted

/-! ### Plain scalars -/

namespace Plain

/-- Separators of flow collections. -/
def isFlowMark (x : Char) : Bool := x == ',' || x == '[' || x == ']' || x == '{' || x == '}'

/-- A plain text ends here. -/
def ends (inFlow : Bool) (c : Cursor) : Bool :=
  (c.looksAt ':' 0 && c.endsWord 1) || (inFlow && c.rest.head?.any isFlowMark)

/-- A colon that is neither part of a plain text nor after a key. -/
def strayColon (inFlow : Bool) (c : Cursor) : Bool :=
  inFlow && c.looksAt ':' 0 && (c.at? 1).any fun x => isFlowMark x || x == '?'

/-- Reads the rest of a plain text after the gap `g`. It goes on while lines are indented to the
column `limit`. Answers also the last gap, which is not part of it. -/
def read (inFlow : Bool) (limit : Nat) :
    Nat → List Char → Gap → Cursor → Option (List Char × Gap × Cursor)
  | 0, text, g, c => some (text, g, c)
  | n + 1, text, g, c =>
    match c.rest with
    | [] => some (text, g, c)
    | x :: _ =>
      if isBlank x || isBreak x then
        (Gap.read limit c.rest.length {} c).bind fun (g, c) =>
          if (!inFlow && c.column < limit) || c.startsMarker || c.looksAt '#' 0 then
            some (text, g, c)
          else read inFlow limit n text g c
      else if strayColon inFlow c then none
      else if ends inFlow c then some (text, g, c)
      else read inFlow limit n (text ++ g.text ++ [x]) {} (c.skip 1)

end Plain

/-! ### Block scalars -/

namespace Block

/-- What happens to the breaks at the end. -/
inductive Chomping where
  | drop | one | keep
  deriving DecidableEq

/-- How a block scalar is to be read. -/
structure Header where
  chomping : Chomping := .one
  /-- How far it is indented beyond what it is part of, if that is said. -/
  increment : Option Nat := none

/-- Reads a sign for the breaks at the end, if there is one. -/
def Header.sign (h : Header) (c : Cursor) : Header × Cursor :=
  if c.looksAt '+' 0 then ({ h with chomping := .keep }, c.skip 1)
  else if c.looksAt '-' 0 then ({ h with chomping := .drop }, c.skip 1)
  else (h, c)

/-- Reads a digit for the indentation, if there is one; zero is an error. -/
def Header.digit (h : Header) (c : Cursor) : Option (Header × Cursor) :=
  match c.rest with
  | x :: _ =>
    if x = '0' then none
    else if x.isDigit then some ({ h with increment := some (x.toNat - 48) }, c.skip 1)
    else some (h, c)
  | [] => some (h, c)

/-- Reads the sign and the digit, in either order, and the rest of the line. -/
def Header.read (c : Cursor) : Option (Header × Cursor) := do
  let (h, c) := Header.sign {} c
  let (h, c) ← h.digit c
  let (h, c) := if h.chomping = .one then h.sign c else (h, c)
  let c := c.skipWhile isBlank
  let c := if c.looksAt '#' 0 then c.skipWhile fun x => !isBreak x else c
  if c.endsLine 0 then some (h, c.skipBreak) else none

/-- Reads indentation and empty lines. Without a column `indent` to indent to, all blanks count,
and the deepest column is answered. -/
def breaks (indent : Option Nat) : Nat → Nat → List Char → Cursor →
    Option (Nat × List Char × Cursor)
  | 0, deepest, text, c => some (deepest, text, c)
  | n + 1, deepest, text, c =>
    let inside (column : Nat) : Bool := indent.all (column < ·)
    if c.looksAt ' ' 0 && inside c.column then breaks indent n deepest text (c.skip 1)
    else
      let deepest := max deepest c.column
      if c.looksAt '\t' 0 && inside c.column then none
      else if c.rest.head?.any isBreak then
        breaks indent n deepest (text ++ c.breakText) c.skipBreak
      else some (deepest, text, c)

/-- What a break becomes between two lines: `more` are the breaks after it, and `inner` says that
one of the lines starts with a blank. -/
def joint (folded inner : Bool) (first more : List Char) : List Char :=
  if folded && first = ['\n'] && !inner then if more = [] then [' '] else more
  else first ++ more

/-- Reads the lines from a column on. Answers the text, the break after the last line, and the
breaks after that. -/
def lines (folded : Bool) (indent : Nat) : Nat → List Char → (first more : List Char) → Bool →
    Cursor → Option (List Char × List Char × List Char × Cursor)
  | 0, text, first, more, _, c => some (text, first, more, c)
  | n + 1, text, first, more, inner, c =>
    if c.column = indent && c.rest ≠ [] then do
      let blank := c.rest.head?.any isBlank
      let line := c.rest.takeWhile fun x => !isBreak x
      let text := text ++ joint folded (inner || blank) first more ++ line
      let c := c.skip line.length
      let (_, more, next) ← breaks (some indent) (c.rest.length + 1) 0 [] c.skipBreak
      lines folded indent n text c.breakText more blank next
    else some (text, first, more, c)

/-- Reads a block scalar after its first character. It is part of something at the column
`parent`, or of nothing. -/
def read (folded : Bool) (parent : Option Nat) (c : Cursor) : Option (List Char × Cursor) := do
  let (h, c) ← Header.read c
  let least : Nat := match parent with
    | some p => p + 1
    | none => 1
  let said : Option Nat := h.increment.map (· + parent.getD 0)
  let (deepest, more, c) ← breaks said (c.rest.length + 1) 0 [] c
  let indent := said.getD (max deepest least)
  let (text, first, more, c) ← lines folded indent (c.rest.length + 1) [] [] more false c
  return (text ++ (if h.chomping = .drop then [] else first) ++
    (if h.chomping = .keep then more else []), c)

end Block
end LeaseLock.Yaml
