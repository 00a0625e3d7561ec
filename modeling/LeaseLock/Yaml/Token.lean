import LeaseLock.Registry
import LeaseLock.Yaml.Scalar

/-!
# Tokens

The marks, names and scalars that a document is made of.

## The model

Block collections have no marks of their own: one opens where an entry or a key stands further
right than what is around it, and closes where something stands further left. A key is only known
by the colon after it. So a mark is left wherever a key may start, and the colon says of the last
one that it was the start of a key, and perhaps of a mapping; `settle` then puts the keys in. Such
a key is on one line and not long; one at the left edge of its mapping has to be followed by a
colon.

`tokens` answers nothing if the text has no tokens.
-/

namespace LeaseLock.Yaml

/-- How a scalar is written. -/
inductive Style where
  | plain | quoted | literal | folded
  deriving DecidableEq

/-- A token. -/
inductive Token where
  /-- The version that a document asks for. -/
  | version (major minor : Nat)
  /-- The meaning of the handles of tags. -/
  | handle (handle meaning : String)
  | documentStart
  | documentEnd
  | blockSequence
  | blockMapping
  | blockEnd
  | flowSequence
  | flowSequenceEnd
  | flowMapping
  | flowMappingEnd
  | blockEntry
  | flowEntry
  | key
  | value
  | reference (name : String)
  | anchor (name : String)
  | tag (handle suffix : String)
  | scalar (style : Style) (text : String)
  /-- A place where a key may start. -/
  | mark (number : Nat)
  deriving DecidableEq

/-- A place where the key that a colon ends may have started. -/
structure Candidate where
  number : Nat
  /-- It has to be a key. -/
  required : Bool
  index : Nat
  line : Nat
  column : Nat

/-- A reader of tokens. -/
structure Lexer where
  cursor : Cursor
  /-- The columns of the open block collections, the innermost first. -/
  columns : List Nat := []
  /-- The candidates in the open flow collections, the innermost first, and outside of them. -/
  candidates : List (Option Candidate) := [none]
  /-- A key may start here. -/
  keyAllowed : Bool := true
  /-- The number for the next mark. -/
  marks : Nat := 0
  /-- The marks at which a key starts, and whether it opens a mapping. -/
  keys : Registry Nat Bool := []
  /-- The tokens so far, the last one first. -/
  produced : List Token := []

namespace Lexer

/-- The reader is in a flow collection. -/
def inFlow (l : Lexer) : Bool := 1 < l.candidates.length

/-- Adds a token. -/
def produce (l : Lexer) (t : Token) : Lexer := { l with produced := t :: l.produced }

/-- Goes on at another place. -/
def moveTo (l : Lexer) (c : Cursor) : Lexer := { l with cursor := c }

/-- Goes on after a number of characters. -/
def skip (l : Lexer) (n : Nat) : Lexer := l.moveTo (l.cursor.skip n)

/-- Says whether a key may start here. -/
def allowKey (l : Lexer) (b : Bool) : Lexer := { l with keyAllowed := b }

/-! ### Block collections -/

/-- A block collection at a column is further right than the innermost open one. -/
def isDeeper (l : Lexer) (column : Nat) : Bool := l.columns.head?.all (· < column)

/-- Opens a block collection at a column, if it is further right than the innermost open one. -/
def openBlock (l : Lexer) (t : Token) (column : Nat) : Lexer :=
  if !l.inFlow && l.isDeeper column then { l.produce t with columns := column :: l.columns } else l

/-- Closes the block collections right of a column. Without one, all are closed. -/
def closeBlocks (l : Lexer) (column : Option Nat) : Lexer :=
  if l.inFlow then l
  else
    let stays (n : Nat) : Bool := column.any (n ≤ ·)
    let closed := l.columns.takeWhile fun n => !stays n
    { l with
      columns := l.columns.dropWhile fun n => !stays n
      produced := List.replicate closed.length .blockEnd ++ l.produced }

/-! ### Keys -/

/-- Gives up the candidate of the innermost collection. It is an error if it has to be a key. -/
def dropCandidate (l : Lexer) : Option Lexer :=
  match l.candidates with
  | some k :: rest => if k.required then none else some { l with candidates := none :: rest }
  | _ => some l

/-- Marks the place, if a key may start here. -/
def markKey (l : Lexer) : Option Lexer :=
  if l.keyAllowed then do
    let c := l.cursor
    let k : Candidate :=
      { number := l.marks, required := !l.inFlow && l.columns.head? == some c.column
        index := c.index, line := c.line, column := c.column }
    let l ← l.dropCandidate
    return { l.produce (.mark l.marks) with
      candidates := some k :: l.candidates.tail, marks := l.marks + 1 }
  else some l

/-- How many characters a key may have that is only known by its colon. -/
def longestKey : Nat := 1024

/-- Gives up candidates that are too far away. It is an error if one of them has to be a key. -/
def dropStale (l : Lexer) : Option Lexer := do
  let cs ← l.candidates.mapM fun
    | some k =>
      if k.line < l.cursor.line || k.index + longestKey < l.cursor.index then
        if k.required then none else some none
      else some (some k)
    | none => some none
  return { l with candidates := cs }

/-! ### Between tokens -/

/-- Skips blanks, comments and breaks. -/
def skipSpace : Nat → Lexer → Lexer
  | 0, l => l
  | n + 1, l =>
    let c := if l.cursor.index == 0 && l.cursor.looksAt '\ufeff' 0 then l.cursor.skip 1
      else l.cursor
    let c := c.skipWhile fun x => x == ' ' || ((l.inFlow || !l.keyAllowed) && x == '\t')
    let c := if c.looksAt '#' 0 then c.skipWhile fun x => !isBreak x else c
    if c.breakLength = 0 then l.moveTo c
    else skipSpace n ((l.moveTo c.skipBreak).allowKey (!l.inFlow || l.keyAllowed))

/-! ### Directives, anchors and tags -/

/-- Closes all that belongs to a document. -/
def leaveDocument (l : Lexer) : Option Lexer := do
  return (← (l.closeBlocks none).dropCandidate).allowKey false

/-- A character of the suffix of a tag. -/
def isTagChar (verbatim : Bool) (x : Char) : Bool :=
  isWord x || ";/?:@&=+$.%!~*'()".toList.contains x || (verbatim && ",[]".toList.contains x)

/-- Whether each percent sign of a tag is followed by the two digits of its escape. -/
def hasWholeEscapes : List Char → Bool
  | [] => true
  | '%' :: d :: e :: rest => (Text.Percent.byte? d e).isSome && hasWholeEscapes rest
  | x :: rest => x != '%' && hasWholeEscapes rest

/-- Reads the suffix of a tag, with its escapes. -/
def tagSuffix (verbatim : Bool) (c : Cursor) : Option (String × Cursor) := do
  let cs := c.rest.takeWhile (isTagChar verbatim)
  if !hasWholeEscapes cs then none
  return (← Text.Percent.decode? cs, c.skip cs.length)

/-- Reads the handle of a tag: words between exclamation marks, of which the second may be
missing. -/
def tagHandle (c : Cursor) : List Char × Cursor :=
  let word := (c.rest.drop 1).takeWhile isWord
  let n := 1 + word.length
  if c.looksAt '!' n then ('!' :: word ++ ['!'], c.skip (n + 1)) else ('!' :: word, c.skip n)

/-- Reads a tag. -/
def tag (l : Lexer) : Option Lexer := do
  let c := l.cursor
  let (t, c) : Token × Cursor ←
    if c.looksAt '<' 1 then do
      let (suffix, c) ← tagSuffix true (c.skip 2)
      if suffix = "" || !c.looksAt '>' 0 then none
      some (.tag "" suffix, c.skip 1)
    else do
      let (handle, next) := tagHandle c
      if 1 < handle.length && handle.getLast? == some '!' then
        let (suffix, c) ← tagSuffix false next
        if suffix = "" then none
        some (.tag (String.ofList handle) suffix, c)
      else
        let (suffix, c) ← tagSuffix false (c.skip 1)
        some (if suffix = "" then .tag "" "!" else .tag "!" suffix, c)
  if c.endsWord 0 || (l.inFlow && c.looksAt ',' 0) then return (l.produce t).moveTo c
  else none

/-- Reads the name of an anchor or alias. -/
def anchorName (c : Cursor) : Option (String × Cursor) :=
  let name := c.rest.takeWhile isWord
  let c := c.skip name.length
  if name ≠ [] && (c.endsWord 0 || c.rest.head?.any ("?:,]\x7d%@\x60".toList.contains ·)) then
    some (String.ofList name, c)
  else none

/-- The number of a run of digits, if there is one that is not too long. -/
def number (c : Cursor) : Option (Nat × Cursor) :=
  let ds := c.rest.takeWhile Char.isDigit
  if ds = [] ∨ 9 < ds.length then none else some (Nat.ofDigitChars 10 ds 0, c.skip ds.length)

/-- Reads what follows the name of a directive. -/
def directiveBody (name : List Char) (c : Cursor) : Option (Token × Cursor) := do
  let c := c.skipWhile isBlank
  match String.ofList name with
  | "YAML" =>
    let (major, c) ← number c
    if !c.looksAt '.' 0 then none
    let (minor, c) ← number (c.skip 1)
    return (.version major minor, c)
  | "TAG" =>
    if !c.looksAt '!' 0 then none
    let (handle, c) := tagHandle c
    if handle ≠ ['!'] && handle.getLast? != some '!' then none
    if handle = ['!'] && !c.endsWord 0 then none
    if !c.rest.head?.any isBlank then none
    let (meaning, c) ← tagSuffix true (c.skipWhile isBlank)
    if meaning = "" || !c.endsWord 0 then none
    return (.handle (String.ofList handle) meaning, c)
  | _ => none

/-- Reads a directive. -/
def directive (l : Lexer) : Option Lexer := do
  let l ← l.leaveDocument
  let c := l.cursor.skip 1
  let name := c.rest.takeWhile isWord
  let c := c.skip name.length
  if !c.endsWord 0 then none
  let (t, c) ← directiveBody name c
  let c := c.skipWhile isBlank
  let c := if c.looksAt '#' 0 then c.skipWhile fun x => !isBreak x else c
  if c.endsLine 0 then return (l.produce t).moveTo c.skipBreak else none

/-! ### Tokens -/

/-- Reads a mark that separates documents. -/
def marker (l : Lexer) (t : Token) : Option Lexer := do
  return ((← l.leaveDocument).produce t).skip 3

/-- Reads a mark that opens a flow collection. -/
def openFlow (l : Lexer) (t : Token) : Option Lexer := do
  let l ← l.markKey
  return (({ l with candidates := none :: l.candidates }.allowKey true).produce t).skip 1

/-- Reads a mark that closes a flow collection. -/
def closeFlow (l : Lexer) (t : Token) : Option Lexer := do
  let l ← l.dropCandidate
  let outer := match l.candidates with
    | _ :: k :: rest => k :: rest
    | cs => cs
  return (({ l with candidates := outer }.allowKey false).produce t).skip 1

/-- Reads a comma between entries. -/
def comma (l : Lexer) : Option Lexer := do
  return (((← l.dropCandidate).allowKey true).produce .flowEntry).skip 1

/-- Reads the mark of a block entry. -/
def dash (l : Lexer) : Option Lexer := do
  if !l.inFlow && !l.keyAllowed then none
  let l := l.openBlock .blockSequence l.cursor.column
  return (((← l.dropCandidate).allowKey true).produce .blockEntry).skip 1

/-- Reads the mark of a key that may be anything. -/
def question (l : Lexer) : Option Lexer := do
  if !l.inFlow && !l.keyAllowed then none
  let l := l.openBlock .blockMapping l.cursor.column
  return (((← l.dropCandidate).allowKey (!l.inFlow)).produce .key).skip 1

/-- Reads the colon before a value. -/
def colon (l : Lexer) : Option Lexer :=
  match l.candidates with
  | some k :: rest =>
    let opens := !l.inFlow && l.isDeeper k.column
    some <| ((({ l with
      keys := l.keys.put k.number opens
      columns := if opens then k.column :: l.columns else l.columns
      candidates := none :: rest }).allowKey false).produce .value).skip 1
  | _ =>
    if !l.inFlow && !l.keyAllowed then none
    else
      let l := l.openBlock .blockMapping l.cursor.column
      some (((l.allowKey (!l.inFlow)).produce .value).skip 1)

/-- Reads an anchor or alias. -/
def anchor (l : Lexer) (f : String → Token) : Option Lexer := do
  let l ← l.markKey
  let (name, c) ← anchorName (l.cursor.skip 1)
  return ((l.allowKey false).produce (f name)).moveTo c

/-- Reads a block scalar. -/
def block (l : Lexer) (style : Style) : Option Lexer := do
  let l ← l.dropCandidate
  let (text, c) ← Block.read (style = .folded) l.columns.head? (l.cursor.skip 1)
  return ((l.allowKey true).produce (.scalar style (String.ofList text))).moveTo c

/-- Reads a quoted scalar. -/
def quoted (l : Lexer)
    (read : Nat → List Char → Cursor → Option (List Char × Cursor)) : Option Lexer := do
  let l ← l.markKey
  let (text, c) ← read (l.cursor.rest.length + 1) [] (l.cursor.skip 1)
  return ((l.allowKey false).produce (.scalar .quoted (String.ofList text))).moveTo c

/-- Reads a plain scalar. -/
def plain (l : Lexer) : Option Lexer := do
  let l ← l.markKey
  let limit : Nat := match l.columns with
    | [] => 0
    | n :: _ => n + 1
  let (text, g, c) ← Plain.read l.inFlow limit (l.cursor.rest.length + 1) [] {} l.cursor
  return ((l.allowKey g.spansLines).produce (.scalar .plain (String.ofList text))).moveTo c

/-- The characters that have a meaning of their own at the start of a token. -/
def indicators : List Char :=
  ['-', '?', ':', ',', '[', ']', '{', '}', '#', '&', '*', '!', '|', '>', '\x27', '"', '%', '@',
    '\x60']

/-- A plain scalar starts here. -/
def startsPlain (l : Lexer) (x : Char) : Bool :=
  !(isBlank x || isBreak x || indicators.contains x) ||
    (x == '-' && !(l.cursor.at? 1).any isBlank) ||
    (!l.inFlow && (x == '?' || x == ':') && !l.cursor.endsWord 1)

/-- Reads a token that starts with the given character. -/
def token (l : Lexer) (x : Char) : Option Lexer :=
  let c := l.cursor
  let alone : Bool := l.inFlow || c.endsWord 1
  if x == '%' && c.column == 0 then l.directive
  else if c.startsMarker then l.marker (if x == '-' then .documentStart else .documentEnd)
  else if x == '[' then l.openFlow .flowSequence
  else if x == '{' then l.openFlow .flowMapping
  else if x == ']' then l.closeFlow .flowSequenceEnd
  else if x == '}' then l.closeFlow .flowMappingEnd
  else if x == ',' then l.comma
  else if x == '-' && c.endsWord 1 then l.dash
  else if x == '?' && alone then l.question
  else if x == ':' && alone then l.colon
  else if x == '*' then l.anchor .reference
  else if x == '&' then l.anchor .anchor
  else if x == '!' then do ((← l.markKey).allowKey false).tag
  else if x == '|' && !l.inFlow then l.block .literal
  else if x == '>' && !l.inFlow then l.block .folded
  else if x == '\x27' then l.quoted Quoted.single
  else if x == '"' then l.quoted Quoted.double
  else if l.startsPlain x then l.plain
  else none

/-- Reads all tokens. -/
def run : Nat → Lexer → Option Lexer
  | 0, _ => none
  | n + 1, l => do
    let l ← (l.skipSpace (l.cursor.rest.length + 1)).dropStale
    match l.cursor.rest with
    | [] => l.leaveDocument
    | x :: _ => run n (← (l.closeBlocks (some l.cursor.column)).token x)

end Lexer

/-- The tokens with the keys put in where they start. -/
def settle (keys : Registry Nat Bool) (ts : List Token) : List Token :=
  ts.flatMap fun
    | .mark n => match keys.get? n with
      | some true => [.blockMapping, .key]
      | some false => [.key]
      | none => []
    | t => [t]

/-- A character that may stand in a document. -/
def isAllowed (x : Char) : Bool :=
  let n := x.toNat
  n == 9 || n == 10 || n == 13 || (0x20 ≤ n && n ≤ 0x7e) || n == 0x85 ||
    (0xa0 ≤ n && n ≤ 0xfffd) || 0x10000 ≤ n

/-- The tokens of a text. -/
def tokens (cs : List Char) : Option (List Token) :=
  if cs.all isAllowed then
    (Lexer.run (cs.length + 1) { cursor := { rest := cs } }).map fun l =>
      settle l.keys l.produced.reverse
  else none

end LeaseLock.Yaml
