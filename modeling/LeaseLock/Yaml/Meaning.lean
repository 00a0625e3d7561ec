import LeaseLock.Yaml.Node

/-!
# What scalars mean

The kinds of values that texts in a document stand for.

## The model

A plain scalar without a tag may be nothing, a truth value or a number; otherwise it is text, as is
a scalar in quotes or of whole lines. Numbers are whole, in one of four bases, or decimal fractions
with an exponent; a run of digits that starts with a zero is text. A tag says what a scalar is
meant to be, and that has to be possible. A number of more than 64 bits has no meaning, unless it
has more than 128 and is taken for a fraction.
-/

namespace LeaseLock.Yaml

/-- What a scalar means. -/
inductive Meaning where
  | nothing
  | truth (b : Bool)
  /-- A whole number without a minus sign. -/
  | natural (n : Nat)
  /-- A whole number with a minus sign. -/
  | negative
  /-- A number that may be fractional, or none at all. -/
  | fraction
  | text (s : String)
  deriving DecidableEq

/-! ### The words for nothing and for truth values -/

/-- The text is a word for nothing. -/
def isNothing (s : String) : Bool := ["null", "Null", "NULL", "~"].contains s

/-- The truth value that a text is the word for. -/
def truth? (s : String) : Option Bool :=
  if ["true", "True", "TRUE"].contains s then some true
  else if ["false", "False", "FALSE"].contains s then some false
  else none

/-! ### Whole numbers -/

/-- The number of a run of digits in a base of at most sixteen. -/
def wholeIn? (base : Nat) (cs : List Char) : Option Nat :=
  if cs = [] then none
  else cs.foldlM (fun n c => (Text.Percent.digit? c).bind fun d =>
    if d < base then some (base * n + d) else none) 0

/-- A run of several digits that starts with a zero. -/
def isPadded (cs : List Char) : Bool :=
  cs.head? == some '0' && 1 < cs.length && cs.all Char.isDigit

/-- The number of a text without a sign. -/
def whole? : List Char → Option Nat
  | '0' :: 'x' :: ds => wholeIn? 16 ds
  | '0' :: 'o' :: ds => wholeIn? 8 ds
  | '0' :: 'b' :: ds => wholeIn? 2 ds
  | ds => if isPadded ds then none else wholeIn? 10 ds

/-- A whole number with its sign. -/
structure Whole where
  minus : Bool
  size : Nat

/-- The text without a plus sign at its start. -/
def dropPlus : List Char → List Char
  | '+' :: cs => cs
  | cs => cs

/-- The whole number of a text, if it has at most 128 bits. -/
def Whole.read? : List Char → Option Whole
  | '-' :: cs => do
    let n ← whole? cs
    if n ≤ Nat.pow 2 127 then return ⟨true, n⟩ else none
  | cs => do
    let n ← whole? (dropPlus cs)
    if n < Nat.pow 2 128 then return ⟨false, n⟩ else none

/-- The meaning of a whole number, if it has at most 64 bits. -/
def Whole.meaning? (w : Whole) : Option Meaning :=
  if w.minus then if w.size ≤ Nat.pow 2 63 then some .negative else none
  else if w.size < Nat.pow 2 64 then some (.natural w.size) else none

/-! ### Fractions -/

/-- A decimal number: the digits as a whole number, and the exponent of ten. -/
structure Decimal where
  digits : Nat
  exponent : Int

/-- The exponent that a text gives after a letter. -/
def exponent? : List Char → Option Int
  | [] => some 0
  | e :: cs =>
    if e = 'e' ∨ e = 'E' then
      match cs with
      | '-' :: ds => (wholeIn? 10 ds).map fun n => -(n : Int)
      | ds => (wholeIn? 10 (dropPlus ds)).map Int.ofNat
    else none

/-- The decimal number of a text without a sign: digits, a point between them or at either end,
and perhaps an exponent. -/
def Decimal.read? (cs : List Char) : Option Decimal := do
  let before := cs.takeWhile Char.isDigit
  let rest := cs.dropWhile Char.isDigit
  let (after, rest) := match rest with
    | '.' :: more => (more.takeWhile Char.isDigit, more.dropWhile Char.isDigit)
    | _ => ([], rest)
  return ⟨← wholeIn? 10 (before ++ after), (← exponent? rest) - after.length⟩

/-- The least size that cannot be rounded to a number of 64 bits in binary floating point. -/
def beyondDouble : Nat := Nat.pow 2 1024 - Nat.pow 2 970

/-- The number can be rounded to one of 64 bits in binary floating point. -/
def Decimal.isFinite (d : Decimal) : Bool :=
  if d.digits = 0 then true
  else if d.exponent < 0 then
    let places := d.exponent.natAbs
    (Nat.log2 d.digits < 3 * places) || d.digits < beyondDouble * Nat.pow 10 places
  else d.exponent ≤ 400 && d.digits * Nat.pow 10 d.exponent.toNat < beyondDouble

/-- The words for what is beyond all numbers, and for what is no number. -/
def isEndless (cs : List Char) : Bool :=
  [".inf", ".Inf", ".INF", "+.inf", "+.Inf", "+.INF", "-.inf", "-.Inf", "-.INF", ".nan", ".NaN",
    ".NAN"].contains (String.ofList cs)

/-- The text without a sign at its start. -/
def dropSign : List Char → List Char
  | '-' :: cs => cs
  | cs => dropPlus cs

/-- The text is a number that may be fractional, or a word for what is none. -/
def isFraction (cs : List Char) : Bool :=
  isEndless cs || (Decimal.read? (dropSign cs)).any (·.isFinite)

/-! ### Scalars -/

/-- The meaning of a plain text. -/
def Meaning.ofPlain? (s : String) : Option Meaning :=
  let cs := s.toList
  if s = "" || isNothing s then some .nothing
  else match truth? s, Whole.read? cs with
    | some b, _ => some (.truth b)
    | none, some w => w.meaning?
    | none, none =>
      some (if !isPadded (dropSign cs) && isFraction cs then .fraction else .text s)

/-- The tag of the documents' own kinds of values. -/
def coreTag (kind : String) : String := "tag:yaml.org,2002:" ++ kind

/-- The tag is one that a document has made up for itself. -/
def isOwnTag (tag : Option String) : Bool := tag.any fun t => t.toList.head? == some '!'

/-- What a scalar means. -/
def Meaning.ofScalar? (tag : Option String) (style : Style) (s : String) : Option Meaning :=
  let cs := s.toList
  match tag with
  | none => if style = .plain then ofPlain? s else some (.text s)
  | some t =>
    if isOwnTag tag then none
    else if t = coreTag "bool" then (truth? s).map .truth
    else if t = coreTag "int" then (Whole.read? cs).bind Whole.meaning?
    else if t = coreTag "float" then if isFraction cs then some .fraction else none
    else if t = coreTag "null" then if isNothing s then some .nothing else none
    else some (.text s)

/-- A value all of whose parts mean something. It has collections within each other no deeper than
the first argument says, and no tags of the document's own. -/
def Node.isMeaningful : Nat → Node → Bool
  | _, .scalar tag style s => (Meaning.ofScalar? tag style s).isSome
  | n + 1, .sequence tag items => !isOwnTag tag && items.all (isMeaningful n)
  | n + 1, .mapping tag entries =>
    !isOwnTag tag && entries.all fun e => isMeaningful n e.1 && isMeaningful n e.2
  | _, _ => false

end LeaseLock.Yaml
