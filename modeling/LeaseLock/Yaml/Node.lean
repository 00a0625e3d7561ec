import LeaseLock.Yaml.Token

/-!
# Documents

The tree of values that the tokens of a text make.

## The model

A node is a scalar, a sequence or a mapping, and may have a tag. An alias is the node that the last
anchor of its name stands on; inside of that very node it is `loop`, which nothing can be read
from. The node of an alias is looked up by the number of the anchor, so that a later anchor of the
same name does not matter to it.

`document` reads a text that holds at most one document. The readers go down the tree, which is
never deeper than their first argument says.
-/

namespace LeaseLock.Yaml

/-- A value in a document. -/
inductive Node where
  | scalar (tag : Option String) (style : Style) (text : String)
  | sequence (tag : Option String) (items : List Node)
  | mapping (tag : Option String) (entries : List (Node × Node))
  /-- An alias inside of the node that it stands for. -/
  | loop

namespace Node

/-- What stands where nothing is written. -/
def missing : Node := scalar none .plain ""

end Node

/-- What is known while the tokens are read. -/
structure Reading where
  /-- The tokens that are left. -/
  tokens : List Token
  /-- The meanings of the handles of tags. -/
  handles : Registry String String := []
  /-- The number of the last anchor of a name. -/
  anchors : Registry String Nat := []
  /-- The nodes with anchors that are complete. -/
  nodes : Registry Nat Node := []
  /-- The number for the next anchor. -/
  count : Nat := 0

/-- A reader of tokens that may find them malformed. -/
abbrev Reader := StateT Reading Option

namespace Reader

/-- The next token. -/
def peek : Reader (Option Token) := do return (← get).tokens.head?

/-- Goes on after the next token. -/
def advance : Reader Unit := modify fun r => { r with tokens := r.tokens.tail }

/-- Goes on after the next token if it is the given one. -/
def accept (t : Token) : Reader Bool := do
  if (← peek) = some t then
    advance
    return true
  else return false

/-- Goes on after the next token, which has to be the given one. -/
def expect (t : Token) : Reader Unit := do if !(← accept t) then failure

/-- The next token is one of the given ones. -/
def looksAt (ts : List Token) : Reader Bool := do return (← peek).any ts.contains

/-- Reads the next anchor, if there is one. -/
def anchor? : Reader (Option String) := do
  match ← peek with
  | some (.anchor name) =>
    advance
    return some name
  | _ => return none

/-- Reads the next tag, if there is one. -/
def tag? : Reader (Option String) := do
  match ← peek with
  | some (.tag handle suffix) =>
    advance
    if handle = "" then return some suffix
    else match (← get).handles.get? handle with
      | some meaning => return some (meaning ++ suffix)
      | none => failure
  | _ => return none

/-- Reads an anchor and a tag in either order. -/
def properties : Reader (Option String × Option String) := do
  match ← anchor? with
  | some name => return (some name, ← tag?)
  | none =>
    let tag ← tag?
    return (← anchor?, tag)

/-- The node that an alias stands for. -/
def referent (name : String) : Reader Node := do
  let r ← get
  match r.anchors.get? name with
  | some n => return (r.nodes.get? n).getD .loop
  | none => failure

/-- Reads a node that has an anchor, if a name is given. -/
def named (name : Option String) (node : Reader Node) : Reader Node := do
  match name with
  | none => node
  | some name =>
    let n := (← get).count
    modify fun r => { r with anchors := r.anchors.put name n, count := n + 1 }
    let x ← node
    modify fun r => { r with nodes := r.nodes.put n x }
    return x

/-- Where a node stands. -/
inductive Place where
  /-- In a flow collection. -/
  | flow
  /-- In a block collection, or by itself. -/
  | block
  /-- After the mark of a key or value in a block mapping. -/
  | entry
  deriving DecidableEq

/-- Reads what comes next, unless it is one of the given tokens. -/
def orMissing (ts : List Token) (node : Reader Node) : Reader Node := do
  if ← looksAt ts then return .missing else node

mutual

/-- Reads a node. -/
def node : Nat → Place → Reader Node
  | 0, _ => failure
  | n + 1, place => do
    match ← peek with
    | some (.reference name) =>
      advance
      referent name
    | _ =>
      let (name, tag) ← properties
      named name do
        match ← peek with
        | some (.scalar style text) =>
          advance
          return .scalar tag style text
        | some .blockEntry =>
          if place = .entry then return .sequence tag (← entryItems n) else bare name tag
        | some .flowSequence =>
          advance
          return .sequence tag (← flowItems n true)
        | some .flowMapping =>
          advance
          return .mapping tag (← flowEntries n true)
        | some .blockSequence =>
          if place = .flow then bare name tag
          else
            advance
            return .sequence tag (← blockItems n)
        | some .blockMapping =>
          if place = .flow then bare name tag
          else
            advance
            return .mapping tag (← blockEntries n)
        | _ => bare name tag

/-- A node that consists of an anchor or a tag alone. -/
def bare (name tag : Option String) : Reader Node :=
  if name.isSome || tag.isSome then return .scalar tag .plain "" else failure

/-- Reads the items of a block sequence. -/
def blockItems : Nat → Reader (List Node)
  | 0 => failure
  | n + 1 => do
    if ← accept .blockEntry then
      let x ← orMissing [.blockEntry, .blockEnd] (node n .block)
      return x :: (← blockItems n)
    else
      expect .blockEnd
      return []

/-- Reads the items of a sequence that is not further right than the key before it. -/
def entryItems : Nat → Reader (List Node)
  | 0 => failure
  | n + 1 => do
    if ← accept .blockEntry then
      let x ← orMissing [.blockEntry, .key, .value, .blockEnd] (node n .block)
      return x :: (← entryItems n)
    else return []

/-- Reads the entries of a block mapping. -/
def blockEntries : Nat → Reader (List (Node × Node))
  | 0 => failure
  | n + 1 => do
    if ← accept .key then
      let k ← orMissing [.key, .value, .blockEnd] (node n .entry)
      let v ← if ← accept .value then orMissing [.key, .value, .blockEnd] (node n .entry)
        else pure .missing
      return (k, v) :: (← blockEntries n)
    else
      expect .blockEnd
      return []

/-- Reads the items of a flow sequence. A key among them starts a mapping of one entry; where the
key is not written, the token after its mark is passed over. -/
def flowItems : Nat → Bool → Reader (List Node)
  | 0, _ => failure
  | n + 1, first => do
    if ← accept .flowSequenceEnd then return []
    if !first then expect .flowEntry
    if ← accept .flowSequenceEnd then return []
    if ← accept .key then
      let k ← if ← looksAt [.value, .flowEntry, .flowSequenceEnd] then do
          advance
          pure .missing
        else node n .flow
      let v ← if ← accept .value then orMissing [.flowEntry, .flowSequenceEnd] (node n .flow)
        else pure .missing
      return .mapping none [(k, v)] :: (← flowItems n false)
    else
      let x ← node n .flow
      return x :: (← flowItems n false)

/-- Reads the entries of a flow mapping. -/
def flowEntries : Nat → Bool → Reader (List (Node × Node))
  | 0, _ => failure
  | n + 1, first => do
    if ← accept .flowMappingEnd then return []
    if !first then expect .flowEntry
    if ← accept .flowMappingEnd then return []
    if ← accept .key then
      let k ← orMissing [.value, .flowEntry, .flowMappingEnd] (node n .flow)
      let v ← if ← accept .value then orMissing [.flowEntry, .flowMappingEnd] (node n .flow)
        else pure .missing
      return (k, v) :: (← flowEntries n false)
    else
      let k ← node n .flow
      return (k, .missing) :: (← flowEntries n false)

end

/-- Reads the directives before a document. The version is said once at most, and so is the
meaning of each handle. -/
def directives : Nat → Bool → Reader Unit
  | 0, _ => failure
  | n + 1, versioned => do
    match ← peek with
    | some (.version major minor) =>
      if versioned || major ≠ 1 || (minor ≠ 1 && minor ≠ 2) then failure
      advance
      directives n true
    | some (.handle handle meaning) =>
      if (← get).handles.has handle then failure
      advance
      modify fun r => { r with handles := r.handles.put handle meaning }
      directives n versioned
    | _ => return

/-- The meanings that handles have if nothing else is said. -/
def usualHandles : Registry String String := [("!", "!"), ("!!", "tag:yaml.org,2002:")]

/-- Puts the usual meanings to those that are said. -/
def completeHandles : Reader Unit :=
  modify fun r => { r with
    handles := usualHandles.foldl (fun hs (h, m) => if hs.has h then hs else hs.put h m)
      r.handles }

/-- A directive, or a mark that separates documents. -/
def separates : Token → Bool
  | .version .. | .handle .. | .documentStart | .documentEnd => true
  | _ => false

/-- Goes on after all marks that end a document. -/
def skipEnds : Reader Unit :=
  modify fun r => { r with tokens := r.tokens.dropWhile (· == .documentEnd) }

/-- Reads at most one document. -/
def document (n : Nat) : Reader (Option Node) := do
  match ← peek with
  | none => return none
  | some t =>
    let marked : Bool := separates t && t != .documentEnd
    if marked then directives n false
    completeHandles
    if marked then expect .documentStart
    let atEnd : Bool := (← peek).all separates
    let x ← if marked && atEnd then pure .missing else node n .block
    skipEnds
    if (← peek).isSome then failure
    return some x

end Reader

/-- The value of the document in a text, if there is one. Answers nothing if the text is
malformed, and `some none` if it holds no document. -/
def document? (cs : List Char) : Option (Option Node) := do
  let ts ← tokens cs
  (·.1) <$> (Reader.document (4 * ts.length + 8)).run { tokens := ts }

end LeaseLock.Yaml
