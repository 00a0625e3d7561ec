import LeaseLock.Settings.Basic
import LeaseLock.Yaml.Meaning

/-!
# Settings from a document

What a document says about settings.

## The model

A document of settings is a mapping, or empty. Each setting is given once at most; a key that is not
one of a setting is passed over. Where a text is asked for, any scalar is one as it is written, a
number or a word for nothing among them.

The choice of a backend is stricter. It is a mapping with a key for the name of the backend, or a
sequence that starts with that name, and all that it contains has to mean something; a URL and an
environment have to be texts by their meaning.
-/

namespace LeaseLock

open Yaml

/-- What a list has, if it has at most one thing. -/
def atMostOne {α : Type} : List α → Option (Option α)
  | [] => some none
  | [a] => some (some a)
  | _ => none

/-! ### Values of settings -/

namespace Yaml.Node

/-- A scalar as it is written. -/
def text? : Node → Option String
  | scalar _ _ s => some s
  | _ => none

/-- A truth value. -/
def flag? : Node → Option Bool
  | scalar tag style s =>
    if style = .plain || (style = .literal && tag = some (coreTag "bool")) then truth? s else none
  | _ => none

/-- The node says that there is no value; to say so by a tag and then give a value is an error. -/
def isAbsent? : Node → Option Bool
  | scalar tag .plain s =>
    match tag with
    | none => some (s = "" || isNothing s)
    | some t =>
      if t = coreTag "null" then if isNothing s then some true else none else some false
  | _ => some false

/-- A value that may be absent. -/
def optional? {α : Type} (read : Node → Option α) (x : Node) : Option (Option α) := do
  if ← x.isAbsent? then return none else return some (← read x)

/-- One of the words for products, or a tag that is one and stands alone. -/
def product? : Node → Option Sql.Product
  | scalar tag style s =>
    match isOwnTag tag, tag with
    | true, some t =>
      if style = .plain && (s = "" || isNothing s) then
        Sql.Product.ofWord? (String.ofList t.toList.tail)
      else none
    | _, _ => Sql.Product.ofWord? s
  | _ => none

/-- What a scalar means. -/
def meaning? : Node → Option Meaning
  | scalar tag style s => Meaning.ofScalar? tag style s
  | _ => none

/-- A text by its meaning. -/
def meantText? (x : Node) : Option String :=
  match x.meaning? with
  | some (.text s) => some s
  | _ => none

/-- The tag of a collection. -/
def tag? : Node → Option String
  | scalar tag _ _ => tag
  | sequence tag _ => tag
  | mapping tag _ => tag
  | loop => none

end Yaml.Node

/-! ### The choice of a backend -/

namespace BackendChoice

/-- How many collections the value of a backend may have within each other. -/
def deepest : Nat := 126

/-- The parts of a choice, beside the name of the backend. -/
inductive Part where
  | url | environment | other
  deriving DecidableEq

/-- The part that a key is for; a number counts the parts. -/
def part? (x : Node) : Option Part :=
  match x.meaning? with
  | some (.text "url") => some .url
  | some (.text "environment") => some .environment
  | some (.text _) => some .other
  | some (.natural 0) => some .url
  | some (.natural 1) => some .environment
  | some (.natural _) => some .other
  | _ => none

/-- The value of a part, if it is given once at most. -/
def valueOf? (part : Part) (entries : List (Part × Node)) : Option (Option Node) :=
  atMostOne ((entries.filter (·.1 = part)).map (·.2))

/-- The choice of a backend by its exact name, given its URL and its environment. -/
def ofParts? (kind : String) (url environment : Option Node) : Option BackendChoice := do
  let text (x : Option Node) : Option String := x.bind Node.meantText?
  match kind with
  | "sqlite" => return sqlite (← text url)
  | "postgres" => return postgres (← text url)
  | "mysql" => return mysql (← text url)
  | "redis" =>
    let e ← match environment with
      | none => some Redis.defaultEnvironment
      | some x => x.meantText?
    return redis (← text url) e
  | _ => none

/-- The choice that the entries of a mapping make. -/
def ofEntries? (entries : List (Node × Node)) : Option BackendChoice := do
  let isKind (x : Node) : Bool := x.meantText? = some "type"
  let kind ← (← (← atMostOne ((entries.filter (isKind ·.1)).map (·.2)))).text?
  let others := entries.filter fun e => !isKind e.1
  if !others.all fun e => e.1.isMeaningful deepest && e.2.isMeaningful deepest then none
  if kind = "memory" then return memory
  let parts ← others.mapM fun e => (part? e.1).map (·, e.2)
  let environment ← if kind = "redis" then valueOf? .environment parts else some none
  ofParts? kind (← valueOf? .url parts) environment

/-- The choice that the items of a sequence make. -/
def ofItems? (items : List Node) : Option BackendChoice := do
  let kind ← (← items.head?).text?
  let others := items.tail
  if !others.all (·.isMeaningful deepest) then none
  match kind, others with
  | "memory", [] => return memory
  | "memory", _ => none
  | _, [url] => ofParts? kind (some url) none
  | "redis", [url, environment] => ofParts? kind (some url) (some environment)
  | _, _ => none

/-- The choice that a node makes. -/
def ofNode? (x : Node) : Option BackendChoice :=
  if isOwnTag x.tag? then none
  else match x with
    | .mapping _ entries => ofEntries? entries
    | .sequence _ items => ofItems? items
    | _ => none

end BackendChoice

/-! ### All settings -/

namespace Settings

/-- The value of a setting, or the given one if there is none. -/
def setting {α : Type} (entries : List (String × Node)) (key : String) (default : α)
    (read : Node → Option α) : Option α := do
  match ← atMostOne ((entries.filter (·.1 = key)).map (·.2)) with
  | none => return default
  | some x => read x

/-- The settings that the entries of a mapping make. -/
def ofEntries? (es : List (String × Node)) : Option Settings := do
  let s := standard
  return {
    backend := ← setting es "backend" s.backend BackendChoice.ofNode?
    tableName := ← setting es "table_name" s.tableName Node.text?
    useServerTime := ← setting es "use_db_time" s.useServerTime Node.flag?
    lockedBy := ← setting es "locked_by" s.lockedBy (Node.optional? Node.text?)
    product := ← setting es "database_product" s.product (Node.optional? Node.product?)
    createTable := ← setting es "create_schema" s.createTable Node.flag?
    atMostFor := ← setting es "lock_at_most_for" s.atMostFor Node.text?
    atLeastFor := ← setting es "lock_at_least_for" s.atLeastFor Node.text? }

/-- The settings that a node makes. -/
def ofNode? : Node → Option Settings
  | .mapping _ entries => do
    ofEntries? (← entries.mapM fun e => e.1.text?.map (·, e.2))
  | .scalar _ .plain "" => some standard
  | _ => none

/-- The settings that the text of a document makes. -/
def ofDocument? (text : String) : Option Settings := do
  match ← document? text.toList with
  | none => return standard
  | some x => ofNode? x

end Settings
end LeaseLock
