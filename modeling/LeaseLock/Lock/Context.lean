import LeaseLock.Lock.Handle
import LeaseLock.Registry

/-!
# Contexts

The locks that nested tasks hold, and the leases behind them.

## The model

Tasks that are nested in one another form a chain. The chain keeps an entry for each lock that a
running task has taken, under a number that is not used again; the entry has the lease in its slot.
While the lease is being extended, whoever does so has it in his hands and the slot is empty.

A context names a chain and the locks that the enclosing tasks have taken on it, the innermost
first. So whoever knows a context may ask which locks are held around him, but works on the lease
of the innermost only.
-/

namespace LeaseLock

/-- Where the lease of an entry is. -/
inductive Slot where
  /-- In the slot. -/
  | held (handle : Handle)
  /-- There is none any more: it could not be extended. -/
  | lost
  /-- In the hands of whoever extends it. -/
  | inFlight
  deriving DecidableEq

/-- A lock that a running task has taken. -/
structure Entry where
  name : String
  slot : Slot
  deriving DecidableEq

/-- The locks that the running tasks of a chain have taken. -/
structure Chain where
  /-- The number for the next entry. -/
  nextId : Nat := 0
  entries : Registry Nat Entry := []
  deriving DecidableEq

namespace Chain

/-- Adds an entry for a lease, under its number. -/
def enter (c : Chain) (name : String) (h : Handle) : Nat × Chain :=
  (c.nextId, ⟨c.nextId + 1, c.entries.put c.nextId ⟨name, .held h⟩⟩)

/-- Takes an entry out. -/
def remove (c : Chain) (id : Nat) : Chain := { c with entries := c.entries.erase id }

/-- The slot of an entry. -/
def slot? (c : Chain) (id : Nat) : Option Slot := (c.entries.get? id).map Entry.slot

/-- Puts something else into the slot of an entry, if it is there. -/
def fill (c : Chain) (id : Nat) (s : Slot) : Chain :=
  match c.entries.get? id with
  | some e => { c with entries := c.entries.put id { e with slot := s } }
  | none => c

/-- No task has taken a lock. -/
def isEmpty (c : Chain) : Bool := c.entries.isEmpty

end Chain

/-- The chains, under their numbers. A chain on which nothing has happened need not be there. -/
abbrev Chains := Registry Nat Chain

/-- The chain of a number. -/
def Chains.chain (cs : Chains) (n : Nat) : Chain := (cs.get? n).getD {}

/-- A lock that an enclosing task has taken. -/
structure Scope where
  /-- The number of its entry. -/
  id : Nat
  name : String
  deriving DecidableEq

/-- A place among nested tasks. -/
structure Context where
  /-- The number of the chain. -/
  chain : Nat
  /-- The locks that the enclosing tasks have taken, the innermost first. -/
  scopes : List Scope := []
  deriving DecidableEq

namespace Context

/-- An enclosing task has taken the lock of this name. -/
def contains (x : Context) (name : String) : Bool := x.scopes.any (·.name = name)

/-- How many locks the enclosing tasks have taken. -/
def depth (x : Context) : Nat := x.scopes.length

/-- The context of a task that has taken one more lock. -/
def inside (x : Context) (id : Nat) (name : String) : Context :=
  { x with scopes := ⟨id, name⟩ :: x.scopes }

/-- The terms of the lease that may be extended here. -/
def activeTerms (x : Context) (cs : Chains) : Option Terms :=
  match x.scopes with
  | [] => none
  | s :: _ => match (cs.chain x.chain).slot? s.id with
    | some (.held h) => some h.terms
    | _ => none

end Context
end LeaseLock
