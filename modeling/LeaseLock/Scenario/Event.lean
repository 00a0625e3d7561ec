import LeaseLock.Scenario.Step

/-!
# Events of scenarios

What can be seen of a scenario while it runs.

## The model

Each step ends with an answer, which may be a failure or a panic. Storage calls and commands are
seen when they have been answered, tasks when they start, and steps when they end; a step that was
given up is not seen at all. Steps are told apart by their paths: a step within another one has the
path of that one and its own place, in a join after the place of its branch.
-/

namespace LeaseLock.Scenario

/-- Where a step stands. -/
abbrev Path : Type := List Nat

/-- What a context shows. -/
structure Glimpse where
  depth : Nat
  /-- No task on the chain holds a lock. -/
  empty : Bool
  /-- For each name whether an enclosing task holds it. -/
  holds : List (String × Bool)
  active : Option Terms
  /-- It is on the chain of the context that all nodes share. -/
  sharesRoot : Bool
  text : String

/-- A word that a step answers. -/
inductive Word where
  | ok | timeout | completed | cancelled

/-- What is wrong with a step. -/
inductive Trouble where
  /-- The lock service reports an error. -/
  | lock (error : LockError)
  /-- Taking or giving back the lock of a task went wrong. -/
  | execution (error : LockError)
  /-- The task failed. -/
  | task (text : String)
  /-- The task panicked. -/
  | panic (text : String)
  /-- The clock cannot be moved there. -/
  | clock
  /-- There is no handle of this name, or it is in use. -/
  | noHandle
  /-- There is no context of this name. -/
  | noContext

/-- What passing trouble on does to what the step is part of. -/
def Trouble.passedOn {α : Type} : Trouble → Ending String α
  | lock e => .failure e.message
  | execution e => .failure e.message
  | task s => .failure (ExecutionError.task s).message
  | panic s => .panic s
  | clock => .failure "panic"
  | noHandle => .failure "no_handle"
  | noContext => .failure "no_context"

/-- What a step answers. -/
inductive Answer (ν : Type) where
  | instant (t : Instant)
  | flag (b : Bool)
  | word (w : Word)
  | extension (e : Extension)
  | record (r : Option Sql.FoundRecord)
  | millis (n : Option Int)
  | handle (valid : Bool) (terms : Terms)
  | text (s : String)
  | context (x : Glimpse)
  /-- What became of a task. -/
  | result (r : TaskResult (Option ν))
  /-- Whether a task ran, and its value. -/
  | flat (ran : Bool) (value : Option ν)
  /-- For each branch the failure that ended it, if one did. -/
  | branches (failures : List (Option String))
  | trouble (t : Trouble)

/-- What can be seen. -/
inductive Event (ν : Type) where
  /-- A storage call was answered. If the service lets one look, with the record after it. -/
  | call (c : Call) (answer : c.Answer)
      (record : Option (Except LockError (Option Sql.FoundRecord)))
  /-- A command was answered. -/
  | command (c : Redis.Command) (reply : Redis.Reply)
  /-- A task starts. -/
  | task (name : String) (path : Path) (depth : Nat) (holds : Bool)
  /-- A step ends. -/
  | step (path : Path) (step : Step ν) (answer : Answer ν)

end LeaseLock.Scenario
