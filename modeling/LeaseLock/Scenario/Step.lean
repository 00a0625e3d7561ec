import LeaseLock.Lock.Execution
import LeaseLock.Sql.Disk

/-!
# Steps of scenarios

Scripts in which a number of nodes take, extend and give back locks.

## The model

A scenario is a list of steps. Most steps do one thing. A `run` is a locked execution whose task is
itself a list of steps, a `join` has lists of steps that run side by side, and a `cancel` gives up
its steps after a number of turns. Normally a step that goes wrong does not keep the following ones
from going on; a step can be marked to pass its failure or panic on to what it is part of.

Values that tasks answer are of any type.
-/

namespace LeaseLock.Scenario

/-- Terms as a step gives them. -/
structure Draft where
  name : String
  atMostFor : Span
  atLeastFor : Span
  /-- When they are created, if not at the reading of the clock. -/
  createdAt : Option Instant

/-- The terms of a draft at a reading of the clock. -/
def Draft.terms (d : Draft) (now : Instant) : Except LockError Terms :=
  match Terms.make (d.createdAt.getD now) d.name d.atMostFor d.atLeastFor with
  | .ok t => .ok t
  | .error f => .error (.terms f)

/-- Which context a step uses. -/
inductive Place where
  /-- That of the enclosing task. -/
  | current
  /-- The one that all nodes share. -/
  | root
  /-- A new one. -/
  | fresh
  /-- One that was saved under a name. -/
  | saved (name : String)

/-- How a task is run. -/
inductive Mode where
  /-- In a context, for its result. -/
  | withResult
  /-- In a context of its own, for its result. -/
  | outermost
  /-- In a context, to know whether it ran. -/
  | plain
  /-- In a context, for its value. -/
  | flattened

/-- A locked execution, but for the steps of its task. -/
structure Run (ν : Type) where
  node : String
  draft : Draft
  place : Place
  mode : Mode
  /-- How the task ends when its steps are done. -/
  ending : Ending String (Option ν)

/-- A step that has no steps within. -/
inductive Action where
  /-- Moves the clock on. -/
  | advance (d : Span)
  /-- Moves the clock to an instant. -/
  | set (now : Instant)
  /-- Calls the storage service. -/
  | call (kind : CallKind) (node : String) (draft : Draft)
  /-- Looks a record up. -/
  | find (node name : String)
  /-- Looks up how long the lease of a record is in all. -/
  | span (name : String)
  /-- Puts a row into the table that the database has by default. -/
  | putRow (row : Sql.Row)
  /-- Takes a lock and keeps the handle. -/
  | lock (node : String) (draft : Draft) (label : String)
  /-- Gives a lease back. -/
  | unlock (handle : String)
  /-- Extends a lease and keeps the new handle. -/
  | extend (handle : String) (atMostFor atLeastFor : Span) (label : String)
  /-- Shows a handle. -/
  | inspect (handle : String)
  /-- Shows a handle as text. -/
  | print (handle : String)
  /-- Forgets a handle. -/
  | forget (handle : String)
  /-- Extends the lease of the enclosing task. -/
  | extendActive (atMostFor atLeastFor : Span) (place : Place)
  /-- Shows a context. -/
  | context (names : List String) (place : Place)
  /-- Saves the context of the enclosing task. -/
  | saveContext (label : String)
  /-- Leaves the rest to the next turn. -/
  | pause
  /-- Sets a signal. -/
  | signal (name : String)
  /-- Waits for a signal, but not for ever. -/
  | wait (name : String)

/-- A step of a scenario that passes failures on if it is marked so. -/
inductive Step (ν : Type) where
  /-- Does one thing. -/
  | act (action : Action) (propagates : Bool)
  /-- Runs a task under a lock. -/
  | run (run : Run ν) (task : List (Step ν)) (propagates : Bool)
  /-- Runs lists of steps side by side. -/
  | join (branches : List (List (Step ν))) (propagates : Bool)
  /-- Gives up its steps if they are not done after a number of turns. -/
  | cancel (turns : Nat) (steps : List (Step ν)) (propagates : Bool)

namespace Step

variable {ν : Type}

/-- The step passes failures on. -/
def propagates : Step ν → Bool
  | act _ p => p
  | run _ _ p => p
  | join _ p => p
  | cancel _ _ p => p

end Step
end LeaseLock.Scenario
