import LeaseLock.Scenario.Backend

/-!
# The world of scenarios

What scenarios have beside the clock and the chains, and how their questions to the service that
keeps the locks are answered.

## The model

The world has the backend, what nodes have put aside under names, and the events that were seen. A
question is answered in the turn in which it is put, unless the answer takes some turns to arrive;
it is seen once it is answered.
-/

namespace LeaseLock.Scenario

/-- What scenarios have beside the clock and the chains. -/
structure World (ν : Type) where
  backend : Backend
  /-- Calls and records can be seen. -/
  transparent : Bool
  handles : Registry String Handle := []
  contexts : Registry String Context := []
  signals : List String := []
  /-- The number for the next chain. -/
  nextChain : Nat := 1
  /-- The events so far, the last one first. -/
  events : List (Event ν) := []

/-- The record of a lock, as a node sees it, if records can be seen. -/
def World.find {ν : Type} (w : World ν) (node name : String) :
    Except LockError (Option Sql.FoundRecord) :=
  if w.transparent then w.backend.find node name else .ok none

/-- A program of a scenario. -/
abbrev Script (ν α : Type) : Type := Program (State (World ν)) α

variable {ν : Type}

/-- Changes what there is beside the clock and the chains. -/
def onWorld (f : World ν → World ν) : Script ν Unit :=
  .change fun s => { s with rest := f s.rest }

/-- Records an event. -/
def record (e : Event ν) : Script ν Unit := onWorld fun w => { w with events := e :: w.events }

/-- Records an event of the service that keeps the locks, if these can be seen. -/
def recordTraffic (e : World ν → Event ν) : Script ν Unit :=
  onWorld fun w => if w.transparent then { w with events := e w :: w.events } else w

/-- Answers a storage call. -/
def serveCall (c : Call) : Script ν c.Answer := do
  let r : Scripted c.kind.Result ← .step fun s =>
    let (r, b) := s.rest.backend.answer c s.now
    (r, { s with rest := { s.rest with backend := b } })
  Program.pauses r.turns
  recordTraffic fun w => .call c r.answer (w.backend.recordAfter c)
  return r.answer

/-- Answers a command. -/
def serveCommand (m : Redis.Command) : Script ν Redis.Reply := do
  let r ← .step fun s =>
    let (r, b) := s.rest.backend.reply
    (r, { s with rest := { s.rest with backend := b } })
  recordTraffic fun _ => .command m r
  return r

/-- The service that keeps the locks of a scenario. -/
def service : Service (World ν)
  | .store c => serveCall c
  | .send m => serveCommand m

end LeaseLock.Scenario
