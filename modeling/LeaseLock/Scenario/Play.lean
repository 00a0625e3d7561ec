import LeaseLock.Lock.Shown
import LeaseLock.Scenario.World

/-!
# Playing scenarios

Scenarios as programs.

## The model

A step is carried out in the context of the enclosing task. Its answer is recorded with its path;
then, if the step passes failures on and the answer is one, the list that it is part of ends with
it. A panic ends everything up to the innermost step around, which answers it. A handle that a step
works on is nowhere else in the meantime, and is gone if the step is given up.
-/

namespace LeaseLock.Scenario

variable {ν : Type}

/-! ### Handles and contexts -/

/-- Takes a handle out of the world. -/
def takeHandle (name : String) : Script ν (Option Handle) :=
  .step fun s =>
    let handles := s.rest.handles
    (handles.get? name, { s with rest := { s.rest with handles := handles.erase name } })

/-- Keeps a handle under a name. -/
def keepHandle (name : String) (h : Handle) : Script ν Unit :=
  onWorld fun w => { w with handles := w.handles.put name h }

/-- A context on a new chain. -/
def freshContext : Script ν Context :=
  .step fun s =>
    (⟨s.rest.nextChain, []⟩, { s with rest := { s.rest with nextChain := s.rest.nextChain + 1 } })

/-- The context that all nodes share. -/
def rootContext : Context := ⟨0, []⟩

/-- The context at a place. -/
def contextAt (x : Context) : Place → Script ν (Option Context)
  | .current => pure (some x)
  | .root => pure (some rootContext)
  | .fresh => do return some (← freshContext)
  | .saved name => .look fun s => s.rest.contexts.get? name

/-- What a context shows. -/
def glimpse (names : List String) (x : Context) (cs : Chains) : Glimpse where
  depth := x.depth
  empty := (cs.chain x.chain).isEmpty
  holds := names.map fun n => (n, x.contains n)
  active := x.activeTerms cs
  sharesRoot := x.chain = rootContext.chain
  text := x.shown

/-! ### Steps without steps within -/

/-- The answer for a value or an error. -/
def Answer.ofExcept {α : Type} (f : α → Answer ν) : Except LockError α → Answer ν
  | .ok a => f a
  | .error e => .trouble (.lock e)

/-- The answer to a storage call. -/
def Answer.ofResult : (k : CallKind) → k.Result → Answer ν
  | .insert, b => .flag b
  | .claim, b => .flag b
  | .release, () => .word .ok
  | .extend, e => .extension e

/-- Moves the clock, if that is possible. -/
def moveClock (f : Clock → Option Clock) : Script ν (Answer ν) :=
  .step fun s => match f s.clock with
    | some c => (.instant c.reading, { s with clock := c })
    | none => (.trouble .clock, s)

/-- Takes a lock and keeps the handle. -/
def takeLock (node : String) (draft : Draft) (label : String) : Script ν (Answer ν) := do
  let now ← Program.look State.now
  match draft.terms now with
  | .error e => return .trouble (.lock e)
  | .ok t =>
    let provider ← Program.look fun s => s.rest.backend.provider node
    match ← Program.converse service (provider.acquire now t) with
    | .error e => return .trouble (.lock e)
    | .ok none => return .flag false
    | .ok (some h) =>
      keepHandle label h
      return .flag true

/-- Gives a lease back. -/
def releaseHandle (name : String) : Script ν (Answer ν) := do
  match ← takeHandle name with
  | none => return .trouble .noHandle
  | some h =>
    let now ← Program.look State.now
    let (r, h) ← Program.converse service (h.release now)
    keepHandle name h
    return .ofExcept (fun _ => .word .ok) r

/-- Extends a lease and keeps the new handle. -/
def extendHandle (name : String) (atMostFor atLeastFor : Span) (label : String) :
    Script ν (Answer ν) := do
  match ← takeHandle name with
  | none => return .trouble .noHandle
  | some h =>
    let now ← Program.look State.now
    let (r, h) ← Program.converse service (h.extend now atMostFor atLeastFor)
    keepHandle name h
    match r with
    | .error e => return .trouble (.lock e)
    | .ok (.extended new) =>
      keepHandle label new
      return .extension .extended
    | .ok .lost => return .extension .lost
    | .ok .unsupported => return .extension .unsupported

/-- Waits for a signal for a number of turns. -/
def awaitSignal (name : String) : Nat → Script ν (Answer ν)
  | 0 => do
    if ← Program.look fun s => s.rest.signals.contains name then return .word .ok
    else return .word .timeout
  | n + 1 => do
    if ← Program.look fun s => s.rest.signals.contains name then return .word .ok
    else
      Program.pause
      awaitSignal name n

/-- How many turns a step waits for a signal. -/
def patience : Nat := 200

/-- Shows a handle. -/
def showHandle (name : String) (f : Handle → Answer ν) : Script ν (Answer ν) := do
  match ← Program.look fun s => s.rest.handles.get? name with
  | none => return .trouble .noHandle
  | some h => return f h

/-- Puts a row into the default table of the database that a node uses. -/
def putRow (node : String) (r : Sql.Row) (b : Backend) : Except LockError Backend :=
  match b with
  | .tables disk services clock => match services.get? node with
    | some s => do
      let db ← (disk.database s.pool).putRow {} r
      return .tables (disk.update s.pool db) services clock
    | none => .error (.backend .statement)
  | _ => .error (.backend .statement)

/-- The node whose view is taken where a step names none. -/
def standardNode : String := "a"

/-- Carries out a step that has no steps within. -/
def Action.play (x : Context) : Action → Script ν (Answer ν)
  | advance d => moveClock (·.advance? d)
  | set t => moveClock fun c => some (c.set t)
  | call kind node draft => do
    let now ← Program.look State.now
    match draft.terms now with
    | .error e => return .trouble (.lock e)
    | .ok t => return .ofExcept (.ofResult kind) (← serveCall ⟨kind, node, t⟩)
  | find node name => do
    let w ← Program.look State.rest
    return .ofExcept .record (w.find node name)
  | span name => do
    let w ← Program.look State.rest
    return .ofExcept (fun r => .millis (r.map (·.spanMillis))) (w.find standardNode name)
  | putRow r => .step fun s => match Scenario.putRow standardNode r s.rest.backend with
    | .ok b => (.word .ok, { s with rest := { s.rest with backend := b } })
    | .error e => (.trouble (.lock e), s)
  | lock node draft label => takeLock node draft label
  | unlock name => releaseHandle name
  | extend name most least label => extendHandle name most least label
  | inspect name => showHandle name fun h => .handle h.valid h.terms
  | print name => showHandle name fun h => .text h.shown
  | forget name => do
    match ← takeHandle name with
    | none => return .trouble .noHandle
    | some _ => return .word .ok
  | extendActive most least place => do
    match ← contextAt x place with
    | none => return .trouble .noContext
    | some y => return .ofExcept .extension (← y.extendActive service most least)
  | context names place => do
    match ← contextAt x place with
    | none => return .trouble .noContext
    | some y => .look fun s => .context (glimpse names y s.chains)
  | saveContext name => do
    onWorld fun w => { w with contexts := w.contexts.put name x }
    return .word .ok
  | pause => do
    Program.pause
    return .word .ok
  | signal name => do
    onWorld fun w => { w with signals := name :: w.signals }
    return .word .ok
  | wait name => awaitSignal name patience

/-! ### Steps with steps within -/

/-- The answer for an execution. -/
def Answer.ofExecution (mode : Mode) :
    Ending ExecutionError (TaskResult (Option ν)) → Answer ν
  | .value r => match mode with
    | .withResult => .result r
    | .outermost => .result r
    | .plain => .flag r.wasExecuted
    | .flattened => .flat r.wasExecuted r.flatten
  | .failure (.lock e) => .trouble (.execution e)
  | .failure (.task s) => .trouble (.task s)
  | .panic s => .trouble (.panic s)

/-- Runs a task whose steps are a program. -/
def Run.play (r : Run ν) (path : Path) (x : Context)
    (steps : Context → Script ν (Ending String Unit)) : Script ν (Answer ν) := do
  let now ← Program.look State.now
  match r.draft.terms now with
  | .error e => return .trouble (.lock e)
  | .ok t =>
    let place : Place := match r.mode with
      | .outermost => .fresh
      | _ => r.place
    match ← contextAt x place with
    | none => return .trouble .noContext
    | some y =>
      let provider ← Program.look fun s => s.rest.backend.provider r.node
      let ending ← execute service provider y t fun inner => do
        record (.task t.name path inner.depth (inner.contains t.name))
        match ← steps inner with
        | .value () => return r.ending
        | .failure s => return .failure s
        | .panic s => return .panic s
      return .ofExecution r.mode ending

/-- A branch as a program that fails if the branch panics. -/
def branch (p : Script ν (Ending String Unit)) : Script ν (Except String (Option String)) := do
  match ← p with
  | .value () => return .ok none
  | .failure s => return .ok (some s)
  | .panic s => return .error s

/-- The answer for branches side by side. -/
def Answer.ofBranches : Except String (List (Option String)) → Answer ν
  | .ok failures => .branches failures
  | .error s => .trouble (.panic s)

/-- The answer for steps that may have been given up. -/
def Answer.ofLimited : Option (Ending String Unit) → Answer ν
  | none => .word .cancelled
  | some (.panic s) => .trouble (.panic s)
  | some _ => .word .completed

/-- What an answer does to what the step is part of. -/
def Answer.passedOn : Answer ν → Ending String Unit
  | trouble t => t.passedOn
  | _ => .value ()

mutual

/-- Carries out a step, but for the record of its answer. -/
def Step.answer (path : Path) (x : Context) : Step ν → Script ν (Answer ν)
  | .act a _ => a.play x
  | .run r task _ => r.play path x fun inner => playAll path 0 inner task
  | .join branches _ => do return .ofBranches (← Program.all (playBranches path 0 x branches))
  | .cancel turns steps _ => do return .ofLimited (← (playAll path 0 x steps).limit turns)

/-- Carries out steps one after the other, the first of which stands at place `i`. -/
def playAll (path : Path) (i : Nat) (x : Context) : List (Step ν) → Script ν (Ending String Unit)
  | [] => pure (.value ())
  | s :: rest => do
    let a ← s.answer (path ++ [i]) x
    record (.step (path ++ [i]) s a)
    match if s.propagates then a.passedOn else .value () with
    | .value () => playAll path (i + 1) x rest
    | ending => return ending

/-- The branches of a join, the first of which stands at place `i`. -/
def playBranches (path : Path) (i : Nat) (x : Context) :
    List (List (Step ν)) → List (Script ν (Except String (Option String)))
  | [] => []
  | b :: rest => branch (playAll (path ++ [i]) 0 x b) :: playBranches path (i + 1) x rest

end

/-- What was seen of a scenario. -/
structure Report (ν : Type) where
  events : List (Event ν)
  /-- No task holds a lock on the shared chain at the end. -/
  rootEmpty : Bool

/-- Plays a scenario from an instant on. -/
def play (start : Instant) (w : World ν) (steps : List (Step ν)) : Report ν :=
  let p : Script ν (Ending String Unit) := playAll [] 0 rootContext steps
  let (_, s) := p.finish ⟨.showing start, [], w⟩
  ⟨s.rest.events.reverse, (s.chains.chain rootContext.chain).isEmpty⟩

end LeaseLock.Scenario
