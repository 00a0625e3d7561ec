import LeaseLock.Proofs.Manners

/-!
# Chronicles

Plans whose calls, tasks and extensions are written down with the entries behind them.

## The model

The programs are plans, as in `Proofs.Plans`. A call has the context of the enclosing task, one that
was pinned to the board, or one without locks. A context may be pinned by a task and used for calls
and extensions after that task has ended, or has been given up.

What is written down of a call is that it is made, what it asks the service, and that its task starts,
with the context that the task receives and the chain of that context as it is at that moment. If the
call has got an entry for its task, then so is this entry, when the task starts, and that the task has
ended or was given up. Of an extension it is written down in which context it was made and what it came
to. Nobody reads what was written down.
-/

namespace LeaseLock

variable {ω α : Type}

/-! ### What is written down -/

/-- A locked call. -/
structure Request where
  /-- Each call has a number of its own. -/
  number : Nat
  context : Context
  provider : Provider
  terms : Terms
  deriving DecidableEq

/-- What may happen. -/
inductive Occurrence where
  /-- A call is made. -/
  | called (v : Request)
  /-- A call asks the service something, to take its lock or to give it back. -/
  | asked (v : Request) (q : Query)
  /-- The task of a call starts in a context, with the chain of the context as it is now. -/
  | began (v : Request) (x : Context) (now : Chain)
  /-- A task that starts has got this entry, for a lock of this name. -/
  | entered (k : Ticket) (name : String)
  /-- The task with this entry has ended or was given up. -/
  | left (k : Ticket)
  /-- What an extension in a context comes to. -/
  | extended (x : Context) (r : Except LockError Extension)

/-- It is a question of the call. -/
def Occurrence.isAskedBy (v : Request) : Occurrence → Bool
  | asked u _ => u = v
  | _ => false

/-- The call has asked something. -/
def Request.hasAsked (v : Request) (log : List Occurrence) : Bool := log.any (·.isAskedBy v)

/-- The entry whose lease is extended in a context. -/
def Context.ticket? (x : Context) : Option Ticket := x.scopes.head?.map fun e => ⟨x.chain, e.id⟩

namespace Ticket

/-- The task that has got the entry has ended or was given up. -/
def gone (k : Ticket) : List Occurrence → Bool
  | [] => false
  | .left j :: older => j = k || gone k older
  | .entered j _ :: older => j ≠ k && gone k older
  | _ :: older => gone k older

/-- An extension of the lease has come to the lease being lost. -/
def WasLost (k : Ticket) (log : List Occurrence) : Prop :=
  ∃ x, x.ticket? = some k ∧ .extended x (.ok .lost) ∈ log

/-- The chain has the entry of a lock of this name for as long as its task goes on, and the lease is
lost only if an extension has come to that. -/
def Accords (k : Ticket) (name : String) (log : List Occurrence) (c : Chain) : Prop :=
  match c.entries.get? k.id with
  | none => k.gone log = true
  | some e => k.gone log = false ∧ e.name = name ∧ (e.slot = .lost → k.WasLost log)

end Ticket

/-! ### Programs that are written down -/

/-- What there is beside the clock and the chains. -/
structure Chronicle (ω : Type) where
  world : ω
  /-- What has happened, the last thing first. -/
  log : List Occurrence := []
  /-- The number for the next call. -/
  nextRequest : Nat := 0
  /-- The number for the next chain. -/
  nextChain : Nat := 1
  /-- The contexts that were pinned to the board, under their labels. -/
  board : Registry String Context := []

/-- A program that is written down. -/
abbrev Chronicled (ω α : Type) : Type := Program (State (Chronicle ω)) α

/-- Writes something down. -/
def State.told (m : Occurrence) (s : State (Chronicle ω)) : State (Chronicle ω) :=
  { s with rest := { s.rest with log := m :: s.rest.log } }

/-- The service. -/
def Outside.silently (o : Outside ω) : Service (Chronicle ω) := fun q => do
  let early ← Program.look fun s => o.before q s.clock s.rest.world
  Program.pauses early
  let a ← Program.step fun s =>
    let (a, c, w) := o.answer q s.clock s.rest.world
    (a, { s with clock := c, rest := { s.rest with world := w } })
  let late ← Program.look fun s => o.after q s.clock s.rest.world
  Program.pauses late
  pure a

/-- The service for a call, whose questions are written down before they are on their way. -/
def Outside.heard (o : Outside ω) (v : Request) : Service (Chronicle ω) := fun q => do
  Program.change (State.told (.asked v q))
  o.silently q

/-- Makes a call. -/
def Context.request (x : Context) (provider : Provider) (t : Terms) : Chronicled ω Request :=
  .step fun s =>
    let v : Request := ⟨s.rest.nextRequest, x, provider, t⟩
    (v, { s with rest := { s.rest with
      log := .called v :: s.rest.log, nextRequest := s.rest.nextRequest + 1 } })

/-- The task with this entry, whose start and end are written down. -/
def Ticket.accompanied (k : Ticket) (name : String) (task : Chronicled ω α) : Chronicled ω α := do
  Program.change (State.told (.entered k name))
  let a ← task.guarded (State.told (.left k))
  Program.change (State.told (.left k))
  pure a

/-- The task in a context that was just entered. -/
def Context.accompanied (x : Context) (task : Chronicled ω α) : Chronicled ω α :=
  match x.scopes with
  | [] => task
  | e :: _ => Ticket.accompanied ⟨x.chain, e.id⟩ e.name task

/-- The task of a call, given what it does in the context that it receives. -/
def Request.task (v : Request) (body : Context → Chronicled ω α) (x : Context) :
    Chronicled ω α := do
  Program.change fun s => s.told (.began v x (s.chains.chain x.chain))
  body x

/-- The task of a call. Only a call for a lock that is not around it has got an entry. -/
def Request.run (v : Request) (body : Context → Chronicled ω α) (x : Context) : Chronicled ω α :=
  if v.context.contains v.terms.name then v.task body x else x.accompanied (v.task body x)

/-- The context of an outermost call. -/
def openContext (shared : Bool) : Chronicled ω Context :=
  if shared then pure ⟨0, []⟩
  else .step fun s => (⟨s.rest.nextChain, []⟩,
    { s with rest := { s.rest with nextChain := s.rest.nextChain + 1 } })

/-- The context at a place. -/
def Plan.Place.find (shared : Bool) (x : Option Context) : Plan.Place → Chronicled ω Context
  | current => match x with
    | some y => pure y
    | none => openContext shared
  | outermost => openContext shared
  | pinned label => do
    match ← Program.look fun s => s.rest.board.get? label with
    | some y => pure y
    | none => openContext shared

/-- Pins a context to the board, if there is one. -/
def State.pinContext (label : String) (x : Option Context) (s : State (Chronicle ω)) :
    State (Chronicle ω) :=
  match x with
  | some y => { s with rest := { s.rest with board := s.rest.board.put label y } }
  | none => s

/-- Plans are written down. Of an enclosing task its context is known. -/
def Plan.Manner.chronicled {ν : Type} (o : Outside ω) (shared : Bool) :
    Plan.Manner ω ν (State (Chronicle ω)) Context where
  act f := Program.change fun s =>
    let (c, w) := f s.clock s.rest.world
    { s with clock := c, rest := { s.rest with world := w } }
  look place x := do
    let y ← place.find shared x
    Program.look y.view
  pin label x := Program.change (State.pinContext label x)
  extend place d e x := do
    let y ← place.find shared x
    let r ← y.extendActive o.silently d e
    Program.change (State.told (.extended y r))
    pure r
  lock place provider t task x := do
    let y ← place.find shared x
    let v ← y.request provider t
    execute (o.heard v) v.provider v.context v.terms (v.run task)

/-- What was written down after plans were carried out. -/
def chronicleAfter {ν : Type} (o : Outside ω) (shared : Bool) (c : Clock) (w : ω)
    (es : List (Crowd.Event ω ν)) : List Occurrence :=
  let f : Ensemble (State (Chronicle ω)) (Ending String ν) := ⟨⟨c, [], { world := w }⟩, []⟩
  (f.play (es.map (·.inManner (.chronicled o shared)))).state.rest.log

end LeaseLock
