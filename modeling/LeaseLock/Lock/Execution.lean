import LeaseLock.Clock
import LeaseLock.Lock.Context
import LeaseLock.Routine

/-!
# Execution under locks

Tasks that run only while they hold a lock.

## The model

`execute` takes a lock, runs a task in a context in which the lock is held, and gives the lease
back, be it the one that was taken or one that replaced it. If the lock is held around the caller
already, the task runs as it is. If somebody else has the lock, the task does not run. Failures and
panics of the task come out after the lease was given back. A task that is abandoned leaves its
lease to lapse.

All is done by programs on a state that holds the clock, the chains, and whatever else there is;
questions to the service that keeps the locks are answered by programs, too.
-/

namespace LeaseLock

/-- How a task or an execution ends. -/
inductive Ending (ε α : Type) where
  /-- With a value. -/
  | value (a : α)
  /-- With a failure. -/
  | failure (e : ε)
  /-- With a panic. -/
  | panic (text : String)

/-- The ending with values and failures in other forms. -/
def Ending.map {ε δ α β : Type} (f : ε → δ) (g : α → β) : Ending ε α → Ending δ β
  | value a => value (g a)
  | failure e => failure (f e)
  | panic s => panic s

/-- What became of a task. -/
inductive TaskResult (α : Type) where
  /-- It ran and had this value. -/
  | executed (a : α)
  /-- It did not run. -/
  | notExecuted

namespace TaskResult

variable {α : Type}

/-- The task ran. -/
def wasExecuted : TaskResult α → Bool
  | executed _ => true
  | notExecuted => false

/-- The value, if the task ran and had one. -/
def flatten : TaskResult (Option α) → Option α
  | executed a => a
  | notExecuted => none

end TaskResult

/-- The state of programs that take locks. -/
structure State (ω : Type) where
  clock : Clock
  chains : Chains
  /-- What else there is. -/
  rest : ω

variable {ω α : Type}

/-- Answers questions to the service that keeps the locks. -/
abbrev Service (ω : Type) : Type := (q : Query) → Program (State ω) q.Answer

/-- The reading of the clock. -/
def State.now (s : State ω) : Instant := s.clock.reading

/-- Changes a chain. -/
def State.onChain (s : State ω) (n : Nat) (f : Chain → Chain) : State ω :=
  { s with chains := s.chains.put n (f (s.chains.chain n)) }

namespace Context

/-- Enters a lock that was taken, and answers the context inside. -/
def enter (x : Context) (name : String) (h : Handle) : Program (State ω) Context :=
  .step fun s =>
    let (id, c) := (s.chains.chain x.chain).enter name h
    (x.inside id name, s.onChain x.chain fun _ => c)

/-- Takes out the entry of the innermost lock. -/
def leave (x : Context) (s : State ω) : State ω :=
  match x.scopes with
  | [] => s
  | e :: _ => s.onChain x.chain (·.remove e.id)

/-- Takes out the entry of the innermost lock and gives back the lease that is in its slot. -/
def release (service : Service ω) (x : Context) : Program (State ω) (Except LockError Unit) := do
  match x.scopes with
  | [] => pure (.ok ())
  | e :: _ =>
    let slot ← Program.look fun s => (s.chains.chain x.chain).slot? e.id
    Program.change x.leave
    match slot with
    | some (.held h) =>
      let now ← Program.look State.now
      let (result, _) ← Program.converse service (h.release now)
      pure result
    | _ => pure (.ok ())

/-- Extends the lease of the innermost lock to new durations from now on. -/
def extendActive (service : Service ω) (x : Context) (atMostFor atLeastFor : Span) :
    Program (State ω) (Except LockError Extension) := do
  match x.scopes with
  | [] => pure (.error .noActiveLock)
  | e :: _ =>
    match ← Program.look fun s => (s.chains.chain x.chain).entries.get? e.id with
    | none => pure (.error .noActiveLock)
    | some ⟨_, .lost⟩ => pure (.ok .lost)
    | some ⟨name, .inFlight⟩ => pure (.error (.extensionInFlight name))
    | some ⟨_, .held h⟩ =>
      Program.change (·.onChain x.chain (·.fill e.id .inFlight))
      let now ← Program.look State.now
      let (result, old) ← Program.converse service (h.extend now atMostFor atLeastFor)
      let (slot, answer) : Slot × Except LockError Extension := match result with
        | .ok (.extended new) => (.held new, .ok .extended)
        | .ok .lost => (.lost, .ok .lost)
        | .ok .unsupported => (.held old, .ok .unsupported)
        | .error err => (.held old, .error err)
      Program.change (·.onChain x.chain (·.fill e.id slot))
      pure answer

end Context

/-- How an execution ends, given how the task ended and what its release came to. -/
def Ending.afterRelease (ending : Ending String α) (released : Except LockError Unit) :
    Ending ExecutionError (TaskResult α) :=
  match ending, released with
  | .value a, .ok () => .value (.executed a)
  | .value _, .error e => .failure (.lock e)
  | .failure s, _ => .failure (.task s)
  | .panic s, _ => .panic s

/-- Runs a task under a lock. -/
def execute (service : Service ω) (provider : Provider) (x : Context) (t : Terms)
    (task : Context → Program (State ω) (Ending String α)) :
    Program (State ω) (Ending ExecutionError (TaskResult α)) := do
  if x.contains t.name then
    let ending ← task x
    pure (ending.map .task .executed)
  else
    let now ← Program.look State.now
    match ← Program.converse service (provider.acquire now t) with
    | .error e => pure (.failure (.lock e))
    | .ok none => pure (.value .notExecuted)
    | .ok (some h) =>
      let inner ← x.enter t.name h
      let ending ← (task inner).guarded inner.leave
      let released ← inner.release service
      pure (ending.afterRelease released)

end LeaseLock
