import LeaseLock.Proofs.Executions

/-!
# Plans

Programs of locked calls, of any shape and in any number, with their turns interleaved in any order.

## The model

A plan runs tasks under locks, one after the other, nested in one another or side by side, and gives
some of them up after a number of turns. It extends leases, looks around, and pins the context of a
task to a board where others find it: so a lease may be extended by somebody who is not its task, and
the extension may still be in flight when the task is over, or be given up. What a plan does next may
depend on all that it has learned. It ends with a value, a failure or a panic.

A call that is not made within a task is an outermost one. It has a context without locks, which is
the same for all such calls or a new one for each (`shared`). All else is the same in both cases.

The service is anybody's guess: it takes its turns, and changes the clock and the world outside as it
likes. A question is recorded with its answer when it is answered, not when the answer arrives.

A crowd carries out plans. In one event a plan starts, or one has its next turn, or is given up.

For the sake of statements it is noted what plans learn, which entries tasks have got, and which of
these tasks have ended or were given up. Nobody reads these notes.
-/

namespace LeaseLock

/-! ### What is outside -/

/-- The service that keeps the locks. What it does depends on the clock and the world outside. -/
structure Outside (ω : Type) where
  /-- The turns that a question takes until it is answered. -/
  before : Query → Clock → ω → Nat
  /-- The answer, and the clock and the world then. -/
  answer : (q : Query) → Clock → ω → q.Answer × Clock × ω
  /-- The turns that the answer takes to arrive. -/
  after : Query → Clock → ω → Nat

/-- What can be seen in a context. -/
structure View where
  now : Instant
  /-- An enclosing task has taken the lock of this name. -/
  holds : String → Bool
  /-- How many locks the enclosing tasks have taken. -/
  depth : Nat
  /-- The terms of the lease that may be extended here. -/
  active : Option Terms

/-- What can be seen in a context now. -/
def Context.view {ω : Type} (x : Context) (s : State ω) : View :=
  ⟨s.now, x.contains, x.depth, x.activeTerms s.chains⟩

/-- What a plan learns. -/
inductive Note (ν : Type) where
  /-- What it sees. -/
  | viewed (v : View)
  /-- What an extension comes to. -/
  | extended (r : Except LockError Extension)
  /-- What a locked call comes to. -/
  | concluded (c : Conclusion ν)

/-- The entry of a task: its chain, and its number there. -/
structure Ticket where
  chain : Nat
  id : Nat
  deriving DecidableEq

/-- What there is beside the clock and the chains. -/
structure Watch (ω ν : Type) where
  world : ω
  /-- The questions that were answered, with the answers, the last one first. -/
  exchanges : List ((q : Query) × q.Answer) := []
  /-- What plans have learned, the last thing first. -/
  notes : List (Note ν) := []
  /-- The contexts that were pinned to the board, under their labels. -/
  board : Registry String Context := []
  /-- The number for the next chain. -/
  nextChain : Nat := 1
  /-- The entries of the tasks that have started, the last one first. -/
  entered : List Ticket := []
  /-- The entries of the tasks that have ended or were given up. -/
  left : List Ticket := []

/-- A program on a watched state. -/
abbrev Watched (ω ν α : Type) : Type := Program (State (Watch ω ν)) α

variable {ω ν α : Type}

/-- Answers a question and records that. -/
def Outside.reply (o : Outside ω) (q : Query) : Watched ω ν q.Answer :=
  .step fun s =>
    let (a, c, w) := o.answer q s.clock s.rest.world
    (a, { s with
      clock := c
      rest := { s.rest with world := w, exchanges := ⟨q, a⟩ :: s.rest.exchanges } })

/-- The service as programs see it. -/
def Outside.service (o : Outside ω) : Service (Watch ω ν) := fun q => do
  let early ← Program.look fun s => o.before q s.clock s.rest.world
  Program.pauses early
  let a ← o.reply q
  let late ← Program.look fun s => o.after q s.clock s.rest.world
  Program.pauses late
  pure a

/-! ### Notes -/

/-- Notes what a plan learns. -/
def State.learned (n : Note ν) (s : State (Watch ω ν)) : State (Watch ω ν) :=
  { s with rest := { s.rest with notes := n :: s.rest.notes } }

/-- Notes that a task has got its entry. -/
def State.started (k : Ticket) (s : State (Watch ω ν)) : State (Watch ω ν) :=
  { s with rest := { s.rest with entered := k :: s.rest.entered } }

/-- Notes that a task has ended or was given up. -/
def State.ended (k : Ticket) (s : State (Watch ω ν)) : State (Watch ω ν) :=
  { s with rest := { s.rest with left := k :: s.rest.left } }

/-- The task with this entry, which notes its start and its end. -/
def attended (k : Ticket) (task : Watched ω ν α) : Watched ω ν α := do
  Program.change (State.started k)
  let a ← task.guarded (State.ended k)
  Program.change (State.ended k)
  pure a

/-- The task in a context that was just entered, which notes its start and its end. -/
def Context.attended (x : Context) (task : Watched ω ν α) : Watched ω ν α :=
  match x.scopes with
  | [] => task
  | e :: _ => LeaseLock.attended ⟨x.chain, e.id⟩ task

/-! ### Plans -/

/-- Which context a plan uses. -/
inductive Plan.Place where
  /-- That of the enclosing task. -/
  | current
  /-- That of an outermost call. -/
  | outermost
  /-- One that was pinned to the board. -/
  | pinned (label : String)

/-- A program of locked calls. -/
inductive Plan (ω ν : Type) where
  /-- It has ended. -/
  | done (ending : Ending String ν)
  /-- Changes the clock and the world outside. -/
  | act (f : Clock → ω → Clock × ω) (next : Plan ω ν)
  /-- Waits for a turn. -/
  | pause (next : Plan ω ν)
  /-- Looks around. -/
  | look (place : Plan.Place) (next : View → Plan ω ν)
  /-- Pins the context of the enclosing task to the board. -/
  | pin (label : String) (next : Plan ω ν)
  /-- Extends the lease of the innermost lock. -/
  | extend (place : Plan.Place) (atMostFor atLeastFor : Span)
      (next : Except LockError Extension → Plan ω ν)
  /-- Runs a task under a lock. -/
  | lock (place : Plan.Place) (provider : Provider) (t : Terms) (task : Plan ω ν)
      (next : Conclusion ν → Plan ω ν)
  /-- Carries out two plans side by side. A panic of either ends both. -/
  | both (first second : Plan ω ν)
      (next : Except String (Ending String ν × Ending String ν) → Plan ω ν)
  /-- Gives a plan up if it has not ended after some turns. -/
  | limit (turns : Nat) (body : Plan ω ν) (next : Option (Ending String ν) → Plan ω ν)

/-- One more chain is in use. -/
def State.withNextChain (s : State (Watch ω ν)) : State (Watch ω ν) :=
  { s with rest := { s.rest with nextChain := s.rest.nextChain + 1 } }

/-- The context of an outermost call. -/
def outermost (shared : Bool) : Watched ω ν Context :=
  if shared then pure ⟨0, []⟩
  else .step fun s => (⟨s.rest.nextChain, []⟩, s.withNextChain)

/-- The context at a place. -/
def Plan.Place.context (shared : Bool) (x : Option Context) : Plan.Place → Watched ω ν Context
  | current => match x with
    | some y => pure y
    | none => LeaseLock.outermost shared
  | outermost => LeaseLock.outermost shared
  | pinned label => do
    match ← Program.look fun s => s.rest.board.get? label with
    | some y => pure y
    | none => LeaseLock.outermost shared

/-- Pins a context to the board, if there is one. -/
def State.pin (label : String) (x : Option Context) (s : State (Watch ω ν)) : State (Watch ω ν) :=
  match x with
  | some y => { s with rest := { s.rest with board := s.rest.board.put label y } }
  | none => s

/-- The clock and the world outside are changed. -/
def State.acted (f : Clock → ω → Clock × ω) (s : State (Watch ω ν)) : State (Watch ω ν) :=
  let (c, w) := f s.clock s.rest.world
  { s with clock := c, rest := { s.rest with world := w } }

/-- An ending as a result that may end a plan beside. -/
def Ending.beside : Ending String α → Except String (Ending String α)
  | .panic text => .error text
  | ending => .ok ending

/-- The program of a plan in the context of the enclosing task, if there is one. -/
def Plan.program (o : Outside ω) (shared : Bool) :
    Plan ω ν → Option Context → Watched ω ν (Ending String ν)
  | .done ending, _ => pure ending
  | .act f next, x => do
    Program.change (State.acted f)
    next.program o shared x
  | .pause next, x => do
    Program.pause
    next.program o shared x
  | .look place next, x => do
    let y ← place.context shared x
    let v ← Program.look y.view
    Program.change (State.learned (.viewed v))
    (next v).program o shared x
  | .pin label next, x => do
    Program.change (State.pin label x)
    next.program o shared x
  | .extend place d e next, x => do
    let y ← place.context shared x
    let r ← y.extendActive o.service d e
    Program.change (State.learned (.extended r))
    (next r).program o shared x
  | .lock place provider t task next, x => do
    let y ← place.context shared x
    -- Only a lock that is not held around the task already gives it an entry.
    let c ← execute o.service provider y t fun z =>
      if y.contains t.name then task.program o shared (some z)
      else z.attended (task.program o shared (some z))
    Program.change (State.learned (.concluded c))
    (next c).program o shared x
  | .both first second next, x => do
    let r ← Program.both (first.program o shared x >>= fun ending => pure ending.beside)
      (second.program o shared x >>= fun ending => pure ending.beside)
    (next r).program o shared x
  | .limit n body next, x => do
    let r ← (body.program o shared x).limit n
    (next r).program o shared x

/-! ### Crowds -/

/-- Plans that are carried out. -/
structure Crowd (ω ν : Type) where
  state : State (Watch ω ν)
  /-- What is left of each plan; of one that was given up, nothing is. -/
  members : List (Option (Routine (State (Watch ω ν)) (Ending String ν))) := []

namespace Crowd

/-- What happens next. -/
inductive Event (ω ν : Type) where
  /-- A plan starts. -/
  | start (plan : Plan ω ν)
  /-- A plan has its next turn. -/
  | turn (k : Nat)
  /-- A plan is given up. -/
  | drop (k : Nat)

/-- Lets an event happen. One that makes no sense changes nothing. -/
def step (o : Outside ω) (shared : Bool) (f : Crowd ω ν) : Event ω ν → Crowd ω ν
  | .start plan =>
    let u := plan.program o shared none f.state
    ⟨u.state, f.members ++ [some u.rest]⟩
  | .turn k => match f.members[k]? with
    | some (some r) => ⟨(r.turn f.state).state, f.members.set k (some (r.turn f.state).rest)⟩
    | _ => f
  | .drop k => match f.members[k]? with
    | some (some r) => ⟨r.abandon f.state, f.members.set k none⟩
    | _ => f

/-- Lets events happen one after the other. -/
def play (o : Outside ω) (shared : Bool) (f : Crowd ω ν) (es : List (Event ω ν)) : Crowd ω ν :=
  es.foldl (step o shared) f

/-- No plan has started yet. -/
def fresh (c : Clock) (w : ω) : Crowd ω ν := ⟨⟨c, [], { world := w }⟩, []⟩

/-- How a plan has ended, if it has. -/
def endingOf : Option (Routine (State (Watch ω ν)) (Ending String ν)) → Option (Ending String ν)
  | some (.done ending) => some ending
  | _ => none

/-- A plan has ended or was given up. -/
def isOver : Option (Routine (State (Watch ω ν)) (Ending String ν)) → Bool
  | some (.paused _ _) => false
  | _ => true

/-- How the plans have ended, as far as they have. -/
def endings (f : Crowd ω ν) : List (Option (Ending String ν)) := f.members.map endingOf

/-- All plans have ended or were given up. -/
def allOver (f : Crowd ω ν) : Bool := f.members.all isOver

end Crowd
end LeaseLock
