import LeaseLock.Proofs.Plans
import LeaseLock.Proofs.Safety

/-!
# Trails of extensions

Plans that leave a trail of the extensions that they make.

## The model

The programs are plans, as in `Proofs.Plans`. An extension may be made in the context that any task has
received, by the task or by somebody else, and be given up at any point. Beside each context, the locks
are kept that the calls around it are for, whether a call takes its lock or not (`Post`). Only a call
for a name that no call around it is for takes its lock; so the names tell which locks were taken
(`Lock.taken`). The target of an extension is the one that was taken last.

On the trail it is marked when an extension is made, what it asks and is answered, with the world
before and after each answer, and what it comes to. When a task starts for which a lock was taken, its
entry is marked. Nobody reads these marks.
-/

namespace LeaseLock

variable {ω : Type}

/-! ### Locks and posts -/

/-- A lock, where it is taken, and for whom. -/
structure Lock where
  provider : Provider
  name : String
  deriving DecidableEq

namespace Lock

/-- Those of the locks of nested calls that were taken, the innermost first. A call for the name of
one around it takes none. -/
def taken : List Lock → List Lock
  | [] => []
  | l :: ls => if l.name ∈ ls.map name then taken ls else l :: taken ls

theorem taken_of_mem {l : Lock} {ls : List Lock} (h : l.name ∈ ls.map name) :
    taken (l :: ls) = taken ls := if_pos h

theorem taken_of_not_mem {l : Lock} {ls : List Lock} (h : l.name ∉ ls.map name) :
    taken (l :: ls) = l :: taken ls := if_neg h

/-- Every name is the name of a lock that was taken. -/
theorem mem_names_taken {n : String} (ls : List Lock) :
    n ∈ (taken ls).map name ↔ n ∈ ls.map name := by
  induction ls with
  | nil => exact Iff.rfl
  | cons l ls ih =>
    by_cases h : l.name ∈ ls.map name
    · rw [taken_of_mem h, ih, List.map_cons, List.mem_cons]
      exact ⟨.inr, fun hn => hn.elim (fun hn => hn ▸ h) id⟩
    · rw [taken_of_not_mem h, List.map_cons, List.mem_cons, ih, List.map_cons, List.mem_cons]

/-- The question is about extending a lease on this lock. -/
def Extends (l : Lock) : Query → Prop
  | .store c => c.kind = .extend ∧ l.provider = .stored c.holder ∧ c.terms.name = l.name
  | .send (.run s key _ _) => s = .extend ∧
    ∃ environment holder, l.provider = .keyed environment holder ∧
      key = Redis.lockKey environment l.name
  | .send (.load s) => s = .extend ∧ ∃ environment holder, l.provider = .keyed environment holder
  | .send (.set _ _ _) => False

end Lock

/-- With this answer, a lease is extended. -/
def Query.renews : (q : Query) → q.Answer → Bool
  | .store ⟨.extend, _, _⟩, .ok e => e = .extended
  | .send (.run .extend _ _ _), r => r.integer? = some 1
  | _, _ => false

/-- The handle is one of a lease on this lock. -/
def Handle.At (l : Lock) : Handle → Prop
  | .stored x => l.provider = .stored x.holder ∧ x.terms.name = l.name
  | .keyed x => ∃ environment holder, l.provider = .keyed environment holder ∧
    x.key = Redis.lockKey environment l.name ∧ x.terms.name = l.name

/-- A place where a task runs. -/
structure Post where
  context : Context
  /-- The locks that the calls around are for, the innermost first. -/
  calls : List Lock
  deriving DecidableEq

/-- The lock whose lease is extended there. -/
def Post.target (p : Post) : Option Lock := (Lock.taken p.calls).head?

/-! ### Trails -/

/-- An extension that is made. -/
structure Attempt where
  /-- Each one has a number of its own. -/
  number : Nat
  post : Post
  deriving DecidableEq

/-- What is marked on a trail. -/
inductive Mark (ω : Type) where
  /-- A call has got an entry on a chain for the lock that it took. -/
  | entered (l : Lock) (chain id : Nat)
  /-- An extension is made. -/
  | made (k : Attempt)
  /-- It is answered a question. The world is that before and after. -/
  | answered (k : Attempt) (q : Query) (a : q.Answer) (before after : ω)
  /-- It ends. -/
  | returned (k : Attempt) (r : Except LockError Extension)

/-- The extension that a mark is of. -/
def Mark.attempt? : Mark ω → Option Attempt
  | entered _ _ _ => none
  | made k | answered k _ _ _ _ | returned k _ => some k

/-- What there is beside the clock and the chains. -/
structure Trail (ω : Type) where
  world : ω
  /-- What was marked, the last thing first. -/
  log : List (Mark ω) := []
  /-- The number for the next extension. -/
  nextAttempt : Nat := 0
  /-- The number for the next chain. -/
  nextChain : Nat := 1
  /-- The posts that were pinned to the board, under their labels. -/
  board : Registry String Post := []

/-- A program that keeps a trail. -/
abbrev Traced (ω α : Type) : Type := Program (State (Trail ω)) α

/-- Marks something. -/
def State.marked (m : Mark ω) (s : State (Trail ω)) : State (Trail ω) :=
  { s with rest := { s.rest with log := m :: s.rest.log } }

/-- Answers a question, and marks that if it is one of an extension. -/
def Outside.answering (o : Outside ω) (k : Option Attempt) (q : Query) : Traced ω q.Answer :=
  .step fun s =>
    let (a, c, w) := o.answer q s.clock s.rest.world
    let marks := k.toList.map fun k => .answered k q a s.rest.world w
    (a, { s with clock := c, rest := { s.rest with world := w, log := marks ++ s.rest.log } })

/-- The service, for an extension or for something else. -/
def Outside.serving (o : Outside ω) (k : Option Attempt) : Service (Trail ω) := fun q => do
  let early ← Program.look fun s => o.before q s.clock s.rest.world
  Program.pauses early
  let a ← o.answering k q
  let late ← Program.look fun s => o.after q s.clock s.rest.world
  Program.pauses late
  pure a

/-! ### Plans that keep a trail -/

/-- The post of an outermost call. -/
def openPost (shared : Bool) : Traced ω Post :=
  if shared then pure ⟨⟨0, []⟩, []⟩
  else .step fun s => (⟨⟨s.rest.nextChain, []⟩, []⟩,
    { s with rest := { s.rest with nextChain := s.rest.nextChain + 1 } })

/-- The post at a place. -/
def Plan.Place.post (shared : Bool) (p : Option Post) : Plan.Place → Traced ω Post
  | current => match p with
    | some y => pure y
    | none => openPost shared
  | outermost => openPost shared
  | pinned label => do
    match ← Program.look fun s => s.rest.board.get? label with
    | some y => pure y
    | none => openPost shared

/-- Pins a post to the board, if there is one. -/
def State.pinPost (label : String) (p : Option Post) (s : State (Trail ω)) : State (Trail ω) :=
  match p with
  | some y => { s with rest := { s.rest with board := s.rest.board.put label y } }
  | none => s

/-- Makes an extension. -/
def Post.attempt (p : Post) : Traced ω Attempt :=
  .step fun s =>
    let k : Attempt := ⟨s.rest.nextAttempt, p⟩
    (k, { s with rest := { s.rest with
      log := .made k :: s.rest.log, nextAttempt := s.rest.nextAttempt + 1 } })

/-- Starts the task of a call in the context that it receives. If the call took its lock, then the
entry is marked. -/
def Post.begin (p : Post) (l : Lock) (x : Context) : Traced ω Post :=
  .step fun s => (⟨x, l :: p.calls⟩, match x.scopes with
    | e :: _ => if p.context.contains l.name then s else s.marked (.entered l x.chain e.id)
    | [] => s)

/-- The program of a plan at the post of the enclosing task, if there is one. -/
def Plan.traced {ν : Type} (o : Outside ω) (shared : Bool) :
    Plan ω ν → Option Post → Traced ω (Ending String ν)
  | .done ending, _ => pure ending
  | .act f next, p => do
    Program.change fun s =>
      let (c, w) := f s.clock s.rest.world
      { s with clock := c, rest := { s.rest with world := w } }
    next.traced o shared p
  | .pause next, p => do
    Program.pause
    next.traced o shared p
  | .look place next, p => do
    let y ← place.post shared p
    let seen ← Program.look y.context.view
    (next seen).traced o shared p
  | .pin label next, p => do
    Program.change (State.pinPost label p)
    next.traced o shared p
  | .extend place d e next, p => do
    let y ← place.post shared p
    let k ← y.attempt
    let r ← k.post.context.extendActive (o.serving (some k)) d e
    Program.change (State.marked (.returned k r))
    (next r).traced o shared p
  | .lock place provider t task next, p => do
    let y ← place.post shared p
    let c ← execute (o.serving none) provider y.context t fun x => do
      let z ← y.begin ⟨provider, t.name⟩ x
      task.traced o shared (some z)
    (next c).traced o shared p
  | .both first second next, p => do
    let r ← Program.both (first.traced o shared p >>= fun ending => pure ending.beside)
      (second.traced o shared p >>= fun ending => pure ending.beside)
    (next r).traced o shared p
  | .limit n body next, p => do
    let r ← (body.traced o shared p).limit n
    (next r).traced o shared p

/-- What happens in a crowd, with a trail. -/
def Crowd.Event.traced {ν : Type} (o : Outside ω) (shared : Bool) :
    Crowd.Event ω ν → Ensemble.Event (State (Trail ω)) (Ending String ν)
  | start plan => .start (plan.traced o shared none)
  | turn k => .turn k
  | drop k => .drop k

/-- What is on the trail after plans were carried out. -/
def trailAfter {ν : Type} (o : Outside ω) (shared : Bool) (c : Clock) (w : ω)
    (es : List (Crowd.Event ω ν)) : List (Mark ω) :=
  let f : Ensemble (State (Trail ω)) (Ending String ν) := ⟨⟨c, [], { world := w }⟩, []⟩
  (f.play (es.map (Crowd.Event.traced o shared))).state.rest.log

end LeaseLock
