import LeaseLock.Proofs.Plans
import LeaseLock.Proofs.Safety

/-!
# Nested calls

Locked calls within the tasks of locked calls, to any depth and in any shape.

## The model

The programs are plans, as in `Proofs.Plans`: they make locked calls one after the other, nested in
one another or side by side, extend leases, and give calls up, while other plans have their turns and
the service answers as it likes. A call is `execute`. It has the context that a task received, be it
that of the enclosing task or one that was pinned to the board, or it is an outermost call.

A journal is kept of all calls: what they ask and are answered, when their tasks start, and how these
and the calls themselves end. It also keeps, beside each context, the names of the locks that the
calls around it have got. These are read off the answers to the calls, and not off contexts: the task
of a call has one name more around it if a question of the call was answered so that its lock is got.
Extensions are not in the journal. Nobody reads it but to keep it.

## What is proved

`locked_calls_nest`: at any time, all that is in the journal is as it ought to be (`Nested`). The
names in a context are those around it, all different. A call for one of them starts its task at once,
asks nothing and ends as its task does; it does not matter what became of the lease, or what there is
in the store. Any other call turns to its provider at once.
-/

namespace LeaseLock

variable {ω ν α : Type}

/-! ### The journal -/

/-- A place where calls are made. -/
structure Spot where
  context : Context
  /-- The names of the locks that the calls around it have got, the innermost first. -/
  around : List String

/-- A locked call. -/
structure Visit where
  /-- Each call has a number of its own. -/
  number : Nat
  spot : Spot
  provider : Provider
  terms : Terms

/-- What happens to a call. -/
inductive Incident (ν : Type) where
  /-- It is made. -/
  | called (v : Visit)
  /-- It asks the service something, to take its lock or to give it back. -/
  | asked (v : Visit) (q : Query)
  /-- It gets an answer. -/
  | answered (v : Visit) (q : Query) (a : q.Answer)
  /-- Its task starts, and makes its own calls there. -/
  | began (v : Visit) (z : Spot)
  /-- Its task ends. -/
  | ended (v : Visit) (ending : Ending String ν)
  /-- The call itself ends. -/
  | concluded (v : Visit) (c : Conclusion ν)

/-- The call to which it happens. -/
def Incident.visit : Incident ν → Visit
  | called v | asked v _ | answered v _ _ | began v _ | ended v _ | concluded v _ => v

/-- With this answer, a lock is got. -/
def Query.grants : (q : Query) → q.Answer → Bool
  | .store ⟨.insert, _, _⟩, .ok created => created
  | .store ⟨.claim, _, _⟩, .ok claimed => claimed
  | .send (.set _ _ _), .text _ => true
  | .send (.set _ _ _), .integer _ => true
  | _, _ => false

/-- The call of this number gets its lock. -/
def Incident.grants (n : Nat) : Incident ν → Bool
  | answered v q a => v.number = n && q.grants a
  | _ => false

namespace Visit

/-- A call around this one has got the same lock. -/
def reenters (v : Visit) : Prop := v.terms.name ∈ v.spot.around

/-- The call has got its lock. -/
def granted (v : Visit) (log : List (Incident ν)) : Bool := log.any (·.grants v.number)

/-- The names around the task of the call. -/
def inside (v : Visit) (log : List (Incident ν)) : List String :=
  if v.granted log then v.terms.name :: v.spot.around else v.spot.around

/-- The provider may begin with this question to take the lock. -/
def Opens (v : Visit) (q : Query) : Prop :=
  ∃ now next, v.provider.acquire now v.terms = .ask q next

end Visit

/-- What there is beside the clock and the chains. -/
structure Journal (ω ν : Type) where
  world : ω
  /-- What has happened, the last thing first. -/
  log : List (Incident ν) := []
  /-- The number for the next call. -/
  nextVisit : Nat := 0
  /-- The number for the next chain. -/
  nextChain : Nat := 1
  /-- The spots that were pinned to the board, under their labels. -/
  board : Registry String Spot := []

/-- A program that keeps a journal. -/
abbrev Journaled (ω ν α : Type) : Type := Program (State (Journal ω ν)) α

/-- Writes down what happens. -/
def State.write (e : Incident ν) (s : State (Journal ω ν)) : State (Journal ω ν) :=
  { s with rest := { s.rest with log := e :: s.rest.log } }

/-- The service. -/
def Outside.plainly (o : Outside ω) : Service (Journal ω ν) := fun q => do
  let early ← Program.look fun s => o.before q s.clock s.rest.world
  Program.pauses early
  let a ← Program.step fun s =>
    let (a, c, w) := o.answer q s.clock s.rest.world
    (a, { s with clock := c, rest := { s.rest with world := w } })
  let late ← Program.look fun s => o.after q s.clock s.rest.world
  Program.pauses late
  pure a

/-- The service for a call, whose questions and answers are written down. -/
def Outside.attending (o : Outside ω) (v : Visit) : Service (Journal ω ν) := fun q => do
  Program.change (State.write (.asked v q))
  let a ← o.plainly q
  Program.change (State.write (.answered v q a))
  pure a

/-! ### Plans that keep a journal -/

/-- The spot of an outermost call. -/
def openSpot (shared : Bool) : Journaled ω ν Spot :=
  if shared then pure ⟨⟨0, []⟩, []⟩
  else .step fun s => (⟨⟨s.rest.nextChain, []⟩, []⟩,
    { s with rest := { s.rest with nextChain := s.rest.nextChain + 1 } })

/-- The spot at a place. -/
def Plan.Place.spot (shared : Bool) (z : Option Spot) : Plan.Place → Journaled ω ν Spot
  | current => match z with
    | some y => pure y
    | none => openSpot shared
  | outermost => openSpot shared
  | pinned label => do
    match ← Program.look fun s => s.rest.board.get? label with
    | some y => pure y
    | none => openSpot shared

/-- Pins a spot to the board, if there is one. -/
def State.pinSpot (label : String) (z : Option Spot) (s : State (Journal ω ν)) :
    State (Journal ω ν) :=
  match z with
  | some y => { s with rest := { s.rest with board := s.rest.board.put label y } }
  | none => s

/-- Makes a call. -/
def Spot.visit (z : Spot) (provider : Provider) (t : Terms) : Journaled ω ν Visit :=
  .step fun s =>
    let v : Visit := ⟨s.rest.nextVisit, z, provider, t⟩
    (v, { s with
      rest := { s.rest with log := .called v :: s.rest.log, nextVisit := s.rest.nextVisit + 1 } })

/-- Starts the task of a call in a context. -/
def Visit.start (v : Visit) (x : Context) : Journaled ω ν Spot :=
  .step fun s =>
    let z : Spot := ⟨x, v.inside s.rest.log⟩
    (z, s.write (.began v z))

/-- The task of a call, given what it does where it starts. -/
def Visit.task (v : Visit) (body : Spot → Journaled ω ν (Ending String ν)) (x : Context) :
    Journaled ω ν (Ending String ν) := do
  let z ← v.start x
  let ending ← body z
  Program.change (State.write (.ended v ending))
  pure ending

/-- The program of a plan at the spot of the enclosing task, if there is one. -/
def Plan.journaled (o : Outside ω) (shared : Bool) :
    Plan ω ν → Option Spot → Journaled ω ν (Ending String ν)
  | .done ending, _ => pure ending
  | .act f next, z => do
    Program.change fun s =>
      let (c, w) := f s.clock s.rest.world
      { s with clock := c, rest := { s.rest with world := w } }
    next.journaled o shared z
  | .pause next, z => do
    Program.pause
    next.journaled o shared z
  | .look place next, z => do
    let y ← place.spot shared z
    let seen ← Program.look y.context.view
    (next seen).journaled o shared z
  | .pin label next, z => do
    Program.change (State.pinSpot label z)
    next.journaled o shared z
  | .extend place d e next, z => do
    let y ← place.spot shared z
    let r ← y.context.extendActive o.plainly d e
    (next r).journaled o shared z
  | .lock place provider t task next, z => do
    let y ← place.spot shared z
    let v ← y.visit provider t
    let c ← execute (o.attending v) v.provider v.spot.context v.terms
      (v.task fun z => task.journaled o shared (some z))
    Program.change (State.write (.concluded v c))
    (next c).journaled o shared z
  | .both first second next, z => do
    let r ← Program.both (first.journaled o shared z >>= fun ending => pure ending.beside)
      (second.journaled o shared z >>= fun ending => pure ending.beside)
    (next r).journaled o shared z
  | .limit n body next, z => do
    let r ← (body.journaled o shared z).limit n
    (next r).journaled o shared z

/-- What happens in a crowd, with a journal. -/
def Crowd.Event.journaled (o : Outside ω) (shared : Bool) :
    Crowd.Event ω ν → Ensemble.Event (State (Journal ω ν)) (Ending String ν)
  | start plan => .start (plan.journaled o shared none)
  | turn k => .turn k
  | drop k => .drop k

/-- What is in the journal after plans were carried out. -/
def journalAfter (o : Outside ω) (shared : Bool) (c : Clock) (w : ω)
    (es : List (Crowd.Event ω ν)) : List (Incident ν) :=
  let f : Ensemble (State (Journal ω ν)) (Ending String ν) := ⟨⟨c, [], { world := w }⟩, []⟩
  (f.play (es.map (Crowd.Event.journaled o shared))).state.rest.log

/-! ### What ought to be in it -/

/-- The context knows what is around it. -/
structure Spot.Faithful (z : Spot) : Prop where
  /-- Its lineage has the names of the locks that the calls around it have got. -/
  lineage : z.context.scopes.map Scope.name = z.around
  /-- No lock was got twice. -/
  distinct : z.around.Nodup
  depth : z.context.depth = z.around.length
  contains : ∀ n, z.context.contains n = true ↔ n ∈ z.around

/-- Calls are made from outside, or where a task has started. -/
def Spot.Known (z : Spot) (log : List (Incident ν)) : Prop :=
  z.context.scopes = [] ∧ z.around = [] ∨ ∃ v, .began v z ∈ log

/-- A journal, the last thing first, is as it ought to be. -/
structure Nested (log : List (Incident ν)) : Prop where
  /-- A call has a number of its own. It is made from outside or where a task has started, and its
  context knows what is around it. -/
  called : ∀ newer v older, log = newer ++ .called v :: older →
    v.spot.Known older ∧ v.spot.Faithful ∧ ∀ e ∈ older, e.visit.number ≠ v.number
  /-- A task starts with what was around its call, and with the lock that the call has got, which is
  so just if it was not around yet. Its context knows that. -/
  began : ∀ newer v z older, log = newer ++ .began v z :: older →
    .called v ∈ older ∧ z.Faithful ∧ z.around = v.inside older ∧
      (v.granted older = true ↔ ¬v.reenters)
  /-- A call for a lock that is around starts its task at once, where it is, and asks nothing. -/
  within : ∀ newer v older, log = newer ++ .called v :: older → v.reenters →
    newer.getLast? = some (.began v v.spot) ∧ ∀ q, .asked v q ∉ log
  /-- It ends when its task does, and in the same way. -/
  through : ∀ newer v c older, log = newer ++ .concluded v c :: older → v.reenters →
    ∃ ending, older.head? = some (.ended v ending) ∧ c = ending.map .task .executed
  /-- Any other call turns to its provider at once. -/
  beyond : ∀ newer v older, log = newer ++ .called v :: older → ¬v.reenters →
    ∃ q, newer.getLast? = some (.asked v q) ∧ v.Opens q

/-! ### Keeping the journal -/

/-- What may come right after a call was made. -/
inductive Visit.Starts (v : Visit) : Incident ν → Prop where
  | within (h : v.reenters) : Starts v (.began v v.spot)
  | beyond (h : ¬v.reenters) {q : Query} (hq : v.Opens q) : Starts v (.asked v q)

/-- What may be written down, given what has happened before. -/
def Incident.Fits (older : List (Incident ν)) : Incident ν → Prop
  | called v => v.spot.Known older ∧ ∀ e ∈ older, e.visit.number ≠ v.number
  | asked v _ => ¬v.reenters
  | began v z => .called v ∈ older ∧ z.Faithful ∧ z.around = v.inside older ∧
      (v.granted older = true ↔ ¬v.reenters)
  | concluded v c =>
    v.reenters → ∃ ending, older.head? = some (.ended v ending) ∧ c = ending.map .task .executed
  | answered _ _ _ | ended _ _ => True

/-- All was written down as it may be, but something may be due. -/
def WellKept : List (Incident ν) → Prop
  | [] => True
  | e :: older => (∀ v, older.head? = some (.called v) → v.Starts e) ∧ e.Fits older ∧ WellKept older

section Logs

variable {log older newer : List (Incident ν)} {e : Incident ν} {v : Visit} {z : Spot}

theorem WellKept.of_append (h : WellKept (newer ++ older)) : WellKept older := by
  induction newer with
  | nil => exact h
  | cons e newer ih => exact ih h.2.2

theorem WellKept.fits (h : WellKept (newer ++ e :: older)) : e.Fits older := h.of_append.2.1

theorem WellKept.fits_of_mem (h : WellKept log) (he : e ∈ log) :
    ∃ older, older <:+ log ∧ e.Fits older := by
  obtain ⟨newer, older, rfl⟩ := List.append_of_mem he
  exact ⟨older, ⟨newer ++ [e], by rw [List.append_assoc, List.singleton_append]⟩, h.fits⟩

/-- What is due after a call was made has happened, unless the call was the last thing. -/
theorem WellKept.next (h : WellKept (newer ++ .called v :: older)) (hne : newer ≠ []) :
    ∃ e, newer.getLast? = some e ∧ v.Starts e := by
  obtain ⟨newer, e, rfl⟩ : ∃ newer' e, newer = newer' ++ [e] :=
    ⟨_, _, (List.dropLast_concat_getLast hne).symm⟩
  rw [List.append_assoc] at h
  exact ⟨e, List.getLast?_concat, h.of_append.1 v rfl⟩

/-! Contexts know what is around them. -/

theorem Spot.contains_iff (z : Spot) (h : z.context.scopes.map Scope.name = z.around) (n : String) :
    z.context.contains n = true ↔ n ∈ z.around := by
  rw [Context.contains, List.any_eq_true, ← h, List.mem_map]
  exact exists_congr fun x => and_congr_right fun _ => decide_eq_true_iff

theorem Spot.faithful_of_lineage (h : z.context.scopes.map Scope.name = z.around)
    (hd : z.around.Nodup) : z.Faithful where
  lineage := h
  distinct := hd
  depth := by rw [Context.depth, ← h, List.length_map]
  contains := Spot.contains_iff z h

theorem Spot.Known.faithful (hz : z.Known log) (h : WellKept log) : z.Faithful := by
  obtain ⟨hs, ha⟩ | ⟨v, hv⟩ := hz
  · exact Spot.faithful_of_lineage (by rw [hs, ha]; rfl) (by rw [ha]; exact List.nodup_nil)
  · obtain ⟨older, -, hfits⟩ := h.fits_of_mem hv
    exact hfits.2.1

theorem Spot.Known.mono (hz : z.Known older) (h : older <:+ log) : z.Known log :=
  hz.imp_right fun ⟨v, hv⟩ => ⟨v, h.subset hv⟩

theorem Visit.granted_mono (hv : v.granted older = true) (h : older <:+ log) :
    v.granted log = true := by
  obtain ⟨e, he, hg⟩ := List.any_eq_true.1 hv
  exact List.any_eq_true.2 ⟨e, h.subset he, hg⟩

/-- A call that was just made has not got its lock. -/
theorem Visit.granted_called (hv : ∀ e ∈ older, e.visit.number ≠ v.number) :
    v.granted (.called v :: older) = false := by
  rw [Visit.granted, List.any_eq_false]
  intro e he
  obtain rfl | he := List.mem_cons.1 he
  · exact Bool.false_ne_true
  · cases e with
    | answered v' q a =>
      rw [Incident.grants, Bool.and_eq_true, decide_eq_true_eq]
      exact fun h => hv _ he h.1
    | called | asked | began | ended | concluded => exact Bool.false_ne_true

/-- Within its own lock, a call has its task start where it is. -/
theorem fits_within (hv : v.reenters) (hz : v.spot.Faithful)
    (hnew : ∀ e ∈ older, e.visit.number ≠ v.number) :
    (.began v v.spot : Incident ν).Fits (.called v :: older) := by
  have hg := Visit.granted_called hnew
  refine ⟨List.mem_cons_self, hz, ?_, iff_of_false (by rw [hg]; exact Bool.false_ne_true)
    fun h => h hv⟩
  rw [Visit.inside, hg]
  rfl

/-- With its lock, a call has its task start with one more name around. -/
theorem fits_beyond (hv : ¬v.reenters) (hz : v.spot.Faithful) (hc : .called v ∈ log)
    (hg : v.granted log = true) (id : Nat) :
    (.began v ⟨v.spot.context.inside id v.terms.name, v.inside log⟩ : Incident ν).Fits log := by
  have hinside : v.inside log = v.terms.name :: v.spot.around := by rw [Visit.inside, if_pos hg]
  refine ⟨hc, ?_, rfl, iff_of_true hg hv⟩
  rw [hinside]
  exact Spot.faithful_of_lineage (congrArg (v.terms.name :: ·) hz.lineage)
    (List.nodup_cons.2 ⟨hv, hz.distinct⟩)

end Logs

/-- The journal is in order, but something may be due. -/
structure Journal.Kept (j : Journal ω ν) : Prop where
  log : WellKept j.log
  numbers : ∀ e ∈ j.log, e.visit.number < j.nextVisit
  board : ∀ label z, j.board.get? label = some z → z.Known j.log

/-- The journal is in order, and nothing is due. -/
structure Journal.Settled (j : Journal ω ν) : Prop extends j.Kept where
  settled : ∀ v, j.log.head? ≠ some (.called v)

/-- What is due after a call was made has happened. -/
theorem Journal.Settled.next {j : Journal ω ν} (hj : j.Settled) {newer older : List (Incident ν)}
    {v : Visit} (h : j.log = newer ++ .called v :: older) :
    ∃ e, newer.getLast? = some e ∧ v.Starts e := by
  have hlog := hj.log
  rw [h] at hlog
  refine hlog.next fun hnil => hj.settled v ?_
  rw [h, hnil]
  rfl

/-- The journal is in order, and is added to only. -/
def bookkeeping : Conduct (State (Journal ω ν)) where
  valid s := s.rest.Settled
  grows s s' := s.rest.log <:+ s'.rest.log
  refl _ := List.suffix_rfl
  trans h h' := h.trans h'

section Specs

variable {s : State (Journal ω ν)} {e : Incident ν} {v : Visit} {o : Outside ω}

/-- The call was the last thing that happened. -/
def Due (v : Visit) (s : State (Journal ω ν)) : Prop :=
  s.rest.Kept ∧ s.rest.log.head? = some (.called v)

/-- The call was made. -/
def Made (v : Visit) (s : State (Journal ω ν)) : Prop := .called v ∈ s.rest.log

/-- The next thing may be this. -/
structure Ready (e : Incident ν) (s : State (Journal ω ν)) : Prop where
  kept : s.rest.Kept
  made : Made e.visit s
  starts : ∀ v, s.rest.log.head? = some (.called v) → v.Starts e
  fits : e.Fits s.rest.log

theorem stable_made (v : Visit) : (bookkeeping (ω := ω) (ν := ν)).Stable (Made v) :=
  fun h hv => h.subset hv

theorem ready_of_settled (hs : s.rest.Settled) (hm : Made e.visit s) (he : e.Fits s.rest.log) :
    Ready e s := ⟨hs.toKept, hm, fun v hv => (hs.settled v hv).elim, he⟩

theorem Ready.settled (h : Ready e s) : (s.write e).rest.Settled where
  log := ⟨h.starts, h.fits, h.kept.log⟩
  numbers := fun e' he' => by
    obtain rfl | he' := List.mem_cons.1 he'
    · exact h.kept.numbers (.called _) h.made
    · exact h.kept.numbers e' he'
  board := fun label z hz => (h.kept.board label z hz).mono (List.suffix_cons _ _)
  settled := fun v hv => by
    cases hv
    exact h.fits.2 _ h.made rfl

/-- Writing something down that may come next. -/
theorem safe_write (e : Incident ν) :
    (Program.change (State.write (ω := ω) e)).Safe bookkeeping (Ready e) fun _ s =>
      s.rest.Settled ∧ Made e.visit s ∧ s.rest.log.head? = some e :=
  Program.safe_change fun _ hs =>
    ⟨List.suffix_cons _ _, hs.settled, List.mem_cons_of_mem _ hs.made, rfl⟩

/-! The service. -/

theorem settled_world {c : Clock} {w : ω} (hs : s.rest.Settled) :
    ({ s with clock := c, rest := { s.rest with world := w } } : State (Journal ω ν)).rest.Settled :=
  ⟨⟨hs.log, hs.numbers, hs.board⟩, hs.settled⟩

theorem safe_plainly {P : State (Journal ω ν) → Prop} (hP : bookkeeping.Stable P) (q : Query) :
    (o.plainly q).Safe bookkeeping (fun s => s.rest.Settled ∧ P s) fun _ s =>
      s.rest.Settled ∧ P s := by
  refine .bind (Program.safe_look _ _) fun early => ?_
  refine .bind (Program.safe_pauses hP early) fun _ => ?_
  refine .bind (Program.safe_step_keeping fun s hs => ⟨List.suffix_rfl, settled_world hs.1,
    hP (show bookkeeping.grows s _ from List.suffix_rfl) hs.2⟩) fun a => ?_
  refine .bind (Program.safe_look _ _) fun late => ?_
  exact .bind (Program.safe_pauses hP late) fun _ => Program.safe_pure fun _ hs => hs

/-- A call asks something, and gets an answer. -/
theorem safe_attending (v : Visit) (q : Query) :
    (o.attending (ν := ν) v q).Safe bookkeeping (Ready (.asked v q)) fun a s =>
      s.rest.Settled ∧ Made v s ∧ (q.grants a = true → v.granted s.rest.log = true) := by
  refine .bind (safe_write _) fun _ => ?_
  refine .bind ((safe_plainly (stable_made v) q).given fun s hs => ⟨hs.1, hs.2.1⟩) fun a => ?_
  refine .bind ((safe_write (.answered v q a)).given fun s hs =>
    ready_of_settled hs.1 hs.2 trivial) fun _ => ?_
  refine Program.safe_pure fun s hs => ⟨hs.1, hs.2.1, fun hg => ?_⟩
  refine List.any_eq_true.2 ⟨_, List.mem_of_mem_head? hs.2.2, ?_⟩
  rw [Incident.grants, hg, decide_eq_true rfl]
  rfl

/-- A call that is not within its own lock asks something later. -/
theorem safe_attending_later (hv : ¬v.reenters) (q : Query) :
    (o.attending (ν := ν) v q).Safe bookkeeping (fun s => s.rest.Settled ∧ Made v s) fun a s =>
      s.rest.Settled ∧ Made v s ∧ (q.grants a = true → v.granted s.rest.log = true) :=
  (safe_attending v q).given fun _ hs => ready_of_settled hs.1 hs.2 hv

/-! Taking a lock. -/

/-- A conversation hands a lock out only after an answer with which it is got. -/
def Sober {β : Type} : Talk (Except LockError (Option β)) → Prop
  | .done r => ∀ h, r ≠ .ok (some h)
  | .ask q next => ∀ a, q.grants a = true ∨ Sober (next a)

/-- No lock is got if a storage call fails. -/
theorem not_got_of_error (e : LockError) (h : Handle) :
    (if e.isConflict then (.ok none : Except LockError (Option Lease)) else .error e).map
      (·.map Handle.stored) ≠ .ok (some h) := by
  split <;> exact fun hh => nomatch hh

/-- **Taking a lock** begins with a question, and goes on to be sober. -/
theorem sober_acquire (provider : Provider) (now : Instant) (t : Terms) :
    ∃ q next, provider.acquire now t = .ask q next ∧ Sober (provider.acquire now t) := by
  cases provider with
  | stored holder =>
    refine ⟨_, _, rfl, ?_⟩
    rintro (e | _ | _)
    · exact .inr (not_got_of_error e)
    · refine .inr ?_
      rintro (e | _ | _)
      · exact .inr (not_got_of_error e)
      · exact .inr fun h hh => nomatch hh
      · exact .inl rfl
    · exact .inl rfl
  | keyed environment holder =>
    refine ⟨_, _, rfl, ?_⟩
    rintro (_ | _ | _ | _)
    · exact .inl rfl
    · exact .inl rfl
    · exact .inr fun h hh => nomatch hh
    · exact .inr fun h hh => nomatch hh

/-- Where a conversation about a lock stands: it is got already, or what is left is sober. -/
def Heeds {β : Type} (v : Visit) (d : Talk (Except LockError (Option β)))
    (s : State (Journal ω ν)) : Prop :=
  s.rest.Settled ∧ Made v s ∧ (v.granted s.rest.log = true ∨ Sober d)

theorem safe_talk {β : Type} (hv : ¬v.reenters) (d : Talk (Except LockError (Option β))) :
    (Program.converse (o.attending (ν := ν) v) d).Safe bookkeeping (Heeds v d) fun r =>
      Heeds v (.done r) := by
  refine Program.safe_converse (fun q next => (safe_attending_later hv q).mono
    (fun s hs => ⟨hs.1, hs.2.1⟩) fun s a s' hs hg h => ⟨h.1, h.2.1, ?_⟩) d
  obtain hgot | hsober := hs.2.2
  · exact .inl (Visit.granted_mono hgot hg)
  · exact (hsober a).imp_left h.2.2

theorem Due.exists_older (h : Due v s) : ∃ older, s.rest.log = .called v :: older ∧
    WellKept older ∧ v.spot.Known older ∧ ∀ e ∈ older, e.visit.number ≠ v.number := by
  obtain ⟨hk, hhead⟩ := h
  obtain ⟨older, hlog⟩ := List.head?_eq_some_iff.1 hhead
  have hkept := hk.log
  rw [hlog] at hkept
  exact ⟨older, hlog, hkept.2.2, hkept.2.1⟩

theorem Due.faithful (h : Due v s) : v.spot.Faithful := by
  obtain ⟨older, -, hkept, hknown, -⟩ := h.exists_older
  exact hknown.faithful hkept

theorem Due.ready (h : Due v s) (he : e.visit = v) (hs : v.Starts e) (hf : e.Fits s.rest.log) :
    Ready e s where
  kept := h.1
  made := he ▸ List.mem_of_mem_head? h.2
  starts := fun v' hv' => by
    cases h.2.symm.trans hv'
    exact hs
  fits := hf

/-- **The provider is asked first**, and if a lock is handed out, then it was got. -/
theorem safe_acquire (hv : ¬v.reenters) (now : Instant) :
    (Program.converse (o.attending (ν := ν) v) (v.provider.acquire now v.terms)).Safe bookkeeping
      (Due v) fun r => Heeds v (.done r) := by
  obtain ⟨q, next, hq, hsober⟩ := sober_acquire v.provider now v.terms
  rw [hq] at hsober ⊢
  refine .bind ((safe_attending v q).mono
    (fun s hs => hs.ready rfl (.beyond hv ⟨now, next, hq⟩) hv) fun s a s' _ _ h => ?_)
      fun a => safe_talk hv (next a)
  exact ⟨h.1, h.2.1, (hsober a).imp_left h.2.2⟩

/-! Steps on chains and leases. -/

theorem rest_leave (x : Context) (s : State (Journal ω ν)) : (x.leave s).rest = s.rest := by
  unfold Context.leave
  split <;> rfl

theorem grows_of_rest {s s' : State (Journal ω ν)} (h : s'.rest = s.rest) :
    bookkeeping.grows s s' :=
  ⟨[], congrArg Journal.log h.symm⟩

/-- A change of something else. -/
theorem allows_of_rest {f : State (Journal ω ν) → State (Journal ω ν)}
    (hf : ∀ s, (f s).rest = s.rest) : bookkeeping.Allows f := fun s hs =>
  ⟨show (f s).rest.Settled by rwa [hf], grows_of_rest (hf s)⟩

section Leases

variable {P : State (Journal ω ν) → Prop} (hP : bookkeeping.Stable P)
include hP

theorem safe_change_allowed {f : State (Journal ω ν) → State (Journal ω ν)}
    (hf : bookkeeping.Allows f) : (Program.change f).Safe bookkeeping
      (fun s => s.rest.Settled ∧ P s) fun _ s => s.rest.Settled ∧ P s :=
  Program.safe_change fun s hs => ⟨(hf s hs.1).2, (hf s hs.1).1, hP (hf s hs.1).2 hs.2⟩

variable {service : Service (Journal ω ν)}
  (hs : ∀ q, (service q).Safe bookkeeping (fun s => s.rest.Settled ∧ P s) fun _ s =>
    s.rest.Settled ∧ P s)
include hs

theorem safe_release (x : Context) : (x.release service).Safe bookkeeping
    (fun s => s.rest.Settled ∧ P s) fun _ s => s.rest.Settled ∧ P s := by
  unfold Context.release
  split
  · exact Program.safe_pure fun _ hs => hs
  · refine .bind (Program.safe_look _ _) fun slot => ?_
    refine .bind (safe_change_allowed hP (allows_of_rest (rest_leave x))) fun _ => ?_
    split
    · refine .bind (Program.safe_look _ _) fun now => ?_
      exact .bind (Program.safe_converse_keeping hs _) fun r => Program.safe_pure fun _ hs => hs
    · exact Program.safe_pure fun _ hs => hs

theorem safe_extendActive (x : Context) (d e : Span) :
    (x.extendActive service d e).Safe bookkeeping (fun s => s.rest.Settled ∧ P s) fun _ s =>
      s.rest.Settled ∧ P s := by
  unfold Context.extendActive
  split
  · exact Program.safe_pure fun _ hs => hs
  · refine .bind (Program.safe_look _ _) fun entry => ?_
    split
    · exact Program.safe_pure fun _ hs => hs
    · exact Program.safe_pure fun _ hs => hs
    · exact Program.safe_pure fun _ hs => hs
    · have hfill : ∀ id slot, (Program.change fun s : State (Journal ω ν) =>
          s.onChain x.chain (·.fill id slot)).Safe bookkeeping
            (fun s => s.rest.Settled ∧ P s) fun _ s => s.rest.Settled ∧ P s := fun id slot =>
        safe_change_allowed hP (allows_of_rest fun _ => rfl)
      refine .bind (hfill _ _) fun _ => ?_
      refine .bind (Program.safe_look _ _) fun now => ?_
      refine .bind (Program.safe_converse_keeping hs _) fun r => ?_
      exact .bind (hfill _ _) fun _ => Program.safe_pure fun _ hs => hs

end Leases

/-! Executions. -/

variable {body : Spot → Journaled ω ν (Ending String ν)}
  (hbody : ∀ z, (body z).Safe bookkeeping (fun s => s.rest.Settled ∧ z.Known s.rest.log)
    fun _ s => s.rest.Settled)
include hbody

theorem safe_task (v : Visit) (x : Context) :
    (v.task body x).Safe bookkeeping (fun s => Ready (.began v ⟨x, v.inside s.rest.log⟩) s)
      fun ending s =>
        s.rest.Settled ∧ Made v s ∧ s.rest.log.head? = some (.ended v ending) := by
  have hstart : (v.start x).Safe bookkeeping
      (fun s : State (Journal ω ν) => Ready (.began v ⟨x, v.inside s.rest.log⟩) s)
      fun z s => (s.rest.Settled ∧ z.Known s.rest.log) ∧ Made v s :=
    Program.safe_step fun s hs => ⟨List.suffix_cons _ _,
      ⟨hs.settled, .inr ⟨v, List.mem_cons_self⟩⟩, List.mem_cons_of_mem _ hs.made⟩
  refine .bind hstart fun z => ?_
  refine .bind ((hbody z).frame (stable_made v)) fun ending => ?_
  refine .bind ((safe_write (.ended v ending)).given fun s hs =>
    ready_of_settled hs.1 hs.2 trivial) fun _ => ?_
  exact Program.safe_pure fun _ hs => hs

/-- **A call within its own lock** runs its task as it is. -/
theorem safe_execute_within (hv : v.reenters) (hz : v.spot.Faithful) :
    (execute (o.attending v) v.provider v.spot.context v.terms (v.task body)).Safe bookkeeping
      (Due v) fun c s =>
        s.rest.Settled ∧ Made v s ∧ (Incident.concluded v c).Fits s.rest.log := by
  unfold execute
  rw [if_pos ((hz.contains _).2 hv)]
  refine .bind ((safe_task hbody v v.spot.context).given fun s hs => ?_)
    fun ending => Program.safe_pure fun s hs => ⟨hs.1, hs.2.1, fun _ => ⟨ending, hs.2.2, rfl⟩⟩
  obtain ⟨older, hlog, -, -, hnew⟩ := hs.exists_older
  have hinside : v.inside s.rest.log = v.spot.around := by
    rw [hlog, Visit.inside, Visit.granted_called hnew]
    rfl
  rw [hinside]
  refine hs.ready rfl (.within hv) ?_
  rw [hlog]
  exact fits_within hv hz hnew

/-- **Any other call** runs its task with one more name around if its provider hands out a lock. -/
theorem safe_execute_beyond (hv : ¬v.reenters) (hz : v.spot.Faithful) :
    (execute (o.attending v) v.provider v.spot.context v.terms (v.task body)).Safe bookkeeping
      (Due v) fun c s =>
        s.rest.Settled ∧ Made v s ∧ (Incident.concluded v c).Fits s.rest.log := by
  unfold execute
  rw [if_neg fun h => hv ((hz.contains _).1 h)]
  refine .bind (Program.safe_look _ _) fun now => ?_
  refine .bind (safe_acquire hv now) fun r => ?_
  have hend : ∀ c : Conclusion ν, (Pure.pure c : Journaled ω ν _).Safe bookkeeping
      (fun s => s.rest.Settled ∧ Made v s) fun c s =>
        s.rest.Settled ∧ Made v s ∧ (Incident.concluded v c).Fits s.rest.log := fun c =>
    Program.safe_pure fun _ hs => ⟨hs.1, hs.2, fun h => (hv h).elim⟩
  rcases r with e | _ | h
  · exact (hend _).given fun s hs => ⟨hs.1, hs.2.1⟩
  · exact (hend _).given fun s hs => ⟨hs.1, hs.2.1⟩
  · have henter : (v.spot.context.enter v.terms.name h).Safe bookkeeping
        (Heeds v (.done (.ok (some h)) : Talk (Except LockError (Option Handle))))
        fun x (s : State (Journal ω ν)) => Ready (.began v ⟨x, v.inside s.rest.log⟩) s :=
      Program.safe_step fun s hs => ⟨List.suffix_rfl,
        ready_of_settled hs.1 hs.2.1
          (fits_beyond hv hz hs.2.1 (hs.2.2.resolve_right fun h' => h' h rfl) _)⟩
    have hrelease : ∀ x : Context, (x.release (o.attending v)).Safe bookkeeping
        (fun s : State (Journal ω ν) => s.rest.Settled ∧ Made v s) fun _ s =>
          s.rest.Settled ∧ Made v s :=
      safe_release (stable_made v) fun q =>
        (safe_attending_later hv q).mono (fun _ hs => hs) fun _ _ _ _ _ h => ⟨h.1, h.2.1⟩
    refine .bind henter fun x => ?_
    refine .bind ((safe_task hbody v x).guarded (allows_of_rest (rest_leave x))) fun ending => ?_
    exact .bind ((hrelease x).given fun s hs => ⟨hs.1, hs.2.1⟩) fun released => hend _

/-- **Executions** keep the journal. -/
theorem safe_execute (v : Visit) :
    (execute (o.attending v) v.provider v.spot.context v.terms (v.task body)).Safe bookkeeping
      (Due v) fun c s =>
        s.rest.Settled ∧ Made v s ∧ (Incident.concluded v c).Fits s.rest.log := fun s hs => by
  by_cases hv : v.reenters
  · exact safe_execute_within hbody hv hs.faithful s hs
  · exact safe_execute_beyond hbody hv hs.faithful s hs

end Specs

/-! ### Plans keep the journal -/

section Plans

variable {o : Outside ω} {shared : Bool} {z : Option Spot}

/-- The spot, if there is one, is where a task has started. -/
def Located (z : Option Spot) (s : State (Journal ω ν)) : Prop := ∀ y, z = some y → y.Known s.rest.log

theorem stable_located (z : Option Spot) : (bookkeeping (ω := ω) (ν := ν)).Stable (Located z) :=
  fun h hz y hy => (hz y hy).mono h

theorem safe_openSpot : (openSpot shared : Journaled ω ν Spot).Safe bookkeeping
    (fun s => s.rest.Settled) fun y s => s.rest.Settled ∧ y.Known s.rest.log := by
  unfold openSpot
  split
  · exact Program.safe_pure fun _ hs => ⟨hs, .inl ⟨rfl, rfl⟩⟩
  · exact Program.safe_step fun _ hs =>
      ⟨List.suffix_rfl, ⟨⟨hs.log, hs.numbers, hs.board⟩, hs.settled⟩, .inl ⟨rfl, rfl⟩⟩

theorem safe_spot (place : Plan.Place) : (place.spot shared z : Journaled ω ν Spot).Safe bookkeeping
    (fun s => s.rest.Settled ∧ Located z s) fun y s =>
      (s.rest.Settled ∧ y.Known s.rest.log) ∧ Located z s := by
  have hopen : (openSpot shared : Journaled ω ν Spot).Safe bookkeeping
      (fun s => s.rest.Settled ∧ Located z s) fun y s =>
        (s.rest.Settled ∧ y.Known s.rest.log) ∧ Located z s := safe_openSpot.frame (stable_located z)
  cases place with
  | outermost => exact hopen
  | current =>
    cases z with
    | none => exact hopen
    | some y => exact Program.safe_pure fun _ hs => ⟨⟨hs.1, hs.2 y rfl⟩, hs.2⟩
  | pinned label =>
    have hlook : (Program.look fun s : State (Journal ω ν) => s.rest.board.get? label).Safe
        bookkeeping (fun s => s.rest.Settled ∧ Located z s) fun y s =>
          (s.rest.Settled ∧ Located z s) ∧ Located y s := fun s hs =>
      ⟨List.suffix_rfl, hs, fun y hy => hs.1.board label y hy⟩
    refine .bind hlook fun y => ?_
    cases y with
    | none => exact hopen.given fun _ hs => hs.1
    | some y => exact Program.safe_pure fun _ hs => ⟨⟨hs.1.1, hs.2 y rfl⟩, hs.1.2⟩

/-- A call is made. -/
theorem safe_visit (y : Spot) (provider : Provider) (t : Terms) :
    (y.visit provider t : Journaled ω ν Visit).Safe bookkeeping
      (fun s => s.rest.Settled ∧ y.Known s.rest.log) Due := by
  refine Program.safe_step fun s hs => ⟨List.suffix_cons _ _, ⟨⟨?_, ?_, ?_⟩, rfl⟩⟩
  · exact ⟨fun v hv => (hs.1.settled v hv).elim,
      ⟨hs.2, fun e he => Nat.ne_of_lt (hs.1.numbers e he)⟩, hs.1.log⟩
  · intro e he
    obtain rfl | he := List.mem_cons.1 he
    · exact Nat.lt_succ_self _
    · exact Nat.lt_succ_of_lt (hs.1.numbers e he)
  · exact fun label z hz => (hs.1.board label z hz).mono (List.suffix_cons _ _)

theorem safe_pin (label : String) (z : Option Spot) :
    (Program.change (State.pinSpot (ω := ω) (ν := ν) label z)).Safe bookkeeping
      (fun s => s.rest.Settled ∧ Located z s) fun _ s => s.rest.Settled ∧ Located z s := by
  refine Program.safe_change fun s hs => ?_
  cases z with
  | none => exact ⟨List.suffix_rfl, hs⟩
  | some y =>
    refine ⟨List.suffix_rfl, ⟨⟨hs.1.log, hs.1.numbers, fun l x hx => ?_⟩, hs.1.settled⟩, hs.2⟩
    simp only [State.pinSpot, Registry.get?_put] at hx
    split at hx
    · cases hx
      exact hs.2 y rfl
    · exact hs.1.board l x hx

/-- **Plans** keep the journal. -/
theorem safe_plan (plan : Plan ω ν) (z : Option Spot) : (plan.journaled o shared z).Safe bookkeeping
    (fun s => s.rest.Settled ∧ Located z s) fun _ s => s.rest.Settled := by
  induction plan generalizing z with
  | done ending => exact Program.safe_pure fun _ hs => hs.1
  | act f next ih =>
    refine .bind (Program.safe_step_keeping fun s hs => ⟨List.suffix_rfl, settled_world hs.1,
      stable_located z (show bookkeeping.grows s _ from List.suffix_rfl) hs.2⟩) fun _ => ?_
    exact ih z
  | pause next ih => exact .bind (Program.safe_pause (stable_located z)) fun _ => ih z
  | look place next ih =>
    refine .bind (safe_spot place) fun y => ?_
    refine .bind (Program.safe_look _ _) fun seen => ?_
    exact (ih seen z).given fun s hs => ⟨hs.1.1, hs.2⟩
  | pin label next ih =>
    exact .bind (safe_pin label z) fun _ => ih z
  | extend place d e next ih =>
    have hplain : ∀ q, (o.plainly (ν := ν) q).Safe bookkeeping
        (fun s => s.rest.Settled ∧ Located z s) fun _ s => s.rest.Settled ∧ Located z s :=
      safe_plainly (stable_located z)
    refine .bind (safe_spot place) fun y => ?_
    refine .bind ((safe_extendActive (stable_located z) hplain y.context d e).given fun s hs =>
      ⟨hs.1.1, hs.2⟩) fun r => ?_
    exact ih r z
  | lock place provider t task next ihTask ih =>
    have htask : ∀ x : Spot, (task.journaled o shared (some x)).Safe bookkeeping
        (fun s => s.rest.Settled ∧ x.Known s.rest.log) fun _ s => s.rest.Settled := fun x =>
      (ihTask (some x)).given fun s hs => ⟨hs.1, fun y hy => by cases hy; exact hs.2⟩
    refine .bind (safe_spot place) fun y => ?_
    refine .bind ((safe_visit y provider t).frame (stable_located z)) fun v => ?_
    refine .bind ((safe_execute htask v).frame (stable_located z)) fun c => ?_
    refine .bind (((safe_write (.concluded v c)).given fun s hs =>
      ready_of_settled hs.1 hs.2.1 hs.2.2).frame (stable_located z)) fun _ => ?_
    exact (ih c z).given fun s hs => ⟨hs.1.1, hs.2⟩
  | both first second next ihFirst ihSecond ih =>
    have hside : ∀ ending : Ending String ν, (Pure.pure ending.beside : Journaled ω ν _).Sound
        bookkeeping fun s => s.rest.Settled := fun ending => Program.safe_pure fun _ hs => hs
    have hboth := Program.Sound.both (stable_located z) (.bind (ihFirst z) hside)
      (.bind (ihSecond z) hside)
    refine .bind ((hboth.frame (stable_located z)).given fun s hs => ⟨hs, hs.2⟩) fun r => ?_
    exact ih r z
  | limit n body next ihBody ih =>
    have hlimit := Program.Sound.limit (ihBody z) (fun _ hs => hs.1) n
    refine .bind ((hlimit.frame (stable_located z)).given fun s hs => ⟨hs, hs.2⟩) fun r => ?_
    exact ih r z

end Plans

/-! ### All that happens -/

/-- What was kept in order is as it ought to be. -/
theorem nested_of_settled {j : Journal ω ν} (hj : j.Settled) : Nested j.log where
  called newer v older h := by
    have hlog := hj.log
    rw [h] at hlog
    have hknown := hlog.fits.1
    exact ⟨hknown, hknown.faithful hlog.of_append.2.2, hlog.fits.2⟩
  began newer v z older h := by
    have hlog := hj.log
    rw [h] at hlog
    exact hlog.fits
  within newer v older h hv := by
    refine ⟨?_, fun q hq => ?_⟩
    · obtain ⟨e, he, hstart⟩ := hj.next h
      cases hstart with
      | within => exact he
      | beyond hnot => exact (hnot hv).elim
    · obtain ⟨older, -, hfits⟩ := hj.log.fits_of_mem hq
      exact hfits hv
  through newer v c older h hv := by
    have hlog := hj.log
    rw [h] at hlog
    exact hlog.fits hv
  beyond newer v older h hv := by
    obtain ⟨e, he, hstart⟩ := hj.next h
    cases hstart with
    | within hin => exact (hv hin).elim
    | beyond _ hq => exact ⟨_, he, hq⟩

/-- **Locked calls nest**: whatever plans are carried out, however their turns are interleaved,
whichever of them are given up, and whatever the service answers, the journal is at any time as it
ought to be. -/
theorem locked_calls_nest (o : Outside ω) (shared : Bool) (c : Clock) (w : ω)
    (es : List (Crowd.Event ω ν)) : Nested (journalAfter o shared c w es) := by
  have hfresh : bookkeeping.valid (⟨c, [], { world := w }⟩ : State (Journal ω ν)) :=
    ⟨⟨trivial, fun e he => (List.not_mem_nil he).elim, fun _ _ h => nomatch h⟩, fun v h => nomatch h⟩
  refine nested_of_settled (Ensemble.valid_play hfresh fun p hp => ?_)
  obtain ⟨e, -, he⟩ := List.mem_map.1 hp
  cases e with
  | start plan =>
    cases he
    exact (safe_plan plan none).given fun s hs => ⟨hs, fun y hy => nomatch hy⟩
  | turn k => cases he
  | drop k => cases he

/-- A service that grants whatever it is asked. -/
def generous : Outside Unit where
  before _ _ _ := 0
  answer q c w := match q with
    | .store ⟨.insert, _, _⟩ => (.ok true, c, w)
    | .store ⟨.claim, _, _⟩ => (.ok true, c, w)
    | .store ⟨.release, _, _⟩ => (.ok (), c, w)
    | .store ⟨.extend, _, _⟩ => (.ok .extended, c, w)
    | .send _ => (.integer 1, c, w)
  after _ _ _ := 0

/-- A call within its own lock. -/
def lockedTwice : Plan Unit Nat :=
  .lock .outermost (.stored "node") (.inSeconds 0 60 0)
    (.lock .current (.stored "node") (.inSeconds 0 60 0) (.done (.value 1)) fun _ =>
      .done (.value 2)) fun _ => .done (.value 3)

-- The outer call is made, asks, is answered and starts its task; the inner call is made, starts its
-- task, which ends, and ends; the outer task ends, its call asks, is answered and ends.
example : ((journalAfter generous false ⟨.epoch⟩ () [.start lockedTwice]).reverse.map fun e =>
    (e.visit.number, e.visit.spot.around)) =
      [(0, []), (0, []), (0, []), (0, []), (1, ["job"]), (1, ["job"]), (1, ["job"]), (1, ["job"]),
        (0, []), (0, []), (0, []), (0, [])] := by
  decide +kernel

end LeaseLock
