import LeaseLock.Lock.Execution
import LeaseLock.Store.Memory

/-!
# Executions at a store in memory

`execute` as it goes when its storage calls are answered by a store in memory, with others coming in
between.

## The model

The service waits for a turn before each storage call and carries it out at the start of that turn.
So whatever an execution does between two calls is one step, and anything can happen before each
call. A task may do anything that a task can do with its context: it waits and looks around, extends
its lease, or starts an extension and drops it. What it does next may depend on all that it has seen.
It ends with a value, a failure or a panic.

Tasks leave notes for the sake of statements: that they have started, and after each extension the
terms of the lease that they have then. Nobody reads these notes but tasks that look around.

## What is proved

Between its turns, an execution is at one of a few points, and there is a routine for each that is
exactly what is left of it then. `start_execution` says where it begins; the other equations say
what each thing that it may do comes to, up to the next turn.

## Honest scope

A task is a dialog, so it ends if it gets turns enough. One that goes on for ever is not a dialog;
but in a run there are finitely many turns, and a task that waits more often does the same in them.
-/

namespace LeaseLock

/-! ### Laws of turns -/

section Turns

variable {σ α β : Type}

/-- Gives a routine its next turn, if it has one. -/
def Routine.turn : Routine σ α → Program σ α
  | .done a, s => ⟨s, .done a⟩
  | .paused resume _, s => resume s

@[simp] theorem Turn.guarded_done (s : σ) (a : α) (cleanup : σ → σ) :
    (Turn.mk s (.done a)).guarded cleanup = ⟨s, .done a⟩ := by
  simp [Turn.guarded, Routine.guarded]

@[simp] theorem Turn.guarded_paused (s : σ) (resume : σ → Turn σ α) (abandon cleanup : σ → σ) :
    (Turn.mk s (.paused resume abandon)).guarded cleanup =
      ⟨s, .paused (fun s => (resume s).guarded cleanup) fun s => cleanup (abandon s)⟩ := by
  simp [Turn.guarded, Routine.guarded]

@[simp] theorem Turn.limit_done (s : σ) (a : α) (n : Nat) :
    (Turn.mk s (.done a)).limit n = ⟨s, .done (some a)⟩ := by
  simp [Turn.limit, Routine.limit]

@[simp] theorem Turn.limit_paused (s : σ) (resume : σ → Turn σ α) (abandon : σ → σ) :
    (Turn.mk s (.paused resume abandon)).limit 0 =
      ⟨s, .paused (fun s => ⟨abandon s, .done none⟩) abandon⟩ := by
  simp [Turn.limit, Routine.limit]

theorem Program.look_bind (f : σ → α) (g : α → Program σ β) (s : σ) :
    (Program.look f >>= g) s = g (f s) s := Turn.done_bind s (f s) g

theorem Program.change_bind (f : σ → σ) (g : Unit → Program σ β) (s : σ) :
    (Program.change f >>= g) s = g () (f s) := Turn.done_bind (f s) () g

end Turns

/-- The chains after one of them was changed. -/
theorem chain_onChain {ω : Type} (s : State ω) (j k : Nat) (f : Chain → Chain) :
    (s.onChain k f).chains.chain j = if j = k then f (s.chains.chain k) else s.chains.chain j := by
  show Chains.chain (s.chains.put k _) j = _
  rw [Chains.chain, Registry.get?_put]
  split
  · rfl
  · rfl

/-! ### The site of executions -/

/-- A store in memory, and what tasks have noted. -/
structure Site where
  store : Store
  /-- The executions whose tasks have started, with the terms of their leases, the last one first. -/
  started : List (Nat × Terms) := []
  /-- The terms of the leases that tasks have, by the numbers of their executions. -/
  noted : Registry Nat Terms := []

/-- Notes that a task has started. -/
def Site.start (k : Nat) (t : Terms) (w : Site) : Site :=
  { w with started := (k, t) :: w.started, noted := w.noted.put k t }

/-- Notes the terms of the lease that a task has, or that it has none. -/
def Site.note (k : Nat) (t : Option Terms) (w : Site) : Site :=
  { w with noted := match t with
    | some t => w.noted.put k t
    | none => w.noted.erase k }

/-- Carries out a storage call. -/
def State.serve (s : State Site) (c : Call) : c.kind.Result × State Site :=
  ((s.rest.store.perform s.now c).1,
    { s with rest := { s.rest with store := (s.rest.store.perform s.now c).2 } })

/-- The service: a call waits for a turn and is carried out at its start. -/
def calls : Service Site
  | .store c => do
    Program.pause
    Program.step fun s => (.ok (s.serve c).1, (s.serve c).2)
  | .send _ => pure .nil

/-- What a task can do. -/
inductive Deed where
  /-- Waits for a turn, and looks around then. -/
  | wait
  /-- Extends its lease. -/
  | extend (atMostFor atLeastFor : Span)
  /-- Starts to extend its lease, and drops that in its next turn. -/
  | drop (atMostFor atLeastFor : Span)

/-- What a task learns. -/
abbrev Deed.Answer : Deed → Type
  | wait => State Site
  | extend _ _ => Except LockError Extension
  | drop _ _ => Option (Except LockError Extension)

/-- A task: what it does, and how it ends. -/
abbrev Task (α : Type) : Type := Dialog Deed Deed.Answer (Ending String α)

/-- Does what the task of an execution does, in its context. -/
def Deed.perform (k : Nat) (x : Context) : (d : Deed) → Program (State Site) d.Answer
  | wait => do
    Program.pause
    Program.look id
  | extend d e => do
    let r ← x.extendActive calls d e
    Program.change fun s => { s with rest := s.rest.note k (x.activeTerms s.chains) }
    pure r
  | drop d e => do
    let r ← (x.extendActive calls d e).limit 1
    Program.change fun s => { s with rest := s.rest.note k (x.activeTerms s.chains) }
    pure r

variable {α : Type}

/-- The program of the task of an execution. -/
def Task.program (k : Nat) (t : Terms) (task : Task α) (x : Context) :
    Program (State Site) (Ending String α) := do
  Program.change fun s => { s with rest := s.rest.start k t }
  Program.converse (Deed.perform k x) task

/-- What an execution comes to. -/
abbrev Conclusion (α : Type) : Type := Ending ExecutionError (TaskResult α)

/-- An execution on a context of its own, whose chain has its number. -/
def execution (k : Nat) (holder : String) (t : Terms) (task : Task α) :
    Program (State Site) (Conclusion α) :=
  execute calls (.stored holder) ⟨k, []⟩ t (task.program k t)

/-! ### Parts of an execution -/

/-- The context of the task. -/
def inside (k : Nat) (n : String) : Context := ⟨k, [⟨0, n⟩]⟩

/-- What follows the task. -/
def afterTask (x : Context) (ending : Ending String α) : Program (State Site) (Conclusion α) := do
  let released ← x.release calls
  pure (ending.afterRelease released)

/-- The rest of a task, and what follows it. -/
def goOn (k : Nat) (x : Context) (task : Task α) : Program (State Site) (Conclusion α) :=
  Program.bind ((Program.converse (Deed.perform k x) task).guarded x.leave) (afterTask x)

/-- All that follows taking the lock. -/
def begin (k : Nat) (h : Handle) (t : Terms) (task : Task α) :
    Program (State Site) (Conclusion α) := do
  let x ← Context.enter ⟨k, []⟩ t.name h
  let ending ← (task.program k t x).guarded x.leave
  let released ← x.release calls
  pure (ending.afterRelease released)

/-! ### Storage calls -/

theorem converse_calls (c : Call) (next : c.Answer → Talk α) (s : State Site) :
    Program.converse calls (.ask (.store c) next) s =
      ⟨s, .paused (fun s => Program.converse calls (next (.ok (s.serve c).1)) (s.serve c).2) id⟩ := by
  show (calls (.store c) s).bind _ = _
  rw [show calls (.store c) s = ⟨s, .paused (fun s => ⟨(s.serve c).2, .done (.ok (s.serve c).1)⟩) id⟩
    from rfl, Turn.paused_bind]
  simp only [Turn.done_bind]

/-! ### What is left of an execution -/

/-- What is left of an execution before the record is claimed. -/
def claimingRoutine (k : Nat) (holder : String) (t : Terms) (task : Task α) :
    Routine (State Site) (Conclusion α) :=
  .paused (fun s =>
    let (taken, s) := s.serve ⟨.claim, holder, t⟩
    if taken then begin k (.stored ⟨holder, t, true⟩) t task s
    else ⟨s, .done (.value .notExecuted)⟩) id

/-- What is left of an execution before the record is created. -/
def insertingRoutine (k : Nat) (holder : String) (t : Terms) (task : Task α) :
    Routine (State Site) (Conclusion α) :=
  .paused (fun s =>
    let (taken, s) := s.serve ⟨.insert, holder, t⟩
    if taken then begin k (.stored ⟨holder, t, true⟩) t task s
    else ⟨s, claimingRoutine k holder t task⟩) id

/-- Puts something into the slot of an execution. -/
def State.fill (k : Nat) (x : Slot) (s : State Site) : State Site :=
  s.onChain k (·.fill 0 x)

/-- A task notes the terms of the lease that it has. -/
def State.noteActive (k : Nat) (n : String) (s : State Site) : State Site :=
  { s with rest := s.rest.note k ((inside k n).activeTerms s.chains) }

/-- What is put into the slot when an extension was answered. -/
def slotAfter (l : Lease) (t : Terms) : Extension → Slot
  | .extended => .held (.stored { l with terms := t })
  | .lost => .lost
  | .unsupported => .held (.stored l)

/-- What is left of an execution whose task waits. -/
def waitingRoutine (k : Nat) (n : String) (next : State Site → Task α) :
    Routine (State Site) (Conclusion α) :=
  .paused (fun s => goOn k (inside k n) (next s) s) (inside k n).leave

/-- What is left of an execution before the lease of its task is extended. -/
def extendingRoutine (k : Nat) (n : String) (l : Lease) (t : Terms)
    (next : Except LockError Extension → Task α) : Routine (State Site) (Conclusion α) :=
  .paused (fun s => goOn k (inside k n) (next (.ok (s.serve ⟨.extend, l.holder, t⟩).1))
    (((s.serve ⟨.extend, l.holder, t⟩).2.fill k
      (slotAfter l t (s.serve ⟨.extend, l.holder, t⟩).1)).noteActive k n)) (inside k n).leave

/-- What is left of an execution whose task has started an extension that it drops. -/
def droppingRoutine (k : Nat) (n : String)
    (next : Option (Except LockError Extension) → Task α) : Routine (State Site) (Conclusion α) :=
  .paused (fun s => goOn k (inside k n) (next none) (s.noteActive k n)) (inside k n).leave

/-- What is left of an execution before its lease is given back. -/
def releasingRoutine (l : Lease) (ending : Ending String α) :
    Routine (State Site) (Conclusion α) :=
  .paused (fun s => ⟨(s.serve ⟨.release, l.holder, l.terms⟩).2,
    .done (ending.afterRelease (.ok ()))⟩) id

theorem start_execution (k : Nat) (holder : String) (t : Terms) (task : Task α) (s : State Site) :
    execution k holder t task s = ⟨s, insertingRoutine k holder t task⟩ := by
  rw [execution, execute, if_neg (by simp [Context.contains])]
  rw [Program.look_bind]
  simp only [Provider.acquire, Lease.acquire, Lease.secure, Dialog.map, Lease.Talk.lift, Dialog.via]
  rw [Program.bind_apply, converse_calls, Turn.paused_bind]
  rw [insertingRoutine]
  congr 2
  funext s
  rcases s.serve ⟨.insert, holder, t⟩ with ⟨_ | _, s⟩
  · simp only [Dialog.map, Dialog.via]
    rw [converse_calls, Turn.paused_bind]
    simp only [Bool.false_eq_true, if_false, claimingRoutine]
    congr 2
    funext s
    rcases s.serve ⟨.claim, holder, t⟩ with ⟨_ | _, s⟩ <;> exact Turn.done_bind ..
  · exact Turn.done_bind ..

/-! ### What a task does until its next turn -/

section Steps

variable {k : Nat} {n : String} {s s' : State Site} {l : Lease} {d e : Span} {t : Terms}

/-- The execution has an entry with this in its slot. -/
def Holds (s : State Site) (k : Nat) (n : String) (x : Slot) : Prop :=
  (s.chains.chain k).entries.get? 0 = some ⟨n, x⟩

theorem goOn_of_done {x : Context} {deed : Deed} {next : deed.Answer → Task α} {a : deed.Answer}
    (h : Deed.perform k x deed s = ⟨s', .done a⟩) :
    goOn k x (.ask deed next) s = goOn k x (next a) s' := by
  show Turn.bind (Turn.guarded x.leave (Turn.bind (Deed.perform k x deed s) _)) _ = _
  rw [h, Turn.done_bind]
  rfl

theorem goOn_of_paused {x : Context} {deed : Deed} {next : deed.Answer → Task α}
    {f : State Site → State Site} {g : State Site → deed.Answer}
    (h : Deed.perform k x deed s = ⟨s', .paused (fun s => ⟨f s, .done (g s)⟩) id⟩) :
    goOn k x (.ask deed next) s =
      ⟨s', .paused (fun s => goOn k x (next (g s)) (f s)) x.leave⟩ := by
  show Turn.bind (Turn.guarded x.leave (Turn.bind (Deed.perform k x deed s) _)) _ = _
  rw [h, Turn.paused_bind, Turn.guarded_paused, Turn.paused_bind]
  simp only [Turn.done_bind]
  rfl

theorem perform_wait (x : Context) :
    Deed.perform k x .wait s = ⟨s, .paused (fun s => ⟨s, .done s⟩) id⟩ := by
  show Turn.bind ⟨s, .paused (fun s => ⟨s, .done ()⟩) id⟩ _ = _
  rw [Turn.paused_bind]
  simp only [Turn.done_bind]
  rfl

/-- Starting an extension whose terms are in order. -/
theorem extendActive_held (h : Holds s k n (.held (.stored l))) (hv : l.valid = true)
    (ht : Terms.make s.now l.terms.name d e = .ok t) :
    (inside k n).extendActive calls d e s = ⟨s.fill k .inFlight, .paused (fun s =>
      ⟨(s.serve ⟨.extend, l.holder, t⟩).2.fill k
          (slotAfter l t (s.serve ⟨.extend, l.holder, t⟩).1),
        .done (.ok (s.serve ⟨.extend, l.holder, t⟩).1)⟩) id⟩ := by
  simp only [Context.extendActive, inside]
  rw [Program.look_bind, show (s.chains.chain k).entries.get? 0 = some ⟨n, .held (.stored l)⟩ from h]
  simp only []
  rw [Program.change_bind, Program.look_bind]
  rw [show (s.onChain k fun x => x.fill 0 Slot.inFlight).now = s.now from rfl]
  simp only [Handle.extend, Lease.extend, hv, if_true, ht, Lease.Talk.lift, Dialog.via, Dialog.map]
  rw [Program.bind_apply, converse_calls, Turn.paused_bind]
  congr 2
  funext s
  have hnew : slotAfter l t .extended = .held (.stored ⟨l.holder, t, true⟩) := by
    rw [slotAfter, hv]
  rcases s.serve ⟨.extend, l.holder, t⟩ with ⟨_ | _ | _, s⟩
  · rw [hnew]
    exact Turn.done_bind ..
  · exact Turn.done_bind ..
  · exact Turn.done_bind ..

/-- Starting an extension whose terms are not in order. -/
theorem extendActive_refused (h : Holds s k n (.held (.stored l))) (hv : l.valid = true)
    {f : TermsFault} (ht : Terms.make s.now l.terms.name d e = .error f) :
    (inside k n).extendActive calls d e s =
      ⟨(s.fill k .inFlight).fill k (.held (.stored l)), .done (.error (.terms f))⟩ := by
  simp only [Context.extendActive, inside]
  rw [Program.look_bind, show (s.chains.chain k).entries.get? 0 = some ⟨n, .held (.stored l)⟩ from h]
  simp only []
  rw [Program.change_bind, Program.look_bind]
  rw [show (s.onChain k fun x => x.fill 0 Slot.inFlight).now = s.now from rfl]
  simp only [Handle.extend, Lease.extend, hv, if_true, ht, Lease.Talk.lift, Dialog.via, Dialog.map]
  exact Turn.done_bind ..

theorem extendActive_lost (h : Holds s k n .lost) :
    (inside k n).extendActive calls d e s = ⟨s, .done (.ok .lost)⟩ := by
  simp only [Context.extendActive, inside]
  rw [Program.look_bind, show (s.chains.chain k).entries.get? 0 = some ⟨n, .lost⟩ from h]
  rfl

theorem extendActive_inFlight (h : Holds s k n .inFlight) :
    (inside k n).extendActive calls d e s = ⟨s, .done (.error (.extensionInFlight n))⟩ := by
  simp only [Context.extendActive, inside]
  rw [Program.look_bind, show (s.chains.chain k).entries.get? 0 = some ⟨n, .inFlight⟩ from h]
  rfl

/-- An extension that goes on after a turn. -/
theorem perform_extend_of_paused {f : State Site → State Site}
    {g : State Site → Except LockError Extension}
    (h : (inside k n).extendActive calls d e s =
      ⟨s', .paused (fun s => ⟨f s, .done (g s)⟩) id⟩) :
    Deed.perform k (inside k n) (.extend d e) s =
      ⟨s', .paused (fun s => ⟨(f s).noteActive k n, .done (g s)⟩) id⟩ := by
  show Turn.bind ((inside k n).extendActive calls d e s) _ = _
  rw [h, Turn.paused_bind]
  simp only [Turn.done_bind]
  rfl

theorem perform_extend_of_done {r : Except LockError Extension}
    (h : (inside k n).extendActive calls d e s = ⟨s', .done r⟩) :
    Deed.perform k (inside k n) (.extend d e) s = ⟨s'.noteActive k n, .done r⟩ := by
  show Turn.bind ((inside k n).extendActive calls d e s) _ = _
  rw [h, Turn.done_bind]
  rfl

/-- An extension that would go on after a turn, but is dropped then. -/
theorem perform_drop_of_paused {f : State Site → State Site}
    {g : State Site → Except LockError Extension}
    (h : (inside k n).extendActive calls d e s =
      ⟨s', .paused (fun s => ⟨f s, .done (g s)⟩) id⟩) :
    Deed.perform k (inside k n) (.drop d e) s =
      ⟨s', .paused (fun s => ⟨s.noteActive k n, .done none⟩) id⟩ := by
  show Turn.bind (Turn.limit ((inside k n).extendActive calls d e s) 0) _ = _
  rw [h, Turn.limit_paused, Turn.paused_bind]
  simp only [Turn.done_bind]
  rfl

theorem perform_drop_of_done {r : Except LockError Extension}
    (h : (inside k n).extendActive calls d e s = ⟨s', .done r⟩) :
    Deed.perform k (inside k n) (.drop d e) s = ⟨s'.noteActive k n, .done (some r)⟩ := by
  show Turn.bind (Turn.limit ((inside k n).extendActive calls d e s) 0) _ = _
  rw [h, Turn.limit_done, Turn.done_bind]
  rfl

/-- Giving back the lease that is in the slot. -/
theorem afterTask_held (h : Holds s k n (.held (.stored l))) (hv : l.valid = true)
    (ending : Ending String α) : afterTask (inside k n) ending s =
      ⟨(inside k n).leave s, releasingRoutine l ending⟩ := by
  have hslot : (s.chains.chain k).slot? 0 = some (.held (.stored l)) := by
    rw [Chain.slot?, show (s.chains.chain k).entries.get? 0 = some ⟨n, .held (.stored l)⟩ from h]
    rfl
  show Turn.bind (Context.release calls (inside k n) s) _ = _
  simp only [Context.release, inside]
  rw [Program.look_bind, hslot]
  simp only []
  rw [Program.change_bind, Program.look_bind]
  simp only [Handle.release, Lease.release, hv, if_true, Lease.Talk.lift, Dialog.via, Dialog.map]
  rw [Program.bind_apply, converse_calls, Turn.paused_bind, Turn.paused_bind]
  congr 2

/-- There is nothing to give back. -/
theorem afterTask_empty {x : Slot} (hs : Holds s k n x) (hx : ∀ h, x ≠ .held h)
    (ending : Ending String α) : afterTask (inside k n) ending s =
      ⟨(inside k n).leave s, .done (ending.afterRelease (.ok ()))⟩ := by
  have hslot : (s.chains.chain k).slot? 0 = some x := by
    rw [Chain.slot?, show (s.chains.chain k).entries.get? 0 = some ⟨n, x⟩ from hs]
    rfl
  show Turn.bind (Context.release calls (inside k n) s) _ = _
  simp only [Context.release, inside]
  rw [Program.look_bind, hslot]
  cases x with
  | held h => exact (hx h rfl).elim
  | lost | inFlight =>
    simp only []
    rw [Program.change_bind]
    exact Turn.done_bind ..

/-- The start of a task on a fresh chain. -/
def State.begun (k : Nat) (h : Handle) (t : Terms) (s : State Site) : State Site :=
  { s.onChain k fun _ => ⟨1, [(0, ⟨t.name, .held h⟩)]⟩ with rest := s.rest.start k t }

theorem begin_eq {h : Handle} (hc : s.chains.chain k = {}) (task : Task α) :
    begin k h t task s = goOn k (inside k t.name) task (s.begun k h t) := by
  have henter : Context.enter ⟨k, []⟩ t.name h s =
      ⟨s.onChain k fun _ => ⟨1, [(0, ⟨t.name, .held h⟩)]⟩, .done (inside k t.name)⟩ := by
    simp only [Context.enter, Program.step, hc]
    rfl
  rw [begin, Program.bind_apply, henter, Turn.done_bind, Program.bind_apply]
  rfl

end Steps

end LeaseLock
