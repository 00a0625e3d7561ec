import LeaseLock.Proofs.Executions
import LeaseLock.Proofs.Crew

/-!
# The storage calls of an execution

Which calls one execution makes at a storage service, in which order, and on which terms, whatever
the service answers and whatever its task does.

## The model

The service is anybody's guess: its answer to a call may be any, and depend on everything. The task
waits and extends its lease as often as it likes, one extension after the other, and what it does
next may depend on all that it has seen. Whenever the execution waits, others may change whatever
they like (the clock, the chain with the entries of other executions, the rest of the world); only
the entry of this execution is its own (`Considerate`). What others do is one function of the state,
so it may depend on how often they had a turn.

For the sake of statements the calls are recorded with their answers, and the task notes the number
of its entry when it starts. The execution does not read that.

## What is proved

`calls_in_order`: the record is created, and claimed exactly if that was answered in the negative.
If neither was answered in the affirmative, that is all, and the task does not run. Else the calls of
the extensions follow, as far as they get to the service (`Proceeds`); then the lease is given back
once, on the terms of the last extension that succeeded, or not at all if one found it lost. All
that is done when the execution ends, and the failure of a task is reported rather than that of the
release (`Concludes`).
-/

namespace LeaseLock

/-! ### Running among others -/

section Among

variable {σ α β : Type}

mutual

/-- Gives all turns to the routine until it ends; others do something before each of them. -/
def Routine.among (others : σ → σ) : Routine σ α → σ → α × σ
  | .done a, s => (a, s)
  | .paused resume _, s => (resume (others s)).among others

/-- Gives all further turns to the rest until it ends. -/
def Turn.among (others : σ → σ) : Turn σ α → α × σ
  | ⟨s, r⟩ => r.among others s

end

/-- Gives all turns to the program until it ends; others do something in between. -/
def Program.among (others : σ → σ) (p : Program σ α) (s : σ) : α × σ := (p s).among others

variable {others : σ → σ}

mutual

theorem Routine.among_bind (r : Routine σ α) (f : α → Program σ β) (s : σ) :
    (r.bind f s).among others = (f (r.among others s).1).among others (r.among others s).2 := by
  match r with
  | .done a => simp only [Routine.bind, Routine.among]; rfl
  | .paused resume abandon =>
    simp only [Routine.bind, Turn.among, Routine.among]
    exact Turn.among_bind (resume (others s)) f

theorem Turn.among_bind (u : Turn σ α) (f : α → Program σ β) :
    (u.bind f).among others = (f (u.among others).1).among others (u.among others).2 := by
  match u with
  | ⟨s, r⟩ =>
    simp only [Turn.bind, Turn.among]
    exact Routine.among_bind r f s

end

mutual

theorem Routine.among_guarded (r : Routine σ α) (cleanup : σ → σ) (s : σ) :
    (r.guarded cleanup).among others s = r.among others s := by
  match r with
  | .done a => simp only [Routine.guarded]
  | .paused resume abandon =>
    simp only [Routine.guarded, Routine.among]
    exact Turn.among_guarded (resume (others s)) cleanup

theorem Turn.among_guarded (u : Turn σ α) (cleanup : σ → σ) :
    (u.guarded cleanup).among others = u.among others := by
  match u with
  | ⟨s, r⟩ =>
    simp only [Turn.guarded, Turn.among]
    exact Routine.among_guarded r cleanup s

end

namespace Program

theorem among_bind (p : Program σ α) (f : α → Program σ β) (s : σ) :
    (p >>= f).among others s = (f (p.among others s).1).among others (p.among others s).2 :=
  Turn.among_bind (p s) f

/-- Goes on with the result that a program has. -/
theorem among_bind_of {p : Program σ α} {a : α} {s s' : σ} (h : p.among others s = (a, s'))
    (f : α → Program σ β) : (p >>= f).among others s = (f a).among others s' := by
  rw [among_bind, h]

theorem among_guarded (p : Program σ α) (cleanup : σ → σ) (s : σ) :
    (p.guarded cleanup).among others s = p.among others s := Turn.among_guarded (p s) cleanup

@[simp] theorem among_pure (a : α) (s : σ) :
    (Pure.pure a : Program σ α).among others s = (a, s) := by
  simp [Program.among, Turn.among, Routine.among]

@[simp] theorem among_step (f : σ → α × σ) (s : σ) : (Program.step f).among others s = f s := by
  simp [Program.among, Program.step, Turn.among, Routine.among]

@[simp] theorem among_look (f : σ → α) (s : σ) : (Program.look f).among others s = (f s, s) :=
  among_step _ s

@[simp] theorem among_change (f : σ → σ) (s : σ) : (Program.change f).among others s = ((), f s) :=
  among_step _ s

@[simp] theorem among_pause (s : σ) :
    (Program.pause : Program σ Unit).among others s = ((), others s) := by
  simp [Program.among, Program.pause, Turn.among, Routine.among]

end Program

end Among

/-! ### The desk of an execution -/

/-- A storage call and its answer. -/
abbrev Exchange : Type := (c : Call) × c.Answer

/-- What there is beside the clock and the chains. -/
structure Desk (ω : Type) where
  /-- The storage calls of the execution with their answers, the last one first. -/
  exchanges : List Exchange := []
  /-- The number of its entry, once its task has started. -/
  entry : Option Nat := none
  /-- All else. -/
  world : ω

/-- The answers of a storage service. -/
abbrev Replies (ω : Type) : Type := (c : Call) → State (Desk ω) → c.Answer

variable {ω α : Type}

/-- Records a call with its answer. -/
def State.recording (e : Exchange) (s : State (Desk ω)) : State (Desk ω) :=
  { s with rest := { s.rest with exchanges := e :: s.rest.exchanges } }

/-- The service: a call waits for a turn, and is answered then. -/
def recorded (replies : Replies ω) : Service (Desk ω)
  | .store c => do
    Program.pause
    Program.step fun s => (replies c s, s.recording ⟨c, replies c s⟩)
  | .send _ => pure .nil

/-- What the task does: it waits, or extends its lease. -/
inductive Chore where
  /-- Waits for a turn, and looks around then. -/
  | wait
  /-- Extends its lease. -/
  | extend (atMostFor atLeastFor : Span)

/-- What the task learns. -/
abbrev Chore.Answer (ω : Type) : Chore → Type
  | wait => State (Desk ω)
  | extend _ _ => Except LockError Extension

/-- A task: what it does, and how it ends. -/
abbrev Errand (ω α : Type) : Type := Dialog Chore (Chore.Answer ω) (Ending String α)

/-- Does what the task does, in its context. -/
def Chore.perform (replies : Replies ω) (x : Context) :
    (c : Chore) → Program (State (Desk ω)) (c.Answer ω)
  | wait => do
    Program.pause
    Program.look id
  | extend d e => x.extendActive (recorded replies) d e

/-- Notes the number of the entry. -/
def State.entering (id : Option Nat) (s : State (Desk ω)) : State (Desk ω) :=
  { s with rest := { s.rest with entry := id } }

/-- The program of the task, which notes the number of its entry first. -/
def Errand.program (replies : Replies ω) (task : Errand ω α) (x : Context) :
    Program (State (Desk ω)) (Ending String α) := do
  Program.change (State.entering (x.scopes.head?.map Scope.id))
  Program.converse (Chore.perform replies x) task

/-- Others leave alone what is the execution's own: its record of calls and, on the chain of its
context, its entry. -/
structure Considerate (n : Nat) (others : State (Desk ω) → State (Desk ω)) : Prop where
  exchanges : ∀ s, (others s).rest.exchanges = s.rest.exchanges
  entry : ∀ s, (others s).rest.entry = s.rest.entry
  slot : ∀ s id, s.rest.entry = some id →
    ((others s).chains.chain n).entries.get? id = (s.chains.chain n).entries.get? id

/-! ### What is expected -/

/-- The calls of taking a lock, and what they come to. -/
inductive Takes (holder : String) (t : Terms) : List Exchange → Except LockError Bool → Prop where
  /-- The record is created. -/
  | created : Takes holder t [⟨⟨.insert, holder, t⟩, .ok true⟩] (.ok true)
  /-- The call to create it fails. -/
  | failed (er : LockError) : Takes holder t [⟨⟨.insert, holder, t⟩, .error er⟩] (.error er)
  /-- There is a record, and it is claimed or not. -/
  | claimed (a : Except LockError Bool) :
      Takes holder t [⟨⟨.insert, holder, t⟩, .ok false⟩, ⟨⟨.claim, holder, t⟩, a⟩] a

/-- The new terms, if this is an extension that succeeded. -/
def Exchange.granted : Exchange → Option Terms
  | ⟨⟨.extend, _, t⟩, .ok .extended⟩ => some t
  | _ => none

/-- This is an extension that found the lease lost. -/
def Exchange.isLost : Exchange → Bool
  | ⟨⟨.extend, _, _⟩, .ok .lost⟩ => true
  | _ => false

/-- The terms of the lease after some extensions, if it is still held: those of the last extension
that succeeded, or else the ones on which it was taken. -/
def termsAfter (t : Terms) (es : List Exchange) : Option Terms :=
  if es.any Exchange.isLost then none else some ((es.filterMap Exchange.granted).getLast?.getD t)

/-- The call of the release, which answers `r`: one if the lease is held, none if it is lost. -/
def releaseCalls (holder : String) (r : Except LockError Unit) : Option Terms → List Exchange
  | some t => [⟨⟨.release, holder, t⟩, r⟩]
  | none => []

/-- A task goes its way to an ending, with these storage calls; `none` is a lease that is lost. An
extension makes one call, for the holder of the lease and on terms as of the reading of some clock;
it makes none if these are not in order, or the lease is lost. -/
inductive Proceeds (holder : String) : Option Terms → Errand ω α → List Exchange → Ending String α →
    Prop where
  /-- The task ends. -/
  | done (lease : Option Terms) (ending : Ending String α) :
      Proceeds holder lease (.done ending) [] ending
  /-- It waits. -/
  | wait (s : State (Desk ω)) {lease : Option Terms} {next : State (Desk ω) → Errand ω α}
      {es : List Exchange} {ending : Ending String α}
      (h : Proceeds holder lease (next s) es ending) :
      Proceeds holder lease (.ask .wait next) es ending
  /-- It extends its lease. -/
  | call (now : Instant) {d e : Span} {t t' : Terms} (a : Except LockError Extension)
      {next : Except LockError Extension → Errand ω α} {es : List Exchange}
      {ending : Ending String α} (ht : Terms.make now t.name d e = .ok t')
      (h : Proceeds holder (termsAfter t [⟨⟨.extend, holder, t'⟩, a⟩]) (next a) es ending) :
      Proceeds holder (some t) (.ask (.extend d e) next) (⟨⟨.extend, holder, t'⟩, a⟩ :: es) ending
  /-- The new terms are not in order. -/
  | refused (now : Instant) {d e : Span} {t : Terms} {f : TermsFault}
      {next : Except LockError Extension → Errand ω α} {es : List Exchange}
      {ending : Ending String α} (ht : Terms.make now t.name d e = .error f)
      (h : Proceeds holder (some t) (next (.error (.terms f))) es ending) :
      Proceeds holder (some t) (.ask (.extend d e) next) es ending
  /-- The lease is lost already. -/
  | gone {d e : Span} {next : Except LockError Extension → Errand ω α} {es : List Exchange}
      {ending : Ending String α} (h : Proceeds holder none (next (.ok .lost)) es ending) :
      Proceeds holder none (.ask (.extend d e) next) es ending

/-- What an execution comes to, given the ending of its task and what the release came to. -/
inductive Concludes : Ending String α → Except LockError Unit → Conclusion α → Prop where
  /-- The task has a value. -/
  | executed (a : α) : Concludes (.value a) (.ok ()) (.value (.executed a))
  /-- The task has a value, but the lease could not be given back. -/
  | notReleased (a : α) (er : LockError) : Concludes (.value a) (.error er) (.failure (.lock er))
  /-- The task fails, and that is what is reported in any case. -/
  | failed (text : String) (r : Except LockError Unit) :
      Concludes (.failure text) r (.failure (.task text))
  /-- The task panics, and the panic goes on in any case. -/
  | panicked (text : String) (r : Except LockError Unit) : Concludes (.panic text) r (.panic text)

/-- The storage calls of an execution are in order, and so is what it comes to. -/
inductive InOrder (holder : String) (t : Terms) (task : Errand ω α) (w : Desk ω) :
    Conclusion α → Prop where
  /-- A call to take the lock fails, and the task does not start. -/
  | failed (er : LockError) (h : Takes holder t w.exchanges.reverse (.error er))
      (hw : w.entry = none) : InOrder holder t task w
        (if er.isConflict then .value .notExecuted else .failure (.lock er))
  /-- The lock cannot be taken, and the task does not start. -/
  | refused (h : Takes holder t w.exchanges.reverse (.ok false)) (hw : w.entry = none) :
      InOrder holder t task w (.value .notExecuted)
  /-- The lock is taken, the task goes its way, and the lease is given back if it is held. -/
  | executed (es fs : List Exchange) (ending : Ending String α) (r : Except LockError Unit)
      (c : Conclusion α) (ht : Takes holder t es (.ok true)) (hw : w.entry.isSome = true)
      (hp : Proceeds holder (some t) task fs ending)
      (hes : w.exchanges.reverse = es ++ fs ++ releaseCalls holder r (termsAfter t fs))
      (hr : termsAfter t fs = none → r = .ok ()) (hc : Concludes ending r c) :
      InOrder holder t task w c

theorem concludes_afterRelease (ending : Ending String α) (r : Except LockError Unit) :
    Concludes ending r (ending.afterRelease r) := by
  cases ending with
  | value a => cases r with
    | ok u => exact .executed a
    | error er => exact .notReleased a er
  | failure text => exact .failed text r
  | panic text => exact .panicked text r

/-! ### Terms after extensions -/

section After

variable {t : Terms}

/-- The first extension leaves a lease for the other ones, or none of them gets to the service. -/
theorem termsAfter_cons (e : Exchange) (es : List Exchange) :
    termsAfter t (e :: es) = (termsAfter t [e]).bind fun u => termsAfter u es := by
  unfold termsAfter
  rw [List.any_cons, List.any_cons, List.any_nil, Bool.or_false, List.filterMap_cons,
    List.filterMap_cons, List.filterMap_nil]
  cases hl : e.isLost with
  | true => rfl
  | false =>
    rw [Bool.false_or]
    cases hg : e.granted with
    | none => rfl
    | some u =>
      show (if es.any Exchange.isLost then none
        else some ((u :: es.filterMap Exchange.granted).getLast?.getD t)) = _
      rw [List.getLast?_cons]
      rfl

end After

/-! ### One stretch of the execution after the other -/

section Stretches

variable {replies : Replies ω} {others : State (Desk ω) → State (Desk ω)} {s : State (Desk ω)}
  {n id : Nat} {name holder : String} {scopes : List Scope} {t : Terms} {lease : Option Terms}

theorem among_done {β : Type} (b : β) (s : State (Desk ω)) :
    (Program.converse (recorded replies) (.done b) : Program (State (Desk ω)) β).among others s =
      (b, s) := Program.among_pure b s

theorem among_call (c : Call) (next : c.Answer → Talk α) (s : State (Desk ω)) :
    (Program.converse (recorded replies) (.ask (.store c) next)).among others s =
      (Program.converse (recorded replies) (next (replies c (others s)))).among others
        ((others s).recording ⟨c, replies c (others s)⟩) := by
  show (recorded replies (.store c) >>= fun a =>
    Program.converse (recorded replies) (next a)).among others s = _
  rw [Program.among_bind]
  have hcall : (recorded replies (.store c)).among others s =
      (replies c (others s), (others s).recording ⟨c, replies c (others s)⟩) := by
    rw [recorded, Program.among_bind, Program.among_pause, Program.among_step]
  rw [hcall]

/-- What others do is no concern of the records. -/
theorem Considerate.recording (hc : Considerate n others) (e : Exchange) (s : State (Desk ω)) :
    ((others s).recording e).rest.exchanges = e :: s.rest.exchanges ∧
      ((others s).recording e).rest.entry = s.rest.entry :=
  ⟨congrArg (e :: ·) (hc.exchanges s), hc.entry s⟩

variable (replies holder t) in
/-- Taking the lock makes its calls, and the task has not started by then. -/
theorem among_acquire (hc : Considerate n others) (now : Instant) (s : State (Desk ω)) :
    ∃ es a s', (Program.converse (recorded replies)
        ((Provider.stored holder).acquire now t)).among others s =
        ((Lease.taken holder t a).map (·.map Handle.stored), s') ∧ Takes holder t es a ∧
      s'.rest.exchanges = es.reverse ++ s.rest.exchanges ∧ s'.rest.entry = s.rest.entry := by
  simp only [Provider.acquire, Lease.acquire, Lease.secure, Dialog.map, Lease.Talk.lift, Dialog.via]
  rw [among_call]
  obtain ⟨hex, hen⟩ := hc.recording ⟨_, replies ⟨.insert, holder, t⟩ (others s)⟩ s
  generalize (others s).recording ⟨_, replies ⟨.insert, holder, t⟩ (others s)⟩ = s₁ at hex hen ⊢
  generalize replies ⟨.insert, holder, t⟩ (others s) = a at hex ⊢
  rcases a with er | _ | _
  · exact ⟨_, _, s₁, Program.among_pure _ s₁, .failed er, hex, hen⟩
  · simp only [Dialog.map, Dialog.via]
    rw [among_call]
    obtain ⟨hex', hen'⟩ := hc.recording ⟨_, replies ⟨.claim, holder, t⟩ (others s₁)⟩ s₁
    generalize (others s₁).recording ⟨_, replies ⟨.claim, holder, t⟩ (others s₁)⟩ = s₂ at hex' hen' ⊢
    generalize replies ⟨.claim, holder, t⟩ (others s₁) = b at hex' ⊢
    refine ⟨_, b, s₂, ?_, .claimed b, ?_, hen'.trans hen⟩
    · rcases b with er | _ | _ <;> exact Program.among_pure _ s₂
    · rw [hex', hex]
      rfl
  · exact ⟨_, _, s₁, Program.among_pure _ s₁, .created, hex, hen⟩

/-- The slot of a lease on these terms, or of one that is lost. -/
def slotOf (holder : String) : Option Terms → Slot
  | some t => .held (.stored ⟨holder, t, true⟩)
  | none => .lost

/-- The execution has an entry of its own, with this in its slot. -/
structure Inside (n id : Nat) (name : String) (x : Slot) (s : State (Desk ω)) : Prop where
  own : s.rest.entry = some id
  slot : (s.chains.chain n).entries.get? id = some ⟨name, x⟩

theorem Inside.spared {x : Slot} (h : Inside n id name x s) (hc : Considerate n others) :
    Inside n id name x (others s) :=
  ⟨(hc.entry s).trans h.own, (hc.slot s id h.own).trans h.slot⟩

theorem Inside.fill {x : Slot} (h : Inside n id name x s) (y : Slot) :
    Inside n id name y (s.onChain n (·.fill id y)) := by
  refine ⟨h.own, ?_⟩
  rw [chain_onChain, if_pos rfl, Chain.fill, h.slot]
  exact Registry.get?_put_self _ _ _

variable (replies scopes) in
/-- An extension whose terms are in order makes one call, and has the lease accordingly. -/
theorem among_extendActive_call (hc : Considerate n others)
    (h : Inside n id name (slotOf holder (some t)) s) {d e : Span} {t' : Terms}
    (ht : Terms.make s.now t.name d e = .ok t') :
    ∃ a s', (Context.extendActive (recorded replies) ⟨n, ⟨id, name⟩ :: scopes⟩ d e).among others s =
        (a, s') ∧
      s'.rest.exchanges = ⟨⟨.extend, holder, t'⟩, a⟩ :: s.rest.exchanges ∧
      Inside n id name (slotOf holder (termsAfter t [⟨⟨.extend, holder, t'⟩, a⟩])) s' := by
  simp only [Context.extendActive]
  rw [Program.among_bind, Program.among_look, h.slot]
  simp only [slotOf]
  rw [Program.among_bind, Program.among_change, Program.among_bind, Program.among_look]
  have hnow : (s.onChain n (·.fill id .inFlight)).now = s.now := rfl
  have hfill := h.fill .inFlight
  simp only [hnow, Handle.extend, Lease.extend, if_true, ht, Lease.Talk.lift, Dialog.via, Dialog.map]
  rw [Program.among_bind, among_call]
  obtain ⟨hex, -⟩ := hc.recording ⟨_, replies ⟨.extend, holder, t'⟩ (others (s.onChain n _))⟩
    (s.onChain n (·.fill id .inFlight))
  have hin : Inside n id name .inFlight ((others (s.onChain n (·.fill id .inFlight))).recording
      ⟨_, replies ⟨.extend, holder, t'⟩ (others (s.onChain n (·.fill id .inFlight)))⟩) :=
    ⟨(hfill.spared hc).own, (hfill.spared hc).slot⟩
  generalize (others (s.onChain n (·.fill id .inFlight))).recording _ = s₂ at hex hin ⊢
  generalize replies ⟨.extend, holder, t'⟩ _ = a at hex ⊢
  rcases a with er | _ | _ | _
  all_goals
    simp only [Dialog.map, Dialog.via, among_done, Program.among_bind, Program.among_change]
    exact ⟨_, _, Program.among_pure _ _, hex, hin.fill _⟩

variable (replies others scopes) in
/-- An extension whose terms are not in order makes no call, and leaves the lease as it is. -/
theorem among_extendActive_refused (h : Inside n id name (slotOf holder (some t)) s) {d e : Span}
    {f : TermsFault} (ht : Terms.make s.now t.name d e = .error f) :
    ∃ s', (Context.extendActive (recorded replies) ⟨n, ⟨id, name⟩ :: scopes⟩ d e).among others s =
        (.error (.terms f), s') ∧
      s'.rest.exchanges = s.rest.exchanges ∧ Inside n id name (slotOf holder (some t)) s' := by
  simp only [Context.extendActive]
  rw [Program.among_bind, Program.among_look, h.slot]
  simp only [slotOf]
  rw [Program.among_bind, Program.among_change, Program.among_bind, Program.among_look]
  have hnow : (s.onChain n (·.fill id .inFlight)).now = s.now := rfl
  simp only [hnow, Handle.extend, Lease.extend, if_true, ht, Lease.Talk.lift, Dialog.via, Dialog.map]
  simp only [among_done, Program.among_bind, Program.among_change]
  exact ⟨_, Program.among_pure _ _, rfl, (h.fill .inFlight).fill _⟩

/-- An extension of a lease that is lost makes no call. -/
theorem among_extendActive_gone (h : Inside n id name (slotOf holder none) s) (d e : Span) :
    (Context.extendActive (recorded replies) ⟨n, ⟨id, name⟩ :: scopes⟩ d e).among others s =
      (.ok .lost, s) := by
  simp only [Context.extendActive]
  rw [Program.among_bind, Program.among_look, h.slot]
  exact Program.among_pure _ s

theorem among_errand {chore : Chore} (x : Context) (next : chore.Answer ω → Errand ω α) :
    (Program.converse (Chore.perform replies x) (.ask chore next)).among others s =
      (Program.converse (Chore.perform replies x)
        (next ((chore.perform replies x).among others s).1)).among others
          ((chore.perform replies x).among others s).2 :=
  Program.among_bind _ _ s

variable (replies scopes) in
/-- **The task** goes its way, and its calls are those of its extensions. -/
theorem among_task (hc : Considerate n others) (task : Errand ω α)
    (h : Inside n id name (slotOf holder lease) s) :
    ∃ es ending s', (Program.converse (Chore.perform replies ⟨n, ⟨id, name⟩ :: scopes⟩) task).among
        others s = (ending, s') ∧
      s'.rest.exchanges = es.reverse ++ s.rest.exchanges ∧ Proceeds holder lease task es ending ∧
      Inside n id name (slotOf holder (lease.bind fun t => termsAfter t es)) s' := by
  induction task generalizing s lease with
  | done ending =>
    refine ⟨[], ending, s, Program.among_pure ending s, rfl, .done lease ending, ?_⟩
    cases lease with
    | none => exact h
    | some t => exact h
  | ask chore next ih =>
    rw [among_errand]
    cases chore with
    | wait =>
      have hw : (Chore.perform replies ⟨n, ⟨id, name⟩ :: scopes⟩ .wait).among others s =
          (others s, others s) := by
        rw [Chore.perform, Program.among_bind, Program.among_pause, Program.among_look]
        rfl
      rw [hw]
      obtain ⟨es, ending, s', hr, hex, hp, hin⟩ := ih (others s) (h.spared hc)
      exact ⟨es, ending, s', hr, hex.trans (by rw [hc.exchanges]), .wait (others s) hp, hin⟩
    | extend d e =>
      simp only [Chore.perform]
      cases lease with
      | none =>
        rw [among_extendActive_gone h d e]
        obtain ⟨es, ending, s', hr, hex, hp, hin⟩ := ih (.ok .lost) h
        exact ⟨es, ending, s', hr, hex, .gone hp, hin⟩
      | some t =>
        cases ht : Terms.make s.now t.name d e with
        | error f =>
          obtain ⟨s₁, hx, hex₁, h₁⟩ := among_extendActive_refused replies others scopes h ht
          rw [hx]
          obtain ⟨es, ending, s', hr, hex, hp, hin⟩ := ih (.error (.terms f)) h₁
          exact ⟨es, ending, s', hr, by rw [hex, hex₁], .refused s.now ht hp, hin⟩
        | ok t' =>
          obtain ⟨a, s₁, hx, hex₁, h₁⟩ := among_extendActive_call replies scopes hc h ht
          rw [hx]
          obtain ⟨es, ending, s', hr, hex, hp, hin⟩ := ih a h₁
          refine ⟨_ :: es, ending, s', hr, ?_, .call s.now a ht hp, ?_⟩
          · rw [hex, hex₁, List.reverse_cons, List.append_assoc]
            rfl
          · rw [Option.bind_some, termsAfter_cons]
            exact hin

variable (replies scopes) in
/-- **The release** makes one call if the lease is held, and none if it is lost. -/
theorem among_release (hc : Considerate n others) (h : Inside n id name (slotOf holder lease) s) :
    ∃ r s', (Context.release (recorded replies) ⟨n, ⟨id, name⟩ :: scopes⟩).among others s = (r, s') ∧
      s'.rest.exchanges = releaseCalls holder r lease ++ s.rest.exchanges ∧
      s'.rest.entry = s.rest.entry ∧ (lease = none → r = .ok ()) := by
  have hslot : (s.chains.chain n).slot? id = some (slotOf holder lease) := by
    rw [Chain.slot?, h.slot]
    rfl
  simp only [Context.release]
  rw [Program.among_bind, Program.among_look, hslot, Program.among_bind, Program.among_change]
  generalize hs : Context.leave ⟨n, ⟨id, name⟩ :: scopes⟩ s = s₁
  have hrest : s₁.rest = s.rest := by
    subst hs
    rfl
  cases lease with
  | none => exact ⟨_, s₁, Program.among_pure _ s₁, by rw [hrest]; rfl, by rw [hrest], fun _ => rfl⟩
  | some t =>
    simp only [slotOf, Handle.release, Lease.release, if_true, Lease.Talk.lift, Dialog.via, Dialog.map]
    rw [Program.among_bind, Program.among_look, Program.among_bind, among_call]
    obtain ⟨hex, hen⟩ := hc.recording ⟨_, replies ⟨.release, holder, t⟩ (others s₁)⟩ s₁
    generalize (others s₁).recording ⟨_, replies ⟨.release, holder, t⟩ (others s₁)⟩ = s₂ at hex hen ⊢
    generalize replies ⟨.release, holder, t⟩ (others s₁) = r at hex ⊢
    refine ⟨r, s₂, ?_, hex.trans (by rw [hrest]; rfl), hen.trans (by rw [hrest]), fun h => ?_⟩
    · rcases r with er | u
      all_goals
        simp only [Dialog.map, Dialog.via, among_done]
        exact Program.among_pure _ s₂
    · cases h

variable (others name) in
/-- Entering a lock makes an entry with the lease in its slot. -/
theorem among_enter (x : Context) (h : Handle) (s : State (Desk ω)) :
    ∃ id s', (x.enter name h).among others s = (x.inside id name, s') ∧
      s'.rest = s.rest ∧
      (s'.chains.chain x.chain).entries.get? id = some ⟨name, .held h⟩ := by
  refine ⟨(s.chains.chain x.chain).nextId, _, Program.among_step _ s, rfl, ?_⟩
  rw [chain_onChain, if_pos rfl]
  exact Registry.get?_put_self _ _ _

variable (replies holder t) in
/-- **All that follows taking the lock**: the task, and its release. -/
theorem among_begin {x : Context} (hc : Considerate x.chain others) (task : Errand ω α)
    (s : State (Desk ω)) :
    ∃ fs ending r s', (do
        let inner ← x.enter t.name (.stored ⟨holder, t, true⟩)
        let ending ← (task.program replies inner).guarded inner.leave
        let released ← inner.release (recorded replies)
        pure (ending.afterRelease released) : Program (State (Desk ω)) (Conclusion α)).among others s =
        (ending.afterRelease r, s') ∧ s'.rest.entry.isSome = true ∧
      Proceeds holder (some t) task fs ending ∧ (termsAfter t fs = none → r = .ok ()) ∧
      s'.rest.exchanges =
        releaseCalls holder r (termsAfter t fs) ++ (fs.reverse ++ s.rest.exchanges) := by
  obtain ⟨id, s₁, henter, hrest, hslot⟩ := among_enter others t.name x
    (.stored ⟨holder, t, true⟩) s
  have hin : Inside x.chain id t.name (slotOf holder (some t)) (s₁.entering (some id)) :=
    ⟨rfl, hslot⟩
  obtain ⟨fs, ending, s₂, htask, hex, hp, hin₂⟩ :=
    among_task replies x.scopes hc task hin
  rw [Option.bind_some] at hin₂
  have hprogram : ((task.program replies (x.inside id t.name)).guarded
      (x.inside id t.name).leave).among others s₁ = (ending, s₂) := by
    rw [Program.among_guarded, Errand.program, Program.among_bind, Program.among_change]
    exact htask
  obtain ⟨r, s₃, hrelease, hex₃, hen₃, hr⟩ :=
    among_release replies x.scopes hc hin₂
  refine ⟨fs, ending, r, s₃, ?_, ?_, hp, hr, ?_⟩
  · rw [Program.among_bind_of henter, Program.among_bind_of hprogram]
    exact (Program.among_bind_of hrelease _).trans (Program.among_pure _ s₃)
  · rw [hen₃, hin₂.own]
    rfl
  · rw [hex₃, hex, show (s₁.entering (some id)).rest.exchanges = s₁.rest.exchanges from rfl, hrest]

/-- Taking the lock comes first; what is left to do depends on what it comes to. -/
theorem among_execute {x : Context} (hx : x.contains t.name = false)
    {a : Except LockError Bool} (task : Errand ω α) {s' : State (Desk ω)}
    (hacq : (Program.converse (recorded replies) ((Provider.stored holder).acquire s.now t)).among
      others s = ((Lease.taken holder t a).map (·.map Handle.stored), s')) :
    (execute (recorded replies) (.stored holder) x t (task.program replies)).among others s =
      (match (Lease.taken holder t a).map (·.map Handle.stored) with
        | .error e => pure (.failure (.lock e))
        | .ok none => pure (.value .notExecuted)
        | .ok (some h) => do
          let inner ← x.enter t.name h
          let ending ← (task.program replies inner).guarded inner.leave
          let released ← inner.release (recorded replies)
          pure (ending.afterRelease released) :
            Program (State (Desk ω)) (Conclusion α)).among others s' := by
  rw [execute, if_neg (by rw [hx]; exact Bool.false_ne_true)]
  simp only [Program.among_bind, Program.among_look]
  rw [hacq]
  rfl

end Stretches

/-- **The storage calls of an execution** are in order: those of taking the lock, then, if it is
taken, those of the extensions of the task, and then the one of the release if the lease is held. -/
theorem calls_in_order (replies : Replies ω) (others : State (Desk ω) → State (Desk ω)) (x : Context)
    (holder : String) (t : Terms) (task : Errand ω α) (s : State (Desk ω))
    (hx : x.contains t.name = false) (hc : Considerate x.chain others)
    (hs : s.rest.exchanges = []) (hs' : s.rest.entry = none) :
    let run := (execute (recorded replies) (.stored holder) x t (task.program replies)).among others s
    InOrder holder t task run.2.rest run.1 := by
  intro run
  suffices h : ∃ c s', run = (c, s') ∧ InOrder holder t task s'.rest c by
    obtain ⟨c, s', hrun, h⟩ := h
    rw [hrun]
    exact h
  obtain ⟨es, a, s₁, hacq, htakes, hex, hen⟩ :=
    among_acquire replies holder t hc s.now s
  rw [hs, List.append_nil] at hex
  have hes : s₁.rest.exchanges.reverse = es := by rw [hex, List.reverse_reverse]
  have hrun := among_execute hx task hacq
  rcases a with er | _ | _
  · refine ⟨if er.isConflict then .value .notExecuted else .failure (.lock er), s₁, ?_,
      .failed er (hes ▸ htakes) (hen.trans hs')⟩
    refine hrun.trans ?_
    by_cases hconflict : er.isConflict = true
    · simp only [Lease.taken, hconflict, if_true]
      exact Program.among_pure _ s₁
    · simp only [Lease.taken, hconflict]
      exact Program.among_pure _ s₁
  · exact ⟨_, s₁, hrun.trans (Program.among_pure _ s₁), .refused (hes ▸ htakes) (hen.trans hs')⟩
  · obtain ⟨fs, ending, r, s', hb, hen', hp, hr, hex'⟩ :=
      among_begin replies holder t hc task s₁
    refine ⟨_, s', hrun.trans hb, .executed es fs ending r _ htakes hen' hp ?_ hr
      (concludes_afterRelease ending r)⟩
    have hrev : (releaseCalls holder r (termsAfter t fs)).reverse =
        releaseCalls holder r (termsAfter t fs) := by
      cases termsAfter t fs <;> rfl
    rw [hex', hex, List.reverse_append, List.reverse_append, List.reverse_reverse,
      List.reverse_reverse, hrev]

/-- Claims locks and extends leases, but does not take them back. -/
def grudging : Replies Unit
  | ⟨.insert, _, _⟩, _ => .ok false
  | ⟨.claim, _, _⟩, _ => .ok true
  | ⟨.extend, _, _⟩, _ => .ok .extended
  | ⟨.release, _, _⟩, _ => .error (.backend .statement)

/-- Half a minute goes by. -/
def halfMinuteOn (s : State (Desk Unit)) : State (Desk Unit) :=
  { s with clock := (s.clock.advance? .halfMinute).getD s.clock }

/-- Waits, extends its lease, and has a value. -/
def lingering : Errand Unit Nat :=
  .ask .wait fun _ => .ask (.extend .halfMinute .zero) fun _ => .done (.value 7)

/-- Before all this nothing has been called. -/
def atFirst : State (Desk Unit) := ⟨⟨.epoch⟩, [], { world := () }⟩

/-- The lease that was extended a minute and a half after it was asked for is the one that is given
back, and that this fails is the result, as the task did not. -/
theorem lingering_in_order :
    let run := (execute (recorded grudging) (.stored "a") ⟨0, []⟩ (.early "job" Terms.job_ne)
      (lingering.program grudging)).among halfMinuteOn atFirst
    InOrder "a" (.early "job" Terms.job_ne) lingering run.2.rest run.1 ∧
      run.2.rest.exchanges.reverse.map (fun e => (e.1.kind, e.1.terms.createdAt.nanos)) =
        [(.insert, 0), (.claim, 0), (.extend, 90 * nanosPerSecond),
          (.release, 90 * nanosPerSecond)] := by
  have hc : Considerate 0 halfMinuteOn := ⟨fun _ => rfl, fun _ => rfl, fun _ _ _ => rfl⟩
  have h := calls_in_order grudging halfMinuteOn ⟨0, []⟩ "a" (.early "job" Terms.job_ne) lingering
    atFirst rfl hc rfl rfl
  exact ⟨h, by decide +kernel⟩

end LeaseLock
