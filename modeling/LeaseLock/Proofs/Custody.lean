import LeaseLock.Proofs.Courses
import LeaseLock.Proofs.ExecutionTurns
import LeaseLock.Proofs.Families
import LeaseLock.Proofs.Plans

/-!
# Who has the lease of an entry

One entry of a chain, the extensions of its lease, and the call that it belongs to.

## The model

A scene is played around an entry (`Scene`). Any number of extensions are started, on any contexts
whose innermost lock is that of the entry; each has its turns, whenever they come, or is dropped. The
call that has taken the lock, the owner, finishes and gives back the lease, or is dropped. Everybody
else may do what he likes in between, as long as he leaves this entry alone (`Spares`), and so may the
service, which takes its turns and answers as it likes.

What an owner's task does is part of the scene, too: its extensions are among the others, and the rest
of what it does leaves the entry alone. Where one of them comes in the middle of a turn of the task, the
scene has several events in place of one; so no order of events is left out.

For the sake of statements it is noted what an extension has found in the slot at its start, and what
the owner has found there at the end. Nobody reads these notes.

## What is proved

A scene is in one of a few stages (`Stage`), and each event leads from one to another
(`Stands.step_held` and what follows it). From that, `accounted_play`: the lease has one place at any
time, and extensions and the owner find what they should and leave what they should (`Accounted`).
-/

namespace LeaseLock

/-! ### Laws of sequences -/

section Turns

variable {σ α β γ : Type}

mutual

theorem Routine.bind_assoc (r : Routine σ α) (f : α → Program σ β) (g : β → Program σ γ) (s : σ) :
    (r.bind f s).bind g = r.bind (fun a s => (f a s).bind g) s := by
  match r with
  | .done a => simp only [Routine.bind]
  | .paused resume abandon =>
    simp only [Routine.bind, Turn.paused_bind]
    congr 2
    funext s
    exact Turn.bind_assoc (resume s) f g

theorem Turn.bind_assoc (u : Turn σ α) (f : α → Program σ β) (g : β → Program σ γ) :
    (u.bind f).bind g = u.bind fun a s => (f a s).bind g := by
  match u with
  | ⟨s, r⟩ =>
    simp only [Turn.bind]
    exact Routine.bind_assoc r f g s

end

end Turns

section Dialogs

variable {Q : Type} {A : Q → Type} {α β : Type}

theorem Dialog.Ends.of_map {P : β → Prop} {f : α → β} {d : Dialog Q A α} (h : (d.map f).Ends P) :
    d.Ends fun a => P (f a) := by
  induction d with
  | done a => exact h
  | ask q next ih => exact fun a => ih a (h a)

theorem Dialog.Ends.mono {P P' : α → Prop} {d : Dialog Q A α} (h : d.Ends P)
    (hP : ∀ a, P a → P' a) : d.Ends P' := by
  induction d with
  | done a => exact hP a h
  | ask q next ih => exact fun a => ih a (h a)

end Dialogs

/-! ### One entry -/

variable {ω : Type} {k : Ticket} {s s' s'' : State ω}

/-- The entry of a ticket. -/
def State.entryAt (s : State ω) (k : Ticket) : Option Entry :=
  (s.chains.chain k.chain).entries.get? k.id

/-- What is in the slot of an entry. -/
def State.slot? (s : State ω) (k : Ticket) : Option Slot := (s.entryAt k).map Entry.slot

/-- The innermost lock around a context is that of an entry. -/
def Context.At (k : Ticket) (x : Context) : Prop :=
  x.chain = k.chain ∧ ∃ name scopes, x.scopes = ⟨k.id, name⟩ :: scopes

/-- The entry is left alone. -/
def Spares (k : Ticket) (s s' : State ω) : Prop := s'.entryAt k = s.entryAt k

theorem tolerant_spares (k : Ticket) : Tolerant (@Spares ω k) (Spares k) where
  refl _ := rfl
  trans h h' := Eq.trans h' h
  drops_refl _ := rfl
  drops_trans h h' := Eq.trans h' h
  of_drops h := h

/-- The service leaves the entry alone. -/
def Service.Spares (service : Service ω) (k : Ticket) : Prop :=
  ∀ q, (service q).Goes (LeaseLock.Spares k) (LeaseLock.Spares k)

theorem entryAt_fill (s : State ω) (k : Ticket) (y : Slot) :
    (s.onChain k.chain (·.fill k.id y)).entryAt k = (s.entryAt k).map fun e => { e with slot := y } := by
  rw [State.entryAt, State.entryAt, chain_onChain, if_pos rfl, Chain.fill]
  cases he : (s.chains.chain k.chain).entries.get? k.id with
  | none => exact he
  | some e => exact Registry.get?_put_self _ _ _

theorem entryAt_leave {x : Context} (hx : x.At k) (s : State ω) : (x.leave s).entryAt k = none := by
  obtain ⟨hchain, name, scopes, hscopes⟩ := hx
  rw [Context.leave, hscopes, State.entryAt, hchain, chain_onChain, if_pos rfl]
  exact Registry.get?_erase_self _ _

/-- The entry of a lock that was just taken. -/
theorem entryAt_enter (x : Context) (name : String) (h : Handle) (s : State ω) :
    ∃ s' y, x.enter name h s = ⟨s', .done y⟩ ∧
      y.At ⟨x.chain, (s.chains.chain x.chain).nextId⟩ ∧
      s'.entryAt ⟨x.chain, (s.chains.chain x.chain).nextId⟩ = some ⟨name, .held h⟩ := by
  refine ⟨_, _, rfl, ⟨rfl, name, x.scopes, rfl⟩, ?_⟩
  rw [State.entryAt, chain_onChain, if_pos rfl]
  exact Registry.get?_put_self _ _ _

/-! ### Extensions -/

/-- What an extension with this handle in its hands may answer, and leave in the slot. -/
inductive Leaves (h : Handle) : Except LockError Extension → Slot → Prop where
  /-- There is a new handle in place of the old one. -/
  | extended (new : Handle) (hv : new.valid = true) (hn : new.terms.name = h.terms.name) :
      Leaves h (.ok .extended) (.held new)
  | lost : Leaves h (.ok .lost) .lost
  /-- The old handle is put back. -/
  | unsupported : Leaves h (.ok .unsupported) (.held h)
  /-- The old handle is put back. -/
  | failed (e : LockError) : Leaves h (.error e) (.held h)

/-- What an extension leaves in the slot, and what it answers. -/
def settled : Except LockError (Renewal Handle) × Handle → Slot × Except LockError Extension
  | (.ok (.extended new), _) => (.held new, .ok .extended)
  | (.ok .lost, _) => (.lost, .ok .lost)
  | (.ok .unsupported, old) => (.held old, .ok .unsupported)
  | (.error e, old) => (.held old, .error e)

theorem leaves_settled {h : Handle} {r : Except LockError (Renewal Handle) × Handle}
    (hr : (Aftermath.ofExtend r).Fits h) : Leaves h (settled r).2 (settled r).1 := by
  obtain ⟨result, old⟩ := r
  rcases result with err | (new | _ | _)
  · cases hr
    exact .failed err
  · cases hr with
    | extended _ hv hn => exact .extended new hv hn
  · exact .lost
  · cases hr
    exact .unsupported

/-- The end of an extension that had a handle. -/
def conclude (k : Ticket) (r : Except LockError (Renewal Handle) × Handle) :
    Program (State ω) (Except LockError Extension) := fun s =>
  ⟨s.onChain k.chain (·.fill k.id (settled r).1), .done (settled r).2⟩

/-- An extension puts something back into the slot, if it is there, and answers. -/
def PutsBack (k : Ticket) (h : Handle) (s : State ω) (a : Except LockError Extension)
    (s' : State ω) : Prop :=
  ∃ y, Leaves h a y ∧ s'.entryAt k = (s.entryAt k).map fun e => { e with slot := y }

mutual

/-- What is left of an extension with this handle in its hands. -/
def Routine.Extends (k : Ticket) (h : Handle) : Routine (State ω) (Except LockError Extension) → Prop
  | .done _ => False
  | .paused resume abandon =>
    (∀ s, Spares k s (abandon s)) ∧ ∀ s, Turn.Extends k h (resume s) s

/-- A turn of such an extension: it goes on, or puts something back. -/
def Turn.Extends (k : Ticket) (h : Handle) :
    Turn (State ω) (Except LockError Extension) → State ω → Prop
  | ⟨s', r⟩, s =>
    (Spares k s s' ∧ r.Extends k h) ∨ ∃ a, r = .done a ∧ PutsBack k h s a s'

end

theorem Turn.Extends.before {h : Handle} {u : Turn (State ω) (Except LockError Extension)}
    (hs : Spares k s s') (hu : u.Extends k h s') : u.Extends k h s := by
  cases u with
  | mk s'' r =>
    obtain hgo | ⟨a, rfl, y, hy, he⟩ := hu
    · exact .inl ⟨hgo.1.trans hs, hgo.2⟩
    · exact .inr ⟨a, rfl, y, hy, by rw [he, hs]⟩

theorem Turn.Extends.cases {h : Handle} {u : Turn (State ω) (Except LockError Extension)}
    (hu : u.Extends k h s) : (Spares k s u.state ∧ u.rest.Extends k h) ∨
      ∃ a, u.rest = .done a ∧ PutsBack k h s a u.state := by
  cases u with
  | mk s' r => exact hu

namespace Routine.Extends

variable {h : Handle} {r : Routine (State ω) (Except LockError Extension)}

theorem turn (hr : r.Extends k h) (s : State ω) : (r.turn s).Extends k h s := by
  cases r with
  | done a => exact hr.elim
  | paused resume abandon => exact hr.2 s

theorem abandon (hr : r.Extends k h) (s : State ω) : Spares k s (r.abandon s) := by
  cases r with
  | done a => exact hr.elim
  | paused resume abandon => exact hr.1 s

theorem isOver (hr : r.Extends k h) : r.isOver = false := by
  cases r with
  | done a => exact hr.elim
  | paused resume abandon => rfl

end Routine.Extends

section Conversation

variable {α : Type} {h : Handle} {f : α → Program (State ω) (Except LockError Extension)}

mutual

theorem Routine.Goes.extends_bind {r : Routine (State ω) α} (hr : r.Goes (Spares k) (Spares k))
    (hf : ∀ a s, (f a s).Extends k h s) (s : State ω) : (r.bind f s).Extends k h s := by
  match r, hr with
  | .done a, _ =>
    rw [Routine.bind]
    exact hf a s
  | .paused resume abandon, hr =>
    rw [Routine.bind]
    exact .inl ⟨rfl, hr.1, fun s => Turn.Goes.extends_bind (hr.2 s) hf⟩

theorem Turn.Goes.extends_bind {u : Turn (State ω) α} {s : State ω}
    (hu : u.Goes (Spares k) (Spares k) s) (hf : ∀ a s, (f a s).Extends k h s) :
    (u.bind f).Extends k h s := by
  match u, hu with
  | ⟨s', r⟩, hu =>
    rw [Turn.bind]
    exact (Routine.Goes.extends_bind hu.2 hf s').before hu.1

end

/-- A conversation at whose end something is put back. -/
theorem extends_converse {service : Service ω} (hservice : service.Spares k) {d : Talk α}
    (hd : d.Ends fun a => ∀ s, (f a s).Extends k h s) (s : State ω) :
    (Turn.bind (Program.converse service d s) f).Extends k h s := by
  induction d generalizing s with
  | done a =>
    rw [Program.converse, Program.pure, Turn.done_bind]
    exact hd s
  | ask q next ih =>
    rw [Program.converse, Program.bind, Turn.bind_assoc]
    exact (hservice q s).extends_bind fun a s => ih a (hd a) s

end Conversation

section Starts

variable {service : Service ω} {x : Context} (hx : x.At k) {name : String}
include hx

/-- An extension that finds a handle takes it out of the slot, and talks to the service. -/
theorem extendActive_held_at {h : Handle} (he : s.entryAt k = some ⟨name, .held h⟩) (d e : Span) :
    x.extendActive service d e s = Program.bind (Program.converse service (h.extend s.now d e))
      (conclude k) (s.onChain k.chain (·.fill k.id .inFlight)) := by
  obtain ⟨hchain, n, scopes, hscopes⟩ := hx
  rw [Context.extendActive, hscopes]
  simp only []
  rw [Program.look_bind, hchain, show (s.chains.chain k.chain).entries.get? k.id = _ from he]
  simp only []
  rw [Program.change_bind, Program.look_bind]
  refine congrArg (fun f => Program.bind (Program.converse service (h.extend s.now d e)) f _) ?_
  funext r s
  obtain ⟨err | (new | _ | _), old⟩ := r <;> exact Turn.done_bind ..

/-- **An extension that finds a handle** has it in its hands until it puts something back. -/
theorem extends_extendActive (hservice : service.Spares k) {h : Handle}
    (he : s.entryAt k = some ⟨name, .held h⟩) (hv : h.valid = true) (d e : Span) :
    (x.extendActive service d e s).Extends k h (s.onChain k.chain (·.fill k.id .inFlight)) := by
  rw [extendActive_held_at hx he]
  apply extends_converse hservice
  -- Whatever the answers are, the extension ends as it may.
  have hends := (ends_extend s.now hv d e).of_map
  refine hends.mono fun r hr s => .inr ⟨_, rfl, _, leaves_settled hr, entryAt_fill s k _⟩

/-- What an extension says that finds no handle. -/
def withoutHandle : Option Entry → Except LockError Extension
  | none => .error .noActiveLock
  | some ⟨_, .lost⟩ => .ok .lost
  | some ⟨name, _⟩ => .error (.extensionInFlight name)

/-- **Any other extension** ends at once and asks nothing. -/
theorem extendActive_at_of_ne (hs : ∀ h, s.slot? k ≠ some (.held h)) (d e : Span) :
    x.extendActive service d e s = ⟨s, .done (withoutHandle (s.entryAt k))⟩ := by
  obtain ⟨hchain, n, scopes, hscopes⟩ := hx
  rw [Context.extendActive, hscopes]
  simp only []
  rw [Program.look_bind, hchain, show (s.chains.chain k.chain).entries.get? k.id = s.entryAt k from rfl]
  rcases he : s.entryAt k with _ | ⟨name, h | _ | _⟩
  · rfl
  · exact (hs h (congrArg (Option.map Entry.slot) he)).elim
  · rfl
  · rfl

theorem extendActive_lost_at (he : s.entryAt k = some ⟨name, .lost⟩) (d e : Span) :
    x.extendActive service d e s = ⟨s, .done (.ok .lost)⟩ := by
  rw [extendActive_at_of_ne hx (fun h hs => by rw [State.slot?, he] at hs; cases hs), he]
  rfl

theorem extendActive_inFlight_at (he : s.entryAt k = some ⟨name, .inFlight⟩) (d e : Span) :
    x.extendActive service d e s = ⟨s, .done (.error (.extensionInFlight name))⟩ := by
  rw [extendActive_at_of_ne hx (fun h hs => by rw [State.slot?, he] at hs; cases hs), he]
  rfl

theorem extendActive_none_at (he : s.entryAt k = none) (d e : Span) :
    x.extendActive service d e s = ⟨s, .done (.error .noActiveLock)⟩ := by
  rw [extendActive_at_of_ne hx (fun h hs => by rw [State.slot?, he] at hs; cases hs), he]
  rfl

/-! ### Giving the lease back -/

/-- Where no handle is in the slot, nothing is asked. -/
theorem release_at_of_ne (hs : ∀ h, s.slot? k ≠ some (.held h)) :
    x.release service s = ⟨x.leave s, .done (.ok ())⟩ := by
  obtain ⟨hchain, n, scopes, hscopes⟩ := hx
  have hslot : (s.chains.chain x.chain).slot? k.id = s.slot? k := by rw [hchain]; rfl
  rw [Context.release, hscopes]
  simp only []
  rw [Program.look_bind, hslot]
  cases hy : s.slot? k with
  | none => rw [Program.change_bind]; rfl
  | some y =>
    cases y with
    | held h => exact (hs h hy).elim
    | lost | inFlight => rw [Program.change_bind]; rfl

/-- A handle in the slot is given back, after the entry was taken out. -/
theorem release_held_at {h : Handle} (hs : s.slot? k = some (.held h)) :
    x.release service s = Program.bind (Program.converse service (h.release (x.leave s).now))
      (fun r => Program.pure r.1) (x.leave s) := by
  obtain ⟨hchain, n, scopes, hscopes⟩ := hx
  have hslot : (s.chains.chain x.chain).slot? k.id = s.slot? k := by rw [hchain]; rfl
  rw [Context.release, hscopes]
  simp only []
  rw [Program.look_bind, hslot, hs]
  simp only []
  rw [Program.change_bind, Program.look_bind]
  rfl

/-- The entry is gone from the first turn on, and then it is left alone. -/
theorem release_goes (hservice : service.Spares k) (s : State ω) :
    (x.release service s).state.entryAt k = none ∧
      (x.release service s).rest.Goes (Spares k) (Spares k) := by
  have hl := tolerant_spares (ω := ω) k
  have hleave := entryAt_leave hx s
  by_cases hs : ∃ h, s.slot? k = some (.held h)
  · obtain ⟨h, hh⟩ := hs
    have hgoes := Program.Goes.bind hl (.converse hl hservice (h.release (x.leave s).now))
      (fun r => .pure hl r.1) (x.leave s)
    rw [release_held_at hx hh]
    exact ⟨hgoes.state.trans hleave, hgoes.rest⟩
  · rw [release_at_of_ne hx fun h hh => hs ⟨h, hh⟩]
    exact ⟨hleave, trivial⟩

end Starts

/-! ### Scenes -/

/-- An extension of the lease of the entry. -/
structure Extender (ω : Type) where
  /-- What it has found in the slot. -/
  found : Option Slot
  /-- What is left of it; of one that was dropped, nothing is. -/
  rest : Option (Routine (State ω) (Except LockError Extension))

/-- The extension is in flight. -/
def Extender.inFlight (m : Extender ω) : Bool := m.rest.any (!·.isOver)

/-- What the extension has answered, if it has ended. -/
def Extender.answer? (m : Extender ω) : Option (Except LockError Extension) :=
  match m.rest with
  | some (.done a) => some a
  | _ => none

/-- The call that has taken the lock. -/
inductive Owner (ω : Type) where
  /-- Its task runs. -/
  | busy
  /-- Its task has ended. It has found this in the slot, and gives it back. -/
  | finishing (found : Option Slot) (rest : Routine (State ω) (Except LockError Unit))
  /-- It was dropped. -/
  | dropped

/-- The task of the owner runs. -/
def Owner.isBusy : Owner ω → Bool
  | busy => true
  | finishing _ _ | dropped => false

/-- What is played around an entry. -/
structure Scene (ω : Type) where
  state : State ω
  /-- The extensions, in the order in which they were started. -/
  extenders : List (Extender ω) := []
  owner : Owner ω := .busy

namespace Scene

/-- What happens next. -/
inductive Event (ω : Type) where
  /-- An extension is started in a context. -/
  | start (y : Context) (atMostFor atLeastFor : Span)
  /-- An extension has its next turn. -/
  | turn (i : Nat)
  /-- An extension is dropped. -/
  | drop (i : Nat)
  /-- The owner's task has ended. -/
  | finish
  /-- The owner, whose task has ended, has its next turn. -/
  | ownerTurn
  /-- The owner is dropped. -/
  | ownerDrop
  /-- Something else happens. -/
  | other (f : State ω → State ω)

/-- The event belongs here: an extension has the entry for its innermost, and others leave it alone. -/
def Event.Fits (k : Ticket) : Event ω → Prop
  | start y _ _ => y.At k
  | other f => ∀ s, Spares k s (f s)
  | turn _ | drop _ | finish | ownerTurn | ownerDrop => True

/-- The entry is taken out. -/
def Event.ends : Event ω → Bool
  | finish | ownerDrop => true
  | start .. | turn _ | drop _ | ownerTurn | other _ => false

/-- Lets an event happen around an entry, whose owner has the context `x` inside. One that makes no
sense changes nothing. -/
def step (service : Service ω) (x : Context) (k : Ticket) (f : Scene ω) : Event ω → Scene ω
  | .start y d e =>
    { f with
      state := (y.extendActive service d e f.state).state
      extenders := f.extenders ++ [⟨f.state.slot? k, some (y.extendActive service d e f.state).rest⟩] }
  | .turn i => match f.extenders[i]? with
    | some ⟨found, some r⟩ =>
      { f with
        state := (r.turn f.state).state
        extenders := f.extenders.set i ⟨found, some (r.turn f.state).rest⟩ }
    | _ => f
  | .drop i => match f.extenders[i]? with
    | some ⟨found, some r⟩ =>
      { f with state := r.abandon f.state, extenders := f.extenders.set i ⟨found, none⟩ }
    | _ => f
  | .finish => match f.owner with
    | .busy =>
      { f with
        state := (x.release service f.state).state
        owner := .finishing (f.state.slot? k) (x.release service f.state).rest }
    | _ => f
  | .ownerTurn => match f.owner with
    | .finishing found r =>
      { f with state := (r.turn f.state).state, owner := .finishing found (r.turn f.state).rest }
    | _ => f
  | .ownerDrop => match f.owner with
    | .busy => { f with state := x.leave f.state, owner := .dropped }
    | .finishing _ r => { f with state := r.abandon f.state, owner := .dropped }
    | .dropped => f
  | .other g => { f with state := g f.state }

/-- Lets events happen one after the other. -/
def play (service : Service ω) (x : Context) (k : Ticket) (f : Scene ω) (es : List (Event ω)) :
    Scene ω := es.foldl (step service x k) f

/-- An extension is in flight. -/
def Flying (f : Scene ω) (i : Nat) : Prop := ∃ m, f.extenders[i]? = some m ∧ m.inFlight = true

/-- Where the lease can be. -/
inductive Place where
  /-- In the slot. -/
  | slot (h : Handle)
  /-- In the hands of an extension. -/
  | hands (i : Nat) (h : Handle)
  /-- It is gone. -/
  | nowhere

/-- The lease is there. -/
def Keeps (f : Scene ω) (k : Ticket) : Place → Prop
  | .slot h => f.state.slot? k = some (.held h)
  | .hands i h => ∃ m, f.extenders[i]? = some m ∧ m.inFlight = true ∧ m.found = some (.held h)
  | .nowhere => (∀ h, f.state.slot? k ≠ some (.held h)) ∧ ∀ i, ¬f.Flying i

/-- An extension that had this handle has ended, and what it has put back is in the slot: another
handle, or that there is none, or the same handle as before. -/
def Returned (f : Scene ω) (k : Ticket) (i : Nat) (h : Handle) : Prop :=
  (∀ j, ¬f.Flying j) ∧ ∃ a y, f.extenders[i]? = some ⟨some (.held h), some (.done a)⟩ ∧
    Leaves h a y ∧ f.state.slot? k = some y

/-- What is so at any time. The owner has the context `x`, and the entry has this name. -/
structure Accounted (service : Service ω) (x : Context) (k : Ticket) (name : String) (f : Scene ω) :
    Prop where
  /-- The lease is in one place, and not in another. -/
  place : ∃ p, f.Keeps k p ∧ ∀ q, f.Keeps k q → q = p
  /-- An extension in flight has a handle that it has found in the slot. -/
  hands : ∀ i, f.Flying i → ∃ h, f.Keeps k (.hands i h)
  /-- The entry is there as long as its owner's task runs, -/
  there : f.owner.isBusy = true → ∃ y, f.state.entryAt k = some ⟨name, y⟩
  /-- and no longer. -/
  gone : f.owner.isBusy = false → f.state.entryAt k = none
  /-- While an extension is in flight, the slot is empty. -/
  away : f.owner.isBusy = true → ∀ i, f.Flying i → f.state.slot? k = some .inFlight
  /-- While the slot is empty, other extensions fail and ask nothing. -/
  refused : f.state.slot? k = some .inFlight → ∀ (other : Service ω) (y : Context) (d e : Span),
    y.At k → ∃ err : LockError, err = .extensionInFlight name ∧ err.kind = .invalidState ∧
      y.extendActive other d e f.state = ⟨f.state, .done (.error err)⟩
  /-- A handle in the slot stays there until the owner ends or an extension is started. This one takes
  it, unless it has ended at once. -/
  takes : ∀ h, f.state.slot? k = some (.held h) → ∀ e : Event ω, e.Fits k → e.ends = false →
    (f.step service x k e).state.slot? k = some (.held h) ∨
      (f.step service x k e).Keeps k (.hands f.extenders.length h) ∨
      (f.step service x k e).Returned k f.extenders.length h
  /-- A handle in the hands of an extension stays there until this has its turn or is dropped, even if
  the owner ends. -/
  keeps : ∀ i h, f.Keeps k (.hands i h) → ∀ e : Event ω, e.Fits k → e ≠ .turn i → e ≠ .drop i →
    (f.step service x k e).Keeps k (.hands i h)
  /-- An extension in flight that has its turn goes on, or ends and puts something back. -/
  returns : f.owner.isBusy = true → ∀ i h, f.Keeps k (.hands i h) →
    (f.step service x k (.turn i)).Keeps k (.hands i h) ∨ (f.step service x k (.turn i)).Returned k i h
  /-- If it is dropped instead, the slot stays empty. -/
  dropped : f.owner.isBusy = true → ∀ i, f.Flying i →
    (f.step service x k (.drop i)).state.slot? k = some .inFlight ∧
      ∀ j, ¬(f.step service x k (.drop i)).Flying j
  /-- An empty slot with no extension in flight stays as it is until the owner ends. -/
  emptied : f.state.slot? k = some .inFlight → (∀ i, ¬f.Flying i) → ∀ es : List (Event ω),
    (∀ e ∈ es, e.Fits k ∧ e.ends = false) →
      (f.play service x k es).state.slot? k = some .inFlight ∧
        ∀ i, ¬(f.play service x k es).Flying i
  /-- Where no handle is in the slot, the owner asks nothing at the end. -/
  silent : (∀ h, f.state.slot? k ≠ some (.held h)) → ∀ other : Service ω,
    x.release other f.state = ⟨x.leave f.state, .done (.ok ())⟩
  /-- Once the lease is lost, extensions say so and ask nothing, -/
  lost : f.state.slot? k = some .lost → ∀ (other : Service ω) (y : Context) (d e : Span),
    y.At k → y.extendActive other d e f.state = ⟨f.state, .done (.ok .lost)⟩
  /-- and it stays lost until the owner ends. -/
  stays : f.state.slot? k = some .lost → ∀ es : List (Event ω),
    (∀ e ∈ es, e.Fits k ∧ e.ends = false) → (f.play service x k es).state.slot? k = some .lost
  /-- When the owner has ended or was dropped, extensions fail and ask nothing, -/
  declined : f.owner.isBusy = false → ∀ (other : Service ω) (y : Context) (d e : Span),
    y.At k → y.extendActive other d e f.state = ⟨f.state, .done (.error .noActiveLock)⟩
  /-- and the entry does not come back, whatever extensions are still in flight. -/
  closed : f.owner.isBusy = false → ∀ es : List (Event ω), (∀ e ∈ es, e.Fits k) →
    (f.play service x k es).owner.isBusy = false ∧ (f.play service x k es).state.entryAt k = none

/-! ### Stages -/

/-- An extension that is left to go on with a handle. -/
def Holding (f : Scene ω) (k : Ticket) (i : Nat) (h : Handle) : Prop :=
  ∃ r, f.extenders[i]? = some ⟨some (.held h), some r⟩ ∧ r.Extends k h

/-- Nobody but perhaps this extension is in flight. -/
def Only (f : Scene ω) (i : Nat) : Prop := ∀ j, f.Flying j → j = i

/-- Where a scene stands. -/
inductive Stage where
  /-- The lease is in the slot. -/
  | held (h : Handle)
  /-- An extension has it in its hands. -/
  | away (i : Nat) (h : Handle)
  /-- It could not be extended. -/
  | lost
  /-- It was dropped with an extension. -/
  | emptied
  /-- The owner has ended. -/
  | closed

/-- A scene stands at a stage. -/
inductive Stands (k : Ticket) (name : String) (f : Scene ω) : Stage → Prop where
  | held (h : Handle) (hb : f.owner = .busy) (he : f.state.entryAt k = some ⟨name, .held h⟩)
      (hv : h.valid = true) (hn : ∀ i, ¬f.Flying i) : Stands k name f (.held h)
  | away (i : Nat) (h : Handle) (hb : f.owner = .busy)
      (he : f.state.entryAt k = some ⟨name, .inFlight⟩) (hv : h.valid = true)
      (hi : f.Holding k i h) (ho : f.Only i) : Stands k name f (.away i h)
  | lost (hb : f.owner = .busy) (he : f.state.entryAt k = some ⟨name, .lost⟩)
      (hn : ∀ i, ¬f.Flying i) : Stands k name f .lost
  | emptied (hb : f.owner = .busy) (he : f.state.entryAt k = some ⟨name, .inFlight⟩)
      (hn : ∀ i, ¬f.Flying i) : Stands k name f .emptied
  | closed (hb : f.owner.isBusy = false) (he : f.state.entryAt k = none)
      (hf : (∀ i, ¬f.Flying i) ∨ ∃ i h, f.Holding k i h ∧ f.Only i)
      (hr : ∀ found r, f.owner = .finishing found r → r.Goes (Spares k) (Spares k)) :
      Stands k name f .closed

/-- What is in the slot at a stage. -/
def Stage.slot : Stage → Option Slot
  | held h => some (.held h)
  | away _ _ | emptied => some .inFlight
  | lost => some .lost
  | closed => none

theorem Stands.slot?_eq {name : String} {f : Scene ω} {st : Stage} (hf : f.Stands k name st) :
    f.state.slot? k = st.slot := by
  cases hf with
  | held _ _ he _ _ | away _ _ _ he _ _ _ | lost _ he _ | emptied _ he _ | closed _ he _ _ =>
    rw [State.slot?, he]
    rfl

/-! ### What leaves a scene where it stands -/

/-- The entry and its owner are the same, and no more extensions are in flight. -/
structure Unmoved (k : Ticket) (f g : Scene ω) : Prop where
  entry : g.state.entryAt k = f.state.entryAt k
  owner : g.owner = f.owner
  flying : ∀ i, g.Flying i → f.Flying i
  holding : ∀ i h, f.Holding k i h → g.Holding k i h

variable {service : Service ω} {x : Context} {name : String} {f g : Scene ω} {st : Stage}
  {e : Event ω} {i : Nat} {h : Handle}

theorem Unmoved.refl (k : Ticket) (f : Scene ω) : Unmoved k f f :=
  ⟨rfl, rfl, fun _ hi => hi, fun _ _ hi => hi⟩

theorem Stands.unmoved (hf : f.Stands k name st) (hg : Unmoved k f g) : g.Stands k name st := by
  cases hf with
  | held h hb he hv hn =>
    exact .held h (hg.owner.trans hb) (hg.entry.trans he) hv fun i hi => hn i (hg.flying i hi)
  | away i h hb he hv hi ho =>
    exact .away i h (hg.owner.trans hb) (hg.entry.trans he) hv (hg.holding i h hi) fun j hj =>
      ho j (hg.flying j hj)
  | lost hb he hn =>
    exact .lost (hg.owner.trans hb) (hg.entry.trans he) fun i hi => hn i (hg.flying i hi)
  | emptied hb he hn =>
    exact .emptied (hg.owner.trans hb) (hg.entry.trans he) fun i hi => hn i (hg.flying i hi)
  | closed hb he hf hr =>
    refine .closed (by rw [hg.owner, hb]) (hg.entry.trans he) ?_ fun found r ho =>
      hr found r (hg.owner ▸ ho)
    rcases hf with hf | ⟨i, h, hi, ho⟩
    · exact .inl fun i hi => hf i (hg.flying i hi)
    · exact .inr ⟨i, h, hg.holding i h hi, fun j hj => ho j (hg.flying j hj)⟩

theorem Holding.flying (hi : f.Holding k i h) : f.Flying i := by
  obtain ⟨r, hm, hr⟩ := hi
  exact ⟨_, hm, by simp [Extender.inFlight, hr.isOver]⟩

/-- The extensions after one more was started. -/
theorem flying_append {m : Extender ω} {s : State ω} {o : Owner ω} :
    (⟨s, f.extenders ++ [m], o⟩ : Scene ω).Flying i →
      f.Flying i ∨ i = f.extenders.length ∧ m.inFlight = true := by
  rintro ⟨m', hm', hfly⟩
  rw [List.getElem?_append] at hm'
  split at hm'
  · exact .inl ⟨m', hm', hfly⟩
  · rename_i hlt
    rw [List.getElem?_singleton] at hm'
    split at hm'
    · cases hm'
      exact .inr ⟨by omega, hfly⟩
    · cases hm'

theorem Holding.append {m : Extender ω} {s : State ω} {o : Owner ω} (hi : f.Holding k i h) :
    (⟨s, f.extenders ++ [m], o⟩ : Scene ω).Holding k i h := by
  obtain ⟨r, hm, hr⟩ := hi
  refine ⟨r, ?_, hr⟩
  rw [List.getElem?_append_left (List.getElem?_eq_some_iff.1 hm).1]
  exact hm

/-- The extensions after one of them was changed. -/
theorem flying_set {m : Extender ω} {s : State ω} {o : Owner ω} {j : Nat} :
    (⟨s, f.extenders.set i m, o⟩ : Scene ω).Flying j →
      (j ≠ i ∧ f.Flying j) ∨ j = i ∧ m.inFlight = true := by
  rintro ⟨m', hm', hfly⟩
  by_cases hj : j = i
  · subst hj
    rw [List.getElem?_set] at hm'
    rw [if_pos rfl] at hm'
    split at hm'
    · cases hm'
      exact .inr ⟨rfl, hfly⟩
    · cases hm'
  · rw [List.getElem?_set_ne (Ne.symm hj)] at hm'
    exact .inl ⟨hj, m', hm', hfly⟩

theorem Holding.set {m : Extender ω} {s : State ω} {o : Owner ω} {j : Nat} (hj : j ≠ i)
    (hh : f.Holding k j h) : (⟨s, f.extenders.set i m, o⟩ : Scene ω).Holding k j h := by
  obtain ⟨r, hm, hr⟩ := hh
  refine ⟨r, ?_, hr⟩
  rw [List.getElem?_set_ne (Ne.symm hj)]
  exact hm

/-- Others come in between. -/
theorem unmoved_other {t : State ω → State ω} (ht : ∀ s, Spares k s (t s)) :
    Unmoved k f (f.step service x k (.other t)) :=
  ⟨ht f.state, rfl, fun _ hi => hi, fun _ _ hi => hi⟩

/-- An extension is started that ends at once. -/
theorem unmoved_start {y : Context} {d e : Span} {a : Except LockError Extension}
    (hy : y.extendActive service d e f.state = ⟨f.state, .done a⟩) :
    Unmoved k f (f.step service x k (.start y d e)) := by
  rw [step, hy]
  refine ⟨rfl, rfl, fun i hi => ?_, fun i h hi => hi.append⟩
  rcases flying_append hi with hi | ⟨-, hm⟩
  · exact hi
  · cases hm

/-- An extension that is not in flight is noted down as another one that is not. -/
theorem unmoved_set {m : Extender ω} (hi : ¬f.Flying i) (hm : m.inFlight = false) :
    Unmoved k f ⟨f.state, f.extenders.set i m, f.owner⟩ := by
  refine ⟨rfl, rfl, fun j hj => ?_, fun j h hj => hj.set fun hji => hi (hji ▸ hj.flying)⟩
  rcases flying_set hj with hj | ⟨-, hfly⟩
  · exact hj.2
  · rw [hm] at hfly
    cases hfly

/-- An extension that has ended, or was dropped, gets no turn. -/
theorem unmoved_turn (hi : ¬f.Flying i) : Unmoved k f (f.step service x k (.turn i)) := by
  simp only [step]
  split
  · rename_i found r hm
    cases r with
    | done a => exact unmoved_set hi rfl
    | paused resume abandon => exact (hi ⟨_, hm, rfl⟩).elim
  · exact .refl k f

theorem unmoved_drop (hi : ¬f.Flying i) : Unmoved k f (f.step service x k (.drop i)) := by
  simp only [step]
  split
  · rename_i found r hm
    cases r with
    | done a => exact unmoved_set hi rfl
    | paused resume abandon => exact (hi ⟨_, hm, rfl⟩).elim
  · exact .refl k f

theorem unmoved_ownerTurn (hb : f.owner = .busy) :
    Unmoved k f (f.step service x k .ownerTurn) := by
  rw [step, hb]
  exact .refl k f

/-- **Without a handle in the slot**, only an extension in flight may move something, and the owner. -/
theorem unmoved_of_ne (hb : f.owner = .busy) (hs : ∀ h, f.state.slot? k ≠ some (.held h))
    (he : e.Fits k) (hn : e.ends = false) (hi : ∀ i, e = .turn i ∨ e = .drop i → ¬f.Flying i) :
    Unmoved k f (f.step service x k e) := by
  cases e with
  | start y d e => exact unmoved_start (extendActive_at_of_ne he hs d e)
  | turn i => exact unmoved_turn (hi i (.inl rfl))
  | drop i => exact unmoved_drop (hi i (.inr rfl))
  | ownerTurn => exact unmoved_ownerTurn hb
  | other t => exact unmoved_other he
  | finish | ownerDrop => cases hn

/-! ### Events at each stage -/

/-- An extension has just put something back. -/
structure Back (k : Ticket) (name : String) (i : Nat) (h : Handle) (f : Scene ω) : Prop where
  busy : f.owner = .busy
  still : ∀ j, ¬f.Flying j
  back : ∃ a y, f.extenders[i]? = some ⟨some (.held h), some (.done a)⟩ ∧ Leaves h a y ∧
    f.state.entryAt k = some ⟨name, y⟩

theorem Back.returned (hf : f.Back k name i h) : f.Returned k i h := by
  obtain ⟨a, y, ha, hy, he⟩ := hf.back
  exact ⟨hf.still, a, y, ha, hy, by rw [State.slot?, he]; rfl⟩

/-- Where a scene stands when an extension has put something back. -/
theorem Back.stands (hf : f.Back k name i h) (hv : h.valid = true) :
    ∃ st, f.Stands k name st := by
  obtain ⟨a, y, -, hy, he⟩ := hf.back
  cases hy with
  | extended new hv' _ => exact ⟨_, .held new hf.busy he hv' hf.still⟩
  | lost => exact ⟨_, .lost hf.busy he hf.still⟩
  | unsupported => exact ⟨_, .held h hf.busy he hv hf.still⟩
  | failed _ => exact ⟨_, .held h hf.busy he hv hf.still⟩

/-- **The owner ends**, by giving the lease back or by being dropped. -/
theorem Stands.step_ends (hx : x.At k) (hservice : service.Spares k) (hf : f.Stands k name st)
    (hb : f.owner = .busy) (he : e.ends = true) : (f.step service x k e).Stands k name .closed := by
  have hfly : (∀ i, ¬f.Flying i) ∨ ∃ i h, f.Holding k i h ∧ f.Only i := by
    cases hf with
    | held _ _ _ _ hn | lost _ _ hn | emptied _ _ hn => exact .inl hn
    | away i h _ _ _ hi ho => exact .inr ⟨i, h, hi, ho⟩
    | closed _ _ hf _ => exact hf
  cases e with
  | finish =>
    have hgo := release_goes hx hservice f.state
    simp only [Scene.step, hb]
    refine .closed rfl hgo.1 hfly ?_
    rintro found r hr
    cases hr
    exact hgo.2
  | ownerDrop =>
    simp only [Scene.step, hb]
    exact .closed rfl (entryAt_leave hx f.state) hfly fun _ _ hr => nomatch hr
  | start | turn | drop | ownerTurn | other => cases he

/-- **The lease is lost**, and stays so. -/
theorem Stands.step_lost (hf : f.Stands k name .lost) (he : e.Fits k) (hn : e.ends = false) :
    (f.step service x k e).Stands k name .lost := by
  have hs : ∀ h, f.state.slot? k ≠ some (.held h) := fun h hh => nomatch hf.slot?_eq.symm.trans hh
  refine hf.unmoved ?_
  cases hf with
  | lost hb _ hfly => exact unmoved_of_ne hb hs he hn fun i _ => hfly i

/-- **An emptied slot** stays empty. -/
theorem Stands.step_emptied (hf : f.Stands k name .emptied) (he : e.Fits k) (hn : e.ends = false) :
    (f.step service x k e).Stands k name .emptied := by
  have hs : ∀ h, f.state.slot? k ≠ some (.held h) := fun h hh => nomatch hf.slot?_eq.symm.trans hh
  refine hf.unmoved ?_
  cases hf with
  | emptied hb _ hfly => exact unmoved_of_ne hb hs he hn fun i _ => hfly i

/-- **The lease is in the slot.** The first extension takes it out. -/
theorem Stands.step_held (hservice : service.Spares k) (hf : f.Stands k name (.held h))
    (he : e.Fits k) (hn : e.ends = false) :
    (f.step service x k e).Stands k name (.held h) ∨
      (f.step service x k e).Stands k name (.away f.extenders.length h) ∨
      (f.step service x k e).Back k name f.extenders.length h := by
  cases hf with
  | held _ hb hentry hv hfly =>
    have hstay : Unmoved k f (f.step service x k e) →
        (f.step service x k e).Stands k name (.held h) := Stands.unmoved (.held h hb hentry hv hfly)
    match e with
    | .turn i => exact .inl (hstay (unmoved_turn (hfly i)))
    | .drop i => exact .inl (hstay (unmoved_drop (hfly i)))
    | .ownerTurn => exact .inl (hstay (unmoved_ownerTurn hb))
    | .other t => exact .inl (hstay (unmoved_other he))
    | .start y d e =>
      have hslot : f.state.slot? k = some (.held h) := by rw [State.slot?, hentry]; rfl
      have hgone : (f.state.onChain k.chain (·.fill k.id .inFlight)).entryAt k =
          some ⟨name, .inFlight⟩ := by rw [entryAt_fill, hentry]; rfl
      rcases (extends_extendActive he hservice hentry hv d e).cases with ⟨hsp, hr⟩ | ⟨a, ha, z, hz, hput⟩
      · -- It goes on, with the handle in its hands.
        refine .inr (.inl (.away _ h hb (hsp.trans hgone) hv ?_ fun j hj => ?_))
        · exact ⟨_, by simp [step, hslot], hr⟩
        · rcases flying_append hj with hj | hj
          · exact (hfly j hj).elim
          · exact hj.1
      · -- It has ended already.
        refine .inr (.inr ⟨hb, fun j hj => ?_, a, z, ?_, hz, hput.trans (congrArg _ hgone)⟩)
        · rcases flying_append hj with hj | ⟨-, hm⟩
          · exact hfly j hj
          · rw [ha] at hm
            cases hm
        · simp [step, hslot, ha]

/-- The one extension that is in flight has its turn. -/
theorem step_turn_holding {r : Routine (State ω) (Except LockError Extension)}
    (hm : f.extenders[i]? = some ⟨some (.held h), some r⟩) :
    f.step service x k (.turn i) = ⟨(r.turn f.state).state,
      f.extenders.set i ⟨some (.held h), some (r.turn f.state).rest⟩, f.owner⟩ := by
  simp only [step, hm]

theorem getElem?_set_holding {m m' : Extender ω} (hm : f.extenders[i]? = some m) :
    (f.extenders.set i m')[i]? = some m' :=
  List.getElem?_set_self (List.getElem?_eq_some_iff.1 hm).1

variable (service x) in
/-- **An extension has the handle** and gets a turn: it goes on, or puts something back. -/
theorem Stands.step_turn (hf : f.Stands k name (.away i h)) :
    (f.step service x k (.turn i)).Stands k name (.away i h) ∨
      (f.step service x k (.turn i)).Back k name i h := by
  cases hf with
  | away _ _ hb he hv hi ho =>
    obtain ⟨r, hm, hr⟩ := hi
    rw [step_turn_holding hm]
    have hothers : ∀ {m : Extender ω} {s : State ω} {j : Nat},
        (⟨s, f.extenders.set i m, f.owner⟩ : Scene ω).Flying j → j = i ∧ m.inFlight = true := by
      intro m s j hj
      rcases flying_set hj with ⟨hji, hj⟩ | hj
      · exact (hji (ho j hj)).elim
      · exact hj
    rcases (hr.turn f.state).cases with ⟨hsp, hr'⟩ | ⟨a, ha, y, hy, hput⟩
    · exact .inl (.away i h hb (hsp.trans he) hv ⟨_, getElem?_set_holding hm, hr'⟩ fun j hj =>
        (hothers hj).1)
    · refine .inr ⟨hb, fun j hj => ?_, a, y, ?_, hy, hput.trans (by rw [he]; rfl)⟩
      · have hover := (hothers hj).2
        rw [ha] at hover
        cases hover
      · rw [← ha]
        exact getElem?_set_holding hm

variable (service x) in
/-- **It is dropped**: the handle is gone, and the slot stays empty. -/
theorem Stands.step_drop (hf : f.Stands k name (.away i h)) :
    (f.step service x k (.drop i)).Stands k name .emptied := by
  cases hf with
  | away _ _ hb he hv hi ho =>
    obtain ⟨r, hm, hr⟩ := hi
    have hstep : f.step service x k (.drop i) =
        ⟨r.abandon f.state, f.extenders.set i ⟨some (.held h), none⟩, f.owner⟩ := by
      simp only [step, hm]
    rw [hstep]
    refine .emptied hb ((hr.abandon f.state).trans he) fun j hj => ?_
    rcases flying_set hj with ⟨hji, hj⟩ | ⟨-, hover⟩
    · exact hji (ho j hj)
    · cases hover

/-- **Anything else** leaves the handle in its hands. -/
theorem Stands.step_away (hf : f.Stands k name (.away i h)) (he : e.Fits k) (hn : e.ends = false)
    (hturn : e ≠ .turn i) (hdrop : e ≠ .drop i) :
    (f.step service x k e).Stands k name (.away i h) := by
  have hs : ∀ h, f.state.slot? k ≠ some (.held h) := fun h hh => nomatch hf.slot?_eq.symm.trans hh
  refine hf.unmoved ?_
  cases hf with
  | away _ _ hb _ _ _ ho =>
    refine unmoved_of_ne hb hs he hn fun j hj hfly => ?_
    cases ho j hfly
    exact hj.elim hturn hdrop

variable (service x) in
/-- An extension in flight when the owner has ended: it goes on, or has ended as well. -/
theorem over_turn (hi : f.Holding k i h) (ho : f.Only i) (he : f.state.entryAt k = none) :
    (f.step service x k (.turn i)).state.entryAt k = none ∧
      (f.step service x k (.turn i)).owner = f.owner ∧
      ((∀ j, ¬(f.step service x k (.turn i)).Flying j) ∨
        (f.step service x k (.turn i)).Holding k i h ∧ (f.step service x k (.turn i)).Only i) := by
  obtain ⟨r, hm, hr⟩ := hi
  rw [step_turn_holding hm]
  refine ⟨?_, rfl, ?_⟩
  · rcases (hr.turn f.state).cases with ⟨hsp, -⟩ | ⟨a, -, y, -, hput⟩
    · exact hsp.trans he
    · exact hput.trans (by rw [he]; rfl)
  · rcases (hr.turn f.state).cases with ⟨-, hr'⟩ | ⟨a, ha, -⟩
    · refine .inr ⟨⟨_, getElem?_set_holding hm, hr'⟩, fun j hj => ?_⟩
      rcases flying_set hj with hj | hj
      · exact ho j hj.2
      · exact hj.1
    · refine .inl fun j hj => ?_
      rcases flying_set hj with ⟨hji, hj⟩ | ⟨-, hover⟩
      · exact hji (ho j hj)
      · rw [ha] at hover
        cases hover

/-- **The owner has ended**: the entry does not come back. -/
theorem Stands.step_closed (hf : f.Stands k name .closed) (he : e.Fits k) :
    (f.step service x k e).Stands k name .closed := by
  cases hf with
  | closed hb hentry hfly hr =>
    have hstay : Unmoved k f (f.step service x k e) → (f.step service x k e).Stands k name .closed :=
      Stands.unmoved (.closed hb hentry hfly hr)
    cases e with
    | start y d e => exact hstay (unmoved_start (extendActive_none_at he hentry d e))
    | other t => exact hstay (unmoved_other he)
    | turn i =>
      by_cases hi : f.Flying i
      · rcases hfly with hnone | ⟨j, h, hj, ho⟩
        · exact (hnone i hi).elim
        · cases ho i hi
          obtain ⟨hentry', howner, hfly'⟩ := over_turn service x hj ho hentry
          refine .closed (by rw [howner, hb]) hentry' ?_ fun found r hr' => hr found r (howner ▸ hr')
          exact hfly'.imp_right fun hh => ⟨i, h, hh⟩
      · exact hstay (unmoved_turn hi)
    | drop i =>
      by_cases hi : f.Flying i
      · rcases hfly with hnone | ⟨j, h, ⟨r, hm, hr'⟩, ho⟩
        · exact (hnone i hi).elim
        · cases ho i hi
          simp only [step, hm]
          refine .closed hb ((hr'.abandon f.state).trans hentry) (.inl fun j hj => ?_) hr
          rcases flying_set hj with ⟨hji, hj⟩ | ⟨-, hover⟩
          · exact hji (ho j hj)
          · cases hover
      · exact hstay (unmoved_drop hi)
    | finish =>
      refine hstay ?_
      simp only [step]
      split
      · rename_i ho
        rw [ho] at hb
        cases hb
      · exact .refl k f
    | ownerTurn =>
      simp only [step]
      split
      · rename_i found r ho
        have hturn := (hr found r ho).turn (tolerant_spares k) f.state
        refine .closed rfl (hturn.state.trans hentry) hfly ?_
        rintro found' r' hr'
        cases hr'
        exact hturn.rest
      · exact .closed hb hentry hfly hr
    | ownerDrop =>
      simp only [step]
      split
      · rename_i ho
        rw [ho] at hb
        cases hb
      · rename_i found r ho
        have hdrop := (hr found r ho).abandon (tolerant_spares k) f.state
        exact .closed rfl (hdrop.trans hentry) hfly fun _ _ hr => nomatch hr
      · exact .closed hb hentry hfly hr

/-! ### All events -/

/-- Where a scene stands after an event. -/
theorem Stands.step (hx : x.At k) (hservice : service.Spares k) (hf : f.Stands k name st)
    (he : e.Fits k) : ∃ st', (f.step service x k e).Stands k name st' := by
  by_cases hends : e.ends = true ∧ f.owner = .busy
  · exact ⟨_, hf.step_ends hx hservice hends.2 hends.1⟩
  have hgo : f.owner = .busy → e.ends = false := fun hb => by
    cases h : e.ends with
    | true => exact (hends ⟨h, hb⟩).elim
    | false => rfl
  cases st with
  | held h =>
    cases hf with
    | held _ hb hentry hv hn =>
      have hnext := (Stands.held h hb hentry hv hn).step_held hservice he (hgo hb) (x := x)
      rcases hnext with hh | hi | hback
      · exact ⟨_, hh⟩
      · exact ⟨_, hi⟩
      · exact hback.stands hv
  | away i h =>
    by_cases hturn : e = .turn i
    · subst hturn
      rcases hf.step_turn service x with hf' | hback
      · exact ⟨_, hf'⟩
      · cases hf with
        | away _ _ _ _ hv _ _ => exact hback.stands hv
    · by_cases hdrop : e = .drop i
      · subst hdrop
        exact ⟨_, hf.step_drop service x⟩
      · cases hf with
        | away _ _ hb hentry hv hi ho =>
          exact ⟨_, (Stands.away i h hb hentry hv hi ho).step_away he (hgo hb) hturn hdrop⟩
  | lost =>
    cases hf with
    | lost hb hentry hn => exact ⟨_, (Stands.lost hb hentry hn).step_lost he (hgo hb)⟩
  | emptied =>
    cases hf with
    | emptied hb hentry hn => exact ⟨_, (Stands.emptied hb hentry hn).step_emptied he (hgo hb)⟩
  | closed => exact ⟨_, hf.step_closed he⟩

theorem play_cons (e : Event ω) (es : List (Event ω)) :
    f.play service x k (e :: es) = (f.step service x k e).play service x k es := rfl

/-- What every event leaves as it is, a play does. -/
theorem play_keeps {P : Scene ω → Prop} {Q : Event ω → Prop} (hP : P f)
    (hstep : ∀ {f e}, P f → Q e → P (step service x k f e)) {es : List (Event ω)}
    (hes : ∀ e ∈ es, Q e) : P (f.play service x k es) := by
  induction es generalizing f with
  | nil => exact hP
  | cons e es ih =>
    rw [play_cons]
    exact ih (hstep hP (hes e List.mem_cons_self)) fun e he => hes e (List.mem_cons_of_mem _ he)

/-- **A scene always stands** at one of the stages. -/
theorem Stands.play (hx : x.At k) (hservice : service.Spares k) (hf : f.Stands k name st)
    {es : List (Event ω)} (hes : ∀ e ∈ es, e.Fits k) :
    ∃ st', (f.play service x k es).Stands k name st' :=
  play_keeps (P := fun f => ∃ st', f.Stands k name st') (Q := Event.Fits k) ⟨st, hf⟩
    (fun ⟨_, hf⟩ he => hf.step hx hservice he) hes

/-! ### What each stage means -/

/-- No extension is in flight, so the lease is in the slot or gone. -/
theorem place_of_still (hn : ∀ i, ¬f.Flying i) : ∃ p, f.Keeps k p ∧ ∀ q, f.Keeps k q → q = p := by
  have hhands : ∀ i h, ¬f.Keeps k (.hands i h) := fun i h ⟨m, hm, hfly, _⟩ => hn i ⟨m, hm, hfly⟩
  by_cases hs : ∃ h, f.state.slot? k = some (.held h)
  · obtain ⟨h, hh⟩ := hs
    refine ⟨.slot h, hh, fun q hq => ?_⟩
    cases q with
    | slot h' => cases Option.some.inj (hh.symm.trans hq); rfl
    | hands i h' => exact (hhands i h' hq).elim
    | nowhere => exact (hq.1 h hh).elim
  · have hne : ∀ h, f.state.slot? k ≠ some (.held h) := fun h hh => hs ⟨h, hh⟩
    refine ⟨.nowhere, ⟨hne, hn⟩, fun q hq => ?_⟩
    cases q with
    | slot h' => exact (hne h' hq).elim
    | hands i h' => exact (hhands i h' hq).elim
    | nowhere => rfl

/-- One extension is in flight, so it has the lease. -/
theorem place_of_holding (hi : f.Holding k i h) (ho : f.Only i)
    (hs : ∀ h, f.state.slot? k ≠ some (.held h)) : ∃ p, f.Keeps k p ∧ ∀ q, f.Keeps k q → q = p := by
  obtain ⟨m, hm, hfly⟩ := hi.flying
  obtain ⟨r, hm', -⟩ := hi
  have hfound : m.found = some (.held h) := by
    rw [hm] at hm'
    rw [Option.some.inj hm']
  refine ⟨.hands i h, ⟨m, hm, hfly, hfound⟩, fun q hq => ?_⟩
  cases q with
  | slot h' => exact (hs h' hq).elim
  | hands j h' =>
    obtain ⟨m', hj, hfly', hfound'⟩ := hq
    cases ho j ⟨m', hj, hfly'⟩
    cases Option.some.inj (hm.symm.trans hj)
    cases Option.some.inj (hfound.symm.trans hfound')
    rfl
  | nowhere => exact (hq.2 i ⟨m, hm, hfly⟩).elim

theorem Holding.keeps (hi : f.Holding k i h) : f.Keeps k (.hands i h) := by
  obtain ⟨r, hm, hr⟩ := hi
  exact ⟨_, hm, by simp [Extender.inFlight, hr.isOver], rfl⟩

theorem Stands.exists_place (hf : f.Stands k name st) :
    ∃ p, f.Keeps k p ∧ ∀ q, f.Keeps k q → q = p := by
  have hslot := hf.slot?_eq
  cases hf with
  | held _ _ _ _ hn | lost _ _ hn | emptied _ _ hn => exact place_of_still hn
  | away i h _ _ _ hi ho => exact place_of_holding hi ho fun h' hh => nomatch hslot.symm.trans hh
  | closed _ _ hf _ =>
    rcases hf with hn | ⟨i, h, hi, ho⟩
    · exact place_of_still hn
    · exact place_of_holding hi ho fun h' hh => nomatch hslot.symm.trans hh

/-- While the owner's task runs, an extension in flight is the one that the stage names. -/
theorem Stands.away_of_flying (hf : f.Stands k name st) (hb : f.owner.isBusy = true)
    (hi : f.Flying i) : ∃ h, st = .away i h ∧ f.Holding k i h := by
  cases hf with
  | held _ _ _ _ hn | lost _ _ hn | emptied _ _ hn => exact (hn i hi).elim
  | away j h _ _ _ hj ho =>
    cases ho i hi
    exact ⟨h, rfl, hj⟩
  | closed hb' _ _ _ => exact (Bool.false_ne_true (hb'.symm.trans hb)).elim

theorem Stands.holding_of_flying (hf : f.Stands k name st) (hi : f.Flying i) :
    ∃ h, f.Holding k i h := by
  cases hf with
  | held _ _ _ _ hn | lost _ _ hn | emptied _ _ hn => exact (hn i hi).elim
  | away j h _ _ _ hj ho =>
    cases ho i hi
    exact ⟨h, hj⟩
  | closed _ _ hf _ =>
    rcases hf with hn | ⟨j, h, hj, ho⟩
    · exact (hn i hi).elim
    · cases ho i hi
      exact ⟨h, hj⟩

variable (service x) in
/-- A handle stays in the hands of an extension until this has its turn or is dropped. -/
theorem Holding.step (hi : f.Holding k i h) (hturn : e ≠ .turn i) (hdrop : e ≠ .drop i) :
    (f.step service x k e).Holding k i h := by
  cases e with
  | start y d e => exact hi.append
  | turn j =>
    simp only [Scene.step]
    split
    · exact hi.set fun hij => hturn (hij ▸ rfl)
    · exact hi
  | drop j =>
    simp only [Scene.step]
    split
    · exact hi.set fun hij => hdrop (hij ▸ rfl)
    · exact hi
  | finish | ownerTurn | ownerDrop =>
    simp only [Scene.step]
    split <;> exact hi
  | other t => exact hi

/-- The handle of an extension in flight is one. -/
theorem Holding.eq_of_keeps {h' : Handle} (hi : f.Holding k i h) (hk : f.Keeps k (.hands i h')) :
    h' = h := by
  obtain ⟨r, hm, -⟩ := hi
  obtain ⟨m, hm', -, hfound⟩ := hk
  cases Option.some.inj (hm.symm.trans hm')
  cases hfound
  rfl

/-- The owner has ended at the last stage only. -/
theorem Stands.eq_closed (hf : f.Stands k name st) (hb : f.owner.isBusy = false) : st = .closed := by
  cases hf with
  | held _ hb' _ _ _ | away _ _ hb' _ _ _ _ | lost hb' _ _ | emptied hb' _ _ =>
    rw [hb'] at hb
    cases hb
  | closed _ _ _ _ => rfl

/-- The lease is lost at one stage only. -/
theorem Stands.eq_lost (hf : f.Stands k name st) (hs : f.state.slot? k = some .lost) : st = .lost := by
  have hslot := hf.slot?_eq.symm.trans hs
  cases st with
  | lost => rfl
  | held | away | emptied | closed => cases hslot

/-- The slot is empty with no extension in flight at one stage only. -/
theorem Stands.eq_emptied (hf : f.Stands k name st) (hs : f.state.slot? k = some .inFlight)
    (hn : ∀ i, ¬f.Flying i) : st = .emptied := by
  have hslot := hf.slot?_eq.symm.trans hs
  cases hf with
  | emptied => rfl
  | away i h _ _ _ hi _ => exact (hn i hi.flying).elim
  | held | lost | closed => cases hslot

/-- **What is so at every stage.** -/
theorem Stands.accounted (hx : x.At k) (hservice : service.Spares k) (hf : f.Stands k name st) :
    f.Accounted service x k name where
  place := hf.exists_place
  hands i hi := by
    obtain ⟨h, hh⟩ := hf.holding_of_flying hi
    exact ⟨h, hh.keeps⟩
  there hb := by
    cases hf with
    | held _ _ he _ _ | away _ _ _ he _ _ _ | lost _ he _ | emptied _ he _ => exact ⟨_, he⟩
    | closed hb' _ _ _ => exact (Bool.false_ne_true (hb'.symm.trans hb)).elim
  gone hb := by
    cases hf.eq_closed hb
    cases hf with
    | closed _ he _ _ => exact he
  away hb i hi := by
    obtain ⟨h, rfl, -⟩ := hf.away_of_flying hb hi
    exact hf.slot?_eq
  refused hs other y d e hy := by
    have hslot := hf.slot?_eq.symm.trans hs
    cases hf with
    | away _ _ _ he _ _ _ | emptied _ he _ => exact ⟨_, rfl, rfl, extendActive_inFlight_at hy he d e⟩
    | held | lost | closed => cases hslot
  takes h hs e he hn := by
    have hslot := hf.slot?_eq.symm.trans hs
    cases hf with
    | held _ hb hentry hv hn' =>
      cases hslot
      rcases (Stands.held h hb hentry hv hn').step_held hservice he hn (x := x) with hh | hi | hback
      · exact .inl hh.slot?_eq
      · cases hi with
        | away _ _ _ _ _ hi _ => exact .inr (.inl hi.keeps)
      · exact .inr (.inr hback.returned)
    | away | lost | emptied | closed => cases hslot
  keeps i h hi e _ hturn hdrop := by
    obtain ⟨m, hm, hfly, -⟩ := id hi
    obtain ⟨h', hh⟩ := hf.holding_of_flying ⟨m, hm, hfly⟩
    cases hh.eq_of_keeps hi
    exact (hh.step service x hturn hdrop).keeps
  returns hb i h hi := by
    obtain ⟨m, hm, hfly, -⟩ := id hi
    obtain ⟨h', rfl, hh⟩ := hf.away_of_flying hb ⟨m, hm, hfly⟩
    cases hh.eq_of_keeps hi
    rcases hf.step_turn service x with hf' | hback
    · cases hf' with
      | away _ _ _ _ _ hi' _ => exact .inl hi'.keeps
    · exact .inr hback.returned
  dropped hb i hi := by
    obtain ⟨h, rfl, -⟩ := hf.away_of_flying hb hi
    have hf' := hf.step_drop service x
    refine ⟨hf'.slot?_eq, ?_⟩
    cases hf' with
    | emptied _ _ hn => exact hn
  emptied hs hn es hes := by
    cases hf.eq_emptied hs hn
    have hplay : (f.play service x k es).Stands k name .emptied :=
      play_keeps (P := fun f => f.Stands k name .emptied) hf (fun hf he => hf.step_emptied he.1 he.2) hes
    refine ⟨hplay.slot?_eq, ?_⟩
    cases hplay with
    | emptied _ _ hn => exact hn
  silent hs other := release_at_of_ne hx hs
  lost hs other y d e hy := by
    cases hf.eq_lost hs
    cases hf with
    | lost _ he _ => exact extendActive_lost_at hy he d e
  stays hs es hes := by
    cases hf.eq_lost hs
    have hplay : (f.play service x k es).Stands k name .lost :=
      play_keeps (P := fun f => f.Stands k name .lost) hf (fun hf he => hf.step_lost he.1 he.2) hes
    exact hplay.slot?_eq
  declined hb other y d e hy := by
    cases hf.eq_closed hb
    cases hf with
    | closed _ he _ _ => exact extendActive_none_at hy he d e
  closed hb es hes := by
    cases hf.eq_closed hb
    have hplay : (f.play service x k es).Stands k name .closed :=
      play_keeps (P := fun f => f.Stands k name .closed) hf (fun hf he => hf.step_closed he) hes
    cases hplay with
    | closed hb he _ _ => exact ⟨hb, he⟩

/-! ### From the start on -/

/-- The entry around which the scene is played. -/
theorem entryAt_of_enter {x₀ : Context} (henter : x₀.enter name h s = ⟨s', .done x⟩) (hx : x.At k) :
    s'.entryAt k = some ⟨name, .held h⟩ := by
  obtain ⟨s'', y, hy, ⟨hchain, n, scopes, hscopes⟩, he⟩ := entryAt_enter x₀ name h s
  rw [henter] at hy
  cases hy
  obtain ⟨hchain', n', scopes', hscopes'⟩ := hx
  have hk : k = ⟨x₀.chain, (s.chains.chain x₀.chain).nextId⟩ := by
    have hid := (List.cons.inj (hscopes'.symm.trans hscopes)).1
    cases k
    simp only [Ticket.mk.injEq]
    exact ⟨hchain'.symm.trans hchain, (Scope.mk.inj hid).1⟩
  exact hk ▸ he

theorem stands_of_enter {x₀ : Context} (hv : h.valid = true)
    (henter : x₀.enter name h s = ⟨s', .done x⟩) (hx : x.At k) :
    (⟨s', [], .busy⟩ : Scene ω).Stands k name (.held h) := by
  refine .held h rfl (entryAt_of_enter henter hx) hv fun i hi => ?_
  obtain ⟨m, hm, -⟩ := hi
  cases hm

/-- Storage calls leave all entries alone. -/
theorem spares_calls (k : Ticket) : calls.Spares k := by
  have hl := tolerant_spares (ω := Site) k
  intro q
  cases q with
  | store c => exact .bind hl (.pause hl) fun _ => .step fun _ => rfl
  | send c => exact .pure hl _

/-- **The lease of an entry** is accounted for at any time: however many extensions are started, on any
contexts around which the entry is the innermost, however their turns interleave with what others do,
whatever the service answers, whichever extensions are dropped, and whenever the owner ends or is
dropped. -/
theorem accounted_play (service : Service ω) (x₀ : Context) (name : String) (h : Handle)
    (hv : h.valid = true) (s s' : State ω) (x : Context)
    (henter : x₀.enter name h s = ⟨s', .done x⟩) (k : Ticket) (hx : x.At k)
    (hservice : service.Spares k) (es : List (Event ω)) (hes : ∀ e ∈ es, e.Fits k) :
    ((⟨s', [], .busy⟩ : Scene ω).play service x k es).Accounted service x k name := by
  obtain ⟨st, hst⟩ := (stands_of_enter hv henter hx).play hx hservice hes
  exact hst.accounted hx hservice

/-- A lease for a minute. -/
def minuteLease : Handle := .stored ⟨"a", .inSeconds 0 60 0, true⟩

/-- The state with the record of that lease. -/
def minuteTaken : State Site :=
  ⟨⟨.second 0⟩, [], { store := [("job", ⟨.second 60, .second 0, "a"⟩)] }⟩

/-- The context of its task. -/
def inJob : Context := ⟨0, [⟨0, "job"⟩]⟩

/-- An extension goes well, a second one comes too early, a third one is dropped, a fourth one finds
the slot empty, and a fifth one comes after the end. -/
def fiveExtensions : List (Event Site) :=
  let extension := .start inJob (.ofSeconds 30) .zero
  [extension, extension, .turn 0, extension, .drop 2, extension, .finish, extension]

/-- A scene with such extensions. -/
theorem accounted_five_extensions :
    ((⟨(Context.enter ⟨0, []⟩ "job" minuteLease minuteTaken).state, [], .busy⟩ : Scene Site).play
        calls inJob ⟨0, 0⟩ fiveExtensions).Accounted calls inJob ⟨0, 0⟩ "job" ∧
      (((⟨(Context.enter ⟨0, []⟩ "job" minuteLease minuteTaken).state, [], .busy⟩ : Scene Site).play
        calls inJob ⟨0, 0⟩ fiveExtensions).extenders.map Extender.answer?) =
      [some (.ok .extended), some (.error (.extensionInFlight "job")), none,
        some (.error (.extensionInFlight "job")), some (.error .noActiveLock)] := by
  have hat : inJob.At ⟨0, 0⟩ := ⟨rfl, "job", [], rfl⟩
  refine ⟨accounted_play calls ⟨0, []⟩ "job" minuteLease rfl minuteTaken _ inJob rfl ⟨0, 0⟩ hat
    (spares_calls _) fiveExtensions ?_, rfl⟩
  intro e he
  simp only [fiveExtensions, List.mem_cons, List.not_mem_nil, or_false] at he
  rcases he with rfl | rfl | rfl | rfl | rfl | rfl | rfl | rfl
  all_goals first | exact hat | trivial

end Scene

end LeaseLock
