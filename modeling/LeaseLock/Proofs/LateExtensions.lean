import LeaseLock.Proofs.Custody
import LeaseLock.Proofs.KeptLocks
import LeaseLock.Proofs.StoreCalls

/-!
# Extensions that are late

One extension of a lease at a store in memory, and the end of the call that the lease belongs to, in
any order.

## The model

A scene is played around an entry, as before, with a service that carries out storage calls on a store
in memory: each some turns after it was made, and it takes some more turns until the answer is there
(`deliberate`). One extension is started, at any time and in any context around which the entry is the
innermost. It and the owner have their turns in any order, and neither is dropped. Others leave the
entry and the record of its name alone. So all that happens to the record are the calls of the two,
which are noted down with the readings of the clock (`Vault`).

## What is proved

When both have ended, the record ends at the deadline that was in force before the extension, or when
the lease was given back, or before the later of the two: unless the lease was left behind
(`LeftBehind`). The owner has ended while the extension was in flight, so that it has found nothing to
give back; the extension has gone well nevertheless, and its new deadline is later. Then the lease runs
until this new deadline, although nobody has it any more, and no call reports a failure
(`lapses_unless_left_behind`).
-/

namespace LeaseLock

/-! ### Turns to wait for -/

section Turns

variable {σ α β γ : Type}

theorem Program.bind_assoc (p : Program σ α) (f : α → Program σ β) (g : β → Program σ γ) :
    Program.bind (Program.bind p f) g = Program.bind p fun a => Program.bind (f a) g :=
  funext fun s => Turn.bind_assoc (p s) f g

theorem Program.pure_bind (a : α) (f : α → Program σ β) : Program.bind (Program.pure a) f = f a :=
  funext fun s => Turn.done_bind s a f

/-- The program after some turns. -/
def Program.later (n : Nat) (p : Program σ α) : Program σ α := Program.bind (Program.pauses n) fun _ => p

theorem Program.later_zero (p : Program σ α) : p.later 0 = p := by
  exact Program.pure_bind () fun _ => p

theorem Program.later_succ (n : Nat) (p : Program σ α) (s : σ) :
    p.later (n + 1) s = ⟨s, .paused (p.later n) id⟩ := by
  show Turn.bind (Turn.bind ⟨s, .paused (fun s => ⟨s, .done ()⟩) id⟩ _) _ = _
  rw [Turn.paused_bind, Turn.paused_bind]
  simp only [Turn.done_bind]
  rfl

theorem Program.later_bind (n : Nat) (p : Program σ α) (f : α → Program σ β) :
    Program.bind (p.later n) f = (Program.bind p f).later n := Program.bind_assoc ..

end Turns

/-! ### The service -/

/-- A store in memory, and the calls on the records that are looked at, with the readings of the clock
when they were carried out, the last one first. -/
structure Vault where
  store : Store
  calls : List (Instant × Call) := []

/-- Carries out a storage call. -/
def State.carryOut (s : State Vault) (c : Call) : c.kind.Result × State Vault :=
  ((s.rest.store.perform s.now c).1,
    { s with rest := ⟨(s.rest.store.perform s.now c).2, (s.now, c) :: s.rest.calls⟩ })

/-- The service: a call waits for some turns, is carried out, and waits again. -/
def deliberate (before late : Call → Nat) : Service Vault
  | .store c => do
    Program.pauses (before c)
    let a ← Program.step fun s => s.carryOut c
    Program.pauses (late c)
    pure (.ok a)
  | .send _ => pure .nil

variable {α β : Type} {before late : Call → Nat}

/-- A call is carried out. What follows its answer comes some turns later. -/
def calling (c : Call) (n : Nat) (next : c.kind.Result → Program (State Vault) α) :
    Program (State Vault) α := fun s => (next (s.carryOut c).1).later n (s.carryOut c).2

theorem calling_bind (c : Call) (n : Nat) (next : c.kind.Result → Program (State Vault) α)
    (f : α → Program (State Vault) β) :
    Program.bind (calling c n next) f = calling c n fun a => Program.bind (next a) f :=
  funext fun s => congrFun (Program.later_bind n (next (s.carryOut c).1) f) (s.carryOut c).2

/-- A conversation that starts with a call. -/
theorem converse_deliberate (c : Call) (next : c.Answer → Talk α) (f : α → Program (State Vault) β) :
    Program.bind (Program.converse (deliberate before late) (.ask (.store c) next)) f =
      (calling c (late c) fun a => Program.bind
        (Program.converse (deliberate before late) (next (.ok a))) f).later (before c) := by
  have hanswer : deliberate before late (.store c) =
      (calling c (late c) fun a => Program.pure (.ok a)).later (before c) := by
    refine congrArg (Program.later (before c)) (funext fun s => ?_)
    exact Turn.done_bind ..
  rw [Program.converse, hanswer, Program.bind_assoc, Program.later_bind, calling_bind]
  simp only [Program.pure_bind]

/-! ### The extension and the release -/

section Entries

variable {k : Ticket} {x : Context} (hx : x.At k) {s : State Vault} {l : Lease} (hv : l.valid = true)

/-- An extension that was answered puts back what it has, and ends. -/
def putIn (k : Ticket) (l : Lease) (t : Terms) (a : Extension) :
    Program (State Vault) (Except LockError Extension) := fun s =>
  ⟨s.onChain k.chain (·.fill k.id (slotAfter l t a)), .done (.ok a)⟩

/-- The call that extends a lease. -/
def Lease.extension (l : Lease) (t : Terms) : Call := ⟨.extend, l.holder, t⟩

/-- The call that gives a lease back. -/
def Lease.giveBack (l : Lease) : Call := ⟨.release, l.holder, l.terms⟩

/-- An extension of a lease, from its call on. -/
def extending (late : Call → Nat) (k : Ticket) (l : Lease) (t : Terms) :
    Program (State Vault) (Except LockError Extension) :=
  calling (l.extension t) (late (l.extension t)) (putIn k l t)

/-- The end of a release that went well. -/
def gaveBack : Program (State Vault) (Except LockError Unit) := Program.pure (.ok ())

/-- A release of a lease, from its call on. -/
def givingBack (late : Call → Nat) (l : Lease) : Program (State Vault) (Except LockError Unit) :=
  calling l.giveBack (late l.giveBack) fun _ => gaveBack

include hx hv

theorem extendActive_deliberate {name : String} (he : s.entryAt k = some ⟨name, .held (.stored l)⟩)
    {d e : Span} {t : Terms} (ht : Terms.make s.now l.terms.name d e = .ok t) :
    x.extendActive (deliberate before late) d e s =
      (extending late k l t).later (before (l.extension t))
        (s.onChain k.chain (·.fill k.id .inFlight)) := by
  rw [extendActive_held_at hx he]
  simp only [Handle.extend, Lease.extend, hv, if_true, ht, Lease.Talk.lift, Dialog.via, Dialog.map]
  rw [converse_deliberate]
  refine congrFun (congrArg (Program.later _) (congrArg (calling _ _) (funext fun a => ?_))) _
  have hnew : slotAfter l t .extended = .held (.stored ⟨l.holder, t, true⟩) := by
    rw [slotAfter, hv]
  cases a
  · refine (Program.pure_bind ..).trans (funext fun s => ?_)
    rw [putIn, hnew]
    rfl
  · exact Program.pure_bind ..
  · exact Program.pure_bind ..

theorem extendActive_refused_at {name : String} (he : s.entryAt k = some ⟨name, .held (.stored l)⟩)
    {d e : Span} {f : TermsFault} (ht : Terms.make s.now l.terms.name d e = .error f) :
    x.extendActive (deliberate before late) d e s =
      ⟨(s.onChain k.chain (·.fill k.id .inFlight)).onChain k.chain (·.fill k.id (.held (.stored l))),
        .done (.error (.terms f))⟩ := by
  rw [extendActive_held_at hx he]
  simp only [Handle.extend, Lease.extend, hv, if_true, ht, Lease.Talk.lift, Dialog.via, Dialog.map]
  exact congrFun (Program.pure_bind _ (conclude k)) _

theorem release_deliberate (hs : s.slot? k = some (.held (.stored l))) :
    x.release (deliberate before late) s =
      (givingBack late l).later (before l.giveBack) (x.leave s) := by
  rw [release_held_at hx hs]
  simp only [Handle.release, Lease.release, hv, if_true, Lease.Talk.lift, Dialog.via, Dialog.map]
  rw [converse_deliberate]
  refine congrFun (congrArg (Program.later _) (congrArg (calling _ _) (funext fun a => ?_))) _
  exact Program.pure_bind ..

end Entries

/-! ### What is seen of a state -/

/-- What a state has to say about the lease: its entry, the record of its name, and the calls. -/
structure Sight where
  entry : Option Entry
  record : Option Record
  calls : List (Instant × Call)

/-- What a state has to say about an entry and the record of a name. -/
def State.sight (s : State Vault) (k : Ticket) (name : String) : Sight :=
  ⟨s.entryAt k, s.rest.store.get? name, s.rest.calls⟩

/-- The record after it was extended, or not. -/
def Record.after (r : Record) (t : Terms) : Extension → Record
  | .extended => { r with lockUntil := t.atMostUntil }
  | .lost | .unsupported => r

/-- When a lease was given back, if it was, and could be taken by others again. -/
def unlockTime? (calls : List (Instant × Call)) : Option Instant :=
  calls.findSome? fun c => match c with
    | (now, ⟨.release, _, t⟩) => some (t.releaseAt now)
    | _ => none

section Sights

variable {k : Ticket} {x : Context} {s : State Vault} {l : Lease} {name : String} {t : Terms}
  {entry : Option Entry} {r : Record} {cs : List (Instant × Call)}

theorem sight_fill {record : Option Record} (hs : s.sight k name = ⟨entry, record, cs⟩) (y : Slot) :
    (s.onChain k.chain (·.fill k.id y)).sight k name =
      ⟨entry.map fun e => { e with slot := y }, record, cs⟩ := by
  obtain ⟨rfl, rfl, rfl⟩ := Sight.mk.inj hs
  rw [State.sight, entryAt_fill]
  rfl

theorem sight_leave {record : Option Record} (hx : x.At k)
    (hs : s.sight k name = ⟨entry, record, cs⟩) : (x.leave s).sight k name = ⟨none, record, cs⟩ := by
  obtain ⟨hchain, n, scopes, hscopes⟩ := id hx
  obtain ⟨-, rfl, rfl⟩ := Sight.mk.inj hs
  rw [State.sight, entryAt_leave hx, Context.leave, hscopes]
  rfl

/-- The extension is carried out: the record is extended, or not. -/
theorem sight_extension (ht : t.name = name) (hs : s.sight k name = ⟨entry, some r, cs⟩) :
    (s.carryOut (l.extension t)).2.sight k name =
      ⟨entry, some (r.after t (s.carryOut (l.extension t)).1), (s.now, l.extension t) :: cs⟩ := by
  subst ht
  obtain ⟨he, hr, hc⟩ := Sight.mk.inj hs
  have hcalls : (s.now, l.extension t) :: s.rest.calls = (s.now, l.extension t) :: cs := by rw [hc]
  rw [Sight.mk.injEq]
  refine ⟨he, ?_, hcalls⟩
  show ((s.rest.store.extend l.holder s.now t).2).get? t.name =
    some (r.after t (s.rest.store.extend l.holder s.now t).1)
  rcases s.rest.store.extend_cases l.holder s.now t with ⟨r', hr', -, -, h⟩ | ⟨-, h⟩
  · cases hr.symm.trans hr'
    rw [h]
    exact Registry.get?_put_self _ _ _
  · rw [h]
    exact hr

/-- The lease is given back: the record ends then, or when it has been kept long enough. -/
theorem sight_giveBack (hl : l.terms.name = name) (hs : s.sight k name = ⟨entry, some r, cs⟩) :
    (s.carryOut l.giveBack).2.sight k name =
      ⟨entry, some { r with lockUntil := l.terms.releaseAt s.now }, (s.now, l.giveBack) :: cs⟩ := by
  subst hl
  obtain ⟨he, hr, hc⟩ := Sight.mk.inj hs
  have hcalls : (s.now, l.giveBack) :: s.rest.calls = (s.now, l.giveBack) :: cs := by rw [hc]
  rw [Sight.mk.injEq]
  refine ⟨he, ?_, hcalls⟩
  show (s.rest.store.release s.now l.terms).get? l.terms.name = _
  rw [Store.release_of_some hr]
  exact Registry.get?_put_self _ _ _

end Sights

namespace Scene

/-! ### Phases -/

/-- No extension is in flight. -/
def Idle (ms : List (Extender Vault)) : Prop := ms = [] ∨ ∃ found a, ms = [⟨found, some (.done a)⟩]

/-- The slot is empty: the owner's task runs, or has ended and found nothing to give back. -/
inductive Without (name : String) : Option Entry → Owner Vault → Prop where
  | busy : Without name (some ⟨name, .inFlight⟩) .busy
  | finished : Without name none (.finishing (some .inFlight) (.done (.ok ())))

section Phases

variable (late : Call → Nat) (k : Ticket) (l : Lease) (r : Record)

/-- The extension of the lease `l`, as it goes on. -/
def extender (rest : Routine (State Vault) (Except LockError Extension)) : Extender Vault :=
  ⟨some (.held (.stored l)), some rest⟩

/-- Where the extension and the owner are. At first, the lease is `l` and its record is `r`. -/
inductive Phase : Sight → List (Extender Vault) → Owner Vault → Prop where
  /-- The extension was not started. -/
  | fresh : Phase ⟨some ⟨l.terms.name, .held (.stored l)⟩, some r, []⟩ [] .busy
  /-- It is in flight and was not carried out. -/
  | asking (t : Terms) (n : Nat) (ht : t.name = l.terms.name) {entry : Option Entry}
      {o : Owner Vault} (ho : Without l.terms.name entry o) :
      Phase ⟨entry, some r, []⟩ [extender l (.paused ((extending late k l t).later n) id)] o
  /-- It is in flight and was carried out. -/
  | told (t : Terms) (n : Nat) (now : Instant) (a : Extension) (ht : t.name = l.terms.name)
      {entry : Option Entry} {o : Owner Vault} (ho : Without l.terms.name entry o) :
      Phase ⟨entry, some (r.after t a), [(now, l.extension t)]⟩
        [extender l (.paused ((putIn k l t a).later n) id)] o
  /-- It has ended, and the lease is in the slot. -/
  | settled (m : Lease) (r' : Record) (hm : m.valid = true) (hn : m.terms.name = l.terms.name)
      {ms : List (Extender Vault)} (hi : Idle ms) (hms : ms ≠ []) {cs : List (Instant × Call)}
      (hcs : unlockTime? cs = none) :
      Phase ⟨some ⟨l.terms.name, .held (.stored m)⟩, some r', cs⟩ ms .busy
  /-- It has ended, and the lease is lost. -/
  | lost {ms : List (Extender Vault)} (hi : Idle ms) (hms : ms ≠ []) {cs : List (Instant × Call)}
      (hcs : unlockTime? cs = none) : Phase ⟨some ⟨l.terms.name, .lost⟩, some r, cs⟩ ms .busy
  /-- The owner has found a lease in the slot that was not given back yet. -/
  | releasing (m : Lease) (n : Nat) (r' : Record) (hn : m.terms.name = l.terms.name)
      {ms : List (Extender Vault)} (hi : Idle ms) {cs : List (Instant × Call)}
      (hcs : unlockTime? cs = none) :
      Phase ⟨none, some r', cs⟩ ms
        (.finishing (some (.held (.stored m))) (.paused ((givingBack late m).later n) id))
  /-- The lease was given back. -/
  | unlocked (m : Lease) (n : Nat) (r' : Record) {ms : List (Extender Vault)} (hi : Idle ms)
      {cs : List (Instant × Call)} (hcs : unlockTime? cs = some r'.lockUntil) :
      Phase ⟨none, some r', cs⟩ ms (.finishing (some (.held (.stored m)))
        (.paused (gaveBack.later n) id))
  /-- The owner has ended and has given the lease back. -/
  | closed (m : Lease) (r' : Record) {ms : List (Extender Vault)} (hi : Idle ms)
      {cs : List (Instant × Call)} (hcs : unlockTime? cs = some r'.lockUntil) :
      Phase ⟨none, some r', cs⟩ ms (.finishing (some (.held (.stored m))) (.done (.ok ())))
  /-- The owner has ended and has found that the lease was lost. -/
  | lapsing {ms : List (Extender Vault)} (hi : Idle ms) {cs : List (Instant × Call)}
      (hcs : unlockTime? cs = none) :
      Phase ⟨none, some r, cs⟩ ms (.finishing (some .lost) (.done (.ok ())))
  /-- The owner has ended and has found the slot empty, and the extension has ended after it. -/
  | beyond (t : Terms) (now : Instant) (a : Extension) :
      Phase ⟨none, some (r.after t a), [(now, l.extension t)]⟩ [extender l (.done (.ok a))]
        (.finishing (some .inFlight) (.done (.ok ())))

end Phases

section Turns

variable {before late : Call → Nat} {k : Ticket} {l : Lease} {r : Record} {s : State Vault}
  {x : Context}

/-- The extension was carried out, and its answer arrives after some turns. -/
theorem phase_told (hv : l.valid = true) {t : Terms} (n : Nat) {now : Instant} {a : Extension}
    (ht : t.name = l.terms.name) {entry : Option Entry} {o : Owner Vault}
    (ho : Without l.terms.name entry o)
    (hs : s.sight k l.terms.name = ⟨entry, some (r.after t a), [(now, l.extension t)]⟩) :
    Phase late k l r (((putIn k l t a).later n s).state.sight k l.terms.name)
      [extender l ((putIn k l t a).later n s).rest] o := by
  cases n with
  | succ n =>
    rw [Program.later_succ]
    exact hs ▸ .told t n now a ht ho
  | zero =>
    rw [Program.later_zero]
    have hsight : (putIn k l t a s).state.sight k l.terms.name = _ := sight_fill hs (slotAfter l t a)
    have hrest : (putIn k l t a s).rest = .done (.ok a) := rfl
    rw [hsight, hrest]
    cases ho with
    | finished => exact .beyond t now a
    | busy =>
      have hi : Idle [extender l (.done (.ok a))] := .inr ⟨_, _, rfl⟩
      cases a with
      | extended => exact .settled { l with terms := t } _ hv ht hi (List.cons_ne_nil _ _) rfl
      | lost => exact .lost hi (List.cons_ne_nil _ _) rfl
      | unsupported => exact .settled l _ hv rfl hi (List.cons_ne_nil _ _) rfl

/-- The extension is to be carried out after some turns. -/
theorem phase_asking (hv : l.valid = true) {t : Terms} (n : Nat) (ht : t.name = l.terms.name)
    {entry : Option Entry} {o : Owner Vault} (ho : Without l.terms.name entry o)
    (hs : s.sight k l.terms.name = ⟨entry, some r, []⟩) :
    Phase late k l r
      (((extending late k l t).later n s).state.sight k l.terms.name)
      [extender l ((extending late k l t).later n s).rest] o := by
  cases n with
  | succ n =>
    rw [Program.later_succ]
    exact hs ▸ .asking t n ht ho
  | zero =>
    rw [Program.later_zero]
    exact phase_told hv _ ht ho (sight_extension ht hs)

/-- The lease was given back, and the answer arrives after some turns. -/
theorem phase_unlocked (m : Lease) (n : Nat) {r' : Record} {ms : List (Extender Vault)} (hi : Idle ms)
    {cs : List (Instant × Call)} (hcs : unlockTime? cs = some r'.lockUntil)
    (hs : s.sight k l.terms.name = ⟨none, some r', cs⟩) :
    Phase late k l r ((gaveBack.later n s).state.sight k l.terms.name) ms
      (.finishing (some (.held (.stored m))) (gaveBack.later n s).rest) := by
  cases n with
  | succ n =>
    rw [Program.later_succ]
    exact hs ▸ .unlocked m n r' hi hcs
  | zero =>
    rw [Program.later_zero]
    exact hs ▸ .closed m r' hi hcs

/-- The lease is to be given back after some turns. -/
theorem phase_releasing {m : Lease} (n : Nat) {r' : Record} (hn : m.terms.name = l.terms.name)
    {ms : List (Extender Vault)} (hi : Idle ms) {cs : List (Instant × Call)}
    (hcs : unlockTime? cs = none) (hs : s.sight k l.terms.name = ⟨none, some r', cs⟩) :
    Phase late k l r
      (((givingBack late m).later n s).state.sight k l.terms.name) ms
      (.finishing (some (.held (.stored m))) ((givingBack late m).later n s).rest) := by
  cases n with
  | succ n =>
    rw [Program.later_succ]
    exact hs ▸ .releasing m n r' hn hi hcs
  | zero =>
    rw [Program.later_zero]
    exact phase_unlocked m _ hi rfl (sight_giveBack hn hs)

end Turns

/-! ### Events -/

/-- An extension is started. -/
def Event.isStart {ω : Type} : Event ω → Bool
  | start .. => true
  | turn _ | drop _ | finish | ownerTurn | ownerDrop | other _ => false

/-- Nobody is dropped, and others leave the entry and the record of the name alone. -/
def Event.Calm (k : Ticket) (name : String) : Event Vault → Prop
  | start y _ _ => y.At k
  | other g => ∀ s, (g s).sight k name = s.sight k name
  | turn _ | finish | ownerTurn => True
  | drop _ | ownerDrop => False

section Events

variable {before late : Call → Nat} {k : Ticket} {l : Lease} {r : Record} {x : Context}
  {f : Scene Vault} {e : Event Vault} {es : List (Event Vault)}

/-- The scene is in one of the phases. -/
def InPhase (late : Call → Nat) (k : Ticket) (l : Lease) (r : Record) (f : Scene Vault) : Prop :=
  Phase late k l r (f.state.sight k l.terms.name) f.extenders f.owner

theorem slot?_of_sight {s : State Vault} {name : String} {y : Slot} {record : Option Record}
    {cs : List (Instant × Call)} (hs : s.sight k name = ⟨some ⟨name, y⟩, record, cs⟩) :
    s.slot? k = some y := by
  rw [State.slot?, (Sight.mk.inj hs).1]
  rfl

theorem entryAt_of_sight {s : State Vault} {name : String} {entry : Option Entry}
    {record : Option Record} {cs : List (Instant × Call)}
    (hs : s.sight k name = ⟨entry, record, cs⟩) : s.entryAt k = entry := (Sight.mk.inj hs).1

/-- An extension that has ended gets no turn. -/
theorem step_turn_idle (service : Service Vault) (hi : Idle f.extenders) (i : Nat) :
    f.step service x k (.turn i) = f := by
  obtain ⟨s, ms, o⟩ := f
  rcases hi with hi | ⟨found, a, hi⟩
  · cases hi
    rfl
  · cases hi
    cases i <;> rfl

/-- The extension has its turn. -/
theorem inPhase_turn (hv : l.valid = true) (hf : f.InPhase late k l r) (i : Nat) :
    (f.step (deliberate before late) x k (.turn i)).InPhase late k l r := by
  obtain ⟨s, ms, o⟩ := f
  have hidle : Idle ms → (step (deliberate before late) x k ⟨s, ms, o⟩ (.turn i)).InPhase late k l r :=
    fun hi => (step_turn_idle (deliberate before late) (f := ⟨s, ms, o⟩) hi i).symm ▸ hf
  simp only [InPhase] at hf
  generalize hs : s.sight k l.terms.name = sight at hf
  cases hf with
  | fresh => exact hidle (.inl rfl)
  | settled _ _ _ _ hi | lost hi | releasing _ _ _ _ hi | unlocked _ _ _ hi | closed _ _ hi | lapsing hi =>
    exact hidle hi
  | beyond => exact hidle (.inr ⟨_, _, rfl⟩)
  | asking t n ht ho =>
    cases i with
    | zero => exact phase_asking hv n ht ho hs
    | succ i =>
      show Phase _ _ _ _ (s.sight k l.terms.name) _ _
      rw [hs]
      exact .asking t n ht ho
  | told t n now a ht ho =>
    cases i with
    | zero => exact phase_told hv n ht ho hs
    | succ i =>
      show Phase _ _ _ _ (s.sight k l.terms.name) _ _
      rw [hs]
      exact .told t n now a ht ho

/-- The owner's task has ended. -/
theorem inPhase_finish (hx : x.At k) (hv : l.valid = true) (hf : f.InPhase late k l r) :
    (f.step (deliberate before late) x k .finish).InPhase late k l r := by
  obtain ⟨s, ms, o⟩ := f
  simp only [InPhase] at hf
  generalize hs : s.sight k l.terms.name = sight at hf
  have hstay : o.isBusy = false → Phase late k l r sight ms o →
      (step (deliberate before late) x k ⟨s, ms, o⟩ .finish).InPhase late k l r := by
    intro hb hf
    cases o with
    | busy => cases hb
    | finishing | dropped =>
      simp only [step, InPhase]
      rw [hs]
      exact hf
  -- There is a lease to give back, or nothing.
  have hheld : ∀ {m : Lease} {record : Record} {cs : List (Instant × Call)}, m.valid = true →
      m.terms.name = l.terms.name → Idle ms → unlockTime? cs = none →
      s.sight k l.terms.name = ⟨some ⟨l.terms.name, .held (.stored m)⟩, some record, cs⟩ →
      (step (deliberate before late) x k ⟨s, ms, .busy⟩ .finish).InPhase late k l r := by
    intro m record cs hm hn hi hcs hs
    simp only [step, InPhase, slot?_of_sight hs, release_deliberate hx hm (slot?_of_sight hs)]
    exact phase_releasing _ hn hi hcs (sight_leave hx hs)
  have hnone : ∀ {y : Slot} {record : Record} {cs : List (Instant × Call)}, (∀ h, y ≠ .held h) →
      s.sight k l.terms.name = ⟨some ⟨l.terms.name, y⟩, some record, cs⟩ →
      Phase late k l r ⟨none, some record, cs⟩ ms (.finishing (some y) (.done (.ok ()))) →
      (step (deliberate before late) x k ⟨s, ms, .busy⟩ .finish).InPhase late k l r := by
    intro y record cs hy hs hf
    have hne : ∀ h, s.slot? k ≠ some (.held h) := fun h hh =>
      hy h (Option.some.inj ((slot?_of_sight hs).symm.trans hh))
    simp only [step, InPhase, slot?_of_sight hs, release_at_of_ne hx hne]
    show Phase _ _ _ _ (State.sight (x.leave s) k l.terms.name) _ _
    rw [sight_leave hx hs]
    exact hf
  cases hf with
  | fresh => exact hheld hv rfl (.inl rfl) rfl hs
  | settled m r' hm hn hi _ hcs => exact hheld hm hn hi hcs hs
  | lost hi _ hcs => exact hnone (y := .lost) (by rintro _ ⟨⟩) hs (.lapsing hi hcs)
  | asking t n ht ho =>
    cases ho with
    | busy => exact hnone (y := .inFlight) (by rintro _ ⟨⟩) hs (.asking t n ht .finished)
    | finished => exact hstay rfl (.asking t n ht .finished)
  | told t n now a ht ho =>
    cases ho with
    | busy => exact hnone (y := .inFlight) (by rintro _ ⟨⟩) hs (.told t n now a ht .finished)
    | finished => exact hstay rfl (.told t n now a ht .finished)
  | releasing m n r' hn hi hcs => exact hstay rfl (.releasing m n r' hn hi hcs)
  | unlocked m n r' hi hcs => exact hstay rfl (.unlocked m n r' hi hcs)
  | closed m r' hi hcs => exact hstay rfl (.closed m r' hi hcs)
  | lapsing hi hcs => exact hstay rfl (.lapsing hi hcs)
  | beyond t now a => exact hstay rfl (.beyond t now a)

/-- The owner, whose task has ended, has its turn. -/
theorem inPhase_ownerTurn (hf : f.InPhase late k l r) :
    (f.step (deliberate before late) x k .ownerTurn).InPhase late k l r := by
  obtain ⟨s, ms, o⟩ := f
  have hstay : (∀ found resume abandon, o ≠ .finishing found (.paused resume abandon)) →
      (step (deliberate before late) x k ⟨s, ms, o⟩ .ownerTurn).InPhase late k l r := by
    intro ho
    cases o with
    | busy | dropped => exact hf
    | finishing found rest =>
      cases rest with
      | done a => exact hf
      | paused resume abandon => exact (ho _ _ _ rfl).elim
  simp only [InPhase] at hf
  generalize hs : s.sight k l.terms.name = sight at hf
  cases hf with
  | releasing m n r' hn hi hcs => exact phase_releasing n hn hi hcs hs
  | unlocked m n r' hi hcs => exact phase_unlocked m n hi hcs hs
  | asking _ _ _ ho | told _ _ _ _ _ ho => cases ho <;> exact hstay fun _ _ _ h => nomatch h
  | fresh | settled | lost | closed | lapsing | beyond => exact hstay fun _ _ _ h => nomatch h

/-- The one extension is started. -/
theorem inPhase_start (hv : l.valid = true) (hf : f.InPhase late k l r) (hms : f.extenders = [])
    {y : Context} (hy : y.At k) (d e : Span) :
    (f.step (deliberate before late) x k (.start y d e)).InPhase late k l r := by
  obtain ⟨s, ms, o⟩ := f
  cases hms
  simp only [InPhase] at hf
  generalize hs : s.sight k l.terms.name = sight at hf
  -- After the end, nothing happens.
  have hgone : ∀ {record : Option Record} {cs : List (Instant × Call)},
      s.sight k l.terms.name = ⟨none, record, cs⟩ →
      (∀ ms, Idle ms → Phase late k l r ⟨none, record, cs⟩ ms o) →
      (step (deliberate before late) x k ⟨s, [], o⟩ (.start y d e)).InPhase late k l r := by
    intro record cs hs hf
    simp only [step, InPhase, extendActive_none_at hy (entryAt_of_sight hs), Turn.state, hs]
    exact hf _ (.inr ⟨_, _, rfl⟩)
  cases hf with
  | settled _ _ _ _ _ hms | lost _ hms => exact (hms rfl).elim
  | releasing m n r' hn hi hcs => exact hgone hs fun ms hi => .releasing m n r' hn hi hcs
  | unlocked m n r' hi hcs => exact hgone hs fun ms hi => .unlocked m n r' hi hcs
  | closed m r' hi hcs => exact hgone hs fun ms hi => .closed m r' hi hcs
  | lapsing hi hcs => exact hgone hs fun ms hi => .lapsing hi hcs
  | fresh =>
    have he := entryAt_of_sight hs
    have hfound := slot?_of_sight hs
    cases ht : Terms.make s.now l.terms.name d e with
    | error fault =>
      simp only [step, InPhase, hfound, extendActive_refused_at hy hv he ht, Turn.state, Turn.rest]
      rw [sight_fill (sight_fill hs .inFlight)]
      exact .settled l r hv rfl (.inr ⟨_, _, rfl⟩) (List.cons_ne_nil _ _) rfl
    | ok t =>
      simp only [step, InPhase, hfound, extendActive_deliberate hy hv he ht]
      exact phase_asking hv _ (Terms.name_of_make ht) .busy (sight_fill hs .inFlight)

/-- **Every event** leads from phase to phase, if it is calm and does not start a second extension. -/
theorem InPhase.step (hx : x.At k) (hv : l.valid = true) (hf : f.InPhase late k l r)
    (he : e.Calm k l.terms.name) (hstart : e.isStart = true → f.extenders = []) :
    (f.step (deliberate before late) x k e).InPhase late k l r := by
  cases e with
  | start y d e => exact inPhase_start hv hf (hstart rfl) he d e
  | turn i => exact inPhase_turn hv hf i
  | finish => exact inPhase_finish hx hv hf
  | ownerTurn => exact inPhase_ownerTurn hf
  | other g =>
    show Phase _ _ _ _ ((g f.state).sight k l.terms.name) _ _
    rw [he f.state]
    exact hf
  | drop i | ownerDrop => exact he.elim

theorem length_step (service : Service Vault) (f : Scene Vault) (e : Event Vault) :
    (f.step service x k e).extenders.length = f.extenders.length + e.isStart.toNat := by
  cases e with
  | start y d e => simp [Scene.step, Event.isStart]
  | turn i =>
    simp only [Scene.step, Event.isStart]
    split <;> simp
  | drop i =>
    simp only [Scene.step, Event.isStart]
    split <;> simp
  | finish | ownerTurn | ownerDrop =>
    simp only [Scene.step, Event.isStart]
    split <;> rfl
  | other g => rfl

/-- **A whole play** leads from phase to phase, if there is at most one extension. -/
theorem InPhase.play (hx : x.At k) (hv : l.valid = true) (hf : f.InPhase late k l r)
    (hes : ∀ e ∈ es, e.Calm k l.terms.name)
    (hone : f.extenders.length + es.countP Event.isStart ≤ 1) :
    (f.play (deliberate before late) x k es).InPhase late k l r := by
  induction es generalizing f with
  | nil => exact hf
  | cons e es ih =>
    have hcount : (if e.isStart = true then 1 else 0) = e.isStart.toNat := by cases e.isStart <;> rfl
    rw [List.countP_cons, hcount] at hone
    rw [play_cons]
    apply ih (hf.step hx hv (hes e List.mem_cons_self) ?_)
    · exact fun e' he' => hes e' (List.mem_cons_of_mem _ he')
    · rw [length_step]
      omega
    · intro hstart
      have hnat : e.isStart.toNat = 1 := by rw [hstart]; rfl
      exact List.length_eq_zero_iff.1 (by omega)

end Events

/-! ### When both have ended -/

section End

variable {late : Call → Nat} {k : Ticket} {l : Lease} {r : Record} {f : Scene Vault}

/-- The later one of the deadline of the lease and the time of its unlock, if there was one. -/
def limit (l : Lease) (cs : List (Instant × Call)) : Instant :=
  match unlockTime? cs with
  | some u => max l.terms.atMostUntil u
  | none => l.terms.atMostUntil

/-- The lease was left behind: its owner has found the slot empty, as the extension was in flight. This
went well later, to a deadline after that of the lease, and nothing else was asked. -/
def LeftBehind (l : Lease) (f : Scene Vault) : Prop :=
  ∃ a found now t, f.owner = .finishing (some .inFlight) (.done a) ∧
    f.extenders = [⟨found, some (.done (.ok .extended))⟩] ∧
    f.state.rest.calls = [(now, l.extension t)] ∧ l.terms.atMostUntil < t.atMostUntil

/-- **The end** of each phase in which both have ended. -/
theorem InPhase.ended (hf : f.InPhase late k l r) (hu : r.lockUntil = l.terms.atMostUntil)
    {found : Option Slot} {a : Except LockError Unit} (ho : f.owner = .finishing found (.done a))
    (hm : ∀ m ∈ f.extenders, m.answer?.isSome = true) :
    ∃ r', f.state.rest.store.get? l.terms.name = some r' ∧
      (r'.lockUntil ≤ limit l f.state.rest.calls ↔ ¬LeftBehind l f) ∧
      (LeftBehind l f → a = .ok () ∧
        ∃ now t, f.state.rest.calls = [(now, l.extension t)] ∧ r'.lockUntil = t.atMostUntil) := by
  obtain ⟨s, ms, o⟩ := f
  cases ho
  simp only [InPhase] at hf
  generalize hs : s.sight k l.terms.name = sight at hf
  -- The owner was not left without the lease, so nothing was left behind.
  have hnot : found ≠ some .inFlight → ¬LeftBehind l ⟨s, ms, .finishing found (.done a)⟩ := by
    rintro hne ⟨a', found', now, t, ho, -⟩
    cases ho
    exact hne rfl
  cases hf with
  | asking _ _ _ ho | told _ _ _ _ _ ho =>
    cases ho
    exact nomatch hm _ List.mem_cons_self
  | closed m r' hi hcs =>
    obtain ⟨-, hr, rfl⟩ := Sight.mk.inj hs
    have hbound : r'.lockUntil ≤ limit l s.rest.calls := by
      rw [limit, hcs, Instant.le_def]
      simp only [Instant.nanos_max]
      omega
    exact ⟨r', hr, iff_of_true hbound (hnot (nomatch ·)), fun h => (hnot (nomatch ·) h).elim⟩
  | lapsing hi hcs =>
    obtain ⟨-, hr, rfl⟩ := Sight.mk.inj hs
    have hbound : r.lockUntil ≤ limit l s.rest.calls := by
      rw [limit, hcs, hu]
      exact Int.le_refl _
    exact ⟨r, hr, iff_of_true hbound (hnot (nomatch ·)), fun h => (hnot (nomatch ·) h).elim⟩
  | beyond t now answer =>
    obtain ⟨-, hr, hcs⟩ := Sight.mk.inj hs
    have hlimit : limit l s.rest.calls = l.terms.atMostUntil := by
      rw [hcs]
      rfl
    have hleft : LeftBehind l ⟨s, [extender l (.done (.ok answer))], .finishing (some .inFlight)
        (.done (.ok ()))⟩ ↔ answer = .extended ∧ l.terms.atMostUntil < t.atMostUntil := by
      constructor
      · rintro ⟨a', found', now', t', -, hms, hcs', hlt⟩
        cases hms
        cases hcs.symm.trans hcs'
        exact ⟨rfl, hlt⟩
      · rintro ⟨rfl, hlt⟩
        exact ⟨_, _, now, t, rfl, rfl, hcs, hlt⟩
    refine ⟨_, hr, ?_, fun h => ⟨rfl, now, t, hcs, ?_⟩⟩
    · rw [hlimit, hleft]
      cases answer with
      | extended => simp [Record.after, Instant.not_lt]
      | lost | unsupported =>
        refine iff_of_true ?_ fun h => nomatch h.1
        rw [Record.after, hu]
        exact Int.le_refl _
    · rw [(hleft.1 h).1, Record.after]

end End

/-- **A lease lapses** at the deadline that was in force before an extension, or when it was given back,
if that is later, whatever the order is in which the extension and the owner have their turns: unless
the owner has ended while the extension was in flight, and this has gone well after all, to a later
deadline. Then the owner has reported no failure, nobody has the lease, nothing gives it back, and it
runs until the new deadline. -/
theorem lapses_unless_left_behind (before late : Call → Nat) (x₀ x : Context) (l : Lease)
    (hv : l.valid = true) (s s' : State Vault)
    (henter : x₀.enter l.terms.name (.stored l) s = ⟨s', .done x⟩) (k : Ticket) (hx : x.At k)
    (r : Record) (hr : s.rest.store.get? l.terms.name = some r)
    (hu : r.lockUntil = l.terms.atMostUntil) (hc : s.rest.calls = []) (es : List (Event Vault))
    (hes : ∀ e ∈ es, e.Calm k l.terms.name) (hone : es.countP Event.isStart ≤ 1) (f : Scene Vault)
    (hf : f = (⟨s', [], .busy⟩ : Scene Vault).play (deliberate before late) x k es)
    (found : Option Slot) (a : Except LockError Unit) (ho : f.owner = .finishing found (.done a))
    (hm : ∀ m ∈ f.extenders, m.answer?.isSome = true) :
    ∃ r', f.state.rest.store.get? l.terms.name = some r' ∧
      (r'.lockUntil ≤ limit l f.state.rest.calls ↔ ¬LeftBehind l f) ∧
      (LeftBehind l f → a = .ok () ∧
        ∃ now t, f.state.rest.calls = [(now, l.extension t)] ∧ r'.lockUntil = t.atMostUntil) := by
  subst hf
  have hentry := entryAt_of_enter henter hx
  have hrest : s'.rest = s.rest := (congrArg (fun u => (Turn.state u).rest) henter).symm
  have hstart : InPhase late k l r ⟨s', [], .busy⟩ := by
    have hsight : s'.sight k l.terms.name = ⟨_, _, _⟩ := rfl
    rw [hentry, hrest, hr, hc] at hsight
    show Phase _ _ _ _ (s'.sight k l.terms.name) _ _
    rw [hsight]
    exact .fresh
  exact (hstart.play hx hv hes (by simpa using hone)).ended hu ho hm

/-- The lease for a minute, at the storage service. -/
def forOneMinute : Lease := ⟨"a", .inSeconds 0 60 0, true⟩

/-- The state with its record. -/
def oneMinuteTaken : State Vault :=
  ⟨⟨.second 0⟩, [], { store := [("job", ⟨.second 60, .second 0, "a"⟩)] }⟩

/-- The owner ends while the extension is in flight. -/
def endedInBetween : List (Event Vault) :=
  [.start inJob (.ofSeconds 90) .zero, .finish, .turn 0]

/-- The scene of such an extension, whose call waits for a turn. -/
def lateScene : Scene Vault :=
  (⟨(Context.enter ⟨0, []⟩ "job" (.stored forOneMinute) oneMinuteTaken).state, [], .busy⟩ :
    Scene Vault).play (deliberate (fun _ => 1) fun _ => 0) inJob ⟨0, 0⟩ endedInBetween

/-- A lease for a minute that runs for a minute and a half, after its owner has ended. -/
theorem runs_on_after_late_extension :
    limit forOneMinute lateScene.state.rest.calls = .second 60 ∧
      unlockTime? lateScene.state.rest.calls = none ∧
      LeftBehind forOneMinute lateScene ∧
      ∃ r', lateScene.state.rest.store.get? "job" = some r' ∧ r'.lockUntil = .second 90 ∧
        ¬r'.lockUntil ≤ limit forOneMinute lateScene.state.rest.calls := by
  have hleft : LeftBehind forOneMinute lateScene :=
    ⟨_, _, _, .inSeconds 0 90 0, rfl, rfl, rfl, by decide⟩
  obtain ⟨r', hr', hlimit, -⟩ := lapses_unless_left_behind (fun _ => 1) (fun _ => 0) ⟨0, []⟩ inJob
    forOneMinute rfl oneMinuteTaken _ rfl ⟨0, 0⟩ ⟨rfl, "job", [], rfl⟩ ⟨.second 60, .second 0, "a"⟩ rfl
    rfl rfl endedInBetween
    (by
      intro e he
      simp only [endedInBetween, List.mem_cons, List.not_mem_nil, or_false] at he
      rcases he with rfl | rfl | rfl
      · exact ⟨rfl, "job", [], rfl⟩
      · trivial
      · trivial)
    (by decide) lateScene rfl (some .inFlight) (.ok ()) rfl
    (by
      intro m hm
      cases List.mem_singleton.1 hm
      rfl)
  refine ⟨rfl, rfl, hleft, r', hr', ?_, fun h => hlimit.1 h hleft⟩
  cases hr'
  rfl

end Scene

end LeaseLock
