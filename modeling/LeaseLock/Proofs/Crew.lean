import LeaseLock.Clock
import LeaseLock.Lock.Lease
import LeaseLock.Registry

/-!
# Nodes that share a storage service

Nodes that take, extend and give back leases at a storage service of any kind, with their storage
calls interleaved in any order.

## The model

A job is what a node does with a lease: it takes a lock, or it gives back or extends a lease that
another job got. Jobs are numbered, and a lease has the number of the job that got it. A job that is
under way is a conversation with the storage service; it is the dialog of `Lease.acquire`,
`Lease.release` or `Lease.extend`, and it works on its lease alone. In one move the clock is set, a
job starts, or a job that is under way makes its next storage call. So everything a node does
between two of its calls is one move, and anything can happen in between.

A move that makes no sense (a job of a number that is in use, on a lease that is not there or that
another job works on, a call of a job that is not under way) changes nothing.

## What is proved

Services that give the same answers lead crews the same way (`step_on`). Jobs are found in one of
four stages, no two work on one lease, and none has got a lease before its end (`Sound`). At a
service that carries out its calls, all that a move can do is listed once, by the answer that the
service gave (`Effect`). At one that always fails, nobody gets a lease (`noLease_of_failing`).
-/

namespace LeaseLock

/-- What a node does with a lease. -/
inductive Job where
  /-- Takes a lock for a holder, on terms. -/
  | lock (holder : String) (t : Terms)
  /-- Gives back the lease of a number. -/
  | unlock (h : Nat)
  /-- Extends the lease of a number to new durations. -/
  | extend (h : Nat) (atMostFor atLeastFor : Span)

/-- The lease that a job works on. -/
def Job.lease? : Job → Option Nat
  | .lock _ _ => none
  | .unlock h => some h
  | .extend h _ _ => some h

/-- What a job comes to. -/
inductive Reply where
  /-- The lock was taken, or somebody else has it. -/
  | locked (taken : Bool)
  /-- The lease was given back. -/
  | unlocked
  /-- The lease was extended, or not. -/
  | extension (e : Extension)
  /-- The job failed. -/
  | failed (e : LockError)
  deriving DecidableEq

/-- The end of a job. -/
structure Landing where
  reply : Reply
  /-- The lease that the job worked on, as it is now. -/
  used : Option Lease := none
  /-- The lease that the job got. -/
  got : Option Lease := none

namespace Landing

/-- The end of taking a lock. -/
def ofLock : Except LockError (Option Lease) → Landing
  | .ok (some l) => { reply := .locked true, got := some l }
  | .ok none => { reply := .locked false }
  | .error e => { reply := .failed e }

/-- The end of giving a lease back. -/
def ofUnlock : Except LockError Unit × Lease → Landing
  | (.ok (), l) => { reply := .unlocked, used := some l }
  | (.error e, l) => { reply := .failed e, used := some l }

/-- The end of extending a lease. -/
def ofExtend : Except LockError (Renewal Lease) × Lease → Landing
  | (.ok (.extended new), l) => { reply := .extension .extended, used := some l, got := some new }
  | (.ok .lost, l) => { reply := .extension .lost, used := some l }
  | (.ok .unsupported, l) => { reply := .extension .unsupported, used := some l }
  | (.error e, l) => { reply := .failed e, used := some l }

/-- The leases after a job of a number has ended. -/
def settle (x : Landing) (k : Nat) (job : Job) (ls : Registry Nat Lease) : Registry Nat Lease :=
  let ls := match job.lease?, x.used with
    | some h, some l => ls.put h l
    | _, _ => ls
  match x.got with
  | some l => ls.put k l
  | none => ls

end Landing

/-- The conversation of a job that starts at a reading of the clock, if its lease is there. -/
def Job.talk (now : Instant) (ls : Registry Nat Lease) : Job → Option (Lease.Talk Landing)
  | .lock holder t => some ((Lease.acquire holder t).map .ofLock)
  | .unlock h => (ls.get? h).map fun l => l.release.map .ofUnlock
  | .extend h atMostFor atLeastFor =>
    (ls.get? h).map fun l => (l.extend now atMostFor atLeastFor).map .ofExtend

/-- A job that is under way. -/
structure Pending where
  job : Job
  /-- What is left of its conversation. -/
  talk : Lease.Talk Landing

namespace Pending

/-- The job is to take the lock of a name. -/
def attempts (n : String) : Pending → Bool
  | ⟨.lock _ t, _⟩ => t.name = n
  | _ => false

/-- The job is to take the lock of a name, and claims its record next. -/
def claims (n : String) : Pending → Bool
  | ⟨.lock _ t, .ask ⟨.claim, _, _⟩ _⟩ => t.name = n
  | _ => false

end Pending

/-- How storage calls are carried out on a state, at a reading of the clock. -/
abbrev Serve (σ : Type) := σ → Instant → (c : Call) → c.Answer × σ

/-- A service that carries out all its calls, and can extend leases. -/
structure Serve.Reliable {σ : Type} (serve : Serve σ) : Prop where
  answers : ∀ s now c, ∃ a s', serve s now c = (.ok a, s')
  supports : ∀ s now holder t, (serve s now ⟨.extend, holder, t⟩).1 ≠ .ok .unsupported

/-- The service whose calls never fail. -/
def Serve.ofPerform {σ : Type} (perform : σ → Instant → (c : Call) → c.kind.Result × σ) : Serve σ :=
  fun s now c => (.ok (perform s now c).1, (perform s now c).2)

theorem Serve.ofPerform_eq_iff {σ : Type} {perform : σ → Instant → (c : Call) → c.kind.Result × σ}
    {s s' : σ} {now : Instant} {c : Call} {a : c.kind.Result} :
    Serve.ofPerform perform s now c = (.ok a, s') ↔ perform s now c = (a, s') := by
  rw [Serve.ofPerform, Prod.mk.injEq, Except.ok.injEq, Prod.ext_iff]

theorem Serve.reliable_ofPerform {σ : Type}
    {perform : σ → Instant → (c : Call) → c.kind.Result × σ}
    (hx : ∀ s now holder t, (perform s now ⟨.extend, holder, t⟩).1 ≠ .unsupported) :
    (Serve.ofPerform perform).Reliable where
  answers := fun _ _ _ => ⟨_, _, rfl⟩
  supports := fun s now holder t h => hx s now holder t (Except.ok.inj h)

/-- What happens next. -/
inductive Move where
  /-- The clock is set. -/
  | tick (c : Clock)
  /-- A job starts under a number. -/
  | start (k : Nat) (job : Job)
  /-- The job of a number makes its next storage call. -/
  | call (k : Nat)

/-- Nodes at a storage service. -/
structure Crew (σ : Type) where
  store : σ
  clock : Clock
  /-- All leases that were ever got. -/
  leases : Registry Nat Lease := []
  /-- The jobs that are under way. -/
  pending : Registry Nat Pending := []
  /-- What jobs came to, the last one first. -/
  log : List (Nat × Reply) := []

namespace Crew

variable {σ τ : Type}

/-- The reading of the clock. -/
def now (f : Crew σ) : Instant := f.clock.reading

/-- The number is not in use. -/
def isNew (f : Crew σ) (k : Nat) : Bool := !f.pending.has k && !f.leases.has k

/-- No job works on the lease of a number. -/
def isFree (f : Crew σ) (h : Nat) : Bool := f.pending.all fun e => e.2.job.lease? ≠ some h

/-- A job may start under a number. -/
def mayStart (f : Crew σ) (k : Nat) (job : Job) : Bool := f.isNew k && job.lease?.all f.isFree

/-- The job of a number goes on with the rest of its conversation, or ends. -/
def proceed (f : Crew σ) (k : Nat) (job : Job) : Lease.Talk Landing → Crew σ
  | .done x =>
    { f with
      leases := x.settle k job f.leases
      pending := f.pending.erase k
      log := (k, x.reply) :: f.log }
  | .ask c next => { f with pending := f.pending.put k ⟨job, .ask c next⟩ }

/-- Makes a move. -/
def step (serve : Serve σ) (f : Crew σ) : Move → Crew σ
  | .tick c => { f with clock := c }
  | .start k job =>
    match if f.mayStart k job then job.talk f.now f.leases else none with
    | some talk => f.proceed k job talk
    | none => f
  | .call k => match f.pending.get? k with
    | some ⟨job, .ask c next⟩ =>
      let (a, s) := serve f.store f.now c
      { f with store := s }.proceed k job (next a)
    | _ => f

/-- Makes moves one after the other. -/
def play (serve : Serve σ) (f : Crew σ) (ms : List Move) : Crew σ := ms.foldl (step serve) f

@[simp] theorem play_nil (serve : Serve σ) (f : Crew σ) : f.play serve [] = f := rfl

@[simp] theorem play_cons (serve : Serve σ) (f : Crew σ) (m : Move) (ms : List Move) :
    f.play serve (m :: ms) = (f.step serve m).play serve ms := rfl

/-- Nodes at a service that have done nothing yet. -/
def fresh (s : σ) (c : Clock) : Crew σ := { store := s, clock := c }

/-- The storage call that a move makes. -/
def asked (f : Crew σ) : Move → Option Call
  | .call k => match f.pending.get? k with
    | some ⟨_, .ask c _⟩ => some c
    | _ => none
  | _ => none

/-- The lease that the job of a number works on. -/
def worked (f : Crew σ) (k : Nat) : Option Lease :=
  (f.pending.get? k).bind fun p => p.job.lease?.bind fun h => f.leases.get? h

/-- The job of a number is to take the lock of a name. -/
def Attempting (f : Crew σ) (n : String) (k : Nat) : Prop :=
  (f.pending.get? k).any (·.attempts n) = true

/-- The job of a number is to take the lock of a name, and looks at the clock next, to claim it. -/
def Claiming (f : Crew σ) (n : String) (k : Nat) : Prop :=
  (f.pending.get? k).any (·.claims n) = true

instance (f : Crew σ) (n : String) (k : Nat) : Decidable (f.Attempting n k) :=
  inferInstanceAs (Decidable (_ = true))

instance (f : Crew σ) (n : String) (k : Nat) : Decidable (f.Claiming n k) :=
  inferInstanceAs (Decidable (_ = true))

/-- Each move of a run is like this. -/
def Along (serve : Serve σ) (P : Crew σ → Move → Prop) (f : Crew σ) : List Move → Prop
  | [] => True
  | m :: ms => P f m ∧ Along serve P (f.step serve m) ms

instance decidableAlong (serve : Serve σ) (P : Crew σ → Move → Prop) [∀ f m, Decidable (P f m)]
    (f : Crew σ) : (ms : List Move) → Decidable (Along serve P f ms)
  | [] => inferInstanceAs (Decidable True)
  | m :: ms =>
    have := decidableAlong serve P (f.step serve m) ms
    inferInstanceAs (Decidable (_ ∧ _))

theorem Along.mono {serve : Serve σ} {P Q : Crew σ → Move → Prop} (h : ∀ f m, P f m → Q f m)
    {f : Crew σ} {ms : List Move} (hms : Along serve P f ms) : Along serve Q f ms := by
  induction ms generalizing f with
  | nil => trivial
  | cons m ms ih => exact ⟨h f m hms.1, ih hms.2⟩

theorem Along.last {serve : Serve σ} {P : Crew σ → Move → Prop} {f : Crew σ} {ms : List Move}
    {m : Move} (h : Along serve P f (ms ++ [m])) : P (f.play serve ms) m := by
  induction ms generalizing f with
  | nil => exact h.1
  | cons m' ms ih => exact ih h.2

/-! ### Crews at different services -/

/-- The crew at another service. -/
def on (f : Crew σ) (s : τ) : Crew τ := ⟨s, f.clock, f.leases, f.pending, f.log⟩

section Services

variable {f : Crew σ} {m : Move} {s : τ}

theorem proceed_on (f : Crew σ) (s : τ) (k : Nat) (job : Job) (talk : Lease.Talk Landing) :
    (f.on s).proceed k job talk = (f.proceed k job talk).on s := by
  cases talk <;> rfl

theorem store_proceed (f : Crew σ) (k : Nat) (job : Job) (talk : Lease.Talk Landing) :
    (f.proceed k job talk).store = f.store := by
  cases talk <;> rfl

theorem now_proceed (f : Crew σ) (k : Nat) (job : Job) (talk : Lease.Talk Landing) :
    (f.proceed k job talk).now = f.now := by
  cases talk <;> rfl

/-- **One move** at two services that answer its call in the same way. -/
theorem step_on (serve : Serve σ) (serve' : Serve τ) (Rel : σ → τ → Prop) (hs : Rel f.store s)
    (hcall : ∀ c, f.asked m = some c → (serve' s f.now c).1 = (serve f.store f.now c).1 ∧
      Rel (serve f.store f.now c).2 (serve' s f.now c).2) :
    ∃ s', (f.on s).step serve' m = (f.step serve m).on s' ∧ Rel (f.step serve m).store s' := by
  cases m with
  | tick c => exact ⟨s, rfl, hs⟩
  | start k job =>
    refine ⟨s, ?_⟩
    rw [step, step, show (f.on s).mayStart k job = f.mayStart k job from rfl,
      show (f.on s).now = f.now from rfl, show (f.on s).leases = f.leases from rfl]
    cases (if f.mayStart k job then job.talk f.now f.leases else none) with
    | none => exact ⟨rfl, hs⟩
    | some talk => exact ⟨proceed_on f s k job talk, (f.store_proceed k job talk).symm ▸ hs⟩
  | call k =>
    rw [step, step, show (f.on s).pending = f.pending from rfl]
    cases hp : f.pending.get? k with
    | none => exact ⟨s, rfl, hs⟩
    | some p =>
      obtain ⟨job, x | ⟨c, next⟩⟩ := p
      · exact ⟨s, rfl, hs⟩
      · obtain ⟨ha, hs'⟩ := hcall c (by rw [asked, hp])
        refine ⟨(serve' s f.now c).2, ?_, ?_⟩
        · show Crew.proceed { f.on s with store := (serve' s f.now c).2 } k job
            (next (serve' s f.now c).1) = _
          rw [ha]
          exact proceed_on { f with store := (serve f.store f.now c).2 } _ k job _
        · show Rel (Crew.proceed { f with store := (serve f.store f.now c).2 } k job _).store _
          rw [store_proceed]
          exact hs'

end Services

end Crew

/-! ### The stages of a job -/

/-- What taking a lock comes to, once it is known whether it was secured. -/
def Lease.taken (holder : String) (t : Terms) :
    Except LockError Bool → Except LockError (Option Lease)
  | .ok true => .ok (some ⟨holder, t, true⟩)
  | .ok false => .ok none
  | .error e => if e.isConflict then .ok none else .error e

namespace Pending

/-- A lock is to be taken, and nothing was done about it yet. -/
def inserting (holder : String) (t : Terms) : Pending :=
  ⟨.lock holder t, (Lease.acquire holder t).map .ofLock⟩

/-- A lock is to be taken, and its record could not be created. -/
def claiming (holder : String) (t : Terms) : Pending :=
  ⟨.lock holder t, .ask ⟨.claim, holder, t⟩ fun a => .done (.ofLock (Lease.taken holder t a))⟩

/-- A lease is to be given back. -/
def releasing (h : Nat) (l : Lease) : Pending := ⟨.unlock h, l.release.map .ofUnlock⟩

/-- A lease is to be extended, and the new terms are in order. -/
def extending (h : Nat) (atMostFor atLeastFor : Span) (l : Lease) (t : Terms) : Pending :=
  ⟨.extend h atMostFor atLeastFor, .ask ⟨.extend, l.holder, t⟩ fun
    | .error e => .done (.ofExtend (.error e, l))
    | .ok .extended => .done (.ofExtend (.ok (.extended { l with terms := t }), l.spent))
    | .ok .lost => .done (.ofExtend (.ok .lost, l.spent))
    | .ok .unsupported => .done (.ofExtend (.ok .unsupported, l))⟩

end Pending

theorem Lease.release_talk {l : Lease} (hv : l.valid = true) :
    l.release.map Landing.ofUnlock = .ask ⟨.release, l.holder, l.terms⟩ fun
      | .error e => .done (.ofUnlock (.error e, l))
      | .ok () => .done (.ofUnlock (.ok (), l.spent)) := by
  rw [Lease.release, if_pos hv]
  simp only [Dialog.map]
  congr 1
  funext a
  rcases a with _ | _ <;> rfl

theorem Lease.extend_talk {l : Lease} {now : Instant} {d e : Span} {t : Terms} (h : Nat)
    (hv : l.valid = true) (ht : Terms.make now l.terms.name d e = .ok t) :
    (l.extend now d e).map .ofExtend = (Pending.extending h d e l t).talk := by
  rw [Lease.extend, if_pos hv, ht]
  simp only [Dialog.map, Pending.extending]
  congr 1
  funext a
  rcases a with _ | (_ | _ | _) <;> rfl

namespace Crew

variable {σ : Type} {serve : Serve σ} {f g : Crew σ} {j k h : Nat} {holder : String} {t : Terms}
  {l : Lease} {d e : Span} {m : Move} {p : Pending} {s : σ} {ls : Registry Nat Lease}

/-- The stages that jobs are found in, among leases. A job that works on a lease has it as it is,
and it is not spent. -/
inductive Stage (ls : Registry Nat Lease) : Pending → Prop where
  /-- Before a record is created. -/
  | inserting (holder : String) (t : Terms) : Stage ls (.inserting holder t)
  /-- Before a record is claimed. -/
  | claiming (holder : String) (t : Terms) : Stage ls (.claiming holder t)
  /-- Before a lease is given back. -/
  | releasing (h : Nat) (l : Lease) (hl : ls.get? h = some l) (hv : l.valid = true) :
      Stage ls (.releasing h l)
  /-- Before a lease is extended. -/
  | extending (h : Nat) (d e : Span) (l : Lease) (t : Terms) (hl : ls.get? h = some l)
      (hv : l.valid = true) (hn : t.name = l.terms.name) : Stage ls (.extending h d e l t)

theorem Stage.lease (hp : Stage ls p) (hh : p.job.lease? = some h) :
    ∃ l, ls.get? h = some l ∧ l.valid = true := by
  cases hp with
  | inserting | claiming => cases hh
  | releasing _ l hl hv => cases hh; exact ⟨l, hl, hv⟩
  | extending _ _ _ l _ hl hv => cases hh; exact ⟨l, hl, hv⟩

/-- A stage lasts as long as the lease worked on stays as it is. -/
theorem Stage.mono {ls' : Registry Nat Lease} (hp : Stage ls p)
    (hl : ∀ h, p.job.lease? = some h → ls'.get? h = ls.get? h) : Stage ls' p := by
  cases hp with
  | inserting holder t => exact .inserting holder t
  | claiming holder t => exact .claiming holder t
  | releasing h l hh hv => exact .releasing h l ((hl h rfl).trans hh) hv
  | extending h d e l t hh hv hn => exact .extending h d e l t ((hl h rfl).trans hh) hv hn

/-- An extension that is under way works on its lease, and its terms are for the same lock. -/
theorem Stage.of_extend {talk : Lease.Talk Landing} (hp : Stage ls ⟨.extend h d e, talk⟩)
    (hl : ls.get? h = some l) : l.valid = true ∧ ∃ t, t.name = l.terms.name ∧
      (⟨.extend h d e, talk⟩ : Pending) = .extending h d e l t := by
  generalize hq : (⟨.extend h d e, talk⟩ : Pending) = q at hp
  cases hp with
  | inserting | claiming | releasing => cases hq
  | extending h' d' e' l' t hl' hv hn =>
    cases hq
    cases hl.symm.trans hl'
    exact ⟨hv, t, hn, rfl⟩

theorem worked_of_pending (hp : f.pending.get? k = some p) (hh : p.job.lease? = some h)
    (hl : f.leases.get? h = some l) : f.worked k = some l := by
  simp only [worked, hp, hh, hl, Option.bind_some]

/-! #### The call that a job makes next -/

theorem asked_inserting (hp : f.pending.get? k = some (.inserting holder t)) :
    f.asked (.call k) = some ⟨.insert, holder, t⟩ := by
  rw [asked, hp]
  rfl

theorem asked_claiming (hp : f.pending.get? k = some (.claiming holder t)) :
    f.asked (.call k) = some ⟨.claim, holder, t⟩ := by
  rw [asked, hp]
  rfl

theorem asked_releasing (hp : f.pending.get? k = some (.releasing h l)) (hv : l.valid = true) :
    f.asked (.call k) = some ⟨.release, l.holder, l.terms⟩ := by
  rw [asked, hp, Pending.releasing, Lease.release_talk hv]

theorem asked_extending (hp : f.pending.get? k = some (.extending h d e l t)) :
    f.asked (.call k) = some ⟨.extend, l.holder, t⟩ := by
  rw [asked, hp]
  rfl

theorem claiming_iff {n : String} (hp : f.pending.get? k = some (.claiming holder t)) :
    f.Claiming n k ↔ t.name = n := by
  rw [Claiming, hp, Option.any_some, Pending.claiming, Pending.claims, decide_eq_true_iff]

/-! ### What a call does at each stage -/

/-- A job goes on with the answer to its call. -/
theorem step_call {job : Job} {c : Call} {next : c.Answer → Lease.Talk Landing} {a : c.Answer}
    (hp : f.pending.get? k = some ⟨job, .ask c next⟩) (hs : serve f.store f.now c = (a, s)) :
    f.step serve (.call k) = { f with store := s }.proceed k job (next a) := by
  rw [step, hp]
  simp only [hs]

/-- A job takes its lock, by either of the calls that do this. -/
def Takes (serve : Serve σ) (f : Crew σ) (k : Nat) (holder : String) (t : Terms) (s : σ) : Prop :=
  (f.pending.get? k = some (.inserting holder t) ∧
    serve f.store f.now ⟨.insert, holder, t⟩ = (.ok true, s)) ∨
  (f.pending.get? k = some (.claiming holder t) ∧
    serve f.store f.now ⟨.claim, holder, t⟩ = (.ok true, s))

theorem call_taken (ht : f.Takes serve k holder t s) :
    f.step serve (.call k) =
      { f with
        store := s
        leases := f.leases.put k ⟨holder, t, true⟩
        pending := f.pending.erase k
        log := (k, .locked true) :: f.log } := by
  obtain ⟨hp, hs⟩ | ⟨hp, hs⟩ := ht
  · exact (step_call hp hs).trans rfl
  · exact (step_call hp hs).trans rfl

theorem call_found (hp : f.pending.get? k = some (.inserting holder t))
    (hs : serve f.store f.now ⟨.insert, holder, t⟩ = (.ok false, s)) :
    f.step serve (.call k) =
      { f with store := s, pending := f.pending.put k (.claiming holder t) } := by
  refine (step_call hp hs).trans ?_
  simp only [Dialog.map, proceed, Pending.claiming]
  congr 3

theorem call_refused (hp : f.pending.get? k = some (.claiming holder t))
    (hs : serve f.store f.now ⟨.claim, holder, t⟩ = (.ok false, s)) :
    f.step serve (.call k) =
      { f with store := s, pending := f.pending.erase k, log := (k, .locked false) :: f.log } :=
  (step_call hp hs).trans rfl

theorem call_released (hp : f.pending.get? k = some (.releasing h l)) (hv : l.valid = true)
    (hs : serve f.store f.now ⟨.release, l.holder, l.terms⟩ = (.ok (), s)) :
    f.step serve (.call k) =
      { f with
        store := s
        leases := f.leases.put h l.spent
        pending := f.pending.erase k
        log := (k, .unlocked) :: f.log } := by
  rw [Pending.releasing, Lease.release_talk hv] at hp
  exact (step_call hp hs).trans rfl

theorem call_extended (hp : f.pending.get? k = some (.extending h d e l t))
    (hs : serve f.store f.now ⟨.extend, l.holder, t⟩ = (.ok .extended, s)) :
    f.step serve (.call k) =
      { f with
        store := s
        leases := (f.leases.put h l.spent).put k { l with terms := t }
        pending := f.pending.erase k
        log := (k, .extension .extended) :: f.log } :=
  (step_call hp hs).trans rfl

theorem call_lost (hp : f.pending.get? k = some (.extending h d e l t))
    (hs : serve f.store f.now ⟨.extend, l.holder, t⟩ = (.ok .lost, s)) :
    f.step serve (.call k) =
      { f with
        store := s
        leases := f.leases.put h l.spent
        pending := f.pending.erase k
        log := (k, .extension .lost) :: f.log } :=
  (step_call hp hs).trans rfl

/-! ### All that a move can do -/

/-- **What a move does** to a crew whose jobs are in their stages, at a service that carries out its
calls. -/
inductive Effect (serve : Serve σ) (f : Crew σ) : Move → Crew σ → Prop where
  /-- The move makes no sense. -/
  | nothing (m : Move) : Effect serve f m f
  /-- The clock is set. -/
  | ticked (c : Clock) : Effect serve f (.tick c) { f with clock := c }
  /-- A job starts. It is not about to claim anything yet. -/
  | started (k : Nat) (p : Pending) (hk : f.pending.get? k = none) (hl : f.leases.get? k = none)
      (hf : ∀ h j q, p.job.lease? = some h → f.pending.get? j = some q → q.job.lease? ≠ some h)
      (hp : Stage f.leases p) (hc : ∀ n, p.claims n = false) :
      Effect serve f (.start k p.job) { f with pending := f.pending.put k p }
  /-- A job fails at its start. -/
  | failed (k : Nat) (job : Job) (e : LockError) (ls : Registry Nat Lease)
      (hl : ∀ j, ls.get? j = f.leases.get? j) (ps : Registry Nat Pending)
      (hp : ∀ j, ps.get? j = f.pending.get? j) :
      Effect serve f (.start k job)
        { f with leases := ls, pending := ps, log := (k, .failed e) :: f.log }
  /-- A record that was to be created is there. -/
  | found (k : Nat) (holder : String) (t : Terms) (s : σ)
      (hp : f.pending.get? k = some (.inserting holder t))
      (hs : serve f.store f.now ⟨.insert, holder, t⟩ = (.ok false, s)) :
      Effect serve f (.call k)
        { f with store := s, pending := f.pending.put k (.claiming holder t) }
  /-- A lock is taken. -/
  | taken (k : Nat) (holder : String) (t : Terms) (s : σ) (ht : f.Takes serve k holder t s) :
      Effect serve f (.call k)
        { f with
          store := s
          leases := f.leases.put k ⟨holder, t, true⟩
          pending := f.pending.erase k
          log := (k, .locked true) :: f.log }
  /-- A lock cannot be taken. -/
  | refused (k : Nat) (holder : String) (t : Terms) (s : σ)
      (hp : f.pending.get? k = some (.claiming holder t))
      (hs : serve f.store f.now ⟨.claim, holder, t⟩ = (.ok false, s)) :
      Effect serve f (.call k)
        { f with store := s, pending := f.pending.erase k, log := (k, .locked false) :: f.log }
  /-- A lease is given back. -/
  | released (k h : Nat) (l : Lease) (s : σ) (hp : f.pending.get? k = some (.releasing h l))
      (hl : f.leases.get? h = some l) (hv : l.valid = true)
      (hs : serve f.store f.now ⟨.release, l.holder, l.terms⟩ = (.ok (), s)) :
      Effect serve f (.call k)
        { f with
          store := s
          leases := f.leases.put h l.spent
          pending := f.pending.erase k
          log := (k, .unlocked) :: f.log }
  /-- A lease is extended. -/
  | extended (k h : Nat) (d e : Span) (l : Lease) (t : Terms) (s : σ)
      (hp : f.pending.get? k = some (.extending h d e l t)) (hl : f.leases.get? h = some l)
      (hv : l.valid = true) (hn : t.name = l.terms.name)
      (hs : serve f.store f.now ⟨.extend, l.holder, t⟩ = (.ok .extended, s)) :
      Effect serve f (.call k)
        { f with
          store := s
          leases := (f.leases.put h l.spent).put k { l with terms := t }
          pending := f.pending.erase k
          log := (k, .extension .extended) :: f.log }
  /-- A lease is lost. -/
  | lost (k h : Nat) (d e : Span) (l : Lease) (t : Terms) (s : σ)
      (hp : f.pending.get? k = some (.extending h d e l t)) (hl : f.leases.get? h = some l)
      (hv : l.valid = true) (hn : t.name = l.terms.name)
      (hs : serve f.store f.now ⟨.extend, l.holder, t⟩ = (.ok .lost, s)) :
      Effect serve f (.call k)
        { f with
          store := s
          leases := f.leases.put h l.spent
          pending := f.pending.erase k
          log := (k, .extension .lost) :: f.log }

/-- What holds of every crew that is got to from one without jobs. -/
structure Sound (f : Crew σ) : Prop where
  /-- Jobs are in their stages. -/
  stage : ∀ {k : Nat} {p : Pending}, f.pending.get? k = some p → Stage f.leases p
  /-- No two jobs work on one lease. -/
  alone : ∀ {j k h : Nat} {q p : Pending}, f.pending.get? j = some q → f.pending.get? k = some p →
    q.job.lease? = some h → p.job.lease? = some h → j = k
  /-- A job that is under way has got no lease. -/
  new : ∀ {k : Nat} {p : Pending}, f.pending.get? k = some p → f.leases.get? k = none

/-- Soundness has nothing to do with the service. -/
theorem Sound.on (hf : f.Sound) {τ : Type} (s : τ) : (f.on s).Sound := ⟨hf.stage, hf.alone, hf.new⟩

/-! #### The start of a job -/

theorem mayStart_spec {job : Job} (hm : f.mayStart k job = true) :
    f.pending.get? k = none ∧ f.leases.get? k = none ∧
      ∀ h j q, job.lease? = some h → f.pending.get? j = some q → q.job.lease? ≠ some h := by
  simp only [mayStart, isNew, Registry.has, Bool.and_eq_true, Bool.not_eq_true',
    Option.isSome_eq_false_iff, Option.isNone_iff_eq_none, Option.all_eq_true] at hm
  obtain ⟨⟨hp, hl⟩, hf⟩ := hm
  refine ⟨hp, hl, fun h j q hh hq => ?_⟩
  have := hf h hh
  simp only [isFree, List.all_eq_true, decide_eq_true_eq] at this
  exact this (j, q) (Registry.mem_of_get? hq)

theorem mayStart_lock (hp : f.pending.get? k = none) (hl : f.leases.get? k = none) (holder : String)
    (t : Terms) : f.mayStart k (.lock holder t) = true := by
  rw [mayStart, isNew, Registry.has, Registry.has, hl, hp]
  rfl

/-- A job that fails at its start leaves leases and jobs as they are. -/
theorem Effect.of_failed {job : Job} {er : LockError} (hk : f.pending.get? k = none)
    (hj : job.lease? = some h) (hl : f.leases.get? h = some l) :
    Effect serve f (.start k job)
      (f.proceed k job (.done { reply := .failed er, used := some l })) := by
  refine .failed k job er _ (fun j => ?_) _ fun j => ?_
  · simp only [Landing.settle, hj]
    rw [Registry.get?_put]
    split
    · subst j; exact hl.symm
    · rfl
  · rw [Registry.get?_erase]
    split
    · subst j; exact hk.symm
    · rfl

/-- The start of an attempt to take a lock. -/
theorem start_lock (serve : Serve σ) (hm : f.mayStart k (.lock holder t) = true) :
    f.step serve (.start k (.lock holder t)) =
      { f with pending := f.pending.put k (.inserting holder t) } := by
  rw [step, if_pos hm]
  rfl

/-- The start of a job that gives a lease back. -/
theorem start_unlock (hm : f.mayStart k (.unlock h) = true) (hl : f.leases.get? h = some l)
    (hv : l.valid = true) :
    f.step serve (.start k (.unlock h)) =
      { f with pending := f.pending.put k (.releasing h l) } := by
  rw [step, if_pos hm, Pending.releasing, Lease.release_talk hv]
  simp only [Job.talk, hl, Option.map_some, Lease.release_talk hv]
  rfl

/-- The start of an extension. -/
theorem start_extend (hm : f.mayStart k (.extend h d e) = true) (hl : f.leases.get? h = some l)
    (hv : l.valid = true) (ht : Terms.make f.now l.terms.name d e = .ok t) :
    f.step serve (.start k (.extend h d e)) =
      { f with pending := f.pending.put k (.extending h d e l t) } := by
  rw [step, if_pos hm]
  simp only [Job.talk, hl, Option.map_some, Lease.extend_talk h hv ht]
  rfl

/-- The start of a job. -/
theorem effect_start (serve : Serve σ) (f : Crew σ) (k : Nat) (job : Job) :
    Effect serve f (.start k job) (f.step serve (.start k job)) := by
  by_cases hm : f.mayStart k job = true
  · obtain ⟨hk, hl, hf⟩ := mayStart_spec hm
    cases job with
    | lock holder t =>
      rw [start_lock serve hm]
      exact .started k (.inserting holder t) hk hl hf (.inserting holder t) fun _ => rfl
    | unlock h =>
      cases hh : f.leases.get? h with
      | none => rw [step, if_pos hm]; simp only [Job.talk, hh]; exact .nothing _
      | some l =>
        by_cases hv : l.valid = true
        · rw [start_unlock hm hh hv]
          exact .started k (.releasing h l) hk hl hf (.releasing h l hh hv) fun _ => rfl
        · rw [step, if_pos hm]
          simp only [Job.talk, hh, Option.map_some, Lease.release, hv, if_false, Dialog.map,
            Landing.ofUnlock, Bool.false_eq_true]
          exact .of_failed hk rfl hh
    | extend h d e =>
      cases hh : f.leases.get? h with
      | none => rw [step, if_pos hm]; simp only [Job.talk, hh]; exact .nothing _
      | some l =>
        by_cases hv : l.valid = true
        · cases ht : Terms.make f.now l.terms.name d e with
          | error er =>
            rw [step, if_pos hm]
            simp only [Job.talk, hh, Option.map_some, Lease.extend, hv, if_true, ht, Dialog.map,
              Landing.ofExtend]
            exact .of_failed hk rfl hh
          | ok t =>
            rw [start_extend hm hh hv ht]
            exact .started k (.extending h d e l t) hk hl hf
              (.extending h d e l t hh hv (Terms.name_of_make ht)) fun _ => rfl
        · rw [step, if_pos hm]
          simp only [Job.talk, hh, Option.map_some, Lease.extend, hv, if_false, Dialog.map,
            Landing.ofExtend, Bool.false_eq_true]
          exact .of_failed hk rfl hh
  · rw [step, if_neg hm]
    exact .nothing _

/-! #### Every move -/

/-- **Every move has one of the effects.** -/
theorem Sound.effect (hf : f.Sound) (hr : serve.Reliable) (m : Move) :
    Effect serve f m (f.step serve m) := by
  cases m with
  | tick c => exact .ticked c
  | start k job => exact effect_start serve f k job
  | call k =>
    cases hp : f.pending.get? k with
    | none => rw [step, hp]; exact .nothing _
    | some p =>
      cases hf.stage hp with
      | inserting holder t =>
        obtain ⟨a, s, hs⟩ := hr.answers f.store f.now ⟨.insert, holder, t⟩
        cases a with
        | true =>
          have ht : f.Takes serve k holder t s := .inl ⟨hp, hs⟩
          rw [call_taken ht]
          exact .taken k holder t s ht
        | false => rw [call_found hp hs]; exact .found k holder t s hp hs
      | claiming holder t =>
        obtain ⟨a, s, hs⟩ := hr.answers f.store f.now ⟨.claim, holder, t⟩
        cases a with
        | true =>
          have ht : f.Takes serve k holder t s := .inr ⟨hp, hs⟩
          rw [call_taken ht]
          exact .taken k holder t s ht
        | false => rw [call_refused hp hs]; exact .refused k holder t s hp hs
      | releasing h l hl hv =>
        obtain ⟨a, s, hs⟩ := hr.answers f.store f.now ⟨.release, l.holder, l.terms⟩
        rw [call_released hp hv hs]
        exact .released k h l s hp hl hv hs
      | extending h d e l t hl hv hn =>
        obtain ⟨a, s, hs⟩ := hr.answers f.store f.now ⟨.extend, l.holder, t⟩
        cases a with
        | extended => rw [call_extended hp hs]; exact .extended k h d e l t s hp hl hv hn hs
        | lost => rw [call_lost hp hs]; exact .lost k h d e l t s hp hl hv hn hs
        | unsupported => exact (hr.supports f.store f.now l.holder t (congrArg Prod.fst hs)).elim

/-! ### Soundness is kept -/

/-- A job ends: it is no longer under way, and leases other than its own stay as they are. -/
theorem Sound.finish (hf : f.Sound) (hp : f.pending.get? k = some p)
    (hl : ∀ j, j ≠ k → p.job.lease? ≠ some j → ls.get? j = f.leases.get? j) (s : σ)
    (lg : List (Nat × Reply)) :
    Sound { f with store := s, leases := ls, pending := f.pending.erase k, log := lg } := by
  have hother : ∀ {j : Nat} {q : Pending}, (f.pending.erase k).get? j = some q →
      j ≠ k ∧ f.pending.get? j = some q := by
    intro j q hq
    rw [Registry.get?_erase] at hq
    split at hq
    · cases hq
    · exact ⟨‹_›, hq⟩
  constructor
  · intro j q hq
    obtain ⟨hj, hq⟩ := hother hq
    refine (hf.stage hq).mono fun h hh => hl h ?_ fun hh' => hj (hf.alone hq hp hh hh')
    intro hk
    obtain ⟨l, hl', -⟩ := (hf.stage hq).lease hh
    rw [hk, hf.new hp] at hl'
    cases hl'
  · intro i j h q q' hq hq' hh hh'
    exact hf.alone (hother hq).2 (hother hq').2 hh hh'
  · intro j q hq
    obtain ⟨hj, hq⟩ := hother hq
    refine (hl j hj fun hh => ?_).trans (hf.new hq)
    obtain ⟨l, hl', -⟩ := (hf.stage hp).lease hh
    rw [hf.new hq] at hl'
    cases hl'

/-- A job starts, or goes on to its next stage. -/
theorem Sound.goOn (hf : f.Sound) (hl : f.leases.get? k = none)
    (ha : ∀ h j q, p.job.lease? = some h → f.pending.get? j = some q →
      q.job.lease? = some h → j = k)
    (hp : Stage f.leases p) (s : σ) :
    Sound { f with store := s, pending := f.pending.put k p } := by
  have hcase : ∀ {j : Nat} {q : Pending}, (f.pending.put k p).get? j = some q →
      (j = k ∧ q = p) ∨ f.pending.get? j = some q := by
    intro j q hq
    rw [Registry.get?_put] at hq
    split at hq
    · cases hq; exact .inl ⟨‹_›, rfl⟩
    · exact .inr hq
  constructor
  · intro j q hq
    obtain ⟨rfl, rfl⟩ | hq := hcase hq
    · exact hp
    · exact hf.stage hq
  · intro i j h q q' hq hq' hh hh'
    obtain ⟨rfl, rfl⟩ | h₁ := hcase hq <;> obtain ⟨rfl, rfl⟩ | h₂ := hcase hq'
    · rfl
    · exact (ha h j q' hh h₂ hh').symm
    · exact ha h i q hh' h₁ hh
    · exact hf.alone h₁ h₂ hh hh'
  · intro j q hq
    obtain ⟨rfl, rfl⟩ | hq := hcase hq
    · exact hl
    · exact hf.new hq

theorem Takes.pending (ht : f.Takes serve k holder t s) :
    ∃ p, f.pending.get? k = some p ∧ p.job = .lock holder t := by
  obtain ⟨hp, -⟩ | ⟨hp, -⟩ := ht
  · exact ⟨_, hp, rfl⟩
  · exact ⟨_, hp, rfl⟩

theorem Sound.of_effect (hf : f.Sound) (he : Effect serve f m g) : g.Sound := by
  cases he with
  | nothing => exact hf
  | ticked c => exact ⟨hf.stage, hf.alone, hf.new⟩
  | started k p hk hl hfree hp =>
    exact hf.goOn hl (fun h j q hh hq hh' => (hfree h j q hh hq hh').elim) hp f.store
  | failed k job e ls hl ps hp =>
    constructor
    · intro j q hq
      exact (hf.stage ((hp j).symm.trans hq)).mono fun h _ => hl h
    · intro i j h q q' hq hq'
      exact hf.alone ((hp i).symm.trans hq) ((hp j).symm.trans hq')
    · intro j q hq
      exact (hl j).trans (hf.new ((hp j).symm.trans hq))
  | found k holder t s hp hs =>
    exact hf.goOn (p := .claiming holder t) (hf.new hp) (fun h j q hh => nomatch hh)
      (.claiming holder t) s
  | taken k holder t s ht =>
    obtain ⟨p, hp, -⟩ := ht.pending
    exact hf.finish hp (fun j hj _ => Registry.get?_put_of_ne hj _ _) s _
  | refused k holder t s hp hs => exact hf.finish hp (fun _ _ _ => rfl) s _
  | released k h l s hp hl hv hs =>
    refine hf.finish hp (fun j _ hj => Registry.get?_put_of_ne ?_ _ _) s _
    exact fun e => hj (congrArg some e.symm)
  | extended k h d e l t s hp hl hv hn hs =>
    refine hf.finish hp (fun j hj hj' => ?_) s _
    rw [Registry.get?_put_of_ne hj, Registry.get?_put_of_ne fun e => hj' (congrArg some e.symm)]
  | lost k h d e l t s hp hl hv hn hs =>
    refine hf.finish hp (fun j _ hj => Registry.get?_put_of_ne ?_ _ _) s _
    exact fun e => hj (congrArg some e.symm)

theorem Sound.step (hf : f.Sound) (hr : serve.Reliable) (m : Move) : (f.step serve m).Sound :=
  hf.of_effect (hf.effect hr m)

theorem Sound.play (hf : f.Sound) (hr : serve.Reliable) (ms : List Move) :
    (f.play serve ms).Sound := by
  induction ms generalizing f with
  | nil => exact hf
  | cons m ms ih => exact ih (hf.step hr m)

theorem sound_fresh (s : σ) (c : Clock) : (fresh s c).Sound where
  stage := fun h => nomatch h
  alone := fun h => nomatch h
  new := fun h => nomatch h

/-! ### Leases that run -/

/-- A lease among others that runs at a reading of the clock. -/
structure RunsAmong (ls : Registry Nat Lease) (now : Instant) (h : Nat) (l : Lease) : Prop where
  here : ls.get? h = some l
  valid : l.valid = true
  early : now < l.terms.atMostUntil

/-- A lease that runs. -/
abbrev Runs (f : Crew σ) (h : Nat) (l : Lease) : Prop := RunsAmong f.leases f.now h l

section Among

variable {now : Instant} {l' : Lease}

/-- A lease that runs after one was spent ran before, and is another one. -/
theorem RunsAmong.of_spent (hr : RunsAmong (ls.put h l.spent) now j l') :
    j ≠ h ∧ RunsAmong ls now j l' := by
  obtain ⟨hj, hv, hu⟩ := hr
  rw [Registry.get?_put] at hj
  split at hj
  · cases hj
    cases hv
  · exact ⟨‹_›, hj, hv, hu⟩

/-- A lease that runs after one was put in place is that one, or ran before. -/
theorem RunsAmong.of_put (hr : RunsAmong (ls.put k l) now j l') :
    (j = k ∧ l' = l) ∨ RunsAmong ls now j l' := by
  obtain ⟨hj, hv, hu⟩ := hr
  rw [Registry.get?_put] at hj
  split at hj
  · cases hj
    exact .inl ⟨‹_›, rfl⟩
  · exact .inr ⟨hj, hv, hu⟩

end Among

/-! ### Crews whose service always fails -/

section Failing

variable {c : Clock}

/-- Nobody has got a lease, and jobs do not get beyond their first call. -/
structure Barren (s : σ) (f : Crew σ) : Prop where
  store : f.store = s
  noLease : ∀ j, f.leases.get? j = none
  first : ∀ {k p}, f.pending.get? k = some p → ∃ holder t, p = .inserting holder t

/-- A call that fails ends its job. -/
theorem call_insert_of_error {er : LockError} (hp : f.pending.get? k = some (.inserting holder t))
    (hs : serve f.store f.now ⟨.insert, holder, t⟩ = (.error er, s)) :
    ∃ r, f.step serve (.call k) =
      { f with store := s, pending := f.pending.erase k, log := (k, r) :: f.log } := by
  refine ⟨(Landing.ofLock (Lease.taken holder t (.error er))).reply, (step_call hp hs).trans ?_⟩
  rw [Lease.taken]
  simp only [Dialog.map]
  by_cases hc : er.isConflict = true
  · rw [if_pos hc]
    rfl
  · rw [if_neg hc]
    rfl

theorem Barren.step (hf : Barren s f) (he : ∀ now c, ∃ e, serve s now c = (.error e, s))
    (m : Move) : Barren s (f.step serve m) := by
  cases m with
  | tick c => exact ⟨hf.store, hf.noLease, hf.first⟩
  | start k job =>
    have heff := effect_start serve f k job
    generalize f.step serve (.start k job) = g at heff
    cases heff with
    | nothing => exact hf
    | started k p hk hl hfree hp hc =>
      refine ⟨hf.store, hf.noLease, fun {j q} hq => ?_⟩
      rw [Registry.get?_put] at hq
      split at hq
      · cases hq
        cases hp with
        | inserting holder t => exact ⟨holder, t, rfl⟩
        | claiming holder t => cases (decide_eq_true rfl).symm.trans (hc t.name)
        | releasing h l hl => cases (hf.noLease h).symm.trans hl
        | extending h d e l t hl => cases (hf.noLease h).symm.trans hl
      · exact hf.first hq
    | failed k job e ls hl ps hp =>
      exact ⟨hf.store, fun j => (hl j).trans (hf.noLease j),
        fun hq => hf.first ((hp _).symm.trans hq)⟩
  | call k =>
    cases hp : f.pending.get? k with
    | none => rw [Crew.step, hp]; exact hf
    | some p =>
      obtain ⟨holder, t, rfl⟩ := hf.first hp
      obtain ⟨e, hserve⟩ := he f.now ⟨.insert, holder, t⟩
      rw [← hf.store] at hserve
      obtain ⟨r, hstep⟩ := call_insert_of_error hp hserve
      rw [hstep]
      refine ⟨hf.store, hf.noLease, fun {j q} hq => ?_⟩
      rw [Registry.get?_erase] at hq
      split at hq
      · cases hq
      · exact hf.first hq

theorem Barren.play (hf : Barren s f) (he : ∀ now c, ∃ e, serve s now c = (.error e, s))
    (ms : List Move) : Barren s (f.play serve ms) := by
  induction ms generalizing f with
  | nil => exact hf
  | cons m ms ih => exact ih (hf.step he m)

theorem barren_fresh (s : σ) (c : Clock) : Barren s (fresh s c) where
  store := rfl
  noLease := fun _ => rfl
  first := fun h => nomatch h

/-- **Where every call fails**, nobody ever gets a lease. -/
theorem noLease_of_failing (he : ∀ now c, ∃ e, serve s now c = (.error e, s)) (c : Clock)
    (ms : List Move) (j : Nat) : ((fresh s c).play serve ms).leases.get? j = none :=
  ((barren_fresh s c).play he ms).noLease j

end Failing

end Crew
end LeaseLock
