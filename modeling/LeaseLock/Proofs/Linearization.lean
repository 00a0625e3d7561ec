import LeaseLock.Proofs.LedgerCrews

/-!
# Taking a lock acts at one moment

Taking a lock is up to two storage calls: the record is created, or, where there is one already, it
is claimed. In between, other nodes may claim, extend or give back that record, and the clock may be
set to any reading. Nevertheless nobody can tell: the lock might as well have been taken, or
refused, in one step at the moment of its last call (`play_moments`).

In the other run a lock that is to be taken is under way from its start, and nothing is said of how
it is taken but the one step (`stepWhole`).

The reason is that no record is ever taken away. So a record that could not be created is still
there when it is to be claimed, and the first call has not changed anything.

## Honest scope

A job that has not made its last call by the end of the run has done nothing in the other run. It
has no result and has changed nothing.
-/

namespace LeaseLock

/-- Takes a lock in one step: a record that is absent is created, one whose lease has lapsed is
claimed, and any other one is left alone. -/
def Store.acquire (s : Store) (holder : String) (now : Instant) (t : Terms) : Bool × Store :=
  match s.get? t.name with
  | none => (true, s.put t.name ⟨t.atMostUntil, now, holder⟩)
  | some r =>
    if r.lockUntil ≤ now then (true, s.put t.name ⟨t.atMostUntil, now, holder⟩) else (false, s)

namespace Store

variable {s : Store} {holder : String} {now : Instant} {t : Terms} {r : Record}

theorem acquire_of_none (hr : s.get? t.name = none) :
    s.acquire holder now t = (true, s.put t.name ⟨t.atMostUntil, now, holder⟩) := by
  rw [acquire, hr]

theorem acquire_of_lapsed (hr : s.get? t.name = some r) (hu : r.lockUntil ≤ now) :
    s.acquire holder now t = (true, s.put t.name ⟨t.atMostUntil, now, holder⟩) := by
  rw [acquire, hr]
  exact if_pos hu

theorem acquire_of_running (hr : s.get? t.name = some r) (hu : now < r.lockUntil) :
    s.acquire holder now t = (false, s) := by
  rw [acquire, hr]
  exact if_neg (Instant.not_le.2 hu)

end Store

namespace Pending

/-- A lock is to be taken in one step. -/
def atOnce (holder : String) (t : Terms) : Pending :=
  ⟨.lock holder t, .ask ⟨.insert, holder, t⟩ fun a => .done (.ofLock (Lease.taken holder t a))⟩

/-- A job with nothing done about it yet, if it is to take a lock. -/
def rewound : Pending → Pending
  | ⟨.lock holder t, _⟩ => .atOnce holder t
  | p => p

end Pending

namespace Fleet

open Crew

variable {f : Fleet} {k h : Nat} {holder : String} {t : Terms}

/-- Makes a move; a lock is taken in one step, and is under way until then. -/
def stepWhole (f : Fleet) : Move → Fleet
  | .start k (.lock holder t) =>
    if f.mayStart k (.lock holder t) then { f with pending := f.pending.put k (.atOnce holder t) }
    else f
  | .call k => match f.pending.get? k with
    | some ⟨.lock holder t, _⟩ =>
      let (taken, s) := f.store.acquire holder f.now t
      { f with store := s }.proceed k (.lock holder t)
        (.done (.ofLock (Lease.taken holder t (.ok taken))))
    | _ => f.step (.call k)
  | m => f.step m

/-- Makes moves one after the other; locks are taken in one step each. -/
def playWhole (f : Fleet) (ms : List Move) : Fleet := ms.foldl stepWhole f

/-- The move is a storage call that is not the last one of its job. -/
def isPartial (f : Fleet) : Move → Bool
  | .call k => (f.step (.call k)).pending.has k
  | _ => false

/-- The moves without the storage calls that are not the last ones of their jobs. -/
def moments (f : Fleet) : List Move → List Move
  | [] => []
  | m :: ms => if f.isPartial m then (f.step m).moments ms else m :: (f.step m).moments ms

/-- The fleet with its attempts to take locks undone. -/
def rewound (f : Fleet) : Fleet := { f with pending := f.pending.mapValues Pending.rewound }

/-! ### Undoing attempts -/

theorem pending_rewound {p : Pending} (hp : f.pending.get? k = some p) :
    f.rewound.pending.get? k = some p.rewound := by
  rw [rewound, Registry.get?_mapValues, hp, Option.map_some]

/-- Undoing keeps the jobs themselves, so that the same jobs may start. -/
theorem mayStart_rewound (job : Job) : f.rewound.mayStart k job = f.mayStart k job := by
  have hjob : ∀ p : Pending, p.rewound.job = p.job := by
    rintro ⟨_ | _ | _, talk⟩ <;> rfl
  have hfree : f.rewound.isFree = f.isFree := by
    funext h
    simp only [isFree, rewound, Registry.mapValues, List.all_map, Function.comp_def, hjob]
  have hhas : f.rewound.pending.has k = f.pending.has k := by
    rw [Registry.has, rewound, Registry.get?_mapValues, Option.isSome_map, Registry.has]
  simp only [mayStart, isNew, hfree, hhas]
  rfl

/-- A job ends alike. -/
theorem rewound_end (job : Job) (x : Landing) :
    rewound (f.proceed k job (.done x)) = f.rewound.proceed k job (.done x) := by
  simp only [proceed, rewound, Registry.mapValues_erase]

/-- A job that goes on, and has nothing to undo by then, goes on alike. -/
theorem rewound_proceed {job : Job} {talk : Lease.Talk Landing}
    (ht : Pending.rewound ⟨job, talk⟩ = ⟨job, talk⟩) :
    rewound (f.proceed k job talk) = f.rewound.proceed k job talk := by
  cases talk with
  | done x => exact rewound_end job x
  | ask c next => simp only [proceed, rewound, Registry.mapValues_put, ht]

theorem step_start_of_some {job : Job} {talk : Lease.Talk Landing}
    (ht : (if f.mayStart k job then job.talk f.now f.leases else none) = some talk) :
    f.step (.start k job) = f.proceed k job talk := by
  rw [step, Crew.step, ht]

theorem step_start_of_none {job : Job}
    (ht : (if f.mayStart k job then job.talk f.now f.leases else none) = none) :
    f.step (.start k job) = f := by
  rw [step, Crew.step, ht]

/-- A job on a lease has nothing to undo at its start. -/
theorem rewound_start_lease {job : Job} (hj : job.lease? = some h) :
    (f.step (.start k job)).rewound = f.rewound.step (.start k job) := by
  have hsame :
      (if f.rewound.mayStart k job then job.talk f.rewound.now f.rewound.leases else none) =
        if f.mayStart k job then job.talk f.now f.leases else none := by
    rw [mayStart_rewound]
    rfl
  have hjob : ∀ talk, Pending.rewound ⟨job, talk⟩ = ⟨job, talk⟩ := by
    intro talk
    cases job with
    | lock holder t => cases hj
    | unlock h => rfl
    | extend h d e => rfl
  cases ht : (if f.mayStart k job then job.talk f.now f.leases else none) with
  | none => rw [step_start_of_none ht, step_start_of_none (hsame.trans ht)]
  | some talk =>
    rw [step_start_of_some ht, step_start_of_some (hsame.trans ht)]
    exact rewound_proceed (hjob talk)

/-- An attempt to take a lock makes a call, so that it is under way after its start. -/
theorem rewound_start_lock :
    (f.step (.start k (.lock holder t))).rewound =
      f.rewound.stepWhole (.start k (.lock holder t)) := by
  rw [stepWhole, mayStart_rewound]
  by_cases hm : f.mayStart k (.lock holder t) = true
  · have hstep : f.step (.start k (.lock holder t)) = _ := start_lock Store.serve hm
    rw [hstep, if_pos hm]
    simp only [rewound, Registry.mapValues_put]
    rfl
  · rw [if_neg hm, step_start_of_none (if_neg hm)]

theorem rewound_start (job : Job) :
    (f.step (.start k job)).rewound = f.rewound.stepWhole (.start k job) := by
  cases job with
  | lock holder t => exact rewound_start_lock
  | unlock h => exact rewound_start_lease rfl
  | extend h d e => exact rewound_start_lease rfl

/-! ### One move -/

/-- The other run leaves the move out, if it is not the last call of its job, and else makes it. -/
def Matched (f : Fleet) (m : Move) : Prop :=
  (f.step m).rewound = if f.isPartial m then f.rewound else f.rewound.stepWhole m

/-- A call that is not the last one of its job is undone. -/
theorem Matched.of_partial {g : Fleet} {p : Pending} (hstep : f.step (.call k) = g)
    (hk : g.pending.get? k = some p) (hg : g.rewound = f.rewound) : f.Matched (.call k) := by
  have hpartial : f.isPartial (.call k) = true := by
    show (f.step (.call k)).pending.has k = true
    rw [hstep, Registry.has, hk, Option.isSome_some]
  rw [Matched, hpartial, hstep, hg]
  rfl

/-- The last call of a job is not left out. -/
theorem Matched.of_last {g : Fleet} (hstep : f.step (.call k) = g) (hk : g.pending.get? k = none)
    (hg : g.rewound = f.rewound.stepWhole (.call k)) : f.Matched (.call k) := by
  have hlast : f.isPartial (.call k) = false := by
    show (f.step (.call k)).pending.has k = false
    rw [hstep, Registry.has, hk, Option.isSome_none]
  rw [Matched, hlast, hstep, hg]
  rfl

/-- The last call of a job that takes a lock does what is done in one step. -/
theorem rewound_locked {talk : Lease.Talk Landing} {taken : Bool} {s : Store}
    (hp : f.pending.get? k = some ⟨.lock holder t, talk⟩)
    (hs : f.store.acquire holder f.now t = (taken, s)) :
    rewound ({ f with store := s }.proceed k (.lock holder t)
      (.done (.ofLock (Lease.taken holder t (.ok taken))))) = f.rewound.stepWhole (.call k) := by
  have hs' : f.rewound.store.acquire holder f.rewound.now t = (taken, s) := hs
  rw [rewound_end, stepWhole, pending_rewound hp]
  simp only [Pending.rewound, Pending.atOnce, hs']
  rfl

/-- The first call of an attempt takes the lock where there is no record, and is undone where there
is one: the job is back at its start. -/
theorem matched_inserting (hp : f.pending.get? k = some (.inserting holder t)) :
    f.Matched (.call k) := by
  cases hr : f.store.get? t.name with
  | none =>
    have hcall : Store.serve f.store f.now ⟨.insert, holder, t⟩ = (.ok true, _) :=
      Store.serve_eq_iff.2 (Store.insert_of_none hr)
    exact .of_last (call_taken (.inl ⟨hp, hcall⟩)) (Registry.get?_erase_self k _)
      (rewound_locked hp (Store.acquire_of_none hr))
  | some r =>
    have hcall : Store.serve f.store f.now ⟨.insert, holder, t⟩ = (.ok false, _) :=
      Store.serve_eq_iff.2 (Store.insert_of_some hr)
    have hp' : f.rewound.pending.get? k = some (.atOnce holder t) := pending_rewound hp
    refine .of_partial (call_found hp hcall) (Registry.get?_put_self k _ _) ?_
    simp only [rewound, Registry.mapValues_put]
    congr 1
    exact Registry.put_of_get? hp'

/-- The second call of an attempt decides on it, as the record is still there. -/
theorem matched_claiming (hf : f.Sane .memory)
    (hp : f.pending.get? k = some (.claiming holder t)) : f.Matched (.call k) := by
  obtain ⟨r, hr⟩ := record_of_claiming hf hp
  have hended : (f.pending.erase k).get? k = none := Registry.get?_erase_self k _
  by_cases hu : r.lockUntil ≤ f.now
  · have hcall : Store.serve f.store f.now ⟨.claim, holder, t⟩ = (.ok true, _) :=
      Store.serve_eq_iff.2 (Store.claim_of_lapsed hr hu)
    exact .of_last (call_taken (.inr ⟨hp, hcall⟩)) hended
      (rewound_locked hp (Store.acquire_of_lapsed hr hu))
  · have hu : f.now < r.lockUntil := Instant.not_le.1 hu
    have hcall : Store.serve f.store f.now ⟨.claim, holder, t⟩ = (.ok false, _) :=
      Store.serve_eq_iff.2 (Store.claim_of_running hr hu)
    exact .of_last (call_refused hp hcall) hended
      (rewound_locked hp (Store.acquire_of_running hr hu))

/-- A call on a lease is the same one in the other run. -/
theorem stepWhole_of_lease {job : Job} {talk : Lease.Talk Landing} (hj : job.lease? = some h)
    (hp : f.rewound.pending.get? k = some ⟨job, talk⟩) :
    f.rewound.stepWhole (.call k) = f.rewound.step (.call k) := by
  rw [stepWhole, hp]
  cases job with
  | lock holder t => cases hj
  | unlock h => rfl
  | extend h d e => rfl

/-- **One call**: undone if it is not the last one of its job, and else made in one step. -/
theorem matched_call (hf : f.Sane .memory) (k : Nat) : f.Matched (.call k) := by
  have hended : (f.pending.erase k).get? k = none := Registry.get?_erase_self k _
  cases hp : f.pending.get? k with
  | none =>
    have hp' : f.rewound.pending.get? k = none := by
      rw [rewound, Registry.get?_mapValues, hp, Option.map_none]
    have hstep : f.step (.call k) = f := by rw [step, Crew.step, hp]
    refine .of_last hstep hp ?_
    rw [stepWhole, hp', step, Crew.step, hp']
  | some p =>
    have hp' := pending_rewound hp
    cases hf.sound.stage hp with
    | inserting holder t => exact matched_inserting hp
    | claiming holder t => exact matched_claiming hf hp
    | releasing h l hl hv =>
      have hcall : Store.serve f.store f.now ⟨.release, l.holder, l.terms⟩ = (.ok (), _) := rfl
      refine .of_last (call_released hp hv hcall) hended ?_
      rw [stepWhole_of_lease rfl hp', step, call_released hp' hv hcall]
      simp only [rewound, Registry.mapValues_erase]
    | extending h d e l t hl hv hn =>
      obtain ⟨r, hr, hb, hu, hx⟩ | ⟨-, hx⟩ := f.store.extend_cases l.holder f.now t
      · refine .of_last (call_extended hp (Store.serve_eq_iff.2 hx)) hended ?_
        rw [stepWhole_of_lease rfl hp', step, call_extended hp' (Store.serve_eq_iff.2 hx)]
        simp only [rewound, Registry.mapValues_erase]
      · refine .of_last (call_lost hp (Store.serve_eq_iff.2 hx)) hended ?_
        rw [stepWhole_of_lease rfl hp', step, call_lost hp' (Store.serve_eq_iff.2 hx)]
        simp only [rewound, Registry.mapValues_erase]

/-- **One move** of the run, and what it is in the other one. -/
theorem matched (hf : f.Sane .memory) (m : Move) : f.Matched m := by
  cases m with
  | tick c => rfl
  | start k job => exact rewound_start job
  | call k => exact matched_call hf k

/-! ### Whole runs -/

theorem rewound_play (hf : f.Sane .memory) (ms : List Move) :
    (f.play ms).rewound = f.rewound.playWhole (f.moments ms) := by
  induction ms generalizing f with
  | nil => rfl
  | cons m ms ih =>
    have hs : (f.step m).Sane .memory := hf.step m
    rw [play_cons, ih hs, matched hf m, moments]
    split
    · rfl
    · rfl

/-- Only storage calls are left out, and the others stay in their order. -/
theorem moments_sublist (f : Fleet) (ms : List Move) : (f.moments ms).Sublist ms := by
  induction ms generalizing f with
  | nil => exact .slnil
  | cons m ms ih =>
    rw [moments]
    split
    · exact (ih _).cons m
    · exact (ih _).cons_cons m

/-- **Taking a lock acts at the moment of its last storage call.** Whatever nodes do at a store and
however the clock is set meanwhile, all results, all leases and the store itself are as if each lock
had been taken or refused in one step then. -/
theorem play_moments (s : Store) (c : Clock) (ms : List Move) :
    let f := (fresh s c).play ms
    let g := (fresh s c).playWhole ((fresh s c).moments ms)
    g.store = f.store ∧ g.log = f.log ∧ g.leases = f.leases ∧ g.clock = f.clock := by
  have hrun : ((fresh s c).play ms).rewound =
      (fresh s c).playWhole ((fresh s c).moments ms) := rewound_play (sane_play s c []) ms
  intro f g
  have hg : g = f.rewound := hrun.symm
  rw [hg]
  exact ⟨rfl, rfl, rfl, rfl⟩

end Fleet
end LeaseLock
