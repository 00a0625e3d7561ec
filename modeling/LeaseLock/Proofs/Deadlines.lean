import LeaseLock.Proofs.Attempts

/-!
# When a lock can be taken

Each time a lock is taken, extended or given back, that sets a deadline for its name: the end of the
lease, or, if it is given back, the time of release or the end of its minimum, whichever is later.
`deadline` reads the latest one off the replies that the nodes got. The clock may be set to any
reading at any time, and leases may be given back late or on old terms.

## What is proved

`attempts_decided`: the deadline is all that counts. While the lock is neither given back nor
extended, an attempt to take it is refused, and leaves the record alone, if it looks at a clock
before the deadline; the first one that looks at a clock that has come to the deadline gets the
lock. A name with no deadline is free, and whoever tries next has it.

This is what the end that is written down decides at every ledger service (`Sane.decided`), as the
record of a name ends at its deadline (`Recorded.lockUntil_play`).
-/

namespace LeaseLock

namespace Fleet

open Crew

variable {f g : Fleet} {k : Nat} {n : String} {l : Lease} {m : Move}

/-! ### The deadline of a name -/

/-- The reply that comes with a move, if a job ends by it. -/
def reply? (f : Fleet) (m : Move) : Option Reply :=
  (((f.step m).log.take ((f.step m).log.length - f.log.length)).head?).map Prod.snd

/-- The lease of a name, if this is one. -/
def named (n : String) (l : Lease) : Option Lease := if l.terms.name = n then some l else none

/-- The deadline that a move sets for a name, if it sets one. -/
def sets (f : Fleet) (n : String) : Move → Option Instant
  | .call k => match f.reply? (.call k) with
    | some (.locked true) =>
      (((f.step (.call k)).leases.get? k).bind (named n)).map (·.terms.atMostUntil)
    | some (.extension .extended) =>
      (((f.step (.call k)).leases.get? k).bind (named n)).map (·.terms.atMostUntil)
    | some .unlocked => ((f.worked k).bind (named n)).map fun l => max f.now l.terms.atLeastUntil
    | _ => none
  | _ => none

/-- The deadline of a name after a run: the latest one that was set, or else the one before. -/
def deadline (n : String) (d : Option Instant) (f : Fleet) : List Move → Option Instant
  | [] => d
  | m :: ms => deadline n ((f.sets n m).or d) (f.step m) ms

/-- Each move of a run is like this. -/
def Along (P : Fleet → Move → Prop) (f : Fleet) (ms : List Move) : Prop :=
  Crew.Along Store.serve P f ms

/-- No attempt looks at a clock that has come to the deadline in the move. -/
def Early (n : String) (d : Instant) (f : Fleet) : Move → Prop
  | .call k => f.Claiming n k → f.now < d
  | _ => True

instance (P : Fleet → Move → Prop) [∀ f m, Decidable (P f m)] (f : Fleet) (ms : List Move) :
    Decidable (Along P f ms) := inferInstanceAs (Decidable (Crew.Along Store.serve P f ms))

instance (n : String) (d : Instant) (f : Fleet) : (m : Move) → Decidable (Early n d f m)
  | .tick _ => inferInstanceAs (Decidable True)
  | .start _ _ => inferInstanceAs (Decidable True)
  | .call k => inferInstanceAs (Decidable (f.Claiming n k → f.now < d))

/-! ### The record has the deadline -/

/-- There is a record for every lease. -/
def Recorded (f : Fleet) : Prop :=
  ∀ h l, f.leases.get? h = some l → ∃ r, f.store.get? l.terms.name = some r

theorem Recorded.of_put (hf : f.Recorded) {s : Store} {h : Nat}
    (hl : ∃ r, s.get? l.terms.name = some r)
    (hs : ∀ n r, f.store.get? n = some r → ∃ r', s.get? n = some r') {j : Nat} {l' : Lease}
    (hj : (f.leases.put h l).get? j = some l') : ∃ r, s.get? l'.terms.name = some r := by
  rw [Registry.get?_put] at hj
  split at hj
  · cases hj
    exact hl
  · obtain ⟨r, hr⟩ := hf j l' hj
    exact hs _ r hr

theorem Recorded.of_effect (hf : f.Recorded) (he : Crew.Effect Store.serve f m g) : g.Recorded := by
  have hput : ∀ (n' : String) (r' : Record) (n : String) (r : Record), f.store.get? n = some r →
      ∃ r'', (f.store.put n' r').get? n = some r'' :=
    fun n' r' n r hr => Registry.exists_get?_put hr n' r'
  cases he with
  | nothing | ticked | started => exact hf
  | failed k job e ls hl => exact fun h l hh => hf h l ((hl h).symm.trans hh)
  | found k holder t s hp hs =>
    obtain ⟨rfl, -⟩ := Store.of_found hs
    exact hf
  | taken k holder t s ht =>
    obtain ⟨rfl, -⟩ := store_of_taken ht
    exact fun j l hj => hf.of_put ⟨_, Registry.get?_put_self _ _ _⟩ (hput _ _) hj
  | refused k holder t s hp hs =>
    obtain rfl := Store.of_refused hs
    exact hf
  | released k h l s hp hl hv hs =>
    obtain rfl := Store.of_released hs
    have hs : ∀ n r, f.store.get? n = some r →
        ∃ r', (f.store.release f.now l.terms).get? n = some r' :=
      fun n r hr => Store.exists_get?_perform hr ⟨.release, l.holder, l.terms⟩
    obtain ⟨r, hr⟩ := hf h l hl
    exact fun j l' hj => hf.of_put (l := l.spent) (hs _ r hr) hs hj
  | extended k h d e l t s hp hl hv hn hs =>
    obtain ⟨r, hr, -, -, rfl⟩ := Store.of_extended hs
    intro j l' hj
    rw [Registry.get?_put] at hj
    split at hj
    · cases hj
      exact ⟨_, Registry.get?_put_self _ _ _⟩
    · exact hf.of_put (l := l.spent) (hput _ _ _ r (hn ▸ hr)) (hput _ _) hj
  | lost k h d e l t s hp hl hv hn hs =>
    obtain rfl := Store.of_lost hs
    intro j l' hj
    exact hf.of_put (l := l.spent) (hf h l hl) (fun n r hr => ⟨r, hr⟩) hj

theorem reply?_of_log {r : Reply} (h : (f.step m).log = (k, r) :: f.log) : f.reply? m = some r := by
  rw [reply?, h, List.length_cons, Nat.add_sub_cancel_left]
  rfl

theorem reply?_of_same (h : (f.step m).log = f.log) : f.reply? m = none := by
  rw [reply?, h, Nat.sub_self]
  rfl

theorem sets_of_same (h : (f.step m).log = f.log) : f.sets n m = none := by
  cases m with
  | tick | start => rfl
  | call k => rw [sets, reply?_of_same h]

/-- A lease that somebody gets sets a deadline for its name. -/
theorem sets_of_got {r : Reply} (hlog : (f.step (.call k)).log = (k, r) :: f.log)
    (hr : r = .locked true ∨ r = .extension .extended)
    (hl : (f.step (.call k)).leases.get? k = some l) :
    f.sets n (.call k) = if l.terms.name = n then some l.terms.atMostUntil else none := by
  have hsets : f.sets n (.call k) = ((some l).bind (named n)).map (·.terms.atMostUntil) := by
    rw [sets, reply?_of_log hlog, ← hl]
    obtain rfl | rfl := hr <;> rfl
  rw [hsets, Option.bind_some, named]
  split <;> rfl

/-- A lease that is given back sets a deadline for its name. -/
theorem sets_of_unlocked (hlog : (f.step (.call k)).log = (k, .unlocked) :: f.log)
    (hl : f.worked k = some l) :
    f.sets n (.call k) = if l.terms.name = n then some (l.terms.releaseAt f.now) else none := by
  have hsets : f.sets n (.call k) =
      ((some l).bind (named n)).map fun l => max f.now l.terms.atLeastUntil := by
    rw [sets, reply?_of_log hlog, ← hl]
  rw [hsets, Option.bind_some, named]
  split <;> rfl

/-- The end of a record after one was put under a name. -/
theorem lockUntil_put (s : Store) (r : Record) (n' n : String) :
    ((s.put n' r).get? n).map Record.lockUntil =
      (if n' = n then some r.lockUntil else none).or ((s.get? n).map Record.lockUntil) := by
  by_cases hn : n' = n
  · subst hn
    simp
  · simp [hn, Registry.get?_put_of_ne (Ne.symm hn)]

/-- **One move**: the record of a name ends when the move says, or else when it ended before. -/
theorem Recorded.lockUntil_step (hf : f.Recorded) (he : Crew.Effect Store.serve f m (f.step m))
    (n : String) :
    ((f.step m).store.get? n).map Record.lockUntil =
      (f.sets n m).or ((f.store.get? n).map Record.lockUntil) := by
  generalize hg : f.step m = g at he ⊢
  cases he with
  | nothing => rw [sets_of_same (by rw [hg]), Option.none_or]
  | ticked | started | failed => rfl
  | found k holder t s hp hs =>
    obtain ⟨rfl, -⟩ := Store.of_found hs
    rw [sets_of_same (by rw [hg]), Option.none_or]
  | taken k holder t s ht =>
    obtain ⟨rfl, -⟩ := store_of_taken ht
    rw [lockUntil_put, sets_of_got (r := .locked true) (l := ⟨holder, t, true⟩) (by rw [hg])
      (.inl rfl) (by rw [hg]; exact Registry.get?_put_self _ _ _)]
  | refused k holder t s hp hs =>
    obtain rfl := Store.of_refused hs
    rw [sets, reply?_of_log (by rw [hg]), Option.none_or]
  | released k h l s hp hl hv hs =>
    obtain rfl := Store.of_released hs
    obtain ⟨r, hr⟩ := hf h l hl
    rw [sets_of_unlocked (by rw [hg]) (worked_of_pending hp rfl hl), Store.release_of_some hr,
      lockUntil_put]
  | extended k h d e l t s hp hl hv hn hs =>
    obtain ⟨r, -, -, -, rfl⟩ := Store.of_extended hs
    rw [lockUntil_put, sets_of_got (r := .extension .extended) (l := { l with terms := t })
      (by rw [hg]) (.inr rfl) (by rw [hg]; exact Registry.get?_put_self _ _ _)]
  | lost k h d e l t s hp hl hv hn hs =>
    obtain rfl := Store.of_lost hs
    rw [sets, reply?_of_log (by rw [hg]), Option.none_or]

/-- **Whole runs**: the record of a name ends at its deadline. -/
theorem Recorded.lockUntil_play (hf : f.Recorded) (hs : f.Sound) (n : String) (ms : List Move) :
    ((f.play ms).store.get? n).map Record.lockUntil =
      deadline n ((f.store.get? n).map Record.lockUntil) f ms := by
  induction ms generalizing f with
  | nil => rfl
  | cons m ms ih =>
    have he := effect hs m
    rw [play_cons, ih (hf.of_effect he) (hs.of_effect he), hf.lockUntil_step he n]
    rfl

theorem recorded_fresh (s : Store) (c : Clock) : (fresh s c).Recorded := fun _ _ h => nomatch h

/-! ### What the deadline decides -/

/-- To come before the deadline is to find the lease of its record running. -/
theorem Early.isOver {d : Instant} (h : Early n d f m) :
    Crew.Early n (Rule.memory.isOver d) f m := by
  cases m with
  | tick | start => trivial
  | call k => exact fun hc => decide_eq_false (Instant.not_le.2 (h hc))

/-- **The deadline decides on attempts.** After every run, whoever tries to take a lock without a
deadline gets it. For one with a deadline, as long as nobody gives it back or extends it, and nobody
who tries to take it has looked at a clock that has come to the deadline: its record stays as it is,
and an attempt gets the lock exactly if it looks at such a clock, which it does in its last call. -/
theorem attempts_decided (s : Store) (c : Clock) (ms : List Move) (n : String) :
    let f := (fresh s c).play ms
    match deadline n ((s.get? n).map Record.lockUntil) (fresh s c) ms with
    | none => ∀ k, f.Attempting n k → (f.step (.call k)).log = (k, .locked true) :: f.log
    | some d => ∀ ns, Along (Untouched n) f ns → Along (Early n d) f ns →
      let g := f.play ns
      g.store.get? n = f.store.get? n ∧ ∀ k, g.Attempting n k →
        (g.Claiming n k →
          (g.step (.call k)).log = (k, .locked (decide (d ≤ g.now))) :: g.log) ∧
        (¬g.Claiming n k → (g.step (.call k)).log = g.log ∧ (g.step (.call k)).Claiming n k) := by
  intro f
  have hs : f.Sane .memory := sane_play s c ms
  have hd := (recorded_fresh s c).lockUntil_play (sound_fresh s c) n ms
  rw [show (fresh s c).store = s from rfl] at hd
  rw [← hd]
  cases hr : f.store.get? n with
  | none =>
    have hx : f.store.ledger n = none := congrArg (Option.map Store.held) hr
    exact fun k hk => hs.call_of_none hx hk
  | some r =>
    intro ns hns hns' g
    obtain ⟨hg, hdecided⟩ := hs.decided (Store.ledger_of_get? hr) hns
      (hns'.mono fun f m => Early.isOver)
    exact ⟨Store.get?_of_ledger hg, hdecided⟩

/-- A lock is taken for half a minute. -/
def taking : List Move := [.start 0 (.lock "a" (.early "job" Terms.job_ne)), .call 0]

/-- Somebody else is refused after twenty seconds, and comes again when the half minute is over. -/
def comingAgain : List Move :=
  [.tick ⟨⟨20 * nanosPerSecond, by decide, by decide⟩⟩,
    .start 1 (.lock "b" (.early "job" Terms.job_ne)), .call 1, .call 1,
    .tick ⟨(Terms.early "job" Terms.job_ne).atMostUntil⟩,
    .start 2 (.lock "b" (.early "job" Terms.job_ne)), .call 2]

/-- He gets the lock, at the very end of the lease. -/
theorem taken_when_over :
    let f := (fresh [] ⟨.epoch⟩).play taking
    let d : Instant := ⟨30 * nanosPerSecond, by decide, by decide⟩
    deadline "job" none (fresh [] ⟨.epoch⟩) taking = some d ∧
      Along (Untouched "job") f comingAgain ∧ Along (Early "job" d) f comingAgain ∧
      (f.play comingAgain).Attempting "job" 2 ∧ (f.play comingAgain).Claiming "job" 2 ∧
      ((f.play comingAgain).step (.call 2)).log =
        (2, .locked true) :: (f.play comingAgain).log := by
  intro f d
  have hd : deadline "job" none (fresh [] ⟨.epoch⟩) taking = some d := by decide
  have hu : Along (Untouched "job") f comingAgain := by decide
  have he : Along (Early "job" d) f comingAgain := by decide
  have hk : (f.play comingAgain).Attempting "job" 2 := by decide
  have hc : (f.play comingAgain).Claiming "job" 2 := by decide
  have h := attempts_decided [] ⟨.epoch⟩ taking "job"
  simp only [Registry.get?_nil, Option.map_none, hd] at h
  exact ⟨hd, hu, he, hk, hc, ((h comingAgain hu he).2 2 hk).1 hc⟩

end Fleet
end LeaseLock
