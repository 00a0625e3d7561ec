import LeaseLock.Proofs.Fleet

/-!
# Leases and the store agree

A lease runs while it is not spent and the clock is before its end. In an orderly run the clock is
never set back, and a lease is given back or extended only while it runs. After every orderly run,
from any store, a lease that runs is the only one of its name, the record of that name has its end
and its holder, extensions of it succeed, and nobody gets the lock (`holds_play`).

Locks may be taken on any terms, old ones too. The invariant is `Coherent`: that a lease that runs
is the only one, and what its record is. A lease that has lapsed is not tied to its record, which
may be somebody else's by then; so nothing is left of it once such a lease may be given back.
-/

namespace LeaseLock
namespace Fleet

open Crew

variable {f g : Fleet} {j k h : Nat} {l : Lease} {n : String}

/-! ### Orderly runs -/

/-- The move does not set the clock back, nor touch a lease that has lapsed. -/
def InOrder (f : Fleet) : Move → Prop
  | .tick c => f.now ≤ c.reading
  | .start _ _ => True
  | .call k => ∀ l ∈ f.worked k, f.now < l.terms.atMostUntil

instance (f : Fleet) : (m : Move) → Decidable (f.InOrder m)
  | .tick c => inferInstanceAs (Decidable (f.now ≤ c.reading))
  | .start _ _ => inferInstanceAs (Decidable True)
  | .call k => inferInstanceAs (Decidable (∀ l ∈ f.worked k, f.now < l.terms.atMostUntil))

/-- All moves of a run are in order. -/
def Orderly (f : Fleet) (ms : List Move) : Prop := Along Store.serve InOrder f ms

instance (f : Fleet) (ms : List Move) : Decidable (f.Orderly ms) :=
  inferInstanceAs (Decidable (Along Store.serve InOrder f ms))

/-- The leases that run agree with the store. -/
structure Coherent (f : Fleet) : Prop where
  /-- The record has the end and the holder of the lease. -/
  record : ∀ {h : Nat} {l : Lease}, f.Runs h l →
    ∃ since, f.store.get? l.terms.name = some ⟨l.terms.atMostUntil, since, l.holder⟩
  /-- There is one lease of a name at most. -/
  only : ∀ {h j : Nat} {l l' : Lease}, f.Runs h l → f.Runs j l' →
    l'.terms.name = l.terms.name → j = h

/-! ### Coherence is kept -/

/-- Nothing but the end of leases. -/
theorem Coherent.shrink (hf : f.Coherent) (hl : ∀ {h l}, g.Runs h l → f.Runs h l)
    (hs : ∀ {h l}, g.Runs h l → g.store.get? l.terms.name = f.store.get? l.terms.name) :
    g.Coherent where
  record := fun hr => by rw [hs hr]; exact hf.record (hl hr)
  only := fun hr hr' hn => hf.only (hl hr) (hl hr') hn

/-- One lease is granted, and the other ones that run are of other names. -/
theorem Coherent.grant (hf : f.Coherent) {r : Record} (hs : g.store = f.store.put l.terms.name r)
    (hu : r.lockUntil = l.terms.atMostUntil) (hb : r.lockedBy = l.holder)
    (hl : ∀ {j l'}, g.Runs j l' → (j = k ∧ l' = l) ∨ (f.Runs j l' ∧ l'.terms.name ≠ l.terms.name)) :
    g.Coherent where
  record := by
    intro j l' hr
    rw [hs]
    obtain ⟨-, rfl⟩ | ⟨hr, hn⟩ := hl hr
    · refine ⟨r.lockedAt, ?_⟩
      rw [Registry.get?_put_self, ← hu, ← hb]
    · rw [Registry.get?_put_of_ne hn]
      exact hf.record hr
  only := by
    intro i j l₁ l₂ h₁ h₂ hn
    obtain ⟨rfl, rfl⟩ | ⟨h₁, hn₁⟩ := hl h₁ <;> obtain ⟨rfl, rfl⟩ | ⟨h₂, hn₂⟩ := hl h₂
    · rfl
    · exact (hn₂ hn).elim
    · exact (hn₁ hn.symm).elim
    · exact hf.only h₁ h₂ hn

/-- While a lock may be taken, no lease of its name runs. -/
theorem Coherent.name_ne_of_free (hf : f.Coherent) (hr : f.Runs h l)
    (hfree : ∀ r, f.store.get? n = some r → r.lockUntil ≤ f.now) : l.terms.name ≠ n := by
  rintro rfl
  obtain ⟨_, hs⟩ := hf.record hr
  exact Instant.not_le.2 hr.early (hfree _ hs)

/-- **One move** that is in order keeps leases and the store in agreement. -/
theorem Coherent.step (hf : f.Coherent) {m : Move} (hm : f.InOrder m)
    (he : Crew.Effect Store.serve f m g) : g.Coherent := by
  cases he with
  | nothing => exact hf
  | ticked c =>
    refine hf.shrink (fun hr => ?_) fun _ => rfl
    exact ⟨hr.here, hr.valid, Instant.lt_of_le_of_lt hm hr.early⟩
  | started => exact hf.shrink (fun hr => ⟨hr.here, hr.valid, hr.early⟩) fun _ => rfl
  | failed k job e ls hl =>
    exact hf.shrink (fun hr => ⟨(hl _).symm.trans hr.here, hr.valid, hr.early⟩) fun _ => rfl
  | found k holder t s hp hs =>
    obtain ⟨rfl, -⟩ := Store.of_found hs
    exact hf.shrink (fun hr => ⟨hr.here, hr.valid, hr.early⟩) fun _ => rfl
  | taken k holder t s ht =>
    obtain ⟨rfl, hfree⟩ := store_of_taken ht
    refine hf.grant (k := k) (l := ⟨holder, t, true⟩) rfl rfl rfl fun hr => ?_
    exact (RunsAmong.of_put hr).imp_right fun hr => ⟨hr, hf.name_ne_of_free hr hfree⟩
  | refused k holder t s hp hs =>
    obtain rfl := Store.of_refused hs
    exact hf.shrink (fun hr => ⟨hr.here, hr.valid, hr.early⟩) fun _ => rfl
  | released k h l s hp hl hv hs =>
    obtain rfl := Store.of_released hs
    -- The lease ran, so no other lease of the name does.
    have hold : f.Runs h l := ⟨hl, hv, hm l (worked_of_pending hp rfl hl)⟩
    refine hf.shrink (fun hr => (RunsAmong.of_spent hr).2) fun hr => ?_
    obtain ⟨hj, hr⟩ := RunsAmong.of_spent hr
    have hn := fun hn => hj (hf.only hold hr hn)
    exact Store.get?_perform_of_ne (c := ⟨.release, l.holder, l.terms⟩) hn
  | extended k h d e l t s hp hl hv hn hs =>
    obtain ⟨r, -, hb, -, rfl⟩ := Store.of_extended hs
    have hold : f.Runs h l := ⟨hl, hv, hm l (worked_of_pending hp rfl hl)⟩
    refine hf.grant (k := k) (l := { l with terms := t }) rfl rfl hb fun hr => ?_
    refine (RunsAmong.of_put hr).imp_right fun hr => ?_
    obtain ⟨hj, hr⟩ := RunsAmong.of_spent hr
    exact ⟨hr, fun hn' => hj (hf.only hold hr (hn'.trans hn))⟩
  | lost k h d e l t s hp hl hv hn hs =>
    obtain rfl := Store.of_lost hs
    exact hf.shrink (fun hr => (RunsAmong.of_spent hr).2) fun _ => rfl

/-! ### Whole runs -/

theorem Coherent.play (hf : f.Coherent) (hs : f.Sound) {ms : List Move} (hms : f.Orderly ms) :
    (f.play ms).Coherent := by
  induction ms generalizing f with
  | nil => exact hf
  | cons m ms ih => exact ih (hf.step hms.1 (effect hs m)) (hs.step Store.reliable m) hms.2

theorem coherent_fresh (s : Store) (c : Clock) : (fresh s c).Coherent where
  record := fun hr => nomatch hr.here
  only := fun hr => nomatch hr.here

/-! ### What it is good for -/

/-- What holds of a lease that runs. -/
structure Holds (f : Fleet) (h : Nat) (l : Lease) : Prop where
  /-- It is the only one of its name. -/
  only : ∀ j l', f.Runs j l' → l'.terms.name = l.terms.name → j = h ∧ l' = l
  /-- The record of its name has its end and its holder. -/
  record : ∃ since, f.store.get? l.terms.name = some ⟨l.terms.atMostUntil, since, l.holder⟩
  /-- It is extended to any durations that are in order. -/
  renews : ∀ k d e t, Terms.make f.now l.terms.name d e = .ok t →
    f.mayStart k (.extend h d e) = true →
    let g := (f.step (.start k (.extend h d e))).step (.call k)
    g.log = (k, .extension .extended) :: f.log ∧ g.leases.get? k = some { l with terms := t }
  /-- Extensions that are under way succeed, if they make their call before its end. -/
  extending : ∀ k d e talk, f.pending.get? k = some ⟨.extend h d e, talk⟩ →
    (f.step (.call k)).log = (k, .extension .extended) :: f.log
  /-- Nobody gets the lock. -/
  refuses : ∀ k holder t talk, f.pending.get? k = some ⟨.lock holder t, talk⟩ →
    t.name = l.terms.name → (f.step (.call k)).store = f.store ∧
      (f.step (.call k)).leases = f.leases ∧
      ((f.step (.call k)).log = f.log ∨ (f.step (.call k)).log = (k, .locked false) :: f.log)

/-- The call of an extension of a lease that runs. -/
theorem Coherent.call_extend (hf : f.Coherent) (hr : f.Runs h l) {d e : Span} {t : Terms}
    (hp : f.pending.get? k = some (.extending h d e l t)) (hn : t.name = l.terms.name) :
    (f.step (.call k)).log = (k, .extension .extended) :: f.log ∧
      (f.step (.call k)).leases.get? k = some { l with terms := t } := by
  obtain ⟨_, hs⟩ := hf.record hr
  have hstep : f.step (.call k) = _ :=
    call_extended hp (Store.serve_eq_iff.2 (Store.extend_of_own (hn ▸ hs) rfl hr.early))
  rw [hstep]
  exact ⟨rfl, Registry.get?_put_self k _ _⟩

theorem Coherent.holds (hf : f.Coherent) (hs : f.Sound) (hr : f.Runs h l) : f.Holds h l where
  only := by
    intro j l' hr' hn
    cases hf.only hr hr' hn
    exact ⟨rfl, Option.some.inj (hr'.here.symm.trans hr.here)⟩
  record := hf.record hr
  renews := by
    intro k d e t ht hm
    have hstep : f.step (.start k (.extend h d e)) = _ := start_extend hm hr.here hr.valid ht
    have hg := hf.step (m := .start k (.extend h d e)) trivial (effect hs _)
    rw [hstep] at hg ⊢
    exact hg.call_extend hr (Registry.get?_put_self k _ _) (Terms.name_of_make ht)
  extending := by
    intro k d e talk hp
    generalize hq : (⟨.extend h d e, talk⟩ : Pending) = q at hp
    cases hs.stage hp with
    | inserting | claiming | releasing => cases hq
    | extending h' d' e' l' t hl hv hn =>
      cases hq
      cases hr.here.symm.trans hl
      exact (hf.call_extend hr hp hn).1
  refuses := by
    intro k holder t talk hp hn
    obtain ⟨_, hrec⟩ := hf.record hr
    rw [← hn] at hrec
    generalize hq : (⟨.lock holder t, talk⟩ : Pending) = q at hp
    cases hs.stage hp with
    | inserting holder' t' =>
      cases hq
      have hstep : f.step (.call k) = _ :=
        call_found hp (Store.serve_eq_iff.2 (Store.insert_of_some hrec))
      rw [hstep]
      exact ⟨rfl, rfl, .inl rfl⟩
    | claiming holder' t' =>
      cases hq
      have hstep : f.step (.call k) = _ :=
        call_refused hp (Store.serve_eq_iff.2 (Store.claim_of_running hrec hr.early))
      rw [hstep]
      exact ⟨rfl, rfl, .inr rfl⟩
    | releasing | extending => cases hq

/-- **Leases and the store agree.** After every orderly run, a lease that runs is the only one of
its name, its record is in the store, it can be extended, and nobody gets its lock. -/
theorem holds_play (s : Store) (c : Clock) (ms : List Move) (hms : (fresh s c).Orderly ms) (h : Nat)
    (l : Lease) (hr : ((fresh s c).play ms).Runs h l) : ((fresh s c).play ms).Holds h l :=
  ((coherent_fresh s c).play (sound_fresh s c) hms).holds
    ((sound_fresh s c).play Store.reliable ms) hr

/-- A lock is taken, and its lease is extended a while later. -/
def renewal : List Move :=
  [.start 0 (.lock "a" (.early "job" (by decide))), .call 0,
    .tick ⟨⟨10 * nanosPerSecond, by decide, by decide⟩⟩,
    .start 1 (.extend 0 .halfMinute .zero), .call 1]

/-- The extended lease runs. -/
theorem holds_renewed :
    (fresh [] ⟨.epoch⟩).Orderly renewal ∧ ∃ l, ((fresh [] ⟨.epoch⟩).play renewal).Runs 1 l ∧
      ((fresh [] ⟨.epoch⟩).play renewal).Holds 1 l := by
  have hms : (fresh [] ⟨.epoch⟩).Orderly renewal := by decide
  have hr : ((fresh [] ⟨.epoch⟩).play renewal).Runs 1
      ((((fresh [] ⟨.epoch⟩).play renewal).leases.get? 1).get (by decide)) :=
    ⟨(Option.some_get _).symm, by decide, by decide⟩
  exact ⟨hms, _, hr, holds_play [] ⟨.epoch⟩ renewal hms 1 _ hr⟩

end Fleet
end LeaseLock
