import LeaseLock.Proofs.Deadlines
import LeaseLock.Proofs.LeaseTerms

/-!
# How long a lock is kept whose lease is extended

A lease that is extended is used up, and there is another one in its place, on terms of its own: its
durations count from the extension, its minimum too. The lease in force is the one that a lock was
taken with, or what it was last extended to.

## What is proved

Nobody gets the lock before the end of the lease in force, or, once that is given back, before the
end of its minimum (`kept_while_in_force`). So a minimum outlasts extensions as far as these renew
it; an extension to a shorter minimum ends the one before it (`taken_before_first_minimum`).

The clock must not be set back, and nobody may use a lease of the name that was there before. Others
who get the lock later may use theirs, and the lease in force may be given back late, but it is
extended before its end only.
-/

namespace LeaseLock

/-- Until when a lock is kept with a lease: to its end, or, if it was used up, to the end of its
minimum. -/
def Lease.keptUntil (l : Lease) : Instant :=
  if l.valid then l.terms.atMostUntil else l.terms.atLeastUntil

namespace Lease

theorem keptUntil_of_valid {l : Lease} (h : l.valid = true) : l.keptUntil = l.terms.atMostUntil :=
  if_pos h

/-- A lock is kept for the minimum at least. -/
theorem atLeastUntil_le_keptUntil (l : Lease) : l.terms.atLeastUntil ≤ l.keptUntil := by
  rw [keptUntil]
  split
  · exact l.terms.atLeastUntil_le
  · exact Int.le_refl _

theorem keptUntil_le (l : Lease) : l.keptUntil ≤ l.terms.atMostUntil := by
  rw [keptUntil]
  split
  · exact Int.le_refl _
  · exact l.terms.atLeastUntil_le

end Lease

/-- The job is to extend a lease. -/
def Job.isExtension : Job → Bool
  | .extend _ _ _ => true
  | _ => false

namespace Fleet

open Crew

variable {f g : Fleet} {h j k : Nat} {l : Lease} {n : String} {m : Move}
  {old : Registry Nat Lease}

/-! ### The lease in force -/

/-- The lease in force after a move: what the one before was extended to, if it was. -/
def succ (f : Fleet) (h : Nat) : Move → Nat
  | .call k =>
    if (f.pending.get? k).any (fun p => p.job.isExtension && p.job.lease? = some h) ∧
      (f.step (.call k)).leases.has k then k else h
  | _ => h

/-- The lease in force after a run. -/
def heir (f : Fleet) (h : Nat) : List Move → Nat
  | [] => h
  | m :: ms => (f.step m).heir (f.succ h m) ms

/-- Each move of a run is like this, with the lease in force. -/
def Heeding (P : Nat → Fleet → Move → Prop) (f : Fleet) (h : Nat) : List Move → Prop
  | [] => True
  | m :: ms => P h f m ∧ Heeding P (f.step m) (f.succ h m) ms

/-- The clock is not set back, the lease in force is extended before its end only, and no other
lease of the name is used that was there before. -/
def Fair (n : String) (old : Registry Nat Lease) (h : Nat) (f : Fleet) : Move → Prop
  | .tick c => f.now ≤ c.reading
  | .start _ _ => True
  | .call k => ∀ p ∈ f.pending.get? k, ∀ j ∈ p.job.lease?, ∀ l ∈ f.leases.get? j, l.terms.name = n →
    if j = h then p.job.isExtension = true → f.now < l.terms.atMostUntil else old.get? j = none

instance (n : String) (old : Registry Nat Lease) (h : Nat) (f : Fleet) : (m : Move) →
    Decidable (Fair n old h f m)
  | .tick c => inferInstanceAs (Decidable (f.now ≤ c.reading))
  | .start _ _ => inferInstanceAs (Decidable True)
  | .call k => inferInstanceAs (Decidable (∀ p ∈ f.pending.get? k, ∀ j ∈ p.job.lease?,
      ∀ l ∈ f.leases.get? j, l.terms.name = n →
        if j = h then p.job.isExtension = true → f.now < l.terms.atMostUntil else old.get? j = none))

instance decidableHeeding (P : Nat → Fleet → Move → Prop) [∀ h f m, Decidable (P h f m)]
    (f : Fleet) (h : Nat) : (ms : List Move) → Decidable (Heeding P f h ms)
  | [] => inferInstanceAs (Decidable True)
  | m :: ms =>
    have := decidableHeeding P (f.step m) (f.succ h m) ms
    inferInstanceAs (Decidable (_ ∧ _))

/-- The lease in force is extended before its end. -/
theorem Fair.early {p : Pending} (hm : Fair n old h f (.call k)) (hp : f.pending.get? k = some p)
    (hx : p.job.isExtension = true) (hj : p.job.lease? = some h) (hl : f.leases.get? h = some l)
    (hn : l.terms.name = n) : f.now < l.terms.atMostUntil := by
  have := hm p hp h hj l hl hn
  rw [if_pos rfl] at this
  exact this hx

theorem succ_of_same (hs : f.Sound)
    (hk : (f.step (.call k)).leases.get? k = f.leases.get? k) : f.succ h (.call k) = h := by
  refine if_neg fun hc => ?_
  cases hp : f.pending.get? k with
  | none =>
    rw [hp] at hc
    exact Bool.false_ne_true hc.1
  | some p =>
    rw [Registry.has, hk, hs.new hp] at hc
    exact Bool.false_ne_true hc.2

theorem succ_of_not_extension {p : Pending} (hp : f.pending.get? k = some p)
    (hx : p.job.isExtension = false) : f.succ h (.call k) = h := by
  refine if_neg fun hc => ?_
  rw [hp, Option.any_some, hx] at hc
  exact Bool.false_ne_true hc.1

theorem succ_of_extension {p : Pending} (hp : f.pending.get? k = some p)
    (hx : p.job.isExtension = true) (hj : p.job.lease? = some h)
    (hk : (f.step (.call k)).leases.get? k = some l) : f.succ h (.call k) = k := by
  refine if_pos ⟨?_, ?_⟩
  · rw [hp, Option.any_some, hx, hj]
    exact decide_eq_true rfl
  · rw [Registry.has, hk]
    rfl

theorem succ_of_other {p : Pending} (hp : f.pending.get? k = some p)
    (hx : p.job.lease? ≠ some h) : f.succ h (.call k) = h := by
  refine if_neg fun hc => ?_
  rw [hp, Option.any_some, decide_eq_false hx, Bool.and_false] at hc
  exact Bool.false_ne_true hc.1

/-! ### The lock is kept -/

/-- No lease of a name can be used but one, and those that were there before. -/
def Sole (old ls : Registry Nat Lease) (n : String) (h : Nat) : Prop :=
  ∀ j l, ls.get? j = some l → l.terms.name = n → l.valid = true → j ≠ h → old.get? j ≠ none

/-- The record of a lock has a time, or a later one, for its end, and no lease but the one in force,
and those that were there before, can be used. -/
structure Guarded (old : Registry Nat Lease) (f : Fleet) (h : Nat) (n : String) (u : Instant) :
    Prop where
  record : ∃ r, f.store.get? n = some r ∧ u ≤ r.lockUntil
  sole : Sole old f.leases n h

/-- The lock of the lease in force is kept until its time has come. -/
def Kept (n : String) (old : Registry Nat Lease) (f : Fleet) (h : Nat) : Prop :=
  ∃ l, f.leases.get? h = some l ∧ l.terms.name = n ∧
    (l.keptUntil ≤ f.now ∨ Guarded old f h n l.keptUntil)

section Sole

variable {ls : Registry Nat Lease} {l' : Lease}

theorem Sole.spend (ho : Sole old ls n h) (i : Nat) (l : Lease) :
    Sole old (ls.put i l.spent) n h := by
  intro j l' hj hn hv
  rw [Registry.get?_put] at hj
  split at hj
  · cases hj
    cases hv
  · exact ho j l' hj hn hv

/-- Somebody gets a lease of another name. -/
theorem Sole.put (ho : Sole old ls n h) (k : Nat) (hn : l.terms.name ≠ n) :
    Sole old (ls.put k l) n h := by
  intro j l' hj hn'
  rw [Registry.get?_put] at hj
  split at hj
  · cases hj
    exact (hn hn').elim
  · exact ho j l' hj hn'

/-- The lease in force is used up for another one. -/
theorem Sole.renew (ho : Sole old ls n h) (l l' : Lease) (k : Nat) :
    Sole old ((ls.put h l.spent).put k l') n k := by
  intro j l'' hj hn hv hk
  rw [Registry.get?_put_of_ne hk, Registry.get?_put] at hj
  split at hj
  · cases hj
    cases hv
  · exact ho j l'' hj hn hv ‹_›

end Sole

/-- Nothing is done to leases and records. -/
theorem Kept.quiet (hk : Kept n old f h) (hl : ∀ j, g.leases.get? j = f.leases.get? j)
    (hs : g.store = f.store) (hn : f.now ≤ g.now) : Kept n old g h := by
  obtain ⟨l, hh, hname, hcase⟩ := hk
  refine ⟨l, (hl h).trans hh, hname, ?_⟩
  obtain hcase | ⟨hr, ho⟩ := hcase
  · exact .inl (Instant.le_trans hcase hn)
  · exact .inr ⟨hs ▸ hr, fun j l hj => ho j l ((hl j).symm.trans hj)⟩

/-- Somebody takes a lock. -/
theorem Kept.take (hk : Kept n old f h) (hnew : f.leases.get? k = none) {holder : String}
    {t : Terms} {r : Record} (hfree : ∀ x, f.store.get? t.name = some x → x.lockUntil ≤ f.now)
    (hs : g.store = f.store.put t.name r) (hl : g.leases = f.leases.put k ⟨holder, t, true⟩)
    (hnow : g.now = f.now) : Kept n old g h := by
  obtain ⟨l, hh, hname, hcase⟩ := hk
  have hne : h ≠ k := by
    rintro rfl
    rw [hnew] at hh
    cases hh
  refine ⟨l, by rw [hl, Registry.get?_put_of_ne hne, hh], hname, ?_⟩
  obtain hcase | ⟨⟨x, hx, hu⟩, ho⟩ := hcase
  · exact .inl (hnow ▸ hcase)
  by_cases hn : t.name = n
  · exact .inl (hnow ▸ Instant.le_trans hu (hfree x (hn ▸ hx)))
  · refine .inr ⟨⟨x, ?_, hu⟩, ?_⟩
    · rw [hs, Registry.get?_put_of_ne fun e => hn e.symm, hx]
    · rw [hl]
      exact ho.put k hn

/-- Another lease than the one in force is used. -/
theorem Kept.other (hk : Kept n old f h) (hf : f.Sound) {p : Pending} {l' : Lease}
    (hp : f.pending.get? k = some p) (hj : p.job.lease? = some j) (hl' : f.leases.get? j = some l')
    (hv : l'.valid = true) (hne : j ≠ h) (hm : Fair n old h f (.call k))
    (hleases : ∀ i, i ≠ j → i ≠ k → g.leases.get? i = f.leases.get? i)
    (hnow : g.now = f.now)
    (hother : l'.terms.name ≠ n → Sole old f.leases n h →
      g.store.get? n = f.store.get? n ∧ Sole old g.leases n h) : Kept n old g h := by
  obtain ⟨l, hh, hname, hcase⟩ := hk
  have hk : h ≠ k := by
    rintro rfl
    rw [hf.new hp] at hh
    cases hh
  refine ⟨l, (hleases h (Ne.symm hne) hk).trans hh, hname, ?_⟩
  obtain hcase | ⟨hr, ho⟩ := hcase
  · exact .inl (hnow ▸ hcase)
  by_cases hn : l'.terms.name = n
  · -- Such a lease was there before, and is not used.
    have hold := hm p hp j hj l' hl' hn
    rw [if_neg hne] at hold
    exact (ho j l' hl' hn hv hne hold).elim
  · obtain ⟨hs, ho'⟩ := hother hn ho
    exact .inr ⟨hs ▸ hr, ho'⟩

/-- The lease in force is used up for nothing in its place: its lock is kept for its minimum, if the
record has this for its end. -/
theorem Kept.spend (hk : Kept n old f h) (hl : f.leases.get? h = some l)
    (hrec : ∀ r, f.store.get? l.terms.name = some r → l.keptUntil ≤ r.lockUntil →
      ∃ r', g.store.get? l.terms.name = some r' ∧ l.terms.atLeastUntil ≤ r'.lockUntil)
    (hleases : g.leases = f.leases.put h l.spent) (hnow : g.now = f.now) : Kept n old g h := by
  obtain ⟨l', hl', rfl, hcase⟩ := hk
  cases hl.symm.trans hl'
  refine ⟨l.spent, by rw [hleases, Registry.get?_put_self], rfl, ?_⟩
  obtain hcase | ⟨⟨r, hr, hu⟩, ho⟩ := hcase
  · exact .inl (hnow ▸ Instant.le_trans l.atLeastUntil_le_keptUntil hcase)
  · exact .inr ⟨hrec r hr hu, hleases ▸ ho.spend h l⟩

/-- A lease is given back. If it is the one in force, the record ends no earlier than its minimum. -/
theorem Kept.release (hk : Kept n old f h) (hf : f.Sound) (hm : Fair n old h f (.call k))
    (hp : f.pending.get? k = some (.releasing j l)) (hl : f.leases.get? j = some l)
    (hv : l.valid = true) (hs : g.store = f.store.release f.now l.terms)
    (hleases : g.leases = f.leases.put j l.spent) (hnow : g.now = f.now) : Kept n old g h := by
  by_cases hj : j = h
  · subst hj
    refine hk.spend hl (fun r hr _ => ?_) hleases hnow
    refine ⟨{ r with lockUntil := l.terms.releaseAt f.now }, ?_, l.terms.le_releaseAt f.now⟩
    rw [hs, Store.release_of_some hr, Registry.get?_put_self]
  · refine hk.other hf hp rfl hl hv hj hm (fun i hi _ => ?_) hnow fun hn ho => ⟨?_, ?_⟩
    · rw [hleases, Registry.get?_put_of_ne hi]
    · rw [hs]
      exact Store.get?_perform_of_ne (c := ⟨.release, l.holder, l.terms⟩) (Ne.symm hn)
    · rw [hleases]
      exact ho.spend j l

/-- The lease in force is extended before its end: the lock is kept with the new lease. -/
theorem Kept.renew (hk : Kept n old f h) {d e : Span} {t : Terms} {r : Record}
    (hm : Fair n old h f (.call k)) (hp : f.pending.get? k = some (.extending h d e l t))
    (hl : f.leases.get? h = some l) (hv : l.valid = true) (hn : t.name = l.terms.name)
    (hs : g.store = f.store.put t.name { r with lockUntil := t.atMostUntil })
    (hleases : g.leases = (f.leases.put h l.spent).put k { l with terms := t }) :
    Kept n old g k := by
  obtain ⟨l', hl', hname, hcase⟩ := hk
  cases hl.symm.trans hl'
  have hearly : f.now < l.terms.atMostUntil := hm.early hp rfl rfl hl hname
  rw [Lease.keptUntil_of_valid hv] at hcase
  obtain hcase | ⟨-, ho⟩ := hcase
  · exact (Instant.not_le.2 hearly hcase).elim
  refine ⟨{ l with terms := t }, by rw [hleases, Registry.get?_put_self], hn.trans hname, .inr ?_⟩
  constructor
  · refine ⟨{ r with lockUntil := t.atMostUntil }, ?_, Lease.keptUntil_le { l with terms := t }⟩
    rw [hs, hn.trans hname, Registry.get?_put_self]
  · rw [hleases]
    exact ho.renew l _ k

/-- Another lease than the one in force is extended. -/
theorem Kept.extend_other (hk : Kept n old f h) (hf : f.Sound) {d e : Span} {t : Terms} {r : Record}
    (hm : Fair n old h f (.call k)) (hp : f.pending.get? k = some (.extending j d e l t))
    (hl : f.leases.get? j = some l) (hv : l.valid = true) (hn : t.name = l.terms.name) (hj : j ≠ h)
    (hs : g.store = f.store.put t.name r)
    (hleases : g.leases = (f.leases.put j l.spent).put k { l with terms := t })
    (hnow : g.now = f.now) : Kept n old g h := by
  refine hk.other hf hp rfl hl hv hj hm (fun i hi hik => ?_) hnow fun hn' ho => ?_
  · rw [hleases, Registry.get?_put_of_ne hik, Registry.get?_put_of_ne hi]
  · have hne : t.name ≠ n := fun e => hn' (hn.symm.trans e)
    refine ⟨?_, ?_⟩
    · rw [hs, Registry.get?_put_of_ne (Ne.symm hne)]
    · rw [hleases]
      exact (ho.spend j l).put k hne

/-- A lease is found lost. If it is the one in force, the record stays as it is, which ends no
earlier than its minimum. -/
theorem Kept.lose (hk : Kept n old f h) (hf : f.Sound) {d e : Span} {t : Terms}
    (hm : Fair n old h f (.call k)) (hp : f.pending.get? k = some (.extending j d e l t))
    (hl : f.leases.get? j = some l) (hv : l.valid = true) (hs : g.store = f.store)
    (hleases : g.leases = f.leases.put j l.spent) (hnow : g.now = f.now) : Kept n old g h := by
  by_cases hj : j = h
  · subst hj
    refine hk.spend hl (fun r hr hu => ⟨r, ?_, ?_⟩) hleases hnow
    · rw [hs, hr]
    · exact Instant.le_trans l.atLeastUntil_le_keptUntil hu
  · refine hk.other hf hp rfl hl hv hj hm (fun i hi _ => ?_) hnow fun _ ho => ⟨?_, ?_⟩
    · rw [hleases, Registry.get?_put_of_ne hi]
    · rw [hs]
    · rw [hleases]
      exact ho.spend j l

/-- **One move** keeps the lock. -/
theorem Kept.step (hk : Kept n old f h) (hf : f.Sound) (hm : Fair n old h f m) :
    Kept n old (f.step m) (f.succ h m) := by
  have he := effect hf m
  generalize hg : f.step m = g at he ⊢
  cases he with
  | nothing =>
    cases m with
    | tick | start => exact hk
    | call k => rwa [succ_of_same hf (by rw [hg])]
  | ticked c => exact hk.quiet (fun _ => rfl) rfl hm
  | started => exact hk.quiet (fun _ => rfl) rfl (Int.le_refl _)
  | failed k job e ls hl => exact hk.quiet hl rfl (Int.le_refl _)
  | found k holder t s hp hs =>
    obtain ⟨rfl, -⟩ := Store.of_found hs
    rw [succ_of_not_extension hp rfl]
    exact hk.quiet (fun _ => rfl) rfl (Int.le_refl _)
  | taken k holder t s ht =>
    obtain ⟨p, hp, hjob⟩ := ht.pending
    obtain ⟨rfl, hfree⟩ := store_of_taken ht
    rw [succ_of_not_extension hp (by rw [hjob]; rfl)]
    exact hk.take (hf.new hp) hfree rfl rfl rfl
  | refused k holder t s hp hs =>
    obtain rfl := Store.of_refused hs
    rw [succ_of_not_extension hp rfl]
    exact hk.quiet (fun _ => rfl) rfl (Int.le_refl _)
  | released k i l s hp hl hv hs =>
    obtain rfl := Store.of_released hs
    rw [succ_of_not_extension hp rfl]
    exact hk.release hf hm hp hl hv rfl rfl rfl
  | extended k i d e l t s hp hl hv hn hs =>
    obtain ⟨r, -, -, -, rfl⟩ := Store.of_extended hs
    by_cases hi : i = h
    · subst hi
      rw [succ_of_extension hp rfl rfl (by rw [hg, Registry.get?_put_self])]
      exact hk.renew hm hp hl hv hn rfl rfl
    · rw [succ_of_other hp fun e => hi (Option.some.inj e)]
      exact hk.extend_other hf hm hp hl hv hn hi rfl rfl rfl
  | lost k i d e l t s hp hl hv hn hs =>
    obtain rfl := Store.of_lost hs
    have hki : k ≠ i := by
      rintro rfl
      cases (hf.new hp).symm.trans hl
    rw [succ_of_same hf (by rw [hg, Registry.get?_put_of_ne hki])]
    exact hk.lose hf hm hp hl hv rfl rfl rfl

theorem Kept.play (hk : Kept n old f h) (hf : f.Sound) {ms : List Move}
    (hms : Heeding (Fair n old) f h ms) : Kept n old (f.play ms) (f.heir h ms) := by
  induction ms generalizing f h with
  | nil => exact hk
  | cons m ms ih => exact ih (hk.step hf hms.1) (hf.step Store.reliable m) hms.2

/-- Nobody takes a lock that is kept. -/
theorem Kept.over_of_taken (hk : Kept n old f h) (hf : f.Sane .memory) (ha : f.Attempting n k)
    (ht : (f.step (.call k)).log = (k, .locked true) :: f.log) :
    ∃ l, f.leases.get? h = some l ∧ l.terms.name = n ∧ l.keptUntil ≤ f.now := by
  obtain ⟨l, hl, hname, hcase | ⟨⟨r, hr, hu⟩, -⟩⟩ := hk
  · exact ⟨l, hl, hname, hcase⟩
  refine ⟨l, hl, hname, ?_⟩
  have hx := Store.ledger_of_get? hr
  by_cases hc : f.Claiming n k
  · have hover : Rule.memory.isOver r.lockUntil f.now = true := by
      have := (hf.call_of_claiming hx ha hc).symm.trans ht
      rw [List.cons.injEq, Prod.mk.injEq, Reply.locked.injEq] at this
      exact this.1.2
    exact Instant.le_trans hu (of_decide_eq_true hover)
  · have := (hf.call_of_not_claiming hx ha hc).1.symm.trans ht
    exact (List.cons_ne_self _ _ this.symm).elim

/-- A lock that was just taken is kept. -/
theorem kept_of_taken (hf : f.Sound) (ht : (f.step (.call h)).log = (h, .locked true) :: f.log)
    (hl : (f.step (.call h)).leases.get? h = some l) :
    Kept l.terms.name (f.step (.call h)).leases (f.step (.call h)) h := by
  have he := effect hf (.call h)
  generalize f.step (.call h) = g at he ht hl ⊢
  have hsole : Sole g.leases g.leases l.terms.name h := by
    intro j l' hj _ _ _ hn
    cases hn.symm.trans hj
  cases he with
  | nothing | found => exact (List.cons_ne_self _ _ ht.symm).elim
  | refused | released | extended | lost => cases ht
  | taken k holder t s htakes =>
    obtain ⟨rfl, -⟩ := store_of_taken htakes
    cases (Registry.get?_put_self h _ _).symm.trans hl
    exact ⟨_, hl, rfl, .inr ⟨⟨_, Registry.get?_put_self _ _ _, Lease.keptUntil_le _⟩, hsole⟩⟩

/-- **A lock is kept while a lease is in force.** After a lock was taken, whatever its lease is
extended to, whoever gets the lock does so when the minimum of the lease in force has come to its
end, and, if that lease was not used up, when the lease itself has. -/
theorem kept_while_in_force (s : Store) (c : Clock) (ms : List Move) (h : Nat) (l : Lease) :
    let f := ((fresh s c).play ms).step (.call h)
    f.log = (h, .locked true) :: ((fresh s c).play ms).log → f.leases.get? h = some l →
    ∀ ns, Heeding (Fair l.terms.name f.leases) f h ns →
      let g := f.play ns
      ∃ l', g.leases.get? (f.heir h ns) = some l' ∧ l'.terms.name = l.terms.name ∧
        ∀ k, g.Attempting l.terms.name k → (g.step (.call k)).log = (k, .locked true) :: g.log →
          l'.terms.atLeastUntil ≤ g.now ∧ (l'.valid = true → l'.terms.atMostUntil ≤ g.now) := by
  intro f ht hl ns hns g
  have hs : ((fresh s c).play ms).Sane .memory := sane_play s c ms
  have hf : f.Sane .memory := hs.step (.call h)
  have hk : Kept l.terms.name f.leases g (f.heir h ns) :=
    (kept_of_taken hs.sound ht hl).play hf.sound hns
  obtain ⟨l', hl', hname, -⟩ := id hk
  refine ⟨l', hl', hname, fun k ha htaken => ?_⟩
  obtain ⟨l'', hl'', -, hnow⟩ := hk.over_of_taken (hf.play ns) ha htaken
  cases hl'.symm.trans hl''
  exact ⟨Instant.le_trans l'.atLeastUntil_le_keptUntil hnow,
    fun hv => Lease.keptUntil_of_valid hv ▸ hnow⟩

/-- A lock is taken for a minute, and half a minute at least. -/
def takingLong : List Move := [.start 0 (.lock "a" (.inSeconds 0 60 30))]

/-- After a second the lease is extended and given back, and later somebody else comes. -/
def extendedTo (atMost atLeast later : UInt16) : List Move :=
  [.tick ⟨.second 1⟩, .start 1 (.extend 0 (.ofSeconds atMost) (.ofSeconds atLeast)), .call 1,
    .start 2 (.unlock 1), .call 2, .tick ⟨.second later⟩,
    .start 3 (.lock "b" (.inSeconds later 60 0)), .call 3]

/-- The lock of a lease that is extended to a minimum of 40 seconds is free when these are over. -/
theorem taken_after_renewed_minimum :
    let f := ((fresh [] ⟨.epoch⟩).play takingLong).step (.call 0)
    let g := f.play (extendedTo 90 40 41)
    Heeding (Fair "job" f.leases) f 0 (extendedTo 90 40 41) ∧ g.Attempting "job" 3 ∧
      (g.step (.call 3)).log = (3, .locked true) :: g.log ∧
      ∃ l', g.leases.get? 1 = some l' ∧ l'.terms.atLeastUntil ≤ g.now := by
  intro f g
  have hns : Heeding (Fair "job" f.leases) f 0 (extendedTo 90 40 41) := by decide
  have ha : g.Attempting "job" 3 := by decide
  have ht : (g.step (.call 3)).log = (3, .locked true) :: g.log := by decide
  obtain ⟨l', hl', -, hkept⟩ := kept_while_in_force [] ⟨.epoch⟩ takingLong 0
    ⟨"a", .inSeconds 0 60 30, true⟩ (by decide) (by decide) (extendedTo 90 40 41) hns
  exact ⟨hns, ha, ht, l', hl', (hkept 3 ha ht).1⟩

/-- **An extension to a shorter minimum ends the one before it**: half a minute at least was asked
for when the lock was taken, and after seven seconds somebody else gets it. -/
theorem taken_before_first_minimum :
    let f := ((fresh [] ⟨.epoch⟩).play takingLong).step (.call 0)
    let g := f.play (extendedTo 5 0 7)
    let l : Lease := ⟨"a", .inSeconds 0 60 30, true⟩
    f.log = (0, .locked true) :: ((fresh [] ⟨.epoch⟩).play takingLong).log ∧
      f.leases.get? 0 = some l ∧ Heeding (Fair "job" f.leases) f 0 (extendedTo 5 0 7) ∧
      g.Attempting "job" 3 ∧ (g.step (.call 3)).log = (3, .locked true) :: g.log ∧
      g.now < l.terms.atLeastUntil := by
  intro f g l
  exact ⟨by decide, by decide, by decide, by decide, by decide, by decide⟩

end Fleet
end LeaseLock
