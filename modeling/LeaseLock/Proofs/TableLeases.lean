import LeaseLock.Proofs.Attempts

/-!
# How long a lease in a lock table is safe

A lock table keeps the end of a lease as a text, cut down to milliseconds, and an attempt to take
the lock compares this with the text of its reading of the clock.

## What is proved

While nobody gives back or extends the lease, and no attempt has read a clock whose text comes up to
that of its end, the row stays as it is; an attempt gets the lock exactly if its text does
(`Sane.decided`). Texts of the years 0 to 9999 are in the order of the instants, but those of other
years have a sign in front of the year, and any digit comes after both signs
(`Stamp.reaches_late_iff`). So a lease that ends in the year 0 or later cannot be claimed before its
end exactly if that is a whole millisecond before the year 10000 (`table_lease_decided`); otherwise
there are readings before the end at which it can.
-/

namespace LeaseLock

namespace Sql

/-- A row of whose name and holding is known. -/
theorem Database.row?_of_held {db : Database} {s : Schema} {n : String} {x : Holding String}
    (h : (db.row? s n).map Row.held = some x) : db.row? s n = some ⟨n, x.ends, x.since, x.holder⟩ := by
  obtain ⟨r, hr, rfl⟩ := Option.map_eq_some_iff.1 h
  have hname : r.name = n := by
    rw [Database.row?] at hr
    split at hr
    · obtain ⟨t, -, ht⟩ := Option.bind_eq_some_iff.1 hr
      exact name_of_rowOf ht
    · cases hr
  rw [hr, ← hname]
  rfl

end Sql

theorem Rule.isOver_stored (u : Instant) : Rule.table.isOver (Stamp.stored u) = (Stamp.reaches · u) := by
  funext t
  rw [Rule.isOver_table, Stamp.reaches]

namespace Crew

section Safety

variable {σ : Type} {serve : Serve σ} {f : Crew σ} {n : String} {k : Nat}

/-- Nobody gets the lock of a name before an instant, as long as nobody gives its lease back or
extends it, and nobody who tried to get the lock has looked at a later clock. -/
def SafeUntil (serve : Serve σ) (f : Crew σ) (n : String) (u : Instant) : Prop :=
  ∀ ns, Along serve (Untouched n) f ns → Along serve (Early n fun t => u ≤ t) f ns →
    let g := f.play serve ns
    ∀ j, g.Attempting n j → g.now < u → (g.step serve (.call j)).log ≠ (j, .locked true) :: g.log

theorem Early.mono {late late' : Instant → Bool} (h : ∀ t, late t = false → late' t = false)
    {m : Move} (hm : Early n late f m) : Early n late' f m := by
  cases m with
  | tick | start => trivial
  | call k => exact fun hc => h _ (hm hc)

/-- There is always a number that is not in use. -/
theorem exists_unused (r : Registry Nat Lease) (r' : Registry Nat Pending) :
    ∃ j, r.get? j = none ∧ r'.get? j = none := by
  have hbound : ∀ {ν : Type} (r : Registry Nat ν), ∃ b, ∀ j, b ≤ j → r.get? j = none := by
    intro ν r
    induction r with
    | nil => exact ⟨0, fun _ _ => rfl⟩
    | cons e r ih =>
      obtain ⟨b, hb⟩ := ih
      refine ⟨max b (e.1 + 1), fun j hj => ?_⟩
      rw [Registry.get?, if_neg (by omega), hb j (by omega)]
  obtain ⟨b, hb⟩ := hbound r
  obtain ⟨b', hb'⟩ := hbound r'
  exact ⟨max b b', hb _ (Nat.le_max_left _ _), hb' _ (Nat.le_max_right _ _)⟩

/-- Somebody comes to take the lock of a name at a reading of the clock, and makes his first
call. -/
def visit (j : Nat) (t : Instant) (terms : Terms) : List Move :=
  [.tick ⟨t⟩, .start j (.lock "visitor" terms), .call j]

theorem now_call (serve : Serve σ) (f : Crew σ) (k : Nat) : (f.step serve (.call k)).now = f.now := by
  rw [step]
  split
  · exact now_proceed _ _ _ _
  · rfl

theorem Claiming.attempting (h : f.Claiming n k) : f.Attempting n k := by
  obtain ⟨p, hp, hc⟩ := (Option.any_eq_true ..).1 h
  refine (Option.any_eq_true ..).2 ⟨p, hp, ?_⟩
  obtain ⟨⟨holder, t⟩ | h | h, talk⟩ := p
  · cases talk with
    | done x => cases hc
    | ask c next => obtain ⟨⟨⟩, holder', t'⟩ := c <;> first | exact hc | cases hc
  · cases hc
  · cases hc

/-- A visitor finds the entry of the lock, and is about to claim it. -/
theorem Sane.visit {ε : Type} {S : LedgerService σ ε} (hf : f.Sane S) {terms : Terms}
    {x : Holding ε} (hx : S.ledger f.store terms.name = some x) {j : Nat}
    (hl : f.leases.get? j = none) (hp : f.pending.get? j = none) (t : Instant) :
    Along S.serve (Untouched terms.name) f (visit j t terms) ∧
      (∀ late, Along S.serve (Early terms.name late) f (visit j t terms)) ∧
      (f.play S.serve (visit j t terms)).Claiming terms.name j ∧
      (f.play S.serve (visit j t terms)).now = t := by
  have hg := (hf.step (.tick ⟨t⟩)).step (.start j (.lock "visitor" terms))
  have hstart : (f.step S.serve (.tick ⟨t⟩)).step S.serve (.start j (.lock "visitor" terms)) =
      { f with clock := ⟨t⟩, pending := f.pending.put j (.inserting "visitor" terms) } :=
    start_lock S.serve (mayStart_lock (f := { f with clock := ⟨t⟩ }) hp hl "visitor" terms)
  simp only [Crew.visit, Along, play_cons, play_nil]
  rw [hstart] at hg ⊢
  have hpend : (f.pending.put j (.inserting "visitor" terms)).get? j =
      some (.inserting "visitor" terms) := Registry.get?_put_self _ _ _
  have hnot : ¬Claiming { f with
      clock := ⟨t⟩, pending := f.pending.put j (.inserting "visitor" terms) } terms.name j := by
    rw [Claiming, hpend]
    exact Bool.false_ne_true
  refine ⟨⟨trivial, trivial, fun l hl => ?_, trivial⟩,
    fun late => ⟨trivial, trivial, fun hc => (hnot hc).elim, trivial⟩, ?_, ?_⟩
  · rw [worked, hpend] at hl
    cases hl
  · refine (hg.call_of_not_claiming hx ?_ hnot).2
    rw [Attempting, hpend]
    exact decide_eq_true rfl
  · rw [now_call]
    rfl

/-- **A lock is safe** until an instant exactly if its lease is not over at any earlier one, as far
as is written down. -/
theorem Sane.safeUntil_iff {ε : Type} {S : LedgerService σ ε} (hf : f.Sane S) {x : Holding ε}
    {terms : Terms} (hx : S.ledger f.store terms.name = some x) (u : Instant) :
    SafeUntil S.serve f terms.name u ↔ ∀ t, t < u → S.rule.isOver x.ends t = false := by
  constructor
  · intro hsafe t ht
    obtain ⟨j, hjl, hjp⟩ := exists_unused f.leases f.pending
    obtain ⟨hu, he, hc, hnow⟩ := hf.visit hx hjl hjp t
    have hlog := ((hf.decided hx hu (he _)).2 j hc.attempting).1 hc
    rw [hnow] at hlog
    refine Bool.eq_false_iff.2 fun hover => ?_
    rw [hover] at hlog
    exact hsafe _ hu (he _) j hc.attempting (hnow.symm ▸ ht) hlog
  · intro hrun ns hu he g j hj hnow hlog
    have he' : Along S.serve (Early terms.name (S.rule.isOver x.ends)) f ns :=
      Along.mono (fun f m => Early.mono fun t ht => hrun t
        (Instant.not_le.1 (of_decide_eq_false ht))) he
    obtain ⟨hclaim, hfind⟩ := (hf.decided hx hu he').2 j hj
    by_cases hc : g.Claiming terms.name j
    · have hfalse := (hclaim hc).symm.trans hlog
      rw [hrun _ hnow] at hfalse
      cases hfalse
    · exact List.cons_ne_self _ _ (hlog.symm.trans (hfind hc).1)

end Safety

/-- **Leases in a lock table.** After a lock was taken, its row has the text of the end of the
lease. As long as nobody gives the lease back or extends it, and no attempt has looked at a clock
whose text comes up to that, the row stays as it is, and an attempt gets the lock exactly if it
looks at such a clock, which it does in its last call. If the lease ends in the year 0 or later, this
is never before its end exactly if that is a whole millisecond before the year 10000. -/
theorem table_lease_decided (s : Sql.Schema) (db : Sql.Database) (c : Clock) (ms : List Move)
    (k : Nat) (l : Lease) :
    let serve := (LedgerService.table s).serve
    let before := (fresh db c).play serve ms
    let f := before.step serve (.call k)
    let n := l.terms.name
    let u := l.terms.atMostUntil
    db.Keyed s → f.log = (k, .locked true) :: before.log → f.leases.get? k = some l →
    (∀ ns, Along serve (Untouched n) f ns → Along serve (Early n (Stamp.reaches · u)) f ns →
      let g := f.play serve ns
      g.store.row? s n = some ⟨n, Stamp.stored u, Stamp.stored before.now, l.holder⟩ ∧
      ∀ j, g.Attempting n j →
        (g.Claiming n j →
          (g.step serve (.call j)).log = (j, .locked (Stamp.reaches g.now u)) :: g.log) ∧
        (¬g.Claiming n j →
          (g.step serve (.call j)).log = g.log ∧ (g.step serve (.call j)).Claiming n j)) ∧
    (0 ≤ u.date.year → (SafeUntil serve f n u ↔ u.InYears ∧ u.floorMillis = u)) := by
  intro serve before f n u hk ht hl
  by_cases hs : s.isFreeOfParams = true ∧ (db.table? s).isSome = true
  · have hworks : (LedgerService.table s).Works db := hk.tabled hs.1 hs.2
    have hbefore : before.Sane (.table s) := (sane_fresh hworks c).play ms
    have hf : f.Sane (.table s) := hbefore.step (.call k)
    have hx : (LedgerService.table s).ledger f.store n =
        some ⟨Stamp.stored u, Stamp.stored before.now, l.holder⟩ := hbefore.entry_of_taken ht hl
    have hover : (LedgerService.table s).rule.isOver (Stamp.stored u) = (Stamp.reaches · u) :=
      Rule.isOver_stored u
    refine ⟨fun ns hu he => ?_, fun hy => ?_⟩
    · have hdecided := hf.decided hx hu (hover.symm ▸ he)
      rw [hover] at hdecided
      exact ⟨Sql.Database.row?_of_held hdecided.1, hdecided.2⟩
    · rw [← Stamp.reaches_late_iff hy]
      have hsafe := hf.safeUntil_iff hx u
      rwa [hover] at hsafe
  · -- The statements do not work, so no lock was taken.
    have hno := noLease_of_failing (Sql.fails_of_unworkable hs .generic) c (ms ++ [.call k]) k
    rw [play, List.foldl_append] at hno
    exact nomatch hno.symm.trans hl

/-- Terms for one and a half milliseconds. -/
def fleeting : Terms :=
  match Terms.make .epoch "job" ⟨1500000, by decide, by decide⟩ .zero with
  | .ok t => t
  | .error _ => .early "job" Terms.job_ne

/-- **A lease that ends within a millisecond** can be claimed before. -/
theorem table_lease_unsafe :
    let serve := (LedgerService.table {}).serve
    let before := (fresh (Sql.emptyTable "shedlock") ⟨.epoch⟩).play serve [.start 0 (.lock "a" fleeting)]
    let f := before.step serve (.call 0)
    Sql.Database.Keyed (Sql.emptyTable "shedlock") {} ∧ f.log = (0, .locked true) :: before.log ∧
      f.leases.get? 0 = some ⟨"a", fleeting, true⟩ ∧
      ¬SafeUntil serve f "job" fleeting.atMostUntil := by
  intro serve before f
  have hbefore : before = { fresh (Sql.emptyTable "shedlock") ⟨.epoch⟩ with
      pending := Registry.put 0 (.inserting "a" fleeting) [] } :=
    start_lock (f := fresh (Sql.emptyTable "shedlock") ⟨.epoch⟩) serve
      (mayStart_lock rfl rfl "a" fleeting)
  have hsane : before.Sane (.table {}) :=
    (sane_fresh LedgerService.works_emptyTable ⟨.epoch⟩).play [.start 0 (.lock "a" fleeting)]
  have hp : before.pending.get? 0 = some (.inserting "a" fleeting) := by
    rw [hbefore]
    rfl
  have hnone : (LedgerService.table {}).ledger before.store fleeting.name = none := by
    rw [hbefore]
    show ((Sql.emptyTable "shedlock").row? {} fleeting.name).map _ = none
    rw [Sql.row?_emptyTable]
    rfl
  obtain ⟨s, hs, -⟩ := hsane.serve_eq (c := ⟨.insert, "a", fleeting⟩) (Ledger.insert_of_none hnone)
  have hstep : f = _ := call_taken (.inl ⟨hp, hs⟩)
  have hlog : f.log = (0, .locked true) :: before.log := by rw [hstep]
  have hlease : f.leases.get? 0 = some ⟨"a", fleeting, true⟩ := by
    rw [hstep]
    exact Registry.get?_put_self _ _ _
  have hk := Sql.keyed_emptyTable "shedlock" {}
  refine ⟨hk, hlog, hlease, fun hsafe => ?_⟩
  have h := (table_lease_decided {} _ ⟨.epoch⟩ [.start 0 (.lock "a" fleeting)] 0 _ hk hlog hlease).2
  exact absurd ((h (by decide)).1 hsafe).2 (by decide)

end Crew
end LeaseLock
