import LeaseLock.Proofs.LedgerCrews

/-!
# Leases whose lock was taken again

A lease that has lapsed may still be in somebody's hands when its lock is taken again. What becomes
of it if it is extended then depends on the record alone, and the record says for whom the lock was
taken, not which time.

## What is proved

The record of a name is held by whoever the lock was taken for last (`Owned`): extensions and
releases do not change hands. So an extension of a lease whose lock was taken again is lost, and
leaves everything but the lease as it is, unless the lock was last taken for the holder of the lease
itself and is not over; then it is extended (`supersedes_play`). Both services behave this way, in
all runs and from any state.
-/

namespace LeaseLock

/-- All of a lease but whether it was used up. -/
def Lease.deal (l : Lease) : String × Terms := (l.holder, l.terms)

namespace Crew

theorem findSome?_congr {α β : Type} {p q : α → Option β} {l : List α} (h : ∀ a ∈ l, p a = q a) :
    l.findSome? p = l.findSome? q := by
  induction l with
  | nil => rfl
  | cons a l ih =>
    rw [List.findSome?_cons, List.findSome?_cons, h a List.mem_cons_self]
    split
    · rfl
    · exact ih fun b hb => h b (List.mem_cons_of_mem a hb)

section History

variable {σ : Type}

/-- The lease of a number, whether or not it was used up. -/
def deal? (f : Crew σ) (h : Nat) : Option (String × Terms) := (f.leases.get? h).map Lease.deal

/-- For whom a job took the lock of a name, if that is what it came to. -/
def taker (f : Crew σ) (n : String) : Nat × Reply → Option String
  | (k, .locked true) => (f.deal? k).bind fun y => if y.2.name = n then some y.1 else none
  | _ => none

/-- For whom the lock of a name was taken last, of all that a log tells. -/
def lastTaker (f : Crew σ) (n : String) (log : List (Nat × Reply)) : Option String :=
  log.findSome? (f.taker n)

/-- The lock of a lease was taken again after the lease was got, and last so for a holder. -/
def SupersededBy (f : Crew σ) (h : Nat) (l : Lease) (holder : String) : Prop :=
  f.lastTaker l.terms.name (f.log.takeWhile fun e => e.1 ≠ h) = some holder

instance (f : Crew σ) (h : Nat) (l : Lease) (holder : String) :
    Decidable (f.SupersededBy h l holder) := inferInstanceAs (Decidable (_ = _))

theorem taker_of_ne (f : Crew σ) (n : String) (k : Nat) {r : Reply} (hr : r ≠ .locked true) :
    f.taker n (k, r) = none := by
  cases r with
  | locked b =>
    cases b with
    | true => exact (hr rfl).elim
    | false => rfl
  | unlocked | extension | failed => rfl

/-- Whoever took a lock last, took it last of all. -/
theorem SupersededBy.lastTaker {f : Crew σ} {h : Nat} {l : Lease} {holder : String}
    (hs : f.SupersededBy h l holder) : f.lastTaker l.terms.name f.log = some holder := by
  rw [Crew.lastTaker, ← List.takeWhile_append_dropWhile (p := fun e => e.1 ≠ h) (l := f.log),
    List.findSome?_append]
  exact Option.or_eq_some_iff.2 (.inl hs)

/-- The leases after one more was got, or one was used up. -/
theorem map_deal_put (ls : Registry Nat Lease) (h j : Nat) (l : Lease) :
    ((ls.put h l).get? j).map Lease.deal =
      if j = h then some l.deal else (ls.get? j).map Lease.deal := by
  rw [Registry.get?_put]
  split
  · rfl
  · rfl

/-- Using a lease up leaves it in place. -/
theorem map_deal_spend {f : Crew σ} {h : Nat} {l : Lease} (hl : f.leases.get? h = some l)
    (j : Nat) : ((f.leases.put h l.spent).get? j).map Lease.deal = f.deal? j := by
  rw [map_deal_put]
  split
  · subst j
    rw [deal?, hl]
    rfl
  · rfl

/-- Leases are never taken away. -/
theorem Sound.deals {serve : Serve σ} {f g : Crew σ} {m : Move} (hf : f.Sound)
    (he : Effect serve f m g) {j : Nat} {y : String × Terms} (hy : f.deal? j = some y) :
    g.deal? j = some y := by
  have hne : ∀ {k p}, f.pending.get? k = some p → j ≠ k := by
    rintro k p hp rfl
    rw [deal?, hf.new hp] at hy
    cases hy
  cases he with
  | nothing | ticked | started | found | refused => exact hy
  | failed k job e ls hl => exact (congrArg (Option.map Lease.deal) (hl j)).trans hy
  | taken k holder t s ht =>
    obtain ⟨p, hp, -⟩ := ht.pending
    exact (map_deal_put _ _ _ _).trans ((if_neg (hne hp)).trans hy)
  | released k h l s hp hl | lost k h d e l t s hp hl => exact (map_deal_spend hl j).trans hy
  | extended k h d e l t s hp hl =>
    exact (map_deal_put _ _ _ _).trans ((if_neg (hne hp)).trans ((map_deal_spend hl j).trans hy))

end History

/-! ### The record is held by whoever took the lock last -/

section Owners

variable {ε : Type} {R : Rule ε} {f g : Crew (Ledger ε)} {k h : Nat} {m : Move} {r : Reply}

/-- Locks that were taken have their leases, and their entries are held by whoever took them
last. -/
structure Owned (f : Crew (Ledger ε)) : Prop where
  logged : ∀ {k : Nat}, (k, Reply.locked true) ∈ f.log → ∃ y, f.deal? k = some y
  owner : ∀ {n holder : String}, f.lastTaker n f.log = some holder →
    ∃ x, f.store n = some x ∧ x.holder = holder

theorem owned_fresh (L : Ledger ε) (c : Clock) : (fresh L c).Owned where
  logged := fun h => nomatch h
  owner := fun h => nomatch h

/-- What a log tells of the takers of a lock stays as it is. -/
theorem Owned.lastTaker_eq (ho : f.Owned) (hd : ∀ j y, f.deal? j = some y → g.deal? j = some y)
    (n : String) : g.lastTaker n f.log = f.lastTaker n f.log := by
  refine findSome?_congr fun e he => ?_
  obtain ⟨k, r⟩ := e
  by_cases hr : r = .locked true
  · subst hr
    obtain ⟨y, hy⟩ := ho.logged he
    rw [taker, taker, hy, hd k y hy]
  · rw [taker_of_ne g n k hr, taker_of_ne f n k hr]

/-- Nobody takes a lock, and no entry changes hands. -/
theorem Owned.keep (ho : f.Owned) (hd : ∀ j y, f.deal? j = some y → g.deal? j = some y)
    (hs : ∀ n x, f.store n = some x → ∃ x', g.store n = some x' ∧ x'.holder = x.holder)
    (hlog : g.log = f.log ∨ ∃ k r, g.log = (k, r) :: f.log ∧ r ≠ .locked true) : g.Owned where
  logged := by
    intro j hj
    have hold : (j, Reply.locked true) ∈ f.log := by
      obtain hlog | ⟨k, r, hlog, hr⟩ := hlog
      · exact hlog ▸ hj
      · rw [hlog] at hj
        exact (List.mem_cons.1 hj).resolve_left fun e => hr (congrArg Prod.snd e).symm
    obtain ⟨y, hy⟩ := ho.logged hold
    exact ⟨y, hd j y hy⟩
  owner := by
    intro n holder hn
    have hlast : g.lastTaker n g.log = f.lastTaker n f.log := by
      rw [← ho.lastTaker_eq hd n]
      obtain hlog | ⟨k, r, hlog, hr⟩ := hlog
      · rw [hlog]
      · rw [hlog, lastTaker, List.findSome?_cons, taker_of_ne g n k hr, lastTaker]
    obtain ⟨x, hx, rfl⟩ := ho.owner (hlast.symm.trans hn)
    exact hs n x hx

/-- A lock is taken. -/
theorem Owned.take (ho : f.Owned) (hd : ∀ j y, f.deal? j = some y → g.deal? j = some y)
    {holder : String} {t : Terms} {x : Holding ε} (hs : g.store = f.store.write t.name x)
    (hx : x.holder = holder) (hlog : g.log = (k, .locked true) :: f.log)
    (hk : g.deal? k = some (holder, t)) : g.Owned where
  logged := by
    intro j hj
    rw [hlog] at hj
    obtain hj | hj := List.mem_cons.1 hj
    · cases hj
      exact ⟨_, hk⟩
    · obtain ⟨y, hy⟩ := ho.logged hj
      exact ⟨y, hd j y hy⟩
  owner := by
    intro n b hn
    rw [hlog, lastTaker, List.findSome?_cons, taker, hk, Option.bind_some] at hn
    rw [hs]
    by_cases hname : t.name = n
    · rw [if_pos hname] at hn
      cases hn
      exact ⟨x, hname ▸ Ledger.write_self _ _ _, hx⟩
    · rw [if_neg hname] at hn
      rw [Ledger.write_of_ne fun e => hname e.symm]
      exact ho.owner ((ho.lastTaker_eq hd n).symm.trans hn)

/-- Another end for an entry does not change hands. -/
theorem holder_write_ending (L : Ledger ε) {n : String} {x : Holding ε} (hx : L n = some x)
    (u : Instant) (j : String) (y : Holding ε) (hy : L j = some y) :
    ∃ y', L.write n (R.ending u x) j = some y' ∧ y'.holder = y.holder := by
  by_cases hj : j = n
  · subst hj
    cases hx.symm.trans hy
    exact ⟨_, Ledger.write_self _ _ _, rfl⟩
  · exact ⟨y, (Ledger.write_of_ne hj _ _).trans hy, rfl⟩

/-- **One move** leaves every entry with whoever took its lock last. -/
theorem Owned.of_effect (ho : f.Owned) (hf : f.Sound) (he : Effect (Ledger.serve R) f m g) :
    g.Owned := by
  have hd : ∀ j y, f.deal? j = some y → g.deal? j = some y := fun _ _ => hf.deals he
  have hsame : ∀ n x, f.store n = some x → ∃ x', f.store n = some x' ∧ x'.holder = x.holder :=
    fun n x hx => ⟨x, hx, rfl⟩
  cases he with
  | nothing | ticked | started => exact ho.keep hd hsame (.inl rfl)
  | failed => exact ho.keep hd hsame (.inr ⟨_, _, rfl, fun e => nomatch e⟩)
  | found k holder t s hp hs =>
    obtain ⟨rfl, -⟩ := Ledger.of_found hs
    exact ho.keep hd hsame (.inl rfl)
  | taken k holder t s ht =>
    obtain ⟨rfl, -⟩ := ledger_of_taken ht
    exact ho.take hd rfl rfl rfl ((map_deal_put _ _ _ _).trans (if_pos rfl))
  | refused k holder t s hp hs =>
    obtain rfl := Ledger.of_refused hs
    exact ho.keep hd hsame (.inr ⟨_, _, rfl, fun e => nomatch e⟩)
  | released k h l s hp hl hv hs =>
    obtain rfl := Ledger.of_released hs
    refine ho.keep hd (fun n y hy => ?_) (.inr ⟨_, _, rfl, fun e => nomatch e⟩)
    cases hx : f.store l.terms.name with
    | none => exact ⟨y, (congrFun (Ledger.release_of_none hx) n).trans hy, rfl⟩
    | some x =>
      obtain ⟨y', hy', hb⟩ := holder_write_ending (R := R) f.store hx _ n y hy
      exact ⟨y', (congrFun (Ledger.release_of_some hx) n).trans hy', hb⟩
  | extended k h d e l t s hp hl hv hn hs =>
    obtain ⟨x, hx, -, -, rfl⟩ := Ledger.of_extended hs
    exact ho.keep hd (holder_write_ending f.store hx _) (.inr ⟨_, _, rfl, fun e => nomatch e⟩)
  | lost k h d e l t s hp hl hv hn hs =>
    obtain rfl := Ledger.of_lost hs
    exact ho.keep hd hsame (.inr ⟨_, _, rfl, fun e => nomatch e⟩)

theorem Owned.play (ho : f.Owned) (hf : f.Sound) (R : Rule ε) (ms : List Move) :
    (f.play (Ledger.serve R) ms).Owned := by
  induction ms generalizing f with
  | nil => exact ho
  | cons m ms ih =>
    have he := hf.effect (Ledger.reliable R) m
    exact ih (ho.of_effect hf he) (hf.of_effect he)

end Owners

/-! ### What becomes of extensions -/

section Extensions

variable {σ ε : Type} {S : LedgerService σ ε} {f : Crew σ} {k h : Nat} {l : Lease} {d e : Span}
  {talk : Lease.Talk Landing} {holder : String}

/-- The lock of a lease is held by its holder, as far as is written down, and is not over. -/
def Owns (S : LedgerService σ ε) (f : Crew σ) (l : Lease) : Prop :=
  ∃ x, S.ledger f.store l.terms.name = some x ∧ x.holder = l.holder ∧
    S.rule.isOver x.ends f.now = false

/-- The call of a job by which it finds that a lease is lost: the lease is used up, nobody gets
one, and all that is written down stays as it is. -/
structure Loses (S : LedgerService σ ε) (f : Crew σ) (k h : Nat) (l : Lease) : Prop where
  log : (f.step S.serve (.call k)).log = (k, .extension .lost) :: f.log
  leases : ∀ j, (f.step S.serve (.call k)).leases.get? j =
    if j = h then some l.spent else f.leases.get? j
  ledger : ∀ n, S.ledger (f.step S.serve (.call k)).store n = S.ledger f.store n

/-- The call of a job by which it extends a lease: the lease is used up, and the job gets another
one of the same name and holder, whose end is written down. -/
structure Extends (S : LedgerService σ ε) (f : Crew σ) (k h : Nat) (l : Lease) : Prop where
  log : (f.step S.serve (.call k)).log = (k, .extension .extended) :: f.log
  leases : ∃ t : Terms, t.name = l.terms.name ∧
    (∀ j, (f.step S.serve (.call k)).leases.get? j =
      if j = k then some ⟨l.holder, t, true⟩ else if j = h then some l.spent else f.leases.get? j) ∧
    (S.ledger (f.step S.serve (.call k)).store l.terms.name).map Holding.ends =
      some (S.rule.note t.atMostUntil)

/-- What becomes of extensions of leases whose lock was taken again. -/
structure Supersedes (S : LedgerService σ ε) (f : Crew σ) : Prop where
  /-- An extension to durations that are in order gets under way. -/
  starts : ∀ {h k : Nat} {l : Lease} {d e : Span} {t : Terms}, f.leases.get? h = some l →
    l.valid = true → Terms.make f.now l.terms.name d e = .ok t →
    f.mayStart k (.extend h d e) = true → f.step S.serve (.start k (.extend h d e)) =
      { f with pending := f.pending.put k (.extending h d e l t) }
  /-- If the lock was last taken for somebody else, or is over, the lease is lost. -/
  lost : ∀ {h k : Nat} {l : Lease} {d e : Span} {talk : Lease.Talk Landing} {holder : String},
    f.leases.get? h = some l → f.SupersededBy h l holder →
    f.pending.get? k = some ⟨.extend h d e, talk⟩ → (holder = l.holder → ¬f.Owns S l) →
    f.Loses S k h l
  /-- If it was last taken for the holder of the lease, and is not over, the lease is extended. -/
  extended : ∀ {h k : Nat} {l : Lease} {d e : Span} {talk : Lease.Talk Landing},
    f.leases.get? h = some l → f.SupersededBy h l l.holder →
    f.pending.get? k = some ⟨.extend h d e, talk⟩ → f.Owns S l → f.Extends S k h l

/-- An extension of a lease whose lock is not its holder's, or is over, is lost. -/
theorem Sane.loses (hf : f.Sane S) (hl : f.leases.get? h = some l)
    (hp : f.pending.get? k = some ⟨.extend h d e, talk⟩) (ho : ¬f.Owns S l) :
    f.Loses S k h l := by
  obtain ⟨-, t, hn, hq⟩ := (hf.sound.stage hp).of_extend hl
  have hx : ∀ x, S.ledger f.store t.name = some x →
      ¬(x.holder = l.holder ∧ S.rule.isOver x.ends f.now = false) :=
    fun x hx h => ho ⟨x, hn ▸ hx, h⟩
  obtain ⟨s, hs, hledger⟩ := hf.serve_eq (c := ⟨.extend, l.holder, t⟩) (Ledger.extend_of_lost hx)
  have hstep : f.step S.serve (.call k) = _ := call_lost (hp.trans (congrArg some hq)) hs
  constructor
  · rw [hstep]
  · intro j
    rw [hstep]
    exact Registry.get?_put j h _ _
  · intro n
    rw [hstep, hledger]

/-- An extension of a lease whose lock is its holder's and not over succeeds. -/
theorem Sane.extends (hf : f.Sane S) (hl : f.leases.get? h = some l)
    (hp : f.pending.get? k = some ⟨.extend h d e, talk⟩) (ho : f.Owns S l) :
    f.Extends S k h l := by
  obtain ⟨hv, t, hn, hq⟩ := (hf.sound.stage hp).of_extend hl
  obtain ⟨x, hx, hb, hover⟩ := ho
  obtain ⟨s, hs, hledger⟩ := hf.serve_eq (c := ⟨.extend, l.holder, t⟩)
    (Ledger.extend_of_own (hn ▸ hx) hb hover)
  have hstep : f.step S.serve (.call k) = _ := call_extended (hp.trans (congrArg some hq)) hs
  refine ⟨by rw [hstep], t, hn, fun j => ?_, ?_⟩
  · rw [hstep]
    show ((f.leases.put h _).put k _).get? j = _
    rw [Registry.get?_put, Registry.get?_put, hv]
  · rw [hstep, hledger, ← hn]
    exact congrArg (Option.map Holding.ends) (Ledger.write_self _ _ _)

/-- **Extensions of leases whose lock was taken again**, while entries are with whoever took the
locks last. -/
theorem Sane.supersedes (hf : f.Sane S) (ho : (f.atLedger S).Owned) : f.Supersedes S where
  starts := fun hl hv ht hm => start_extend hm hl hv ht
  lost := by
    intro h k l d e talk holder hl hby hp hown
    refine hf.loses hl hp fun howns => ?_
    obtain ⟨x, hx, hb, hover⟩ := howns
    obtain ⟨x', hx', rfl⟩ := ho.owner (SupersededBy.lastTaker (f := f.atLedger S) hby)
    cases hx.symm.trans hx'
    exact hown hb ⟨x, hx, hb, hover⟩
  extended := fun hl _ hp hown => hf.extends hl hp hown

end Extensions

/-- **A lease whose lock was taken again cannot be extended**, unless the lock was last taken for
the same holder. In every run at a store in memory or at a lock table, an extension of such a lease
is lost, uses the lease up and changes nothing else, if the lock was last taken for somebody else or
is over; otherwise the lease is extended. -/
theorem supersedes_play :
    (∀ (s : Store) (c : Clock) (ms : List Move),
      ((fresh s c).play LedgerService.memory.serve ms).Supersedes .memory) ∧
    ∀ (s : Sql.Schema) (db : Sql.Database) (c : Clock) (ms : List Move), db.Keyed s →
      ((fresh db c).play (LedgerService.table s).serve ms).Supersedes (.table s) := by
  have hplay : ∀ {σ ε : Type} (S : LedgerService σ ε) (s : σ) (c : Clock) (ms : List Move),
      S.Works s → ((fresh s c).play S.serve ms).Supersedes S := by
    intro σ ε S s c ms hw
    have howned : ((fresh s c).atLedger S).Owned := owned_fresh (S.ledger s) c
    refine ((sane_fresh hw c).play ms).supersedes ?_
    rw [(play_ledger (f := fresh s c) hw ms).1]
    exact howned.play (sound_fresh (S.ledger s) c) S.rule ms
  refine ⟨fun s c ms => hplay .memory s c ms trivial, fun s db c ms hk => ?_⟩
  by_cases hs : s.isFreeOfParams = true ∧ (db.table? s).isSome = true
  · exact hplay (.table s) db c ms (hk.tabled hs.1 hs.2)
  · -- The statements do not work, so there is no lease to extend.
    have hno : ∀ h, ((fresh db c).play (LedgerService.table s).serve ms).leases.get? h = none :=
      noLease_of_failing (Sql.fails_of_unworkable hs .generic) c ms
    refine ⟨fun hl => ?_, fun hl => ?_, fun hl => ?_⟩
    all_goals
      rw [hno] at hl
      cases hl

/-- A lock is taken for half a minute, and after 40 seconds it is taken again. Then the first lease
is to be extended. -/
def takenAgain (holder : String) : List Move :=
  [.start 0 (.lock "a" (.inSeconds 0 30 0)), .call 0, .tick ⟨.second 40⟩,
    .start 1 (.lock holder (.inSeconds 40 60 0)), .call 1, .call 1,
    .start 2 (.extend 0 (.ofSeconds 90) .zero)]

/-- The lease is lost if the lock was taken by somebody else. -/
theorem loses_to_other :
    ((fresh [] ⟨.epoch⟩).play LedgerService.memory.serve (takenAgain "b")).Loses .memory 2 0
        ⟨"a", .inSeconds 0 30 0, true⟩ ∧
      Sql.Database.Keyed (Sql.emptyTable "shedlock") {} ∧
      ((fresh (Sql.emptyTable "shedlock") ⟨.epoch⟩).play (LedgerService.table {}).serve
        (takenAgain "b")).Supersedes (.table {}) := by
  have hkeyed := Sql.keyed_emptyTable "shedlock" {}
  have hby : ((fresh [] ⟨.epoch⟩).play LedgerService.memory.serve (takenAgain "b")).SupersededBy 0
      ⟨"a", .inSeconds 0 30 0, true⟩ "b" := by decide
  refine ⟨?_, hkeyed, supersedes_play.2 {} _ ⟨.epoch⟩ (takenAgain "b") hkeyed⟩
  exact (supersedes_play.1 [] ⟨.epoch⟩ (takenAgain "b")).lost (by decide) hby rfl
    fun h => absurd h (by decide)

/-- **A lease whose lock was taken again for the same holder is extended**, and then there are two
leases of the lock that run. -/
theorem extends_own_again :
    let f := (fresh [] ⟨.epoch⟩).play LedgerService.memory.serve (takenAgain "a")
    let l : Lease := ⟨"a", .inSeconds 0 30 0, true⟩
    let g := f.step LedgerService.memory.serve (.call 2)
    f.leases.get? 0 = some l ∧ f.SupersededBy 0 l "a" ∧
      g.log = (2, .extension .extended) :: f.log ∧ ¬f.Loses .memory 2 0 l ∧
      RunsAmong g.leases g.now 1 ⟨"a", .inSeconds 40 60 0, true⟩ ∧
      RunsAmong g.leases g.now 2 ⟨"a", .inSeconds 40 90 0, true⟩ := by
  intro f l g
  have hlog : g.log = (2, .extension .extended) :: f.log := rfl
  refine ⟨by decide, by decide, hlog, fun h => ?_, ⟨by decide, rfl, by decide⟩,
    ⟨by decide, rfl, by decide⟩⟩
  have := hlog.symm.trans h.log
  cases this

end Crew
end LeaseLock
