import LeaseLock.Proofs.Pool

/-!
# Tasks start alone

A lock is there so that a task starts only when no other task under its name has a lease that still
runs (`StartsAlone`). A store in memory keeps to that as long as the leases in use are covered: the
record of the name lasts at least as long as the lease. Creating and claiming records respects
this, but giving back a lease and extending it may move the end of a record that belongs to somebody
else by then, and so cut his lease short (`Undercuts`).

`excludes_iff` says that this is all that can go wrong. If no turn of a run undercuts a lease, all
tasks start alone, and so does the task of whoever comes along at any time. Otherwise somebody who
comes along after that turn, for whatever holder, starts his task beside the one whose lease was
undercut. And it takes an execution that is late: one that still extends its lease or gives it back
when the lease has ended.
-/

namespace LeaseLock

/-! ### Leases in use and their records -/

/-- The task of an execution runs and has a lease on these terms. -/
structure State.HasLease (s : State Site) (k : Nat) (u : Terms) : Prop where
  running : s.isRunning k = true
  noted : s.rest.noted.get? k = some u

/-- The records last as long as the leases in use. -/
def Covered (s : State Site) : Prop :=
  ∀ j u, s.HasLease j u → s.now < u.atMostUntil →
    ∃ r, s.rest.store.get? u.name = some r ∧ u.atMostUntil ≤ r.lockUntil

section Turns

variable {j k : Nat} {n holder : String} {s s' : State Site} {t u : Terms} {before after : Bool}

theorem Apart.now (h : Apart k s s') : s'.now = s.now := congrArg Clock.reading h.clock

theorem Apart.hasLease_iff (h : Apart k s s') (hj : j ≠ k) : s'.HasLease j u ↔ s.HasLease j u := by
  constructor
  · rintro ⟨hr, ho⟩
    exact ⟨by rwa [State.isRunning, h.chain j hj] at hr, (h.noted j hj).symm.trans ho⟩
  · rintro ⟨hr, ho⟩
    exact ⟨by rwa [State.isRunning, h.chain j hj], (h.noted j hj).trans ho⟩

/-- A record that is there stays there. -/
theorem Effect.exists_record (h : Effect k n s s' before after) {m : String} {r : Record}
    (hr : s.rest.store.get? m = some r) : ∃ r', s'.rest.store.get? m = some r' := by
  cases h with
  | quiet _ _ h => exact ⟨r, by rw [h.store, hr]⟩
  | took _ _ _ h =>
    rw [h.store]
    exact Registry.exists_get?_put hr _ _
  | extended _ _ _ _ h =>
    rw [h.store]
    exact Registry.exists_get?_put hr _ _
  | released old h =>
    rw [h.store]
    exact Store.exists_get?_perform hr ⟨.release, "", old⟩

/-- The record of a lock that is taken covers no lease that still runs. -/
theorem Took.not_covers (h : Took k n s s' holder t) {r : Record}
    (hr : s.rest.store.get? n = some r) (hnow : s.now < u.atMostUntil)
    (hle : u.atMostUntil ≤ r.lockUntil) : False :=
  Instant.not_lt.2 (h.lapsed r hr) (Instant.lt_of_lt_of_le hnow hle)

/-- The lease that the execution itself has after its turn is covered. -/
theorem Covered.own (hc : Covered s) (h : Effect k n s s' before after) (hu : s'.HasLease k u)
    (hnow : s.now < u.atMostUntil) :
    ∃ r, s'.rest.store.get? u.name = some r ∧ u.atMostUntil ≤ r.lockUntil := by
  cases h with
  | quiet _ _ h =>
    obtain ho | ho := h.own
    · rw [h.store]
      exact hc k u ⟨h.running hu.running, ho.symm.trans hu.noted⟩ hnow
    · cases hu.noted.symm.trans ho
  | took _ holder t h =>
    cases h.own u hu.noted
    rw [h.store, h.name, Registry.get?_put_self]
    exact ⟨_, rfl, Int.le_refl _⟩
  | extended _ old new r h =>
    cases h.own u hu.noted
    rw [h.store, h.name, Registry.get?_put_self]
    exact ⟨_, rfl, Int.le_refl _⟩
  | released old h => cases hu.running.symm.trans h.running

end Turns

namespace Pool

variable {α : Type} {f g : Pool α} {j k : Nat} {t u : Terms} {m : Event α} {ms : List (Event α)}

/-! ### What is wanted and what goes wrong -/

/-- A task that starts in this event starts alone: no other task under its name has a lease that
still runs. -/
def StartsAlone (f : Pool α) (m : Event α) : Prop :=
  ∀ k t, (f.step m).started = (k, t) :: f.started →
    ∀ j u, j ≠ k → f.state.HasLease j u → u.name = t.name → u.atMostUntil ≤ f.now

/-- After its turn, the record of another's lease ends before that lease does. -/
def Undercuts (f : Pool α) (k : Nat) : Prop :=
  ∃ j u r, j ≠ k ∧ f.state.HasLease j u ∧ f.now < u.atMostUntil ∧
    (f.step (.turn k)).store.get? u.name = some r ∧ r.lockUntil < u.atMostUntil

/-- The event undercuts no lease. -/
def Harmless (f : Pool α) : Event α → Prop
  | .turn k => ¬f.Undercuts k
  | _ => True

/-- The execution has not ended and has a lease on these terms, be it that it is about to give it
back. -/
def InHand (f : Pool α) (k : Nat) (u : Terms) : Prop :=
  f.state.rest.noted.get? k = some u ∧ ∃ r, f.members[k]? = some r ∧ r.isOver = false

/-- The lease of an execution has ended, and in its turn it changes the store nevertheless, or gets
a lease that runs. -/
def Late (f : Pool α) (k : Nat) : Prop :=
  (∃ u, f.InHand k u ∧ u.atMostUntil ≤ f.now) ∧
    ((f.step (.turn k)).store ≠ f.store ∨
      ∃ v, (f.step (.turn k)).InHand k v ∧ f.now < v.atMostUntil)

/-- The event is not a turn of an execution that is late. -/
def Timely (f : Pool α) : Event α → Prop
  | .turn k => ¬f.Late k
  | _ => True

/-- Somebody comes along and tries to get a lock: the clock is set, an execution starts, and its two
storage calls are made, or the one and the first turn of its task. -/
def visit (f : Pool α) (c : Clock) (holder n : String) (d e : Span) (task : Task α) :
    List (Event α) :=
  [.tick c, .start holder n d e task, .turn f.members.length, .turn f.members.length]

/-! ### Covered leases -/

/-- A turn leaves the leases of the others. -/
theorem Sound.hasLease_turn (hf : f.Sound) (hj : j ≠ k) :
    (f.step (.turn k)).state.HasLease j u ↔ f.state.HasLease j u := by
  have h := hf.change (.turn k)
  generalize f.step (.turn k) = g at h ⊢
  cases h with
  | nothing => rfl
  | turned _ n s' r r' hr hs hs' he => exact he.apart.hasLease_iff hj

theorem Sound.now_turn (hf : f.Sound) : (f.step (.turn k)).now = f.now := by
  have h := hf.change (.turn k)
  generalize f.step (.turn k) = g at h ⊢
  cases h with
  | nothing => rfl
  | turned _ n s' r r' hr hs hs' he => exact he.apart.now

/-- An event that undercuts no lease leaves leases covered. -/
theorem Sound.covered_step (hf : f.Sound) (hc : Covered f.state) (hm : f.Harmless m) :
    Covered (f.step m).state := by
  have h := hf.change m
  generalize hg : f.step m = g at h ⊢
  cases h with
  | nothing => exact hc
  | ticked c hle =>
    exact fun j u hu hnow => hc j u ⟨hu.running, hu.noted⟩ (Instant.lt_of_le_of_lt hle hnow)
  | started => exact hc
  | turned k n s' r r' hr hs hs' he =>
    intro j u hu hnow
    rw [he.apart.now] at hnow
    by_cases hj : j = k
    · subst j
      exact hc.own he hu hnow
    · have hold := (he.apart.hasLease_iff hj).1 hu
      obtain ⟨old, hold', -⟩ := hc j u hold hnow
      obtain ⟨new, hnew⟩ := he.exists_record hold'
      refine ⟨new, hnew, Instant.not_lt.1 fun hlt => hm ⟨j, u, new, hj, hold, hnow, ?_, hlt⟩⟩
      rw [hg]
      exact hnew

/-- **While leases are covered, tasks start alone.** -/
theorem Sound.startsAlone (hf : f.Sound) (hc : Covered f.state) (m : Event α) : f.StartsAlone m := by
  intro k t hstart j u hj hu hname
  have h := hf.change m
  generalize f.step m = g at h hstart
  cases h with
  | nothing | ticked | started => exact absurd hstart (List.cons_ne_self _ _).symm
  | turned k' n s' r r' hr hs hs' he =>
    generalize r.isOver = before, r'.isOver = after at he
    cases he with
    | quiet _ _ h => exact absurd (h.started.symm.trans hstart) (List.cons_ne_self _ _).symm
    | extended _ _ _ _ h => exact absurd (h.started.symm.trans hstart) (List.cons_ne_self _ _).symm
    | released _ h => exact absurd (h.started.symm.trans hstart) (List.cons_ne_self _ _).symm
    | took _ holder t' h =>
      cases h.started.symm.trans hstart
      refine Instant.not_lt.1 fun hnow => ?_
      obtain ⟨r, hr, hle⟩ := hc j u hu hnow
      exact h.not_covers (by rw [← h.name, ← hname, hr]) hnow hle

/-- A turn of an execution that has no lease undercuts none. -/
theorem Sound.not_undercuts (hf : f.Sound) (hc : Covered f.state)
    (hk : f.state.rest.noted.get? k = none) : ¬f.Undercuts k := by
  rintro ⟨j, u, r, hj, hu, hnow, hr, hlt⟩
  obtain ⟨old, hold, hle⟩ := hc j u hu hnow
  have hsame : r ≠ old := fun e => Instant.not_lt.2 hle (e ▸ hlt)
  have h := hf.change (.turn k)
  generalize f.step (.turn k) = g at h hr
  cases h with
  | nothing => exact hsame (Option.some.inj (hr.symm.trans hold))
  | turned _ n s' r₀ r' hr₀ hs hs' he =>
    generalize r₀.isOver = before, r'.isOver = after at he
    cases he with
    | quiet _ _ h =>
      exact hsame (Option.some.inj (hr.symm.trans ((congrArg _ h.store).trans hold)))
    | extended _ _ _ _ h => cases hk.symm.trans h.noted_old
    | released _ h => cases hk.symm.trans h.noted_old
    | took _ holder t h =>
      rw [store, h.store, Registry.get?_put] at hr
      split at hr
      · exact h.not_covers (by rw [← ‹u.name = n›, hold]) hnow hle
      · exact hsame (Option.some.inj (hr.symm.trans hold))

theorem Sound.covered_play (hf : f.Sound) (hc : Covered f.state) (hms : Along Harmless f ms) :
    Covered (f.play ms).state := by
  induction ms generalizing f with
  | nil => exact hc
  | cons m ms ih => exact ih (hf.step m) (hf.covered_step hc hms.1) hms.2

/-- A run in which no lease is undercut. -/
theorem Sound.along_startsAlone (hf : f.Sound) (hc : Covered f.state) (hms : Along Harmless f ms) :
    Along StartsAlone f ms := by
  induction ms generalizing f with
  | nil => trivial
  | cons m ms ih =>
    exact ⟨hf.startsAlone hc m, ih (hf.step m) (hf.covered_step hc hms.1) hms.2⟩

/-! ### Whoever comes along -/

theorem step_tick_rest (f : Pool α) (c : Clock) :
    (f.step (.tick c)).state.rest = f.state.rest := by
  rw [step]
  split <;> rfl

theorem step_start_state (f : Pool α) (holder n : String) (d e : Span) (task : Task α) :
    (f.step (.start holder n d e task)).state = f.state := by
  cases ht : Terms.make f.now n d e with
  | ok t => rw [step_start holder task ht]
  | error er => rw [step, ht]

/-- Whoever comes along while leases are covered starts alone. -/
theorem Sound.visit_startsAlone (hf : f.Sound) (hc : Covered f.state) (c : Clock)
    (holder n : String) (d e : Span) (task : Task α) :
    Along StartsAlone f (f.visit c holder n d e task) := by
  have hf₁ := hf.step (.tick c)
  have hc₁ : Covered (f.step (.tick c)).state := hf.covered_step hc trivial
  have hf₂ := hf₁.step (.start holder n d e task)
  have hc₂ := hf₁.covered_step hc₁ (m := .start holder n d e task) trivial
  have hk : ((f.step (.tick c)).step (.start holder n d e task)).state.rest.noted.get?
      f.members.length = none := by
    rw [step_start_state, step_tick_rest]
    exact (hf.new (Nat.le_refl _)).2
  have hc₃ := hf₂.covered_step hc₂ (m := .turn _) (hf₂.not_undercuts hc₂ hk)
  exact ⟨hf.startsAlone hc _, hf₁.startsAlone hc₁ _, hf₂.startsAlone hc₂ _,
    (hf₂.step _).startsAlone hc₃ _, trivial⟩

/-- A task that starts beside another one. -/
theorem not_startsAlone {n holder : String} {s' : State Site}
    {r r' : Routine (State Site) (Conclusion α)} (hr : f.members[k]? = some r)
    (hturn : r.turn f.state = ⟨s', r'⟩) (ht : Took k n f.state s' holder t) (hj : j ≠ k)
    (hu : f.state.HasLease j u) (hn : u.name = n) (hnow : f.now < u.atMostUntil) :
    ¬f.StartsAlone (.turn k) := by
  intro h
  have hstart : (f.step (.turn k)).started = (k, t) :: f.started := by
    rw [step_turn hr hturn]
    exact ht.started
  exact Instant.not_lt.2 (h k t hstart j u hj hu (hn.trans ht.name.symm)) hnow

/-- An execution that is new to a lock whose record has lapsed starts its task beside another one. -/
theorem not_along_startsAlone {holder : String} {task : Task α}
    (hr : f.members[k]? = some (insertingRoutine k holder t task))
    (hc : f.state.chains.chain k = {}) (hj : j ≠ k) (hu : f.state.HasLease j u)
    (hn : t.name = u.name) (hnow : f.now < u.atMostUntil)
    (hlapsed : ∀ r, f.store.get? u.name = some r → r.lockUntil ≤ f.now) :
    ¬Along StartsAlone f [.turn k, .turn k] := by
  rintro ⟨h₁, h₂, -⟩
  cases hrec : f.store.get? u.name with
  | none =>
    -- The first call creates the record.
    obtain ⟨s', r', hturn, -, ht⟩ :=
      turn_inserting_of_none holder task hc (by rw [hn]; exact hrec)
    exact not_startsAlone hr hturn ht hj hu hn.symm hnow h₁
  | some r =>
    -- The first call finds the record, and the second one claims it.
    have hrec' : f.state.rest.store.get? t.name = some r := by rw [hn]; exact hrec
    have hk : k < f.members.length := (List.getElem?_eq_some_iff.1 hr).1
    obtain ⟨s', r', hturn, -, ht⟩ :=
      turn_claiming_of_lapsed holder task hc hrec' (hlapsed r hrec)
    rw [step_turn hr (turn_inserting_of_some holder task hrec')] at h₂
    exact absurd h₂ (not_startsAlone (List.getElem?_set_self hk) hturn ht hj hu hn.symm hnow)

theorem Sound.lt_of_hasLease (hf : f.Sound) (hu : f.state.HasLease j u) : j < f.members.length := by
  refine Nat.lt_of_not_le fun hj => ?_
  have hr := hu.running
  rw [State.isRunning, (hf.new hj).1] at hr
  cases hr

/-- Somebody comes along while a lease is not covered, and starts his task beside it. -/
theorem Sound.exists_visit (hf : f.Sound) (holder : String) (hu : f.state.HasLease j u)
    (hnow : f.now < u.atMostUntil)
    (hr : ∀ r, f.store.get? u.name = some r → r.lockUntil < u.atMostUntil) :
    ∃ c n d e task, ¬Along StartsAlone f (f.visit c holder n d e task) := by
  -- He comes when the record lapses, while the lease still runs.
  obtain ⟨c, hle, hlt, hlapsed⟩ : ∃ c : Clock, f.now ≤ c.reading ∧ c.reading < u.atMostUntil ∧
      ∀ r, f.store.get? u.name = some r → r.lockUntil ≤ c.reading := by
    cases hrec : f.store.get? u.name with
    | none => exact ⟨⟨f.now⟩, Int.le_refl _, hnow, fun _ e => nomatch e⟩
    | some r =>
      by_cases hle : f.now ≤ r.lockUntil
      · exact ⟨⟨r.lockUntil⟩, hle, hr r hrec, fun _ e => by cases e; exact Int.le_refl _⟩
      · exact ⟨⟨f.now⟩, Int.le_refl _, hnow, fun _ e => by
          cases e
          exact Int.le_of_lt (Int.not_le.1 hle)⟩
  obtain ⟨t, ht⟩ := Terms.exists_make_zero c.reading u.name_ne
  have hn : t.name = u.name := Terms.name_of_make ht
  refine ⟨c, u.name, .zero, .zero, .done (.failure ""), ?_⟩
  rintro ⟨-, -, h⟩
  have hstart := step_start (f := ⟨{ f.state with clock := c }, f.members⟩) holder
    (.done (.failure "")) ht
  rw [step_tick hle, hstart] at h
  exact absurd h (not_along_startsAlone List.getElem?_concat_length (hf.new (Nat.le_refl _)).1
    (Nat.ne_of_lt (hf.lt_of_hasLease hu)) ⟨hu.running, hu.noted⟩ hn hlt hlapsed)

/-! ### Executions that are in time -/

/-- A lease in hand that runs is covered, and is the only one of its name. -/
structure Exclusive (f : Pool α) : Prop where
  record : ∀ {j : Nat} {u : Terms}, f.InHand j u → f.now < u.atMostUntil →
    ∃ r, f.store.get? u.name = some r ∧ u.atMostUntil ≤ r.lockUntil
  only : ∀ {j k : Nat} {u v : Terms}, f.InHand j u → f.InHand k v → f.now < u.atMostUntil →
    f.now < v.atMostUntil → u.name = v.name → j = k

/-- Nothing but the end of leases. -/
theorem Exclusive.shrink (hf : f.Exclusive)
    (hl : ∀ {j u}, g.InHand j u → g.now < u.atMostUntil → f.InHand j u ∧ f.now < u.atMostUntil ∧
      g.store.get? u.name = f.store.get? u.name) : g.Exclusive where
  record := by
    intro j u hu hnow
    obtain ⟨hu, hnow, hs⟩ := hl hu hnow
    rw [hs]
    exact hf.record hu hnow
  only := by
    intro j k u v hu hv hnow hnow' hn
    obtain ⟨hu, hnow, -⟩ := hl hu hnow
    obtain ⟨hv, hnow', -⟩ := hl hv hnow'
    exact hf.only hu hv hnow hnow' hn

/-- One lease is granted, and the other ones that run are of other names. -/
theorem Exclusive.grant (hf : f.Exclusive) {r : Record} (hs : g.store = f.store.put t.name r)
    (hr : r.lockUntil = t.atMostUntil)
    (hl : ∀ {j u}, g.InHand j u → g.now < u.atMostUntil →
      (j = k ∧ u = t) ∨ (f.InHand j u ∧ f.now < u.atMostUntil ∧ u.name ≠ t.name)) :
    g.Exclusive where
  record := by
    intro j u hu hnow
    rw [hs]
    obtain ⟨-, rfl⟩ | ⟨hu, hnow, hn⟩ := hl hu hnow
    · exact ⟨r, Registry.get?_put_self _ _ _, hr ▸ Int.le_refl _⟩
    · rw [Registry.get?_put_of_ne hn]
      exact hf.record hu hnow
  only := by
    intro i j u v hu hv hnow hnow' hn
    obtain ⟨rfl, rfl⟩ | ⟨hu, hnow, hn₁⟩ := hl hu hnow <;>
      obtain ⟨rfl, rfl⟩ | ⟨hv, hnow', hn₂⟩ := hl hv hnow'
    · rfl
    · exact (hn₂ hn.symm).elim
    · exact (hn₁ hn).elim
    · exact hf.only hu hv hnow hnow' hn

/-- A turn of one execution leaves the leases in hand of the others. -/
theorem inHand_iff {s' : State Site} {r' : Routine (State Site) (Conclusion α)}
    (ha : Apart k f.state s') (hj : j ≠ k) :
    InHand ⟨s', f.members.set k r'⟩ j u ↔ f.InHand j u := by
  show s'.rest.noted.get? j = some u ∧ (∃ r, (f.members.set k r')[j]? = some r ∧ _) ↔ _
  rw [ha.noted j hj, List.getElem?_set_ne (Ne.symm hj)]
  rfl

/-- The leases in hand after a turn. -/
theorem inHand_cases {s' : State Site} {r r' : Routine (State Site) (Conclusion α)}
    (hr : f.members[k]? = some r) (ha : Apart k f.state s')
    (hu : InHand ⟨s', f.members.set k r'⟩ j u) :
    (j = k ∧ s'.rest.noted.get? k = some u ∧ r'.isOver = false) ∨ (j ≠ k ∧ f.InHand j u) := by
  by_cases hj : j = k
  · subst j
    obtain ⟨ho, q, hq, hover⟩ := hu
    rw [List.getElem?_set_self (List.getElem?_eq_some_iff.1 hr).1] at hq
    cases hq
    exact .inl ⟨rfl, ho, hover⟩
  · exact .inr ⟨hj, (inHand_iff ha hj).1 hu⟩

/-- A lease in use is in hand. -/
theorem Sound.inHand (hf : f.Sound) (hu : f.state.HasLease j u) : f.InHand j u := by
  have hj := hf.lt_of_hasLease hu
  obtain ⟨n, hs⟩ := hf.stands (List.getElem?_eq_getElem hj)
  exact ⟨hu.noted, _, List.getElem?_eq_getElem hj, hs.not_isOver hu.running⟩

/-- A turn that changes no record and after which the execution has no lease that runs. -/
theorem Exclusive.turn_idle {s' : State Site} {r r' : Routine (State Site) (Conclusion α)}
    (hf : f.Exclusive) (hr : f.members[k]? = some r) (ha : Apart k f.state s')
    (hs : s'.rest.store = f.store)
    (hk : ∀ v, InHand ⟨s', f.members.set k r'⟩ k v → ¬f.now < v.atMostUntil) :
    Exclusive ⟨s', f.members.set k r'⟩ := by
  have hnow : now ⟨s', f.members.set k r'⟩ = f.now := ha.now
  refine hf.shrink fun hu hlt => ?_
  rw [hnow] at hlt
  obtain ⟨rfl, -⟩ | ⟨-, hu'⟩ := inHand_cases hr ha hu
  · exact (hk _ hu hlt).elim
  · exact ⟨hu', hlt, congrArg _ hs⟩

/-- What a turn does to leases in hand, if the lease of the execution has not ended or the turn has
no consequences. -/
theorem Exclusive.turn {n : String} {s' : State Site} {r r' : Routine (State Site) (Conclusion α)}
    (hf : f.Exclusive) (hr : f.members[k]? = some r)
    (he : Effect k n f.state s' r.isOver r'.isOver)
    (hlate : ∀ u, f.InHand k u → u.atMostUntil ≤ f.now → s'.rest.store = f.store ∧
      ∀ v, InHand ⟨s', f.members.set k r'⟩ k v → ¬f.now < v.atMostUntil) :
    Exclusive ⟨s', f.members.set k r'⟩ := by
  have hnow : now ⟨s', f.members.set k r'⟩ = f.now := he.apart.now
  have hidle := fun u hu hend =>
    hf.turn_idle hr he.apart (hlate u hu hend).1 (hlate u hu hend).2
  have hcases : ∀ {j u}, InHand ⟨s', f.members.set k r'⟩ j u → _ := inHand_cases hr he.apart
  generalize hb : r.isOver = before, ha : r'.isOver = after at he hcases
  cases he with
  | quiet _ _ h hover =>
    refine hf.shrink fun hu hlt => ⟨?_, hnow ▸ hlt, congrArg _ h.store⟩
    obtain ⟨rfl, ho, hafter⟩ | ⟨-, hu⟩ := hcases hu
    · refine ⟨h.own.elim (fun e => e ▸ ho) fun e => (nomatch e.symm.trans ho), r, hr, ?_⟩
      rw [hb]
      exact Bool.eq_false_iff.2 fun e => Bool.eq_false_iff.1 hafter (hover e)
    · exact hu
  | took _ holder t h =>
    refine hf.grant (k := k) (t := t) (h.name ▸ h.store) rfl fun hu hlt => ?_
    rw [hnow] at hlt
    obtain ⟨rfl, ho, -⟩ | ⟨-, hu⟩ := hcases hu
    · exact .inl ⟨rfl, h.own _ ho⟩
    · refine .inr ⟨hu, hlt, fun hn => ?_⟩
      obtain ⟨old, hold, hle⟩ := hf.record hu hlt
      exact h.not_covers (by rw [← h.name, ← hn]; exact hold) hlt hle
  | extended _ old new rec h =>
    have hold : f.InHand k old := ⟨h.noted_old, r, hr, hb⟩
    by_cases hend : old.atMostUntil ≤ f.now
    · exact hidle old hold hend
    · have hend := Instant.not_le.1 hend
      refine hf.grant (k := k) (t := new) (h.name ▸ h.store) rfl fun hu hlt => ?_
      rw [hnow] at hlt
      obtain ⟨rfl, ho, -⟩ | ⟨hj, hu⟩ := hcases hu
      · exact .inl ⟨rfl, h.own _ ho⟩
      · exact .inr ⟨hu, hlt, fun hn =>
          hj (hf.only hu hold hlt hend (hn.trans (h.name.trans h.name_old.symm)))⟩
  | released old h =>
    have hold : f.InHand k old := ⟨h.noted_old, r, hr, hb⟩
    by_cases hend : old.atMostUntil ≤ f.now
    · exact hidle old hold hend
    · have hend := Instant.not_le.1 hend
      refine hf.shrink fun hu hlt => ?_
      rw [hnow] at hlt
      obtain ⟨-, -, hafter⟩ | ⟨hj, hu⟩ := hcases hu
      · cases hafter
      · refine ⟨hu, hlt, (congrArg _ h.store).trans ?_⟩
        exact Store.get?_perform_of_ne (c := ⟨.release, "", old⟩) fun hn =>
          hj (hf.only hu hold hlt hend hn)

/-- **One event** that is in time keeps leases in hand exclusive. -/
theorem Exclusive.step (hf : f.Exclusive) (hs : f.Sound) (hm : f.Timely m) :
    (f.step m).Exclusive := by
  have h := hs.change m
  generalize hg : f.step m = g at h ⊢
  cases h with
  | nothing => exact hf
  | ticked c hc => exact hf.shrink fun hu hnow => ⟨hu, Instant.lt_of_le_of_lt hc hnow, rfl⟩
  | started holder n d e task t =>
    refine hf.shrink fun {j u} hu hnow => ⟨⟨hu.1, ?_⟩, hnow, rfl⟩
    obtain ⟨ho, r, hr, hover⟩ := hu
    have hj : j < f.members.length := Nat.lt_of_not_le fun hj => by
      cases (hs.new hj).2.symm.trans ho
    rw [List.getElem?_append_left hj] at hr
    exact ⟨r, hr, hover⟩
  | turned k n s' r r' hr hst hst' he =>
    refine hf.turn hr he fun u hu hend => ?_
    rw [Timely, Late, hg] at hm
    refine ⟨Decidable.not_not.1 fun hne => ?_, fun v hv hlt => ?_⟩
    · exact hm ⟨⟨u, hu, hend⟩, .inl hne⟩
    · exact hm ⟨⟨u, hu, hend⟩, .inr ⟨v, hv, hlt⟩⟩

/-- An event after which leases in hand are exclusive undercuts none. -/
theorem Exclusive.harmless (hf : (f.step m).Exclusive) (hs : f.Sound) : f.Harmless m := by
  cases m with
  | tick | start => trivial
  | turn k =>
    rintro ⟨j, u, r, hj, hu, hnow, hr, hlt⟩
    have hu' := (hs.step _).inHand ((hs.hasLease_turn hj).2 hu)
    obtain ⟨r', hr', hle⟩ := hf.record hu' (by rw [hs.now_turn]; exact hnow)
    cases hr.symm.trans hr'
    exact Instant.not_lt.2 hle hlt

theorem Exclusive.along_harmless (hf : f.Exclusive) (hs : f.Sound) (hms : Along Timely f ms) :
    Along Harmless f ms := by
  induction ms generalizing f with
  | nil => trivial
  | cons m ms ih =>
    have hf' := hf.step hs hms.1
    exact ⟨hf'.harmless hs, ih hf' (hs.step m) hms.2⟩

/-! ### Whole runs -/

theorem covered_fresh (s : Store) (c : Clock) : Covered (fresh s c : Pool α).state :=
  fun _ _ hu => nomatch hu.running

theorem exclusive_fresh (s : Store) (c : Clock) : Exclusive (fresh s c : Pool α) where
  record := fun hu => nomatch hu.1
  only := fun hu => nomatch hu.1

/-- After a turn that undercuts a lease, somebody comes along and starts his task beside it. -/
theorem Sound.exists_visit_of_undercuts (hf : f.Sound) (hk : f.Undercuts k) (holder : String) :
    ∃ c n d e task, ¬Along StartsAlone (f.step (.turn k))
      ((f.step (.turn k)).visit c holder n d e task) := by
  obtain ⟨j, u, r, hj, hu, hnow, hr, hlt⟩ := hk
  have hnow' : (f.step (.turn k)).now < u.atMostUntil := by rw [hf.now_turn]; exact hnow
  refine (hf.step _).exists_visit holder ((hf.hasLease_turn hj).2 hu) hnow' fun r' hr' => ?_
  cases hr.symm.trans hr'
  exact hlt

/-- **Tasks start alone exactly as long as no lease is undercut**: in a run in which no turn
undercuts a lease, and for whoever comes along after any part of it; and no lease is undercut while
no execution is late. -/
theorem excludes_iff (s : Store) (c : Clock) (holder : String) (ms : List (Event α)) :
    (Along Harmless (fresh s c) ms ↔ ∀ p, p <+: ms → ∀ c' n d e task,
      Along StartsAlone (fresh s c) (p ++ ((fresh s c).play p).visit c' holder n d e task)) ∧
    (Along Timely (fresh s c) ms → Along Harmless (fresh s c) ms) := by
  have hf : Sound (fresh s c : Pool α) := sound_fresh s c
  have hc : Covered (fresh s c : Pool α).state := covered_fresh s c
  refine ⟨⟨fun hms p hp c' n d e task => ?_, fun h => ?_⟩,
    fun hms => (exclusive_fresh s c).along_harmless hf hms⟩
  · obtain ⟨q, rfl⟩ := hp
    have hms := (along_append.1 hms).1
    exact along_append.2 ⟨hf.along_startsAlone hc hms,
      (hf.play p).visit_startsAlone (hf.covered_play hc hms) c' holder n d e task⟩
  · refine Classical.byContradiction fun hms => ?_
    obtain ⟨p, m, hp, hm⟩ := exists_of_not_along hms
    cases m with
    | tick | start => exact hm trivial
    | turn k =>
      obtain ⟨c', n, d, e, task, hnot⟩ :=
        (hf.play p).exists_visit_of_undercuts (Classical.not_not.1 hm) holder
      have := (along_append.1 (h (p ++ [.turn k]) hp c' n d e task)).2
      rw [play_append] at this
      exact hnot this

/-- A task that waits once. -/
def waitOnce : Task Unit := .ask .wait fun _ => .done (.value ())

/-- A task overruns its lease, somebody else takes the lock, and the first one is about to give its
lease back. -/
def overrun : List (Event Unit) :=
  [.start "a" "job" .halfMinute .zero waitOnce, .turn 0,
    .tick ⟨⟨31 * nanosPerSecond, by decide, by decide⟩⟩,
    .start "b" "job" .halfMinute .zero waitOnce, .turn 1, .turn 1, .turn 0]

theorem undercuts_overrun : ((fresh [] ⟨.epoch⟩).play overrun).Undercuts 0 := by
  have hu : ((fresh [] ⟨.epoch⟩).play overrun).state.HasLease 1
      ((((fresh [] ⟨.epoch⟩).play overrun).state.rest.noted.get? 1).get (by decide)) :=
    ⟨by decide, (Option.some_get _).symm⟩
  exact ⟨1, _, ((((fresh [] ⟨.epoch⟩).play overrun).step (.turn 0)).store.get? "job").get
    (by decide), by decide, hu, by decide, by decide, by decide⟩

/-- A third one can start his task beside the second one's. -/
theorem not_alone_after_overrun :
    ¬Along Harmless (fresh [] ⟨.epoch⟩) (overrun ++ [.turn 0]) ∧
      ∃ p, p <+: overrun ++ [.turn 0] ∧ ∃ c n d e task, ¬Along StartsAlone (fresh [] ⟨.epoch⟩)
        (p ++ ((fresh [] ⟨.epoch⟩).play p).visit c "c" n d e task) := by
  have hms : ¬Along Harmless (fresh [] ⟨.epoch⟩) (overrun ++ [.turn 0]) :=
    fun h => (along_append.1 h).2.1 undercuts_overrun
  refine ⟨hms, Classical.byContradiction fun hn => hms ?_⟩
  refine (excludes_iff [] ⟨.epoch⟩ "c" _).1.2 fun p hp c n d e task => ?_
  exact Classical.byContradiction fun hv => hn ⟨p, hp, c, n, d, e, task, hv⟩

end Pool
end LeaseLock
