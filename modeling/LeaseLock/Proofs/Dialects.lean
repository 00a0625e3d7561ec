import LeaseLock.Proofs.ServerTimes
import LeaseLock.Proofs.TableLeases

/-!
# Times of the application and times of the database

Nodes that share a lock table can compute all instants themselves and bind them to the plain
commands, or bind durations and let the database add these to its clock. This module compares the
two, for clocks that show the same.

## What is proved

On terms that start now and are measured in whole milliseconds, locks are taken and leases extended
alike (`serve_sqlite_eq`). A return differs: the minimum of a lease counts from the start of its
terms for the application, but from the time that the lock was taken for the database
(`Returns.finds`); an extension starts new terms and leaves that time as it is. As long as leases
are used only while they run, this is all (`dialects_agree_iff`).

That a lease that runs has its row, so that the database need not ask for the holder, is an
invariant of such runs (`Booked`). The table may have any rows at the start.

## Honest scope

The clocks show whole milliseconds of the years 0 to 9999, as that of the database does, and are not
set back.
-/

namespace LeaseLock

namespace Sql

open Commands

/-! ### Commands with times of the database -/

section ServerCommands

variable {rows : List Row} {t : Terms} {holder : String} {now since e : Instant} {r : Option Row}
  {x : Row} {db : Database} {s : Schema} {name : String} {table : Table} {c : Call}

theorem value_serverNow (hn : now.InYears) :
    Quantity.serverNow.value? (.ofTerms t holder now now) r = some (Stamp.stored now) :=
  ServerTime.stamp?_millis hn

/-- The end of a lease from now on is that of its terms. -/
theorem value_serverUntil (ht : t.Stampable) (hc : t.createdAt = now) :
    serverUntil.value? (.ofTerms t holder now now) r = some (Stamp.stored t.atMostUntil) := by
  subst hc
  exact ServerTime.later?_eq t.atMostUntil_eq ht.atMostFor t.atMostFor_nonneg t.atMostFor_fits
    ht.inYears

theorem holds_atMost_serverNow (hn : now.InYears) (c : Column) :
    (Condition.atMost c .serverNow).holds (.ofTerms t holder now now) x =
      decide (x.get c ≤ Stamp.stored now) := by
  rw [Condition.holds, value_serverNow hn, Option.any_some]

theorem holds_after_serverNow (hn : now.InYears) (c : Column) :
    (Condition.after c .serverNow).holds (.ofTerms t holder now now) x =
      decide (Stamp.stored now < x.get c) := by
  rw [Condition.holds, value_serverNow hn, Option.any_some]

/-- A quiet insertion leaves a row alone that is there. -/
theorem perform_insert_server (ht : t.Stampable) (hc : t.createdAt = now) :
    Commands.server.insert.perform (.ofTerms t holder now now) rows =
      if (rowOf t.name rows).isSome then .ok (0, rows)
      else .ok (1, rows ++ [takenRow t holder now]) := by
  have hn : now.InYears := hc ▸ ht.createdAt.inYears
  have hrow : Command.newRow? (.ofTerms t holder now now) (.bound .name) serverUntil .serverNow
      (.bound .lockedBy) = some (takenRow t holder now) := by
    rw [Command.newRow?, value_serverUntil ht hc, value_serverNow hn]
    rfl
  rw [← any_name_eq, Commands.server, Command.perform, hrow]
  rfl

theorem perform_claim_server (ht : t.Stampable) (hc : t.createdAt = now) :
    Commands.server.claim.perform (.ofTerms t holder now now) rows =
      .ok (alter (mayClaim t now) (claimed t holder now) rows) := by
  have hn : now.InYears := hc ▸ ht.createdAt.inYears
  refine perform_update (fun r => ?_) fun r => ?_
  · rw [List.all_cons, List.all_cons, List.all_nil, holds_atMost_serverNow hn, Bool.and_true,
      mayClaim, Bool.decide_and]
    rfl
  · rw [Row.assign, List.foldlM_cons, value_serverUntil ht hc, Option.map_some, Option.bind_eq_bind,
      Option.bind_some, List.foldlM_cons, value_serverNow hn]
    rfl

theorem perform_extend_server (ht : t.Stampable) (hc : t.createdAt = now) :
    Commands.server.extend.perform (.ofTerms t holder now now) rows =
      .ok (alter (mayExtend t holder now) (ending t.atMostUntil) rows) := by
  have hn : now.InYears := hc ▸ ht.createdAt.inYears
  refine perform_update (fun r => ?_) fun r => ?_
  · rw [List.all_cons, List.all_cons, List.all_cons, List.all_nil, holds_after_serverNow hn,
      Bool.and_true, mayExtend, Bool.decide_and, Bool.decide_and]
    rfl
  · rw [Row.assign, List.foldlM_cons, value_serverUntil ht hc]
    rfl

/-- The minimum of a lease is counted from the time that its lock was taken. -/
theorem perform_release_server (hu : (rows.map Row.name).Nodup) (hx : rowOf t.name rows = some x)
    (hb : x.lockedBy = holder) (ha : x.lockedAt = Stamp.stored since) (hs : since.Stampable)
    (hn : now.Stampable) (hw : t.atLeastFor.WholeMillis)
    (he : e.nanos = since.nanos + t.atLeastFor.nanos) (hes : e.Stampable) :
    Commands.server.release.perform (.ofTerms t holder now now) rows =
      .ok (alter (isOf t) (ending (max now e)) rows) := by
  -- No other row has the name, so it is no matter that the holder is asked for, too.
  have hrow : ∀ r ∈ rows, isOf t r = true → r = x := by
    intro r hr hname
    have := rowOf_of_mem hu hr
    rw [of_decide_eq_true hname, hx] at this
    exact (Option.some.inj this).symm
  refine perform_update_of_mem (fun r hr => ?_) fun r hr hpr => ?_
  · have hname : (Condition.equal .name (.bound .name)).holds (.ofTerms t holder now now) r =
        isOf t r := rfl
    rw [List.all_cons, List.all_cons, List.all_nil, hname]
    cases hpr : isOf t r with
    | false => rfl
    | true =>
      have hby : (Condition.equal .lockedBy (.bound .lockedBy)).holds (.ofTerms t holder now now) r =
          true := decide_eq_true (by rw [hrow r hr hpr]; exact hb)
      rw [hby]
      rfl
  · obtain rfl := hrow r hr hpr
    have hlater : Quantity.value? (.ofTerms t holder now now) (some r)
        (.later (.column .lockedAt) .atLeastMicros) = some (Stamp.stored e) := by
      show (ServerTime.millis? r.lockedAt.toList).bind _ = _
      rw [ha, ServerTime.millis?_stored hs.inYears]
      exact ServerTime.later?_eq he hw t.atLeastFor_nonneg t.atLeastFor_fits hes.inYears
    have hvalue : Quantity.value? (.ofTerms t holder now now) (some r)
        (.latest (.later (.column .lockedAt) .atLeastMicros) .serverNow) =
        some (Stamp.stored (max now e)) := by
      rw [Quantity.value?, hlater, value_serverNow hn.inYears, ← hes.greater_stored hn]
      rfl
    rw [Row.assign, List.foldlM_cons, hvalue]
    rfl

/-! #### Calls -/

/-- Taking and extending leases comes to the same with either clock. -/
theorem serve_sqlite_eq (hs : s.isFreeOfParams = true) (ht : db.table? s = some (name, table))
    (hc : c.terms.Stampable) (hnow : c.terms.createdAt = now) (hk : c.kind ≠ .release) :
    Sql.serve .sqlite s db now c = Sql.serve .generic s db now c := by
  have hsame : db.put name { table with rows := table.rows } = db :=
    Registry.put_of_get? (table?_eq_some_iff.1 ht).2.2
  obtain ⟨kind, holder, t⟩ := c
  rw [Sql.serve, Sql.serve, perform_of_understood rfl hs ht, perform_of_table? hs ht]
  cases kind with
  | insert =>
    simp only [Dialect.commands, Commands.ofKind, perform_insert_server hc hnow, perform_insert]
    cases (rowOf t.name table.rows).isSome with
    | false => rfl
    | true =>
      simp only [if_true, hsame]
      rfl
  | claim => simp only [Dialect.commands, Commands.ofKind, perform_claim_server hc hnow, perform_claim]
  | release => exact (hk rfl).elim
  | extend =>
    simp only [Dialect.commands, Commands.ofKind, perform_extend_server hc hnow, perform_extend]

/-- The rows with another end of the lease on the terms. -/
def Database.ended (db : Database) (name : String) (table : Table) (t : Terms) (u : Instant) :
    Database :=
  db.put name { table with rows := (alter (isOf t) (ending u) table.rows).2 }

theorem serve_release (hs : s.isFreeOfParams = true) (ht : db.table? s = some (name, table)) :
    Sql.serve .generic s db now ⟨.release, holder, t⟩ =
      (.ok (), db.ended name table t (t.releaseAt now)) := by
  rw [Sql.serve, perform_of_table? hs ht]
  simp only [Commands.ofKind, perform_release]
  rfl

theorem serve_release_server (hs : s.isFreeOfParams = true) (ht : db.table? s = some (name, table))
    (hu : (table.rows.map Row.name).Nodup) (hx : rowOf t.name table.rows = some x)
    (hb : x.lockedBy = holder) (ha : x.lockedAt = Stamp.stored since) (hsince : since.Stampable)
    (hn : now.Stampable) (hw : t.atLeastFor.WholeMillis)
    (he : e.nanos = since.nanos + t.atLeastFor.nanos) (hes : e.Stampable) :
    Sql.serve .sqlite s db now ⟨.release, holder, t⟩ =
      (.ok (), db.ended name table t (max now e)) := by
  rw [Sql.serve, perform_of_understood rfl hs ht]
  simp only [Dialect.commands, Commands.ofKind,
    perform_release_server hu hx hb ha hsince hn hw he hes]
  rfl

/-- The record that is found has the new end. -/
theorem find_ended (ht : db.table? s = some (name, table)) (hx : rowOf t.name table.rows = some x)
    (ha : x.lockedAt = Stamp.stored since) (hsince : since.Stampable) (he : e.Stampable) :
    (db.ended name table t e).find s t.name =
      .ok (some ⟨t.name, .ofInstant e, .ofInstant since, x.lockedBy⟩) := by
  have hname := name_of_rowOf hx
  have hrow : rowOf t.name (alter (isOf t) (ending e) table.rows).2 =
      some (.holding t.name ⟨e, since, x.lockedBy⟩) := by
    rw [rowOf_alter (name_ending e), hx, Option.map_some, isOf, decide_eq_true hname, if_pos rfl,
      ending, Row.holding, ha, hname]
  rw [Database.find, Database.ended, table?_put ht]
  simp only
  rw [show List.find? _ _ = _ from hrow]
  simp only [record_holding (n := t.name) (r := ⟨e, since, x.lockedBy⟩)
    ⟨he.inYears, he.whole, hsince.whole⟩]
  rfl

end ServerCommands

end Sql

namespace Crew

/-! ### Moves by the clock -/

section Moves

variable {σ : Type} {f : Crew σ} {k h : Nat} {l : Lease}

/-- The clock is not set back, all instants are stampable, locks are taken and leases extended on
terms from now on, and a lease is used only while it runs. -/
def Punctual (f : Crew σ) : Move → Prop
  | .tick c => f.now ≤ c.reading ∧ c.reading.Stampable
  | .start _ _ => True
  | .call k =>
    (∀ c ∈ f.asked (.call k), c.terms.Stampable ∧
      (c.kind ≠ .release → c.terms.createdAt = f.now)) ∧
    ∀ l ∈ f.worked k, l.valid = true ∧ f.now < l.terms.atMostUntil

instance (f : Crew σ) : (m : Move) → Decidable (f.Punctual m)
  | .tick c => inferInstanceAs (Decidable (f.now ≤ c.reading ∧ c.reading.Stampable))
  | .start _ _ => inferInstanceAs (Decidable True)
  | .call k => inferInstanceAs (Decidable ((∀ c ∈ f.asked (.call k), c.terms.Stampable ∧
      (c.kind ≠ .release → c.terms.createdAt = f.now)) ∧
    ∀ l ∈ f.worked k, l.valid = true ∧ f.now < l.terms.atMostUntil))

/-- The lease that a job works on runs. -/
theorem Punctual.runs (hm : f.Punctual (.call k)) {p : Pending}
    (hp : f.pending.get? k = some p) (hh : p.job.lease? = some h) (hl : f.leases.get? h = some l) :
    f.Runs h l := by
  obtain ⟨hv, hu⟩ := hm.2 l (worked_of_pending hp hh hl)
  exact ⟨hl, hv, hu⟩

end Moves

/-! ### Leases that run have their entries -/

section Entries

variable {f g : Crew (Ledger String)} {L : Ledger String} {now now' : Instant} {h k : Nat}
  {l : Lease} {m : Move} {holder : String} {t : Terms}

/-- The entry of a lease has its end and its holder. Its lock was taken when the lease was, or, if
this is an extended one, before. -/
structure Entered (L : Ledger String) (now : Instant) (l : Lease) : Prop where
  stampable : l.terms.Stampable
  started : l.terms.createdAt ≤ now
  entry : ∃ since : Instant, since.Stampable ∧ since ≤ l.terms.createdAt ∧
    L l.terms.name = some ⟨Stamp.stored l.terms.atMostUntil, Stamp.stored since, l.holder⟩

/-- The leases that run are entered, and have different names. -/
structure Booked (f : Crew (Ledger String)) : Prop where
  now : f.now.Stampable
  entered : ∀ {h : Nat} {l : Lease}, f.Runs h l → Entered f.store f.now l
  only : ∀ {h j : Nat} {l l' : Lease}, f.Runs h l → f.Runs j l' →
    l'.terms.name = l.terms.name → j = h

theorem Entered.keep {L' : Ledger String} (he : Entered L now l) (hnow : now ≤ now')
    (hL : L' l.terms.name = L l.terms.name) : Entered L' now' l where
  stampable := he.stampable
  started := Int.le_trans he.started hnow
  entry := by rw [hL]; exact he.entry

/-- A lease that runs is not over. -/
theorem Booked.running (hf : f.Booked) (hr : f.Runs h l) :
    Rule.table.isOver (Stamp.stored l.terms.atMostUntil) f.now = false := by
  rw [Rule.isOver_stored]
  refine Stamp.reaches_eq_false (String.not_le.1 fun hle => ?_)
  have hu := (hf.entered hr).stampable.atMostUntil
  exact Instant.not_le.2 hr.early ((hu.stored_le_iff hf.now).1 hle)

/-- Nothing but the end of leases. -/
theorem Booked.shrink (hf : f.Booked) (hn : g.now.Stampable) (hle : f.now ≤ g.now)
    (hl : ∀ {h l}, g.Runs h l → f.Runs h l)
    (hs : ∀ {h l}, g.Runs h l → g.store l.terms.name = f.store l.terms.name) : g.Booked where
  now := hn
  entered := fun hr => (hf.entered (hl hr)).keep hle (hs hr)
  only := fun hr hr' hn => hf.only (hl hr) (hl hr') hn

/-- One lease is granted, and the other ones that run are of other names. -/
theorem Booked.grant (hf : f.Booked) (hn : g.now = f.now) {x : Holding String}
    (hs : g.store = f.store.write l.terms.name x) (he : Entered g.store g.now l)
    (hl : ∀ {j l'}, g.Runs j l' → (j = k ∧ l' = l) ∨ (f.Runs j l' ∧ l'.terms.name ≠ l.terms.name)) :
    g.Booked where
  now := hn ▸ hf.now
  entered := by
    intro j l' hr
    obtain ⟨-, rfl⟩ | ⟨hr, hne⟩ := hl hr
    · exact he
    · refine (hf.entered hr).keep (hn ▸ Int.le_refl _) ?_
      rw [hs, Ledger.write_of_ne hne]
  only := by
    intro i j l₁ l₂ h₁ h₂ hn
    obtain ⟨rfl, rfl⟩ | ⟨h₁, hn₁⟩ := hl h₁ <;> obtain ⟨rfl, rfl⟩ | ⟨h₂, hn₂⟩ := hl h₂
    · rfl
    · exact (hn₂ hn).elim
    · exact (hn₁ hn.symm).elim
    · exact hf.only h₁ h₂ hn

/-- While a lock may be taken, no lease of its name runs. -/
theorem Booked.name_ne_of_taken (hf : f.Booked) {n : String}
    (hover : ∀ x, f.store n = some x → Rule.table.isOver x.ends f.now = true) (hr : f.Runs h l) :
    l.terms.name ≠ n := by
  rintro rfl
  obtain ⟨since, -, -, hx⟩ := (hf.entered hr).entry
  have ho := hover _ hx
  rw [hf.running hr] at ho
  cases ho

/-- The terms of a lock that is taken start now. -/
theorem Punctual.taken {serve : Serve (Ledger String)} (hm : f.Punctual (.call k))
    (ht : f.Takes serve k holder t L) : t.Stampable ∧ t.createdAt = f.now := by
  obtain ⟨hp, -⟩ | ⟨hp, -⟩ := ht
  · obtain ⟨ht, hc⟩ := hm.1 _ (asked_inserting hp)
    exact ⟨ht, hc nofun⟩
  · obtain ⟨ht, hc⟩ := hm.1 _ (asked_claiming hp)
    exact ⟨ht, hc nofun⟩

/-- **One move** by the clock keeps the entries of the leases that run. -/
theorem Booked.step (hf : f.Booked) (hm : f.Punctual m) (he : Effect (Ledger.serve .table) f m g) :
    g.Booked := by
  have hle : f.now ≤ f.now := Int.le_refl _
  cases he with
  | nothing => exact hf
  | ticked c =>
    refine hf.shrink hm.2 hm.1 (fun hr => ?_) fun _ => rfl
    exact ⟨hr.here, hr.valid, Instant.lt_of_le_of_lt hm.1 hr.early⟩
  | started => exact hf.shrink hf.now hle (fun hr => ⟨hr.here, hr.valid, hr.early⟩) fun _ => rfl
  | failed k job e ls hl =>
    exact hf.shrink hf.now hle (fun hr => ⟨(hl _).symm.trans hr.here, hr.valid, hr.early⟩)
      fun _ => rfl
  | found k holder t s hp hs =>
    obtain ⟨rfl, -⟩ := Ledger.of_found hs
    exact hf.shrink hf.now hle (fun hr => ⟨hr.here, hr.valid, hr.early⟩) fun _ => rfl
  | taken k holder t s htakes =>
    obtain ⟨ht, hc⟩ := hm.taken htakes
    obtain ⟨rfl, hover⟩ := ledger_of_taken htakes
    refine hf.grant (k := k) (l := ⟨holder, t, true⟩) rfl rfl ⟨ht, hc ▸ hle, ?_⟩ fun hr => ?_
    · exact ⟨f.now, hf.now, hc ▸ hle, Ledger.write_self _ _ _⟩
    · refine hr.of_put.imp_right fun hr => ⟨hr, ?_⟩
      exact hf.name_ne_of_taken (fun x hx => (hover x hx).2) hr
  | refused k holder t s hp hs =>
    obtain rfl := Ledger.of_refused hs
    exact hf.shrink hf.now hle (fun hr => ⟨hr.here, hr.valid, hr.early⟩) fun _ => rfl
  | released k h l s hp hl hv hs =>
    obtain rfl := Ledger.of_released hs
    -- The lease ran, so no other lease of the name does.
    have hold : f.Runs h l := hm.runs hp rfl hl
    refine hf.shrink hf.now hle (fun hr => hr.of_spent.2) fun {j l₁} hr => ?_
    obtain ⟨hj, hr⟩ := hr.of_spent
    have hne : l₁.terms.name ≠ l.terms.name := fun hn => hj (hf.only hold hr hn)
    obtain ⟨since, -, -, hx⟩ := (hf.entered hold).entry
    rw [Ledger.release_of_some hx]
    exact Ledger.write_of_ne hne _ _
  | extended k h d e l t s hp hl hv hn hs =>
    obtain ⟨x, hx, hb, -, rfl⟩ := Ledger.of_extended hs
    have hold : f.Runs h l := hm.runs hp rfl hl
    obtain ⟨ht, hc⟩ := hm.1 _ (asked_extending hp)
    have hc : t.createdAt = f.now := hc nofun
    obtain ⟨-, hstarted, since, hstamp, hsince, hx'⟩ := hf.entered hold
    rw [hn, hx'] at hx
    cases hx
    refine hf.grant (k := k) (l := { l with terms := t }) rfl rfl ⟨ht, hc ▸ hle, ?_⟩ fun hr => ?_
    · exact ⟨since, hstamp, hc ▸ Int.le_trans hsince hstarted, Ledger.write_self _ _ _⟩
    · refine hr.of_put.imp_right fun hr => ?_
      obtain ⟨hj, hr⟩ := hr.of_spent
      exact ⟨hr, fun hn' => hj (hf.only hold hr (hn'.trans hn))⟩
  | lost k h d e l t s hp hl hv hn hs =>
    obtain rfl := Ledger.of_lost hs
    exact hf.shrink hf.now hle (fun hr => hr.of_spent.2) fun _ => rfl

theorem booked_fresh (L : Ledger String) {c : Clock} (hc : c.reading.Stampable) :
    (fresh L c).Booked where
  now := hc
  entered := fun hr => nomatch hr.here
  only := fun hr => nomatch hr.here

end Entries

/-! ### Both dialects -/

section Agreement

open Sql

variable {s : Schema} {f : Crew Database} {m : Move} {k : Nat} {c : Call} {holder : String}
  {t : Terms} {since : Instant}

/-- Move by move, the nodes of two crews, the first with times of the database and the second with
their own, get the same replies, and find the same records then. -/
def InUnison (s : Schema) : Crew Database → Crew Database → List Move → Prop
  | _, _, [] => True
  | f, g, m :: ms =>
    let f' := f.step (Sql.serve .sqlite s) m
    let g' := g.step (Sql.serve .generic s) m
    f'.log = g'.log ∧ (∀ n, f'.store.find s n = g'.store.find s n) ∧ InUnison s f' g' ms

/-- A lease that is given back has been kept for its minimum, or its lock was taken when its terms
start. -/
def Unhurried (s : Schema) (f : Crew Database) (m : Move) : Prop :=
  ∀ c ∈ f.asked m, c.kind = .release → c.terms.atLeastUntil ≤ f.now ∨
    ∃ r, f.store.row? s c.terms.name = some r ∧ r.lockedAt = Stamp.stored c.terms.createdAt

/-- A move depends on the service by the answer to its call. -/
theorem step_congr {σ : Type} {serve serve' : Serve σ} {f : Crew σ}
    (h : ∀ c ∈ f.asked m, serve f.store f.now c = serve' f.store f.now c) :
    f.step serve m = f.step serve' m := by
  obtain ⟨s', hstep, hs⟩ := step_on (f := f) (m := m) serve' serve (fun s s' => s = s') rfl
    fun c hc => by rw [h c hc]; exact ⟨rfl, rfl⟩
  rw [← hs] at hstep
  exact hstep

theorem store_step {σ : Type} {serve : Serve σ} {f : Crew σ} (hc : f.asked (.call k) = some c) :
    (f.step serve (.call k)).store = (serve f.store f.now c).2 := by
  rw [asked] at hc
  split at hc
  · rename_i job c' next hp
    cases hc
    rw [step, hp]
    exact store_proceed _ k job _
  · cases hc

/-- A lease is given back whose row has its end and its holder. Its lock was taken when its terms
start or before. -/
structure Returns (s : Schema) (f : Crew Database) (holder : String) (t : Terms) (since : Instant) :
    Prop where
  now : f.now.Stampable
  terms : t.Stampable
  taken : since.Stampable
  before : since ≤ t.createdAt
  row : f.store.row? s t.name = some
    ⟨t.name, Stamp.stored t.atMostUntil, Stamp.stored since, holder⟩

theorem Booked.returns (hb : (f.atLedger (.table s)).Booked) (hf : f.Sane (.table s))
    (hm : f.Punctual m) (hc : f.asked m = some ⟨.release, holder, t⟩) :
    ∃ since, Returns s f holder t since := by
  cases m with
  | tick | start => cases hc
  | call k =>
    have hstamp := (hm.1 _ hc).1
    cases hp : f.pending.get? k with
    | none => simp [asked, hp] at hc
    | some p =>
      cases hf.sound.stage hp with
      | inserting => cases (asked_inserting hp).symm.trans hc
      | claiming => cases (asked_claiming hp).symm.trans hc
      | extending => cases (asked_extending hp).symm.trans hc
      | releasing h l hl hv =>
        cases (asked_releasing hp hv).symm.trans hc
        obtain ⟨-, -, since, hs, hle, hx⟩ := hb.entered (hm.runs hp rfl hl)
        exact ⟨since, hb.now, hstamp, hs, hle, Database.row?_of_held hx⟩

/-- What both dialects make of a return: the minimum is counted from the start of the terms, or from
the time that the lock was taken. -/
theorem Returns.serves (hr : Returns s f holder t since) (hf : f.Sane (.table s)) :
    ∃ e name table, e.nanos = since.nanos + t.atLeastFor.nanos ∧ e.Stampable ∧
      e ≤ t.atLeastUntil ∧ f.store.table? s = some (name, table) ∧
      rowOf t.name table.rows =
        some ⟨t.name, Stamp.stored t.atMostUntil, Stamp.stored since, holder⟩ ∧
      Sql.serve .generic s f.store f.now ⟨.release, holder, t⟩ =
        (.ok (), f.store.ended name table t (t.releaseAt f.now)) ∧
      Sql.serve .sqlite s f.store f.now ⟨.release, holder, t⟩ =
        (.ok (), f.store.ended name table t (max f.now e)) := by
  obtain ⟨hfree, name, table, ht, hrows⟩ := hf.works
  obtain ⟨e, he, hes, hle⟩ := hr.terms.exists_least hr.taken hr.before
  have hx := hr.row
  rw [Database.row?, if_pos hfree, ht] at hx
  exact ⟨e, name, table, he, hes, hle, ht, hx, serve_release hfree ht,
    serve_release_server hfree ht hrows.unique hx rfl rfl hr.taken hr.now hr.terms.atLeastFor he hes⟩

/-- What is found after a return. -/
theorem Returns.finds (hr : Returns s f holder t since) (hf : f.Sane (.table s))
    (hc : f.asked (.call k) = some ⟨.release, holder, t⟩) :
    ∃ e : Instant, e.nanos = since.nanos + t.atLeastFor.nanos ∧
      (f.step (Sql.serve .generic s) (.call k)).store.find s t.name =
        .ok (some ⟨t.name, .ofInstant (t.releaseAt f.now), .ofInstant since, holder⟩) ∧
      (f.step (Sql.serve .sqlite s) (.call k)).store.find s t.name =
        .ok (some ⟨t.name, .ofInstant (max f.now e), .ofInstant since, holder⟩) := by
  obtain ⟨e, name, table, he, hes, -, ht, hx, hplain, hserver⟩ := hr.serves hf
  have hkept : (t.releaseAt f.now).Stampable := hr.now.latest hr.terms.atLeastUntil
  rw [store_step hc, store_step hc, hplain, hserver]
  exact ⟨e, he, find_ended ht hx rfl hr.taken hkept, find_ended ht hx rfl hr.taken (hr.now.latest hes)⟩

/-- Whether giving the lease back is hurried. -/
theorem Returns.unhurried_iff (hr : Returns s f holder t since)
    (hc : f.asked m = some ⟨.release, holder, t⟩) :
    Unhurried s f m ↔ t.atLeastUntil ≤ f.now ∨ since = t.createdAt := by
  constructor
  · intro hu
    refine (hu _ hc rfl).imp_right ?_
    rintro ⟨r, hrow, hat⟩
    cases hr.row.symm.trans hrow
    exact hr.taken.eq_of_stored hr.terms.createdAt hat
  · rintro hu c hc' -
    cases hc.symm.trans hc'
    exact hu.imp_right fun hs => ⟨_, hr.row, congrArg Stamp.stored hs⟩

theorem Returns.serve_eq (hr : Returns s f holder t since) (hf : f.Sane (.table s))
    (hu : t.atLeastUntil ≤ f.now ∨ since = t.createdAt) :
    Sql.serve .sqlite s f.store f.now ⟨.release, holder, t⟩ =
      Sql.serve .generic s f.store f.now ⟨.release, holder, t⟩ := by
  obtain ⟨e, name, table, he, -, hle, -, -, hplain, hserver⟩ := hr.serves hf
  have hends : max f.now e = t.releaseAt f.now := by
    have hleast := t.atLeastUntil_eq
    ext
    rw [Terms.releaseAt, Instant.nanos_max, Instant.nanos_max]
    obtain hu | rfl := hu
    · rw [Instant.le_def] at hu hle
      omega
    · rw [he, hleast]
  rw [hserver, hplain, hends]

/-- A hurried return leaves records with different ends. -/
theorem Returns.find_ne (hr : Returns s f holder t since) (hf : f.Sane (.table s))
    (hc : f.asked (.call k) = some ⟨.release, holder, t⟩)
    (hu : ¬(t.atLeastUntil ≤ f.now ∨ since = t.createdAt)) :
    (f.step (Sql.serve .sqlite s) (.call k)).store.find s t.name ≠
      (f.step (Sql.serve .generic s) (.call k)).store.find s t.name := by
  obtain ⟨e, he, hplain, hserver⟩ := hr.finds hf hc
  rw [hplain, hserver]
  intro heq
  have hends : max f.now e = t.releaseAt f.now := by
    injection heq with heq
    injection heq with heq
    exact Moment.ofInstant_inj (congrArg FoundRecord.lockUntil heq)
  have hnanos := congrArg Instant.nanos hends
  rw [Terms.releaseAt, Instant.nanos_max, Instant.nanos_max] at hnanos
  have hleast := t.atLeastUntil_eq
  refine hu ?_
  by_cases hnow : t.atLeastUntil ≤ f.now
  · exact .inl hnow
  · refine .inr (Instant.ext ?_)
    rw [Instant.le_def] at hnow
    omega

/-- **One move** by the clock comes to the same in both dialects if it is not a hurried return. -/
theorem step_sqlite_eq (hb : (f.atLedger (.table s)).Booked) (hf : f.Sane (.table s))
    (hm : f.Punctual m) (hu : Unhurried s f m) :
    f.step (Sql.serve .sqlite s) m = f.step (Sql.serve .generic s) m := by
  refine step_congr fun c hc => ?_
  obtain ⟨hfree, name, table, ht, -⟩ := hf.works
  by_cases hk : c.kind = .release
  · obtain ⟨kind, holder, t⟩ := c
    cases hk
    obtain ⟨since, hr⟩ := hb.returns hf hm hc
    exact hr.serve_eq hf ((hr.unhurried_iff hc).1 hu)
  · cases m with
    | tick | start => cases hc
    | call k =>
      obtain ⟨hstamp, hnow⟩ := hm.1 c hc
      exact serve_sqlite_eq hfree ht hstamp (hnow hk) hk

/-- A hurried return does not. -/
theorem exists_find_ne (hb : (f.atLedger (.table s)).Booked) (hf : f.Sane (.table s))
    (hm : f.Punctual m) (hu : ¬Unhurried s f m) :
    ∃ n, (f.step (Sql.serve .sqlite s) m).store.find s n ≠
      (f.step (Sql.serve .generic s) m).store.find s n := by
  simp only [Unhurried, Classical.not_forall] at hu
  obtain ⟨c, hc, hk, hno⟩ := hu
  obtain ⟨kind, holder, t⟩ := c
  cases hk
  obtain ⟨since, hr⟩ := hb.returns hf hm hc
  cases m with
  | tick | start => cases hc
  | call k => exact ⟨t.name, hr.find_ne hf hc fun h => hno ((hr.unhurried_iff hc).2 h _ hc rfl)⟩

/-! ### Runs -/

theorem inUnison_iff (hb : (f.atLedger (.table s)).Booked) (hf : f.Sane (.table s)) {ms : List Move}
    (hms : Along (Sql.serve .generic s) Punctual f ms) :
    InUnison s f f ms ↔ Along (Sql.serve .generic s) (Unhurried s) f ms := by
  induction ms generalizing f with
  | nil => exact Iff.rfl
  | cons m ms ih =>
    have hb' := hb.step hms.1 (hf.effect m)
    by_cases hu : Unhurried s f m
    · have hrest := ih (f := f.step (Sql.serve .generic s) m) hb' (hf.step m) hms.2
      rw [InUnison, step_sqlite_eq hb hf hms.1 hu]
      exact ⟨fun h => ⟨hu, hrest.1 h.2.2⟩, fun h => ⟨rfl, fun _ => rfl, hrest.2 h.2⟩⟩
    · obtain ⟨n, hne⟩ := exists_find_ne hb hf hms.1 hu
      exact ⟨fun h => (hne (h.2.1 n)).elim, fun h => (hu h.1).elim⟩

theorem Booked.play (hb : (f.atLedger (.table s)).Booked) (hf : f.Sane (.table s)) {ms : List Move}
    (hms : Along (Sql.serve .generic s) Punctual f ms) :
    ((f.play (Sql.serve .generic s) ms).atLedger (.table s)).Booked := by
  induction ms generalizing f with
  | nil => exact hb
  | cons m ms ih => exact ih (hb.step hms.1 (hf.effect m)) (hf.step m) hms.2

theorem Barren.not_asked_release {db : Database} (hf : Barren db f) :
    f.asked m ≠ some ⟨.release, holder, t⟩ := by
  intro hc
  cases m with
  | tick | start => cases hc
  | call k =>
    cases hp : f.pending.get? k with
    | none => simp [asked, hp] at hc
    | some p =>
      obtain ⟨holder, t, rfl⟩ := hf.first hp
      cases (asked_inserting hp).symm.trans hc

/-- Where no statement works, nobody gets to return anything. -/
theorem Barren.inUnison {db : Database} (hf : Barren db f)
    (hs : ¬(s.isFreeOfParams = true ∧ (db.table? s).isSome = true)) (ms : List Move) :
    InUnison s f f ms ∧ Along (Sql.serve .generic s) (Unhurried s) f ms := by
  induction ms generalizing f with
  | nil => exact ⟨trivial, trivial⟩
  | cons m ms ih =>
    have hrest := ih (hf.step (fails_of_unworkable hs .generic) m)
    have hsame : f.step (Sql.serve .sqlite s) m = f.step (Sql.serve .generic s) m := by
      refine step_congr fun c _ => ?_
      rw [hf.store]
      exact (perform_of_unworkable hs _ c).trans (perform_of_unworkable hs _ c).symm
    rw [InUnison, hsame]
    refine ⟨⟨rfl, fun _ => rfl, hrest.1⟩, fun c hc hk => ?_, hrest.2⟩
    obtain ⟨kind, holder, t⟩ := c
    cases hk
    exact (hf.not_asked_release hc).elim

/-- **Both dialects come to the same** exactly as long as no lease that was extended after its lock
was taken is given back before its minimum. Whenever a lease is given back, the record ends at once
or with the minimum; the application counts this from the start of the lease's terms, and the
database from the time that the lock was taken. -/
theorem dialects_agree_iff (s : Schema) (db : Database) (c : Clock) (ms : List Move)
    (hk : db.Keyed s) (hc : c.reading.Stampable)
    (hms : Along (Sql.serve .generic s) Punctual (fresh db c) ms) :
    (InUnison s (fresh db c) (fresh db c) ms ↔
      Along (Sql.serve .generic s) (Unhurried s) (fresh db c) ms) ∧
    ∀ k holder t, let f := (fresh db c).play (Sql.serve .generic s) ms
      f.Punctual (.call k) → f.asked (.call k) = some ⟨.release, holder, t⟩ →
      ∃ since e : Instant, since ≤ t.createdAt ∧ e.nanos = since.nanos + t.atLeastFor.nanos ∧
        (f.step (Sql.serve .generic s) (.call k)).store.find s t.name =
          .ok (some ⟨t.name, .ofInstant (max f.now t.atLeastUntil), .ofInstant since, holder⟩) ∧
        (f.step (Sql.serve .sqlite s) (.call k)).store.find s t.name =
          .ok (some ⟨t.name, .ofInstant (max f.now e), .ofInstant since, holder⟩) := by
  by_cases hs : s.isFreeOfParams = true ∧ (db.table? s).isSome = true
  · have hf : (fresh db c).Sane (.table s) := sane_fresh (hk.tabled hs.1 hs.2) c
    have hb : ((fresh db c).atLedger (.table s)).Booked := booked_fresh _ hc
    refine ⟨inUnison_iff hb hf hms, ?_⟩
    intro k holder t f hm hask
    have hf' : f.Sane (.table s) := hf.play ms
    obtain ⟨since, hr⟩ := (hb.play hf hms).returns hf' hm hask
    obtain ⟨e, he, hfinds⟩ := hr.finds hf' hask
    exact ⟨since, e, hr.before, he, hfinds⟩
  · obtain ⟨hsame, hunhurried⟩ := (barren_fresh db c).inUnison hs ms
    refine ⟨iff_of_true hsame hunhurried, ?_⟩
    intro k holder t f hm hask
    have hf : Barren db f := (barren_fresh db c).play (fails_of_unworkable hs .generic) ms
    exact (hf.not_asked_release hask).elim

/-- A lock is taken, its lease is extended to another minimum, and is to be given back at once. -/
def hurried : List Move :=
  [.start 0 (.lock "a" (.inSeconds 0 600 0)), .call 0, .tick ⟨.second 10⟩,
    .start 1 (.extend 0 (.ofSeconds 600) (.ofSeconds 300)), .call 1, .start 2 (.unlock 1)]

/-- **An extended lease that is given back early** has different ends in both dialects. -/
theorem dialects_differ :
    let db := emptyTable "shedlock"
    db.Keyed {} ∧ Instant.epoch.Stampable ∧
    Along (Sql.serve .generic {}) Punctual (fresh db ⟨.epoch⟩) (hurried ++ [.call 2]) ∧
    ¬InUnison {} (fresh db ⟨.epoch⟩) (fresh db ⟨.epoch⟩) (hurried ++ [.call 2]) := by
  intro db
  have hk : db.Keyed {} := keyed_emptyTable _ _
  have hc : Instant.epoch.Stampable := by decide
  have hledger : (fresh db ⟨.epoch⟩).atLedger (.table {}) = fresh (fun _ => none) ⟨.epoch⟩ := by
    have hnone : (LedgerService.table {}).ledger db = fun _ => none :=
      funext fun n => congrArg (Option.map Row.held) (row?_emptyTable "shedlock" {} n)
    rw [atLedger, fresh, hnone]
    rfl
  have hms : Along (Sql.serve .generic {}) Punctual (fresh db ⟨.epoch⟩) (hurried ++ [.call 2]) := by
    refine Along.of_ledger (S := .table {}) (Q := Punctual) (fun f m => ?_)
      LedgerService.works_emptyTable ?_
    · cases m <;> exact id
    · rw [hledger]
      decide +kernel
  refine ⟨hk, hc, hms, fun hsame => ?_⟩
  have hu := (((dialects_agree_iff {} db ⟨.epoch⟩ _ hk hc hms).1).1 hsame).last
  -- What the return needs is read off the run at the ledger.
  let t : Terms := .inSeconds 10 600 300
  let g : Crew (Ledger String) := (fresh (fun _ => none) ⟨.epoch⟩).play (Ledger.serve .table) hurried
  have hask : g.asked (.call 2) = some ⟨.release, "a", t⟩ := by decide +kernel
  have hnow : ¬t.atLeastUntil ≤ g.now := by decide +kernel
  have hsince : (g.store "job").map Holding.since ≠ some (Stamp.stored t.createdAt) := by
    decide +kernel
  have hplay : ((fresh db ⟨.epoch⟩).play (Sql.serve .generic {}) hurried).atLedger (.table {}) = g :=
    (play_ledger LedgerService.works_emptyTable hurried).1.trans (by rw [hledger]; rfl)
  obtain hle | ⟨r, hr, hat⟩ := hu _ ((congrArg (asked · (.call 2)) hplay).trans hask) rfl
  · exact hnow (congrArg now hplay ▸ hle)
  · refine hsince ?_
    rw [← hplay]
    show ((Database.row? _ _ _).map Row.held).map Holding.since = _
    rw [show Database.row? _ _ "job" = _ from hr]
    exact congrArg some hat

end Agreement

end Crew
end LeaseLock
