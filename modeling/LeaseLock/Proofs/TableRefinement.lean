import LeaseLock.Proofs.StoreCalls
import LeaseLock.Proofs.TableRows
import LeaseLock.Scenario.Backend

/-!
# A lock table does what the store in memory does

The plain commands on a table of texts answer as the store in memory does whose calls have all
instants cut down to milliseconds, and the records found after each call are the same ones, as long
as the instants that are bound are in the years 0 to 9999 (`refines_iff`).

The table agrees with the store when it has one row for each record, with the stored texts of its
instants (`Agree`). One call keeps them in agreement; a run is a sequence of calls.

## Honest scope

All this needs a schema whose names have no parameter's mention in them. Names are pasted into
templates as they are, and a mention is then taken for a parameter, so that no statement works. The
theorem says that such schemas are exactly those for which the table is of no use.
-/

namespace LeaseLock.Sql

/-! ### Calls and their counterparts -/

/-- A call at readings of both clocks, with its counterpart for the store in memory: the same call
with the instants that it uses cut down to milliseconds. -/
structure Twin where
  now : Instant
  /-- The clock of the database, which the plain commands do not read. -/
  clock : Instant
  kind : CallKind
  holder : String
  terms : Terms
  /-- The terms of the counterpart. -/
  cut : Terms
  name_eq : cut.name = terms.name
  until_eq : kind ≠ .release → cut.atMostUntil = terms.atMostUntil.floorMillis
  kept_eq : kind = .release → cut.atLeastUntil = terms.atLeastUntil.floorMillis
  /-- The instants that are bound have four-digit years. -/
  bounds : kind ≠ .release → now.InYears ∧ terms.atMostUntil.InYears
  release_bounds : kind = .release → (terms.releaseAt now).InYears

/-- The call. -/
def Twin.call (x : Twin) : Call := ⟨x.kind, x.holder, x.terms⟩

/-- The counterpart. -/
def Twin.cutCall (x : Twin) : Call := ⟨x.kind, x.holder, x.cut⟩

/-- Call by call, the database answers as the store in memory does, and has the same records. -/
def Alike (s : Schema) : Database → Store → List Twin → Prop
  | _, _, [] => True
  | db, m, x :: xs =>
    let a := db.perform .generic s x.now x.clock x.call
    let b := m.perform x.now.floorMillis x.cutCall
    a.1 = .ok b.1 ∧
      (∀ n, a.2.find s n = .ok ((b.2.get? n).map (Scenario.foundRecord n))) ∧
      Alike s a.2 b.2 xs

/-- Whatever calls are made, the database does what an empty store in memory does. -/
def Refines (db : Database) (s : Schema) : Prop := ∀ xs, Alike s db [] xs

/-! ### Agreement of a table and a store -/

/-- The row that holds a record. -/
def Row.holding (n : String) (r : Record) : Row :=
  ⟨n, Stamp.stored r.lockUntil, Stamp.stored r.lockedAt, r.lockedBy⟩

/-- A record as it can be in a table: its instants are whole milliseconds, and its end has a
four-digit year. -/
structure Storable (r : Record) : Prop where
  inYears : r.lockUntil.InYears
  lockUntil : r.lockUntil.floorMillis = r.lockUntil
  lockedAt : r.lockedAt.floorMillis = r.lockedAt

/-- The rows are those of the records. -/
structure Agree (rows : List Row) (m : Store) : Prop where
  unique : (rows.map Row.name).Nodup
  row : ∀ n, rowOf n rows = (m.get? n).map (Row.holding n)
  storable : ∀ {n r}, m.get? n = some r → Storable r

variable {rows : List Row} {m : Store} {n : String} {p : Row → Bool} {g : Row → Row}
  {r r' : Record}

theorem agree_nil : Agree [] [] where
  unique := List.nodup_nil
  row := fun _ => rfl
  storable := fun h => nomatch h

/-- A row is read as the record that it holds. -/
theorem record_holding (hr : Storable r) :
    (Row.holding n r).record = .ok (Scenario.foundRecord n r) := by
  have hread : ∀ t : Instant, t.floorMillis = t → readStamp (Stamp.stored t) = .ok (.ofInstant t) := by
    intro t ht
    rw [readStamp, Stamp.read_stored, ht]
  simp only [Row.record, Row.holding, hread _ hr.lockUntil, hread _ hr.lockedAt]
  rfl

/-- A record is created. -/
theorem Agree.create (h : Agree rows m) (hn : m.get? n = none) (hr : Storable r) :
    Agree (rows ++ [Row.holding n r]) (m.put n r) where
  unique := by
    have hnew : n ∉ rows.map Row.name := name_ne_of_rowOf (by rw [h.row, hn]; rfl)
    rw [List.map_append, List.nodup_append]
    refine ⟨h.unique, by simp, fun a ha b hb hab => ?_⟩
    cases List.mem_singleton.1 hb
    subst hab
    exact hnew ha
  row := by
    intro j
    rw [rowOf_append, h.row, Registry.get?_put]
    by_cases hj : j = n
    · subst hj
      rw [hn, if_pos rfl]
      exact if_pos rfl
    · rw [if_neg hj, show (if (Row.holding n r).name = j then some (Row.holding n r) else none) = none
        from if_neg fun e => hj e.symm, Option.or_none]
  storable := by
    intro j r' hj
    rw [Registry.get?_put] at hj
    split at hj
    · cases hj
      exact hr
    · exact h.storable hj

/-- The row of a record is changed with it. -/
theorem Agree.change (h : Agree rows m) (hp : ∀ r, p r = true → r.name = n)
    (hg : ∀ r, (g r).name = r.name) (hm : m.get? n = some r) (hpr : p (.holding n r) = true)
    (hgr : g (.holding n r) = .holding n r') (hr' : Storable r') :
    (alter p g rows).1 = 1 ∧ Agree (alter p g rows).2 (m.put n r') := by
  have hrow : rowOf n rows = some (.holding n r) := by rw [h.row, hm, Option.map_some]
  refine ⟨?_, ?_, ?_, ?_⟩
  · rw [count_alter h.unique hp, hrow, Option.any_some, if_pos hpr]
  · rw [names_alter hg]
    exact h.unique
  · intro j
    rw [rowOf_alter hg, Registry.get?_put]
    by_cases hj : j = n
    · subst hj
      rw [hrow, if_pos rfl, Option.map_some, if_pos hpr, hgr, Option.map_some]
    · rw [if_neg hj, h.row]
      cases m.get? j with
      | none => rfl
      | some x =>
        have : p (.holding j x) = false := Bool.eq_false_iff.2 fun e => hj (hp _ e)
        rw [Option.map_some, Option.map_some, this, if_neg (by decide)]
  · intro j x hj
    rw [Registry.get?_put] at hj
    split at hj
    · cases hj
      exact hr'
    · exact h.storable hj

/-- No row is changed. -/
theorem Agree.leave (h : Agree rows m) (hp : ∀ r, p r = true → r.name = n)
    (hg : ∀ r, (g r).name = r.name) (hm : ∀ r, m.get? n = some r → p (.holding n r) = false) :
    (alter p g rows).1 = 0 ∧ Agree (alter p g rows).2 m := by
  have hfalse : ∀ j x, m.get? j = some x → p (.holding j x) = false := by
    intro j x hx
    by_cases hj : j = n
    · subst hj
      exact hm x hx
    · exact Bool.eq_false_iff.2 fun e => hj (hp _ e)
  refine ⟨?_, ?_, ?_, h.storable⟩
  · rw [count_alter h.unique hp, h.row]
    cases hn : m.get? n with
    | none => rfl
    | some x => rw [Option.map_some, Option.any_some, hm x hn]; rfl
  · rw [names_alter hg]
    exact h.unique
  · intro j
    rw [rowOf_alter hg, h.row]
    cases hj : m.get? j with
    | none => rfl
    | some x => rw [Option.map_some, Option.map_some, hfalse j x hj, if_neg (by decide)]

/-! ### One call -/

variable {t u : Terms} {holder : String} {now clock : Instant}

/-- The end of a lease is compared as a text. -/
theorem Storable.stored_le (hr : Storable r) (hnow : now.InYears) :
    (Row.holding n r).lockUntil ≤ Stamp.stored now ↔ r.lockUntil ≤ now.floorMillis := by
  show Stamp.stored r.lockUntil ≤ _ ↔ _
  rw [Stamp.stored_le_iff hr.inYears hnow, hr.lockUntil]

theorem Storable.lt_stored (hr : Storable r) (hnow : now.InYears) :
    Stamp.stored now < (Row.holding n r).lockUntil ↔ now.floorMillis < r.lockUntil := by
  show _ < Stamp.stored r.lockUntil ↔ _
  rw [Stamp.stored_lt_iff hnow hr.inYears, hr.lockUntil]

theorem storable_taken (hu : u.atMostUntil = t.atMostUntil.floorMillis)
    (ht : t.atMostUntil.InYears) : Storable ⟨u.atMostUntil, now.floorMillis, holder⟩ where
  inYears := by rw [hu]; exact Instant.inYears_floorMillis.2 ht
  lockUntil := by rw [hu, Instant.floorMillis_floorMillis]
  lockedAt := Instant.floorMillis_floorMillis now

theorem holding_taken (hn : u.name = t.name) (hu : u.atMostUntil = t.atMostUntil.floorMillis) :
    Row.holding u.name ⟨u.atMostUntil, now.floorMillis, holder⟩ = takenRow t holder now := by
  simp only [Row.holding, takenRow, hn, hu, Stamp.stored_floorMillis]

/-- A row with another end holds the record with that end. -/
theorem ending_holding {i j : Instant} (h : j = i.floorMillis) :
    ending i (.holding n r) = .holding n { r with lockUntil := j } := by
  simp only [ending, Row.holding, h, Stamp.stored_floorMillis]

theorem Storable.ending {i j : Instant} (hr : Storable r) (h : j = i.floorMillis)
    (hi : i.InYears) : Storable { r with lockUntil := j } where
  inYears := by rw [h]; exact Instant.inYears_floorMillis.2 hi
  lockUntil := by rw [h, Instant.floorMillis_floorMillis]
  lockedAt := hr.lockedAt

/-- What a call that creates records does to rows and records that agree. -/
theorem Agree.insert (h : Agree rows m) (holder : String) (now clock : Instant) (hn : u.name = t.name)
    (hu : u.atMostUntil = t.atMostUntil.floorMillis) (ht : t.atMostUntil.InYears) :
    (∃ new, Commands.plain.insert.perform (.ofTerms t holder now clock) rows = .ok (1, new) ∧
      (m.insert holder now.floorMillis u).1 = true ∧
      Agree new (m.insert holder now.floorMillis u).2) ∨
    (Commands.plain.insert.perform (.ofTerms t holder now clock) rows = .error .notUnique ∧
      m.insert holder now.floorMillis u = (false, m)) := by
  rw [perform_insert, ← hn, h.row]
  cases hm : m.get? u.name with
  | none =>
    refine .inl ⟨_, rfl, ?_⟩
    rw [Store.insert_of_none hm, ← holding_taken hn hu]
    exact ⟨rfl, h.create hm (storable_taken hu ht)⟩
  | some r => exact .inr ⟨rfl, Store.insert_of_some hm⟩

/-- What a claim does to rows and records that agree. -/
theorem Agree.claim (h : Agree rows m) (holder : String) (now clock : Instant) (hn : u.name = t.name)
    (hu : u.atMostUntil = t.atMostUntil.floorMillis) (ht : t.atMostUntil.InYears)
    (hnow : now.InYears) :
    ∃ k new, Commands.plain.claim.perform (.ofTerms t holder now clock) rows = .ok (k, new) ∧
      (m.claim holder now.floorMillis u).1 = decide (0 < k) ∧
      Agree new (m.claim holder now.floorMillis u).2 := by
  refine ⟨(alter (mayClaim t now) (claimed t holder now) rows).1,
    (alter (mayClaim t now) (claimed t holder now) rows).2, perform_claim, ?_⟩
  have hp : ∀ r, mayClaim t now r = true → r.name = u.name :=
    fun r hr => (of_decide_eq_true hr).1.trans hn.symm
  obtain ⟨r, hm, hr, hc⟩ | ⟨hm, hc⟩ := m.claim_cases holder now.floorMillis u
  · have hpr : mayClaim t now (.holding u.name r) = true :=
      decide_eq_true ⟨hn, ((h.storable hm).stored_le hnow).2 hr⟩
    have hgr : claimed t holder now (.holding u.name r) =
        .holding u.name ⟨u.atMostUntil, now.floorMillis, holder⟩ := by
      rw [holding_taken hn hu, claimed, takenRow, ← hn]
      rfl
    obtain ⟨hk, hnew⟩ := h.change hp name_claimed hm hpr hgr (storable_taken hu ht)
    rw [hk, hc]
    exact ⟨rfl, hnew⟩
  · have hpr : ∀ r, m.get? u.name = some r → mayClaim t now (.holding u.name r) = false :=
      fun r hr => decide_eq_false fun hpr =>
        Instant.not_le.2 (hm r hr) (((h.storable hr).stored_le hnow).1 hpr.2)
    obtain ⟨hk, hnew⟩ := h.leave hp name_claimed hpr
    rw [hk, hc]
    exact ⟨rfl, hnew⟩

/-- What giving a lease back does to rows and records that agree. -/
theorem Agree.release (h : Agree rows m) (holder : String) (now clock : Instant) (hn : u.name = t.name)
    (hu : u.atLeastUntil = t.atLeastUntil.floorMillis) (hy : (t.releaseAt now).InYears) :
    ∃ k new, Commands.plain.release.perform (.ofTerms t holder now clock) rows = .ok (k, new) ∧
      Agree new (m.release now.floorMillis u) := by
  refine ⟨(alter (isOf t) (ending (t.releaseAt now)) rows).1,
    (alter (isOf t) (ending (t.releaseAt now)) rows).2, perform_release, ?_⟩
  have hp : ∀ r, isOf t r = true → r.name = u.name :=
    fun r hr => (of_decide_eq_true hr).trans hn.symm
  have hend : u.releaseAt now.floorMillis = (t.releaseAt now).floorMillis := by
    rw [Terms.releaseAt, hu, Terms.releaseAt, Instant.floorMillis_max]
  cases hm : m.get? u.name with
  | none =>
    rw [Store.release_of_none hm]
    exact (h.leave hp (name_ending _) fun r hr => by rw [hm] at hr; cases hr).2
  | some r =>
    rw [Store.release_of_some hm]
    exact (h.change hp (name_ending _) hm (decide_eq_true hn) (ending_holding hend)
      ((h.storable hm).ending hend hy)).2

/-- What an extension does to rows and records that agree. -/
theorem Agree.extend (h : Agree rows m) (holder : String) (now clock : Instant) (hn : u.name = t.name)
    (hu : u.atMostUntil = t.atMostUntil.floorMillis) (ht : t.atMostUntil.InYears)
    (hnow : now.InYears) :
    ∃ k new, Commands.plain.extend.perform (.ofTerms t holder now clock) rows = .ok (k, new) ∧
      (m.extend holder now.floorMillis u).1 = (if 0 < k then .extended else .lost) ∧
      Agree new (m.extend holder now.floorMillis u).2 := by
  refine ⟨(alter (mayExtend t holder now) (ending t.atMostUntil) rows).1,
    (alter (mayExtend t holder now) (ending t.atMostUntil) rows).2, perform_extend, ?_⟩
  have hp : ∀ r, mayExtend t holder now r = true → r.name = u.name :=
    fun r hr => (of_decide_eq_true hr).1.trans hn.symm
  obtain ⟨r, hm, hb, hr, hc⟩ | ⟨hm, hc⟩ := m.extend_cases holder now.floorMillis u
  · have hpr : mayExtend t holder now (.holding u.name r) = true :=
      decide_eq_true ⟨hn, hb, ((h.storable hm).lt_stored hnow).2 hr⟩
    obtain ⟨hk, hnew⟩ := h.change hp (name_ending _) hm hpr (ending_holding hu)
      ((h.storable hm).ending hu ht)
    rw [hk, hc]
    exact ⟨rfl, hnew⟩
  · have hpr : ∀ r, m.get? u.name = some r → mayExtend t holder now (.holding u.name r) = false :=
      fun r hr => decide_eq_false fun hpr =>
        Instant.not_lt.2 (hm r hr hpr.2.1) (((h.storable hr).lt_stored hnow).1 hpr.2.2)
    obtain ⟨hk, hnew⟩ := h.leave hp (name_ending _) hpr
    rw [hk, hc]
    exact ⟨rfl, hnew⟩

/-! ### The database -/

section Database

variable {db : Database} {s : Schema} {name : String} {table : Table}

theorem table?_eq_some_iff : db.table? s = some (name, table) ↔
    Identifier.table? s.tableName = some name ∧ s.columns? = some table.columns ∧
      db.get? name = some table := by
  unfold Database.table?
  constructor
  · intro h
    simp only [bind, Option.bind_eq_some_iff] at h
    obtain ⟨n, hn, cs, hcs, t, ht, h⟩ := h
    split at h
    · rename_i hc
      cases h
      exact ⟨hn, hc ▸ hcs, ht⟩
    · cases h
  · rintro ⟨hn, hcs, ht⟩
    simp only [hn, hcs, ht, bind, Option.bind_some, if_true]

theorem table?_put (h : db.table? s = some (name, table)) (rows : List Row) :
    Database.table? (db.put name { table with rows := rows }) s =
      some (name, { table with rows := rows }) := by
  obtain ⟨hn, hcs, -⟩ := table?_eq_some_iff.1 h
  exact table?_eq_some_iff.2 ⟨hn, hcs, Registry.get?_put_self name _ db⟩

/-- A database whose statements work carries out the command on its rows. -/
theorem perform_of_understood {dialect : Dialect} (hd : dialect.isUnderstood = true)
    (hs : s.isFreeOfParams = true) (h : db.table? s = some (name, table)) (c : Call) :
    db.perform dialect s now clock c =
      match (dialect.commands.ofKind c.kind).perform (.ofTerms c.terms c.holder now clock)
        table.rows with
      | .ok (k, new) => (.ok (answerOfTouched k c.kind), db.put name { table with rows := new })
      | .error e => (answerOfFault c.kind e, db) := by
  have hrun : ∀ v cmd, db.run s v cmd = some ((cmd.perform v table.rows).map fun r =>
      (r.1, db.put name { table with rows := r.2 })) := by
    intro v cmd
    rw [Database.run, hs, if_pos rfl, h]
  rw [Database.perform]
  simp only [hd, if_true, hrun]
  cases (dialect.commands.ofKind c.kind).perform (.ofTerms c.terms c.holder now clock)
    table.rows with
  | ok r => rfl
  | error e => rfl

theorem perform_of_table? (hs : s.isFreeOfParams = true) (h : db.table? s = some (name, table))
    (c : Call) : db.perform .generic s now clock c =
      match (Commands.plain.ofKind c.kind).perform (.ofTerms c.terms c.holder now clock)
        table.rows with
      | .ok (k, new) => (.ok (answerOfTouched k c.kind), db.put name { table with rows := new })
      | .error e => (answerOfFault c.kind e, db) := perform_of_understood rfl hs h c

/-- A database whose statements do not work answers with an error and stays as it is. -/
theorem perform_of_unworkable (h : ¬(s.isFreeOfParams = true ∧ (db.table? s).isSome = true))
    (dialect : Dialect) (c : Call) :
    db.perform dialect s now clock c = (.error (.backend .statement), db) := by
  have hrun : ∀ v cmd, db.run s v cmd = none := by
    intro v cmd
    rw [Database.run]
    by_cases hs : s.isFreeOfParams = true
    · rw [if_pos hs, Option.not_isSome_iff_eq_none.1 fun ht => h ⟨hs, ht⟩]
    · rw [if_neg hs]
  rw [Database.perform]
  simp only [hrun, ite_self]

theorem perform_of_useless (h : ¬(s.isFreeOfParams = true ∧ (db.table? s).isSome = true))
    (c : Call) : db.perform .generic s now clock c = (.error (.backend .statement), db) :=
  perform_of_unworkable h .generic c

/-- Whatever is found in the table is the record in the store. -/
theorem Agree.find (h : Agree table.rows m) (ht : db.table? s = some (name, table)) (n : String) :
    db.find s n = .ok ((m.get? n).map (Scenario.foundRecord n)) := by
  have hrow := h.row n
  rw [rowOf] at hrow
  rw [Database.find, ht]
  simp only [hrow]
  cases hm : m.get? n with
  | none => rfl
  | some r =>
    simp only [Option.map_some, record_holding (h.storable hm)]
    rfl

/-- **One call** is answered alike, and keeps table and store in agreement. -/
theorem Agree.perform (h : Agree table.rows m) (hs : s.isFreeOfParams = true)
    (ht : db.table? s = some (name, table)) (x : Twin) :
    ∃ new, db.perform .generic s x.now x.clock x.call =
        (.ok (m.perform x.now.floorMillis x.cutCall).1, db.put name { table with rows := new }) ∧
      Agree new (m.perform x.now.floorMillis x.cutCall).2 := by
  have hsame : db.put name { table with rows := table.rows } = db :=
    Registry.put_of_get? (table?_eq_some_iff.1 ht).2.2
  obtain ⟨now, clock, kind, holder, t, u, hn, hu, hk, hb, hrb⟩ := x
  rw [perform_of_table? hs ht]
  cases kind with
  | insert =>
    have hb := hb (by decide)
    obtain ⟨new, hp, ha, hnew⟩ | ⟨hp, ha⟩ := h.insert holder now clock hn (hu (by decide)) hb.2
    · refine ⟨new, ?_, hnew⟩
      simp only [Twin.call, Twin.cutCall, Commands.ofKind, hp, Store.perform, ha]
      rfl
    · refine ⟨table.rows, ?_, ?_⟩
      · simp only [Twin.call, Twin.cutCall, Commands.ofKind, hp, Store.perform, ha, hsame]
        rfl
      · simp only [Twin.cutCall, Store.perform, ha]
        exact h
  | claim =>
    have hb := hb (by decide)
    obtain ⟨k, new, hp, ha, hnew⟩ := h.claim holder now clock hn (hu (by decide)) hb.2 hb.1
    refine ⟨new, ?_, hnew⟩
    simp only [Twin.call, Twin.cutCall, Commands.ofKind, hp, Store.perform, ha]
    rfl
  | release =>
    obtain ⟨k, new, hp, hnew⟩ := h.release holder now clock hn (hk rfl) (hrb rfl)
    refine ⟨new, ?_, hnew⟩
    simp only [Twin.call, Twin.cutCall, Commands.ofKind, hp, Store.perform]
  | extend =>
    have hb := hb (by decide)
    obtain ⟨k, new, hp, ha, hnew⟩ := h.extend holder now clock hn (hu (by decide)) hb.2 hb.1
    refine ⟨new, ?_, hnew⟩
    simp only [Twin.call, Twin.cutCall, Commands.ofKind, hp, Store.perform, ha]
    rfl

/-! ### Runs -/

theorem Agree.alike (h : Agree table.rows m) (hs : s.isFreeOfParams = true)
    (ht : db.table? s = some (name, table)) (xs : List Twin) : Alike s db m xs := by
  induction xs generalizing db table m with
  | nil => trivial
  | cons x xs ih =>
    obtain ⟨new, hp, hnew⟩ := h.perform hs ht x
    have ht' := table?_put ht new
    rw [Alike, hp]
    exact ⟨rfl, hnew.find ht', ih hnew ht'⟩

end Database

/-! ### Every call has a counterpart -/

/-- Terms that end in a four-digit year can be cut down to whole milliseconds. -/
theorem exists_cut (t : Terms) (h : t.atMostUntil.InYears) : ∃ u : Terms,
    u.name = t.name ∧ u.createdAt = t.createdAt.floorMillis ∧
      u.atMostUntil = t.atMostUntil.floorMillis ∧ u.atLeastUntil = t.atLeastUntil.floorMillis := by
  have hend : t.atMostUntil.dayNumber < 2932897 := by
    refine Int.not_le.1 fun hn => ?_
    have hy : (Date.ofDays 2932897).year ≤ t.atMostUntil.date.year := Date.year_mono hn
    exact absurd (Int.le_trans hy h.2) (by decide)
  have h1 := t.atMostUntil_eq
  have h2 := t.atLeastUntil_eq
  have h3 : 0 ≤ t.atLeastFor.nanos := t.atLeastFor_nonneg
  have h4 : t.atLeastFor.nanos ≤ t.atMostFor.nanos := t.atLeastFor_le
  have h5 := t.createdAt.lower
  have hlow : t.createdAt.floorMillis ≤ t.atLeastUntil.floorMillis :=
    Instant.floorMillis_mono (Instant.le_def.2 (by omega))
  have hhigh : t.atLeastUntil.floorMillis ≤ t.atMostUntil.floorMillis :=
    Instant.floorMillis_mono (Instant.le_def.2 (by omega))
  rw [Instant.le_def] at hlow hhigh
  have hfits : (t.atMostUntil.floorMillis.since t.createdAt.floorMillis).microsFit := by
    rw [Span.microsFit, Span.wholeMicros, Instant.nanos_since,
      Int.tdiv_eq_ediv_of_nonneg (by omega)]
    simp only [Instant.dayNumber, Instant.seconds, Instant.first, Instant.nanos_floorMillis,
      nanosPerSecond, nanosPerMilli] at *
    omega
  exact ⟨{ name := t.name
           createdAt := t.createdAt.floorMillis
           atMostFor := t.atMostUntil.floorMillis.since t.createdAt.floorMillis
           atLeastFor := t.atLeastUntil.floorMillis.since t.createdAt.floorMillis
           atMostUntil := t.atMostUntil.floorMillis
           atLeastUntil := t.atLeastUntil.floorMillis
           name_ne := t.name_ne
           atLeastFor_nonneg := Span.le_def.2 (Int.sub_nonneg.2 hlow)
           atLeastFor_le := Span.le_def.2 (Int.sub_le_sub_right hhigh _)
           atMostFor_fits := hfits
           atMostUntil_eq := by rw [Instant.nanos_since]; omega
           atLeastUntil_eq := by rw [Instant.nanos_since]; omega }, rfl, rfl, rfl, rfl⟩

/-- There are terms that are kept until an instant. -/
theorem exists_kept (t : Terms) (i : Instant) :
    ∃ u : Terms, u.name = t.name ∧ u.atLeastUntil = i := by
  exact ⟨{ name := t.name
           createdAt := i
           atMostFor := .zero
           atLeastFor := .zero
           atMostUntil := i
           atLeastUntil := i
           name_ne := t.name_ne
           atLeastFor_nonneg := by decide
           atLeastFor_le := by decide
           atMostFor_fits := by decide
           atMostUntil_eq := (Int.add_zero _).symm
           atLeastUntil_eq := (Int.add_zero _).symm }, rfl, rfl⟩

/-- Every call whose bound instants have four-digit years is one of a pair. -/
theorem Twin.exists_call (now clock : Instant) (c : Call)
    (hb : c.kind ≠ .release → now.InYears ∧ c.terms.atMostUntil.InYears)
    (hr : c.kind = .release → (c.terms.releaseAt now).InYears) :
    ∃ x : Twin, x.now = now ∧ x.clock = clock ∧ x.call = c := by
  obtain ⟨kind, holder, t⟩ := c
  by_cases hk : kind = .release
  · obtain ⟨u, hn, hu⟩ := exists_kept t t.atLeastUntil.floorMillis
    exact ⟨⟨now, clock, kind, holder, t, u, hn, fun h => (h hk).elim, fun _ => hu, hb, hr⟩,
      rfl, rfl, rfl⟩
  · obtain ⟨u, hn, -, hu, -⟩ := exists_cut t (hb hk).2
    exact ⟨⟨now, clock, kind, holder, t, u, hn, fun _ => hu, fun h => (hk h).elim, hb, hr⟩,
      rfl, rfl, rfl⟩

/-- **A lock table does what the store in memory does** exactly if the names of its schema have no
parameter's mention in them and are those of a table that is there. -/
theorem refines_iff (db : Database) (s : Schema)
    (hempty : ∀ name table, db.table? s = some (name, table) → table.rows = []) :
    Refines db s ↔ s.isFreeOfParams = true ∧ (db.table? s).isSome = true := by
  constructor
  · intro h
    -- Otherwise not even one insertion is answered.
    refine Decidable.byContradiction fun hn => ?_
    obtain ⟨x, hnow, hclock, hx⟩ := Twin.exists_call .epoch .epoch
      ⟨.insert, "a", .early "job" (by decide)⟩ (fun _ => by decide) (fun h => nomatch h)
    have hans := (h [x]).1
    rw [perform_of_useless hn] at hans
    cases hans
  · rintro ⟨hs, hsome⟩ xs
    obtain ⟨⟨name, table⟩, ht⟩ := Option.isSome_iff_exists.1 hsome
    have hagree : Agree table.rows [] := by
      rw [hempty name table ht]
      exact agree_nil
    exact hagree.alike hs ht xs

/-- A lock table of a name with the usual columns and no rows. -/
def emptyTable (name : String) : Database :=
  [(name, ⟨["name", "lock_until", "locked_at", "locked_by"], []⟩)]

theorem rows_emptyTable {name n : String} {s : Schema} {table : Table}
    (h : (emptyTable name).table? s = some (n, table)) : table.rows = [] := by
  have ht := (table?_eq_some_iff.1 h).2.2
  rw [emptyTable, Registry.get?] at ht
  split at ht
  · cases ht
    rfl
  · cases ht

theorem create_emptyTable {s : Schema} {name : String}
    (hname : Identifier.table? s.tableName = some name)
    (hcolumns : s.createdColumns? = some ["name", "lock_until", "locked_at", "locked_by"])
    (hown : isInternal name = false) : Database.create [] s = .ok (emptyTable name) := by
  simp only [Database.create, hname, hcolumns, hown]
  rw [if_neg (by simp [Registry.has]), if_neg (by decide)]
  rfl

/-- A schema with a parameter's mention in the name of the table. -/
def mentioning : Schema := { tableName := "\"locks:now\"" }

section Usual

open Identifier Text

theorem createdColumns?_usual (tableName : String) : Schema.createdColumns? { tableName } =
    some ["name", "lock_until", "locked_at", "locked_by"] := by
  simp only [Schema.createdColumns?, created?, take?, lower_ofList]
  rfl

theorem columns?_usual (tableName : String) : Schema.columns? { tableName } =
    some ["name", "lock_until", "locked_at", "locked_by"] := by
  simp only [Schema.columns?, Column.all, List.map_cons, List.map_nil, List.mapM_cons, List.mapM_nil,
    Schema.column, only?, take?, lower_ofList]
  rfl

/-- Both schemas have their tables created, but only that of the usual one is of use. -/
theorem refines_usual :
    (Database.create [] {} = .ok (emptyTable "shedlock") ∧ Refines (emptyTable "shedlock") {}) ∧
    (Database.create [] mentioning = .ok (emptyTable "locks:now") ∧
      ¬Refines (emptyTable "locks:now") mentioning) := by
  have hname : Identifier.table? (Schema.tableName {}) = some "shedlock" := by
    simp only [Identifier.table?, take?, lower_ofList]
    rfl
  have hname' : Identifier.table? mentioning.tableName = some "locks:now" := by
    simp only [Identifier.table?, take?, lower_ofList]
    rfl
  refine ⟨⟨create_emptyTable hname (createdColumns?_usual _) (by decide), ?_⟩,
    create_emptyTable hname' (createdColumns?_usual _) (by decide), fun h => ?_⟩
  · refine (refines_iff _ {} fun _ _ => rows_emptyTable).2 ⟨by decide, ?_⟩
    exact Option.isSome_of_eq_some
      (table?_eq_some_iff.2 ⟨hname, columns?_usual _, Registry.get?_put_self _ _ []⟩)
  · exact absurd ((refines_iff _ _ fun _ _ => rows_emptyTable).1 h).1 (by decide)

end Usual

end LeaseLock.Sql
