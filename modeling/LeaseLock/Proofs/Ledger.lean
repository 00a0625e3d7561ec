import LeaseLock.Proofs.Fleet
import LeaseLock.Proofs.TableRefinement

/-!
# Ledgers

What a storage service writes down of its locks, and what the calls do to that, whatever it is
written on.

## The model

A ledger has an entry for each name whose lock was ever taken: the end of the lease, since when the
lock is taken, and by whom. A `Rule` says how instants are written down and when the end of a lease
is over at a reading of the clock. The store in memory keeps instants as they are and compares them
(`Rule.memory`); a lock table keeps texts, and compares these (`Rule.table`).

A ledger service carries out calls on states of its own, answers as the calls on its ledger do, and
has the ledger after the call written down then. Both services are ledger services
(`LedgerService.memory`, `LedgerService.table`); so what is shown of ledgers holds of both.
-/

namespace LeaseLock

/-- What is written down of a lock. -/
structure Holding (ε : Type) where
  /-- The end of the lease. -/
  ends : ε
  /-- When the lock was taken. -/
  since : ε
  /-- For whom it was taken. -/
  holder : String

/-- How instants are written down, and when the end of a lease is over. -/
structure Rule (ε : Type) where
  note : Instant → ε
  isOver : ε → Instant → Bool

/-- The rule of the store in memory. -/
def Rule.memory : Rule Instant where
  note := id
  isOver e now := e ≤ now

/-- The rule of lock tables whose commands bind their instants. -/
def Rule.table : Rule String where
  note := Stamp.stored
  isOver e now := e ≤ Stamp.stored now

theorem Rule.isOver_table {e : String} {now : Instant} :
    Rule.table.isOver e now = decide (e ≤ Stamp.stored now) := by rw [Rule.table]

variable {σ ε : Type}

/-- What is written down when a lock is taken. -/
def Rule.taken (R : Rule ε) (t : Terms) (holder : String) (now : Instant) : Holding ε :=
  ⟨R.note t.atMostUntil, R.note now, holder⟩

/-- What is written down when a lease gets another end. -/
def Rule.ending (R : Rule ε) (u : Instant) (x : Holding ε) : Holding ε :=
  { x with ends := R.note u }

/-- What is written down of the locks of all names. -/
abbrev Ledger (ε : Type) := String → Option (Holding ε)

namespace Ledger

/-- The ledger with another entry for a name. -/
def write (L : Ledger ε) (n : String) (x : Holding ε) : Ledger ε :=
  fun j => if j = n then some x else L j

@[simp] theorem write_self (L : Ledger ε) (n : String) (x : Holding ε) : L.write n x n = some x :=
  if_pos rfl

@[simp] theorem write_of_ne {j n : String} (h : j ≠ n) (L : Ledger ε) (x : Holding ε) :
    L.write n x j = L j := if_neg h

/-- Creates the entry if there is none. -/
def insert (R : Rule ε) (L : Ledger ε) (holder : String) (now : Instant) (t : Terms) :
    Bool × Ledger ε :=
  match L t.name with
  | some _ => (false, L)
  | none => (true, L.write t.name (R.taken t holder now))

/-- Claims the entry if its lease is over. -/
def claim (R : Rule ε) (L : Ledger ε) (holder : String) (now : Instant) (t : Terms) :
    Bool × Ledger ε :=
  match L t.name with
  | some x => if R.isOver x.ends now then (true, L.write t.name (R.taken t holder now)) else (false, L)
  | none => (false, L)

/-- Moves the end of the lease to the time of its release. -/
def release (R : Rule ε) (L : Ledger ε) (now : Instant) (t : Terms) : Ledger ε :=
  match L t.name with
  | some x => L.write t.name (R.ending (t.releaseAt now) x)
  | none => L

/-- Moves the end of the lease if it is not over and the holder's. -/
def extend (R : Rule ε) (L : Ledger ε) (holder : String) (now : Instant) (t : Terms) :
    Extension × Ledger ε :=
  match L t.name with
  | some x =>
    if x.holder = holder ∧ R.isOver x.ends now = false then
      (.extended, L.write t.name (R.ending t.atMostUntil x))
    else (.lost, L)
  | none => (.lost, L)

/-- Carries out a call. -/
def perform (R : Rule ε) (L : Ledger ε) (now : Instant) : (c : Call) → c.kind.Result × Ledger ε
  | ⟨.insert, holder, t⟩ => L.insert R holder now t
  | ⟨.claim, holder, t⟩ => L.claim R holder now t
  | ⟨.release, _, t⟩ => ((), L.release R now t)
  | ⟨.extend, holder, t⟩ => L.extend R holder now t

/-- Calls on ledgers. -/
def serve (R : Rule ε) : Serve (Ledger ε) := .ofPerform (Ledger.perform R)

/-! ### One way at a time -/

section Ways

variable {R : Rule ε} {L : Ledger ε} {holder : String} {now : Instant} {t : Terms} {x : Holding ε}

theorem insert_of_none (h : L t.name = none) :
    L.insert R holder now t = (true, L.write t.name (R.taken t holder now)) := by
  simp only [insert, h]

theorem insert_of_some (h : L t.name = some x) : L.insert R holder now t = (false, L) := by
  simp only [insert, h]

theorem claim_of_over (h : L t.name = some x) (ho : R.isOver x.ends now = true) :
    L.claim R holder now t = (true, L.write t.name (R.taken t holder now)) := by
  simp only [claim, h, if_pos ho]

/-- A lease that is not over, or is not there, is not claimed. -/
theorem claim_of_running (h : ∀ x, L t.name = some x → R.isOver x.ends now = false) :
    L.claim R holder now t = (false, L) := by
  rw [claim]
  split
  · rw [h _ ‹_›]
    rfl
  · rfl

theorem release_of_none (h : L t.name = none) : L.release R now t = L := by
  simp only [release, h]

theorem release_of_some (h : L t.name = some x) :
    L.release R now t = L.write t.name (R.ending (t.releaseAt now) x) := by
  simp only [release, h]

theorem extend_of_own (h : L t.name = some x) (hb : x.holder = holder)
    (ho : R.isOver x.ends now = false) :
    L.extend R holder now t = (.extended, L.write t.name (R.ending t.atMostUntil x)) := by
  simp only [extend, h, if_pos (And.intro hb ho)]

/-- A lease that is over, somebody else's or not there is not extended. -/
theorem extend_of_lost
    (h : ∀ x, L t.name = some x → ¬(x.holder = holder ∧ R.isOver x.ends now = false)) :
    L.extend R holder now t = (.lost, L) := by
  rw [extend]
  split
  · rw [if_neg (h _ ‹_›)]
  · rfl

end Ways

end Ledger

/-- A service that has a ledger written down in its state. -/
structure LedgerService (σ ε : Type) where
  serve : Serve σ
  rule : Rule ε
  /-- What is written down. -/
  ledger : σ → Ledger ε
  /-- The service works. -/
  Works : σ → Prop
  /-- While it works, it does to its ledger what the rule says. -/
  keeps : ∀ {s : σ}, Works s → ∀ now c, ∃ s', serve s now c =
    (.ok ((ledger s).perform rule now c).1, s') ∧ Works s' ∧
      ledger s' = ((ledger s).perform rule now c).2

/-! ### The store in memory -/

namespace Store

/-- What is written down in a record. -/
def held (r : Record) : Holding Instant := ⟨r.lockUntil, r.lockedAt, r.lockedBy⟩

/-- The ledger of a store. -/
def ledger (s : Store) : Ledger Instant := fun n => (Registry.get? n s).map held

theorem ledger_of_get? {s : Store} {n : String} {r : Record} (h : s.get? n = some r) :
    s.ledger n = some (held r) := congrArg (Option.map held) h

/-- The ledger tells all of a record. -/
theorem get?_of_ledger {s : Store} {n : String} {r : Record} (h : s.ledger n = some (held r)) :
    s.get? n = some r := by
  obtain ⟨r', hr', hheld⟩ := Option.map_eq_some_iff.1 h
  cases r
  cases r'
  cases hheld
  exact hr'

theorem ledger_put (s : Store) (n : String) (r : Record) :
    ledger (s.put n r) = s.ledger.write n (held r) := by
  funext j
  show ((s.put n r).get? j).map held = _
  rw [Registry.get?_put, Ledger.write]
  split
  · rfl
  · rfl

/-- A call does to the ledger what the rule of the store says. -/
theorem ledger_perform (s : Store) (now : Instant) (c : Call) :
    s.ledger.perform .memory now c = ((s.perform now c).1, (s.perform now c).2.ledger) := by
  obtain ⟨kind, holder, t⟩ := c
  have hL : s.ledger t.name = (s.get? t.name).map held := rfl
  cases kind with
  | insert =>
    obtain ⟨h, hs⟩ | ⟨r, h, hs⟩ := s.insert_cases holder now t
    · rw [Ledger.perform, Ledger.insert_of_none (by rw [hL, h]; rfl), Store.perform, hs, ledger_put]
      rfl
    · rw [Ledger.perform, Ledger.insert_of_some (by rw [hL, h]; rfl), Store.perform, hs]
  | claim =>
    obtain ⟨r, h, hr, hs⟩ | ⟨h, hs⟩ := s.claim_cases holder now t
    · rw [Ledger.perform, Ledger.claim_of_over (by rw [hL, h]; rfl) (decide_eq_true hr),
        Store.perform, hs, ledger_put]
      rfl
    · rw [Ledger.perform, Ledger.claim_of_running, Store.perform, hs]
      intro x hx
      obtain ⟨r, hr, rfl⟩ := Option.map_eq_some_iff.1 (hL.symm.trans hx)
      exact decide_eq_false (Instant.not_le.2 (h r hr))
  | release =>
    cases h : s.get? t.name with
    | none => rw [Ledger.perform, Ledger.release_of_none (by rw [hL, h]; rfl), Store.perform,
        release_of_none h]
    | some r =>
      rw [Ledger.perform, Ledger.release_of_some (by rw [hL, h]; rfl), Store.perform,
        release_of_some h, ledger_put]
      rfl
  | extend =>
    obtain ⟨r, h, hb, hr, hs⟩ | ⟨h, hs⟩ := s.extend_cases holder now t
    · rw [Ledger.perform, Ledger.extend_of_own (by rw [hL, h]; rfl) hb
        (decide_eq_false (Instant.not_le.2 hr)), Store.perform, hs, ledger_put]
      rfl
    · rw [Ledger.perform, Ledger.extend_of_lost, Store.perform, hs]
      rintro x hx ⟨hb, ho⟩
      obtain ⟨r, hr, rfl⟩ := Option.map_eq_some_iff.1 (hL.symm.trans hx)
      exact of_decide_eq_false ho (h r hr hb)

end Store

/-- The store in memory. -/
def LedgerService.memory : LedgerService Store Instant where
  serve := Store.serve
  rule := .memory
  ledger := Store.ledger
  Works := fun _ => True
  keeps := by
    intro s _ now c
    rw [s.ledger_perform now c]
    exact ⟨_, rfl, trivial, rfl⟩

/-! ### Lock tables -/

namespace Sql

/-- Calls on a lock table in a dialect. The clock of the database shows what that of the application
does. -/
def serve (d : Dialect) (s : Schema) : Serve Database := fun db now c => db.perform d s now now c

/-- Where no statement works, every call fails. -/
theorem fails_of_unworkable {db : Database} {s : Schema}
    (h : ¬(s.isFreeOfParams = true ∧ (db.table? s).isSome = true)) (d : Dialect) :
    ∀ now c, ∃ e, Sql.serve d s db now c = (.error e, db) :=
  fun _ c => ⟨_, perform_of_unworkable h d c⟩

/-- What is written down in a row. -/
def Row.held (r : Row) : Holding String := ⟨r.lockUntil, r.lockedAt, r.lockedBy⟩

/-- The row of a lock, if the statements of the schema work. -/
def Database.row? (db : Database) (s : Schema) (n : String) : Option Row :=
  if s.isFreeOfParams then (db.table? s).bind fun t => rowOf n t.2.rows else none

/-- No two rows of the table have the same name. -/
def Database.Keyed (db : Database) (s : Schema) : Prop :=
  ∀ name table, db.table? s = some (name, table) → (table.rows.map Row.name).Nodup

/-- The rows are those of a ledger. -/
structure Listed (rows : List Row) (L : Ledger String) : Prop where
  unique : (rows.map Row.name).Nodup
  entry : ∀ n, L n = (rowOf n rows).map Row.held

variable {rows : List Row} {L : Ledger String} {n : String} {p : Row → Bool} {g : Row → Row}
  {r : Row}

theorem name_of_rowOf (h : rowOf n rows = some r) : r.name = n := by
  have := List.find?_some h
  exact of_decide_eq_true this

theorem Listed.entry_of_row (h : Listed rows L) (hr : rowOf n rows = some r) : L n = some r.held := by
  rw [h.entry, hr]
  rfl

/-- A row is added. -/
theorem Listed.append (h : Listed rows L) (hr : rowOf r.name rows = none) :
    Listed (rows ++ [r]) (L.write r.name r.held) where
  unique := by
    have hnew : r.name ∉ rows.map Row.name := name_ne_of_rowOf hr
    rw [List.map_append, List.nodup_append]
    refine ⟨h.unique, by simp, fun a ha b hb hab => ?_⟩
    cases List.mem_singleton.1 hb
    exact hnew (hab ▸ ha)
  entry := by
    intro j
    rw [rowOf_append, Ledger.write]
    by_cases hj : j = r.name
    · subst hj
      rw [hr, if_pos rfl, if_pos rfl]
      rfl
    · rw [if_neg hj, if_neg fun e => hj e.symm, Option.or_none, h.entry]

/-- The row of a name is changed. -/
theorem Listed.change (h : Listed rows L) (hp : ∀ r, p r = true → r.name = n)
    (hg : ∀ r, (g r).name = r.name) (hr : rowOf n rows = some r) (hpr : p r = true) :
    (alter p g rows).1 = 1 ∧ Listed (alter p g rows).2 (L.write n (g r).held) := by
  refine ⟨?_, ?_, fun j => ?_⟩
  · rw [count_alter h.unique hp, hr, Option.any_some, if_pos hpr]
  · rw [names_alter hg]
    exact h.unique
  · rw [rowOf_alter hg, Ledger.write]
    by_cases hj : j = n
    · subst hj
      rw [hr, if_pos rfl, Option.map_some, if_pos hpr, Option.map_some]
    · rw [if_neg hj, h.entry, Option.map_map]
      cases hx : rowOf j rows with
      | none => rfl
      | some x =>
        have hpx : p x = false :=
          Bool.eq_false_iff.2 fun e => hj ((name_of_rowOf hx).symm.trans (hp x e))
        rw [Option.map_some, Option.map_some, Function.comp_apply, hpx]
        rfl

/-- No row is changed. -/
theorem Listed.leave (h : Listed rows L) (hp : ∀ r, p r = true → r.name = n)
    (hg : ∀ r, (g r).name = r.name) (hr : ∀ r, rowOf n rows = some r → p r = false) :
    (alter p g rows).1 = 0 ∧ Listed (alter p g rows).2 L := by
  have hpx : ∀ j x, rowOf j rows = some x → p x = false := by
    intro j x hx
    refine Bool.eq_false_iff.2 fun e => ?_
    have hj : j = n := (name_of_rowOf hx).symm.trans (hp x e)
    rw [hr x (hj ▸ hx)] at e
    cases e
  refine ⟨?_, ?_, fun j => ?_⟩
  · rw [count_alter h.unique hp]
    cases hx : rowOf n rows with
    | none => rfl
    | some x => rw [Option.any_some, hr x hx]; rfl
  · rw [names_alter hg]
    exact h.unique
  · rw [rowOf_alter hg, h.entry, Option.map_map]
    cases hx : rowOf j rows with
    | none => rfl
    | some x => rw [Option.map_some, Option.map_some, Function.comp_apply, hpx j x hx]; rfl

/-! #### The four commands -/

section Commands

variable {s : Schema} {db : Database} {t : Terms} {holder : String} {now clock : Instant}

/-- Creating a row: it is added, or refused as there is one of its name. -/
theorem Listed.insert (h : Listed rows L) (holder : String) (now clock : Instant) (t : Terms) :
    (∃ new, Commands.plain.insert.perform (.ofTerms t holder now clock) rows = .ok (1, new) ∧
      (L.insert .table holder now t).1 = true ∧ Listed new (L.insert .table holder now t).2) ∨
    (Commands.plain.insert.perform (.ofTerms t holder now clock) rows = .error .notUnique ∧
      L.insert .table holder now t = (false, L)) := by
  rw [perform_insert]
  cases hr : rowOf t.name rows with
  | none =>
    rw [Ledger.insert_of_none (by rw [h.entry, hr]; rfl)]
    exact .inl ⟨_, rfl, rfl, h.append (r := takenRow t holder now) hr⟩
  | some r => exact .inr ⟨rfl, Ledger.insert_of_some (h.entry_of_row hr)⟩

/-- Claiming a row changes it if its lease is over. -/
theorem Listed.claim (h : Listed rows L) (holder : String) (now clock : Instant) (t : Terms) :
    ∃ k new, Commands.plain.claim.perform (.ofTerms t holder now clock) rows = .ok (k, new) ∧
      (L.claim .table holder now t).1 = decide (0 < k) ∧
      Listed new (L.claim .table holder now t).2 := by
  have hp : ∀ r, mayClaim t now r = true → r.name = t.name := fun r hr => (of_decide_eq_true hr).1
  refine ⟨(alter (mayClaim t now) (claimed t holder now) rows).1,
    (alter (mayClaim t now) (claimed t holder now) rows).2, perform_claim, ?_⟩
  by_cases ho : ∃ r, rowOf t.name rows = some r ∧ r.lockUntil ≤ Stamp.stored now
  · obtain ⟨r, hr, ho⟩ := ho
    have hpr : mayClaim t now r = true := decide_eq_true ⟨name_of_rowOf hr, ho⟩
    obtain ⟨hk, hnew⟩ := h.change (g := claimed t holder now) hp name_claimed hr hpr
    have hover : Rule.table.isOver r.held.ends now = true := by
      rw [Rule.isOver_table]
      exact decide_eq_true ho
    rw [hk, Ledger.claim_of_over (R := .table) (h.entry_of_row hr) hover]
    exact ⟨rfl, hnew⟩
  · have hpr : ∀ r, rowOf t.name rows = some r → mayClaim t now r = false :=
      fun r hr => decide_eq_false fun e => ho ⟨r, hr, e.2⟩
    obtain ⟨hk, hnew⟩ := h.leave (g := claimed t holder now) hp name_claimed hpr
    rw [hk, Ledger.claim_of_running]
    · exact ⟨rfl, hnew⟩
    · intro x hx
      obtain ⟨r, hr, rfl⟩ := Option.map_eq_some_iff.1 ((h.entry _).symm.trans hx)
      rw [Rule.isOver_table]
      exact decide_eq_false fun e => ho ⟨r, hr, e⟩

/-- Giving a lease back changes the row of its name. -/
theorem Listed.release (h : Listed rows L) (holder : String) (now clock : Instant) (t : Terms) :
    ∃ k new, Commands.plain.release.perform (.ofTerms t holder now clock) rows = .ok (k, new) ∧
      Listed new (L.release .table now t) := by
  have hp : ∀ r, isOf t r = true → r.name = t.name := fun r hr => of_decide_eq_true hr
  refine ⟨(alter (isOf t) (ending (t.releaseAt now)) rows).1,
    (alter (isOf t) (ending (t.releaseAt now)) rows).2, perform_release, ?_⟩
  cases hr : rowOf t.name rows with
  | none =>
    rw [Ledger.release_of_none (by rw [h.entry, hr]; rfl)]
    exact (h.leave hp (name_ending _) fun r e => by rw [hr] at e; cases e).2
  | some r =>
    rw [Ledger.release_of_some (h.entry_of_row hr)]
    exact (h.change hp (name_ending _) hr (decide_eq_true (name_of_rowOf hr))).2

/-- Extending a lease changes its row if it is the holder's and not over. -/
theorem Listed.extend (h : Listed rows L) (holder : String) (now clock : Instant) (t : Terms) :
    ∃ k new, Commands.plain.extend.perform (.ofTerms t holder now clock) rows = .ok (k, new) ∧
      (L.extend .table holder now t).1 = (if 0 < k then .extended else .lost) ∧
      Listed new (L.extend .table holder now t).2 := by
  have hp : ∀ r, mayExtend t holder now r = true → r.name = t.name :=
    fun r hr => (of_decide_eq_true hr).1
  refine ⟨(alter (mayExtend t holder now) (ending t.atMostUntil) rows).1,
    (alter (mayExtend t holder now) (ending t.atMostUntil) rows).2, perform_extend, ?_⟩
  by_cases ho : ∃ r, rowOf t.name rows = some r ∧ r.lockedBy = holder ∧
      Stamp.stored now < r.lockUntil
  · obtain ⟨r, hr, hb, ho⟩ := ho
    have hpr : mayExtend t holder now r = true := decide_eq_true ⟨name_of_rowOf hr, hb, ho⟩
    obtain ⟨hk, hnew⟩ := h.change hp (name_ending t.atMostUntil) hr hpr
    have hover : Rule.table.isOver r.held.ends now = false := by
      rw [Rule.isOver_table]
      exact decide_eq_false (String.not_le.2 ho)
    rw [hk, Ledger.extend_of_own (R := .table) (h.entry_of_row hr) hb hover]
    exact ⟨rfl, hnew⟩
  · have hpr : ∀ r, rowOf t.name rows = some r → mayExtend t holder now r = false :=
      fun r hr => decide_eq_false fun e => ho ⟨r, hr, e.2⟩
    obtain ⟨hk, hnew⟩ := h.leave hp (name_ending t.atMostUntil) hpr
    rw [hk, Ledger.extend_of_lost]
    · exact ⟨rfl, hnew⟩
    · rintro x hx ⟨hb, e⟩
      obtain ⟨r, hr, rfl⟩ := Option.map_eq_some_iff.1 ((h.entry _).symm.trans hx)
      rw [Rule.isOver_table] at e
      exact ho ⟨r, hr, hb, String.not_le.1 (of_decide_eq_false e)⟩

/-- The statements of the schema work, and the rows of its table are those of a ledger. -/
structure Tabled (s : Schema) (db : Database) (L : Ledger String) : Prop where
  free : s.isFreeOfParams = true
  rows : ∃ name table, db.table? s = some (name, table) ∧ Listed table.rows L

/-- What the rows hold is what is written down in the ledger. -/
theorem Tabled.row? (h : Tabled s db L) (n : String) : (db.row? s n).map Row.held = L n := by
  obtain ⟨hfree, name, table, ht, hrows⟩ := h
  rw [Database.row?, if_pos hfree, ht, hrows.entry]
  rfl

/-- **One call** is answered as the one on the ledger. -/
theorem Tabled.serve (h : Tabled s db L) (now : Instant) (c : Call) :
    ∃ db', Sql.serve .generic s db now c = (.ok (L.perform .table now c).1, db') ∧
      Tabled s db' (L.perform .table now c).2 := by
  obtain ⟨hfree, name, table, ht, hrows⟩ := h
  obtain ⟨kind, holder, t⟩ := c
  have hafter : ∀ new L', Listed new L' →
      Tabled s (db.put name { table with rows := new }) L' :=
    fun new L' h => ⟨hfree, name, _, table?_put ht new, h⟩
  rw [Sql.serve, perform_of_table? hfree ht]
  cases kind with
  | insert =>
    obtain ⟨new, hp, ha, hnew⟩ | ⟨hp, ha⟩ := hrows.insert holder now now t
    · simp only [Commands.ofKind, hp, Ledger.perform, ha]
      exact ⟨_, rfl, hafter new _ hnew⟩
    · simp only [Commands.ofKind, hp, Ledger.perform, ha]
      exact ⟨db, rfl, hfree, name, table, ht, hrows⟩
  | claim =>
    obtain ⟨k, new, hp, ha, hnew⟩ := hrows.claim holder now now t
    simp only [Commands.ofKind, hp, Ledger.perform, ha]
    exact ⟨_, rfl, hafter new _ hnew⟩
  | release =>
    obtain ⟨k, new, hp, hnew⟩ := hrows.release holder now now t
    simp only [Commands.ofKind, hp, Ledger.perform]
    exact ⟨_, rfl, hafter new _ hnew⟩
  | extend =>
    obtain ⟨k, new, hp, ha, hnew⟩ := hrows.extend holder now now t
    simp only [Commands.ofKind, hp, Ledger.perform, ha]
    exact ⟨_, rfl, hafter new _ hnew⟩

/-- The rows of a table that is there are those of a ledger, if they have different names. -/
theorem Database.Keyed.tabled (hk : db.Keyed s) (hs : s.isFreeOfParams = true)
    (ht : (db.table? s).isSome = true) : Tabled s db fun n => (db.row? s n).map Row.held := by
  obtain ⟨⟨name, table⟩, ht⟩ := Option.isSome_iff_exists.1 ht
  refine ⟨hs, name, table, ht, hk name table ht, fun n => ?_⟩
  rw [Database.row?, if_pos hs, ht]
  rfl

end Commands

/-! #### Empty tables -/

theorem keyed_emptyTable (name : String) (s : Schema) : (emptyTable name).Keyed s := by
  intro n table ht
  rw [rows_emptyTable ht]
  exact List.nodup_nil

section Usual

open Identifier Text

theorem table?_emptyTable : ((emptyTable "shedlock").table? {}).isSome = true := by
  have hname : Identifier.table? (Schema.tableName {}) = some "shedlock" := by
    simp only [Identifier.table?, take?, lower_ofList]
    rfl
  exact Option.isSome_of_eq_some
    (table?_eq_some_iff.2 ⟨hname, columns?_usual _, Registry.get?_put_self _ _ []⟩)

end Usual

theorem row?_emptyTable (name : String) (s : Schema) (n : String) :
    (emptyTable name).row? s n = none := by
  rw [Database.row?]
  split
  · cases ht : (emptyTable name).table? s with
    | none => rfl
    | some t =>
      obtain ⟨n', table⟩ := t
      rw [Option.bind_some, rows_emptyTable ht]
      rfl
  · rfl

end Sql

/-- A lock table in a database. -/
def LedgerService.table (s : Sql.Schema) : LedgerService Sql.Database String where
  serve := Sql.serve .generic s
  rule := .table
  ledger := fun db n => (db.row? s n).map Sql.Row.held
  Works := fun db => Sql.Tabled s db fun n => (db.row? s n).map Sql.Row.held
  keeps := by
    intro db h now c
    obtain ⟨db', hserve, h'⟩ := h.serve now c
    have hledger : (fun n => (db'.row? s n).map Sql.Row.held) = _ := funext h'.row?
    exact ⟨db', hserve, hledger.symm ▸ h', hledger⟩

/-- The usual table works. -/
theorem LedgerService.works_emptyTable : (LedgerService.table {}).Works (Sql.emptyTable "shedlock") :=
  (Sql.keyed_emptyTable _ _).tabled (by decide) Sql.table?_emptyTable

end LeaseLock
