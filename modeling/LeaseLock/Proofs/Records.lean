import LeaseLock.Proofs.Ledger
import LeaseLock.Scenario.Backend
import Mathlib.Data.List.Forall2

/-!
# Records under names

What an extension does to all that is stored.

## The model

`Backend.records` is what is stored of a lock, as a node sees it. Records are kept in memory, in stores
that nodes share or have for themselves, or in tables: in one or in several databases, through schemas
and in dialects that may differ from node to node, with deadlines by either clock. No table needs to be
in order; so a node may see several records under one name. Where answers are played back, nothing is
stored.

## What is proved

Whoever extends a lease, no node sees any change in the records of other names
(`Backend.records_extend_of_ne`). If the call answers that the lease was extended, then a record of its
name and holder has got another end, and is the same otherwise (`Backend.exists_extended`).
-/

namespace LeaseLock

deriving instance DecidableEq for Holding

/-- A map that succeeds does so at each place. -/
theorem forall₂_of_mapM {ε α β : Type} {f : α → Except ε β} {l : List α} {l' : List β}
    (h : l.mapM f = .ok l') : List.Forall₂ (fun a b => f a = .ok b) l l' := by
  induction l generalizing l' with
  | nil =>
    cases h
    exact .nil
  | cons a l ih =>
    rw [List.mapM_cons] at h
    cases ha : f a with
    | error e =>
      rw [ha] at h
      cases h
    | ok b =>
      cases hl : l.mapM f with
      | error e =>
        rw [ha, hl] at h
        cases h
      | ok bs =>
        rw [ha, hl] at h
        cases h
        exact .cons ha (ih hl)

namespace Sql

/-! ### Rows -/

/-- What an extension makes of a row, and whether it touches it. -/
inductive Row.Prolonged (t : Terms) (holder : String) (r : Row) : Bool × Row → Prop where
  | kept : Prolonged t holder r (false, r)
  | changed (hn : r.name = t.name) (hb : r.lockedBy = holder) (u : String) :
      Prolonged t holder r (true, { r with lockUntil := u })

variable {t : Terms} {holder n : String} {now clock : Instant} {rows : List Row}
  {touched : List (Bool × Row)}

/-- In all dialects, a lease is extended by a command that sets the end where the name and the holder
are those of the call. -/
theorem exists_extend_eq (d : Dialect) : ∃ u still, d.commands.extend = .update [(.lockUntil, u)]
    [.equal .name (.bound .name), .equal .lockedBy (.bound .lockedBy), still] := by
  cases d <;> exact ⟨_, _, rfl⟩

theorem prolonged_updateRow {u : Quantity} {still : Condition} {r : Row} {x : Bool × Row}
    (h : Command.updateRow (.ofTerms t holder now clock) [(.lockUntil, u)]
      [.equal .name (.bound .name), .equal .lockedBy (.bound .lockedBy), still] r = .ok x) :
    r.Prolonged t holder x := by
  rw [Command.updateRow] at h
  split at h
  · rename_i hc
    simp only [List.all_cons, Bool.and_eq_true, Condition.holds, Quantity.value?, Option.any_some,
      decide_eq_true_eq] at hc
    split at h
    · rename_i new hnew
      cases h
      simp only [Row.assign, List.foldlM_cons, List.foldlM_nil, Option.pure_def, Option.bind_eq_bind,
        Option.bind_fun_some, Option.map_eq_some_iff] at hnew
      obtain ⟨text, -, rfl⟩ := hnew
      exact .changed hc.1 hc.2.1 text
    · cases h
  · cases h
    exact .kept

/-- An extension that does not fail goes through the rows one by one. -/
theorem exists_touched {d : Dialect} {k : Nat} {new : List Row}
    (h : d.commands.extend.perform (.ofTerms t holder now clock) rows = .ok (k, new)) :
    ∃ touched, List.Forall₂ (Row.Prolonged t holder) rows touched ∧
      k = (touched.filter Prod.fst).length ∧ new = touched.map Prod.snd := by
  obtain ⟨u, still, hd⟩ := exists_extend_eq d
  rw [hd, Command.perform] at h
  cases hm : rows.mapM (Command.updateRow (.ofTerms t holder now clock) [(.lockUntil, u)]
      [.equal .name (.bound .name), .equal .lockedBy (.bound .lockedBy), still]) with
  | error e =>
    rw [hm] at h
    cases h
  | ok touched =>
    rw [hm] at h
    cases h
    exact ⟨touched, (forall₂_of_mapM hm).imp fun _ _ => prolonged_updateRow, rfl, rfl⟩

/-- The rows of other names stay as they are, in their order. -/
theorem filter_prolonged (h : List.Forall₂ (Row.Prolonged t holder) rows touched)
    (hn : n ≠ t.name) :
    (touched.map Prod.snd).filter (·.name = n) = rows.filter (·.name = n) := by
  induction h with
  | nil => rfl
  | cons hr _ ih =>
    rw [List.map_cons, List.filter_cons, List.filter_cons, ih]
    cases hr with
    | kept => rfl
    | changed hr hb u => rw [decide_eq_false fun h => hn (h.symm.trans hr)]; rfl

/-- If a row was touched, then it is one of the name and the holder. -/
theorem exists_changed (h : List.Forall₂ (Row.Prolonged t holder) rows touched)
    (hk : 0 < (touched.filter Prod.fst).length) : ∃ r ∈ rows, r.name = t.name ∧
      r.lockedBy = holder ∧ ∃ u, { r with lockUntil := u } ∈ touched.map Prod.snd := by
  induction h with
  | nil => exact absurd hk (Nat.lt_irrefl 0)
  | cons hr _ ih =>
    cases hr with
    | kept =>
      obtain ⟨r, hr, hn, hb, u, hu⟩ := ih hk
      exact ⟨r, List.mem_cons_of_mem _ hr, hn, hb, u, List.mem_cons_of_mem _ hu⟩
    | changed hn hb u => exact ⟨_, List.mem_cons_self, hn, hb, u, List.mem_cons_self⟩

/-! ### Tables -/

/-- The rows of a lock in the table of a schema. -/
def Database.rowsOf (db : Database) (s : Schema) (n : String) : List Row :=
  match db.table? s with
  | some (_, table) => table.rows.filter (·.name = n)
  | none => []

variable {db : Database} {name : String} {table : Table} {s : Schema}

theorem rowsOf_eq (h : db.table? s = some (name, table)) (n : String) :
    db.rowsOf s n = table.rows.filter (·.name = n) := by rw [Database.rowsOf, h]

/-- A table with other rows, but the same of a name, shows the same of it through any schema. -/
theorem rowsOf_put (h : db.get? name = some table) {new : List Row}
    (hf : new.filter (·.name = n) = table.rows.filter (·.name = n)) (s : Schema) :
    Database.rowsOf (db.put name { table with rows := new }) s n = db.rowsOf s n := by
  unfold Database.rowsOf Database.table?
  cases Identifier.table? s.tableName with
  | none => rfl
  | some m =>
    cases s.columns? with
    | none => rfl
    | some columns =>
      simp only [Option.bind_eq_bind, Option.bind_some, Registry.get?_put]
      by_cases hm : m = name
      · subst hm
        rw [if_pos rfl, h]
        simp only [Option.bind_some]
        by_cases hc : table.columns = columns
        · simp only [if_pos hc, hf]
        · simp only [if_neg hc]
      · rw [if_neg hm]

/-- **An extension in a database** fails or loses and changes nothing, or it goes through the rows of
one table. -/
theorem perform_extend_cases (db : Database) (d : Dialect) (s : Schema) (holder : String)
    (now clock : Instant) (t : Terms) :
    let r := db.perform d s now clock ⟨.extend, holder, t⟩
    (r.2 = db ∧ r.1 ≠ .ok .extended) ∨
      ∃ name table touched, db.table? s = some (name, table) ∧
        List.Forall₂ (Row.Prolonged t holder) table.rows touched ∧
        r.2 = db.put name { table with rows := touched.map Prod.snd } ∧
        (r.1 = .ok .extended → 0 < (touched.filter Prod.fst).length) := by
  intro r
  by_cases hd : d.isUnderstood = true
  · by_cases hs : s.isFreeOfParams = true ∧ (db.table? s).isSome = true
    · obtain ⟨⟨name, table⟩, ht⟩ := Option.isSome_iff_exists.1 hs.2
      have hr : r = _ := perform_of_understood hd hs.1 ht ⟨.extend, holder, t⟩
      cases hp : d.commands.extend.perform (.ofTerms t holder now clock) table.rows with
      | error f =>
        rw [show d.commands.ofKind CallKind.extend = d.commands.extend from rfl, hp] at hr
        rw [hr]
        exact .inl ⟨rfl, fun h => nomatch h⟩
      | ok x =>
        obtain ⟨k, new⟩ := x
        rw [show d.commands.ofKind CallKind.extend = d.commands.extend from rfl, hp] at hr
        obtain ⟨touched, htouched, rfl, rfl⟩ := exists_touched hp
        rw [hr]
        refine .inr ⟨name, table, touched, ht, htouched, rfl, fun h => ?_⟩
        simp only [answerOfTouched, Except.ok.injEq] at h
        split at h
        · assumption
        · cases h
    · have hr : r = _ := perform_of_unworkable hs d ⟨.extend, holder, t⟩
      rw [hr]
      exact .inl ⟨rfl, fun h => nomatch h⟩
  · have hr : r = (.error (.backend .statement), db) := by
      show db.perform d s now clock ⟨.extend, holder, t⟩ = _
      rw [Database.perform]
      simp only [if_neg hd]
    rw [hr]
    exact .inl ⟨rfl, fun h => nomatch h⟩

theorem rowsOf_extend_of_ne (hn : n ≠ t.name) (d : Dialect) (s s' : Schema) :
    (db.perform d s now clock ⟨.extend, holder, t⟩).2.rowsOf s' n = db.rowsOf s' n := by
  obtain ⟨hdb, -⟩ | ⟨name, table, touched, ht, htouched, hdb, -⟩ :=
    perform_extend_cases db d s holder now clock t
  · rw [hdb]
  · rw [hdb]
    exact rowsOf_put (table?_eq_some_iff.1 ht).2.2 (filter_prolonged htouched hn) s'

theorem exists_rowsOf_extended {d : Dialect}
    (h : (db.perform d s now clock ⟨.extend, holder, t⟩).1 = .ok .extended) :
    ∃ r ∈ db.rowsOf s t.name, r.lockedBy = holder ∧ ∃ u, { r with lockUntil := u } ∈
      (db.perform d s now clock ⟨.extend, holder, t⟩).2.rowsOf s t.name := by
  obtain ⟨-, hne⟩ | ⟨name, table, touched, ht, htouched, hdb, hk⟩ :=
    perform_extend_cases db d s holder now clock t
  · exact absurd h hne
  · obtain ⟨r, hr, hn, hb, u, hu⟩ := exists_changed htouched (hk h)
    rw [hdb, rowsOf_eq ht, rowsOf_eq (table?_put ht _)]
    exact ⟨r, List.mem_filter.2 ⟨hr, decide_eq_true hn⟩, hb, u,
      List.mem_filter.2 ⟨hu, decide_eq_true hn⟩⟩

theorem database_update (d : Disk) (p q : Pool) (db : Database) :
    (d.update p db).database q = if q.location = p.location then db else d.database q := by
  rw [Disk.database, Disk.update, Registry.get?_put]
  split
  · rfl
  · rfl

end Sql

/-! ### Backends -/

namespace Scenario

theorem storeFor_put (stores : Registry String Store) (k j : String) (s : Store) :
    Backend.storeFor (stores.put k s) j = if j = k then s else Backend.storeFor stores j := by
  rw [Backend.storeFor, Registry.get?_put]
  split
  · rfl
  · rfl

namespace Backend

/-- What is stored of a lock, as a node sees it: instants in memory, and texts in tables. -/
def records (node n : String) : Backend → List (Holding (Instant ⊕ String))
  | memory stores storeOf => ((storeFor stores (storeOf node)).get? n).toList.map fun r =>
    ⟨.inl r.lockUntil, .inl r.lockedAt, r.lockedBy⟩
  | tables disk services _ => match services.get? node with
    | some s => ((disk.database s.pool).rowsOf s.schema n).map fun r =>
      ⟨.inr r.lockUntil, .inr r.lockedAt, r.lockedBy⟩
    | none => []
  | _ => []

/-- The records are stored, not just the answers to play back. -/
def isStore : Backend → Bool
  | memory _ _ | tables _ _ _ => true
  | playback _ | replies _ _ => false

variable {b : Backend} {holder n : String} {t : Terms} {now : Instant}

/-- **Records of other names** are left alone by an extension. -/
theorem records_extend_of_ne (b : Backend) (now : Instant) (hn : n ≠ t.name) (node : String) :
    (b.answer ⟨.extend, holder, t⟩ now).2.records node n = b.records node n := by
  cases b with
  | memory stores storeOf =>
    simp only [answer, records, storeFor_put]
    split
    · rename_i hnode
      rw [Store.get?_perform_of_ne hn, hnode]
    · rfl
  | tables disk services clock =>
    simp only [answer]
    cases services.get? holder with
    | none => rfl
    | some s =>
      simp only [records, Sql.Storage.perform]
      cases services.get? node with
      | none => rfl
      | some s' =>
        simp only [Sql.database_update]
        split
        · rename_i hp
          rw [Sql.rowsOf_extend_of_ne hn, Sql.Disk.database, Sql.Disk.database, hp]
        · rfl
  | playback p => rfl
  | replies environment rs => rfl

/-- **A record of the name and the holder** has got another end if the lease was extended. -/
theorem exists_extended (hb : b.isStore = true)
    (h : (b.answer ⟨.extend, holder, t⟩ now).1.answer = .ok .extended) :
    ∃ x ∈ b.records holder t.name, x.holder = holder ∧ ∃ e, { x with ends := e } ∈
      (b.answer ⟨.extend, holder, t⟩ now).2.records holder t.name := by
  cases b with
  | memory stores storeOf =>
    obtain ⟨r, hr, hholder, -, hs⟩ | ⟨-, hs⟩ :=
      (storeFor stores (storeOf holder)).extend_cases holder now t
    · refine ⟨⟨.inl r.lockUntil, .inl r.lockedAt, r.lockedBy⟩, ?_, hholder, .inl t.atMostUntil, ?_⟩
      · rw [records, hr]
        exact List.mem_singleton_self _
      · simp only [answer, records, storeFor_put, if_pos, Store.perform, hs, Registry.get?_put_self]
        exact List.mem_singleton_self _
    · simp only [answer, Store.perform, hs] at h
      cases h
  | tables disk services clock =>
    simp only [answer] at h ⊢
    cases hs : services.get? holder with
    | none =>
      rw [hs] at h
      cases h
    | some s =>
      rw [hs] at h
      simp only [records, hs, Sql.Storage.perform, Sql.database_update, if_pos]
      obtain ⟨r, hr, hholder, u, hu⟩ := Sql.exists_rowsOf_extended h
      exact ⟨_, List.mem_map_of_mem hr, hholder, .inr u, List.mem_map_of_mem hu⟩
  | playback p => cases hb
  | replies environment rs => cases hb

end Backend
end Scenario
end LeaseLock
