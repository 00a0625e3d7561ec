import LeaseLock.Proofs.Stamps
import LeaseLock.Sql.Database

/-!
# What the plain commands do to rows

The plain commands bind all their values. So none of them is without a value, and each comes down to
appending a row or to changing the rows that meet a condition (`alter`). As names are unique and
every condition asks for a name, at most one row is changed.
-/

namespace LeaseLock.Sql

variable {rows : List Row} {p : Row → Bool} {g : Row → Row} {n : String}

/-- Changes the rows that meet a condition, and counts them. -/
def alter (p : Row → Bool) (g : Row → Row) (rows : List Row) : Nat × List Row :=
  ((rows.filter p).length, rows.map fun r => if p r then g r else r)

/-- The row of a name. -/
def rowOf (n : String) (rows : List Row) : Option Row := rows.find? (·.name = n)

theorem rowOf_cons (r : Row) :
    rowOf n (r :: rows) = if r.name = n then some r else rowOf n rows := by
  rw [rowOf, List.find?_cons]
  by_cases h : r.name = n
  · rw [decide_eq_true h, if_pos h]
  · rw [decide_eq_false h, if_neg h]
    rfl

theorem rowOf_append (r : Row) :
    rowOf n (rows ++ [r]) = (rowOf n rows).or (if r.name = n then some r else none) := by
  induction rows with
  | nil => rw [List.nil_append, rowOf_cons]; rfl
  | cons x rows ih =>
    rw [List.cons_append, rowOf_cons, rowOf_cons, ih]
    split
    · rfl
    · rfl

theorem any_name_eq : rows.any (·.name = n) = (rowOf n rows).isSome := by
  induction rows with
  | nil => rfl
  | cons r rows ih =>
    rw [List.any_cons, rowOf_cons, ih]
    by_cases h : r.name = n
    · rw [decide_eq_true h, if_pos h]; rfl
    · rw [decide_eq_false h, if_neg h]; rfl

/-- If all names are different, a row is the one of its name. -/
theorem rowOf_of_mem (hu : (rows.map Row.name).Nodup) {r : Row} (hr : r ∈ rows) :
    rowOf r.name rows = some r := by
  induction rows with
  | nil => cases hr
  | cons x rows ih =>
    rw [List.map_cons, List.nodup_cons] at hu
    rw [rowOf_cons]
    obtain rfl | hr := List.mem_cons.1 hr
    · rw [if_pos rfl]
    · rw [if_neg fun e => hu.1 (List.mem_map.2 ⟨r, hr, e.symm⟩)]
      exact ih hu.2 hr

theorem name_ne_of_rowOf (h : rowOf n rows = none) : n ∉ rows.map Row.name := by
  intro hn
  obtain ⟨r, hr, rfl⟩ := List.mem_map.1 hn
  exact List.find?_eq_none.1 h r hr (decide_eq_true rfl)

/-! ### Altering rows -/

theorem names_alter (hg : ∀ r, (g r).name = r.name) :
    (alter p g rows).2.map Row.name = rows.map Row.name := by
  rw [alter, List.map_map]
  refine List.map_congr_left fun r _ => ?_
  show (if p r then g r else r).name = r.name
  split
  · exact hg r
  · rfl

theorem rowOf_alter (hg : ∀ r, (g r).name = r.name) :
    rowOf n (alter p g rows).2 = (rowOf n rows).map fun r => if p r then g r else r := by
  rw [alter, rowOf, rowOf, List.find?_map]
  congr 2
  funext r
  show decide ((if p r then g r else r).name = n) = decide (r.name = n)
  split
  · rw [hg]
  · rfl

/-- There is at most one row to change. -/
theorem count_alter (hu : (rows.map Row.name).Nodup) (hp : ∀ r, p r = true → r.name = n) :
    (alter p g rows).1 = if (rowOf n rows).any p then 1 else 0 := by
  show (rows.filter p).length = _
  induction rows with
  | nil => rfl
  | cons r rows ih =>
    rw [List.map_cons, List.nodup_cons] at hu
    rw [rowOf_cons]
    by_cases hr : r.name = n
    · have hnone : rows.filter p = [] := by
        rw [List.filter_eq_nil_iff]
        intro x hx hpx
        exact hu.1 (List.mem_map.2 ⟨x, hx, (hp x hpx).trans hr.symm⟩)
      rw [if_pos hr, List.filter_cons, hnone]
      cases hpr : p r <;> simp [hpr]
    · have hpr : p r = false := Bool.eq_false_iff.2 fun h => hr (hp r h)
      rw [if_neg hr, List.filter_cons_of_neg (by rw [hpr]; decide)]
      exact ih hu.2

/-! ### Commands -/

/-- An update whose values are all there for the rows that it changes. -/
theorem perform_update_of_mem {v : Values} {sets : List (Column × Quantity)}
    {conditions : List Condition} (hp : ∀ r ∈ rows, conditions.all (·.holds v r) = p r)
    (hg : ∀ r ∈ rows, p r = true → r.assign v sets = some (g r)) :
    (Command.update sets conditions).perform v rows = .ok (alter p g rows) := by
  have hmap : rows.mapM (Command.updateRow v sets conditions) =
      .ok (rows.map fun r => (p r, if p r then g r else r)) := by
    induction rows with
    | nil => rfl
    | cons r rows ih =>
      have hr : Command.updateRow v sets conditions r = .ok (p r, if p r then g r else r) := by
        rw [Command.updateRow, hp r List.mem_cons_self]
        cases hpr : p r with
        | false => rfl
        | true => rw [hg r List.mem_cons_self hpr]; rfl
      rw [List.mapM_cons, hr, ih (fun r hr => hp r (List.mem_cons_of_mem _ hr))
        fun r hr => hg r (List.mem_cons_of_mem _ hr)]
      rfl
  rw [Command.perform, hmap]
  show Except.ok _ = Except.ok _
  rw [alter, List.filter_map, List.length_map, List.map_map]
  rfl

/-- An update whose values are all there. -/
theorem perform_update {v : Values} {sets : List (Column × Quantity)} {conditions : List Condition}
    (hp : ∀ r, conditions.all (·.holds v r) = p r) (hg : ∀ r, r.assign v sets = some (g r)) :
    (Command.update sets conditions).perform v rows = .ok (alter p g rows) :=
  perform_update_of_mem (fun r _ => hp r) fun r _ _ => hg r

variable {t : Terms} {holder : String} {now clock : Instant}

/-- The row that taking a lock writes. -/
def takenRow (t : Terms) (holder : String) (now : Instant) : Row :=
  ⟨t.name, Stamp.stored t.atMostUntil, Stamp.stored now, holder⟩

theorem perform_insert : Commands.plain.insert.perform (.ofTerms t holder now clock) rows =
    if (rowOf t.name rows).isSome then .error .notUnique
    else .ok (1, rows ++ [takenRow t holder now]) := by
  rw [← any_name_eq]
  rfl

/-- The row is that of the lock. -/
def isOf (t : Terms) (r : Row) : Bool := r.name = t.name

/-- The row may be claimed. -/
def mayClaim (t : Terms) (now : Instant) (r : Row) : Bool :=
  r.name = t.name ∧ r.lockUntil ≤ Stamp.stored now

/-- The row may be extended. -/
def mayExtend (t : Terms) (holder : String) (now : Instant) (r : Row) : Bool :=
  r.name = t.name ∧ r.lockedBy = holder ∧ Stamp.stored now < r.lockUntil

/-- The row after it was claimed. -/
def claimed (t : Terms) (holder : String) (now : Instant) (r : Row) : Row :=
  { takenRow t holder now with name := r.name }

/-- The row with another end of the lease. -/
def ending (u : Instant) (r : Row) : Row := { r with lockUntil := Stamp.stored u }

theorem name_claimed (r : Row) : (claimed t holder now r).name = r.name := by rw [claimed]

theorem name_ending (u : Instant) (r : Row) : (ending u r).name = r.name := by rw [ending]

theorem perform_claim : Commands.plain.claim.perform (.ofTerms t holder now clock) rows =
    .ok (alter (mayClaim t now) (claimed t holder now) rows) := by
  refine perform_update (fun r => ?_) fun r => rfl
  simp only [mayClaim, List.all_cons, List.all_nil, Bool.and_true, Condition.holds,
    Quantity.value?, Values.ofTerms, Param.bound, Bound.column, Row.get, Option.any_some,
    Bool.decide_and]
  rfl

theorem perform_release : Commands.plain.release.perform (.ofTerms t holder now clock) rows =
    .ok (alter (isOf t) (ending (t.releaseAt now)) rows) := by
  refine perform_update (fun r => ?_) fun r => rfl
  simp only [isOf, List.all_cons, List.all_nil, Bool.and_true, Condition.holds, Quantity.value?,
    Values.ofTerms, Param.bound, Bound.column, Row.get, Option.any_some]
  rfl

theorem perform_extend : Commands.plain.extend.perform (.ofTerms t holder now clock) rows =
    .ok (alter (mayExtend t holder now) (ending t.atMostUntil) rows) := by
  refine perform_update (fun r => ?_) fun r => rfl
  simp only [mayExtend, List.all_cons, List.all_nil, Bool.and_true, Condition.holds,
    Quantity.value?, Values.ofTerms, Param.bound, Bound.column, Row.get, Option.any_some,
    Bool.decide_and]
  rfl

end LeaseLock.Sql
