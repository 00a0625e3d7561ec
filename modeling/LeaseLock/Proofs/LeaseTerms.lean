import LeaseLock.Error
import LeaseLock.Sql.Param

/-!
# Terms that are in order

Which terms of a lease are made, and what can be relied on once they are.

## What is proved

`made_iff_inOrder`: terms are made exactly if they are in order (`InOrder`), five conditions on what is
asked for; all others are an invalid configuration. Terms that are made are the ones that were asked for,
with the deadlines at the exact sums, the minimum first (`AsAsked`). A lease on them is given back no
earlier than now and no earlier than its minimum, whatever the clock reads (`Releases`).

Two things are asked for that never come up. The minimum is not longer than the maximum, so where the
later deadline is an instant the earlier one is, too; and where the microseconds of the maximum fit 64
bits those of the minimum do. So no fault says that the earlier deadline is out of reach, and neither
number of microseconds that goes into a statement is capped (`Counted`).
-/

namespace LeaseLock

theorem Instant.le_trans {t u v : Instant} (h : t ≤ u) (h' : u ≤ v) : t ≤ v := Int.le_trans h h'

theorem Instant.le_antisymm {t u : Instant} (h : t ≤ u) (h' : u ≤ t) : t = u :=
  Instant.ext (Int.le_antisymm h h')

/-- What is added to an instant may be less, too. -/
theorem Instant.exists_add? {c u : Instant} {d e : Span} (hu : c.add? d = some u)
    (hnonneg : Span.zero ≤ e) (hle : e ≤ d) : ∃ v, c.add? e = some v := by
  rw [add?_eq_some_iff] at hu
  have he : 0 ≤ e.nanos := hnonneg
  have hed : e.nanos ≤ d.nanos := hle
  have hlow := c.lower
  have hhigh := u.upper
  exact ⟨⟨c.nanos + e.nanos, by omega, by omega⟩, add?_eq_some_iff.2 rfl⟩

/-- Whole microseconds are what is left of a span that is not negative when it is cut. -/
theorem Span.wholeMicros_bounds {d : Span} (h : Span.zero ≤ d) :
    0 ≤ d.wholeMicros ∧ d.wholeMicros * 1000 ≤ d.nanos ∧ d.nanos < (d.wholeMicros + 1) * 1000 := by
  have h : 0 ≤ d.nanos := h
  rw [Span.wholeMicros, Int.tdiv_eq_ediv_of_nonneg h]
  omega

namespace Terms

variable {c now u : Instant} {n : String} {d e : Span} {t : Terms}

theorem atMostFor_nonneg (t : Terms) : Span.zero ≤ t.atMostFor :=
  Int.le_trans t.atLeastFor_nonneg t.atLeastFor_le

/-! ### The deadlines -/

theorem createdAt_le (t : Terms) : t.createdAt ≤ t.atLeastUntil := by
  have h : 0 ≤ t.atLeastFor.nanos := t.atLeastFor_nonneg
  rw [Instant.le_def, t.atLeastUntil_eq]
  omega

theorem atLeastUntil_le (t : Terms) : t.atLeastUntil ≤ t.atMostUntil := by
  have h : t.atLeastFor.nanos ≤ t.atMostFor.nanos := t.atLeastFor_le
  rw [Instant.le_def, t.atLeastUntil_eq, t.atMostUntil_eq]
  omega

theorem now_le_releaseAt (t : Terms) (now : Instant) : now ≤ t.releaseAt now := by
  rw [Instant.le_def, releaseAt, Instant.nanos_max]
  omega

theorem le_releaseAt (t : Terms) (now : Instant) : t.atLeastUntil ≤ t.releaseAt now := by
  rw [Instant.le_def, releaseAt, Instant.nanos_max]
  omega

theorem releaseAt_le (h : now ≤ u) (h' : t.atLeastUntil ≤ u) : t.releaseAt now ≤ u := by
  rw [Instant.le_def] at h h' ⊢
  rw [releaseAt, Instant.nanos_max]
  omega

/-- **When a lease is given back**: no earlier than now or its minimum, and no later than need be. -/
structure Releases (t : Terms) : Prop where
  now_le : ∀ now, now ≤ t.releaseAt now
  kept : ∀ now, t.atLeastUntil ≤ t.releaseAt now
  least : ∀ now u, now ≤ u → t.atLeastUntil ≤ u → t.releaseAt now ≤ u
  monotone : ∀ now later, now ≤ later → t.releaseAt now ≤ t.releaseAt later
  idempotent : ∀ now, t.releaseAt (t.releaseAt now) = t.releaseAt now

theorem releases (t : Terms) : t.Releases where
  now_le := t.now_le_releaseAt
  kept := t.le_releaseAt
  least _ _ := releaseAt_le
  monotone _ later h :=
    releaseAt_le (Instant.le_trans h (t.now_le_releaseAt later)) (t.le_releaseAt later)
  idempotent now := Instant.le_antisymm (releaseAt_le (Int.le_refl _) (t.le_releaseAt now))
    (t.now_le_releaseAt _)

/-! ### The microseconds -/

/-- **The numbers of microseconds** that go into statements are those of the spans, cut down to whole
ones, and the minimum is no more than the maximum. Neither is capped. -/
structure Counted (d e : Span) (t : Terms) (atMost atLeast : Int) : Prop where
  micros_atMost : d.micros? = some atMost
  micros_atLeast : e.micros? = some atLeast
  bound_atMost : ∀ holder now, Sql.Param.atMostMicros.bound t holder now = .micros atMost
  bound_atLeast : ∀ holder now, Sql.Param.atLeastMicros.bound t holder now = .micros atLeast
  cut_atMost : atMost * 1000 ≤ d.nanos ∧ d.nanos < (atMost + 1) * 1000
  cut_atLeast : atLeast * 1000 ≤ e.nanos ∧ e.nanos < (atLeast + 1) * 1000
  nonneg : 0 ≤ atLeast
  atLeast_le : atLeast ≤ atMost
  fits : atMost ≤ 9223372036854775807

theorem counted (t : Terms) :
    Counted t.atMostFor t.atLeastFor t t.atMostFor.wholeMicros t.atLeastFor.wholeMicros where
  micros_atMost := Span.micros?_eq_some t.atMostFor_fits
  micros_atLeast := Span.micros?_eq_some t.atLeastFor_fits
  bound_atMost _ _ := congrArg Sql.Bound.micros (Span.cappedMicros_eq t.atMostFor_fits)
  bound_atLeast _ _ := congrArg Sql.Bound.micros (Span.cappedMicros_eq t.atLeastFor_fits)
  cut_atMost := (Span.wholeMicros_bounds t.atMostFor_nonneg).2
  cut_atLeast := (Span.wholeMicros_bounds t.atLeastFor_nonneg).2
  nonneg := (Span.wholeMicros_bounds t.atLeastFor_nonneg).1
  atLeast_le := Span.wholeMicros_mono t.atLeastFor_le
  fits := t.atMostFor_fits.2

/-! ### Making terms -/

/-- **What is in order**: there is a name, the spans are in this order, the microseconds of the longer
one fit a signed 64-bit number, and it does not lead out of the instants. -/
structure InOrder (c : Instant) (n : String) (d e : Span) : Prop where
  named : n ≠ ""
  nonneg : 0 ≤ e.nanos
  ordered : e.nanos ≤ d.nanos
  fits : d.nanos.tdiv 1000 ≤ 9223372036854775807
  reached : Instant.first ≤ c.nanos + d.nanos ∧ c.nanos + d.nanos ≤ Instant.last

/-- **The terms that were asked for.** -/
structure AsAsked (c : Instant) (n : String) (d e : Span) (t : Terms) : Prop where
  name_eq : t.name = n
  createdAt_eq : t.createdAt = c
  atMostFor_eq : t.atMostFor = d
  atLeastFor_eq : t.atLeastFor = e
  atMostUntil_eq : t.atMostUntil.nanos = c.nanos + d.nanos
  atLeastUntil_eq : t.atLeastUntil.nanos = c.nanos + e.nanos
  createdAt_le : c ≤ t.atLeastUntil
  atLeastUntil_le : t.atLeastUntil ≤ t.atMostUntil

theorem asAsked_of_make (h : make c n d e = .ok t) : AsAsked c n d e t := by
  have hfields : t.name = n ∧ t.createdAt = c ∧ t.atMostFor = d ∧ t.atLeastFor = e := by
    unfold make at h
    repeat' split at h
    all_goals cases h
    exact ⟨rfl, rfl, rfl, rfl⟩
  obtain ⟨rfl, rfl, rfl, rfl⟩ := hfields
  exact ⟨rfl, rfl, rfl, rfl, t.atMostUntil_eq, t.atLeastUntil_eq, t.createdAt_le, t.atLeastUntil_le⟩

theorem inOrder_of_make (h : make c n d e = .ok t) : InOrder c n d e := by
  obtain ⟨rfl, rfl, rfl, rfl, hmost, -, -, -⟩ := asAsked_of_make h
  refine ⟨t.name_ne, t.atLeastFor_nonneg, t.atLeastFor_le, t.atMostFor_fits.2, ?_⟩
  rw [← hmost]
  exact ⟨t.atMostUntil.lower, t.atMostUntil.upper⟩

theorem exists_make (h : InOrder c n d e) : ∃ t, make c n d e = .ok t := by
  obtain ⟨hname, hnonneg, hordered, hfits, hreached⟩ := h
  have hmost : c.add? d = some ⟨c.nanos + d.nanos, hreached.1, hreached.2⟩ :=
    Instant.add?_eq_some_iff.2 rfl
  obtain ⟨v, hleast⟩ := Instant.exists_add? hmost hnonneg hordered
  have hd : ¬d < Span.zero := Int.not_lt.2 (Int.le_trans hnonneg hordered)
  have he : ¬e < Span.zero := Int.not_lt.2 hnonneg
  have hde : ¬d < e := Int.not_lt.2 hordered
  have hmicros : d.microsFit := by
    have hlow := (Span.wholeMicros_bounds (Int.le_trans hnonneg hordered)).1
    rw [Span.microsFit]
    rw [Span.wholeMicros] at hlow ⊢
    omega
  unfold make
  rw [dif_neg hname, if_neg hd, dif_neg he, dif_neg hde, dif_neg (not_not_intro hmicros)]
  split
  · rename_i hnone
    rw [hmost] at hnone
    cases hnone
  · split
    · rename_i hnone
      rw [hleast] at hnone
      cases hnone
    · exact ⟨_, rfl⟩

/-- Where the later deadline is within reach, so is the earlier one. -/
theorem make_ne_atLeastUntilOverflows (m : String) :
    make c n d e ≠ .error (.atLeastUntilOverflows m) := by
  intro h
  unfold make at h
  repeat' split at h
  all_goals cases h
  rename_i hnonneg hordered _ u hmost hleast
  obtain ⟨v, hv⟩ := Instant.exists_add? hmost (Int.not_lt.1 hnonneg) (Int.not_lt.1 hordered)
  rw [hleast] at hv
  cases hv

/-- **Terms are made exactly if they are in order.** Otherwise the configuration is invalid, and never
for the reason that the minimum leads out of the instants. Terms that are made are the ones that were
asked for, with the exact deadlines; they are released as they should be, and their durations go into
statements uncapped. -/
theorem made_iff_inOrder (c : Instant) (n : String) (d e : Span) :
    ((∃ t, make c n d e = .ok t) ↔ InOrder c n d e) ∧
    (¬InOrder c n d e → ∃ f, make c n d e = .error f ∧
      (LockError.terms f).kind = .invalidConfiguration ∧ ∀ m, f ≠ .atLeastUntilOverflows m) ∧
    ∀ t, make c n d e = .ok t →
      AsAsked c n d e t ∧ t.Releases ∧ ∃ atMost atLeast, Counted d e t atMost atLeast := by
  refine ⟨⟨fun ⟨t, ht⟩ => inOrder_of_make ht, exists_make⟩, fun hno => ?_, fun t ht => ?_⟩
  · cases hmade : make c n d e with
    | ok t => exact absurd (inOrder_of_make hmade) hno
    | error f => exact ⟨f, rfl, rfl, fun m hf => make_ne_atLeastUntilOverflows m (hf ▸ hmade)⟩
  · have hasked := asAsked_of_make ht
    have hcounted := t.counted
    rw [hasked.atMostFor_eq, hasked.atLeastFor_eq] at hcounted
    exact ⟨hasked, t.releases, _, _, hcounted⟩

/-- The longest span whose microseconds are counted. -/
def longest : Span := ⟨9223372036854775807999, by decide, by decide⟩

/-- A span of one and a half microseconds. -/
def brief : Span := ⟨1500, by decide, by decide⟩

/-- The last instant from which the longest span leads to an instant. -/
def latest : Instant := ⟨Instant.last - longest.nanos, by decide, by decide⟩

/-- The instant after it. -/
def tooLate : Instant := ⟨Instant.last - longest.nanos + 1, by decide, by decide⟩

/-- Terms up to the last instant are made, and those that end a nanosecond later are refused. -/
theorem made_at_the_limits :
    (InOrder latest "job" longest brief ∧ ∃ t, make latest "job" longest brief = .ok t ∧
        t.atMostUntil.nanos = Instant.last ∧
        Sql.Param.atMostMicros.bound t "node" .epoch = .micros 9223372036854775807 ∧
        Sql.Param.atLeastMicros.bound t "node" .epoch = .micros 1) ∧
      ¬InOrder tooLate "job" longest brief ∧
      ∃ f, make tooLate "job" longest brief = .error f ∧
        (LockError.terms f).kind = .invalidConfiguration := by
  have hin : InOrder latest "job" longest brief := ⟨by decide, by decide, by decide, by decide, by decide⟩
  have hout : ¬InOrder tooLate "job" longest brief := fun h => absurd h.reached (by decide)
  obtain ⟨hiff, -, hmade⟩ := made_iff_inOrder latest "job" longest brief
  obtain ⟨-, hrefused, -⟩ := made_iff_inOrder tooLate "job" longest brief
  obtain ⟨t, ht⟩ := hiff.2 hin
  obtain ⟨hasked, -, m, k, hcounted⟩ := hmade t ht
  have hm : m = 9223372036854775807 := Option.some.inj (hcounted.micros_atMost.symm.trans (by decide))
  have hk : k = 1 := Option.some.inj (hcounted.micros_atLeast.symm.trans (by decide))
  obtain ⟨f, hf, hkind, -⟩ := hrefused hout
  refine ⟨⟨hin, t, ht, hasked.atMostUntil_eq.trans (by decide), ?_, ?_⟩, hout, f, hf, hkind⟩
  · rw [hcounted.bound_atMost, hm]
  · rw [hcounted.bound_atLeast, hk]

end Terms
end LeaseLock
