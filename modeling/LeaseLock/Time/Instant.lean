import LeaseLock.Time.Span

/-!
# Instants

Points in time with nanosecond resolution, counted from the start of 1970 in universal time.

## The model

An `Instant` lies between the first moment of the year -262143 and the last nanosecond of the year
262142. The bounds are part of the type; moving an instant by a span answers `none` where it would
leave them, while the span between two instants always exists.
-/

namespace LeaseLock

/-- The first instant, in nanoseconds since 1970. -/
def Instant.first : Int := -8334601228800 * nanosPerSecond

/-- The last instant, in nanoseconds since 1970. -/
def Instant.last : Int := 8210266876799 * nanosPerSecond + 999999999

/-- A point in time. -/
structure Instant where
  /-- Nanoseconds since the start of 1970. -/
  nanos : Int
  lower : Instant.first ≤ nanos
  upper : nanos ≤ Instant.last
  deriving DecidableEq

namespace Instant

@[ext] theorem ext {t u : Instant} (h : t.nanos = u.nanos) : t = u := by
  cases t; cases u; cases h; rfl

/-- The instant `n` nanoseconds after the start of 1970, if there is one. -/
def ofNanos? (n : Int) : Option Instant :=
  if h : first ≤ n ∧ n ≤ last then some ⟨n, h.1, h.2⟩ else none

theorem ofNanos?_eq_some_iff {n : Int} {t : Instant} : ofNanos? n = some t ↔ t.nanos = n := by
  unfold ofNanos?
  split
  · exact ⟨fun h => by cases h; rfl, fun h => by cases t; cases h; rfl⟩
  · rename_i hn
    exact ⟨(nomatch ·), fun h => (hn (h ▸ ⟨t.lower, t.upper⟩)).elim⟩

theorem ofNanos?_eq_none_iff {n : Int} : ofNanos? n = none ↔ n < first ∨ last < n := by
  unfold ofNanos?
  constructor
  · intro h
    split at h
    · exact nomatch h
    · omega
  · intro h
    rw [dif_neg (by omega)]

@[simp] theorem ofNanos?_nanos (t : Instant) : ofNanos? t.nanos = some t :=
  ofNanos?_eq_some_iff.2 rfl

instance : LE Instant := ⟨fun t u => t.nanos ≤ u.nanos⟩
instance : LT Instant := ⟨fun t u => t.nanos < u.nanos⟩
instance (t u : Instant) : Decidable (t ≤ u) := inferInstanceAs (Decidable (t.nanos ≤ u.nanos))
instance (t u : Instant) : Decidable (t < u) := inferInstanceAs (Decidable (t.nanos < u.nanos))
instance : Max Instant := ⟨fun t u => if t ≤ u then u else t⟩

theorem le_def {t u : Instant} : t ≤ u ↔ t.nanos ≤ u.nanos := Iff.rfl
theorem lt_def {t u : Instant} : t < u ↔ t.nanos < u.nanos := Iff.rfl

theorem not_le {t u : Instant} : ¬t ≤ u ↔ u < t := Int.not_le
theorem not_lt {t u : Instant} : ¬t < u ↔ u ≤ t := Int.not_lt
theorem lt_of_lt_of_le {t u v : Instant} (h : t < u) (h' : u ≤ v) : t < v := Int.lt_of_lt_of_le h h'
theorem lt_of_le_of_lt {t u v : Instant} (h : t ≤ u) (h' : u < v) : t < v := Int.lt_of_le_of_lt h h'

@[simp] theorem nanos_max (t u : Instant) : (max t u).nanos = max t.nanos u.nanos := by
  show (if t ≤ u then u else t).nanos = _
  split <;> rename_i h <;> rw [le_def] at h <;> omega

/-- The start of 1970. -/
def epoch : Instant := ⟨0, by decide, by decide⟩

/-- One of the first seconds of 1970. -/
def second (n : UInt16) : Instant :=
  ⟨n.toNat * nanosPerSecond,
    by simp only [first, nanosPerSecond]; omega,
    by have := n.toNat_lt; simp only [last, nanosPerSecond]; omega⟩

/-- The instant a span later (earlier for a negative one), if there is one. -/
def add? (t : Instant) (d : Span) : Option Instant := ofNanos? (t.nanos + d.nanos)

theorem add?_eq_some_iff {t u : Instant} {d : Span} :
    t.add? d = some u ↔ u.nanos = t.nanos + d.nanos := ofNanos?_eq_some_iff

/-- The span from `u` to `t`. -/
def since (t u : Instant) : Span :=
  ⟨t.nanos - u.nanos,
    by
      have h1 := t.lower; have h2 := u.upper
      simp only [first, last, Span.limit, nanosPerSecond, nanosPerMilli] at *; omega,
    by
      have h1 := t.upper; have h2 := u.lower
      simp only [first, last, Span.limit, nanosPerSecond, nanosPerMilli] at *; omega⟩

@[simp] theorem nanos_since (t u : Instant) : (t.since u).nanos = t.nanos - u.nanos := rfl

/-- The latest whole millisecond that is not after the instant. -/
def floorMillis (t : Instant) : Instant :=
  ⟨t.nanos / nanosPerMilli * nanosPerMilli,
    by
      have h := t.lower
      simp only [first, nanosPerSecond, nanosPerMilli] at *; omega,
    by
      have h := t.upper
      simp only [last, nanosPerSecond, nanosPerMilli] at *; omega⟩

@[simp] theorem nanos_floorMillis (t : Instant) :
    t.floorMillis.nanos = t.nanos / nanosPerMilli * nanosPerMilli := rfl

theorem floorMillis_le (t : Instant) : t.floorMillis ≤ t := by
  simp only [le_def, nanos_floorMillis, nanosPerMilli]; omega

@[simp] theorem floorMillis_floorMillis (t : Instant) :
    t.floorMillis.floorMillis = t.floorMillis := by
  ext; simp only [nanos_floorMillis, nanosPerMilli]; omega

theorem floorMillis_mono {t u : Instant} (h : t ≤ u) : t.floorMillis ≤ u.floorMillis := by
  simp only [le_def, nanos_floorMillis, nanosPerMilli] at *; omega

/-- The whole seconds since 1970, counted downwards. -/
def seconds (t : Instant) : Int := t.nanos / nanosPerSecond

/-- The nanoseconds left over by `seconds`. -/
def subsecond (t : Instant) : Int := t.nanos % nanosPerSecond

end Instant
end LeaseLock
