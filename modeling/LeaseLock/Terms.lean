import LeaseLock.Duration.Written
import LeaseLock.Time.Instant

/-!
# The terms of a lease

What is asked for when a named lock is taken: how long the lease lasts if it is never given back,
and how long it is kept even if it is given back early.

## The model

A `Terms` value carries its own evidence: the name is not empty, the minimum is not negative and
not above the maximum, the maximum fits a 64-bit number of microseconds, and both deadlines are
the exact sums of the creation instant and the durations. `Terms.make` checks these one after the
other and reports the first that fails.
-/

namespace LeaseLock

/-- The terms of a lease on a named lock. -/
structure Terms where
  name : String
  createdAt : Instant
  /-- The lease lapses after this long. -/
  atMostFor : Span
  /-- The lease is kept at least this long. -/
  atLeastFor : Span
  /-- When the lease lapses. -/
  atMostUntil : Instant
  /-- Until when the lease is kept. -/
  atLeastUntil : Instant
  name_ne : name ≠ ""
  atLeastFor_nonneg : Span.zero ≤ atLeastFor
  atLeastFor_le : atLeastFor ≤ atMostFor
  atMostFor_fits : atMostFor.microsFit
  atMostUntil_eq : atMostUntil.nanos = createdAt.nanos + atMostFor.nanos
  atLeastUntil_eq : atLeastUntil.nanos = createdAt.nanos + atLeastFor.nanos
  deriving DecidableEq

/-- Why terms are refused. -/
inductive TermsFault where
  /-- The name is empty. -/
  | emptyName
  /-- The maximum is negative. -/
  | atMostNegative (name : String)
  /-- The minimum is negative. -/
  | atLeastNegative (name : String)
  /-- The minimum is above the maximum. -/
  | atLeastLonger (name : String)
  /-- The maximum is more microseconds than 64 bits hold. -/
  | atMostTooLarge (name : String)
  /-- The lease would lapse after the last instant. -/
  | atMostUntilOverflows (name : String)
  /-- The lease would be kept beyond the last instant. -/
  | atLeastUntilOverflows (name : String)
  deriving DecidableEq

namespace TermsFault

/-- The words for a fault. -/
def message : TermsFault → String
  | emptyName => "lock name can not be empty"
  | atMostNegative n => "lockAtMostFor is negative for lock '" ++ n ++ "'"
  | atLeastNegative n => "lockAtLeastFor is negative for lock '" ++ n ++ "'"
  | atLeastLonger n => "lockAtLeastFor is longer than lockAtMostFor for lock '" ++ n ++ "'"
  | atMostTooLarge n => "lockAtMostFor is too large for lock '" ++ n ++ "'"
  | atMostUntilOverflows n => "lockAtMostUntil overflows for lock '" ++ n ++ "'"
  | atLeastUntilOverflows n => "lockAtLeastUntil overflows for lock '" ++ n ++ "'"

end TermsFault

namespace Terms

/-- The terms for a lease from `createdAt` on, if they are in order. -/
def make (createdAt : Instant) (name : String) (atMostFor atLeastFor : Span) :
    Except TermsFault Terms :=
  if hName : name = "" then .error .emptyName
  else if atMostFor < Span.zero then .error (.atMostNegative name)
  else if hLow : atLeastFor < Span.zero then .error (.atLeastNegative name)
  else if hLe : atMostFor < atLeastFor then .error (.atLeastLonger name)
  else if hFits : ¬atMostFor.microsFit then .error (.atMostTooLarge name)
  else match hMost : createdAt.add? atMostFor with
    | none => .error (.atMostUntilOverflows name)
    | some atMostUntil => match hLeast : createdAt.add? atLeastFor with
      | none => .error (.atLeastUntilOverflows name)
      | some atLeastUntil =>
        .ok { name, createdAt, atMostFor, atLeastFor, atMostUntil, atLeastUntil
              name_ne := hName
              atLeastFor_nonneg := Int.not_lt.1 hLow
              atLeastFor_le := Int.not_lt.1 hLe
              atMostFor_fits := Decidable.not_not.1 hFits
              atMostUntil_eq := Instant.add?_eq_some_iff.1 hMost
              atLeastUntil_eq := Instant.add?_eq_some_iff.1 hLeast }

/-- The minimum fits a 64-bit number of microseconds, too. -/
theorem atLeastFor_fits (t : Terms) : t.atLeastFor.microsFit := by
  have hlow : 0 ≤ t.atLeastFor.wholeMicros := Span.wholeMicros_mono t.atLeastFor_nonneg
  have hhigh := Span.wholeMicros_mono t.atLeastFor_le
  have hfits := t.atMostFor_fits
  rw [Span.microsFit] at hfits ⊢
  omega

theorem name_of_make {c : Instant} {n : String} {d e : Span} {t : Terms}
    (h : make c n d e = .ok t) : t.name = n := by
  unfold make at h
  repeat' split at h
  all_goals cases h
  rfl

/-- A lease may be for no time at all. -/
theorem exists_make_zero (c : Instant) {n : String} (h : n ≠ "") :
    ∃ t, make c n .zero .zero = .ok t := by
  have hadd : c.add? .zero = some c := Instant.add?_eq_some_iff.2 (Int.add_zero _).symm
  unfold make
  rw [dif_neg h, if_neg (by decide), dif_neg (by decide), dif_neg (by decide), dif_neg (by decide)]
  split
  · rename_i hn
    rw [hadd] at hn
    cases hn
  · split
    · rename_i hn
      cases hn
    · exact ⟨_, rfl⟩

/-- Terms for half a minute from the start of 1970 on. -/
def early (name : String) (h : name ≠ "") : Terms where
  name := name
  createdAt := .epoch
  atMostFor := .halfMinute
  atLeastFor := .zero
  atMostUntil := ⟨30 * nanosPerSecond, by decide, by decide⟩
  atLeastUntil := .epoch
  name_ne := h
  atLeastFor_nonneg := by decide
  atLeastFor_le := by decide
  atMostFor_fits := by decide
  atMostUntil_eq := by decide
  atLeastUntil_eq := by decide

/-- The name that locks have in examples. -/
theorem job_ne : "job" ≠ "" := by decide

/-- Terms for some seconds from a second of 1970 on, or others if these are not in order. -/
def inSeconds (start atMost atLeast : UInt16) : Terms :=
  match make (.second start) "job" (.ofSeconds atMost) (.ofSeconds atLeast) with
  | .ok t => t
  | .error _ => early "job" job_ne

/-- When the lease ends if it is given back at `now`: then, or when it has been kept long enough. -/
def releaseAt (t : Terms) (now : Instant) : Instant := max now t.atLeastUntil

/-- The terms in words. -/
def written (t : Terms) : String :=
  "LockConfiguration\x7bname='" ++ t.name ++ "', lockAtMostFor=" ++ Duration.written t.atMostFor ++
    ", lockAtLeastFor=" ++ Duration.written t.atLeastFor ++ "\x7d"

end Terms
end LeaseLock
