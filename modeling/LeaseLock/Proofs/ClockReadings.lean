import LeaseLock.GuardedClock
import LeaseLock.Scenario.Play

/-!
# Readings of clocks

What a clock shows after any moves, next to where these would have brought it exactly.

## The model

A move leads from what the clock shows to an exact instant. The clock then shows the last whole
millisecond that is not after it, or, if there is no such instant, the move breaks off
(`Clock.Move.Leads`). What is cut off in rounding is not kept for the next move. The tally of a run has
both: where its moves lead if nothing is cut off, and what was cut off since the clock was last set
(`Tally`).

## What is proved

`now_rounds_down`: whatever the moves were, the clock shows a whole millisecond, which is the exact
instant of the tally less all that was cut off. So it is the exact instant rounded down exactly if less
than a millisecond was cut off in all, as when only the first instant had a part of a millisecond. Each
single move is rounded down once, from what the clock shows. No advance by a span that is not negative
sets it back. A move that breaks off spoils the guard, but all that is seen of the clock from then on is
as if that move had not been made.

Scenarios move their clock without a guard, and it gets to the same instants (`clock_moveClock`).
-/

namespace LeaseLock

/-! ### Rounding down -/

namespace Instant

/-- The last whole millisecond that is not after `n` nanoseconds since 1970. -/
structure RoundsDown (t : Instant) (n : Int) : Prop where
  whole : nanosPerMilli ∣ t.nanos
  le : t.nanos ≤ n
  lt : n < t.nanos + nanosPerMilli

/-- What is cut off are nanoseconds of the second, and these are counted upwards before 1970, too. -/
theorem nanos_floorMillis_eq_sub (t : Instant) :
    t.floorMillis.nanos = t.nanos - t.subsecond % nanosPerMilli := by
  simp only [nanos_floorMillis, subsecond, nanosPerMilli, nanosPerSecond]
  omega

theorem roundsDown_floorMillis (t : Instant) : t.floorMillis.RoundsDown t.nanos where
  whole := Int.dvd_mul_left _ _
  le := t.floorMillis_le
  lt := by
    have hcut := Int.emod_lt_of_pos t.subsecond (show 0 < nanosPerMilli by decide)
    rw [nanos_floorMillis_eq_sub]
    omega

theorem RoundsDown.eq_sub {t : Instant} {n : Int} (h : t.RoundsDown n) :
    t.nanos = n - n % nanosPerMilli := by
  obtain ⟨hwhole, hle, hlt⟩ := h
  simp only [nanosPerMilli] at hwhole hlt ⊢
  omega

end Instant

/-! ### One move -/

namespace Clock.Move

/-- **Where a move leads** from a reading `r`: how it ends, and what the clock shows then. -/
inductive Leads (r : Instant) : Move → Outcome Empty Unit → Instant → Prop where
  | set (t : Instant) {u : Instant} (rounded : u.RoundsDown t.nanos) : Leads r (.set t) (.value ()) u
  | advance (d : Span) {u : Instant}
      (within : Instant.first ≤ r.nanos + d.nanos ∧ r.nanos + d.nanos ≤ Instant.last)
      (rounded : u.RoundsDown (r.nanos + d.nanos)) : Leads r (.advance d) (.value ()) u
  | leave (d : Span) (beyond : r.nanos + d.nanos < Instant.first ∨ Instant.last < r.nanos + d.nanos) :
      Leads r (.advance d) .breakdown r

theorem leads_perform (m : Move) (c : Clock) :
    m.Leads c.reading (m.perform c).1 (m.perform c).2.reading := by
  cases m with
  | set t => exact .set t t.roundsDown_floorMillis
  | advance d =>
    rw [perform, moved?, advance?]
    cases hadd : c.reading.add? d with
    | none => exact .leave d (Instant.ofNanos?_eq_none_iff.1 hadd)
    | some t =>
      have hnanos : t.nanos = c.reading.nanos + d.nanos := Instant.add?_eq_some_iff.1 hadd
      refine .advance d ?_ ?_
      · rw [← hnanos]
        exact ⟨t.lower, t.upper⟩
      · rw [← hnanos]
        exact t.roundsDown_floorMillis

/-- From a whole millisecond, a span that is not negative does not lead back. -/
theorem Leads.le {r u : Instant} {d : Span} {ending : Outcome Empty Unit}
    (h : Leads r (.advance d) ending u) (hr : nanosPerMilli ∣ r.nanos) (hd : Span.zero ≤ d) : r ≤ u := by
  have hd : 0 ≤ d.nanos := hd
  cases h with
  | advance _ _ hu =>
    have heq := hu.eq_sub
    rw [Instant.le_def]
    simp only [nanosPerMilli] at hr heq
    omega
  | leave => exact Int.le_refl _

theorem perform_of_breakdown {m : Move} {c : Clock} (h : (m.perform c).1 = .breakdown) :
    (m.perform c).2 = c := by
  unfold perform at h ⊢
  split
  · rename_i hmoved
    rw [hmoved] at h
    cases h
  · rfl

end Clock.Move

/-! ### The guard -/

namespace GuardedClock

variable {g g' : GuardedClock}

theorem leads_move (g : GuardedClock) (m : Clock.Move) : m.Leads g.now (g.move m).1 (g.move m).2.now := by
  rw [now_eq, now_eq, move_fst, value_move]
  exact m.leads_perform g.value

/-- It does not show in what is seen of a clock whether its guard is spoiled. -/
theorem log_congr (h : g.value = g'.value) (ms : List Clock.Move) : g.log ms = g'.log ms := by
  induction ms generalizing g g' with
  | nil => rfl
  | cons m ms ih =>
    have hmoved : (g.move m).2.value = (g'.move m).2.value := by rw [value_move, value_move, h]
    rw [log, log, ih hmoved, move_fst, move_fst, now_eq, now_eq, hmoved, h]

theorem log_of_breakdown {m : Clock.Move} (h : (g.move m).1 = .breakdown) (later : List Clock.Move) :
    (g.move m).2.log later = g.log later := by
  rw [move_fst] at h
  have hleft : (g.move m).2.value = g.value := by rw [value_move, Clock.Move.perform_of_breakdown h]
  exact log_congr hleft later

/-! ### The tally -/

/-- **The tally of a run.** -/
structure Tally where
  /-- Where the moves lead if nothing is cut off, in nanoseconds since 1970. -/
  exact : Int
  /-- What instants and spans had beyond whole milliseconds since the clock was last set. -/
  cut : Int

namespace Tally

/-- The tally of a clock that was set to an instant. -/
def begun (t : Instant) : Tally := ⟨t.nanos, t.nanos % nanosPerMilli⟩

/-- The tally with one more move. One that broke off does not count. -/
def enter (a : Tally) (e : Entry) : Tally :=
  match e.ending, e.move with
  | .value (), .set t => .begun t
  | .value (), .advance d => ⟨a.exact + d.nanos, a.cut + d.nanos % nanosPerMilli⟩
  | _, _ => a

/-- **A reading accords with a tally**: it is a whole millisecond, and as much before the exact instant
as was cut off. -/
structure Accords (a : Tally) (r : Instant) : Prop where
  whole : nanosPerMilli ∣ r.nanos
  eq_sub : r.nanos = a.exact - a.cut
  nonneg : 0 ≤ a.cut

variable {a : Tally} {r u : Instant}

theorem accords_begun {t : Instant} (h : u.RoundsDown t.nanos) : (Tally.begun t).Accords u where
  whole := h.whole
  eq_sub := h.eq_sub
  nonneg := Int.emod_nonneg _ (by decide)

/-- One move leads from a reading that accords to one that accords. -/
theorem Accords.enter {m : Clock.Move} {ending : Outcome Empty Unit} (ha : a.Accords r)
    (h : m.Leads r ending u) : (a.enter ⟨m, ending, u⟩).Accords u := by
  cases h with
  | set t hu => exact accords_begun hu
  | advance d _ hu =>
    obtain ⟨hwhole, heq, hnonneg⟩ := ha
    have hd := Int.emod_nonneg d.nanos (show nanosPerMilli ≠ 0 by decide)
    -- The reading is whole, so what is cut off of the sum is what the span has beyond milliseconds.
    have hmod : (r.nanos + d.nanos) % nanosPerMilli = d.nanos % nanosPerMilli :=
      Int.emod_eq_emod_iff_emod_sub_eq_zero.2 (by
        rw [Int.add_sub_cancel]
        exact Int.emod_eq_zero_of_dvd hwhole)
    refine ⟨hu.whole, ?_, Int.add_nonneg hnonneg hd⟩
    rw [hu.eq_sub, hmod, heq]
    show _ = a.exact + d.nanos - (a.cut + d.nanos % nanosPerMilli)
    omega
  | leave => exact ha

/-- **Runs keep readings in accord** with their tallies. -/
theorem Accords.foldl {g : GuardedClock} (ha : a.Accords g.now) (ms : List Clock.Move) :
    ((g.log ms).foldl Tally.enter a).Accords (g.after ms).now := by
  induction ms generalizing g a with
  | nil => exact ha
  | cons m ms ih => exact ih (ha.enter (g.leads_move m))

/-- A reading that accords is the exact instant rounded down unless a millisecond or more was cut off. -/
theorem Accords.roundsDown_iff (ha : a.Accords r) : r.RoundsDown a.exact ↔ a.cut < nanosPerMilli := by
  obtain ⟨hwhole, heq, hnonneg⟩ := ha
  constructor
  · intro h
    have hlt := h.lt
    omega
  · intro h
    exact ⟨hwhole, by omega, by omega⟩

end Tally

end GuardedClock

/-! ### Scenarios -/

/-- Scenarios move their clock to the same instants as if it were behind a guard, spoiled or not. -/
theorem Scenario.clock_moveClock {ν : Type} (m : Clock.Move) (s : State (World ν)) (spoiled : Bool) :
    (moveClock m.moved? s).state.clock = (GuardedClock.move ⟨s.clock, spoiled⟩ m).2.value := by
  rw [GuardedClock.value_move, Clock.Move.perform, moveClock]
  cases hmoved : m.moved? s.clock
  all_goals simp only [Program.step, Turn.state, hmoved]

/-! ### Runs -/

namespace GuardedClock

/-- **What a clock shows** after any moves from any start is a whole millisecond. It is the exact instant
of the run less what was cut off, and so the exact instant rounded down exactly if less than a millisecond
was cut off in all. Every move leads where it should from there; no advance by a span that is not
negative sets the clock back; and after a move that breaks off all goes on as without it. -/
theorem now_rounds_down (start : Instant) (ms : List Clock.Move) :
    let g := (showing start).after ms
    let a := ((showing start).log ms).foldl Tally.enter (.begun start)
    a.Accords g.now ∧
    (g.now.RoundsDown a.exact ↔ a.cut < nanosPerMilli) ∧
    (∀ m : Clock.Move, m.Leads g.now (g.move m).1 (g.move m).2.now) ∧
    (∀ d, Span.zero ≤ d → g.now ≤ (g.move (.advance d)).2.now) ∧
    ∀ m, (g.move m).1 = .breakdown → ∀ later, (g.move m).2.log later = g.log later := by
  intro g a
  have hstart : (Tally.begun start).Accords (showing start).now :=
    Tally.accords_begun start.roundsDown_floorMillis
  have haccords : a.Accords g.now := hstart.foldl ms
  refine ⟨haccords, haccords.roundsDown_iff, g.leads_move, fun d hd => ?_, fun m hm => log_of_breakdown hm⟩
  exact (g.leads_move (.advance d)).le haccords.whole hd

/-- Half a millisecond. -/
def halfMilli : Span := ⟨500000, by decide, by decide⟩

/-- Three halves of a millisecond before 1970. -/
def shortOfEpoch : Instant := ⟨-1500000, by decide, by decide⟩

/-- The longest span there is. -/
def longest : Span := ⟨Span.limit, by decide, by decide⟩

/-- A clock that is moved on by far too much shows the last millisecond but one before 1970 still, and can
be moved on from there. -/
theorem now_after_break :
    let g := (showing shortOfEpoch).after [.advance longest]
    (g.spoiled = true ∧ g.now.RoundsDown (-1500000)) ∧
    (Span.zero ≤ halfMilli ∧ g.now ≤ (g.move (.advance halfMilli)).2.now) ∧
    (g.move (.advance longest)).1 = .breakdown ∧
      (g.move (.advance longest)).2.log [.advance halfMilli, .set .epoch] =
        g.log [.advance halfMilli, .set .epoch] := by
  intro g
  obtain ⟨-, hdown, -, hmonotone, hbroken⟩ := now_rounds_down shortOfEpoch [.advance longest]
  have hbreak : (g.move (.advance longest)).1 = .breakdown := by decide
  exact ⟨⟨by decide, hdown.2 (by decide)⟩, ⟨by decide, hmonotone _ (by decide)⟩, hbreak,
    hbroken _ hbreak _⟩

/-- Twice half a millisecond is a millisecond, and yet leaves the clock where it was. -/
theorem half_millis_cut :
    let halves : List Clock.Move := [.advance halfMilli, .advance halfMilli]
    let g := (showing .epoch).after halves
    let a := ((showing .epoch).log halves).foldl Tally.enter (.begun .epoch)
    a.exact = nanosPerMilli ∧ g.now = .epoch ∧ ¬g.now.RoundsDown a.exact := by
  intro halves g a
  refine ⟨by decide, by decide, fun h => ?_⟩
  exact absurd h.lt (by decide)

end GuardedClock
end LeaseLock
