import LeaseLock.Proofs.StoreCalls

/-!
# Calls that leave no trace

What a run of storage calls comes to for one lock. The calls on other locks, and all calls that fail,
might as well not have been made.

## The model

A run is a list of storage calls, by any nodes and in any order, each at a reading of the clock; the
readings may go up and down. The calls are carried out one after the other, and each is noted with
its answer. A call fails if it answers that it has done nothing: a record was not created or not
claimed, or a lease was lost. A call concerns a lock if it is on its name and does not fail.

## What is proved

`concerning_undisturbed`: if of a run only the calls are made that concern a lock, each at the reading
of the clock that it had, then all of them get the answers that they got, and the record of the lock
is the same in the end.
-/

namespace LeaseLock

/-- The answer is not that nothing was done. -/
def CallKind.succeeds : (k : CallKind) → k.Result → Bool
  | insert, created => created
  | claim, claimed => claimed
  | release, _ => true
  | extend, e => e ≠ .lost

namespace Store

/-- A storage call at a reading of the clock. -/
structure Timed where
  now : Instant
  call : Call

/-- A storage call that was carried out, with its answer. -/
structure Served extends Timed where
  result : call.kind.Result

/-- The call is on this name, and it did not fail. -/
def Served.concerns (n : String) (y : Served) : Bool :=
  y.call.terms.name = n && y.call.kind.succeeds y.result

/-- Carries out one call, and notes its answer. -/
def performOne (s : Store) (x : Timed) : Served × Store :=
  (⟨x, (s.perform x.now x.call).1⟩, (s.perform x.now x.call).2)

/-- Carries out calls one after the other, and notes their answers. -/
def performAll (s : Store) : List Timed → List Served × Store
  | [] => ([], s)
  | x :: xs =>
    let (y, s) := s.performOne x
    let (ys, s) := s.performAll xs
    (y :: ys, s)

variable {s s' : Store} {n : String}

theorem performAll_cons (s : Store) (x : Timed) (xs : List Timed) :
    s.performAll (x :: xs) =
      let after := (s.performOne x).2.performAll xs
      ((s.performOne x).1 :: after.1, after.2) := rfl

/-- A call that fails changes nothing. -/
theorem perform_of_fails {now : Instant} {c : Call}
    (h : c.kind.succeeds (s.perform now c).1 = false) : (s.perform now c).2 = s := by
  obtain ⟨kind, holder, t⟩ := c
  cases kind with
  | insert =>
    obtain ⟨-, hi⟩ | ⟨r, -, hi⟩ := s.insert_cases holder now t
    · rw [perform, hi] at h
      cases h
    · exact congrArg Prod.snd hi
  | claim =>
    obtain ⟨r, -, -, hc⟩ | ⟨-, hc⟩ := s.claim_cases holder now t
    · rw [perform, hc] at h
      cases h
    · exact congrArg Prod.snd hc
  | release => cases h
  | extend =>
    obtain ⟨r, -, -, -, he⟩ | ⟨-, he⟩ := s.extend_cases holder now t
    · rw [perform, he] at h
      cases h
    · exact congrArg Prod.snd he

/-- A call that does not concern a lock leaves its record alone. -/
theorem get?_performOne_of_unconcerned {x : Timed} (h : (s.performOne x).1.concerns n = false) :
    (s.performOne x).2.get? n = s.get? n := by
  rw [Served.concerns, Bool.and_eq_false_iff, decide_eq_false_iff_not] at h
  obtain hn | hf := h
  · exact get?_perform_of_ne (Ne.symm hn)
  · exact congrArg (Registry.get? n) (perform_of_fails hf)

/-- A call that concerns a lock goes the same way where its record is the same. -/
theorem performOne_congr {x : Timed} (h : (s.performOne x).1.concerns n = true)
    (hs : s.get? n = s'.get? n) : (s'.performOne x).1 = (s.performOne x).1 ∧
      (s.performOne x).2.get? n = (s'.performOne x).2.get? n := by
  rw [Served.concerns, Bool.and_eq_true, decide_eq_true_eq] at h
  obtain ⟨rfl, -⟩ := h
  obtain ⟨hr, hg⟩ := perform_congr hs x.now
  exact ⟨congrArg (Served.mk x) hr.symm, hg⟩

/-- A store with the same record of a lock does the same in the calls that concern the lock. -/
theorem performAll_concerning (xs : List Timed) (hs : s.get? n = s'.get? n) :
    let kept := (s.performAll xs).1.filter (Served.concerns n)
    (s'.performAll (kept.map Served.toTimed)).1 = kept ∧
      (s'.performAll (kept.map Served.toTimed)).2.get? n = (s.performAll xs).2.get? n := by
  induction xs generalizing s s' with
  | nil => exact ⟨rfl, hs.symm⟩
  | cons x xs ih =>
    rw [performAll_cons, List.filter_cons]
    cases hx : (s.performOne x).1.concerns n with
    | false =>
      -- Without this call, the record is what it is after it.
      exact ih ((get?_performOne_of_unconcerned hx).trans hs)
    | true =>
      obtain ⟨hy, hg⟩ := performOne_congr hx hs
      obtain ⟨hys, hend⟩ := ih hg
      simp only [if_true, List.map_cons, performAll_cons]
      rw [show (s.performOne x).1.toTimed = x from rfl, hy, hys]
      exact ⟨rfl, hend⟩

/-- **Locks of other names and calls that fail do not interfere**: made alone and at the same readings
of the clock, the calls that concern a lock get the same answers and leave the same record. -/
theorem concerning_undisturbed (s : Store) (n : String) (xs : List Timed) :
    let run := s.performAll xs
    let kept := run.1.filter (Served.concerns n)
    let alone := s.performAll (kept.map Served.toTimed)
    alone.1 = kept ∧ alone.2.get? n = run.2.get? n :=
  performAll_concerning xs rfl

end Store
end LeaseLock
