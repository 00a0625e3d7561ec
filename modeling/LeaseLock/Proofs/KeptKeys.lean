import LeaseLock.Proofs.KeyServers

/-!
# Keys that are kept

What becomes of the minimum of a lease at a key-value server when the lease is given back early.

## The model

A release sends a script with the milliseconds for which the key is to be kept. It reads the clock, counts
the whole milliseconds up to the end of the minimum, and sends none if there are none. The script reaches
the server some time after that; there it lets the key expire, or deletes it if there are no milliseconds.

## What is proved

`release_keeps_iff`: the milliseconds that are sent reach the end of the minimum exactly if what is left
of it at the reading of the clock is nothing or a whole number of milliseconds (`WhollyLeft`), and then
the server has the key until then. Otherwise they end too early, by less than a millisecond. A key of
which less than a millisecond of the minimum is left is deleted at once.
-/

namespace LeaseLock.Redis

variable {t : Terms} {now : Instant}

/-- Nothing is left of the minimum, or a whole number of milliseconds. -/
def WhollyLeft (t : Terms) (now : Instant) : Prop :=
  t.atLeastUntil ≤ now ∨ nanosPerMilli ∣ t.atLeastUntil.nanos - now.nanos

instance (t : Terms) (now : Instant) : Decidable (WhollyLeft t now) := inferInstanceAs (Decidable (_ ∨ _))

/-! ### The milliseconds -/

/-- Milliseconds are counted up to the end of the minimum, or there are none. -/
theorem keepMillis_cases (t : Terms) (now : Instant) :
    (t.atLeastUntil.nanos ≤ now.nanos ∧ keepMillis t now = 0) ∨
      (now.nanos < t.atLeastUntil.nanos ∧
        keepMillis t now = (t.atLeastUntil.nanos - now.nanos) / nanosPerMilli) := by
  rw [(keptMillis t now).whole]
  rcases Int.lt_or_le now.nanos t.atLeastUntil.nanos with h | h
  · right
    have hleft : 0 ≤ t.atLeastUntil.nanos - now.nanos := by omega
    rw [Int.tdiv_eq_ediv_of_nonneg hleft]
    simp only [nanosPerMilli]
    omega
  · left
    have hleft : (t.atLeastUntil.nanos - now.nanos).tdiv nanosPerMilli ≤ 0 :=
      Int.tdiv_le_tdiv (by decide) (show t.atLeastUntil.nanos - now.nanos ≤ 0 by omega)
    omega

theorem lt_add_keepMillis (t : Terms) (now : Instant) :
    t.atLeastUntil.nanos < now.nanos + (keepMillis t now + 1) * nanosPerMilli := by
  rcases keepMillis_cases t now with ⟨h, hk⟩ | ⟨h, hk⟩
  all_goals
    rw [hk]
    simp only [nanosPerMilli]
    omega

/-- **The milliseconds reach the end of the minimum** exactly if it is wholly left. -/
theorem le_add_keepMillis_iff :
    t.atLeastUntil.nanos ≤ now.nanos + keepMillis t now * nanosPerMilli ↔ WhollyLeft t now := by
  rw [WhollyLeft, Instant.le_def]
  rcases keepMillis_cases t now with ⟨h, hk⟩ | ⟨h, hk⟩
  all_goals
    rw [hk]
    simp only [nanosPerMilli]
    omega

theorem isExpiry_keepMillis (arrival : Instant) (h : 0 < keepMillis t now) :
    IsExpiry arrival (keepMillis t now) := by
  refine ⟨h, ?_⟩
  have hnow := now.lower
  have harrival := arrival.upper
  have huntil := t.atLeastUntil.upper
  rcases keepMillis_cases t now with ⟨-, hk⟩ | ⟨-, hk⟩
  · omega
  · rw [hk]
    simp only [Instant.first, Instant.last, nanosPerSecond, nanosPerMilli] at hnow harrival huntil ⊢
    omega

/-! ### The key -/

section Server

variable {σ : Type} {srv : Server σ} (h : srv.Documented) {s : σ} {arrival : Instant} {key value : String}
include h

/-- The server has the key for the milliseconds that are sent. -/
theorem find_released (hnow : now ≤ arrival) (hfound : srv.find s arrival key = some value)
    (hdone : ¬srv.Fails s arrival (.run .release key value (keepMillis t now))) {later : Instant}
    (hlater : arrival ≤ later) (hlt : later.nanos < now.nanos + keepMillis t now * nanosPerMilli) :
    srv.find (srv.after s arrival (.run .release key value (keepMillis t now))) later key =
      some value := by
  rw [Instant.le_def] at hnow hlater
  have hpos : 0 < keepMillis t now := by
    simp only [nanosPerMilli] at hlt
    omega
  have hobeys := (h.obeys hdone).2
  rw [hfound, Script.deed_release_of_pos hpos] at hobeys
  exact hobeys (isExpiry_keepMillis arrival hpos) later hlater (by omega)

/-- With less than a millisecond left, the key is deleted. -/
theorem find_deleted (hfound : srv.find s arrival key = some value)
    (hdone : ¬srv.Fails s arrival (.run .release key value (keepMillis t now)))
    (hshort : t.atLeastUntil.nanos < now.nanos + nanosPerMilli) {later : Instant}
    (hlater : arrival ≤ later) :
    srv.find (srv.after s arrival (.run .release key value (keepMillis t now))) later key = none := by
  have hnone : keepMillis t now ≤ 0 := by
    rcases keepMillis_cases t now with ⟨-, hk⟩ | ⟨-, hk⟩
    · omega
    · rw [hk]
      simp only [nanosPerMilli] at hshort ⊢
      omega
  have hobeys := (h.obeys hdone).2
  rw [hfound, Script.deed_release_of_nonpos hnone] at hobeys
  exact hobeys later hlater

end Server

/-! ### The release -/

theorem asks_release {l : Lease} (hv : l.valid = true) (now : Instant) :
    (∃ next, l.release now = .ask (.run .release l.key l.value (keepMillis l.terms now)) next) ∧
      (l.release now).Asks fun c =>
        c = .run .release l.key l.value (keepMillis l.terms now) ∨ c = .load .release := by
  rw [Lease.release, if_pos hv]
  exact ⟨⟨_, rfl⟩, (asks_runScript _ _ _ _).map⟩

/-- **A release keeps the minimum** exactly if it is wholly left. The release of a valid lease sends the
release script with a number of milliseconds, and nothing else but the text of the script. These reach the
end of the minimum exactly if that is wholly left, and lack less than a millisecond otherwise. At a server
that has the key with the value of the lease when it obeys the script, the key stays until the end of the
minimum if this is wholly left, and in any case until less than a millisecond before it; but it is gone at
once if less than a millisecond is left. -/
theorem release_keeps_iff (l : Lease) (hv : l.valid = true) (now : Instant) :
    ∃ k : Int,
      ((∃ next, l.release now = .ask (.run .release l.key l.value k) next) ∧
        (l.release now).Asks fun c => c = .run .release l.key l.value k ∨ c = .load .release) ∧
      (l.terms.atLeastUntil.nanos ≤ now.nanos + k * nanosPerMilli ↔ WhollyLeft l.terms now) ∧
      l.terms.atLeastUntil.nanos < now.nanos + (k + 1) * nanosPerMilli ∧
      ∀ {σ : Type} (srv : Server σ), srv.Documented → ∀ s arrival, now ≤ arrival →
        srv.find s arrival l.key = some l.value →
        ¬srv.Fails s arrival (.run .release l.key l.value k) →
        let s' := srv.after s arrival (.run .release l.key l.value k)
        (WhollyLeft l.terms now → ∀ later, arrival ≤ later → later < l.terms.atLeastUntil →
          srv.find s' later l.key = some l.value) ∧
        (∀ later, arrival ≤ later → later.nanos + nanosPerMilli ≤ l.terms.atLeastUntil.nanos →
          srv.find s' later l.key = some l.value) ∧
        (l.terms.atLeastUntil.nanos < now.nanos + nanosPerMilli → ∀ later, arrival ≤ later →
          srv.find s' later l.key = none) := by
  have hshort := lt_add_keepMillis l.terms now
  refine ⟨keepMillis l.terms now, asks_release hv now, le_add_keepMillis_iff, hshort, ?_⟩
  intro σ srv h s arrival hnow hfound hdone
  refine ⟨?_, ?_, ?_⟩
  · intro hwhole later hlater hlt
    have hreach := le_add_keepMillis_iff.2 hwhole
    exact find_released h hnow hfound hdone hlater (Int.lt_of_lt_of_le hlt hreach)
  · intro later hlater hlt
    apply find_released h hnow hfound hdone hlater
    simp only [nanosPerMilli] at hlt hshort ⊢
    omega
  · intro hless later hlater
    exact find_deleted h hfound hdone hless hlater

/-- Terms with a minimum of nine tenths of a millisecond. -/
def sliver : Terms :=
  { Terms.early "job" Terms.job_ne with
    atLeastFor := ⟨900000, by decide, by decide⟩
    atLeastUntil := ⟨900000, by decide, by decide⟩
    atLeastFor_nonneg := by decide
    atLeastFor_le := by decide
    atLeastUntil_eq := by decide }

/-- A lease on terms, taken at the start of 1970. -/
def taken (t : Terms) : Lease := ⟨t, lockKey defaultEnvironment t.name, lockValue .epoch "node", true⟩

/-- After the release at once, a shelf that held the key has this under it at an instant. -/
def Leaves (l : Lease) (later : Instant) (found : Option String) : Prop :=
  ∃ k next, l.release .epoch = .ask (.run .release l.key l.value k) next ∧
    Shelf.server.find (Shelf.server.after (.holding l.key l.value) .epoch (.run .release l.key l.value k))
      later l.key = found

/-- Twenty seconds are kept when the lease is given back at once. Nine tenths of a millisecond are not: the
key is gone while they last. -/
theorem kept_and_gone :
    (WhollyLeft (.inSeconds 0 30 20) .epoch ∧
      Leaves (taken (.inSeconds 0 30 20)) (.second 19) (some (taken (.inSeconds 0 30 20)).value)) ∧
    ¬WhollyLeft sliver .epoch ∧ Instant.epoch < sliver.atLeastUntil ∧
      Leaves (taken sliver) .epoch none := by
  refine ⟨⟨by decide, ?_⟩, by decide, by decide, ?_⟩
  · obtain ⟨k, ⟨⟨next, hsent⟩, -⟩, -, -, hserver⟩ :=
      release_keeps_iff (taken (.inSeconds 0 30 20)) rfl .epoch
    have hkept := hserver Shelf.server Shelf.documented _ .epoch (Int.le_refl _) (Shelf.find_holding _ _)
      (Shelf.not_fails_run List.mem_cons_self)
    exact ⟨k, next, hsent, hkept.1 (by decide) (.second 19) (by decide) (by decide)⟩
  · obtain ⟨k, ⟨⟨next, hsent⟩, -⟩, -, -, hserver⟩ := release_keeps_iff (taken sliver) rfl .epoch
    have hgone := hserver Shelf.server Shelf.documented _ .epoch (Int.le_refl _) (Shelf.find_holding _ _)
      (Shelf.not_fails_run List.mem_cons_self)
    exact ⟨k, next, hsent, hgone.2.2 (by decide) .epoch (Int.le_refl _)⟩

end LeaseLock.Redis
