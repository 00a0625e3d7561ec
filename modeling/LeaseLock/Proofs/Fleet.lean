import LeaseLock.Proofs.Crew
import LeaseLock.Proofs.StoreCalls

/-!
# Nodes that share a store in memory

A fleet is a crew at the store in memory. So all that is shown of crews holds of fleets; what is
left to say is what the answers of the store tell of its records.
-/

namespace LeaseLock

/-! ### What the answers of the store tell -/

namespace Store

variable {s s' : Store} {now : Instant} {holder : String} {t : Terms}

/-- Calls on the store in memory. -/
def serve : Serve Store := .ofPerform Store.perform

theorem serve_eq_iff {c : Call} {a : c.kind.Result} :
    Store.serve s now c = (.ok a, s') ↔ s.perform now c = (a, s') := Serve.ofPerform_eq_iff

theorem reliable : Store.serve.Reliable := by
  refine Serve.reliable_ofPerform fun s now holder t => ?_
  rw [perform]
  intro hu
  obtain ⟨_, -, -, -, h⟩ | ⟨-, h⟩ := s.extend_cases holder now t
  · cases (congrArg Prod.fst h).symm.trans hu
  · cases (congrArg Prod.fst h).symm.trans hu

/-- A record that could not be created is there. -/
theorem of_found (h : Store.serve s now ⟨.insert, holder, t⟩ = (.ok false, s')) :
    s' = s ∧ ∃ r, s.get? t.name = some r := by
  obtain ⟨-, hs⟩ | ⟨r, hr, hs⟩ := s.insert_cases holder now t
  · cases hs.symm.trans (serve_eq_iff.1 h)
  · cases hs.symm.trans (serve_eq_iff.1 h)
    exact ⟨rfl, r, hr⟩

theorem of_created (h : Store.serve s now ⟨.insert, holder, t⟩ = (.ok true, s')) :
    s' = s.put t.name ⟨t.atMostUntil, now, holder⟩ ∧ s.get? t.name = none := by
  obtain ⟨hr, hs⟩ | ⟨r, -, hs⟩ := s.insert_cases holder now t
  · cases hs.symm.trans (serve_eq_iff.1 h)
    exact ⟨rfl, hr⟩
  · cases hs.symm.trans (serve_eq_iff.1 h)

theorem of_claimed (h : Store.serve s now ⟨.claim, holder, t⟩ = (.ok true, s')) :
    s' = s.put t.name ⟨t.atMostUntil, now, holder⟩ ∧
      ∃ r, s.get? t.name = some r ∧ r.lockUntil ≤ now := by
  obtain ⟨r, hr, hu, hs⟩ | ⟨-, hs⟩ := s.claim_cases holder now t
  · cases hs.symm.trans (serve_eq_iff.1 h)
    exact ⟨rfl, r, hr, hu⟩
  · cases hs.symm.trans (serve_eq_iff.1 h)

theorem of_refused (h : Store.serve s now ⟨.claim, holder, t⟩ = (.ok false, s')) : s' = s := by
  obtain ⟨r, -, -, hs⟩ | ⟨-, hs⟩ := s.claim_cases holder now t
  · cases hs.symm.trans (serve_eq_iff.1 h)
  · cases hs.symm.trans (serve_eq_iff.1 h)
    rfl

theorem of_released (h : Store.serve s now ⟨.release, holder, t⟩ = (.ok (), s')) :
    s' = s.release now t := (congrArg Prod.snd (serve_eq_iff.1 h)).symm

/-- The record of a lease that was extended ran for its holder, and has the new end. -/
theorem of_extended (h : Store.serve s now ⟨.extend, holder, t⟩ = (.ok .extended, s')) :
    ∃ r, s.get? t.name = some r ∧ r.lockedBy = holder ∧ now < r.lockUntil ∧
      s' = s.put t.name { r with lockUntil := t.atMostUntil } := by
  obtain ⟨r, hr, hb, hu, hs⟩ | ⟨-, hs⟩ := s.extend_cases holder now t
  · cases hs.symm.trans (serve_eq_iff.1 h)
    exact ⟨r, hr, hb, hu, rfl⟩
  · cases hs.symm.trans (serve_eq_iff.1 h)

theorem of_lost (h : Store.serve s now ⟨.extend, holder, t⟩ = (.ok .lost, s')) : s' = s := by
  obtain ⟨r, -, -, -, hs⟩ | ⟨-, hs⟩ := s.extend_cases holder now t
  · cases hs.symm.trans (serve_eq_iff.1 h)
  · cases hs.symm.trans (serve_eq_iff.1 h)
    rfl

end Store

/-! ### Fleets -/

/-- Nodes at a store in memory. -/
abbrev Fleet := Crew Store

namespace Fleet

/-- Makes a move. -/
def step (f : Fleet) (m : Move) : Fleet := Crew.step Store.serve f m

/-- Makes moves one after the other. -/
def play (f : Fleet) (ms : List Move) : Fleet := Crew.play Store.serve f ms

/-- Nodes at a store that have done nothing yet. -/
def fresh (s : Store) (c : Clock) : Fleet := Crew.fresh s c

@[simp] theorem play_nil (f : Fleet) : f.play [] = f := rfl

@[simp] theorem play_cons (f : Fleet) (m : Move) (ms : List Move) :
    f.play (m :: ms) = (f.step m).play ms := rfl

variable {f : Fleet} {k : Nat} {holder : String} {t : Terms} {s : Store}

/-- All that a move can do to a fleet. -/
theorem effect (hf : f.Sound) (m : Move) : Crew.Effect Store.serve f m (f.step m) :=
  hf.effect Store.reliable m

/-- A lock is taken where no lease runs that is on record. -/
theorem store_of_taken (ht : f.Takes Store.serve k holder t s) :
    s = f.store.put t.name ⟨t.atMostUntil, f.now, holder⟩ ∧
      ∀ r, f.store.get? t.name = some r → r.lockUntil ≤ f.now := by
  obtain ⟨-, hs⟩ | ⟨-, hs⟩ := ht
  · obtain ⟨rfl, hr⟩ := Store.of_created hs
    exact ⟨rfl, fun r hr' => nomatch hr.symm.trans hr'⟩
  · obtain ⟨rfl, r, hr, hu⟩ := Store.of_claimed hs
    refine ⟨rfl, fun r' hr' => ?_⟩
    cases hr.symm.trans hr'
    exact hu

end Fleet
end LeaseLock
