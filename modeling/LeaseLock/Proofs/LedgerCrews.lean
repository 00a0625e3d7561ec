import LeaseLock.Proofs.Ledger

/-!
# Nodes that share a ledger service

A crew at a ledger service does what one at its ledger does (`step_ledger`, `play_ledger`). So what
moves do to the entries is found out at ledgers, where each answer tells what the call did, and
holds at the store in memory and at lock tables alike.

A crew is sane if its service works, its jobs are in their stages, and whoever is about to claim an
entry has one to claim (`Sane`). Every run from a fresh crew is, as no entry is ever taken away.
-/

namespace LeaseLock

/-! ### What the answers of a ledger tell -/

namespace Ledger

variable {ε : Type} {R : Rule ε} {L L' : Ledger ε} {now : Instant} {holder n : String} {t : Terms}
  {x : Holding ε}

theorem serve_eq_iff {c : Call} {a : c.kind.Result} :
    Ledger.serve R L now c = (.ok a, L') ↔ L.perform R now c = (a, L') := Serve.ofPerform_eq_iff

theorem reliable (R : Rule ε) : (Ledger.serve R).Reliable := by
  refine Serve.reliable_ofPerform fun L now holder t => ?_
  rw [perform, extend]
  intro hu
  split at hu
  · split at hu
    · cases hu
    · cases hu
  · cases hu

/-- An entry that could not be created is there. -/
theorem of_found (h : Ledger.serve R L now ⟨.insert, holder, t⟩ = (.ok false, L')) :
    L' = L ∧ ∃ x, L t.name = some x := by
  have h := serve_eq_iff.1 h
  rw [perform] at h
  cases hx : L t.name with
  | none => cases (insert_of_none hx).symm.trans h
  | some x => cases (insert_of_some hx).symm.trans h; exact ⟨rfl, x, rfl⟩

theorem of_created (h : Ledger.serve R L now ⟨.insert, holder, t⟩ = (.ok true, L')) :
    L' = L.write t.name (R.taken t holder now) ∧ L t.name = none := by
  have h := serve_eq_iff.1 h
  rw [perform] at h
  cases hx : L t.name with
  | none => cases (insert_of_none hx).symm.trans h; exact ⟨rfl, rfl⟩
  | some x => cases (insert_of_some hx).symm.trans h

theorem of_claimed (h : Ledger.serve R L now ⟨.claim, holder, t⟩ = (.ok true, L')) :
    L' = L.write t.name (R.taken t holder now) ∧
      ∃ x, L t.name = some x ∧ R.isOver x.ends now = true := by
  have h := serve_eq_iff.1 h
  rw [perform] at h
  by_cases ho : ∃ x, L t.name = some x ∧ R.isOver x.ends now = true
  · obtain ⟨x, hx, hover⟩ := ho
    cases (claim_of_over hx hover).symm.trans h
    exact ⟨rfl, x, hx, hover⟩
  · cases (claim_of_running fun x hx => Bool.eq_false_iff.2 fun e => ho ⟨x, hx, e⟩).symm.trans h

theorem of_refused (h : Ledger.serve R L now ⟨.claim, holder, t⟩ = (.ok false, L')) : L' = L := by
  have h := serve_eq_iff.1 h
  rw [perform] at h
  by_cases ho : ∃ x, L t.name = some x ∧ R.isOver x.ends now = true
  · obtain ⟨x, hx, hover⟩ := ho
    cases (claim_of_over hx hover).symm.trans h
  · cases (claim_of_running fun x hx => Bool.eq_false_iff.2 fun e => ho ⟨x, hx, e⟩).symm.trans h
    rfl

theorem of_released (h : Ledger.serve R L now ⟨.release, holder, t⟩ = (.ok (), L')) :
    L' = L.release R now t := (congrArg Prod.snd (serve_eq_iff.1 h)).symm

/-- The entry of a lease that was extended was its holder's and not over, and has the new end. -/
theorem of_extended (h : Ledger.serve R L now ⟨.extend, holder, t⟩ = (.ok .extended, L')) :
    ∃ x, L t.name = some x ∧ x.holder = holder ∧ R.isOver x.ends now = false ∧
      L' = L.write t.name (R.ending t.atMostUntil x) := by
  have h := serve_eq_iff.1 h
  rw [perform] at h
  by_cases ho : ∃ x, L t.name = some x ∧ x.holder = holder ∧ R.isOver x.ends now = false
  · obtain ⟨x, hx, hb, hover⟩ := ho
    cases (extend_of_own hx hb hover).symm.trans h
    exact ⟨x, hx, hb, hover, rfl⟩
  · cases (extend_of_lost fun x hx e => ho ⟨x, hx, e⟩).symm.trans h

theorem of_lost (h : Ledger.serve R L now ⟨.extend, holder, t⟩ = (.ok .lost, L')) : L' = L := by
  have h := serve_eq_iff.1 h
  rw [perform] at h
  by_cases ho : ∃ x, L t.name = some x ∧ x.holder = holder ∧ R.isOver x.ends now = false
  · obtain ⟨x, hx, hb, hover⟩ := ho
    cases (extend_of_own hx hb hover).symm.trans h
  · cases (extend_of_lost fun x hx e => ho ⟨x, hx, e⟩).symm.trans h
    rfl

/-- What is entered stays entered. -/
theorem exists_write (hx : L n = some x) (j : String) (y : Holding ε) :
    ∃ z, L.write j y n = some z := by
  rw [write]
  split
  · exact ⟨y, rfl⟩
  · exact ⟨x, hx⟩

end Ledger

namespace Crew

/-! ### Moves at a ledger -/

section Moves

variable {ε : Type} {R : Rule ε} {f g : Crew (Ledger ε)} {k : Nat} {holder n : String} {t : Terms}
  {L : Ledger ε} {x : Holding ε} {m : Move}

/-- A lock is taken where no lease runs that is entered. One that is entered is claimed. -/
theorem ledger_of_taken (ht : f.Takes (Ledger.serve R) k holder t L) :
    L = f.store.write t.name (R.taken t holder f.now) ∧
      ∀ x, f.store t.name = some x → f.Claiming t.name k ∧ R.isOver x.ends f.now = true := by
  obtain ⟨-, hs⟩ | ⟨hp, hs⟩ := ht
  · obtain ⟨rfl, hx⟩ := Ledger.of_created hs
    exact ⟨rfl, fun x hx' => nomatch hx.symm.trans hx'⟩
  · obtain ⟨rfl, x, hx, ho⟩ := Ledger.of_claimed hs
    refine ⟨rfl, fun y hy => ⟨(claiming_iff hp).2 rfl, ?_⟩⟩
    cases hx.symm.trans hy
    exact ho

/-- No entry is ever taken away. -/
theorem Effect.entries (he : Effect (Ledger.serve R) f m g) (hx : f.store n = some x) :
    ∃ y, g.store n = some y := by
  cases he with
  | nothing | ticked | started | failed => exact ⟨x, hx⟩
  | found k holder t s hp hs =>
    obtain ⟨rfl, -⟩ := Ledger.of_found hs
    exact ⟨x, hx⟩
  | taken k holder t s ht =>
    obtain ⟨rfl, -⟩ := ledger_of_taken ht
    exact Ledger.exists_write hx _ _
  | refused k holder t s hp hs =>
    obtain rfl := Ledger.of_refused hs
    exact ⟨x, hx⟩
  | released k h l s hp hl hv hs =>
    obtain rfl := Ledger.of_released hs
    cases hr : f.store l.terms.name with
    | none => exact ⟨x, (congrFun (Ledger.release_of_none hr) n).trans hx⟩
    | some y =>
      obtain ⟨z, hz⟩ := Ledger.exists_write hx l.terms.name (R.ending (l.terms.releaseAt f.now) y)
      exact ⟨z, (congrFun (Ledger.release_of_some hr) n).trans hz⟩
  | extended k h d e l t s hp hl hv hn hs =>
    obtain ⟨y, -, -, -, rfl⟩ := Ledger.of_extended hs
    exact Ledger.exists_write hx _ _
  | lost k h d e l t s hp hl hv hn hs =>
    obtain rfl := Ledger.of_lost hs
    exact ⟨x, hx⟩

/-- Whoever is about to claim an entry has one to claim. -/
def Backed (f : Crew (Ledger ε)) : Prop :=
  ∀ n k, f.Claiming n k → ∃ x, f.store n = some x

theorem Backed.of_effect (hf : f.Backed) (he : Effect (Ledger.serve R) f m g) : g.Backed := by
  intro n k hc
  have hkeep : ∀ {n x}, f.store n = some x → ∃ y, g.store n = some y := he.entries
  have hold : f.Claiming n k → ∃ y, g.store n = some y := by
    intro hc
    obtain ⟨x, hx⟩ := hf n k hc
    exact hkeep hx
  have hput : ∀ {j p}, ((f.pending.put j p).get? k).any (·.claims n) = true →
      p.claims n = true ∨ f.Claiming n k := by
    intro j p hc
    rw [Registry.get?_put] at hc
    split at hc
    · exact .inl hc
    · exact .inr hc
  have herase : ∀ {j}, ((f.pending.erase j).get? k).any (·.claims n) = true → f.Claiming n k := by
    intro j hc
    rw [Registry.get?_erase] at hc
    split at hc
    · cases hc
    · exact hc
  cases he with
  | nothing | ticked => exact hold hc
  | started j p hk hl hfree hp hnot =>
    obtain hp | hc := hput hc
    · cases (hnot n).symm.trans hp
    · exact hold hc
  | failed j job e ls hl ps hp =>
    refine hold ?_
    rw [Claiming, ← hp k]
    exact hc
  | found j holder t s hp hs =>
    obtain hn | hc := hput hc
    · obtain ⟨rfl, x, hx⟩ := Ledger.of_found hs
      exact ⟨x, of_decide_eq_true hn ▸ hx⟩
    · exact hold hc
  | taken | refused | released | extended | lost => exact hold (herase hc)

end Moves

/-! ### Crews at ledger services -/

section Ledgers

variable {σ ε : Type} {S : LedgerService σ ε} {f : Crew σ}

/-- The crew at the ledger of its service. -/
def atLedger (S : LedgerService σ ε) (f : Crew σ) : Crew (Ledger ε) := f.on (S.ledger f.store)

/-- **One move** at a ledger service is a move at its ledger. -/
theorem step_ledger (hw : S.Works f.store) (m : Move) :
    (f.step S.serve m).atLedger S = (f.atLedger S).step (Ledger.serve S.rule) m ∧
      S.Works (f.step S.serve m).store := by
  obtain ⟨L, hstep, hw', hL⟩ := step_on (m := m) S.serve (Ledger.serve S.rule)
    (fun s L => S.Works s ∧ S.ledger s = L) ⟨hw, rfl⟩ fun c _ => by
      obtain ⟨s', hserve, hw', hs'⟩ := S.keeps hw f.now c
      rw [hserve]
      exact ⟨rfl, hw', hs'⟩
  exact ⟨by rw [atLedger, hL, ← hstep, atLedger], hw'⟩

/-- **A run at a ledger service** is a run at its ledger. -/
theorem play_ledger (hw : S.Works f.store) (ms : List Move) :
    (f.play S.serve ms).atLedger S = (f.atLedger S).play (Ledger.serve S.rule) ms ∧
      S.Works (f.play S.serve ms).store := by
  induction ms generalizing f with
  | nil => exact ⟨rfl, hw⟩
  | cons m ms ih =>
    obtain ⟨hstep, hw'⟩ := step_ledger hw m
    rw [play_cons, play_cons, ← hstep]
    exact ih hw'

/-- What all moves of a run at the ledger are like, those at the service are. -/
theorem Along.of_ledger {P : Crew σ → Move → Prop} {Q : Crew (Ledger ε) → Move → Prop}
    (hPQ : ∀ f m, Q (f.atLedger S) m → P f m) (hw : S.Works f.store) {ms : List Move}
    (h : Along (Ledger.serve S.rule) Q (f.atLedger S) ms) : Along S.serve P f ms := by
  induction ms generalizing f with
  | nil => trivial
  | cons m ms ih =>
    obtain ⟨hstep, hw'⟩ := step_ledger hw m
    exact ⟨hPQ f m h.1, ih hw' (hstep ▸ h.2)⟩

/-- A crew at a service that works, with jobs in their stages, and with entries for those that are
about to be claimed. -/
structure Sane (S : LedgerService σ ε) (f : Crew σ) : Prop where
  works : S.Works f.store
  sound : f.Sound
  backed : (f.atLedger S).Backed

theorem sane_fresh {s : σ} (hs : S.Works s) (c : Clock) : (fresh s c).Sane S where
  works := hs
  sound := sound_fresh s c
  backed := fun _ _ h => nomatch h

/-- The service answers a call as its ledger does, and has the new ledger written down then. -/
theorem Sane.serve_eq (hf : f.Sane S) {now : Instant} {c : Call} {a : c.kind.Result} {L : Ledger ε}
    (h : (S.ledger f.store).perform S.rule now c = (a, L)) :
    ∃ s, S.serve f.store now c = (.ok a, s) ∧ S.ledger s = L := by
  obtain ⟨s, hs, -, hL⟩ := S.keeps hf.works now c
  rw [h] at hs hL
  exact ⟨s, hs, hL⟩

/-- All that a move can do at a ledger service. -/
theorem Sane.effect (hf : f.Sane S) (m : Move) :
    Effect (Ledger.serve S.rule) (f.atLedger S) m ((f.step S.serve m).atLedger S) := by
  rw [(step_ledger hf.works m).1]
  exact (hf.sound.on (S.ledger f.store)).effect (Ledger.reliable S.rule) m

theorem Sane.step (hf : f.Sane S) (m : Move) : (f.step S.serve m).Sane S where
  works := (step_ledger hf.works m).2
  sound := ((hf.sound.on (S.ledger f.store)).of_effect (hf.effect m)).on (f.step S.serve m).store
  backed := hf.backed.of_effect (hf.effect m)

theorem Sane.play (hf : f.Sane S) (ms : List Move) : (f.play S.serve ms).Sane S := by
  induction ms generalizing f with
  | nil => exact hf
  | cons m ms ih => exact ih (hf.step m)

end Ledgers

end Crew

/-! ### Fleets -/

namespace Fleet

variable {f : Fleet} {k : Nat} {holder : String} {t : Terms}

/-- Fleets are sane. -/
theorem sane_play (s : Store) (c : Clock) (ms : List Move) :
    ((fresh s c).play ms).Sane .memory :=
  (Crew.sane_fresh (S := .memory) trivial c).play ms

/-- The record that a job is about to claim is there. -/
theorem record_of_claiming (hf : f.Sane .memory)
    (hp : f.pending.get? k = some (.claiming holder t)) : ∃ r, f.store.get? t.name = some r := by
  obtain ⟨x, hx⟩ := hf.backed t.name k ((Crew.claiming_iff hp).2 rfl)
  obtain ⟨r, hr, -⟩ := Option.map_eq_some_iff.1 hx
  exact ⟨r, hr⟩

end Fleet
end LeaseLock
