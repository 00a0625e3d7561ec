import LeaseLock.Proofs.LedgerCrews

/-!
# Attempts to take a lock

An attempt makes two calls if there is an entry. Creating the entry fails then without a look at
the clock, so it is the second call, which claims the entry, that counts (`Claiming`).

While nobody gives back or extends the lease of an entry, and no attempt looks at a clock at which
it is over, the entry stays as it is (`Sane.entry_play`). So the end that is written down decides on
attempts, whatever it is written on (`Sane.decided`).
-/

namespace LeaseLock
namespace Crew

variable {σ ε : Type} {S : LedgerService σ ε} {f : Crew σ} {k : Nat} {n : String} {m : Move}
  {x : Holding ε}

/-- The move neither gives back nor extends a lease of the name. -/
def Untouched (n : String) (f : Crew σ) : Move → Prop
  | .call k => ∀ l ∈ f.worked k, l.terms.name ≠ n
  | _ => True

/-- No attempt to claim the lock of a name looks at a clock that is late in the move. -/
def Early (n : String) (late : Instant → Bool) (f : Crew σ) : Move → Prop
  | .call k => f.Claiming n k → late f.now = false
  | _ => True

instance (n : String) (f : Crew σ) : (m : Move) → Decidable (Untouched n f m)
  | .tick _ => inferInstanceAs (Decidable True)
  | .start _ _ => inferInstanceAs (Decidable True)
  | .call k => inferInstanceAs (Decidable (∀ l ∈ f.worked k, l.terms.name ≠ n))

/-! ### The entry stays as it is -/

/-- An entry stays as it is in a move that does not touch the leases of its name, and in which
nobody claims it in time. -/
theorem entry_step {f g : Crew (Ledger ε)} {R : Rule ε} (he : Effect (Ledger.serve R) f m g)
    (hx : f.store n = some x) (hu : Untouched n f m) (hm : Early n (R.isOver x.ends) f m) :
    g.store n = some x := by
  cases he with
  | nothing | ticked | started | failed => exact hx
  | found k holder t s hp hs =>
    obtain ⟨rfl, -⟩ := Ledger.of_found hs
    exact hx
  | taken k holder t s ht =>
    obtain ⟨rfl, hover⟩ := ledger_of_taken ht
    have hne : n ≠ t.name := by
      rintro rfl
      obtain ⟨hc, ho⟩ := hover x hx
      exact Bool.eq_false_iff.1 (hm hc) ho
    exact (Ledger.write_of_ne hne _ _).trans hx
  | refused k holder t s hp hs =>
    obtain rfl := Ledger.of_refused hs
    exact hx
  | released k h l s hp hl hv hs =>
    obtain rfl := Ledger.of_released hs
    have hne : n ≠ l.terms.name := (hu l (worked_of_pending hp rfl hl)).symm
    cases hr : f.store l.terms.name with
    | none => exact (congrFun (Ledger.release_of_none hr) n).trans hx
    | some y =>
      exact (congrFun (Ledger.release_of_some hr) n).trans ((Ledger.write_of_ne hne _ _).trans hx)
  | extended k h d e l t s hp hl hv hn hs =>
    obtain ⟨y, -, -, -, rfl⟩ := Ledger.of_extended hs
    have hne : n ≠ t.name := hn ▸ (hu l (worked_of_pending hp rfl hl)).symm
    exact (Ledger.write_of_ne hne _ _).trans hx
  | lost k h d e l t s hp hl hv hn hs =>
    obtain rfl := Ledger.of_lost hs
    exact hx

theorem Sane.entry_play (hf : f.Sane S) (hx : S.ledger f.store n = some x) {ns : List Move}
    (hu : Along S.serve (Untouched n) f ns)
    (he : Along S.serve (Early n (S.rule.isOver x.ends)) f ns) :
    S.ledger (f.play S.serve ns).store n = some x := by
  induction ns generalizing f with
  | nil => exact hx
  | cons m ns ih =>
    exact ih (hf.step m) (entry_step (hf.effect m) hx hu.1 he.1) hu.2 he.2

/-! ### What attempts come to -/

/-- An attempt is about to create the entry, or has found one and is about to claim it. -/
theorem Sound.attempting_cases (hf : f.Sound) (hk : f.Attempting n k) :
    (∃ holder t, f.pending.get? k = some (.inserting holder t) ∧ t.name = n ∧ ¬f.Claiming n k) ∨
    (∃ holder t, f.pending.get? k = some (.claiming holder t) ∧ t.name = n ∧ f.Claiming n k) := by
  cases hp : f.pending.get? k with
  | none =>
    rw [Attempting, hp] at hk
    cases hk
  | some p =>
    rw [Attempting, hp] at hk
    cases hf.stage hp with
    | inserting holder t =>
      have hn : t.name = n := of_decide_eq_true hk
      refine .inl ⟨holder, t, rfl, hn, ?_⟩
      rw [Claiming, hp]
      exact Bool.false_ne_true
    | claiming holder t =>
      have hn : t.name = n := of_decide_eq_true hk
      exact .inr ⟨holder, t, rfl, hn, (claiming_iff hp).2 hn⟩
    | releasing | extending => cases hk

/-- An attempt that finds no entry gets the lock. -/
theorem Sane.call_of_none (hf : f.Sane S) (hx : S.ledger f.store n = none)
    (hk : f.Attempting n k) :
    (f.step S.serve (.call k)).log = (k, .locked true) :: f.log := by
  obtain ⟨holder, t, hp, rfl, -⟩ | ⟨holder, t, -, -, hc⟩ := hf.sound.attempting_cases hk
  · obtain ⟨s, hs, -⟩ := hf.serve_eq (c := ⟨.insert, holder, t⟩) (Ledger.insert_of_none hx)
    rw [call_taken (.inl ⟨hp, hs⟩)]
  · obtain ⟨x, hx'⟩ := hf.backed n k hc
    cases hx.symm.trans hx'

/-- An attempt that looks at the clock gets the lock if the lease is over. -/
theorem Sane.call_of_claiming (hf : f.Sane S) (hx : S.ledger f.store n = some x)
    (hk : f.Attempting n k) (hc : f.Claiming n k) :
    (f.step S.serve (.call k)).log = (k, .locked (S.rule.isOver x.ends f.now)) :: f.log := by
  obtain ⟨holder, t, -, -, hn⟩ | ⟨holder, t, hp, rfl, -⟩ := hf.sound.attempting_cases hk
  · exact (hn hc).elim
  · cases ho : S.rule.isOver x.ends f.now with
    | true =>
      obtain ⟨s, hs, -⟩ := hf.serve_eq (c := ⟨.claim, holder, t⟩) (Ledger.claim_of_over hx ho)
      rw [call_taken (.inr ⟨hp, hs⟩)]
    | false =>
      have hrun : ∀ y, S.ledger f.store t.name = some y → S.rule.isOver y.ends f.now = false := by
        intro y hy
        cases hx.symm.trans hy
        exact ho
      obtain ⟨s, hs, -⟩ := hf.serve_eq (c := ⟨.claim, holder, t⟩) (Ledger.claim_of_running hrun)
      rw [call_refused hp hs]

/-- An attempt that finds an entry, and has not looked at the clock, goes on to do that. -/
theorem Sane.call_of_not_claiming (hf : f.Sane S) (hx : S.ledger f.store n = some x)
    (hk : f.Attempting n k) (hc : ¬f.Claiming n k) :
    (f.step S.serve (.call k)).log = f.log ∧ (f.step S.serve (.call k)).Claiming n k := by
  obtain ⟨holder, t, hp, rfl, -⟩ | ⟨holder, t, -, -, hn⟩ := hf.sound.attempting_cases hk
  · obtain ⟨s, hs, -⟩ := hf.serve_eq (c := ⟨.insert, holder, t⟩) (Ledger.insert_of_some hx)
    rw [call_found hp hs]
    exact ⟨rfl, (claiming_iff (Registry.get?_put_self k _ _)).2 rfl⟩
  · exact (hc hn).elim

/-- What is written down of a lock that was just taken. -/
theorem Sane.entry_of_taken (hf : f.Sane S)
    (ht : (f.step S.serve (.call k)).log = (k, .locked true) :: f.log) {l : Lease}
    (hl : (f.step S.serve (.call k)).leases.get? k = some l) :
    S.ledger (f.step S.serve (.call k)).store l.terms.name =
      some (S.rule.taken l.terms l.holder f.now) := by
  have he := hf.effect (.call k)
  have ht' : ((f.step S.serve (.call k)).atLedger S).log = (k, .locked true) :: f.log := ht
  have hl' : ((f.step S.serve (.call k)).atLedger S).leases.get? k = some l := hl
  show ((f.step S.serve (.call k)).atLedger S).store _ = _
  generalize (f.step S.serve (.call k)).atLedger S = g at he ht' hl' ⊢
  cases he with
  | nothing | found => exact (List.cons_ne_self _ _ ht'.symm).elim
  | refused | released | extended | lost => cases ht'
  | taken k holder t s ht =>
    obtain ⟨rfl, -⟩ := ledger_of_taken ht
    cases (Registry.get?_put_self k _ _).symm.trans hl'
    exact Ledger.write_self _ _ _

/-- **The end that is written down decides on attempts.** As long as nobody gives the lease of an
entry back or extends it, and no attempt has looked at a clock at which it is over, an attempt gets
the lock exactly if it looks at such a clock, which it does in its last call. -/
theorem Sane.decided (hf : f.Sane S) (hx : S.ledger f.store n = some x) {ns : List Move}
    (hu : Along S.serve (Untouched n) f ns)
    (he : Along S.serve (Early n (S.rule.isOver x.ends)) f ns) :
    let g := f.play S.serve ns
    S.ledger g.store n = some x ∧ ∀ j, g.Attempting n j →
      (g.Claiming n j →
        (g.step S.serve (.call j)).log = (j, .locked (S.rule.isOver x.ends g.now)) :: g.log) ∧
      (¬g.Claiming n j → (g.step S.serve (.call j)).log = g.log ∧
        (g.step S.serve (.call j)).Claiming n j) := by
  intro g
  have hgx : S.ledger g.store n = some x := hf.entry_play hx hu he
  exact ⟨hgx, fun j hj =>
    ⟨(hf.play ns).call_of_claiming hgx hj, (hf.play ns).call_of_not_claiming hgx hj⟩⟩

end Crew
end LeaseLock
