import LeaseLock.Store.Memory

/-!
# What storage calls do to the store in memory

One equation for each way a call can go, and for each call the list of these ways. Everything that
is shown of runs on a store goes back to them: the calls themselves are opened here only.

A record that is there is never taken away again (`exists_get?_perform`), and a call touches no
record but the one of its own name (`get?_perform_of_ne`).
-/

namespace LeaseLock
namespace Store

variable {s : Store} {holder n : String} {now : Instant} {t : Terms} {r : Record}

/-! ### One way at a time -/

theorem insert_of_none (h : s.get? t.name = none) :
    s.insert holder now t = (true, s.put t.name ⟨t.atMostUntil, now, holder⟩) := by
  simp only [insert, h]

theorem insert_of_some (h : s.get? t.name = some r) : s.insert holder now t = (false, s) := by
  simp only [insert, h]

theorem claim_of_none (h : s.get? t.name = none) : s.claim holder now t = (false, s) := by
  simp only [claim, h]

theorem claim_of_lapsed (h : s.get? t.name = some r) (hr : r.lockUntil ≤ now) :
    s.claim holder now t = (true, s.put t.name ⟨t.atMostUntil, now, holder⟩) := by
  simp only [claim, h, if_pos hr]

theorem claim_of_running (h : s.get? t.name = some r) (hr : now < r.lockUntil) :
    s.claim holder now t = (false, s) := by
  simp only [claim, h, if_neg (Instant.not_le.2 hr)]

theorem release_of_none (h : s.get? t.name = none) : s.release now t = s := by
  simp only [release, h]

theorem release_of_some (h : s.get? t.name = some r) :
    s.release now t = s.put t.name { r with lockUntil := t.releaseAt now } := by
  simp only [release, h]

theorem extend_of_own (h : s.get? t.name = some r) (hb : r.lockedBy = holder)
    (hr : now < r.lockUntil) :
    s.extend holder now t = (.extended, s.put t.name { r with lockUntil := t.atMostUntil }) := by
  simp only [extend, h, if_pos (And.intro hb hr)]

theorem extend_of_lapsed (h : s.get? t.name = some r) (hr : r.lockUntil ≤ now) :
    s.extend holder now t = (.lost, s) := by
  simp only [extend, h, if_neg fun hn : _ ∧ _ => Instant.not_le.2 hn.2 hr]

theorem extend_of_other (h : s.get? t.name = some r) (hb : r.lockedBy ≠ holder) :
    s.extend holder now t = (.lost, s) := by
  simp only [extend, h, if_neg fun hn : _ ∧ _ => hb hn.1]

theorem extend_of_none (h : s.get? t.name = none) : s.extend holder now t = (.lost, s) := by
  simp only [extend, h]

/-! ### All the ways of a call -/

/-- A record is created where there was none, or nothing happens to the one that is there. -/
theorem insert_cases (s : Store) (holder : String) (now : Instant) (t : Terms) :
    (s.get? t.name = none ∧
      s.insert holder now t = (true, s.put t.name ⟨t.atMostUntil, now, holder⟩)) ∨
    (∃ r, s.get? t.name = some r ∧ s.insert holder now t = (false, s)) := by
  cases h : s.get? t.name with
  | none => exact .inl ⟨rfl, insert_of_none h⟩
  | some r => exact .inr ⟨r, rfl, insert_of_some h⟩

/-- A record whose lease has lapsed is claimed, or nothing happens. -/
theorem claim_cases (s : Store) (holder : String) (now : Instant) (t : Terms) :
    (∃ r, s.get? t.name = some r ∧ r.lockUntil ≤ now ∧
      s.claim holder now t = (true, s.put t.name ⟨t.atMostUntil, now, holder⟩)) ∨
    ((∀ r, s.get? t.name = some r → now < r.lockUntil) ∧ s.claim holder now t = (false, s)) := by
  cases h : s.get? t.name with
  | none => exact .inr ⟨fun _ e => (nomatch e), claim_of_none h⟩
  | some r =>
    by_cases hr : r.lockUntil ≤ now
    · exact .inl ⟨r, rfl, hr, claim_of_lapsed h hr⟩
    · have hr' := Instant.not_le.1 hr
      exact .inr ⟨fun _ e => by cases e; exact hr', claim_of_running h hr'⟩

/-- The end of a lease that still runs is moved for its holder, or nothing happens. -/
theorem extend_cases (s : Store) (holder : String) (now : Instant) (t : Terms) :
    (∃ r, s.get? t.name = some r ∧ r.lockedBy = holder ∧ now < r.lockUntil ∧
      s.extend holder now t = (.extended, s.put t.name { r with lockUntil := t.atMostUntil })) ∨
    ((∀ r, s.get? t.name = some r → r.lockedBy = holder → r.lockUntil ≤ now) ∧
      s.extend holder now t = (.lost, s)) := by
  cases h : s.get? t.name with
  | none => exact .inr ⟨fun _ e => (nomatch e), extend_of_none h⟩
  | some r =>
    by_cases hb : r.lockedBy = holder
    · by_cases hr : now < r.lockUntil
      · exact .inl ⟨r, rfl, hb, hr, extend_of_own h hb hr⟩
      · have hr' := Instant.not_lt.1 hr
        exact .inr ⟨fun _ e _ => by cases e; exact hr', extend_of_lapsed h hr'⟩
    · exact .inr ⟨fun _ e hb' => by cases e; exact (hb hb').elim, extend_of_other h hb⟩

/-- A call leaves the store as it is, or puts a record under its own name. -/
theorem perform_cases (s : Store) (now : Instant) (c : Call) :
    (s.perform now c).2 = s ∨ ∃ r, (s.perform now c).2 = s.put c.terms.name r := by
  obtain ⟨kind, holder, t⟩ := c
  cases kind with
  | insert =>
    obtain ⟨-, h⟩ | ⟨_, -, h⟩ := s.insert_cases holder now t
    · exact .inr ⟨_, congrArg Prod.snd h⟩
    · exact .inl (congrArg Prod.snd h)
  | claim =>
    obtain ⟨_, -, -, h⟩ | ⟨-, h⟩ := s.claim_cases holder now t
    · exact .inr ⟨_, congrArg Prod.snd h⟩
    · exact .inl (congrArg Prod.snd h)
  | release =>
    cases h : s.get? t.name with
    | none => exact .inl (release_of_none h)
    | some r => exact .inr ⟨_, release_of_some h⟩
  | extend =>
    obtain ⟨_, -, -, -, h⟩ | ⟨-, h⟩ := s.extend_cases holder now t
    · exact .inr ⟨_, congrArg Prod.snd h⟩
    · exact .inl (congrArg Prod.snd h)

/-! ### What every call leaves alone -/

/-- A call touches no record but the one of its own name. -/
theorem get?_perform_of_ne {c : Call} (h : n ≠ c.terms.name) :
    (s.perform now c).2.get? n = s.get? n := by
  obtain hs | ⟨r, hs⟩ := s.perform_cases now c
  · rw [hs]
  · rw [hs, Registry.get?_put_of_ne h]

/-- A call depends on nothing but the record of its own name. -/
theorem perform_congr {s' : Store} {c : Call} (h : s.get? c.terms.name = s'.get? c.terms.name)
    (now : Instant) : (s.perform now c).1 = (s'.perform now c).1 ∧
      (s.perform now c).2.get? c.terms.name = (s'.perform now c).2.get? c.terms.name := by
  obtain ⟨kind, holder, t⟩ := c
  cases hs : s.get? t.name with
  | none =>
    have hs' : s'.get? t.name = none := h.symm.trans hs
    cases kind with
    | insert => simp only [perform, insert_of_none hs, insert_of_none hs', Registry.get?_put_self,
        and_self]
    | claim => simp only [perform, claim_of_none hs, claim_of_none hs', hs, hs', and_self]
    | release => simp only [perform, release_of_none hs, release_of_none hs', hs, hs', and_self]
    | extend => simp only [perform, extend_of_none hs, extend_of_none hs', hs, hs', and_self]
  | some r =>
    have hs' : s'.get? t.name = some r := h.symm.trans hs
    cases kind with
    | insert => simp only [perform, insert_of_some hs, insert_of_some hs', hs, hs', and_self]
    | claim =>
      by_cases hr : r.lockUntil ≤ now
      · simp only [perform, claim_of_lapsed hs hr, claim_of_lapsed hs' hr, Registry.get?_put_self,
          and_self]
      · have hr := Instant.not_le.1 hr
        simp only [perform, claim_of_running hs hr, claim_of_running hs' hr, hs, hs', and_self]
    | release => simp only [perform, release_of_some hs, release_of_some hs', Registry.get?_put_self,
        and_self]
    | extend =>
      by_cases hb : r.lockedBy = holder
      · by_cases hr : now < r.lockUntil
        · simp only [perform, extend_of_own hs hb hr, extend_of_own hs' hb hr,
            Registry.get?_put_self, and_self]
        · have hr := Instant.not_lt.1 hr
          simp only [perform, extend_of_lapsed hs hr, extend_of_lapsed hs' hr, hs, hs', and_self]
      · simp only [perform, extend_of_other hs hb, extend_of_other hs' hb, hs, hs', and_self]

/-- A record that is there stays there, whatever is done to it. -/
theorem exists_get?_perform (h : s.get? n = some r) (c : Call) :
    ∃ r', (s.perform now c).2.get? n = some r' := by
  obtain hs | ⟨r', hs⟩ := s.perform_cases now c
  · exact ⟨r, by rw [hs, h]⟩
  · rw [hs]
    exact Registry.exists_get?_put h _ r'

end Store
end LeaseLock
