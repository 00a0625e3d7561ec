import LeaseLock.Text.Numeral

/-!
# Runs of digits

Runs of the same length are ordered as texts as the numbers are that they denote
(`lt_of_value_lt`), and numbers padded to one width are such runs.
-/

namespace LeaseLock.Text.Numeral

variable {ds es rest : List Char} {w m n : Nat}

/-- The number that a digit denotes. -/
def digitValue (c : Char) : Nat := c.toNat - '0'.toNat

theorem toNat_of_isDigit {c : Char} (h : c.isDigit = true) : 48 ≤ c.toNat ∧ c.toNat ≤ 57 := by
  simp only [Char.isDigit, Bool.and_eq_true, decide_eq_true_eq, ge_iff_le] at h
  exact h

theorem digitValue_lt {c : Char} (h : c.isDigit = true) : digitValue c < 10 := by
  have := toNat_of_isDigit h
  show c.toNat - 48 < 10
  omega

/-- Digits are ordered as the numbers that they denote. -/
theorem lt_of_digitValue_lt {c d : Char} (h : digitValue c < digitValue d) : c < d := by
  show c.toNat < d.toNat
  simp only [digitValue] at h
  omega

theorem digitValue_inj {c d : Char} (hc : c.isDigit = true) (hd : d.isDigit = true)
    (h : digitValue c = digitValue d) : c = d := by
  have hc := toNat_of_isDigit hc
  have hd := toNat_of_isDigit hd
  apply Char.toNat_inj.1
  replace h : c.toNat - 48 = d.toNat - 48 := h
  omega

theorem value_cons (c : Char) (ds : List Char) :
    value (c :: ds) = Nat.pow 10 ds.length * digitValue c + value ds := by
  rw [value, Nat.ofDigitChars_cons, Nat.ofDigitChars_eq_ofDigitChars_zero, Nat.mul_zero,
    Nat.zero_add]
  rfl

theorem isRun_cons {c : Char} : isRun (c :: ds) = true ↔ c.isDigit = true ∧ isRun ds = true := by
  simp only [isRun, List.all_cons, Bool.and_eq_true]

theorem value_lt (h : isRun ds = true) : value ds < Nat.pow 10 ds.length := by
  induction ds with
  | nil => decide
  | cons c ds ih =>
    obtain ⟨hc, hds⟩ := isRun_cons.1 h
    have h1 := ih hds
    have h2 : Nat.pow 10 ds.length * digitValue c ≤ Nat.pow 10 ds.length * 9 :=
      Nat.mul_le_mul_left _ (Nat.le_of_lt_succ (digitValue_lt hc))
    have h3 : Nat.pow 10 (ds.length + 1) = Nat.pow 10 ds.length * 10 := rfl
    rw [value_cons, List.length_cons]
    omega

/-- **Runs of one length are ordered as numbers are.** -/
theorem lt_of_value_lt (hd : isRun ds = true) (he : isRun es = true) (hl : ds.length = es.length)
    (h : value ds < value es) : ds < es := by
  induction ds generalizing es with
  | nil =>
    cases es with
    | nil => exact (Nat.lt_irrefl _ h).elim
    | cons e es => cases hl
  | cons d ds ih =>
    cases es with
    | nil => cases hl
    | cons e es =>
      obtain ⟨hd, hds⟩ := isRun_cons.1 hd
      obtain ⟨he, hes⟩ := isRun_cons.1 he
      have hl : ds.length = es.length := Nat.succ.inj hl
      have hbound := value_lt hes
      rw [value_cons, value_cons, hl] at h
      rcases Nat.lt_trichotomy (digitValue d) (digitValue e) with hlt | heq | hgt
      · exact .rel (lt_of_digitValue_lt hlt)
      · rw [digitValue_inj hd he heq]
        rw [heq] at h
        exact .cons (ih hds hes hl (Nat.lt_of_add_lt_add_left h))
      · -- The first digit counts more than all that follow it.
        have := Nat.mul_le_mul_left (Nat.pow 10 es.length) (Nat.succ_le_of_lt hgt)
        rw [Nat.mul_succ] at this
        omega

theorem length_padded (hw : 0 < w) (h : n < Nat.pow 10 w) : (padded w n).length = w := by
  have := (Nat.length_toDigits_le_iff (by decide) hw).2 h
  simp only [padded, digits, List.length_append, List.length_replicate] at this ⊢
  omega

theorem padded_ne_nil (w n : Nat) : padded w n ≠ [] := by
  intro h
  have := Nat.length_toDigits_pos (b := 10) (n := n)
  rw [padded, List.append_eq_nil_iff] at h
  rw [show Nat.toDigits 10 n = [] from h.2] at this
  exact Nat.lt_irrefl _ this

/-- Numbers padded to one width are ordered as they are. -/
theorem padded_lt_padded (hw : 0 < w) (hn : n < Nat.pow 10 w) (h : m < n) :
    padded w m < padded w n := by
  refine lt_of_value_lt (isRun_padded w m) (isRun_padded w n) ?_ ?_
  · rw [length_padded hw hn, length_padded hw (Nat.lt_trans h hn)]
  · rw [value_padded, value_padded]
    exact h

/-- A run is taken up to what follows it. -/
theorem takeWhile_run (hd : isRun ds = true) (hr : rest.takeWhile Char.isDigit = []) :
    (ds ++ rest).takeWhile Char.isDigit = ds := by
  rw [List.takeWhile_append_of_pos (List.all_eq_true.1 hd), hr, List.append_nil]

end LeaseLock.Text.Numeral
