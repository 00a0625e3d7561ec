import LeaseLock.Time.Calendar

/-!
# Day numbers and dates

The date of a day number is a day of the calendar (`isValid_ofDays`), and later days have later
dates (`ofDays_before`).
-/

namespace LeaseLock.Date

variable {x y z n : Int}

/-- The date is before another one. -/
def Before (d e : Date) : Prop :=
  d.year < e.year ∨ d.year = e.year ∧ (d.month < e.month ∨ d.month = e.month ∧ d.day < e.day)

/-- A March year has the leap day of the year in which it ends. -/
theorem yearStart_succ (y : Int) :
    yearStart (y + 1) = yearStart y + if isLeap (y + 1) then 366 else 365 := by
  have hleap : isLeap (y + 1) = true ↔
      (y + 1) % 4 = 0 ∧ ((y + 1) % 100 ≠ 0 ∨ (y + 1) % 400 = 0) := by
    simp only [isLeap, Bool.and_eq_true, Bool.or_eq_true, beq_iff_eq, bne_iff_ne]
  simp only [yearStart]
  split
  · have := hleap.1 ‹_›
    omega
  · have := mt hleap.2 ‹_›
    omega

theorem yearStart_mono (h : x ≤ y) : yearStart x ≤ yearStart y := by
  simp only [yearStart]
  omega

/-- A day that is in a cycle, century, group and year is before the first one of the next year. -/
theorem lt_yearStart_mixed {k c g a : Int} (hc : 0 ≤ c ∧ c ≤ 3) (hg : 0 ≤ g ∧ g ≤ 24)
    (ha : 0 ≤ a ∧ a ≤ 3) (hk : z < 146097 * (k + 1))
    (hzc : c < 3 → z < 146097 * k + 36524 * (c + 1))
    (hzg : g < 24 → z < 146097 * k + 36524 * c + 1461 * (g + 1))
    (hza : a < 3 → z < 146097 * k + 36524 * c + 1461 * g + 365 * (a + 1)) :
    z < yearStart (400 * k + 100 * c + 4 * g + a + 1) := by
  by_cases h : a < 3
  · rw [show 400 * k + 100 * c + 4 * g + a + 1 = 400 * k + 100 * c + 4 * g + (a + 1) by omega,
      yearStart_mixed hc hg (by omega)]
    exact hza h
  obtain rfl : a = 3 := by omega
  by_cases h : g < 24
  · rw [show 400 * k + 100 * c + 4 * g + 3 + 1 = 400 * k + 100 * c + 4 * (g + 1) + 0 by omega,
      yearStart_mixed hc (by omega) (by omega)]
    have := hzg h
    omega
  obtain rfl : g = 24 := by omega
  by_cases h : c < 3
  · rw [show 400 * k + 100 * c + 4 * 24 + 3 + 1 = 400 * k + 100 * (c + 1) + 4 * 0 + 0 by omega,
      yearStart_mixed (by omega) (by omega) (by omega)]
    have := hzc h
    omega
  obtain rfl : c = 3 := by omega
  rw [show 400 * k + 100 * 3 + 4 * 24 + 3 + 1 = 400 * (k + 1) + 100 * 0 + 4 * 0 + 0 by omega,
    yearStart_mixed (by omega) (by omega) (by omega)]
  omega

/-- A day is before the first one of the next year. -/
theorem lt_yearStart_yearOf (z : Int) : z < yearStart (yearOf z + 1) := by
  have hc : 0 ≤ min (z % 146097 / 36524) 3 ∧ min (z % 146097 / 36524) 3 ≤ 3 := by omega
  have hi : 0 ≤ z % 146097 - 36524 * min (z % 146097 / 36524) 3 ∧
      z % 146097 - 36524 * min (z % 146097 / 36524) 3 ≤ 36524 := by omega
  rw [yearOf]
  refine lt_yearStart_mixed hc ?_ ?_ ?_ ?_ ?_ ?_ <;> omega

theorem yearOf_mono (h : x ≤ y) : yearOf x ≤ yearOf y := by
  refine Int.not_lt.1 fun hn => ?_
  have hxy := yearStart_mono (Int.add_one_le_iff.2 hn)
  have hy := lt_yearStart_yearOf y
  have hx := (yearStart_yearOf x).1
  omega

/-- The date of the day `n` of the March year `y`, counted from zero. -/
def ofMarch (y n : Int) : Date where
  year := if monthOf n < 10 then y else y + 1
  month := if monthOf n < 10 then monthOf n + 3 else monthOf n - 9
  day := n - daysBefore (monthOf n) + 1

theorem ofDays_eq (n : Int) :
    ofDays n = ofMarch (yearOf (n + marchZero)) (n + marchZero - yearStart (yearOf (n + marchZero))) :=
  rfl

theorem isValid_iff {d : Date} : d.isValid = true ↔
    1 ≤ d.month ∧ d.month ≤ 12 ∧ 1 ≤ d.day ∧ d.day ≤ daysInMonth d.year d.month := by
  simp only [isValid, Bool.and_eq_true, decide_eq_true_eq, and_assoc]

theorem daysInMonth_le (year month : Int) : daysInMonth year month ≤ 31 := by
  simp only [daysInMonth]
  repeat' split
  all_goals omega

/-- The days of a March year are days of the calendar. -/
theorem isValid_ofMarch (h : 0 ≤ n) (hn : n < if isLeap (y + 1) then 366 else 365) :
    (ofMarch y n).isValid = true := by
  have hlow : daysBefore (monthOf n) ≤ n := by simp only [daysBefore, monthOf]; omega
  have hhigh : n < daysBefore (monthOf n + 1) := by simp only [daysBefore, monthOf]; omega
  have hmonth : 0 ≤ monthOf n ∧ monthOf n ≤ 11 := by
    have : n < 366 := by split at hn <;> omega
    simp only [monthOf]
    omega
  rw [isValid_iff]
  by_cases hfeb : monthOf n = 11
  · -- The leap day is the last day of the year.
    rw [hfeb] at hlow hhigh
    simp only [ofMarch, hfeb, daysBefore] at hlow hhigh ⊢
    simp only [daysInMonth]
    cases hleap : isLeap (y + 1) <;> simp [hleap] at hn ⊢ <;> omega
  · have hm : monthOf n = 0 ∨ monthOf n = 1 ∨ monthOf n = 2 ∨ monthOf n = 3 ∨ monthOf n = 4 ∨
        monthOf n = 5 ∨ monthOf n = 6 ∨ monthOf n = 7 ∨ monthOf n = 8 ∨ monthOf n = 9 ∨
        monthOf n = 10 := by omega
    rcases hm with hm | hm | hm | hm | hm | hm | hm | hm | hm | hm | hm <;>
      rw [hm] at hlow hhigh <;> simp only [ofMarch, hm, daysBefore] at hlow hhigh ⊢ <;>
      simp [daysInMonth] <;> omega

/-- The date of a day number is a day of the calendar. -/
theorem isValid_ofDays (n : Int) : (ofDays n).isValid = true := by
  have h0 := yearStart_yearOf (n + marchZero)
  have h1 := lt_yearStart_yearOf (n + marchZero)
  rw [yearStart_succ] at h1
  rw [ofDays_eq]
  exact isValid_ofMarch (by omega) (by omega)

/-- Later days of one March year have later dates. -/
theorem ofMarch_before {m : Int} (h : m < n) : (ofMarch y m).Before (ofMarch y n) := by
  simp only [Before, ofMarch, daysBefore, monthOf]
  omega

/-- Days of an earlier March year have earlier dates. -/
theorem ofMarch_before_of_lt {m : Int} (h : x < y) (hm : m ≤ 365) (hn : 0 ≤ n) :
    (ofMarch x m).Before (ofMarch y n) := by
  simp only [Before, ofMarch, daysBefore, monthOf]
  omega

/-- **Later days have later dates.** -/
theorem ofDays_before {m n : Int} (h : m < n) : (ofDays m).Before (ofDays n) := by
  have hm := yearStart_yearOf (m + marchZero)
  have hn := yearStart_yearOf (n + marchZero)
  have hmono := yearOf_mono (Int.add_le_add_right (Int.le_of_lt h) marchZero)
  rw [ofDays_eq, ofDays_eq]
  rcases Int.lt_or_eq_of_le hmono with hlt | heq
  · exact ofMarch_before_of_lt hlt (by omega) (by omega)
  · rw [heq]
    exact ofMarch_before (by omega)

theorem year_mono {m n : Int} (h : m ≤ n) : (ofDays m).year ≤ (ofDays n).year := by
  rcases Int.lt_or_eq_of_le h with hlt | rfl
  · obtain h | ⟨h, -⟩ := ofDays_before hlt
    · exact Int.le_of_lt h
    · exact Int.le_of_eq h
  · exact Int.le_refl _

end LeaseLock.Date
