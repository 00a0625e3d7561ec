import LeaseLock.Proofs.Dates
import LeaseLock.Proofs.Digits
import LeaseLock.Time.StampReader

/-!
# Stored stamps

What becomes of instants that are stored as texts. They are cut down to whole milliseconds: the
stored text of an instant is read as that (`read_stored`). In the years 0 to 9999 all texts have the
same length, and are ordered as the instants cut down are (`stored_le_iff`); so a database that
compares texts compares instants. Texts of other years have a sign in front, and come before all of
these (`stored_lt_of_signed`).
-/

namespace LeaseLock

namespace Instant

variable {t u : Instant}

/-- The instant is in one of the years 0 to 9999. -/
def InYears (t : Instant) : Prop := 0 ≤ t.date.year ∧ t.date.year ≤ 9999

instance (t : Instant) : Decidable t.InYears := inferInstanceAs (Decidable (_ ∧ _))

/-- The second of the day. -/
def secondOfDay (t : Instant) : Int := t.seconds % 86400

/-- The millisecond of the second. -/
def milli (t : Instant) : Int := t.subsecond / nanosPerMilli

theorem secondOfDay_bounds (t : Instant) : 0 ≤ t.secondOfDay ∧ t.secondOfDay < 86400 := by
  simp only [secondOfDay]
  omega

theorem milli_bounds (t : Instant) : 0 ≤ t.milli ∧ t.milli < 1000 := by
  simp only [milli, subsecond, nanosPerSecond, nanosPerMilli]
  omega

/-- The milliseconds since 1970. -/
theorem millis_eq (t : Instant) :
    t.nanos / nanosPerMilli = (t.dayNumber * 86400 + t.secondOfDay) * 1000 + t.milli := by
  simp only [dayNumber, secondOfDay, milli, seconds, subsecond, nanosPerSecond, nanosPerMilli]
  omega

@[simp] theorem dayNumber_floorMillis (t : Instant) : t.floorMillis.dayNumber = t.dayNumber := by
  simp only [dayNumber, seconds, nanos_floorMillis, nanosPerSecond, nanosPerMilli]
  omega

@[simp] theorem secondOfDay_floorMillis (t : Instant) :
    t.floorMillis.secondOfDay = t.secondOfDay := by
  simp only [secondOfDay, seconds, nanos_floorMillis, nanosPerSecond, nanosPerMilli]
  omega

@[simp] theorem milli_floorMillis (t : Instant) : t.floorMillis.milli = t.milli := by
  simp only [milli, subsecond, nanos_floorMillis, nanosPerSecond, nanosPerMilli]
  omega

@[simp] theorem inYears_floorMillis : t.floorMillis.InYears ↔ t.InYears := by
  simp only [InYears, date, dayNumber_floorMillis]

theorem floorMillis_max (t u : Instant) :
    (max t u).floorMillis = max t.floorMillis u.floorMillis := by
  ext
  simp only [nanos_floorMillis, nanos_max, nanosPerMilli]
  omega

/-- Instants do not leave the years that stamps reach. -/
theorem year_bounds (t : Instant) : -262143 ≤ t.date.year ∧ t.date.year ≤ 262142 := by
  have hlow := t.lower
  have hhigh := t.upper
  have hday : -96465292 ≤ t.dayNumber ∧ t.dayNumber ≤ 95026236 := by
    simp only [first, last, dayNumber, seconds, nanosPerSecond] at *
    omega
  exact ⟨Date.year_mono hday.1, Date.year_mono hday.2⟩

theorem year_le_year (h : t ≤ u) : t.date.year ≤ u.date.year := by
  refine Date.year_mono ?_
  have h : t.nanos ≤ u.nanos := h
  simp only [dayNumber, seconds, nanosPerSecond]
  omega

theorem floorMillis_lt_of_ne (h : u.floorMillis ≠ u) : u.floorMillis < u :=
  Int.lt_iff_le_and_ne.2 ⟨u.floorMillis_le, fun e => h (Instant.ext e)⟩

/-- Cut down to milliseconds, an instant is before another one if its day, second or millisecond
is. -/
theorem floorMillis_lt_iff : t.floorMillis < u.floorMillis ↔ t.dayNumber < u.dayNumber ∨
    t.dayNumber = u.dayNumber ∧ (t.secondOfDay < u.secondOfDay ∨
      t.secondOfDay = u.secondOfDay ∧ t.milli < u.milli) := by
  have ht := millis_eq t
  have hu := millis_eq u
  have ht1 := secondOfDay_bounds t
  have hu1 := secondOfDay_bounds u
  have ht2 := milli_bounds t
  have hu2 := milli_bounds u
  simp only [lt_def, nanos_floorMillis, nanosPerMilli] at *
  omega

end Instant

namespace Stamp

open Text Text.Numeral

variable {a b l l' rest : List Char} {t u : Instant}

/-! ### The order of stored texts -/

/-- Texts whose beginnings have the same length are ordered as these, if these differ. -/
theorem append_lt_append (hl : l.length = l'.length) (h : l < l' ∨ l = l' ∧ a < b) :
    l ++ a < l' ++ b := by
  obtain h | ⟨rfl, h⟩ := h
  · induction l generalizing l' with
    | nil =>
      cases l' with
      | nil => cases h
      | cons => cases hl
    | cons c l ih =>
      cases l' with
      | nil => cases hl
      | cons c' l' =>
        obtain hc | ⟨rfl, hlt⟩ := List.cons_lt_cons_iff.1 h
        · exact .rel hc
        · exact .cons (ih (Nat.succ.inj hl) hlt)
  · exact List.append_left_lt h

theorem length_pair {n : Int} (h : 0 ≤ n ∧ n ≤ 99) : (pair n).length = 2 :=
  length_padded (by decide) (show n.toNat < 100 by omega)

theorem pair_lt_pair {m n : Int} (hm : 0 ≤ m) (hn : n ≤ 99) (h : m < n) : pair m < pair n :=
  padded_lt_padded (by decide) (show n.toNat < 100 by omega) (by omega)

theorem yearText_of_inYears {y : Int} (h : 0 ≤ y ∧ y ≤ 9999) : yearText y = padded 4 y.toNat :=
  if_pos h

theorem length_yearText {y : Int} (h : 0 ≤ y ∧ y ≤ 9999) : (yearText y).length = 4 := by
  rw [yearText_of_inYears h]
  exact length_padded (by decide) (show y.toNat < 10000 by omega)

theorem yearText_lt {x y : Int} (hx : 0 ≤ x) (hy : y ≤ 9999) (h : x < y) :
    yearText x < yearText y := by
  rw [yearText_of_inYears ⟨hx, by omega⟩, yearText_of_inYears ⟨by omega, hy⟩]
  exact padded_lt_padded (by decide) (show y.toNat < 10000 by omega) (by omega)

/-- What is needed of a date to write it in ten characters. -/
theorem bounds_of_isValid {d : Date} (h : d.isValid = true) :
    (0 ≤ d.month ∧ d.month ≤ 99) ∧ (0 ≤ d.day ∧ d.day ≤ 99) := by
  have := Date.isValid_iff.1 h
  have := Date.daysInMonth_le d.year d.month
  omega

theorem length_dateText {d : Date} (h : d.isValid = true) (hy : 0 ≤ d.year ∧ d.year ≤ 9999) :
    (dateText d).length = 10 := by
  obtain ⟨hm, hd⟩ := bounds_of_isValid h
  simp only [dateText, List.length_append, List.length_cons, length_yearText hy, length_pair hm,
    length_pair hd]

theorem dateText_lt {d e : Date} (hd : d.isValid = true) (hdy : 0 ≤ d.year ∧ d.year ≤ 9999)
    (he : e.isValid = true) (hey : 0 ≤ e.year ∧ e.year ≤ 9999) (h : d.Before e) :
    dateText d < dateText e := by
  obtain ⟨hdm, hdd⟩ := bounds_of_isValid hd
  obtain ⟨hem, hed⟩ := bounds_of_isValid he
  simp only [dateText, List.append_assoc]
  refine append_lt_append (by rw [length_yearText hdy, length_yearText hey]) ?_
  obtain h | ⟨hy, h⟩ := h
  · exact .inl (yearText_lt hdy.1 hey.2 h)
  refine .inr ⟨by rw [hy], .cons (append_lt_append (by rw [length_pair hdm, length_pair hem]) ?_)⟩
  obtain h | ⟨hm, h⟩ := h
  · exact .inl (pair_lt_pair hdm.1 hem.2 h)
  · exact .inr ⟨by rw [hm], .cons (pair_lt_pair hdd.1 hed.2 h)⟩

theorem length_clockText {n : Int} (h : 0 ≤ n ∧ n < 86400) :
    (clockText (.ofSeconds n)).length = 8 := by
  simp only [clockText, TimeOfDay.ofSeconds, List.length_append, List.length_cons,
    length_pair (show 0 ≤ n / 3600 ∧ n / 3600 ≤ 99 by omega),
    length_pair (show 0 ≤ n % 3600 / 60 ∧ n % 3600 / 60 ≤ 99 by omega),
    length_pair (show 0 ≤ n % 60 ∧ n % 60 ≤ 99 by omega)]

theorem clockText_lt {m n : Int} (hm : 0 ≤ m) (hn : n < 86400) (h : m < n) :
    clockText (.ofSeconds m) < clockText (.ofSeconds n) := by
  simp only [clockText, TimeOfDay.ofSeconds, List.append_assoc]
  refine append_lt_append (by rw [length_pair (by omega), length_pair (by omega)]) ?_
  by_cases hh : m / 3600 < n / 3600
  · exact .inl (pair_lt_pair (by omega) (by omega) hh)
  have hh : m / 3600 = n / 3600 := by omega
  refine .inr ⟨by rw [hh], .cons (append_lt_append ?_ ?_)⟩
  · rw [length_pair (by omega), length_pair (by omega)]
  by_cases hm' : m % 3600 / 60 < n % 3600 / 60
  · exact .inl (pair_lt_pair (by omega) (by omega) hm')
  · have hm' : m % 3600 / 60 = n % 3600 / 60 := by omega
    exact .inr ⟨by rw [hm'], .cons (pair_lt_pair (by omega) (by omega) (by omega))⟩

theorem storedChars_eq (t : Instant) : storedChars t =
    dateText t.date ++ ' ' :: (clockText (.ofSeconds t.secondOfDay) ++
      '.' :: padded 3 t.milli.toNat) := by
  rw [storedChars, List.append_assoc]
  rfl

/-- An instant is stored as it is when cut down to milliseconds. -/
@[simp] theorem stored_floorMillis (t : Instant) : stored t.floorMillis = stored t := by
  simp only [stored, storedChars_eq, Instant.date, Instant.dayNumber_floorMillis,
    Instant.secondOfDay_floorMillis, Instant.milli_floorMillis]

/-- **Later instants have later texts.** -/
theorem stored_lt_stored (ht : t.InYears) (hu : u.InYears) (h : t.floorMillis < u.floorMillis) :
    stored t < stored u := by
  show (stored t).toList < (stored u).toList
  have htv : t.date.isValid = true := Date.isValid_ofDays _
  have huv : u.date.isValid = true := Date.isValid_ofDays _
  have hts := t.secondOfDay_bounds
  have hus := u.secondOfDay_bounds
  rw [stored, stored, String.toList_ofList, String.toList_ofList, storedChars_eq, storedChars_eq]
  refine append_lt_append (by rw [length_dateText htv ht, length_dateText huv hu]) ?_
  obtain h | ⟨hday, h⟩ := Instant.floorMillis_lt_iff.1 h
  · exact .inl (dateText_lt htv ht huv hu (Date.ofDays_before h))
  refine .inr ⟨by rw [Instant.date, hday, ← Instant.date], .cons (append_lt_append ?_ ?_)⟩
  · rw [length_clockText hts, length_clockText hus]
  obtain h | ⟨hsec, h⟩ := h
  · exact .inl (clockText_lt hts.1 hus.2 h)
  · have := t.milli_bounds
    have := u.milli_bounds
    have hms : u.milli.toNat < 1000 := by omega
    exact .inr ⟨by rw [hsec], .cons (padded_lt_padded (by decide) hms (by omega))⟩

theorem stored_eq_of_floorMillis (h : t.floorMillis = u.floorMillis) : stored t = stored u := by
  rw [← stored_floorMillis t, h, stored_floorMillis]

/-- **Texts are compared as instants.** -/
theorem stored_lt_iff (ht : t.InYears) (hu : u.InYears) :
    stored t < stored u ↔ t.floorMillis < u.floorMillis := by
  refine ⟨fun h => Instant.not_le.1 fun hle => ?_, stored_lt_stored ht hu⟩
  by_cases heq : u.floorMillis = t.floorMillis
  · rw [stored_eq_of_floorMillis heq] at h
    exact String.lt_irrefl _ h
  · have hlt : u.floorMillis < t.floorMillis :=
      Int.lt_iff_le_and_ne.2 ⟨hle, fun hn => heq (Instant.ext hn)⟩
    exact String.lt_asymm h (stored_lt_stored hu ht hlt)

theorem stored_le_iff (ht : t.InYears) (hu : u.InYears) :
    stored t ≤ stored u ↔ t.floorMillis ≤ u.floorMillis := by
  rw [← String.not_lt, stored_lt_iff hu ht, Instant.not_lt]

/-! ### Years with a sign -/

/-- The text of an instant comes up to that of another one. -/
def reaches (t u : Instant) : Bool := stored u ≤ stored t

theorem reaches_iff : reaches t u = true ↔ stored u ≤ stored t := decide_eq_true_iff

theorem reaches_eq_false (h : stored t < stored u) : reaches t u = false :=
  decide_eq_false (String.not_le.2 h)

theorem yearText_digit {y : Int} (hy : 0 ≤ y ∧ y ≤ 9999) :
    ∃ c l, yearText y = c :: l ∧ c.isDigit = true := by
  obtain ⟨c, l, hl⟩ := List.exists_cons_of_ne_nil (padded_ne_nil 4 y.toNat)
  have hrun := isRun_padded 4 y.toNat
  rw [hl] at hrun
  exact ⟨c, l, (yearText_of_inYears hy).trans hl, (isRun_cons.1 hrun).1⟩

theorem yearText_sign {y : Int} (hy : ¬(0 ≤ y ∧ y ≤ 9999)) :
    ∃ c l, yearText y = c :: l ∧ c.toNat < 48 := by
  refine ⟨_, _, if_neg hy, ?_⟩
  split
  · decide
  · decide

/-- The text of a year with a sign comes before those of years without one. -/
theorem stored_lt_of_signed (ht : ¬t.InYears) (hu : u.InYears) : stored t < stored u := by
  obtain ⟨c, l, hl, hc⟩ := yearText_sign ht
  obtain ⟨d, l', hl', hd⟩ := yearText_digit hu
  have hlt : c < d := Nat.lt_of_lt_of_le hc (toNat_of_isDigit hd).1
  show (stored t).toList < (stored u).toList
  rw [stored, stored, String.toList_ofList, String.toList_ofList, storedChars_eq, storedChars_eq,
    dateText, dateText, hl, hl']
  exact .rel hlt

/-- **No text comes up to that of a later instant** of the year 0 or after it, exactly if this is a
whole millisecond before the year 10000. -/
theorem reaches_late_iff (hu : 0 ≤ u.date.year) :
    (∀ t, t < u → reaches t u = false) ↔ u.InYears ∧ u.floorMillis = u := by
  constructor
  · intro h
    refine ⟨?_, Decidable.byContradiction fun hw => ?_⟩
    · refine Decidable.byContradiction fun hy => ?_
      have hearly : Instant.epoch < u := by
        refine Instant.not_le.1 fun hle => hy ⟨hu, ?_⟩
        exact Int.le_trans (Instant.year_le_year hle) (by decide)
      have htext : stored u < stored .epoch := stored_lt_of_signed hy (by decide)
      have hreach := reaches_iff.2 (String.not_lt.1 (String.lt_asymm htext))
      exact Bool.eq_false_iff.1 (h .epoch hearly) hreach
    · have hsame : reaches u.floorMillis u = true := by
        simp only [reaches_iff, stored_floorMillis]
        exact String.le_refl _
      rw [h _ (Instant.floorMillis_lt_of_ne hw)] at hsame
      cases hsame
  · rintro ⟨hy, hw⟩ t ht
    by_cases hty : t.InYears
    · refine Bool.eq_false_iff.2 fun hr => ?_
      have hle := (stored_le_iff hy hty).1 (reaches_iff.1 hr)
      rw [hw] at hle
      exact Instant.not_le.2 ht (Int.le_trans hle t.floorMillis_le)
    · exact reaches_eq_false (stored_lt_of_signed hty hy)

/-! ### Reading stored texts -/

/-- A run of digits is taken as the number that it denotes, up to what follows it. -/
theorem number_run {width : Nat} {ds : List Char} (hd : isRun ds = true) (hne : ds ≠ [])
    (hl : ds.length ≤ width) (hr : ∀ c ∈ rest.head?, c.isDigit = false)
    (hv : value ds ≤ word63) : number width (ds ++ rest) = .ok (value ds, rest) := by
  have htake : ((ds ++ rest).take width).takeWhile Char.isDigit = ds := by
    rw [List.take_append, List.take_of_length_le hl]
    refine takeWhile_run hd ?_
    cases rest with
    | nil => simp
    | cons c rest =>
      have hc := hr c rfl
      cases width - ds.length with
      | zero => rfl
      | succ n => simp [hc]
  obtain ⟨d, more, rfl⟩ := List.exists_cons_of_ne_nil hne
  simp only [number, htake]
  simp [hv]

theorem dropWhile_isBlank_run {ds : List Char} (hd : isRun ds = true) (hne : ds ≠ []) :
    (ds ++ rest).dropWhile isBlank = ds ++ rest := by
  obtain ⟨d, more, rfl⟩ := List.exists_cons_of_ne_nil hne
  rw [List.cons_append, List.dropWhile_cons, isBlank_eq_false_of_isDigit (isRun_cons.1 hd).1]
  rfl

theorem isRun_pair (n : Int) : isRun (pair n) = true := isRun_padded 2 n.toNat

theorem pair_ne_nil (n : Int) : pair n ≠ [] := padded_ne_nil 2 n.toNat

theorem head_not_digit {c : Char} (hc : c.isDigit = false) (rest : List Char) :
    ∀ d ∈ (c :: rest).head?, d.isDigit = false := by
  intro d hd
  cases hd
  exact hc

/-- Two digits are taken as the number that was written. -/
theorem field_pair {n : Int} {low high : Nat} {c : Char} (h : (low : Int) ≤ n ∧ n ≤ high)
    (hh : high ≤ 99) (hc : c.isDigit = false) (rest : List Char) :
    field low high (pair n ++ c :: rest) = .ok (n.toNat, c :: rest) := by
  have hr : ∀ d ∈ (c :: rest).head?, d.isDigit = false := head_not_digit hc rest
  have hlen : (pair n).length ≤ 2 := Nat.le_of_eq (length_pair (by omega))
  have hvalue : value (pair n) = n.toNat := value_padded 2 n.toNat
  have hfits : value (pair n) ≤ word63 := by
    rw [hvalue, word63]
    omega
  rw [field, dropWhile_isBlank_run (isRun_pair n) (pair_ne_nil n),
    number_run (isRun_pair n) (pair_ne_nil n) hlen hr hfits, hvalue]
  show (if low ≤ n.toNat ∧ n.toNat ≤ high then _ else _) = _
  rw [if_pos (by omega)]
  rfl

/-- A year is taken as it was written. -/
theorem year_yearText {y : Int} (hy : -2147483648 ≤ y ∧ y ≤ 2147483647)
    (hr : ∀ c ∈ rest.head?, c.isDigit = false) : year (yearText y ++ rest) = .ok (y, rest) := by
  have hbound : boundedYear y = .ok y := if_pos hy
  have hfits : value (padded 4 y.natAbs) ≤ word63 := by
    rw [value_padded, word63]
    omega
  by_cases h : 0 ≤ y ∧ y ≤ 9999
  · have habs : y.toNat = y.natAbs := by omega
    have hnum : number 4 (padded 4 y.natAbs ++ rest) = .ok (y.natAbs, rest) := by
      have hlen : (padded 4 y.natAbs).length = 4 :=
        length_padded (by decide) (show y.natAbs < 10000 by omega)
      rw [number_run (isRun_padded _ _) (padded_ne_nil _ _) (Nat.le_of_eq hlen) hr hfits,
        value_padded]
    obtain ⟨d, more, hd⟩ := List.exists_cons_of_ne_nil (padded_ne_nil 4 y.natAbs)
    have hdigit : d.isDigit = true := by
      have := isRun_padded 4 y.natAbs
      rw [hd] at this
      exact (isRun_cons.1 this).1
    rw [yearText_of_inYears h, habs, year,
      dropWhile_isBlank_run (isRun_padded _ _) (padded_ne_nil _ _)]
    rw [hd, List.cons_append] at hnum ⊢
    split
    · rename_i heq
      cases heq
      cases hdigit
    · rename_i heq
      cases heq
      cases hdigit
    · rw [hnum]
      show (boundedYear (y.natAbs : Int)).bind _ = _
      rw [show (y.natAbs : Int) = y by omega, hbound]
      rfl
  · have hnum : number (padded 4 y.natAbs ++ rest).length (padded 4 y.natAbs ++ rest) =
        .ok (y.natAbs, rest) := by
      rw [number_run (isRun_padded _ _) (padded_ne_nil _ _) (by simp) hr hfits, value_padded]
    rw [yearText, if_neg h]
    by_cases hneg : y < 0
    · rw [if_pos hneg, List.cons_append, year,
        show ('-' :: (padded 4 y.natAbs ++ rest)).dropWhile isBlank =
          '-' :: (padded 4 y.natAbs ++ rest) from rfl]
      show (number (padded 4 y.natAbs ++ rest).length (padded 4 y.natAbs ++ rest)).bind _ = _
      rw [hnum]
      show (boundedYear (-(y.natAbs : Int))).bind _ = _
      rw [show -(y.natAbs : Int) = y by omega, hbound]
      rfl
    · rw [if_neg hneg, List.cons_append, year,
        show ('+' :: (padded 4 y.natAbs ++ rest)).dropWhile isBlank =
          '+' :: (padded 4 y.natAbs ++ rest) from rfl]
      show (number (padded 4 y.natAbs ++ rest).length (padded 4 y.natAbs ++ rest)).bind _ = _
      rw [hnum]
      show (boundedYear (y.natAbs : Int)).bind _ = _
      rw [show (y.natAbs : Int) = y by omega, hbound]
      rfl

theorem expect_self (c : Char) (cs : List Char) : expect c (c :: cs) = .ok cs := if_pos rfl

theorem field_blank (low high : Nat) (cs : List Char) :
    field low high (' ' :: cs) = field low high cs := rfl

/-- Three digits of a fraction are taken as milliseconds. -/
theorem fraction_millis {n : Nat} (h : n < 1000) :
    fraction ('.' :: padded 3 n) = .ok (n * 1000000, []) := by
  have hlen : (padded 3 n).length = 3 := length_padded (by decide) h
  have hnum : number 9 (padded 3 n) = .ok (n, []) := by
    have hfits : value (padded 3 n) ≤ word63 := by
      rw [value_padded, word63]
      omega
    have hrest : ∀ c ∈ ([] : List Char).head?, c.isDigit = false := fun _ h => nomatch h
    have := number_run (isRun_padded 3 n) (padded_ne_nil 3 n) (show _ ≤ 9 by omega) hrest hfits
    rwa [List.append_nil, value_padded] at this
  rw [fraction]
  show (number 9 (padded 3 n)).bind _ = _
  rw [hnum]
  show Except.ok (n * Nat.pow 10 (9 - ((padded 3 n).length - 0)), _) = _
  rw [hlen]
  rfl

theorem readChars_storedChars (t : Instant) :
    readChars (storedChars t) = .ok (Moment.ofInstant t.floorMillis) := by
  have hvalid : t.date.isValid = true := Date.isValid_ofDays t.dayNumber
  obtain ⟨hm1, hm2, hd1, hd2⟩ := Date.isValid_iff.1 hvalid
  have hd3 := Date.daysInMonth_le t.date.year t.date.month
  have hy := t.year_bounds
  have hs := t.secondOfDay_bounds
  have hms := t.milli_bounds
  have hstored : storedChars t = yearText t.date.year ++ '-' :: (pair t.date.month ++ '-' ::
      (pair t.date.day ++ ' ' :: (pair (t.secondOfDay / 3600) ++ ':' ::
        (pair (t.secondOfDay % 3600 / 60) ++ ':' :: (pair (t.secondOfDay % 60) ++ '.' ::
          padded 3 t.milli.toNat))))) := by
    simp only [storedChars_eq, dateText, clockText, TimeOfDay.ofSeconds, List.append_assoc,
      List.cons_append]
  have hyear := fun cs => year_yearText (y := t.date.year) (by omega)
    (head_not_digit (show '-'.isDigit = false by decide) cs)
  have hmonth := field_pair (show ((1 : Nat) : Int) ≤ t.date.month ∧ _ ≤ ((12 : Nat) : Int) by omega)
    (by decide) (show '-'.isDigit = false by decide)
  have hday := field_pair (show ((1 : Nat) : Int) ≤ t.date.day ∧ _ ≤ ((31 : Nat) : Int) by omega)
    (by decide) (show ' '.isDigit = false by decide)
  have hhour := field_pair
    (show ((0 : Nat) : Int) ≤ t.secondOfDay / 3600 ∧ _ ≤ ((23 : Nat) : Int) by omega)
    (by decide) (show ':'.isDigit = false by decide)
  have hminute := field_pair
    (show ((0 : Nat) : Int) ≤ t.secondOfDay % 3600 / 60 ∧ _ ≤ ((59 : Nat) : Int) by omega)
    (by decide) (show ':'.isDigit = false by decide)
  have hsecond := field_pair
    (show ((0 : Nat) : Int) ≤ t.secondOfDay % 60 ∧ _ ≤ ((60 : Nat) : Int) by omega)
    (by decide) (show '.'.isDigit = false by decide)
  have hfraction := fraction_millis (show t.milli.toNat < 1000 by omega)
  rw [hstored, readChars]
  simp only [bind, Except.bind, pure, Except.pure, expect_self, field_blank, hyear, hmonth, hday,
    hhour, hminute, hsecond, hfraction]
  have hdate : (⟨t.date.year, (t.date.month.toNat : Int), (t.date.day.toNat : Int)⟩ : Date) =
      t.date := by
    rw [Int.toNat_of_nonneg (by omega), Int.toNat_of_nonneg (by omega)]
  have hreach : yearInReach t.date.year = true := by
    simp only [yearInReach, Bool.and_eq_true, decide_eq_true_eq]
    exact hy
  have hdays : t.date.toDays = t.dayNumber := Date.toDays_ofDays t.dayNumber
  rw [hdate, hvalid, hreach, if_neg (not_not_intro rfl), if_neg (by decide),
    if_neg (show (t.secondOfDay % 60).toNat ≠ 60 by omega)]
  simp only [Moment.ofInstant, Except.ok.injEq, Moment.mk.injEq, TimeOfDay.toSeconds, hdays]
  simp only [Instant.dayNumber, Instant.secondOfDay, Instant.milli, Instant.seconds,
    Instant.subsecond, Instant.nanos_floorMillis, nanosPerSecond, nanosPerMilli]
  omega

/-- **Stored texts are read as the instants cut down to milliseconds.** -/
theorem read_stored (t : Instant) : read (stored t) = .ok (Moment.ofInstant t.floorMillis) := by
  rw [read, stored, String.toList_ofList, readChars_storedChars]

end Stamp
end LeaseLock
