import LeaseLock.Proofs.LeaseTerms
import LeaseLock.Proofs.Stamps
import LeaseLock.Sql.Table

/-!
# What the database makes of stored stamps

The database reads the stored text of an instant of the years 0 to 9999 as the milliseconds of that
instant (`millis?_stored`), and writes a millisecond of these years as the stored text of it
(`stamp?_millis`). So a time that it computes from a stored one is what the application would have
stored, if all lengths are whole milliseconds (`later?_eq`).
-/

namespace LeaseLock

/-- The whole milliseconds since 1970, counted downwards. -/
def Instant.millis (t : Instant) : Int := t.nanos / nanosPerMilli

/-- The span is a whole number of milliseconds. -/
def Span.WholeMillis (d : Span) : Prop := d.nanos % nanosPerMilli = 0

instance (d : Span) : Decidable d.WholeMillis := inferInstanceAs (Decidable (_ = _))

/-- The instant is all in its stored stamp, and stamps compare with it as it does. -/
structure Instant.Stampable (t : Instant) : Prop where
  inYears : t.InYears
  whole : t.floorMillis = t

instance (t : Instant) : Decidable t.Stampable :=
  decidable_of_iff (t.InYears ∧ t.floorMillis = t) ⟨fun h => ⟨h.1, h.2⟩, fun h => ⟨h.1, h.2⟩⟩

/-- The deadlines of the terms are stampable, and differ by whole milliseconds from their start. -/
structure Terms.Stampable (t : Terms) : Prop where
  createdAt : t.createdAt.Stampable
  atMostFor : t.atMostFor.WholeMillis
  atLeastFor : t.atLeastFor.WholeMillis
  inYears : t.atMostUntil.InYears

instance (t : Terms) : Decidable t.Stampable :=
  decidable_of_iff (t.createdAt.Stampable ∧ t.atMostFor.WholeMillis ∧ t.atLeastFor.WholeMillis ∧
    t.atMostUntil.InYears) ⟨fun h => ⟨h.1, h.2.1, h.2.2.1, h.2.2.2⟩, fun h => ⟨h.1, h.2, h.3, h.4⟩⟩

namespace Sql.ServerTime

open Text Text.Numeral Stamp

variable {rest : List Char} {t : Instant}

/-! ### Reading -/

/-- A run of digits of the width that is asked for is taken as the number that it denotes. -/
theorem digits?_run {width low high : Nat} {ds : List Char} (hd : isRun ds = true)
    (hw : ds.length = width) (h : low ≤ value ds ∧ value ds ≤ high) (rest : List Char) :
    digits? width low high (ds ++ rest) = some (value ds, rest) := by
  rw [digits?, List.take_left' hw, List.drop_left' hw, if_pos ⟨hw, hd, h.1, h.2⟩]

/-- Two digits are taken as the number that was written. -/
theorem digits?_pair {n : Int} {low high : Nat} (h : (low : Int) ≤ n ∧ n ≤ high) (hh : high ≤ 99)
    (rest : List Char) : digits? 2 low high (pair n ++ rest) = some (n.toNat, rest) := by
  have hvalue : value (pair n) = n.toNat := value_padded 2 n.toNat
  have hrun : digits? 2 low high (pair n ++ rest) = some (value (pair n), rest) :=
    digits?_run (isRun_pair n) (length_pair (by omega)) (by rw [hvalue]; omega) rest
  rwa [hvalue] at hrun

theorem mark?_self (c : Char) (cs : List Char) : mark? c (c :: cs) = some cs := if_pos rfl

/-- A date is taken as the number of its day. -/
theorem date?_dateText {d : Date} (hd : d.isValid = true) (hy : 0 ≤ d.year ∧ d.year ≤ 9999)
    (rest : List Char) : date? (dateText d ++ rest) = some (d.toDays, rest) := by
  obtain ⟨hm1, hm2, hd1, hd2⟩ := Date.isValid_iff.1 hd
  have hd3 := Date.daysInMonth_le d.year d.month
  have htext : dateText d ++ rest =
      padded 4 d.year.toNat ++ '-' :: (pair d.month ++ '-' :: (pair d.day ++ rest)) := by
    rw [dateText, yearText_of_inYears hy]
    simp only [List.append_assoc, List.cons_append]
  have hsign : ∀ rest', dateText d ++ rest ≠ '-' :: rest' := by
    obtain ⟨c, l, hl, hc⟩ := yearText_digit hy
    rintro rest' heq
    rw [htext, ← yearText_of_inYears hy, hl] at heq
    cases heq
    cases hc
  have hyear : ∀ cs, digits? 4 0 9999 (padded 4 d.year.toNat ++ cs) = some (d.year.toNat, cs) := by
    intro cs
    have hlen : (padded 4 d.year.toNat).length = 4 :=
      length_padded (by decide) (show d.year.toNat < 10000 by omega)
    have hrun : digits? 4 0 9999 (padded 4 d.year.toNat ++ cs) =
        some (value (padded 4 d.year.toNat), cs) :=
      digits?_run (isRun_padded 4 d.year.toNat) hlen (by rw [value_padded]; omega) cs
    rwa [value_padded] at hrun
  have hmonth : ∀ cs, digits? 2 1 12 (pair d.month ++ cs) = some (d.month.toNat, cs) :=
    digits?_pair (by omega) (by decide)
  have hday : ∀ cs, digits? 2 1 31 (pair d.day ++ cs) = some (d.day.toNat, cs) :=
    digits?_pair (by omega) (by decide)
  unfold date?
  split
  rename_i sign cs heq
  split at heq
  · exact (hsign _ ‹_›).elim
  · cases heq
    rw [htext]
    simp only [Option.bind_eq_bind, hyear, Option.bind_some, mark?_self, hmonth, hday,
      Option.pure_def, Int.one_mul, Int.toNat_of_nonneg hy.1,
      Int.toNat_of_nonneg (show 0 ≤ d.month by omega), Int.toNat_of_nonneg (show 0 ≤ d.day by omega)]

/-- Three digits of a fraction are taken as milliseconds. -/
theorem fraction_padded {n : Nat} (h : n < 1000) : fraction ('.' :: padded 3 n) = ((n : Int), []) := by
  have hrun := isRun_padded 3 n
  have hlen : (padded 3 n).length = 3 := length_padded (by decide) h
  have htake : (padded 3 n).takeWhile Char.isDigit = padded 3 n := by
    have hall : (padded 3 n ++ []).takeWhile Char.isDigit = padded 3 n := takeWhile_run hrun rfl
    rwa [List.append_nil] at hall
  have hdrop : (padded 3 n).dropWhile Char.isDigit = [] := by
    have := List.takeWhile_append_dropWhile (p := Char.isDigit) (l := padded 3 n)
    rw [htake] at this
    exact List.append_right_eq_self.1 this
  rw [fraction, htake, hdrop]
  simp only [if_neg (padded_ne_nil 3 n), hlen, value_padded]
  have hpow : Nat.pow 10 3 = 1000 := rfl
  rw [hpow]
  congr 1
  omega

/-- A time of the day is taken as its milliseconds. -/
theorem time?_clockText {n : Int} (hn : 0 ≤ n ∧ n < 86400) {ms : Nat} (hms : ms < 1000) :
    time? (clockText (.ofSeconds n) ++ '.' :: padded 3 ms) = some (n * 1000 + ms) := by
  have hhour : ∀ cs, digits? 2 0 24 (pair (n / 3600) ++ cs) = some ((n / 3600).toNat, cs) :=
    digits?_pair (by omega) (by decide)
  have hminute : ∀ cs, digits? 2 0 59 (pair (n % 3600 / 60) ++ cs) =
      some ((n % 3600 / 60).toNat, cs) := digits?_pair (by omega) (by decide)
  have hsecond : ∀ cs, digits? 2 0 59 (pair (n % 60) ++ cs) = some ((n % 60).toNat, cs) :=
    digits?_pair (by omega) (by decide)
  have htext : clockText (.ofSeconds n) ++ '.' :: padded 3 ms = pair (n / 3600) ++ ':' ::
      (pair (n % 3600 / 60) ++ ':' :: (pair (n % 60) ++ '.' :: padded 3 ms)) := by
    simp only [clockText, TimeOfDay.ofSeconds, List.append_assoc, List.cons_append]
  have hseconds : secondMillis (':' :: (pair (n % 60) ++ '.' :: padded 3 ms)) =
      some (((n % 60).toNat : Int) * 1000 + ms, []) := by
    unfold secondMillis
    simp only [Option.bind_eq_bind, hsecond, Option.bind_some, fraction_padded hms, Option.pure_def]
  unfold time?
  rw [htext]
  simp only [Option.bind_eq_bind, hhour, Option.bind_some, mark?_self, hminute, hseconds,
    show offset? [] = some 0 from rfl, Option.pure_def, Option.some.injEq]
  omega

/-- **A stored text is read as the milliseconds of its instant.** -/
theorem millis?_stored (ht : t.InYears) : millis? (stored t).toList = some t.millis := by
  have hvalid : t.date.isValid = true := Date.isValid_ofDays t.dayNumber
  have hs := t.secondOfDay_bounds
  have hms := t.milli_bounds
  have htime : time? (clockText (.ofSeconds t.secondOfDay) ++ '.' :: padded 3 t.milli.toNat) =
      some (t.secondOfDay * 1000 + t.milli.toNat) := time?_clockText hs (by omega)
  -- After the date there is one blank, and then a digit.
  have hrest : (' ' :: (clockText (.ofSeconds t.secondOfDay) ++ '.' :: padded 3 t.milli.toNat)).dropWhile
      (fun c => isSpace c || c == 'T') =
      clockText (.ofSeconds t.secondOfDay) ++ '.' :: padded 3 t.milli.toNat := by
    obtain ⟨c, l, hl⟩ := List.exists_cons_of_ne_nil (pair_ne_nil (t.secondOfDay / 3600))
    have hc : c.isDigit = true := by
      have hrun := isRun_pair (t.secondOfDay / 3600)
      rw [hl] at hrun
      exact (isRun_cons.1 hrun).1
    have hstop : (isSpace c || c == 'T') = false := by
      rw [isSpace, isBlank_eq_false_of_isDigit hc, Bool.and_false, Bool.false_or, beq_eq_false_iff_ne]
      rintro rfl
      cases hc
    rw [List.dropWhile_cons_of_pos (by rfl)]
    simp only [clockText, TimeOfDay.ofSeconds, hl, List.cons_append]
    rw [List.dropWhile_cons_of_neg (by rw [hstop]; decide)]
  have hne : clockText (.ofSeconds t.secondOfDay) ++ '.' :: padded 3 t.milli.toNat ≠ [] := by
    simp
  unfold millis?
  rw [stored, String.toList_ofList, storedChars_eq]
  simp only [Option.bind_eq_bind, date?_dateText hvalid ht, Option.bind_some, hrest, if_neg hne, htime,
    Option.pure_def, Option.some.injEq]
  have hdays : t.date.toDays = t.dayNumber := Date.toDays_ofDays t.dayNumber
  have hmillis := t.millis_eq
  rw [hdays, Instant.millis, hmillis]
  omega

/-! ### Writing -/

/-- The milliseconds of the years 0 to 9999 are known to the database. -/
theorem millis_bounds (ht : t.InYears) : firstMilli ≤ t.millis ∧ t.millis ≤ lastMilli := by
  have hlow : -719528 ≤ t.dayNumber := by
    refine Int.not_lt.1 fun hn => ?_
    have hy : t.date.year ≤ (Date.ofDays (-719529)).year := Date.year_mono (by omega)
    exact absurd (Int.le_trans ht.1 hy) (by decide)
  have hhigh : t.dayNumber < 2932897 := by
    refine Int.not_le.1 fun hn => ?_
    have hy : (Date.ofDays 2932897).year ≤ t.date.year := Date.year_mono hn
    exact absurd (Int.le_trans hy ht.2) (by decide)
  have hmillis := t.millis_eq
  have hs := t.secondOfDay_bounds
  have hms := t.milli_bounds
  rw [Instant.millis, hmillis, firstMilli, lastMilli]
  omega

/-- **The milliseconds of an instant are written as its stored text.** -/
theorem stamp?_millis (ht : t.InYears) : stamp? t.millis = some (stored t) := by
  have hfloor : Instant.ofNanos? (t.millis * nanosPerMilli) = some t.floorMillis :=
    Instant.ofNanos?_eq_some_iff.2 rfl
  rw [stamp?, if_pos (millis_bounds ht), hfloor, Option.map_some, stored_floorMillis]

/-- A whole number of milliseconds later is what the application would have computed. -/
theorem later?_eq {u : Instant} {d : Span} (hu : u.nanos = t.nanos + d.nanos)
    (hd : d.WholeMillis) (hd0 : 0 ≤ d.nanos) (hf : d.microsFit) (hy : u.InYears) :
    later? t.millis d.cappedMicros = some (stored u) := by
  have hmillis : t.millis + (d.wholeMicros + 500) / 1000 = u.millis := by
    have hmicros : d.wholeMicros = d.nanos / 1000 := Int.tdiv_eq_ediv_of_nonneg hd0
    rw [Span.WholeMillis, nanosPerMilli] at hd
    rw [hmicros, Instant.millis, Instant.millis, hu, nanosPerMilli]
    omega
  rw [later?, Span.cappedMicros_eq hf, hmillis, stamp?_millis hy]

end Sql.ServerTime

/-! ### Stampable instants -/

/-- Different instants are different moments. -/
theorem Moment.ofInstant_inj {t u : Instant} (h : Moment.ofInstant t = Moment.ofInstant u) :
    t = u := by
  have hs : t.seconds = u.seconds := congrArg Moment.seconds h
  have hn : t.subsecond.toNat = u.subsecond.toNat := congrArg Moment.nanos h
  ext
  simp only [Instant.seconds, Instant.subsecond, nanosPerSecond] at hs hn
  omega

namespace Instant.Stampable

variable {t u : Instant}

theorem stored_le_iff (ht : t.Stampable) (hu : u.Stampable) :
    Stamp.stored t ≤ Stamp.stored u ↔ t ≤ u := by
  rw [Stamp.stored_le_iff ht.inYears hu.inYears, ht.whole, hu.whole]

/-- Different instants have different stamps. -/
theorem eq_of_stored (ht : t.Stampable) (hu : u.Stampable) (h : Stamp.stored t = Stamp.stored u) :
    t = u := by
  have hle := (ht.stored_le_iff hu).1 (h ▸ String.le_refl _)
  have hge := (hu.stored_le_iff ht).1 (h ▸ String.le_refl _)
  exact Instant.ext (Int.le_antisymm hle hge)

theorem latest (ht : t.Stampable) (hu : u.Stampable) : (max t u).Stampable := by
  show (if t ≤ u then u else t).Stampable
  split
  · exact hu
  · exact ht

/-- Whole milliseconds after a stampable instant, and no later than one of these years. -/
theorem later {d : Span} (ht : t.Stampable) (hd : d.WholeMillis) (hd0 : 0 ≤ d.nanos)
    (hu : u.nanos = t.nanos + d.nanos) (hy : u.date.year ≤ 9999) : u.Stampable where
  inYears := by
    have hle : t ≤ u := Instant.le_def.2 (by omega)
    exact ⟨Int.le_trans ht.inYears.1 (Instant.year_le_year hle), hy⟩
  whole := by
    have hw := congrArg Instant.nanos ht.whole
    rw [Span.WholeMillis] at hd
    ext
    simp only [Instant.nanos_floorMillis, nanosPerMilli] at *
    omega

/-- The greater of two texts is that of the later instant. -/
theorem greater_stored (ht : t.Stampable) (hu : u.Stampable) :
    Sql.greater (Stamp.stored t) (Stamp.stored u) = Stamp.stored (max u t) := by
  rw [Sql.greater]
  by_cases h : t ≤ u
  · have hmax : max u t = u := Instant.ext (by rw [Instant.nanos_max]; exact Int.max_eq_left h)
    rw [if_pos ((stored_le_iff ht hu).2 h), hmax]
  · have hmax : max u t = t :=
      Instant.ext (by rw [Instant.nanos_max]; exact Int.max_eq_right (Int.le_of_not_le h))
    rw [if_neg fun e => h ((stored_le_iff ht hu).1 e), hmax]

end Instant.Stampable

namespace Terms.Stampable

variable {t : Terms}

theorem atMostUntil (ht : t.Stampable) : t.atMostUntil.Stampable :=
  ht.createdAt.later ht.atMostFor t.atMostFor_nonneg t.atMostUntil_eq ht.inYears.2

/-- The minimum of a lease can be counted from any instant before its terms. -/
theorem exists_least (ht : t.Stampable) {since : Instant} (hs : since.Stampable)
    (hle : since ≤ t.createdAt) :
    ∃ e : Instant, e.nanos = since.nanos + t.atLeastFor.nanos ∧ e.Stampable ∧
      e ≤ t.atLeastUntil := by
  have hnonneg : 0 ≤ t.atLeastFor.nanos := t.atLeastFor_nonneg
  have hlow := since.lower
  have hhigh := t.atLeastUntil.upper
  have hleast := t.atLeastUntil_eq
  have hlonger : t.atLeastFor.nanos ≤ t.atMostFor.nanos := t.atLeastFor_le
  have hmost := t.atMostUntil_eq
  rw [Instant.le_def] at hle
  refine ⟨⟨since.nanos + t.atLeastFor.nanos, by omega, by omega⟩, rfl, ?_, ?_⟩
  · refine hs.later ht.atLeastFor hnonneg rfl ?_
    exact Int.le_trans (Instant.year_le_year (Instant.le_def.2 (by simp only; omega))) ht.inYears.2
  · exact Instant.le_def.2 (by simp only; omega)

theorem atLeastUntil (ht : t.Stampable) : t.atLeastUntil.Stampable := by
  obtain ⟨e, he, hs, -⟩ := ht.exists_least ht.createdAt (Int.le_refl _)
  rwa [Instant.ext (he.trans t.atLeastUntil_eq.symm)] at hs

end Terms.Stampable
end LeaseLock
