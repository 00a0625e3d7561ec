import LeaseLock.Duration.Notation
import LeaseLock.Duration.Written
import LeaseLock.Proofs.Digits

/-!
# Written durations are read back

The reader for durations, applied to the standard text of a span.

## The model

`written` and `read` know nothing of each other. What is written is `P0D`, or `PT`, a number of
seconds with up to nine decimals, and `S`; the last decimal is not a zero. The reader drops blanks,
tells the notation by the first character, splits the text into components, and adds their spans up
with checks of the range after each step.

## What is proved

`read_written`: a span that is not negative is read back from its text exactly, up to the greatest
there is; and no text at all is read as a negative span.
-/

namespace LeaseLock.Duration

open Text Text.Numeral

variable {c e : Char} {ds : List Char} {d total : Span}

/-! ### Zeros at the end -/

theorem value_append_zeros (ds : List Char) (k : Nat) :
    value (ds ++ List.replicate k '0') = value ds * Nat.pow 10 k := by
  induction k with
  | zero => rw [List.replicate_zero, List.append_nil]; exact (Nat.mul_one _).symm
  | succ k ih =>
    rw [List.replicate_succ', ← List.append_assoc, value_append, ih]
    show 10 * (value ds * Nat.pow 10 k) + 0 = value ds * (Nat.pow 10 k * 10)
    rw [Nat.add_zero, Nat.mul_comm 10, Nat.mul_assoc]

/-- Nothing but zeros is dropped. -/
theorem exists_zeros (ds : List Char) :
    ∃ k, ds = withoutTrailingZeros ds ++ List.replicate k '0' := by
  refine ⟨(ds.reverse.takeWhile (· == '0')).length, ?_⟩
  have hzeros : ds.reverse.takeWhile (· == '0') =
      List.replicate (ds.reverse.takeWhile (· == '0')).length '0' :=
    List.eq_replicate_of_mem fun c hc => beq_iff_eq.1 (List.all_eq_true.1 List.all_takeWhile c hc)
  have h := congrArg List.reverse
    (List.takeWhile_append_dropWhile (p := (· == '0')) (l := ds.reverse))
  rw [List.reverse_append, List.reverse_reverse, hzeros, List.reverse_replicate] at h
  exact h.symm

theorem isRun_withoutTrailingZeros (h : isRun ds = true) :
    isRun (withoutTrailingZeros ds) = true := by
  obtain ⟨k, hk⟩ := exists_zeros ds
  rw [hk, isRun, List.all_append, Bool.and_eq_true] at h
  exact h.1

/-- The zeros that were dropped are made up for by the weight of the digits that are left. -/
theorem fractionNanos_withoutTrailingZeros (h : ds.length = 9) :
    Iso.fractionNanos (withoutTrailingZeros ds) = value ds := by
  obtain ⟨k, hk⟩ := exists_zeros ds
  have hl := congrArg List.length hk
  rw [List.length_append, List.length_replicate, h] at hl
  rw [Iso.fractionNanos, List.take_of_length_le (by omega),
    show 9 - (withoutTrailingZeros ds).length = k by omega, ← value_append_zeros, ← hk]

/-! ### The parts of the text -/

theorem toUpper_of_isDigit (h : c.isDigit = true) : c.toUpper = c := by
  have hc := toNat_of_isDigit h
  have hlower : ¬(97 ≤ c.toNat ∧ c.toNat ≤ 122) := by omega
  exact dif_neg hlower

theorem isLetter_of_isDigit (h : c.isDigit = true) : Iso.isLetter c = false := by
  have hc := toNat_of_isDigit h
  have hupper : ¬(65 ≤ c.toNat ∧ c.toNat ≤ 90) := by omega
  have hlower : ¬97 ≤ c.toNat := by omega
  exact Bool.or_eq_false_iff.2
    ⟨decide_eq_false hupper, Bool.and_eq_false_imp.2 fun h => absurd (of_decide_eq_true h) hlower⟩

/-- A text whose first and last characters are not blank is not trimmed. -/
theorem trimChars_of_ends (hc : isBlank c = false) (he : isBlank e = false) :
    trimChars (c :: ds ++ [e]) = c :: ds ++ [e] := by
  have hfirst : (c :: ds ++ [e]).dropWhile isBlank = c :: ds ++ [e] :=
    List.dropWhile_cons_of_neg (by rw [hc]; exact Bool.false_ne_true)
  have hlast : (e :: (c :: ds).reverse).dropWhile isBlank = e :: (c :: ds).reverse :=
    List.dropWhile_cons_of_neg (by rw [he]; exact Bool.false_ne_true)
  rw [trimChars, hfirst, List.reverse_append, List.reverse_singleton, List.singleton_append, hlast,
    List.reverse_cons, List.reverse_reverse]

/-- One component is split off as it is. -/
theorem components_single {seen : List Char} (hds : ∀ c ∈ ds, Iso.isLetter c = false)
    (he : Iso.isLetter e = true) (hne : seen ≠ [] ∨ ds ≠ []) :
    Iso.components seen (ds ++ [e]) = some [(seen.reverse ++ ds, e)] := by
  induction ds generalizing seen with
  | nil =>
    have hseen : seen ≠ [] := hne.resolve_right fun h => h rfl
    rw [List.nil_append, Iso.components, if_pos he, if_neg hseen, List.append_nil]
    rfl
  | cons c ds ih =>
    rw [List.cons_append, Iso.components, if_neg (by rw [hds c List.mem_cons_self]; decide),
      ih (fun x hx => hds x (List.mem_cons_of_mem _ hx)) (.inl (List.cons_ne_nil _ _)),
      List.reverse_cons, List.append_assoc, List.singleton_append]

/-! ### Seconds -/

/-- The decimals that stand for a number of nanoseconds below a second, behind a point if there are
any. -/
theorem exists_decimals {m : Nat} (hm : m < 1000000000) :
    ∃ ds, (fractionText m = [] ∧ ds = [] ∨ fractionText m = '.' :: ds) ∧ isRun ds = true ∧
      Iso.fractionNanos ds = m := by
  rw [fractionText]
  split
  · rename_i h0
    exact ⟨[], .inl ⟨rfl, rfl⟩, rfl, h0.symm⟩
  · refine ⟨_, .inr rfl, isRun_withoutTrailingZeros (isRun_padded 9 m), ?_⟩
    rw [fractionNanos_withoutTrailingZeros (length_padded (by decide) hm), value_padded]

theorem mem_fractionText {m : Nat} (hm : m < 1000000000) (h : c ∈ fractionText m) :
    c = '.' ∨ c.isDigit = true := by
  obtain ⟨ds, hds | hds, hrun, -⟩ := exists_decimals hm
  · rw [hds.1] at h
    cases h
  · rw [hds] at h
    exact (List.mem_cons.1 h).imp_right (List.all_eq_true.1 hrun c)

/-- A number of seconds with decimals is split at its point. -/
theorem split_seconds (n : Nat) {m : Nat}
    (hds : fractionText m = [] ∧ ds = [] ∨ fractionText m = '.' :: ds) :
    (digits n ++ fractionText m).takeWhile (· != '.') = digits n ∧
      ((digits n ++ fractionText m).dropWhile (· != '.')).drop 1 = ds := by
  have hdigit : ∀ c ∈ digits n, (c != '.') = true := fun c hc => by
    have hc := toNat_of_isDigit (List.all_eq_true.1 (isRun_digits n) c hc)
    refine bne_iff_ne.2 fun h => ?_
    rw [h] at hc
    exact absurd hc.1 (by decide)
  rw [List.takeWhile_append_of_pos hdigit, List.dropWhile_append_of_pos hdigit]
  obtain ⟨hf, rfl⟩ | hf := hds
  · rw [hf]
    exact ⟨List.append_nil _, rfl⟩
  · rw [hf]
    exact ⟨List.append_nil _, rfl⟩

/-- **The seconds of a span** are read with all their decimals. -/
theorem fractionalSeconds_written {n m : Nat} (hm : m < 1000000000)
    (hd : d.nanos = n * nanosPerSecond + m) :
    Iso.fractionalSeconds (digits n ++ fractionText m) = some d := by
  have hupper := d.upper
  have hd' : d.nanos = n * 1000000000 + m := hd
  simp only [Span.limit, nanosPerMilli] at hupper
  have hword : signedWord? (digits n) = some n := by
    rw [signedWord?, value_digits, if_pos (by rw [word63]; omega)]
  -- The seconds alone, and the decimals alone, are within the bounds if the span is.
  obtain ⟨seconds, hs⟩ : ∃ s : Span, s.nanos = n * nanosPerSecond :=
    ⟨⟨n * nanosPerSecond, by simp only [Span.limit, nanosPerMilli, nanosPerSecond]; omega,
      by simp only [Span.limit, nanosPerMilli, nanosPerSecond]; omega⟩, rfl⟩
  obtain ⟨rest, hr⟩ : ∃ r : Span, r.nanos = m :=
    ⟨⟨m, by simp only [Span.limit, nanosPerMilli]; omega,
      by simp only [Span.limit, nanosPerMilli]; omega⟩, rfl⟩
  have hsum : seconds.add? rest = some d := by rw [Span.add?_eq_some_iff, hs, hr, hd]
  have hne : digits n ≠ [] := List.ne_nil_of_length_pos Nat.length_toDigits_pos
  obtain ⟨ds, hds, hrun, hnanos⟩ := exists_decimals hm
  obtain ⟨hwhole, hfrac⟩ := split_seconds n hds
  simp only [Iso.fractionalSeconds, hwhole, hfrac]
  rw [if_pos ⟨hne, isRun_digits n, hrun⟩, hnanos]
  exact Option.bind_eq_some_iff.2 ⟨n, hword, Option.bind_eq_some_iff.2
    ⟨seconds, Span.ofNanos?_eq_some_iff.2 hs, Option.bind_eq_some_iff.2
      ⟨rest, Span.ofNanos?_eq_some_iff.2 hr, hsum⟩⟩⟩

/-! ### The whole text -/

/-- The text of a span that is longer than nothing. -/
theorem writtenChars_of_pos (h : 0 < d.nanos) :
    writtenChars d = 'P' :: 'T' :: (digits (d.nanos.natAbs / 1000000000) ++
      fractionText (d.nanos.natAbs % 1000000000)) ++ ['S'] := by
  rw [writtenChars, if_neg (by omega), if_neg (by omega)]
  simp only [List.nil_append, List.cons_append]

theorem readBody_written (h : 0 < d.nanos) :
    Iso.readBody ('T' :: (digits (d.nanos.natAbs / 1000000000) ++
      fractionText (d.nanos.natAbs % 1000000000)) ++ ['S']) = .value d := by
  have hm : d.nanos.natAbs % 1000000000 < 1000000000 := Nat.mod_lt _ (by decide)
  have hd : d.nanos = ↑(d.nanos.natAbs / 1000000000) * nanosPerSecond +
      ↑(d.nanos.natAbs % 1000000000) := by
    rw [nanosPerSecond]
    omega
  generalize d.nanos.natAbs / 1000000000 = n at hd ⊢
  generalize d.nanos.natAbs % 1000000000 = m at hd hm ⊢
  have hseconds := fractionalSeconds_written hm hd
  have hne : digits n ++ fractionText m ≠ [] := fun h => by
    rw [h] at hseconds
    cases hseconds
  have hletters : ∀ c ∈ digits n ++ fractionText m, Iso.isLetter c = false := fun c hc => by
    obtain hc | hc := List.mem_append.1 hc
    · exact isLetter_of_isDigit (List.all_eq_true.1 (isRun_digits n) c hc)
    · obtain rfl | hc := mem_fractionText hm hc
      · rfl
      · exact isLetter_of_isDigit hc
  have hcomponents : Iso.components [] ((digits n ++ fractionText m) ++ ['S']) =
      some [([].reverse ++ (digits n ++ fractionText m), 'S')] :=
    components_single hletters rfl (.inr hne)
  have hadd : Span.zero.add? d = some d := Span.add?_eq_some_iff.2 (Int.zero_add _).symm
  generalize digits n ++ fractionText m = time at hne hseconds hcomponents
  rw [List.reverse_nil, List.nil_append] at hcomponents
  have htime : time ++ ['S'] ≠ [] := List.append_ne_nil_of_right_ne_nil _ (List.cons_ne_nil _ _)
  simp only [Iso.readBody, List.cons_append, List.takeWhile_cons, List.dropWhile_cons,
    bne_self_eq_false, if_false, Bool.false_eq_true, List.tail?_cons, Option.some.injEq, htime,
    reduceCtorEq, and_false, or_self, Iso.components, if_true, Outcome.ofOption,
    Outcome.value_bind, Iso.addAll, hcomponents, Iso.timeComponent, hseconds, hadd, Outcome.orBreak]

/-- Large letters, digits and points are left as they are. -/
theorem map_toUpper_written (n : Nat) {m : Nat} (hm : m < 1000000000) :
    ('P' :: 'T' :: (digits n ++ fractionText m) ++ ['S']).map Char.toUpper =
      'P' :: 'T' :: (digits n ++ fractionText m) ++ ['S'] := by
  have hpart : (digits n ++ fractionText m).map Char.toUpper = digits n ++ fractionText m := by
    refine (List.map_congr_left fun c hc => ?_).trans (List.map_id _)
    obtain hc | hc := List.mem_append.1 hc
    · exact toUpper_of_isDigit (List.all_eq_true.1 (isRun_digits n) c hc)
    · obtain rfl | hc := mem_fractionText hm hc
      · rfl
      · exact toUpper_of_isDigit hc
  rw [List.map_append, List.map_cons, List.map_cons, hpart]
  rfl

/-- **The text of a span** is read as that span. -/
theorem read_written_of_pos (h : 0 < d.nanos) : read (written d) = .value d := by
  have hchars := writtenChars_of_pos h
  have hbody := readBody_written h
  have hupper := map_toUpper_written (d.nanos.natAbs / 1000000000)
    (Nat.mod_lt d.nanos.natAbs (show 0 < 1000000000 by decide))
  rw [read, written, String.toList_ofList, hchars, trimChars_of_ends rfl rfl]
  generalize digits (d.nanos.natAbs / 1000000000) ++ fractionText (d.nanos.natAbs % 1000000000) =
    time at hbody hupper
  have hiso : Iso.read ('P' :: 'T' :: time ++ ['S']) = .value d := by
    rw [Iso.read, hupper]
    exact hbody
  have hrun : ¬isRun ('P' :: 'T' :: time ++ ['S']) = true := by
    rw [List.cons_append, List.cons_append, isRun_cons]
    exact fun h => absurd h.1 (by decide)
  rw [readTrimmed, if_neg (show 'P' :: 'T' :: time ++ ['S'] ≠ [] from List.cons_ne_nil _ _),
    if_neg hrun, if_pos (.inl rfl), hiso]
  rfl

/-! ### No negative spans -/

theorem nonneg_of_ofNanos? {n : Int} (h : Span.ofNanos? n = some d) (hn : 0 ≤ n) :
    Span.zero ≤ d := by
  rw [Span.le_def, Span.ofNanos?_eq_some_iff.1 h]
  exact hn

theorem nonneg_add? {r : Span} (h : total.add? d = some r) (ht : Span.zero ≤ total)
    (hd : Span.zero ≤ d) : Span.zero ≤ r :=
  nonneg_of_ofNanos? h (Int.add_nonneg ht hd)

theorem nonneg_wholeUnits {k : Nat} {cs : List Char} (h : Iso.wholeUnits k cs = some d) :
    Span.zero ≤ d := by
  rw [Iso.wholeUnits] at h
  split at h
  · obtain ⟨n, -, hn⟩ := Option.bind_eq_some_iff.1 h
    split at hn
    · exact nonneg_of_ofNanos? hn (Int.mul_nonneg (Int.natCast_nonneg _) (by decide))
    · cases hn
  · cases h

theorem nonneg_fractionalSeconds {cs : List Char} (h : Iso.fractionalSeconds cs = some d) :
    Span.zero ≤ d := by
  rw [Iso.fractionalSeconds] at h
  split at h
  · obtain ⟨n, -, h⟩ := Option.bind_eq_some_iff.1 h
    obtain ⟨seconds, hs, h⟩ := Option.bind_eq_some_iff.1 h
    obtain ⟨rest, hr, h⟩ := Option.bind_eq_some_iff.1 h
    exact nonneg_add? h
      (nonneg_of_ofNanos? hs (Int.mul_nonneg (Int.natCast_nonneg _) (by decide)))
      (nonneg_of_ofNanos? hr (Int.natCast_nonneg _))
  · cases h

theorem nonneg_dateComponent {x : List Char × Char} (h : Iso.dateComponent x = some d) :
    Span.zero ≤ d := by
  unfold Iso.dateComponent at h
  split at h
  · exact nonneg_wholeUnits h
  · cases h

theorem nonneg_timeComponent {x : List Char × Char} (h : Iso.timeComponent x = some d) :
    Span.zero ≤ d := by
  unfold Iso.timeComponent at h
  split at h
  · exact nonneg_wholeUnits h
  · exact nonneg_wholeUnits h
  · exact nonneg_fractionalSeconds h
  · cases h

/-- A sum of spans that are not negative is not negative, either. -/
theorem nonneg_addAll {span : List Char × Char → Option Span}
    (hspan : ∀ {x d}, span x = some d → Span.zero ≤ d) {xs : List (List Char × Char)}
    (ht : Span.zero ≤ total) (h : Iso.addAll span total xs = .value d) : Span.zero ≤ d := by
  induction xs generalizing total with
  | nil =>
    cases h
    exact ht
  | cons x xs ih =>
    rw [Iso.addAll] at h
    obtain ⟨e, he, h⟩ := Outcome.bind_eq_value_iff.1 h
    obtain ⟨sum, hsum, h⟩ := Outcome.bind_eq_value_iff.1 h
    exact ih (nonneg_add? (Outcome.orBreak_eq_value_iff.1 hsum) ht
      (hspan (Outcome.ofOption_eq_value_iff.1 he))) h

theorem nonneg_readBody {body : List Char} (h : Iso.readBody body = .value d) : Span.zero ≤ d := by
  simp only [Iso.readBody] at h
  split at h
  · cases h
  · obtain ⟨days, -, h⟩ := Outcome.bind_eq_value_iff.1 h
    obtain ⟨total, htotal, h⟩ := Outcome.bind_eq_value_iff.1 h
    have ht : Span.zero ≤ total := nonneg_addAll nonneg_dateComponent (Int.le_refl 0) htotal
    split at h
    · cases h
      exact ht
    · obtain ⟨times, -, h⟩ := Outcome.bind_eq_value_iff.1 h
      exact nonneg_addAll nonneg_timeComponent ht h

theorem nonneg_iso {cs : List Char} (h : Iso.read cs = .value d) : Span.zero ≤ d := by
  unfold Iso.read at h
  split at h
  · exact nonneg_readBody h
  · cases h

theorem nonneg_ofMillis? {cs : List Char} (h : ofMillis? cs = some d) : Span.zero ≤ d := by
  rw [ofMillis?] at h
  obtain ⟨n, -, hn⟩ := Option.bind_eq_some_iff.1 h
  exact nonneg_of_ofNanos? hn (Int.mul_nonneg (Int.natCast_nonneg n) (by decide))

theorem nonneg_readTrimmed {cs : List Char} (h : readTrimmed cs = .value d) : Span.zero ≤ d := by
  simp only [readTrimmed] at h
  split at h
  · cases h
  split at h
  · exact nonneg_ofMillis? (Outcome.ofOption_eq_value_iff.1 h)
  split at h
  · exact nonneg_iso (Outcome.mapFault_eq_value_iff.1 h)
  · obtain ⟨e, -, h⟩ := Outcome.bind_eq_value_iff.1 h
    exact nonneg_of_ofNanos? (Outcome.ofOption_eq_value_iff.1 h) (Int.add_nonneg
      (Int.mul_nonneg (Int.natCast_nonneg _) (by decide)) (Int.natCast_nonneg _))

/-! ### Both ways -/

/-- No time at all has a text of its own. -/
theorem read_written_zero : read (written Span.zero) = .value Span.zero := by
  decide +kernel

/-- **Written durations are read back**: a span that is not negative is read from its text exactly,
whatever its nanoseconds and up to the greatest span; and whatever text is read as a span, the span
is not negative. -/
theorem read_written :
    (∀ d, Span.zero ≤ d → read (written d) = .value d) ∧
      ∀ s d, read s = .value d → Span.zero ≤ d := by
  refine ⟨fun d hd => ?_, fun s d h => nonneg_readTrimmed h⟩
  by_cases h : d.nanos = 0
  · obtain rfl : d = Span.zero := Span.ext h
    exact read_written_zero
  · exact read_written_of_pos (by have : 0 ≤ d.nanos := hd; omega)

/-- The greatest span is read back, and the text `PT0.5S` is read as a span that is not negative. -/
theorem greatest_read_written :
    (read (written ⟨Span.limit, by decide, by decide⟩) =
        .value ⟨Span.limit, by decide, by decide⟩ ∧
      written ⟨Span.limit, by decide, by decide⟩ = "PT9223372036854775.807S") ∧
      read "PT0.5S" = .value ⟨500000000, by decide, by decide⟩ ∧
      Span.zero ≤ (⟨500000000, by decide, by decide⟩ : Span) :=
  have hhalf : read "PT0.5S" = .value ⟨500000000, by decide, by decide⟩ := by decide +kernel
  ⟨⟨read_written.1 _ (by decide), by decide +kernel⟩, hhalf, read_written.2 _ _ hhalf⟩

end LeaseLock.Duration
