import LeaseLock.Proofs.Overruns

/-!
# Durations that are written in two ways

The same number of days, hours, minutes, seconds or milliseconds in two notations.

## The model

A `Figure` is a number as it may be written, of any length and with as many zeros before it as one
likes. `CommonUnit` has the units that both the international notation and the words know;
`international` and `worded` are the texts for a number of them. A text `Denotes` a number of
nanoseconds if it is read as the span of that length, or as invalid where there is no such span.
Two texts agree if they are read as the same span, or both are invalid.

## What is proved

`synonyms_agree`: the texts for a number of a common unit agree, whatever the number. Plain digits and
the same digits with `ms` agree exactly if the number is small or there is no such span: in words,
milliseconds are counted as a 64-bit number of nanoseconds (`plain_not_ms` has the first number that
is too large for them). And days, hours, minutes and seconds together are read alike in both
notations, as long as there is a span for them.
-/

namespace LeaseLock.Duration

open Text Text.Numeral Iso

variable {s s' : String} {k : Nat} {n : Figure} {d : Span}

/-! ### Agreement -/

/-- The text is reported as an invalid configuration. -/
def IsInvalid (s : String) : Prop :=
  ∃ f, read s = .fault f ∧ (LockError.duration f).kind = .invalidConfiguration

/-- The texts are read as the same span, or both are invalid. -/
def Agree (s s' : String) : Prop :=
  (∃ d, read s = .value d ∧ read s' = .value d) ∨ IsInvalid s ∧ IsInvalid s'

/-- The text is read as the span of so many nanoseconds, or as invalid if there is none. -/
structure Denotes (s : String) (k : Nat) : Prop where
  value_iff : ∀ d, read s = .value d ↔ d.nanos = k
  not_breakdown : read s ≠ .breakdown

namespace Denotes

theorem of_ofOption {f : DurationFault} (h : read s = .ofOption f (Span.ofNanos? k)) :
    Denotes s k where
  value_iff d := by rw [h, Outcome.ofOption_eq_value_iff, Span.ofNanos?_eq_some_iff]
  not_breakdown hb := by
    rw [h] at hb
    cases hspan : Span.ofNanos? k <;>
    · rw [hspan] at hb
      cases hb

theorem of_fault {f : DurationFault} (h : read s = .fault f) (hk : Span.limit < k) :
    Denotes s k where
  value_iff d := by
    rw [h]
    exact ⟨(nomatch ·), fun hd => absurd d.upper (Int.not_le.2 (hd ▸ hk))⟩
  not_breakdown hb := nomatch h.symm.trans hb

theorem isInvalid (h : Denotes s k) (hk : Span.limit < k) : IsInvalid s := by
  cases hread : read s with
  | value d => exact absurd d.upper (Int.not_le.2 ((h.value_iff d).1 hread ▸ hk))
  | fault f => exact ⟨f, hread, rfl⟩
  | breakdown => exact (h.not_breakdown hread).elim

theorem exists_value (h : Denotes s k) (hk : (k : Int) ≤ Span.limit) :
    ∃ d : Span, read s = .value d ∧ d.nanos = k := by
  have hlower : -Span.limit ≤ (k : Int) := by
    simp only [Span.limit, nanosPerMilli]
    omega
  exact ⟨⟨k, hlower, hk⟩, (h.value_iff _).2 rfl, rfl⟩

theorem agree (h : Denotes s k) (h' : Denotes s' k) : Agree s s' := by
  by_cases hk : (k : Int) ≤ Span.limit
  · obtain ⟨d, hread, hd⟩ := h.exists_value hk
    exact .inl ⟨d, hread, (h'.value_iff d).2 hd⟩
  · exact .inr ⟨h.isInvalid (Int.not_le.1 hk), h'.isInvalid (Int.not_le.1 hk)⟩

end Denotes

/-! ### The texts -/

/-- The units that both notations know. -/
inductive CommonUnit where
  | days | hours | minutes | seconds

namespace CommonUnit

/-- The seconds of a unit. -/
def size : CommonUnit → Nat
  | days => 86400
  | hours => 3600
  | minutes => 60
  | seconds => 1

/-- The letter of the unit in words. -/
def letter : CommonUnit → Char
  | days => 'd'
  | hours => 'h'
  | minutes => 'm'
  | seconds => 's'

/-- A number of units in the international notation. -/
def international (n : Figure) : CommonUnit → String
  | days => String.ofList ('P' :: (n.chars ++ ['D']))
  | hours => String.ofList ('P' :: 'T' :: (n.chars ++ ['H']))
  | minutes => String.ofList ('P' :: 'T' :: (n.chars ++ ['M']))
  | seconds => String.ofList ('P' :: 'T' :: (n.chars ++ ['S']))

/-- A number of units in words. -/
def worded (n : Figure) (u : CommonUnit) : String := String.ofList (n.chars ++ [u.letter])

end CommonUnit

/-- A number of milliseconds as plain digits. -/
def plainMillis (n : Figure) : String := String.ofList n.chars

/-- A number of milliseconds in words. -/
def wordedMillis (n : Figure) : String := String.ofList (n.chars ++ ['m', 's'])

/-- Days, hours, minutes and seconds in the international notation. -/
def internationalTime (d h m s : Figure) : String :=
  String.ofList ('P' :: (d.chars ++ 'D' :: 'T' :: (h.chars ++ 'H' :: (m.chars ++ 'M' ::
    (s.chars ++ ['S'])))))

/-- Days, hours, minutes and seconds in words. -/
def wordedTime (d h m s : Figure) : String :=
  String.ofList (d.chars ++ 'd' :: ' ' :: (h.chars ++ 'h' :: ' ' :: (m.chars ++ 'm' :: ' ' ::
    (s.chars ++ ['s']))))

/-- The nanoseconds of days, hours, minutes and seconds. -/
def timeNanos (d h m s : Figure) : Nat :=
  (d.value * 86400 + h.value * 3600 + m.value * 60 + s.value) * 1000000000

/-! ### Plain digits -/

theorem dropWhile_of_plain {cs : List Char} (h : ∀ c ∈ cs, isBlank c = false) :
    cs.dropWhile isBlank = cs := by
  cases cs with
  | nil => rfl
  | cons c cs =>
    exact List.dropWhile_cons_of_neg (by rw [h c List.mem_cons_self]; exact Bool.false_ne_true)

theorem trimChars_of_isRun {cs : List Char} (h : isRun cs = true) : trimChars cs = cs := by
  have hplain : ∀ c ∈ cs, isBlank c = false := fun c hc =>
    isBlank_eq_false_of_isDigit (List.all_eq_true.1 h c hc)
  rw [trimChars, dropWhile_of_plain hplain,
    dropWhile_of_plain fun c hc => hplain c (List.mem_reverse.1 hc), List.reverse_reverse]

theorem ofMillis?_eq (cs : List Char) :
    ofMillis? cs = Span.ofNanos? ((value cs * 1000000 : Nat) : Int) := by
  refine Option.ext fun d => ?_
  have hupper := d.upper
  simp only [Span.limit, nanosPerMilli] at hupper
  rw [ofMillis?]
  simp only [bind, Option.bind_eq_some_iff, signedWord?_eq_some_iff, Span.ofNanos?_eq_some_iff,
    nanosPerMilli]
  constructor
  · rintro ⟨m, ⟨-, rfl⟩, hd⟩
    exact hd
  · intro hd
    exact ⟨_, ⟨by rw [word63]; omega, rfl⟩, hd⟩

theorem denotes_plainMillis (n : Figure) : Denotes (plainMillis n) (n.value * 1000000) := by
  refine .of_ofOption (f := .tooManyDigits (plainMillis n)) ?_
  rw [read, plainMillis, String.toList_ofList, trimChars_of_isRun n.isRun, readTrimmed,
    if_neg n.ne_nil, if_pos n.isRun, ofMillis?_eq]
  rfl

/-! ### The international notation -/

theorem addAll_single (span : Piece → Option Span) (x : Piece) :
    addAll span Span.zero [x] = .ofOption () (span x) := by
  rw [addAll]
  cases span x with
  | none => rfl
  | some d =>
    have hadd : Span.zero.add? d = some d := Span.add?_eq_some_iff.2 (Int.zero_add _).symm
    rw [Outcome.ofOption, Outcome.value_bind, hadd]
    rfl

theorem wholeUnits_eq (n : Figure) {k : Nat} (hk : 0 < k) :
    wholeUnits k n.chars = Span.ofNanos? ((n.value * (k * 1000000) : Nat) : Int) := by
  refine Option.ext fun d => ?_
  rw [wholeUnits_eq_some_iff hk, Span.ofNanos?_eq_some_iff]
  exact ⟨fun h => h.2, fun h => ⟨n.isRun, h⟩⟩

theorem fractionalSeconds_eq (n : Figure) :
    fractionalSeconds n.chars = Span.ofNanos? ((n.value * 1000000000 : Nat) : Int) := by
  refine Option.ext fun d => ?_
  rw [fractionalSeconds_iff, Span.ofNanos?_eq_some_iff]
  constructor
  · rintro ⟨c, hc, hd⟩
    cases c with
    | hours n' => exact absurd (Prod.mk.inj hc).2 (by decide)
    | minutes n' => exact absurd (Prod.mk.inj hc).2 (by decide)
    | seconds n' =>
      rw [hd, TimePart.nanos, Figure.value, (Prod.mk.inj hc).1]
      rfl
    | pointed n' ds hds =>
      -- There is no point among digits.
      have hpoint : '.' ∈ n.chars :=
        (Prod.mk.inj hc).1 ▸ List.mem_append_right _ List.mem_cons_self
      exact absurd (n.not_point _ hpoint) (by decide)
  · intro hd
    exact ⟨.seconds n, rfl, hd⟩

theorem not_mem_time (n : Figure) : 'T' ∉ n.chars ++ ['D'] := by
  have h := not_mem_dateText [n]
  rw [dateText, List.map_singleton, List.flatMap_singleton] at h
  exact h

theorem readBody_day (n : Figure) :
    readBody (n.chars ++ ['D']) = .ofOption () (dateComponent (n.chars, 'D')) := by
  rw [readBody_dates (not_mem_time n) (List.append_ne_nil_of_left_ne_nil n.ne_nil _),
    components_single n.plain rfl (.inr n.ne_nil), Outcome.ofOption, Outcome.value_bind,
    List.reverse_nil, List.nil_append, addAll_single]

theorem readBody_time (n : Figure) {c : Char} (hc : isLetter c = true) :
    readBody ('T' :: (n.chars ++ [c])) = .ofOption () (timeComponent (n.chars, c)) := by
  have hnone : 'T' ∉ ([] : List Char) := List.not_mem_nil
  have h := readBody_times hnone (List.append_ne_nil_of_left_ne_nil n.ne_nil [c])
  rw [List.nil_append] at h
  rw [h, components_single n.plain hc (.inr n.ne_nil)]
  exact addAll_single _ _

/-- A text in large letters is read from behind the `P`. -/
theorem read_capitals {body : List Char} {e : Char} (he : isBlank e = false)
    (hupper : (body ++ [e]).map Char.toUpper = body ++ [e]) :
    read (String.ofList ('P' :: (body ++ [e]))) =
      (readBody (body ++ [e])).mapFault fun _ =>
        .notIso (trim (String.ofList ('P' :: (body ++ [e])))) := by
  have htrim : trimChars (String.ofList ('P' :: (body ++ [e]))).toList = 'P' :: (body ++ [e]) := by
    rw [String.toList_ofList]
    exact trimChars_of_ends rfl he
  have hint : IsInternational (String.ofList ('P' :: (body ++ [e]))) := by
    rw [IsInternational, htrim]
    exact .inl rfl
  rw [read_of_isInternational hint, htrim, read_eq_readBody (by rw [List.map_cons, hupper]; rfl)]

theorem map_toUpper_figure (n : Figure) : n.chars.map Char.toUpper = n.chars :=
  (List.map_congr_left fun c hc => toUpper_of_isDigit (List.all_eq_true.1 n.isRun c hc)).trans
    (List.map_id _)

theorem mapFault_ofOption {ε δ α : Type} (f : ε → δ) (e : ε) (o : Option α) :
    (Outcome.ofOption e o).mapFault f = .ofOption (f e) o := by
  cases o <;> rfl

theorem denotes_time {c : Char} (hc : isLetter c = true) (hplain : isBlank c = false)
    (hupper : c.toUpper = c)
    (h : timeComponent (n.chars, c) = Span.ofNanos? k) :
    Denotes (String.ofList ('P' :: 'T' :: (n.chars ++ [c]))) k := by
  have hchars : ('T' :: n.chars ++ [c]).map Char.toUpper = 'T' :: n.chars ++ [c] := by
    rw [List.map_append, List.map_cons, map_toUpper_figure, List.map_singleton, hupper]
    rfl
  have hread := read_capitals hplain hchars
  rw [List.cons_append, readBody_time n hc, mapFault_ofOption, h] at hread
  exact .of_ofOption hread

/-- **A number of units** is denoted by its text in the international notation. -/
theorem denotes_international (n : Figure) (u : CommonUnit) :
    Denotes (u.international n) (n.value * (u.size * 1000000000)) := by
  cases u with
  | days =>
    have hchars : (n.chars ++ ['D']).map Char.toUpper = n.chars ++ ['D'] := by
      rw [List.map_append, map_toUpper_figure]
      rfl
    have hread := read_capitals rfl hchars
    rw [readBody_day, mapFault_ofOption, dateComponent, wholeUnits_eq n (by decide)] at hread
    exact .of_ofOption hread
  | hours => exact denotes_time rfl rfl rfl (wholeUnits_eq n (by decide))
  | minutes => exact denotes_time rfl rfl rfl (wholeUnits_eq n (by decide))
  | seconds => exact denotes_time rfl rfl rfl (fractionalSeconds_eq n)

/-- Days, hours, minutes and seconds, as they are written. -/
def timeWriting (d h m s : Figure) : Writing :=
  ⟨[d], [.hours h, .minutes m, .seconds s], .inl (List.cons_ne_nil _ _)⟩

theorem timeWriting_nanos (d h m s : Figure) : (timeWriting d h m s).nanos = timeNanos d h m s := by
  have hday : dayNanos d = d.value * 86400000000000 := rfl
  have hhour : (TimePart.hours h).nanos = h.value * 3600000000000 := rfl
  have hminute : (TimePart.minutes m).nanos = m.value * 60000000000 := rfl
  have hsecond : (TimePart.seconds s).nanos = s.value * 1000000000 := rfl
  rw [nanos_eq, timeWriting, timeNanos]
  simp only [sumOf_cons, sumOf_nil, hday, hhour, hminute, hsecond]
  omega

/-- Days, hours, minutes and seconds in the international notation, after the `P` and up to the last
letter. -/
def timeChars (d h m s : Figure) : List Char :=
  d.chars ++ 'D' :: 'T' :: (h.chars ++ 'H' :: (m.chars ++ 'M' :: s.chars))

theorem timeWriting_body (d h m s : Figure) :
    (timeWriting d h m s).body = timeChars d h m s ++ ['S'] := by
  simp only [timeChars, timeWriting, Writing.body, dateText, timeText, List.map_cons, List.map_nil,
    List.flatMap_cons, List.flatMap_nil, Piece.text, dayPiece, TimePart.piece, List.append_assoc,
    List.cons_append, List.nil_append, List.append_nil, List.isEmpty_cons, Bool.false_eq_true,
    if_false]

theorem internationalTime_eq (d h m s : Figure) :
    internationalTime d h m s = String.ofList ('P' :: (timeChars d h m s ++ ['S'])) := by
  simp only [internationalTime, timeChars, List.append_assoc, List.cons_append]

theorem map_toUpper_timeChars (d h m s : Figure) :
    (timeChars d h m s ++ ['S']).map Char.toUpper = timeChars d h m s ++ ['S'] := by
  simp only [timeChars, List.map_append, List.map_cons, List.map_nil, map_toUpper_figure]
  rfl

/-- Days, hours, minutes and seconds are read in the international notation. -/
theorem read_internationalTime {d h m s : Figure} {x : Span} (hx : x.nanos = timeNanos d h m s) :
    read (internationalTime d h m s) = .value x := by
  have hbody : readBody (timeChars d h m s ++ ['S']) = .value x :=
    readBody_eq_value_iff.2 ⟨timeWriting d h m s, timeWriting_body d h m s, by
      rw [hx, timeWriting_nanos]⟩
  rw [internationalTime_eq, read_capitals rfl (map_toUpper_timeChars d h m s), hbody]
  rfl

/-! ### Words -/

/-- From a digit to the letter of a unit. -/
def HasEnds (cs : List Char) : Prop :=
  ∃ c mid e, cs = c :: mid ++ [e] ∧ c.isDigit = true ∧ Human.isUnitLetter e = true

/-- A text from a digit to the letter of a unit is in words. -/
theorem read_of_ends {cs : List Char} (h : HasEnds cs) :
    read (String.ofList cs) = (do
      let x ← (Human.read cs).mapFault (.notHuman (trim (String.ofList cs)))
      .ofOption (.outOfRange (trim (String.ofList cs)))
        (Span.ofNanos? (x.seconds * nanosPerSecond + x.nanos))) := by
  obtain ⟨c, mid, e, rfl, hc, he⟩ := h
  obtain ⟨hdigit, hblank⟩ := Human.isUnitLetter_plain he
  have htrim : trimChars (String.ofList (c :: mid ++ [e])).toList = c :: mid ++ [e] := by
    rw [String.toList_ofList]
    exact trimChars_of_ends (isBlank_eq_false_of_isDigit hc) hblank
  have hne : trimChars (String.ofList (c :: mid ++ [e])).toList ≠ [] := by
    rw [htrim]
    exact List.cons_ne_nil _ _
  have hrun : ¬isRun (trimChars (String.ofList (c :: mid ++ [e])).toList) = true := fun h => by
    rw [htrim] at h
    have hlast := List.all_eq_true.1 h e (List.mem_append_right _ List.mem_cons_self)
    rw [hdigit] at hlast
    cases hlast
  have hint : ¬IsInternational (String.ofList (c :: mid ++ [e])) := fun h => by
    rw [IsInternational, htrim] at h
    obtain h | h := h <;>
    · cases h
      exact absurd hc (by decide)
  rw [read_of_words hne hrun hint, htrim]

theorem elapsed_ofNanos (u : Nat) :
    ((Human.Elapsed.ofNanos u).seconds : Int) * nanosPerSecond + (Human.Elapsed.ofNanos u).nanos =
      u := by
  simp only [Human.Elapsed.ofNanos, nanosPerSecond]
  omega

/-- A text in words denotes what the reader of words makes of it. -/
theorem denotes_of_value {cs : List Char} (hcs : HasEnds cs)
    (h : Human.read cs = .value (.ofNanos k)) : Denotes (String.ofList cs) k := by
  have hread := read_of_ends hcs
  rw [h, Outcome.mapFault, Outcome.value_bind, elapsed_ofNanos] at hread
  exact .of_ofOption hread

theorem read_of_fault {cs : List Char} (hcs : HasEnds cs) {f : HumanFault}
    (h : Human.read cs = .fault f) :
    read (String.ofList cs) = .fault (.notHuman (trim (String.ofList cs)) f) := by
  rw [read_of_ends hcs, h]
  rfl

theorem figures_of_isRun {cs : List Char} (h : isRun cs = true) : Human.figures cs = cs :=
  List.filter_eq_self.2 (List.all_eq_true.1 h)

/-- A word for a unit. -/
structure UnitWord where
  chars : List Char
  measure : Human.Measure
  named : Human.Measure.named? chars = some measure
  letters : ∀ c ∈ chars, Human.isUnitLetter c = true

theorem UnitWord.ne_nil (w : UnitWord) : w.chars ≠ [] := fun h => by
  have hnamed := w.named
  rw [h] at hnamed
  cases hnamed

namespace Iso.Figure

theorem isDigit_head (n : Figure) : (n.chars.head n.ne_nil).isDigit = true :=
  List.all_eq_true.1 n.isRun _ (List.head_mem n.ne_nil)

theorem isRun_tail (n : Figure) : Numeral.isRun n.chars.tail = true :=
  List.all_eq_true.2 fun c hc => List.all_eq_true.1 n.isRun c (List.mem_of_mem_tail hc)

/-- The first digit and the others make up the number. -/
theorem ofDigitChars_tail (n : Figure) :
    Nat.ofDigitChars 10 (Human.figures n.chars.tail) (Human.digit (n.chars.head n.ne_nil)) =
      n.value := by
  rw [figures_of_isRun n.isRun_tail, value]
  conv => rhs; rw [← List.cons_head_tail n.ne_nil]
  rw [Numeral.value, Human.ofDigitChars_cons, Nat.zero_mul, Nat.zero_add]

/-- An amount with the number as it is written, after some blanks. -/
def amount (n : Figure) (h : n.value ≤ word64) (blanks : Nat) (w : UnitWord) : Human.Amount where
  gap := List.replicate blanks ' '
  first := n.chars.head n.ne_nil
  more := n.chars.tail
  decimals := none
  word := w.chars
  isBlank_gap c hc := by
    rw [List.eq_of_mem_replicate hc]
    rfl
  isDigit_first := n.isDigit_head
  mixed_more c hc := .inl (List.all_eq_true.1 n.isRun_tail c hc)
  number_le := by
    rw [figures_of_isRun n.isRun_tail, List.cons_head_tail]
    exact h
  word_ne_nil := w.ne_nil
  isUnitLetter_word := w.letters

variable {n : Figure} {h : n.value ≤ word64} {blanks : Nat} {w : UnitWord}

theorem amount_text :
    (n.amount h blanks w).text = List.replicate blanks ' ' ++ (n.chars ++ w.chars) := by
  rw [Human.Amount.text]
  show List.replicate blanks ' ' ++ (n.chars.head n.ne_nil :: n.chars.tail ++ w.chars) = _
  rw [List.cons_head_tail]

theorem amount_addends :
    (n.amount h blanks w).addends =
      [some ⟨(w.measure.whole n.value).1, (w.measure.whole n.value).2⟩] := by
  have hnumber : (n.amount h blanks w).number = n.value := by
    show Numeral.value (n.chars.head n.ne_nil :: Human.figures n.chars.tail) = _
    rw [figures_of_isRun n.isRun_tail, List.cons_head_tail, value]
  have hname : Human.Measure.named? (n.amount h blanks w).word = some w.measure := w.named
  rw [Human.Amount.addends, hname, hnumber]
  rfl

end Iso.Figure

theorem exists_visible_figure (n : Figure) (cs : List Char) :
    ∃ c ∈ n.chars ++ cs, isBlank c = false :=
  ⟨_, List.mem_append_left _ (List.head_mem n.ne_nil), isBlank_eq_false_of_isDigit n.isDigit_head⟩

/-- A number that has not more than 64 bits is read, and added up. -/
theorem silent_read_figure (h : n.value ≤ word64) (w : UnitWord) :
    (Human.read (n.chars ++ w.chars)).silent =
      Human.sumUp 0 [some ⟨(w.measure.whole n.value).1, (w.measure.whole n.value).2⟩] >>= fun u =>
        .value (.ofNanos u) := by
  have hall : ¬(n.chars ++ w.chars).all isBlank = true := by
    simpa only [List.all_eq_true, not_forall, Bool.not_eq_true, exists_prop] using
      exists_visible_figure n w.chars
  obtain ⟨start, pos, hscan⟩ := Human.scan_amounts [n.amount h 0 w]
    (fun c hc => nomatch (hc : [].head? = some c)) 0 0
  have hscan := hscan 0
  rw [Human.textOf, List.flatMap_singleton, Figure.amount_text, List.append_nil, Human.addendsOf,
    List.flatMap_singleton, Figure.amount_addends] at hscan
  rw [Human.read, if_neg hall]
  exact hscan

/-- A number that has more is not. -/
theorem read_figure_overflow (h : word64 < n.value) (cs : List Char) :
    Human.read (n.chars ++ cs) = .fault .inexact := by
  have hall : ¬(n.chars ++ cs).all isBlank = true := by
    simpa only [List.all_eq_true, not_forall, Bool.not_eq_true, exists_prop] using
      exists_visible_figure n cs
  have hfirst := n.isDigit_head
  have hle : Human.digit (n.chars.head n.ne_nil) ≤ word64 :=
    Nat.le_of_lt (Nat.lt_trans (digitValue_lt hfirst) (by decide))
  rw [Human.read, if_neg hall]
  conv => lhs; rw [← List.cons_head_tail n.ne_nil]
  rw [List.cons_append, Human.scan_gap_cons, if_pos hfirst]
  exact Human.scan_number_overflow (fun c hc => .inl (List.all_eq_true.1 n.isRun_tail c hc)) hle
    (by rw [n.ofDigitChars_tail]; exact h)

theorem hasEnds_figure (n : Figure) (mid : List Char) (w : UnitWord) :
    HasEnds (n.chars ++ (mid ++ w.chars)) := by
  refine ⟨n.chars.head n.ne_nil, n.chars.tail ++ (mid ++ w.chars.dropLast),
    w.chars.getLast w.ne_nil, ?_, n.isDigit_head, w.letters _ (List.getLast_mem w.ne_nil)⟩
  rw [← List.cons_append, List.cons_head_tail, List.append_assoc, List.append_assoc,
    List.dropLast_concat_getLast]

/-- The words of the common units. -/
def CommonUnit.word (u : CommonUnit) : UnitWord where
  chars := [u.letter]
  measure :=
    match u with
    | days => .day
    | hours => .hour
    | minutes => .minute
    | seconds => .second
  named := by cases u <;> decide +kernel
  letters c hc := by
    rw [List.mem_singleton.1 hc]
    cases u <;> rfl

theorem CommonUnit.whole (u : CommonUnit) (k : Nat) :
    u.word.measure.whole k = (k * u.size, 0) := by
  cases u with
  | days => rfl
  | hours => rfl
  | minutes => rfl
  | seconds => exact Prod.ext (Nat.mul_one k).symm rfl

/-- The word for milliseconds. -/
def milliWord : UnitWord where
  chars := ['m', 's']
  measure := .millisecond
  named := by decide +kernel
  letters c hc := by
    obtain rfl | rfl := List.mem_pair.1 hc
    · rfl
    · rfl

/-- What is denoted by a number and a word, if a single addition does for it. -/
theorem denotes_figure (w : UnitWord) (a : Human.Addend)
    (ha : (w.measure.whole n.value) = (a.seconds, a.nanos)) (hbreaks : ¬a.Breaks 0)
    (hk : a.Fits 0 ∨ Span.limit < a.total) (hn : n.value ≤ word64 ∨ Span.limit < a.total) :
    Denotes (String.ofList (n.chars ++ w.chars)) a.total := by
  have hends : HasEnds (n.chars ++ w.chars) := hasEnds_figure n [] w
  by_cases hword : n.value ≤ word64
  · have hread := silent_read_figure hword w
    rw [ha, Human.sumUp] at hread
    by_cases hfits : a.Fits 0
    · rw [if_pos hfits, Human.sumUp, Outcome.value_bind, Nat.zero_add] at hread
      exact denotes_of_value hends (Outcome.silent_eq_value_iff.1 hread)
    · rw [if_neg hfits, if_neg hbreaks] at hread
      obtain ⟨f, hf⟩ := Outcome.silent_eq_fault_iff.1 hread
      exact .of_fault (read_of_fault hends hf) (hk.resolve_left hfits)
  · exact .of_fault (read_of_fault hends (read_figure_overflow (Nat.not_le.1 hword) _))
      (hn.resolve_left hword)

/-- **A number of units** is denoted by its text in words. -/
theorem denotes_worded (n : Figure) (u : CommonUnit) :
    Denotes (u.worded n) (n.value * u.size * 1000000000) := by
  have hsize : n.value ≤ n.value * u.size :=
    Nat.le_mul_of_pos_right _ (by cases u <;> decide)
  have hword : word64 = 18446744073709551615 := rfl
  have hlimit : Span.limit = 9223372036854775807000000 := rfl
  have htotal : (Human.Addend.mk (n.value * u.size) 0).total = n.value * u.size * 1000000000 :=
    Nat.add_zero _
  rw [← htotal]
  refine denotes_figure u.word _ (u.whole n.value) (fun hbreaks => ?_) ?_ ?_
  · have hsecond : 0 % 1000000000 + 0 = 1000000000 := hbreaks.1
    omega
  · rw [htotal]
    by_cases hle : n.value * u.size ≤ word64
    · refine .inl ⟨hle, Nat.zero_le _, ?_⟩
      rw [htotal, Human.ceiling]
      omega
    · exact .inr (by omega)
  · rw [htotal]
    omega

/-- Milliseconds in words are a 64-bit number of nanoseconds. -/
theorem denotes_wordedMillis (h : n.value ≤ 18446744073709) :
    Denotes (wordedMillis n) (n.value * 1000000) := by
  have hword : word64 = 18446744073709551615 := rfl
  have htotal : (Human.Addend.mk 0 (n.value * 1000000)).total = n.value * 1000000 := by
    simp only [Human.Addend.total]
    omega
  rw [← htotal]
  refine denotes_figure milliWord _ rfl (fun hbreaks => ?_) (.inl ⟨Nat.zero_le _, ?_, ?_⟩)
    (.inl (by omega))
  · have hsum := hbreaks.2
    rw [htotal, Human.ceiling] at hsum
    omega
  · simp only
    omega
  · rw [htotal, Human.ceiling]
    omega

/-- More of them are not read. -/
theorem isInvalid_wordedMillis (h : 18446744073709 < n.value) : IsInvalid (wordedMillis n) := by
  have hends : HasEnds (n.chars ++ milliWord.chars) := hasEnds_figure n [] milliWord
  have hfault : ∃ f, Human.read (n.chars ++ milliWord.chars) = .fault f := by
    by_cases hn : n.value ≤ word64
    · refine Outcome.silent_eq_fault_iff.1 ?_
      have hword : word64 = 18446744073709551615 := rfl
      have hfits : ¬Human.Addend.Fits 0 ⟨0, n.value * 1000000⟩ := fun h => by
        have hle : 0 % 1000000000 + n.value * 1000000 ≤ word64 := h.2.1
        omega
      have hbreaks : ¬Human.Addend.Breaks 0 ⟨0, n.value * 1000000⟩ := fun h => by
        have heq : 0 % 1000000000 + n.value * 1000000 = 1000000000 := h.1
        omega
      rw [silent_read_figure hn milliWord, show milliWord.measure = .millisecond from rfl,
        Human.Measure.whole, Human.sumUp, if_neg hfits, if_neg hbreaks]
      rfl
    · exact ⟨_, read_figure_overflow (Nat.not_le.1 hn) _⟩
  obtain ⟨f, hf⟩ := hfault
  exact ⟨_, read_of_fault hends hf, rfl⟩

/-- Seconds are added up, as long as there are not too many of them. -/
theorem sumUp_seconds (t : Nat) (ss : List Nat) (h : t + ss.sum * 1000000000 < Human.ceiling) :
    Human.sumUp t (ss.map fun s => some ⟨s, 0⟩) = .value (t + ss.sum * 1000000000) := by
  induction ss generalizing t with
  | nil => rfl
  | cons s ss ih =>
    have hword : word64 = 18446744073709551615 := rfl
    rw [List.sum_cons, Human.ceiling] at h
    have hfits : Human.Addend.Fits t ⟨s, 0⟩ := by
      simp only [Human.Addend.Fits, Human.Addend.total, Human.ceiling]
      omega
    have htotal : t + (Human.Addend.mk s 0).total + ss.sum * 1000000000 =
        t + (s :: ss).sum * 1000000000 := by
      simp only [Human.Addend.total, List.sum_cons]
      omega
    rw [List.map_cons, Human.sumUp, if_pos hfits, ih _ (by
      rw [htotal, List.sum_cons, Human.ceiling]
      exact h), htotal]

/-- Days, hours, minutes and seconds are read in words. -/
theorem read_wordedTime {d h m s : Figure} {x : Span} (hx : x.nanos = timeNanos d h m s) :
    read (wordedTime d h m s) = .value x := by
  have hupper := x.upper
  have hlimit : Span.limit = 9223372036854775807000000 := rfl
  have hword : word64 = 18446744073709551615 := rfl
  have htotal := hx
  rw [timeNanos] at htotal
  let as : List Human.Amount :=
    [d.amount (by omega) 0 CommonUnit.days.word, h.amount (by omega) 1 CommonUnit.hours.word,
      m.amount (by omega) 1 CommonUnit.minutes.word, s.amount (by omega) 1 CommonUnit.seconds.word]
  have htext : d.chars ++ 'd' :: ' ' :: (h.chars ++ 'h' :: ' ' :: (m.chars ++ 'm' :: ' ' ::
      (s.chars ++ ['s']))) = Human.textOf as ++ [] := by
    simp only [as, Human.textOf, List.flatMap_cons, List.flatMap_nil, Figure.amount_text,
      CommonUnit.word, CommonUnit.letter, List.replicate_zero, List.replicate_one, List.append_assoc,
      List.cons_append, List.nil_append, List.append_nil]
  have haddends : Human.addendsOf as =
      [d.value * 86400, h.value * 3600, m.value * 60, s.value].map fun s => some ⟨s, 0⟩ := by
    simp only [as, Human.addendsOf, List.flatMap_cons, List.flatMap_nil, Figure.amount_addends,
      CommonUnit.whole, CommonUnit.size, List.cons_append, List.nil_append, List.map_cons,
      List.map_nil, Nat.mul_one]
  have hseconds : 0 + [d.value * 86400, h.value * 3600, m.value * 60, s.value].sum * 1000000000 =
      timeNanos d h m s := by
    simp only [List.sum_cons, List.sum_nil, timeNanos]
    omega
  have hread : Human.read (d.chars ++ 'd' :: ' ' :: (h.chars ++ 'h' :: ' ' :: (m.chars ++ 'm' ::
      ' ' :: (s.chars ++ ['s'])))) = .value (.ofNanos (timeNanos d h m s)) := by
    refine (Human.read_eq_value_iff (exists_visible_figure d _)).2
      ⟨as, [], _, htext, fun _ hc => (List.not_mem_nil hc).elim, ?_, rfl⟩
    rw [haddends, sumUp_seconds, hseconds]
    rw [hseconds, timeNanos, Human.ceiling]
    omega
  have hends := hasEnds_figure d ('d' :: ' ' :: (h.chars ++ 'h' :: ' ' :: (m.chars ++ 'm' :: ' ' ::
    s.chars))) CommonUnit.seconds.word
  rw [show CommonUnit.seconds.word.chars = ['s'] from rfl] at hends
  simp only [List.cons_append, List.append_assoc] at hends
  exact ((denotes_of_value hends hread).value_iff x).2 hx

/-! ### Both notations -/

/-- Plain digits and the same digits with `ms` agree unless they are a span that is too long to be
counted in nanoseconds. -/
theorem plainMillis_agree_iff (n : Figure) :
    Agree (plainMillis n) (wordedMillis n) ↔ n.value ≤ 18446744073709 ∨ word63 < n.value := by
  have hlimit : Span.limit = 9223372036854775807000000 := rfl
  have hword : word63 = 9223372036854775807 := rfl
  have hplain := denotes_plainMillis n
  by_cases hsmall : n.value ≤ 18446744073709
  · exact ⟨fun _ => .inl hsmall, fun _ => hplain.agree (denotes_wordedMillis hsmall)⟩
  · have hworded := isInvalid_wordedMillis (Nat.not_le.1 hsmall)
    by_cases hlarge : word63 < n.value
    · exact ⟨fun _ => .inr hlarge, fun _ => .inr ⟨hplain.isInvalid (by omega), hworded⟩⟩
    · refine ⟨?_, fun h => (h.elim hsmall hlarge).elim⟩
      obtain ⟨x, hx, -⟩ := hplain.exists_value (by omega)
      obtain ⟨f, hf, -⟩ := hworded
      rintro (⟨y, -, hy⟩ | ⟨⟨g, hg, -⟩, -⟩)
      · exact nomatch hf.symm.trans hy
      · exact nomatch hx.symm.trans hg

/-- **Two notations for a duration agree.** So do they for a number of days, hours, minutes or seconds,
whatever the number; for all of these together, as long as there is a span for them; and for
milliseconds with and without the unit, except where the number of nanoseconds has more than 64 bits
although there is a span of that length, which is then read from the plain digits only. -/
theorem synonyms_agree :
    (∀ (n : Figure) (u : CommonUnit), Agree (u.international n) (u.worded n)) ∧
    (∀ d h m s : Figure, (timeNanos d h m s : Int) ≤ Span.limit → ∃ x : Span,
      read (internationalTime d h m s) = .value x ∧ read (wordedTime d h m s) = .value x ∧
        x.nanos = timeNanos d h m s) ∧
    (∀ n : Figure, Agree (plainMillis n) (wordedMillis n) ↔
      n.value ≤ 18446744073709 ∨ word63 < n.value) ∧
    ∀ n : Figure, 18446744073709 < n.value → n.value ≤ word63 →
      (∃ x : Span, read (plainMillis n) = .value x ∧ x.nanos = n.value * 1000000) ∧
        IsInvalid (wordedMillis n) := by
  refine ⟨fun n u => ?_, fun d h m s hle => ?_, plainMillis_agree_iff, fun n hlow hhigh => ?_⟩
  · have hworded := denotes_worded n u
    rw [Nat.mul_assoc] at hworded
    exact (denotes_international n u).agree hworded
  · have hlower : -Span.limit ≤ (timeNanos d h m s : Int) := by
      simp only [Span.limit, nanosPerMilli]
      omega
    exact ⟨⟨_, hlower, hle⟩, read_internationalTime rfl, read_wordedTime rfl, rfl⟩
  · have hlimit : Span.limit = 9223372036854775807000000 := rfl
    have hword : word63 = 9223372036854775807 := rfl
    exact ⟨(denotes_plainMillis n).exists_value (by omega), isInvalid_wordedMillis hlow⟩

/-- The numbers in `1d 2h 3m 4s` meet, and so does the least number of milliseconds that words are too
narrow for. -/
theorem day_and_too_many_millis :
    let one : Figure := ⟨['1'], by decide, by decide⟩
    let two : Figure := ⟨['2'], by decide, by decide⟩
    let three : Figure := ⟨['3'], by decide, by decide⟩
    let four : Figure := ⟨['4'], by decide, by decide⟩
    let many : Figure := ⟨"18446744073710".toList, by decide, by decide⟩
    ((timeNanos one two three four : Int) ≤ Span.limit ∧
      internationalTime one two three four = "P1DT2H3M4S" ∧
      wordedTime one two three four = "1d 2h 3m 4s" ∧
      ∃ x : Span, read "P1DT2H3M4S" = .value x ∧ read "1d 2h 3m 4s" = .value x) ∧
    (18446744073709 < many.value ∧ many.value ≤ word63) ∧ IsInvalid (wordedMillis many) := by
  intro one two three four many
  have hlong : (timeNanos one two three four : Int) ≤ Span.limit := by decide +kernel
  have hiso : internationalTime one two three four = "P1DT2H3M4S" := by decide +kernel
  have hwords : wordedTime one two three four = "1d 2h 3m 4s" := by decide +kernel
  have hmany : 18446744073709 < many.value ∧ many.value ≤ word63 := by decide +kernel
  obtain ⟨x, hx, hx', -⟩ := synonyms_agree.2.1 one two three four hlong
  exact ⟨⟨hlong, hiso, hwords, x, hiso ▸ hx, hwords ▸ hx'⟩, hmany,
    (synonyms_agree.2.2.2 many hmany.1 hmany.2).2⟩

/-- Milliseconds with and without their unit do not always agree. -/
theorem plain_not_ms :
    read "18446744073710" = .value ⟨18446744073710000000, by decide, by decide⟩ ∧
      IsInvalid "18446744073710ms" ∧ ¬Agree "18446744073710" "18446744073710ms" := by
  have hplain : read "18446744073710" = .value ⟨18446744073710000000, by decide, by decide⟩ := by
    decide +kernel
  have hworded : read "18446744073710ms" = .fault (.notHuman "18446744073710ms" .inexact) := by
    decide +kernel
  refine ⟨hplain, ⟨_, hworded, rfl⟩, ?_⟩
  rintro (⟨x, -, hx⟩ | ⟨⟨f, hf, -⟩, -⟩)
  · exact nomatch hworded.symm.trans hx
  · exact nomatch hplain.symm.trans hf

end LeaseLock.Duration
