import LeaseLock.Error
import LeaseLock.Proofs.DurationGrammar

/-!
# Durations in the international notation are read exactly

The reader, applied to whatever texts begin with a `P`.

## The model

Texts are those that come without the blanks around them, in large letters. A text that is in the
notation is the text of a writing, as in `Proofs.DurationGrammar`. The reader looks at all days before
it looks at what is behind the `T`, and within either part it adds the spans of components up from the
left; so it may break off before it comes to something that is not in the notation.

## What is proved

`read_international`: a text is read as a span exactly if it is the text of a writing that comes to
that span. Of all other texts, the reader breaks off on those that begin with a writing of which each
component is a span but the sum is not (`Overruns`), whatever pieces come behind it; the others are
reported as faults.
-/

namespace LeaseLock.Duration.Iso

open Text Text.Numeral

variable {cs : List Char} {d total : Span}

/-! ### Dates and times -/

theorem not_mem_dateText (ns : List Figure) : 'T' ∉ dateText ns := by
  intro h
  obtain ⟨x, hx, hT⟩ := List.mem_flatMap.1 h
  obtain ⟨n, -, rfl⟩ := List.mem_map.1 hx
  obtain hT | hT := List.mem_append.1 hT
  · exact absurd (n.plain _ hT) (by decide)
  · exact absurd (show 'T' = 'D' from List.mem_singleton.1 hT) (by decide)

/-- The parts of a text before and behind the first `T` are told apart. -/
theorem split_time {ds : List Char} (ts : List Char) (hds : 'T' ∉ ds) :
    (ds ++ ts).takeWhile (· != 'T') = ds ++ ts.takeWhile (· != 'T') ∧
      (ds ++ ts).dropWhile (· != 'T') = ts.dropWhile (· != 'T') := by
  have hplain : ∀ c ∈ ds, (c != 'T') = true := fun c hc => bne_iff_ne.2 fun h => hds (h ▸ hc)
  exact ⟨List.takeWhile_append_of_pos hplain, List.dropWhile_append_of_pos hplain⟩

/-- What a text may be after the `P`: nothing, components of days, a bare `T` behind these, or more
behind the `T`. -/
inductive Shape : List Char → Prop where
  | nothing : Shape []
  | dates {ds : List Char} (hds : 'T' ∉ ds) (hne : ds ≠ []) : Shape ds
  | bare {ds : List Char} (hds : 'T' ∉ ds) : Shape (ds ++ ['T'])
  | times {ds ts : List Char} (hds : 'T' ∉ ds) (hne : ts ≠ []) : Shape (ds ++ 'T' :: ts)

theorem shape (body : List Char) : Shape body := by
  by_cases hT : 'T' ∈ body
  · obtain ⟨ds, ts, rfl, hds⟩ := List.eq_append_cons_of_mem hT
    by_cases hts : ts = []
    · rw [hts]
      exact .bare hds
    · exact .times hds hts
  · by_cases hbody : body = []
    · rw [hbody]
      exact .nothing
    · exact .dates hT hbody

theorem readBody_nothing : readBody [] = .fault () := rfl

theorem readBody_bare {ds : List Char} (hds : 'T' ∉ ds) : readBody (ds ++ ['T']) = .fault () := by
  obtain ⟨-, hdrop⟩ := split_time ['T'] hds
  rw [readBody, hdrop]
  exact if_pos (.inl rfl)

theorem readBody_dates {ds : List Char} (hds : 'T' ∉ ds) (hne : ds ≠ []) :
    readBody ds = (do
      let days ← .ofOption () (components [] ds)
      addAll dateComponent Span.zero days) := by
  obtain ⟨htake, hdrop⟩ := split_time [] hds
  rw [List.append_nil, List.takeWhile_nil, List.append_nil] at htake
  rw [List.append_nil] at hdrop
  rw [readBody, htake, hdrop]
  simp only [List.dropWhile_nil, List.tail?_nil, reduceCtorEq, hne, false_and, or_self, if_false]
  cases components [] ds with
  | none => rfl
  | some days => cases h : addAll dateComponent Span.zero days <;> simp [Outcome.ofOption, h]

theorem readBody_times {ds ts : List Char} (hds : 'T' ∉ ds) (hne : ts ≠ []) :
    readBody (ds ++ 'T' :: ts) = (do
      let days ← .ofOption () (components [] ds)
      let total ← addAll dateComponent Span.zero days
      let times ← .ofOption () (components [] ts)
      addAll timeComponent total times) := by
  obtain ⟨htake, hdrop⟩ := split_time ('T' :: ts) hds
  rw [List.takeWhile_cons_of_neg (by decide), List.append_nil] at htake
  rw [List.dropWhile_cons_of_neg (by decide)] at hdrop
  rw [readBody, htake, hdrop]
  simp only [List.tail?_cons, Option.some.injEq, hne, reduceCtorEq, and_false, or_self, if_false]

theorem nanos_eq (w : Writing) :
    w.nanos = sumOf dayNanos w.days + sumOf TimePart.nanos w.times := by
  rw [Writing.nanos, Writing.amounts, List.sum_append]
  rfl

theorem body_of_dates {w : Writing} (h : w.times = []) : w.body = dateText w.days := by
  rw [Writing.body, h]
  exact List.append_nil _

theorem body_of_times {w : Writing} (h : w.times ≠ []) :
    w.body = dateText w.days ++ 'T' :: timeText w.times := by
  rw [Writing.body, if_neg (by rwa [List.isEmpty_iff])]

theorem isPiece_days {ns : List Figure} : ∀ x ∈ ns.map dayPiece, IsPiece x := fun x hx => by
  obtain ⟨n, -, rfl⟩ := List.mem_map.1 hx
  exact spells_date.isPiece n

theorem isPiece_times {cs : List TimePart} : ∀ x ∈ cs.map TimePart.piece, IsPiece x := fun x hx => by
  obtain ⟨c, -, rfl⟩ := List.mem_map.1 hx
  exact spells_time.isPiece c

theorem timeText_ne_nil {cs : List TimePart} (h : cs ≠ []) : timeText cs ≠ [] := by
  cases cs with
  | nil => exact (h rfl).elim
  | cons c cs =>
    rw [timeText, List.map_cons, List.flatMap_cons, Piece.text, List.append_assoc]
    exact List.append_ne_nil_of_left_ne_nil (spells_time.isPiece c).ne_nil _

theorem dateText_ne_nil {ns : List Figure} (h : ns ≠ []) : dateText ns ≠ [] := by
  cases ns with
  | nil => exact (h rfl).elim
  | cons n ns =>
    rw [dateText, List.map_cons, List.flatMap_cons, Piece.text, List.append_assoc]
    exact List.append_ne_nil_of_left_ne_nil n.ne_nil _

/-- The days of a writing are read, if they are a span. -/
theorem addAll_days {ns : List Figure} (h : (sumOf dayNanos ns : Int) ≤ Span.limit) :
    ∃ total : Span, addAll dateComponent Span.zero (ns.map dayPiece) = .value total ∧
      total.nanos = sumOf dayNanos ns := by
  have hlower : -Span.limit ≤ (sumOf dayNanos ns : Int) := by
    simp only [Span.limit, nanosPerMilli]
    omega
  exact ⟨⟨_, hlower, h⟩, (spells_date.addAll_eq_value_iff isPiece_days (Int.le_refl 0)).2
    ⟨ns, rfl, (Int.zero_add _).symm⟩, rfl⟩

/-- **What comes after the `P` is read** as a span exactly if it is that of a writing that comes to
the span. -/
theorem readBody_eq_value_iff {body : List Char} :
    readBody body = .value d ↔ ∃ w : Writing, w.body = body ∧ d.nanos = w.nanos := by
  constructor
  · intro h
    cases shape body with
    | nothing => exact nomatch readBody_nothing.symm.trans h
    | bare hds => exact nomatch (readBody_bare hds).symm.trans h
    | dates hds hne =>
      rw [readBody_dates hds hne] at h
      obtain ⟨xs, hsplit, hadd⟩ := Outcome.bind_eq_value_iff.1 h
      obtain ⟨rfl, hxs⟩ := components_eq_some_iff.1 (Outcome.ofOption_eq_value_iff.1 hsplit)
      obtain ⟨ns, rfl, hd⟩ := (spells_date.addAll_eq_value_iff hxs (Int.le_refl 0)).1 hadd
      have hns : ns ≠ [] := fun h => hne (by rw [h]; rfl)
      refine ⟨⟨ns, [], .inl hns⟩, body_of_dates rfl, ?_⟩
      rw [nanos_eq, hd]
      exact Int.zero_add _
    | times hds hne =>
      rw [readBody_times hds hne] at h
      obtain ⟨xs, hsplit, hrest⟩ := Outcome.bind_eq_value_iff.1 h
      obtain ⟨total, hdays, hrest⟩ := Outcome.bind_eq_value_iff.1 hrest
      obtain ⟨ys, hsplit', hadd⟩ := Outcome.bind_eq_value_iff.1 hrest
      obtain ⟨rfl, hxs⟩ := components_eq_some_iff.1 (Outcome.ofOption_eq_value_iff.1 hsplit)
      obtain ⟨rfl, hys⟩ := components_eq_some_iff.1 (Outcome.ofOption_eq_value_iff.1 hsplit')
      obtain ⟨ns, rfl, htotal⟩ := (spells_date.addAll_eq_value_iff hxs (Int.le_refl 0)).1 hdays
      rw [show Span.zero.nanos = 0 from rfl, Int.zero_add] at htotal
      have hpos : 0 ≤ total.nanos := htotal ▸ Int.natCast_nonneg _
      obtain ⟨cs, rfl, hd⟩ := (spells_time.addAll_eq_value_iff hys hpos).1 hadd
      have hcs : cs ≠ [] := fun h => hne (by rw [h]; rfl)
      refine ⟨⟨ns, cs, .inr hcs⟩, body_of_times hcs, ?_⟩
      rw [nanos_eq]
      show d.nanos = ((sumOf dayNanos ns + sumOf TimePart.nanos cs : Nat) : Int)
      omega
  · rintro ⟨w, rfl, hd⟩
    have hupper := d.upper
    rw [nanos_eq] at hd
    have hdays : (sumOf dayNanos w.days : Int) ≤ Span.limit := by omega
    obtain ⟨total, hdays, htotal⟩ := addAll_days hdays
    by_cases htimes : w.times = []
    · have hns : w.days ≠ [] := w.ne_nil.resolve_right fun h => h htimes
      rw [htimes] at hd
      rw [body_of_dates htimes, readBody_dates (not_mem_dateText _) (dateText_ne_nil hns), dateText,
        components_flatMap isPiece_days, Outcome.ofOption, Outcome.value_bind, hdays]
      exact congrArg Outcome.value (Span.ext (htotal.trans hd.symm))
    · rw [body_of_times htimes, readBody_times (not_mem_dateText _) (timeText_ne_nil htimes),
        dateText, timeText, components_flatMap isPiece_days, components_flatMap isPiece_times]
      simp only [Outcome.ofOption, Outcome.value_bind, hdays]
      refine (spells_time.addAll_eq_value_iff isPiece_times (by omega)).2 ⟨_, rfl, ?_⟩
      omega

/-! ### Where the reader breaks off -/

/-- What the reader has not come to when it breaks off after a writing. The part in which that is has
been split into pieces; and there is not just a `T` to come. -/
def Writing.Unread (w : Writing) (rest : List Char) : Prop :=
  if w.times.isEmpty then
    Pieces (rest.takeWhile (· != 'T')) ∧ rest.dropWhile (· != 'T') ≠ ['T']
  else Pieces rest

/-- The reader breaks off after a writing: each component is a span, but the whole is longer than
any. -/
structure Writing.Overruns (w : Writing) (rest : List Char) : Prop where
  fits : w.Fits
  exceeds : Span.limit < w.nanos
  unread : w.Unread rest

/-- The text begins with a writing after which the reader breaks off. -/
def Overruns (cs : List Char) : Prop :=
  ∃ (w : Writing) (rest : List Char), cs = w.text ++ rest ∧ w.Overruns rest

theorem TimePart.value_le_nanos (c : TimePart) : c.figure.value * 1000000000 ≤ c.nanos := by
  cases c with
  | hours n => exact Nat.mul_le_mul_left _ (by decide)
  | minutes n => exact Nat.mul_le_mul_left _ (by decide)
  | seconds n => exact Nat.le_refl _
  | pointed n ds hds => exact Nat.le_add_right _ _

namespace Writing

variable {w : Writing}

/-- Numbers are in their range if their components are. -/
theorem fits_of_amounts (h : ∀ k ∈ w.amounts, (k : Int) ≤ Span.limit) : w.Fits where
  amounts := h
  figures n hn := by
    have hle : ∃ k ∈ w.amounts, n.value * 1000000000 ≤ k := by
      obtain hn | hn := List.mem_append.1 hn
      · exact ⟨_, List.mem_append_left _ (List.mem_map_of_mem hn), Nat.mul_le_mul_left _ (by decide)⟩
      · obtain ⟨c, hc, rfl⟩ := List.mem_map.1 hn
        exact ⟨_, List.mem_append_right _ (List.mem_map_of_mem hc), c.value_le_nanos⟩
    obtain ⟨k, hk, hle⟩ := hle
    have hk := h k hk
    simp only [Span.limit, nanosPerMilli] at hk
    rw [word63]
    omega

theorem fits_of_parts (hd : ∀ n ∈ w.days, (dayNanos n : Int) ≤ Span.limit)
    (ht : ∀ c ∈ w.times, (c.nanos : Int) ≤ Span.limit) : w.Fits := by
  refine fits_of_amounts fun k hk => ?_
  obtain hk | hk := List.mem_append.1 hk
  · obtain ⟨n, hn, rfl⟩ := List.mem_map.1 hk
    exact hd n hn
  · obtain ⟨c, hc, rfl⟩ := List.mem_map.1 hk
    exact ht c hc

theorem fits_of_nanos (h : (w.nanos : Int) ≤ Span.limit) : w.Fits :=
  fits_of_amounts fun k hk => by
    have hle : k ≤ w.nanos := List.le_sum_of_mem hk
    omega

theorem Fits.days (h : w.Fits) : ∀ n ∈ w.days, (dayNanos n : Int) ≤ Span.limit := fun _ hn =>
  h.amounts _ (List.mem_append_left _ (List.mem_map_of_mem hn))

theorem Fits.times (h : w.Fits) : ∀ c ∈ w.times, (c.nanos : Int) ≤ Span.limit := fun _ hc =>
  h.amounts _ (List.mem_append_right _ (List.mem_map_of_mem hc))

end Writing

theorem dateText_append (ns : List Figure) (ys : List Piece) :
    dateText ns ++ ys.flatMap Piece.text = (ns.map dayPiece ++ ys).flatMap Piece.text :=
  List.flatMap_append.symm

theorem timeText_append (cs : List TimePart) (ys : List Piece) :
    timeText cs ++ ys.flatMap Piece.text = (cs.map TimePart.piece ++ ys).flatMap Piece.text :=
  List.flatMap_append.symm

section Breaks

variable {ns : List Figure} {xs ys : List Piece} {body rest ts : List Char}

theorem isPiece_append (hxs : ∀ x ∈ xs, IsPiece x) (hys : ∀ x ∈ ys, IsPiece x) :
    ∀ x ∈ xs ++ ys, IsPiece x := fun x hx => (List.mem_append.1 hx).elim (hxs x) (hys x)

/-- Days that overrun make a writing of their own. -/
theorem overruns_days (hys : ∀ x ∈ ys, IsPiece x)
    (hfit : ∀ n ∈ ns, (dayNanos n : Int) ≤ Span.limit) (hover : Span.limit < sumOf dayNanos ns)
    (hts : ts ≠ ['T']) (hT : ts = [] ∨ ts.head? = some 'T') (hplain : 'T' ∉ ys.flatMap Piece.text) :
    ∃ (w : Writing) (rest : List Char),
      dateText ns ++ ys.flatMap Piece.text ++ ts = w.body ++ rest ∧ w.Overruns rest := by
  have hns : ns ≠ [] := fun h => by
    rw [h] at hover
    exact absurd hover (by decide)
  obtain ⟨htake, hdrop⟩ := split_time ts hplain
  have hsplit : ts.takeWhile (· != 'T') = [] ∧ ts.dropWhile (· != 'T') = ts := by
    obtain rfl | hT := hT
    · exact ⟨rfl, rfl⟩
    · obtain ⟨ts, rfl⟩ := List.head?_eq_some_iff.1 hT
      exact ⟨List.takeWhile_cons_of_neg (by decide), List.dropWhile_cons_of_neg (by decide)⟩
  rw [hsplit.1, List.append_nil] at htake
  rw [hsplit.2] at hdrop
  refine ⟨⟨ns, [], .inl hns⟩, ys.flatMap Piece.text ++ ts, ?_, ?_, ?_, ?_, ?_⟩
  · rw [body_of_dates rfl, List.append_assoc]
  · exact Writing.fits_of_parts hfit fun _ hc => (List.not_mem_nil hc).elim
  · rw [nanos_eq]
    exact hover
  · exact ⟨ys, htake, hys⟩
  · rw [hdrop]
    exact hts

/-- Where days break off, they overrun. -/
theorem exists_overrun_days (hxs : ∀ x ∈ xs, IsPiece x) (hplain : 'T' ∉ xs.flatMap Piece.text)
    (h : addAll dateComponent Span.zero xs = .breakdown) (hts : ts ≠ ['T'])
    (hT : ts = [] ∨ ts.head? = some 'T') :
    ∃ (w : Writing) (rest : List Char),
      xs.flatMap Piece.text ++ ts = w.body ++ rest ∧ w.Overruns rest := by
  obtain ⟨ns, ys, rfl, hfit, hover⟩ := (spells_date.addAll_eq_breakdown_iff hxs (Int.le_refl 0)).1 h
  rw [show Span.zero.nanos = 0 from rfl, Int.zero_add] at hover
  rw [← dateText_append] at hplain ⊢
  exact overruns_days (fun x hx => hxs x (List.mem_append_right _ hx)) hfit hover hts hT
    fun hy => hplain (List.mem_append_right _ hy)

/-- Where hours, minutes and seconds break off, they overrun together with the days. -/
theorem exists_overrun_times {zs : List Piece} (hzs : ∀ x ∈ zs, IsPiece x)
    (htotal : total.nanos = sumOf dayNanos ns) (h : addAll timeComponent total zs = .breakdown) :
    ∃ (w : Writing) (rest : List Char),
      dateText ns ++ 'T' :: zs.flatMap Piece.text = w.body ++ rest ∧ w.Overruns rest := by
  have hupper := total.upper
  obtain ⟨cs, ys, rfl, hfit, hover⟩ :=
    (spells_time.addAll_eq_breakdown_iff hzs (by omega)).1 h
  have hcs : cs ≠ [] := fun h => by
    rw [h] at hover
    exact absurd hupper (Int.not_le.2 (by simpa [sumOf] using hover))
  refine ⟨⟨ns, cs, .inr hcs⟩, ys.flatMap Piece.text, ?_, ?_, ?_, ?_⟩
  · rw [body_of_times hcs, ← timeText_append, List.append_assoc]
    rfl
  · refine Writing.fits_of_parts (fun n hn => ?_) hfit
    have hle : dayNanos n ≤ sumOf dayNanos ns := List.le_sum_of_mem (List.mem_map_of_mem hn)
    omega
  · rw [nanos_eq]
    show Span.limit < ((sumOf dayNanos ns + sumOf TimePart.nanos cs : Nat) : Int)
    omega
  · rw [Writing.Unread, if_neg (by rwa [List.isEmpty_iff])]
    exact ⟨ys, rfl, fun x hx => hzs x (List.mem_append_right _ hx)⟩

theorem exists_overrun (h : readBody body = .breakdown) :
    ∃ (w : Writing) (rest : List Char), body = w.body ++ rest ∧ w.Overruns rest := by
  cases shape body with
  | nothing => exact nomatch readBody_nothing.symm.trans h
  | bare hds => exact nomatch (readBody_bare hds).symm.trans h
  | dates hds hne =>
    rw [readBody_dates hds hne] at h
    obtain ⟨xs, hsplit, hadd⟩ := Outcome.ofOption_bind_eq_breakdown_iff.1 h
    obtain ⟨rfl, hxs⟩ := components_eq_some_iff.1 hsplit
    rw [← List.append_nil (xs.flatMap Piece.text)]
    exact exists_overrun_days hxs hds hadd (List.cons_ne_nil _ _).symm (.inl rfl)
  | times hds hne =>
    rw [readBody_times hds hne] at h
    obtain ⟨xs, hsplit, hrest⟩ := Outcome.ofOption_bind_eq_breakdown_iff.1 h
    obtain ⟨rfl, hxs⟩ := components_eq_some_iff.1 hsplit
    obtain hadd | ⟨total, hadd, hrest⟩ := Outcome.bind_eq_breakdown_iff.1 hrest
    · exact exists_overrun_days hxs hds hadd (fun h => hne (List.cons.inj h).2) (.inr rfl)
    · obtain ⟨zs, hsplit', hbreak⟩ := Outcome.ofOption_bind_eq_breakdown_iff.1 hrest
      obtain ⟨rfl, hzs⟩ := components_eq_some_iff.1 hsplit'
      obtain ⟨ns, rfl, htotal⟩ := (spells_date.addAll_eq_value_iff hxs (Int.le_refl 0)).1 hadd
      exact exists_overrun_times hzs (htotal.trans (Int.zero_add _)) hbreak

/-- Days that overrun break off, whatever pieces come behind them. -/
theorem addAll_days_overrun (hys : ∀ x ∈ ys, IsPiece x)
    (hfit : ∀ n ∈ ns, (dayNanos n : Int) ≤ Span.limit) (hover : Span.limit < sumOf dayNanos ns) :
    addAll dateComponent Span.zero (ns.map dayPiece ++ ys) = .breakdown :=
  (spells_date.addAll_eq_breakdown_iff (isPiece_append isPiece_days hys) (Int.le_refl 0)).2
    ⟨ns, ys, rfl, hfit, by rw [show Span.zero.nanos = 0 from rfl, Int.zero_add]; exact hover⟩

/-- Days alone overrun. -/
theorem readBody_overrun_days {w : Writing} (hw : w.Overruns rest) (htimes : w.times = []) :
    readBody (w.body ++ rest) = .breakdown := by
  obtain ⟨hfits, hover, hunread⟩ := hw
  rw [Writing.Unread, if_pos (List.isEmpty_iff.2 htimes)] at hunread
  obtain ⟨⟨ys, htake, hys⟩, hdrop⟩ := hunread
  rw [nanos_eq, htimes] at hover
  have hbreak := addAll_days_overrun hys hfits.days hover
  have hns : w.days ≠ [] := w.ne_nil.resolve_right fun h => h htimes
  have hplain : 'T' ∉ dateText w.days ++ ys.flatMap Piece.text := fun hT => by
    obtain hT | hT := List.mem_append.1 hT
    · exact not_mem_dateText _ hT
    · rw [← htake] at hT
      exact absurd (List.all_eq_true.1 List.all_takeWhile _ hT) (by decide)
  have hsplit : components [] (dateText w.days ++ ys.flatMap Piece.text) =
      some (w.days.map dayPiece ++ ys) := by
    rw [dateText_append, components_flatMap (isPiece_append isPiece_days hys)]
  rw [body_of_dates htimes, ← List.takeWhile_append_dropWhile (p := (· != 'T')) (l := rest), htake,
    ← List.append_assoc]
  cases hlast : rest.dropWhile (· != 'T') with
  | nil =>
    rw [List.append_nil, readBody_dates hplain
      (List.append_ne_nil_of_left_ne_nil (dateText_ne_nil hns) _), hsplit]
    exact hbreak
  | cons c ts =>
    have hc := List.head_dropWhile_not (p := (· != 'T')) (l := rest)
      (by rw [hlast]; exact List.cons_ne_nil _ _)
    simp only [hlast, List.head_cons, bne_eq_false_iff_eq] at hc
    rw [hlast, hc] at hdrop
    rw [hc, readBody_times hplain fun h => hdrop (by rw [h]), hsplit, Outcome.ofOption,
      Outcome.value_bind, hbreak]
    rfl

/-- Days overrun, or they do so together with what comes behind the `T`. -/
theorem readBody_overrun_times {w : Writing} (hw : w.Overruns rest) (htimes : w.times ≠ []) :
    readBody (w.body ++ rest) = .breakdown := by
  obtain ⟨hfits, hover, hunread⟩ := hw
  rw [Writing.Unread, if_neg (by rwa [List.isEmpty_iff])] at hunread
  obtain ⟨ys, rfl, hys⟩ := hunread
  rw [nanos_eq] at hover
  have hne : timeText w.times ++ ys.flatMap Piece.text ≠ [] :=
    List.append_ne_nil_of_left_ne_nil (timeText_ne_nil htimes) _
  rw [body_of_times htimes, List.append_assoc, List.cons_append,
    readBody_times (not_mem_dateText _) hne, timeText_append, dateText,
    components_flatMap isPiece_days, components_flatMap (isPiece_append isPiece_times hys)]
  simp only [Outcome.ofOption, Outcome.value_bind]
  by_cases hsum : (sumOf dayNanos w.days : Int) ≤ Span.limit
  · obtain ⟨total, hadd, htotal⟩ := addAll_days hsum
    rw [hadd, Outcome.value_bind]
    exact (spells_time.addAll_eq_breakdown_iff (isPiece_append isPiece_times hys) (by omega)).2
      ⟨w.times, ys, rfl, hfits.times, by omega⟩
  · have hbreak := addAll_days_overrun (fun _ hx => (List.not_mem_nil hx).elim) hfits.days
      (Int.not_le.1 hsum)
    rw [List.append_nil] at hbreak
    rw [hbreak]
    rfl

/-- **The reader breaks off** exactly where a writing overruns. -/
theorem readBody_eq_breakdown_iff :
    readBody body = .breakdown ↔
      ∃ (w : Writing) (rest : List Char), body = w.body ++ rest ∧ w.Overruns rest := by
  refine ⟨exists_overrun, ?_⟩
  rintro ⟨w, rest, rfl, hw⟩
  by_cases htimes : w.times = []
  · exact readBody_overrun_days hw htimes
  · exact readBody_overrun_times hw htimes

end Breaks

/-! ### From the text to the span -/

/-- A text in the notation begins with a `P`. -/
theorem exists_body {cs : List Char} (h : cs.head? = some 'P' ∨ cs.head? = some 'p') :
    ∃ body, cs.map Char.toUpper = 'P' :: body := by
  obtain h | h := h <;>
  · obtain ⟨body, rfl⟩ := List.head?_eq_some_iff.1 h
    exact ⟨_, rfl⟩

theorem read_eq_readBody {body : List Char} (h : cs.map Char.toUpper = 'P' :: body) :
    read cs = readBody body := by
  simp only [read, h]

theorem read_eq_value_iff (h : cs.head? = some 'P' ∨ cs.head? = some 'p') :
    read cs = .value d ↔
      ∃ w : Writing, w.text = cs.map Char.toUpper ∧ w.Fits ∧ d.nanos = w.nanos := by
  obtain ⟨body, hbody⟩ := exists_body h
  rw [read_eq_readBody hbody, readBody_eq_value_iff, hbody]
  constructor
  · rintro ⟨w, hw, hd⟩
    exact ⟨w, congrArg ('P' :: ·) hw, Writing.fits_of_nanos (hd ▸ d.upper), hd⟩
  · rintro ⟨w, hw, -, hd⟩
    exact ⟨w, (List.cons.inj hw).2, hd⟩

theorem read_eq_breakdown_iff (h : cs.head? = some 'P' ∨ cs.head? = some 'p') :
    read cs = .breakdown ↔ Overruns (cs.map Char.toUpper) := by
  obtain ⟨body, hbody⟩ := exists_body h
  rw [read_eq_readBody hbody, readBody_eq_breakdown_iff, hbody]
  constructor
  · rintro ⟨w, rest, hw, hover⟩
    exact ⟨w, rest, congrArg ('P' :: ·) hw, hover⟩
  · rintro ⟨w, rest, hw, hover⟩
    exact ⟨w, rest, (List.cons.inj hw).2, hover⟩

end LeaseLock.Duration.Iso

namespace LeaseLock.Duration

open Text Text.Numeral

/-- The text without the blanks around it is in the international notation, or not in any. -/
def IsInternational (s : String) : Prop :=
  (trimChars s.toList).head? = some 'P' ∨ (trimChars s.toList).head? = some 'p'

instance (s : String) : Decidable (IsInternational s) := inferInstanceAs (Decidable (_ ∨ _))

/-- The text without the blanks around it, in large letters. -/
def capitals (s : String) : List Char := (trimChars s.toList).map Char.toUpper

theorem read_of_isInternational {s : String} (h : IsInternational s) :
    read s = (Iso.read (trimChars s.toList)).mapFault fun _ => .notIso (trim s) := by
  obtain ⟨cs, hcs⟩ : ∃ cs, trimChars s.toList = cs := ⟨_, rfl⟩
  rw [IsInternational, hcs] at h
  have hne : cs ≠ [] := fun hnil => by
    rw [hnil] at h
    obtain h | h := h <;> cases h
  have hrun : ¬isRun cs = true := fun hrun => by
    obtain h | h := h <;>
    · obtain ⟨body, rfl⟩ := List.head?_eq_some_iff.1 h
      exact absurd (isRun_cons.1 hrun).1 (by decide)
  rw [read, hcs, readTrimmed, if_neg hne, if_neg hrun, if_pos h, trim, hcs]

/-- **The international notation is read exactly.** A text that begins with a `P`, blanks and the size
of letters apart, is read as a span exactly if it is the text of a writing, with numbers and components
in their ranges, that comes to the span. The reader breaks off exactly if the text begins with a
writing that overruns. All other texts are reported as invalid. -/
theorem read_international (s : String) (h : IsInternational s) :
    (∀ d, read s = .value d ↔
      ∃ w : Iso.Writing, w.text = capitals s ∧ w.Fits ∧ d.nanos = w.nanos) ∧
    (read s = .breakdown ↔ Iso.Overruns (capitals s)) ∧
    ∀ f, read s = .fault f → f = .notIso (trim s) ∧
      (LockError.duration f).kind = .invalidConfiguration := by
  rw [read_of_isInternational h]
  refine ⟨fun d => ?_, ?_, fun f hf => ?_⟩
  · rw [Outcome.mapFault_eq_value_iff, Iso.read_eq_value_iff h, capitals]
  · rw [Outcome.mapFault_eq_breakdown_iff, Iso.read_eq_breakdown_iff h, capitals]
  · cases hread : Iso.read (trimChars s.toList) with
    | value d =>
      rw [hread] at hf
      cases hf
    | fault e =>
      rw [hread] at hf
      cases hf
      exact ⟨rfl, rfl⟩
    | breakdown =>
      rw [hread] at hf
      cases hf

/-- The greatest number of whole seconds that is a span. -/
def mostSeconds : Iso.TimePart := .seconds ⟨"9223372036854775".toList, by decide, by decide⟩

/-- A text is read as the writing says, even with small letters and blanks around it; and one that is
not in the notation breaks the reader off, as it begins with a writing that overruns. -/
theorem broken_off_before_fault :
    (IsInternational " p1DT1.5s " ∧ read " p1DT1.5s " = .value ⟨86401500000000, by decide, by decide⟩) ∧
      IsInternational "PT9223372036854775S9223372036854775S1X" ∧
      read "PT9223372036854775S9223372036854775S1X" = .breakdown := by
  have hday : IsInternational " p1DT1.5s " := by decide
  have hlong : IsInternational "PT9223372036854775S9223372036854775S1X" := by decide
  let day : Iso.Writing := ⟨[⟨['1'], by decide, by decide⟩],
    [.pointed ⟨['1'], by decide, by decide⟩ ['5'] (by decide)], .inl (by decide)⟩
  let long : Iso.Writing := ⟨[], [mostSeconds, mostSeconds], .inr (List.cons_ne_nil _ _)⟩
  refine ⟨⟨hday, ?_⟩, hlong, ?_⟩
  · refine ((read_international _ hday).1 _).2 ⟨day, by decide +kernel, ?_, by decide +kernel⟩
    exact Iso.Writing.fits_of_nanos (by decide +kernel)
  · refine (read_international _ hlong).2.1.2 ⟨long, ['1', 'X'], by decide +kernel, ?_, ?_, ?_⟩
    · exact Iso.Writing.fits_of_amounts (by decide +kernel)
    · decide +kernel
    · refine ⟨[(['1'], 'X')], rfl, fun x hx => ?_⟩
      cases List.mem_singleton.1 hx
      exact ⟨List.cons_ne_nil _ _, fun c hc => by cases List.mem_singleton.1 hc; rfl, rfl⟩

end LeaseLock.Duration
