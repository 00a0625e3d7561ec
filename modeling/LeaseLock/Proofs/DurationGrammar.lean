import LeaseLock.Proofs.WrittenDurations
import Mathlib.Algebra.GroupWithZero.Nat
import Mathlib.Algebra.Order.BigOperators.Group.List
import Mathlib.Algebra.Order.Group.Nat

/-!
# The grammar of durations in the international notation

Texts such as `P1DT2H30M`, and what they come to.

## The model

A `Writing` is a duration as it may be written: numbers of days, and amounts of hours, minutes and
seconds, in any order and as many as one likes, but one at least. A number is a run of digits of any
length, and seconds may have decimals. `Writing.text` is how it is written, in large letters, and
`Writing.nanos` is what it comes to, without any bound. Nothing of this is known to the reader, which
splits a text at its letters and adds up spans, with a check of the range after each step.

## What is proved

The reader is taken apart into its steps, and each is told in terms of what is written. Exactly the
texts that fall into pieces are split, and into these (`components_eq_some_iff`). The spans that it
reads from single pieces are those of components (`spells_date`, `spells_time`). And it adds components
up to what they come to, if that is a span, or breaks off where the first of them come to more than
any (`Spells.addAll_eq_value_iff`, `Spells.addAll_eq_breakdown_iff`).
-/

namespace LeaseLock.Duration.Iso

open Text Text.Numeral

variable {κ : Type} {seen cs ds : List Char} {d total : Span}

/-! ### Pieces -/

/-- What is split off a text: some characters, and the letter after them. -/
abbrev Piece : Type := List Char × Char

/-- The characters of a piece. -/
def Piece.text (x : Piece) : List Char := x.1 ++ [x.2]

/-- The piece ends with the first letter in it, which is not its first character. -/
structure IsPiece (x : Piece) : Prop where
  ne_nil : x.1 ≠ []
  plain : ∀ c ∈ x.1, isLetter c = false
  letter : isLetter x.2 = true

/-- The text falls into pieces. -/
def Pieces (cs : List Char) : Prop :=
  ∃ xs : List Piece, cs = xs.flatMap Piece.text ∧ ∀ x ∈ xs, IsPiece x

theorem components_append (hds : ∀ c ∈ ds, isLetter c = false) (seen cs : List Char) :
    components seen (ds ++ cs) = components (ds.reverse ++ seen) cs := by
  induction ds generalizing seen with
  | nil => rfl
  | cons c ds ih =>
    rw [List.cons_append, components, if_neg (by rw [hds c List.mem_cons_self]; decide),
      ih (fun x hx => hds x (List.mem_cons_of_mem _ hx)), List.reverse_cons, List.append_assoc,
      List.singleton_append]

/-- Pieces are split off as they are. -/
theorem components_flatMap {xs : List Piece} (hxs : ∀ x ∈ xs, IsPiece x) :
    components [] (xs.flatMap Piece.text) = some xs := by
  induction xs with
  | nil => rfl
  | cons x xs ih =>
    have hx := hxs x List.mem_cons_self
    rw [List.flatMap_cons, Piece.text, List.append_assoc, components_append hx.plain,
      List.append_nil, List.singleton_append, components, if_pos hx.letter,
      if_neg (mt List.reverse_eq_nil_iff.1 hx.ne_nil), List.reverse_reverse,
      ih fun y hy => hxs y (List.mem_cons_of_mem _ hy)]
    rfl

/-- What is split off are pieces, and nothing is lost. -/
theorem pieces_of_components (hseen : ∀ c ∈ seen, isLetter c = false) {xs : List Piece}
    (h : components seen cs = some xs) :
    seen.reverse ++ cs = xs.flatMap Piece.text ∧ ∀ x ∈ xs, IsPiece x := by
  induction cs generalizing seen xs with
  | nil =>
    rw [components] at h
    split at h
    · rename_i hnil
      cases h
      rw [hnil]
      exact ⟨rfl, fun _ hx => (List.not_mem_nil hx).elim⟩
    · cases h
  | cons c cs ih =>
    rw [components] at h
    split at h
    · rename_i hc
      split at h
      · cases h
      · rename_i hne
        obtain ⟨ys, hys, rfl⟩ := Option.map_eq_some_iff.1 h
        obtain ⟨htext, hpieces⟩ := ih (fun _ hx => (List.not_mem_nil hx).elim) hys
        refine ⟨?_, fun x hx => ?_⟩
        · rw [List.flatMap_cons, ← htext, Piece.text, List.append_assoc]
          rfl
        · obtain rfl | hx := List.mem_cons.1 hx
          · exact ⟨mt List.reverse_eq_nil_iff.1 hne, fun x hx => hseen x (List.mem_reverse.1 hx),
              hc⟩
          · exact hpieces x hx
    · rename_i hc
      obtain ⟨htext, hpieces⟩ := ih (fun x hx => by
        obtain rfl | hx := List.mem_cons.1 hx
        · exact Bool.eq_false_iff.2 hc
        · exact hseen x hx) h
      refine ⟨?_, hpieces⟩
      rw [← htext, List.reverse_cons, List.append_assoc]
      rfl

/-- **A text is split** exactly if it falls into pieces, and exactly into these. -/
theorem components_eq_some_iff {xs : List Piece} :
    components [] cs = some xs ↔ cs = xs.flatMap Piece.text ∧ ∀ x ∈ xs, IsPiece x :=
  ⟨fun h => pieces_of_components (fun _ hx => (List.not_mem_nil hx).elim) h, fun ⟨h, hxs⟩ => by
    rw [h, components_flatMap hxs]⟩

/-! ### What may be written -/

/-- A number as it is written: one digit or more. -/
structure Figure where
  chars : List Char
  ne_nil : chars ≠ []
  isRun : isRun chars = true

/-- The number that is written. -/
def Figure.value (n : Figure) : Nat := Numeral.value n.chars

/-- The nanoseconds of an hour. -/
def nanosPerHour : Nat := 3600000000000

/-- A component before the `T`: a number of days. -/
def dayPiece (n : Figure) : Piece := (n.chars, 'D')

/-- The nanoseconds of a number of days. -/
def dayNanos (n : Figure) : Nat := n.value * (24 * nanosPerHour)

/-- A component behind the `T`. -/
inductive TimePart where
  | hours (n : Figure)
  | minutes (n : Figure)
  | seconds (n : Figure)
  /-- Seconds with a point, behind which there may be decimals. -/
  | pointed (n : Figure) (decimals : List Char) (isRun : Numeral.isRun decimals = true)

namespace TimePart

/-- The number before the unit, or before the point. -/
def figure : TimePart → Figure
  | hours n | minutes n | seconds n | pointed n _ _ => n

/-- How the component is written. -/
def piece : TimePart → Piece
  | hours n => (n.chars, 'H')
  | minutes n => (n.chars, 'M')
  | seconds n => (n.chars, 'S')
  | pointed n ds _ => (n.chars ++ '.' :: ds, 'S')

/-- The nanoseconds of the component. Decimals are cut down to whole nanoseconds. -/
def nanos : TimePart → Nat
  | hours n => n.value * nanosPerHour
  | minutes n => n.value * 60000000000
  | seconds n => n.value * 1000000000
  | pointed n ds _ => n.value * 1000000000 + value ds * 1000000000 / Nat.pow 10 ds.length

end TimePart

/-- How components before the `T` are written. -/
def dateText (ns : List Figure) : List Char := (ns.map dayPiece).flatMap Piece.text

/-- How components behind the `T` are written. -/
def timeText (cs : List TimePart) : List Char := (cs.map TimePart.piece).flatMap Piece.text

/-- A duration as it may be written. -/
structure Writing where
  days : List Figure
  times : List TimePart
  ne_nil : days ≠ [] ∨ times ≠ []

namespace Writing

/-- What is written after the `P`. There is a `T` if something comes behind it. -/
def body (w : Writing) : List Char :=
  dateText w.days ++ if w.times.isEmpty then [] else 'T' :: timeText w.times

/-- How the duration is written, in large letters. -/
def text (w : Writing) : List Char := 'P' :: w.body

/-- The numbers in it, decimals apart. -/
def figures (w : Writing) : List Figure := w.days ++ w.times.map TimePart.figure

/-- The nanoseconds of its components. -/
def amounts (w : Writing) : List Nat := w.days.map dayNanos ++ w.times.map TimePart.nanos

/-- The nanoseconds that it comes to. -/
def nanos (w : Writing) : Nat := w.amounts.sum

/-- Each number in it is a signed 64-bit number, and each of its components is a span. -/
structure Fits (w : Writing) : Prop where
  figures : ∀ n ∈ w.figures, n.value ≤ word63
  amounts : ∀ k ∈ w.amounts, (k : Int) ≤ Span.limit

end Writing

/-! ### Single components -/

/-- **Decimals are cut down** after nine digits. -/
theorem fractionNanos_eq (h : isRun ds = true) :
    fractionNanos ds = value ds * 1000000000 / Nat.pow 10 ds.length := by
  have hpos : ∀ k, 0 < Nat.pow 10 k := fun k => Nat.pow_pos (by decide)
  by_cases hl : ds.length ≤ 9
  · have hpow : Nat.pow 10 (9 - ds.length) * Nat.pow 10 ds.length = 1000000000 :=
      (Nat.pow_add 10 _ _).symm.trans (by rw [Nat.sub_add_cancel hl])
    rw [fractionNanos, List.take_of_length_le hl, ← hpow, ← Nat.mul_assoc,
      Nat.mul_div_cancel _ (hpos _)]
  · have htake : (ds.take 9).length = 9 := by rw [List.length_take]; omega
    have hdrop : (ds.drop 9).length + 9 = ds.length := by rw [List.length_drop]; omega
    have hrun : isRun (ds.drop 9) = true :=
      List.all_eq_true.2 fun c hc => List.all_eq_true.1 h c (List.mem_of_mem_drop hc)
    have hvalue : value ds =
        Nat.pow 10 (ds.drop 9).length * value (ds.take 9) + value (ds.drop 9) := by
      conv => lhs; rw [← List.take_append_drop 9 ds, value_append,
        Nat.ofDigitChars_eq_ofDigitChars_zero]
      rfl
    have hpow : Nat.pow 10 ds.length = Nat.pow 10 (ds.drop 9).length * 1000000000 := by
      rw [← hdrop]
      exact Nat.pow_add 10 _ 9
    rw [fractionNanos, htake, hpow, Nat.mul_div_mul_right _ _ (by decide), hvalue,
      Nat.mul_add_div (hpos _), Nat.div_eq_of_lt (value_lt hrun), Nat.add_zero]
    exact Nat.mul_one _

/-- What spans are read from pieces: those of the components that are written so. -/
structure Spells (span : Piece → Option Span) (piece : κ → Piece) (nanos : κ → Nat) : Prop where
  isPiece : ∀ c, IsPiece (piece c)
  span_iff : ∀ x d, IsPiece x → (span x = some d ↔ ∃ c, piece c = x ∧ d.nanos = nanos c)

theorem Figure.plain (n : Figure) : ∀ c ∈ n.chars, isLetter c = false := fun c hc =>
  isLetter_of_isDigit (List.all_eq_true.1 n.isRun c hc)

theorem signedWord?_eq_some_iff {n : Nat} :
    signedWord? cs = some n ↔ value cs ≤ word63 ∧ value cs = n := by
  rw [signedWord?]
  split
  · exact ⟨fun h => by cases h; exact ⟨‹_›, rfl⟩, fun h => congrArg some h.2⟩
  · exact ⟨fun h => (by cases h), fun h => absurd h.1 ‹_›⟩

/-- A number of units is read as their span, unless it is longer than any. -/
theorem wholeUnits_eq_some_iff {k : Nat} (hk : 0 < k) :
    wholeUnits k cs = some d ↔ isRun cs = true ∧ d.nanos = value cs * (k * 1000000) := by
  have hupper := d.upper
  simp only [Span.limit, nanosPerMilli] at hupper
  have hassoc : (value cs : Int) * k * nanosPerMilli = value cs * (k * 1000000) := Int.mul_assoc ..
  rw [wholeUnits]
  constructor
  · intro h
    split at h
    · rename_i hrun
      obtain ⟨n, hn, h⟩ := Option.bind_eq_some_iff.1 h
      obtain ⟨-, rfl⟩ := signedWord?_eq_some_iff.1 hn
      split at h
      · exact ⟨hrun, (Span.ofNanos?_eq_some_iff.1 h).trans hassoc⟩
      · cases h
    · cases h
  · rintro ⟨hrun, hd⟩
    -- Both checks of the range are met by whatever comes to a span.
    have hmillis : value cs * k ≤ word63 := by
      rw [← hassoc] at hd
      simp only [nanosPerMilli] at hd
      rw [word63]
      omega
    have hword : value cs ≤ word63 := Nat.le_trans (Nat.le_mul_of_pos_right _ hk) hmillis
    rw [if_pos hrun]
    refine Option.bind_eq_some_iff.2 ⟨_, signedWord?_eq_some_iff.2 ⟨hword, rfl⟩, ?_⟩
    rw [if_pos hmillis]
    exact Span.ofNanos?_eq_some_iff.2 (hd.trans hassoc.symm)

theorem spells_date : Spells dateComponent dayPiece dayNanos where
  isPiece n := ⟨n.ne_nil, n.plain, rfl⟩
  span_iff := by
    rintro ⟨cs, u⟩ d hx
    constructor
    · intro h
      unfold dateComponent at h
      split at h
      · rename_i heq
        cases heq
        obtain ⟨hrun, hd⟩ := (wholeUnits_eq_some_iff (by decide)).1 h
        exact ⟨⟨cs, hx.ne_nil, hrun⟩, rfl, hd⟩
      · cases h
    · rintro ⟨n, hn, hd⟩
      cases hn
      exact (wholeUnits_eq_some_iff (by decide)).2 ⟨n.isRun, hd⟩

theorem fractionNanos_nil : fractionNanos [] = 0 := rfl

/-- A number of seconds is read as their span, unless it is longer than any. -/
theorem fractionalSeconds_eq_some_iff :
    fractionalSeconds cs = some d ↔
      (cs.takeWhile (· != '.') ≠ [] ∧ isRun (cs.takeWhile (· != '.')) = true ∧
        isRun ((cs.dropWhile (· != '.')).drop 1) = true) ∧
      d.nanos = ((value (cs.takeWhile (· != '.')) * 1000000000 +
        fractionNanos ((cs.dropWhile (· != '.')).drop 1) : Nat) : Int) := by
  have hupper := d.upper
  simp only [Span.limit, nanosPerMilli] at hupper
  rw [fractionalSeconds]
  generalize cs.takeWhile (· != '.') = whole
  generalize (cs.dropWhile (· != '.')).drop 1 = frac
  constructor
  · intro h
    split at h
    · rename_i hform
      obtain ⟨n, hn, hrest⟩ := Option.bind_eq_some_iff.1 h
      obtain ⟨seconds, hs, hrest⟩ := Option.bind_eq_some_iff.1 hrest
      obtain ⟨rest, hr, hsum⟩ := Option.bind_eq_some_iff.1 hrest
      refine ⟨hform, ?_⟩
      rw [(signedWord?_eq_some_iff.1 hn).2, Span.add?_eq_some_iff.1 hsum,
        Span.ofNanos?_eq_some_iff.1 hs, Span.ofNanos?_eq_some_iff.1 hr]
      rfl
    · cases h
  · rintro ⟨hform, hd⟩
    -- The seconds alone, and the decimals alone, are within the bounds if their sum is.
    have hword : value whole ≤ word63 := by rw [word63]; omega
    obtain ⟨seconds, hs⟩ : ∃ s : Span, s.nanos = value whole * nanosPerSecond :=
      ⟨⟨value whole * nanosPerSecond, by simp only [Span.limit, nanosPerMilli, nanosPerSecond]; omega,
        by simp only [Span.limit, nanosPerMilli, nanosPerSecond]; omega⟩, rfl⟩
    obtain ⟨rest, hr⟩ : ∃ r : Span, r.nanos = fractionNanos frac :=
      ⟨⟨fractionNanos frac, by simp only [Span.limit, nanosPerMilli]; omega,
        by simp only [Span.limit, nanosPerMilli]; omega⟩, rfl⟩
    rw [if_pos hform]
    exact Option.bind_eq_some_iff.2 ⟨_, signedWord?_eq_some_iff.2 ⟨hword, rfl⟩,
      Option.bind_eq_some_iff.2 ⟨seconds, Span.ofNanos?_eq_some_iff.2 hs,
        Option.bind_eq_some_iff.2 ⟨rest, Span.ofNanos?_eq_some_iff.2 hr,
          Span.add?_eq_some_iff.2 (by rw [hd, hs, hr]; rfl)⟩⟩⟩

theorem Figure.not_point (n : Figure) : ∀ c ∈ n.chars, (c != '.') = true := fun c hc => by
  have hc := toNat_of_isDigit (List.all_eq_true.1 n.isRun c hc)
  refine bne_iff_ne.2 fun h => ?_
  rw [h] at hc
  exact absurd hc.1 (by decide)

/-- A text that has a point is split there. -/
theorem split_point (cs : List Char) :
    cs = cs.takeWhile (· != '.') ∧ (cs.dropWhile (· != '.')).drop 1 = [] ∨
      cs = cs.takeWhile (· != '.') ++ '.' :: (cs.dropWhile (· != '.')).drop 1 := by
  have hsplit := List.takeWhile_append_dropWhile (p := (· != '.')) (l := cs)
  cases hrest : cs.dropWhile (· != '.') with
  | nil =>
    rw [hrest, List.append_nil] at hsplit
    exact .inl ⟨hsplit.symm, rfl⟩
  | cons c rest =>
    have hc := List.head_dropWhile_not (p := (· != '.')) (l := cs)
      (by rw [hrest]; exact List.cons_ne_nil _ _)
    simp only [hrest, List.head_cons, bne_eq_false_iff_eq] at hc
    rw [hrest, hc] at hsplit
    exact .inr hsplit.symm

theorem fractionalSeconds_iff :
    fractionalSeconds cs = some d ↔ ∃ c : TimePart, c.piece = (cs, 'S') ∧ d.nanos = c.nanos := by
  rw [fractionalSeconds_eq_some_iff]
  constructor
  · rintro ⟨⟨hne, hrun, hfrac⟩, hd⟩
    obtain ⟨hcs, hnil⟩ | hcs := split_point cs
    · rw [hnil, fractionNanos_nil, Nat.add_zero] at hd
      exact ⟨.seconds ⟨_, hne, hrun⟩, congrArg (·, 'S') hcs.symm, hd⟩
    · rw [fractionNanos_eq hfrac] at hd
      exact ⟨.pointed ⟨_, hne, hrun⟩ _ hfrac, congrArg (·, 'S') hcs.symm, hd⟩
  · rintro ⟨c, hc, hd⟩
    cases c with
    | hours n => cases hc
    | minutes n => cases hc
    | seconds n =>
      cases hc
      have htake : (n.chars ++ []).takeWhile (· != '.') = n.chars ++ List.takeWhile _ [] :=
        List.takeWhile_append_of_pos n.not_point
      have hdrop : (n.chars ++ []).dropWhile (· != '.') = List.dropWhile _ [] :=
        List.dropWhile_append_of_pos n.not_point
      rw [List.append_nil] at htake hdrop
      rw [htake, hdrop, List.takeWhile_nil, List.append_nil, List.dropWhile_nil, List.drop_nil,
        fractionNanos_nil, Nat.add_zero]
      exact ⟨⟨n.ne_nil, n.isRun, rfl⟩, hd⟩
    | pointed n ds hds =>
      cases hc
      rw [List.takeWhile_append_of_pos n.not_point, List.dropWhile_append_of_pos n.not_point]
      simp only [List.takeWhile_cons, List.dropWhile_cons, bne_self_eq_false, Bool.false_eq_true,
        if_false, List.append_nil, List.drop_succ_cons, List.drop_zero]
      exact ⟨⟨n.ne_nil, n.isRun, hds⟩, by rw [fractionNanos_eq hds]; exact hd⟩

theorem TimePart.isPiece (c : TimePart) : IsPiece c.piece := by
  cases c with
  | hours n => exact ⟨n.ne_nil, n.plain, rfl⟩
  | minutes n => exact ⟨n.ne_nil, n.plain, rfl⟩
  | seconds n => exact ⟨n.ne_nil, n.plain, rfl⟩
  | pointed n ds hds =>
    refine ⟨List.append_ne_nil_of_left_ne_nil n.ne_nil _, fun c hc => ?_, rfl⟩
    obtain hc | hc := List.mem_append.1 hc
    · exact n.plain c hc
    · obtain rfl | hc := List.mem_cons.1 hc
      · rfl
      · exact isLetter_of_isDigit (List.all_eq_true.1 hds c hc)

theorem spells_time : Spells timeComponent TimePart.piece TimePart.nanos where
  isPiece := TimePart.isPiece
  span_iff := by
    rintro ⟨cs, u⟩ d hx
    constructor
    · intro h
      unfold timeComponent at h
      split at h
      · rename_i heq
        cases heq
        obtain ⟨hrun, hd⟩ := (wholeUnits_eq_some_iff (by decide)).1 h
        exact ⟨.hours ⟨cs, hx.ne_nil, hrun⟩, rfl, hd⟩
      · rename_i heq
        cases heq
        obtain ⟨hrun, hd⟩ := (wholeUnits_eq_some_iff (by decide)).1 h
        exact ⟨.minutes ⟨cs, hx.ne_nil, hrun⟩, rfl, hd⟩
      · rename_i heq
        cases heq
        exact fractionalSeconds_iff.1 h
      · cases h
    · rintro ⟨c, hc, hd⟩
      cases c with
      | hours n =>
        cases hc
        exact (wholeUnits_eq_some_iff (by decide)).2 ⟨n.isRun, hd⟩
      | minutes n =>
        cases hc
        exact (wholeUnits_eq_some_iff (by decide)).2 ⟨n.isRun, hd⟩
      | seconds n =>
        cases hc
        exact fractionalSeconds_iff.2 ⟨.seconds n, rfl, hd⟩
      | pointed n ds hds =>
        cases hc
        exact fractionalSeconds_iff.2 ⟨.pointed n ds hds, rfl, hd⟩

/-! ### Sums -/

section Sums

variable {span : Piece → Option Span} {piece : κ → Piece} {nanos : κ → Nat}

/-- What components come to. -/
def sumOf (nanos : κ → Nat) (cs : List κ) : Nat := (cs.map nanos).sum

theorem sumOf_nil (nanos : κ → Nat) : sumOf nanos [] = 0 := rfl

theorem sumOf_cons (nanos : κ → Nat) (c : κ) (cs : List κ) :
    sumOf nanos (c :: cs) = nanos c + sumOf nanos cs := by
  rw [sumOf, List.map_cons, List.sum_cons]
  rfl

theorem Spells.span_piece (h : Spells span piece nanos) {c : κ} (hc : (nanos c : Int) ≤ Span.limit) :
    ∃ d : Span, span (piece c) = some d ∧ d.nanos = nanos c := by
  have hlower : -Span.limit ≤ (nanos c : Int) := by
    simp only [Span.limit, nanosPerMilli]
    omega
  exact ⟨⟨nanos c, hlower, hc⟩, (h.span_iff _ _ (h.isPiece c)).2 ⟨c, rfl, rfl⟩, rfl⟩

/-- **Pieces are added up** to a span exactly if they are components that come to it. -/
theorem Spells.addAll_eq_value_iff (h : Spells span piece nanos) {xs : List Piece}
    (hxs : ∀ x ∈ xs, IsPiece x) (ht : 0 ≤ total.nanos) :
    addAll span total xs = .value d ↔
      ∃ cs, xs = cs.map piece ∧ d.nanos = total.nanos + sumOf nanos cs := by
  induction xs generalizing total with
  | nil =>
    constructor
    · intro hd
      cases hd
      exact ⟨[], rfl, (Int.add_zero _).symm⟩
    · rintro ⟨cs, hcs, hd⟩
      obtain rfl := List.map_eq_nil_iff.1 hcs.symm
      exact congrArg Outcome.value (Span.ext (hd.trans (Int.add_zero _)).symm)
  | cons x xs ih =>
    have ih := fun sum : Span => @ih sum fun y hy => hxs y (List.mem_cons_of_mem _ hy)
    rw [addAll, Outcome.bind_eq_value_iff]
    simp only [Outcome.bind_eq_value_iff, Outcome.ofOption_eq_value_iff,
      Outcome.orBreak_eq_value_iff]
    constructor
    · rintro ⟨e, he, sum, hsum, hd⟩
      obtain ⟨c, rfl, hc⟩ := (h.span_iff x e (hxs x List.mem_cons_self)).1 he
      have hsum := Span.add?_eq_some_iff.1 hsum
      obtain ⟨cs, rfl, hd⟩ := (ih sum (by omega)).1 hd
      exact ⟨c :: cs, rfl, by rw [sumOf_cons]; omega⟩
    · rintro ⟨cs, hcs, hd⟩
      cases cs with
      | nil => cases hcs
      | cons c cs =>
        obtain ⟨rfl, rfl⟩ := List.cons.inj hcs
        rw [sumOf_cons] at hd
        have hupper := d.upper
        obtain ⟨e, he, hc⟩ := h.span_piece (c := c) (by omega)
        obtain ⟨sum, hsum⟩ : ∃ sum : Span, sum.nanos = total.nanos + e.nanos :=
          ⟨⟨total.nanos + e.nanos, by have := total.lower; omega, by omega⟩, rfl⟩
        refine ⟨e, he, sum, Span.add?_eq_some_iff.2 hsum, (ih sum (by omega)).2 ⟨cs, rfl, ?_⟩⟩
        omega

/-- Where two spans have no sum, they come to more than any. -/
theorem limit_lt_of_add?_eq_none {e : Span} (ht : 0 ≤ total.nanos) (he : 0 ≤ e.nanos)
    (h : total.add? e = none) : Span.limit < total.nanos + e.nanos := by
  obtain hlow | hover := Span.ofNanos?_eq_none_iff.1 h
  · simp only [Span.limit, nanosPerMilli] at hlow
    omega
  · exact hover

theorem not_limit_lt_sumOf_nil : ¬Span.limit < total.nanos + sumOf nanos [] :=
  Int.not_lt.2 ((Int.add_zero total.nanos).trans_le total.upper)

theorem addAll_cons_eq_breakdown_iff {x : Piece} {xs : List Piece} :
    addAll span total (x :: xs) = .breakdown ↔
      ∃ e, span x = some e ∧
        (total.add? e = none ∨ ∃ sum, total.add? e = some sum ∧ addAll span sum xs = .breakdown) := by
  rw [addAll, Outcome.ofOption_bind_eq_breakdown_iff]
  simp only [Outcome.bind_eq_breakdown_iff, Outcome.orBreak_eq_breakdown_iff,
    Outcome.orBreak_eq_value_iff]

/-- **The sum breaks off** exactly if the first pieces are components, each of them a span, that come
to more than any span. -/
theorem Spells.addAll_eq_breakdown_iff (h : Spells span piece nanos) {xs : List Piece}
    (hxs : ∀ x ∈ xs, IsPiece x) (ht : 0 ≤ total.nanos) :
    addAll span total xs = .breakdown ↔
      ∃ cs rest, xs = cs.map piece ++ rest ∧ (∀ c ∈ cs, (nanos c : Int) ≤ Span.limit) ∧
        Span.limit < total.nanos + sumOf nanos cs := by
  induction xs generalizing total with
  | nil =>
    refine ⟨(nomatch ·), ?_⟩
    rintro ⟨cs, rest, hcs, -, hover⟩
    obtain rfl := List.map_eq_nil_iff.1 (List.append_eq_nil_iff.1 hcs.symm).1
    exact (not_limit_lt_sumOf_nil hover).elim
  | cons x xs ih =>
    have ih := fun sum : Span => @ih sum fun y hy => hxs y (List.mem_cons_of_mem _ hy)
    rw [addAll_cons_eq_breakdown_iff]
    constructor
    · rintro ⟨e, he, hend⟩
      obtain ⟨c, rfl, hc⟩ := (h.span_iff x e (hxs x List.mem_cons_self)).1 he
      have hfit : (nanos c : Int) ≤ Span.limit := hc ▸ e.upper
      obtain hnone | ⟨sum, hsum, hbreak⟩ := hend
      · have hover := limit_lt_of_add?_eq_none ht (by omega) hnone
        refine ⟨[c], xs, rfl, ?_, ?_⟩
        · exact List.forall_mem_singleton.2 hfit
        · rw [sumOf_cons, sumOf_nil]
          omega
      · have hsum := Span.add?_eq_some_iff.1 hsum
        obtain ⟨cs, rest, rfl, hfits, hover⟩ := (ih sum (by omega)).1 hbreak
        refine ⟨c :: cs, rest, rfl, List.forall_mem_cons.2 ⟨hfit, hfits⟩, ?_⟩
        rw [sumOf_cons]
        omega
    · rintro ⟨cs, rest, hcs, hfits, hover⟩
      cases cs with
      | nil => exact (not_limit_lt_sumOf_nil hover).elim
      | cons c cs =>
        obtain ⟨rfl, rfl⟩ := List.cons.inj hcs
        obtain ⟨hfit, hfits⟩ := List.forall_mem_cons.1 hfits
        rw [sumOf_cons] at hover
        obtain ⟨e, he, hc⟩ := h.span_piece hfit
        refine ⟨e, he, ?_⟩
        cases hsum : total.add? e with
        | none => exact .inl rfl
        | some sum =>
          have hsum := Span.add?_eq_some_iff.1 hsum
          exact .inr ⟨sum, rfl, (ih sum (by omega)).2 ⟨cs, rest, rfl, hfits, by omega⟩⟩

end Sums

end LeaseLock.Duration.Iso
