import LeaseLock.Duration.Human
import LeaseLock.Proofs.Digits

/-!
# Durations in words, amount by amount

Texts such as `1h 30m`, and what they come to.

## The model

An `Amount` is a number and a unit as they may be written: blanks before the number, digits with
blanks between them, perhaps a point with decimals, and letters. Whatever the letters are, `addends`
tells what the reader adds for it, or that there is nothing that it could add: first the whole number,
and then the decimals. An `Addend` is a number of seconds and a number of nanoseconds, and `sumUp` adds
them in natural numbers. A sum may be too large in two ways. If it comes to `2 ^ 64` seconds, and the
addend fills up the nanoseconds to precisely a second, the reader breaks off (`Addend.Breaks`); else it
reports a fault.

## What is proved

The reader goes from one amount to the next, and what it does at the end of an amount does not depend
on where in the text that is (`scan_amounts`). If it reports no fault, it has been reading amounts
(`amounts_of_scan`). So both its results and its breaking off are those of sums of amounts
(`scan_eq_value_iff`, `scan_eq_breakdown_iff`). What its faults say is not told here.
-/

namespace LeaseLock

namespace Outcome

variable {ε α β : Type}

/-- The same end, without an account of the fault. -/
def silent (x : Outcome ε α) : Outcome Unit α := x.mapFault fun _ => ()

@[simp] theorem silent_value (a : α) : (value a : Outcome ε α).silent = value a := rfl
@[simp] theorem silent_fault (e : ε) : (fault e : Outcome ε α).silent = fault () := rfl
@[simp] theorem silent_breakdown : (breakdown : Outcome ε α).silent = breakdown := rfl

theorem silent_bind (x : Outcome ε α) (f : α → Outcome ε β) :
    (x >>= f).silent = x.silent >>= fun a => (f a).silent := by
  cases x <;> rfl

theorem silent_eq_value_iff {x : Outcome ε α} {a : α} : x.silent = value a ↔ x = value a :=
  mapFault_eq_value_iff

theorem silent_eq_breakdown_iff {x : Outcome ε α} : x.silent = breakdown ↔ x = breakdown :=
  mapFault_eq_breakdown_iff

theorem silent_eq_fault_iff {x : Outcome ε α} : x.silent = fault () ↔ ∃ e, x = fault e := by
  cases x with
  | value a => exact ⟨(nomatch ·), fun ⟨_, h⟩ => nomatch h⟩
  | fault e => exact ⟨fun _ => ⟨e, rfl⟩, fun _ => rfl⟩
  | breakdown => exact ⟨(nomatch ·), fun ⟨_, h⟩ => nomatch h⟩

end Outcome

namespace Duration.Human

open Text Text.Numeral

variable {t n pos start last : Nat} {e : Elapsed} {f : Fraction} {cs ds us rest : List Char}

/-! ### Sums -/

/-- A number of nanoseconds, as the reader keeps it. -/
def Elapsed.ofNanos (t : Nat) : Elapsed := ⟨t / 1000000000, t % 1000000000⟩

/-- Seconds and nanoseconds that are added at once. -/
structure Addend where
  seconds : Nat
  nanos : Nat
  deriving DecidableEq

/-- The nanoseconds that are added. -/
def Addend.total (a : Addend) : Nat := a.seconds * 1000000000 + a.nanos

/-- The nanoseconds of `2 ^ 64` seconds. -/
def ceiling : Nat := 18446744073709551616000000000

/-- The addend may be added to the sum: all numbers on the way have 64 bits, and so have the seconds of
what it comes to. -/
def Addend.Fits (t : Nat) (a : Addend) : Prop :=
  a.seconds ≤ word64 ∧ t % 1000000000 + a.nanos ≤ word64 ∧ t + a.total < ceiling

/-- The addend fills up the nanoseconds to a second, with which the sum comes to `2 ^ 64` of them. -/
def Addend.Breaks (t : Nat) (a : Addend) : Prop :=
  t % 1000000000 + a.nanos = 1000000000 ∧ t + a.total = ceiling

instance (t : Nat) (a : Addend) : Decidable (a.Fits t) := inferInstanceAs (Decidable (_ ∧ _))
instance (t : Nat) (a : Addend) : Decidable (a.Breaks t) := inferInstanceAs (Decidable (_ ∧ _))

namespace Elapsed

variable {a : Addend}

theorem add_of_fits (h : a.Fits t) :
    (ofNanos t).add a.seconds a.nanos = .value (ofNanos (t + a.total)) := by
  obtain ⟨s, n⟩ := a
  obtain ⟨hs, hn, hsum⟩ := h
  have hword : word64 = 18446744073709551615 := rfl
  simp only [Addend.total, ceiling] at hs hn hsum ⊢
  rw [add, if_neg (by simp only [ofNanos]; omega)]
  by_cases hcarry : 1000000000 < t % 1000000000 + n
  · simp only [ofNanos, hcarry, if_true]
    rw [if_neg (by omega), if_pos (by omega)]
    refine congrArg Outcome.value (congr (congrArg Elapsed.mk ?_) ?_) <;> omega
  · simp only [ofNanos, hcarry, if_false, Nat.add_zero]
    rw [if_neg (by omega)]
    split
    · refine congrArg Outcome.value (congr (congrArg Elapsed.mk ?_) ?_) <;> omega
    · rw [if_neg (by omega)]
      refine congrArg Outcome.value (congr (congrArg Elapsed.mk ?_) ?_) <;> omega

theorem add_of_breaks (h : a.Breaks t) : (ofNanos t).add a.seconds a.nanos = .breakdown := by
  obtain ⟨s, n⟩ := a
  obtain ⟨hn, hsum⟩ := h
  have hword : word64 = 18446744073709551615 := rfl
  simp only [Addend.total, ceiling] at hn hsum ⊢
  rw [add, if_neg (by simp only [ofNanos]; omega)]
  have hcarry : ¬1000000000 < t % 1000000000 + n := by omega
  simp only [ofNanos, hcarry, if_false, Nat.add_zero]
  rw [if_neg (by omega), if_neg (by omega), if_pos (by omega)]

theorem add_of_neither (hf : ¬a.Fits t) (hb : ¬a.Breaks t) :
    (ofNanos t).add a.seconds a.nanos = .fault .inexact := by
  obtain ⟨s, n⟩ := a
  have hword : word64 = 18446744073709551615 := rfl
  simp only [Addend.Fits, Addend.Breaks, Addend.total, ceiling] at hf hb ⊢
  rw [add]
  split
  · rfl
  · rename_i hrange
    simp only [ofNanos] at hrange ⊢
    by_cases hcarry : 1000000000 < t % 1000000000 + n
    · simp only [hcarry, if_true]
      rw [if_pos (by omega)]
    · simp only [hcarry, if_false, Nat.add_zero]
      rw [if_pos (by omega)]

end Elapsed

/-- What addends come to, if each of them may be added. Where one is missing, there is a fault. -/
def sumUp : Nat → List (Option Addend) → Outcome Unit Nat
  | t, [] => .value t
  | _, none :: _ => .fault ()
  | t, some a :: as =>
    if a.Fits t then sumUp (t + a.total) as else if a.Breaks t then .breakdown else .fault ()

theorem sumUp_append (t : Nat) (as bs : List (Option Addend)) :
    sumUp t (as ++ bs) = sumUp t as >>= fun u => sumUp u bs := by
  induction as generalizing t with
  | nil => rfl
  | cons a as ih =>
    cases a with
    | none => rfl
    | some a =>
      rw [List.cons_append, sumUp, sumUp]
      split
      · exact ih _
      · split <;> rfl

/-- The reader adds as `sumUp` does. -/
theorem silent_add (t : Nat) (a : Addend) :
    ((Elapsed.ofNanos t).add a.seconds a.nanos).silent =
      sumUp t [some a] >>= fun u => .value (Elapsed.ofNanos u) := by
  rw [sumUp]
  by_cases hf : a.Fits t
  · rw [Elapsed.add_of_fits hf, if_pos hf]
    rfl
  · rw [if_neg hf]
    by_cases hb : a.Breaks t
    · rw [Elapsed.add_of_breaks hb, if_pos hb]
      rfl
    · rw [Elapsed.add_of_neither hf hb, if_neg hb]
      rfl

/-! ### Amounts -/

/-- Digits, and blanks among them. -/
def IsMixed (cs : List Char) : Prop := ∀ c ∈ cs, c.isDigit = true ∨ isBlank c = true

/-- The digits of a text. -/
def figures (cs : List Char) : List Char := cs.filter Char.isDigit

/-- What is written behind a point. Numerator and denominator of the fraction have 64 bits. -/
structure Decimals where
  chars : List Char
  mixed : IsMixed chars
  ne_nil : figures chars ≠ []
  short : Nat.pow 10 (figures chars).length ≤ word64

/-- The fraction that decimals stand for. -/
def Decimals.fraction (ds : Decimals) : Fraction :=
  ⟨value (figures ds.chars), Nat.pow 10 (figures ds.chars).length⟩

/-- How decimals are written, if there are any. -/
def Decimals.written : Option Decimals → List Char
  | none => []
  | some ds => '.' :: ds.chars

/-- A number and the name of a unit, as they may be written. -/
structure Amount where
  /-- Blanks before the number. -/
  gap : List Char
  first : Char
  /-- The number after its first digit. -/
  more : List Char
  decimals : Option Decimals
  word : List Char
  isBlank_gap : ∀ c ∈ gap, isBlank c = true
  isDigit_first : first.isDigit = true
  mixed_more : IsMixed more
  number_le : value (first :: figures more) ≤ word64
  word_ne_nil : word ≠ []
  isUnitLetter_word : ∀ c ∈ word, isUnitLetter c = true

/-- Adds a fraction of the unit, if it comes out. -/
def Measure.part? (f : Fraction) (u : Measure) : Option Addend :=
  u.fine?.bind fun (inSeconds, size) =>
    if f.numerator * size ≤ word64 ∧ f.numerator * size % f.denominator = 0 then
      let k := f.numerator * size / f.denominator
      some (if inSeconds then ⟨k, 0⟩ else ⟨0, k⟩)
    else none

namespace Amount

/-- The number, decimals apart. -/
def number (a : Amount) : Nat := value (a.first :: figures a.more)

/-- The fraction, if there is one. -/
def fraction? (a : Amount) : Option Fraction := a.decimals.map Decimals.fraction

/-- How the amount is written. -/
def text (a : Amount) : List Char :=
  a.gap ++ a.first :: (a.more ++ (Decimals.written a.decimals ++ a.word))

/-- What is added for the amount: the whole number, then the fraction. -/
def addends (a : Amount) : List (Option Addend) :=
  match Measure.named? a.word with
  | none => [none]
  | some u =>
    some ⟨(u.whole a.number).1, (u.whole a.number).2⟩ ::
      match a.fraction? with
      | none => []
      | some f => [u.part? f]

end Amount

/-- How amounts are written. -/
def textOf (as : List Amount) : List Char := as.flatMap Amount.text

/-- What is added for amounts. -/
def addendsOf (as : List Amount) : List (Option Addend) := as.flatMap Amount.addends

theorem silent_addFraction (t : Nat) (f : Fraction) (u : Measure) :
    ((Elapsed.ofNanos t).addFraction f u).silent =
      sumUp t [u.part? f] >>= fun v => .value (Elapsed.ofNanos v) := by
  rw [Elapsed.addFraction, Measure.part?]
  cases u.fine? with
  | none => rfl
  | some fine =>
    obtain ⟨inSeconds, size⟩ := fine
    simp only [Option.bind_some]
    by_cases h : f.numerator * size ≤ word64 ∧ f.numerator * size % f.denominator = 0
    · rw [if_pos h, if_neg (by omega)]
      cases inSeconds with
      | false => exact silent_add t ⟨0, _⟩
      | true => exact silent_add t ⟨_, 0⟩
    · rw [if_neg h, if_pos (by omega)]
      rfl

/-- **An amount is added** addend by addend. -/
theorem silent_addAmount (t : Nat) (a : Amount) :
    ((Elapsed.ofNanos t).addAmount a.number a.fraction? a.word).silent =
      sumUp t a.addends >>= fun u => .value (Elapsed.ofNanos u) := by
  rw [Elapsed.addAmount, Amount.addends]
  cases Measure.named? a.word with
  | none =>
    simp only [if_neg a.word_ne_nil]
    rfl
  | some u =>
    simp only
    rw [Outcome.silent_bind, silent_add t ⟨(u.whole a.number).1, (u.whole a.number).2⟩]
    cases a.fraction? with
    | none => cases sumUp t [some ⟨(u.whole a.number).1, (u.whole a.number).2⟩] <;> rfl
    | some f =>
      rw [← List.singleton_append (l := [u.part? f]), sumUp_append]
      cases sumUp t [some ⟨(u.whole a.number).1, (u.whole a.number).2⟩] with
      | value v => exact silent_addFraction v f u
      | fault e => rfl
      | breakdown => rfl

/-! ### Reading amounts -/

/-- The text is over, or goes on with a digit or a blank. -/
def IsCut (cs : List Char) : Prop := ∀ c ∈ cs.head?, c.isDigit = true ∨ isBlank c = true

theorem isUnitLetter_plain {c : Char} (h : isUnitLetter c = true) :
    c.isDigit = false ∧ isBlank c = false := by
  have hc : 65 ≤ c.toNat ∧ c.toNat ≤ 90 ∨ 97 ≤ c.toNat ∧ c.toNat ≤ 122 ∨ c.toNat = 181 := by
    rw [isUnitLetter, Bool.or_eq_true, beq_iff_eq] at h
    obtain h | h := h
    · change (decide (65 ≤ c.val ∧ c.val ≤ 90) || (decide (97 ≤ c.val) && decide (c.val ≤ 122))) =
        true at h
      simp only [Bool.or_eq_true, Bool.and_eq_true, decide_eq_true_eq, UInt32.le_iff_toNat_le] at h
      exact h.imp id .inl
    · exact .inr (.inr (congrArg Char.toNat h))
  have hdigit : ¬c.isDigit = true := fun hd => by
    have := toNat_of_isDigit hd
    omega
  refine ⟨Bool.eq_false_iff.2 hdigit, ?_⟩
  simp only [isBlank, Bool.or_eq_false_iff, Bool.and_eq_false_iff, decide_eq_false_iff_not,
    beq_eq_false_iff_ne, ne_eq]
  omega

theorem isDigit_of_isBlank {c : Char} (h : isBlank c = true) : c.isDigit = false :=
  Bool.eq_false_iff.2 fun hd => Bool.eq_false_iff.1 (isBlank_eq_false_of_isDigit hd) h

theorem figures_cons_of_isDigit {c : Char} (h : c.isDigit = true) (ds : List Char) :
    figures (c :: ds) = c :: figures ds := List.filter_cons_of_pos h

theorem figures_cons_of_isBlank {c : Char} (h : isBlank c = true) (ds : List Char) :
    figures (c :: ds) = figures ds :=
  List.filter_cons_of_neg (by rw [isDigit_of_isBlank h]; decide)

/-- More digits make a number no smaller. -/
theorem le_ofDigitChars (ds : List Char) (n : Nat) : n ≤ Nat.ofDigitChars 10 ds n := by
  rw [Nat.ofDigitChars_eq_ofDigitChars_zero]
  exact Nat.le_add_right_of_le (Nat.le_mul_of_pos_left n (Nat.pow_pos (by decide)))

theorem ofDigitChars_cons (c : Char) (ds : List Char) (n : Nat) :
    Nat.ofDigitChars 10 (c :: ds) n = Nat.ofDigitChars 10 ds (n * 10 + digit c) := by
  rw [Nat.ofDigitChars_cons, Nat.mul_comm]
  rfl

section Steps

variable {c : Char}

theorem scan_gap_cons :
    scan (.gap start) pos e (c :: cs) =
      if c.isDigit then scan (.number (digit c)) (pos + c.utf8Size) e cs
      else if isBlank c then scan (.gap start) (pos + c.utf8Size) e cs
      else .fault (.numberExpected start) := by rfl

theorem scan_number_cons :
    scan (.number n) pos e (c :: cs) =
      if c.isDigit then
        match extend? n c with
        | some n => scan (.number n) (pos + c.utf8Size) e cs
        | none => .fault .inexact
      else if isBlank c then scan (.number n) (pos + c.utf8Size) e cs
      else if isUnitLetter c then scan (.letters n none [c]) (pos + c.utf8Size) e cs
      else if c = '.' then scan (.fraction n ⟨0, 1⟩ pos) (pos + c.utf8Size) e cs
      else .fault (.invalidCharacter pos) := by rfl

theorem scan_fraction_cons :
    scan (.fraction n f last) pos e (c :: cs) =
      if c.isDigit then
        match f.extend? c with
        | some f => scan (.fraction n f (pos + c.utf8Size)) (pos + c.utf8Size) e cs
        | none => .fault .inexact
      else if isBlank c then scan (.fraction n f (pos + c.utf8Size)) (pos + c.utf8Size) e cs
      else if isUnitLetter c then
        if f.denominator = 1 then .fault (.invalidCharacter last)
        else scan (.letters n (some f) [c]) (pos + c.utf8Size) e cs
      else .fault (.invalidCharacter last) := by rfl

theorem scan_letters_cons {f : Option Fraction} {word : List Char} :
    scan (.letters n f word) pos e (c :: cs) =
      if c.isDigit then
        e.addAmount n f word.reverse >>= fun e => scan (.number (digit c)) (pos + c.utf8Size) e cs
      else if isBlank c then
        e.addAmount n f word.reverse >>= fun e =>
          scan (.gap (pos + c.utf8Size)) (pos + c.utf8Size) e cs
      else if isUnitLetter c then scan (.letters n f (c :: word)) (pos + c.utf8Size) e cs
      else .fault (.invalidCharacter pos) := by rfl

end Steps

theorem scan_gap_append (hds : ∀ c ∈ ds, isBlank c = true) (start pos : Nat) (cs : List Char) :
    ∃ pos', ∀ e, scan (.gap start) pos e (ds ++ cs) = scan (.gap start) pos' e cs := by
  induction ds generalizing pos with
  | nil => exact ⟨pos, fun _ => rfl⟩
  | cons c ds ih =>
    have hc := hds c List.mem_cons_self
    obtain ⟨pos', h⟩ := ih (fun x hx => hds x (List.mem_cons_of_mem _ hx)) (pos + c.utf8Size)
    refine ⟨pos', fun e => ?_⟩
    rw [← h, List.cons_append]
    simp only [scan_gap_cons, isDigit_of_isBlank hc, hc, Bool.false_eq_true, if_false, if_true]

theorem scan_number_append (hds : IsMixed ds)
    (hle : Nat.ofDigitChars 10 (figures ds) n ≤ word64) (pos : Nat) (cs : List Char) :
    ∃ pos', ∀ e, scan (.number n) pos e (ds ++ cs) =
      scan (.number (Nat.ofDigitChars 10 (figures ds) n)) pos' e cs := by
  induction ds generalizing n pos with
  | nil => exact ⟨pos, fun _ => rfl⟩
  | cons c ds ih =>
    have hmixed : IsMixed ds := fun x hx => hds x (List.mem_cons_of_mem _ hx)
    obtain hc | hc := hds c List.mem_cons_self
    · rw [figures_cons_of_isDigit hc, ofDigitChars_cons] at hle ⊢
      have hext : extend? n c = some (n * 10 + digit c) :=
        if_pos (Nat.le_trans (le_ofDigitChars _ _) hle)
      obtain ⟨pos', h⟩ := ih hmixed hle (pos + c.utf8Size)
      refine ⟨pos', fun e => ?_⟩
      rw [← h, List.cons_append]
      simp only [scan_number_cons, hc, if_true, hext]
    · rw [figures_cons_of_isBlank hc] at hle ⊢
      obtain ⟨pos', h⟩ := ih hmixed hle (pos + c.utf8Size)
      refine ⟨pos', fun e => ?_⟩
      rw [← h, List.cons_append]
      simp only [scan_number_cons, isDigit_of_isBlank hc, hc, Bool.false_eq_true, if_false, if_true]

/-- A number of more than 64 bits is not read. -/
theorem scan_number_overflow (hds : IsMixed ds) (hn : n ≤ word64)
    (hover : word64 < Nat.ofDigitChars 10 (figures ds) n) :
    scan (.number n) pos e (ds ++ cs) = .fault .inexact := by
  induction ds generalizing n pos with
  | nil => exact absurd hover (Nat.not_lt.2 hn)
  | cons c ds ih =>
    have hmixed : IsMixed ds := fun x hx => hds x (List.mem_cons_of_mem _ hx)
    obtain hc | hc := hds c List.mem_cons_self
    · rw [figures_cons_of_isDigit hc, ofDigitChars_cons] at hover
      simp only [List.cons_append, scan_number_cons, hc, if_true, extend?]
      by_cases hle : n * 10 + digit c ≤ word64
      · simp only [hle, if_true]
        exact ih hmixed hle hover
      · simp only [hle, if_false]
    · rw [figures_cons_of_isBlank hc] at hover
      simp only [List.cons_append, scan_number_cons, isDigit_of_isBlank hc, hc, Bool.false_eq_true,
        if_false, if_true]
      exact ih hmixed hn hover

/-- Another digit of a fraction. -/
theorem extend?_fraction {c : Char} (hc : c.isDigit = true) (hlt : f.numerator < f.denominator)
    (hle : f.denominator * 10 ≤ word64) :
    f.extend? c = some ⟨f.numerator * 10 + digit c, f.denominator * 10⟩ ∧
      f.numerator * 10 + digit c < f.denominator * 10 := by
  have hdigit : digit c < 10 := digitValue_lt hc
  exact ⟨if_pos ⟨hle, by omega⟩, by omega⟩

theorem scan_fraction_append (hds : IsMixed ds) (hlt : f.numerator < f.denominator)
    (hle : f.denominator * Nat.pow 10 (figures ds).length ≤ word64) (last pos : Nat)
    (cs : List Char) :
    ∃ last' pos', ∀ e, scan (.fraction n f last) pos e (ds ++ cs) =
      scan (.fraction n ⟨Nat.ofDigitChars 10 (figures ds) f.numerator,
        f.denominator * Nat.pow 10 (figures ds).length⟩ last') pos' e cs := by
  induction ds generalizing f last pos with
  | nil =>
    refine ⟨last, pos, fun e => ?_⟩
    rw [show f.denominator * Nat.pow 10 (figures []).length = _ from Nat.mul_one _]
    rfl
  | cons c ds ih =>
    have hmixed : IsMixed ds := fun x hx => hds x (List.mem_cons_of_mem _ hx)
    obtain hc | hc := hds c List.mem_cons_self
    · have hpow : f.denominator * Nat.pow 10 (figures (c :: ds)).length =
          f.denominator * 10 * Nat.pow 10 (figures ds).length := by
        rw [figures_cons_of_isDigit hc, List.length_cons, Nat.mul_assoc]
        exact congrArg _ (Nat.mul_comm _ 10)
      rw [hpow, figures_cons_of_isDigit hc, ofDigitChars_cons]
      rw [hpow] at hle
      obtain ⟨hext, hlt⟩ := extend?_fraction hc hlt
        (Nat.le_trans (Nat.le_mul_of_pos_right _ (Nat.pow_pos (by decide))) hle)
      obtain ⟨last', pos', h⟩ := @ih ⟨_, _⟩ hmixed hlt hle (pos + c.utf8Size) (pos + c.utf8Size)
      refine ⟨last', pos', fun e => ?_⟩
      rw [← h, List.cons_append]
      simp only [scan_fraction_cons, hc, if_true, hext]
    · rw [figures_cons_of_isBlank hc] at hle ⊢
      obtain ⟨last', pos', h⟩ := ih hmixed hlt hle (pos + c.utf8Size) (pos + c.utf8Size)
      refine ⟨last', pos', fun e => ?_⟩
      rw [← h, List.cons_append]
      simp only [scan_fraction_cons, isDigit_of_isBlank hc, hc, Bool.false_eq_true, if_false, if_true]

theorem scan_letters_append {f : Option Fraction} (hus : ∀ c ∈ us, isUnitLetter c = true)
    (word : List Char) (pos : Nat) (cs : List Char) :
    ∃ pos', ∀ e, scan (.letters n f word) pos e (us ++ cs) =
      scan (.letters n f (us.reverse ++ word)) pos' e cs := by
  induction us generalizing word pos with
  | nil => exact ⟨pos, fun _ => rfl⟩
  | cons c us ih =>
    have hc := hus c List.mem_cons_self
    obtain ⟨hdigit, hblank⟩ := isUnitLetter_plain hc
    obtain ⟨pos', h⟩ :=
      ih (fun x hx => hus x (List.mem_cons_of_mem _ hx)) (c :: word) (pos + c.utf8Size)
    refine ⟨pos', fun e => ?_⟩
    rw [List.reverse_cons, List.append_assoc, List.singleton_append, ← h, List.cons_append]
    simp only [scan_letters_cons, hdigit, hblank, hc, Bool.false_eq_true, if_false, if_true]

/-- At the end of a word the amount is added. -/
theorem scan_letters_cut {f : Option Fraction} (hcut : IsCut cs) (word : List Char) (pos : Nat) :
    ∃ start' pos', ∀ e, scan (.letters n f word) pos e cs =
      e.addAmount n f word.reverse >>= fun e => scan (.gap start') pos' e cs := by
  cases cs with
  | nil =>
    refine ⟨pos, pos, fun e => ?_⟩
    show e.addAmount n f word.reverse = _
    cases e.addAmount n f word.reverse <;> rfl
  | cons c cs =>
    obtain hc | hc := hcut c rfl
    · refine ⟨pos, pos, fun e => ?_⟩
      simp only [scan_letters_cons, scan_gap_cons, hc, if_true]
    · refine ⟨pos + c.utf8Size, pos, fun e => ?_⟩
      simp only [scan_letters_cons, scan_gap_cons, isDigit_of_isBlank hc, hc, Bool.false_eq_true,
        if_false, if_true]

theorem scan_decimals (decimals : Option Decimals) (hne : us ≠ [])
    (hus : ∀ c ∈ us, isUnitLetter c = true) (n pos : Nat) (cs : List Char) :
    ∃ pos', ∀ e, scan (.number n) pos e (Decimals.written decimals ++ (us ++ cs)) =
      scan (.letters n (decimals.map Decimals.fraction) us.reverse) pos' e cs := by
  obtain ⟨u, us, rfl⟩ := List.exists_cons_of_ne_nil hne
  have hu := hus u List.mem_cons_self
  obtain ⟨hdigit, hblank⟩ := isUnitLetter_plain hu
  have hword := fun f (pos : Nat) =>
    scan_letters_append (n := n) (f := f) (fun c hc => hus c (List.mem_cons_of_mem _ hc)) [u] pos cs
  rw [List.reverse_cons]
  cases decimals with
  | none =>
    obtain ⟨pos', h⟩ := hword none (pos + u.utf8Size)
    refine ⟨pos', fun e => ?_⟩
    rw [Option.map_none, ← h, Decimals.written, List.nil_append, List.cons_append]
    simp only [scan_number_cons, hdigit, hblank, hu, Bool.false_eq_true, if_false, if_true]
  | some ds =>
    have hle : 1 * Nat.pow 10 (figures ds.chars).length ≤ word64 := by
      rw [Nat.one_mul]
      exact ds.short
    have hden : Nat.pow 10 (figures ds.chars).length ≠ 1 :=
      Nat.ne_of_gt (Nat.one_lt_pow (mt List.length_eq_zero_iff.1 ds.ne_nil) (by decide))
    obtain ⟨last', pos₁, hfraction⟩ := scan_fraction_append (n := n) (f := ⟨0, 1⟩) ds.mixed
      (by decide) hle pos (pos + Char.utf8Size '.') (u :: us ++ cs)
    obtain ⟨pos', h⟩ := hword (some ds.fraction) (pos₁ + u.utf8Size)
    refine ⟨pos', fun e => ?_⟩
    rw [Option.map_some, ← h, Decimals.written, List.cons_append, scan_number_cons,
      if_neg (by decide), if_neg (by decide), if_neg (by decide), if_pos rfl, hfraction,
      List.cons_append, scan_fraction_cons]
    simp only [hdigit, hblank, hu, Bool.false_eq_true, if_false, if_true, Nat.one_mul, hden]
    rfl

/-- **An amount is read** as a whole, and added. -/
theorem scan_amount (a : Amount) (hcut : IsCut rest) (start pos : Nat) :
    ∃ start' pos', ∀ e, scan (.gap start) pos e (a.text ++ rest) =
      e.addAmount a.number a.fraction? a.word >>= fun e => scan (.gap start') pos' e rest := by
  obtain ⟨pos₁, hgap⟩ := scan_gap_append a.isBlank_gap start pos
    (a.first :: (a.more ++ (Decimals.written a.decimals ++ (a.word ++ rest))))
  have hnumber : Nat.ofDigitChars 10 (figures a.more) (digit a.first) = a.number := by
    rw [Amount.number, value, ofDigitChars_cons, Nat.zero_mul, Nat.zero_add]
  obtain ⟨pos₂, hmore⟩ := scan_number_append a.mixed_more
    (Nat.le_trans (Nat.le_of_eq hnumber) a.number_le) (pos₁ + a.first.utf8Size)
    (Decimals.written a.decimals ++ (a.word ++ rest))
  obtain ⟨pos₃, hword⟩ :=
    scan_decimals a.decimals a.word_ne_nil a.isUnitLetter_word a.number pos₂ rest
  obtain ⟨start', pos', hend⟩ := scan_letters_cut hcut a.word.reverse pos₃
  refine ⟨start', pos', fun e => ?_⟩
  rw [Amount.text, List.append_assoc, List.cons_append, List.append_assoc, List.append_assoc, hgap,
    scan_gap_cons, if_pos a.isDigit_first, hmore, hnumber, hword, ← Amount.fraction?, hend,
    List.reverse_reverse]

theorem isCut_textOf (as : List Amount) (hcut : IsCut rest) : IsCut (textOf as ++ rest) := by
  cases as with
  | nil => exact hcut
  | cons a as =>
    intro c hc
    rw [textOf, List.flatMap_cons, Amount.text] at hc
    cases hgap : a.gap with
    | nil =>
      rw [hgap] at hc
      cases hc
      exact .inl a.isDigit_first
    | cons b gap =>
      rw [hgap] at hc
      cases hc
      exact .inr (a.isBlank_gap _ (hgap ▸ List.mem_cons_self))

/-- **Amounts are read** one by one, and added. -/
theorem scan_amounts (as : List Amount) (hcut : IsCut rest) (start pos : Nat) :
    ∃ start' pos', ∀ t,
      (scan (.gap start) pos (.ofNanos t) (textOf as ++ rest)).silent =
        sumUp t (addendsOf as) >>= fun u => (scan (.gap start') pos' (.ofNanos u) rest).silent := by
  induction as generalizing start pos with
  | nil => exact ⟨start, pos, fun _ => rfl⟩
  | cons a as ih =>
    obtain ⟨start₁, pos₁, ha⟩ := scan_amount a (isCut_textOf as hcut) start pos
    obtain ⟨start', pos', has⟩ := ih start₁ pos₁
    refine ⟨start', pos', fun t => ?_⟩
    rw [textOf, List.flatMap_cons, List.append_assoc, ← textOf, ha, Outcome.silent_bind,
      silent_addAmount, addendsOf, List.flatMap_cons, sumUp_append]
    cases sumUp t a.addends with
    | value u => exact has u
    | fault e => rfl
    | breakdown => rfl

/-! ### What has been read -/

/-- The kinds of characters that the reader tells apart. -/
inductive Kind (c : Char) : Prop where
  | digit (hdigit : c.isDigit = true)
  | blank (hdigit : c.isDigit = false) (hblank : isBlank c = true)
  | letter (hdigit : c.isDigit = false) (hblank : isBlank c = false) (hletter : isUnitLetter c = true)
  | other (hdigit : c.isDigit = false) (hblank : isBlank c = false)
    (hletter : isUnitLetter c = false)

theorem kind (c : Char) : Kind c := by
  cases hdigit : c.isDigit with
  | true => exact .digit hdigit
  | false =>
    cases hblank : isBlank c with
    | true => exact .blank hdigit hblank
    | false =>
      cases hletter : isUnitLetter c with
      | true => exact .letter hdigit hblank hletter
      | false => exact .other hdigit hblank hletter

theorem IsMixed.nil : IsMixed [] := fun _ hc => (List.not_mem_nil hc).elim

theorem IsMixed.cons {c : Char} (hc : c.isDigit = true ∨ isBlank c = true) (hds : IsMixed ds) :
    IsMixed (c :: ds) := List.forall_mem_cons.2 ⟨hc, hds⟩

/-- Letters of a unit, up to where the amount ends. -/
def IsWord (us rest : List Char) : Prop := (∀ c ∈ us, isUnitLetter c = true) ∧ IsCut rest

theorem word_of_scan {f : Option Fraction} {word : List Char}
    (h : ∀ g, scan (.letters n f word) pos e cs ≠ .fault g) :
    ∃ us rest, cs = us ++ rest ∧ IsWord us rest := by
  have hcut (hcs : IsCut cs) : ∃ us rest, cs = us ++ rest ∧ IsWord us rest :=
    ⟨[], cs, rfl, fun _ hc => (List.not_mem_nil hc).elim, hcs⟩
  induction cs generalizing word pos with
  | nil => exact hcut fun _ hc => nomatch hc
  | cons c cs ih =>
    rw [scan_letters_cons] at h
    cases kind c with
    | digit hdigit => exact hcut fun x hx => by cases hx; exact .inl hdigit
    | blank hdigit hblank => exact hcut fun x hx => by cases hx; exact .inr hblank
    | letter hdigit hblank hletter =>
      simp only [hdigit, hblank, hletter, Bool.false_eq_true, if_false, if_true] at h
      obtain ⟨us, rest, rfl, hus, hrest⟩ :=
        ih h fun hcs => ⟨[], cs, rfl, fun _ hc => (List.not_mem_nil hc).elim, hcs⟩
      exact ⟨c :: us, rest, rfl, List.forall_mem_cons.2 ⟨hletter, hus⟩, hrest⟩
    | other hdigit hblank hletter =>
      simp only [hdigit, hblank, hletter, Bool.false_eq_true, if_false] at h
      exact (h _ rfl).elim

theorem decimals_of_scan (hden : f.denominator ≤ word64)
    (h : ∀ g, scan (.fraction n f last) pos e cs ≠ .fault g) :
    ∃ ds us rest, cs = ds ++ (us ++ rest) ∧ IsMixed ds ∧
      f.denominator * Nat.pow 10 (figures ds).length ≤ word64 ∧
      (f.denominator = 1 → figures ds ≠ []) ∧ us ≠ [] ∧ IsWord us rest := by
  induction cs generalizing f last pos with
  | nil =>
    by_cases hone : f.denominator = 1
    · exact (h (.invalidCharacter last) (if_pos hone)).elim
    · exact (h _ (if_neg hone)).elim
  | cons c cs ih =>
    simp only [scan_fraction_cons] at h
    cases kind c with
    | digit hdigit =>
      simp only [hdigit, if_true, Fraction.extend?] at h
      by_cases hle : f.denominator * 10 ≤ word64 ∧ f.numerator * 10 + digit c ≤ word64
      · simp only [if_pos hle] at h
        obtain ⟨ds, us, rest, rfl, hds, hshort, -, hrest⟩ := ih hle.1 h
        have hpow : f.denominator * Nat.pow 10 ((figures ds).length + 1) =
            f.denominator * 10 * Nat.pow 10 (figures ds).length := by
          rw [Nat.mul_assoc]
          exact congrArg _ (Nat.mul_comm _ 10)
        refine ⟨c :: ds, us, rest, rfl, hds.cons (.inl hdigit), ?_, fun _ => ?_, hrest⟩
        · rw [figures_cons_of_isDigit hdigit, List.length_cons, hpow]
          exact hshort
        · rw [figures_cons_of_isDigit hdigit]
          exact List.cons_ne_nil _ _
      · simp only [if_neg hle] at h
        exact (h _ rfl).elim
    | blank hdigit hblank =>
      simp only [hdigit, hblank, Bool.false_eq_true, if_false, if_true] at h
      obtain ⟨ds, us, rest, rfl, hds, hrest⟩ := ih hden h
      refine ⟨c :: ds, us, rest, rfl, hds.cons (.inr hblank), ?_⟩
      rw [figures_cons_of_isBlank hblank]
      exact hrest
    | letter hdigit hblank hletter =>
      simp only [hdigit, hblank, hletter, Bool.false_eq_true, if_false, if_true] at h
      by_cases hone : f.denominator = 1
      · simp only [if_pos hone] at h
        exact (h _ rfl).elim
      · simp only [if_neg hone] at h
        obtain ⟨us, rest, rfl, hus, hrest⟩ := word_of_scan h
        exact ⟨[], c :: us, rest, rfl, .nil, (Nat.mul_one _).symm ▸ hden, fun h => (hone h).elim,
          List.cons_ne_nil _ _, List.forall_mem_cons.2 ⟨hletter, hus⟩, hrest⟩
    | other hdigit hblank hletter =>
      simp only [hdigit, hblank, hletter, Bool.false_eq_true, if_false] at h
      exact (h _ rfl).elim

theorem number_of_scan (hn : n ≤ word64) (h : ∀ g, scan (.number n) pos e cs ≠ .fault g) :
    ∃ ds decimals us rest, cs = ds ++ (Decimals.written decimals ++ (us ++ rest)) ∧ IsMixed ds ∧
      Nat.ofDigitChars 10 (figures ds) n ≤ word64 ∧ us ≠ [] ∧ IsWord us rest := by
  induction cs generalizing n pos with
  | nil => exact (h _ rfl).elim
  | cons c cs ih =>
    simp only [scan_number_cons] at h
    cases kind c with
    | digit hdigit =>
      simp only [hdigit, if_true, extend?] at h
      by_cases hle : n * 10 + digit c ≤ word64
      · simp only [if_pos hle] at h
        obtain ⟨ds, decimals, us, rest, rfl, hds, hrest⟩ := ih hle h
        refine ⟨c :: ds, decimals, us, rest, rfl, hds.cons (.inl hdigit), ?_⟩
        rw [figures_cons_of_isDigit hdigit, ofDigitChars_cons]
        exact hrest
      · simp only [if_neg hle] at h
        exact (h _ rfl).elim
    | blank hdigit hblank =>
      simp only [hdigit, hblank, Bool.false_eq_true, if_false, if_true] at h
      obtain ⟨ds, decimals, us, rest, rfl, hds, hrest⟩ := ih hn h
      refine ⟨c :: ds, decimals, us, rest, rfl, hds.cons (.inr hblank), ?_⟩
      rw [figures_cons_of_isBlank hblank]
      exact hrest
    | letter hdigit hblank hletter =>
      simp only [hdigit, hblank, hletter, Bool.false_eq_true, if_false, if_true] at h
      obtain ⟨us, rest, rfl, hus, hrest⟩ := word_of_scan h
      exact ⟨[], none, c :: us, rest, rfl, .nil, hn, List.cons_ne_nil _ _,
        List.forall_mem_cons.2 ⟨hletter, hus⟩, hrest⟩
    | other hdigit hblank hletter =>
      simp only [hdigit, hblank, hletter, Bool.false_eq_true, if_false] at h
      by_cases hpoint : c = '.'
      · simp only [if_pos hpoint] at h
        have hone : (Fraction.mk 0 1).denominator ≤ word64 := by decide
        obtain ⟨ds, us, rest, rfl, hds, hshort, hfigures, hrest⟩ := decimals_of_scan hone h
        rw [Nat.one_mul] at hshort
        exact ⟨[], some ⟨ds, hds, hfigures rfl, hshort⟩, us, rest, by rw [hpoint]; rfl, .nil, hn,
          hrest⟩
      · simp only [if_neg hpoint] at h
        exact (h _ rfl).elim

theorem amount_of_scan (h : ∀ g, scan (.gap start) pos e cs ≠ .fault g) :
    (∀ c ∈ cs, isBlank c = true) ∨
      ∃ (a : Amount) (rest : List Char), cs = a.text ++ rest ∧ IsCut rest := by
  induction cs generalizing pos with
  | nil => exact .inl fun _ hc => (List.not_mem_nil hc).elim
  | cons c cs ih =>
    rw [scan_gap_cons] at h
    cases kind c with
    | digit hdigit =>
      rw [if_pos hdigit] at h
      have hle : digit c ≤ word64 := Nat.le_of_lt (Nat.lt_trans (digitValue_lt hdigit) (by decide))
      obtain ⟨ds, decimals, us, rest, rfl, hds, hnumber, hne, hus, hrest⟩ := number_of_scan hle h
      have hvalue : value (c :: figures ds) ≤ word64 := by
        rw [value, ofDigitChars_cons, Nat.zero_mul, Nat.zero_add]
        exact hnumber
      refine .inr ⟨⟨[], c, ds, decimals, us, fun _ hc => (List.not_mem_nil hc).elim, hdigit, hds,
        hvalue, hne, hus⟩, rest, ?_, hrest⟩
      simp only [Amount.text, List.nil_append, List.cons_append, List.append_assoc]
    | blank hdigit hblank =>
      simp only [hdigit, hblank, Bool.false_eq_true, if_false, if_true] at h
      obtain hall | ⟨a, rest, rfl, hrest⟩ := ih h
      · exact .inl (List.forall_mem_cons.2 ⟨hblank, hall⟩)
      · exact .inr ⟨{ a with
          gap := c :: a.gap
          isBlank_gap := List.forall_mem_cons.2 ⟨hblank, a.isBlank_gap⟩ }, rest, rfl, hrest⟩
    | letter hdigit hblank hletter | other hdigit hblank hletter =>
      simp only [hdigit, hblank, Bool.false_eq_true, if_false] at h
      exact (h _ rfl).elim

theorem isCut_of_isBlank (h : ∀ c ∈ cs, isBlank c = true) : IsCut cs := fun c hc =>
  .inr (h c (List.mem_of_head? hc))

theorem length_lt_of_text (a : Amount) (rest : List Char) :
    rest.length < (a.text ++ rest).length := by
  simp only [Amount.text, List.length_append, List.length_cons]
  omega

/-- What has been read without a fault are amounts: all but the last blanks, or those up to where the
sum breaks off. -/
theorem amounts_of_scan {t start pos : Nat} {cs : List Char}
    (h : ∀ g, scan (.gap start) pos (.ofNanos t) cs ≠ .fault g) :
    ∃ as rest, cs = textOf as ++ rest ∧ IsCut rest ∧
      ((∀ c ∈ rest, isBlank c = true) ∨ sumUp t (addendsOf as) = .breakdown) := by
  obtain hblank | ⟨a, rest, hcs, hcut⟩ := amount_of_scan h
  · exact ⟨[], cs, rfl, isCut_of_isBlank hblank, .inl hblank⟩
  · obtain ⟨start', pos', ha⟩ := scan_amount a hcut start pos
    have hsum := silent_addAmount t a
    have hlength : rest.length < cs.length := hcs ▸ length_lt_of_text a rest
    simp only [hcs, ha] at h
    cases hadd : sumUp t a.addends with
    | fault g =>
      rw [hadd] at hsum
      obtain ⟨g, hg⟩ := Outcome.silent_eq_fault_iff.1 hsum
      exact (h g (by rw [hg]; rfl)).elim
    | breakdown =>
      refine ⟨[a], rest, ?_, hcut, .inr ?_⟩
      · rw [hcs, textOf, List.flatMap_singleton]
      · rw [addendsOf, List.flatMap_singleton, hadd]
    | value u =>
      rw [hadd] at hsum
      simp only [Outcome.silent_eq_value_iff.1 hsum, Outcome.value_bind] at h
      obtain ⟨as, last, hrest, hlast, hend⟩ := amounts_of_scan h
      refine ⟨a :: as, last, ?_, hlast, hend.imp_right fun hb => ?_⟩
      · rw [hcs, hrest, textOf, textOf, List.flatMap_cons, List.append_assoc]
      · rw [addendsOf, List.flatMap_cons, sumUp_append, hadd, Outcome.value_bind]
        exact hb
termination_by cs.length

theorem scan_blank (h : ∀ c ∈ cs, isBlank c = true) (start pos : Nat) :
    scan (.gap start) pos e cs = .value e := by
  obtain ⟨pos', h⟩ := scan_gap_append h start pos []
  rw [List.append_nil] at h
  exact h e

/-- **Sums are read** exactly from texts of amounts that come to them, with blanks at the end. -/
theorem scan_eq_value_iff :
    scan (.gap start) pos (.ofNanos t) cs = .value e ↔
      ∃ as rest u, cs = textOf as ++ rest ∧ (∀ c ∈ rest, isBlank c = true) ∧
        sumUp t (addendsOf as) = .value u ∧ e = .ofNanos u := by
  constructor
  · intro h
    obtain ⟨as, rest, rfl, hcut, hend⟩ := amounts_of_scan fun g hg => nomatch h.symm.trans hg
    obtain ⟨start', pos', has⟩ := scan_amounts as hcut start pos
    have has := has t
    rw [h] at has
    obtain ⟨u, hu, hrest⟩ := Outcome.bind_eq_value_iff.1 has.symm
    obtain hblank | hbreak := hend
    · rw [scan_blank hblank] at hrest
      cases hrest
      exact ⟨as, rest, u, rfl, hblank, hu, rfl⟩
    · exact nomatch hu.symm.trans hbreak
  · rintro ⟨as, rest, u, rfl, hblank, hu, rfl⟩
    obtain ⟨start', pos', has⟩ := scan_amounts as (isCut_of_isBlank hblank) start pos
    refine Outcome.silent_eq_value_iff.1 ?_
    rw [has, hu, Outcome.value_bind, scan_blank hblank, Outcome.silent_value]

/-- **The reader breaks off** exactly after amounts of which the sum does. -/
theorem scan_eq_breakdown_iff :
    scan (.gap start) pos (.ofNanos t) cs = .breakdown ↔
      ∃ as rest, cs = textOf as ++ rest ∧ IsCut rest ∧ sumUp t (addendsOf as) = .breakdown := by
  constructor
  · intro h
    obtain ⟨as, rest, rfl, hcut, hend⟩ := amounts_of_scan fun g hg => nomatch h.symm.trans hg
    refine ⟨as, rest, rfl, hcut, hend.elim (fun hblank => ?_) id⟩
    obtain ⟨start', pos', has⟩ := scan_amounts as hcut start pos
    have has := has t
    rw [h] at has
    cases hsum : sumUp t (addendsOf as) with
    | value u =>
      rw [hsum, Outcome.value_bind, scan_blank hblank] at has
      cases has
    | fault g =>
      rw [hsum] at has
      cases has
    | breakdown => rfl
  · rintro ⟨as, rest, rfl, hcut, hsum⟩
    obtain ⟨start', pos', has⟩ := scan_amounts as hcut start pos
    refine Outcome.silent_eq_breakdown_iff.1 ?_
    rw [has, hsum, Outcome.breakdown_bind]

/-- The text begins with amounts of which the sum breaks off. -/
def Overruns (cs : List Char) : Prop :=
  ∃ as rest, cs = textOf as ++ rest ∧ IsCut rest ∧ sumUp 0 (addendsOf as) = .breakdown

theorem read_eq_value_iff (h : ∃ c ∈ cs, isBlank c = false) :
    read cs = .value e ↔
      ∃ as rest u, cs = textOf as ++ rest ∧ (∀ c ∈ rest, isBlank c = true) ∧
        sumUp 0 (addendsOf as) = .value u ∧ e = .ofNanos u := by
  rw [read, if_neg (by simpa using h)]
  exact scan_eq_value_iff (t := 0)

theorem read_eq_breakdown_iff (h : ∃ c ∈ cs, isBlank c = false) :
    read cs = .breakdown ↔ Overruns cs := by
  rw [read, if_neg (by simpa using h)]
  exact scan_eq_breakdown_iff (t := 0)

end Duration.Human
end LeaseLock
