import LeaseLock.Proofs.InternationalNotation
import LeaseLock.Proofs.WordedAmounts

/-!
# Where the reader of durations breaks off

A text is a duration, or it is reported as invalid. Only a sum that runs over the end of its numbers
breaks the reader off.

## The model

`BreaksOff` tells of any text whether it begins with such a sum, in terms of what is written. In the
international notation these are components that come to more than the longest span, although each
of them is a span (`Iso.Overruns`). In words they are amounts that come to precisely `2 ^ 64` seconds,
the last of them by nanoseconds (`Human.Overruns`).

## What is proved

`reads_unless_overrun`: the reader breaks off on exactly these texts, and of any other it says what it
is, or that it is invalid. `overruns_at_the_ends` has a text of each notation.

## Honest scope

Nothing is said of how a text that breaks off continues: it may be well formed or not. Numbers of
digits alone, and texts that are blank, never break off, which is part of the theorem.
-/

namespace LeaseLock.Duration

open Text Text.Numeral

/-- The text begins with a sum that the reader breaks off on. -/
def BreaksOff (s : String) : Prop :=
  if IsInternational s then Iso.Overruns (capitals s) else Human.Overruns (trimChars s.toList)

/-- What is left of a text without the blanks at its ends has blanks only in between. -/
theorem exists_visible {cs : List Char} (h : trimChars cs ≠ []) :
    ∃ c ∈ trimChars cs, isBlank c = false := by
  have hne : (cs.dropWhile isBlank).reverse.dropWhile isBlank ≠ [] := mt List.reverse_eq_nil_iff.2 h
  exact ⟨_, List.mem_reverse.2 (List.head_mem hne), List.head_dropWhile_not (p := isBlank) hne⟩

/-- There is a letter in whatever runs over. -/
theorem Human.Overruns.exists_letter {cs : List Char} (h : Human.Overruns cs) :
    ∃ c ∈ cs, Human.isUnitLetter c = true := by
  obtain ⟨as, rest, rfl, -, hsum⟩ := h
  cases as with
  | nil => cases hsum
  | cons a as =>
    obtain ⟨u, us, hword⟩ := List.exists_cons_of_ne_nil a.word_ne_nil
    have hu : u ∈ a.word := hword ▸ List.mem_cons_self
    refine ⟨u, ?_, a.isUnitLetter_word u hu⟩
    simp only [Human.textOf, List.flatMap_cons, Human.Amount.text, List.mem_append, List.mem_cons]
    exact .inl (.inl (.inr (.inr (.inr (.inr hu)))))

/-- An option at the end does not break off. -/
theorem bind_ofOption_eq_breakdown_iff {ε α β : Type} {x : Outcome ε α} {e : ε} {f : α → Option β} :
    (x >>= fun a => .ofOption e (f a)) = .breakdown ↔ x = .breakdown := by
  rw [Outcome.bind_eq_breakdown_iff]
  exact or_iff_left fun ⟨_, _, h⟩ => Outcome.ofOption_ne_breakdown h

/-- A text in words is read by the reader of words. -/
theorem read_of_words {s : String} (hne : trimChars s.toList ≠ [])
    (hrun : ¬isRun (trimChars s.toList) = true) (h : ¬IsInternational s) :
    read s = (do
      let e ← (Human.read (trimChars s.toList)).mapFault (.notHuman (trim s))
      .ofOption (.outOfRange (trim s)) (Span.ofNanos? (e.seconds * nanosPerSecond + e.nanos))) := by
  rw [read, readTrimmed, if_neg hne, if_neg hrun]
  exact if_neg h

theorem read_words_eq_breakdown_iff {s : String} (hne : trimChars s.toList ≠ [])
    (hrun : ¬isRun (trimChars s.toList) = true) (h : ¬IsInternational s) :
    read s = .breakdown ↔ Human.Overruns (trimChars s.toList) := by
  rw [read_of_words hne hrun h, bind_ofOption_eq_breakdown_iff, Outcome.mapFault_eq_breakdown_iff,
    Human.read_eq_breakdown_iff (exists_visible hne)]

theorem read_eq_breakdown_iff (s : String) : read s = .breakdown ↔ BreaksOff s := by
  by_cases h : IsInternational s
  · rw [BreaksOff, if_pos h, read_of_isInternational h, Outcome.mapFault_eq_breakdown_iff,
      Iso.read_eq_breakdown_iff h, capitals]
  · rw [BreaksOff, if_neg h]
    by_cases hne : trimChars s.toList = []
    · rw [read, readTrimmed, if_pos hne, hne]
      refine ⟨fun hread => (by cases hread), fun hover => ?_⟩
      obtain ⟨c, hc, -⟩ := hover.exists_letter
      exact (List.not_mem_nil hc).elim
    · by_cases hrun : isRun (trimChars s.toList) = true
      · constructor
        · intro hread
          rw [read, readTrimmed, if_neg hne, if_pos hrun] at hread
          cases hmillis : ofMillis? (trimChars s.toList) <;>
          · rw [hmillis] at hread
            cases hread
        · intro hover
          obtain ⟨c, hc, hletter⟩ := hover.exists_letter
          have hdigit := List.all_eq_true.1 hrun c hc
          rw [(Human.isUnitLetter_plain hletter).1] at hdigit
          cases hdigit
      · exact read_words_eq_breakdown_iff hne hrun h

/-- **The reader breaks off on exactly the sums that run over.** Any other text is read as a duration,
or reported as an invalid configuration. -/
theorem reads_unless_overrun (s : String) :
    (read s = .breakdown ↔ BreaksOff s) ∧
      (((∃ d, read s = .value d) ∨
          ∃ f, read s = .fault f ∧ (LockError.duration f).kind = .invalidConfiguration) ↔
        ¬BreaksOff s) := by
  refine ⟨read_eq_breakdown_iff s, ?_⟩
  rw [← read_eq_breakdown_iff]
  cases read s with
  | value d => exact ⟨fun _ => (nomatch ·), fun _ => .inl ⟨d, rfl⟩⟩
  | fault f => exact ⟨fun _ => (nomatch ·), fun _ => .inr ⟨f, rfl, rfl⟩⟩
  | breakdown =>
    refine ⟨?_, fun h => (h rfl).elim⟩
    rintro (⟨d, hd⟩ | ⟨f, hf, -⟩)
    · cases hd
    · cases hf

/-- The longest span in whole seconds, twice; and the greatest 64-bit number of seconds, with a second
of nanoseconds. -/
theorem overruns_at_the_ends :
    (read "PT9223372036854775S9223372036854775S" = .breakdown ∧
        BreaksOff "PT9223372036854775S9223372036854775S") ∧
      read "18446744073709551615s 1000000000ns" = .breakdown ∧
        BreaksOff "18446744073709551615s 1000000000ns" := by
  have hiso : read "PT9223372036854775S9223372036854775S" = .breakdown := by decide +kernel
  have hwords : read "18446744073709551615s 1000000000ns" = .breakdown := by decide +kernel
  have hsums := (reads_unless_overrun "PT9223372036854775S9223372036854775S").1
  have hsums' := (reads_unless_overrun "18446744073709551615s 1000000000ns").1
  exact ⟨⟨hiso, hsums.1 hiso⟩, hwords, hsums'.1 hwords⟩

end LeaseLock.Duration
