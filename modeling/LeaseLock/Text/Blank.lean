/-!
# Blank characters

The characters that count as white space around and between words, and the removal of them from
both ends of a text.

## The model

A text is a list of characters. `isBlank` holds of exactly the code points with the Unicode
property `White_Space`; the zero-width space, for instance, is not one of them. `trim` drops the
blanks before the first and after the last other character and keeps those in between.
-/

namespace LeaseLock.Text

/-- The code points with the Unicode property `White_Space`. -/
def isBlank (c : Char) : Bool :=
  let n := c.toNat
  (9 ≤ n && n ≤ 13) || n == 0x20 || n == 0x85 || n == 0xA0 || n == 0x1680 ||
    (0x2000 ≤ n && n ≤ 0x200A) || n == 0x2028 || n == 0x2029 || n == 0x202F || n == 0x205F ||
    n == 0x3000

/-- The white space of the ASCII range that core knows is blank. -/
theorem isBlank_of_isWhitespace {c : Char} (h : c.isWhitespace = true) : isBlank c = true := by
  simp only [Char.isWhitespace, Bool.or_eq_true, decide_eq_true_eq] at h
  rcases h with ((rfl | rfl) | rfl) | rfl <;> decide

/-- No decimal digit is blank. -/
theorem isBlank_eq_false_of_isDigit {c : Char} (h : c.isDigit = true) : isBlank c = false := by
  have hc : 48 ≤ c.toNat ∧ c.toNat ≤ 57 := by
    simp only [Char.isDigit, Bool.and_eq_true, decide_eq_true_eq] at h
    exact ⟨h.1, h.2⟩
  simp only [isBlank, Bool.or_eq_false_iff, Bool.and_eq_false_iff, decide_eq_false_iff_not,
    beq_eq_false_iff_ne, ne_eq]
  omega

/-- The characters of `cs` without the blanks at either end. -/
def trimChars (cs : List Char) : List Char :=
  ((cs.dropWhile isBlank).reverse.dropWhile isBlank).reverse

/-- The text without the blanks at either end. -/
def trim (s : String) : String := String.ofList (trimChars s.toList)

/-- The text is empty or all blank. -/
def isAllBlank (s : String) : Bool := s.toList.all isBlank

/-- The characters up to the first blank, leading blanks skipped. -/
def firstWord (cs : List Char) : List Char := (cs.dropWhile isBlank).takeWhile fun c => !isBlank c

/-- The text with the letters `A` to `Z` made small. -/
def lower (s : String) : String := s.map Char.toLower

theorem lower_ofList (cs : List Char) :
    lower (String.ofList cs) = String.ofList (cs.map Char.toLower) :=
  String.toList_injective (by simp [lower])

/-- The two texts are equal but for the case of the letters `A` to `Z`. -/
def sameLetters (s t : String) : Bool := lower s == lower t

end LeaseLock.Text
