/-!
# Decimal numerals

Natural numbers as runs of the digits `0` to `9`, read and written.

## The model

`value` reads a run of digits of any length, leading zeros allowed; `padded` writes a number with
at least a given number of digits. `word63` and `word64` are the bounds that a numeral has to meet
where a signed or an unsigned 64-bit quantity is asked for.
-/

namespace LeaseLock.Text.Numeral

/-- Every character is a digit `0` to `9`; so is the empty run. -/
def isRun (cs : List Char) : Bool := cs.all Char.isDigit

/-- The number that a run of digits denotes. -/
def value (cs : List Char) : Nat := Nat.ofDigitChars 10 cs 0

/-- The shortest run of digits that denotes `n`. -/
def digits (n : Nat) : List Char := Nat.toDigits 10 n

/-- `digits n`, filled up with zeros on the left to `width` digits. -/
def padded (width n : Nat) : List Char :=
  List.replicate (width - (digits n).length) '0' ++ digits n

/-- The largest signed 64-bit number. -/
def word63 : Nat := 9223372036854775807

/-- The largest unsigned 64-bit number. -/
def word64 : Nat := 18446744073709551615

/-- The number a run of digits denotes, if it is a signed 64-bit number. -/
def signedWord? (cs : List Char) : Option Nat :=
  if value cs ≤ word63 then some (value cs) else none

/-- The signed 64-bit number that digits after an optional sign denote. -/
def signed? (cs : List Char) : Option Int :=
  let (negative, ds) := match cs with
    | '-' :: r => (true, r)
    | '+' :: r => (false, r)
    | r => (false, r)
  if ds ≠ [] ∧ isRun ds then
    if negative then if value ds ≤ word63 + 1 then some (-value ds) else none
    else if value ds ≤ word63 then some (value ds) else none
  else none

/-- An integer in decimal, negative ones with a leading minus. -/
def signed (n : Int) : List Char :=
  if n < 0 then '-' :: digits n.natAbs else digits n.natAbs

@[simp] theorem value_nil : value [] = 0 := rfl

@[simp] theorem value_digits (n : Nat) : value (digits n) = n := Nat.ofDigitChars_ten_toDigits

theorem isRun_digits (n : Nat) : isRun (digits n) = true :=
  List.all_eq_true.2 fun _ h => Nat.isDigit_of_mem_toDigits (by decide) (by decide) h

theorem value_append (cs ds : List Char) :
    value (cs ++ ds) = Nat.ofDigitChars 10 ds (value cs) := Nat.ofDigitChars_append 0

/-- Leading zeros do not change the number. -/
theorem value_replicate_zero_append (k : Nat) (cs : List Char) :
    value (List.replicate k '0' ++ cs) = value cs := by
  induction k with
  | zero => rfl
  | succ k ih =>
    rw [List.replicate_succ, List.cons_append, value, Nat.ofDigitChars_cons]
    exact ih

@[simp] theorem value_padded (width n : Nat) : value (padded width n) = n := by
  rw [padded, value_replicate_zero_append, value_digits]

theorem isRun_padded (width n : Nat) : isRun (padded width n) = true := by
  rw [padded, isRun, List.all_append, Bool.and_eq_true]
  exact ⟨List.all_eq_true.2 fun c h => by rw [(List.mem_replicate.1 h).2]; decide, isRun_digits n⟩

end LeaseLock.Text.Numeral
