/-!
# Percent-encoded text

Text in which a percent sign and two hexadecimal digits stand for a byte.

## The model

The bytes of the decoded text are those of the characters, in UTF-8, and those that are encoded. A
percent sign without two digits after it stands for itself. The bytes need not be text again.
-/

namespace LeaseLock.Text.Percent

/-- The value of a hexadecimal digit. -/
def digit? (c : Char) : Option Nat :=
  if '0' ≤ c ∧ c ≤ '9' then some (c.toNat - 48)
  else if 'a' ≤ c ∧ c ≤ 'f' then some (c.toNat - 87)
  else if 'A' ≤ c ∧ c ≤ 'F' then some (c.toNat - 55)
  else none

/-- The byte that two hexadecimal digits stand for. -/
def byte? (c d : Char) : Option UInt8 := do
  return UInt8.ofNat (16 * (← digit? c) + (← digit? d))

/-- The bytes of a character. -/
def encoding (c : Char) : List UInt8 := (String.singleton c).toUTF8.toList

/-- The bytes that a percent-encoded text stands for, after its first `skip` characters. -/
def bytesFrom (skip : Nat) : List Char → List UInt8
  | [] => []
  | c :: rest =>
    match skip with
    | n + 1 => bytesFrom n rest
    | 0 =>
      match c, rest with
      | '%', d :: e :: _ => match byte? d e with
        | some b => b :: bytesFrom 2 rest
        | none => encoding c ++ bytesFrom 0 rest
      | _, _ => encoding c ++ bytesFrom 0 rest

/-- The text that a percent-encoded one stands for, if it is text. -/
def decode? (cs : List Char) : Option String :=
  String.fromUTF8? ⟨(bytesFrom 0 cs).toArray⟩

end LeaseLock.Text.Percent
