import LeaseLock.Text.Visible

/-!
# Quoted text

Text between double quotes, with escapes for the characters that would not show.

## The model

A quote and a backslash are escaped by a backslash, and so are the tabulator, the ends of lines and
the null character, each with a letter of its own. Other characters that cannot be seen stand as
their hexadecimal code points.
-/

namespace LeaseLock.Text.Quoted

/-- A character between quotes. -/
def escape (c : Char) : List Char :=
  match c with
  | '"' => ['\\', '"']
  | '\\' => ['\\', '\\']
  | '\t' => ['\\', 't']
  | '\n' => ['\\', 'n']
  | '\r' => ['\\', 'r']
  | '\x00' => ['\\', '0']
  | _ =>
    if isVisible c then [c]
    else ['\\', 'u', '\x7b'] ++ Nat.toDigits 16 c.toNat ++ ['\x7d']

/-- The text between quotes. -/
def quote (s : String) : String :=
  String.ofList ('"' :: s.toList.flatMap escape ++ ['"'])

end LeaseLock.Text.Quoted
