import LeaseLock.Text.Numeral

/-!
# Holders

The name under which a process takes locks if it is given none.

## The model

A process is told apart from others by the host that it runs on and by its number there. A host
that does not tell its name is called unknown.
-/

namespace LeaseLock

/-- A process that takes locks. -/
structure Holder where
  /-- The name of the host, if it tells it. -/
  host : Option String
  /-- The number of the process. -/
  number : Nat

namespace Holder

/-- The number of the process as text. -/
def numberText (h : Holder) : String := String.ofList (Text.Numeral.digits h.number)

/-- The name that is written into lock records. -/
def identity (h : Holder) : String := h.host.getD "unknown" ++ ":" ++ h.numberText

end Holder
end LeaseLock
