import LeaseLock.Lock.Context
import LeaseLock.Text.Quoted

/-!
# Handles and contexts as text

What handles and contexts look like where they are printed.

## The model

A value is shown by the name of its type and, between braces, its fields by their names. Names are
quoted, instants are stamps as exact as need be, and spans are whole seconds with the nanoseconds
that are left over.
-/

namespace LeaseLock

/-- A record of fields by their names. -/
def showFields (type : String) (fields : List (String × String)) : String :=
  type ++ " \x7b " ++ ", ".intercalate (fields.map fun f => f.1 ++ ": " ++ f.2) ++ " \x7d"

/-- An integer in decimal. -/
def showInt (n : Int) : String := String.ofList (Text.Numeral.signed n)

/-- A truth value as a word. -/
def showBool (b : Bool) : String := if b then "true" else "false"

/-- The span as text. -/
def Span.shown (d : Span) : String :=
  showFields "TimeDelta" [("secs", showInt d.seconds), ("nanos", showInt d.subsecond)]

/-- The terms as text. -/
def Terms.shown (t : Terms) : String :=
  showFields "LockConfiguration"
    [("name", Text.Quoted.quote t.name), ("created_at", Stamp.exact t.createdAt),
      ("lock_at_most_for", t.atMostFor.shown), ("lock_at_least_for", t.atLeastFor.shown),
      ("lock_at_most_until", Stamp.exact t.atMostUntil),
      ("lock_at_least_until", Stamp.exact t.atLeastUntil)]

/-- The handle as text. -/
def Handle.shown : Handle → String
  | .stored l => showFields "StorageBasedLock"
    [("config", l.terms.shown), ("valid", showBool l.valid)]
  | .keyed l => showFields "RedisLock"
    [("config", l.terms.shown), ("key", Text.Quoted.quote l.key), ("valid", showBool l.valid)]

/-- What any chain is called in print, where chains are not told apart. -/
def chainLabel : String := "<chain>"

/-- The context as text. -/
def Context.shown (x : Context) : String :=
  showFields "LockContext" [("chain_id", Text.Quoted.quote chainLabel), ("depth", showInt x.depth)]

end LeaseLock
