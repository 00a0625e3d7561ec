import LeaseLock.Clock
import LeaseLock.Outcome

/-!
# Guarded clocks

A clock that several callers read and move.

## The model

What callers share is behind a guard, which one of them has at a time. A call that breaks off while it
has the guard spoils it for good: whoever takes it from then on is told so, and is given what was left.
The calls on a clock go on with that all the same. An advance finds out where it leads before it writes
anything down, so if it breaks off, what it leaves is the clock as it was.
-/

namespace LeaseLock

/-- What callers share behind a guard. -/
structure Guarded (α : Type) where
  value : α
  /-- A call broke off while it had the guard. -/
  spoiled : Bool
  deriving DecidableEq

namespace Guarded

variable {α β ε : Type}

/-- A value whose guard nobody has had yet. -/
def fresh (a : α) : Guarded α := ⟨a, false⟩

/-- Takes the guard. If it is spoiled, what was left comes as a fault. -/
def take (g : Guarded α) : Except α α := if g.spoiled then .error g.value else .ok g.value

/-- What there is behind a guard that was taken, spoiled or not. -/
def salvage : Except α α → α
  | .ok a => a
  | .error left => left

/-- Has the guard during a call, which answers how it ends and what it leaves. -/
def during (g : Guarded α) (call : α → Outcome ε β × α) : Outcome ε β × Guarded α :=
  let (ending, left) := call (salvage g.take)
  (ending, ⟨left, g.spoiled || ending matches .breakdown⟩)

@[simp] theorem salvage_take (g : Guarded α) : salvage g.take = g.value := by
  unfold take
  split <;> rfl

theorem during_fst (g : Guarded α) (call : α → Outcome ε β × α) :
    (g.during call).1 = (call g.value).1 := by rw [during, salvage_take]

theorem value_during (g : Guarded α) (call : α → Outcome ε β × α) :
    (g.during call).2.value = (call g.value).2 := by rw [during, salvage_take]

end Guarded

/-- A call that moves a clock. -/
inductive Clock.Move where
  /-- To an instant. -/
  | set (t : Instant)
  /-- On by a span, or back by a negative one. -/
  | advance (d : Span)
  deriving DecidableEq

namespace Clock.Move

/-- The clock after the move, if there is an instant for it to show. -/
def moved? : Move → Clock → Option Clock
  | set t, c => some (c.set t)
  | advance d, c => c.advance? d

/-- How the move ends, and the clock that it leaves. -/
def perform (m : Move) (c : Clock) : Outcome Empty Unit × Clock :=
  match m.moved? c with
  | some moved => (.value (), moved)
  | none => (.breakdown, c)

end Clock.Move

/-- A clock behind a guard. -/
abbrev GuardedClock : Type := Guarded Clock

namespace GuardedClock

/-- What was seen of a move. -/
structure Entry where
  move : Clock.Move
  ending : Outcome Empty Unit
  /-- What the clock showed after it. -/
  shown : Instant
  deriving DecidableEq

/-- A clock showing an instant. -/
def showing (t : Instant) : GuardedClock := .fresh (.showing t)

/-- What the clock shows. -/
def now (g : GuardedClock) : Instant := (Guarded.salvage g.take).reading

/-- Moves the clock, and answers how that ends. -/
def move (g : GuardedClock) (m : Clock.Move) : Outcome Empty Unit × GuardedClock :=
  g.during m.perform

/-- The clock after moves one after the other. -/
def after (g : GuardedClock) (ms : List Clock.Move) : GuardedClock :=
  ms.foldl (fun g m => (g.move m).2) g

/-- What is seen of moves one after the other. -/
def log (g : GuardedClock) : List Clock.Move → List Entry
  | [] => []
  | m :: ms => ⟨m, (g.move m).1, (g.move m).2.now⟩ :: log (g.move m).2 ms

theorem now_eq (g : GuardedClock) : g.now = g.value.reading := by rw [now, Guarded.salvage_take]

theorem move_fst (g : GuardedClock) (m : Clock.Move) : (g.move m).1 = (m.perform g.value).1 :=
  g.during_fst _

theorem value_move (g : GuardedClock) (m : Clock.Move) : (g.move m).2.value = (m.perform g.value).2 :=
  g.value_during _

end GuardedClock
end LeaseLock
